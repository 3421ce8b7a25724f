import SexprAsm.Text.CaseData

/-!
# Letter case

Full Unicode case mapping of single characters, and lower-casing of a text, where a capital sigma
at the end of a word becomes the final form of the letter.
-/

namespace SexprAsm.Text

/-- The mapping of one character by a list of runs and of expansions; itself if neither has it. -/
def mapCase (runs : List CaseRun) (expansions : List (Nat × List Nat)) (c : Char) : List Char :=
  match expansions.lookup c.toNat with
  | some several => several.map Char.ofNat
  | none =>
    match runs.find? (·.holds c.toNat) with
    | some run => [Char.ofNat ((c.toNat : Int) + run.shift).toNat]
    | none => [c]

/-- The lower-case form of one character. -/
def lowerChar (c : Char) : List Char :=
  if c.toNat < 0x80 then [c.toLower] else mapCase lowerRuns lowerExpansions c

/-- The upper-case form of one character. -/
def upperChar (c : Char) : List Char :=
  if c.toNat < 0x80 then [c.toUpper] else mapCase upperRuns upperExpansions c

/-- The code point lies in one of the closed ranges. -/
def inRanges (ranges : List (Nat × Nat)) (c : Char) : Bool :=
  ranges.any fun (first, last) => first ≤ c.toNat && c.toNat ≤ last

/-- Past the characters that case looks through there is one that has case. -/
def meetsCased (cs : List Char) : Bool :=
  match cs.dropWhile (inRanges caseIgnorableRanges) with
  | [] => false
  | c :: _ => inRanges casedRanges c

/-- Lower-cases a text; `before` is what precedes it, last character first. A capital sigma that
ends a word, preceded but not followed by a cased character, takes its final form. -/
def lowerChars (before : List Char) : List Char → List Char
  | [] => []
  | c :: cs =>
    let mapped :=
      if c = 'Σ' then
        if meetsCased before && !meetsCased cs then ['ς'] else ['σ']
      else lowerChar c
    mapped ++ lowerChars (c :: before) cs

/-- The text in lower case. -/
def lower (s : String) : String := String.ofList (lowerChars [] s.toList)

/-- The text with its first character in lower case. -/
def lowerFirst (s : String) : String :=
  match s.toList with
  | [] => ""
  | c :: cs => String.ofList (lowerChar c ++ cs)

/-- The text with its first character in upper case. -/
def upperFirst (s : String) : String :=
  match s.toList with
  | [] => ""
  | c :: cs => String.ofList (upperChar c ++ cs)

end SexprAsm.Text
