import SexprAsm.Proofs.Tree.Sexpr
import SexprAsm.Text.Quoted
import SexprAsm.Value.Literal

/-!
# The grammar of source texts

What a source text says, as derivations over its characters. Every rule relates a stretch of
characters to what it stands for.

* `Bare` is the text of a bare head: characters that are not structural, escaped ones, and
  comments, which stand for nothing.
* `Gap` is what may stand after a quoted head or a list: ignorable characters and comments.
* `Piece` and `Body` are the inside of a quoted head with its escapes.
* `Head` is a quoted or a bare head with its tag.
* `Item` is a head with an optional list; `Items` is a row of items separated by commas.
* `Document` is one item, after which a comment may run up to the end of the source.

The rules for escapes look at what follows, since an octal escape takes as many digits as it can,
and a hexadecimal one that is cut short stands for itself.
-/

namespace SexprAsm.Grammar

open Text

/-- The text of a bare head, and the characters it stands for. -/
inductive Bare : List Char → List Char → Prop where
  | nil : Bare [] []
  | plain {c : Char} {src text : List Char} (hc : c ∉ structural) (h : Bare src text) :
      Bare (c :: src) (c :: text)
  | escaped {c : Char} {src text : List Char} (h : Bare src text) :
      Bare ('\\' :: c :: src) (c :: text)
  | comment {line src text : List Char} (hline : '\n' ∉ line) (h : Bare src text) :
      Bare (';' :: line ++ '\n' :: src) text

/-- Ignorable characters and comments. -/
inductive Gap : List Char → Prop where
  | nil : Gap []
  | blank {c : Char} {src : List Char} (hc : isIgnorable c) (h : Gap src) : Gap (c :: src)
  | comment {line src : List Char} (hline : '\n' ∉ line) (h : Gap src) :
      Gap (';' :: line ++ '\n' :: src)

/-- The text of a bare head that stands for ignorable characters only. -/
def Blank (src : List Char) : Prop := ∃ text, Bare src text ∧ ∀ c ∈ text, isIgnorable c

/-- The next character is a digit of the base. -/
def DigitNext (base : Nat) (src : List Char) : Prop := ∃ c ∈ src.head?, isDigit base c

theorem DigitNext.append {base : Nat} {src : List Char} (h : DigitNext base src)
    (tail : List Char) : DigitNext base (src ++ tail) := by
  obtain ⟨c, hc, hdigit⟩ := h
  cases src with
  | nil => cases hc
  | cons d src => exact ⟨c, hc, hdigit⟩

/-- A character or an escape inside a quoted head, before `rest`, and what it stands for. -/
inductive Piece (quote : Char) (rest : List Char) : List Char → List Char → Prop where
  | plain {c : Char} (hquote : c ≠ quote) (hslash : c ≠ '\\') : Piece quote rest [c] [c]
  | named {c control : Char} (hc : namedEscape? c = some control) :
      Piece quote rest ['\\', c] [control]
  | octal {digits : List Char} (hsome : digits ≠ []) (hlen : digits.length ≤ 3)
      (hdigits : ∀ c ∈ digits, isDigit 8 c)
      (hend : digits.length = 3 ∨ ¬ DigitNext 8 rest) :
      Piece quote rest ('\\' :: digits) [Char.ofNat (ofDigits 8 digits)]
  | hex {letter : Char} {width : Nat} {digits : List Char}
      (hletter : hexEscapeWidth? letter = some width) (hlen : digits.length = width)
      (hdigits : ∀ c ∈ digits, isDigit 16 c) (hvalid : (ofDigits 16 digits).isValidChar) :
      Piece quote rest ('\\' :: letter :: digits) [Char.ofNat (ofDigits 16 digits)]
  | cutHex {letter : Char} {width : Nat} {digits : List Char}
      (hletter : hexEscapeWidth? letter = some width) (hlen : digits.length < width)
      (hdigits : ∀ c ∈ digits, isDigit 16 c) (hend : ¬ DigitNext 16 rest) :
      Piece quote rest ('\\' :: letter :: digits) (letter :: digits)
  | other {c : Char} (hnamed : namedEscape? c = none) (hoctal : ¬ isDigit 8 c)
      (hhex : hexEscapeWidth? c = none) : Piece quote rest ['\\', c] [c]

/-- The conditions of a piece on what follows only concern digits. -/
theorem Piece.mono {quote : Char} {rest next piece chars : List Char}
    (h : Piece quote rest piece chars) (hnext : ∀ base, DigitNext base next → DigitNext base rest) :
    Piece quote next piece chars := by
  cases h with
  | plain hquote hslash => exact .plain hquote hslash
  | named hc => exact .named hc
  | octal hsome hlen hdigits hend =>
    exact .octal hsome hlen hdigits (hend.imp_right fun h hn => h (hnext 8 hn))
  | hex hletter hlen hdigits hvalid => exact .hex hletter hlen hdigits hvalid
  | cutHex hletter hlen hdigits hend =>
    exact .cutHex hletter hlen hdigits fun hn => hend (hnext 16 hn)
  | other hnamed hoctal hhex => exact .other hnamed hoctal hhex

/-- The inside of a quoted head, and the characters it stands for. -/
inductive Body (quote : Char) : List Char → List Char → Prop where
  | nil : Body quote [] []
  | cons {piece rest chars text : List Char} (hpiece : Piece quote rest piece chars)
      (h : Body quote rest text) : Body quote (piece ++ rest) (chars ++ text)

/-- The quotes that enclose a head. -/
def IsQuote (c : Char) : Prop := c = '"' ∨ c = '\''

/-- The literal of a bare head: null if nothing is left of it after trimming. -/
def bareValue (text : List Char) : Value :=
  let token := trimBy isIgnorable text
  if token.isEmpty then .null else .ofToken (String.ofList token)

/-- A head, and its tag. -/
inductive Head : List Char → Value → Prop where
  | quoted {before body text after : List Char} {quote : Char} (hbefore : Blank before)
      (hquote : IsQuote quote) (hbody : Body quote body text) (hafter : Gap after) :
      Head (before ++ quote :: body ++ quote :: after) (.string (String.ofList text))
  | bare {src text : List Char} (h : Bare src text) : Head src (bareValue text)

mutual

/-- A head with an optional list. A list that encloses only a blank has no items. -/
inductive Item : List Char → Sexpr → Prop where
  | leaf {head : List Char} {tag : Value} (hhead : Head head tag) : Item head (.node tag [])
  | empty {head inner after : List Char} {tag : Value} (hhead : Head head tag)
      (hinner : Blank inner) (hafter : Gap after) :
      Item (head ++ '(' :: inner ++ ')' :: after) (.node tag [])
  | list {head inner after : List Char} {tag : Value} {xs : List Sexpr} (hhead : Head head tag)
      (hsome : ¬ Blank inner) (hinner : Items inner xs) (hafter : Gap after) :
      Item (head ++ '(' :: inner ++ ')' :: after) (.node tag xs)

/-- One item, or more separated by commas. -/
inductive Items : List Char → List Sexpr → Prop where
  | one {src : List Char} {x : Sexpr} (h : Item src x) : Items src [x]
  | more {src rest : List Char} {x : Sexpr} {xs : List Sexpr} (h : Item src x)
      (hrest : Items rest xs) : Items (src ++ ',' :: rest) (x :: xs)

end

/-- What may follow the item of a document: a comment that the source ends before a line does. -/
def Trailer (src : List Char) : Prop := src = [] ∨ ∃ line, src = ';' :: line ∧ '\n' ∉ line

/-- A source text, and the S-expression it says. -/
def Document (src : List Char) (x : Sexpr) : Prop :=
  ∃ item trailer, src = item ++ trailer ∧ Item item x ∧ Trailer trailer

end SexprAsm.Grammar
