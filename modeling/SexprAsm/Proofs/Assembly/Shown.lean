import Mathlib.Data.List.Infix
import SexprAsm.Proofs.Assembly.Edits
import SexprAsm.Proofs.Assembly.Rendering
import SexprAsm.Proofs.Text.Lines

/-!
# What the text of an assembly shows

The text of an assembly shows its slots (`Assembly.shownSlots`) and its instructions with the
addresses they jump to (`Assembly.shownLines`), and it is made of nothing else
(`Assembly.text_eq`). Names go into it as they are. So it can be read in one way only
(`Assembly.text_inj`) if no name imitates what stands around it (`Assembly.Legible`): names have no
line ends, the name of a slot does not begin like a line that exports one, and the name of a type
has nothing in it that looks like the start of a type.
-/

namespace SexprAsm

open Text

/-! ## Slots

A text lists the slots twice, once where they are exported and once where they are declared. The
lines of both kinds are told apart by how they begin, and a declaration is read from its end,
where the last mark stands (`append_typeMark_inj`). -/

/-- A slot as the text shows it. -/
structure ShownSlot where
  name : String
  type : String
  exported : Bool
  sync : Option String
  /-- The slot starts with the object the program belongs to, and with null otherwise. -/
  this : Bool
  deriving DecidableEq, Repr

namespace ShownSlot

/-- The lines that export a slot and say how it is kept in step. -/
def exports (s : ShownSlot) : List String :=
  (if s.exported then [".export " ++ s.name] else []) ++
    (s.sync.map fun mode => ".sync " ++ s.name ++ ", " ++ mode).toList

/-- The line that declares a slot. -/
def declaration (s : ShownSlot) : String :=
  s.name ++ ": %" ++ s.type ++ ", " ++ if s.this then "this" else "null"

/-- A line that exports a slot or says how it is kept in step begins like this. -/
def ExportLike (line : String) : Prop :=
  ".export ".toList <+: line.toList ∨ ".sync ".toList <+: line.toList

instance (line : String) : Decidable (ExportLike line) :=
  inferInstanceAs (Decidable (_ ∨ _))

/-- What stands between the name of a slot and the name of its type. -/
def typeMark : List Char := ": %".toList

/-- No name imitates what stands around it. -/
structure Legible (s : ShownSlot) : Prop where
  name : OneLine s.name
  apart : ¬ ExportLike s.name
  type : OneLine s.type
  unmarked : ¬ typeMark <:+: s.type.toList
  sync : ∀ mode ∈ s.sync, mode ∈ ["none", "linear", "smooth"]

instance (s : ShownSlot) : Decidable s.Legible :=
  decidable_of_iff (OneLine s.name ∧ ¬ ExportLike s.name ∧ OneLine s.type ∧
      ¬ typeMark <:+: s.type.toList ∧ ∀ mode ∈ s.sync, mode ∈ ["none", "linear", "smooth"])
    ⟨fun ⟨h₁, h₂, h₃, h₄, h₅⟩ => ⟨h₁, h₂, h₃, h₄, h₅⟩, fun h => ⟨h.1, h.2, h.3, h.4, h.5⟩⟩

variable {s s' : ShownSlot} {line : String}

theorem mem_exports : line ∈ s.exports ↔ s.exported = true ∧ line = ".export " ++ s.name ∨
    ∃ mode, s.sync = some mode ∧ line = ".sync " ++ s.name ++ ", " ++ mode := by
  unfold exports
  cases s.exported <;> cases s.sync <;> simp

theorem exportLike_of_mem_exports (h : line ∈ s.exports) : ExportLike line := by
  rcases mem_exports.mp h with ⟨-, rfl⟩ | ⟨mode, -, rfl⟩
  · left
    rw [String.toList_append]
    exact List.prefix_append _ _
  · right
    rw [String.append_assoc, String.append_assoc, String.toList_append]
    exact List.prefix_append _ _

/-- A declaration reads like an export only if its name does. -/
theorem Legible.not_exportLike_declaration (h : s.Legible) : ¬ ExportLike s.declaration := by
  have hsplit : s.declaration.toList = s.name.toList ++
      ':' :: ' ' :: '%' :: (s.type ++ ", " ++ if s.this then "this" else "null").toList := by
    simp [declaration]
  rintro (hlead | hlead)
  · exact h.apart (Or.inl (prefix_of_prefix_append (hsplit ▸ hlead) (by decide)))
  · exact h.apart (Or.inr (prefix_of_prefix_append (hsplit ▸ hlead) (by decide)))

theorem Legible.oneLine_exports (h : s.Legible) (hline : line ∈ s.exports) : OneLine line := by
  have hmodes : ∀ mode ∈ ["none", "linear", "smooth"], OneLine mode := by decide
  rcases mem_exports.mp hline with ⟨-, rfl⟩ | ⟨mode, hmode, rfl⟩
  · exact oneLine_append.mpr ⟨by decide, h.name⟩
  · simp only [oneLine_append]
    exact ⟨⟨⟨by decide, h.name⟩, by decide⟩, hmodes mode (h.sync mode hmode)⟩

theorem Legible.oneLine_declaration (h : s.Legible) : OneLine s.declaration := by
  simp only [declaration, oneLine_append]
  refine ⟨⟨⟨⟨h.name, by decide⟩, h.type⟩, by decide⟩, ?_⟩
  split <;> decide

theorem declaration_ne_end (s : ShownSlot) : s.declaration ≠ ".data_end" := by
  intro h
  have hlast := congrArg (fun line => line.toList.getLast?) h
  simp only [declaration, String.toList_append] at hlast
  rw [List.getLast?_append_of_ne_nil _ (by split <;> decide)] at hlast
  revert hlast
  split <;> decide

/-- If what follows a mark has no mark in it, the mark is the last one. -/
theorem append_typeMark_inj {xs xs' ys ys' : List Char}
    (h : xs ++ (typeMark ++ ys) = xs' ++ (typeMark ++ ys')) (hys : ¬ typeMark <:+: ys)
    (hys' : ¬ typeMark <:+: ys') : xs = xs' ∧ ys = ys' := by
  -- A mark does not overlap itself, so of two marks one is behind the other.
  have hfirst : ∀ {between ys ys' : List Char},
      typeMark ++ ys = between ++ (typeMark ++ ys') → ¬ typeMark <:+: ys →
        between = [] ∧ ys = ys' := by
    intro between ys ys' h hys
    rcases between with _ | ⟨a, _ | ⟨b, _ | ⟨c, between⟩⟩⟩
    · exact ⟨rfl, List.append_cancel_left h⟩
    · simp [typeMark] at h
    · simp [typeMark] at h
    · refine (hys ⟨between, ys', ?_⟩).elim
      simp only [List.cons_append] at h
      rw [List.append_assoc]
      exact (List.cons.inj (List.cons.inj (List.cons.inj h).2).2).2.symm
  rcases List.append_eq_append_iff.mp h with ⟨between, rfl, hbetween⟩ | ⟨between, rfl, hbetween⟩
  · obtain ⟨rfl, rfl⟩ := hfirst hbetween hys
    simp
  · obtain ⟨rfl, rfl⟩ := hfirst hbetween hys'
    simp

theorem declaration_inj (h : s.declaration = s'.declaration) (hs : s.Legible) (hs' : s'.Legible) :
    s.name = s'.name ∧ s.type = s'.type ∧ s.this = s'.this := by
  have hchars := congrArg String.toList h
  simp only [declaration, String.toList_append] at hchars
  -- What a slot starts with is told by the last four characters.
  obtain ⟨hchars, hstart⟩ := List.append_inj' hchars (by split <;> split <;> rfl)
  have hthis : s.this = s'.this := by
    cases hthis : s.this <;> cases hthis' : s'.this <;> simp [hthis, hthis'] at hstart ⊢
  have hchars := List.append_cancel_right hchars
  rw [List.append_assoc, List.append_assoc] at hchars
  obtain ⟨hname, htype⟩ := append_typeMark_inj hchars hs.unmarked hs'.unmarked
  exact ⟨String.toList_inj.mp hname, String.toList_inj.mp htype, hthis⟩

/-- A line that exports a slot tells which. -/
theorem name_of_mem_exports (h : line ∈ s.exports) (h' : line ∈ s'.exports) (hs : s.Legible)
    (hs' : s'.Legible) : s.name = s'.name := by
  rcases mem_exports.mp h with ⟨-, rfl⟩ | ⟨mode, hmode, rfl⟩
  · rcases mem_exports.mp h' with ⟨-, heq⟩ | ⟨mode', -, heq⟩
    · exact append_left_inj heq
    · have hchars := congrArg String.toList heq
      simp at hchars
  · rcases mem_exports.mp h' with ⟨-, heq⟩ | ⟨mode', hmode', heq⟩
    · have hchars := congrArg String.toList heq
      simp at hchars
    · -- The three ways of keeping in step end with three different letters.
      have hletters : ∀ mode ∈ ["none", "linear", "smooth"], mode.toList ≠ [] ∧
          ∀ mode' ∈ ["none", "linear", "smooth"],
            mode.toList.getLast? = mode'.toList.getLast? → mode = mode' := by
        decide
      obtain ⟨hne, hletter⟩ := hletters mode (hs.sync mode hmode)
      obtain ⟨hne', -⟩ := hletters mode' (hs'.sync mode' hmode')
      have hlast := congrArg (fun line => line.toList.getLast?) heq
      simp only [String.toList_append] at hlast
      rw [List.getLast?_append_of_ne_nil _ hne, List.getLast?_append_of_ne_nil _ hne'] at hlast
      obtain rfl := hletter mode' (hs'.sync mode' hmode') hlast
      exact append_left_inj (append_right_inj (append_right_inj heq))

theorem exported_iff (s : ShownSlot) : s.exported = true ↔ ".export " ++ s.name ∈ s.exports := by
  refine ⟨fun h => mem_exports.mpr (Or.inl ⟨h, rfl⟩), fun h => ?_⟩
  rcases mem_exports.mp h with ⟨hexported, -⟩ | ⟨mode, -, heq⟩
  · exact hexported
  · have hchars := congrArg String.toList heq
    simp at hchars

theorem sync_iff (s : ShownSlot) (mode : String) :
    s.sync = some mode ↔ ".sync " ++ s.name ++ ", " ++ mode ∈ s.exports := by
  refine ⟨fun h => mem_exports.mpr (Or.inr ⟨mode, h, rfl⟩), fun h => ?_⟩
  rcases mem_exports.mp h with ⟨-, heq⟩ | ⟨mode', hmode', heq⟩
  · have hchars := congrArg String.toList heq
    simp at hchars
  · rw [hmode', append_left_inj heq]

theorem exports_inj (h : s.exports = s'.exports) (hname : s.name = s'.name) :
    s.exported = s'.exported ∧ s.sync = s'.sync := by
  constructor
  · rw [Bool.eq_iff_iff, exported_iff, exported_iff, h, hname]
  · ext mode
    rw [sync_iff, sync_iff, h, hname]

/-- Slots of different names are told apart by the lines that export them and those that declare
them. -/
theorem slots_inj {ss ss' : List ShownSlot} (hexports : ss.flatMap exports = ss'.flatMap exports)
    (hdeclared : ss.map declaration = ss'.map declaration) (hss : ∀ s ∈ ss, s.Legible)
    (hss' : ∀ s ∈ ss', s.Legible) (hnodup : (ss.map name).Nodup) : ss = ss' := by
  have hnames := map_eq_of_map_eq hdeclared fun s hs s' hs' h =>
    (declaration_inj h (hss s hs) (hss' s' hs')).1
  induction ss generalizing ss' with
  | nil => exact (List.map_eq_nil_iff.mp hdeclared.symm).symm
  | cons s ss ih =>
    cases ss' with
    | nil => cases hdeclared
    | cons s' ss' =>
      obtain ⟨hdeclaration, hdeclared⟩ := List.cons.inj hdeclared
      obtain ⟨-, hrest⟩ := List.cons.inj hnames
      have hs := hss s List.mem_cons_self
      have hs' := hss' s' List.mem_cons_self
      obtain ⟨hname, htype, hthis⟩ := declaration_inj hdeclaration hs hs'
      rw [List.map_cons, List.nodup_cons] at hnodup
      -- The lines of the first slot end where another slot is named.
      have hother : ∀ {others : List ShownSlot}, (∀ o ∈ others, o.Legible) →
          s.name ∉ others.map name → ∀ line ∈ (others.flatMap exports).head?,
            ¬ ∃ o : ShownSlot, o.Legible ∧ o.name = s.name ∧ line ∈ o.exports := by
        rintro others hothers hnot line hline ⟨o, ho, hsame, hmem⟩
        obtain ⟨o', ho', hmem'⟩ := List.mem_flatMap.mp (List.mem_of_head? hline)
        refine hnot (List.mem_map.mpr ⟨o', ho', ?_⟩)
        rw [← hsame, name_of_mem_exports hmem hmem' ho (hothers o' ho')]
      rw [List.flatMap_cons, List.flatMap_cons] at hexports
      have hss₁ : ∀ o ∈ ss, o.Legible := fun o ho => hss o (List.mem_cons_of_mem _ ho)
      have hss₁' : ∀ o ∈ ss', o.Legible := fun o ho => hss' o (List.mem_cons_of_mem _ ho)
      obtain ⟨hfirst, hexports⟩ := append_inj_of_ends hexports
        (fun line hline => ⟨s, hs, rfl, hline⟩) (fun line hline => ⟨s', hs', hname.symm, hline⟩)
        (hother hss₁ hnodup.1) (hother hss₁' (hrest ▸ hnodup.1))
      obtain ⟨hexported, hsync⟩ := exports_inj hfirst hname
      have heq : s = s' := by
        obtain ⟨name, type, exported, sync, this⟩ := s
        obtain ⟨name', type', exported', sync', this'⟩ := s'
        simp_all
      rw [heq, ih hexports hdeclared hss₁ hss₁' hnodup.2 hrest]

end ShownSlot

/-! ## Lines of code

The text of an instruction is a beginning that names it, and the rest. As no beginning is the
beginning of another one (`stems_apart`), the text tells the instruction. A label stands on a
line of its own before it, which begins with a dot like no instruction does. -/

/-- The instruction without its target if it is a jump. -/
def Instruction.untargeted (i : Instruction) : Instruction := (i.retarget? .unresolved).getD i

/-- How the text of an instruction begins. -/
def Instruction.stem : Instruction → String
  | nop => "NOP"
  | pop => "POP"
  | copy => "COPY"
  | push _ => "PUSH, "
  | jump _ => "JUMP, 0x"
  | jumpIfFalse _ => "JUMP_IF_FALSE, 0x"
  | jumpIndirect _ => "JUMP_INDIRECT, "
  | call _ => "EXTERN, \""

/-- The rest of the text, for a jump to `address`. -/
def Instruction.operand (address : Nat) : Instruction → String
  | nop | pop | copy => ""
  | push name | jumpIndirect name => name
  | jump _ | jumpIfFalse _ => hex8 address
  | call name => name ++ "\""

/-- The text of an instruction that jumps to `address` if it jumps. -/
def Instruction.text (address : Nat) (i : Instruction) : String := i.stem ++ i.operand address

namespace Instruction

variable {i i' : Instruction} {m n : Nat}

theorem target?_untargeted (i : Instruction) :
    i.untargeted.target? = i.target?.map fun _ => .unresolved := by
  cases i <;> rfl

theorem untargeted_untargeted (i : Instruction) : i.untargeted.untargeted = i.untargeted := by
  cases i <;> rfl

theorem text_untargeted (i : Instruction) (n : Nat) : i.untargeted.text n = i.text n := by
  cases i <;> rfl

/-- Only a jump has an address in its text. -/
theorem text_getD (i : Instruction) (n : Nat) :
    i.text ((i.target?.map fun _ => n).getD 0) = i.text n := by
  cases i <;> rfl

/-- The beginnings of texts. -/
def stems : List String :=
  ["NOP", "POP", "COPY", "PUSH, ", "JUMP, 0x", "JUMP_IF_FALSE, 0x", "JUMP_INDIRECT, ",
    "EXTERN, \""]

theorem stem_mem_stems (i : Instruction) : i.stem ∈ stems := by
  cases i <;> simp [stem, stems]

/-- No beginning is the beginning of another one. -/
theorem stems_apart : ∀ x ∈ stems, ∀ y ∈ stems, x.toList <+: y.toList → x = y := by
  decide +kernel

theorem stem_of_text (h : i.text m = i'.text n) : i.stem = i'.stem := by
  have hchars := congrArg String.toList h
  rw [text, text, String.toList_append, String.toList_append] at hchars
  have hi := List.prefix_append i.stem.toList (i.operand m).toList
  rcases List.prefix_or_prefix_of_prefix (hchars ▸ hi) (List.prefix_append _ _) with h | h
  · exact stems_apart _ i.stem_mem_stems _ i'.stem_mem_stems h
  · exact (stems_apart _ i'.stem_mem_stems _ i.stem_mem_stems h).symm

/-- The text of an instruction tells all but its target, and the address in its place. -/
theorem text_inj (h : i.text m = i'.text n) :
    i.untargeted = i'.untargeted ∧ (i.target?.isSome → m = n) := by
  have hstem := stem_of_text h
  rw [text, text, hstem] at h
  have hoperand := append_left_inj h
  cases i <;> cases i' <;> simp [stem] at hstem
  case nop => exact ⟨rfl, fun h => by cases h⟩
  case pop => exact ⟨rfl, fun h => by cases h⟩
  case copy => exact ⟨rfl, fun h => by cases h⟩
  case push => exact ⟨congrArg push hoperand, fun h => by cases h⟩
  case jumpIndirect => exact ⟨congrArg jumpIndirect hoperand, fun h => by cases h⟩
  case call => exact ⟨congrArg call (append_right_inj hoperand), fun h => by cases h⟩
  case jump => exact ⟨rfl, fun _ => hex8_injective hoperand⟩
  case jumpIfFalse => exact ⟨rfl, fun _ => hex8_injective hoperand⟩

/-- No instruction reads like a directive. -/
theorem head?_text (i : Instruction) (n : Nat) : (i.text n).toList.head? ≠ some '.' := by
  cases i <;> simp [text, stem]

theorem oneLine_text (n : Nat) (h : ∀ name ∈ i.name?, OneLine name) : OneLine (i.text n) := by
  have hstem : ∀ x ∈ stems, OneLine x := by decide
  refine oneLine_append.mpr ⟨hstem _ i.stem_mem_stems, ?_⟩
  cases i with
  | push name => exact h name rfl
  | jump target => exact oneLine_hex8 n
  | jumpIfFalse target => exact oneLine_hex8 n
  | jumpIndirect name => exact h name rfl
  | call name => exact oneLine_append.mpr ⟨h name rfl, by decide⟩
  | nop => exact show OneLine "" by decide
  | pop => exact show OneLine "" by decide
  | copy => exact show OneLine "" by decide

end Instruction

/-- A line of code as the text shows it. -/
structure ShownLine where
  label : Option String
  /-- The instruction, a jump without its target. -/
  instruction : Instruction
  /-- The address that a jump goes to. -/
  address : Option Nat
  deriving DecidableEq, Repr

namespace ShownLine

/-- The entry point that starts at an instruction, and its text. -/
def lines (l : ShownLine) : List String :=
  (l.label.elim [] fun label => [".export " ++ label, label ++ ":"]) ++
    [l.instruction.text (l.address.getD 0)]

/-- Jumps, and nothing else, have an address instead of a target. -/
structure Settled (l : ShownLine) : Prop where
  untargeted : l.instruction.untargeted = l.instruction
  address : l.address.isSome = l.instruction.target?.isSome

/-- No name goes over the end of a line. -/
structure Legible (l : ShownLine) : Prop where
  label : ∀ label ∈ l.label, OneLine label
  operand : ∀ name ∈ l.instruction.name?, OneLine name

instance (l : ShownLine) : Decidable l.Legible :=
  decidable_of_iff ((∀ label ∈ l.label, OneLine label) ∧
      ∀ name ∈ l.instruction.name?, OneLine name)
    ⟨fun ⟨h₁, h₂⟩ => ⟨h₁, h₂⟩, fun h => ⟨h.1, h.2⟩⟩

variable {l l' : ShownLine} {ls ls' : List ShownLine}

theorem Legible.oneLine (h : l.Legible) : ∀ line ∈ l.lines, OneLine line := by
  intro line hline
  rw [lines, List.mem_append, List.mem_singleton] at hline
  rcases hline with hline | rfl
  · cases hlabel : l.label with
    | none =>
      rw [hlabel] at hline
      cases hline
    | some label =>
      have hone := h.label label hlabel
      rw [hlabel, Option.elim_some, List.mem_cons, List.mem_singleton] at hline
      rcases hline with rfl | rfl
      · exact oneLine_append.mpr ⟨by decide, hone⟩
      · exact oneLine_append.mpr ⟨hone, by decide⟩
  · exact Instruction.oneLine_text _ h.operand

/-- Instructions with one text and one label are the same. -/
theorem eq_of_text (h : l.instruction.text (l.address.getD 0) =
      l'.instruction.text (l'.address.getD 0)) (hlabel : l.label = l'.label) (hl : l.Settled)
    (hl' : l'.Settled) : l = l' := by
  obtain ⟨hinstruction, haddress⟩ := Instruction.text_inj h
  rw [hl.untargeted, hl'.untargeted] at hinstruction
  obtain ⟨label, i, address⟩ := l
  obtain ⟨label', i', address'⟩ := l'
  obtain rfl : label = label' := hlabel
  obtain rfl : i = i' := hinstruction
  have hsome := hl.address
  have hsome' := hl'.address
  dsimp only at hsome hsome' haddress
  cases address <;> cases address' <;> simp_all

/-- Where one instruction ends in the text and the next one begins can be told from the text. -/
theorem lines_append_inj {rest rest' : List String} (h : l.lines ++ rest = l'.lines ++ rest')
    (hl : l.Settled) (hl' : l'.Settled) : l = l' ∧ rest = rest' := by
  have hexport : ∀ (i : Instruction) (n : Nat) (label : String),
      i.text n ≠ ".export " ++ label := by
    intro i n label htext
    refine i.head?_text n ?_
    rw [htext, String.toList_append]
    rfl
  have htext : ∀ {rest rest' : List String}, l.instruction.text (l.address.getD 0) :: rest =
      l'.instruction.text (l'.address.getD 0) :: rest' → l.label = l'.label →
      l = l' ∧ rest = rest' := by
    intro rest rest' h hlabel
    obtain ⟨htext, hrest⟩ := List.cons.inj h
    exact ⟨eq_of_text htext hlabel hl hl', hrest⟩
  unfold lines at h
  cases hlabel : l.label with
  | none =>
    cases hlabel' : l'.label with
    | none =>
      rw [hlabel, hlabel'] at h
      exact htext h (hlabel.trans hlabel'.symm)
    | some label' =>
      rw [hlabel, hlabel'] at h
      exact (hexport _ _ _ (List.cons.inj h).1).elim
  | some label =>
    cases hlabel' : l'.label with
    | none =>
      rw [hlabel, hlabel'] at h
      exact (hexport _ _ _ (List.cons.inj h).1.symm).elim
    | some label' =>
      rw [hlabel, hlabel'] at h
      obtain ⟨hlabels, h⟩ := List.cons.inj h
      obtain ⟨-, h⟩ := List.cons.inj h
      refine htext h ?_
      have hchars := congrArg String.toList hlabels
      rw [String.toList_append, String.toList_append, List.append_cancel_left_eq] at hchars
      rw [hlabel, hlabel', String.toList_inj.mp hchars]

theorem flatMap_lines_inj (h : ls.flatMap lines = ls'.flatMap lines) (hls : ∀ l ∈ ls, l.Settled)
    (hls' : ∀ l ∈ ls', l.Settled) : ls = ls' := by
  have hne : ∀ l : ShownLine, l.lines ≠ [] := by
    intro l
    simp [lines]
  induction ls generalizing ls' with
  | nil =>
    cases ls' with
    | nil => rfl
    | cons l' ls' => exact (hne l' (List.append_eq_nil_iff.mp h.symm).1).elim
  | cons l ls ih =>
    cases ls' with
    | nil => exact (hne l (List.append_eq_nil_iff.mp h).1).elim
    | cons l' ls' =>
      rw [List.flatMap_cons, List.flatMap_cons] at h
      obtain ⟨rfl, hrest⟩ := lines_append_inj h (hls l List.mem_cons_self)
        (hls' l' List.mem_cons_self)
      rw [ih hrest (fun l hl => hls l (List.mem_cons_of_mem _ hl))
        fun l hl => hls' l (List.mem_cons_of_mem _ hl)]

end ShownLine

/-! ## Texts

A text is a list of lines, and can be read back as one if no name goes over the end of a line.
Slots and code are separated by fixed lines, so the parts above apply to each side. -/

namespace Assembly

/-- The slots as the text shows them. -/
def shownSlots (types : TypeTable) (a : Assembly) : List ShownSlot :=
  a.heap.slots.entries.map fun (name, v) =>
    ⟨name, types.name v.type, v.attributes.exported, v.attributes.syncMode?,
      v.attributes.defaultThis⟩

/-- A line of code as the text shows it. -/
def shownLine (a : Assembly) (line : Line) : ShownLine :=
  ⟨line.label, line.instruction.untargeted,
    line.instruction.target?.bind fun target => (a.addressOf line.offset target).toOption⟩

/-- The instructions as the text shows them. -/
def shownLines (a : Assembly) : List ShownLine := a.lines.toList.map a.shownLine

/-- No name imitates what stands around it in the text. -/
structure Legible (types : TypeTable) (a : Assembly) : Prop where
  slots : ∀ s ∈ a.shownSlots types, s.Legible
  lines : ∀ l ∈ a.shownLines, l.Legible

instance (types : TypeTable) (a : Assembly) : Decidable (a.Legible types) :=
  decidable_of_iff ((∀ s ∈ a.shownSlots types, s.Legible) ∧ ∀ l ∈ a.shownLines, l.Legible)
    ⟨fun ⟨h₁, h₂⟩ => ⟨h₁, h₂⟩, fun h => ⟨h.1, h.2⟩⟩

variable {a a' : Assembly} {types : TypeTable}

/-- What is rendered is the text of the instruction with the address that its target stands for. -/
theorem renderInstruction_eq {offset : Nat} {i : Instruction} {text : String}
    (h : a.renderInstruction offset i = .ok text) : ∃ address, text = i.text address ∧
      (i.target?.bind fun target => (a.addressOf offset target).toOption) =
        i.target?.map fun _ => address := by
  have hjump : ∀ {lead : String} {target : JumpTarget},
      (do return lead ++ hex8 (← a.addressOf offset target) : Except BuildError String) =
        .ok text → ∃ address, text = lead ++ hex8 address ∧
          (a.addressOf offset target).toOption = some address := by
    intro lead target h
    obtain ⟨address, haddress, h⟩ := Except.bind_eq_ok.mp h
    exact ⟨address, (Except.ok.inj h).symm, by rw [haddress]; rfl⟩
  cases i with
  | jump target => exact hjump h
  | jumpIfFalse target => exact hjump h
  | nop => exact ⟨0, (Except.ok.inj h).symm, rfl⟩
  | pop => exact ⟨0, (Except.ok.inj h).symm, rfl⟩
  | copy => exact ⟨0, (Except.ok.inj h).symm, rfl⟩
  | push name => exact ⟨0, (Except.ok.inj h).symm, rfl⟩
  | jumpIndirect name => exact ⟨0, (Except.ok.inj h).symm, rfl⟩
  | call name =>
    refine ⟨0, (Except.ok.inj h).symm.trans ?_, rfl⟩
    rw [Instruction.text, Instruction.operand, Instruction.stem, String.append_assoc]

/-- A line of code is the text of what it shows. -/
theorem shown_of_codeLines {line : Line} {code : List String} (h : a.codeLines line = .ok code) :
    (a.shownLine line).Settled ∧ code = (a.shownLine line).lines := by
  obtain ⟨text, hrender, h⟩ := Except.bind_eq_ok.mp h
  obtain rfl := Except.ok.inj h
  obtain ⟨address, rfl, haddress⟩ := renderInstruction_eq hrender
  have hshown : a.shownLine line = ⟨line.label, line.instruction.untargeted,
      line.instruction.target?.map fun _ => address⟩ := by
    rw [shownLine, haddress]
  rw [hshown]
  refine ⟨⟨Instruction.untargeted_untargeted _, ?_⟩, ?_⟩
  · rw [Instruction.target?_untargeted, Option.isSome_map, Option.isSome_map]
  · rw [ShownLine.lines, Instruction.text_untargeted, Instruction.text_getD]

theorem shown_of_forall₂ {lines : List Line} {code : List (List String)}
    (h : List.Forall₂ (fun line shown => a.codeLines line = .ok shown) lines code) :
    (∀ l ∈ lines.map a.shownLine, l.Settled) ∧
      code.flatten = (lines.map a.shownLine).flatMap ShownLine.lines := by
  induction h with
  | nil => exact ⟨by rintro _ ⟨⟩, rfl⟩
  | cons hline _ ih =>
    obtain ⟨hsettled, rfl⟩ := shown_of_codeLines hline
    exact ⟨List.forall_mem_cons.mpr ⟨hsettled, ih.1⟩, by simp [ih.2]⟩

/-- The lines of a text that shows slots and instructions. -/
def linesOf (slots : List ShownSlot) (code : List ShownLine) : List String :=
  ".data_start" :: (slots.flatMap ShownSlot.exports ++ (slots.map ShownSlot.declaration ++
    ".data_end" :: ".code_start" :: (code.flatMap ShownLine.lines ++ [".code_end"])))

/-- A text is made of what it shows. -/
theorem text_eq {text : String} (h : a.text types = .ok text) :
    (∀ l ∈ a.shownLines, l.Settled) ∧
      text = String.join ((linesOf (a.shownSlots types) a.shownLines).map (· ++ "\n")) := by
  obtain ⟨code, hcode, rfl⟩ := text_stages h
  obtain ⟨hsettled, hflatten⟩ := shown_of_forall₂ hcode
  have hdata : dataLines types a = (a.shownSlots types).flatMap ShownSlot.exports ++
      (a.shownSlots types).map ShownSlot.declaration := by
    rw [dataLines, shownSlots, List.flatMap_map, List.map_map]
    rfl
  refine ⟨hsettled, ?_⟩
  rw [hdata, hflatten, linesOf, shownLines]
  simp only [List.append_assoc, List.cons_append, List.nil_append]

theorem Legible.oneLine (h : a.Legible types) :
    ∀ line ∈ linesOf (a.shownSlots types) a.shownLines, OneLine line := by
  simp only [linesOf, List.mem_cons, List.mem_append, List.mem_flatMap, List.mem_map,
    List.not_mem_nil, or_false]
  rintro line (rfl | ⟨s, hs, hline⟩ | ⟨s, hs, rfl⟩ | rfl | rfl | ⟨l, hl, hline⟩ | rfl)
  · decide
  · exact (h.slots s hs).oneLine_exports hline
  · exact (h.slots s hs).oneLine_declaration
  · decide
  · decide
  · exact (h.lines l hl).oneLine line hline
  · decide

/-- A text shows one thing only. -/
theorem text_inj {text : String} (h : a.text types = .ok text) (h' : a'.text types = .ok text)
    (hlegible : a.Legible types) (hlegible' : a'.Legible types)
    (hnodup : a.heap.slots.keys.Nodup) :
    a.shownSlots types = a'.shownSlots types ∧ a.shownLines = a'.shownLines := by
  obtain ⟨hsettled, rfl⟩ := text_eq h
  obtain ⟨hsettled', htext⟩ := text_eq h'
  have hlines := join_lines_injective htext hlegible.oneLine hlegible'.oneLine
  obtain ⟨-, hlines⟩ := List.cons.inj hlines
  -- Exports end where the first line does not look like one, declarations at their end mark.
  have hends : ∀ {b : Assembly}, b.Legible types → ∀ (rest : List String), ∀ line ∈
      ((b.shownSlots types).map ShownSlot.declaration ++ ".data_end" :: rest).head?,
      ¬ ShownSlot.ExportLike line := by
    intro b hb rest line hline
    cases hslots : b.shownSlots types with
    | nil =>
      rw [hslots] at hline
      obtain rfl := Option.some.inj hline
      decide
    | cons s ss =>
      rw [hslots] at hline
      obtain rfl := Option.some.inj hline
      exact (hb.slots s (hslots ▸ List.mem_cons_self)).not_exportLike_declaration
  have hexports : ∀ {b : Assembly}, ∀ line ∈ (b.shownSlots types).flatMap ShownSlot.exports,
      ShownSlot.ExportLike line := by
    intro b line hline
    obtain ⟨s, -, hmem⟩ := List.mem_flatMap.mp hline
    exact ShownSlot.exportLike_of_mem_exports hmem
  obtain ⟨hexported, hlines⟩ :=
    append_inj_of_ends hlines hexports hexports (hends hlegible _) (hends hlegible' _)
  have hdeclares : ∀ {b : Assembly}, ∀ line ∈ (b.shownSlots types).map ShownSlot.declaration,
      line ≠ ".data_end" := by
    rintro b _ hline rfl
    obtain ⟨s, -, hs⟩ := List.mem_map.mp hline
    exact s.declaration_ne_end hs
  obtain ⟨hdeclared, hlines⟩ := append_inj_of_ends (p := (· ≠ ".data_end")) hlines hdeclares
    hdeclares (by simp) (by simp)
  obtain ⟨-, hlines⟩ := List.cons.inj hlines
  obtain ⟨-, hlines⟩ := List.cons.inj hlines
  refine ⟨?_, ShownLine.flatMap_lines_inj (List.append_cancel_right hlines) hsettled hsettled'⟩
  refine ShownSlot.slots_inj hexported hdeclared hlegible.slots hlegible'.slots ?_
  rw [shownSlots, List.map_map]
  exact hnodup

end Assembly

end SexprAsm
