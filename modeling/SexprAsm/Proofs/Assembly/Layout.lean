import Mathlib.Algebra.Order.Ring.Nat
import Mathlib.Data.List.Basic
import Mathlib.Tactic.Common
import SexprAsm.Assembly.Text

/-!
# Where instructions stand

The offset of every line is the number of bytes of the instructions before it (`Assembly.Laid`).
Appending an instruction and giving a jump another target keep this, because a jump has the same
number of bytes whatever its target. So the address after an instruction can be read off the list
of instructions alone (`Assembly.Laid.addressOf_after`).
-/

namespace SexprAsm

namespace Instruction

/-- The number of bytes of a row of instructions. -/
def bytes (code : List Instruction) : Nat := (code.map size).sum

@[simp] theorem bytes_nil : bytes [] = 0 := rfl

@[simp]
theorem bytes_cons (i : Instruction) (code : List Instruction) :
    bytes (i :: code) = i.size + bytes code := by
  simp [bytes]

@[simp]
theorem bytes_append (code code' : List Instruction) :
    bytes (code ++ code') = bytes code + bytes code' := by
  simp [bytes]

theorem size_pos (i : Instruction) : 0 < i.size := by
  cases i <;> simp [size]

theorem size_of_retarget? {target : JumpTarget} {i i' : Instruction}
    (h : i.retarget? target = some i') : i'.size = i.size := by
  cases i <;> simp only [retarget?, Option.some.injEq, reduceCtorEq] at h <;> subst h <;> rfl

theorem bytes_take_succ {code : List Instruction} {n : Nat} {i : Instruction}
    (h : code[n]? = some i) : bytes (code.take (n + 1)) = bytes (code.take n) + i.size := by
  rw [List.take_add_one, h, bytes_append]
  simp

/-- Replacing an instruction by one of the same size moves no other. -/
theorem bytes_take_set {code : List Instruction} {n : Nat} {i i' : Instruction}
    (h : code[n]? = some i) (hsize : i'.size = i.size) (k : Nat) :
    bytes ((code.set n i').take k) = bytes (code.take k) := by
  induction code generalizing n k with
  | nil => cases h
  | cons j code ih =>
    cases k with
    | zero => rfl
    | succ k =>
      cases n with
      | zero =>
        obtain rfl : j = i := by simpa using h
        simp [hsize]
      | succ n =>
        rw [List.getElem?_cons_succ] at h
        simp [ih h]

/-- Places in a row of instructions are told apart by the number of bytes before them. -/
theorem bytes_take_lt {code : List Instruction} {m n : Nat} (h : m < n) (hm : m < code.length) :
    bytes (code.take m) < bytes (code.take n) := by
  obtain ⟨k, rfl⟩ := Nat.exists_eq_add_of_lt h
  have hsplit := List.take_add (l := code) (i := m) (j := k + 1)
  rw [Nat.add_assoc, hsplit, bytes_append, List.drop_eq_getElem_cons hm, List.take_succ_cons,
    bytes_cons]
  have := size_pos (code[m])
  omega

end Instruction

open Instruction

namespace Assembly

variable {a : Assembly} {i : Instruction} {n : Nat}

theorem length_instructions (a : Assembly) : a.instructions.length = a.lines.size := by
  simp [instructions]

theorem getElem?_instructions (a : Assembly) (n : Nat) :
    a.instructions[n]? = a.instruction? n := by
  simp [instructions, instruction?]

/-- Every line stands where the lines before it end. -/
def Laid (a : Assembly) : Prop :=
  ∀ n line, a.lines[n]? = some line → line.offset = bytes (a.instructions.take n)

theorem Laid.finish (h : a.Laid) {line : Line} (hline : a.lines[n]? = some line) :
    line.finish = bytes (a.instructions.take (n + 1)) := by
  have hget : a.instructions[n]? = some line.instruction := by
    rw [getElem?_instructions, instruction?, hline, Option.map_some]
  rw [Line.finish, h n line hline, bytes_take_succ hget]

theorem Laid.size_eq (h : a.Laid) : a.size = bytes a.instructions := by
  rw [size, Array.back?_eq_getElem?]
  cases hlast : a.lines[a.lines.size - 1]? with
  | none =>
    have hempty : a.lines.size = 0 := by
      have := Array.getElem?_eq_none_iff.mp hlast
      omega
    have hnil : a.instructions = [] := by
      rw [← List.length_eq_zero_iff, length_instructions, hempty]
    rw [hnil]
    rfl
  | some line =>
    have hlt : a.lines.size - 1 < a.lines.size := (Array.getElem?_eq_some_iff.mp hlast).1
    rw [Option.elim_some, h.finish hlast, Nat.sub_add_cancel (by omega), ← length_instructions,
      List.take_length]

/-- The address after an instruction is the number of bytes up to its end. -/
theorem Laid.addressOf_after (h : a.Laid) (hn : n < a.lines.size) (offset : Nat) :
    a.addressOf offset (.after (some n)) = .ok (bytes (a.instructions.take (n + 1))) := by
  have hline := Array.getElem?_eq_getElem hn
  rw [addressOf, hline]
  show Except.ok _ = _
  rw [h.finish hline]

/-! ## Appending -/

@[simp]
theorem instructions_append (a : Assembly) (i : Instruction) :
    (a.append i).instructions = a.instructions ++ [i] := by
  simp [append, instructions]

theorem Laid.append (h : a.Laid) (i : Instruction) : (a.append i).Laid := by
  intro n line hline
  rw [instructions_append]
  have hcases : n < a.lines.size ∨ n = a.lines.size := by
    have := (Array.getElem?_eq_some_iff.mp hline).1
    simp only [Assembly.append, Array.size_push] at this
    omega
  rcases hcases with hlt | rfl
  · rw [List.take_append_of_le_length (by rw [length_instructions]; omega)]
    refine h n line ?_
    rwa [Assembly.append, Array.getElem?_push_lt hlt, ← Array.getElem?_eq_getElem hlt] at hline
  · have hline : line = ⟨a.size, a.pendingLabel, i⟩ := by
      simpa [Assembly.append, eq_comm] using hline
    rw [hline, ← length_instructions, List.take_left, ← h.size_eq]

/-! ## Giving jumps another target -/

theorem instructions_modify (a : Assembly) (n : Nat) (i : Instruction) :
    ({ a with lines := a.lines.modify n fun l => { l with instruction := i } } :
      Assembly).instructions = a.instructions.set n i := by
  apply List.ext_getElem?
  intro k
  simp only [instructions, List.getElem?_map, Array.getElem?_toList, List.getElem?_set,
    Array.getElem?_modify, List.length_map, Array.length_toList]
  by_cases hk : n = k
  · subst hk
    rcases Nat.lt_or_ge n a.lines.size with hlt | hge
    · simp [hlt]
    · simp [hge]
  · simp [hk]

theorem Laid.modify (h : a.Laid) {i' : Instruction} (hget : a.instruction? n = some i)
    (hsize : i'.size = i.size) :
    ({ a with lines := a.lines.modify n fun l => { l with instruction := i' } } :
      Assembly).Laid := by
  intro k line hline
  rw [instructions_modify, bytes_take_set (by rw [getElem?_instructions, hget]) hsize]
  simp only [Array.getElem?_modify] at hline
  split at hline
  · obtain ⟨old, hold, rfl⟩ := Option.map_eq_some_iff.mp hline
    exact h k old hold
  · exact h k line hline

end Assembly

/-! ## Places of targets -/

/-- The place of a target in the list of instructions. -/
def JumpTarget.place? : JumpTarget → Option Nat
  | .after none => some 0
  | .after (some id) => some (id + 1)
  | _ => none

/-- The end of the code is where the next instruction will stand. -/
theorem Assembly.place?_last (a : Assembly) :
    (JumpTarget.after a.last?).place? = some a.instructions.length := by
  unfold Assembly.last?
  rw [Assembly.length_instructions]
  split
  next hempty =>
    have hzero : a.lines.size = 0 := by simpa [Array.isEmpty] using hempty
    rw [hzero]
    rfl
  next hempty =>
    have hpos : a.lines.size ≠ 0 := by simpa [Array.isEmpty] using hempty
    show some (a.lines.size - 1 + 1) = some a.lines.size
    rw [Nat.sub_add_cancel (by omega)]

end SexprAsm
