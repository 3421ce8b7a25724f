import Mathlib.Logic.Function.Basic
import SexprAsm.Proofs.Assembly.Groups

/-!
# The machine that runs the code

The host runs an assembly by byte addresses. What values are, which of them is false, and what
operations make of their inputs is up to the host (`Host`). Reaching the end of the code halts.

Proofs run the same instructions by their places in the list of instructions instead
(`Machine.stepAt`). In code that is laid out and whose jumps land, the machine takes the same steps
(`Machine.step_addressed`).
-/

namespace SexprAsm

/-- What the host brings along. -/
structure Host (V : Type) where
  ofValue : Value → V
  isFalse : V → Bool
  /-- What an operation makes of its inputs. -/
  apply : String → List V → V

/-- What each slot holds. -/
abbrev Store (V : Type) := String → V

variable {V : Type}

/-- Every slot starts from its initial value, or null. -/
def Host.initial (host : Host V) (heap : Heap) : Store V := fun name =>
  host.ofValue (((heap.slots.get? name).bind (·.value)).getD .null)

/-- A state of the machine. The operand stack holds names of slots. -/
structure Machine (V : Type) where
  place : Nat
  stack : List String
  store : Store V

/-- What calling an operation on slots does: a trailing output receives what the operation makes of
the inputs. -/
def Operation.effect (host : Host V) (op : Operation) (arguments : List String) (σ : Store V) :
    Store V :=
  let inputs := (arguments.zip op.parameters).filter fun pair => pair.2.direction == .input
  match op.returns, arguments.getLast? with
  | true, some result =>
    Function.update σ result (host.apply op.fullName (inputs.map fun pair => σ pair.1))
  | _, _ => σ

/-- What an instruction does to the operand stack and the store, and where it jumps, if it does. An
instruction that takes more than there is does nothing, nor has an indirect jump a meaning here. -/
def Instruction.exec (host : Host V) (c : Catalog) :
    Instruction → List String → Store V → Option (Option JumpTarget × List String × Store V)
  | .nop, stack, σ => some (none, stack, σ)
  | .pop, _ :: stack, σ => some (none, stack, σ)
  | .push name, stack, σ => some (none, name :: stack, σ)
  | .copy, target :: source :: stack, σ =>
    some (none, stack, Function.update σ target (σ source))
  | .jump target, stack, σ => some (some target, stack, σ)
  | .jumpIfFalse target, condition :: stack, σ =>
    some (if host.isFalse (σ condition) then some target else none, stack, σ)
  | .call name, stack, σ =>
    match c.operationNamed? name with
    | none => none
    | some op =>
      let n := op.parameters.length
      if stack.length < n then none
      else some (none, stack.drop n, op.effect host (stack.take n).reverse σ)
  | _, _, _ => none

/-- The line at an address. -/
def Assembly.fetch? (a : Assembly) (address : Nat) : Option Line :=
  a.lines.toList.find? (·.offset == address)

namespace Machine

/-- One step of the machine; at the end of the code there is none. -/
def step (host : Host V) (c : Catalog) (a : Assembly) (s : Machine V) : Option (Machine V) := do
  let line ← a.fetch? s.place
  let (jump, stack, store) ← line.instruction.exec host c s.stack s.store
  match jump with
  | none => some ⟨line.finish, stack, store⟩
  | some target =>
    (a.addressOf line.offset target).toOption.map fun address => ⟨address, stack, store⟩

end Machine

/-- A number of steps in a row. -/
def runFor {σ : Type} (step : σ → Option σ) : Nat → σ → Option σ
  | 0, s => some s
  | k + 1, s => (step s).bind (runFor step k)

theorem runFor_add {σ : Type} (step : σ → Option σ) (j k : Nat) (s : σ) :
    runFor step (j + k) s = (runFor step j s).bind (runFor step k) := by
  induction j generalizing s with
  | zero => rw [Nat.zero_add, runFor, Option.bind_some]
  | succ j ih =>
    rw [Nat.add_right_comm, runFor, runFor, Option.bind_assoc]
    congr
    funext s'
    exact ih s'

/-- A run that cannot go on is the longest one. -/
theorem le_of_runFor {σ : Type} {step : σ → Option σ} {j k : Nat} {s s₁ s₂ : σ}
    (h : runFor step j s = some s₁) (hstop : step s₁ = none) (h' : runFor step k s = some s₂) :
    k ≤ j := by
  by_contra hlt
  obtain ⟨d, rfl⟩ := Nat.exists_eq_add_of_lt (Nat.lt_of_not_le hlt)
  rw [Nat.add_assoc, runFor_add, h, Option.bind_some, runFor, hstop] at h'
  cases h'

namespace Machine

/-- The machine, started at the beginning, comes to the end of the code. -/
def Halts (host : Host V) (c : Catalog) (a : Assembly) (s : Machine V) : Prop :=
  s.place = a.size ∧
    ∃ k, runFor (step host c a) k ⟨0, [], host.initial a.heap⟩ = some s

/-! ## Places -/

end Machine

theorem Instruction.target?_of_exec {host : Host V} {c : Catalog} {i : Instruction}
    {stack stack' : List String} {σ σ' : Store V} {target : JumpTarget}
    (h : i.exec host c stack σ = some (some target, stack', σ')) : i.target? = some target := by
  cases i with
  | jump other =>
    obtain ⟨htarget, -⟩ := Prod.mk.inj (Option.some.inj h)
    exact htarget
  | jumpIfFalse other =>
    cases stack with
    | nil => cases h
    | cons condition stack =>
      obtain ⟨htarget, -⟩ := Prod.mk.inj (Option.some.inj h)
      split at htarget
      · exact htarget
      · cases htarget
  | call name =>
    simp only [exec] at h
    split at h
    · cases h
    · split at h <;> cases h
  | nop => cases h
  | push name => cases h
  | jumpIndirect name => cases h
  | pop => cases stack <;> cases h
  | copy =>
    cases stack with
    | nil => cases h
    | cons _ stack => cases stack <;> cases h

/-- In code that is laid out, the line of a place is found at its address. -/
theorem Assembly.Laid.fetch? {a : Assembly} (h : a.Laid) {n : Nat} {i : Instruction}
    (hi : a.instructions[n]? = some i) : ∃ line, a.fetch? (Instruction.bytes (a.instructions.take n))
      = some line ∧ line.instruction = i ∧ line.finish =
        Instruction.bytes (a.instructions.take (n + 1)) := by
  obtain ⟨hn, rfl⟩ := List.getElem?_eq_some_iff.mp hi
  have hlt : n < a.lines.size := by rwa [length_instructions] at hn
  have hline := Array.getElem?_eq_getElem hlt
  refine ⟨a.lines[n], ?_, by simp [instructions], h.finish hline⟩
  rw [Assembly.fetch?, List.find?_eq_some_iff_getElem]
  refine ⟨by simpa using h n _ hline, n, by simpa using hlt, by simp, fun j hj => ?_⟩
  -- Lines before it stand at lower addresses.
  have hoffset := h j _ (Array.getElem?_eq_getElem (hj.trans hlt))
  have hbytes := Instruction.bytes_take_lt hj (hj.trans hn)
  simp only [Array.getElem_toList, hoffset, Bool.not_eq_eq_eq_not, Bool.not_true, beq_eq_false_iff_ne]
  omega

namespace Machine

variable (host : Host V) (c : Catalog)

/-- One step by places. -/
def stepAt (code : List Instruction) (s : Machine V) : Option (Machine V) := do
  let i ← code[s.place]?
  let (jump, stack, store) ← i.exec host c s.stack s.store
  match jump with
  | none => some ⟨s.place + 1, stack, store⟩
  | some target => target.place?.map fun place => ⟨place, stack, store⟩

/-- The same state, at the address of its place. -/
def addressed (code : List Instruction) (s : Machine V) : Machine V :=
  { s with place := Instruction.bytes (code.take s.place) }

variable {host c} {a : Assembly} {s s' : Machine V}

/-- The machine takes the steps that are taken by places. -/
theorem step_addressed (hlaid : a.Laid)
    (hlands : ∀ i ∈ a.instructions, ∀ target, i.target? = some target →
      Lands a.instructions target)
    (h : stepAt host c a.instructions s = some s') :
    step host c a (s.addressed a.instructions) = some (s'.addressed a.instructions) := by
  obtain ⟨place, stack, store⟩ := s
  simp only [stepAt, Option.bind_eq_bind, Option.bind_eq_some_iff] at h
  obtain ⟨i, hi, ⟨jump, stack', store'⟩, hexec, hnext⟩ := h
  obtain ⟨line, hline, hinstruction, hfinish⟩ := hlaid.fetch? hi
  simp only [step, addressed, hline, hinstruction, Option.bind_eq_bind, Option.bind_some, hexec]
  cases jump with
  | none =>
    obtain rfl := Option.some.inj hnext
    simp [hfinish]
  | some target =>
    have htarget := Instruction.target?_of_exec hexec
    have hland := hlands i (List.mem_of_getElem? hi) target htarget
    cases target with
    | unresolved => cases hnext
    | address n => cases hland
    | after id =>
      cases id with
      | none =>
        obtain rfl := Option.some.inj hnext
        rfl
      | some id =>
        obtain ⟨j, hj, -⟩ := hland
        obtain rfl := Option.some.inj hnext
        have hid : id < a.lines.size := by
          rw [← Assembly.length_instructions]
          exact (List.getElem?_eq_some_iff.mp hj).1
        dsimp only
        rw [hlaid.addressOf_after hid]
        rfl

theorem runFor_addressed (hlaid : a.Laid)
    (hlands : ∀ i ∈ a.instructions, ∀ target, i.target? = some target →
      Lands a.instructions target) {k : Nat}
    (h : runFor (stepAt host c a.instructions) k s = some s') :
    runFor (step host c a) k (s.addressed a.instructions) =
      some (s'.addressed a.instructions) := by
  induction k generalizing s with
  | zero =>
    obtain rfl := Option.some.inj h
    rfl
  | succ k ih =>
    obtain ⟨s₁, hstep, hrest⟩ := Option.bind_eq_some_iff.mp h
    rw [runFor, step_addressed hlaid hlands hstep, Option.bind_some]
    exact ih hrest

/-- At the end of the code there is no step. -/
theorem step_of_end (hlaid : a.Laid) (h : s.place = a.size) : step host c a s = none := by
  have hnone : a.fetch? s.place = none := by
    rw [Assembly.fetch?, List.find?_eq_none, h, hlaid.size_eq]
    intro line hline
    obtain ⟨n, hn, rfl⟩ := List.getElem_of_mem hline
    have hlt : n < a.instructions.length := by
      rw [Assembly.length_instructions]
      simpa using hn
    have hoffset := hlaid n a.lines.toList[n] (by simp at hn; simp [hn])
    have hbytes := Instruction.bytes_take_lt hlt hlt
    rw [List.take_length] at hbytes
    simp only [hoffset, beq_iff_eq]
    omega
  rw [step, hnone]
  rfl

end Machine

end SexprAsm
