import SexprAsm.Proofs.Assembly.Emission

/-!
# Groups of instructions

Code is made of groups: pushes, and then the instruction that takes what they have pushed. A group
leaves the operand stack as it found it, so it is safe to jump to where one starts.

The last instruction of a group is the only one that is not a push. So a place is the start of a
group, or the end of the code, exactly if the instruction before it is no push: this can be told
without knowing the groups (`Lands`), and it stays so while code is appended and jumps are given
their targets (`Follows`).
-/

namespace SexprAsm

namespace Instruction

/-- The instruction pushes a slot. -/
def isPush : Instruction → Bool
  | push _ => true
  | _ => false

/-- Where the instruction may jump to. -/
def target? : Instruction → Option JumpTarget
  | jump target => some target
  | jumpIfFalse target => some target
  | _ => none

theorem isPush_of_retarget? {target : JumpTarget} {i i' : Instruction}
    (h : i.retarget? target = some i') : i'.isPush = i.isPush := by
  cases i <;> simp only [retarget?, Option.some.injEq, reduceCtorEq] at h <;> subst h <;> rfl

theorem target?_of_retarget? {target : JumpTarget} {i i' : Instruction}
    (h : i.retarget? target = some i') : i'.target? = some target := by
  cases i <;> simp only [retarget?, Option.some.injEq, reduceCtorEq] at h <;> subst h <;> rfl

end Instruction

open Instruction

/-- Pushes, and the instruction that takes what they have pushed. -/
inductive Group where
  | nop
  | jump (target : JumpTarget)
  | jumpIndirect (address : String)
  | copy (source target : String)
  | branch (condition : String) (target : JumpTarget)
  | call (arguments : List String) (operation : String)

namespace Group

/-- The instructions of a group. -/
def instructions : Group → List Instruction
  | nop => [.nop]
  | jump target => [.jump target]
  | jumpIndirect address => [.jumpIndirect address]
  | copy source target => [.push source, .push target, .copy]
  | branch condition target => [.push condition, .jumpIfFalse target]
  | call arguments operation => arguments.map .push ++ [.call operation]

/-- An argument of a call fits its parameter. The one exception is the variable for the result of
an event, which is not checked where a call is the first to use it: it may have a type that the
parameter does not admit if a manifest gives it that type, or if the operation that makes arrays
does not return them. -/
def ArgumentTyped (c : Catalog) (heap : Heap) (operation argument : String) (p : Parameter) :
    Prop :=
  ∃ v, heap.slots.get? argument = some v ∧
    (p.Admits c.types v ∨ argument = Catalog.returnValue ∧ v.attributes.constant = false ∧
      (c.predefined.get? Catalog.returnValue ≠ some TypeTable.object ∨
        operation = Manifest.arrayCreate ∧ p.direction ≠ .output))

/-- The slots of a group have the types that it needs. -/
def Typed (c : Catalog) (heap : Heap) : Group → Prop
  | nop | jump _ => True
  | jumpIndirect address => ∃ v, heap.slots.get? address = some v ∧
      c.types.name v.type = TypeTable.uint32Name
  | copy source target => ∃ v u, heap.slots.get? source = some v ∧
      heap.slots.get? target = some u ∧ c.types.isCompatible u.type v.type = true
  | branch condition _ => ∃ v, heap.slots.get? condition = some v ∧
      c.types.name v.type = TypeTable.booleanName
  | call arguments operation => ∃ op, c.operationNamed? operation = some op ∧
      op.parameters.length = arguments.length ∧
      ∀ pair ∈ arguments.zip op.parameters, ArgumentTyped c heap operation pair.1 pair.2

variable {c : Catalog} {heap heap' : Heap} {g : Group} {gs : List Group}

theorem Typed.mono (h : g.Typed c heap) (hext : heap.Extends heap') : g.Typed c heap' := by
  cases g with
  | nop => trivial
  | jump target => trivial
  | jumpIndirect address =>
    obtain ⟨v, hv, htype⟩ := h
    exact ⟨v, hext.slots _ v hv, htype⟩
  | copy source target =>
    obtain ⟨v, u, hv, hu, htype⟩ := h
    exact ⟨v, u, hext.slots _ v hv, hext.slots _ u hu, htype⟩
  | branch condition target =>
    obtain ⟨v, hv, htype⟩ := h
    exact ⟨v, hext.slots _ v hv, htype⟩
  | call arguments operation =>
    obtain ⟨op, hop, hlength, harguments⟩ := h
    refine ⟨op, hop, hlength, fun pair hpair => ?_⟩
    obtain ⟨v, hv, hfits⟩ := harguments pair hpair
    exact ⟨v, hext.slots _ v hv, hfits⟩

/-- A group is pushes and one instruction that is no push. -/
theorem exists_last (g : Group) :
    ∃ pushes last, g.instructions = pushes ++ [last] ∧ (∀ i ∈ pushes, i.isPush = true) ∧
      last.isPush = false := by
  cases g with
  | nop => exact ⟨[], .nop, rfl, List.forall_mem_nil _, rfl⟩
  | jump target => exact ⟨[], .jump target, rfl, List.forall_mem_nil _, rfl⟩
  | jumpIndirect address => exact ⟨[], .jumpIndirect address, rfl, List.forall_mem_nil _, rfl⟩
  | copy source target =>
    refine ⟨[.push source, .push target], .copy, rfl, fun i hi => ?_, rfl⟩
    rcases List.mem_pair.mp hi with rfl | rfl <;> rfl
  | branch condition target =>
    refine ⟨[.push condition], .jumpIfFalse target, rfl, fun i hi => ?_, rfl⟩
    rw [List.mem_singleton.mp hi]
    rfl
  | call arguments operation =>
    refine ⟨arguments.map .push, .call operation, rfl, fun i hi => ?_, rfl⟩
    obtain ⟨argument, -, rfl⟩ := List.mem_map.mp hi
    rfl

/-- A place where a group starts, or the end of the code, in bytes. -/
def Boundary (gs : List Group) (address : Nat) : Prop :=
  ∃ before after, gs = before ++ after ∧ address = bytes (before.flatMap instructions)

/-- A group ends right after any instruction that is no push. -/
theorem boundary_of_not_push {n : Nat} {i : Instruction}
    (hget : (gs.flatMap instructions)[n]? = some i) (hpush : i.isPush = false) :
    Boundary gs (bytes ((gs.flatMap instructions).take (n + 1))) := by
  induction gs generalizing n with
  | nil => cases hget
  | cons g gs ih =>
    obtain ⟨pushes, last, hg, hpushes, -⟩ := g.exists_last
    rw [List.flatMap_cons] at hget ⊢
    rcases Nat.lt_or_ge n g.instructions.length with hlt | hge
    · -- Inside a group only its last instruction is no push.
      have hn : n = pushes.length := by
        rw [List.getElem?_append_left hlt, hg] at hget
        rw [hg, List.length_append, List.length_singleton] at hlt
        rcases Nat.lt_or_ge n pushes.length with h | h
        · rw [List.getElem?_append_left h] at hget
          rw [hpushes i (List.mem_of_getElem? hget)] at hpush
          cases hpush
        · omega
      refine ⟨[g], gs, rfl, ?_⟩
      have hlength : n + 1 = g.instructions.length := by
        rw [hn, hg, List.length_append, List.length_singleton]
      rw [hlength, List.take_left]
      simp
    · obtain ⟨before, after, rfl, haddress⟩ := ih (n := n - g.instructions.length) (by
        rwa [List.getElem?_append_right hge] at hget)
      refine ⟨g :: before, after, rfl, ?_⟩
      rw [List.take_append, bytes_append, List.take_of_length_le (by omega), List.flatMap_cons,
        bytes_append, ← haddress]
      congr 3
      omega

theorem Typed.set {n : Nat} {target : JumpTarget} {i i' : Instruction} (h : g.Typed c heap)
    (hget : g.instructions[n]? = some i) (hi : i.retarget? target = some i') :
    ∃ g' : Group, g.instructions.set n i' = g'.instructions ∧ g'.Typed c heap := by
  have hmem := List.mem_of_getElem? hget
  have hlt := (List.getElem?_eq_some_iff.mp hget).1
  -- Only two groups hold a jump, and there it is the last instruction.
  cases g with
  | jump other =>
    obtain rfl : n = 0 := by simpa [instructions] using hlt
    obtain rfl : .jump other = i := by simpa [instructions] using hget
    obtain rfl := Option.some.inj hi
    exact ⟨jump target, rfl, trivial⟩
  | branch condition other =>
    obtain rfl | rfl : n = 0 ∨ n = 1 := by
      have : n < 2 := hlt
      omega
    · obtain rfl : .push condition = i := by simpa [instructions] using hget
      cases hi
    · obtain rfl : .jumpIfFalse other = i := by simpa [instructions] using hget
      obtain rfl := Option.some.inj hi
      exact ⟨branch condition target, rfl, h⟩
  | nop =>
    obtain rfl : i = .nop := by simpa [instructions] using hmem
    cases hi
  | jumpIndirect address =>
    obtain rfl : i = .jumpIndirect address := by simpa [instructions] using hmem
    cases hi
  | copy source destination =>
    obtain rfl | rfl | rfl : i = .push source ∨ i = .push destination ∨ i = .copy := by
      simpa [instructions] using hmem
    all_goals cases hi
  | call arguments operation =>
    rcases List.mem_append.mp hmem with hmem | hmem
    · obtain ⟨argument, -, rfl⟩ := List.mem_map.mp hmem
      cases hi
    · obtain rfl := List.mem_singleton.mp hmem
      cases hi

/-- Giving a jump another target keeps the groups and what they need. -/
theorem exists_set {n : Nat} {target : JumpTarget} {i i' : Instruction}
    (hget : (gs.flatMap instructions)[n]? = some i) (hi : i.retarget? target = some i')
    (htyped : ∀ g ∈ gs, g.Typed c heap) :
    ∃ gs' : List Group, (gs.flatMap instructions).set n i' = gs'.flatMap instructions ∧
      ∀ g ∈ gs', g.Typed c heap := by
  induction gs generalizing n with
  | nil => cases hget
  | cons g gs ih =>
    have hg := htyped g List.mem_cons_self
    have hgs : ∀ g ∈ gs, g.Typed c heap := fun g hg => htyped g (List.mem_cons_of_mem _ hg)
    rw [List.flatMap_cons] at hget ⊢
    rcases Nat.lt_or_ge n g.instructions.length with hlt | hge
    · rw [List.getElem?_append_left hlt] at hget
      obtain ⟨g', hset, htyped'⟩ := hg.set hget hi
      refine ⟨g' :: gs, ?_, fun other hother => ?_⟩
      · rw [List.set_append_left _ _ hlt, hset, List.flatMap_cons]
      · rcases List.mem_cons.mp hother with rfl | hother
        · exact htyped'
        · exact hgs other hother
    · rw [List.getElem?_append_right hge] at hget
      obtain ⟨gs', hset, htyped'⟩ := ih hget hgs
      refine ⟨g :: gs', ?_, fun other hother => ?_⟩
      · rw [List.set_append_right _ _ hge, hset, List.flatMap_cons]
      · rcases List.mem_cons.mp hother with rfl | hother
        · exact hg
        · exact htyped' other hother

end Group

/-! ## Places to jump to -/

/-- A jump goes where a group starts, as far as its target is known. -/
def Lands (code : List Instruction) : JumpTarget → Prop
  | .unresolved => True
  | .address _ => False
  | .after none => True
  | .after (some n) => ∃ i, code[n]? = some i ∧ i.isPush = false

/-- Code that has grown: what was there is there, but for targets of jumps. -/
def Follows (code code' : List Instruction) : Prop :=
  ∀ (n : Nat) (i : Instruction), code[n]? = some i → ∃ i', code'[n]? = some i' ∧
    (i' = i ∨ ∃ target, i.retarget? target = some i')

namespace Follows

variable {code code' code'' : List Instruction}

theorem refl (code : List Instruction) : Follows code code := fun _ i h => ⟨i, h, Or.inl rfl⟩

theorem trans (h : Follows code code') (h' : Follows code' code'') : Follows code code'' := by
  intro n i hi
  obtain ⟨i', hi', hsame⟩ := h n i hi
  obtain ⟨i'', hi'', hsame'⟩ := h' n i' hi'
  refine ⟨i'', hi'', ?_⟩
  rcases hsame with rfl | ⟨target, htarget⟩
  · exact hsame'
  · right
    rcases hsame' with rfl | ⟨target', htarget'⟩
    · exact ⟨target, htarget⟩
    · refine ⟨target', ?_⟩
      cases i <;> simp only [retarget?, Option.some.injEq, reduceCtorEq] at htarget <;>
        subst htarget <;> exact htarget'

theorem append (code new : List Instruction) : Follows code (code ++ new) :=
  fun _ i h => ⟨i, List.getElem?_append_left (List.getElem?_eq_some_iff.mp h).1 ▸ h, Or.inl rfl⟩

theorem set {n : Nat} {target : JumpTarget} {i i' : Instruction} (hget : code[n]? = some i)
    (hi : i.retarget? target = some i') : Follows code (code.set n i') := by
  intro k j hj
  by_cases hk : n = k
  · subst hk
    obtain rfl := Option.some.inj (hget.symm.trans hj)
    refine ⟨i', ?_, Or.inr ⟨target, hi⟩⟩
    rw [List.getElem?_set_self (List.getElem?_eq_some_iff.mp hget).1]
  · exact ⟨j, by rw [List.getElem?_set_ne hk, hj], Or.inl rfl⟩

theorem length_le (h : Follows code code') : code.length ≤ code'.length := by
  refine Nat.le_of_not_lt fun hlt => ?_
  obtain ⟨i, hi, -⟩ := h code'.length _ (List.getElem?_eq_getElem hlt)
  exact absurd (List.getElem?_eq_some_iff.mp hi).1 (Nat.lt_irrefl _)

theorem lands (h : Follows code code') {target : JumpTarget} (hlands : Lands code target) :
    Lands code' target := by
  cases target with
  | unresolved => trivial
  | address n => cases hlands
  | after id =>
    cases id with
    | none => trivial
    | some n =>
      obtain ⟨i, hi, hpush⟩ := hlands
      obtain ⟨i', hi', hsame⟩ := h n i hi
      refine ⟨i', hi', ?_⟩
      rcases hsame with rfl | ⟨target, htarget⟩
      · exact hpush
      · rw [isPush_of_retarget? htarget, hpush]

/-- No instruction changes its size. -/
theorem bytes_take (h : Follows code code') {n : Nat} (hn : n ≤ code.length) :
    bytes (code'.take n) = bytes (code.take n) := by
  induction n with
  | zero => rfl
  | succ n ih =>
    have hget := List.getElem?_eq_getElem (show n < code.length by omega)
    obtain ⟨i', hi', hsame⟩ := h n _ hget
    rw [bytes_take_succ hi', bytes_take_succ hget, ih (by omega)]
    rcases hsame with rfl | ⟨target, htarget⟩
    · rfl
    · rw [size_of_retarget? htarget]

end Follows

end SexprAsm
