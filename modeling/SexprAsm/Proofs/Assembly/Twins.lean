import SexprAsm.Proofs.Assembly.Calls
import SexprAsm.Proofs.Assembly.Groups
import SexprAsm.Proofs.Assembly.Kinds
import SexprAsm.Proofs.Assembly.Unchecked
import SexprAsm.Proofs.Catalog.Agreement
import SexprAsm.Proofs.Trails
import SexprAsm.Proofs.Workspace

/-!
# Emitting similar code

Two compilations that do similar things go through similar states: slots of variables are of the
same kinds, jumps come in the same order, and the same ones wait for a target (`Assembly.Alike`).
Temporaries and the slots of literals may have other names. An operation on slots that correspond
(`Assembly.Like`) succeeds in the second compilation if it does in the first one, up to one thing:
the second one may have more code, so an address in it may be out of range (`Twins.Excused`).

One variable is set apart, the one that both assign in their own way. Its slot may be there from
the beginning, and then is of one kind in both, like all others. Or each compilation makes it,
with a type of its own (`Twins.Loose`).
-/

namespace SexprAsm

/-! ## Jumps in order

Code may be of different length in the two compilations, so their jumps are not at the same
places. They are compared by their rank, the number of jumps before them (`Assembly.rank?`).
Appending code and giving a jump its target leave all ranks as they are, which is what
`Assembly.Keeps` says, and only the latter changes which jumps wait (`Assembly.pending`). -/

section Lists

variable {α β : Type} {g : α → Option β} {l : List α} {n : Nat} {x y : α} {b : β}

theorem List.filterMap_set_of_some (hx : l[n]? = some x) (hgx : (g x).isSome = true)
    (hgy : g y = some b) :
    (l.set n y).filterMap g = (l.filterMap g).set ((l.take n).filterMap g).length b := by
  induction l generalizing n with
  | nil => cases hx
  | cons z l ih =>
    cases n with
    | zero =>
      obtain rfl : z = x := by simpa using hx
      obtain ⟨c, hc⟩ := Option.isSome_iff_exists.mp hgx
      simp [hgy, hc]
    | succ n =>
      have ih := ih (n := n) (by simpa using hx)
      cases hz : g z with
      | none => simpa [hz] using ih
      | some c => simpa [hz] using ih

theorem List.length_filterMap_take_set (hx : l[n]? = some x) (hgx : (g x).isSome = true)
    (hgy : (g y).isSome = true) (k : Nat) :
    (((l.set n y).take k).filterMap g).length = ((l.take k).filterMap g).length := by
  induction l generalizing n k with
  | nil => cases hx
  | cons z l ih =>
    cases k with
    | zero => rfl
    | succ k =>
      cases n with
      | zero =>
        obtain rfl : z = x := by simpa using hx
        obtain ⟨c, hc⟩ := Option.isSome_iff_exists.mp hgx
        obtain ⟨d, hd⟩ := Option.isSome_iff_exists.mp hgy
        simp [hc, hd]
      | succ n =>
        have ih := ih (n := n) (by simpa using hx) k
        cases hz : g z with
        | none => simpa [hz] using ih
        | some c => simpa [hz] using ih

end Lists

/-- Whether a jump waits for its target. -/
def Instruction.pending? (i : Instruction) : Option Bool :=
  i.target?.map fun target => decide (target = .unresolved)

theorem Instruction.pending?_of_retarget? {target : JumpTarget} {i i' : Instruction}
    (h : i.retarget? target = some i') :
    i.pending?.isSome = true ∧ i'.pending? = some (decide (target = .unresolved)) := by
  refine ⟨?_, by rw [pending?, target?_of_retarget? h, Option.map_some]⟩
  cases i <;> simp_all [retarget?, pending?, target?]

theorem Instruction.exists_retarget? {i : Instruction} (h : i.pending?.isSome = true)
    (target : JumpTarget) : ∃ i', i.retarget? target = some i' := by
  cases i <;> simp_all [retarget?, pending?, target?]

namespace Assembly

variable {a a' a'' : Assembly} {id : InstructionId} {i : Instruction} {rank : Nat}

/-- For each jump, in the order of the code, whether it waits for its target. -/
def pending (a : Assembly) : List Bool := a.instructions.filterMap Instruction.pending?

/-- The number of jumps before a jump. -/
def rank? (a : Assembly) (id : InstructionId) : Option Nat :=
  ((a.instructions[id]?).bind Instruction.pending?).map fun _ =>
    ((a.instructions.take id).filterMap Instruction.pending?).length

theorem rank?_eq_some : a.rank? id = some rank ↔
    (∃ i, a.instructions[id]? = some i ∧ i.pending?.isSome = true) ∧
      ((a.instructions.take id).filterMap Instruction.pending?).length = rank := by
  unfold rank?
  cases hi : a.instructions[id]? with
  | none => simp
  | some i => cases hp : i.pending? <;> simp [hp]

theorem pending_append (a : Assembly) (i : Instruction) :
    (a.append i).pending = a.pending ++ i.pending?.toList := by
  rw [pending, instructions_append, List.filterMap_append]
  cases hi : i.pending? <;> simp [pending, hi]

theorem rank?_append (h : a.rank? id = some rank) (i : Instruction) :
    (a.append i).rank? id = some rank := by
  obtain ⟨⟨j, hj, hjump⟩, hrank⟩ := rank?_eq_some.mp h
  have hlt : id < a.instructions.length := (List.getElem?_eq_some_iff.mp hj).1
  refine rank?_eq_some.mpr ⟨⟨j, ?_, hjump⟩, ?_⟩
  · rw [instructions_append, List.getElem?_append_left hlt, hj]
  · rw [instructions_append, List.take_append_of_le_length hlt.le, hrank]

theorem rank?_append_new (a : Assembly) (hi : i.pending? ≠ none) :
    (a.append i).rank? a.instructions.length = some a.pending.length := by
  refine rank?_eq_some.mpr ⟨⟨i, ?_, Option.isSome_iff_ne_none.mpr hi⟩, ?_⟩
  · rw [instructions_append, List.getElem?_concat_length]
  · rw [instructions_append, List.take_left', pending]
    rfl

/-- What a run keeps: slots, and the order of jumps. -/
structure Keeps (a a' : Assembly) : Prop where
  heap : a.heap.Extends a'.heap
  rank : ∀ id rank, a.rank? id = some rank → a'.rank? id = some rank

theorem Keeps.refl (a : Assembly) : a.Keeps a := ⟨.refl _, fun _ _ h => h⟩

theorem Keeps.trans (h : a.Keeps a') (h' : a'.Keeps a'') : a.Keeps a'' :=
  ⟨h.heap.trans h'.heap, fun id rank hrank => h'.rank id rank (h.rank id rank hrank)⟩

theorem Keeps.onHeap {heap : Heap} (h : a.heap.Extends heap) : a.Keeps { a with heap := heap } :=
  ⟨h, fun _ _ hrank => hrank⟩

theorem Keeps.append (a : Assembly) (i : Instruction) : a.Keeps (a.append i) :=
  ⟨.refl _, fun _ _ hrank => rank?_append hrank i⟩

end Assembly

/-! ## Two compilations

`Assembly.Alike` is the invariant of the two compilations. What it says of heaps is about kinds
of slots only: those of the names that both use are the same, and that of the variable that is
assigned is what `Twins.Holds` says, in each of them. Which slots there are besides does not
matter, so temporaries and literals come and go freely (`Twins.Steady`,
`Assembly.Alike.onSteady`). -/

/-- What two compilations have in common. -/
structure Twins where
  catalog : Catalog
  sound : catalog.types.Sound
  /-- The names of variables whose slots are of one kind in both. -/
  shared : String → Prop
  predefined : ∀ name, catalog.predefined.contains name = true → shared name
  /-- The variable that is assigned. -/
  target : String
  /-- The type of its slot in the first one, and in the second one. -/
  type : TypeId
  type' : TypeId
  ordinary : ∀ name, shared name ∨ name = target → ¬ Heap.constantLead.toList <+: name.toList ∧
    ¬ Workspace.tempLead.toList <+: name.toList
  /-- The second one has no more code than the first one. -/
  lean : Prop

namespace Twins

variable (T : Twins)

/-- What both are compiled against. -/
abbrev setting : Setting := ⟨T.catalog, true⟩

/-- The variable is none that both share: each of them makes its slot, where it is assigned. -/
def Loose : Prop := ¬ T.shared T.target

/-- The kind of a slot for the variable, which may be missing if it is to be made. -/
def Holds (type : TypeId) (kind : Option (TypeId × Bool)) : Prop :=
  kind = some (type, false) ∨ T.Loose ∧ kind = none

/-- The slots of all variables are of the same kinds as before. -/
def Steady (heap heap' : Heap) : Prop :=
  ∀ name, T.shared name ∨ name = T.target → heap'.kind? name = heap.kind? name

theorem Steady.refl (heap : Heap) : T.Steady heap heap := fun _ _ => rfl

/-- An address may be out of range where there may be more code. -/
def Excused (e : BuildError) : Prop := ¬ T.lean ∧ ∃ text, e = .invalidAddress text

theorem predefined_eq_none {name : String} (h : ¬ T.shared name) :
    T.catalog.predefined.get? name = none := by
  cases hget : T.catalog.predefined.get? name with
  | none => rfl
  | some type => exact absurd (T.predefined name (OrderedMap.contains_iff.mpr ⟨type, hget⟩)) h

theorem constant_not_predefined {name : String} (h : Heap.constantLead.toList <+: name.toList) :
    T.catalog.predefined.get? name = none :=
  T.predefined_eq_none fun hshared => (T.ordinary name (Or.inl hshared)).1 h

variable {T}

/-- A missing slot is made, so the variable is not shared. -/
theorem Holds.loose {type : TypeId} {kind : Option (TypeId × Bool)} (h : T.Holds type kind)
    (hmissing : kind = none) : T.Loose := by
  rcases h with hthere | ⟨hloose, -⟩
  · cases hthere.symm.trans hmissing
  · exact hloose

/-- A shared variable has its slot. -/
theorem Holds.of_shared {type : TypeId} {kind : Option (TypeId × Bool)} (h : T.Holds type kind)
    (hshared : T.shared T.target) : kind = some (type, false) :=
  h.resolve_right fun hmissing => hmissing.1 hshared

end Twins

/-- Two assemblies that correspond. -/
structure Assembly.Alike (T : Twins) (a a' : Assembly) : Prop where
  orderly : a.heap.Orderly T.catalog
  orderly' : a'.heap.Orderly T.catalog
  shared : ∀ name, T.shared name → a'.heap.kind? name = a.heap.kind? name
  target : T.Holds T.type (a.heap.kind? T.target)
  target' : T.Holds T.type' (a'.heap.kind? T.target)
  pending : a'.pending = a.pending
  laid : a.Laid
  laid' : a'.Laid
  bytes : T.lean → Instruction.bytes a'.instructions ≤ Instruction.bytes a.instructions

/-- Assemblies of two compilations. -/
def Twins.assemblies (T : Twins) : Bond Assembly where
  alike := Assembly.Alike T
  keeps := Assembly.Keeps
  refl := .refl
  trans _ _ _ := .trans

namespace Assembly

variable {T : Twins} {a a' a₁ a₁' : Assembly} {x x' : String}

/-! ## Slots that correspond

An operation is handed slots that correspond (`Like`): both compilations name the same variable,
or each names a slot of its own, of one kind (`Same`). Slots stay what they are, so this is kept
(`Like.mono`). A slot can only be missing in the first case, where it is missing in both
(`Like.of_missing`). -/

/-- Two slots that are there, of one kind. -/
structure Same (a a' : Assembly) (x x' : String) : Prop where
  named : x.isEmpty = false
  named' : x'.isEmpty = false
  kind : ∃ kind, a.heap.kind? x = some kind ∧ a'.heap.kind? x' = some kind

theorem Same.mono (h : a.Same a' x x') (hkeeps : a.Keeps a₁) (hkeeps' : a'.Keeps a₁') :
    a₁.Same a₁' x x' := by
  obtain ⟨kind, hkind, hkind'⟩ := h.kind
  exact ⟨h.named, h.named', kind, hkeeps.heap.kind? hkind, hkeeps'.heap.kind? hkind'⟩

/-- Two names that stand for one variable, or for slots of one kind. -/
def Like (T : Twins) (a a' : Assembly) (x x' : String) : Prop :=
  x = x' ∧ T.shared x ∨ a.Same a' x x'

theorem Like.mono (h : Like T a a' x x') (hkeeps : a.Keeps a₁) (hkeeps' : a'.Keeps a₁') :
    Like T a₁ a₁' x x' :=
  h.imp_right fun hsame => hsame.mono hkeeps hkeeps'

theorem Like.isEmpty (h : Like T a a' x x') : x'.isEmpty = x.isEmpty := by
  rcases h with ⟨rfl, -⟩ | hsame
  · rfl
  · rw [hsame.named, hsame.named']

theorem Like.kind (h : Like T a a' x x') (ha : Alike T a a') :
    a'.heap.kind? x' = a.heap.kind? x := by
  rcases h with ⟨rfl, hshared⟩ | ⟨-, -, kind, hkind, hkind'⟩
  · exact ha.shared x hshared
  · rw [hkind, hkind']

/-- Where one of them is there, both are. -/
theorem Like.same (h : Like T a a' x x') (ha : Alike T a a') (hempty : x.isEmpty = false)
    {kind : TypeId × Bool} (hkind : a.heap.kind? x = some kind) : a.Same a' x x' :=
  ⟨hempty, h.isEmpty.trans hempty, kind, hkind, (h.kind ha).trans hkind⟩

/-- Where one of them is missing, they are one variable. -/
theorem Like.of_missing (h : Like T a a' x x') (hkind : a.heap.kind? x = none) :
    x = x' ∧ T.shared x := by
  rcases h with h | ⟨-, -, kind, hsome, -⟩
  · exact h
  · cases hkind.symm.trans hsome

/-- Two jumps at one place in the order of the jumps. -/
def SameJump (a a' : Assembly) (id id' : InstructionId) : Prop :=
  ∃ rank, a.rank? id = some rank ∧ a'.rank? id' = some rank

theorem SameJump.mono {id id' : InstructionId} (h : a.SameJump a' id id') (hkeeps : a.Keeps a₁)
    (hkeeps' : a'.Keeps a₁') : a₁.SameJump a₁' id id' := by
  obtain ⟨rank, hrank, hrank'⟩ := h
  exact ⟨rank, hkeeps.rank id rank hrank, hkeeps'.rank id' rank hrank'⟩

/-- Other heaps take the place of those of assemblies that correspond. -/
theorem Alike.onHeap (h : Alike T a a') {heap heap' : Heap} (horderly : heap.Orderly T.catalog)
    (horderly' : heap'.Orderly T.catalog)
    (hshared : ∀ name, T.shared name → heap'.kind? name = heap.kind? name)
    (htarget : T.Holds T.type (heap.kind? T.target))
    (htarget' : T.Holds T.type' (heap'.kind? T.target)) :
    Alike T { a with heap := heap } { a' with heap := heap' } :=
  ⟨horderly, horderly', hshared, htarget, htarget', h.pending, h.laid, h.laid', h.bytes⟩

/-- They still correspond if the slots of variables are as they were. -/
theorem Alike.onSteady (h : Alike T a a') {heap heap' : Heap} (horderly : heap.Orderly T.catalog)
    (horderly' : heap'.Orderly T.catalog) (hsteady : T.Steady a.heap heap)
    (hsteady' : T.Steady a'.heap heap') : Alike T { a with heap := heap } { a' with heap := heap' } := by
  refine h.onHeap horderly horderly' (fun name hname => ?_) ?_ ?_
  · rw [hsteady name (Or.inl hname), hsteady' name (Or.inl hname), h.shared name hname]
  · rw [hsteady T.target (Or.inr rfl)]
    exact h.target
  · rw [hsteady' T.target (Or.inr rfl)]
    exact h.target'

/-- A shared variable without a slot is not the one that is assigned. -/
theorem Alike.ne_target (h : Alike T a a') (hshared : T.shared x) (hfresh : a.heap.kind? x = none) :
    T.target ≠ x := by
  rintro rfl
  cases (h.target.of_shared hshared).symm.trans hfresh

theorem Alike.append (h : Alike T a a') {i i' : Instruction} (hpending : i'.pending? = i.pending?)
    (hsize : i'.size = i.size) : Alike T (a.append i) (a'.append i') := by
  refine ⟨h.orderly, h.orderly', h.shared, h.target, h.target', ?_, h.laid.append i,
    h.laid'.append i', fun hlean => ?_⟩
  · rw [pending_append, pending_append, h.pending, hpending]
  · have := h.bytes hlean
    rw [instructions_append, instructions_append, Instruction.bytes_append,
      Instruction.bytes_append, Instruction.bytes_cons, Instruction.bytes_cons, hsize]
    omega

/-! ## Giving jumps a target

A jump that gets its target stays a jump of the same size at the same place, so of the assembly
only `pending` changes, at the rank of the jump (`Retargeted`). A jump with a rank can always be
given one (`exists_patch`), so patching two jumps of the same rank cannot fail in one compilation
alone. -/

/-- A jump that has been given a target. -/
structure Retargeted (a : Assembly) (id : InstructionId) (a₁ : Assembly) : Prop where
  heap : a₁.heap = a.heap
  laid : a.Laid → a₁.Laid
  bytes : Instruction.bytes a₁.instructions = Instruction.bytes a.instructions
  rank : ∀ other, a₁.rank? other = a.rank? other
  pending : ∀ rank, a.rank? id = some rank → a₁.pending = a.pending.set rank false

theorem Retargeted.keeps {id : InstructionId} (h : a.Retargeted id a₁) : a.Keeps a₁ :=
  ⟨h.heap ▸ .refl _, fun other _ hrank => (h.rank other).trans hrank⟩

theorem retargeted_of_patch {id : InstructionId} {target : JumpTarget}
    (htarget : target ≠ .unresolved) (h : Yields (Emit.patch id target) a () a₁) :
    a.Retargeted id a₁ ∧ ∃ rank, a.rank? id = some rank := by
  obtain ⟨i, i', hi, hretarget, hheap, hinstructions, hlaid, -⟩ := Emit.patch_spec h
  obtain ⟨hjump, hnew⟩ := Instruction.pending?_of_retarget? hretarget
  rw [decide_eq_false htarget] at hnew
  refine ⟨⟨hheap, hlaid, ?_, fun other => ?_, fun rank hrank => ?_⟩, ?_⟩
  · have htake := Instruction.bytes_take_set hi (Instruction.size_of_retarget? hretarget)
      a.instructions.length
    rw [List.take_of_length_le (by simp), List.take_length] at htake
    rw [hinstructions, htake]
  · unfold rank?
    rw [hinstructions, List.length_filterMap_take_set hi hjump (by simp [hnew])]
    by_cases hother : id = other
    · subst hother
      obtain ⟨b, hb⟩ := Option.isSome_iff_exists.mp hjump
      rw [List.getElem?_set_self (List.getElem?_eq_some_iff.mp hi).1, hi]
      simp [hb, hnew]
    · rw [List.getElem?_set_ne hother]
  · obtain ⟨-, rfl⟩ := rank?_eq_some.mp hrank
    rw [pending, hinstructions, List.filterMap_set_of_some hi hjump hnew, pending]
  · exact ⟨_, rank?_eq_some.mpr ⟨⟨i, hi, hjump⟩, rfl⟩⟩

/-- A jump can be given a target. -/
theorem exists_patch {id : InstructionId} {rank : Nat} (h : a.rank? id = some rank)
    (target : JumpTarget) : ∃ a₁, Yields (Emit.patch id target) a () a₁ := by
  obtain ⟨⟨i, hi, hjump⟩, -⟩ := rank?_eq_some.mp h
  obtain ⟨i', hi'⟩ := Instruction.exists_retarget? hjump target
  rw [getElem?_instructions] at hi
  refine ⟨{ a with lines := a.lines.modify id fun l => { l with instruction := i' } }, ?_⟩
  simp only [Emit.patch, Yields.bind_iff, Yields.get_iff]
  exact ⟨a, a, ⟨rfl, rfl⟩, by simp [hi, hi']⟩

end Assembly

/-! ## Operations

For each operation of the assembly, a lemma says that the second compilation follows the first
one. Those on slots are put together from two: the type of a slot that corresponds is found or
missing alike (`typeOf?_trails`), and a missing one is made alike (`define_trails`). So a slot
that has passed its check in the first one passes it in the second one, and is there afterwards
(`checkSlot_trails`). -/

namespace Emit

open Assembly

variable {T : Twins} {a a' : Assembly} {x x' : String}

/-- Both append an instruction. -/
theorem instruction_trails (h : Alike T a a') (i i' : Instruction)
    (hpending : i'.pending? = i.pending?) (hsize : i'.size = i.size) :
    Trails T.assemblies T.Excused (instruction i) a (instruction i') a'
      fun id id' a₁ a₁' => i.pending? ≠ none → a₁.SameJump a₁' id id' := by
  have hyields : ∀ (a : Assembly) (i : Instruction),
      Yields (instruction i) a a.lines.size (a.append i) := fun _ _ => rfl
  refine .of_yields (hyields a i) (hyields a' i') (h.append hpending hsize) (.append a i)
    (.append a' i') fun hjump => ⟨a.pending.length, ?_, ?_⟩
  · rw [← length_instructions]
    exact rank?_append_new a hjump
  · rw [← length_instructions, ← h.pending]
    exact rank?_append_new a' (hpending ▸ hjump)

theorem patch_trails (h : Alike T a a') {id id' : InstructionId} (hid : a.SameJump a' id id')
    {target target' : JumpTarget} (htarget : target ≠ .unresolved)
    (htarget' : target' ≠ .unresolved) :
    Trails T.assemblies T.Excused (patch id target) a (patch id' target') a'
      fun _ _ _ _ => True := by
  obtain ⟨rank, hrank, hrank'⟩ := hid
  obtain ⟨a₁, hpatch⟩ := exists_patch hrank target
  obtain ⟨a₁', hpatch'⟩ := exists_patch hrank' target'
  obtain ⟨hnew, -⟩ := retargeted_of_patch htarget hpatch
  obtain ⟨hnew', -⟩ := retargeted_of_patch htarget' hpatch'
  refine .of_yields hpatch hpatch' ⟨hnew.heap ▸ h.orderly, hnew'.heap ▸ h.orderly',
    fun name hname => ?_, hnew.heap ▸ h.target, hnew'.heap ▸ h.target', ?_, hnew.laid h.laid,
    hnew'.laid h.laid', fun hlean => ?_⟩ hnew.keeps hnew'.keeps trivial
  · rw [hnew.heap, hnew'.heap]
    exact h.shared name hname
  · rw [hnew.pending rank hrank, hnew'.pending rank hrank', h.pending]
  · rw [hnew.bytes, hnew'.bytes]
    exact h.bytes hlean

theorem entryPoint_trails (h : Alike T a a') (label : String) :
    Trails T.assemblies T.Excused (entryPoint label) a (entryPoint label) a'
      fun _ _ _ _ => True :=
  .modify ⟨h.orderly, h.orderly', h.shared, h.target, h.target', h.pending, h.laid, h.laid', h.bytes⟩
    ⟨.refl _, fun _ _ hrank => hrank⟩ ⟨.refl _, fun _ _ hrank => hrank⟩ trivial

/-! ### Slots

Asking for the type of a slot makes it if it is missing and its name is predefined, and the check of
a slot makes it if it is missing at all. Both compilations do this alike for a variable that they
share. The variable that is assigned may have its slot in one of them only: `define_target_first`
and `define_target_second` make it in one compilation while the other one stands still. -/

/-- A slot that is there is left as it is. -/
theorem kind?_of_found {heap heap' : Heap} {pinned : Option (TypeId × Bool)}
    (hkinds : ∀ other, heap'.kind? other =
      if other = x then heap.kind? x <|> pinned else heap.kind? other)
    (hfound : heap.kind? x ≠ none) (other : String) : heap'.kind? other = heap.kind? other := by
  rw [hkinds]
  split
  next heq =>
    rw [heq]
    cases hx : heap.kind? x with
    | none => exact absurd hx hfound
    | some kind => rfl
  next => rfl

/-- Asking for the type of a slot changes nothing of the variable that is assigned: if it has no slot,
then it is not the one that is asked for. -/
theorem holds_of_asked {heap heap' : Heap} {pinned : Option (TypeId × Bool)} {type : TypeId}
    (h : T.Holds type (heap.kind? T.target)) (hx : T.shared x ∨ heap.kind? x ≠ none)
    (hkinds : ∀ other, heap'.kind? other =
      if other = x then heap.kind? x <|> pinned else heap.kind? other) :
    T.Holds type (heap'.kind? T.target) := by
  by_cases heq : T.target = x
  · subst heq
    have hthere : heap.kind? T.target ≠ none :=
      hx.elim (fun hshared hmissing => h.loose hmissing hshared) id
    rwa [kind?_of_found hkinds hthere]
  · rwa [hkinds, if_neg heq]

theorem typeOf?_yields (horderly : a.heap.Orderly T.catalog) (hx : x.isEmpty = false) :
    ∃ heap, Yields (typeOf? T.setting x) a ((heap.kind? x).map Prod.fst) { a with heap := heap } ∧
      heap.Orderly T.catalog ∧ a.heap.Extends heap ∧ ∀ other, heap.kind? other =
        if other = x then a.heap.kind? x <|> (T.catalog.predefined.get? x).map (·, false)
        else a.heap.kind? other := by
  obtain ⟨heap, htype, hrest⟩ := horderly.typeOf? T.sound hx
  exact ⟨heap, onHeap_iff.mpr ⟨heap, htype, rfl⟩, hrest⟩

/-- Both find the same type, or none. -/
theorem typeOf?_trails (h : Alike T a a') (hlike : Like T a a' x x') (hx : x.isEmpty = false) :
    Trails T.assemblies T.Excused (typeOf? T.setting x) a (typeOf? T.setting x') a'
      fun type type' a₁ a₁' => type' = type ∧ type = (a₁.heap.kind? x).map Prod.fst ∧
        a₁'.heap.kind? x' = a₁.heap.kind? x := by
  obtain ⟨heap, hyields, horderly, hext, hkinds⟩ := typeOf?_yields h.orderly hx
  obtain ⟨heap', hyields', horderly', hext', hkinds'⟩ :=
    typeOf?_yields h.orderly' (hlike.isEmpty.trans hx)
  -- A variable gets the same slot in both, if it is predefined; slots that are there stay.
  have hsame : heap'.kind? x' = heap.kind? x ∧
      ∀ name, T.shared name → heap'.kind? name = heap.kind? name := by
    rcases hlike with ⟨rfl, hshared⟩ | ⟨-, -, kind, hkind, hkind'⟩
    · have hsame : ∀ name, T.shared name → heap'.kind? name = heap.kind? name := by
        intro name hname
        rw [hkinds, hkinds', h.shared x hshared, h.shared name hname]
      exact ⟨hsame x hshared, hsame⟩
    · have hold := kind?_of_found hkinds (by simp [hkind])
      have hold' := kind?_of_found hkinds' (by simp [hkind'])
      refine ⟨by rw [hold, hold', hkind, hkind'], fun name hname => ?_⟩
      rw [hold, hold', h.shared name hname]
  -- What is asked for is not a variable that is still to be made (`holds_of_asked`).
  have hasked : (T.shared x ∨ a.heap.kind? x ≠ none) ∧ (T.shared x' ∨ a'.heap.kind? x' ≠ none) := by
    rcases hlike with ⟨rfl, hshared⟩ | ⟨-, -, kind, hkind, hkind'⟩
    · exact ⟨Or.inl hshared, Or.inl hshared⟩
    · exact ⟨Or.inr (by simp [hkind]), Or.inr (by simp [hkind'])⟩
  exact .of_yields hyields hyields' (h.onHeap horderly horderly' hsame.2
    (holds_of_asked h.target hasked.1 hkinds) (holds_of_asked h.target' hasked.2 hkinds'))
    (.onHeap hext) (.onHeap hext') ⟨by rw [hsame.1], rfl, hsame.1⟩

theorem define_yields {type : Option TypeId} {heap : Heap}
    (h : a.heap.define T.catalog x type {} none = .ok heap) :
    Yields (define T.setting x type {} none) a () { a with heap := heap } :=
  onHeap_iff.mpr ⟨heap, by rw [h]; rfl, rfl⟩

/-- Both make a slot for a variable that has none. -/
theorem define_trails (h : Alike T a a') (hshared : T.shared x) (hfresh : a.heap.kind? x = none)
    (type : Option TypeId) :
    Trails T.assemblies T.Excused (define T.setting x type {} none) a
      (define T.setting x type {} none) a' fun _ _ a₁ a₁' => a₁.Same a₁' x x := by
  cases hx : x.isEmpty with
  | true =>
    intro _ a₁ hyields
    obtain ⟨heap, hdefine, -⟩ := onHeap_iff.mp hyields
    simp [Heap.define, hx, Except.map] at hdefine
  | false =>
  obtain ⟨heap, hdefine, horderly, hext, hkinds⟩ := h.orderly.define T.sound hx hfresh type
  obtain ⟨heap', hdefine', horderly', hext', hkinds'⟩ :=
    h.orderly'.define T.sound hx ((h.shared x hshared).trans hfresh) type
  have hne := h.ne_target hshared hfresh
  refine .of_yields (define_yields hdefine) (define_yields hdefine')
    (h.onHeap horderly horderly' (fun name hname => ?_) ?_ ?_) (.onHeap hext) (.onHeap hext')
    ⟨hx, hx, _, (hkinds x).trans (if_pos rfl), (hkinds' x).trans (if_pos rfl)⟩
  · rw [hkinds, hkinds', h.shared name hname]
  · rw [hkinds, if_neg hne]
    exact h.target
  · rw [hkinds', if_neg hne]
    exact h.target'

/-- The slot of the variable that is assigned can be made where it is missing. -/
theorem define_target (type : TypeId) (horderly : a.heap.Orderly T.catalog)
    (hnamed : T.target.isEmpty = false) (hloose : T.Loose)
    (hmissing : a.heap.kind? T.target = none) :
    ∃ heap, Yields (define T.setting T.target (some type) {} none) a () { a with heap := heap } ∧
      heap.Orderly T.catalog ∧ a.heap.Extends heap ∧
      heap.kind? T.target = some (type, false) ∧
      ∀ name, T.shared name → heap.kind? name = a.heap.kind? name := by
  obtain ⟨heap, hdefine, horderly₁, hext, hkinds⟩ :=
    horderly.define T.sound hnamed hmissing (some type)
  refine ⟨heap, define_yields hdefine, horderly₁, hext, ?_, fun name hname => ?_⟩
  · -- No predefined name is loose, so the slot gets the type that is asked for.
    rw [hkinds, if_pos rfl, Heap.newType, T.predefined_eq_none hloose]
    rfl
  · rw [hkinds, if_neg]
    rintro rfl
    exact hloose hname

/-- The first one makes the slot of the variable, with the type that it has there. -/
theorem define_target_first (h : Alike T a a') (hnamed : T.target.isEmpty = false)
    (hmissing : a.heap.kind? T.target = none) :
    ∃ a₁, Yields (define T.setting T.target (some T.type) {} none) a () a₁ ∧ Alike T a₁ a' ∧
      a.Keeps a₁ ∧ a₁.heap.kind? T.target = some (T.type, false) := by
  obtain ⟨heap, hyields, horderly, hext, hkind, hothers⟩ :=
    define_target T.type h.orderly hnamed (h.target.loose hmissing) hmissing
  exact ⟨{ a with heap := heap }, hyields, h.onHeap horderly h.orderly'
    (fun name hname => (h.shared name hname).trans (hothers name hname).symm) (Or.inl hkind) h.target',
    .onHeap hext, hkind⟩

/-- The second one makes the slot of the variable, with the type that it has there. -/
theorem define_target_second (h : Alike T a a') (hnamed : T.target.isEmpty = false)
    (hmissing : a'.heap.kind? T.target = none) :
    ∃ a₁', Yields (define T.setting T.target (some T.type') {} none) a' () a₁' ∧ Alike T a a₁' ∧
      a'.Keeps a₁' ∧ a₁'.heap.kind? T.target = some (T.type', false) := by
  obtain ⟨heap, hyields, horderly, hext, hkind, hothers⟩ :=
    define_target T.type' h.orderly' hnamed (h.target'.loose hmissing) hmissing
  exact ⟨{ a' with heap := heap }, hyields, h.onHeap h.orderly horderly
    (fun name hname => (hothers name hname).trans (h.shared name hname)) h.target (Or.inl hkind),
    .onHeap hext, hkind⟩

/-- A slot that passes a check of its type in one of them passes it in the other one. -/
theorem checkSlot_trails (h : Alike T a a') (hlike : Like T a a' x x') (expected : Option TypeId)
    (exact : Bool) :
    Trails T.assemblies T.Excused (checkSlot T.setting x expected exact) a
      (checkSlot T.setting x' expected exact) a' fun _ _ a₁ a₁' => a₁.Same a₁' x x' := by
  simp only [checkSlot]
  rw [hlike.isEmpty]
  split
  next => exact .throw
  next hempty =>
    have hx : x.isEmpty = false := by simpa using hempty
    refine .bind (typeOf?_trails h hlike hx) ?_
    rintro _ _ a₁ a₁' h₁ hkeeps hkeeps' ⟨rfl, rfl, -⟩
    have hlike₁ := hlike.mono hkeeps hkeeps'
    cases hfound : a₁.heap.kind? x with
    | none =>
      -- It is no predefined name either, so both make its slot.
      obtain ⟨rfl, hshared⟩ := hlike₁.of_missing hfound
      exact define_trails h₁ hshared hfound expected
    | some kind =>
      -- Both slots have one type, so that they pass or fail the test together.
      have hsame := hlike₁.same h₁ hx hfound
      rw [Option.map_some]
      cases expected with
      | none => exact .pure h₁ hsame
      | some expected =>
        dsimp only
        generalize (true && !(if exact then kind.1 == expected
          else T.catalog.types.isCompatible kind.1 expected)) = refused
        cases refused with
        | true => exact .throw
        | false => exact .pure h₁ hsame

theorem pushSlot_trails (h : Alike T a a') (hlike : Like T a a' x x') (expected : Option TypeId)
    (exact : Bool) :
    Trails T.assemblies T.Excused (pushSlot T.setting x expected exact) a
      (pushSlot T.setting x' expected exact) a' fun _ _ a₁ a₁' => a₁.Same a₁' x x' := by
  refine .bind (checkSlot_trails h hlike expected exact) ?_
  intro _ _ a₁ a₁' h₁ _ _ hsame
  exact (instruction_trails h₁ (.push x) (.push x') rfl rfl).imp
    fun _ _ _ _ _ hkeeps hkeeps' _ => hsame.mono hkeeps hkeeps'

/-! ### Operands

The slot of a literal is found or made by its value, so it may have another name in the other
compilation. What counts is its type, which is that of the literal (`LikeOperand`). All that takes
operands goes on with the slots that `slot_trails` finds for them. -/

/-- Two operands that stand for one variable, or for slots of one kind. -/
def LikeOperand (T : Twins) (a a' : Assembly) : Operand → Operand → Prop
  | .var x, .var x' => Like T a a' x x'
  | .const v, .const v' => T.catalog.types.constantType v' = T.catalog.types.constantType v
  | _, _ => False

theorem LikeOperand.var (h : Like T a a' x x') : LikeOperand T a a' (.var x) (.var x') := h

theorem LikeOperand.const {v v' : Value}
    (h : T.catalog.types.constantType v' = T.catalog.types.constantType v) :
    LikeOperand T a a' (.const v) (.const v') := h

theorem LikeOperand.mono {a₁ a₁' : Assembly} {o o' : Operand} (h : LikeOperand T a a' o o')
    (hkeeps : a.Keeps a₁) (hkeeps' : a'.Keeps a₁') : LikeOperand T a₁ a₁' o o' := by
  cases o <;> cases o' <;> first | exact Like.mono h hkeeps hkeeps' | exact h

theorem constant_yields (horderly : a.heap.Orderly T.catalog) (value : Value) :
    ∃ slot heap, Yields (constant T.setting value) a slot { a with heap := heap } ∧
      heap.Orderly T.catalog ∧ a.heap.Extends heap ∧ slot.isEmpty = false ∧
      heap.kind? slot = some (T.catalog.types.constantType value, true) ∧ T.Steady a.heap heap := by
  obtain ⟨slot, heap, hconstant, horderly, hext, hempty, hkind, hothers⟩ :=
    horderly.constant T.sound (fun _ => T.constant_not_predefined) value
  exact ⟨slot, heap, onHeap_iff.mpr ⟨heap, hconstant, rfl⟩, horderly, hext, hempty, hkind,
    fun name hname => hothers name (T.ordinary name hname).1⟩

theorem slot_trails (h : Alike T a a') {o o' : Operand} (ho : LikeOperand T a a' o o') :
    Trails T.assemblies T.Excused (slot T.setting o) a (slot T.setting o') a'
      fun x x' a₁ a₁' => Like T a₁ a₁' x x' := by
  cases o with
  | var x =>
    cases o' with
    | var x' => exact .pure h ho
    | const v' => exact ho.elim
  | const v =>
    cases o' with
    | var x' => exact ho.elim
    | const v' =>
      obtain ⟨slot, heap, hyields, horderly, hext, hempty, hkind, hothers⟩ :=
        constant_yields h.orderly v
      obtain ⟨slot', heap', hyields', horderly', hext', hempty', hkind', hothers'⟩ :=
        constant_yields h.orderly' v'
      exact .of_yields hyields hyields' (h.onSteady horderly horderly' hothers hothers')
        (.onHeap hext) (.onHeap hext')
        (Or.inr ⟨hempty, hempty', _, hkind, hkind'.trans (by rw [show _ = _ from ho])⟩)

theorem push_trails (h : Alike T a a') {o o' : Operand} (ho : LikeOperand T a a' o o') :
    Trails T.assemblies T.Excused (push T.setting o) a (push T.setting o') a'
      fun _ _ _ _ => True := by
  refine .bind (slot_trails h ho) ?_
  intro x x' a₁ a₁' h₁ _ _ hlike
  exact (pushSlot_trails h₁ hlike none false).imp fun _ _ _ _ _ _ _ _ => trivial

/-- A copy goes from and to slots that correspond. -/
theorem copy_trails (h : Alike T a a') {o o' : Operand} (ho : LikeOperand T a a' o o')
    (hlike : Like T a a' x x') :
    Trails T.assemblies T.Excused (copy T.setting o x) a (copy T.setting o' x') a'
      fun _ _ _ _ => True := by
  refine .bind (slot_trails h ho) ?_
  intro s s' a₁ a₁' h₁ hkeeps₁ hkeeps₁' hslot
  refine .bind (pushSlot_trails h₁ hslot none false) ?_
  intro _ _ a₂ a₂' h₂ hkeeps₂ hkeeps₂' hsame
  refine .get_bind ?_
  have htype : (a₂'.heap.slots.get? s').elim TypeTable.object (·.type) =
      (a₂.heap.slots.get? s).elim TypeTable.object (·.type) := by
    obtain ⟨kind, hkind, hkind'⟩ := hsame.kind
    obtain ⟨v, hv, rfl⟩ := Option.map_eq_some_iff.mp hkind
    obtain ⟨v', hv', heq⟩ := Option.map_eq_some_iff.mp hkind'
    rw [hv, hv']
    exact (Prod.mk.inj heq).1
  dsimp only
  rw [htype]
  refine .bind (pushSlot_trails h₂ ((hlike.mono hkeeps₁ hkeeps₁').mono hkeeps₂ hkeeps₂') _ false) ?_
  intro _ _ a₃ a₃' h₃ _ _ _
  exact (instruction_trails h₃ _ _ rfl rfl).imp fun _ _ _ _ _ _ _ _ => trivial

/-- An address may be out of range where there is more code. This is the one operation that looks at
the size of the code, and the one that may fail in the second one alone. -/
theorem copyOffset_trails (h : Alike T a a') (hsame : a.Same a' x x') (relative : UInt32) :
    Trails T.assemblies T.Excused (copyOffset T.setting x relative) a
      (copyOffset T.setting x' relative) a' fun _ _ _ _ => True := by
  have hthere : ∀ {a : Assembly} {x : String} {kind : TypeId × Bool}, a.heap.kind? x = some kind →
      a.heap.slots.contains x = true := by
    intro a x kind hkind
    obtain ⟨v, hv, -⟩ := Option.map_eq_some_iff.mp hkind
    exact OrderedMap.contains_iff.mpr ⟨v, hv⟩
  obtain ⟨kind, hkind, hkind'⟩ := hsame.kind
  refine .get_bind ?_
  simp only [hthere hkind, hthere hkind', Bool.not_true, Bool.false_eq_true, if_false]
  refine .get_bind ?_
  split
  next hlt =>
    split
    next hlt' =>
      exact copy_trails h (.const rfl) (Or.inr hsame)
    next hge =>
      -- This can only be where the second code may be longer than the first one.
      refine .fail ⟨fun hlean => hge ?_, _, rfl⟩
      rw [h.laid.size_eq] at hlt
      rw [h.laid'.size_eq]
      have := h.bytes hlean
      omega
  next => exact .throw

theorem jumpIfFalse_trails (h : Alike T a a') (hlike : Like T a a' x x') (target : JumpTarget) :
    Trails T.assemblies T.Excused (jumpIfFalse T.setting x target) a
      (jumpIfFalse T.setting x' target) a' fun id id' a₁ a₁' => a₁.SameJump a₁' id id' := by
  refine .bind (pushSlot_trails h hlike _ true) ?_
  intro _ _ a₁ a₁' h₁ _ _ _
  refine (instruction_trails h₁ (.jumpIfFalse target) (.jumpIfFalse target) rfl rfl).imp ?_
  intro id id' _ _ _ _ _ hjump
  exact hjump (by simp [Instruction.pending?, Instruction.target?])

theorem jumpIndirect_trails (h : Alike T a a') (hlike : Like T a a' x x') :
    Trails T.assemblies T.Excused (jumpIndirect T.setting x) a (jumpIndirect T.setting x') a'
      fun _ _ _ _ => True := by
  refine .bind (checkSlot_trails h hlike _ true) ?_
  intro _ _ a₁ a₁' h₁ _ _ _
  exact (instruction_trails h₁ (.jumpIndirect x) (.jumpIndirect x') rfl rfl).imp
    fun _ _ _ _ _ _ _ _ => trivial

theorem callPushed_trails (h : Alike T a a') (name : String) :
    Trails T.assemblies T.Excused (callPushed T.setting name) a (callPushed T.setting name) a'
      fun _ _ _ _ => True := by
  simp only [callPushed]
  split
  next => exact .throw
  next =>
    refine .bind (Q := fun _ _ _ _ => True) (.modify
      ⟨h.orderly, h.orderly', h.shared, h.target, h.target', h.pending, h.laid, h.laid', h.bytes⟩
      ⟨.refl _, fun _ _ hrank => hrank⟩ ⟨.refl _, fun _ _ hrank => hrank⟩ trivial) ?_
    intro _ _ a₁ a₁' h₁ _ _ _
    exact (instruction_trails h₁ (.call name) (.call name) rfl rfl).imp fun _ _ _ _ _ _ _ _ => trivial

end Emit

/-! ## Calls

The arguments of two calls go together in one of two ways (`Serves`). They correspond, and then
pass the same checks. Or they do not, and the second one fits its parameter whatever the first
one is (`Suits`): this is how an array is filled in slots of different types. Either of these may
be the variable that is assigned, whose slot the check makes, if it is missing, with the type of
the parameter. After the checks all arguments are there (`Ready`), so pushing them cannot fail. -/

/-- Whether a slot fits a parameter depends on its kind. -/
theorem Parameter.Admits.congr {types : TypeTable} {p : Parameter} {v v' : Variable}
    (h : p.Admits types v)
    (hkind : (v'.type, v'.attributes.constant) = (v.type, v.attributes.constant)) :
    p.Admits types v' := by
  obtain ⟨htype, hconstant⟩ := Prod.mk.inj hkind
  unfold Parameter.Admits at h ⊢
  rwa [htype, hconstant]

/-- A variable of the type of the parameter fits it. -/
theorem Parameter.admits_self (types : TypeTable) (p : Parameter) :
    p.Admits types ⟨p.type, {}, none⟩ := by
  unfold Parameter.Admits
  cases p.direction with
  | input => exact types.accepts_refl p.type
  | output => exact ⟨types.isCompatible_refl p.type, rfl⟩
  | both => exact ⟨rfl, rfl⟩

namespace Emit

open Assembly

variable {T : Twins} {a a' a₁ a₁' : Assembly} {x x' : String} {p : Parameter}

/-- An argument of one of the calls is there, and that of the other one fits the parameter; or it is
the variable that is assigned, and gets the type of the parameter. -/
structure Suits (T : Twins) (a a' : Assembly) (p : Parameter) (x x' : String) : Prop where
  named : x.isEmpty = false
  named' : x'.isEmpty = false
  first : a.heap.slots.contains x = true ∨ x = T.target ∧ p.type = T.type
  second : (∃ v, a'.heap.slots.get? x' = some v ∧ p.Admits T.catalog.types v) ∨
    x' = T.target ∧ p.type = T.type'

theorem Suits.mono (h : Suits T a a' p x x') (hkeeps : a.Keeps a₁) (hkeeps' : a'.Keeps a₁') :
    Suits T a₁ a₁' p x x' := by
  refine ⟨h.named, h.named', h.first.imp_left hkeeps.heap.contains, h.second.imp_left ?_⟩
  rintro ⟨v, hv, hfits⟩
  exact ⟨v, hkeeps'.heap.slots x' v hv, hfits⟩

/-- An argument for a parameter, in both calls. -/
def Serves (T : Twins) (a a' : Assembly) (p : Parameter) (x x' : String) : Prop :=
  Like T a a' x x' ∨ Suits T a a' p x x'

theorem Serves.mono (h : Serves T a a' p x x') (hkeeps : a.Keeps a₁) (hkeeps' : a'.Keeps a₁') :
    Serves T a₁ a₁' p x x' :=
  h.imp (fun hlike => hlike.mono hkeeps hkeeps') fun hsuits => hsuits.mono hkeeps hkeeps'

/-- An argument that has been checked, in both calls. -/
def Ready (T : Twins) (a a' : Assembly) (x x' : String) : Prop :=
  Like T a a' x x' ∨ x.isEmpty = false ∧ x'.isEmpty = false ∧
    a.heap.slots.contains x = true ∧ a'.heap.slots.contains x' = true

theorem Ready.mono (h : Ready T a a' x x') (hkeeps : a.Keeps a₁) (hkeeps' : a'.Keeps a₁') :
    Ready T a₁ a₁' x x' := by
  refine h.imp (fun hlike => hlike.mono hkeeps hkeeps') ?_
  rintro ⟨hx, hx', hthere, hthere'⟩
  exact ⟨hx, hx', hkeeps.heap.contains hthere, hkeeps'.heap.contains hthere'⟩

/-- An operand for a parameter, in both calls. -/
def ServesOperand (T : Twins) (a a' : Assembly) (p : Parameter) (o o' : Operand) : Prop :=
  LikeOperand T a a' o o' ∨ ∃ x x', o = .var x ∧ o' = .var x' ∧ Suits T a a' p x x'

/-- Two lists correspond, parameter by parameter. -/
inductive ForParameters {α : Type} (R : Parameter → α → α → Prop) :
    List Parameter → List α → List α → Prop
  | nil : ForParameters R [] [] []
  | cons {p : Parameter} {ps : List Parameter} {o o' : α} {os os' : List α} (head : R p o o')
      (tail : ForParameters R ps os os') : ForParameters R (p :: ps) (o :: os) (o' :: os')

theorem ForParameters.imp {α : Type} {R R' : Parameter → α → α → Prop} {ps : List Parameter}
    {os os' : List α} (h : ForParameters R ps os os') (himp : ∀ p o o', R p o o' → R' p o o') :
    ForParameters R' ps os os' := by
  induction h with
  | nil => exact .nil
  | cons head _ ih => exact .cons (himp _ _ _ head) ih

theorem ForParameters.length {α : Type} {R : Parameter → α → α → Prop} {ps : List Parameter}
    {os os' : List α} (h : ForParameters R ps os os') :
    ps.length = os.length ∧ ps.length = os'.length := by
  induction h with
  | nil => exact ⟨rfl, rfl⟩
  | cons _ _ ih => exact ⟨congrArg (· + 1) ih.1, congrArg (· + 1) ih.2⟩

theorem ForParameters.of_forall₂ {α : Type} {R : α → α → Prop} {ps : List Parameter}
    {os os' : List α} (h : List.Forall₂ R os os') (hlength : ps.length = os.length) :
    ForParameters (fun _ => R) ps os os' := by
  induction h generalizing ps with
  | nil =>
    obtain rfl := List.length_eq_zero_iff.mp hlength
    exact .nil
  | cons head _ ih =>
    cases ps with
    | nil => cases hlength
    | cons p ps => exact .cons head (ih (by simpa using hlength))

theorem serves_of_operand (h : Alike T a a') {o o' : Operand}
    (ho : ServesOperand T a a' p o o') :
    Trails T.assemblies T.Excused (slot T.setting o) a (slot T.setting o') a'
      fun x x' a₁ a₁' => Serves T a₁ a₁' p x x' := by
  rcases ho with hlike | ⟨x, x', rfl, rfl, hsuits⟩
  · exact (slot_trails h hlike).imp fun _ _ _ _ _ _ _ => Or.inl
  · exact .pure h (Or.inr hsuits)

theorem slots_trails (h : Alike T a a') {ps : List Parameter} {os os' : List Operand}
    (hserve : ForParameters (ServesOperand T a a') ps os os') :
    Trails T.assemblies T.Excused (slots T.setting os) a (slots T.setting os') a'
      fun names names' a₁ a₁' => ForParameters (Serves T a₁ a₁') ps names names' := by
  induction os generalizing a a' ps os' with
  | nil =>
    cases hserve
    exact .pure h .nil
  | cons o os ih =>
    cases hserve with
    | cons head tail =>
      refine .bind (serves_of_operand h head) ?_
      intro x x' a₁ a₁' h₁ hkeeps hkeeps' hx
      refine .bind (ih h₁ (tail.imp fun _ _ _ ho => ?_)) ?_
      · exact ho.imp (fun hlike => hlike.mono hkeeps hkeeps')
          fun ⟨y, y', hy, hy', hsuits⟩ => ⟨y, y', hy, hy', hsuits.mono hkeeps hkeeps'⟩
      · intro names names' a₂ a₂' h₂ hkeeps₂ hkeeps₂' hnames
        exact .pure h₂ (.cons (hx.mono hkeeps₂ hkeeps₂') hnames)

/-- The first argument is checked, then the others. -/
theorem checkArguments_first (cfg : Setting) (operation : String) (index : Nat)
    (pair : String × Parameter) (pairs : List (String × Parameter)) :
    checkArguments cfg operation index (pair :: pairs) = (do
      checkArguments cfg operation index [pair]
      checkArguments cfg operation (index + 1) pairs) := by
  obtain ⟨x, p⟩ := pair
  simp only [checkArguments, bind_assoc]
  refine congrArg _ (funext fun a => ?_)
  cases a.heap.slots.get? x with
  | none => simp only [bind_assoc, pure_bind]
  | some v =>
    dsimp only
    cases checkArgument cfg operation index x v p <;> rfl

/-- An argument that is there is left as it is, and one that is missing gets its slot. -/
theorem argument_first (h : Alike T a a') (hx : x.isEmpty = false)
    (hfirst : a.heap.slots.contains x = true ∨ x = T.target ∧ p.type = T.type) {operation : String}
    {index : Nat} (hyields : Yields (checkArguments T.setting operation index [(x, p)]) a () a₁) :
    Alike T a₁ a' ∧ a.Keeps a₁ ∧ a₁.heap.slots.contains x = true := by
  simp only [checkArguments, Yields.bind_iff, Yields.get_iff] at hyields
  obtain ⟨_, _, ⟨rfl, rfl⟩, hyields⟩ := hyields
  cases hslot : a.heap.slots.get? x with
  | none =>
    -- It is the variable that is assigned, and gets the type of the parameter.
    obtain ⟨rfl, htype⟩ := hfirst.resolve_left (by simp [OrderedMap.contains, hslot])
    obtain ⟨a₂, hdefine, h₂, hkeeps, hkind⟩ :=
      define_target_first h hx (Heap.kind?_eq_none.mpr hslot)
    simp only [hslot, htype, Yields.bind_iff, Yields.pure_iff] at hyields
    obtain ⟨_, _, hdefine', -, rfl⟩ := hyields
    obtain ⟨-, rfl⟩ := hdefine'.unique hdefine
    obtain ⟨v, hv, -⟩ := Heap.kind?_eq_some.mp hkind
    exact ⟨h₂, hkeeps, OrderedMap.contains_iff.mpr ⟨v, hv⟩⟩
  | some v =>
    -- The check of a slot that is there only reads.
    have hsame : a = a₁ := by
      simp only [hslot] at hyields
      cases hcheck : checkArgument T.setting operation index x v p with
      | error e => simp [hcheck] at hyields
      | ok _ =>
        rw [hcheck] at hyields
        exact (Yields.pure_iff.mp hyields).2
    subst hsame
    exact ⟨h, .refl a, OrderedMap.contains_iff.mpr ⟨v, hslot⟩⟩

/-- An argument that fits passes its check, and the variable that is assigned fits. -/
theorem argument_second (h : Alike T a a') (hx' : x'.isEmpty = false)
    (hsecond : (∃ v, a'.heap.slots.get? x' = some v ∧ p.Admits T.catalog.types v) ∨
      x' = T.target ∧ p.type = T.type') (operation : String) (index : Nat) :
    ∃ a₁', Yields (checkArguments T.setting operation index [(x', p)]) a' () a₁' ∧ Alike T a a₁' ∧
      a'.Keeps a₁' ∧ a₁'.heap.slots.contains x' = true := by
  cases hslot : a'.heap.slots.get? x' with
  | none =>
    -- As in the first call, only the variable that is assigned can be missing.
    obtain ⟨rfl, htype⟩ := hsecond.resolve_left (by rintro ⟨v, hv, -⟩; cases hslot.symm.trans hv)
    obtain ⟨a₁', hdefine, h₁, hkeeps, hkind⟩ :=
      define_target_second h hx' (Heap.kind?_eq_none.mpr hslot)
    obtain ⟨v, hv, -⟩ := Heap.kind?_eq_some.mp hkind
    refine ⟨a₁', ?_, h₁, hkeeps, OrderedMap.contains_iff.mpr ⟨v, hv⟩⟩
    simp only [checkArguments, Yields.bind_iff, Yields.get_iff]
    refine ⟨_, _, ⟨rfl, rfl⟩, ?_⟩
    rw [hslot, htype]
    exact Yields.bind_iff.mpr ⟨(), a₁', hdefine, rfl⟩
  | some v =>
    have hadmits : p.Admits T.catalog.types v := by
      rcases hsecond with ⟨v', hv', hadmits⟩ | ⟨rfl, htype⟩
      · obtain rfl := Option.some.inj (hslot.symm.trans hv')
        exact hadmits
      · -- Its slot is there, with the type that it has in the second one.
        have hthere := h.target'.resolve_right fun hmissing => by
          simp [Heap.kind?_eq_none.mp hmissing.2] at hslot
        obtain ⟨v', hv', hkind, hconstant⟩ := Heap.kind?_eq_some.mp hthere
        obtain rfl := Option.some.inj (hslot.symm.trans hv')
        exact (p.admits_self T.catalog.types).congr (by rw [hkind, hconstant, htype])
    refine ⟨a', ?_, h, .refl a', OrderedMap.contains_iff.mpr ⟨v, hslot⟩⟩
    simp only [checkArguments, Yields.bind_iff, Yields.get_iff]
    refine ⟨_, _, ⟨rfl, rfl⟩, ?_⟩
    rw [hslot]
    dsimp only
    rw [checkArgument_of_admits hadmits]
    rfl

/-- An argument that passes its check in one call passes it in the other one. -/
theorem argument_trails (h : Alike T a a') (hserves : Serves T a a' p x x') (operation : String)
    (index : Nat) :
    Trails T.assemblies T.Excused (checkArguments T.setting operation index [(x, p)]) a
      (checkArguments T.setting operation index [(x', p)]) a'
      fun _ _ a₁ a₁' => Ready T a₁ a₁' x x' := by
  rcases hserves with hlike | hsuits
  · simp only [checkArguments]
    refine .get_bind ?_
    cases hslot : a.heap.slots.get? x with
    | none =>
      -- A missing argument is a variable, which gets its slot in both.
      have hfresh := Heap.kind?_eq_none.mpr hslot
      obtain ⟨rfl, hshared⟩ := hlike.of_missing hfresh
      rw [Heap.kind?_eq_none.mp ((h.shared x hshared).trans hfresh)]
      refine .bind (define_trails h hshared hfresh _) ?_
      intro _ _ a₁ a₁' h₁ _ _ hsame
      exact .pure h₁ (Or.inl (Or.inr hsame))
    | some v =>
      obtain ⟨v', hv', hkind⟩ := Option.map_eq_some_iff.mp
        ((hlike.kind h).trans (Heap.kind?_eq_some.mpr ⟨v, hslot, rfl, rfl⟩))
      rw [hv']
      dsimp only
      cases hcheck : checkArgument T.setting operation index x v p with
      | error e => exact .throw_bind
      | ok _ =>
        have hadmits' := (checkArgument_ok hcheck).congr hkind
        rw [show checkArgument T.setting operation index x' v' p = .ok () from
          checkArgument_of_admits hadmits']
        exact .pure h (Or.inl hlike)
  · -- The arguments do not correspond, so the two calls are gone through one after the other.
    intro _ a₁ hyields
    obtain ⟨h₁, hkeeps, hthere⟩ := argument_first h hsuits.named hsuits.first hyields
    obtain ⟨a₁', hyields', h₁', hkeeps', hthere'⟩ :=
      argument_second h₁ hsuits.named' hsuits.second operation index
    exact Or.inl ⟨(), a₁', hyields', h₁', hkeeps, hkeeps',
      Or.inr ⟨hsuits.named, hsuits.named', hthere, hthere'⟩⟩

/-- Arguments that pass the checks in one call pass them in the other one. -/
theorem checkArguments_trails (h : Alike T a a') {ps : List Parameter}
    {names names' : List String} (hserve : ForParameters (Serves T a a') ps names names')
    (operation : String) (index : Nat) :
    Trails T.assemblies T.Excused
      (checkArguments T.setting operation index (names.zip ps)) a
      (checkArguments T.setting operation index (names'.zip ps)) a'
      fun _ _ a₁ a₁' => List.Forall₂ (Ready T a₁ a₁') names names' := by
  induction names generalizing a a' ps names' index with
  | nil =>
    cases hserve
    exact .pure h .nil
  | cons x names ih =>
    cases hserve with
    | @cons p ps _ x' _ names' head tail =>
      rw [List.zip_cons_cons, List.zip_cons_cons, checkArguments_first _ _ _ (x, p),
        checkArguments_first _ _ _ (x', p)]
      refine .bind (argument_trails h head operation index) ?_
      intro _ _ a₁ a₁' h₁ hkeeps hkeeps' hready
      refine (ih h₁ (tail.imp fun _ _ _ hserves => hserves.mono hkeeps hkeeps') (index + 1)).imp ?_
      intro _ _ a₂ a₂' _ hkeeps₂ hkeeps₂' hrest
      exact .cons (hready.mono hkeeps₂ hkeeps₂') hrest

theorem pushAll_trails (h : Alike T a a') {names names' : List String}
    (hready : List.Forall₂ (Ready T a a') names names') :
    Trails T.assemblies T.Excused (pushAll T.setting names) a (pushAll T.setting names') a'
      fun _ _ _ _ => True := by
  induction names generalizing a a' names' with
  | nil =>
    cases hready
    exact .pure h trivial
  | cons x names ih =>
    cases hready with
    | @cons _ x' _ names' head tail =>
      refine .bind (Q := fun _ _ _ _ => True) ?_ fun _ _ a₁ a₁' h₁ hkeeps hkeeps' _ =>
        ih h₁ (tail.imp fun _ _ hready => hready.mono hkeeps hkeeps')
      rcases head with hlike | ⟨hx, hx', hthere, hthere'⟩
      · exact (pushSlot_trails h hlike none false).imp fun _ _ _ _ _ _ _ _ => trivial
      · refine .bind (Q := fun _ _ _ _ => True) (.of_yields (checkSlot_of_contains hx hthere)
          (checkSlot_of_contains hx' hthere') h (Keeps.refl a) (Keeps.refl a') trivial) ?_
        intro _ _ a₁ a₁' h₁ _ _ _
        exact (instruction_trails h₁ (.push x) (.push x') rfl rfl).imp
          fun _ _ _ _ _ _ _ _ => trivial

theorem checkCall_eq {c : Catalog} {name : String} {op : Operation} {arguments : List String}
    (hop : c.operationNamed? name = some op) (hlength : op.parameters.length = arguments.length) :
    checkCall ⟨c, true⟩ name arguments =
      checkArguments ⟨c, true⟩ name 0 (arguments.zip op.parameters) := by
  simp only [checkCall, hop, hlength, ne_eq, not_true_eq_false, if_false]

/-- A call that succeeds on operands that serve its parameters succeeds on the others. -/
theorem call_trails (h : Alike T a a') {name : String} {os os' : List Operand}
    (hserve : ∀ op, T.catalog.operationNamed? name = some op →
      op.parameters.length = os.length → ForParameters (ServesOperand T a a') op.parameters os os') :
    Trails T.assemblies T.Excused (call T.setting name os) a (call T.setting name os') a'
      fun _ _ _ _ => True := by
  -- That the first one succeeds tells that there is such an operation, with as many parameters.
  intro id a₃ hyields
  obtain ⟨arguments, a₁, op, a₂, hslots, hop, hlength, -⟩ := call_stages rfl hyields
  suffices htrails : Trails T.assemblies T.Excused (call T.setting name os) a
      (call T.setting name os') a' fun _ _ _ _ => True from htrails id a₃ hyields
  refine .bind (slots_trails h (hserve op hop (hlength.trans (slots_length hslots)))) ?_
  intro names names' a₁ a₁' h₁ _ _ hnames
  obtain ⟨hlength₁, hlength₁'⟩ := hnames.length
  simp only [if_true]
  rw [checkCall_eq hop hlength₁, checkCall_eq hop hlength₁']
  refine .bind (checkArguments_trails h₁ hnames name 0) ?_
  intro _ _ a₂ a₂' h₂ _ _ hready
  refine .bind (pushAll_trails h₂ hready) ?_
  intro _ _ a₄ a₄' h₄ _ _ _
  exact callPushed_trails h₄ name

end Emit

end SexprAsm
