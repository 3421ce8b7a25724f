import SexprAsm.Proofs.Assembly.Kinds
import SexprAsm.Proofs.Catalog
import SexprAsm.Proofs.Echoed
import SexprAsm.Proofs.Workspace

/-!
# Emitting without checks

A checked and an unchecked compilation go through the same states, but for slots that a call or a
copy makes on first use: with checks such a slot takes the type of what is stored in it, without
checks it may be of the root type. `Mirrors` relates the two states, for a set of names whose slots
may be loose in this way, and every operation of a checked compilation is echoed without checks.

Calls need care: with checks, the missing slots of all arguments are made before the first one is
pushed, without checks one by one (`call_echoed`).
-/

namespace SexprAsm

/-! ## Heaps with loose slots

The heaps of both compilations have the same slots in the same order. A slot may be loose: the
unchecked compilation has made it without a type, and so it may have another type and other
attributes there. -/

/-- The slot that a variable without a type gets: of the root type, without a value. -/
def Variable.untyped : Variable := ⟨TypeTable.object, {}, none⟩

/-- Two slots of one name that are the same, or of which the second one is loose. -/
def Mirrored (loose : String → Prop) (entry entry' : String × Variable) : Prop :=
  entry'.1 = entry.1 ∧ (entry'.2 = entry.2 ∨
    loose entry.1 ∧ entry.2.attributes = {} ∧ entry'.2 = Variable.untyped)

/-- Two heaps with the same names in the same order, of which the second one may have loose slots;
literals are known under names of slots. -/
structure Heap.Mirrors (loose : String → Prop) (heap heap' : Heap) : Prop where
  slots : List.Forall₂ (Mirrored loose) heap.slots.entries heap'.slots.entries
  constants : heap'.constants = heap.constants
  known : ∀ value name, heap.constants.get? value = some name → heap.slots.contains name = true

/-- A slot that may be written: it is there, it is predefined, or it may be loose. -/
def Heap.Writable (c : Catalog) (loose : String → Prop) (heap : Heap) (name : String) : Prop :=
  heap.slots.contains name = true ∨ c.predefined.contains name = true ∨ loose name

namespace Heap

variable {c : Catalog} {loose : String → Prop} {heap heap' heap₁ : Heap} {name : String}

theorem Writable.mono (h : Writable c loose heap name) (hext : heap.Extends heap') :
    Writable c loose heap' name :=
  h.imp_left hext.contains

/-- A slot that may be written, and is neither there nor predefined, is loose. -/
theorem Writable.isLoose (h : Writable c loose heap name) (hnone : heap.slots.get? name = none)
    (hpinned : c.predefined.get? name = none) : loose name := by
  rcases h with hcontains | hcontains | hloose
  · rw [OrderedMap.contains, hnone] at hcontains
    cases hcontains
  · rw [OrderedMap.contains, hpinned] at hcontains
    cases hcontains
  · exact hloose

namespace Mirrors

theorem ofNoConstants (hconstants : heap.constants = {}) : Mirrors loose heap heap := by
  refine ⟨List.forall₂_same.mpr fun _ _ => ⟨rfl, Or.inl rfl⟩, rfl, fun value name hname => ?_⟩
  rw [hconstants] at hname
  cases hname

theorem get? (h : Mirrors loose heap heap') (name : String) :
    heap'.slots.get? name = heap.slots.get? name ∨
      loose name ∧ ∃ v, heap.slots.get? name = some v ∧ v.attributes = {} ∧
        heap'.slots.get? name = some .untyped := by
  unfold OrderedMap.get?
  have hslots := h.slots
  generalize heap.slots.entries = entries, heap'.slots.entries = entries' at hslots ⊢
  induction hslots with
  | nil => exact Or.inl rfl
  | @cons entry entry' _ _ hentry _ ih =>
    obtain ⟨key, v⟩ := entry
    obtain ⟨key', v'⟩ := entry'
    obtain ⟨rfl, hvalue⟩ := hentry
    by_cases hkey : key' = name
    · subst hkey
      simp only [OrderedMap.getIn, if_true]
      rcases hvalue with rfl | ⟨hloose, hattributes, rfl⟩
      · exact Or.inl rfl
      · exact Or.inr ⟨hloose, v, rfl, hattributes, rfl⟩
    · simpa only [OrderedMap.getIn, if_neg hkey] using ih

theorem contains (h : Mirrors loose heap heap') (name : String) :
    heap'.slots.contains name = heap.slots.contains name := by
  unfold OrderedMap.contains
  rcases h.get? name with hget | ⟨-, v, hv, -, hget⟩
  · rw [hget]
  · rw [hv, hget]
    rfl

theorem get?_eq_none (h : Mirrors loose heap heap') (hnone : heap.slots.get? name = none) :
    heap'.slots.get? name = none := by
  rwa [← OrderedMap.contains_eq_false_iff, h.contains, OrderedMap.contains_eq_false_iff]

theorem size (h : Mirrors loose heap heap') : heap'.slots.size = heap.slots.size :=
  h.slots.length_eq.symm

theorem freeName (h : Mirrors loose heap heap') (base : String) :
    heap'.freeName base = heap.freeName base := by
  unfold Heap.freeName
  simp only [h.contains, h.size]

/-- A definition under a free name can be followed, with the same slot or with a loose one. -/
theorem define {type type' : Option TypeId} {attributes : Attributes} {value : Option Value}
    (h : Mirrors loose heap heap') (hfresh : heap.slots.get? name = none)
    (hok : heap.define c name type attributes value = .ok heap₁)
    (hsettle : Mirrored loose (name, settle c name type attributes value)
      (name, settle c name type' attributes value)) :
    ∃ heap₁', heap'.define c name type' attributes value = .ok heap₁' ∧
      Mirrors loose heap₁ heap₁' := by
  obtain ⟨hext, hget⟩ := define_fresh hok hfresh
  have hfits := fits_of_define hok
  obtain ⟨hname, rfl⟩ := define_ok hok
  have hfits' : fits c.types (settle c name type' attributes value) = true := by
    rcases hsettle.2 with hsame | ⟨-, -, huntyped⟩
    · dsimp only at hsame
      rw [hsame]
      exact hfits
    · -- A loose slot holds no value that would have to fit.
      dsimp only at huntyped
      rw [huntyped]
      rfl
  obtain ⟨heap₁', hdefine⟩ := define_of_fresh type' attributes value hname hfits'
    (kind?_eq_none.mpr (h.get?_eq_none hfresh))
  obtain ⟨-, rfl⟩ := define_ok hdefine
  refine ⟨_, hdefine, ?_, ?_, ?_⟩
  · show List.Forall₂ _ (heap.slots.put _ _).entries (heap'.slots.put _ _).entries
    rw [OrderedMap.entries_put_of_get?_eq_none hfresh,
      OrderedMap.entries_put_of_get?_eq_none (h.get?_eq_none hfresh)]
    exact List.rel_append h.slots (.cons hsettle .nil)
  · dsimp only
    rcases hsettle.2 with hsame | ⟨-, hattributes, huntyped⟩
    · dsimp only at hsame
      rw [hsame, h.constants]
    · -- Neither of the two slots is that of a literal.
      dsimp only at hattributes huntyped
      rw [hattributes, huntyped]
      exact h.constants
  · intro other n hn
    dsimp only at hn
    split at hn
    next =>
      rw [OrderedMap.get?_putNew] at hn
      split at hn
      next =>
        obtain rfl := Option.some.inj hn
        exact OrderedMap.contains_iff.mpr ⟨_, hget⟩
      next => exact hext.contains (h.known other n hn)
    next => exact hext.contains (h.known other n hn)

theorem typeOf? {found : Option TypeId} (h : Mirrors loose heap heap')
    (hok : heap.typeOf? c name = .ok (found, heap₁)) :
    ∃ heap₁', heap'.typeOf? c name = .ok ((heap₁'.slots.get? name).map (·.type), heap₁') ∧
      Mirrors loose heap₁ heap₁' := by
  rcases (typeOf?_ok hok).2 with ⟨rfl, hpinned⟩ | ⟨hnone, pinned, hpinned, hdefine⟩
  · refine ⟨heap', ?_, h⟩
    unfold Heap.typeOf?
    rw [h.contains]
    cases hcontains : heap₁.slots.contains name with
    | true => rfl
    | false => rw [hpinned (OrderedMap.contains_eq_false_iff.mp hcontains)]; rfl
  · obtain ⟨heap₁', hdefine', hmirrors⟩ := h.define hnone hdefine ⟨rfl, Or.inl rfl⟩
    refine ⟨heap₁', ?_, hmirrors⟩
    unfold Heap.typeOf?
    rw [h.contains, OrderedMap.contains_eq_false_iff.mpr hnone, hpinned]
    simp [hdefine']

theorem constant {value : Value} (h : Mirrors loose heap heap')
    (hok : heap.constant c value = .ok (name, heap₁)) :
    ∃ heap₁', heap'.constant c value = .ok (name, heap₁') ∧ Mirrors loose heap₁ heap₁' ∧
      heap₁.slots.contains name = true := by
  unfold Heap.constant at hok ⊢
  rw [h.constants]
  cases hfound : heap.constants.get? value with
  | some known =>
    rw [hfound] at hok
    obtain ⟨rfl, rfl⟩ := Prod.mk.inj (Except.ok.inj hok)
    exact ⟨heap', rfl, h, h.known value known hfound⟩
  | none =>
    rw [hfound] at hok
    dsimp only at hok ⊢
    rw [h.freeName]
    cases hdefine : heap.define c (heap.freeName (constantName c.types value))
        (some (c.types.constantType value)) { constant := true }
        (if value.isNull then none else some value) with
    | error e => rw [hdefine] at hok; cases hok
    | ok heap₂ =>
      rw [hdefine] at hok
      obtain ⟨rfl, rfl⟩ := Prod.mk.inj (Except.ok.inj hok)
      obtain ⟨heap₂', hdefine', hmirrors⟩ :=
        h.define (heap.freeName_spec _).1 hdefine ⟨rfl, Or.inl rfl⟩
      exact ⟨heap₂', by rw [hdefine']; rfl, hmirrors,
        OrderedMap.contains_iff.mpr ⟨_, (define_fresh hdefine (heap.freeName_spec _).1).2⟩⟩

end Mirrors

end Heap

/-! ## Operations on assemblies

Each operation that goes through with checks goes through without them, on assemblies that mirror
each other, and they do so afterwards. What an operation returns is the same. -/

/-- Two assemblies with the same code, whose heaps mirror each other. -/
def Assembly.Mirrors (loose : String → Prop) (a a' : Assembly) : Prop :=
  ∃ heap', a.heap.Mirrors loose heap' ∧ a' = { a with heap := heap' }

/-- Runs on assemblies that mirror each other; slots stay as they are. -/
def Assembly.bond (loose : String → Prop) : Bond Assembly where
  alike := Assembly.Mirrors loose
  keeps a a' := a.heap.Extends a'.heap
  refl _ := .refl _
  trans _ _ _ h h' := h.trans h'

/-- A slot of a free name that is not predefined may be made with any type where another run makes
it loose. -/
theorem Heap.settle_mirrored {c : Catalog} (hc : c.Indexed) {loose : String → Prop} {name : String}
    (hloose : loose name) (hpinned : c.predefined.get? name = none) (type type' : Option TypeId)
    (htype' : type'.getD TypeTable.object = TypeTable.object) :
    Mirrored loose (name, settle c name type {} none) (name, settle c name type' {} none) := by
  refine ⟨rfl, Or.inr ⟨hloose, by simp [settle, hpinned], ?_⟩⟩
  cases type' with
  | none => simp [settle, hpinned, hc.defaultValue?_object, Variable.untyped]
  | some type' =>
    rw [Option.getD_some] at htype'
    subst htype'
    simp [settle, hpinned, hc.defaultValue?_object, Variable.untyped]

namespace Emit

variable {c : Catalog} {loose : String → Prop} {a a' a₁ : Assembly} {name : String}

theorem instruction_echoed (h : a.Mirrors loose a') (i : Instruction) :
    Echoed (Assembly.bond loose) (instruction i) a (instruction i) a' fun _ _ => True := by
  obtain ⟨heap', hheap, rfl⟩ := h
  intro id a₁ hyields
  obtain ⟨rfl, rfl⟩ : a.append i = a₁ ∧ id = a.lines.size := by simpa [instruction] using hyields
  exact ⟨_, rfl, ⟨heap', hheap, rfl⟩, .refl _, trivial⟩

theorem patch_echoed (h : a.Mirrors loose a') (id : InstructionId) (target : JumpTarget) :
    Echoed (Assembly.bond loose) (patch id target) a (patch id target) a' fun _ _ => True := by
  obtain ⟨heap', hheap, rfl⟩ := h
  refine .get_bind ?_
  have hsame : ({ a with heap := heap' } : Assembly).instruction? id = a.instruction? id := rfl
  rw [hsame]
  cases (a.instruction? id).bind (Instruction.retarget? target) with
  | none => exact .throw
  | some i =>
    intro _ a₁ hyields
    obtain rfl := Yields.set_iff.mp hyields
    exact ⟨_, Yields.set_iff.mpr rfl, ⟨heap', hheap, rfl⟩, .refl _, trivial⟩

theorem entryPoint_echoed (h : a.Mirrors loose a') (label : String) :
    Echoed (Assembly.bond loose) (entryPoint label) a (entryPoint label) a' fun _ _ => True := by
  obtain ⟨heap', hheap, rfl⟩ := h
  exact .modify ⟨heap', hheap, rfl⟩ (.refl _) trivial

/-- Work on the heap is echoed if heaps that mirror each other still do so. -/
theorem onHeap_echoed {α : Type} {act act' : Heap → Except BuildError (α × Heap)}
    {P : α → Heap → Prop} (h : a.Mirrors loose a')
    (hact : ∀ heap' r heap₁, a.heap.Mirrors loose heap' → act a.heap = .ok (r, heap₁) →
      ∃ heap₁', act' heap' = .ok (r, heap₁') ∧ heap₁.Mirrors loose heap₁' ∧
        a.heap.Extends heap₁ ∧ P r heap₁) :
    Echoed (Assembly.bond loose) (onHeap act) a (onHeap act') a' fun r a₁ => P r a₁.heap := by
  obtain ⟨heap', hheap, rfl⟩ := h
  intro r a₁ hyields
  obtain ⟨heap₁, hok, rfl⟩ := onHeap_iff.mp hyields
  obtain ⟨heap₁', hok', hmirrors, hext, hP⟩ := hact heap' r heap₁ hheap hok
  exact ⟨_, onHeap_iff.mpr ⟨heap₁', hok', rfl⟩, ⟨heap₁', hmirrors, rfl⟩, hext, hP⟩

theorem define_echoed {type type' : Option TypeId} {attributes : Attributes} {value : Option Value}
    (h : a.Mirrors loose a') (hfresh : a.heap.slots.get? name = none)
    (hsettle : Mirrored loose (name, Heap.settle c name type attributes value)
      (name, Heap.settle c name type' attributes value)) :
    Echoed (Assembly.bond loose) (define ⟨c, true⟩ name type attributes value) a
      (define ⟨c, false⟩ name type' attributes value) a'
      fun _ a₁ => a₁.heap.slots.contains name = true := by
  refine onHeap_echoed (P := fun _ heap => heap.slots.contains name = true) h ?_
  intro heap' r heap₁ hheap hok
  cases hdefine : a.heap.define c name type attributes value with
  | error e =>
    rw [hdefine] at hok
    cases hok
  | ok heap₂ =>
    rw [hdefine] at hok
    obtain ⟨-, rfl⟩ := Prod.mk.inj (Except.ok.inj hok)
    obtain ⟨heap₂', hdefine', hmirrors⟩ := hheap.define hfresh hdefine hsettle
    obtain ⟨hext, hget⟩ := Heap.define_fresh hdefine hfresh
    exact ⟨heap₂', by rw [hdefine']; rfl, hmirrors, hext,
      OrderedMap.contains_iff.mpr ⟨_, hget⟩⟩

/-- Both runs find a slot or neither does; its type may be another where the slot is loose. -/
theorem typeOf?_mirrors {found : Option TypeId} (h : a.Mirrors loose a')
    (hyields : Yields (typeOf? ⟨c, true⟩ name) a found a₁) :
    ∃ a₁', Yields (typeOf? ⟨c, false⟩ name) a' ((a₁'.heap.slots.get? name).map (·.type)) a₁' ∧
      a₁.Mirrors loose a₁' := by
  obtain ⟨heap', hheap, rfl⟩ := h
  obtain ⟨heap₁, hok, rfl⟩ := onHeap_iff.mp hyields
  obtain ⟨heap₁', hok', hmirrors⟩ := hheap.typeOf? hok
  exact ⟨_, onHeap_iff.mpr ⟨heap₁', hok', rfl⟩, heap₁', hmirrors, rfl⟩

theorem slot_echoed (h : a.Mirrors loose a') (operand : Operand) :
    Echoed (Assembly.bond loose) (slot ⟨c, true⟩ operand) a (slot ⟨c, false⟩ operand) a'
      fun n a₁ => operand = .var n ∨ (∀ x, operand ≠ .var x) ∧ a₁.heap.slots.contains n = true := by
  cases operand with
  | var x => exact .pure h (Or.inl rfl)
  | const value =>
    show Echoed _ (onHeap (Heap.constant c · value)) a (onHeap (Heap.constant c · value)) a' _
    refine Echoed.imp (onHeap_echoed (P := fun n heap => heap.slots.contains n = true) h ?_)
      fun n a₁ _ hn => Or.inr ⟨by simp, hn⟩
    intro heap' n heap₁ hheap hok
    obtain ⟨heap₁', hok', hmirrors, hcontains⟩ := hheap.constant hok
    exact ⟨heap₁', hok', hmirrors, Heap.constant_extends hok, hcontains⟩

theorem slots_echoed (h : a.Mirrors loose a') {operands : List Operand}
    (hoperands : ∀ x, .var x ∈ operands → a.heap.Writable c loose x) :
    Echoed (Assembly.bond loose) (slots ⟨c, true⟩ operands) a (slots ⟨c, false⟩ operands) a'
      fun names a₁ => (∀ n ∈ names, a₁.heap.Writable c loose n) ∧
        ∀ x, .var x ∈ operands → x ∈ names := by
  induction operands generalizing a a' with
  | nil => exact .pure h ⟨by simp, by simp⟩
  | cons operand operands ih =>
    refine .bind (slot_echoed h operand) ?_
    intro n a₁ a₁' h₁ hkeeps hn
    refine .bind (ih h₁ fun x hx => (hoperands x (List.mem_cons_of_mem _ hx)).mono hkeeps) ?_
    rintro names a₂ a₂' h₂ hkeeps' ⟨hnames, hvars⟩
    refine .pure h₂ ?_
    rcases hn with rfl | ⟨hconst, hcontains⟩
    · have hwritable := ((hoperands n List.mem_cons_self).mono hkeeps).mono hkeeps'
      refine ⟨List.forall_mem_cons.mpr ⟨hwritable, hnames⟩, fun x hx => ?_⟩
      rcases List.mem_cons.mp hx with hx | hx
      · rw [Operand.var.inj hx]
        exact List.mem_cons_self
      · exact List.mem_cons_of_mem _ (hvars x hx)
    · refine ⟨List.forall_mem_cons.mpr ⟨Or.inl (hkeeps'.contains hcontains), hnames⟩, fun x hx => ?_⟩
      rcases List.mem_cons.mp hx with hx | hx
      · exact absurd hx.symm (hconst x)
      · exact List.mem_cons_of_mem _ (hvars x hx)

/-- A check that may define a slot is followed without it; the type expected may be that of a loose
slot, if this one may be loose as well. -/
theorem checkSlot_echoed (hc : c.Indexed) {expected expected' : Option TypeId} {exact : Bool}
    (h : a.Mirrors loose a')
    (hexpected : expected' = expected ∨
      expected' = some TypeTable.object ∧ a.heap.Writable c loose name) :
    Echoed (Assembly.bond loose) (checkSlot ⟨c, true⟩ name expected exact) a
      (checkSlot ⟨c, false⟩ name expected' exact) a'
      fun _ a₁ => a₁.heap.slots.contains name = true := by
  intro _ a₁ hyields
  simp only [checkSlot] at hyields ⊢
  split at hyields
  next => simp at hyields
  next hempty =>
    obtain ⟨found, a₂, htype, hmatch⟩ := Yields.bind_iff.mp hyields
    obtain ⟨hemits, hfound, hnone⟩ := typeOf?_spec htype
    obtain ⟨a₂', htype', h₂⟩ := typeOf?_mirrors h htype
    obtain ⟨heap₂', hheap₂, rfl⟩ := id h₂
    rw [if_neg hempty]
    cases found with
    | none =>
      -- Neither run has the slot yet.
      obtain ⟨rfl, hpinned⟩ := hnone rfl
      have hfresh : a₂.heap.slots.get? name = none := by simpa using hfound.symm
      have hsettle : Mirrored loose (name, Heap.settle c name expected {} none)
          (name, Heap.settle c name expected' {} none) := by
        rcases hexpected with rfl | ⟨rfl, hwritable⟩
        · exact ⟨rfl, Or.inl rfl⟩
        · exact Heap.settle_mirrored hc (hwritable.isLoose hfresh hpinned) hpinned expected _ rfl
      obtain ⟨a₁', hdefine, hresult⟩ := define_echoed h₂ hfresh hsettle () a₁ hmatch
      refine ⟨a₁', Yields.bind_iff.mpr ⟨_, _, htype', ?_⟩, hresult⟩
      rw [hheap₂.get?_eq_none hfresh]
      exact hdefine
    | some actual =>
      obtain ⟨v, hv, -⟩ := Option.map_eq_some_iff.mp hfound.symm
      have hcontains := OrderedMap.contains_iff.mpr ⟨v, hv⟩
      obtain ⟨v', hv'⟩ := OrderedMap.contains_iff.mp ((hheap₂.contains name).trans hcontains)
      obtain rfl : a₂ = a₁ := by
        cases expected with
        | none => exact (Yields.pure_iff.mp hmatch).2
        | some type => exact Yields.eq_of_check hmatch
      refine ⟨_, Yields.bind_iff.mpr ⟨_, _, htype', ?_⟩, h₂, hemits.heap, hcontains⟩
      dsimp only
      rw [hv', Option.map_some]
      cases expected' with
      | none => exact Yields.pure_iff.mpr ⟨rfl, rfl⟩
      | some type => exact Yields.pure_iff.mpr ⟨rfl, rfl⟩

theorem pushSlot_echoed (hc : c.Indexed) {expected expected' : Option TypeId} {exact : Bool}
    (h : a.Mirrors loose a')
    (hexpected : expected' = expected ∨
      expected' = some TypeTable.object ∧ a.heap.Writable c loose name) :
    Echoed (Assembly.bond loose) (pushSlot ⟨c, true⟩ name expected exact) a
      (pushSlot ⟨c, false⟩ name expected' exact) a'
      fun _ a₁ => a₁.heap.slots.contains name = true := by
  refine .bind (checkSlot_echoed hc h hexpected) ?_
  intro _ a₁ a₁' h₁ _ hcontains
  exact (instruction_echoed h₁ _).imp fun _ _ hkeeps _ => hkeeps.contains hcontains

theorem push_echoed (hc : c.Indexed) (h : a.Mirrors loose a') (x : String) :
    Echoed (Assembly.bond loose) (push ⟨c, true⟩ (.var x)) a (push ⟨c, false⟩ (.var x)) a'
      fun _ _ => True :=
  (pushSlot_echoed hc h (Or.inl rfl)).imp fun _ _ _ _ => trivial

/-- A copy from a loose slot can make its target loose. -/
theorem copy_echoed (hc : c.Indexed) (h : a.Mirrors loose a') (source : Operand) {target : String}
    (htarget : a.heap.Writable c loose target) :
    Echoed (Assembly.bond loose) (copy ⟨c, true⟩ source target) a (copy ⟨c, false⟩ source target) a'
      fun _ a₁ => a₁.heap.slots.contains target = true := by
  refine .bind (slot_echoed h source) ?_
  intro n a₁ a₁' h₁ hkeeps₁ _
  refine .bind (pushSlot_echoed hc h₁ (Or.inl rfl)) ?_
  intro _ a₂ a₂' h₂ hkeeps₂ _
  refine .get_bind ?_
  have htype : some ((a₂'.heap.slots.get? n).elim TypeTable.object (·.type)) =
        some ((a₂.heap.slots.get? n).elim TypeTable.object (·.type)) ∨
      some ((a₂'.heap.slots.get? n).elim TypeTable.object (·.type)) = some TypeTable.object ∧
        a₂.heap.Writable c loose target := by
    obtain ⟨heap₂', hheap₂, rfl⟩ := h₂
    rcases hheap₂.get? n with hsame | ⟨-, v, -, -, huntyped⟩
    · exact Or.inl (by rw [hsame])
    · exact Or.inr ⟨by rw [huntyped]; rfl, (htarget.mono hkeeps₁).mono hkeeps₂⟩
  refine .bind (pushSlot_echoed hc h₂ htype) ?_
  intro _ a₃ a₃' h₃ _ hcontains
  exact (instruction_echoed h₃ _).imp fun _ _ hkeeps _ => hkeeps.contains hcontains

theorem copyOffset_echoed (hc : c.Indexed) (h : a.Mirrors loose a') (target : String)
    (relative : UInt32) :
    Echoed (Assembly.bond loose) (copyOffset ⟨c, true⟩ target relative) a
      (copyOffset ⟨c, false⟩ target relative) a'
      fun _ a₁ => a₁.heap.slots.contains target = true := by
  -- Once the target is there, the copy stores the same address in it.
  have hcopy : ∀ {a a' : Assembly}, a.Mirrors loose a' → a.heap.slots.contains target = true →
      Echoed (Assembly.bond loose) (do
          let size := (← get).size
          let address := Instruction.copySize + size + relative.toNat
          if address < UInt32.size then
            copy ⟨c, true⟩ (.const (.uint32 (UInt32.ofNat address))) target
          else throw (.invalidAddress s!"{size} + {relative}")) a (do
          let size := (← get).size
          let address := Instruction.copySize + size + relative.toNat
          if address < UInt32.size then
            copy ⟨c, false⟩ (.const (.uint32 (UInt32.ofNat address))) target
          else throw (.invalidAddress s!"{size} + {relative}")) a'
        fun _ a₁ => a₁.heap.slots.contains target = true := by
    intro a a' h hcontains
    refine .get_bind ?_
    obtain ⟨heap', hheap, rfl⟩ := id h
    rw [show ({ a with heap := heap' } : Assembly).size = a.size from rfl]
    dsimp only
    split
    next => exact copy_echoed hc h _ (Or.inl hcontains)
    next => exact .throw
  refine .get_bind ?_
  obtain ⟨heap', hheap, rfl⟩ := id h
  rw [show ({ a with heap := heap' } : Assembly).heap.slots.contains target =
    a.heap.slots.contains target from hheap.contains target]
  cases hcontains : a.heap.slots.contains target with
  | true => exact hcopy h hcontains
  | false =>
    have hfresh := OrderedMap.contains_eq_false_iff.mp hcontains
    refine .bind (define_echoed h hfresh ⟨rfl, Or.inl rfl⟩) ?_
    intro _ a₁ a₁' h₁ _ hcontains₁
    exact hcopy h₁ hcontains₁

theorem jumpIfFalse_echoed (hc : c.Indexed) (h : a.Mirrors loose a') (condition : String)
    (target : JumpTarget) :
    Echoed (Assembly.bond loose) (jumpIfFalse ⟨c, true⟩ condition target) a
      (jumpIfFalse ⟨c, false⟩ condition target) a' fun _ _ => True := by
  refine .bind (pushSlot_echoed hc h (Or.inl rfl)) ?_
  intro _ a₁ a₁' h₁ _ _
  exact instruction_echoed h₁ _

theorem jumpIndirect_echoed (hc : c.Indexed) (h : a.Mirrors loose a') (address : String) :
    Echoed (Assembly.bond loose) (jumpIndirect ⟨c, true⟩ address) a
      (jumpIndirect ⟨c, false⟩ address) a' fun _ _ => True := by
  refine .bind (checkSlot_echoed hc h (Or.inl rfl)) ?_
  intro _ a₁ a₁' h₁ _ _
  exact instruction_echoed h₁ _

theorem callPushed_echoed (h : a.Mirrors loose a') (name : String) :
    Echoed (Assembly.bond loose) (callPushed ⟨c, true⟩ name) a (callPushed ⟨c, false⟩ name) a'
      fun _ _ => True := by
  obtain ⟨heap', hheap, rfl⟩ := h
  simp only [callPushed]
  cases hempty : name.isEmpty with
  | true => exact .throw
  | false =>
    cases (c.operationNamed? name).isNone with
    | true => exact .throw
    | false =>
      simp only [Bool.or_self, Bool.and_false, Bool.false_eq_true, if_false]
      refine .bind (Q := fun _ _ => True) (.modify ⟨heap', hheap, rfl⟩ (.refl _) trivial) ?_
      intro _ a₁ a₁' h₁ _ _
      exact instruction_echoed h₁ _

/-! ## Calls

With checks, the arguments of a call get their missing slots while they are checked, before any
is pushed; without checks, each gets its slot when it is pushed. The order of slots is the same,
so checking all and then pushing all is compared with pushing one after the other
(`Readies.pushAll`). -/

/-- Slots are checked one after the other, without a type. -/
def Readies (cfg : Setting) : List String → Assembly → Assembly → Prop
  | [], a, a' => a = a'
  | name :: names, a, a' =>
    ∃ a₁, Yields (checkSlot cfg name none false) a () a₁ ∧ Readies cfg names a₁ a'

/-- The assembly with pushes of some slots behind its code. -/
def pushes (a : Assembly) (names : List String) : Assembly :=
  names.foldl (fun a name => a.append (.push name)) a

theorem onHeap_append {α : Type} {act : Heap → Except BuildError (α × Heap)} {r : α}
    (h : Yields (onHeap act) a r a₁) (i : Instruction) :
    Yields (onHeap act) (a.append i) r (a₁.append i) := by
  obtain ⟨heap, hok, rfl⟩ := onHeap_iff.mp h
  exact onHeap_iff.mpr ⟨heap, hok, rfl⟩

theorem checkSlot_append {cfg : Setting} (h : Yields (checkSlot cfg name none false) a () a₁)
    (i : Instruction) : Yields (checkSlot cfg name none false) (a.append i) () (a₁.append i) := by
  simp only [checkSlot] at h ⊢
  split at h
  next => simp at h
  next hempty =>
    rw [if_neg hempty]
    obtain ⟨found, a₂, htype, hmatch⟩ := Yields.bind_iff.mp h
    refine Yields.bind_iff.mpr ⟨found, _, onHeap_append htype i, ?_⟩
    cases found with
    | none => exact onHeap_append hmatch i
    | some type =>
      obtain ⟨-, rfl⟩ := Yields.pure_iff.mp hmatch
      exact Yields.pure_iff.mpr ⟨rfl, rfl⟩

theorem Readies.append {cfg : Setting} {names : List String} (h : Readies cfg names a a₁)
    (i : Instruction) : Readies cfg names (a.append i) (a₁.append i) := by
  induction names generalizing a with
  | nil => exact congrArg (·.append i) h
  | cons name names ih =>
    obtain ⟨a₂, hcheck, hrest⟩ := h
    exact ⟨a₂.append i, checkSlot_append hcheck i, ih hrest⟩

/-- Slots can be pushed after all of them have been checked. -/
theorem Readies.pushAll {cfg : Setting} {names : List String} (h : Readies cfg names a a₁) :
    Yields (pushAll cfg names) a () (pushes a₁ names) := by
  induction names generalizing a a₁ with
  | nil =>
    obtain rfl : a = a₁ := h
    rfl
  | cons name names ih =>
    obtain ⟨a₂, hcheck, hrest⟩ := h
    refine Yields.bind_iff.mpr ⟨a₂.lines.size, a₂.append (.push name), ?_, ih (hrest.append _)⟩
    exact Yields.bind_iff.mpr ⟨(), a₂, hcheck, rfl⟩

theorem checkSlot_of_contains {cfg : Setting} (hempty : name.isEmpty = false)
    (h : a.heap.slots.contains name = true) : Yields (checkSlot cfg name none false) a () a := by
  obtain ⟨v, hv⟩ := OrderedMap.contains_iff.mp h
  simp only [checkSlot, hempty, Bool.false_eq_true, if_false]
  exact Yields.bind_iff.mpr ⟨some v.type, a,
    onHeap_iff.mpr ⟨a.heap, Heap.typeOf?_of_slot hv, rfl⟩, rfl⟩

theorem nonempty_of_checkSlot {cfg : Setting} {expected : Option TypeId} {exact : Bool}
    (h : Yields (checkSlot cfg name expected exact) a () a₁) : name.isEmpty = false := by
  simp only [checkSlot] at h
  split at h
  next => simp at h
  next hempty => simpa using hempty

/-- Slots that are there are only pushed. -/
theorem eq_pushes_of_pushAll {cfg : Setting} {names : List String}
    (h : Yields (pushAll cfg names) a () a₁)
    (hthere : ∀ name ∈ names, a.heap.slots.contains name = true) :
    a₁ = pushes a names ∧ ∀ name ∈ names, name.isEmpty = false := by
  induction names generalizing a with
  | nil =>
    obtain ⟨-, rfl⟩ := Yields.pure_iff.mp h
    exact ⟨rfl, by simp⟩
  | cons name names ih =>
    obtain ⟨hname, hnames⟩ := List.forall_mem_cons.mp hthere
    simp only [pushAll, pushSlot, Yields.bind_iff] at h
    obtain ⟨id, a₃, ⟨_, a₂, hcheck, hpush⟩, hrest⟩ := h
    have hempty := nonempty_of_checkSlot hcheck
    obtain rfl := ((checkSlot_of_contains hempty hname).unique hcheck).2
    obtain ⟨rfl, -⟩ : a₂.append (.push name) = a₃ ∧ id = a₂.lines.size := by
      simpa [instruction] using hpush
    obtain ⟨hpushes, hall⟩ := ih hrest hnames
    exact ⟨hpushes, List.forall_mem_cons.mpr ⟨hempty, hall⟩⟩

theorem Mirrors.pushes (h : a.Mirrors loose a') (names : List String) :
    (pushes a names).Mirrors loose (pushes a' names) ∧ (pushes a names).heap = a.heap := by
  induction names generalizing a a' with
  | nil => exact ⟨h, rfl⟩
  | cons name names ih =>
    obtain ⟨heap', hheap, rfl⟩ := h
    obtain ⟨hmirrors, hsame⟩ := ih (a := a.append (.push name)) ⟨heap', hheap, rfl⟩
    exact ⟨hmirrors, hsame⟩

/-- An argument without a slot gets one of the type of its parameter with checks, and a loose one
without. -/
theorem checkSlot_of_define (hc : c.Indexed) {type : Option TypeId} (h : a.Mirrors loose a')
    (hempty : name.isEmpty = false) (hnone : a.heap.slots.get? name = none)
    (hwritable : a.heap.Writable c loose name)
    (hyields : Yields (define ⟨c, true⟩ name type {} none) a () a₁) :
    ∃ a₁', Yields (checkSlot ⟨c, false⟩ name none false) a' () a₁' ∧ a₁.Mirrors loose a₁' := by
  have hcontains' : ∀ heap', a.heap.Mirrors loose heap' → heap'.slots.contains name = false :=
    fun heap' hheap => OrderedMap.contains_eq_false_iff.mpr (hheap.get?_eq_none hnone)
  simp only [checkSlot, hempty, Bool.false_eq_true, if_false]
  cases hpinned : c.predefined.get? name with
  | some pinned =>
    -- A predefined name has its own type in both runs.
    have hsettle : Mirrored loose (name, Heap.settle c name type {} none)
        (name, Heap.settle c name (some pinned) {} none) :=
      ⟨rfl, Or.inl (by simp [Heap.settle, hpinned])⟩
    obtain ⟨a₁', hdefine, h₁, -, hthere⟩ := define_echoed h hnone hsettle () a₁ hyields
    obtain ⟨heap', hheap, rfl⟩ := h
    obtain ⟨heap₁', hmap, rfl⟩ := onHeap_iff.mp hdefine
    obtain ⟨heap₁, hheap₁, hrest⟩ := h₁
    obtain rfl : heap₁' = heap₁ := congrArg Assembly.heap hrest
    obtain ⟨v, hv⟩ := OrderedMap.contains_iff.mp ((hheap₁.contains name).trans hthere)
    have hok : heap'.define c name (some pinned) {} none = .ok heap₁' := by
      cases hok : heap'.define c name (some pinned) {} none with
      | error e => rw [hok] at hmap; cases hmap
      | ok found =>
        rw [hok] at hmap
        rw [(Prod.mk.inj (Except.ok.inj hmap)).2]
    have htype : heap'.typeOf? c name = .ok (some v.type, heap₁') := by
      unfold Heap.typeOf?
      rw [hcontains' heap' hheap, hpinned]
      simp [hok, hv]
    exact ⟨_, Yields.bind_iff.mpr ⟨some v.type, _, onHeap_iff.mpr ⟨heap₁', htype, rfl⟩, rfl⟩,
      heap₁', hheap₁, hrest⟩
  | none =>
    have hsettle := Heap.settle_mirrored hc (hwritable.isLoose hnone hpinned) hpinned type none
      rfl
    obtain ⟨a₁', hdefine, h₁, -⟩ := define_echoed h hnone hsettle () a₁ hyields
    obtain ⟨heap', hheap, rfl⟩ := h
    have htype : heap'.typeOf? c name = .ok (none, heap') := by
      unfold Heap.typeOf?
      rw [hcontains' heap' hheap, hpinned]
      simp only [pure_bind, hheap.get?_eq_none hnone, Option.map_none]
      rfl
    exact ⟨a₁', Yields.bind_iff.mpr ⟨none, _, onHeap_iff.mpr ⟨heap', htype, rfl⟩, hdefine⟩, h₁⟩

theorem checkArguments_readies (hc : c.Indexed) {operation : String} {index : Nat}
    {pairs : List (String × Parameter)} (h : a.Mirrors loose a')
    (hyields : Yields (checkArguments ⟨c, true⟩ operation index pairs) a () a₁)
    (hnonempty : ∀ pair ∈ pairs, pair.1.isEmpty = false)
    (hwritable : ∀ pair ∈ pairs, a.heap.Writable c loose pair.1) :
    ∃ a₁', Readies ⟨c, false⟩ (pairs.map Prod.fst) a' a₁' ∧ a₁.Mirrors loose a₁' := by
  induction pairs generalizing a a' index with
  | nil =>
    obtain ⟨-, rfl⟩ := Yields.pure_iff.mp hyields
    exact ⟨a', rfl, h⟩
  | cons pair pairs ih =>
    obtain ⟨argument, p⟩ := pair
    obtain ⟨hempty, hnonempty⟩ := List.forall_mem_cons.mp hnonempty
    obtain ⟨hwrite, hwritable⟩ := List.forall_mem_cons.mp hwritable
    simp only [checkArguments, Yields.bind_iff, Yields.get_iff] at hyields
    obtain ⟨_, _, ⟨rfl, rfl⟩, hyields⟩ := hyields
    obtain ⟨a₂, a₂', hcheck, h₂, hext, hrest⟩ : ∃ a₂ a₂',
        Yields (checkSlot ⟨c, false⟩ argument none false) a' () a₂' ∧ a₂.Mirrors loose a₂' ∧
          a.heap.Extends a₂.heap ∧
          Yields (checkArguments ⟨c, true⟩ operation (index + 1) pairs) a₂ () a₁ := by
      cases hget : a.heap.slots.get? argument with
      | some v =>
        have hcontains := OrderedMap.contains_iff.mpr ⟨v, hget⟩
        refine ⟨a, a', checkSlot_of_contains hempty ?_, h, .refl _, ?_⟩
        · obtain ⟨heap', hheap, rfl⟩ := h
          exact (hheap.contains argument).trans hcontains
        · simp only [hget] at hyields
          cases hok : checkArgument ⟨c, true⟩ operation index argument v p with
          | error e => simp [hok] at hyields
          | ok _ =>
            rw [hok] at hyields
            exact hyields
      | none =>
        simp only [hget, Yields.bind_iff] at hyields
        obtain ⟨_, a₂, hdefine, hrest⟩ := hyields
        obtain ⟨a₂', hcheck, h₂⟩ := checkSlot_of_define hc h hempty hget hwrite hdefine
        exact ⟨a₂, a₂', hcheck, h₂, (define_spec hdefine hget rfl).1.heap, hrest⟩
    obtain ⟨a₁', hreadies, h₁⟩ :=
      ih h₂ hrest hnonempty fun pair hpair => (hwritable pair hpair).mono hext
    exact ⟨a₁', ⟨a₂', hcheck, hreadies⟩, h₁⟩

/-- A call whose operands may be written is followed without checks. -/
theorem call_echoed (hc : c.Indexed) (h : a.Mirrors loose a') {operands : List Operand}
    (hoperands : ∀ x, .var x ∈ operands → a.heap.Writable c loose x) :
    Echoed (Assembly.bond loose) (call ⟨c, true⟩ name operands) a (call ⟨c, false⟩ name operands) a'
      fun _ a₁ => ∀ x, .var x ∈ operands → a₁.heap.slots.contains x = true := by
  refine .bind (slots_echoed h hoperands) ?_
  rintro names a₁ a₁' h₁ - ⟨hnames, hvars⟩
  simp only [if_true, Bool.false_eq_true, if_false]
  -- The checks and the pushes of one run go with the pushes of the other.
  suffices hpush : Echoed (Assembly.bond loose)
      (do checkCall ⟨c, true⟩ name names; pushAll ⟨c, true⟩ names) a₁ (pushAll ⟨c, false⟩ names) a₁'
      fun _ a₂ => ∀ x, .var x ∈ operands → a₂.heap.slots.contains x = true by
    rw [← bind_assoc]
    refine .bind hpush ?_
    intro _ a₂ a₂' h₂ _ hthere
    exact (callPushed_echoed h₂ name).imp fun _ _ hkeeps _ x hx => hkeeps.contains (hthere x hx)
  intro _ a₃ hyields
  obtain ⟨_, a₂, hcheck, hpush⟩ := Yields.bind_iff.mp hyields
  simp only [checkCall] at hcheck
  cases hop : c.operationNamed? name with
  | none => simp [hop] at hcheck
  | some op =>
    simp only [hop] at hcheck
    split at hcheck
    next => simp at hcheck
    next hlength =>
      have hfst : (names.zip op.parameters).map Prod.fst = names :=
        List.map_fst_zip (by omega)
      have hmem : ∀ n, n ∈ names ↔ ∃ pair ∈ names.zip op.parameters, pair.1 = n := by
        intro n
        rw [← hfst, List.mem_map, hfst]
      obtain ⟨hemits, hfits⟩ := checkArguments_spec hcheck
      have hthere : ∀ n ∈ names, a₂.heap.slots.contains n = true := by
        intro n hn
        obtain ⟨pair, hpair, rfl⟩ := (hmem n).mp hn
        obtain ⟨v, hv, -⟩ := hfits pair hpair
        exact OrderedMap.contains_iff.mpr ⟨v, hv⟩
      obtain ⟨rfl, hnonempty⟩ := eq_pushes_of_pushAll hpush hthere
      obtain ⟨a₂', hreadies, h₂⟩ := checkArguments_readies hc h₁ hcheck
        (fun pair hpair => hnonempty _ ((hmem _).mpr ⟨pair, hpair, rfl⟩))
        (fun pair hpair => hnames _ ((hmem _).mpr ⟨pair, hpair, rfl⟩))
      obtain ⟨hmirrors, hsame⟩ := Mirrors.pushes h₂ names
      rw [hfst] at hreadies
      refine ⟨_, hreadies.pushAll, hmirrors, ?_, fun x hx => ?_⟩
      · show a₁.heap.Extends (pushes a₂ names).heap
        rw [hsame]
        exact hemits.heap
      · rw [hsame]
        exact hthere x (hvars x hx)

end Emit

end SexprAsm
