import SexprAsm.Proofs.Catalog
import SexprAsm.Proofs.Generation.Changes
import SexprAsm.Proofs.Program
import SexprAsm.Proofs.Resolution.Changes

/-!
# One slot for each literal

The table of literals and the constant slots of the heap belong together (`Heap.Matched`): each
literal has a slot of its own that holds it, and every constant slot is that of a literal. Names do
not tell literals apart, since very different ones ask for the same name. What does is that a slot
is only made for a literal that has none, under a name that is free.

Resolution makes no constant slots at all, and every change of generation keeps the two matched. So
they are matched at every point of a compilation (`Program.literals_matched`).
-/

namespace SexprAsm

open Relation Workspace

/-- No predefined name begins like the slot of a literal. -/
def Catalog.SparesLiterals (c : Catalog) : Prop :=
  ∀ name : String, Heap.constantLead.toList <+: name.toList → c.predefined.get? name = none

namespace Heap

variable {c : Catalog} {heap heap' : Heap} {name : String} {value : Value}

/-- The slot of a literal: null has no value to store. -/
def literalSlot (c : Catalog) (value : Value) : Variable :=
  ⟨c.types.constantType value, { constant := true }, if value.isNull then none else some value⟩

theorem literalSlot_constant (c : Catalog) (value : Value) :
    (literalSlot c value).attributes.constant = true := rfl

theorem literalSlot_value (c : Catalog) (value : Value) :
    (literalSlot c value).value.getD .null = value := by
  cases value <;> rfl

theorem literalSlot_injective (c : Catalog) : Function.Injective (literalSlot c) := by
  intro value value' h
  rw [← literalSlot_value c value, h, literalSlot_value]

/-- Literals and constant slots correspond. -/
structure Matched (c : Catalog) (heap : Heap) : Prop where
  /-- A literal has a slot of its type that stores its bits. -/
  slot : ∀ value name, heap.constants.get? value = some name →
    heap.slots.get? name = some (literalSlot c value)
  /-- Different literals have different slots. -/
  apart : ∀ value value' name, heap.constants.get? value = some name →
    heap.constants.get? value' = some name → value = value'
  /-- A constant slot is that of a literal. -/
  known : ∀ name v, heap.slots.get? name = some v → v.attributes.constant = true →
    ∃ value, heap.constants.get? value = some name

theorem Matched.of_slot
    (hslot : ∀ value name, heap.constants.get? value = some name →
      heap.slots.get? name = some (literalSlot c value))
    (hknown : ∀ name v, heap.slots.get? name = some v → v.attributes.constant = true →
      ∃ value, heap.constants.get? value = some name) : heap.Matched c := by
  refine ⟨hslot, fun value value' name hvalue hvalue' => ?_, hknown⟩
  have := (hslot value name hvalue).symm.trans (hslot value' name hvalue')
  exact literalSlot_injective c (Option.some.inj this)

/-- A literal that gets a slot by a definition gets the one defined. -/
theorem define_constants {type : Option TypeId} {attributes : Attributes} {stored : Option Value}
    {other : String} (h : heap.define c name type attributes stored = .ok heap')
    (hnone : heap.constants.get? value = none) (hsome : heap'.constants.get? value = some other) :
    name = other := by
  obtain ⟨-, rfl⟩ := define_ok h
  by_cases hconstant : (settle c name type attributes stored).attributes.constant = true
  · simp only [hconstant, if_true, OrderedMap.get?_putNew, hnone] at hsome
    split at hsome
    · exact Option.some.inj hsome
    · cases hsome
  · simp only [hconstant, Bool.false_eq_true, if_false, hnone] at hsome
    cases hsome

/-- What is settled for a literal is its slot, unless the name is predefined. -/
theorem settle_literal (hvoid : c.types.name TypeTable.void = TypeTable.voidName)
    (hpinned : c.predefined.get? name = none) (value : Value) :
    settle c name (some (c.types.constantType value)) { constant := true }
      (if value.isNull then none else some value) = literalSlot c value := by
  unfold settle literalSlot
  rw [hpinned]
  cases value with
  | null =>
    have hdefault : c.types.defaultValue? TypeTable.void = none := by
      rw [TypeTable.defaultValue?, hvoid]
      decide
    simp [TypeTable.constantType, Value.isNull, hdefault]
  | _ => rfl

/-- A slot that is no constant keeps literals and constant slots matched, if it is new. -/
theorem Matched.define_slot {type : Option TypeId} (h : heap.Matched c)
    (hfresh : heap.slots.get? name = none)
    (hdefine : heap.define c name type {} none = .ok heap') : heap'.Matched c := by
  obtain ⟨hext, hget⟩ := define_fresh hdefine hfresh
  obtain ⟨-, rfl⟩ := define_ok hdefine
  have hconstant : (settle c name type {} none).attributes.constant = false :=
    settle_constant c name type none rfl
  simp only [hconstant, Bool.false_eq_true, if_false] at hext ⊢
  refine .of_slot (fun value other hvalue => hext.slots _ _ (h.slot value other hvalue))
    fun other v hv hv' => ?_
  rw [OrderedMap.get?_put] at hv
  split at hv
  next =>
    obtain rfl := Option.some.inj hv
    rw [hconstant] at hv'
    cases hv'
  next => exact h.known other v hv hv'

/-- The slot of a literal that has had none keeps literals and constant slots matched. -/
theorem Matched.define_literal (h : heap.Matched c)
    (hvoid : c.types.name TypeTable.void = TypeTable.voidName)
    (hpinned : c.predefined.get? name = none) (hunknown : heap.constants.get? value = none)
    (hfresh : heap.slots.get? name = none)
    (hdefine : heap.define c name (some (c.types.constantType value)) { constant := true }
      (if value.isNull then none else some value) = .ok heap') : heap'.Matched c := by
  obtain ⟨hext, hget⟩ := define_fresh hdefine hfresh
  obtain ⟨-, rfl⟩ := define_ok hdefine
  simp only [settle_literal hvoid hpinned, literalSlot_value, literalSlot_constant, if_true]
    at hext hget ⊢
  have hconstants : ∀ other, (heap.constants.putNew value name).get? other =
      if other = value then some name else heap.constants.get? other := by
    intro other
    rw [OrderedMap.get?_putNew]
    simp [hunknown]
  -- The new slot is that of the new literal; the others have theirs as before.
  refine .of_slot (fun other n hn => ?_) fun other v hv hv' => ?_
  · rw [hconstants] at hn
    split at hn
    next heq =>
      obtain rfl := Option.some.inj hn
      rw [heq]
      exact hget
    next => exact hext.slots _ _ (h.slot other n hn)
  · rw [OrderedMap.get?_put] at hv
    split at hv
    next heq => exact ⟨value, by rw [hconstants, if_pos rfl, heq]⟩
    next =>
      obtain ⟨other', hother⟩ := h.known other v hv hv'
      refine ⟨other', ?_⟩
      rw [hconstants, if_neg]
      · exact hother
      · rintro rfl
        rw [hunknown] at hother
        cases hother

/-- Whoever asks for the slot of a literal gets the one in the table, unless its name is
predefined. -/
theorem constant_known_of_ordinary (h : heap.constant c value = .ok (name, heap'))
    (hvoid : c.types.name TypeTable.void = TypeTable.voidName)
    (hpinned : constantLead.toList <+: name.toList → c.predefined.get? name = none) :
    heap'.constants.get? value = some name := by
  cases hfound : heap.constants.get? value with
  | some known =>
    simp only [constant, hfound, Except.ok.injEq, Prod.mk.injEq] at h
    obtain ⟨rfl, rfl⟩ := h
    exact hfound
  | none =>
    rcases constant_ok h with ⟨hknown, -⟩ | ⟨-, hlead, hdefine⟩
    · rw [hfound] at hknown
      cases hknown
    · obtain ⟨-, rfl⟩ := define_ok hdefine
      simp only [settle_literal hvoid (hpinned hlead), literalSlot_value, literalSlot_constant,
        if_true, OrderedMap.get?_putNew, hfound, and_self]

/-- Whoever asks for the slot of a literal gets the one in the table. -/
theorem constant_known (h : heap.constant c value = .ok (name, heap'))
    (hvoid : c.types.name TypeTable.void = TypeTable.voidName) (hspares : c.SparesLiterals) :
    heap'.constants.get? value = some name :=
  constant_known_of_ordinary h hvoid (hspares name)

end Heap

/-! ## At every point of generation -/

section Generation

variable {cfg : Setting} {a a' : Assembly} {w w' : Workspace}

theorem Assembly.Change.matched (h : Assembly.Change cfg.catalog a a')
    (hvoid : cfg.catalog.types.name TypeTable.void = TypeTable.voidName)
    (hspares : cfg.catalog.SparesLiterals) (ha : a.heap.Matched cfg.catalog) :
    a'.heap.Matched cfg.catalog := by
  cases h with
  | code heap =>
    rw [heap]
    exact ha
  | slot fresh define => exact ha.define_slot fresh define
  | literal unknown fresh lead define =>
    exact ha.define_literal hvoid (hspares _ lead) unknown fresh define

theorem Assembly.matched_of_changes (h : ReflTransGen (Assembly.Change cfg.catalog) a a')
    (hvoid : cfg.catalog.types.name TypeTable.void = TypeTable.voidName)
    (hspares : cfg.catalog.SparesLiterals) (ha : a.heap.Matched cfg.catalog) :
    a'.heap.Matched cfg.catalog := by
  induction h with
  | refl => exact ha
  | tail _ hchange ih => exact hchange.matched hvoid hspares ih

/-- The slot of a literal that gets one was no slot before. -/
theorem Assembly.Change.fresh {value : Value} {name : String}
    (h : Assembly.Change cfg.catalog a a') (hnone : a.heap.constants.get? value = none)
    (hsome : a'.heap.constants.get? value = some name) : a.heap.slots.get? name = none := by
  cases h with
  | code heap =>
    rw [heap, hnone] at hsome
    cases hsome
  | slot fresh define => exact Heap.define_constants define hnone hsome ▸ fresh
  | literal unknown fresh lead define => exact Heap.define_constants define hnone hsome ▸ fresh

theorem Assembly.fresh_of_changes {value : Value} {name : String}
    (h : ReflTransGen (Assembly.Change cfg.catalog) a a')
    (hnone : a.heap.constants.get? value = none)
    (hsome : a'.heap.constants.get? value = some name) : a.heap.slots.get? name = none := by
  induction h with
  | refl =>
    rw [hnone] at hsome
    cases hsome
  | @tail b c hchain hchange ih =>
    -- Either the last change makes the slot, or it was there and stays the same.
    cases hknown : b.heap.constants.get? value with
    | none =>
      exact (Assembly.extends_of_changes hchain).get?_eq_none (hchange.fresh hknown hsome)
    | some known =>
      have := hchange.extends.constants value known hknown
      exact ih (hknown.trans (this.symm.trans hsome))

end Generation

/-! ## At every point of resolution -/

/-- No slot is that of a literal. -/
structure Heap.Plain (heap : Heap) : Prop where
  constants : heap.constants = {}
  slots : ∀ name v, heap.slots.get? name = some v → v.attributes.constant = false

theorem Heap.Plain.matched {c : Catalog} {heap : Heap} (h : heap.Plain) : heap.Matched c := by
  refine .of_slot (fun value name hvalue => ?_) fun name v hv hconstant => ?_
  · rw [h.constants] at hvalue
    cases hvalue
  · rw [h.slots name v hv] at hconstant
    cases hconstant

theorem Heap.Plain.define {c : Catalog} {heap heap' : Heap} {name : String} {type : Option TypeId}
    {attributes : Attributes} {value : Option Value} (h : heap.Plain)
    (hconstant : attributes.constant = false)
    (hdefine : heap.define c name type attributes value = .ok heap') : heap'.Plain := by
  obtain ⟨-, rfl⟩ := define_ok hdefine
  have hsettled := settle_constant c name type value hconstant
  refine ⟨?_, fun other v hv => ?_⟩
  · simp only [hsettled, Bool.false_eq_true, if_false]
    exact h.constants
  · rw [OrderedMap.get?_put] at hv
    split at hv
    · exact Option.some.inj hv ▸ hsettled
    · exact h.slots other v hv

theorem Resolution.Change.plain {cfg : Setting} {w w' : Workspace}
    (h : Resolution.Change cfg w w') (hw : w.assembly.heap.Plain) : w'.assembly.heap.Plain := by
  cases h with
  | consult h =>
    cases h with
    | ask fresh define => exact hw.define rfl define
    | record => exact hw
  | declare constant define => exact hw.define constant define
  | note => exact hw

theorem Resolution.Proceeds.plain {cfg : Setting} {w w' : Workspace}
    (h : Resolution.Proceeds cfg w w') (hw : w.assembly.heap.Plain) : w'.assembly.heap.Plain := by
  induction h with
  | refl => exact hw
  | tail _ hchange ih => exact hchange.plain ih

/-- What is a slot stays one. -/
theorem Resolution.Change.contains {cfg : Setting} {w w' : Workspace} {name : String}
    (h : Resolution.Change cfg w w') (hname : w.assembly.heap.slots.contains name = true) :
    w'.assembly.heap.slots.contains name = true := by
  cases h with
  | consult h => exact h.keeps.1.contains hname
  | declare constant define =>
    obtain ⟨-, rfl⟩ := Heap.define_ok define
    rw [OrderedMap.contains, OrderedMap.get?_put]
    split
    · rfl
    · exact hname
  | note => exact hname

theorem Resolution.Proceeds.contains {cfg : Setting} {w w' : Workspace} {name : String}
    (h : Resolution.Proceeds cfg w w') (hname : w.assembly.heap.slots.contains name = true) :
    w'.assembly.heap.slots.contains name = true := by
  induction h with
  | refl => exact hname
  | tail _ hchange ih => exact hchange.contains ih

theorem Heap.plain_empty : ({} : Heap).Plain := ⟨rfl, by rintro _ _ ⟨⟩⟩

/-- Resolution that succeeds ends where it comes to by changes. -/
theorem Program.resolved_proceeds {cfg : Setting} {t : Tree} {before : Workspace}
    (h : Program.resolved cfg t = .ok before) : Resolution.Proceeds cfg (.forTree t) before := by
  have hend := Resolution.resolve_changes cfg t (.forTree t)
  rwa [(Program.resolved_eq_ok_iff.mp h).endState_eq] at hend

/-- At every point of a compilation, up to a failure if there is one, literals and constant slots
are matched. Asking for a literal gives its slot, which stays the same from then on, and which was
no slot at any point before it was made. -/
theorem Program.literals_matched (cfg : Setting) (hloaded : cfg.catalog.Loaded)
    (hspares : cfg.catalog.SparesLiterals) (t : Tree) :
    (Resolution.Proceeds cfg (.forTree t) (endState (Resolution.resolve cfg t) (.forTree t)) ∧
        ∀ w, Resolution.Proceeds cfg (.forTree t) w → w.assembly.heap.Matched cfg.catalog) ∧
      ∀ before, Program.resolved cfg t = .ok before →
        Proceeds cfg before (endState (Generation.generate cfg t) before) ∧
        ∀ w, Proceeds cfg before w →
          w.assembly.heap.Matched cfg.catalog ∧
          (∀ value name a, Yields (Emit.constant cfg value) w.assembly name a →
            a.heap.constants.get? value = some name) ∧
          (∀ w', Proceeds cfg w w' → w.assembly.heap.Extends w'.assembly.heap ∧
            ∀ value name, w.assembly.heap.constants.get? value = none →
              w'.assembly.heap.constants.get? value = some name →
              w.assembly.heap.slots.get? name = none) ∧
          ∀ w₀, Resolution.Proceeds cfg w₀ before → ∀ value name,
            w.assembly.heap.constants.get? value = some name →
            w₀.assembly.heap.slots.get? name = none := by
  have hvoid := hloaded.indexed.names.1
  have hplain : ∀ {w}, Resolution.Proceeds cfg (.forTree t) w → w.assembly.heap.Plain :=
    fun h => h.plain Heap.plain_empty
  refine ⟨⟨Resolution.resolve_changes cfg t _, fun w h => (hplain h).matched⟩, fun before hbefore =>
    ⟨Generation.generate_changes cfg t before, fun w hw => ⟨?_, ?_, fun w' hw' => ⟨?_, ?_⟩, ?_⟩⟩⟩
  · exact Assembly.matched_of_changes hw.assembly hvoid hspares
      (hplain (resolved_proceeds hbefore)).matched
  · intro value name a hconstant
    obtain ⟨heap, hheap, rfl⟩ := Emit.onHeap_iff.mp hconstant
    exact Heap.constant_known hheap hvoid hspares
  · exact hw'.extends
  · intro value name hnone hsome
    exact Assembly.fresh_of_changes hw'.assembly hnone hsome
  · -- Resolution gives no literal a slot, so the name was free at its end and before.
    intro w₀ hw₀ value name hsome
    have hnone : before.assembly.heap.constants.get? value = none := by
      rw [(hplain (resolved_proceeds hbefore)).constants]
      rfl
    rw [← OrderedMap.contains_eq_false_iff, ← Bool.not_eq_true]
    intro hslot
    have hslot' := hw₀.contains hslot
    rw [OrderedMap.contains, Assembly.fresh_of_changes hw.assembly hnone hsome] at hslot'
    cases hslot'

theorem Catalog.sparesLiterals_empty : Catalog.empty.SparesLiterals := by
  intro name hlead
  show (if Catalog.returnValue = name then _ else none) = none
  refine if_neg ?_
  rintro rfl
  exact absurd hlead (by decide)

/-- One and minus one ask for the same name. -/
theorem Program.literals_matched_signs : ∃ t before after,
    Tree.read "(=(x,1),=(y,-1))" = .ok t ∧
      Program.resolved ⟨Catalog.empty, true⟩ t = .ok before ∧
      Yields (Generation.generate ⟨Catalog.empty, true⟩ t) before () after ∧
      after.assembly.heap.constants.get? (.int .int32 1) = some "__const_Int32_1" ∧
      after.assembly.heap.constants.get? (.int .int32 (-1)) = some "__const_Int32_1_0" ∧
      after.assembly.heap.Matched Catalog.empty := by
  have hrun : (Tree.read "(=(x,1),=(y,-1))").toOption.any fun t =>
      (Program.generated ⟨Catalog.empty, true⟩ t).toOption.any fun after =>
        decide (after.assembly.heap.constants.get? (.int .int32 1) = some "__const_Int32_1" ∧
          after.assembly.heap.constants.get? (.int .int32 (-1)) = some "__const_Int32_1_0") := by
    decide +kernel
  obtain ⟨t, hread, -, -, hrun⟩ := Tree.read_of_any hrun
  obtain ⟨after, hafter, hrun⟩ := exists_ok_of_any hrun
  obtain ⟨hone, hminus⟩ := of_decide_eq_true hrun
  obtain ⟨before, hresolved, hgenerated⟩ := Program.generated_eq_ok_iff.mp hafter
  obtain ⟨-, hpoints⟩ := Program.literals_matched ⟨Catalog.empty, true⟩ (Or.inl rfl)
    Catalog.sparesLiterals_empty t
  obtain ⟨hend, hmatched⟩ := hpoints before hresolved
  rw [hgenerated.endState_eq] at hend
  exact ⟨t, before, after, hread, hresolved, hgenerated, hone, hminus, (hmatched after hend).1⟩

end SexprAsm
