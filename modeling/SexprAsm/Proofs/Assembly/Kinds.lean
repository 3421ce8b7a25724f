import SexprAsm.Proofs.Assembly.Emission
import SexprAsm.Proofs.TypeTable.Requests

/-!
# What checks see of a slot

A check looks at the type of a slot and at whether it is constant, its kind (`Heap.kind?`), and
at nothing else. A slot that is made without a value starts with the value of its type, which
fits it (`TypeTable.Sound.fits_default`), so making one under a free name cannot fail. Neither
can making the slot of a literal, if no predefined name begins like one
(`Heap.Orderly.constant`).
-/

namespace SexprAsm

/-! ## Initial values -/

theorem Value.hostType_of_zeroOf? {name : String} {zero : Value} (h : Value.zeroOf? name = some zero) :
    zero.hostType = name ∧ zero.isNull = false := by
  unfold Value.zeroOf? at h
  split at h
  all_goals first
    | cases h; exact ⟨rfl, rfl⟩
    | cases h

/-- The value that a slot starts with has the type of the slot. -/
theorem TypeTable.Sound.typeOf_default {types : TypeTable} (h : types.Sound) {type : TypeId}
    {zero : Value} (hzero : types.defaultValue? type = some zero) :
    zero.isNull = false ∧ types.typeOf zero = type := by
  unfold defaultValue? at hzero
  obtain ⟨hhost, hnull⟩ := Value.hostType_of_zeroOf? hzero
  have htype : type < types.size := by
    by_contra hge
    have hnone : types.types[type]? = none := Array.getElem?_eq_none (Nat.le_of_not_lt hge)
    rw [name, info, Array.getD_eq_getD_getElem?, hnone] at hzero
    cases hzero
  refine ⟨hnull, ?_⟩
  rw [typeOf, if_neg (by simp [hnull]), hhost, builtin, h.named type htype, Option.getD_some]

theorem TypeTable.Sound.fits_default {types : TypeTable} (h : types.Sound) (type : TypeId)
    (attributes : Attributes) :
    Heap.fits types ⟨type, attributes, types.defaultValue? type⟩ = true := by
  unfold Heap.fits
  cases hzero : types.defaultValue? type with
  | none => simp
  | some zero => simp [(h.typeOf_default hzero).2, isAssignable_refl]

namespace Heap

variable {c : Catalog} {heap heap' heap'' : Heap} {name : String}

/-! ## Kinds -/

/-- The type of a slot, and whether it is constant. -/
def kind? (heap : Heap) (name : String) : Option (TypeId × Bool) :=
  (heap.slots.get? name).map fun v => (v.type, v.attributes.constant)

theorem kind?_eq_none : heap.kind? name = none ↔ heap.slots.get? name = none := Option.map_eq_none_iff

theorem kind?_eq_some {type : TypeId} {constant : Bool} :
    heap.kind? name = some (type, constant) ↔
      ∃ v, heap.slots.get? name = some v ∧ v.type = type ∧ v.attributes.constant = constant := by
  simp [kind?, Option.map_eq_some_iff]

theorem Extends.kind? (h : heap.Extends heap') {kind : TypeId × Bool}
    (hkind : heap.kind? name = some kind) : heap'.kind? name = some kind := by
  obtain ⟨v, hv, rfl⟩ := Option.map_eq_some_iff.mp hkind
  rw [Heap.kind?, h.slots name v hv, Option.map_some]

/-- A definition fails for want of a name or of a value that fits, or because its slot is there and
is of another kind. -/
theorem define_of_kind {type : Option TypeId} {attributes : Attributes} {value : Option Value}
    (hname : name.isEmpty = false)
    (hfits : fits c.types (settle c name type attributes value) = true)
    (hkind : ∀ kind, heap.kind? name = some kind →
      kind = ((settle c name type attributes value).type, false)) :
    ∃ heap', heap.define c name type attributes value = .ok heap' := by
  unfold define
  simp only [hname, hfits, Bool.false_eq_true, if_false, Bool.not_true]
  cases hslot : heap.slots.get? name with
  | none => exact ⟨_, rfl⟩
  | some existing =>
    obtain ⟨htype, hconstant⟩ :=
      Prod.mk.inj (hkind _ (Heap.kind?_eq_some.mpr ⟨existing, hslot, rfl, rfl⟩))
    simp only [hconstant, htype, Bool.false_eq_true, if_false, ne_eq, not_true_eq_false]
    exact ⟨_, rfl⟩

/-- A definition under a free name fails for want of a name or of a value that fits, and for nothing
else. -/
theorem define_of_fresh (type : Option TypeId) (attributes : Attributes) (value : Option Value)
    (hname : name.isEmpty = false)
    (hfits : fits c.types (settle c name type attributes value) = true)
    (hfresh : heap.kind? name = none) :
    ∃ heap', heap.define c name type attributes value = .ok heap' :=
  define_of_kind hname hfits fun kind hkind => by rw [hfresh] at hkind; cases hkind

theorem kind?_define {type : Option TypeId} {attributes : Attributes} {value : Option Value}
    (h : heap.define c name type attributes value = .ok heap') (other : String) :
    heap'.kind? other = if other = name then
      some ((settle c name type attributes value).type,
        (settle c name type attributes value).attributes.constant)
    else heap.kind? other := by
  obtain ⟨-, rfl⟩ := define_ok h
  rw [kind?, OrderedMap.get?_put]
  split
  next => rfl
  next => rfl

/-- The type that a new slot gets: a predefined name has its own. -/
def newType (c : Catalog) (name : String) (type : Option TypeId) : TypeId :=
  (c.predefined.get? name <|> type).getD TypeTable.object

theorem settle_plain (c : Catalog) (name : String) (type : Option TypeId) :
    settle c name type {} none =
      ⟨newType c name type, {}, c.types.defaultValue? (newType c name type)⟩ := by
  unfold settle newType
  cases c.predefined.get? name <;> cases type <;> rfl

/-- The slots of literals have the types of their literals, and only they are constant. -/
structure Orderly (c : Catalog) (heap : Heap) : Prop where
  known : ∀ value name, heap.constants.get? value = some name →
    name.isEmpty = false ∧ heap.kind? name = some (c.types.constantType value, true)
  lead : ∀ name type, heap.kind? name = some (type, true) →
    constantLead.toList <+: name.toList

/-- A slot without attributes can be made under any free name. -/
theorem define_plain (hsound : c.types.Sound) (hname : name.isEmpty = false)
    (hfresh : heap.kind? name = none) (type : Option TypeId) :
    ∃ heap', heap.define c name type {} none = .ok heap' ∧ heap.Extends heap' ∧
      heap'.constants = heap.constants ∧ ∀ other, heap'.kind? other =
        if other = name then some (newType c name type, false) else heap.kind? other := by
  have hsettle := settle_plain c name type
  obtain ⟨heap', hdefine⟩ := define_of_fresh type {} none hname
    (by rw [hsettle]; exact hsound.fits_default _ _) hfresh
  have hkinds := kind?_define hdefine
  rw [hsettle] at hkinds
  have hext := (define_fresh hdefine (kind?_eq_none.mp hfresh)).1
  refine ⟨heap', hdefine, hext, ?_, hkinds⟩
  obtain ⟨-, rfl⟩ := define_ok hdefine
  rw [hsettle]
  rfl

/-- The type of a slot can be asked for; a predefined name gets its slot. -/
theorem typeOf?_plain (heap : Heap) (hsound : c.types.Sound) (hname : name.isEmpty = false) :
    ∃ heap', heap.typeOf? c name = .ok ((heap'.kind? name).map Prod.fst, heap') ∧
      heap.Extends heap' ∧ heap'.constants = heap.constants ∧ ∀ other, heap'.kind? other =
        if other = name then heap.kind? name <|> (c.predefined.get? name).map (·, false)
        else heap.kind? other := by
  have htype : ∀ heap' : Heap,
      (heap'.slots.get? name).map (·.type) = (heap'.kind? name).map Prod.fst :=
    fun heap' => by rw [kind?, Option.map_map]; rfl
  cases hslot : heap.slots.get? name with
  | some v =>
    refine ⟨heap, by rw [typeOf?_of_slot hslot, ← htype, hslot, Option.map_some], .refl _, rfl,
      fun other => ?_⟩
    split
    next heq => rw [heq, kind?, hslot]; rfl
    next => rfl
  | none =>
    have hfresh := kind?_eq_none.mpr hslot
    cases hpinned : c.predefined.get? name with
    | none =>
      refine ⟨heap, by rw [typeOf?_of_ordinary hpinned, htype], .refl _, rfl, fun other => ?_⟩
      split
      next heq => rw [heq, hfresh]; rfl
      next => rfl
    | some type =>
      obtain ⟨heap', hdefine, hext, hconstants, hkinds⟩ :=
        heap.define_plain hsound hname hfresh (some type)
      refine ⟨heap', ?_, hext, hconstants, fun other => ?_⟩
      · unfold Heap.typeOf?
        rw [OrderedMap.contains_eq_false_iff.mpr hslot, hpinned]
        simp [hdefine, htype]
      · rw [hkinds, newType, hpinned, hfresh]
        rfl

/-- A heap with the same literals and further slots that are not constant. -/
theorem Orderly.of_kinds (h : heap.Orderly c) (hext : heap.Extends heap')
    (hconstants : heap'.constants = heap.constants)
    (hkinds : ∀ name type,
      heap'.kind? name = some (type, true) → heap.kind? name = some (type, true)) :
    heap'.Orderly c := by
  refine ⟨fun value slot hslot => ?_, fun other type hother => h.lead other type (hkinds _ _ hother)⟩
  rw [hconstants] at hslot
  exact ⟨(h.known value slot hslot).1, hext.kind? (h.known value slot hslot).2⟩

theorem Orderly.define (h : heap.Orderly c) (hsound : c.types.Sound) (hname : name.isEmpty = false)
    (hfresh : heap.kind? name = none) (type : Option TypeId) :
    ∃ heap', heap.define c name type {} none = .ok heap' ∧ heap'.Orderly c ∧ heap.Extends heap' ∧
      ∀ other, heap'.kind? other =
        if other = name then some (newType c name type, false) else heap.kind? other := by
  obtain ⟨heap', hdefine, hext, hconstants, hkinds⟩ := heap.define_plain hsound hname hfresh type
  refine ⟨heap', hdefine, h.of_kinds hext hconstants fun other type' hother => ?_, hext, hkinds⟩
  rw [hkinds] at hother
  split at hother
  · cases hother
  · exact hother

theorem Orderly.typeOf? (h : heap.Orderly c) (hsound : c.types.Sound)
    (hname : name.isEmpty = false) :
    ∃ heap', heap.typeOf? c name = .ok ((heap'.kind? name).map Prod.fst, heap') ∧
      heap'.Orderly c ∧ heap.Extends heap' ∧ ∀ other, heap'.kind? other =
        if other = name then heap.kind? name <|> (c.predefined.get? name).map (·, false)
        else heap.kind? other := by
  obtain ⟨heap', htype, hext, hconstants, hkinds⟩ := heap.typeOf?_plain hsound hname
  refine ⟨heap', htype, h.of_kinds hext hconstants fun other type' hother => ?_, hext, hkinds⟩
  rw [hkinds] at hother
  split at hother
  next heq =>
    subst heq
    cases hkind : heap.kind? other with
    | some kind => rw [hkind] at hother; exact hother
    | none =>
      rw [hkind] at hother
      cases hpinned : c.predefined.get? other <;> rw [hpinned] at hother <;> cases hother
  next => exact hother

theorem isEmpty_of_constantLead (h : constantLead.toList <+: name.toList) : name.isEmpty = false := by
  by_contra hempty
  rw [Bool.not_eq_false, String.isEmpty_iff] at hempty
  rw [hempty] at h
  revert h
  decide

/-- What the slot of a literal holds fits it and has the type of the literal, also where null starts
with another value. -/
theorem exists_settle_literal (hsound : c.types.Sound) (hpinned : c.predefined.get? name = none)
    (value : Value) :
    ∃ stored, settle c name (some (c.types.constantType value)) { constant := true }
        (if value.isNull then none else some value) =
        ⟨c.types.constantType value, { constant := true }, stored⟩ ∧
      fits c.types ⟨c.types.constantType value, { constant := true }, stored⟩ = true ∧
      c.types.constantType (stored.getD .null) = c.types.constantType value := by
  refine ⟨(if value.isNull then none else some value) <|>
    c.types.defaultValue? (c.types.constantType value), by simp [settle, hpinned], ?_, ?_⟩
  · cases hnull : value.isNull with
    | true => simp [fits, TypeTable.constantType, hnull]
    | false => simp [fits, TypeTable.constantType, hnull, TypeTable.isAssignable_refl]
  · cases hnull : value.isNull with
    | false => simp
    | true =>
      have htype : c.types.constantType value = TypeTable.void := by
        rw [TypeTable.constantType, if_pos hnull]
      cases hzero : c.types.defaultValue? (c.types.constantType value) with
      | none =>
        rw [htype]
        simp [TypeTable.constantType, Value.isNull]
      | some zero =>
        obtain ⟨hzeroNull, htypeOf⟩ := hsound.typeOf_default hzero
        simpa [TypeTable.constantType, hzeroNull] using htypeOf

/-- The slot of a literal can be made, if no predefined name is in the way. -/
theorem Orderly.constant (h : heap.Orderly c) (hsound : c.types.Sound)
    (hpredefined : ∀ name, constantLead.toList <+: name.toList → c.predefined.get? name = none)
    (value : Value) :
    ∃ slot heap', heap.constant c value = .ok (slot, heap') ∧ heap'.Orderly c ∧
      heap.Extends heap' ∧ slot.isEmpty = false ∧
      heap'.kind? slot = some (c.types.constantType value, true) ∧
      ∀ other, ¬ constantLead.toList <+: other.toList → heap'.kind? other = heap.kind? other := by
  cases hknown : heap.constants.get? value with
  | some slot =>
    obtain ⟨hempty, hkind⟩ := h.known value slot hknown
    exact ⟨slot, heap, by rw [Heap.constant, hknown], h, .refl _, hempty, hkind, fun _ _ => rfl⟩
  | none =>
    obtain ⟨hfree, hlead⟩ := heap.freeName_spec (constantName c.types value)
    replace hlead := (constantLead_prefix_constantName c.types value).trans hlead
    have hconstant : heap.constant c value = (do
        let heap' ← heap.define c (heap.freeName (constantName c.types value))
          (some (c.types.constantType value)) { constant := true }
          (if value.isNull then none else some value)
        return (heap.freeName (constantName c.types value), heap')) := by
      rw [Heap.constant, hknown]
    -- The name is free and not predefined, so nothing contradicts the definition.
    generalize heap.freeName (constantName c.types value) = slot at hfree hlead hconstant
    obtain ⟨stored, hsettle, hfits, htype⟩ :=
      exists_settle_literal hsound (hpredefined slot hlead) value
    obtain ⟨heap', hdefine⟩ := define_of_fresh _ _ _ (isEmpty_of_constantLead hlead)
      (hsettle.symm ▸ hfits) (kind?_eq_none.mpr hfree)
    have hkinds := kind?_define hdefine
    have hext := (define_fresh hdefine hfree).1
    have hconstants : heap'.constants = heap.constants.putNew (stored.getD .null) slot := by
      obtain ⟨-, rfl⟩ := define_ok hdefine
      simp only [hsettle, if_true]
    rw [hsettle] at hkinds
    refine ⟨slot, heap', by rw [hconstant, hdefine]; rfl,
      ⟨fun other name hname => ?_, fun other type hother => ?_⟩, hext,
      isEmpty_of_constantLead hlead, by rw [hkinds, if_pos rfl], fun other hother => ?_⟩
    · rw [hconstants, OrderedMap.get?_putNew] at hname
      split at hname
      next hnew =>
        obtain rfl := Option.some.inj hname
        exact ⟨isEmpty_of_constantLead hlead, by rw [hkinds, if_pos rfl, hnew.2, htype]⟩
      next => exact ⟨(h.known other name hname).1, hext.kind? (h.known other name hname).2⟩
    · rw [hkinds] at hother
      split at hother
      next heq => exact heq ▸ hlead
      next => exact h.lead other type hother
    · rw [hkinds, if_neg]
      rintro rfl
      exact hother hlead

end Heap

end SexprAsm
