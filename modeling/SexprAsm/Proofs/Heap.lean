import SexprAsm.Heap
import SexprAsm.Proofs.OrderedMap
import SexprAsm.Proofs.Text.Digits

/-!
# Slots stay as they are

While code is generated, slots are only defined under names that are free. So the heap only grows
(`Heap.Extends`): what has been checked of a slot stays true. Free names are found because there
are more candidates than names taken.

`Heap.Sound` says that a literal is found under the name of a slot that holds it.
-/

namespace SexprAsm

namespace Heap

variable {c : Catalog} {heap heap' heap'' : Heap} {name : String} {type : Option TypeId}
  {attributes : Attributes} {value : Option Value}

/-- A heap has all slots and literals of another one, unchanged. -/
structure Extends (heap heap' : Heap) : Prop where
  slots : ∀ name v, heap.slots.get? name = some v → heap'.slots.get? name = some v
  constants : ∀ value name, heap.constants.get? value = some name →
    heap'.constants.get? value = some name

theorem Extends.refl (heap : Heap) : Extends heap heap := ⟨fun _ _ h => h, fun _ _ h => h⟩

theorem Extends.trans (h : Extends heap heap') (h' : Extends heap' heap'') :
    Extends heap heap'' :=
  ⟨fun name v hv => h'.slots name v (h.slots name v hv),
    fun value name hv => h'.constants value name (h.constants value name hv)⟩

theorem Extends.get?_eq_none (h : Extends heap heap') {name : String}
    (hname : heap'.slots.get? name = none) : heap.slots.get? name = none := by
  cases hget : heap.slots.get? name with
  | none => rfl
  | some v =>
    rw [h.slots name v hget] at hname
    cases hname

theorem Extends.contains (h : Extends heap heap') (hname : heap.slots.contains name = true) :
    heap'.slots.contains name = true := by
  obtain ⟨v, hv⟩ := OrderedMap.contains_iff.mp hname
  exact OrderedMap.contains_iff.mpr ⟨v, h.slots name v hv⟩

/-- Literals live in slots that hold them, under names of their own kind. -/
structure Sound (heap : Heap) : Prop where
  holds : ∀ value name, heap.constants.get? value = some name →
    constantLead.toList <+: name.toList ∧
      ∃ v, heap.slots.get? name = some v ∧ v.value.getD .null = value

/-! ## Definitions -/

/-- A definition that succeeds stores what it settles. -/
theorem define_ok (h : heap.define c name type attributes value = .ok heap') :
    name.isEmpty = false ∧
      heap' =
        { slots := heap.slots.put name (settle c name type attributes value)
          constants :=
            if (settle c name type attributes value).attributes.constant then
              heap.constants.putNew
                ((settle c name type attributes value).value.getD .null) name
            else heap.constants } := by
  unfold define at h
  dsimp only at h
  split at h
  · cases h
  next hempty =>
    refine ⟨by simpa using hempty, ?_⟩
    split at h
    · cases h
    · split at h
      · exact (Except.ok.inj h).symm
      · split at h
        · split at h
          · cases h
          · exact (Except.ok.inj h).symm
        · split at h
          · cases h
          · exact (Except.ok.inj h).symm

/-- A slot is not constant that no attribute asks to be so. -/
theorem settle_constant (c : Catalog) (name : String) (type : Option TypeId)
    {attributes : Attributes} (value : Option Value) (h : attributes.constant = false) :
    (settle c name type attributes value).attributes.constant = false := by
  unfold settle
  dsimp only
  split
  · rfl
  · exact h

/-- A definition that succeeds has checked the initial value. -/
theorem fits_of_define (h : heap.define c name type attributes value = .ok heap') :
    fits c.types (settle c name type attributes value) = true := by
  unfold define at h
  dsimp only at h
  split at h
  · cases h
  · split at h
    · cases h
    next hfits => simpa using hfits

/-- A definition under a free name leaves all else as it is. -/
theorem define_fresh (h : heap.define c name type attributes value = .ok heap')
    (hfresh : heap.slots.get? name = none) :
    heap.Extends heap' ∧
      heap'.slots.get? name = some (settle c name type attributes value) := by
  obtain ⟨-, rfl⟩ := define_ok h
  refine ⟨⟨fun other v hv => ?_, fun other n hn => ?_⟩, by simp [OrderedMap.get?_put]⟩
  · have hne : other ≠ name := by
      rintro rfl
      rw [hfresh] at hv
      cases hv
    simpa [OrderedMap.get?_put, hne] using hv
  · show OrderedMap.get? (if _ then _ else _) other = some n
    split
    · rw [OrderedMap.get?_putNew, if_neg]
      · exact hn
      · rintro ⟨hnone, rfl⟩
        rw [hnone] at hn
        cases hn
    · exact hn

/-- A definition under a free name keeps literals where they are; a new one has to have a name of
its kind. -/
theorem Sound.define (hsound : heap.Sound)
    (h : heap.define c name type attributes value = .ok heap')
    (hfresh : heap.slots.get? name = none)
    (hlead : attributes.constant = true → constantLead.toList <+: name.toList) : heap'.Sound := by
  obtain ⟨hext, hget⟩ := define_fresh h hfresh
  obtain ⟨-, rfl⟩ := define_ok h
  refine ⟨fun other n hn => ?_⟩
  have hold (hn : heap.constants.get? other = some n) :
      constantLead.toList <+: n.toList ∧ ∃ v, (heap.slots.put name
        (settle c name type attributes value)).get? n = some v ∧ v.value.getD .null = other := by
    obtain ⟨hl, v, hv, hvalue⟩ := hsound.holds other n hn
    exact ⟨hl, v, hext.slots n v hv, hvalue⟩
  dsimp only at hn
  split at hn
  next hconstant =>
    -- The only literal that can be new is the one just stored.
    rw [OrderedMap.get?_putNew] at hn
    split at hn
    next hnew =>
      obtain rfl := Option.some.inj hn
      have hattributes : attributes.constant = true := by
        simp only [settle] at hconstant
        split at hconstant
        · cases hconstant
        · exact hconstant
      exact ⟨hlead hattributes, _, hget, hnew.2.symm⟩
    next => exact hold hn
  next => exact hold hn

/-! ## Types of slots -/

/-- All slots are still there, and have the types they had. -/
def KeepsTypes (heap heap' : Heap) : Prop :=
  ∀ name v, heap.slots.get? name = some v →
    ∃ v', heap'.slots.get? name = some v' ∧ v'.type = v.type

theorem KeepsTypes.refl (heap : Heap) : heap.KeepsTypes heap := fun _ v hv => ⟨v, hv, rfl⟩

theorem KeepsTypes.trans (h : heap.KeepsTypes heap') (h' : heap'.KeepsTypes heap'') :
    heap.KeepsTypes heap'' := by
  intro name v hv
  obtain ⟨v', hv', htype⟩ := h name v hv
  obtain ⟨v'', hv'', htype'⟩ := h' name v' hv'
  exact ⟨v'', hv'', htype'.trans htype⟩

theorem Extends.keepsTypes (h : heap.Extends heap') : heap.KeepsTypes heap' :=
  fun name v hv => ⟨v, h.slots name v hv, rfl⟩

/-- A slot is defined again only with the type it has, and a constant one only with its value. -/
theorem same_of_define {v : Variable} (h : heap.define c name type attributes value = .ok heap')
    (hv : heap.slots.get? name = some v) :
    (settle c name type attributes value).type = v.type ∧
      (v.attributes.constant = true → (settle c name type attributes value).value = v.value) := by
  unfold define at h
  simp only [hv] at h
  split at h
  · cases h
  split at h
  · cases h
  split at h
  next =>
    split at h
    next => cases h
    next hsame =>
      obtain ⟨htype, hvalue⟩ := not_or.mp hsame
      exact ⟨(not_not.mp htype).symm, fun _ => (not_not.mp hvalue).symm⟩
  next hplain =>
    split at h
    next => cases h
    next hsame => exact ⟨(not_not.mp hsame).symm, fun hconstant => absurd hconstant hplain⟩

theorem define_keepsTypes (h : heap.define c name type attributes value = .ok heap') :
    heap.KeepsTypes heap' := by
  intro other v hv
  have hsame := fun hname => (same_of_define h (v := v) hname).1
  obtain ⟨-, rfl⟩ := define_ok h
  simp only [OrderedMap.get?_put]
  split
  next heq => exact ⟨_, rfl, hsame (heq ▸ hv)⟩
  next => exact ⟨v, hv, rfl⟩

/-- Asking for the type of a slot defines it at most, if its name is predefined. -/
theorem typeOf?_ok {found : Option TypeId} (h : heap.typeOf? c name = .ok (found, heap')) :
    found = (heap'.slots.get? name).map (·.type) ∧
      ((heap' = heap ∧ (heap.slots.get? name = none → c.predefined.get? name = none)) ∨
        heap.slots.get? name = none ∧ ∃ pinned, c.predefined.get? name = some pinned ∧
          heap.define c name (some pinned) {} none = .ok heap') := by
  unfold typeOf? at h
  cases hcontains : heap.slots.contains name with
  | true =>
    rw [hcontains] at h
    obtain ⟨rfl, rfl⟩ := Prod.mk.inj (Except.ok.inj h)
    obtain ⟨v, hv⟩ := OrderedMap.contains_iff.mp hcontains
    exact ⟨rfl, Or.inl ⟨rfl, fun hnone => by rw [hv] at hnone; cases hnone⟩⟩
  | false =>
    rw [hcontains] at h
    have hnone := OrderedMap.contains_eq_false_iff.mp hcontains
    cases hpinned : c.predefined.get? name with
    | none =>
      rw [hpinned] at h
      obtain ⟨rfl, rfl⟩ := Prod.mk.inj (Except.ok.inj h)
      exact ⟨rfl, Or.inl ⟨rfl, fun _ => rfl⟩⟩
    | some pinned =>
      rw [hpinned] at h
      cases hdefine : heap.define c name (some pinned) {} none with
      | error e => simp [hdefine] at h
      | ok heap₁ =>
        simp only [hdefine] at h
        obtain ⟨rfl, rfl⟩ := Prod.mk.inj (Except.ok.inj h)
        exact ⟨rfl, Or.inr ⟨hnone, pinned, rfl, hdefine⟩⟩

/-- The type of a slot that is there is the one it has. -/
theorem typeOf?_of_slot {v : Variable} (hv : heap.slots.get? name = some v) :
    heap.typeOf? c name = .ok (some v.type, heap) := by
  unfold typeOf?
  rw [OrderedMap.contains_iff.mpr ⟨v, hv⟩, if_pos rfl]
  simp only [pure_bind, hv, Option.map_some]
  rfl

/-- Asking for the type of a name that is not predefined changes nothing. -/
theorem typeOf?_of_ordinary (h : c.predefined.get? name = none) :
    heap.typeOf? c name = .ok ((heap.slots.get? name).map (·.type), heap) := by
  unfold typeOf?
  rw [h]
  split <;> rfl

theorem typeOf?_extends {found : Option TypeId}
    (h : heap.typeOf? c name = .ok (found, heap')) : heap.Extends heap' := by
  rcases (typeOf?_ok h).2 with ⟨rfl, -⟩ | ⟨hnone, pinned, -, hdefine⟩
  · exact .refl _
  · exact (define_fresh hdefine hnone).1

theorem Sound.typeOf? (hsound : heap.Sound) {found : Option TypeId}
    (h : heap.typeOf? c name = .ok (found, heap')) : heap'.Sound := by
  rcases (typeOf?_ok h).2 with ⟨rfl, -⟩ | ⟨hnone, pinned, -, hdefine⟩
  · exact hsound
  · exact hsound.define hdefine hnone (by intro h; cases h)

/-- Only a predefined name can be new after asking for a type. -/
theorem typeOf?_contains {found : Option TypeId} {other : String}
    (h : heap.typeOf? c name = .ok (found, heap')) (hother : heap'.slots.contains other = true) :
    heap.slots.contains other = true ∨ c.predefined.contains other = true := by
  rcases (typeOf?_ok h).2 with ⟨rfl, -⟩ | ⟨hnone, pinned, hpinned, hdefine⟩
  · exact Or.inl hother
  · obtain ⟨-, rfl⟩ := define_ok hdefine
    by_cases hname : other = name
    · subst hname
      exact Or.inr (OrderedMap.contains_iff.mpr ⟨pinned, hpinned⟩)
    · left
      simpa [OrderedMap.contains, OrderedMap.get?_put, hname] using hother

/-- No type is found only for a name that is free and not predefined. -/
theorem typeOf?_none (h : heap.typeOf? c name = .ok (none, heap')) :
    heap' = heap ∧ heap.slots.get? name = none ∧ c.predefined.get? name = none := by
  obtain ⟨hfound, hcase⟩ := typeOf?_ok h
  have hnone : heap'.slots.get? name = none := by simpa using hfound.symm
  rcases hcase with ⟨rfl, hpre⟩ | ⟨hfree, pinned, -, hdefine⟩
  · exact ⟨rfl, hnone, hpre hnone⟩
  · rw [(define_fresh hdefine hfree).2] at hnone
    cases hnone

/-! ## Names that are free -/

theorem toList_numbered (base : String) (n : Nat) :
    (numbered base n).toList = base.toList ++ '_' :: Nat.toDigits 10 n := by
  show (toString base ++ toString "_" ++ toString n).toList = _
  simp only [toString, String.toList_append, Nat.repr, String.toList_ofList]
  simp

theorem numbered_injective (base : String) : Function.Injective (numbered base) := by
  intro m n h
  have hlist : (numbered base m).toList = (numbered base n).toList := by rw [h]
  rw [toList_numbered, toList_numbered, List.append_cancel_left_eq, List.cons_inj_right] at hlist
  rw [← Text.ofDigits_toDigits m, hlist, Text.ofDigits_toDigits]

theorem numbered_ne (base : String) (n : Nat) : numbered base n ≠ base := by
  intro h
  have hlength := congrArg List.length (congrArg String.toList h)
  rw [toList_numbered, List.length_append, List.length_cons] at hlength
  omega

/-- The base and then the numbered names: no name comes twice. -/
theorem numberedAfter_injective (base : String) :
    Function.Injective fun n => if n = 0 then base else numbered base (n - 1) := by
  intro m n h
  dsimp only at h
  split at h <;> split at h
  · omega
  · exact absurd h.symm (numbered_ne base _)
  · exact absurd h (numbered_ne base _)
  · have := numbered_injective base h
    omega

/-- There are more numbers to try than slots, so one of the names is free. -/
theorem exists_free (heap : Heap) (base : String) :
    ∃ n < heap.slots.size + 1, heap.slots.contains (numbered base n) = false := by
  by_contra hall
  push Not at hall
  have htaken : ∀ name ∈ (List.range (heap.slots.size + 1)).map (numbered base),
      heap.slots.contains name = true ∨ ({} : NameMap Unit).contains name = true := by
    intro name hname
    obtain ⟨n, hn, rfl⟩ := List.mem_map.mp hname
    exact Or.inl ((Bool.not_eq_false _).mp (hall n (List.mem_range.mp hn)))
  have hle := OrderedMap.length_le_size_add
    (List.nodup_range.map (numbered_injective base)) htaken
  rw [List.length_map, List.length_range] at hle
  exact Nat.not_succ_le_self _ hle

theorem freeName_spec (heap : Heap) (base : String) :
    heap.slots.get? (heap.freeName base) = none ∧
      base.toList <+: (heap.freeName base).toList := by
  unfold freeName
  cases hbase : heap.slots.contains base with
  | false => exact ⟨OrderedMap.contains_eq_false_iff.mp hbase, List.prefix_refl _⟩
  | true =>
    obtain ⟨n, hn, hfree⟩ := heap.exists_free base
    have hsome : ((List.range (heap.slots.size + 1)).find? fun n =>
        !heap.slots.contains (numbered base n)).isSome := by
      rw [List.find?_isSome]
      exact ⟨n, List.mem_range.mpr hn, by rw [hfree]; rfl⟩
    obtain ⟨k, hk⟩ := Option.isSome_iff_exists.mp hsome
    have hfound := List.find?_some hk
    rw [if_pos rfl, hk, Option.elim_some]
    refine ⟨OrderedMap.contains_eq_false_iff.mp (by simpa using hfound), ?_⟩
    rw [toList_numbered]
    exact List.prefix_append _ _

/-! ## Literals -/

theorem constantLead_prefix_constantName (types : TypeTable) (v : Value) :
    constantLead.toList <+: (constantName types v).toList := by
  unfold constantName
  split <;> rw [String.toList_append] <;> exact List.prefix_append _ _

/-- The slot of a literal is there already, or is made under a free name. -/
theorem constant_ok {v : Value} (h : heap.constant c v = .ok (name, heap')) :
    (heap.constants.get? v = some name ∧ heap' = heap) ∨
      heap.slots.get? name = none ∧ constantLead.toList <+: name.toList ∧
        heap.define c name (some (c.types.constantType v)) { constant := true }
          (if v.isNull then none else some v) = .ok heap' := by
  unfold constant at h
  cases hfound : heap.constants.get? v with
  | some known =>
    rw [hfound] at h
    obtain ⟨rfl, rfl⟩ := Prod.mk.inj (Except.ok.inj h)
    exact Or.inl ⟨rfl, rfl⟩
  | none =>
    rw [hfound] at h
    dsimp only at h
    obtain ⟨hfree, hlead⟩ := heap.freeName_spec (constantName c.types v)
    cases hdefine : heap.define c (heap.freeName (constantName c.types v))
        (some (c.types.constantType v)) { constant := true }
        (if v.isNull then none else some v) with
    | error e => rw [hdefine] at h; cases h
    | ok heap₁ =>
      rw [hdefine] at h
      obtain ⟨rfl, rfl⟩ := Prod.mk.inj (Except.ok.inj h)
      exact Or.inr ⟨hfree, (constantLead_prefix_constantName c.types v).trans hlead, hdefine⟩

theorem constant_extends {v : Value} (h : heap.constant c v = .ok (name, heap')) :
    heap.Extends heap' := by
  rcases constant_ok h with ⟨-, rfl⟩ | ⟨hfree, -, hdefine⟩
  · exact .refl _
  · exact (define_fresh hdefine hfree).1

theorem Sound.constant (hsound : heap.Sound) {v : Value}
    (h : heap.constant c v = .ok (name, heap')) : heap'.Sound := by
  rcases constant_ok h with ⟨-, rfl⟩ | ⟨hfree, hlead, hdefine⟩
  · exact hsound
  · exact hsound.define hdefine hfree fun _ => hlead

/-- The slot of a literal has a name of its kind and holds the literal; only null needs a name that
is not predefined, because a predefined type may have a value of its own to start with. -/
theorem Sound.constant_slot (hsound : heap.Sound) {v : Value}
    (h : heap.constant c v = .ok (name, heap')) :
    constantLead.toList <+: name.toList ∧ ∃ u, heap'.slots.get? name = some u ∧
      ((v.isNull = true → c.types.name TypeTable.void = TypeTable.voidName ∧
        c.predefined.get? name = none) → u.value.getD .null = v) := by
  rcases constant_ok h with ⟨hknown, rfl⟩ | ⟨hfree, hlead, hdefine⟩
  · obtain ⟨hlead, u, hu, hvalue⟩ := hsound.holds v name hknown
    exact ⟨hlead, u, hu, fun _ => hvalue⟩
  · refine ⟨hlead, _, (define_fresh hdefine hfree).2, fun hnull => ?_⟩
    cases h : v.isNull with
    | false => simp [settle]
    | true =>
      obtain ⟨hvoid, hpinned⟩ := hnull h
      have hdefault : c.types.defaultValue? (c.types.constantType v) = none := by
        rw [TypeTable.constantType, if_pos h, TypeTable.defaultValue?, hvoid]
        decide
      cases v with
      | null => simp [settle, hpinned, hdefault]
      | _ => cases h

end Heap

end SexprAsm
