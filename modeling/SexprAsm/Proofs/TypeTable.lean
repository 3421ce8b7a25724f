import Mathlib.Data.List.Nodup
import Mathlib.Data.List.Perm.Subperm
import Mathlib.Tactic.Common
import SexprAsm.Proofs.OrderedMap
import SexprAsm.TypeTable

/-!
# Every type derives from the root

The bases of a type form a chain that ends at the root type (`TypeTable.Rank` counts its steps).
Entering types keeps this, and so does setting a base, because a base that derives from the type
itself is refused. No chain repeats a type, so `ancestry` sees all of it, and the root type may
meet every other one in a copy.
-/

namespace SexprAsm.TypeTable

variable {t t' : TypeTable} {id base : TypeId} {n : Nat}

/-- The number of base steps from a type up to the root. -/
inductive Rank (t : TypeTable) : Nat → TypeId → Prop where
  | root : Rank t 0 object
  | derived {n : Nat} {id base : TypeId} (hbase : (t.info id).base = some base)
      (h : Rank t n base) : Rank t (n + 1) id

/-- Names stand for types of the table, and every type derives from the root. -/
structure WellFormed (t : TypeTable) : Prop where
  lookup_lt : ∀ name id, t.lookup name = some id → id < t.size
  base_lt : ∀ id base, (t.info id).base = some base → base < t.size
  root : (t.info object).base = none
  reference : (t.info object).valueType = false
  ranked : ∀ id < t.size, ∃ n, t.Rank n id

/-- A table with more types. -/
structure Extends (t t' : TypeTable) : Prop where
  lookup : ∀ name id, t.lookup name = some id → t'.lookup name = some id
  size_le : t.size ≤ t'.size
  name : ∀ id < t.size, t'.name id = t.name id

theorem Extends.refl (t : TypeTable) : Extends t t := ⟨fun _ _ h => h, Nat.le_refl _, fun _ _ => rfl⟩

theorem Extends.trans {t'' : TypeTable} (h : Extends t t') (h' : Extends t' t'') :
    Extends t t'' :=
  ⟨fun name id hid => h'.lookup name id (h.lookup name id hid), Nat.le_trans h.size_le h'.size_le,
    fun id hid => (h'.name id (Nat.lt_of_lt_of_le hid h.size_le)).trans (h.name id hid)⟩

/-! ## Chains of bases

A type has one rank, and all bases that are met on the way up have smaller ones. So a chain
repeats no type, and as its types are in the table it is no longer than that, which is as far as
the table is searched. -/

theorem Rank.unique (hroot : (t.info object).base = none) {m : Nat} (h : t.Rank m id)
    (h' : t.Rank n id) : m = n := by
  induction h generalizing n with
  | root =>
    cases h' with
    | root => rfl
    | derived hbase _ =>
      rw [hroot] at hbase
      cases hbase
  | derived hbase _ ih =>
    cases h' with
    | root =>
      rw [hroot] at hbase
      cases hbase
    | derived hbase' h' =>
      obtain rfl := Option.some.inj (hbase.symm.trans hbase')
      rw [ih h']

theorem chain_succ (t : TypeTable) (count : Nat) (id : TypeId) :
    t.chain (count + 1) id = id :: ((t.info id).base.elim [] (t.chain count)) := by
  rw [chain]
  cases (t.info id).base <;> rfl

theorem Rank.of_mem_chain (hroot : (t.info object).base = none) (h : t.Rank n id) {count : Nat}
    {other : TypeId} (hmem : other ∈ t.chain count id) : ∃ m ≤ n, t.Rank m other := by
  induction count generalizing n id with
  | zero => cases hmem
  | succ count ih =>
    rw [chain_succ] at hmem
    rcases List.mem_cons.mp hmem with rfl | hmem
    · exact ⟨n, Nat.le_refl _, h⟩
    · cases h with
      | root =>
        rw [hroot] at hmem
        cases hmem
      | derived hbase h =>
        rw [hbase] at hmem
        obtain ⟨m, hm, hrank⟩ := ih h hmem
        exact ⟨m, Nat.le_succ_of_le hm, hrank⟩

theorem Rank.nodup_chain (hroot : (t.info object).base = none) (h : t.Rank n id) (count : Nat) :
    (t.chain count id).Nodup := by
  induction count generalizing n id with
  | zero => exact List.nodup_nil
  | succ count ih =>
    rw [chain_succ]
    cases h with
    | root => simp [hroot]
    | @derived n _ base hbase h =>
      rw [hbase]
      refine List.nodup_cons.mpr ⟨fun hmem => ?_, ih h⟩
      -- The type itself has a higher rank than all its bases.
      obtain ⟨m, hm, hrank⟩ := h.of_mem_chain hroot hmem
      have := Rank.unique hroot hrank (.derived hbase h)
      omega

theorem Rank.length_chain (h : t.Rank n id) : n < (t.chain (n + 1) id).length := by
  induction h with
  | root => simp [chain_succ]
  | derived hbase _ ih =>
    rw [chain_succ, hbase]
    exact Nat.succ_lt_succ ih

theorem WellFormed.chain_lt (h : t.WellFormed) (hid : id < t.size) (count : Nat) :
    ∀ other ∈ t.chain count id, other < t.size := by
  induction count generalizing id with
  | zero => exact fun _ hmem => by cases hmem
  | succ count ih =>
    intro other hmem
    rw [chain_succ] at hmem
    rcases List.mem_cons.mp hmem with rfl | hmem
    · exact hid
    · cases hbase : (t.info id).base with
      | none => simp [hbase] at hmem
      | some base =>
        rw [hbase] at hmem
        exact ih (h.base_lt id base hbase) other hmem

/-- A chain is no longer than the table. -/
theorem WellFormed.rank_lt (h : t.WellFormed) (hid : id < t.size) (hrank : t.Rank n id) :
    n < t.size := by
  have hsub : t.chain (n + 1) id ⊆ List.range t.size := by
    intro other hmem
    exact List.mem_range.mpr (h.chain_lt hid _ other hmem)
  have hle := ((hrank.nodup_chain h.root (n + 1)).subperm hsub).length_le
  rw [List.length_range] at hle
  exact Nat.lt_of_lt_of_le hrank.length_chain hle

theorem Rank.object_mem_chain (h : t.Rank n id) {count : Nat} (hlt : n < count) :
    object ∈ t.chain count id := by
  induction h generalizing count with
  | root =>
    cases count with
    | zero => cases hlt
    | succ count =>
      rw [chain_succ]
      exact List.mem_cons_self
  | derived hbase _ ih =>
    cases count with
    | zero => cases hlt
    | succ count =>
      rw [chain_succ, hbase]
      exact List.mem_cons_of_mem _ (ih (Nat.lt_of_succ_lt_succ hlt))

/-- A value of any type can be stored where the root type is expected. -/
theorem WellFormed.isAssignable_object (h : t.WellFormed) (hid : id < t.size) :
    t.isAssignable object id = true := by
  obtain ⟨n, hrank⟩ := h.ranked id hid
  have hmem : object ∈ t.ancestry id := hrank.object_mem_chain (h.rank_lt hid hrank)
  have hdistance : (t.distance object id).isSome = true := by
    rw [distance, List.findIdx?_isSome, List.any_eq_true]
    exact ⟨object, hmem, beq_self_eq_true _⟩
  unfold isAssignable
  cases t.size <;> simp [assignableWithin, hdistance]

/-- Any type meets the root type in a copy. -/
theorem WellFormed.isCompatible_object (h : t.WellFormed) (hid : id < t.size) :
    t.isCompatible id object = true := by
  unfold isCompatible
  split
  next => simp [h.reference]
  next =>
    rw [if_neg (by decide)]
    simp [h.isAssignable_object hid]

/-! ## Entering types

A new type stands at the end of the table, and no type has it as a base. So the chains of the
others are as before, and its own goes on with that of its base. -/

theorem info_of_le (h : t.size ≤ id) : t.info id = default := by
  rw [info, Array.getD_eq_getD_getElem?, Array.getElem?_eq_none h]
  rfl

theorem info_insert (t : TypeTable) (info : TypeInfo) (id : TypeId) :
    (t.insert info).2.info id = if id = t.size then info else t.info id := by
  simp only [insert, TypeTable.info, size, Array.getD_eq_getD_getElem?, Array.getElem?_push]
  split <;> rfl

theorem info_insert_of_lt (t : TypeTable) (info : TypeInfo) (hid : id < t.size) :
    (t.insert info).2.info id = t.info id := by
  rw [info_insert, if_neg (Nat.ne_of_lt hid)]

theorem info_insert_size (t : TypeTable) (info : TypeInfo) :
    (t.insert info).2.info t.size = info := by
  rw [info_insert, if_pos rfl]

theorem size_insert (t : TypeTable) (info : TypeInfo) : (t.insert info).2.size = t.size + 1 := by
  simp [insert, size]

/-- A new type is found under its name, and under its short name where that is free. -/
theorem lookup_insert (t : TypeTable) (info : TypeInfo) (name : String) :
    (t.insert info).2.lookup name =
      if name = info.name ∨ name = info.shortName ∧ t.lookup name = none then some t.size
      else t.lookup name := by
  simp only [insert, lookup, OrderedMap.get?_putNew, OrderedMap.get?_put]
  by_cases hname : name = info.name
  · simp [hname]
  · by_cases hshort : name = info.shortName
    · subst hshort
      simp [hname]
    · simp [hname, hshort]

theorem Rank.congr (h : t.Rank n id)
    (hsame : ∀ count, ∀ other ∈ t.chain count id, (t'.info other).base = (t.info other).base) :
    t'.Rank n id := by
  induction h with
  | root => exact .root
  | @derived n id base hbase _ ih =>
    have hid := hsame 1 id (by rw [chain_succ]; exact List.mem_cons_self)
    refine .derived (hid.trans hbase) (ih fun count other hmem => ?_)
    refine hsame (count + 1) other ?_
    rw [chain_succ, hbase]
    exact List.mem_cons_of_mem _ hmem

/-- A table that gets a type under a new name loses none. -/
theorem Extends.insert (info : TypeInfo) (hfree : t.lookup info.name = none) :
    t.Extends (t.insert info).2 where
  lookup name id hid := by
    rw [lookup_insert, if_neg]
    · exact hid
    · rintro (rfl | ⟨-, hnone⟩)
      · rw [hfree] at hid
        cases hid
      · rw [hnone] at hid
        cases hid
  size_le := by
    rw [size_insert]
    exact Nat.le_succ _
  name id hid := by rw [TypeTable.name, info_insert_of_lt t info hid, TypeTable.name]

/-- The chain of bases of a new type goes on with that of its base, and the others are as before. -/
theorem WellFormed.ranked_insert (h : t.WellFormed) (info : TypeInfo)
    (hbase : info.base = some base) (hlt : base < t.size) :
    ∀ id < (t.insert info).2.size, ∃ n, (t.insert info).2.Rank n id := by
  have hold : ∀ id < t.size, ∃ n, (t.insert info).2.Rank n id := by
    intro id hid
    obtain ⟨n, hrank⟩ := h.ranked id hid
    refine ⟨n, hrank.congr fun count other hmem => ?_⟩
    rw [info_insert_of_lt t info (h.chain_lt hid count other hmem)]
  intro id hid
  rw [size_insert] at hid
  rcases Nat.lt_succ_iff_lt_or_eq.mp hid with hid | rfl
  · exact hold id hid
  · obtain ⟨n, hrank⟩ := hold base hlt
    exact ⟨n + 1, .derived (by rw [info_insert_size, hbase]) hrank⟩

/-- Entering a type under a free name, with a base, keeps a table well formed. -/
theorem WellFormed.insert (h : t.WellFormed) (info : TypeInfo)
    (hfree : t.lookup info.name = none) (hbase : info.base = some base) (hlt : base < t.size) :
    (t.insert info).2.WellFormed ∧ t.Extends (t.insert info).2 ∧
      (t.insert info).1 < (t.insert info).2.size := by
  have hpos : object < t.size := Nat.lt_of_le_of_lt (Nat.zero_le _) hlt
  refine ⟨{ lookup_lt := fun name id hid => ?lookup_lt, base_lt := fun id base' hid => ?base_lt,
            root := ?root, reference := ?reference, ranked := h.ranked_insert info hbase hlt },
    .insert info hfree, by rw [size_insert]; exact Nat.lt_succ_self _⟩
  case lookup_lt =>
    rw [lookup_insert] at hid
    rw [size_insert]
    split at hid
    next =>
      rw [← Option.some.inj hid]
      exact Nat.lt_succ_self _
    next => exact Nat.lt_succ_of_lt (h.lookup_lt name id hid)
  case base_lt =>
    rw [size_insert]
    refine Nat.lt_succ_of_lt ?_
    rw [info_insert] at hid
    split at hid
    next =>
      rw [hbase] at hid
      rwa [← Option.some.inj hid]
    next => exact h.base_lt id base' hid
  case root =>
    rw [info_insert_of_lt t info hpos]
    exact h.root
  case reference =>
    rw [info_insert_of_lt t info hpos]
    exact h.reference

/-- A table that knows the types which others derive from. -/
structure Complete (t : TypeTable) : Prop where
  wellFormed : t.WellFormed
  array : ∃ id, t.lookup arrayName = some id
  valueType : ∃ id, t.lookup valueTypeName = some id

theorem Complete.extends (h : t.Complete) (hwell : t'.WellFormed) (hext : t.Extends t') :
    t'.Complete := by
  obtain ⟨array, harray⟩ := h.array
  obtain ⟨valueType, hvalueType⟩ := h.valueType
  exact ⟨hwell, ⟨array, hext.lookup _ _ harray⟩, ⟨valueType, hext.lookup _ _ hvalueType⟩⟩

theorem Complete.pos (h : t.Complete) : object < t.size := by
  obtain ⟨id, hid⟩ := h.array
  exact Nat.lt_of_le_of_lt (Nat.zero_le _) (h.wellFormed.lookup_lt _ _ hid)

theorem Complete.arrayOf (h : t.Complete) (element : TypeId) :
    (t.arrayOf element).2.Complete ∧ t.Extends (t.arrayOf element).2 ∧
      (t.arrayOf element).1 < (t.arrayOf element).2.size := by
  unfold TypeTable.arrayOf
  dsimp only
  cases hlookup : t.lookup ((t.info element).name ++ "Array") with
  | some id => exact ⟨h, .refl _, h.wellFormed.lookup_lt _ _ hlookup⟩
  | none =>
    obtain ⟨array, harray⟩ := h.array
    obtain ⟨hwell, hext, hlt⟩ := h.wellFormed.insert
      ⟨(t.info element).name ++ "Array", (t.info element).shortName ++ "Array",
        t.lookup arrayName, false, some element⟩
      hlookup harray (h.wellFormed.lookup_lt _ _ harray)
    exact ⟨h.extends hwell hext, hext, hlt⟩

theorem Complete.declare (h : t.Complete) (name shortName : String) (valueType : Bool) :
    (t.declare name shortName valueType).2.Complete ∧
      t.Extends (t.declare name shortName valueType).2 ∧
      (t.declare name shortName valueType).1 < (t.declare name shortName valueType).2.size := by
  unfold TypeTable.declare
  cases hlookup : t.lookup name with
  | some id => exact ⟨h, .refl _, h.wellFormed.lookup_lt _ _ hlookup⟩
  | none =>
    obtain ⟨base, hvalueType⟩ := h.valueType
    have hbase : ∃ base, (if valueType then t.lookup valueTypeName else some object) = some base ∧
        base < t.size := by
      cases valueType with
      | true => exact ⟨base, hvalueType, h.wellFormed.lookup_lt _ _ hvalueType⟩
      | false => exact ⟨object, rfl, h.pos⟩
    obtain ⟨base, hbase, hlt⟩ := hbase
    obtain ⟨hwell, hext, hsize⟩ := h.wellFormed.insert
      ⟨name, shortName, if valueType then t.lookup valueTypeName else some object, valueType, none⟩
      hlookup hbase hlt
    exact ⟨h.extends hwell hext, hext, hsize⟩

/-- A type that is found by name stands under the name, or it is the array of an element that is
found by a name. -/
@[elab_as_elim]
theorem resolveWithin_induction {motive : String → TypeId → TypeTable → Prop}
    (found : ∀ {name id}, t.lookup name = some id → motive name id t)
    (array : ∀ {length stem element t₁ name id t'},
      t.resolveWithin length stem = some (element, t₁) → motive stem element t₁ →
      t₁.arrayOf element = (id, t') → motive name id t')
    {length : Nat} {name : String} (h : t.resolveWithin length name = some (id, t')) :
    motive name id t' := by
  induction length generalizing name id t' with
  | zero =>
    obtain ⟨_, hlookup, hpair⟩ := Option.map_eq_some_iff.mp h
    obtain ⟨rfl, rfl⟩ := Prod.mk.inj hpair
    exact found hlookup
  | succ length ih =>
    unfold TypeTable.resolveWithin at h
    cases hlookup : t.lookup name with
    | some _ =>
      rw [hlookup] at h
      obtain ⟨rfl, rfl⟩ := Prod.mk.inj (Option.some.inj h)
      exact found hlookup
    | none =>
      rw [hlookup] at h
      obtain ⟨stem, -, h⟩ := Option.bind_eq_some_iff.mp h
      obtain ⟨⟨element, t₁⟩, helement, h⟩ := Option.bind_eq_some_iff.mp h
      exact array helement (ih helement) (Option.some.inj h)

theorem Complete.resolveWithin (h : t.Complete) {length : Nat} {name : String}
    (hresolve : t.resolveWithin length name = some (id, t')) :
    t'.Complete ∧ t.Extends t' ∧ id < t'.size := by
  refine resolveWithin_induction ?_ ?_ hresolve
  · intro name id hlookup
    exact ⟨h, .refl _, h.wellFormed.lookup_lt _ _ hlookup⟩
  · rintro _ _ element t₁ _ id t' - ⟨h₁, hext₁, -⟩ harray
    obtain ⟨h₂, hext₂, hlt⟩ := h₁.arrayOf element
    rw [harray] at h₂ hext₂ hlt
    exact ⟨h₂, hext₁.trans hext₂, hlt⟩

/-! ## Setting bases

A base is only set where no circle comes of it. Then the chain of the new base does not meet the
type, and the ranks change only for the type and those derived from it. -/

/-- A chain that does not meet a type does not notice a change of its base. -/
theorem Rank.avoiding (h : t.Rank n id) {other : TypeId} {count : Nat} (hlt : n < count)
    (havoids : other ∉ t.chain count id)
    (hsame : ∀ id ≠ other, (t'.info id).base = (t.info id).base) : t'.Rank n id := by
  induction h generalizing count with
  | root => exact .root
  | derived hbase _ ih =>
    cases count with
    | zero => cases hlt
    | succ count =>
      rw [chain_succ, hbase, List.mem_cons, not_or] at havoids
      obtain ⟨hne, hrest⟩ := havoids
      exact .derived ((hsame _ (Ne.symm hne)).trans hbase) (ih (Nat.lt_of_succ_lt_succ hlt) hrest)

theorem not_mem_ancestry {other : TypeId} (h : t.isAssignable other id = false) :
    other ∉ t.ancestry id := by
  intro hmem
  have hdistance : (t.distance other id).isSome = true := by
    rw [distance, List.findIdx?_isSome, List.any_eq_true]
    exact ⟨other, hmem, beq_self_eq_true _⟩
  unfold isAssignable at h
  cases hsize : t.size <;> simp [hsize, assignableWithin, hdistance] at h

theorem Complete.setBase (h : t.Complete) (id : TypeId) (hbase : base < t.size) :
    (t.setBase id base).Complete ∧ t.Extends (t.setBase id base) := by
  unfold TypeTable.setBase
  split
  next hset =>
    obtain ⟨hobject, hassignable⟩ : id ≠ object ∧ t.isAssignable id base = false := by
      simpa using hset
    let t' : TypeTable :=
      { t with types := t.types.modify id fun info => { info with base := some base } }
    have hinfo : ∀ other, t'.info other =
        if id = other ∧ other < t.size then { t.info other with base := some base }
        else t.info other := by
      intro other
      simp only [t', TypeTable.info, Array.getD_eq_getD_getElem?, Array.getElem?_modify, size]
      by_cases hid : id = other
      · subst hid
        rcases Nat.lt_or_ge id t.types.size with hlt | hge
        · simp [hlt]
        · simp [Nat.not_lt.mpr hge]
      · simp [hid]
    have hsize : t'.size = t.size := by simp [t', size]
    have hother : ∀ other ≠ id, t'.info other = t.info other := by
      intro other hne
      rw [hinfo, if_neg fun h => hne h.1.symm]
    have hext : t.Extends t' := by
      refine ⟨fun _ _ hid => hid, Nat.le_of_eq hsize.symm, fun other _ => ?_⟩
      rw [TypeTable.name, hinfo, TypeTable.name]
      split <;> rfl
    obtain ⟨m, hrank⟩ := h.wellFormed.ranked base hbase
    have hbaseRank : t'.Rank m base :=
      hrank.avoiding (h.wellFormed.rank_lt hbase hrank) (not_mem_ancestry hassignable)
        fun other hne => by rw [hother other hne]
    refine ⟨h.extends ⟨?_, ?_, ?_, ?_, ?_⟩ hext, hext⟩
    · intro name other hlookup
      rw [hsize]
      exact h.wellFormed.lookup_lt name other hlookup
    · intro other base' hother
      rw [hsize]
      rw [hinfo] at hother
      split at hother
      · rwa [← Option.some.inj hother]
      · exact h.wellFormed.base_lt other base' hother
    · rw [hother object (Ne.symm hobject)]
      exact h.wellFormed.root
    · rw [hother object (Ne.symm hobject)]
      exact h.wellFormed.reference
    · intro other hlt
      rw [hsize] at hlt
      obtain ⟨n, hrank⟩ := h.wellFormed.ranked other hlt
      clear hlt
      -- Up to the type with the new base nothing has changed.
      induction hrank with
      | root => exact ⟨0, .root⟩
      | @derived n other base' hbase' _ ih =>
        obtain ⟨k, hk⟩ := ih
        by_cases hid : id = other ∧ other < t.size
        · exact ⟨m + 1, .derived (by rw [hinfo, if_pos hid]) hbaseRank⟩
        · exact ⟨k + 1, .derived (by rw [hinfo, if_neg hid, hbase']) hk⟩
  next => exact ⟨h, .refl _⟩

/-! ## The initial table

The built-in types are entered one after the other. That they all derive from the root is
evaluated. -/

theorem Rank.of_object_mem_chain {count : Nat} (h : object ∈ t.chain count id) :
    ∃ n, t.Rank n id := by
  induction count generalizing id with
  | zero => cases h
  | succ count ih =>
    rw [chain_succ] at h
    rcases List.mem_cons.mp h with rfl | h
    · exact ⟨0, .root⟩
    · cases hbase : (t.info id).base with
      | none => simp [hbase] at h
      | some base =>
        rw [hbase] at h
        obtain ⟨n, hrank⟩ := ih h
        exact ⟨n + 1, .derived hbase hrank⟩

theorem complete_initial : initial.Complete := by
  obtain ⟨hlookup, hbase, hchain, hroot, hreference, harray, hvalueType⟩ :
      (∀ entry ∈ initial.byName.entries, entry.2 < initial.size) ∧
      (∀ info ∈ initial.types.toList, ∀ base ∈ info.base, base < initial.size) ∧
      (∀ id < initial.size, object ∈ initial.ancestry id) ∧
      (initial.info object).base = none ∧ (initial.info object).valueType = false ∧
      initial.lookup arrayName = some 3 ∧ initial.lookup valueTypeName = some 1 := by
    decide +kernel
  refine ⟨⟨?_, ?_, hroot, hreference, ?_⟩, ⟨3, harray⟩, ⟨1, hvalueType⟩⟩
  · intro name id h
    exact hlookup (name, id) (OrderedMap.mem_entries_of_get? h)
  · intro id base h
    have hmem : initial.info id ∈ initial.types.toList := by
      rw [info, Array.getD_eq_getD_getElem?] at h ⊢
      cases hget : initial.types[id]? with
      | none =>
        rw [hget] at h
        cases h
      | some info =>
        exact Array.mem_toList_iff.mpr (Array.mem_of_getElem? hget)
    exact hbase _ hmem base h
  · intro id hid
    exact Rank.of_object_mem_chain (hchain id hid)

end SexprAsm.TypeTable
