import SexprAsm.Proofs.TypeTable

/-!
# Walks over bases and elements

A table is searched by bounded walks: `distance` and `commonAncestor` follow the bases of a type,
`isAssignable` also goes down to the elements of arrays. Beside them stand the relations that they
decide, which know no bound: `Above` counts base steps, and `Assignable` is the rule by which a
value of one type may be stored as another. In a table in which every type derives from the root and
elements come before their arrays no walk is cut short (`WellFormed.distance_eq_some_iff`,
`WellFormed.isAssignable_iff`, `WellFormed.exists_commonAncestor`).
-/

namespace SexprAsm.TypeTable

variable {t t' : TypeTable} {id base top a b c : TypeId} {n m : Nat}

/-- A number of base steps leads from a type up to another. -/
inductive Above (t : TypeTable) : Nat → TypeId → TypeId → Prop where
  | self (id : TypeId) : Above t 0 id id
  | step {n : Nat} {top id base : TypeId} (hbase : (t.info id).base = some base)
      (h : Above t n top base) : Above t (n + 1) top id

/-- A value of the second type can be stored where the first is expected. -/
inductive Assignable (t : TypeTable) : TypeId → TypeId → Prop where
  | above {n : Nat} {target source : TypeId} (h : t.Above n target source) :
      Assignable t target source
  | element {target source targetElement sourceElement : TypeId}
      (htarget : (t.info target).element = some targetElement)
      (hsource : (t.info source).element = some sourceElement)
      (href : (t.info sourceElement).valueType = false)
      (h : Assignable t targetElement sourceElement) : Assignable t target source

/-! ## Base steps -/

theorem Above.trans (h : t.Above n a b) (h' : t.Above m b c) : t.Above (n + m) a c := by
  induction h' with
  | self => exact h
  | step hbase _ ih => exact .step hbase (ih h)

/-- Every base step takes one off the rank. -/
theorem Above.rank (hroot : (t.info object).base = none) (h : t.Above n top id) {r : Nat}
    (hrank : t.Rank r id) : ∃ s, t.Rank s top ∧ r = s + n := by
  induction h generalizing r with
  | self => exact ⟨r, hrank, rfl⟩
  | step hbase _ ih =>
    cases hrank with
    | root =>
      rw [hroot] at hbase
      cases hbase
    | derived hbase' hrank =>
      obtain rfl := Option.some.inj (hbase.symm.trans hbase')
      obtain ⟨s, hs, rfl⟩ := ih hrank
      exact ⟨s, hs, by omega⟩

/-- Two types that are above each other are the same. -/
theorem WellFormed.above_antisymm (h : t.WellFormed) (hb : b < t.size) (hab : t.Above n a b)
    (hba : t.Above m b a) : n = 0 ∧ a = b := by
  obtain ⟨r, hrank⟩ := h.ranked b hb
  obtain ⟨s, hrank', hs⟩ := hab.rank h.root hrank
  obtain ⟨r', hrank'', hr'⟩ := hba.rank h.root hrank'
  obtain rfl := Rank.unique h.root hrank hrank''
  obtain rfl : n = 0 := by omega
  cases hab
  exact ⟨rfl, rfl⟩

theorem getElem?_chain (t : TypeTable) (count : Nat) (id : TypeId) (n : Nat) :
    (t.chain count id)[n]? = some top ↔ n < count ∧ t.Above n top id := by
  induction count generalizing n id with
  | zero => simp [chain]
  | succ count ih =>
    rw [chain_succ]
    cases n with
    | zero =>
      rw [List.getElem?_cons_zero]
      constructor
      · intro hid
        obtain rfl := Option.some.inj hid
        exact ⟨Nat.succ_pos _, .self _⟩
      · rintro ⟨-, ⟨⟩⟩
        rfl
    | succ n =>
      rw [List.getElem?_cons_succ]
      constructor
      · intro hget
        cases hbase : (t.info id).base with
        | none => simp [hbase] at hget
        | some base =>
          rw [hbase] at hget
          obtain ⟨hn, habove⟩ := (ih base n).mp hget
          exact ⟨Nat.succ_lt_succ hn, .step hbase habove⟩
      · rintro ⟨hn, habove⟩
        cases habove with
        | step hbase habove =>
          rw [hbase]
          exact (ih _ n).mpr ⟨Nat.lt_of_succ_lt_succ hn, habove⟩

/-- A type and its bases are all that is above it. -/
theorem WellFormed.getElem?_ancestry (h : t.WellFormed) (hid : id < t.size) (n : Nat) :
    (t.ancestry id)[n]? = some top ↔ t.Above n top id := by
  refine (getElem?_chain t t.size id n).trans (and_iff_right_of_imp fun habove => ?_)
  obtain ⟨r, hrank⟩ := h.ranked id hid
  obtain ⟨s, -, hs⟩ := habove.rank h.root hrank
  have := h.rank_lt hid hrank
  omega

theorem WellFormed.nodup_ancestry (h : t.WellFormed) (hid : id < t.size) :
    (t.ancestry id).Nodup := by
  obtain ⟨r, hrank⟩ := h.ranked id hid
  exact hrank.nodup_chain h.root t.size

/-- The distance counts the base steps between two types. -/
theorem WellFormed.distance_eq_some_iff (h : t.WellFormed) (hid : id < t.size) :
    t.distance top id = some n ↔ t.Above n top id := by
  rw [← h.getElem?_ancestry hid, distance, List.findIdx?_eq_some_iff_getElem]
  constructor
  · rintro ⟨hn, hget, -⟩
    rw [List.getElem?_eq_getElem hn, beq_iff_eq.mp hget]
  · intro hget
    obtain ⟨hn, hget⟩ := List.getElem?_eq_some_iff.mp hget
    refine ⟨hn, beq_iff_eq.mpr hget, fun m hm hsame => ?_⟩
    have hsame := beq_iff_eq.mp hsame
    have := (h.nodup_ancestry hid).getElem_inj_iff.mp (hsame.trans hget.symm)
    omega

theorem WellFormed.distance_isSome_iff (h : t.WellFormed) (hid : id < t.size) :
    (t.distance top id).isSome = true ↔ ∃ n, t.Above n top id := by
  simp only [Option.isSome_iff_exists, h.distance_eq_some_iff hid]

/-! ## Assignability -/

/-- Elements are entered before their arrays. -/
def ElementsFirst (t : TypeTable) : Prop :=
  ∀ id element, (t.info id).element = some element → element < id

theorem WellFormed.assignable_of_distance (h : t.WellFormed) {target source : TypeId}
    (hsource : source < t.size) (hsome : (t.distance target source).isSome = true) :
    t.Assignable target source := by
  obtain ⟨n, habove⟩ := (h.distance_isSome_iff hsource).mp hsome
  exact .above habove

/-- Looking as many levels down as the number of the source is enough: every level down has a
smaller number. -/
theorem WellFormed.assignableWithin_iff (h : t.WellFormed) (helements : t.ElementsFirst)
    {depth : Nat} {target source : TypeId} (hsource : source < t.size) (hdepth : source ≤ depth) :
    t.assignableWithin depth target source = true ↔ t.Assignable target source := by
  induction depth generalizing target source with
  | zero =>
    rw [assignableWithin, Bool.or_eq_true, beq_iff_eq]
    constructor
    · rintro (rfl | hsome)
      · exact .above (.self _)
      · exact h.assignable_of_distance hsource hsome
    · intro hassignable
      cases hassignable with
      | above habove => exact Or.inr ((h.distance_isSome_iff hsource).mpr ⟨_, habove⟩)
      | element _ hse =>
        have hlt := Nat.lt_of_lt_of_le (helements _ _ hse) hdepth
        exact absurd hlt (Nat.not_lt_zero _)
  | succ depth ih =>
    -- Elements have smaller numbers, so the depth that is left is enough for them.
    have hbelow {te se : TypeId} (hse : (t.info source).element = some se) :
        t.assignableWithin depth te se = true ↔ t.Assignable te se := by
      have hlt := helements source se hse
      exact ih (Nat.lt_trans hlt hsource) (Nat.le_of_lt_succ (Nat.lt_of_lt_of_le hlt hdepth))
    rw [assignableWithin, Bool.or_eq_true, Bool.or_eq_true, beq_iff_eq]
    constructor
    · rintro ((rfl | helement) | hsome)
      · exact .above (.self _)
      · split at helement
        next te se hte hse =>
          rw [Bool.and_eq_true, Bool.not_eq_true', hbelow hse] at helement
          exact .element hte hse helement.1 helement.2
        next => cases helement
      · exact h.assignable_of_distance hsource hsome
    · intro hassignable
      cases hassignable with
      | above habove => exact Or.inr ((h.distance_isSome_iff hsource).mpr ⟨_, habove⟩)
      | element hte hse href hrest =>
        refine Or.inl (Or.inr ?_)
        simp only [hte, hse, Bool.and_eq_true, Bool.not_eq_true', hbelow hse]
        exact ⟨href, hrest⟩

/-- The check of assignability decides the relation. -/
theorem WellFormed.isAssignable_iff (h : t.WellFormed) (helements : t.ElementsFirst)
    {target source : TypeId} (hsource : source < t.size) :
    t.isAssignable target source = true ↔ t.Assignable target source :=
  h.assignableWithin_iff helements hsource (Nat.le_of_lt hsource)

/-- All of the types in a list are assignable to a type. -/
def Covers (t : TypeTable) (a : TypeId) (rest : List TypeId) : Prop :=
  ∀ other ∈ rest, t.Assignable a other

theorem WellFormed.all_isAssignable_iff (h : t.WellFormed) (helements : t.ElementsFirst)
    {rest : List TypeId} (hrest : ∀ other ∈ rest, other < t.size) :
    rest.all (t.isAssignable a ·) = true ↔ t.Covers a rest := by
  rw [List.all_eq_true]
  exact forall₂_congr fun other hother => h.isAssignable_iff helements (hrest other hother)

/-- Types of the table have a common ancestor: the nearest base of the first that covers the
others. -/
theorem WellFormed.exists_commonAncestor (h : t.WellFormed) (helements : t.ElementsFirst)
    {first : TypeId} {rest : List TypeId} (hfirst : first < t.size)
    (hrest : ∀ other ∈ rest, other < t.size) :
    ∃ a n, t.commonAncestor (first :: rest) = some a ∧ t.Above n a first ∧ t.Covers a rest ∧
      ∀ m < n, ∀ b, t.Above m b first → ¬ t.Covers b rest := by
  obtain ⟨r, hrank⟩ := h.ranked first hfirst
  have hmem : object ∈ t.ancestry first := hrank.object_mem_chain (h.rank_lt hfirst hrank)
  have hobject : rest.all (t.isAssignable object ·) = true :=
    List.all_eq_true.mpr fun other hother => h.isAssignable_object (hrest other hother)
  have hsome : (t.commonAncestor (first :: rest)).isSome = true :=
    List.find?_isSome.mpr ⟨object, hmem, hobject⟩
  obtain ⟨a, ha⟩ := Option.isSome_iff_exists.mp hsome
  obtain ⟨hcovers, n, hn, hget, hbefore⟩ := List.find?_eq_some_iff_getElem.mp ha
  refine ⟨a, n, ha, ?_, (h.all_isAssignable_iff helements hrest).mp hcovers, ?_⟩
  · exact (h.getElem?_ancestry hfirst n).mp (List.getElem?_eq_some_iff.mpr ⟨hn, hget⟩)
  · intro m hm b hb hcovers
    obtain ⟨hlt, hb⟩ := List.getElem?_eq_some_iff.mp ((h.getElem?_ancestry hfirst m).mpr hb)
    have hnot := hbefore m hm
    rw [hb, (h.all_isAssignable_iff helements hrest).mpr hcovers] at hnot
    cases hnot

end SexprAsm.TypeTable
