import SexprAsm.Proofs.MadeOf
import SexprAsm.Proofs.TypeTable.Order
import SexprAsm.Resolution

/-!
# The common ancestor of types

The type of a conditional is the common ancestor of the types of its branches: the first type in the
chain of bases of the first branch to which all the others are assignable. In a table whose types
were only entered, and whose bases have not been set, this is the least upper bound of the types
unless all of them are arrays of references. A reference may stand for the elements of several
arrays at once, and the array of these is no base of any of them, so that the search over bases
passes it by: it finds one of the arrays only if this comes first, and the type of all arrays
otherwise (`TypeTable.commonAncestor_least`).
-/

namespace SexprAsm

namespace TypeTable

variable {t t' : TypeTable} {id base a b c u : TypeId} {n k : Nat} {types : List TypeId}

/-! ## Upper bounds

A common ancestor is an order-theoretic notion of the table: an upper bound of some types, and the
least one. -/

/-- All of the types are assignable to a type. -/
def UpperBound (t : TypeTable) (types : List TypeId) (a : TypeId) : Prop :=
  ∀ id ∈ types, t.isAssignable a id = true

/-- An upper bound that is assignable to every other one. -/
def LeastUpperBound (t : TypeTable) (types : List TypeId) (a : TypeId) : Prop :=
  t.UpperBound types a ∧ ∀ u < t.size, t.UpperBound types u → t.isAssignable u a = true

instance UpperBound.decidable (t : TypeTable) (types : List TypeId) (a : TypeId) :
    Decidable (t.UpperBound types a) :=
  inferInstanceAs (Decidable (∀ id ∈ types, t.isAssignable a id = true))

/-- The type is an array whose elements are references. -/
def holdsReferences (t : TypeTable) (id : TypeId) : Bool :=
  (t.info id).element.any fun element => !(t.info element).valueType

theorem holdsReferences_iff : t.holdsReferences id = true ↔
    ∃ element, (t.info id).element = some element ∧ (t.info element).valueType = false := by
  rw [holdsReferences, Option.any_eq_true]
  simp only [Bool.not_eq_true']

/-! ## Value types

In tables to which types were only entered, value types are at the end: nothing derives from one,
and no array is one. So no reference is assignable to a value type, and a value only to bases of its
type, which is what the search follows. -/

/-- Arrays are references. -/
def ArraysRefer (t : TypeTable) : Prop :=
  ∀ id element, (t.info id).element = some element → (t.info id).valueType = false

theorem ArraysRefer.insert (h : t.ArraysRefer) {info : TypeInfo}
    (hinfo : info.element.isSome = true → info.valueType = false) :
    (t.insert info).2.ArraysRefer := by
  intro id element helement
  rw [info_insert] at helement ⊢
  split at helement
  next hid =>
    rw [if_pos hid]
    exact hinfo (by rw [helement]; rfl)
  next hid =>
    rw [if_neg hid]
    exact h id element helement

theorem ArraysRefer.arrayOf (h : t.ArraysRefer) (element : TypeId) :
    (t.arrayOf element).2.ArraysRefer := by
  unfold TypeTable.arrayOf
  dsimp only
  split
  · exact h
  · exact h.insert fun _ => rfl

theorem ArraysRefer.resolveWithin (h : t.ArraysRefer) {length : Nat} {name : String}
    (hresolve : t.resolveWithin length name = some (id, t')) : t'.ArraysRefer := by
  refine resolveWithin_induction (fun _ => h) ?_ hresolve
  intro _ _ element t₁ _ id t' _ ih harray
  have hlater := ih.arrayOf element
  rwa [harray] at hlater

theorem ArraysRefer.after (h : t.ArraysRefer) {request : Request} (hentry : request.IsEntry t) :
    (request.after t).ArraysRefer := by
  cases request with
  | setBase id base => exact hentry.elim
  | arrayOf element => exact h.arrayOf element
  | declare name shortName valueType =>
    show (t.declare name shortName valueType).2.ArraysRefer
    unfold declare
    split
    · exact h
    · exact h.insert fun hsome => by cases hsome
  | resolve name =>
    show ((t.resolve name).elim t Prod.snd).ArraysRefer
    cases hresolve : t.resolve name with
    | none => exact h
    | some found => exact h.resolveWithin hresolve

/-- The value types of a table to which types were only entered: no array is one, and no type
derives from one. -/
structure ValuesLast (t : TypeTable) : Prop where
  array : t.ArraysRefer
  base : ∀ id base, (t.info id).base = some base → (t.info base).valueType = false

/-- What the initial table knows of value types and of the array of objects, evaluated once. -/
theorem initial_values :
    (∀ id < initial.size, (initial.info id).element.isSome = true →
      (initial.info id).valueType = false) ∧
    (∀ id < initial.size, ∀ base ∈ (initial.info id).base,
      (initial.info base).valueType = false) ∧
    (∀ id ≤ 3, (initial.info id).valueType = false) ∧
    ∃ id < initial.size, (initial.info id).element = some object := by
  decide +kernel

theorem Grows.base_reference (hgrows : initial.Grows t) :
    ∀ id base, (t.info id).base = some base → (t.info base).valueType = false := by
  induction hgrows with
  | refl =>
    intro id base hbase
    rcases Nat.lt_or_ge id initial.size with hlt | hge
    · exact initial_values.2.1 id hlt base hbase
    · rw [info_of_le hge] at hbase
      cases hbase
  | @enter t info hgrows henters ih =>
    obtain ⟨hsound, -, hsame⟩ := hgrows.sound sound_initial
    intro id base hbase
    rw [info_insert] at hbase
    split at hbase
    next =>
      -- A new type derives from one of the first four, which are references.
      obtain ⟨builtin, hbuiltin, hinfo, hlt⟩ := hsound.enters_base henters
      obtain rfl := Option.some.inj (hinfo.symm.trans hbase)
      have hinitial : builtin < initial.size := Nat.lt_of_le_of_lt hbuiltin (by decide +kernel)
      rw [info_insert_of_lt t info hlt, hsame _ hinitial]
      exact initial_values.2.2.1 _ hbuiltin
    next =>
      rw [info_insert_of_lt t info (hsound.wellFormed.base_lt id base hbase)]
      exact ih id base hbase

theorem Leads.valuesLast (hleads : Leads Request.IsEntry initial t) : t.ValuesLast := by
  refine ⟨?_, (hleads.grows sound_initial).base_reference⟩
  induction hleads with
  | refl =>
    intro id element helement
    exact initial_values.1 id (lt_size_of_element helement) (by rw [helement]; rfl)
  | step _ request hentry ih => exact ih.after hentry

/-- A type above another one is a base. -/
theorem Above.exists_derived (habove : t.Above (n + 1) a b) :
    ∃ derived, (t.info derived).base = some a := by
  induction n generalizing b with
  | zero =>
    cases habove with
    | step hbase habove =>
      cases habove
      exact ⟨b, hbase⟩
  | succ n ih =>
    cases habove with
    | step _ habove => exact ih habove

/-- No reference is assignable to a value type. -/
theorem ValuesLast.reference (h : t.ValuesLast) (hassignable : t.Assignable a b)
    (hb : (t.info b).valueType = false) : (t.info a).valueType = false := by
  cases hassignable with
  | @above n _ _ habove =>
    cases n with
    | zero =>
      cases habove
      exact hb
    | succ n =>
      obtain ⟨derived, hbase⟩ := habove.exists_derived
      exact h.base derived a hbase
  | element ha _ _ _ => exact h.array a _ ha

/-! ## The nearest base that covers the others

The search goes up from the first type and takes the first base that is an upper bound. An upper
bound need not be a base of the first type, since an array of references is assignable to the
array of objects without deriving from it. This is the only way for the search to miss the least
one. -/

/-- Of two types above a third, the one that is more steps away is above the other. -/
theorem Above.of_above (h : t.Above n a b) (h' : t.Above (n + k) c b) : t.Above k c a := by
  induction h with
  | self => rwa [Nat.zero_add] at h'
  | @step n _ _ _ hbase _ ih =>
    rw [Nat.add_right_comm] at h'
    cases h' with
    | step hbase' habove =>
      obtain rfl := Option.some.inj (hbase.symm.trans hbase')
      exact ih habove

section

variable {first : TypeId} {rest : List TypeId}

/-- A type some steps up from the first one, and the nearest of its bases that covers the others. -/
structure NearestCover (t : TypeTable) (first : TypeId) (rest : List TypeId) (n : Nat)
    (a : TypeId) : Prop where
  above : t.Above n a first
  covers : t.Covers a rest
  nearest : ∀ m < n, ∀ b, t.Above m b first → ¬ t.Covers b rest

/-- Among the bases of the first type, the nearest one that covers the others is the least. -/
theorem NearestCover.assignable (hc : t.NearestCover first rest n a) {m : Nat}
    (hu : t.Above m u first) (hcovers : t.Covers u rest) : t.Assignable u a := by
  have hle : n ≤ m := Nat.le_of_not_lt fun hlt => hc.nearest m hlt u hu hcovers
  obtain ⟨k, rfl⟩ := Nat.exists_eq_add_of_le hle
  exact .above (hc.above.of_above hu)

/-- Where one of the types is no array of references, an upper bound of them all is a base of the
first. -/
theorem Layered.above_of_bound (h : t.Layered) (hvalues : t.ValuesLast) {other : TypeId}
    (hother : t.holdsReferences other = false) (hfirst : t.Assignable u first)
    (hbound : t.Assignable u other) : ∃ m, t.Above m u first := by
  cases hfirst with
  | above habove => exact ⟨_, habove⟩
  | element hu helement href hrest =>
    exfalso
    -- The other type is the upper bound itself, since only itself has an array above it, but the
    -- elements of the upper bound may stand for references.
    cases hbound with
    | above habove =>
      obtain rfl := h.eq_of_above_array hu habove
      have hreference := hvalues.reference hrest href
      rw [holdsReferences, hu, Option.any_some, hreference] at hother
      cases hother
    | element _ hotherElement hotherRef _ =>
      rw [holdsReferences, hotherElement, Option.any_some, hotherRef] at hother
      cases hother

/-- The array of objects is above all arrays of references. -/
theorem Grows.exists_objects (hgrows : initial.Grows t) :
    ∃ objects < t.size, (t.info objects).element = some object ∧
      ∀ id < t.size, t.holdsReferences id = true → t.Assignable objects id := by
  obtain ⟨hsound, hext, hsame⟩ := hgrows.sound sound_initial
  obtain ⟨objects, hlt, helement⟩ := initial_values.2.2.2
  rw [← hsame objects hlt] at helement
  refine ⟨objects, Nat.lt_of_lt_of_le hlt hext.size_le, helement, fun id hid hholds => ?_⟩
  obtain ⟨element, hid', href⟩ := holdsReferences_iff.mp hholds
  have helementLt := Nat.lt_trans (hsound.elementsFirst id element hid') hid
  have hobject := hsound.wellFormed.isAssignable_object helementLt
  exact .element helement hid' href
    ((hsound.wellFormed.isAssignable_iff hsound.elementsFirst helementLt).mp hobject)

theorem Layered.upperBound_iff (h : t.Layered) (htypes : ∀ id ∈ types, id < t.size) :
    t.UpperBound types a ↔ t.Covers a types :=
  forall₂_congr fun id hid =>
    h.sound.wellFormed.isAssignable_iff h.sound.elementsFirst (htypes id hid)

theorem Layered.commonAncestor_lt (h : t.Layered) (htypes : ∀ id ∈ first :: rest, id < t.size)
    (ha : t.commonAncestor (first :: rest) = some a) : a < t.size :=
  h.sound.wellFormed.chain_lt (htypes first List.mem_cons_self) t.size a
    (List.mem_of_find?_eq_some ha)

/-- The search finds the nearest base that covers the others. -/
theorem Layered.exists_nearestCover (h : t.Layered) (htypes : ∀ id ∈ first :: rest, id < t.size) :
    ∃ a n, t.commonAncestor (first :: rest) = some a ∧ t.NearestCover first rest n a := by
  obtain ⟨a, n, ha, habove, hcovers, hnearest⟩ := h.sound.wellFormed.exists_commonAncestor
    h.sound.elementsFirst (htypes first List.mem_cons_self)
    fun other hother => htypes other (List.mem_cons_of_mem first hother)
  exact ⟨a, n, ha, habove, hcovers, hnearest⟩

namespace NearestCover

variable (hc : t.NearestCover first rest n a) (h : t.Layered)
  (htypes : ∀ id ∈ first :: rest, id < t.size)

include h htypes in
theorem bound_iff (u : TypeId) : t.UpperBound (first :: rest) u ↔
    t.Assignable u first ∧ t.Covers u rest :=
  (h.upperBound_iff htypes).trans List.forall_mem_cons

include hc h htypes

theorem upperBound : t.UpperBound (first :: rest) a :=
  (bound_iff h htypes a).mpr ⟨.above hc.above, hc.covers⟩

theorem least_iff (ha : a < t.size) : t.LeastUpperBound (first :: rest) a ↔
    ∀ u < t.size, t.UpperBound (first :: rest) u → t.Assignable u a := by
  unfold LeastUpperBound
  rw [and_iff_right (hc.upperBound h htypes)]
  exact forall₃_congr fun u _ _ => h.sound.wellFormed.isAssignable_iff h.sound.elementsFirst ha

/-- Where the first type is not above the others, the search goes on to its bases. -/
theorem exists_succ (hself : ¬ t.UpperBound (first :: rest) first) : ∃ m, n = m + 1 := by
  refine Nat.exists_eq_succ_of_ne_zero fun hzero => hself ?_
  subst hzero
  cases hc.above
  exact (bound_iff h htypes _).mpr ⟨.above (.self _), hc.covers⟩

/-- Where the first type is above the others, the search ends at once. -/
theorem least_of_self (ha : a < t.size) (hself : t.UpperBound (first :: rest) first) :
    t.LeastUpperBound (first :: rest) a := by
  refine (hc.least_iff h htypes ha).mpr fun u _ hub => ?_
  obtain ⟨hfirst, -⟩ := (bound_iff h htypes u).mp hub
  cases n with
  | zero =>
    cases hc.above
    exact hfirst
  | succ n =>
    exact absurd ((bound_iff h htypes first).mp hself).2
      (hc.nearest 0 (Nat.succ_pos n) first (.self first))

theorem least_of_plain (hvalues : t.ValuesLast) (ha : a < t.size)
    (hplain : ∃ id ∈ first :: rest, t.holdsReferences id = false) :
    t.LeastUpperBound (first :: rest) a := by
  obtain ⟨other, hother, hplain⟩ := hplain
  refine (hc.least_iff h htypes ha).mpr fun u _ hub => ?_
  obtain ⟨hfirst, hrest⟩ := (bound_iff h htypes u).mp hub
  obtain ⟨m, hm⟩ := h.above_of_bound hvalues hplain hfirst
    ((h.upperBound_iff htypes).mp hub other hother)
  exact hc.assignable hm hrest

/-- Of arrays of references the first of which is not above the others, a proper base of the first
is no least upper bound: the array of objects is no base, and is above them all. -/
theorem not_least (hgrows : initial.Grows t) (ha : a < t.size)
    (hself : ¬ t.UpperBound (first :: rest) first)
    (hall : ∀ id ∈ first :: rest, t.holdsReferences id = true) :
    ¬ t.LeastUpperBound (first :: rest) a := by
  intro hleast
  obtain ⟨m, rfl⟩ := hc.exists_succ h htypes hself
  obtain ⟨objects, hobjects, helement, habove⟩ := hgrows.exists_objects
  have hassignable := (hc.least_iff h htypes ha).mp hleast objects hobjects <|
    (h.upperBound_iff htypes).mpr fun id hid => habove id (htypes id hid) (hall id hid)
  -- What was found is no array, and no array stands for it but itself.
  have hplain := h.above_plain hc.above
  cases hassignable with
  | above hchain =>
    obtain rfl := h.eq_of_above_array helement hchain
    rw [helement] at hplain
    cases hplain
  | element _ ha _ _ =>
    rw [ha] at hplain
    cases hplain

/-- All arrays of references derive from the type of arrays, so the search ends there. -/
theorem eq_array (hself : ¬ t.UpperBound (first :: rest) first)
    (hall : ∀ id ∈ first :: rest, t.holdsReferences id = true) : a = 3 := by
  have harray {id : TypeId} (hid : id ∈ first :: rest) : t.Above 1 3 id := by
    obtain ⟨element, helement, -⟩ := holdsReferences_iff.mp (hall id hid)
    exact .step (h.array_base id element helement) (.self 3)
  obtain ⟨m, rfl⟩ := hc.exists_succ h htypes hself
  cases m with
  | zero =>
    cases hc.above with
    | step hbase hself =>
      cases hself
      cases harray List.mem_cons_self with
      | step hbase' hself =>
        cases hself
        exact Option.some.inj (hbase.symm.trans hbase')
  | succ m =>
    exact absurd (fun other hother => .above (harray (List.mem_cons_of_mem first hother)))
      (hc.nearest 1 (by omega) 3 (harray List.mem_cons_self))

end NearestCover

/-- What the search finds is the least upper bound unless all of the types are arrays of references
and the first is not above the others; then it finds the type of arrays. -/
theorem Layered.commonAncestor_cons (h : t.Layered) (hgrows : initial.Grows t)
    (hvalues : t.ValuesLast) (htypes : ∀ id ∈ first :: rest, id < t.size) :
    ∃ a, t.commonAncestor (first :: rest) = some a ∧ t.UpperBound (first :: rest) a ∧
      (t.LeastUpperBound (first :: rest) a ↔
        t.UpperBound (first :: rest) first ∨ ∃ id ∈ first :: rest, t.holdsReferences id = false) ∧
      (¬ t.LeastUpperBound (first :: rest) a → a = 3) := by
  obtain ⟨a, n, ha, hc⟩ := h.exists_nearestCover htypes
  have halt := h.commonAncestor_lt htypes ha
  have hif : t.UpperBound (first :: rest) first ∨
      (∃ id ∈ first :: rest, t.holdsReferences id = false) → t.LeastUpperBound (first :: rest) a :=
    fun hor => hor.elim (hc.least_of_self h htypes halt) (hc.least_of_plain h htypes hvalues halt)
  have hreferences (hnot : ¬ ∃ id ∈ first :: rest, t.holdsReferences id = false) :
      ∀ id ∈ first :: rest, t.holdsReferences id = true := by
    intro id hid
    by_contra hplain
    exact hnot ⟨id, hid, Bool.eq_false_iff.mpr hplain⟩
  refine ⟨a, ha, hc.upperBound h htypes, ⟨fun hleast => by_contra fun hnot => ?_, hif⟩,
    fun hnot => ?_⟩
  · obtain ⟨hself, hall⟩ := not_or.mp hnot
    exact hc.not_least h htypes hgrows halt hself (hreferences hall) hleast
  · obtain ⟨hself, hall⟩ := not_or.mp (mt hif hnot)
    exact hc.eq_array h htypes hself (hreferences hall)

/-- Least upper bounds of the same types are the same. -/
theorem Layered.least_unique (h : t.Layered) {types' : List TypeId}
    (hsame : ∀ id, id ∈ types' ↔ id ∈ types) (ha : a < t.size) (hb : b < t.size)
    (hleast : t.LeastUpperBound types a) (hleast' : t.LeastUpperBound types' b) : b = a := by
  have hbound : t.UpperBound types b := fun id hid => hleast'.1 id ((hsame id).mpr hid)
  have hbound' : t.UpperBound types' a := fun id hid => hleast.1 id ((hsame id).mp hid)
  exact h.ordered.antisymm b hb a ha (hleast.2 b hb hbound) (hleast'.2 a ha hbound')

end

end TypeTable

/-- The type of a conditional is the common ancestor of those of its branches. -/
theorem Resolution.taggedFinding_conditional (cfg : Setting) (tree : Tree) (w : Workspace)
    {children : List NodeId} (hlength : 1 < children.length) :
    taggedFinding cfg tree Keyword.conditional children w =
      .ok ⟨some .conditional,
        (allTypes w (branches children)).bind cfg.catalog.types.commonAncestor⟩ w := by
  have hdeclare : Keyword.conditional ≠ Keyword.declare := by decide
  have hinline : Keyword.conditional ≠ Keyword.inlineAsm := by decide
  have hget : Yields (get : Compile Workspace) w w w := Yields.get_iff.mpr ⟨rfl, rfl⟩
  unfold taggedFinding
  rw [bind_of_yields hget]
  simp only [if_neg hdeclare, if_neg hinline, true_and, if_pos hlength]
  rfl

namespace TypeTable

/-! ## Types that were only entered

The theorem collects the cases: the first type is above the others, or one of the types is no
array of references, or neither. -/

variable {t : TypeTable} {types : List TypeId}

/-- In a table to which types were only entered, types have a common ancestor, and it is an upper
bound of them. It is the least one exactly if the first of them is an upper bound, or one of them is
no array of references; in all other cases it is the type of arrays. So it does not depend on the
order of the types where one of them is no array of references, and neither does the type of a
conditional with branches of these types. -/
theorem commonAncestor_least (h : Leads Request.IsEntry initial t) (hne : types ≠ [])
    (htypes : ∀ id ∈ types, id < t.size) :
    ∃ a, t.commonAncestor types = some a ∧ t.UpperBound types a ∧
      (t.LeastUpperBound types a ↔
        t.UpperBound types (types.head hne) ∨ ∃ id ∈ types, t.holdsReferences id = false) ∧
      (¬ t.LeastUpperBound types a → t.lookup arrayName = some a) ∧
      ((∃ id ∈ types, t.holdsReferences id = false) →
        ∀ types', (∀ id, id ∈ types' ↔ id ∈ types) →
          t.commonAncestor types' = some a ∧
            ∀ (cfg : Setting) (tree : Tree) (w : Workspace) (children : List NodeId),
              cfg.catalog.types = t → 1 < children.length →
              Resolution.allTypes w (Resolution.branches children) = some types' →
              Resolution.taggedFinding cfg tree Keyword.conditional children w =
                .ok ⟨some .conditional, some a⟩ w) := by
  have hgrows := h.grows sound_initial
  have hlayered := hgrows.layered layered_initial
  have hvalues := h.valuesLast
  obtain ⟨first, rest, rfl⟩ := List.exists_cons_of_ne_nil hne
  obtain ⟨a, ha, hbound, hleast, harray⟩ := hlayered.commonAncestor_cons hgrows hvalues htypes
  have halt := hlayered.commonAncestor_lt htypes ha
  refine ⟨a, ha, hbound, hleast, fun hnot => ?_, fun hplain types' hsame => ?_⟩
  · rw [harray hnot]
    exact hlayered.sound.lookup_array
  · have htypes' : ∀ id ∈ types', id < t.size := fun id hid => htypes id ((hsame id).mp hid)
    have hplain' : ∃ id ∈ types', t.holdsReferences id = false := by
      obtain ⟨id, hid, hid'⟩ := hplain
      exact ⟨id, (hsame id).mpr hid, hid'⟩
    have hne' : types' ≠ [] := fun hnil => List.cons_ne_nil first rest <|
      List.eq_nil_iff_forall_not_mem.mpr fun id hid => by
        have hid' := (hsame id).mpr hid
        rw [hnil] at hid'
        exact List.not_mem_nil hid'
    -- Both orders give a least upper bound of the same types, and there is only one.
    obtain ⟨first', rest', rfl⟩ := List.exists_cons_of_ne_nil hne'
    obtain ⟨b, hb, -, hleast', -⟩ := hlayered.commonAncestor_cons hgrows hvalues htypes'
    have hsameAncestor := hlayered.least_unique hsame halt (hlayered.commonAncestor_lt htypes' hb)
      (hleast.mpr (Or.inr hplain)) (hleast'.mpr (Or.inr hplain'))
    rw [hsameAncestor] at hb
    refine ⟨hb, fun cfg tree w children hcfg hlength hbranches => ?_⟩
    rw [Resolution.taggedFinding_conditional cfg tree w hlength, hbranches, hcfg, Option.bind_some,
      hb]

/-- The array of objects covers the one of arrays of texts. It is found as their
ancestor if it comes first, and passed by if it comes last. With a text instead, the ancestor is the
root type in either order. -/
theorem commonAncestor_least_arrays : ∃ t, Leads Request.IsEntry initial t ∧
    t.name 5 = "SystemString" ∧ t.name 28 = "SystemObjectArray" ∧
    t.name 31 = "SystemStringArrayArray" ∧
    t.LeastUpperBound [28, 31] 28 ∧ t.commonAncestor [28, 31] = some 28 ∧
    ¬ t.LeastUpperBound [31, 28] 3 ∧ t.commonAncestor [31, 28] = some 3 ∧
    t.LeastUpperBound [31, 5] 0 ∧ t.commonAncestor [5, 31] = some 0 := by
  obtain ⟨t, hleads, hsize, htext, hobjects, hnested, ha, hb, hc, hbound, hnot, hplain⟩ :
      ∃ t, Leads Request.IsEntry initial t ∧ t.size = 32 ∧ t.name 5 = "SystemString" ∧
        t.name 28 = "SystemObjectArray" ∧ t.name 31 = "SystemStringArrayArray" ∧
        t.commonAncestor [28, 31] = some 28 ∧ t.commonAncestor [31, 28] = some 3 ∧
        t.commonAncestor [31, 5] = some 0 ∧ t.UpperBound [28, 31] 28 ∧
        ¬ (t.UpperBound [31, 28] 31 ∨ ∃ id ∈ [31, 28], t.holdsReferences id = false) ∧
        ∃ id ∈ [31, 5], t.holdsReferences id = false := by
    refine ⟨(initial.arrayOf 29).2, Leads.refl.step (.arrayOf 29) ?_, ?_⟩
    · show 29 < initial.size
      decide +kernel
    · decide +kernel
  have hids : ∀ id ∈ [28, 31], id < t.size := by
    rw [hsize]
    decide
  have hids' : ∀ id ∈ [31, 28], id < t.size := by
    rw [hsize]
    decide
  have hids'' : ∀ id ∈ [31, 5], id < t.size := by
    rw [hsize]
    decide
  obtain ⟨a, ha', -, hfirst, -⟩ := commonAncestor_least hleads (by decide) hids
  obtain ⟨b, hb', -, hlast, -⟩ := commonAncestor_least hleads (by decide) hids'
  obtain ⟨c, hc', -, hleast, -, horder⟩ := commonAncestor_least hleads (by decide) hids''
  obtain rfl := Option.some.inj (ha'.symm.trans ha)
  obtain rfl := Option.some.inj (hb'.symm.trans hb)
  obtain rfl := Option.some.inj (hc'.symm.trans hc)
  exact ⟨t, hleads, htext, hobjects, hnested, hfirst.mpr (Or.inl hbound), ha,
    mt hlast.mp hnot, hb, hleast.mpr (Or.inr hplain),
    (horder hplain [5, 31] fun id => List.Perm.mem_iff (.swap 31 5 [])).1⟩

end TypeTable

end SexprAsm
