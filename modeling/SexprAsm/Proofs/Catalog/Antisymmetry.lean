import SexprAsm.Proofs.Catalog.Preference
import SexprAsm.Proofs.TypeTable.CommonAncestor

/-!
# Comparing both ways round

Two operations can be compared both ways round. The scores of two parameters cancel out, value types
against references as well as steps up against steps down, since no two types are above each other;
only two arrays of references score both ways, each as the more general one (`Overload.Clash`). So
the scores of two operations add up to twice the number of their clashes
(`Overload.generality_add_swap`), and the comparison turns round with its operands wherever there is
no clash, or a clash is outweighed (`Overload.comparison_swap`). The sorting inherits this: of two
neighbours the first is more general than the second only where they clash.
-/

namespace SexprAsm

open TypeTable

/-! ## Steps both ways

A distance counts steps towards the root, so distances both ways close a cycle. There is none in
a well-formed table but from a type to itself. -/

namespace TypeTable

variable {t : TypeTable} {a b : TypeId} {n m : Nat}

theorem above_of_distance (h : t.distance a b = some n) : t.Above n a b := by
  obtain ⟨hn, hget, -⟩ := List.findIdx?_eq_some_iff_getElem.mp h
  have hchain : (t.chain t.size b)[n]? = some a := by
    rw [← beq_iff_eq.mp hget]
    exact List.getElem?_eq_getElem hn
  exact ((getElem?_chain t t.size b n).mp hchain).2

/-- Steps lead both ways only between a type and itself, also outside the table. -/
theorem WellFormed.eq_of_distance (h : t.WellFormed) (hab : t.distance a b = some n)
    (hba : t.distance b a = some m) : a = b := by
  rcases Nat.lt_or_ge b t.size with hlt | hge
  · exact (h.above_antisymm hlt (above_of_distance hab) (above_of_distance hba)).2
  · cases above_of_distance hab with
    | self => rfl
    | step hbase _ =>
      rw [info_of_le hge] at hbase
      cases hbase

end TypeTable

namespace Overload

variable {types : TypeTable} {p q : Parameter} {l r : Operation}

/-! ## Scores both ways round

Two parameters that are no two arrays score the kinds of their types, and two references the
steps between them, which cancels out. Two arrays score the kinds of their elements, and there
two references score one both ways. `Clash` names this case, and `parameterScore_add_swap` says
that it is the only one. -/

instance Compared.decidable (p q : Parameter) : Decidable (Compared p q) :=
  decidable_of_iff (¬ (p.direction = .output ∧ q.direction = .output) ∧ p.type ≠ q.type)
    ⟨fun ⟨hdirections, htypes⟩ => ⟨hdirections, htypes⟩, fun h => ⟨h.directions, h.types⟩⟩

/-- Two parameters that are compared by their types, both of them arrays of references. Each passes
for the more general one. -/
structure Clash (types : TypeTable) (p q : Parameter) : Prop where
  compared : Compared p q
  left : types.holdsReferences p.type = true
  right : types.holdsReferences q.type = true

instance Clash.decidable (types : TypeTable) (p q : Parameter) : Decidable (Clash types p q) :=
  decidable_of_iff (Compared p q ∧ types.holdsReferences p.type = true ∧
      types.holdsReferences q.type = true)
    ⟨fun ⟨hcompared, hleft, hright⟩ => ⟨hcompared, hleft, hright⟩,
      fun h => ⟨h.compared, h.left, h.right⟩⟩

/-- A value type and a reference, or two value types, cancel out; two references do not. -/
theorem valueTypeScore_add_swap (x y : Bool) :
    valueTypeScore x y + valueTypeScore y x = if x = false ∧ y = false then 2 else 0 := by
  cases x <;> cases y <;> rfl

/-- Two references score the steps up to the first, less the steps up to the second. -/
theorem Compared.references (h : Compared p q) (hwell : types.WellFormed)
    (helement : (types.info p.type).element = none ∨ (types.info q.type).element = none)
    (hvalue : ((types.info p.type).valueType || (types.info q.type).valueType) = false) :
    parameterScore types p q =
      ((types.distance p.type q.type).getD 0 : Int) - (types.distance q.type p.type).getD 0 := by
  rw [h.score_eq helement, if_neg (Bool.eq_false_iff.mp hvalue)]
  cases hup : types.distance p.type q.type with
  | none => cases types.distance q.type p.type <;> simp
  | some n =>
    cases hdown : types.distance q.type p.type with
    | none => simp
    | some m => exact absurd (hwell.eq_of_distance hup hdown) h.types

/-- Unless two arrays are compared, the scores cancel out. -/
theorem Compared.plain_add_swap (h : Compared p q) (hwell : types.WellFormed)
    (helement : (types.info p.type).element = none ∨ (types.info q.type).element = none) :
    parameterScore types p q + parameterScore types q p = 0 := by
  cases hvalue : (types.info p.type).valueType || (types.info q.type).valueType with
  | true =>
    have hvalue' := (Bool.or_comm _ _).trans hvalue
    rw [(h.plain helement).1 hvalue, (h.symm.plain helement.symm).1 hvalue',
      valueTypeScore_add_swap, if_neg]
    rintro ⟨hp, hq⟩
    rw [hp, hq] at hvalue
    cases hvalue
  | false =>
    have hvalue' := (Bool.or_comm _ _).trans hvalue
    rw [h.references hwell helement hvalue, h.symm.references hwell helement.symm hvalue']
    omega

theorem Clash.element_ne_none (h : Clash types p q) :
    ¬ ((types.info p.type).element = none ∨ (types.info q.type).element = none) := by
  obtain ⟨pe, hpe, -⟩ := holdsReferences_iff.mp h.left
  obtain ⟨qe, hqe, -⟩ := holdsReferences_iff.mp h.right
  simp [hpe, hqe]

/-- Two arrays clash unless one of them is an array of values. -/
theorem Compared.clash_iff (h : Compared p q) {pe qe : TypeId}
    (hp : (types.info p.type).element = some pe) (hq : (types.info q.type).element = some qe) :
    Clash types p q ↔ (types.info pe).valueType = false ∧ (types.info qe).valueType = false := by
  constructor
  · rintro ⟨-, hleft, hright⟩
    exact ⟨by simpa [holdsReferences, hp] using hleft, by simpa [holdsReferences, hq] using hright⟩
  · rintro ⟨hpe, hqe⟩
    exact ⟨h, holdsReferences_iff.mpr ⟨pe, hp, hpe⟩, holdsReferences_iff.mpr ⟨qe, hq, hqe⟩⟩

/-- The scores of two parameters cancel out unless they clash. -/
theorem parameterScore_add_swap (hwell : types.WellFormed) (p q : Parameter) :
    parameterScore types p q + parameterScore types q p = if Clash types p q then 2 else 0 := by
  -- Only two arrays of references score both ways.
  by_cases hcompared : Compared p q
  · by_cases hplain : (types.info p.type).element = none ∨ (types.info q.type).element = none
    · rw [hcompared.plain_add_swap hwell hplain, if_neg fun h => h.element_ne_none hplain]
    · obtain ⟨⟨pe, hp⟩, qe, hq⟩ := (not_or.mp hplain).imp Option.ne_none_iff_exists'.mp
        Option.ne_none_iff_exists'.mp
      rw [hcompared.arrays hp hq, hcompared.symm.arrays hq hp, valueTypeScore_add_swap]
      simp only [hcompared.clash_iff hp hq]
  · rw [parameterScore_of_not_compared hcompared,
      parameterScore_of_not_compared fun h => hcompared h.symm,
      if_neg fun h => hcompared h.compared]
    rfl

/-! ## Comparisons both ways round

The score of two operations adds up the scores of their parameters, so the sum of both ways round
is twice the number of clashes (`generality_add_swap`, by induction on the pairs). What the
comparison makes of it follows by the sign. -/

/-- The number of positions at which two operations clash; operations with different numbers of
parameters are not compared. -/
def clashes (types : TypeTable) (l r : Operation) : Nat :=
  if l.parameters.length = r.parameters.length then
    (l.parameters.zip r.parameters).countP fun (p, q) => Clash types p q
  else 0

theorem foldl_add_swap (hwell : types.WellFormed) (pairs : List (Parameter × Parameter))
    (x y : Int) :
    pairs.foldl (fun score pair => score + parameterScore types pair.1 pair.2) x +
        pairs.foldl (fun score pair => score + parameterScore types pair.2 pair.1) y =
      x + y + 2 * pairs.countP fun (p, q) => Clash types p q := by
  induction pairs generalizing x y with
  | nil => simp
  | cons pair pairs ih =>
    have hfirst := parameterScore_add_swap hwell pair.1 pair.2
    rw [List.foldl_cons, List.foldl_cons, ih, List.countP_cons]
    by_cases hclash : Clash types pair.1 pair.2
    · rw [if_pos hclash] at hfirst
      simp only [hclash, decide_true, if_true]
      omega
    · rw [if_neg hclash] at hfirst
      simp only [hclash, decide_false, Bool.false_eq_true, if_false]
      omega

/-- Two operations score against each other by their clashes alone. -/
theorem generality_add_swap (hwell : types.WellFormed) (l r : Operation) :
    generality types l r + generality types r l = 2 * clashes types l r := by
  unfold clashes
  split
  next hlength =>
    have hswap : r.parameters.zip l.parameters = (l.parameters.zip r.parameters).map Prod.swap :=
      (List.zip_swap _ _).symm
    rw [generality_eq types hlength, generality_eq types hlength.symm, hswap, List.foldl_map]
    exact (foldl_add_swap hwell _ 0 0).trans (by omega)
  next hlength =>
    unfold generality
    rw [if_pos hlength, if_pos (Ne.symm hlength)]
    rfl

/-- The outcome of comparing two operations: greater if the first takes more general parameters. -/
def comparison (types : TypeTable) (l r : Operation) : Ordering :=
  compare (generality types l r) 0

theorem comparison_eq_gt : comparison types l r = .gt ↔ 0 < generality types l r :=
  Int.compare_eq_gt

/-- Sorting moves a candidate past those that compare greater. -/
theorem isMoreGeneral_iff_comparison {ctx : Context} {x y : OperationId} :
    isMoreGeneral ctx x y = true ↔
      comparison ctx.types (ctx.operation x) (ctx.operation y) = .gt :=
  decide_eq_true_iff.trans comparison_eq_gt.symm

/-- The outcome turns round with the operands unless they clash and neither score is negative. -/
theorem comparison_eq_swap_iff (hwell : types.WellFormed) :
    comparison types r l = (comparison types l r).swap ↔
      clashes types l r = 0 ∨ generality types l r < 0 ∨ generality types r l < 0 := by
  -- Each score is what the other one leaves of twice the number of clashes.
  have hsum := generality_add_swap hwell l r
  unfold comparison
  rcases Int.lt_trichotomy (generality types l r) 0 with hscore | hscore | hscore
  · rw [Int.compare_eq_lt.mpr hscore, Ordering.swap, Int.compare_eq_gt]
    omega
  · rw [Int.compare_eq_eq.mpr hscore, Ordering.swap, Int.compare_eq_eq]
    omega
  · rw [Int.compare_eq_gt.mpr hscore, Ordering.swap, Int.compare_eq_lt]
    omega

/-- Where each of two operations is more general than the other, they clash. -/
theorem clashes_pos (hwell : types.WellFormed) (hlr : comparison types l r = .gt)
    (hrl : comparison types r l = .gt) : 0 < clashes types l r := by
  have hsum := generality_add_swap hwell l r
  rw [comparison_eq_gt] at hlr hrl
  omega

/-- Among sorted candidates, one compares greater than its neighbour only where the two clash. -/
theorem isChain_comparison (ctx : Context) (hwell : ctx.types.WellFormed)
    (ids : List OperationId) : (sortCandidates ctx ids).IsChain fun x y =>
      comparison ctx.types (ctx.operation x) (ctx.operation y) = .gt →
        comparison ctx.types (ctx.operation y) (ctx.operation x) = .gt ∧
          0 < clashes ctx.types (ctx.operation x) (ctx.operation y) ∧ [y, x].Sublist ids := by
  refine (isChain_sortCandidates ctx ids).imp fun x y hadjoins hxy => ?_
  obtain ⟨hmore, hregistered⟩ := hadjoins (isMoreGeneral_iff_comparison.mpr hxy)
  have hyx := isMoreGeneral_iff_comparison.mp hmore
  exact ⟨hyx, clashes_pos hwell hxy hyx, hregistered⟩

/-- In every table that comes from requests, the scores of two operations add up to twice the number
of positions at which different arrays of references are compared, and the comparison turns round
with its operands exactly if there is no such position or one of the scores is negative. After
sorting, a candidate compares greater than the one right after it only if that one was registered
first and compares greater than it as well, because arrays of references are compared. -/
theorem comparison_swap {ctx : Context} (h : Leads Request.Fits initial ctx.types) :
    (∀ l r, generality ctx.types l r + generality ctx.types r l = 2 * clashes ctx.types l r ∧
      (comparison ctx.types r l = (comparison ctx.types l r).swap ↔
        clashes ctx.types l r = 0 ∨ generality ctx.types l r < 0 ∨
          generality ctx.types r l < 0)) ∧
    ∀ ids, (sortCandidates ctx ids).IsChain fun x y =>
      comparison ctx.types (ctx.operation x) (ctx.operation y) = .gt →
        comparison ctx.types (ctx.operation y) (ctx.operation x) = .gt ∧
          0 < clashes ctx.types (ctx.operation x) (ctx.operation y) ∧ [y, x].Sublist ids := by
  obtain ⟨hsound, -⟩ := h.sound (fun _ _ hfits => hfits) sound_initial
  have hwell := hsound.wellFormed
  refine ⟨fun l r => ⟨?_, ?_⟩, fun ids => ?_⟩
  · exact generality_add_swap hwell l r
  · exact comparison_eq_swap_iff hwell
  · exact isChain_comparison ctx hwell ids

/-- Of two operations for arrays of texts and of objects, the second one moves past the first, since
each compares greater than the other. Those for objects and for texts compare as greater and
less. -/
theorem comparison_swap_arrays : ∃ ctx : Context, Leads Request.Fits initial ctx.types ∧
    (ctx.operation 0).parameters.map (ctx.types.name ·.type) = ["SystemStringArray"] ∧
    (ctx.operation 1).parameters.map (ctx.types.name ·.type) = ["SystemObjectArray"] ∧
    sortCandidates ctx [0, 1] = [1, 0] ∧
    comparison ctx.types (ctx.operation 1) (ctx.operation 0) = .gt ∧
    comparison ctx.types (ctx.operation 0) (ctx.operation 1) = .gt ∧
    comparison ctx.types (ctx.operation 0) (ctx.operation 1) ≠
      (comparison ctx.types (ctx.operation 1) (ctx.operation 0)).swap ∧
    comparison ctx.types (ctx.operation 2) (ctx.operation 3) = .gt ∧
    comparison ctx.types (ctx.operation 3) (ctx.operation 2) = .lt := by
  obtain ⟨ctx, hleads, htexts, hobjects, hsorted, hscore, hclashes, hgreater, hplain⟩ :
      ∃ ctx : Context, Leads Request.Fits initial ctx.types ∧
        (ctx.operation 0).parameters.map (ctx.types.name ·.type) = ["SystemStringArray"] ∧
        (ctx.operation 1).parameters.map (ctx.types.name ·.type) = ["SystemObjectArray"] ∧
        sortCandidates ctx [0, 1] = [1, 0] ∧
        generality ctx.types (ctx.operation 1) (ctx.operation 0) = 1 ∧
        clashes ctx.types (ctx.operation 1) (ctx.operation 0) = 1 ∧
        comparison ctx.types (ctx.operation 2) (ctx.operation 3) = .gt ∧
        clashes ctx.types (ctx.operation 2) (ctx.operation 3) = 0 := by
    refine ⟨⟨initial, #[29, 28, object, 5].map fun type =>
      ⟨"Describe", object, [⟨"", type, .input⟩]⟩⟩, ?_, ?_⟩
    · dsimp only
      exact .refl
    · decide +kernel
  obtain ⟨hcompared, hchain⟩ := comparison_swap hleads
  have hmore : comparison ctx.types (ctx.operation 1) (ctx.operation 0) = .gt := by
    rw [comparison_eq_gt, hscore]
    decide
  have hchain := hchain [0, 1]
  rw [hsorted, List.isChain_pair] at hchain
  obtain ⟨hsum, harrays⟩ := hcompared (ctx.operation 1) (ctx.operation 0)
  obtain ⟨-, hswap⟩ := hcompared (ctx.operation 2) (ctx.operation 3)
  refine ⟨ctx, hleads, htexts, hobjects, hsorted, hmore, (hchain hmore).1, fun h => ?_, hgreater,
    ?_⟩
  · have hnone := harrays.mp h
    rw [hscore, hclashes] at hsum
    omega
  · rw [hswap.mpr (Or.inl hplain), hgreater]
    rfl

end Overload

end SexprAsm
