import Mathlib.Data.List.Chain
import Mathlib.Tactic.Common
import SexprAsm.Catalog.Overload

/-!
# The order of candidates

Candidates are sorted by insertion: each one moves towards the front past those that are more
general and stops at the first that is not. The comparison is no order, so a sorted list keeps no
promise about any two of its members; what holds is the reason why the one stands before the other
(`Overload.Precedes`), for every two members of every list (`Overload.precedes_sortCandidates`).
Of two neighbours a little more is known: the first can be more general only if each of them is more
general than the other (`Overload.isChain_sortCandidates`).
-/

namespace SexprAsm.Overload

variable {ctx ctx' : Context} {registered registered' sorted sorted' : List OperationId}
  {x y : OperationId}

/-- Why `x` is tried before `y`, in terms of the order in which candidates were registered. -/
inductive Precedes (ctx : Context) (registered sorted : List OperationId) (x y : OperationId) :
    Prop where
  /-- It was registered first and is not more general. -/
  | kept (hregistered : [x, y].Sublist registered) (h : isMoreGeneral ctx x y = false)
  /-- It was registered first, and the other one stopped on its way forward at a candidate between
  them. -/
  | blocked {stop : OperationId} (hregistered : [x, y].Sublist registered)
      (hstop : [stop, y].Sublist registered) (hsorted : [x, stop, y].Sublist sorted)
      (h : isMoreGeneral ctx stop y = false)
  /-- It was registered last and moved past the other one. -/
  | passed (hregistered : [y, x].Sublist registered) (h : isMoreGeneral ctx y x = true)

theorem Precedes.mono (h : Precedes ctx registered sorted x y)
    (hregistered : registered.Sublist registered') (hsorted : sorted.Sublist sorted') :
    Precedes ctx registered' sorted' x y := by
  cases h with
  | kept hxy h => exact .kept (hxy.trans hregistered) h
  | blocked hxy hstop hbetween h =>
    exact .blocked (hxy.trans hregistered) (hstop.trans hregistered) (hbetween.trans hsorted) h
  | passed hyx h => exact .passed (hyx.trans hregistered) h

/-- Inserting a candidate cuts a list, kept last one first, behind candidates that are all more
general, and before one that is not. -/
theorem insertBack_cut (ctx : Context) (id : OperationId) (ids : List OperationId) :
    ∃ more rest, ids = more ++ rest ∧ insertBack ctx id ids = more ++ id :: rest ∧
      (∀ other ∈ more, isMoreGeneral ctx other id = true) ∧
      ∀ stop ∈ rest.head?, isMoreGeneral ctx stop id = false := by
  induction ids with
  | nil => exact ⟨[], [], rfl, rfl, nofun, nofun⟩
  | cons last before ih =>
    unfold insertBack
    split
    next hlast =>
      obtain ⟨more, rest, hids, hinsert, hmore, hrest⟩ := ih
      refine ⟨last :: more, rest, ?_, ?_, fun other hother => ?_, hrest⟩
      · rw [hids, List.cons_append]
      · rw [hinsert, List.cons_append]
      · rcases List.mem_cons.mp hother with rfl | hother
        · exact hlast
        · exact hmore other hother
    next hlast =>
      refine ⟨[], last :: before, rfl, rfl, nofun, fun stop hstop => ?_⟩
      obtain rfl := Option.some.inj hstop
      exact Bool.eq_false_iff.mpr hlast

/-- The candidates that have been inserted so far, kept last one first. -/
structure Sorts (ctx : Context) (registered inserted : List OperationId) : Prop where
  mem : ∀ id ∈ inserted, id ∈ registered
  precedes : inserted.Pairwise fun later earlier =>
    Precedes ctx registered inserted.reverse earlier later

theorem Sorts.insertBack {inserted : List OperationId} (h : Sorts ctx registered inserted)
    (id : OperationId) : Sorts ctx (registered ++ [id]) (insertBack ctx id inserted) := by
  obtain ⟨more, rest, rfl, hinsert, hmore, hrest⟩ := insertBack_cut ctx id inserted
  have hlast {other : OperationId} (hother : other ∈ more ++ rest) :
      [other, id].Sublist (registered ++ [id]) :=
    (List.singleton_sublist.mpr (h.mem other hother)).append (.refl [id])
  have hold := h.precedes.imp fun hprecedes => hprecedes.mono (List.sublist_append_left _ [id])
    (((List.sublist_cons_self id rest).append_left more).reverse)
  obtain ⟨hold₁, hold₂, hcross⟩ := List.pairwise_append.mp hold
  rw [hinsert]
  refine ⟨fun other hother => ?_, List.pairwise_append.mpr ⟨hold₁, ?_, ?_⟩⟩
  · rw [List.mem_append, List.mem_cons] at hother
    rw [List.mem_append, List.mem_singleton]
    rcases hother with hother | rfl | hother
    · exact Or.inl (h.mem other (List.mem_append_left _ hother))
    · exact Or.inr rfl
    · exact Or.inl (h.mem other (List.mem_append_right _ hother))
  · -- Of the candidates that the new one has not passed, the nearest has stopped it.
    refine List.pairwise_cons.mpr ⟨fun earlier hearlier => ?_, hold₂⟩
    cases rest with
    | nil => cases hearlier
    | cons stop rest =>
      have hstop := hrest stop rfl
      have hregistered := hlast (List.mem_append_right _ hearlier)
      rcases List.mem_cons.mp hearlier with rfl | hearlier
      · exact .kept hregistered hstop
      · refine .blocked hregistered (hlast (List.mem_append_right _ List.mem_cons_self)) ?_ hstop
        have hbehind : [id, stop, earlier].Sublist (more ++ id :: stop :: rest) :=
          (((List.singleton_sublist.mpr hearlier).cons_cons stop).cons_cons id).trans
            (List.sublist_append_right more _)
        exact hbehind.reverse
  · intro later hlater earlier hearlier
    rcases List.mem_cons.mp hearlier with rfl | hearlier
    · exact .passed (hlast (List.mem_append_left _ hlater)) (hmore later hlater)
    · exact hcross later hlater earlier hearlier

theorem Sorts.foldl {inserted : List OperationId} (h : Sorts ctx registered inserted)
    (ids : List OperationId) : Sorts ctx (registered ++ ids)
      (ids.foldl (fun sorted id => Overload.insertBack ctx id sorted) inserted) := by
  induction ids generalizing registered inserted with
  | nil => rwa [List.append_nil]
  | cons id ids ih =>
    have hrest := ih (h.insertBack id)
    rwa [List.append_assoc, List.singleton_append] at hrest

/-- Of any two candidates in order, there is a reason why the first precedes the second. -/
theorem precedes_sortCandidates (ctx : Context) (ids : List OperationId) :
    (sortCandidates ctx ids).Pairwise (Precedes ctx ids (sortCandidates ctx ids)) := by
  have hempty : Sorts ctx [] [] := ⟨fun _ h => h, .nil⟩
  exact List.pairwise_reverse.mpr (hempty.foldl ids).precedes

/-- The order depends on the comparison alone. -/
theorem sortCandidates_congr
    (h : ∀ x y, isMoreGeneral ctx x y = isMoreGeneral ctx' x y) (ids : List OperationId) :
    sortCandidates ctx ids = sortCandidates ctx' ids := by
  have hinsert (id : OperationId) (sorted : List OperationId) :
      insertBack ctx id sorted = insertBack ctx' id sorted := by
    induction sorted with
    | nil => rfl
    | cons last before ih =>
      unfold insertBack
      rw [h, ih]
  unfold sortCandidates
  simp only [hinsert]

/-! ## Neighbours -/

/-- What holds of `x` right before `y`: it is more general only where it was registered last and has
moved past the other one, which then is more general as well. -/
def Adjoins (ctx : Context) (registered : List OperationId) (x y : OperationId) : Prop :=
  isMoreGeneral ctx x y = true → isMoreGeneral ctx y x = true ∧ [y, x].Sublist registered

theorem Adjoins.mono (h : Adjoins ctx registered x y)
    (hregistered : registered.Sublist registered') : Adjoins ctx registered' x y :=
  fun hmore => (h hmore).imp_right fun hyx => hyx.trans hregistered

theorem Sorts.isChain_insertBack {inserted : List OperationId} (h : Sorts ctx registered inserted)
    (hchain : inserted.IsChain fun later earlier => Adjoins ctx registered earlier later)
    (id : OperationId) : (Overload.insertBack ctx id inserted).IsChain fun later earlier =>
      Adjoins ctx (registered ++ [id]) earlier later := by
  obtain ⟨more, rest, rfl, hinsert, hmore, hrest⟩ := insertBack_cut ctx id inserted
  have hold := hchain.imp fun _ _ hadjoins => hadjoins.mono (List.sublist_append_left _ [id])
  obtain ⟨hold₁, hold₂, -⟩ := List.isChain_append.mp hold
  rw [hinsert]
  -- Only two pairs of neighbours are new: the candidate with the one that stopped it, which is not
  -- more general, and with the last one it moved past.
  refine List.isChain_append.mpr ⟨hold₁, List.isChain_cons.mpr ⟨?_, hold₂⟩, ?_⟩
  · intro stop hstop hgeneral
    rw [hrest stop hstop] at hgeneral
    cases hgeneral
  · intro later hlater earlier hearlier _
    obtain rfl := Option.some.inj hearlier
    have hmem := List.mem_of_getLast? hlater
    have hregistered := List.singleton_sublist.mpr (h.mem later (List.mem_append_left _ hmem))
    exact ⟨hmore later hmem, hregistered.append (.refl [id])⟩

theorem Sorts.isChain_foldl {inserted : List OperationId} (h : Sorts ctx registered inserted)
    (hchain : inserted.IsChain fun later earlier => Adjoins ctx registered earlier later)
    (ids : List OperationId) :
    (ids.foldl (fun sorted id => Overload.insertBack ctx id sorted) inserted).IsChain
      fun later earlier => Adjoins ctx (registered ++ ids) earlier later := by
  induction ids generalizing registered inserted with
  | nil => rwa [List.append_nil]
  | cons id ids ih =>
    have hrest := ih (h.insertBack id) (h.isChain_insertBack hchain id)
    rwa [List.append_assoc, List.singleton_append] at hrest

/-- Of two neighbours in order, the first is more general only if the other one is as well. -/
theorem isChain_sortCandidates (ctx : Context) (ids : List OperationId) :
    (sortCandidates ctx ids).IsChain (Adjoins ctx ids) := by
  have hempty : Sorts ctx [] [] := ⟨fun _ h => h, .nil⟩
  exact List.isChain_reverse.mpr (hempty.isChain_foldl .nil ids)

end SexprAsm.Overload
