import SexprAsm.Proofs.Catalog.Loading
import SexprAsm.Proofs.Catalog.Sorting
import SexprAsm.Proofs.Catalog.Specificity

/-!
# Which overload is preferred

A call means the first candidate that accepts its arguments, and candidates are ordered so that the
more specific come first, as far as the comparison and the sorting go. That a less specific one is
chosen although a more specific one accepts the arguments too has one of three causes
(`Catalog.resolveOverload_preference`), and each names the place where the order falls short: a
third candidate between the two, a value type that others derive from, or two arrays of references.
-/

namespace SexprAsm

open TypeTable

/-! ## Candidates of a catalogue -/

namespace Catalog

open Overload

variable {c c' : Catalog} {name : String}

/-- An operation is among the candidates under a key. -/
def Listed (overloads : OrderedMap CallKey (List OperationId)) (key : CallKey)
    (id : OperationId) : Prop :=
  ∃ ids, overloads.get? key = some ids ∧ id ∈ ids

theorem mem_candidates_iff {arity : Nat} {id : OperationId} :
    id ∈ c.candidates name arity ↔ Listed c.overloads ⟨name, arity⟩ id := by
  rw [candidates, Listed]
  cases c.overloads.get? ⟨name, arity⟩ <;> simp

/-- Adding an operation under names, for a number of arguments, lists it and no other. -/
theorem listed_of_foldl {ctx : Context} {newcomer id : OperationId} {arity : Nat}
    {names : List String} {overloads : OrderedMap CallKey (List OperationId)} {key : CallKey}
    (h : Listed (names.foldl (fun overloads name => overloads.put ⟨name, arity⟩
      (addCandidate ctx newcomer ((overloads.get? ⟨name, arity⟩).getD []))) overloads) key id) :
    id = newcomer ∧ arity = key.arity ∨ Listed overloads key id := by
  induction names generalizing overloads with
  | nil => exact Or.inr h
  | cons name names ih =>
    rcases ih h with hnew | ⟨ids, hids, hid⟩
    · exact Or.inl hnew
    · rw [OrderedMap.get?_put] at hids
      split at hids
      next hkey =>
        obtain rfl := Option.some.inj hids
        rcases mem_addCandidate hid with hnew | hid
        · exact Or.inl ⟨hnew, by rw [hkey]⟩
        · cases hold : overloads.get? ⟨name, arity⟩ with
          | none => simp [hold] at hid
          | some old =>
            rw [hold] at hid
            exact Or.inr ⟨old, hkey ▸ hold, hid⟩
      next => exact Or.inr ⟨ids, hids, hid⟩

theorem listed_of_register {op : Operation} {key : CallKey} {id : OperationId}
    (h : Listed (c.register op).overloads key id) :
    id = c.operations.size ∧ op.arity = key.arity ∨ Listed c.overloads key id :=
  listed_of_foldl h

/-- Operations are filed as candidates under their number of arguments. -/
def Filed (c : Catalog) : Prop :=
  ∀ key id, Listed c.overloads key id →
    id < c.operations.size ∧ (c.operation id).arity = key.arity

theorem Filed.register (h : c.Filed) (op : Operation) : (c.register op).Filed := by
  intro key id hlisted
  have hsize : (c.register op).operations.size = c.operations.size + 1 := by
    simp [Catalog.register]
  rw [hsize, show (c.register op).operation id = _ from operation_push c op id]
  rcases listed_of_register hlisted with ⟨rfl, harity⟩ | hlisted
  · rw [if_pos rfl]
    exact ⟨Nat.lt_succ_self _, harity⟩
  · obtain ⟨hlt, harity⟩ := h key id hlisted
    rw [if_neg (Nat.ne_of_lt hlt)]
    exact ⟨Nat.lt_succ_of_lt hlt, harity⟩

theorem Filed.loadOperation (h : c.Filed) {decl : OperationDecl}
    (hload : c.loadOperation decl = .ok c') : c'.Filed := by
  rcases loadOperation_cases hload with rfl | ⟨types, op, -, rfl⟩
  · exact h
  · have hwith : ({ c with types := types } : Catalog).Filed := h
    exact hwith.register op

/-- Once the operations are loaded, their candidates are sorted, and the types grow with those of
the events. -/
theorem load_index {manifest : Manifest} (h : load manifest = .ok c) :
    ∃ c₁, loadOperations manifest = .ok c₁ ∧ c₁.types.Grows c.types ∧
      (∀ id, c.operation id = c₁.operation id) ∧ c.overloads = c₁.sortOverloads.overloads := by
  obtain ⟨c₁, c₂, hoperations, hevents, hc⟩ := load_sorts h
  have hleads : Leads Request.IsEntry c₁.types c₂.types :=
    foldlM_leads (c := c₁.sortOverloads) (fun hload => (loadEvent_cases hload).1) hevents
  obtain ⟨hops, hoverloads⟩ := foldlM_keeps (c := c₁.sortOverloads)
    (P := fun c => c.operations = c₁.operations ∧ c.overloads = c₁.sortOverloads.overloads)
    (fun hsame hload => by
      obtain ⟨-, hops, -, hoverloads⟩ := loadEvent_cases hload
      exact ⟨hops.trans hsame.1, hoverloads.trans hsame.2⟩)
    ⟨rfl, rfl⟩ hevents
  rw [hc]
  have hgrows := hleads.grows (loadOperations_sound hoperations)
  refine ⟨c₁, hoperations, hgrows, fun id => ?_, hoverloads⟩
  show c₂.operations.getD id default = c₁.operations.getD id default
  rw [hops]

theorem load_sound {manifest : Manifest} (h : load manifest = .ok c) : c.types.Sound := by
  obtain ⟨c₁, hoperations, hgrows, -⟩ := load_index h
  exact (hgrows.sound (loadOperations_sound hoperations)).1

theorem loadOperations_filed {manifest : Manifest} (h : loadOperations manifest = .ok c) :
    c.Indexed ∧ c.Filed := by
  obtain ⟨types, htypes, hoperations⟩ := loadOperations_stages.mp h
  obtain ⟨hcomplete, hext⟩ := loadTypes_spec htypes complete_initial
  have hempty : empty.types = TypeTable.initial := by simp only [empty]
  have hindexed : ({ empty with types := types } : Catalog).Indexed :=
    indexed_empty.withTypes hcomplete (hempty ▸ hext)
  refine ⟨foldlM_keeps (fun h => Indexed.loadOperation h) hindexed hoperations, ?_⟩
  have hfiled : ({ empty with types := types } : Catalog).Filed := by
    rintro key id ⟨ids, hids, -⟩
    cases hids
  exact foldlM_keeps (fun h => Filed.loadOperation h) hfiled hoperations

end Catalog

/-- The candidates for a call in the order in which the operations of a manifest were registered. -/
def Manifest.registered (manifest : Manifest) (name : String) (arity : Nat) : List OperationId :=
  (Catalog.loadOperations manifest).toOption.elim [] (·.candidates name arity)

namespace Catalog

open Overload

variable {c : Catalog} {manifest : Manifest} {name : String} {arguments : List TypeId}

theorem isMoreGeneral_iff {x y : OperationId} : isMoreGeneral c.context x y = true ↔
    0 < generality c.types (c.operation x) (c.operation y) :=
  decide_eq_true_iff

/-- The types of events, which come after the sorting, change no comparison. -/
theorem candidates_eq (h : load manifest = .ok c) (name : String) (arity : Nat) :
    c.candidates name arity = sortCandidates c.context (manifest.registered name arity) := by
  obtain ⟨c₁, hoperations, hgrows, hop, hoverloads⟩ := load_index h
  obtain ⟨hindexed, -⟩ := loadOperations_filed hoperations
  have hcompare (x y : OperationId) :
      isMoreGeneral c₁.context x y = isMoreGeneral c.context x y := by
    have hgenerality := generality_grows hgrows (loadOperations_sound hoperations)
      (hindexed.parameters x) (hindexed.parameters y)
    rw [Bool.eq_iff_iff, isMoreGeneral_iff, isMoreGeneral_iff, hop, hop, hgenerality]
  have hregistered : manifest.registered name arity = c₁.candidates name arity := by
    rw [Manifest.registered, hoperations]
    rfl
  have hsorted : c₁.sortOverloads.overloads.get? ⟨name, arity⟩ =
      (c₁.overloads.get? ⟨name, arity⟩).map (sortCandidates c₁.context) :=
    OrderedMap.get?_map _
  rw [hregistered, ← sortCandidates_congr hcompare, candidates, candidates, hoverloads, hsorted]
  cases c₁.overloads.get? ⟨name, arity⟩ <;> rfl

theorem arity_of_mem_candidates (h : load manifest = .ok c) {arity : Nat} {id : OperationId}
    (hid : id ∈ c.candidates name arity) : (c.operation id).arity = arity := by
  obtain ⟨c₁, hoperations, -, hop, -⟩ := load_index h
  obtain ⟨-, hfiled⟩ := loadOperations_filed hoperations
  rw [candidates_eq h, Manifest.registered, hoperations] at hid
  have hid : id ∈ c₁.candidates name arity := mem_sortCandidates hid
  rw [hop]
  exact (hfiled _ id (mem_candidates_iff.mp hid)).2

/-- A candidate that accepts the arguments of a call but is not chosen comes after the chosen one,
and for a reason. -/
theorem precedes_of_resolveOverload {best other : OperationId} (hload : load manifest = .ok c)
    (hbest : c.resolveOverload name arguments = some best)
    (hother : other ∈ c.candidates name arguments.length)
    (haccepts : acceptsArguments c.types (c.operation other) arguments = true)
    (hne : c.operation other ≠ c.operation best) :
    Precedes c.context (manifest.registered name arguments.length)
      (c.candidates name arguments.length) best other := by
  obtain ⟨-, before, after, hsplit, hbefore⟩ := List.find?_eq_some_iff_append.mp hbest
  have hpairwise := precedes_sortCandidates c.context (manifest.registered name arguments.length)
  rw [← candidates_eq hload] at hpairwise
  have hafter : other ∈ after := by
    rw [hsplit, List.mem_append, List.mem_cons] at hother
    rcases hother with hmem | rfl | hmem
    · have hrefused := hbefore other hmem
      rw [haccepts] at hrefused
      cases hrefused
    · exact absurd rfl hne
    · exact hmem
  rw [hsplit] at hpairwise
  obtain ⟨-, hpairwise, -⟩ := List.pairwise_append.mp hpairwise
  have hprecedes := (List.pairwise_cons.mp hpairwise).1 other hafter
  rwa [← hsplit] at hprecedes

/-- Where a call means one candidate although a more specific one accepts its arguments too, then
the more specific one was registered later and has stopped on its way forward at a third one, which
is no more general than it; or it was registered later and the comparison does not see that the
chosen one is more general, because an input of it holds values; or it was registered first and the
comparison takes it for the more general one, for the same reason or because it compares arrays. -/
theorem resolveOverload_preference {best other : OperationId} (hload : load manifest = .ok c)
    (hbest : c.resolveOverload name arguments = some best)
    (hother : other ∈ c.candidates name arguments.length)
    (haccepts : acceptsArguments c.types (c.operation other) arguments = true)
    (hrefines : Refines c.types (c.operation other) (c.operation best)) :
    (∃ stop, [best, other].Sublist (manifest.registered name arguments.length) ∧
        [stop, other].Sublist (manifest.registered name arguments.length) ∧
        [best, stop, other].Sublist (c.candidates name arguments.length) ∧
        isMoreGeneral c.context stop other = false) ∨
      ([best, other].Sublist (manifest.registered name arguments.length) ∧
        isMoreGeneral c.context best other = false ∧
        ∃ pair ∈ differences (c.operation best) (c.operation other),
          holdsValues c.types pair.1.type = true) ∨
      ([other, best].Sublist (manifest.registered name arguments.length) ∧
        isMoreGeneral c.context other best = true ∧
        ∃ pair ∈ differences (c.operation best) (c.operation other),
          holdsValues c.types pair.1.type = true ∨
            (c.types.info pair.1.type).isArray = true ∧
              (c.types.info pair.2.type).isArray = true) := by
  have hsound := load_sound hload
  have hparameters := (Loaded.indexed (Or.inr ⟨manifest, hload⟩)).parameters
  have hmem : best ∈ c.candidates name arguments.length := List.mem_of_find?_eq_some hbest
  have hchosen : acceptsArguments c.types (c.operation best) arguments = true :=
    (List.find?_eq_some_iff_append.mp hbest).1
  have hboth : ∀ pair ∈ (c.operation best).parameters.zip (c.operation other).parameters,
      pair.1.direction = .both → pair.1.type = pair.2.type := fun pair hpair hdirection =>
    types_of_both (arity_of_mem_candidates hload hmem) (arity_of_mem_candidates hload hother)
      hchosen haccepts hpair hdirection (hrefines.direction_eq hpair ▸ hdirection)
  rcases precedes_of_resolveOverload hload hbest hother haccepts hrefines.ne with
    ⟨hregistered, hnot⟩ | ⟨hregistered, hstop, hsorted, hnot⟩ | ⟨hregistered, hpassed⟩
  · refine Or.inr (Or.inl ⟨hregistered, hnot, ?_⟩)
    by_contra hvalues
    -- All inputs that differ are references, so the other one would have moved past the chosen one.
    have hpos := hrefines.generality_pos hboth hsound (hparameters other) fun pair hpair =>
      Bool.eq_false_iff.mpr fun htrue => hvalues ⟨pair, hpair, htrue⟩
    rw [← isMoreGeneral_iff, hnot] at hpos
    cases hpos
  · exact Or.inl ⟨_, hregistered, hstop, hsorted, hnot⟩
  · refine Or.inr (Or.inr ⟨hregistered, hpassed, ?_⟩)
    by_cases hvalues : ∃ pair ∈ differences (c.operation best) (c.operation other),
        holdsValues c.types pair.1.type = true
    · obtain ⟨pair, hpair, htrue⟩ := hvalues
      exact ⟨pair, hpair, Or.inl htrue⟩
    · obtain ⟨pair, hpair, harrays⟩ := hrefines.isArray_of_generality hboth hsound
        (hparameters other) (fun pair hpair => Bool.eq_false_iff.mpr fun htrue =>
          hvalues ⟨pair, hpair, htrue⟩) (hparameters best) (isMoreGeneral_iff.mp hpassed)
      exact ⟨pair, hpair, Or.inr harrays⟩

/-- Of a tree, a stone and a leaf, which is a tree, in this order, the leaf stops at the stone, and
a call with a leaf means the operation for trees. -/
theorem resolveOverload_preference_stopped : ∃ manifest c, load manifest = .ok c ∧
    c.types.name 32 = "Leaf" ∧ c.resolveOverload "DebugDescribe" [32] = some 0 ∧
    2 ∈ c.candidates "DebugDescribe" 1 ∧
    acceptsArguments c.types (c.operation 2) [32] = true ∧
    Refines c.types (c.operation 2) (c.operation 0) ∧
    ∃ stop, [0, stop, 2].Sublist (c.candidates "DebugDescribe" 1) ∧
      isMoreGeneral c.context stop 2 = false := by
  obtain ⟨manifest, hknown⟩ : ∃ manifest, (load manifest).toOption.map (fun c =>
      (c.types.name 32, c.resolveOverload "DebugDescribe" [32], c.candidates "DebugDescribe" 1,
        acceptsArguments c.types (c.operation 2) [32],
        decide (Refines c.types (c.operation 2) (c.operation 0)),
        (differences (c.operation 0) (c.operation 2)).all fun pair =>
          !holdsValues c.types pair.1.type && !(c.types.info pair.1.type).isArray)) =
      some ("Leaf", some 0, [0, 1, 2], true, true, true) := by
    refine ⟨⟨[⟨"Tree", "Tree", none, false⟩, ⟨"Leaf", "Leaf", some "Tree", false⟩,
      ⟨"Stone", "Stone", none, false⟩, ⟨"Debug", "Debug", none, false⟩],
      ["Tree", "Stone", "Leaf"].map fun type =>
        Manifest.function "Debug" "Describe" [type] "SystemString", []⟩, ?_⟩
    decide +kernel
  obtain ⟨c, hload, hknown⟩ := exists_ok_of_map hknown
  simp only [Prod.mk.injEq, decide_eq_true_iff] at hknown
  obtain ⟨hleaf, hbest, hcandidates, haccepts, hrefines, hplain⟩ := hknown
  have hother : 2 ∈ c.candidates "DebugDescribe" 1 := by
    rw [hcandidates]
    decide
  refine ⟨manifest, c, hload, hleaf, hbest, hother, haccepts, hrefines, ?_⟩
  have hplain : ∀ pair ∈ differences (c.operation 0) (c.operation 2),
      holdsValues c.types pair.1.type = false ∧ (c.types.info pair.1.type).isArray = false := by
    simpa using hplain
  rcases resolveOverload_preference hload hbest hother haccepts hrefines with
    ⟨stop, -, -, hsorted, hstop⟩ | ⟨-, -, pair, hpair, hvalues⟩ |
      ⟨-, -, pair, hpair, hvalues | ⟨harray, -⟩⟩
  · exact ⟨stop, hsorted, hstop⟩
  · exact absurd hvalues (by rw [(hplain pair hpair).1]; decide)
  · exact absurd hvalues (by rw [(hplain pair hpair).1]; decide)
  · exact absurd harray (by rw [(hplain pair hpair).2]; decide)

end Catalog

end SexprAsm
