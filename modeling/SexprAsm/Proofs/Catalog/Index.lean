import Mathlib.Data.List.Perm.Basic
import SexprAsm.Proofs.Catalog.Preference

/-!
# The index of a catalogue

Operations are listed under every name that they are called by, with their number of arguments, and
of those that take the same arguments a list keeps one. What operations take is their signature, and
the signatures of a list are what registering works on: a newcomer with a new signature goes to the
end, and one with a signature that is there leaves the signatures as they are
(`Overload.map_signature_addCandidate`). Sorting permutes a list, and types that are entered later
change no name.

Under its full name, an operation is the first one that was declared so, with the types that its
declaration named at that time (`Catalog.load_indexes`).
-/

namespace SexprAsm

open TypeTable

/-! ## Signatures

Two operations take the same arguments just if they have one signature, so the lists of the index
are compared by the signatures in them. -/

/-- What a call sees of a parameter: its direction and, unless it is an output, its type. -/
def Parameter.shape (p : Parameter) : Direction × Option TypeId :=
  (p.direction, if p.direction = .output then none else some p.type)

namespace Operation

variable {op op' : Operation}

/-- What a call sees of an operation. -/
def signature (op : Operation) : List (Direction × Option TypeId) := op.parameters.map (·.shape)

theorem sameParameter_iff {p q : Parameter} : sameParameter p q = true ↔ p.shape = q.shape := by
  obtain ⟨-, type, direction⟩ := p
  obtain ⟨-, type', direction'⟩ := q
  cases direction <;> cases direction' <;> simp [sameParameter, Parameter.shape]

/-- Operations with the same signature take the same arguments. -/
theorem sameSignature_iff : op.sameSignature op' = true ↔ op.signature = op'.signature := by
  unfold sameSignature signature
  generalize op.parameters = ps, op'.parameters = qs
  induction ps generalizing qs with
  | nil => cases qs <;> simp
  | cons p ps ih =>
    cases qs with
    | nil => simp
    | cons q qs =>
      rw [List.map_cons, List.map_cons, List.cons.injEq, ← ih, ← sameParameter_iff]
      simp
      tauto

/-! ## Names

The names that an operation is listed under are without repetitions, so registering it touches
every list once. -/

/-- The items of a list without repetitions are the items of the list. -/
theorem distinct_spec {α : Type} [DecidableEq α] (items : List α) :
    (distinct items).Nodup ∧ ∀ a, a ∈ distinct items ↔ a ∈ items := by
  -- The items that have been seen so far are kept.
  have hfold : ∀ (items seen : List α), seen.Nodup →
      (items.foldl (fun seen a => if a ∈ seen then seen else seen ++ [a]) seen).Nodup ∧
        ∀ a, a ∈ items.foldl (fun seen a => if a ∈ seen then seen else seen ++ [a]) seen ↔
          a ∈ seen ∨ a ∈ items := by
    intro items
    induction items with
    | nil => exact fun seen hseen => ⟨hseen, fun a => by simp⟩
    | cons first rest ih =>
      intro seen hseen
      rw [List.foldl_cons]
      split
      next hmem =>
        refine ⟨(ih seen hseen).1, fun a => ?_⟩
        rw [(ih seen hseen).2, List.mem_cons]
        constructor
        · exact Or.imp_right Or.inr
        · rintro (ha | rfl | ha)
          · exact Or.inl ha
          · exact Or.inl hmem
          · exact Or.inr ha
      next hmem =>
        have hnext : (seen ++ [first]).Nodup := by
          rw [← List.concat_eq_append]
          exact hseen.concat hmem
        refine ⟨(ih _ hnext).1, fun a => ?_⟩
        rw [(ih _ hnext).2, List.mem_append, List.mem_singleton, List.mem_cons, or_assoc]
  obtain ⟨hnodup, hmem⟩ := hfold items [] List.nodup_nil
  exact ⟨hnodup, fun a => (hmem a).trans (or_iff_right List.not_mem_nil)⟩

theorem nodup_callNames (types : TypeTable) (op : Operation) : (op.callNames types).Nodup :=
  (distinct_spec _).1

/-- The names that an operation is called by tell its owner and its result, which do not change when
more types are entered. -/
theorem callNames_grows {types types' : TypeTable} (hgrows : types.Grows types')
    (h : types.Sound) (howner : op.owner < types.size)
    (hparameters : ∀ p ∈ op.parameters, p.type < types.size) :
    op.callNames types' = op.callNames types := by
  obtain ⟨-, -, hinfo⟩ := hgrows.sound h
  unfold callNames
  rw [hinfo _ howner]
  cases htarget : op.returnType? with
  | none => rfl
  | some target =>
    obtain ⟨p, hp, rfl⟩ := Option.map_eq_some_iff.mp htarget
    dsimp only
    rw [hinfo _ (hparameters p (List.mem_of_getElem? hp))]

end Operation

/-! ## Candidates

What registering an operation does to a list: it adds the operation, or lets it take the place of
one with its signature, and sorts. For signatures only the first matters (`signatures_register`),
as sorting permutes (`perm_sortCandidates`). -/

namespace Overload

variable {ctx : Context} {id : OperationId} {ids : List OperationId}

/-- A newcomer with a new signature goes to the end, and another one changes no signature. -/
theorem map_signature_addCandidate (ctx : Context) (id : OperationId) (ids : List OperationId) :
    (addCandidate ctx id ids).map (fun x => (ctx.operation x).signature) =
      if (ctx.operation id).signature ∈ ids.map (fun x => (ctx.operation x).signature) then
        ids.map fun x => (ctx.operation x).signature
      else ids.map (fun x => (ctx.operation x).signature) ++ [(ctx.operation id).signature] := by
  induction ids with
  | nil => rfl
  | cons other rest ih =>
    rw [addCandidate, List.map_cons]
    by_cases hsame : (ctx.operation other).sameSignature (ctx.operation id) = true
    · rw [if_pos hsame]
      rw [Operation.sameSignature_iff] at hsame
      rw [hsame, if_pos List.mem_cons_self]
      split
      · rw [List.map_cons, hsame]
      · rw [List.map_cons]
    · rw [if_neg hsame, List.map_cons, ih]
      rw [Operation.sameSignature_iff] at hsame
      simp only [List.mem_cons, Ne.symm hsame, false_or]
      split <;> rfl

theorem perm_insertBack (ctx : Context) (id : OperationId) (ids : List OperationId) :
    (insertBack ctx id ids).Perm (id :: ids) := by
  induction ids with
  | nil => exact .refl _
  | cons last before ih =>
    unfold insertBack
    split
    · exact (ih.cons last).trans (.swap id last before)
    · exact .refl _

/-- Sorting permutes candidates. -/
theorem perm_sortCandidates (ctx : Context) (ids : List OperationId) :
    (sortCandidates ctx ids).Perm ids := by
  have hfold : ∀ (ids sorted : List OperationId),
      (ids.foldl (fun sorted id => insertBack ctx id sorted) sorted).Perm (ids ++ sorted) := by
    intro ids
    induction ids with
    | nil => exact fun sorted => .refl sorted
    | cons id ids ih =>
      intro sorted
      have hstep := (ih _).trans ((perm_insertBack ctx id sorted).append_left ids)
      exact hstep.trans List.perm_middle
  have hperm := (List.reverse_perm _).trans (hfold ids [])
  rwa [List.append_nil] at hperm

end Overload

namespace Catalog

open Overload

variable {c c' : Catalog} {op : Operation} {decl : OperationDecl} {manifest : Manifest}
  {name : String} {arity : Nat}

/-- Adding under distinct names, for a number of arguments, changes the lists under these. -/
theorem get?_foldl_put {names : List String} (hnodup : names.Nodup) (arity : Nat)
    (add : List OperationId → List OperationId)
    (overloads : OrderedMap CallKey (List OperationId)) (key : CallKey) :
    (names.foldl (fun overloads name => overloads.put ⟨name, arity⟩
      (add ((overloads.get? ⟨name, arity⟩).getD []))) overloads).get? key =
      if key.arity = arity ∧ key.name ∈ names then some (add ((overloads.get? key).getD []))
      else overloads.get? key := by
  induction names generalizing overloads with
  | nil => simp
  | cons first rest ih =>
    obtain ⟨hfirst, hrest⟩ := List.nodup_cons.mp hnodup
    rw [List.foldl_cons, ih hrest, OrderedMap.get?_put]
    obtain ⟨name, arity'⟩ := key
    by_cases hkey : name = first ∧ arity' = arity
    · obtain ⟨rfl, rfl⟩ := hkey
      simp [hfirst]
    · have hne : (⟨name, arity'⟩ : CallKey) ≠ ⟨first, arity⟩ := fun h =>
        hkey ((CallKey.mk.injEq ..).mp h)
      rw [if_neg hne]
      by_cases harity : arity' = arity
      · have hname : name ≠ first := fun h => hkey ⟨h, harity⟩
        simp only [harity, true_and, List.mem_cons, hname, false_or]
      · simp only [harity, false_and]

/-- Registering adds the operation to the lists under its names, for its number of arguments. -/
theorem candidates_register (c : Catalog) (op : Operation) (name : String) (arity : Nat) :
    (c.register op).candidates name arity =
      if arity = op.arity ∧ name ∈ op.callNames c.types then
        addCandidate (c.register op).context c.operations.size (c.candidates name arity)
      else c.candidates name arity := by
  have hget : (c.register op).overloads.get? ⟨name, arity⟩ =
      if arity = op.arity ∧ name ∈ op.callNames c.types then
        some (addCandidate (c.register op).context c.operations.size (c.candidates name arity))
      else c.overloads.get? ⟨name, arity⟩ :=
    get?_foldl_put (Operation.nodup_callNames c.types op) op.arity _ c.overloads ⟨name, arity⟩
  rw [candidates, hget]
  split <;> rfl

/-- The signatures in the list of a name. -/
def signatures (c : Catalog) (name : String) (arity : Nat) :
    List (List (Direction × Option TypeId)) :=
  (c.candidates name arity).map fun id => (c.operation id).signature

theorem size_register (c : Catalog) (op : Operation) :
    (c.register op).operations.size = c.operations.size + 1 := by
  simp [Catalog.register]

theorem operation_register (c : Catalog) (op : Operation) (id : OperationId) :
    (c.register op).operation id = if id = c.operations.size then op else c.operation id :=
  operation_push c op id

theorem Filed.lt (h : c.Filed) {id : OperationId} (hid : id ∈ c.candidates name arity) :
    id < c.operations.size :=
  (h _ id (mem_candidates_iff.mp hid)).1

/-- Registering makes the signature of the operation one of those under each of its names. -/
theorem Filed.signatures_register (h : c.Filed) (op : Operation) (name : String) (arity : Nat) :
    (c.register op).signatures name arity =
      if (arity = op.arity ∧ name ∈ op.callNames c.types) ∧ op.signature ∉ c.signatures name arity
      then c.signatures name arity ++ [op.signature] else c.signatures name arity := by
  have hnew : (c.register op).operation c.operations.size = op := by
    rw [operation_register, if_pos rfl]
  have hold : (c.candidates name arity).map (fun id => ((c.register op).operation id).signature) =
      c.signatures name arity := by
    refine List.map_congr_left fun id hid => ?_
    rw [operation_register, if_neg (Nat.ne_of_lt (h.lt hid))]
  rw [signatures, candidates_register]
  by_cases hnamed : arity = op.arity ∧ name ∈ op.callNames c.types
  · have hadd : (addCandidate (c.register op).context c.operations.size
        (c.candidates name arity)).map (fun id => ((c.register op).operation id).signature) =
        if ((c.register op).operation c.operations.size).signature ∈
            (c.candidates name arity).map (fun id => ((c.register op).operation id).signature) then
          (c.candidates name arity).map fun id => ((c.register op).operation id).signature
        else (c.candidates name arity).map (fun id => ((c.register op).operation id).signature) ++
          [((c.register op).operation c.operations.size).signature] :=
      map_signature_addCandidate _ _ _
    rw [hnew, hold] at hadd
    rw [if_pos hnamed, hadd]
    simp [hnamed]
  · rw [if_neg hnamed, hold, if_neg fun h => hnamed h.1]

/-! ## Loading operations

`Covered` is the invariant of the loader. It holds of a catalogue without operations, and
registering one keeps it. The types that are entered on the way change no name that an operation
is called by. -/

theorem declaredOperation_spec {types types' : TypeTable}
    (h : declaredOperation types decl = .ok (op, types')) (hsound : types.Sound) :
    types.Grows types' ∧ op.owner < types'.size ∧ ∀ p ∈ op.parameters, p.type < types'.size := by
  obtain ⟨-, types₁, howner, hparameters⟩ := declaredOperation_stages h
  obtain ⟨hcomplete, -, hlt⟩ := resolveType_spec howner hsound.complete
  obtain ⟨-, hext, hparameters'⟩ := resolveParameters_spec hparameters hcomplete
  have hleads := (resolveType_leads howner).trans (resolveParameters_leads hparameters)
  exact ⟨hleads.grows hsound, Nat.lt_of_lt_of_le hlt hext.size_le, hparameters'⟩

/-- Operations are listed under their names alone, by themselves or by one with their signature, and
no list has a signature twice; full names name a method. -/
structure Covered (c : Catalog) : Prop where
  sound : c.types.Sound
  filed : c.Filed
  parameters : ∀ id, ∀ p ∈ (c.operation id).parameters, p.type < c.types.size
  owner : ∀ id < c.operations.size, (c.operation id).owner < c.types.size
  method : ∀ id < c.operations.size, (methodOf? (c.operation id).fullName).isSome = true
  byName : ∀ name id, c.byFullName.get? name = some id → id < c.operations.size
  called : ∀ name arity, ∀ id ∈ c.candidates name arity, name ∈ (c.operation id).callNames c.types
  distinct : ∀ name arity, (c.signatures name arity).Nodup
  listed : ∀ id < c.operations.size, ∀ name ∈ (c.operation id).callNames c.types,
    (c.operation id).signature ∈ c.signatures name (c.operation id).arity

theorem Covered.withTypes (h : c.Covered) {types : TypeTable} (hgrows : c.types.Grows types) :
    ({ c with types := types } : Catalog).Covered := by
  obtain ⟨hsound, hext, -⟩ := hgrows.sound h.sound
  have hnames {id : OperationId} (hid : id < c.operations.size) :
      (c.operation id).callNames types = (c.operation id).callNames c.types :=
    Operation.callNames_grows hgrows h.sound (h.owner id hid) (h.parameters id)
  refine ⟨hsound, h.filed, fun id p hp => ?_, fun id hid => ?_, h.method, h.byName,
    fun name arity id hid => ?_, h.distinct, fun id hid name hname => ?_⟩
  · exact Nat.lt_of_lt_of_le (h.parameters id p hp) hext.size_le
  · exact Nat.lt_of_lt_of_le (h.owner id hid) hext.size_le
  · show name ∈ (c.operation id).callNames types
    rw [hnames (h.filed.lt hid)]
    exact h.called name arity id hid
  · have hname : name ∈ (c.operation id).callNames types := hname
    rw [hnames hid] at hname
    exact h.listed id hid name hname

theorem Covered.register (h : c.Covered) (hmethod : (methodOf? op.fullName).isSome = true)
    (howner : op.owner < c.types.size)
    (hparameters : ∀ p ∈ op.parameters, p.type < c.types.size) : (c.register op).Covered := by
  refine { sound := h.sound, filed := h.filed.register op, parameters := fun id p hp => ?parameters,
           owner := fun id hid => ?owner, method := fun id hid => ?method,
           byName := fun name id hid => ?byName, called := fun name arity id hid => ?called,
           distinct := fun name arity => ?distinct, listed := fun id hid name hname => ?listed }
  case parameters =>
    rw [operation_register] at hp
    split at hp
    · exact hparameters p hp
    · exact h.parameters id p hp
  case owner =>
    rw [operation_register]
    rw [size_register] at hid
    split
    next => exact howner
    next hlast => exact h.owner id (Nat.lt_of_le_of_ne (Nat.le_of_lt_succ hid) hlast)
  case method =>
    rw [operation_register]
    rw [size_register] at hid
    split
    next => exact hmethod
    next hlast => exact h.method id (Nat.lt_of_le_of_ne (Nat.le_of_lt_succ hid) hlast)
  case byName =>
    rw [size_register]
    have hid : (c.byFullName.put op.fullName c.operations.size).get? name = some id := hid
    rw [OrderedMap.get?_put] at hid
    split at hid
    · obtain rfl := Option.some.inj hid
      exact Nat.lt_succ_self _
    · exact Nat.lt_succ_of_lt (h.byName name id hid)
  case called =>
    -- A candidate under the name is the operation itself, or was there before.
    have hold (hid : id ∈ c.candidates name arity) :
        name ∈ ((c.register op).operation id).callNames c.types := by
      rw [operation_register, if_neg (Nat.ne_of_lt (h.filed.lt hid))]
      exact h.called name arity id hid
    rw [candidates_register] at hid
    split at hid
    next hnamed =>
      rcases mem_addCandidate hid with rfl | hid
      · rw [operation_register, if_pos rfl]
        exact hnamed.2
      · exact hold hid
    next => exact hold hid
  case distinct =>
    rw [h.filed.signatures_register]
    split
    next hnew =>
      rw [← List.concat_eq_append]
      exact (h.distinct name arity).concat hnew.2
    next => exact h.distinct name arity
  case listed =>
    rw [h.filed.signatures_register]
    rw [operation_register] at hname ⊢
    rw [size_register] at hid
    split at hname
    next hlast =>
      rw [if_pos hlast]
      split
      next => exact List.mem_append_right _ (List.mem_singleton_self _)
      next hnot => exact by_contra fun hmem => hnot ⟨⟨rfl, hname⟩, hmem⟩
    next hlast =>
      rw [if_neg hlast]
      have hmem := h.listed id (Nat.lt_of_le_of_ne (Nat.le_of_lt_succ hid) hlast) name hname
      split
      next => exact List.mem_append_left _ hmem
      next => exact hmem

theorem Covered.loadOperation (h : c.Covered) (hload : c.loadOperation decl = .ok c') :
    c'.Covered := by
  rcases loadOperation_registers hload with ⟨-, rfl⟩ | ⟨-, hmethod, op, types, hop, rfl⟩
  · exact h
  · obtain ⟨hname, -⟩ := declaredOperation_stages hop
    obtain ⟨hgrows, howner, hparameters⟩ := declaredOperation_spec hop h.sound
    exact (h.withTypes hgrows).register (hname ▸ hmethod) howner hparameters

/-- A catalogue without operations covers them. -/
theorem covered_empty {types : TypeTable} (h : types.Sound) :
    ({ empty with types := types } : Catalog).Covered := by
  have hoperation (id : OperationId) : ({ empty with types := types } : Catalog).operation id =
      default := rfl
  refine ⟨h, ?_, fun id p hp => ?_, ?_, ?_, ?_, ?_, fun _ _ => List.nodup_nil, ?_⟩
  · rintro key id ⟨ids, hids, -⟩
    cases hids
  · rw [hoperation] at hp
    cases hp
  · exact fun id hid => absurd hid (Nat.not_lt_zero id)
  · exact fun id hid => absurd hid (Nat.not_lt_zero id)
  · exact fun name id hid => by cases hid
  · exact fun name arity id hid => by cases hid
  · exact fun id hid => absurd hid (Nat.not_lt_zero id)

/-! ## Full names

A declaration whose full name is taken is passed over. So the first of each name is the one that
is found, by induction on the declarations after it. -/

theorem loadOperation_contains (h : c.loadOperation decl = .ok c') :
    c'.byFullName.contains name = true ↔ c.byFullName.contains name = true ∨ decl.name = name := by
  rcases loadOperation_registers h with ⟨htaken, rfl⟩ | ⟨-, -, op, types, hop, rfl⟩
  · exact (or_iff_left_of_imp fun heq => heq ▸ htaken).symm
  · obtain ⟨hname, -⟩ := declaredOperation_stages hop
    show ((c.byFullName.put op.fullName _).get? name).isSome = true ↔ _
    rw [OrderedMap.get?_put, hname]
    split
    next heq => simp [heq]
    next hne => simp [Ne.symm hne, OrderedMap.contains]

/-- The full names that are taken are those of the declarations. -/
theorem foldlM_contains {decls : List OperationDecl} (h : decls.foldlM loadOperation c = .ok c') :
    c'.byFullName.contains name = true ↔
      c.byFullName.contains name = true ∨ ∃ decl ∈ decls, decl.name = name := by
  induction decls generalizing c with
  | nil =>
    obtain rfl := Except.ok.inj h
    simp
  | cons decl decls ih =>
    rw [List.foldlM_cons] at h
    obtain ⟨c₁, hfirst, hrest⟩ := Except.bind_eq_ok.mp h
    rw [ih hrest, loadOperation_contains hfirst, or_assoc]
    simp

/-- An operation that is found under its full name stays there. -/
theorem Covered.operationNamed?_loadOperation (h : c.Covered)
    (hload : c.loadOperation decl = .ok c') (hop : c.operationNamed? name = some op) :
    c'.operationNamed? name = some op := by
  obtain ⟨id, hid, rfl⟩ := Option.map_eq_some_iff.mp hop
  rcases loadOperation_registers hload with ⟨-, rfl⟩ | ⟨hfree, -, op, types, hdeclared, rfl⟩
  · exact hop
  · obtain ⟨hname, -⟩ := declaredOperation_stages hdeclared
    have hne : name ≠ op.fullName := by
      rintro rfl
      rw [hname, OrderedMap.contains_eq_false_iff.mp hfree] at hid
      cases hid
    have hget :
        (({ c with types := types } : Catalog).register op).byFullName.get? name = some id :=
      (OrderedMap.get?_put ..).trans ((if_neg hne).trans hid)
    rw [operationNamed?, hget, Option.map_some, operation_register,
      if_neg (Nat.ne_of_lt (h.byName name id hid))]
    rfl

/-- An operation is found under its full name as soon as it is registered. -/
theorem operationNamed?_register (c : Catalog) (op : Operation) :
    (c.register op).operationNamed? op.fullName = some op := by
  have hget : (c.register op).byFullName.get? op.fullName = some c.operations.size :=
    (OrderedMap.get?_put ..).trans (if_pos rfl)
  rw [operationNamed?, hget, Option.map_some, operation_register, if_pos rfl]

/-- Of the declarations with one full name, the first is registered, with the types that it names
at that point, and stays. -/
theorem Covered.operationNamed?_first {before after : List OperationDecl} (h : c.Covered)
    (hfree : c.byFullName.contains decl.name = false)
    (hfirst : ∀ other ∈ before, other.name ≠ decl.name)
    (hload : (before ++ decl :: after).foldlM Catalog.loadOperation c = .ok c') :
    ∃ c₁ op types, before.foldlM Catalog.loadOperation c = .ok c₁ ∧
      declaredOperation c₁.types decl = .ok (op, types) ∧ types.Grows c'.types ∧
      c'.operationNamed? decl.name = some op := by
  obtain ⟨c₁, c₂, hbefore, hdecl, hafter⟩ := foldlM_split hload
  have h₁ : c₁.Covered := foldlM_keeps (fun h => Covered.loadOperation h) h hbefore
  have hfree₁ : ¬c₁.byFullName.contains decl.name = true := by
    rw [foldlM_contains hbefore, hfree]
    rintro (hnot | ⟨other, hother, heq⟩)
    · cases hnot
    · exact hfirst other hother heq
  rcases loadOperation_registers hdecl with ⟨htaken, -⟩ | ⟨-, -, op, types, hop, rfl⟩
  · exact absurd htaken hfree₁
  · have h₂ := h₁.loadOperation hdecl
    have hleads : Leads Request.IsEntry types c'.types := foldlM_leads loadOperation_leads hafter
    obtain ⟨hname, -⟩ := declaredOperation_stages hop
    have hfound : (({ c₁ with types := types } : Catalog).register op).operationNamed? decl.name =
        some op := hname ▸ operationNamed?_register _ op
    obtain ⟨-, hkept⟩ := foldlM_keeps (P := fun c => c.Covered ∧
        c.operationNamed? decl.name = some op)
      (fun h hload => ⟨h.1.loadOperation hload, h.1.operationNamed?_loadOperation hload h.2⟩)
      ⟨h₂, hfound⟩ hafter
    exact ⟨c₁, op, types, hbefore, hop, hleads.grows h₂.sound, hkept⟩

/-! ## Loaded catalogues

After the operations only events are registered and the lists are sorted once more, which changes
neither operations nor full names. So what has been shown of the loader holds of the catalogue. -/

/-- Sorting and events leave the operations and their full names alone. -/
theorem operations_of_load {c₁ : Catalog} (h : load manifest = .ok c)
    (hoperations : loadOperations manifest = .ok c₁) :
    c.operations = c₁.operations ∧ c.byFullName = c₁.byFullName := by
  obtain ⟨c₁', c₂, hoperations', hevents, hc⟩ := load_sorts h
  obtain rfl := Except.ok.inj (hoperations.symm.trans hoperations')
  have hsame := foldlM_keeps (c := c₁.sortOverloads)
    (P := fun c => c.operations = c₁.operations ∧ c.byFullName = c₁.byFullName)
    (fun hsame hload => by
      obtain ⟨-, hops, hnames, -⟩ := loadEvent_cases hload
      exact ⟨hops.trans hsame.1, hnames.trans hsame.2⟩)
    ⟨rfl, rfl⟩ hevents
  rw [hc]
  exact hsame

theorem loadTypes_sound {types : TypeTable} (h : loadTypes .initial manifest.types = .ok types) :
    types.Sound :=
  ((loadTypes_leads (fun _ _ => Request.IsEntry.fits) complete_initial manifest.setsBases_fits
    h).sound (fun _ _ hfits => hfits) sound_initial).1

theorem loadOperations_covered (h : loadOperations manifest = .ok c) : c.Covered := by
  obtain ⟨types, htypes, hoperations⟩ := loadOperations_stages.mp h
  exact foldlM_keeps (fun h => Covered.loadOperation h) (covered_empty (loadTypes_sound htypes))
    hoperations

theorem methodOf?_isSome (h : load manifest = .ok c) {id : OperationId}
    (hid : id ∈ c.candidates name arity) : (methodOf? (c.operation id).fullName).isSome = true := by
  obtain ⟨c₁, hoperations, -, hop, -⟩ := load_index h
  have hcovered := loadOperations_covered hoperations
  rw [candidates_eq h, Manifest.registered, hoperations] at hid
  have hid : id ∈ c₁.candidates name arity := mem_sortCandidates hid
  rw [hop]
  exact hcovered.method id (hcovered.filed.lt hid)

/-- The full name of an operation names a method, so it is not empty. -/
theorem methodOf?_of_operationNamed? {op : Operation} (hloaded : c.Loaded)
    (hop : c.operationNamed? name = some op) : (methodOf? name).isSome = true := by
  rcases hloaded with rfl | ⟨manifest, h⟩
  · cases hop
  obtain ⟨c₁, -, hoperations, -⟩ := load_sorts h
  obtain ⟨types, -, hfold⟩ := loadOperations_stages.mp hoperations
  have hnamed : c₁.byFullName.contains name = true → (methodOf? name).isSome = true := by
    refine foldlM_keeps (P := fun c => c.byFullName.contains name = true →
      (methodOf? name).isSome = true) (fun {_ _ decl} h hload hname => ?_) ?_ hfold
    · rcases (loadOperation_contains hload).mp hname with hbefore | rfl
      · exact h hbefore
      · rcases loadOperation_registers hload with ⟨htaken, -⟩ | ⟨-, hmethod, -⟩
        · exact h htaken
        · exact hmethod
    · rintro ⟨⟩
  refine hnamed ?_
  rw [← (operations_of_load h hoperations).2]
  obtain ⟨id, hid, -⟩ := Option.map_eq_some_iff.mp hop
  exact OrderedMap.contains_iff.mpr ⟨id, hid⟩

/-- A catalogue with the types of a manifest and some operations. -/
def loadFirst (manifest : Manifest) (decls : List OperationDecl) : Except CatalogError Catalog := do
  let types ← loadTypes .initial manifest.types
  decls.foldlM loadOperation { empty with types := types }

/-- What a catalogue tells about the operations of its manifest. -/
structure IndexOf (c : Catalog) (manifest : Manifest) : Prop where
  /-- Candidates take the arguments of the calls that they are listed for, under a name of
  theirs. -/
  listed : ∀ name arity, ∀ id ∈ c.candidates name arity, id < c.operations.size ∧
    (c.operation id).arity = arity ∧ name ∈ (c.operation id).callNames c.types
  nodup : ∀ name arity, (c.candidates name arity).Nodup
  distinct : ∀ name arity, (c.candidates name arity).Pairwise fun x y =>
    (c.operation x).sameSignature (c.operation y) = false
  /-- An operation can be called under each of its names, or another one with its signature can. -/
  covered : ∀ id < c.operations.size, ∀ name ∈ (c.operation id).callNames c.types,
    ∃ other ∈ c.candidates name (c.operation id).arity,
      (c.operation other).sameSignature (c.operation id) = true
  sorted : ∀ name arity, (c.candidates name arity).Perm (manifest.registered name arity)
  /-- Under its full name, an operation is the first one declared so, with the types that its
  declaration named at that point. -/
  first : ∀ before decl after, manifest.operations ++ Manifest.intrinsics =
    before ++ decl :: after → (∀ other ∈ before, other.name ≠ decl.name) →
    ∃ c₁ op types, loadFirst manifest before = .ok c₁ ∧
      declaredOperation c₁.types decl = .ok (op, types) ∧ types.Grows c.types ∧
      c.operationNamed? decl.name = some op
  undeclared : ∀ name, (∀ decl ∈ manifest.operations ++ Manifest.intrinsics, decl.name ≠ name) →
    c.operationNamed? name = none
  named : ∀ id < c.operations.size,
    c.operationNamed? (c.operation id).fullName = some (c.operation id)

/-- A loaded catalogue indexes the operations of its manifest. -/
theorem load_indexes (h : load manifest = .ok c) : c.IndexOf manifest := by
  obtain ⟨c₁, hoperations, hgrows, hop, -⟩ := load_index h
  obtain ⟨hops, hbyFullName⟩ := operations_of_load h hoperations
  obtain ⟨types, htypes, hfold⟩ := loadOperations_stages.mp hoperations
  have hempty := covered_empty (loadTypes_sound htypes)
  -- The index is settled when the operations are loaded; later stages add types and sort it.
  have h₁ := loadOperations_covered hoperations
  have hnamed (name : String) : c.operationNamed? name = c₁.operationNamed? name := by
    rw [operationNamed?, operationNamed?, hbyFullName, funext hop]
  have hnames {id : OperationId} (hid : id < c₁.operations.size) :
      (c.operation id).callNames c.types = (c₁.operation id).callNames c₁.types := by
    rw [hop]
    exact Operation.callNames_grows hgrows h₁.sound (h₁.owner id hid) (h₁.parameters id)
  have hperm (name : String) (arity : Nat) :
      (c.candidates name arity).Perm (c₁.candidates name arity) := by
    rw [candidates_eq h, Manifest.registered, hoperations]
    exact Overload.perm_sortCandidates _ _
  have hsignatures (name : String) (arity : Nat) :
      ((c.candidates name arity).map fun id => (c.operation id).signature).Nodup := by
    rw [funext hop]
    exact (((hperm name arity).map _).nodup_iff).mpr (h₁.distinct name arity)
  refine { listed := fun name arity id hid => ?listed, nodup := fun name arity => ?nodup,
           distinct := fun name arity => ?distinct, covered := fun id hid name hname => ?covered,
           sorted := fun name arity => ?sorted, first := fun before decl after hsplit hfirst => ?first,
           undeclared := fun name hname => ?undeclared, named := fun id hid => ?named }
  case listed =>
    have hid₁ := (hperm name arity).mem_iff.mp hid
    rw [hops, hnames (h₁.filed.lt hid₁)]
    exact ⟨h₁.filed.lt hid₁, arity_of_mem_candidates h hid, h₁.called name arity id hid₁⟩
  case nodup => exact (hsignatures name arity).of_map _
  case distinct =>
    have hdistinct := List.pairwise_map.mp (hsignatures name arity)
    refine hdistinct.imp fun hne => ?_
    exact Bool.eq_false_iff.mpr fun hsame => hne (Operation.sameSignature_iff.mp hsame)
  case covered =>
    rw [hops] at hid
    rw [hnames hid] at hname
    obtain ⟨other, hother, hsame⟩ := List.mem_map.mp (h₁.listed id hid name hname)
    rw [hop]
    refine ⟨other, (hperm name _).mem_iff.mpr hother, ?_⟩
    rw [hop, Operation.sameSignature_iff]
    exact hsame
  case sorted =>
    rw [candidates_eq h]
    exact Overload.perm_sortCandidates _ _
  case first =>
    have hfree : ({ empty with types := types } : Catalog).byFullName.contains decl.name = false :=
      rfl
    rw [hsplit] at hfold
    obtain ⟨c₀, op, types', hbefore, hdeclared, hgrows', hfound⟩ :=
      hempty.operationNamed?_first hfree hfirst hfold
    refine ⟨c₀, op, types', ?_, hdeclared, hgrows'.trans hgrows, (hnamed _).trans hfound⟩
    unfold loadFirst
    rw [htypes]
    exact hbefore
  case undeclared =>
    have hfree : ¬c₁.byFullName.contains name = true := by
      rw [foldlM_contains hfold]
      rintro (hnot | ⟨decl, hdecl, heq⟩)
      · cases hnot
      · exact hname decl hdecl heq
    rw [hnamed, operationNamed?,
      OrderedMap.contains_eq_false_iff.mp (Bool.eq_false_iff.mpr hfree), Option.map_none]
  case named =>
    rw [operationNamed?, (Loaded.indexed (Or.inr ⟨manifest, h⟩)).named id hid, Option.map_some]

/-- A sum of transforms is declared twice, and gives way to the sum of components, which takes the
same arguments. -/
theorem load_indexes_replaced : ∃ manifest c, load manifest = .ok c ∧ c.IndexOf manifest ∧
    manifest.operations.length = 3 ∧ c.operations.size = 2 + Manifest.intrinsics.length ∧
    c.candidates "+" 2 = [1] ∧ (c.operation 0).callNames c.types = ["+"] := by
  obtain ⟨manifest, hlength, hknown⟩ : ∃ manifest : Manifest, manifest.operations.length = 3 ∧
      (load manifest).toOption.map (fun c =>
        (c.operations.size, c.candidates "+" 2, (c.operation 0).callNames c.types)) =
      some (4, [1], ["+"]) := by
    refine ⟨⟨[⟨"Component", "Component", none, false⟩,
      ⟨"Transform", "Transform", some "Component", false⟩],
      ["Transform", "Component", "Transform"].map fun owner =>
        Manifest.function owner "op_Addition" ["SystemObject", "SystemObject"] "SystemObject", []⟩,
      rfl, ?_⟩
    decide +kernel
  obtain ⟨c, hload, hknown⟩ := exists_ok_of_map hknown
  obtain ⟨hsize, hcandidates, hnames⟩ := by simpa only [Prod.mk.injEq] using hknown
  exact ⟨manifest, c, hload, load_indexes hload, hlength, hsize, hcandidates, hnames⟩

end Catalog

end SexprAsm
