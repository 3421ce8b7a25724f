import SexprAsm.Catalog
import SexprAsm.Proofs.Outcome
import SexprAsm.Proofs.TypeTable

/-!
# Loaded catalogues

What holds of every catalogue that a manifest loads into: its types derive from the root, the
built-in types keep their names, parameters have types of the table, and an operation that an
overload resolves to is the one found under its full name.
-/

namespace SexprAsm

namespace Overload

theorem mem_addCandidate {ctx : Context} {id other : OperationId} {ids : List OperationId}
    (h : other ∈ addCandidate ctx id ids) : other = id ∨ other ∈ ids := by
  induction ids with
  | nil => exact Or.inl (List.mem_singleton.mp h)
  | cons first rest ih =>
    unfold addCandidate at h
    split at h
    next =>
      split at h
      next => exact Or.inr h
      next =>
        rcases List.mem_cons.mp h with rfl | h
        · exact Or.inl rfl
        · exact Or.inr (List.mem_cons_of_mem _ h)
    next =>
      rcases List.mem_cons.mp h with rfl | h
      · exact Or.inr List.mem_cons_self
      · exact (ih h).imp_right (List.mem_cons_of_mem _)

theorem mem_insertBack {ctx : Context} {id other : OperationId} {ids : List OperationId}
    (h : other ∈ insertBack ctx id ids) : other = id ∨ other ∈ ids := by
  induction ids with
  | nil => exact Or.inl (List.mem_singleton.mp h)
  | cons last before ih =>
    unfold insertBack at h
    split at h
    next =>
      rcases List.mem_cons.mp h with rfl | h
      · exact Or.inr List.mem_cons_self
      · exact (ih h).imp_right (List.mem_cons_of_mem _)
    next => exact List.mem_cons.mp h

theorem mem_sortCandidates {ctx : Context} {other : OperationId} {ids : List OperationId}
    (h : other ∈ sortCandidates ctx ids) : other ∈ ids := by
  have hfold : ∀ (ids sorted : List OperationId),
      other ∈ ids.foldl (fun sorted id => insertBack ctx id sorted) sorted →
        other ∈ ids ∨ other ∈ sorted := by
    intro ids
    induction ids with
    | nil => exact fun _ h => Or.inr h
    | cons id ids ih =>
      intro sorted h
      rcases ih _ h with h | h
      · exact Or.inl (List.mem_cons_of_mem _ h)
      · rcases mem_insertBack h with rfl | h
        · exact Or.inl List.mem_cons_self
        · exact Or.inr h
  rcases hfold ids [] (List.mem_reverse.mp h) with h | h
  · exact h
  · cases h

end Overload

namespace Catalog

open TypeTable

variable {c c' : Catalog}

/-- The index of a catalogue agrees with its operations. -/
structure Indexed (c : Catalog) : Prop where
  complete : c.types.Complete
  initial : TypeTable.initial.Extends c.types
  parameters : ∀ id, ∀ p ∈ (c.operation id).parameters, p.type < c.types.size
  named : ∀ id < c.operations.size, c.byFullName.get? (c.operation id).fullName = some id
  candidates : ∀ key ids, c.overloads.get? key = some ids → ∀ id ∈ ids, id < c.operations.size

theorem indexed_empty : empty.Indexed where
  complete := by
    simp only [empty]
    exact complete_initial
  initial := by
    simp only [empty]
    exact .refl _
  parameters id p hp := by
    rw [show empty.operation id = default from rfl] at hp
    cases hp
  named id hid := by cases hid
  candidates key ids hids := by cases hids

theorem Indexed.withTypes (h : c.Indexed) {types : TypeTable} (hcomplete : types.Complete)
    (hext : c.types.Extends types) : ({ c with types := types } : Catalog).Indexed :=
  ⟨hcomplete, h.initial.trans hext,
    fun id p hp => Nat.lt_of_lt_of_le (h.parameters id p hp) hext.size_le, h.named, h.candidates⟩

/-! ## Types

Every stage of the loader keeps the table complete, so the types that names stand for are in it. -/

theorem resolveType_spec {types types' : TypeTable} {name context : String} {id : TypeId}
    (h : resolveType types name context = .ok (id, types')) (hcomplete : types.Complete) :
    types'.Complete ∧ types.Extends types' ∧ id < types'.size := by
  unfold resolveType at h
  split at h
  next found hfound =>
    obtain rfl := Except.ok.inj h
    exact hcomplete.resolveWithin hfound
  next => cases h

theorem resolveParameters_cons {types types' : TypeTable} {context : String} {decl : ParameterDecl}
    {decls : List ParameterDecl} {parameters : List Parameter}
    (h : resolveParameters context types (decl :: decls) = .ok (parameters, types')) :
    ∃ type types₁ rest, resolveType types decl.type context = .ok (type, types₁) ∧
      resolveParameters context types₁ decls = .ok (rest, types') ∧
      parameters = ⟨decl.name, type, decl.direction⟩ :: rest := by
  obtain ⟨⟨type, types₁⟩, htype, h⟩ := Except.bind_eq_ok.mp h
  obtain ⟨⟨rest, _⟩, hrest, h⟩ := Except.bind_eq_ok.mp h
  obtain ⟨rfl, rfl⟩ := Prod.mk.inj (Except.ok.inj h)
  exact ⟨type, types₁, rest, htype, hrest, rfl⟩

theorem resolveParameters_spec {types types' : TypeTable} {context : String}
    {decls : List ParameterDecl} {parameters : List Parameter}
    (h : resolveParameters context types decls = .ok (parameters, types'))
    (hcomplete : types.Complete) :
    types'.Complete ∧ types.Extends types' ∧ ∀ p ∈ parameters, p.type < types'.size := by
  induction decls generalizing types parameters with
  | nil =>
    obtain ⟨rfl, rfl⟩ := Prod.mk.inj (Except.ok.inj h)
    exact ⟨hcomplete, .refl _, fun p hp => by cases hp⟩
  | cons decl decls ih =>
    obtain ⟨type, types₁, rest, htype, hrest, rfl⟩ := resolveParameters_cons h
    obtain ⟨hcomplete₁, hext₁, hlt⟩ := resolveType_spec htype hcomplete
    obtain ⟨hcomplete₂, hext₂, hparameters⟩ := ih hrest hcomplete₁
    refine ⟨hcomplete₂, hext₁.trans hext₂, fun p hp => ?_⟩
    rcases List.mem_cons.mp hp with rfl | hp
    · exact Nat.lt_of_lt_of_le hlt hext₂.size_le
    · exact hparameters p hp

theorem declareTypes_spec (types : TypeTable) (decls : List TypeDecl) (h : types.Complete) :
    (declareTypes types decls).2.Complete ∧ types.Extends (declareTypes types decls).2 := by
  induction decls generalizing types with
  | nil => exact ⟨h, .refl _⟩
  | cons decl decls ih =>
    obtain ⟨hcomplete, hext, -⟩ := h.declare decl.name decl.shortName decl.valueType
    obtain ⟨hcomplete', hext'⟩ := ih _ hcomplete
    exact ⟨hcomplete', hext.trans hext'⟩

theorem setBases_cons {types types' : TypeTable} {entry : TypeDecl × TypeId}
    {entries : List (TypeDecl × TypeId)} (h : setBases types (entry :: entries) = .ok types') :
    entry.1.base = none ∧ setBases types entries = .ok types' ∨
      ∃ name base types₁, entry.1.base = some name ∧
        resolveType types name entry.1.name = .ok (base, types₁) ∧
        setBases (types₁.setBase entry.2 base) entries = .ok types' := by
  unfold setBases at h
  split at h
  next hbase => exact Or.inl ⟨hbase, h⟩
  next name hbase =>
    obtain ⟨⟨base, types₁⟩, htype, hrest⟩ := Except.bind_eq_ok.mp h
    exact Or.inr ⟨name, base, types₁, hbase, htype, hrest⟩

theorem setBases_spec {types types' : TypeTable} {entries : List (TypeDecl × TypeId)}
    (h : setBases types entries = .ok types') (hcomplete : types.Complete) :
    types'.Complete ∧ types.Extends types' := by
  induction entries generalizing types with
  | nil =>
    obtain rfl := Except.ok.inj h
    exact ⟨hcomplete, .refl _⟩
  | cons entry entries ih =>
    rcases setBases_cons h with ⟨-, hrest⟩ | ⟨name, base, types₁, -, htype, hrest⟩
    · exact ih hrest hcomplete
    · obtain ⟨hcomplete₁, hext₁, hlt⟩ := resolveType_spec htype hcomplete
      obtain ⟨hcomplete₂, hext₂⟩ := hcomplete₁.setBase entry.2 hlt
      obtain ⟨hcomplete₃, hext₃⟩ := ih hrest hcomplete₂
      exact ⟨hcomplete₃, hext₁.trans (hext₂.trans hext₃)⟩

theorem foldl_arrayOf_spec (ids : List TypeId) (types : TypeTable) (h : types.Complete) :
    (ids.foldl (fun types id => (types.arrayOf id).2) types).Complete ∧
      types.Extends (ids.foldl (fun types id => (types.arrayOf id).2) types) := by
  induction ids generalizing types with
  | nil => exact ⟨h, .refl _⟩
  | cons id ids ih =>
    obtain ⟨hcomplete, hext, -⟩ := h.arrayOf id
    obtain ⟨hcomplete', hext'⟩ := ih _ hcomplete
    exact ⟨hcomplete', hext.trans hext'⟩

/-- Types are loaded in three stages: all are entered, their bases are set, and then come arrays. -/
theorem loadTypes_stages {types types' : TypeTable} {decls : List TypeDecl}
    (h : loadTypes types decls = .ok types') :
    firstRepeated? [] (decls.map (·.name)) = none ∧
      ∃ types₁, setBases (declareTypes types decls).2 (decls.zip (declareTypes types decls).1) =
          .ok types₁ ∧
        types' = (declareTypes types decls).1.foldl (fun types id => (types.arrayOf id).2) types₁ := by
  unfold loadTypes at h
  cases hrepeated : firstRepeated? [] (decls.map (·.name)) with
  | some name => rw [hrepeated] at h; cases h
  | none =>
    rw [hrepeated] at h
    obtain ⟨types₁, hbases, h⟩ := Except.bind_eq_ok.mp h
    exact ⟨rfl, types₁, hbases, (Except.ok.inj h).symm⟩

theorem loadTypes_spec {types types' : TypeTable} {decls : List TypeDecl}
    (h : loadTypes types decls = .ok types') (hcomplete : types.Complete) :
    types'.Complete ∧ types.Extends types' := by
  obtain ⟨-, types₂, hbases, rfl⟩ := loadTypes_stages h
  obtain ⟨hcomplete₁, hext₁⟩ := declareTypes_spec types decls hcomplete
  obtain ⟨hcomplete₂, hext₂⟩ := setBases_spec hbases hcomplete₁
  obtain ⟨hcomplete₃, hext₃⟩ := foldl_arrayOf_spec (declareTypes types decls).1 _ hcomplete₂
  exact ⟨hcomplete₃, hext₁.trans (hext₂.trans hext₃)⟩

/-! ## Operations and events

`Indexed` is the invariant of the loader for operations: what the index lists is there, and takes
as many arguments as it is listed for. Registering an operation keeps it, and events do not touch
it. -/

/-- The operation of a declaration, with the types that its names stand for in a table. -/
def declaredOperation (types : TypeTable) (decl : OperationDecl) :
    Except CatalogError (Operation × TypeTable) := do
  let (owner, types) ← resolveType types decl.owner decl.name
  let (parameters, types) ← resolveParameters decl.name types decl.parameters
  return (⟨decl.name, owner, parameters⟩, types)

theorem declaredOperation_stages {types types' : TypeTable} {decl : OperationDecl} {op : Operation}
    (h : declaredOperation types decl = .ok (op, types')) :
    op.fullName = decl.name ∧ ∃ types₁,
      resolveType types decl.owner decl.name = .ok (op.owner, types₁) ∧
        resolveParameters decl.name types₁ decl.parameters = .ok (op.parameters, types') := by
  obtain ⟨⟨owner, types₁⟩, howner, h⟩ := Except.bind_eq_ok.mp h
  obtain ⟨⟨parameters, _⟩, hparameters, h⟩ := Except.bind_eq_ok.mp h
  obtain ⟨rfl, rfl⟩ := Prod.mk.inj (Except.ok.inj h)
  exact ⟨rfl, types₁, howner, hparameters⟩

/-- A declaration is left out if its name is taken, and registered otherwise. -/
theorem loadOperation_registers {decl : OperationDecl} (h : c.loadOperation decl = .ok c') :
    c.byFullName.contains decl.name = true ∧ c' = c ∨
      c.byFullName.contains decl.name = false ∧ (methodOf? decl.name).isSome = true ∧
        ∃ op types, declaredOperation c.types decl = .ok (op, types) ∧
          c' = ({ c with types := types } : Catalog).register op := by
  unfold Catalog.loadOperation at h
  split at h
  next htaken => exact Or.inl ⟨htaken, (Except.ok.inj h).symm⟩
  next hfree =>
    split at h
    next => cases h
    next hmethod =>
      obtain ⟨⟨owner, types₁⟩, howner, h⟩ := Except.bind_eq_ok.mp h
      obtain ⟨⟨parameters, types₂⟩, hparameters, h⟩ := Except.bind_eq_ok.mp h
      have hdeclared : declaredOperation c.types decl = .ok (⟨decl.name, owner, parameters⟩, types₂) :=
        Except.bind_eq_ok.mpr ⟨_, howner, Except.bind_eq_ok.mpr ⟨_, hparameters, rfl⟩⟩
      exact Or.inr ⟨Bool.eq_false_iff.mpr hfree,
        Option.isSome_iff_ne_none.mpr (by simpa using hmethod), _, types₂, hdeclared,
        (Except.ok.inj h).symm⟩

/-- An event brings types and predefined variables. -/
theorem loadEvent_stages {decl : EventDecl} (h : c.loadEvent decl = .ok c') :
    ∃ parameters types, resolveParameters decl.name c.types decl.parameters =
        .ok (parameters, types) ∧
      c' = { c with
        types := types
        predefined := parameters.foldl (fun predefined p => predefined.put
          (Text.lowerFirst decl.name ++ Text.upperFirst p.name) p.type) c.predefined
        events := c.events.put ("_" ++ Text.lowerFirst decl.name)
          ⟨decl.name, "_" ++ Text.lowerFirst decl.name, parameters⟩ } := by
  obtain ⟨⟨parameters, types⟩, hparameters, h⟩ := Except.bind_eq_ok.mp h
  exact ⟨parameters, types, hparameters, (Except.ok.inj h).symm⟩

theorem operation_push (c : Catalog) (op : Operation) (id : OperationId) :
    ({ c with operations := c.operations.push op } : Catalog).operation id =
      if id = c.operations.size then op else c.operation id := by
  simp only [operation, context, Overload.Context.operation, Array.getD_eq_getD_getElem?,
    Array.getElem?_push]
  split <;> rfl

/-- A list of candidates gets at most the new operation. -/
theorem lt_of_filed {ctx : Overload.Context} {arity size : Nat} {names : List String}
    {overloads : OrderedMap CallKey (List OperationId)}
    (hall : ∀ key ids, overloads.get? key = some ids → ∀ id ∈ ids, id < size + 1) :
    ∀ key ids, (names.foldl (fun overloads name =>
      overloads.put ⟨name, arity⟩ (Overload.addCandidate ctx size
        ((overloads.get? ⟨name, arity⟩).getD []))) overloads).get? key = some ids →
      ∀ id ∈ ids, id < size + 1 := by
  induction names generalizing overloads with
  | nil => exact hall
  | cons name names ih =>
    refine ih fun key ids hids id hid => ?_
    rw [OrderedMap.get?_put] at hids
    split at hids
    next =>
      obtain rfl := Option.some.inj hids
      rcases Overload.mem_addCandidate hid with rfl | hid
      · exact Nat.lt_succ_self _
      · cases hold : overloads.get? ⟨name, arity⟩ with
        | none => simp [hold] at hid
        | some old =>
          rw [hold] at hid
          exact hall _ old hold id hid
    next => exact hall key ids hids id hid

theorem Indexed.register (h : c.Indexed) {op : Operation}
    (hfree : c.byFullName.get? op.fullName = none)
    (hparameters : ∀ p ∈ op.parameters, p.type < c.types.size) : (c.register op).Indexed := by
  refine ⟨h.complete, h.initial, ?_, ?_, ?_⟩
  · intro id p hp
    rw [show (c.register op).operation id = _ from operation_push c op id] at hp
    split at hp
    · exact hparameters p hp
    · exact h.parameters id p hp
  · intro id hid
    rw [show (c.register op).operation id = _ from operation_push c op id]
    show (c.byFullName.put op.fullName c.operations.size).get? _ = some id
    rw [OrderedMap.get?_put]
    have hid : id < c.operations.size + 1 := by simpa [Catalog.register] using hid
    by_cases hlast : id = c.operations.size
    · simp [hlast]
    · rw [if_neg hlast]
      have hnamed := h.named id (by omega)
      rw [if_neg]
      · exact hnamed
      · intro heq
        rw [heq, hfree] at hnamed
        cases hnamed
  · intro key ids hids id hid
    have hlt := lt_of_filed (fun key ids hids id hid =>
      Nat.lt_succ_of_lt (h.candidates key ids hids id hid)) key ids hids id hid
    simpa [Catalog.register] using hlt

theorem Indexed.loadOperation (h : c.Indexed) {decl : OperationDecl}
    (hload : c.loadOperation decl = .ok c') : c'.Indexed := by
  rcases loadOperation_registers hload with ⟨-, rfl⟩ | ⟨hfree, -, op, types, hop, rfl⟩
  · exact h
  · obtain ⟨hname, types₁, howner, hparameters⟩ := declaredOperation_stages hop
    obtain ⟨hcomplete, hext, -⟩ := resolveType_spec howner h.complete
    obtain ⟨hcomplete', hext', hlt⟩ := resolveParameters_spec hparameters hcomplete
    refine (h.withTypes hcomplete' (hext.trans hext')).register ?_ hlt
    rw [hname]
    exact OrderedMap.contains_eq_false_iff.mp hfree

theorem Indexed.sortOverloads (h : c.Indexed) : c.sortOverloads.Indexed := by
  refine ⟨h.complete, h.initial, h.parameters, h.named, fun key ids hids id hid => ?_⟩
  have hids : (c.overloads.get? key).map (Overload.sortCandidates c.context) = some ids := by
    rw [← OrderedMap.get?_map]
    exact hids
  obtain ⟨old, hold, rfl⟩ := Option.map_eq_some_iff.mp hids
  exact h.candidates key old hold id (Overload.mem_sortCandidates hid)

theorem Indexed.loadEvent (h : c.Indexed) {decl : EventDecl}
    (hload : c.loadEvent decl = .ok c') : c'.Indexed := by
  obtain ⟨parameters, types, hparameters, rfl⟩ := loadEvent_stages hload
  obtain ⟨hcomplete, hext, -⟩ := resolveParameters_spec hparameters h.complete
  obtain ⟨hcomplete, hinitial, hparameters, hnamed, hcandidates⟩ := h.withTypes hcomplete hext
  exact ⟨hcomplete, hinitial, hparameters, hnamed, hcandidates⟩

/-- A catalogue that a host can have: the one without a manifest, or a loaded one. -/
def Loaded (c : Catalog) : Prop := c = empty ∨ ∃ manifest, load manifest = .ok c

/-- A manifest is loaded in three stages: its types, its operations, and its events. -/
theorem load_stages {manifest : Manifest} (h : load manifest = .ok c) :
    ∃ types c₁ c₂, loadTypes empty.types manifest.types = .ok types ∧
      (manifest.operations ++ Manifest.intrinsics).foldlM loadOperation
        { empty with types := types } = .ok c₁ ∧
      manifest.events.foldlM loadEvent c₁.sortOverloads = .ok c₂ ∧
      c = { c₂ with reference := c.reference } := by
  obtain ⟨types, htypes, h⟩ := Except.bind_eq_ok.mp h
  obtain ⟨c₁, hoperations, h⟩ := Except.bind_eq_ok.mp h
  obtain ⟨c₂, hevents, h⟩ := Except.bind_eq_ok.mp h
  obtain rfl := Except.ok.inj h
  exact ⟨types, c₁, c₂, htypes, hoperations, hevents, rfl⟩

theorem Loaded.indexed (h : c.Loaded) : c.Indexed := by
  rcases h with rfl | ⟨manifest, h⟩
  · exact indexed_empty
  · obtain ⟨types, c₁, c₂, htypes, hoperations, hevents, hc⟩ := load_stages h
    obtain ⟨hcomplete, hext⟩ := loadTypes_spec htypes indexed_empty.complete
    have h₁ := foldlM_keeps (fun h => Indexed.loadOperation h)
      (indexed_empty.withTypes hcomplete hext) hoperations
    obtain ⟨hcomplete, hinitial, hparameters, hnamed, hcandidates⟩ :=
      foldlM_keeps (fun h => Indexed.loadEvent h) h₁.sortOverloads hevents
    rw [hc]
    exact ⟨hcomplete, hinitial, hparameters, hnamed, hcandidates⟩

theorem loadOperation_predefined {decl : OperationDecl} (h : c.loadOperation decl = .ok c') :
    c'.predefined = c.predefined := by
  rcases loadOperation_registers h with ⟨-, rfl⟩ | ⟨-, -, op, types, -, rfl⟩ <;> rfl

theorem loadEvent_predefined {decl : EventDecl} {name : String} (h : c.loadEvent decl = .ok c')
    (hname : c.predefined.contains name = true) : c'.predefined.contains name = true := by
  obtain ⟨parameters, types, -, rfl⟩ := loadEvent_stages h
  clear h
  show OrderedMap.contains (List.foldl _ _ _) name = true
  generalize c.predefined = predefined at hname ⊢
  induction parameters generalizing predefined with
  | nil => exact hname
  | cons p parameters ih =>
    refine ih _ ?_
    rw [OrderedMap.contains, OrderedMap.get?_put]
    split
    · rfl
    · exact hname

/-- The variable for the result of an event is predefined in every catalogue. -/
theorem Loaded.predefines_returnValue (h : c.Loaded) :
    c.predefined.contains returnValue = true := by
  rcases h with rfl | ⟨manifest, h⟩
  · rfl
  · obtain ⟨types, c₁, c₂, -, hoperations, hevents, hc⟩ := load_stages h
    have h₁ : c₁.predefined.contains returnValue = true := by
      refine foldlM_keeps (P := fun c => c.predefined.contains returnValue = true) ?_ ?_ hoperations
      · intro c c' decl hc hload
        rw [loadOperation_predefined hload]
        exact hc
      · rfl
    have h₂ : c₂.predefined.contains returnValue = true := by
      refine foldlM_keeps (P := fun c => c.predefined.contains returnValue = true)
        (c := c₁.sortOverloads) ?_ h₁ hevents
      intro c c' decl hc hload
      exact loadEvent_predefined hload hc
    rw [hc]
    exact h₂

/-! ## What compiling relies on

What later modules use of a loaded catalogue, so that they need not go back to how it was loaded. -/

/-- An operation that an overload resolves to is found under its full name. -/
theorem Indexed.operationNamed?_of_resolveOverload (h : c.Indexed) {name : String}
    {arguments : List TypeId} {id : OperationId}
    (hresolve : c.resolveOverload name arguments = some id) :
    c.operationNamed? (c.operation id).fullName = some (c.operation id) := by
  have hmem : id ∈ c.candidates name arguments.length := List.mem_of_find?_eq_some hresolve
  cases hids : c.overloads.get? ⟨name, arguments.length⟩ with
  | none => simp [Catalog.candidates, hids] at hmem
  | some ids =>
    rw [Catalog.candidates, hids] at hmem
    rw [operationNamed?, h.named id (h.candidates _ ids hids id hmem)]
    rfl

theorem Indexed.name_builtin (h : c.Indexed) {name : String} {id : TypeId}
    (hlookup : TypeTable.initial.lookup name = some id)
    (hname : TypeTable.initial.name id = name) : c.types.name (c.types.builtin name) = name := by
  have hid := complete_initial.wellFormed.lookup_lt name id hlookup
  rw [builtin, h.initial.lookup name id hlookup, Option.getD_some, h.initial.name id hid, hname]

/-- The built-in types keep their names. -/
theorem Indexed.names (h : c.Indexed) :
    c.types.name void = voidName ∧ c.types.name (c.types.builtin booleanName) = booleanName ∧
      c.types.name (c.types.builtin uint32Name) = uint32Name := by
  obtain ⟨hvoid, hboolean, huint32, hnames⟩ :
      TypeTable.initial.lookup voidName = some void ∧
      TypeTable.initial.lookup booleanName = some 6 ∧
      TypeTable.initial.lookup uint32Name = some 12 ∧
      TypeTable.initial.name void = voidName ∧ TypeTable.initial.name 6 = booleanName ∧
      TypeTable.initial.name 12 = uint32Name := by decide +kernel
  refine ⟨?_, h.name_builtin hboolean hnames.2.1, h.name_builtin huint32 hnames.2.2⟩
  have := h.name_builtin hvoid hnames.1
  rwa [builtin, h.initial.lookup _ _ hvoid] at this

/-- A variable of the root type starts without a value. -/
theorem Indexed.defaultValue?_object (h : c.Indexed) : c.types.defaultValue? object = none := by
  have hname := h.initial.name object complete_initial.pos
  rw [defaultValue?, hname]
  decide +kernel

/-- A result of any operation may be stored in a slot of the root type. -/
theorem Indexed.isCompatible_object (h : c.Indexed) {name : String} {op : Operation}
    (hop : c.operationNamed? name = some op) {p : Parameter} (hp : p ∈ op.parameters) :
    c.types.isCompatible p.type object = true := by
  obtain ⟨id, -, rfl⟩ := Option.map_eq_some_iff.mp hop
  exact h.complete.wellFormed.isCompatible_object (h.parameters id p hp)

end Catalog

end SexprAsm
