import SexprAsm.Proofs.Catalog
import SexprAsm.Proofs.TypeTable.Requests

/-!
# The requests of the loader

Loading a manifest changes its table of types through requests alone, so that all that is known of
tables under requests holds of the types of every catalogue. Types are entered throughout; bases are
set in one place, and `Manifest.SetsBases` says of which kind these requests are.
-/

namespace SexprAsm

namespace TypeTable

variable {t t' : TypeTable}

/-- The request only enters types, and those that it speaks of are in the table. -/
def Request.IsEntry (t : TypeTable) : Request → Prop
  | setBase _ _ => False
  | request => request.Fits t

theorem Request.IsEntry.fits {request : Request} (h : request.IsEntry t) : request.Fits t := by
  cases request with
  | setBase => exact h.elim
  | _ => exact h

theorem Leads.mono {allowed allowed' : TypeTable → Request → Prop}
    (hallowed : ∀ t request, allowed t request → allowed' t request) (h : Leads allowed t t') :
    Leads allowed' t t' := by
  induction h with
  | refl => exact .refl
  | step _ request hrequest ih => exact .step ih request (hallowed _ _ hrequest)

/-- Requests that only enter types make a table grow. -/
theorem Leads.grows (hleads : Leads Request.IsEntry t t') (h : t.Sound) : t.Grows t' := by
  induction hleads with
  | refl => exact .refl
  | step hleads request hentry ih =>
    obtain ⟨hsound, -⟩ := hleads.sound (fun _ _ => Request.IsEntry.fits) h
    rcases hsound.complete.after_grows hentry.fits with hgrows | ⟨id, base, rfl⟩
    · exact ih.trans hgrows
    · exact hentry.elim

end TypeTable

open TypeTable

namespace Catalog

variable {c c' : Catalog} {types types' : TypeTable}

/-! ## Finding types -/

theorem resolve_of_resolveType {name context : String} {found : TypeId × TypeTable}
    (h : resolveType types name context = .ok found) : types.resolve name = some found := by
  unfold resolveType at h
  split at h
  next hfound => rw [hfound, Except.ok.inj h]
  next => cases h

theorem resolveType_leads {name context : String} {id : TypeId}
    (h : resolveType types name context = .ok (id, types')) :
    Leads Request.IsEntry types types' := by
  have hafter : (Request.resolve name).after types = types' := by
    show (types.resolve name).elim types Prod.snd = types'
    rw [resolve_of_resolveType h]
    rfl
  exact hafter ▸ Leads.refl.step (.resolve name) trivial

theorem resolveParameters_leads {context : String} {decls : List ParameterDecl}
    {parameters : List Parameter}
    (h : resolveParameters context types decls = .ok (parameters, types')) :
    Leads Request.IsEntry types types' := by
  induction decls generalizing types parameters with
  | nil =>
    obtain ⟨-, rfl⟩ := Prod.mk.inj (Except.ok.inj h)
    exact .refl
  | cons decl decls ih =>
    obtain ⟨type, types₁, rest, htype, hrest, -⟩ := resolveParameters_cons h
    exact (resolveType_leads htype).trans (ih hrest)

/-! ## Loading types -/

theorem declareTypes_leads (types : TypeTable) (decls : List TypeDecl) :
    Leads Request.IsEntry types (declareTypes types decls).2 := by
  induction decls generalizing types with
  | nil => exact .refl
  | cons decl decls ih =>
    exact (Leads.refl.step (.declare decl.name decl.shortName decl.valueType) trivial).trans (ih _)

theorem declareTypes_lt (decls : List TypeDecl) (h : types.Complete) :
    ∀ id ∈ (declareTypes types decls).1, id < (declareTypes types decls).2.size := by
  induction decls generalizing types with
  | nil => exact fun _ hid => by cases hid
  | cons decl decls ih =>
    obtain ⟨hcomplete, -, hlt⟩ := h.declare decl.name decl.shortName decl.valueType
    obtain ⟨-, hext⟩ := declareTypes_spec _ decls hcomplete
    intro id hid
    rcases List.mem_cons.mp hid with rfl | hid
    · exact Nat.lt_of_lt_of_le hlt hext.size_le
    · exact ih hcomplete id hid

/-- A declared type is found under its name. -/
theorem declareTypes_lookup (decls : List TypeDecl) (h : types.Complete) :
    ∀ entry ∈ decls.zip (declareTypes types decls).1,
      (declareTypes types decls).2.lookup entry.1.name = some entry.2 := by
  induction decls generalizing types with
  | nil => exact fun _ hentry => by cases hentry
  | cons decl decls ih =>
    obtain ⟨hcomplete, -, -⟩ := h.declare decl.name decl.shortName decl.valueType
    obtain ⟨-, hext⟩ := declareTypes_spec _ decls hcomplete
    intro entry hentry
    rcases List.mem_cons.mp hentry with rfl | hentry
    · exact hext.lookup _ _ (lookup_declare types decl.name decl.shortName decl.valueType)
    · exact ih hcomplete entry hentry

theorem foldl_arrayOf_leads {ids : List TypeId} (h : types.Complete)
    (hids : ∀ id ∈ ids, id < types.size) :
    Leads Request.IsEntry types (ids.foldl (fun types id => (types.arrayOf id).2) types) := by
  induction ids generalizing types with
  | nil => exact .refl
  | cons id ids ih =>
    obtain ⟨hcomplete, hext, -⟩ := h.arrayOf id
    have hfirst : (Request.arrayOf id).IsEntry types := hids id List.mem_cons_self
    refine (Leads.refl.step (.arrayOf id) hfirst).trans (ih hcomplete fun other hother => ?_)
    exact Nat.lt_of_lt_of_le (hids other (List.mem_cons_of_mem _ hother)) hext.size_le

/-- Every base that the loader sets is an allowed request at that point. -/
def SetsBases (allowed : TypeTable → Request → Prop) :
    TypeTable → List (TypeDecl × TypeId) → Prop
  | _, [] => True
  | types, (decl, id) :: rest =>
    match decl.base with
    | none => SetsBases allowed types rest
    | some name => ∀ found ∈ types.resolve name,
        allowed found.2 (.setBase id found.1) ∧
          SetsBases allowed (found.2.setBase id found.1) rest

theorem setBases_leads {allowed : TypeTable → Request → Prop}
    (hentry : ∀ t request, Request.IsEntry t request → allowed t request)
    {decls : List (TypeDecl × TypeId)} (hsets : SetsBases allowed types decls)
    (h : setBases types decls = .ok types') : Leads allowed types types' := by
  induction decls generalizing types with
  | nil =>
    obtain rfl := Except.ok.inj h
    exact .refl
  | cons decl decls ih =>
    unfold SetsBases at hsets
    rcases setBases_cons h with ⟨hbase, hrest⟩ | ⟨name, base, types₁, hbase, htype, hrest⟩
    · simp only [hbase] at hsets
      exact ih hsets hrest
    · simp only [hbase] at hsets
      obtain ⟨hallowed, hsets⟩ := hsets (base, types₁) (resolve_of_resolveType htype)
      -- The name is resolved first, which only enters types; then the base is set.
      have hstep := ((resolveType_leads htype).mono hentry).step _ hallowed
      exact hstep.trans (ih hsets hrest)

/-- The loader sets bases only among the types of the table. -/
theorem setsBases_fits {decls : List (TypeDecl × TypeId)} (h : types.Complete)
    (hdecls : ∀ decl ∈ decls, decl.2 < types.size) : SetsBases Request.Fits types decls := by
  induction decls generalizing types with
  | nil => trivial
  | cons decl decls ih =>
    have hrest := fun other hother => hdecls other (List.mem_cons_of_mem decl hother)
    unfold SetsBases
    split
    next => exact ih h hrest
    next name =>
      intro found hfound
      obtain ⟨hcomplete, hext, hbase⟩ := h.resolveWithin hfound
      obtain ⟨hcomplete', hext'⟩ := hcomplete.setBase decl.2 hbase
      have hid := Nat.lt_of_lt_of_le (hdecls decl List.mem_cons_self) hext.size_le
      refine ⟨⟨hid, hbase⟩, ih hcomplete' fun other hother => ?_⟩
      exact Nat.lt_of_lt_of_le (hrest other hother) (hext.trans hext').size_le

theorem loadTypes_leads {allowed : TypeTable → Request → Prop}
    (hentry : ∀ t request, Request.IsEntry t request → allowed t request)
    {decls : List TypeDecl} (hcomplete : types.Complete)
    (hsets : SetsBases allowed (declareTypes types decls).2
      (decls.zip (declareTypes types decls).1))
    (h : loadTypes types decls = .ok types') : Leads allowed types types' := by
  obtain ⟨-, types₂, hbases, rfl⟩ := loadTypes_stages h
  obtain ⟨hcomplete₁, -⟩ := declareTypes_spec types decls hcomplete
  obtain ⟨hcomplete₂, hext₂⟩ := setBases_spec hbases hcomplete₁
  have harrays := foldl_arrayOf_leads hcomplete₂ fun id hid =>
    Nat.lt_of_lt_of_le (declareTypes_lt decls hcomplete id hid) hext₂.size_le
  exact (((declareTypes_leads types decls).mono hentry).trans
    (setBases_leads hentry hsets hbases)).trans (harrays.mono hentry)

/-! ## Loading operations and events -/

/-- An operation is left out because its name is taken, or registered after its types. -/
theorem loadOperation_cases {decl : OperationDecl} (h : c.loadOperation decl = .ok c') :
    c' = c ∨ ∃ types op, Leads Request.IsEntry c.types types ∧
      c' = ({ c with types := types } : Catalog).register op := by
  rcases loadOperation_registers h with ⟨-, rfl⟩ | ⟨-, -, op, types, hop, rfl⟩
  · exact Or.inl rfl
  · obtain ⟨-, types₁, howner, hparameters⟩ := declaredOperation_stages hop
    exact Or.inr ⟨types, op, (resolveType_leads howner).trans (resolveParameters_leads hparameters),
      rfl⟩

theorem loadOperation_leads {decl : OperationDecl} (h : c.loadOperation decl = .ok c') :
    Leads Request.IsEntry c.types c'.types := by
  rcases loadOperation_cases h with rfl | ⟨types, op, hleads, rfl⟩
  · exact .refl
  · exact hleads

/-- An event leaves the operations, their names and their candidates alone. -/
theorem loadEvent_cases {decl : EventDecl} (h : c.loadEvent decl = .ok c') :
    Leads Request.IsEntry c.types c'.types ∧ c'.operations = c.operations ∧
      c'.byFullName = c.byFullName ∧ c'.overloads = c.overloads := by
  obtain ⟨parameters, types, hparameters, rfl⟩ := loadEvent_stages h
  exact ⟨resolveParameters_leads hparameters, rfl, rfl, rfl⟩

theorem foldlM_leads {α : Type} {step : Catalog → α → Except CatalogError Catalog}
    (hstep : ∀ {c c' : Catalog} {a : α}, step c a = .ok c' →
      Leads Request.IsEntry c.types c'.types)
    {items : List α} (h : items.foldlM step c = .ok c') :
    Leads Request.IsEntry c.types c'.types :=
  foldlM_keeps (P := fun c' => Leads Request.IsEntry c.types c'.types)
    (fun hleads hnext => hleads.trans (hstep hnext)) .refl h

/-- A catalogue with the types and operations of a manifest, whose candidates are not sorted yet. -/
def loadOperations (manifest : Manifest) : Except CatalogError Catalog := do
  let types ← loadTypes .initial manifest.types
  (manifest.operations ++ Manifest.intrinsics).foldlM loadOperation { empty with types := types }

theorem loadOperations_stages {manifest : Manifest} :
    loadOperations manifest = .ok c ↔ ∃ types, loadTypes .initial manifest.types = .ok types ∧
      (manifest.operations ++ Manifest.intrinsics).foldlM loadOperation
        { empty with types := types } = .ok c := by
  exact Except.bind_eq_ok

/-- Candidates are sorted between the operations and the events. -/
theorem load_sorts {manifest : Manifest} (h : load manifest = .ok c) :
    ∃ c₁ c₂, loadOperations manifest = .ok c₁ ∧
      manifest.events.foldlM loadEvent c₁.sortOverloads = .ok c₂ ∧
      c = { c₂ with reference := c.reference } := by
  obtain ⟨types, c₁, c₂, htypes, hoperations, hevents, hc⟩ := load_stages h
  rw [show empty.types = TypeTable.initial by simp only [empty]] at htypes
  exact ⟨c₁, c₂, loadOperations_stages.mpr ⟨types, htypes, hoperations⟩, hevents, hc⟩

end Catalog

/-- Every base that is set when a manifest is loaded is an allowed request at that point. -/
def Manifest.SetsBases (allowed : TypeTable → Request → Prop) (manifest : Manifest) : Prop :=
  let declared := Catalog.declareTypes .initial manifest.types
  Catalog.SetsBases allowed declared.2 (manifest.types.zip declared.1)

theorem Catalog.loadOperations_leads {allowed : TypeTable → Request → Prop}
    (hentry : ∀ t request, Request.IsEntry t request → allowed t request) {manifest : Manifest}
    (hsets : manifest.SetsBases allowed) {c : Catalog} (h : loadOperations manifest = .ok c) :
    Leads allowed .initial c.types := by
  obtain ⟨types, htypes, hoperations⟩ := loadOperations_stages.mp h
  have hleads : Leads Request.IsEntry types c.types := foldlM_leads loadOperation_leads hoperations
  exact (loadTypes_leads hentry complete_initial hsets htypes).trans (hleads.mono hentry)

/-- The types of a catalogue come from requests. -/
theorem Catalog.load_leads {allowed : TypeTable → Request → Prop}
    (hentry : ∀ t request, Request.IsEntry t request → allowed t request) {manifest : Manifest}
    (hsets : manifest.SetsBases allowed) {c : Catalog} (h : Catalog.load manifest = .ok c) :
    Leads allowed .initial c.types := by
  obtain ⟨c₁, c₂, hoperations, hevents, hc⟩ := load_sorts h
  have hleads : Leads Request.IsEntry c₁.sortOverloads.types c₂.types :=
    foldlM_leads (fun hload => (loadEvent_cases hload).1) hevents
  rw [hc]
  exact (loadOperations_leads hentry hsets hoperations).trans (hleads.mono hentry)

theorem Manifest.setsBases_fits (manifest : Manifest) : manifest.SetsBases Request.Fits := by
  obtain ⟨hcomplete, -⟩ := Catalog.declareTypes_spec .initial manifest.types complete_initial
  refine Catalog.setsBases_fits hcomplete fun decl hdecl => ?_
  exact Catalog.declareTypes_lt manifest.types complete_initial _ (List.of_mem_zip hdecl).2

theorem Catalog.loadOperations_sound {manifest : Manifest} {c : Catalog}
    (h : loadOperations manifest = .ok c) : c.types.Sound :=
  ((loadOperations_leads (fun _ _ => Request.IsEntry.fits) manifest.setsBases_fits h).sound
    (fun _ _ hfits => hfits) sound_initial).1

end SexprAsm
