import SexprAsm.Proofs.Catalog.Index
import SexprAsm.Proofs.Text.Cut
import SexprAsm.Resolution

/-!
# Declared types and their arrays

Host names, short names and the names of arrays share one table of names, and declaring a type or
asking for an array takes whatever stands under the name. So a declaration gets a type of its own
unless its name was the short name of a type that was there before, and the array of a type is one
unless the name of that array was taken: as the short name of another type, or as the name of a type
that is no array. These are all the causes there are (`Catalog.load_declares`).

Under a name stands a type with this name or short name (`TypeTable.Titled`). After the declarations
only arrays are entered (`TypeTable.AddsArrays`).
-/

namespace SexprAsm

open TypeTable

namespace TypeTable

variable {t t' : TypeTable} {id base : TypeId} {name : String}

/-! ## What names stand for

A name leads to a type that has it as its name or short name, as all ways to enter one put it
there. -/

/-- Under a name stands a type with this name or short name. -/
def Titled (t : TypeTable) : Prop :=
  ∀ name id, t.lookup name = some id → name = t.name id ∨ name = (t.info id).shortName

theorem titled_initial : initial.Titled := by
  have hentries : ∀ entry ∈ initial.byName.entries,
      entry.1 = initial.name entry.2 ∨ entry.1 = (initial.info entry.2).shortName := by
    decide +kernel
  exact fun name id hlookup => hentries _ (OrderedMap.mem_entries_of_get? hlookup)

theorem Titled.insert (h : t.Titled) (hwell : t.WellFormed) (info : TypeInfo) :
    (t.insert info).2.Titled := by
  intro name id hlookup
  rw [lookup_insert] at hlookup
  split at hlookup
  next hnew =>
    obtain rfl := Option.some.inj hlookup
    rw [TypeTable.name, info_insert_size]
    exact hnew.imp_right And.left
  next =>
    rw [TypeTable.name, info_insert_of_lt t info (hwell.lookup_lt name id hlookup)]
    exact h name id hlookup

theorem Titled.setBase (h : t.Titled) (id base : TypeId) : (t.setBase id base).Titled := by
  intro name other hlookup
  rw [lookup_setBase] at hlookup
  rw [TypeTable.name, setBase_info]
  exact h name other hlookup

theorem Grows.titled (hgrows : t.Grows t') (hsound : t.Sound) (h : t.Titled) : t'.Titled := by
  induction hgrows with
  | refl => exact h
  | enter hgrows _ ih => exact ih.insert (hgrows.sound hsound).1.wellFormed _

theorem Leads.titled (hleads : Leads Request.Fits t t') (hsound : t.Sound) (h : t.Titled) :
    t'.Titled := by
  induction hleads with
  | refl => exact h
  | step hleads request hfits ih =>
    obtain ⟨hsound', -⟩ := hleads.sound (fun _ _ hfits => hfits) hsound
    rcases hsound'.complete.after_grows hfits with hgrows | ⟨id, base, rfl⟩
    · exact hgrows.titled hsound' ih
    · exact ih.setBase id base

/-! ## What is entered later

Once the declared types are entered, only arrays follow. -/

/-- The types that a table has and another one has not are arrays. -/
def AddsArrays (t t' : TypeTable) : Prop :=
  ∀ id < t'.size, t.size ≤ id → (t'.info id).element.isSome = true

theorem AddsArrays.refl (t : TypeTable) : t.AddsArrays t :=
  fun _ hid hle => absurd hid (Nat.not_lt.mpr hle)

theorem AddsArrays.arrayOf (h : t.AddsArrays t') (element : TypeId) :
    t.AddsArrays (t'.arrayOf element).2 := by
  unfold TypeTable.arrayOf
  dsimp only
  split
  next => exact h
  next =>
    intro id hid hle
    rw [size_insert] at hid
    rw [info_insert]
    split
    next => rfl
    next hne => exact h id (Nat.lt_of_le_of_ne (Nat.le_of_lt_succ hid) hne) hle

theorem AddsArrays.resolveWithin (h : t.AddsArrays t') {length : Nat} {t'' : TypeTable}
    (hresolve : t'.resolveWithin length name = some (id, t'')) : t.AddsArrays t'' := by
  refine resolveWithin_induction (fun _ => h) ?_ hresolve
  intro _ _ element t₁ _ id t₂ _ ih harray
  have hlater := ih.arrayOf element
  rwa [harray] at hlater

theorem AddsArrays.setBase (h : t.AddsArrays t') (id base : TypeId) :
    t.AddsArrays (t'.setBase id base) := by
  intro other hother hle
  rw [size_setBase] at hother
  rw [setBase_info]
  exact h other hother hle

/-! ## Arrays

The array of a type is looked up under the name of the type with an ending, and is entered if
nothing stands there. What stands there may be another type that has taken the name. -/

/-- Under the name of the array stands what was found or entered there. -/
theorem lookup_arrayOf (t : TypeTable) (element : TypeId) :
    (t.arrayOf element).2.lookup (t.name element ++ "Array") = some (t.arrayOf element).1 := by
  unfold TypeTable.arrayOf
  dsimp only
  split
  next id hlookup => exact hlookup
  next => exact (lookup_insert t _ _).trans (if_pos (Or.inl rfl))

theorem arrayOf_of_lookup {array : TypeId} (h : t.lookup (t.name id ++ "Array") = some array) :
    t.arrayOf id = (array, t) := by
  unfold TypeTable.arrayOf
  dsimp only
  rw [show t.lookup ((t.info id).name ++ "Array") = some array from h]

/-- An array with the name of an element's array has this element. -/
theorem Sound.element_of_name (h : t.Sound) {array element : TypeId} (hid : id < t.size)
    (helement : (t.info array).element = some element)
    (hname : t.name array = t.name id ++ "Array") : element = id := by
  have hlt : element < t.size :=
    Nat.lt_trans (h.elementsFirst array element helement) (lt_size_of_element helement)
  have hsame : t.name element ++ "Array" = t.name id ++ "Array" :=
    (h.arrayName array element helement).symm.trans hname
  exact h.name_injective hlt hid (String.append_left_inj _ |>.mp hsame)

end TypeTable

namespace Catalog

variable {c : Catalog} {manifest : Manifest} {types types' : TypeTable} {decls : List TypeDecl}

/-! ## Declarations

A declaration enters a type under its name, unless a type stands there. Names of declarations are
distinct, so that type was there before or has the name for its short name
(`declareTypes_named`). -/

theorem length_declareTypes (types : TypeTable) (decls : List TypeDecl) :
    (declareTypes types decls).1.length = decls.length := by
  induction decls generalizing types with
  | nil => rfl
  | cons decl decls ih => exact congrArg (· + 1) (ih _)

theorem firstRepeated?_none {seen names : List String} (h : firstRepeated? seen names = none) :
    names.Nodup ∧ ∀ name ∈ names, name ∉ seen := by
  induction names generalizing seen with
  | nil => exact ⟨List.nodup_nil, fun name hname => by cases hname⟩
  | cons first rest ih =>
    unfold firstRepeated? at h
    split at h
    next => cases h
    next hfirst =>
      obtain ⟨hnodup, hfresh⟩ := ih h
      refine ⟨List.nodup_cons.mpr ⟨fun hmem => hfresh first hmem List.mem_cons_self, hnodup⟩, ?_⟩
      intro name hname
      rcases List.mem_cons.mp hname with rfl | hname
      · exact hfirst
      · exact fun hmem => hfresh name hname (List.mem_cons_of_mem first hmem)

theorem declareTypes_cons {decl : TypeDecl} {first : TypeId}
    (hfirst : types.declare decl.name decl.shortName decl.valueType = (first, types'))
    (decls : List TypeDecl) : declareTypes types (decl :: decls) =
      (first :: (declareTypes types' decls).1, (declareTypes types' decls).2) := by
  rw [declareTypes, hfirst]

/-- The first of some declarations, and the others over the table that it leaves. -/
theorem exists_declareTypes_cons (hsound : types.Sound) (decl : TypeDecl) (decls : List TypeDecl) :
    ∃ first types₁, types.declare decl.name decl.shortName decl.valueType = (first, types₁) ∧
      declareTypes types (decl :: decls) =
        (first :: (declareTypes types₁ decls).1, (declareTypes types₁ decls).2) ∧
      types.Grows types₁ ∧ types₁.Sound ∧ types₁.Grows (declareTypes types₁ decls).2 := by
  obtain ⟨first, types₁, hfirst⟩ : ∃ first types₁,
    types.declare decl.name decl.shortName decl.valueType = (first, types₁) := ⟨_, _, rfl⟩
  have hgrows := declare_grows types decl.name decl.shortName decl.valueType
  rw [hfirst] at hgrows
  obtain ⟨hsound₁, -, -⟩ := hgrows.sound hsound
  exact ⟨first, types₁, hfirst, declareTypes_cons hfirst decls, hgrows, hsound₁,
    (declareTypes_leads types₁ decls).grows hsound₁⟩

/-- A declaration finds a type or enters one. -/
theorem declare_cases {decl : TypeDecl} {first : TypeId}
    (hfirst : types.declare decl.name decl.shortName decl.valueType = (first, types')) :
    types.lookup decl.name = some first ∧ types' = types ∨
      first = types.size ∧ types'.size = types.size + 1 ∧ types'.name first = decl.name ∧
        (types'.info first).shortName = decl.shortName := by
  unfold TypeTable.declare at hfirst
  cases hlookup : types.lookup decl.name with
  | some id =>
    rw [hlookup] at hfirst
    obtain ⟨rfl, rfl⟩ := Prod.mk.inj hfirst
    exact Or.inl ⟨rfl, rfl⟩
  | none =>
    rw [hlookup] at hfirst
    obtain ⟨rfl, rfl⟩ := Prod.mk.inj hfirst
    have hinfo := info_insert_size types ⟨decl.name, decl.shortName,
      if decl.valueType then types.lookup valueTypeName else some object, decl.valueType, none⟩
    exact Or.inr ⟨rfl, size_insert types _, congrArg TypeInfo.name hinfo,
      congrArg TypeInfo.shortName hinfo⟩

/-- The types that declarations enter have the names of declarations. -/
theorem name_declareTypes (hsound : types.Sound) (decls : List TypeDecl) :
    ∀ id < (declareTypes types decls).2.size,
      id < types.size ∨ ∃ decl ∈ decls, decl.name = (declareTypes types decls).2.name id := by
  induction decls generalizing types with
  | nil => exact fun id hid => Or.inl hid
  | cons decl decls ih =>
    obtain ⟨first, types₁, hfirst, heq, -, hsound₁, hgrows₁⟩ :=
      exists_declareTypes_cons hsound decl decls
    obtain ⟨-, hext, -⟩ := hgrows₁.sound hsound₁
    rw [heq]
    intro id hid
    rcases ih hsound₁ id hid with hlt | ⟨other, hother, hname⟩
    · rcases declare_cases hfirst with ⟨-, rfl⟩ | ⟨hnew, hsize, hname, -⟩
      · exact Or.inl hlt
      · rcases Nat.lt_succ_iff_lt_or_eq.mp (hsize ▸ hlt) with hlt' | hlast
        · exact Or.inl hlt'
        · obtain rfl := hlast.trans hnew.symm
          exact Or.inr ⟨decl, List.mem_cons_self, hname.symm.trans (hext.name id hlt).symm⟩
    · exact Or.inr ⟨other, List.mem_cons_of_mem decl hother, hname⟩

/-- A declaration whose type has another name has found that type under its short name: it was there
before, or an earlier declaration has entered it. -/
theorem declareTypes_named (hsound : types.Sound) (htitled : types.Titled) (decls : List TypeDecl) :
    ∀ entry ∈ decls.zip (declareTypes types decls).1,
      (declareTypes types decls).2.name entry.2 = entry.1.name ∨ entry.2 < types.size ∨
        ∃ other, [other, entry.1].Sublist decls ∧
          other.name = (declareTypes types decls).2.name entry.2 ∧
          other.shortName = entry.1.name := by
  induction decls generalizing types with
  | nil => exact fun entry hentry => by cases hentry
  | cons decl decls ih =>
    obtain ⟨first, types₁, hfirst, heq, hgrows, hsound₁, hgrows₁⟩ :=
      exists_declareTypes_cons hsound decl decls
    have htitled₁ := hgrows.titled hsound htitled
    obtain ⟨-, hext, hinfo⟩ := hgrows₁.sound hsound₁
    rw [heq]
    intro entry hentry
    rcases List.mem_cons.mp hentry with rfl | hentry
    · rcases declare_cases hfirst with ⟨hlookup, rfl⟩ | ⟨rfl, hsize, hname, -⟩
      · exact Or.inr (Or.inl (hsound.wellFormed.lookup_lt _ _ hlookup))
      · exact Or.inl ((hext.name _ (hsize ▸ Nat.lt_succ_self _)).trans hname)
    · rcases ih hsound₁ htitled₁ entry hentry with hname | hlt | ⟨other, hsublist, hother⟩
      · exact Or.inl hname
      · rcases declare_cases hfirst with ⟨-, rfl⟩ | ⟨hnew, hsize, hname, hshort⟩
        · exact Or.inr (Or.inl hlt)
        · rcases Nat.lt_succ_iff_lt_or_eq.mp (hsize ▸ hlt) with hlt' | hlast
          · exact Or.inr (Or.inl hlt')
          · -- The type is that of the first declaration, under its name or its short name.
            rw [← hlast.trans hnew.symm] at hname hshort
            have hlookup := declareTypes_lookup decls hsound₁.complete entry hentry
            rcases hgrows₁.titled hsound₁ htitled₁ _ _ hlookup with htitle | htitle
            · exact Or.inl htitle.symm
            · refine Or.inr (Or.inr ⟨decl, ?_, ?_, ?_⟩)
              · exact (List.singleton_sublist.mpr (List.of_mem_zip hentry).1).cons_cons decl
              · exact ((hext.name _ hlt).trans hname).symm
              · rw [htitle, hinfo _ hlt, hshort]
      · exact Or.inr (Or.inr ⟨other, hsublist.cons decl, hother⟩)

/-! ## Arrays of declared types

Bases are set after all types have been declared, and the arrays come last. So at the end every
declared type has an array. -/

theorem setBases_addsArrays {first : TypeTable} {entries : List (TypeDecl × TypeId)}
    (h : setBases types entries = .ok types') (harrays : first.AddsArrays types) :
    first.AddsArrays types' := by
  induction entries generalizing types with
  | nil =>
    obtain rfl := Except.ok.inj h
    exact harrays
  | cons entry entries ih =>
    rcases setBases_cons h with ⟨-, hrest⟩ | ⟨name, base, types₁, -, htype, hrest⟩
    · exact ih hrest harrays
    · have hfound := harrays.resolveWithin (resolve_of_resolveType htype)
      exact ih hrest (hfound.setBase entry.2 base)

/-- The array of every type in a list is entered or found, and all that is entered is arrays. -/
theorem foldl_arrayOf_arrays {first : TypeTable} {ids : List TypeId} (h : types.Complete)
    (hids : ∀ id ∈ ids, id < types.size) (harrays : first.AddsArrays types) :
    let types' := ids.foldl (fun types id => (types.arrayOf id).2) types
    first.AddsArrays types' ∧
      ∀ id ∈ ids, ∃ array, types'.lookup (types'.name id ++ "Array") = some array := by
  induction ids generalizing types with
  | nil => exact ⟨harrays, fun id hid => by cases hid⟩
  | cons id ids ih =>
    obtain ⟨hcomplete, hext, -⟩ := h.arrayOf id
    obtain ⟨-, hext'⟩ := foldl_arrayOf_spec ids _ hcomplete
    have hrest := fun other hother =>
      Nat.lt_of_lt_of_le (hids other (List.mem_cons_of_mem id hother)) hext.size_le
    obtain ⟨harrays', hfound⟩ := ih hcomplete hrest (harrays.arrayOf id)
    refine ⟨harrays', fun other hother => ?_⟩
    rcases List.mem_cons.mp hother with rfl | hother
    · have hlookup := (hext.trans hext').name other (hids other List.mem_cons_self)
      rw [List.foldl_cons, hlookup]
      exact ⟨_, hext'.lookup _ _ (lookup_arrayOf types other)⟩
    · exact hfound other hother

/-- The declared types have arrays, and all types that are no arrays are built in or declared. -/
theorem loadTypes_arrays (h : loadTypes .initial decls = .ok types) :
    (declareTypes .initial decls).2.AddsArrays types ∧
      (∀ id ∈ (declareTypes .initial decls).1,
        ∃ array, types.lookup (types.name id ++ "Array") = some array) ∧
      (decls.map (·.name)).Nodup ∧ (declareTypes .initial decls).2.Extends types := by
  obtain ⟨hrepeated, types₂, hbases, rfl⟩ := loadTypes_stages h
  obtain ⟨hcomplete₁, -⟩ := declareTypes_spec .initial decls complete_initial
  obtain ⟨hcomplete₂, hext₂⟩ := setBases_spec hbases hcomplete₁
  obtain ⟨-, hext₃⟩ := foldl_arrayOf_spec (declareTypes .initial decls).1 _ hcomplete₂
  obtain ⟨harrays, hfound⟩ := foldl_arrayOf_arrays hcomplete₂
    (fun id hid => Nat.lt_of_lt_of_le (declareTypes_lt decls complete_initial id hid) hext₂.size_le)
    (setBases_addsArrays hbases (.refl _))
  exact ⟨harrays, hfound, (firstRepeated?_none hrepeated).1, hext₂.trans hext₃⟩

/-- The types of operations and events come after those of the declarations. -/
theorem load_grows (h : load manifest = .ok c) :
    ∃ types, loadTypes .initial manifest.types = .ok types ∧ types.Grows c.types := by
  obtain ⟨c₁, hoperations, hgrows, -⟩ := load_index h
  obtain ⟨types, htypes, hfold⟩ := loadOperations_stages.mp hoperations
  have hleads : Leads Request.IsEntry types c₁.types := foldlM_leads loadOperation_leads hfold
  exact ⟨types, htypes, (hleads.grows (loadTypes_sound htypes)).trans hgrows⟩

/-! ## Loaded types

What the catalogue knows of a declared type (`Declares`) is what the stages of the loader have
left, with the exceptions that the sections above have met. -/

/-- What a catalogue knows of a declared type. -/
structure Declares (c : Catalog) (manifest : Manifest) (decl : TypeDecl) (id : TypeId) : Prop where
  found : c.types.lookup decl.name = some id
  /-- The type has the declared name, unless this was the short name of another type, which is built
  in or was declared before. -/
  named : c.types.name id = decl.name ∨ c.types.name id ≠ decl.name ∧
    (c.types.info id).shortName = decl.name ∧
    (id < TypeTable.initial.size ∨ ∃ other, [other, decl].Sublist manifest.types ∧
      other.name = c.types.name id ∧ other.shortName = decl.name)
  /-- No other declaration has its own name there. -/
  own : ∀ other ∈ manifest.types, c.types.lookup other.name = some id →
    c.types.name id = other.name → c.types.name id = decl.name → other = decl
  /-- The array of the type has it for an element, unless the name of the array was the short name
  of another type, or belongs to a type that is no array, which is built in or declared. -/
  array : ∃ array, c.types.arrayOf id = (array, c.types) ∧
    (c.types.name array = c.types.name id ++ "Array" ∧
        (c.types.info array).element = some id ∨
      c.types.name array ≠ c.types.name id ++ "Array" ∧
        (c.types.info array).shortName = c.types.name id ++ "Array" ∨
      c.types.name array = c.types.name id ++ "Array" ∧ (c.types.info array).element = none ∧
        (array < TypeTable.initial.size ∨
          ∃ other ∈ manifest.types, other.name = c.types.name array))
  /-- A call named after an array of the type fills one, if it means no operation. -/
  fill : ∀ array, (c.types.info array).element = some id →
    ∀ (typeCheck : Bool) (w : Workspace) (children : List NodeId),
      (Resolution.allTypes w children).bind
        (c.resolveOverload ("To" ++ (c.types.name id ++ "Array"))) = none →
      Resolution.callFinding ⟨c, typeCheck⟩ w ("To" ++ (c.types.name id ++ "Array")) children =
        ⟨some (.arrayFill array), some array⟩
  /-- An array of the type, if it is a reference, can be stored as an array of what the type can be
  stored as. -/
  covariant : ∀ array target targetElement, (c.types.info array).element = some id →
    (c.types.info target).element = some targetElement → (c.types.info id).valueType = false →
    c.types.isAssignable targetElement id = true → c.types.isAssignable target array = true

/-- A call named after an array type fills one, if it means no operation. -/
theorem callFinding_arrayFill {name : String} {array : TypeId} {typeCheck : Bool} {w : Workspace}
    {children : List NodeId} (hlookup : c.types.lookup (name ++ "Array") = some array)
    (harray : (c.types.info array).isArray = true)
    (hnone : (Resolution.allTypes w children).bind
      (c.resolveOverload ("To" ++ (name ++ "Array"))) = none) :
    Resolution.callFinding ⟨c, typeCheck⟩ w ("To" ++ (name ++ "Array")) children =
      ⟨some (.arrayFill array), some array⟩ := by
  have hcast : Text.dropLead? "!" ("To" ++ (name ++ "Array")) = none := by
    simp [Text.dropLead?]
  unfold Resolution.callFinding
  simp [hnone, hcast, Text.dropLead?_append, Text.dropTail?_append, hlookup, harray]

theorem load_titled (h : load manifest = .ok c) : c.types.Titled :=
  (load_leads (fun _ _ => Request.IsEntry.fits) manifest.setsBases_fits h).titled sound_initial
    titled_initial

/-- Under the name of the array of a declared type stands this array, or what took the name. -/
theorem arrayOf_cases (h : load manifest = .ok c) {id : TypeId}
    (hid : id ∈ (declareTypes .initial manifest.types).1) :
    ∃ array, c.types.arrayOf id = (array, c.types) ∧
      (c.types.name array = c.types.name id ++ "Array" ∧
          (c.types.info array).element = some id ∨
        c.types.name array ≠ c.types.name id ++ "Array" ∧
          (c.types.info array).shortName = c.types.name id ++ "Array" ∨
        c.types.name array = c.types.name id ++ "Array" ∧ (c.types.info array).element = none ∧
          (array < TypeTable.initial.size ∨
            ∃ other ∈ manifest.types, other.name = c.types.name array)) := by
  obtain ⟨types, htypes, hgrows⟩ := load_grows h
  obtain ⟨harrays, hentered, -, hdeclared⟩ := loadTypes_arrays htypes
  have hsound := load_sound h
  obtain ⟨-, hext, hinfo⟩ := hgrows.sound (loadTypes_sound htypes)
  have hlt : id < types.size :=
    Nat.lt_of_lt_of_le (declareTypes_lt _ complete_initial id hid) hdeclared.size_le
  obtain ⟨array, harray⟩ := hentered id hid
  have hlookup : c.types.lookup (c.types.name id ++ "Array") = some array := by
    rw [hext.name id hlt]
    exact hext.lookup _ _ harray
  refine ⟨array, arrayOf_of_lookup hlookup, ?_⟩
  by_cases hnamed : c.types.name array = c.types.name id ++ "Array"
  · cases helement : (c.types.info array).element with
    | some element =>
      obtain rfl := hsound.element_of_name (Nat.lt_of_lt_of_le hlt hext.size_le) helement hnamed
      exact Or.inl ⟨hnamed, rfl⟩
    | none =>
      -- No array was entered under this name, so the type was there before all arrays.
      refine Or.inr (Or.inr ⟨hnamed, rfl, ?_⟩)
      have hlt' := (loadTypes_sound htypes).wellFormed.lookup_lt _ _ harray
      have hfirst : array < (declareTypes .initial manifest.types).2.size := by
        refine Nat.lt_of_not_le fun hle => ?_
        have hsome := harrays array hlt' hle
        rw [← hinfo array hlt', helement] at hsome
        cases hsome
      rcases name_declareTypes sound_initial manifest.types array hfirst with
        hbuiltin | ⟨other, hother, hsame⟩
      · exact Or.inl hbuiltin
      · exact Or.inr ⟨other, hother, hsame.trans ((hdeclared.trans hext).name array hfirst).symm⟩
  · refine Or.inr (Or.inl ⟨hnamed, ?_⟩)
    rcases load_titled h _ _ hlookup with htitle | htitle
    · exact absurd htitle.symm hnamed
    · exact htitle.symm

/-- Every declaration of a manifest has a type in its catalogue. -/
theorem load_declares (h : load manifest = .ok c) :
    let ids := (declareTypes .initial manifest.types).1
    ids.length = manifest.types.length ∧
      ∀ entry ∈ manifest.types.zip ids, c.Declares manifest entry.1 entry.2 := by
  refine ⟨length_declareTypes _ _, fun ⟨decl, id⟩ hentry => ?_⟩
  obtain ⟨types, htypes, hgrows⟩ := load_grows h
  obtain ⟨-, -, hnodup, hdeclared⟩ := loadTypes_arrays htypes
  have hsound := load_sound h
  have hext := hdeclared.trans (hgrows.sound (loadTypes_sound htypes)).2.1
  have hmem := List.of_mem_zip hentry
  have hname := hext.name id (declareTypes_lt manifest.types complete_initial id hmem.2)
  have hlookup : c.types.lookup decl.name = some id :=
    hext.lookup _ _ (declareTypes_lookup _ complete_initial _ hentry)
  have hlt := hsound.wellFormed.lookup_lt _ _ hlookup
  refine ⟨hlookup, ?_, ?_, ?_, fun array helement typeCheck w children hnone => ?_, ?_⟩
  · by_cases hown : c.types.name id = decl.name
    · exact Or.inl hown
    · refine Or.inr ⟨hown, ?_, ?_⟩
      · rcases load_titled h _ _ hlookup with htitle | htitle
        · exact absurd htitle.symm hown
        · exact htitle.symm
      · rcases declareTypes_named sound_initial titled_initial _ _ hentry with
          hsame | hbuiltin | ⟨other, hbefore, hother, hshort⟩
        · exact absurd (hname.trans hsame) hown
        · exact Or.inl hbuiltin
        · exact Or.inr ⟨other, hbefore, hother.trans hname.symm, hshort⟩
  · rintro other hother - hname₁ hname₂
    exact List.inj_on_of_nodup_map hnodup hother hmem.1 (hname₁.symm.trans hname₂)
  · exact arrayOf_cases h hmem.2
  · have harray := hsound.arrayName array id helement
    refine callFinding_arrayFill ?_ (Option.isSome_iff_exists.mpr ⟨id, helement⟩) hnone
    rw [← harray]
    exact hsound.named array (lt_size_of_element helement)
  · intro array target targetElement harray htarget href hassignable
    rw [hsound.wellFormed.isAssignable_iff hsound.elementsFirst hlt] at hassignable
    rw [hsound.wellFormed.isAssignable_iff hsound.elementsFirst (lt_size_of_element harray)]
    exact .element htarget harray href hassignable

/-- A widget that is declared after another type with its name for a short name gets that type, and
the array of a type is another one if a base has brought in the array of a type with its name for a
short name. -/
theorem load_declares_taken : ∃ manifest c widget foo bar, load manifest = .ok c ∧
    c.Declares manifest widget 31 ∧ widget.name = "Widget" ∧
    c.types.name 31 = "UnityEngineWidget" ∧
    c.Declares manifest foo 32 ∧ foo.name = "Foo" ∧ c.types.name 32 = "Foo" ∧
    c.types.name (c.types.arrayOf 32).1 = "BarArray" ∧
    c.Declares manifest bar 33 ∧ (c.types.info (c.types.arrayOf 33).1).element = some 33 := by
  let engine : TypeDecl := ⟨"UnityEngineWidget", "Widget", none, false⟩
  let widget : TypeDecl := ⟨"Widget", "W", none, false⟩
  let foo : TypeDecl := ⟨"Foo", "X", none, false⟩
  let bar : TypeDecl := ⟨"Bar", "Foo", none, false⟩
  let baz : TypeDecl := ⟨"Baz", "Baz", some "BarArray", false⟩
  let manifest : Manifest := ⟨[engine, widget, foo, bar, baz], [], []⟩
  obtain ⟨hentries, hknown⟩ :
      manifest.types.zip (declareTypes .initial manifest.types).1 =
        [(engine, 31), (widget, 31), (foo, 32), (bar, 33), (baz, 34)] ∧
      (load manifest).toOption.map (fun c => (c.types.name 31, c.types.name 32,
        c.types.name (c.types.arrayOf 32).1, (c.types.info (c.types.arrayOf 33).1).element)) =
      some ("UnityEngineWidget", "Foo", "BarArray", some 33) := by
    decide +kernel
  obtain ⟨c, hload, hknown⟩ := exists_ok_of_map hknown
  simp only [Prod.mk.injEq] at hknown
  obtain ⟨hengine, hfoo, harray, helement⟩ := hknown
  obtain ⟨-, hdeclares⟩ := load_declares hload
  rw [hentries] at hdeclares
  exact ⟨manifest, c, widget, foo, bar, hload, hdeclares (widget, 31) (by simp), rfl, hengine,
    hdeclares (foo, 32) (by simp), rfl, hfoo, harray, hdeclares (bar, 33) (by simp), helement⟩

end Catalog

end SexprAsm
