import SexprAsm.Proofs.TypeTable.Assignability

/-!
# Tables under any sequence of requests

A table is changed by entering types and by setting bases (`TypeTable.Request`), in any order and
with any types of the table as arguments, also where a base would close a circle. Whatever is
requested, the bases form a tree below the root type, elements come before their arrays, and a type
is found under its own name for good; so every walk over the table ends with what it looks for
(`TypeTable.hierarchy_of_requests`).

Entering comes down to one kind of step: `Enters` says which types `declare`, `arrayOf` and
`resolve` ever add, and `Grows` that a table was made from another by such steps alone. The
invariant `Sound` is kept by one step and by setting a base.
-/

namespace SexprAsm.TypeTable

variable {t t' t'' : TypeTable} {id base : TypeId}

/-! ## Requests

What is proved of a sequence of requests is shown for one request that is allowed at its turn.
Which ones are allowed is a parameter (`Leads`), so other modules ask for more of requests. -/

/-- A request to enter types or to set a base. -/
inductive Request where
  | declare (name shortName : String) (valueType : Bool)
  | setBase (id base : TypeId)
  | arrayOf (element : TypeId)
  | resolve (name : String)
  deriving DecidableEq, Repr

/-- The types that a request speaks of are in the table. -/
def Request.Fits (t : TypeTable) : Request → Prop
  | declare _ _ _ => True
  | setBase id base => id < t.size ∧ base < t.size
  | arrayOf element => element < t.size
  | resolve _ => True

/-- The table after a request. -/
def Request.after (t : TypeTable) : Request → TypeTable
  | declare name shortName valueType => (t.declare name shortName valueType).2
  | setBase id base => t.setBase id base
  | arrayOf element => (t.arrayOf element).2
  | resolve name => (t.resolve name).elim t Prod.snd

/-- Requests that are allowed, each in its turn, lead from one table to another. -/
inductive Leads (allowed : TypeTable → Request → Prop) (t : TypeTable) : TypeTable → Prop where
  | refl : Leads allowed t t
  | step {t' : TypeTable} (h : Leads allowed t t') (request : Request)
      (hallowed : allowed t' request) : Leads allowed t (request.after t')

theorem Leads.trans {allowed : TypeTable → Request → Prop} (h : Leads allowed t t')
    (h' : Leads allowed t' t'') : Leads allowed t t'' := by
  induction h' with
  | refl => exact h
  | step _ request hallowed ih => exact .step ih request hallowed

/-- Each of a list of requests is allowed when its turn comes. -/
def Allows (allowed : TypeTable → Request → Prop) : TypeTable → List Request → Prop
  | _, [] => True
  | t, request :: requests => allowed t request ∧ Allows allowed (request.after t) requests

theorem Allows.leads {allowed : TypeTable → Request → Prop} {requests : List Request}
    (h : Allows allowed t requests) : Leads allowed t (requests.foldl Request.after t) := by
  induction requests generalizing t with
  | nil => exact .refl
  | cons request requests ih =>
    exact (Leads.refl.step request h.1).trans (ih h.2)

instance Request.decidableFits (t : TypeTable) : (request : Request) → Decidable (request.Fits t)
  | declare _ _ _ => inferInstanceAs (Decidable True)
  | setBase id base => inferInstanceAs (Decidable (id < t.size ∧ base < t.size))
  | arrayOf element => inferInstanceAs (Decidable (element < t.size))
  | resolve _ => inferInstanceAs (Decidable True)

instance Allows.decidable {allowed : TypeTable → Request → Prop}
    [∀ t request, Decidable (allowed t request)] :
    (t : TypeTable) → (requests : List Request) → Decidable (Allows allowed t requests)
  | _, [] => inferInstanceAs (Decidable True)
  | t, request :: requests =>
    have : Decidable (Allows allowed (request.after t) requests) :=
      Allows.decidable (request.after t) requests
    inferInstanceAs (Decidable (allowed t request ∧ Allows allowed (request.after t) requests))

/-! ## Entering types

All ways to enter types enter one after the other, each of the same form (`Enters`). An invariant
is thus shown for one such type and holds of tables that have grown (`Grows`). -/

/-- A type that requests may enter: its name is free, it derives from one of three built-in types,
and an array is named after an earlier element and derives from the type of arrays. -/
structure Enters (t : TypeTable) (info : TypeInfo) : Prop where
  free : t.lookup info.name = none
  base : info.base = some object ∨ info.base = t.lookup valueTypeName ∨
    info.base = t.lookup arrayName
  element : ∀ element, info.element = some element →
    element < t.size ∧ info.name = t.name element ++ "Array" ∧ info.base = t.lookup arrayName

/-- A table with more types, entered one after the other. -/
inductive Grows (t : TypeTable) : TypeTable → Prop where
  | refl : Grows t t
  | enter {t' : TypeTable} {info : TypeInfo} (h : Grows t t') (henters : t'.Enters info) :
      Grows t (t'.insert info).2

theorem Grows.trans (h : t.Grows t') (h' : t'.Grows t'') : t.Grows t'' := by
  induction h' with
  | refl => exact h
  | enter _ henters ih => exact .enter ih henters

theorem lt_size_of_element {element : TypeId} (h : (t.info id).element = some element) :
    id < t.size := by
  by_contra hge
  rw [info_of_le (Nat.le_of_not_lt hge)] at h
  cases h

theorem declare_grows (t : TypeTable) (name shortName : String) (valueType : Bool) :
    t.Grows (t.declare name shortName valueType).2 := by
  unfold declare
  cases hlookup : t.lookup name with
  | some id => exact .refl
  | none =>
    refine .enter .refl ⟨hlookup, ?_, fun _ helement => by cases helement⟩
    cases valueType with
    | true => exact Or.inr (Or.inl rfl)
    | false => exact Or.inl rfl

theorem lookup_declare (t : TypeTable) (name shortName : String) (valueType : Bool) :
    (t.declare name shortName valueType).2.lookup name =
      some (t.declare name shortName valueType).1 := by
  unfold declare
  cases hlookup : t.lookup name with
  | some id => exact hlookup
  | none => exact (lookup_insert t _ name).trans (if_pos (Or.inl rfl))

theorem resolve_of_lookup {name : String} (h : t.lookup name = some id) :
    t.resolve name = some (id, t) := by
  unfold resolve
  cases name.length <;> simp [resolveWithin, h]

theorem arrayOf_grows {element : TypeId} (helement : element < t.size) :
    t.Grows (t.arrayOf element).2 := by
  unfold arrayOf
  dsimp only
  cases hlookup : t.lookup ((t.info element).name ++ "Array") with
  | some id => exact .refl
  | none =>
    refine .enter .refl ⟨hlookup, Or.inr (Or.inr rfl), fun other hother => ?_⟩
    obtain rfl := Option.some.inj hother
    exact ⟨helement, rfl, rfl⟩

theorem Complete.resolveWithin_grows (h : t.Complete) {length : Nat} {name : String}
    (hresolve : t.resolveWithin length name = some (id, t')) : t.Grows t' := by
  refine resolveWithin_induction (fun _ => .refl) ?_ hresolve
  intro _ _ element t₁ _ id t' helement ih harray
  -- The element is found or entered first, in a table that grows into `t₁`.
  obtain ⟨-, -, hlt⟩ := h.resolveWithin helement
  have hgrows := arrayOf_grows hlt
  rw [harray] at hgrows
  exact ih.trans hgrows

/-- All requests but that of a base only enter types. -/
theorem Complete.after_grows (h : t.Complete) {request : Request} (hfits : request.Fits t) :
    t.Grows (request.after t) ∨ ∃ id base, request = .setBase id base := by
  cases request with
  | declare name shortName valueType => exact Or.inl (declare_grows t name shortName valueType)
  | setBase id base => exact Or.inr ⟨id, base, rfl⟩
  | arrayOf element => exact Or.inl (arrayOf_grows hfits)
  | resolve name =>
    left
    show t.Grows ((t.resolve name).elim t Prod.snd)
    cases hresolve : t.resolve name with
    | none => exact .refl
    | some found => exact h.resolveWithin_grows hresolve

/-! ## Setting bases

A base that is set changes one entry, and neither names nor elements. -/

theorem lookup_setBase (t : TypeTable) (id base : TypeId) (name : String) :
    (t.setBase id base).lookup name = t.lookup name := by
  unfold setBase
  split <;> rfl

theorem size_setBase (t : TypeTable) (id base : TypeId) : (t.setBase id base).size = t.size := by
  unfold setBase
  split
  · simp [size]
  · rfl

/-- Setting a base changes the base of one type and nothing else. -/
theorem info_setBase (t : TypeTable) (id base other : TypeId) :
    (t.setBase id base).info other = t.info other ∨
      other = id ∧ (t.setBase id base).info other = { t.info other with base := some base } := by
  unfold setBase
  split
  next =>
    simp only [info, Array.getD_eq_getD_getElem?, Array.getElem?_modify]
    by_cases hid : id = other
    · subst hid
      cases t.types[id]? with
      | none => exact Or.inl (by simp)
      | some info => exact Or.inr ⟨rfl, by simp⟩
    · exact Or.inl (by simp [hid])
  next => exact Or.inl rfl

theorem setBase_info (t : TypeTable) (id base other : TypeId) :
    (t.setBase id base).info other =
      { t.info other with base := ((t.setBase id base).info other).base } := by
  rcases info_setBase t id base other with h | ⟨-, h⟩ <;> rw [h]

/-! ## The invariant

`Sound` is kept by entering a type and by setting a base, and so by every request and every
sequence of them. -/

/-- What requests keep: every type derives from the root, the built-in names keep their meaning,
elements come before their arrays and name them, and a type is found under its name. -/
structure Sound (t : TypeTable) : Prop where
  complete : t.Complete
  initial : TypeTable.initial.Extends t
  elementsFirst : t.ElementsFirst
  arrayName : ∀ id element, (t.info id).element = some element →
    t.name id = t.name element ++ "Array"
  named : ∀ id < t.size, t.lookup (t.name id) = some id

theorem Sound.wellFormed (h : t.Sound) : t.WellFormed := h.complete.wellFormed

/-- The built-in types, evaluated once. -/
theorem initial_known :
    initial.lookup arrayName = some 3 ∧ initial.lookup valueTypeName = some 1 ∧
      initial.name object = objectName ∧
      (∀ id < initial.size, ∀ element ∈ (initial.info id).element,
        element < id ∧ initial.name id = initial.name element ++ "Array" ∧
          (initial.info id).base = some 3) ∧
      (∀ id < initial.size, initial.lookup (initial.name id) = some id) ∧
      (∀ id < initial.size, ∀ base ∈ (initial.info id).base, (initial.info base).element = none) ∧
      ∀ id ≤ 3, (initial.info id).element = none := by
  decide +kernel

theorem Sound.name_injective (h : t.Sound) {id id' : TypeId} (hid : id < t.size)
    (hid' : id' < t.size) (hname : t.name id = t.name id') : id = id' := by
  have hlookup := h.named id hid
  rw [hname, h.named id' hid'] at hlookup
  exact (Option.some.inj hlookup).symm

theorem Sound.lookup_array (h : t.Sound) : t.lookup TypeTable.arrayName = some 3 :=
  h.initial.lookup _ _ initial_known.1

theorem Sound.lookup_valueType (h : t.Sound) : t.lookup valueTypeName = some 1 :=
  h.initial.lookup _ _ initial_known.2.1

/-- A new type derives from one of the first four. -/
theorem Sound.enters_base (h : t.Sound) {info : TypeInfo} (henters : t.Enters info) :
    ∃ base ≤ 3, info.base = some base ∧ base < t.size := by
  rcases henters.base with hbase | hbase | hbase
  · exact ⟨object, by decide, hbase, h.complete.pos⟩
  · have hlookup := h.lookup_valueType
    exact ⟨1, by decide, hbase.trans hlookup, h.wellFormed.lookup_lt _ _ hlookup⟩
  · have hlookup := h.lookup_array
    exact ⟨3, by decide, hbase.trans hlookup, h.wellFormed.lookup_lt _ _ hlookup⟩

theorem Sound.enter (h : t.Sound) {info : TypeInfo} (henters : t.Enters info) :
    (t.insert info).2.Sound ∧ t.Extends (t.insert info).2 := by
  obtain ⟨base, -, hbase, hlt⟩ := h.enters_base henters
  obtain ⟨hwell, hext, -⟩ := h.wellFormed.insert info henters.free hbase hlt
  refine ⟨⟨h.complete.extends hwell hext, h.initial.trans hext, ?_, ?_, ?_⟩, hext⟩
  · intro id element helement
    rw [info_insert] at helement
    split at helement
    next hid =>
      rw [hid]
      exact (henters.element element helement).1
    next => exact h.elementsFirst id element helement
  · intro id element helement
    have hname := info_insert t info id
    rw [info_insert] at helement
    split at helement
    next hid =>
      obtain ⟨hlt, hsuffix, -⟩ := henters.element element helement
      rw [hext.name element hlt, ← hsuffix, name, hname, if_pos hid]
    next hid =>
      have hlt := lt_size_of_element helement
      have hlt' := Nat.lt_trans (h.elementsFirst id element helement) hlt
      rw [hext.name id hlt, hext.name element hlt', h.arrayName id element helement]
  · intro id hid
    rw [size_insert] at hid
    rcases Nat.lt_succ_iff_lt_or_eq.mp hid with hid | rfl
    · rw [hext.name id hid]
      exact hext.lookup _ _ (h.named id hid)
    · rw [name, info_insert, if_pos rfl, lookup_insert, if_pos (Or.inl rfl)]

/-- A table that has grown is still sound, and all that it knew is as it was. -/
theorem Grows.sound (hgrows : t.Grows t') (h : t.Sound) :
    t'.Sound ∧ t.Extends t' ∧ ∀ id < t.size, t'.info id = t.info id := by
  induction hgrows with
  | refl => exact ⟨h, .refl t, fun _ _ => rfl⟩
  | enter _ henters ih =>
    obtain ⟨hsound, hext, hinfo⟩ := ih
    obtain ⟨hsound', hext'⟩ := hsound.enter henters
    refine ⟨hsound', hext.trans hext', fun id hid => ?_⟩
    rw [info_insert_of_lt _ _ (Nat.lt_of_lt_of_le hid hext.size_le), hinfo id hid]

theorem Sound.setBase (h : t.Sound) (id : TypeId) (hbase : base < t.size) :
    (t.setBase id base).Sound ∧ t.Extends (t.setBase id base) := by
  obtain ⟨hcomplete, hext⟩ := h.complete.setBase id hbase
  have hinfo := setBase_info t id base
  have hname (other : TypeId) : (t.setBase id base).name other = t.name other := by
    rw [name, hinfo, name]
  refine ⟨⟨hcomplete, h.initial.trans hext, ?_, ?_, ?_⟩, hext⟩
  · intro other element helement
    rw [hinfo] at helement
    exact h.elementsFirst other element helement
  · intro other element helement
    rw [hinfo] at helement
    rw [hname, hname]
    exact h.arrayName other element helement
  · intro other hother
    rw [size_setBase] at hother
    rw [lookup_setBase, hname]
    exact h.named other hother

theorem Sound.after (h : t.Sound) {request : Request} (hfits : request.Fits t) :
    (request.after t).Sound ∧ t.Extends (request.after t) := by
  rcases h.complete.after_grows hfits with hgrows | ⟨id, base, rfl⟩
  · obtain ⟨hsound, hext, -⟩ := hgrows.sound h
    exact ⟨hsound, hext⟩
  · exact h.setBase id hfits.2

/-- Requests keep a table sound, and what is known of it, but for bases. -/
theorem Leads.sound {allowed : TypeTable → Request → Prop}
    (hallowed : ∀ t request, allowed t request → request.Fits t) (hleads : Leads allowed t t')
    (h : t.Sound) : t'.Sound ∧ t.Extends t' := by
  induction hleads with
  | refl => exact ⟨h, .refl t⟩
  | step _ request hrequest ih =>
    obtain ⟨hsound, hext⟩ := ih
    obtain ⟨hsound', hext'⟩ := hsound.after (hallowed _ _ hrequest)
    exact ⟨hsound', hext.trans hext'⟩

theorem sound_initial : initial.Sound := by
  obtain ⟨-, -, -, helements, hnamed, -⟩ := initial_known
  exact
    { complete := complete_initial
      initial := .refl _
      elementsFirst := fun id element h => (helements id (lt_size_of_element h) element h).1
      arrayName := fun id element h => (helements id (lt_size_of_element h) element h).2.1
      named := hnamed }

/-- Whatever is requested of a table: its bases form a tree below the root type, elements come
before their arrays, names are unique and stand for their types, and what is once found under a name
is always found there. No walk over the table is cut short: distances count base steps, the check of
assignability decides the relation, every type is assignable to the root, and types have a common
ancestor, the nearest base of the first that covers the others. -/
theorem hierarchy_of_requests (h : Leads Request.Fits initial t) :
    t.name object = objectName ∧ (t.info object).base = none ∧ (∀ id < t.size, ∃ n, t.Rank n id) ∧
      t.ElementsFirst ∧
      (∀ id < t.size, t.lookup (t.name id) = some id) ∧
      (∀ id < t.size, ∀ id' < t.size, t.name id = t.name id' → id = id') ∧
      (∀ t', Leads Request.Fits t t' →
        ∀ name id, t.lookup name = some id → t'.lookup name = some id) ∧
      (∀ base, ∀ derived < t.size, ∀ n,
        t.distance base derived = some n ↔ t.Above n base derived) ∧
      (∀ target, ∀ source < t.size,
        t.isAssignable target source = true ↔ t.Assignable target source) ∧
      (∀ id < t.size, t.isAssignable object id = true) ∧
      ∀ first rest, first < t.size → (∀ other ∈ rest, other < t.size) →
        ∃ a n, t.commonAncestor (first :: rest) = some a ∧ t.Above n a first ∧ t.Covers a rest ∧
          ∀ m < n, ∀ b, t.Above m b first → ¬ t.Covers b rest := by
  obtain ⟨hsound, -⟩ := h.sound (fun _ _ hfits => hfits) sound_initial
  have hwell := hsound.wellFormed
  have hobject : t.name object = objectName :=
    (hsound.initial.name object complete_initial.pos).trans initial_known.2.2.1
  refine ⟨hobject, hwell.root, hwell.ranked, hsound.elementsFirst, hsound.named, ?_, ?_, ?_, ?_, ?_,
    ?_⟩
  · exact fun id hid id' hid' => hsound.name_injective hid hid'
  · intro t' hleads
    exact (hleads.sound (fun _ _ hfits => hfits) hsound).2.lookup
  · exact fun base derived hderived n => hwell.distance_eq_some_iff hderived
  · exact fun target source hsource => hwell.isAssignable_iff hsound.elementsFirst hsource
  · exact fun id hid => hwell.isAssignable_object hid
  · exact fun first rest hfirst hrest =>
      hwell.exists_commonAncestor hsound.elementsFirst hfirst hrest

/-- A base that derives from the type itself is refused, and arrays of arrays are entered on the
way. -/
theorem hierarchy_of_requests_circle : ∃ t, Leads Request.Fits initial t ∧
    t.name 32 = "Leaf" ∧ t.lookup "LeafArrayArray" = some 34 ∧
    t.distance 31 32 = some 1 ∧ t.distance 32 31 = none ∧ t.isAssignable object 34 = true ∧
    ∃ n, t.Rank n 31 := by
  obtain ⟨requests, hallows, hsize, hname, hlookup, hbase, hrefused⟩ :
      ∃ requests, Allows Request.Fits initial requests ∧
        let t := requests.foldl Request.after initial
        t.size = 35 ∧ t.name 32 = "Leaf" ∧ t.lookup "LeafArrayArray" = some 34 ∧
          (t.info 32).base = some 31 ∧ t.distance 32 31 = none :=
    ⟨[.declare "Tree" "Tree" false, .declare "Leaf" "Leaf" false, .setBase 32 31, .setBase 31 32,
      .resolve "LeafArrayArray"], by decide +kernel⟩
  obtain ⟨-, -, hranked, -, -, -, -, hdistance, -, hobject, -⟩ :=
    hierarchy_of_requests hallows.leads
  refine ⟨_, hallows.leads, hname, hlookup, ?_, hrefused, ?_, ?_⟩
  · exact (hdistance 31 32 (by rw [hsize]; decide) 1).mpr (.step hbase (.self 31))
  · exact hobject 34 (by rw [hsize]; decide)
  · exact hranked 31 (by rw [hsize]; decide)

end SexprAsm.TypeTable
