import SexprAsm.Proofs.Catalog.Loading

/-!
# Assignability as an order

Assignability goes up bases and down into elements, and it is an order on the types of a table as
long as the two do not mix: an array derives from the type of arrays alone, and nothing derives from
an array (`TypeTable.Layered`). Requests keep tables so unless they set the base of an array or an
array as a base, and loading a manifest makes no such request if the manifest names no arrays where
it sets bases (`TypeTable.ordered_of_requests`).
-/

namespace SexprAsm

open TypeTable

namespace TypeTable

variable {t t' : TypeTable} {id base a b c : TypeId} {n : Nat}

/-! ## Arrays apart from other bases

`Layered` is the invariant, kept by all requests that do not set an array as a base or the base
of one. -/

/-- The request fits the table and neither sets the base of an array nor an array as a base. -/
def Request.SparesArrays (t : TypeTable) (request : Request) : Prop :=
  request.Fits t ∧
    match request with
    | setBase id base => (t.info id).element = none ∧ (t.info base).element = none
    | _ => True

theorem Request.IsEntry.sparesArrays {request : Request} (h : request.IsEntry t) :
    request.SparesArrays t := by
  refine ⟨h.fits, ?_⟩
  cases request with
  | setBase => exact h.elim
  | _ => trivial

/-- Arrays derive from the type of arrays, the fourth of every table, and no type derives from an
array. -/
structure Layered (t : TypeTable) : Prop where
  sound : t.Sound
  array_base : ∀ id element, (t.info id).element = some element → (t.info id).base = some 3
  base_plain : ∀ id base, (t.info id).base = some base → (t.info base).element = none
  builtin_plain : ∀ id ≤ 3, (t.info id).element = none

theorem layered_initial : initial.Layered := by
  obtain ⟨-, -, -, helements, -, hbase, hplain⟩ := initial_known
  refine ⟨sound_initial, fun id element helement => ?_, fun id base hid => ?_, hplain⟩
  · exact (helements id (lt_size_of_element helement) element helement).2.2
  · rcases Nat.lt_or_ge id initial.size with hlt | hge
    · exact hbase id hlt base hid
    · rw [info_of_le hge] at hid
      cases hid

theorem Layered.enter (h : t.Layered) {info : TypeInfo} (henters : t.Enters info) :
    (t.insert info).2.Layered := by
  obtain ⟨hsound, hext⟩ := h.sound.enter henters
  have hthree := h.sound.wellFormed.lookup_lt _ _ h.sound.lookup_array
  have hplain : ∀ id ≤ 3, ((t.insert info).2.info id).element = none := by
    intro id hid
    rw [info_insert_of_lt t info (Nat.lt_of_le_of_lt hid hthree)]
    exact h.builtin_plain id hid
  refine ⟨hsound, fun id element helement => ?_, fun id base hbase => ?_, hplain⟩
  · rw [info_insert] at helement ⊢
    split at helement
    next hid =>
      rw [if_pos hid, (henters.element element helement).2.2, h.sound.lookup_array]
    next hid =>
      rw [if_neg hid]
      exact h.array_base id element helement
  · rw [info_insert] at hbase
    split at hbase
    next =>
      obtain ⟨builtin, hbuiltin, hinfo, -⟩ := h.sound.enters_base henters
      obtain rfl := Option.some.inj (hinfo.symm.trans hbase)
      exact hplain _ hbuiltin
    next =>
      rw [info_insert_of_lt t info (h.sound.wellFormed.base_lt id base hbase)]
      exact h.base_plain id base hbase

theorem Layered.setBase (h : t.Layered) (hbase : base < t.size)
    (hid : (t.info id).element = none) (hplain : (t.info base).element = none) :
    (t.setBase id base).Layered := by
  obtain ⟨hsound, -⟩ := h.sound.setBase id hbase
  have helement (other : TypeId) :
      ((t.setBase id base).info other).element = (t.info other).element := by
    rw [setBase_info]
  refine ⟨hsound, fun other element hother => ?_, fun other base' hother => ?_,
    fun other hother => ?_⟩
  · rw [helement] at hother
    rcases info_setBase t id base other with hsame | ⟨rfl, -⟩
    · rw [hsame]
      exact h.array_base other element hother
    · rw [hid] at hother
      cases hother
  · rw [helement]
    rcases info_setBase t id base other with hsame | ⟨-, hset⟩
    · rw [hsame] at hother
      exact h.base_plain other base' hother
    · rw [hset] at hother
      rwa [← Option.some.inj hother]
  · rw [helement]
    exact h.builtin_plain other hother

theorem Grows.layered (hgrows : t.Grows t') (h : t.Layered) : t'.Layered := by
  induction hgrows with
  | refl => exact h
  | enter _ henters ih => exact ih.enter henters

theorem Layered.after (h : t.Layered) {request : Request} (hspares : request.SparesArrays t) :
    (request.after t).Layered := by
  obtain ⟨hfits, hplain⟩ := hspares
  rcases h.sound.complete.after_grows hfits with hgrows | ⟨id, base, rfl⟩
  · exact hgrows.layered h
  · exact h.setBase hfits.2 hplain.1 hplain.2

theorem Leads.layered (hleads : Leads Request.SparesArrays t t') (h : t.Layered) : t'.Layered := by
  induction hleads with
  | refl => exact h
  | step _ request hspares ih => exact ih.after hspares

/-! ## The order

Assignability goes up bases, or down into the elements of two arrays. In a layered table the two
ways do not mix, so each of the laws is shown for both, by induction on the elements. -/

/-- No array is above another type. -/
theorem Layered.above_plain (h : t.Layered) (habove : t.Above (n + 1) a b) :
    (t.info a).element = none := by
  induction n generalizing b with
  | zero =>
    cases habove with
    | step hbase habove =>
      cases habove
      exact h.base_plain _ _ hbase
  | succ n ih =>
    cases habove with
    | step _ habove => exact ih habove

/-- Only itself has an array above it. -/
theorem Layered.eq_of_above_array (h : t.Layered) {element : TypeId}
    (ha : (t.info a).element = some element) (habove : t.Above n a b) : a = b := by
  cases n with
  | zero =>
    obtain ⟨⟩ := habove
    rfl
  | succ n =>
    rw [h.above_plain habove] at ha
    cases ha

/-- Arrays of one element type are the same. -/
theorem Sound.eq_of_element (h : t.Sound) {element : TypeId}
    (ha : (t.info a).element = some element) (hb : (t.info b).element = some element) : a = b := by
  have hname : t.name a = t.name b := by rw [h.arrayName a _ ha, h.arrayName b _ hb]
  exact h.name_injective (lt_size_of_element ha) (lt_size_of_element hb) hname

theorem Layered.antisymm (h : t.Layered) (hab : t.Assignable a b) (hba : t.Assignable b a)
    (hb : b < t.size) : a = b := by
  -- The elements of two arrays are assignable to each other, so the induction goes down to them.
  induction hab with
  | above habove =>
    cases hba with
    | above habove' => exact (h.sound.wellFormed.above_antisymm hb habove habove').2
    | element _ ha => exact h.eq_of_above_array ha habove
  | element ha hb' _ _ ih =>
    cases hba with
    | above habove => exact (h.eq_of_above_array hb' habove).symm
    | element hb'' ha' _ hrest =>
      obtain rfl := Option.some.inj (ha.symm.trans ha')
      obtain rfl := Option.some.inj (hb'.symm.trans hb'')
      have hlt := Nat.lt_trans (h.sound.elementsFirst _ _ hb') hb
      obtain rfl := ih hrest hlt
      exact h.sound.eq_of_element ha hb'

theorem Layered.trans (h : t.Layered) (hab : t.Assignable a b) (hbc : t.Assignable b c) :
    t.Assignable a c := by
  induction hab generalizing c with
  | @above n a b habove =>
    cases hbc with
    | above habove' => exact .above (habove.trans habove')
    | element hb hc href hrest =>
      cases habove with
      | self => exact .element hb hc href hrest
      | step hbase habove =>
        -- Both arrays derive from the type of arrays, so what is above the one is above the other.
        have hthree := h.array_base _ _ hc
        rw [← h.array_base _ _ hb, hbase] at hthree
        exact .above (.step hthree habove)
  | element ha hb href hrest ih =>
    cases hbc with
    | above habove =>
      obtain rfl := h.eq_of_above_array hb habove
      exact .element ha hb href hrest
    | element hb' hc href' hrest' =>
      obtain rfl := Option.some.inj (hb.symm.trans hb')
      exact .element ha hc href' (ih hrest')

/-- Assignability is an order on the types of a table. -/
structure Ordered (t : TypeTable) : Prop where
  refl : ∀ a < t.size, t.isAssignable a a = true
  antisymm : ∀ a < t.size, ∀ b < t.size,
    t.isAssignable a b = true → t.isAssignable b a = true → a = b
  trans : ∀ a < t.size, ∀ b < t.size, ∀ c < t.size,
    t.isAssignable a b = true → t.isAssignable b c = true → t.isAssignable a c = true

theorem Layered.ordered (h : t.Layered) : t.Ordered := by
  have hiff {a b : TypeId} (hb : b < t.size) : t.isAssignable a b = true ↔ t.Assignable a b :=
    h.sound.wellFormed.isAssignable_iff h.sound.elementsFirst hb
  refine ⟨fun a ha => ?_, fun a ha b hb hab hba => ?_, fun a _ b hb c hc hab hbc => ?_⟩
  · exact (hiff ha).mpr (.above (.self a))
  · exact h.antisymm ((hiff hb).mp hab) ((hiff ha).mp hba) hb
  · exact (hiff hc).mpr (h.trans ((hiff hb).mp hab) ((hiff hc).mp hbc))

/-! ## Manifests that spare arrays

The requests of the loader spare arrays (`Request.SparesArrays`), if the manifest does not name
arrays where it sets bases. -/

/-- The name stands for a type that is no array. -/
def NamesPlain (t : TypeTable) (name : String) : Bool :=
  (t.lookup name).any fun id => (t.info id).element.isNone

theorem namesPlain_iff {name : String} : t.NamesPlain name = true ↔
    ∃ id, t.lookup name = some id ∧ (t.info id).element = none := by
  rw [NamesPlain, Option.any_eq_true]
  simp only [Option.isNone_iff_eq_none]

theorem namesPlain_setBase (t : TypeTable) (id base : TypeId) (name : String) :
    (t.setBase id base).NamesPlain name = t.NamesPlain name := by
  rw [NamesPlain, NamesPlain, lookup_setBase]
  congr 1
  funext other
  rw [setBase_info]

/-- Bases that are set between types which are named and are no arrays spare arrays. -/
theorem setsBases_sparesArrays {entries : List (TypeDecl × TypeId)} (h : t.Complete)
    (hentries : ∀ entry ∈ entries, t.lookup entry.1.name = some entry.2 ∧
      ∀ name ∈ entry.1.base, t.NamesPlain entry.1.name = true ∧ t.NamesPlain name = true) :
    Catalog.SetsBases Request.SparesArrays t entries := by
  induction entries generalizing t with
  | nil => trivial
  | cons entry entries ih =>
    have hrest := fun other hother => hentries other (List.mem_cons_of_mem entry hother)
    obtain ⟨hdeclared, hplain⟩ := hentries entry List.mem_cons_self
    unfold Catalog.SetsBases
    split
    next => exact ih h hrest
    next name hname =>
      obtain ⟨hplain, hplainBase⟩ := hplain name hname
      obtain ⟨id, hid, hidPlain⟩ := namesPlain_iff.mp hplain
      obtain ⟨base, hbase, hbasePlain⟩ := namesPlain_iff.mp hplainBase
      obtain rfl := Option.some.inj (hdeclared.symm.trans hid)
      intro found hfound
      -- The base is found as it is, so that resolving it enters nothing.
      obtain rfl := Option.some.inj (hfound.symm.trans (resolve_of_lookup hbase))
      have hlt := h.wellFormed.lookup_lt _ _ hbase
      obtain ⟨hcomplete, -⟩ := h.setBase entry.2 hlt
      refine ⟨⟨⟨h.wellFormed.lookup_lt _ _ hid, hlt⟩, hidPlain, hbasePlain⟩, ih hcomplete ?_⟩
      simpa only [lookup_setBase, namesPlain_setBase] using hrest

end TypeTable

/-- Where a manifest declares a type with a base, both names stand for types that are no arrays. -/
def Manifest.NamesNoArrays (manifest : Manifest) : Prop :=
  ∀ decl ∈ manifest.types, ∀ name ∈ decl.base,
    let types := (Catalog.declareTypes .initial manifest.types).2
    types.NamesPlain decl.name = true ∧ types.NamesPlain name = true

theorem Manifest.NamesNoArrays.setsBases {manifest : Manifest} (h : manifest.NamesNoArrays) :
    manifest.SetsBases Request.SparesArrays := by
  obtain ⟨hcomplete, -⟩ := Catalog.declareTypes_spec .initial manifest.types complete_initial
  refine setsBases_sparesArrays hcomplete fun entry hentry => ⟨?_, ?_⟩
  · exact Catalog.declareTypes_lookup manifest.types complete_initial entry hentry
  · exact h entry.1 (List.of_mem_zip hentry).1

/-- The types of a manifest that names no arrays where it sets bases come from requests which spare
arrays. -/
theorem Catalog.load_sparesArrays {manifest : Manifest} {c : Catalog}
    (h : Catalog.load manifest = .ok c) (hnames : manifest.NamesNoArrays) :
    Leads Request.SparesArrays initial c.types :=
  Catalog.load_leads (fun _ _ => Request.IsEntry.sparesArrays) hnames.setsBases h

namespace TypeTable

theorem Leads.ordered {t : TypeTable} (h : Leads Request.SparesArrays initial t) : t.Ordered :=
  (h.layered layered_initial).ordered

/-- Assignability is an order on the types of every table that comes from requests which spare
arrays, and so of every catalogue whose manifest names no arrays where it sets bases. -/
theorem ordered_of_requests :
    (∀ t, Leads Request.SparesArrays initial t → t.Ordered) ∧
      ∀ manifest c, Catalog.load manifest = .ok c → manifest.NamesNoArrays →
        Leads Request.SparesArrays initial c.types ∧ c.types.Ordered := by
  refine ⟨fun t hleads => hleads.ordered, fun manifest c hload hnames => ?_⟩
  have hleads := Catalog.load_sparesArrays hload hnames
  exact ⟨hleads, hleads.ordered⟩

/-- With leaves that are trees, an array of arrays of leaves may stand for one of trees, and so for
an array, but not the other way round. -/
theorem ordered_of_requests_leaves : ∃ manifest c,
    Catalog.load manifest = .ok c ∧ manifest.NamesNoArrays ∧
      Leads Request.SparesArrays initial c.types ∧
      c.types.name 35 = "TreeArrayArray" ∧ c.types.name 36 = "LeafArrayArray" ∧
      c.types.isAssignable 36 36 = true ∧ c.types.isAssignable 3 36 = true ∧
      ¬ c.types.isAssignable 36 35 = true := by
  obtain ⟨manifest, hnames, hknown⟩ :
      ∃ manifest : Manifest, manifest.NamesNoArrays ∧
        (Catalog.load manifest).toOption.map (fun c =>
          (c.types.size, c.types.name 35, c.types.name 36, c.types.isAssignable 35 36,
            c.types.isAssignable 3 35)) =
          some (37, "TreeArrayArray", "LeafArrayArray", true, true) := by
    refine ⟨⟨[⟨"Tree", "Tree", none, false⟩, ⟨"Leaf", "Leaf", some "Tree", false⟩], [],
      [⟨"Grow", [⟨"trees", "TreeArrayArray", .input⟩, ⟨"leaves", "LeafArrayArray", .input⟩]⟩]⟩, ?_⟩
    unfold Manifest.NamesNoArrays
    decide +kernel
  obtain ⟨c, hload, hknown⟩ := exists_ok_of_map hknown
  obtain ⟨hsize, htrees, hleaves, hleaf, harray⟩ :
      c.types.size = 37 ∧ c.types.name 35 = "TreeArrayArray" ∧
        c.types.name 36 = "LeafArrayArray" ∧ c.types.isAssignable 35 36 = true ∧
        c.types.isAssignable 3 35 = true := by
    simpa using hknown
  obtain ⟨hleads, -⟩ := ordered_of_requests.2 manifest c hload hnames
  obtain ⟨hrefl, hantisymm, htrans⟩ := ordered_of_requests.1 c.types hleads
  rw [hsize] at hrefl hantisymm htrans
  refine ⟨manifest, c, hload, hnames, hleads, htrees, hleaves, hrefl 36 (by decide), ?_,
    fun hback => ?_⟩
  · exact htrans 3 (by decide) 35 (by decide) 36 (by decide) harray hleaf
  · exact absurd (hantisymm 35 (by decide) 36 (by decide) hleaf hback) (by decide)

end TypeTable

end SexprAsm
