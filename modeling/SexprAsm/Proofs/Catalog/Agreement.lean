import SexprAsm.Proofs.Assembly.Emission
import SexprAsm.Proofs.Catalog.Index
import SexprAsm.Proofs.MadeOf

/-!
# Resolved calls pass the check of their arguments

An overload is chosen by assignability alone, in one direction or the other, while the check of a
call has rules of its own for the type without values: a constant null, which lives in a slot of
that type, meets every reference. The two agree on all types as long as the type without values
stands apart in the hierarchy, with nothing but the root above it and nothing below
(`TypeTable.VoidApart`), and a manifest has to name it where bases are set to bring it elsewhere
(`Manifest.SparesVoid`). A call that resolves can then be refused for its result slot alone
(`Catalog.resolveOverload_checks`).
-/

namespace SexprAsm

open TypeTable

namespace TypeTable

variable {t t' : TypeTable} {id base a b : TypeId} {n : Nat} {name : String}

/-! ## The type without values

`VoidApart` is what tables have in common in which the type without values takes no part: nothing
derives from it, and it derives from the root. The built-in table has it by evaluation
(`initial_void`). Entering a type keeps it, since types are entered with other bases; only
setting a base can break it, which is what `SparesVoid` excludes. The run lemma `Leads.voidApart`
is by induction on the requests. -/

/-- The request fits the table and does not set a base of the type without values, or it as a
base. -/
def Request.SparesVoid (t : TypeTable) (request : Request) : Prop :=
  request.Fits t ∧
    match request with
    | setBase id base => id ≠ void ∧ base ≠ void
    | _ => True

theorem Request.IsEntry.sparesVoid {request : Request} (h : request.IsEntry t) :
    request.SparesVoid t := by
  refine ⟨h.fits, ?_⟩
  cases request with
  | setBase => exact h.elim
  | _ => trivial

/-- The type without values derives from the root, no type derives from it, it is no array, and it
is found under its own names alone. -/
structure VoidApart (t : TypeTable) : Prop where
  sound : t.Sound
  base : (t.info void).base = some object
  element : (t.info void).element = none
  underived : ∀ id, (t.info id).base ≠ some void
  lookup : ∀ name, t.lookup name = some void → initial.lookup name = some void

/-- The type without values among the built-in ones, evaluated once. No array has a name like it. -/
theorem initial_void : void < initial.size ∧ (initial.info void).base = some object ∧
    (∀ id < initial.size, (initial.info id).base ≠ some void) ∧
    ∀ entry ∈ initial.byName.entries,
      entry.2 = void → entry.1.toList.getLast? ≠ some 'y' := by
  decide +kernel

theorem Sound.void_lt (h : t.Sound) : void < t.size :=
  Nat.lt_of_lt_of_le initial_void.1 h.initial.size_le

theorem voidApart_initial : initial.VoidApart := by
  obtain ⟨-, hbase, hunderived, -⟩ := initial_void
  refine ⟨sound_initial, hbase, initial_known.2.2.2.2.2.2 void (by decide), fun id => ?_,
    fun _ h => h⟩
  rcases Nat.lt_or_ge id initial.size with hlt | hge
  · exact hunderived id hlt
  · rw [info_of_le hge]
    exact fun h => by cases h

theorem VoidApart.enter (h : t.VoidApart) {info : TypeInfo} (henters : t.Enters info) :
    (t.insert info).2.VoidApart := by
  have hvoid := info_insert_of_lt t info h.sound.void_lt
  refine ⟨(h.sound.enter henters).1, ?_, ?_, fun id => ?_, fun name hname => ?_⟩
  · rw [hvoid]
    exact h.base
  · rw [hvoid]
    exact h.element
  · rw [info_insert]
    split
    next =>
      rcases henters.base with hbase | hbase | hbase
      · rw [hbase]
        decide
      · rw [hbase, h.sound.lookup_valueType]
        decide
      · rw [hbase, h.sound.lookup_array]
        decide
    next => exact h.underived id
  · rw [lookup_insert] at hname
    split at hname
    next => exact absurd (Option.some.inj hname) (Nat.ne_of_gt h.sound.void_lt)
    next => exact h.lookup name hname

theorem VoidApart.setBase (h : t.VoidApart) (hbase : base < t.size) (hid : id ≠ void)
    (hvoid : base ≠ void) : (t.setBase id base).VoidApart := by
  have hsame : (t.setBase id base).info void = t.info void := by
    rcases info_setBase t id base void with hsame | ⟨heq, -⟩
    · exact hsame
    · exact absurd heq.symm hid
  refine ⟨(h.sound.setBase id hbase).1, ?_, ?_, fun other => ?_, fun name hname => ?_⟩
  · rw [hsame]
    exact h.base
  · rw [hsame]
    exact h.element
  · rcases info_setBase t id base other with hother | ⟨-, hother⟩
    · rw [hother]
      exact h.underived other
    · rw [hother]
      exact fun heq => hvoid (Option.some.inj heq)
  · rw [lookup_setBase] at hname
    exact h.lookup name hname

theorem Grows.voidApart (hgrows : t.Grows t') (h : t.VoidApart) : t'.VoidApart := by
  induction hgrows with
  | refl => exact h
  | enter _ henters ih => exact ih.enter henters

theorem VoidApart.after (h : t.VoidApart) {request : Request} (hspares : request.SparesVoid t) :
    (request.after t).VoidApart := by
  obtain ⟨hfits, happart⟩ := hspares
  rcases h.sound.complete.after_grows hfits with hgrows | ⟨id, base, rfl⟩
  · exact hgrows.voidApart h
  · exact h.setBase hfits.2 happart.1 happart.2

theorem Leads.voidApart (hleads : Leads Request.SparesVoid t t') (h : t.VoidApart) :
    t'.VoidApart := by
  induction hleads with
  | refl => exact h
  | step _ request hspares ih => exact ih.after hspares

/-! ## Finding other types

The two ways to a type that is no entry of its own: as an array, and by a name that is not that
of the type without values. Neither ends there, the first because array names end in a letter
that no name of that type ends in. -/

theorem lookup_append_array (name : String) : initial.lookup (name ++ "Array") ≠ some void := by
  intro hlookup
  have hlast := initial_void.2.2.2 _ (OrderedMap.mem_entries_of_get? hlookup) rfl
  simp at hlast

theorem VoidApart.arrayOf_ne (h : t.VoidApart) (element : TypeId) :
    (t.arrayOf element).1 ≠ void := by
  unfold arrayOf
  dsimp only
  split
  next id hlookup =>
    rintro rfl
    exact lookup_append_array _ (h.lookup _ hlookup)
  next => exact Nat.ne_of_gt h.sound.void_lt

/-- Another name than its own never stands for the type without values. -/
theorem VoidApart.resolve_ne (h : t.VoidApart) (hname : initial.lookup name ≠ some void)
    (hresolve : t.resolve name = some (id, t')) : id ≠ void := by
  refine resolveWithin_induction (motive := fun other id _ => other = name → id ≠ void) ?_ ?_
    hresolve rfl
  · rintro _ id hlookup rfl rfl
    exact hname (h.lookup _ hlookup)
  · intro _ _ element t₁ _ id t' helement _ harray _
    have happart := (h.sound.complete.resolveWithin_grows helement).voidApart h
    have hne := happart.arrayOf_ne element
    rwa [harray] at hne

/-! ## Two ways to check an argument

An overload is chosen by assignability, while a call is checked direction by direction. The two
differ only on the type without values, so `VoidApart` makes the first imply the second: once for
inputs (`accepts_of_isAssignable`), once for outputs, where the roles of the two types are
exchanged (`isCompatible_of_isAssignable`). -/

theorem VoidApart.eq_of_above_void (h : t.VoidApart) (habove : t.Above n a void) :
    a = void ∨ a = object := by
  cases habove with
  | self => exact Or.inl rfl
  | step hbase habove =>
    obtain rfl := Option.some.inj (h.base.symm.trans hbase)
    cases habove with
    | self => exact Or.inr rfl
    | step hbase _ =>
      rw [h.sound.wellFormed.root] at hbase
      cases hbase

theorem VoidApart.eq_of_void_above (h : t.VoidApart) (habove : t.Above n void b) : b = void := by
  induction n generalizing b with
  | zero =>
    cases habove
    rfl
  | succ n ih =>
    cases habove with
    | step hbase habove =>
      rw [ih habove] at hbase
      exact absurd hbase (h.underived b)

/-- What takes a value of the type without values is that type itself or the root. -/
theorem VoidApart.isAssignable_void (h : t.VoidApart) (hassignable : t.isAssignable a void = true) :
    a = void ∨ a = object := by
  rw [h.sound.wellFormed.isAssignable_iff h.sound.elementsFirst h.sound.void_lt] at hassignable
  cases hassignable with
  | above habove => exact h.eq_of_above_void habove
  | element _ hsource _ _ =>
    rw [h.element] at hsource
    cases hsource

/-- The type without values takes its own alone. -/
theorem VoidApart.void_isAssignable (h : t.VoidApart) (hb : b < t.size)
    (hassignable : t.isAssignable void b = true) : b = void := by
  rw [h.sound.wellFormed.isAssignable_iff h.sound.elementsFirst hb] at hassignable
  cases hassignable with
  | above habove => exact h.eq_of_void_above habove
  | element htarget _ _ _ =>
    rw [h.element] at htarget
    cases htarget

/-- The check of an input accepts what may be assigned to it. -/
theorem VoidApart.accepts_of_isAssignable (h : t.VoidApart)
    (hassignable : t.isAssignable a b = true) : t.accepts a b = true := by
  unfold accepts
  split
  next hvoid =>
    obtain rfl := beq_iff_eq.mp hvoid
    rcases h.isAssignable_void hassignable with rfl | rfl
    · simp
    · simp [h.sound.wellFormed.reference]
  next => exact hassignable

/-- The check of an output accepts a slot that it may be assigned to. -/
theorem VoidApart.isCompatible_of_isAssignable (h : t.VoidApart) (ha : a < t.size)
    (hassignable : t.isAssignable b a = true) : t.isCompatible a b = true := by
  unfold isCompatible
  split
  next hvoid =>
    obtain rfl := beq_iff_eq.mp hvoid
    rcases h.isAssignable_void hassignable with rfl | rfl
    · simp
    · simp [h.sound.wellFormed.reference]
  next hne =>
    split
    next hvoid =>
      obtain rfl := beq_iff_eq.mp hvoid
      exact absurd (beq_iff_eq.mpr (h.void_isAssignable ha hassignable)) hne
    next => rw [hassignable, Bool.or_true]

end TypeTable

/-- Where a declaration sets a base, neither its name nor that of the base stands for the type
without values. -/
def Manifest.SparesVoid (manifest : Manifest) : Prop :=
  ∀ decl ∈ manifest.types, ∀ base ∈ decl.base,
    TypeTable.initial.lookup decl.name ≠ some void ∧ TypeTable.initial.lookup base ≠ some void

instance Manifest.decidableSparesVoid (manifest : Manifest) : Decidable manifest.SparesVoid :=
  inferInstanceAs (Decidable (∀ decl ∈ manifest.types, ∀ base ∈ decl.base,
    TypeTable.initial.lookup decl.name ≠ some void ∧ TypeTable.initial.lookup base ≠ some void))

/-- A call supplies all parameters, but for that of the result. -/
theorem Operation.length_parameters (op : Operation) :
    op.parameters.length = op.arity + if op.returnType?.isSome then 1 else 0 := by
  unfold returnType? arity
  by_cases hreturns : op.returns = true
  · have hpos : 0 < op.parameters.length := by
      refine List.length_pos_of_ne_nil fun hnil => ?_
      simp [returns, hnil] at hreturns
    have hlast : op.parameters.length - 1 < op.parameters.length := Nat.sub_lt hpos Nat.one_pos
    simp only [hreturns, if_true, List.getElem?_eq_getElem hlast, Option.map_some,
      Option.isSome_some]
    exact (Nat.sub_add_cancel hpos).symm
  · simp [hreturns]

namespace Catalog

variable {c : Catalog} {manifest : Manifest} {name : String} {arguments : List TypeId}
  {id : OperationId} {types : TypeTable}

/-! ## Loading

The loader goes over the declarations twice, to enter the types and to set their bases. Only the
second can touch the type without values, and it does not where no declaration names it
(`Manifest.SparesVoid`). -/

/-- The loader sets bases only apart from the type without values. -/
theorem setsBases_sparesVoid {decls : List (TypeDecl × TypeId)} (h : types.VoidApart)
    (hids : ∀ decl ∈ decls, decl.2 < types.size)
    (hdecls : ∀ decl ∈ decls, ∀ base ∈ decl.1.base,
      decl.2 ≠ void ∧ TypeTable.initial.lookup base ≠ some void) :
    SetsBases Request.SparesVoid types decls := by
  induction decls generalizing types with
  | nil => trivial
  | cons decl decls ih =>
    have hids' := fun other hother => hids other (List.mem_cons_of_mem decl hother)
    have hdecls' := fun other hother => hdecls other (List.mem_cons_of_mem decl hother)
    unfold SetsBases
    split
    next => exact ih h hids' hdecls'
    next base hbase =>
      intro found hfound
      obtain ⟨hne, hname⟩ := hdecls decl List.mem_cons_self base hbase
      obtain ⟨-, hext, hlt⟩ := h.sound.complete.resolveWithin hfound
      have happart := (h.sound.complete.resolveWithin_grows hfound).voidApart h
      have hfits : (Request.setBase decl.2 found.1).Fits found.2 :=
        ⟨Nat.lt_of_lt_of_le (hids decl List.mem_cons_self) hext.size_le, hlt⟩
      have hspares : (Request.setBase decl.2 found.1).SparesVoid found.2 :=
        ⟨hfits, hne, h.resolve_ne hname hfound⟩
      refine ⟨hspares, ih (happart.after hspares) (fun other hother => ?_) hdecls'⟩
      rw [size_setBase]
      exact Nat.lt_of_lt_of_le (hids' other hother) hext.size_le

theorem load_voidApart (hspares : manifest.SparesVoid) (h : load manifest = .ok c) :
    c.types.VoidApart := by
  have hdeclared := (declareTypes_leads .initial manifest.types).grows sound_initial
  have happart := hdeclared.voidApart voidApart_initial
  have hsets : manifest.SetsBases Request.SparesVoid := by
    refine setsBases_sparesVoid happart (fun entry hentry => ?_) fun entry hentry base hbase => ?_
    · exact declareTypes_lt manifest.types complete_initial _ (List.of_mem_zip hentry).2
    · obtain ⟨hname, hbase⟩ := hspares entry.1 (List.of_mem_zip hentry).1 base hbase
      refine ⟨fun hvoid => hname (happart.lookup _ ?_), hbase⟩
      rw [← hvoid]
      exact declareTypes_lookup manifest.types complete_initial entry hentry
  exact (load_leads (fun _ _ => Request.IsEntry.sparesVoid) hsets h).voidApart voidApart_initial

end Catalog

/-! ## Checked calls

A call whose first arguments have slots of the right types runs through its stages: the slots,
the check, the pushes and the call itself. `call_error` goes over them one by one and leaves a
single place for an error, the check of what stands behind these arguments. The two lemmas on
pushes say that none of them can fail once every slot is there. -/

/-- Parameters admit slots of the given types, each in its place, that are no constants. -/
def AdmitAll (types : TypeTable) (parameters : List Parameter) (arguments : List TypeId) : Prop :=
  ∀ (i : Nat) (p : Parameter) (type : TypeId), parameters[i]? = some p →
    arguments[i]? = some type → ∀ v : Variable, v.type = type → v.attributes.constant = false →
      p.Admits types v

/-- Slots of an assembly can be the arguments of a call: they have the given types, and none is a
constant. -/
def Assembly.Supplies (a : Assembly) : List String → List TypeId → Prop :=
  List.Forall₂ fun name type =>
    name ≠ "" ∧ ∃ v, a.heap.slots.get? name = some v ∧ v.type = type ∧ v.attributes.constant = false

theorem Assembly.Supplies.names {a : Assembly} {supplied : List String} {arguments : List TypeId}
    (h : a.Supplies supplied arguments) : ∀ name ∈ supplied, name ≠ "" := by
  induction h with
  | nil => exact fun name hname => by cases hname
  | cons hfirst _ ih =>
    intro name hname
    rcases List.mem_cons.mp hname with rfl | hname
    · exact hfirst.1
    · exact ih name hname

namespace Emit

variable {cfg : Setting} {a a' : Assembly} {name : String} {e : BuildError}

theorem checkArgument_of_admits {index : Nat} {argument : String} {v : Variable} {p : Parameter}
    (h : p.Admits cfg.catalog.types v) : checkArgument cfg name index argument v p = .ok () := by
  unfold Parameter.Admits at h
  unfold checkArgument
  cases hdirection : p.direction <;> simp_all

/-- Arguments that parameters admit need no further check. -/
theorem checkArguments_append (name : String) {arguments : List TypeId} {supplied : List String}
    (hsupplied : a.Supplies supplied arguments) {parameters : List Parameter}
    (hadmits : AdmitAll cfg.catalog.types parameters arguments)
    (results : List String) (index : Nat) :
    checkArguments cfg name index ((supplied ++ results).zip parameters) a =
      checkArguments cfg name (index + supplied.length)
        (results.zip (parameters.drop supplied.length)) a := by
  induction hsupplied generalizing parameters index with
  | nil => simp
  | @cons argument type supplied arguments hfirst hrest ih =>
    cases parameters with
    | nil => simp [checkArguments]
    | cons p parameters =>
      obtain ⟨-, v, hv, htype, hconstant⟩ := hfirst
      have hok : checkArgument cfg name index argument v p = .ok () :=
        checkArgument_of_admits (hadmits 0 p type rfl rfl v htype hconstant)
      have hstep : checkArguments cfg name index
          (((argument :: supplied) ++ results).zip (p :: parameters)) a =
          checkArguments cfg name (index + 1) ((supplied ++ results).zip parameters) a := by
        have hget : Yields (get : Emit Assembly) a a a := Yields.get_iff.mpr ⟨rfl, rfl⟩
        rw [List.cons_append, List.zip_cons_cons, checkArguments, bind_of_yields hget]
        simp [hv, hok]
      rw [hstep, ih (fun i p type hp htype => hadmits (i + 1) p type hp htype) (index + 1),
        List.length_cons, List.drop_succ_cons, Nat.add_assoc, Nat.add_comm 1]

theorem slots_var (cfg : Setting) (names : List String) (a : Assembly) :
    slots cfg (names.map .var) a = .ok names a := by
  induction names with
  | nil => rfl
  | cons name names ih =>
    have hbind : slots cfg ((name :: names).map .var) a =
        (slots cfg (names.map .var) >>= fun names => pure (name :: names)) a := rfl
    rw [hbind, bind_of_yields ih]
    rfl

/-- A slot that is there can be pushed. -/
theorem pushSlot_ok {v : Variable} (hname : name ≠ "") (hv : a.heap.slots.get? name = some v) :
    pushSlot cfg name none false a = .ok a.lines.size (a.append (.push name)) := by
  have hempty : ¬name.isEmpty = true := by simpa using hname
  have hcontains : a.heap.slots.contains name = true := OrderedMap.contains_iff.mpr ⟨v, hv⟩
  have htype : typeOf? cfg name a = .ok (some v.type) a := by
    simp [typeOf?, onHeap, Heap.typeOf?, hcontains, hv]
    rfl
  have hcheck : checkSlot cfg name none false a = .ok () a := by
    unfold checkSlot
    rw [if_neg hempty]
    exact bind_of_yields htype
  exact bind_of_yields hcheck

theorem pushAll_ok {names : List String}
    (hnames : ∀ name ∈ names, name ≠ "" ∧ a.heap.slots.contains name = true) :
    ∃ a', pushAll cfg names a = .ok () a' := by
  induction names generalizing a with
  | nil => exact ⟨a, rfl⟩
  | cons name names ih =>
    obtain ⟨hname, hcontains⟩ := hnames name List.mem_cons_self
    obtain ⟨v, hv⟩ := OrderedMap.contains_iff.mp hcontains
    obtain ⟨a', ha'⟩ : ∃ a', pushAll cfg names (a.append (.push name)) = .ok () a' :=
      ih fun other hother => hnames other (List.mem_cons_of_mem name hother)
    exact ⟨a', (bind_of_yields (pushSlot_ok hname hv)).trans ha'⟩

theorem callPushed_ok (hname : name ≠ "") {op : Operation}
    (hop : cfg.catalog.operationNamed? name = some op) :
    ∃ id a', callPushed cfg name a = .ok id a' := by
  have hempty : name.isEmpty = false := by simpa using hname
  have hrefused : (name.isEmpty || (cfg.typeCheck && (cfg.catalog.operationNamed? name).isNone)) =
      false := by simp [hempty, hop]
  unfold callPushed
  rw [hrefused]
  exact ⟨_, _, rfl⟩

/-- A checked call whose arguments are admitted fails, if it does, in the check of what stands
behind them. -/
theorem call_error {arguments : List TypeId} {supplied results : List String} {op : Operation}
    (hcheck : cfg.typeCheck = true) (hname : name ≠ "")
    (hop : cfg.catalog.operationNamed? name = some op) (hsupplied : a.Supplies supplied arguments)
    (hadmits : AdmitAll cfg.catalog.types op.parameters arguments)
    (hlength : op.parameters.length = supplied.length + results.length)
    (hresults : ∀ result ∈ results, result ≠ "")
    (h : call cfg name ((supplied ++ results).map .var) a = .error e a') :
    checkArguments cfg name supplied.length (results.zip (op.parameters.drop supplied.length)) a =
      .error e a' := by
  have hcall : checkCall cfg name (supplied ++ results) a =
      checkArguments cfg name supplied.length
        (results.zip (op.parameters.drop supplied.length)) a := by
    have hcounted : ¬op.parameters.length ≠ (supplied ++ results).length := by
      rw [List.length_append, hlength]
      exact fun hne => hne rfl
    unfold checkCall
    simp only [hop]
    rw [if_neg hcounted]
    have happend := checkArguments_append name hsupplied hadmits results 0
    rwa [Nat.zero_add] at happend
  unfold call at h
  rcases bind_error_cases h with h | ⟨names, a₀, hslots, h⟩
  · rw [slots_var] at h
    cases h
  obtain ⟨rfl, rfl⟩ := EStateM.Result.ok.inj ((slots_var cfg (supplied ++ results) a).symm.trans
    hslots)
  rw [if_pos hcheck] at h
  rcases bind_error_cases h with h | ⟨_, a₁, hchecked, h⟩
  · rwa [← hcall]
  -- Every slot is there after the check, so that nothing that follows can fail.
  obtain ⟨hemits, op', hop', -, hfits⟩ := checkCall_spec hchecked
  obtain rfl := Option.some.inj (hop.symm.trans hop')
  have hnames : ∀ other ∈ supplied ++ results,
      other ≠ "" ∧ a₁.heap.slots.contains other = true := by
    intro other hother
    constructor
    · rcases List.mem_append.mp hother with hother | hother
      · exact hsupplied.names other hother
      · exact hresults other hother
    · have hzip : ((supplied ++ results).zip op.parameters).map Prod.fst = supplied ++ results :=
        List.map_fst_zip (by rw [List.length_append, hlength])
      rw [← hzip] at hother
      obtain ⟨pair, hpair, rfl⟩ := List.mem_map.mp hother
      obtain ⟨v, hv, -⟩ := hfits pair hpair
      exact OrderedMap.contains_iff.mpr ⟨v, hv⟩
  obtain ⟨a₂, hpushed⟩ := pushAll_ok hnames
  rcases bind_error_cases h with h | ⟨_, a₃, -, h⟩
  · rw [hpushed] at h
    cases h
  · obtain ⟨id, a₄, hcalled⟩ := callPushed_ok hname hop
    rw [hcalled] at h
    cases h

end Emit

/-! ## Resolved calls

What resolution accepts (`AcceptsArguments`) is turned into what the check asks for (`AdmitAll`),
parameter by parameter, with the lemmas on the two ways to check an argument. -/

namespace Catalog

variable {c : Catalog} {manifest : Manifest} {name : String} {arguments : List TypeId}
  {id : OperationId}

/-- An operation that accepts arguments by assignability admits their slots. -/
theorem admitAll_of_acceptsArguments {types : TypeTable} (happart : types.VoidApart)
    {op : Operation} (hparameters : ∀ p ∈ op.parameters, p.type < types.size)
    (haccepts : Overload.acceptsArguments types op arguments = true) :
    AdmitAll types op.parameters arguments := by
  intro i p type hp htype v hv hconstant
  have hmem : (p, type) ∈ op.parameters.zip arguments :=
    List.mem_of_getElem? (List.getElem?_zip_eq_some.mpr ⟨hp, htype⟩)
  have haccepted := List.all_eq_true.mp haccepts _ hmem
  have hlt := hparameters p (List.mem_of_getElem? hp)
  unfold Parameter.Admits
  subst hv
  cases hdirection : p.direction with
  | input =>
    simp only [hdirection] at haccepted
    exact happart.accepts_of_isAssignable haccepted
  | output =>
    simp only [hdirection] at haccepted
    exact ⟨happart.isCompatible_of_isAssignable hlt haccepted, hconstant⟩
  | both =>
    simp only [hdirection] at haccepted
    exact ⟨beq_iff_eq.mp haccepted, hconstant⟩

/-- A call that resolves supplies every parameter but that of the result, and the check of each
argument accepts a slot of its type that is no constant. Checked as a whole, the call fails, if it
does, in the check of the slot for the result. -/
theorem resolveOverload_checks (hspares : manifest.SparesVoid) (hload : load manifest = .ok c)
    (hresolve : c.resolveOverload name arguments = some id) :
    let op := c.operation id
    op.parameters.length = arguments.length + (if op.returnType?.isSome then 1 else 0) ∧
      (∀ (i : Nat) (p : Parameter) (type : TypeId), op.parameters[i]? = some p →
        arguments[i]? = some type →
        ∀ (v : Variable) (argument : String), v.type = type → v.attributes.constant = false →
          Emit.checkArgument ⟨c, true⟩ op.fullName i argument v p = .ok ()) ∧
      ∀ (a : Assembly) (supplied results : List String), a.Supplies supplied arguments →
        op.parameters.length = supplied.length + results.length →
        (∀ result ∈ results, result ≠ "") →
        ∀ (e : BuildError) (a' : Assembly),
          Emit.call ⟨c, true⟩ op.fullName ((supplied ++ results).map .var) a = .error e a' →
          Emit.checkArguments ⟨c, true⟩ op.fullName arguments.length
            (results.zip (op.parameters.drop arguments.length)) a = .error e a' := by
  have happart := load_voidApart hspares hload
  have hindexed := Loaded.indexed (Or.inr ⟨manifest, hload⟩)
  have hmem : id ∈ c.candidates name arguments.length := List.mem_of_find?_eq_some hresolve
  have haccepts : Overload.acceptsArguments c.types (c.operation id) arguments = true :=
    (List.find?_eq_some_iff_append.mp hresolve).1
  have hadmits := admitAll_of_acceptsArguments happart (hindexed.parameters id) haccepts
  refine ⟨?_, fun i p type hp htype v argument hv hconstant => ?_,
    fun a supplied results hsupplied hlength hresults e a' hcall => ?_⟩
  · rw [← arity_of_mem_candidates hload hmem]
    exact Operation.length_parameters _
  · exact Emit.checkArgument_of_admits (hadmits i p type hp htype v hv hconstant)
  · have hfull : (c.operation id).fullName ≠ "" := by
      intro hempty
      have hmethod := methodOf?_isSome hload hmem
      rw [hempty] at hmethod
      exact absurd hmethod (by decide)
    rw [← hsupplied.length_eq]
    exact Emit.call_error rfl hfull (hindexed.operationNamed?_of_resolveOverload hresolve) hsupplied
      hadmits hlength hresults hcall

/-- A transform is a component, and stands beside null for an object: both calls resolve, and the
check takes a slot of either type. -/
theorem resolveOverload_checks_null : ∃ manifest c, load manifest = .ok c ∧ manifest.SparesVoid ∧
    ∀ type ∈ [32, void], c.resolveOverload "DebugDescribe" [type] = some 0 ∧
      (c.operation 0).parameters.length = 2 ∧
      ∀ p v, (c.operation 0).parameters[0]? = some p → v.type = type →
        v.attributes.constant = false →
        Emit.checkArgument ⟨c, true⟩ (c.operation 0).fullName 0 "x" v p = .ok () := by
  obtain ⟨manifest, hspares, hknown⟩ : ∃ manifest : Manifest, manifest.SparesVoid ∧
      (load manifest).toOption.map (fun c => (c.resolveOverload "DebugDescribe" [32],
        c.resolveOverload "DebugDescribe" [void], (c.operation 0).returnType?.isSome)) =
      some (some 0, some 0, true) := by
    refine ⟨⟨[⟨"Component", "Component", none, false⟩,
      ⟨"Transform", "Transform", some "Component", false⟩, ⟨"Debug", "Debug", none, false⟩],
      [Manifest.function "Debug" "Describe" ["SystemObject"] "SystemString"], []⟩, ?_⟩
    decide +kernel
  obtain ⟨c, hload, hknown⟩ := exists_ok_of_map hknown
  simp only [Prod.mk.injEq] at hknown
  obtain ⟨htransform, hnull, hreturns⟩ := hknown
  refine ⟨manifest, c, hload, hspares, fun type htype => ?_⟩
  have hresolve : c.resolveOverload "DebugDescribe" [type] = some 0 := by
    rcases List.mem_pair.mp htype with rfl | rfl
    · exact htransform
    · exact hnull
  obtain ⟨hlength, hchecks, -⟩ := resolveOverload_checks hspares hload hresolve
  rw [hreturns] at hlength
  exact ⟨hresolve, hlength, fun p v hp hv => hchecks 0 p type hp rfl v "x" hv⟩

end Catalog

end SexprAsm
