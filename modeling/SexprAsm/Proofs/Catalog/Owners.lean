import SexprAsm.Proofs.Catalog.Index
import SexprAsm.Proofs.TypeTable.Order

/-!
# Whose operation is kept

Of the operations with one signature that are called by a name, a list of candidates keeps one. A
newcomer leaves it there if its owner derives from the other's, and takes its place otherwise, also
if the two owners have nothing to do with each other. So the owner that is kept in the end is above
all the others as long as any two of them are related; where it derives from the owner of an
operation that was given up, an operation of a third owner, unrelated to that one, was registered
between the two (`Catalog.load_displaces`).
-/

namespace SexprAsm

open TypeTable

/-- Types that are entered later change no assignability. -/
theorem TypeTable.Grows.isAssignable_eq {t t' : TypeTable} (hgrows : t.Grows t') (h : t.Sound)
    {a b : TypeId} (ha : a < t.size) (hb : b < t.size) :
    t'.isAssignable a b = t.isAssignable a b := by
  obtain ⟨h', hext, hinfo⟩ := hgrows.sound h
  rw [Bool.eq_iff_iff, h.wellFormed.isAssignable_iff h.elementsFirst hb,
    h'.wellFormed.isAssignable_iff h'.elementsFirst (Nat.lt_of_lt_of_le hb hext.size_le)]
  have helement {id element : TypeId} (hid : (t.info id).element = some element) :
      element < t.size :=
    Nat.lt_trans (h.elementsFirst id element hid) (lt_size_of_element hid)
  constructor
  · intro hassignable
    induction hassignable with
    | above habove => exact .above ((hgrows.above_iff h hb).mp habove)
    | element htarget hsource href _ ih =>
      rw [hinfo _ ha] at htarget
      rw [hinfo _ hb] at hsource
      rw [hinfo _ (helement hsource)] at href
      exact .element htarget hsource href (ih (helement htarget) (helement hsource))
  · intro hassignable
    induction hassignable with
    | above habove => exact .above ((hgrows.above_iff h hb).mpr habove)
    | element htarget hsource href _ ih =>
      have ih := ih (helement htarget) (helement hsource)
      rw [← hinfo _ (helement hsource)] at href
      rw [← hinfo _ ha] at htarget
      rw [← hinfo _ hb] at hsource
      exact .element htarget hsource href ih

/-- Operations with the same signature are called with the same number of arguments. -/
theorem Operation.arity_eq {op op' : Operation} (h : op.sameSignature op' = true) :
    op.arity = op'.arity := by
  have hsignature := sameSignature_iff.mp h
  have hlength : op.parameters.length = op'.parameters.length := by
    simpa only [signature, List.length_map] using congrArg List.length hsignature
  have hlast : op.parameters.getLast?.map (·.direction) =
      op'.parameters.getLast?.map (·.direction) := by
    have hshape := congrArg (fun shapes => shapes.getLast?.map Prod.fst) hsignature
    simp only [signature, List.getLast?_map, Option.map_map] at hshape
    exact hshape
  have hreturns (op : Operation) :
      op.returns = (op.parameters.getLast?.map (·.direction)).any (· = .output) := by
    rw [returns, Option.any_map]
  rw [arity, arity, hreturns, hreturns, hlast, hlength]

namespace Overload

variable {ctx : Context} {id newcomer : OperationId} {ids : List OperationId}

/-- In a list without repeated signatures, a newcomer leaves the candidate with its signature there
if that owner's is above its own, and takes its place otherwise. -/
theorem addCandidate_cases (hdistinct : (ids.map fun x => (ctx.operation x).signature).Nodup)
    (hid : id ∈ addCandidate ctx newcomer ids) :
    (id ∈ ids ∧ ((ctx.operation id).sameSignature (ctx.operation newcomer) = true →
        ctx.types.isAssignable (ctx.operation id).owner (ctx.operation newcomer).owner = true)) ∨
      (id = newcomer ∧ ∀ x ∈ ids,
        (ctx.operation x).sameSignature (ctx.operation newcomer) = true →
          ctx.types.isAssignable (ctx.operation x).owner (ctx.operation newcomer).owner = false) := by
  induction ids with
  | nil => exact Or.inr ⟨List.mem_singleton.mp hid, nofun⟩
  | cons other rest ih =>
    rw [List.map_cons, List.nodup_cons] at hdistinct
    obtain ⟨hother, hrest⟩ := hdistinct
    -- No other candidate has the signature of the first one.
    have hfirst (hsame : (ctx.operation other).sameSignature (ctx.operation newcomer) = true)
        {x : OperationId} (hx : x ∈ rest) :
        ¬ (ctx.operation x).sameSignature (ctx.operation newcomer) = true := by
      rw [Operation.sameSignature_iff] at hsame ⊢
      exact fun heq => hother (List.mem_map.mpr ⟨x, hx, heq.trans hsame.symm⟩)
    rw [addCandidate] at hid
    split at hid
    next hsame =>
      split at hid
      next hcovers =>
        refine Or.inl ⟨hid, fun hsame' => ?_⟩
        rcases List.mem_cons.mp hid with rfl | hid
        · exact hcovers
        · exact absurd hsame' (hfirst hsame hid)
      next hcovers =>
        rcases List.mem_cons.mp hid with rfl | hid
        · refine Or.inr ⟨rfl, fun x hx hsame' => ?_⟩
          rcases List.mem_cons.mp hx with rfl | hx
          · exact Bool.eq_false_iff.mpr hcovers
          · exact absurd hsame' (hfirst hsame hx)
        · exact Or.inl ⟨List.mem_cons_of_mem other hid, fun hsame' =>
            absurd hsame' (hfirst hsame hid)⟩
    next hdiffers =>
      rcases List.mem_cons.mp hid with rfl | hid
      · exact Or.inl ⟨List.mem_cons_self, fun hsame => absurd hsame hdiffers⟩
      · rcases ih hrest hid with ⟨hid, hkept⟩ | ⟨rfl, htakes⟩
        · exact Or.inl ⟨List.mem_cons_of_mem other hid, hkept⟩
        · refine Or.inr ⟨rfl, fun x hx hsame => ?_⟩
          rcases List.mem_cons.mp hx with rfl | hx
          · exact absurd hsame hdiffers
          · exact htakes x hx hsame

end Overload

namespace Catalog

variable {c c' : Catalog} {name : String} {arity : Nat} {id other x y : OperationId}
  {manifest : Manifest}

/-! ## Rivals

Two operations are rivals under a name if a list of candidates has room for one of them only.
Both notions are about operations of the catalogue, and do not change when it grows. -/

/-- The owner of the second operation is assignable to that of the first. -/
def ownerCovers (c : Catalog) (x y : OperationId) : Bool :=
  c.types.isAssignable (c.operation x).owner (c.operation y).owner

/-- An operation that is called by a name and takes the arguments of another one. -/
structure Rival (c : Catalog) (name : String) (id other : OperationId) : Prop where
  lt : other < c.operations.size
  called : name ∈ (c.operation other).callNames c.types
  same : (c.operation other).sameSignature (c.operation id) = true

/-- A rival that was registered before an operation gave way to one that its owner has nothing to
do with: one whose owner is above the rival's was followed by one whose owner is not, and is not
below either. -/
def Displaced (c : Catalog) (name : String) (id other : OperationId) : Prop :=
  other < id ∧ ∃ holder taker, c.Rival name id holder ∧ c.Rival name id taker ∧
    holder < taker ∧ other < taker ∧ taker ≤ id ∧ c.ownerCovers holder other = true ∧
    c.ownerCovers holder taker = false ∧ c.ownerCovers taker other = false

theorem Rival.of_same (h : c.Rival name x other)
    (hsame : (c.operation x).signature = (c.operation y).signature) : c.Rival name y other := by
  refine ⟨h.lt, h.called, Operation.sameSignature_iff.mpr ?_⟩
  exact (Operation.sameSignature_iff.mp h.same).trans hsame

/-- What a later rival has taken from is taken from an even later one. -/
theorem Displaced.of_same (h : c.Displaced name x other)
    (hsame : (c.operation x).signature = (c.operation y).signature) (hlt : x < y) :
    c.Displaced name y other := by
  obtain ⟨hother, holder, taker, hholder, htaker, hbetween, hafter, hle, hcovers⟩ := h
  exact ⟨Nat.lt_trans hother hlt, holder, taker, hholder.of_same hsame, htaker.of_same hsame,
    hbetween, hafter, Nat.le_trans hle (Nat.le_of_lt hlt), hcovers⟩

/-- A catalogue has the types and the operations of another one, and maybe more. -/
structure Grows (c c' : Catalog) : Prop where
  types : c.types.Grows c'.types
  size_le : c.operations.size ≤ c'.operations.size
  operation : ∀ id < c.operations.size, c'.operation id = c.operation id

section Grows

variable (h : c.Covered) (hgrows : c.Grows c')

include h hgrows

theorem Covered.rival_iff (hid : id < c.operations.size) (hother : other < c.operations.size) :
    c'.Rival name id other ↔ c.Rival name id other := by
  have hnames := Operation.callNames_grows hgrows.types h.sound (h.owner other hother)
    (h.parameters other)
  constructor
  · rintro ⟨-, hcalled, hsame⟩
    rw [hgrows.operation other hother] at hcalled hsame
    rw [hgrows.operation id hid] at hsame
    exact ⟨hother, hnames ▸ hcalled, hsame⟩
  · rintro ⟨-, hcalled, hsame⟩
    refine ⟨Nat.lt_of_lt_of_le hother hgrows.size_le, ?_, ?_⟩
    · rw [hgrows.operation other hother, hnames]
      exact hcalled
    · rw [hgrows.operation other hother, hgrows.operation id hid]
      exact hsame

theorem Covered.ownerCovers_eq (hx : x < c.operations.size) (hy : y < c.operations.size) :
    c'.ownerCovers x y = c.ownerCovers x y := by
  rw [ownerCovers, ownerCovers, hgrows.operation x hx, hgrows.operation y hy]
  exact hgrows.types.isAssignable_eq h.sound (h.owner x hx) (h.owner y hy)

theorem Covered.displaced (hid : id < c.operations.size) (hdisplaced : c.Displaced name id other) :
    c'.Displaced name id other := by
  obtain ⟨hother, holder, taker, hholder, htaker, hbetween, hafter, hle, hcovers, hnot, hnot'⟩ :=
    hdisplaced
  have hlt := Nat.lt_trans hother hid
  refine ⟨hother, holder, taker, (h.rival_iff hgrows hid hholder.lt).mpr hholder,
    (h.rival_iff hgrows hid htaker.lt).mpr htaker, hbetween, hafter, hle, ?_, ?_, ?_⟩
  · rwa [h.ownerCovers_eq hgrows hholder.lt hlt]
  · rwa [h.ownerCovers_eq hgrows hholder.lt htaker.lt]
  · rwa [h.ownerCovers_eq hgrows htaker.lt hlt]

end Grows

/-! ## Loading operations

`Kept` is the invariant of the loader: it says of every candidate what becomes of its rivals.
Only the newcomer can break it, where it takes a place (`Kept.newcomer`) or is turned away. -/

/-- The rivals of a candidate have owners below its own, or have given way to an unrelated one. -/
structure Kept (c : Catalog) : Prop where
  covered : c.Covered
  kept : ∀ name arity, ∀ id ∈ c.candidates name arity, ∀ other, c.Rival name id other →
    c.ownerCovers id other = true ∨ c.Displaced name id other

/-- What is known of a candidate's rivals stays true in a larger catalogue. -/
theorem Kept.of_grows (h : c.Kept) (hgrows : c.Grows c') (hid : id ∈ c.candidates name arity)
    (hlt : other < c.operations.size) (hother : c'.Rival name id other) :
    c'.ownerCovers id other = true ∨ c'.Displaced name id other := by
  have hidlt := h.covered.filed.lt hid
  rw [h.covered.ownerCovers_eq hgrows hidlt hlt]
  exact (h.kept name arity id hid other
    ((h.covered.rival_iff hgrows hidlt hlt).mp hother)).imp_right
      (h.covered.displaced hgrows hidlt)

/-- An operation that takes a place covers its rivals, as far as they have not given way to an
unrelated one before or do so now. -/
theorem Kept.newcomer (h : c.Kept) (hgrows : c.Grows c') (hcovered : c'.Covered)
    (hsize : c'.operations.size = c.operations.size + 1)
    (harity : (c'.operation c.operations.size).arity = arity)
    (htakes : ∀ x ∈ c.candidates name arity,
      (c'.operation x).sameSignature (c'.operation c.operations.size) = true →
        c'.ownerCovers x c.operations.size = false)
    (hcalled : name ∈ (c'.operation c.operations.size).callNames c'.types)
    (hother : c'.Rival name c.operations.size other) :
    c'.ownerCovers c.operations.size other = true ∨
      c'.Displaced name c.operations.size other := by
  have hlt : other < c.operations.size + 1 := hsize ▸ hother.lt
  rcases Nat.lt_succ_iff_lt_or_eq.mp hlt with hlt | rfl
  · -- The other one is covered by the candidate that had its signature, or was displaced before.
    have hop := hgrows.operation other hlt
    have hnames : name ∈ (c.operation other).callNames c.types := by
      rw [← Operation.callNames_grows hgrows.types h.covered.sound
        (h.covered.owner other hlt) (h.covered.parameters other), ← hop]
      exact hother.called
    obtain ⟨x, hx, hsignature⟩ := List.mem_map.mp (h.covered.listed other hlt name hnames)
    rw [← hop, Operation.arity_eq hother.same, harity] at hx
    have hxlt := h.covered.filed.lt hx
    have hopx := hgrows.operation x hxlt
    have hsame : (c'.operation x).signature = (c'.operation c.operations.size).signature := by
      rw [hopx, hsignature, ← hop]
      exact Operation.sameSignature_iff.mp hother.same
    rcases h.of_grows hgrows hx hlt (hother.of_same hsame.symm) with hcovers | hdisplaced
    · rw [or_iff_not_imp_left]
      intro hnot
      have hrival : c'.Rival name c.operations.size x := by
        refine (Rival.mk (Nat.lt_of_lt_of_le hxlt hgrows.size_le) ?_
          (Operation.sameSignature_iff.mpr hsame))
        rw [hopx, Operation.callNames_grows hgrows.types h.covered.sound
          (h.covered.owner x hxlt) (h.covered.parameters x)]
        exact h.covered.called name _ x hx
      have hself : c'.Rival name c.operations.size c.operations.size :=
        ⟨hsize ▸ Nat.lt_succ_self _, hcalled, Operation.sameSignature_iff.mpr rfl⟩
      exact ⟨hlt, x, c.operations.size, hrival, hself, hxlt, hlt, Nat.le_refl _, hcovers,
        htakes x hx hrival.same, Bool.eq_false_iff.mpr hnot⟩
    · exact Or.inr (hdisplaced.of_same hsame hxlt)
  · -- An owner covers itself.
    refine Or.inl ((hcovered.sound.wellFormed.isAssignable_iff hcovered.sound.elementsFirst
      (hcovered.owner _ hother.lt)).mpr (.above (.self _)))

theorem Kept.loadOperation (h : c.Kept) {decl : OperationDecl}
    (hload : c.loadOperation decl = .ok c') : c'.Kept := by
  have hcovered := h.covered.loadOperation hload
  refine ⟨hcovered, fun name arity id hid other hother => ?_⟩
  rcases loadOperation_registers hload with ⟨-, rfl⟩ | ⟨-, -, op, types, hop, hc'⟩
  · exact h.kept name arity id hid other hother
  · have hsize : c'.operations.size = c.operations.size + 1 := by
      rw [hc', size_register]
    have hoperation (id : OperationId) :
        c'.operation id = if id = c.operations.size then op else c.operation id := by
      rw [hc', operation_register]
      rfl
    have hnew : c'.operation c.operations.size = op := by rw [hoperation, if_pos rfl]
    have hgrows : c.Grows c' := by
      refine ⟨?_, by rw [hsize]; exact Nat.le_succ _, fun id hid => ?_⟩
      · rw [hc']
        exact (declaredOperation_spec hop h.covered.sound).1
      · rw [hoperation, if_neg (Nat.ne_of_lt hid)]
    have htypes : c'.types = types := by rw [hc']; rfl
    have hcandidates : c'.candidates name arity =
        if arity = op.arity ∧ name ∈ op.callNames types then
          Overload.addCandidate c'.context c.operations.size (c.candidates name arity)
        else c.candidates name arity := by
      rw [hc']
      exact candidates_register { c with types := types } op name arity
    have hlast (hlt : ¬ other < c.operations.size) : other = c.operations.size := by
      have hlt' : other < c.operations.size + 1 := hsize ▸ hother.lt
      exact Nat.le_antisymm (Nat.le_of_lt_succ hlt') (Nat.le_of_not_lt hlt)
    rw [hcandidates] at hid
    split at hid
    next hnamed =>
      -- The newcomer has joined the list, or taken the place of the candidate of its signature.
      have hdistinct : ((c.candidates name arity).map fun x =>
          (c'.context.operation x).signature).Nodup := by
        have hsame : ((c.candidates name arity).map fun x => (c'.operation x).signature) =
            c.signatures name arity :=
          List.map_congr_left fun x hx => by rw [hgrows.operation x (h.covered.filed.lt hx)]
        exact hsame ▸ h.covered.distinct name arity
      rcases Overload.addCandidate_cases hdistinct hid with ⟨hid, hkept⟩ | ⟨rfl, htakes⟩
      · by_cases hlt : other < c.operations.size
        · exact h.of_grows hgrows hid hlt hother
        · obtain rfl := hlast hlt
          refine Or.inl (hkept ?_)
          exact Operation.sameSignature_iff.mpr (Operation.sameSignature_iff.mp hother.same).symm
      · have hcalled : name ∈ (c'.operation c.operations.size).callNames c'.types := by
          rw [hnew, htypes]
          exact hnamed.2
        exact h.newcomer hgrows hcovered hsize (by rw [hnew, hnamed.1]) htakes hcalled hother
    next hnamed =>
      by_cases hlt : other < c.operations.size
      · exact h.of_grows hgrows hid hlt hother
      · -- The newcomer would have been added to the list.
        obtain rfl := hlast hlt
        have harity := Operation.arity_eq hother.same
        have hcalled := hother.called
        have hidlt := h.covered.filed.lt hid
        rw [hnew, hgrows.operation id hidlt, (h.covered.filed _ id (mem_candidates_iff.mp hid)).2]
          at harity
        rw [hnew, htypes] at hcalled
        exact absurd ⟨harity.symm, hcalled⟩ hnamed

theorem loadOperations_kept (h : loadOperations manifest = .ok c) : c.Kept := by
  obtain ⟨types, htypes, hoperations⟩ := loadOperations_stages.mp h
  have hempty : ({ empty with types := types } : Catalog).Kept :=
    ⟨covered_empty (loadTypes_sound htypes), fun name arity id hid => by cases hid⟩
  exact foldlM_keeps (fun h => Kept.loadOperation h) hempty hoperations

/-! ## Loaded catalogues

Sorting and events change neither the candidates of a name nor their owners, so the invariant
holds of the catalogue that has been loaded. -/

/-- In a loaded catalogue, the owner of a candidate is above that of every operation which is called
by the same name and takes the same arguments, unless that one was registered before and gave way to
an operation of an unrelated owner. So if the candidate's owner derives from the other's, there is
such an operation between the two. -/
theorem load_displaces (h : load manifest = .ok c) (hid : id ∈ c.candidates name arity)
    (hother : c.Rival name id other) :
    (c.ownerCovers id other = true ∨ c.Displaced name id other) ∧
      (manifest.NamesNoArrays → c.ownerCovers other id = true →
        (c.operation other).owner ≠ (c.operation id).owner →
          ∃ between, c.Rival name id between ∧ other < between ∧ between < id ∧
            c.ownerCovers other between = false ∧ c.ownerCovers between other = false) := by
  obtain ⟨c₁, hoperations, htypes, hop, -⟩ := load_index h
  obtain ⟨hops, -⟩ := operations_of_load h hoperations
  have hkept := loadOperations_kept hoperations
  have hgrows : c₁.Grows c := ⟨htypes, by rw [hops], fun id _ => hop id⟩
  rw [candidates_eq h, Manifest.registered, hoperations] at hid
  have hid : id ∈ c₁.candidates name arity := Overload.mem_sortCandidates hid
  have hlt (hrival : c.Rival name id other) : other < c₁.operations.size := hops ▸ hrival.lt
  have hfirst := hkept.of_grows hgrows hid (hlt hother) hother
  refine ⟨hfirst, fun hnames habove hne => ?_⟩
  have hordered := (load_sparesArrays h hnames).ordered
  have howner {x : OperationId} (hx : x < c.operations.size) :
      (c.operation x).owner < c.types.size :=
    Nat.lt_of_lt_of_le (hop x ▸ hkept.covered.owner x (hops ▸ hx))
      (htypes.sound hkept.covered.sound).2.1.size_le
  have hidlt : id < c.operations.size := hops ▸ hkept.covered.filed.lt hid
  have htrans {x y z : OperationId} (hx : x < c.operations.size) (hy : y < c.operations.size)
      (hz : z < c.operations.size) (hxy : c.ownerCovers x y = true)
      (hyz : c.ownerCovers y z = true) : c.ownerCovers x z = true :=
    hordered.trans _ (howner hx) _ (howner hy) _ (howner hz) hxy hyz
  -- The candidate does not cover the other one, so this one was displaced; whoever took its place
  -- stands between the two.
  have hbelow : ¬ c.ownerCovers id other = true := fun hcovers =>
    hne (hordered.antisymm _ (howner hother.lt) _ (howner hidlt) habove hcovers)
  obtain ⟨-, holder, taker, hholder, htaker, -, hafter, hle, hcovers, hnot, hnot'⟩ :=
    hfirst.resolve_left hbelow
  have hnotId : taker ≠ id := by
    rintro rfl
    rw [htrans hholder.lt hother.lt hidlt hcovers habove] at hnot
    cases hnot
  refine ⟨taker, htaker, hafter, Nat.lt_of_le_of_ne hle hnotId, ?_, hnot'⟩
  refine Bool.eq_false_iff.mpr fun hcovers' => ?_
  rw [htrans hholder.lt hother.lt htaker.lt hcovers hcovers'] at hnot
  cases hnot

/-- The sum of trees gives way to the sum of stones, and this one to the sum of leaves, so that the
last one is kept, although leaves are trees. -/
theorem load_displaces_stones : ∃ manifest c, load manifest = .ok c ∧ manifest.NamesNoArrays ∧
    c.candidates "+" 2 = [2] ∧ c.Rival "+" 2 0 ∧ c.types.name (c.operation 2).owner = "Leaf" ∧
    c.types.name (c.operation 0).owner = "Tree" ∧ c.ownerCovers 0 2 = true ∧
    c.ownerCovers 2 0 = false ∧ ∃ between, c.Rival "+" 2 between ∧ 0 < between ∧ between < 2 ∧
      c.ownerCovers 0 between = false ∧ c.ownerCovers between 0 = false := by
  obtain ⟨manifest, hnames, hknown⟩ :
      ∃ manifest : Manifest, manifest.NamesNoArrays ∧
        (load manifest).toOption.map (fun c =>
          (c.candidates "+" 2, c.types.name (c.operation 2).owner,
            c.types.name (c.operation 0).owner, c.ownerCovers 0 2, c.ownerCovers 2 0,
            decide (0 < c.operations.size ∧ "+" ∈ (c.operation 0).callNames c.types ∧
              (c.operation 0).sameSignature (c.operation 2) = true))) =
          some ([2], "Leaf", "Tree", true, false, true) := by
    refine ⟨⟨[⟨"Tree", "Tree", none, false⟩, ⟨"Leaf", "Leaf", some "Tree", false⟩,
      ⟨"Stone", "Stone", none, false⟩],
      ["Tree", "Stone", "Leaf"].map fun owner =>
        Manifest.function owner "op_Addition" ["SystemObject", "SystemObject"] "SystemObject",
      []⟩, ?_⟩
    unfold Manifest.NamesNoArrays
    decide +kernel
  obtain ⟨c, hload, hknown⟩ := exists_ok_of_map hknown
  simp only [Prod.mk.injEq, decide_eq_true_iff] at hknown
  obtain ⟨hcandidates, hleaf, htree, habove, hbelow, hlt, hcalled, hsame⟩ := hknown
  have hid : 2 ∈ c.candidates "+" 2 := by
    rw [hcandidates]
    exact List.mem_singleton_self 2
  have hrival : c.Rival "+" 2 0 := ⟨hlt, hcalled, hsame⟩
  have hne : (c.operation 0).owner ≠ (c.operation 2).owner := by
    intro heq
    rw [← heq, htree] at hleaf
    exact absurd hleaf (by decide)
  obtain ⟨-, hbetween⟩ := load_displaces hload hid hrival
  exact ⟨manifest, c, hload, hnames, hcandidates, hrival, hleaf, htree, habove,
    hbelow, hbetween hnames habove hne⟩

end Catalog

end SexprAsm
