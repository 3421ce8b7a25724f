import SexprAsm.Proofs.Catalog.Preference
import SexprAsm.Proofs.Generation.CastFill
import SexprAsm.Proofs.Generation.Destinations
import SexprAsm.Proofs.Resolution.Casting
import SexprAsm.Proofs.Semantics.Evaluation

/-!
# Assigning an array, straight or through a cast

An array can be filled straight in the variable that it is assigned to, or in a temporary of its own
type that a cast copies to the variable. The two programs are resolved alike
(`Tree.Casting.resolvable_iff`), but the checks after that are not the same ones: straight, the
array operations must admit the type of the variable; through the cast, they must admit that of the
array, and it must be compatible with the variable. Where these agree, one program compiles if and
only if the other one does (`Program.ofTree_casts`). They do for a variable of the type of the
array, but not for one of the root type, which only the cast admits, nor for an array of another
type, which is only filled straight.

So much for a variable that has a slot after resolution. One that is named at the assignment only
has none (`Tree.Casting.Alone`). Then the operation that makes the array gives it the type of its
parameter, and the copy gives it that of the array. If no one asks for the value of the assignment
either, this makes no difference, and both programs compile or none.

Nothing may be named like what the compiler names (`Tree.Spared`): then names of temporaries and
literals, which differ, are no one else's.
-/

namespace SexprAsm

open Assembly Generation Resolution

theorem Catalog.Loaded.sound {c : Catalog} (h : c.Loaded) : c.types.Sound := by
  rcases h with rfl | ⟨manifest, h⟩
  · rw [show Catalog.empty.types = TypeTable.initial by simp only [Catalog.empty]]
    exact TypeTable.sound_initial
  · exact Catalog.load_sound h

/-- Nothing in the tree, and no predefined name, is named like what the compiler names. -/
structure Tree.Spared (c : Catalog) (t : Tree) : Prop extends Plain c t where
  unreserved : ∀ id name, (t.tag id).text? = some name → ¬ Reserved name
  free : ∀ name, c.predefined.contains name = true → ¬ Reserved name

/-! ## Before and after generation

The invariant of two compilations (`Variation.Alike`) holds of what resolution leaves
(`alike_of_resolved`), as there is no code yet, and no event has been compiled. At the end it
says that the same jumps wait for a target, and assembling fails of nothing else
(`Program.assembles_iff`). So the lemma about single nodes gives one about programs
(`ofTree_trails`). -/

/-- Without a literal in the heap, no slot of one is out of order. -/
theorem Workspace.Unstarted.orderly {c : Catalog} {w : Workspace} (h : w.Unstarted)
    (hplain : ∀ name kind, w.assembly.heap.kind? name = some kind → kind.2 = false) :
    w.assembly.heap.Orderly c := by
  refine ⟨fun value name hname => ?_, fun name type hkind => by cases hplain name _ hkind⟩
  rw [h.constants] at hname
  cases hname

theorem Assembly.true_mem_pending {a : Assembly} :
    true ∈ a.pending ↔ ∃ i ∈ a.instructions, i.target? = some .unresolved := by
  unfold pending
  rw [List.mem_filterMap]
  refine exists_congr fun i => and_congr_right fun _ => ?_
  rw [Instruction.pending?, Option.map_eq_some_iff]
  constructor
  · rintro ⟨target, htarget, hunresolved⟩
    rw [htarget, of_decide_eq_true hunresolved]
  · intro htarget
    exact ⟨.unresolved, htarget, rfl⟩

/-- Code that has been generated assembles just if no jump waits for its target. -/
theorem Program.assembles_iff {cfg : Setting} {t : Tree} {before after : Workspace}
    (ht : t.Linked) (hroot : Tree.root < t.size) (hresolved : Program.resolved cfg t = .ok before)
    (hgenerated : Yields (generate cfg t) before () after) :
    (∃ p, Program.ofAssembly cfg.catalog.types after.assembly = .ok p) ↔
      true ∉ after.assembly.pending := by
  obtain ⟨first, hstart, hend⟩ := generate_reaches ht hroot hgenerated
  obtain ⟨log, hrecords⟩ := hend.records
  have hjournal : Journal t before log [] after :=
    hrecords.journal ht hresolved ((Program.resolved_prepared hresolved).journal hstart)
  have haccount : Account log (fun _ => 0) [] after := hjournal.account
  rw [Program.ofAssembly_ok_iff, Assembly.true_mem_pending]
  constructor
  · rintro hsited ⟨i, hi, htarget⟩
    exact hsited i hi .unresolved htarget
  · intro hnone i hi
    obtain ⟨k, hk⟩ := List.mem_iff_getElem?.mp hi
    refine (haccount.sited_or_waits hk).resolve_right fun hwaits => hnone ⟨i, hi, ?_⟩
    rw [hwaits]
    rfl

namespace Variation

variable {S : Variation} {w w' w₁ : Workspace}

/-- The routine of an event before anything has been generated for it. -/
theorem alike_of_declared {label : String} {visited visited' : List NodeId}
    {entry entry' : EntryPoint} (hprepared : Prepared S.setting S.tree w)
    (hprepared' : Prepared S.setting S.tree' w') (hpointed : Pointed S.setting S.tree visited w)
    (hpointed' : Pointed S.setting S.tree' visited' w')
    (hplain : ∀ name kind, w.assembly.heap.kind? name = some kind → kind.2 = false)
    (hplain' : ∀ name kind, w'.assembly.heap.kind? name = some kind → kind.2 = false)
    (hblocks : w'.blocksOf label = w.blocksOf label)
    (hentry : w.entryPoints.get? label = some entry)
    (hentry' : w'.entryPoints.get? label = some entry') :
    EntryPoint.Alike w.assembly w'.assembly entry entry' := by
  obtain ⟨hcompiled, hstart, hchain, hlanding, -⟩ :=
    hprepared.unstarted.entryPoints label entry hentry
  obtain ⟨hcompiled', hstart', hchain', hlanding', -⟩ :=
    hprepared'.unstarted.entryPoints label entry' hentry'
  obtain ⟨hlead, -, -, v, hv, htype, -⟩ := hpointed.pointers label entry hentry
  obtain ⟨hlead', -, -, v', hv', htype', -⟩ := hpointed'.pointers label entry' hentry'
  -- The slots for the return address may have different names, but are of one kind.
  have hkind : w.assembly.heap.kind? entry.returnPointer =
      some (S.catalog.pointerSlot.type, false) :=
    Heap.kind?_eq_some.mpr ⟨v, hv, htype,
      hplain _ _ (Heap.kind?_eq_some.mpr ⟨v, hv, rfl, rfl⟩)⟩
  have hkind' : w'.assembly.heap.kind? entry'.returnPointer =
      some (S.catalog.pointerSlot.type, false) :=
    Heap.kind?_eq_some.mpr ⟨v', hv', htype',
      hplain' _ _ (Heap.kind?_eq_some.mpr ⟨v', hv', rfl, rfl⟩)⟩
  refine ⟨⟨Build.isEmpty_of_pointerLead hlead, Build.isEmpty_of_pointerLead hlead', _, hkind, hkind'⟩,
    ?_, hcompiled'.trans hcompiled.symm, ?_, ?_, ?_⟩
  · simpa [Workspace.blocksOf, hentry, hentry'] using hblocks
  · rw [hstart, hstart']
    exact .none
  · rw [hchain, hchain']
    exact .none
  · rw [hlanding, hlanding']
    exact .nil

/-- What resolution leaves for the two trees corresponds, if variables have the same kinds and events
the same blocks. -/
theorem alike_of_resolved (ht : S.tree.Linked) (ht' : S.tree'.Linked)
    (hroot : Tree.root < S.tree.size) (hroot' : Tree.root < S.tree'.size)
    (hplain : Plain S.catalog S.tree) (hplain' : Plain S.catalog S.tree')
    (h : Program.resolved S.setting S.tree = .ok w)
    (h' : Program.resolved S.setting S.tree' = .ok w')
    (hshared : ∀ name, S.shared name → w'.assembly.heap.kind? name = w.assembly.heap.kind? name)
    (htarget : S.Holds S.type (w.assembly.heap.kind? S.target))
    (htarget' : S.Holds S.type' (w'.assembly.heap.kind? S.target))
    (hfindings : w.findings = S.findings) (hfindings' : w'.findings = S.findings')
    (hcontains : ∀ label, w'.entryPoints.contains label = w.entryPoints.contains label)
    (hblocks : ∀ label, w'.blocksOf label = w.blocksOf label) : S.Alike w w' := by
  have hprepared := Program.resolved_prepared h
  have hprepared' := Program.resolved_prepared h'
  obtain ⟨-, hsettled⟩ := Program.resolved_settled S.sound ht hroot hplain h
  obtain ⟨-, hsettled'⟩ := Program.resolved_settled S.sound ht' hroot' hplain' h'
  have hcode := hprepared.unstarted.instructions_eq_nil
  have hcode' := hprepared'.unstarted.instructions_eq_nil
  refine ⟨⟨hprepared.unstarted.orderly hsettled.plain, hprepared'.unstarted.orderly hsettled'.plain,
    hshared, htarget, htarget', ?_, hprepared.unstarted.laid, hprepared'.unstarted.laid,
    fun _ => ?_⟩, hprepared.unstarted.pooled, hprepared'.unstarted.pooled, hfindings, hfindings',
    fun label => ?_⟩
  · rw [Assembly.pending, Assembly.pending, hcode, hcode']
  · rw [hcode, hcode']
  · -- An entry point is there for both trees, as it was declared, or for neither.
    have hlabel := hcontains label
    rw [OrderedMap.contains, OrderedMap.contains] at hlabel
    cases hentry : w.entryPoints.get? label with
    | none =>
      rw [hentry, Option.isSome_none, Option.isSome_eq_false_iff, Option.isNone_iff_eq_none] at hlabel
      rw [hlabel]
      exact .none
    | some entry =>
      rw [hentry, Option.isSome_some] at hlabel
      obtain ⟨entry', hentry'⟩ := Option.isSome_iff_exists.mp hlabel
      rw [hentry']
      exact .some (alike_of_declared hprepared hprepared' (Program.resolved_pointed h)
        (Program.resolved_pointed h') hsettled.plain hsettled'.plain (hblocks label) hentry hentry')

/-- If the assignment compiles like its counterpart, so does the program. -/
theorem ofTree_trails (ht : S.tree.Linked) (ht' : S.tree'.Linked) (hroot : Tree.root < S.tree.size)
    (hroot' : Tree.root < S.tree'.size) (h : Program.resolved S.setting S.tree = .ok w)
    (h' : Program.resolved S.setting S.tree' = .ok w') (halike : S.Alike w w')
    (hnode : S.node Tree.root Tree.root)
    (hsite : (∀ id, S.tree.weight id < S.tree.weight S.site → S.Compiles ht ht' id) →
      S.Compiles ht ht' S.site) (hcompiles : ∃ p, Program.ofTree S.setting S.tree = .ok p) :
    (∃ p, Program.ofTree S.setting S.tree' = .ok p) ∨
      ∃ e, Program.ofTree S.setting S.tree' = .error e ∧ S.FaultyAt e := by
  obtain ⟨p, hp⟩ := hcompiles
  have heq := run_start_eq_compileNode S.setting ht hroot (Nat.le_refl _) w
  have heq' := run_start_eq_compileNode S.setting ht' hroot' (Nat.le_refl _) w'
  rw [Program.ofTree_of_resolved h] at hp
  rw [Program.ofTree_of_resolved h']
  have htrails := compiles ht ht' hsite Tree.root Tree.root w w' none none hnode halike
    (.of_like .none) fun _ => rfl
  cases hgenerated : generate S.setting S.tree w with
  | error e w₁ =>
    rw [hgenerated] at hp
    cases hp
  | ok _ w₁ =>
    rw [hgenerated] at hp
    rcases htrails () w₁ (heq.symm.trans hgenerated) with
      ⟨_, w₁', hgenerated', halike', -⟩ | ⟨e, w₁', herror, he⟩
    · -- The code is complete where no jump waits for its target, which is the same for both.
      have hyields' : Yields (generate S.setting S.tree') w' () w₁' := heq'.trans hgenerated'
      refine Or.inl ?_
      rw [hyields']
      refine (Program.assembles_iff ht' hroot' h' hyields').mpr ?_
      rw [halike'.assembly.pending]
      exact (Program.assembles_iff ht hroot h hgenerated).mp ⟨p, hp⟩
    · refine Or.inr ⟨e, ?_, he⟩
      rw [show generate S.setting S.tree' w' = .error e w₁' from heq'.trans herror]

end Variation

/-! ## The two trees

Resolution leaves the two trees with the same meanings, but for the cast (`Assigned`). This is
what the lemmas about similar trees are applied to, once in each direction (`adding`,
`dropping`). A variable that is made at the assignment takes some more: that its name is at no
other node (`eq_site`), that it has no slot after resolution (`Alone.kind?_eq_none`), and that
the place at which no one asks for the value of the assignment is such a place in the other tree,
too (`Assigned.unread_image`). -/

namespace Tree.Casting

variable {t t' : Tree} {C : t.Casting t'} {c : Catalog} {w w' : Workspace} {x : String}
  {type : TypeId}

/-- What is known of the two trees after resolution: an array of a type is filled, and assigned to a
variable. -/
structure Assigned (C : t.Casting t') (c : Catalog) (w w' : Workspace) (x : String) (type : TypeId) :
    Prop where
  sound : c.types.Sound
  spared : t.Spared c
  returnValue : c.predefined.contains Catalog.returnValue = true
  named : t.Named C.left x
  assigns : w.construct? C.site = some .set
  fills : w.construct? C.right = some (.arrayFill type)
  typed : w.nodeType? C.right = some type
  casts : w'.construct? C.cast = some (.cast type)
  finding : ∀ id, w'.finding (C.image id) = w.finding id

/-- A variable that is made where it is assigned, and used nowhere else: it is named there only, it is
not predefined, and no one asks for the value of the assignment. -/
structure Alone (C : t.Casting t') (c : Catalog) (w : Workspace) (x : String) : Prop where
  only : ∀ id, (t.tag id).text? = some x → id = C.left
  ordinary : c.predefined.contains x = false
  unread : t.Unread w C.site

/-- A name that stands in the tree or is predefined. -/
def Known (c : Catalog) (t : Tree) (name : String) : Prop :=
  (∃ id, (t.tag id).text? = some name) ∨ c.predefined.contains name = true

theorem left_mem (C : t.Casting t') : C.left ∈ t.children C.site := by simp [C.site_children]

theorem eq_site (ht : t.Linked) {p : NodeId} (hp : C.left ∈ t.children p) : p = C.site :=
  Option.some.inj (((ht.mem_iff p _).mp hp).symm.trans ((ht.mem_iff _ _).mp C.left_mem))

theorem ne_left_of_child (ht : t.Linked) {p child : NodeId} (hp : p ≠ C.site)
    (hchild : child ∈ t.children p) : child ≠ C.left := by
  rintro rfl
  exact hp (eq_site ht hchild)

theorem root_ne_left (ht : t.Linked) (C : t.Casting t') : Tree.root ≠ C.left := by
  intro hroot
  have hlt := ht.weight_lt C.left_mem
  rw [← hroot] at hlt
  exact absurd (C.visited.weight_le ht) (Nat.not_le.mpr hlt)

theorem right_ne_left (ht : t.Linked) (C : t.Casting t') : C.right ≠ C.left := by
  have hnodup := ht.nodup C.site
  rw [C.site_children, List.nodup_cons, List.mem_singleton] at hnodup
  exact fun heq => hnodup.1 heq.symm

/-- Nothing declares a variable that is only assigned. -/
theorem Alone.not_makes (halone : C.Alone c w x) (ht : t.Linked) {cfg : Setting} {d : NodeId}
    {other : TypeId} : ¬ Makes cfg t d x other := by
  rintro ⟨⟨htag, hleaf, hname⟩, -⟩
  cases hchildren : t.children d with
  | nil => simp [Node.isLeaf, show (t.node d).children = [] from hchildren] at hleaf
  | cons first rest =>
    rw [hchildren, List.headD_cons] at hname
    obtain rfl := halone.only first hname.1
    obtain rfl := eq_site (p := d) ht (hchildren ▸ List.mem_cons_self)
    rw [C.site_tag] at htag
    exact absurd (Value.string.inj htag) (by decide)

/-- So it has no slot after resolution. -/
theorem Alone.kind?_eq_none (halone : C.Alone c w x) (ht : t.Linked) (hname : t.Named C.left x)
    (hplain : Plain c t) {heap : Heap} (hsettled : Resolution.Settled ⟨c, true⟩ t heap) :
    heap.kind? x = none := by
  by_cases hasked : ∃ id, t.Visited id ∧ t.Asks id x
  · obtain ⟨id, hid, hasks⟩ := hasked
    have hordinary := halone.ordinary
    rw [OrderedMap.contains, Option.isSome_eq_false_iff, Option.isNone_iff_eq_none] at hordinary
    rw [hsettled.asked id x hid hasks fun _ _ _ => halone.not_makes ht]
    exact congrArg (Option.map _) hordinary
  · exact hsettled.others x (hplain.texts C.left x hname.1)
      (fun id hid hasks => hasked ⟨id, hid, hasks⟩) fun _ _ _ => halone.not_makes ht

/-- The image of a node whose value no one asks for is such a node. -/
theorem Assigned.unread_image (h : C.Assigned c w w' x type) (ht : t.Linked) (ht' : t'.Linked)
    {id : NodeId} (hunread : t.Unread w id) : t'.Unread w' (C.image id) := by
  -- Nothing is dropped or handed on by the assignment, so both parents are away from it.
  have hother : ∀ {p construct n}, w.construct? p = some construct →
      construct.Drops (t.children p).length n ∨ construct.HandsOn (t.children p).length n →
      p ≠ C.site := by
    rintro p construct n hconstruct huse rfl
    obtain rfl := Option.some.inj (h.assigns.symm.trans hconstruct)
    exact huse.elim False.elim False.elim
  have hchildren : ∀ {p child : NodeId} {n : Nat}, p ≠ C.site → (t.children p)[n]? = some child →
      (t'.children (C.image p))[n]? = some (C.image child) := by
    intro p n child hp hchild
    rw [C.children p hp, List.getElem?_map, hchild, Option.map_some]
  induction hunread with
  | @top id hparent =>
    refine .top ?_
    rw [C.parent?_image ht ht', hparent, Option.map_none]
    rintro rfl
    cases hparent.symm.trans (C.parent?_right ht)
  | @dropped p id n construct hconstruct hchild hdrops =>
    refine .dropped ((congrArg Finding.construct (h.finding p)).trans hconstruct)
      (hchildren (hother hconstruct (Or.inl hdrops)) hchild) ?_
    rwa [C.length_children]
  | @handedOn p id n construct hconstruct hchild hhands _ ih =>
    refine .handedOn ((congrArg Finding.construct (h.finding p)).trans hconstruct)
      (hchildren (hother hconstruct (Or.inr hhands)) hchild) ?_ ih
    rwa [C.length_children]

/-! ### The two compilations

The variable has a slot after resolution, and then it is shared like all others, or it is made at
the assignment (`new`). Then the node of its name is left out of those that correspond, so that
no other node names it. -/

section Variations

variable {new : Prop} (h : C.Assigned c w w' x type) (ht : t.Linked) (ht' : t'.Linked)
  (X X' : TypeId) (hnew : new → C.Alone c w x)

/-- Both are compiled against one catalogue, and have the same variables. -/
def twins (lean : Prop) : Twins where
  catalog := c
  sound := h.sound
  shared name := Known c t name ∧ (new → name ≠ x)
  ordinary name := by
    have hknown : ∀ {name}, Known c t name → ¬ Reserved name := by
      rintro name (⟨id, hname⟩ | hname)
      · exact h.spared.unreserved id name hname
      · exact h.spared.free name hname
    rintro (⟨hname, -⟩ | rfl)
    · exact (not_or.mp (hknown hname)).symm
    · exact (not_or.mp (hknown (Or.inl ⟨C.left, h.named.1⟩))).symm
  predefined name hname := by
    refine ⟨Or.inr hname, ?_⟩
    rintro hmade rfl
    cases (hnew hmade).ordinary.symm.trans hname
  target := x
  type := X
  type' := X'
  lean := lean

theorem loose_iff {lean : Prop} : (twins h X X' hnew lean).Loose ↔ new := by
  refine ⟨fun hloose => ?_, fun hmade hshared => hshared.2 hmade rfl⟩
  by_contra hthere
  exact hloose ⟨Or.inl ⟨C.left, h.named.1⟩, fun hmade => absurd hmade hthere⟩

/-- A node that corresponds to another one names no variable that is made. -/
theorem shared_of_text {lean : Prop} {id : NodeId} {name : String}
    (hid : new → id ≠ C.left) (hname : (t.tag id).text? = some name) :
    (twins h X X' hnew lean).shared name := by
  refine ⟨Or.inl ⟨id, hname⟩, ?_⟩
  rintro hmade rfl
  exact hid hmade ((hnew hmade).only id hname)

/-- From the tree without the cast to the one with it. -/
def adding : Variation where
  toTwins := twins h X X' hnew False
  tree := t
  tree' := t'
  findings := w.findings
  findings' := w'.findings
  site := C.site
  node id id' := id' = C.image id ∧ (new → id ≠ C.left)
  unread id := new ∧ t.Unread w id
  tag := by
    rintro id _ ⟨rfl, -⟩
    exact C.tag id
  finding := by
    rintro id _ ⟨rfl, -⟩
    exact h.finding id
  children := by
    rintro id _ ⟨rfl, -⟩ hid
    rw [C.children id hid, List.forall₂_map_right_iff, List.forall₂_same]
    exact fun child hchild => ⟨rfl, fun _ => ne_left_of_child ht hid hchild⟩
  names id _ name hnode hname := shared_of_text h X X' hnew hnode.2 hname
  returnValue := (twins h X X' hnew False).predefined _ h.returnValue
  unread_child p child hchild hunread := by
    obtain ⟨construct, n, hconstruct, hplace, huse⟩ := hunread.2.cases ht hchild
    exact ⟨construct, n, hconstruct, hplace, huse.imp_right fun hhands =>
      ⟨hhands.1, hunread.1, hhands.2⟩⟩
  unread_site hloose :=
    have hmade := (loose_iff h X X' hnew).mp hloose
    ⟨hmade, (hnew hmade).unread⟩
  site_tag := C.site_tag
  site_construct := h.assigns

/-- From the tree with the cast to the one without it. -/
def dropping : Variation where
  toTwins := twins h X X' hnew True
  tree := t'
  tree' := t
  findings := w'.findings
  findings' := w.findings
  site := C.image C.site
  node id id' := id = C.image id' ∧ (new → id' ≠ C.left)
  unread id := new ∧ t'.Unread w' id
  tag := by
    rintro _ id ⟨rfl, -⟩
    exact (C.tag id).symm
  finding := by
    rintro _ id ⟨rfl, -⟩
    exact (h.finding id).symm
  children := by
    rintro _ id ⟨rfl, -⟩ hid
    have hother : id ≠ C.site := fun heq => hid (congrArg C.image heq)
    rw [C.children id hother, List.forall₂_map_left_iff, List.forall₂_same]
    exact fun child hchild => ⟨rfl, fun _ => ne_left_of_child ht hother hchild⟩
  names := by
    rintro _ id name ⟨rfl, hid⟩ hname
    exact shared_of_text h X X' hnew hid ((congrArg Value.text? (C.tag id)).symm.trans hname)
  returnValue := (twins h X X' hnew True).predefined _ h.returnValue
  unread_child p child hchild hunread := by
    obtain ⟨construct, n, hconstruct, hplace, huse⟩ := hunread.2.cases ht' hchild
    exact ⟨construct, n, hconstruct, hplace, huse.imp_right fun hhands =>
      ⟨hhands.1, hunread.1, hhands.2⟩⟩
  unread_site hloose :=
    have hmade := (loose_iff h X X' hnew).mp hloose
    ⟨hmade, h.unread_image ht ht' (hnew hmade).unread⟩
  site_tag := (C.tag C.site).trans C.site_tag
  site_construct := (congrArg Finding.construct (h.finding C.site)).trans h.assigns

theorem straight_adding (htypes : new → X = c.newArrayType ∧ X' = type) :
    (adding h ht X X' hnew).Straight type C.left C.right where
  children := C.site_children
  named := h.named
  fills := h.fills
  typed := h.typed
  new hloose := htypes ((loose_iff h X X' hnew).mp hloose)
  cast := by
    rintro _ ⟨rfl, -⟩
    exact ⟨C.image C.left, C.image C.right, C.cast, type, C.image_site, C.cast_children,
      C.named_iff.mpr h.named, ⟨rfl, fun _ => right_ne_left ht C⟩, h.casts⟩

theorem cast_dropping (htypes : new → X = type ∧ X' = c.newArrayType) :
    (dropping h ht ht' X X' hnew).Cast type (C.image C.left) C.cast (C.image C.right) where
  children := C.image_site
  inner := C.cast_children
  named := C.named_iff.mpr h.named
  cast := ⟨type, h.casts⟩
  fills := (congrArg Finding.construct (h.finding C.right)).trans h.fills
  typed := (congrArg Finding.type (h.finding C.right)).trans h.typed
  new hloose := htypes ((loose_iff h X X' hnew).mp hloose)
  straight p' hp' := by
    obtain rfl : C.site = p' := C.injective hp'.1
    exact ⟨C.left, C.right, C.site_children, h.named, rfl, fun _ => right_ne_left ht C⟩

end Variations

/-! ## Compiling both

Both directions are the same argument: the workspaces correspond after resolution, and the
assignments compile alike by `Straight.compiles_site` and `Cast.compiles_site`, which ask for
what the operations admit. -/

section Compiling

variable {X X' : TypeId} {new : Prop} (C) (ht : t.Linked) (ht' : t'.Linked) (hroot : Tree.root < t.size)
  (h : Program.resolved ⟨c, true⟩ t = .ok w) (h' : Program.resolved ⟨c, true⟩ t' = .ok w')

include C ht ht' hroot h h'

/-- Variables have slots of the same kinds. -/
theorem kind?_known (hsound : c.types.Sound) (hplain : Plain c t) {name : String}
    (hname : Known c t name) : w'.assembly.heap.kind? name = w.assembly.heap.kind? name := by
  obtain ⟨-, hsettled⟩ := Program.resolved_settled hsound ht hroot hplain h
  obtain ⟨-, hsettled'⟩ := Program.resolved_settled hsound ht' (C.root_lt hroot) (C.plain hplain) h'
  refine C.kind?_eq hsettled hsettled' ?_
  rcases hname with ⟨id, hname⟩ | hname
  · exact hplain.texts id name hname
  · exact hplain.predefined name hname

theorem assigned (hc : c.Loaded) (hspared : t.Spared c) (hno : c.hasName ("!" ++ C.array) 1 = false)
    (hname : t.Named C.left x) (hset : w.construct? C.site = some .set)
    (hfill : w.construct? C.right = some (.arrayFill type)) : C.Assigned c w w' x type := by
  have hcall : ∀ type, c.resolveOverload ("!" ++ C.array) [type] = none := by
    intro type
    rw [Catalog.hasName, Bool.not_eq_false', List.isEmpty_iff] at hno
    rw [Catalog.resolveOverload, List.length_singleton, hno, List.find?_nil]
  obtain ⟨hfinding, hcast, htype⟩ :=
    C.findings_eq ht ht' hroot hc.sound hspared.toPlain h h' hfill hcall
  exact ⟨hc.sound, hspared, hc.predefines_returnValue, hname, hset, hfill, htype, hcast, hfinding⟩

/-- The variable has its slot after resolution, or has none and is made. -/
theorem twins_holds (hassigned : C.Assigned c w w' x type) (hnew : new → C.Alone c w x) {lean : Prop}
    {kind : TypeId} (hslot : ¬ new → w.assembly.heap.slotType? x = some kind) :
    (twins hassigned X X' hnew lean).Holds kind (w.assembly.heap.kind? x) ∧
      (twins hassigned X X' hnew lean).Holds kind (w'.assembly.heap.kind? x) := by
  have hplain := hassigned.spared.toPlain
  obtain ⟨-, hsettled⟩ := Program.resolved_settled hassigned.sound ht hroot hplain h
  rw [C.kind?_known ht ht' hroot h h' hassigned.sound hplain
    (Or.inl ⟨C.left, hassigned.named.1⟩), and_self]
  by_cases hmade : new
  · exact Or.inr ⟨(loose_iff hassigned X X' hnew).mpr hmade,
      (hnew hmade).kind?_eq_none ht hassigned.named hplain hsettled⟩
  · have hslot := hslot hmade
    rw [Heap.slotType?_eq_kind?] at hslot
    obtain ⟨⟨kind, constant⟩, hkind, rfl⟩ := Option.map_eq_some_iff.mp hslot
    obtain rfl : constant = false := hsettled.plain _ _ hkind
    exact Or.inl hkind

/-- The tree with the cast compiles if the other one does, but an address may be out of range. -/
theorem ofTree_adding (hassigned : C.Assigned c w w' x type) (hnew : new → C.Alone c w x)
    (hslot : ¬ new → w.assembly.heap.slotType? x = some X)
    (hslot' : ¬ new → w.assembly.heap.slotType? x = some X')
    (htypes : new → X = c.newArrayType ∧ X' = type)
    (hfits : (¬ new → c.FillsAt X (t.children C.right).length) →
      c.FillsAt type (t.children C.right).length ∧ c.types.isCompatible X' type = true)
    (hcompiles : ∃ p, Program.ofTree ⟨c, true⟩ t = .ok p) :
    (∃ p, Program.ofTree ⟨c, true⟩ t' = .ok p) ∨
      ∃ e text, Program.ofTree ⟨c, true⟩ t' = .error e ∧ e.fault = .build (.invalidAddress text) := by
  have hplain := hassigned.spared.toPlain
  have halike : (adding hassigned ht X X' hnew).Alike w w' :=
    Variation.alike_of_resolved ht ht' hroot (C.root_lt hroot) hplain (C.plain hplain) h h'
      (fun _ hname => C.kind?_known ht ht' hroot h h' hassigned.sound hplain hname.1)
      (C.twins_holds ht ht' hroot h h' hassigned hnew hslot).1
      (C.twins_holds ht ht' hroot h h' hassigned hnew hslot').2 rfl rfl
      (C.contains_eq ht ht' hroot h h') (C.blocksOf_eq ht ht' hroot h h')
  have hthere : ¬ new → (adding hassigned ht X X' hnew).shared x := fun hthere =>
    Classical.not_not.mp ((loose_iff hassigned X X' hnew).not.mpr hthere)
  refine (Variation.ofTree_trails ht ht' hroot (C.root_lt hroot) h h' halike
    ⟨C.root.symm, fun _ => root_ne_left ht C⟩
    ((straight_adding hassigned ht X X' hnew htypes).compiles_site (fun hlean => hlean)
      fun hfills => hfits fun hmade => hfills (hthere hmade)) hcompiles).imp_right ?_
  rintro ⟨e, herror, _, hfault, -, text, rfl⟩
  exact ⟨e, text, herror, hfault⟩

/-- The tree without the cast compiles if the other one does. -/
theorem ofTree_dropping (hassigned : C.Assigned c w w' x type) (hnew : new → C.Alone c w x)
    (hslot : ¬ new → w.assembly.heap.slotType? x = some X)
    (hslot' : ¬ new → w.assembly.heap.slotType? x = some X')
    (htypes : new → X = type ∧ X' = c.newArrayType)
    (hfits : c.FillsAt type (t.children C.right).length ∧
      (¬ new → c.types.isCompatible X type = true) → c.FillsAt X' (t.children C.right).length)
    (hcompiles : ∃ p, Program.ofTree ⟨c, true⟩ t' = .ok p) :
    ∃ p, Program.ofTree ⟨c, true⟩ t = .ok p := by
  have hplain := hassigned.spared.toPlain
  have halike : (dropping hassigned ht ht' X X' hnew).Alike w' w :=
    Variation.alike_of_resolved ht' ht (C.root_lt hroot) hroot (C.plain hplain) hplain h' h
      (fun _ hname => (C.kind?_known ht ht' hroot h h' hassigned.sound hplain hname.1).symm)
      (C.twins_holds ht ht' hroot h h' hassigned hnew hslot).2
      (C.twins_holds ht ht' hroot h h' hassigned hnew hslot').1 rfl rfl
      (fun label => (C.contains_eq ht ht' hroot h h' label).symm)
      (fun label => (C.blocksOf_eq ht ht' hroot h h' label).symm)
  have hthere : ¬ new → (dropping hassigned ht ht' X X' hnew).shared x := fun hthere =>
    Classical.not_not.mp ((loose_iff hassigned X X' hnew).not.mpr hthere)
  rw [← C.length_children] at hfits
  refine (Variation.ofTree_trails ht' ht (C.root_lt hroot) hroot h' h halike
    ⟨C.root.symm, fun _ => root_ne_left ht C⟩
    ((cast_dropping hassigned ht ht' X X' hnew htypes).compiles_site fun hfills =>
      hfits ⟨hfills.1, fun hmade => hfills.2 (hthere hmade)⟩) hcompiles).resolve_right ?_
  -- Without the cast there is less code, so no address can get out of range.
  rintro ⟨e, -, _, -, hlean, -⟩
  exact hlean trivial

end Compiling

end Tree.Casting

/-- Assigning an array that is filled straight in the variable, and assigning it through a cast: both
programs or none are resolved. Then, if the array operations admit the type of the variable just if
they admit that of the array and it can be copied to the variable, both or none compile, but for an
address that is out of range in the longer one. So they do for a variable that is made there and used
nowhere else, if the operations admit the type of the array and that of their own parameter. -/
theorem Program.ofTree_casts {c : Catalog} {t t' : Tree} (hc : c.Loaded) (ht : t.Linked)
    (ht' : t'.Linked) (hroot : Tree.root < t.size) (C : t.Casting t') (hspared : t.Spared c)
    (hno : c.hasName ("!" ++ C.array) 1 = false) :
    ((∃ w, Program.resolved ⟨c, true⟩ t = .ok w) ↔ ∃ w, Program.resolved ⟨c, true⟩ t' = .ok w) ∧
      (∀ w x X type, Program.resolved ⟨c, true⟩ t = .ok w → w.construct? C.site = some .set →
        w.construct? C.right = some (.arrayFill type) → t.Named C.left x →
        w.assembly.heap.slotType? x = some X →
        ((c.FillsAt X (t.children C.right).length → c.FillsAt type (t.children C.right).length ∧
            c.types.isCompatible X type = true) →
          (∃ p, Program.ofTree ⟨c, true⟩ t = .ok p) →
          (∃ p, Program.ofTree ⟨c, true⟩ t' = .ok p) ∨
            ∃ e text, Program.ofTree ⟨c, true⟩ t' = .error e ∧
              e.fault = .build (.invalidAddress text)) ∧
        ((c.FillsAt type (t.children C.right).length ∧ c.types.isCompatible X type = true →
            c.FillsAt X (t.children C.right).length) →
          (∃ p, Program.ofTree ⟨c, true⟩ t' = .ok p) →
          ∃ p, Program.ofTree ⟨c, true⟩ t = .ok p)) ∧
      ∀ w x type, Program.resolved ⟨c, true⟩ t = .ok w → w.construct? C.site = some .set →
        w.construct? C.right = some (.arrayFill type) → t.Named C.left x → C.Alone c w x →
        (c.FillsAt type (t.children C.right).length →
          (∃ p, Program.ofTree ⟨c, true⟩ t = .ok p) →
          (∃ p, Program.ofTree ⟨c, true⟩ t' = .ok p) ∨
            ∃ e text, Program.ofTree ⟨c, true⟩ t' = .error e ∧
              e.fault = .build (.invalidAddress text)) ∧
        (c.FillsAt c.newArrayType (t.children C.right).length →
          (∃ p, Program.ofTree ⟨c, true⟩ t' = .ok p) →
          ∃ p, Program.ofTree ⟨c, true⟩ t = .ok p) := by
  have hresolved : (∃ w, Program.resolved ⟨c, true⟩ t = .ok w) ↔
      ∃ w, Program.resolved ⟨c, true⟩ t' = .ok w := by
    have hplain := hspared.toPlain
    constructor
    · rintro ⟨w, h⟩
      obtain ⟨hresolvable, -⟩ := Program.resolved_settled hc.sound ht hroot hplain h
      exact (C.resolvable_iff.mpr hresolvable).resolved hc.sound ht' (C.root_lt hroot)
        (C.plain hplain)
    · rintro ⟨w', h'⟩
      obtain ⟨hresolvable, -⟩ :=
        Program.resolved_settled hc.sound ht' (C.root_lt hroot) (C.plain hplain) h'
      exact (C.resolvable_iff.mp hresolvable).resolved hc.sound ht hroot hplain
  refine ⟨hresolved, fun w x X type h hset hfill hname hslot => ?_,
    fun w x type h hset hfill hname halone => ?_⟩
  · -- The variable has its slot after resolution, of one type in both programs.
    obtain ⟨w', h'⟩ := hresolved.mp ⟨w, h⟩
    have hassigned := C.assigned ht ht' hroot h h' hc hspared hno hname hset hfill
    refine ⟨fun hfits => ?_, fun hfits => ?_⟩
    · exact C.ofTree_adding ht ht' hroot h h' hassigned False.elim (fun _ => hslot) (fun _ => hslot)
        False.elim fun hfills => hfits (hfills id)
    · exact C.ofTree_dropping ht ht' hroot h h' hassigned False.elim (fun _ => hslot) (fun _ => hslot)
        False.elim fun hfills => hfits (hfills.imp_right fun hcompatible => hcompatible id)
  · -- Each program makes the slot: with the type of the array through the cast, and with that of the
    -- result of the operation that makes an array without it.
    obtain ⟨w', h'⟩ := hresolved.mp ⟨w, h⟩
    have hassigned := C.assigned ht ht' hroot h h' hc hspared hno hname hset hfill
    refine ⟨fun hfills => ?_, fun hfills => ?_⟩
    · exact C.ofTree_adding ht ht' hroot h h' hassigned (fun _ => halone) (absurd trivial)
        (absurd trivial) (fun _ => ⟨rfl, rfl⟩) fun _ => ⟨hfills, c.types.isCompatible_refl type⟩
    · exact C.ofTree_dropping ht ht' hroot h h' hassigned (fun _ => halone) (absurd trivial)
        (absurd trivial) (fun _ => ⟨rfl, rfl⟩) fun _ => hfills

/-! ## Trees of texts

Whether one text has a cast more than another one can be computed from the two trees
(`Tree.Inserts`), which gives what the theorem above asks for (`Tree.Inserts.casting`). -/

/-- The number of a node, when one more node comes before the node `n`. -/
def Tree.shift (n id : Nat) : Nat := if id < n then id else id + 1

theorem Tree.shift_injective (n : Nat) : Function.Injective (shift n) := by
  intro id id' h
  unfold shift at h
  split at h <;> split at h <;> omega

theorem Tree.shift_ne (n id : Nat) : shift n id ≠ n := by
  unfold shift
  split <;> omega

theorem Tree.exists_shift {n id' : Nat} (h : id' ≠ n) : ∃ id, shift n id = id' := by
  rcases Nat.lt_or_gt_of_ne h with hlt | hgt
  · exact ⟨id', if_pos hlt⟩
  · refine ⟨id' - 1, ?_⟩
    rw [shift, if_neg (by omega)]
    omega

theorem Tree.shift_lt_iff {n size : Nat} (h : n < size) (id : Nat) :
    shift n id < size + 1 ↔ id < size := by
  unfold shift
  split <;> omega

/-- The trees of two texts of which one has a cast more: nodes have numbers in the order of the text,
so the cast takes that of the array. -/
def Tree.Inserts (t t' : Tree) (site left right : NodeId) (array : String) : Prop :=
  (Tree.root < right ∧ right < t.size ∧ t'.size = t.size + 1 ∧ site ∈ t.visits) ∧
    (∀ id < t.size, t'.tag (shift right id) = t.tag id) ∧
    (∀ id < t.size, id ≠ site →
      t'.children (shift right id) = (t.children id).map (shift right)) ∧
    (t.tag site = .string Keyword.set ∧ t.children site = [left, right] ∧
      t.tag right = .string ("To" ++ array)) ∧
    t'.children (shift right site) = [shift right left, right] ∧
      t'.tag right = .string ("!" ++ array) ∧ t'.children right = [shift right right]

instance (t t' : Tree) (site left right : NodeId) (array : String) :
    Decidable (t.Inserts t' site left right array) :=
  inferInstanceAs (Decidable ((_ ∧ _ ∧ _ ∧ _) ∧ _ ∧ _ ∧ (_ ∧ _ ∧ _) ∧ _ ∧ _ ∧ _))

namespace Tree.Inserts

variable {t t' : Tree} {site left right id : NodeId} {array : String}

theorem shift_lt_iff (h : t.Inserts t' site left right array) (id : NodeId) :
    shift right id < t'.size ↔ id < t.size := by
  obtain ⟨⟨-, hright, hsize, -⟩, -⟩ := h
  rw [hsize]
  exact Tree.shift_lt_iff hright id

theorem node_shift (h : t.Inserts t' site left right array) (hid : t.size ≤ id) :
    t'.node (shift right id) = t.node id := by
  rw [Tree.node_of_le hid, Tree.node_of_le]
  exact Nat.le_of_not_lt ((h.shift_lt_iff id).not.mpr (Nat.not_lt.mpr hid))

/-- The cast that is put there. -/
def casting (h : t.Inserts t' site left right array) (ht : t.Linked) (hroot : Tree.root < t.size) :
    t.Casting t' where
  image := shift right
  site := site
  left := left
  right := right
  cast := right
  array := array
  root := if_pos h.1.1
  injective := shift_injective right
  lt_iff := h.shift_lt_iff
  apart := shift_ne right
  onto _ := exists_shift
  tag id := by
    rcases Nat.lt_or_ge id t.size with hlt | hge
    · exact h.2.1 id hlt
    · rw [Tree.tag, Tree.tag, h.node_shift hge]
  children id hid := by
    rcases Nat.lt_or_ge id t.size with hlt | hge
    · exact h.2.2.1 id hlt hid
    · rw [Tree.children, Tree.children, h.node_shift hge, Tree.node_of_le hge, List.map_nil]
  visited := (ht.mem_visits hroot).mp h.1.2.2.2
  site_tag := h.2.2.2.1.1
  site_children := h.2.2.2.1.2.1
  right_tag := h.2.2.2.1.2.2
  image_site := h.2.2.2.2.1
  cast_tag := h.2.2.2.2.2.1
  cast_children := h.2.2.2.2.2.2

end Tree.Inserts

/-- In a tree without events, nothing is named like the slot for a return address. -/
theorem Tree.spared_of_eventless {c : Catalog} {t : Tree}
    (hevents : ∀ id < t.size, t.isEvent id = false)
    (htexts : ∀ id < t.size, ∀ name ∈ (t.tag id).text?, ¬ Reserved name)
    (hfree : ∀ name ∈ c.predefined.keys, ¬ Reserved name) : t.Spared c := by
  have hplain : ∀ name, ¬ t.PointerLike name := by
    rintro name ⟨block, label, hlabel, -⟩
    rcases Nat.lt_or_ge block t.size with hlt | hge
    · rw [Tree.eventLabel?_eq_none (by rw [hevents block hlt]; decide)] at hlabel
      cases hlabel
    · rw [Tree.eventLabel?_eq_none fun h => absurd (Tree.lt_size_of_isEvent h) (Nat.not_lt.mpr hge)]
        at hlabel
      cases hlabel
  refine ⟨⟨fun _ name _ => hplain name, fun name _ => hplain name⟩, fun id name hname => ?_,
    fun name hname => hfree name (OrderedMap.mem_keys_iff.mpr hname)⟩
  rcases Nat.lt_or_ge id t.size with hlt | hge
  · exact htexts id hlt name hname
  · simp [Tree.tag, Tree.node_of_le hge, Value.text?] at hname

/-- A text that stands at one node only. -/
theorem Tree.eq_of_text {t : Tree} {name : String} {node : NodeId}
    (htexts : ∀ id < t.size, (t.tag id).text? = some name → id = node) (id : NodeId)
    (hname : (t.tag id).text? = some name) : id = node := by
  rcases Nat.lt_or_ge id t.size with hlt | hge
  · exact htexts id hlt hname
  · simp [Tree.tag, Tree.node_of_le hge, Value.text?] at hname

/-- A variable that is declared with the type of the array that it is assigned, and one that is made
where it is assigned. -/
theorem Program.ofTree_casts_int32 : ∃ c t t' t'' type, Catalog.Loaded c ∧
    Tree.read "(var(x,Int32Array,),=(x,ToInt32Array(1)),=(y,ToInt32Array(1)))" = .ok t ∧
    Tree.read "(var(x,Int32Array,),=(x,!Int32Array(ToInt32Array(1))),=(y,ToInt32Array(1)))" =
      .ok t' ∧
    Tree.read "(var(x,Int32Array,),=(x,ToInt32Array(1)),=(y,!Int32Array(ToInt32Array(1))))" =
      .ok t'' ∧
    t.Inserts t' 5 6 7 "Int32Array" ∧ t.Inserts t'' 9 10 11 "Int32Array" ∧
    c.hasName "!Int32Array" 1 = false ∧ c.FillsAt type 1 ∧ c.FillsAt c.newArrayType 1 ∧
    (∃ p, Program.ofTree ⟨c, true⟩ t' = .ok p) ∧ (∃ p, Program.ofTree ⟨c, true⟩ t = .ok p) ∧
    ((∃ p, Program.ofTree ⟨c, true⟩ t'' = .ok p) ∨ ∃ e text,
      Program.ofTree ⟨c, true⟩ t'' = .error e ∧ e.fault = .build (.invalidAddress text)) := by
  have hknown : ((Catalog.load {}).toOption.any fun c =>
      (Tree.read "(var(x,Int32Array,),=(x,ToInt32Array(1)),=(y,ToInt32Array(1)))").toOption.any fun t =>
        (Tree.read
          "(var(x,Int32Array,),=(x,!Int32Array(ToInt32Array(1))),=(y,ToInt32Array(1)))").toOption.any
          fun t' =>
        (Tree.read
          "(var(x,Int32Array,),=(x,ToInt32Array(1)),=(y,!Int32Array(ToInt32Array(1))))").toOption.any
          fun t'' =>
          decide (t.Inserts t' 5 6 7 "Int32Array" ∧ t.Inserts t'' 9 10 11 "Int32Array" ∧
            c.hasName "!Int32Array" 1 = false ∧
            c.predefined.keys = [Catalog.returnValue] ∧ (∀ id < t.size, t.isEvent id = false) ∧
            (∀ id < t.size, ∀ name ∈ (t.tag id).text?,
              name ∈ ["var", "x", "Int32Array", "=", "ToInt32Array", "y"]) ∧
            t.tag 6 = .string "x" ∧ t.tag 10 = .string "y" ∧
            (∀ id < t.size, (t.tag id).text? = some "y" → id = 10) ∧
            t.parent? 0 = none ∧ t.children 0 = [1, 5, 9] ∧ (t.children 11).length = 1 ∧
            c.predefined.contains "y" = false) &&
          ((Program.resolved ⟨c, true⟩ t).toOption.any fun w =>
            (w.assembly.heap.slotType? "x").any fun type =>
              decide (w.construct? 0 = some .sequence ∧ w.construct? 5 = some .set ∧
                w.construct? 7 = some (.arrayFill type) ∧ w.construct? 9 = some .set ∧
                w.construct? 11 = some (.arrayFill type) ∧ c.FillsAt type 1 ∧
                c.FillsAt c.newArrayType 1)) &&
          ((Program.ofTree ⟨c, true⟩ t').toOption.any fun _ => true)) = true := by
    decide +kernel
  obtain ⟨c, hload, hknown⟩ := exists_ok_of_any hknown
  obtain ⟨t, hread, ht, hroot, hknown⟩ := Tree.read_of_any hknown
  obtain ⟨t', hread', ht', -, hknown⟩ := Tree.read_of_any hknown
  obtain ⟨t'', hread'', ht'', -, hknown⟩ := Tree.read_of_any hknown
  rw [Bool.and_eq_true, Bool.and_eq_true, decide_eq_true_iff] at hknown
  obtain ⟨⟨⟨hinserts, hinserts'', hno, hkeys, hevents, htexts, hx, hy, honly, hparent, hitems, hcount,
    hordinary⟩, hresolved⟩, hcompiles⟩ := hknown
  obtain ⟨w, hw, hslot⟩ := exists_ok_of_any hresolved
  obtain ⟨type, hslot, hfinding⟩ := (Option.any_eq_true _ _).mp hslot
  obtain ⟨hsequence, hset, hfill, hset'', hfill'', htakes, hmakes⟩ := of_decide_eq_true hfinding
  obtain ⟨p, hp, -⟩ := exists_ok_of_any hcompiles
  have hreserved : ∀ name ∈ ["var", "x", "Int32Array", "=", "ToInt32Array", "y", Catalog.returnValue],
      ¬ Reserved name := by
    unfold Reserved
    decide +kernel
  have hspared : t.Spared c := by
    refine Tree.spared_of_eventless hevents (fun id hid name hname => hreserved name ?_)
      fun name hname => hreserved name ?_
    · exact List.mem_append_left [Catalog.returnValue] (htexts id hid name hname)
    · rw [hkeys, List.mem_singleton] at hname
      simp [hname]
  obtain ⟨-, hdeclared, -⟩ := Program.ofTree_casts (Or.inr ⟨_, hload⟩) ht ht' hroot
    (hinserts.casting ht hroot) hspared hno
  obtain ⟨-, -, hmade⟩ := Program.ofTree_casts (Or.inr ⟨_, hload⟩) ht ht'' hroot
    (hinserts''.casting ht hroot) hspared hno
  obtain ⟨-, hdrops⟩ := hdeclared w "x" type type hw hset hfill ⟨congrArg Value.text? hx, rfl⟩ hslot
  -- The value of the second assignment is that of the whole text.
  have hunread : t.Unread w 9 := .handedOn (n := 2) hsequence (by rw [hitems]; rfl)
    (by rw [hitems]; rfl) (.top hparent)
  have halone : (hinserts''.casting ht hroot).Alone c w "y" :=
    ⟨Tree.eq_of_text honly, hordinary, hunread⟩
  obtain ⟨hadds, -⟩ := hmade w "y" type hw hset'' hfill'' ⟨congrArg Value.text? hy, rfl⟩ halone
  have hstraight := hdrops (fun h => h.1) ⟨p, hp⟩
  exact ⟨c, t, t', t'', type, Or.inr ⟨_, hload⟩, hread, hread', hread'', hinserts, hinserts'', hno,
    htakes, hmakes, ⟨p, hp⟩, hstraight, hadds (hcount ▸ htakes) hstraight⟩

/-- The root type is admitted only through the cast, and another array only straight. -/
example : (Catalog.load {}).toOption.any fun c =>
    !(Program.compile ⟨c, true⟩ "(var(x,Object,),=(x,ToInt32Array(1)))").isOk &&
    (Program.compile ⟨c, true⟩ "(var(x,Object,),=(x,!Int32Array(ToInt32Array(1))))").isOk &&
    (Program.compile ⟨c, true⟩ "(var(x,StringArray,),=(x,ToInt32Array(1)))").isOk &&
    !(Program.compile ⟨c, true⟩ "(var(x,StringArray,),=(x,!Int32Array(ToInt32Array(1))))").isOk := by
  decide +kernel

end SexprAsm
