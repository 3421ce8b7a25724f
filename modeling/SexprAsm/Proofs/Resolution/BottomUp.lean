import SexprAsm.Proofs.Generation.Recursion
import SexprAsm.Proofs.Program
import SexprAsm.Proofs.Resolution.Pointers
import SexprAsm.Proofs.Resolution.Rule

/-!
# Resolution is recursion over the tree

Resolution goes level by level down the tree and then back over the same nodes, writing into tables
as it goes, and the meaning of a list may overwrite that of its only item. `meaning` is the plain
recursion: the meaning of a node is the rule applied to the types of its children. When resolution
succeeds, its tables are those of the recursion (`Program.resolved_bottomUp`).

The proof follows the way back. After any part of it, the nodes gone over have the meaning that they
will have at the end, except that the list around an item has not had its say yet (`recorded`). The
children of a node have been gone over before it, and what is done later makes slots for predefined
names at most, which no earlier decision depends on.
-/

namespace SexprAsm

namespace Tree

variable {t : Tree} {p c x : NodeId}

theorem Linked.weight_lt (h : t.Linked) (hc : c ∈ t.children p) : t.weight c < t.weight p := by
  have hmem : t.weight c ∈ (t.children p).map t.weight := List.mem_map.mpr ⟨c, hc, rfl⟩
  have hle := List.single_le_sum (fun _ _ => Nat.zero_le _) _ hmem
  rw [h.weight_eq (lt_size_of_mem_children hc)]
  omega

theorem Visited.lt_size (h : t.Linked) (hroot : Tree.root < t.size) (hx : t.Visited x) :
    x < t.size := by
  cases hx with
  | root => exact hroot
  | child _ hc => exact h.child_lt (mem_children_of_openChildren hc)

theorem Visited.weight_le (h : t.Linked) (hx : t.Visited x) : t.weight x ≤ t.weight Tree.root := by
  induction hx with
  | root => exact Nat.le_refl _
  | child _ hc ih => exact (h.weight_lt (mem_children_of_openChildren hc)).le.trans ih

/-- A visited node is visited from its parent, if that is visited. -/
theorem Visited.mem_openChildren (h : t.Linked) (hp : t.Visited p) (hx : t.Visited x)
    (hchild : x ∈ t.children p) : x ∈ t.openChildren p := by
  cases hx with
  | root =>
    have hlt := h.weight_lt hchild
    have hle := hp.weight_le h
    omega
  | @child q _ hq hx =>
    have hsame := (h.parent_of_openChildren hx).symm.trans ((h.mem_iff p x).mp hchild)
    rwa [← Option.some.inj hsame]

/-- The children of a node come after it. -/
theorem Linked.mem_of_split (h : t.Linked) (hroot : Tree.root < t.size) {before after : List NodeId}
    (hsplit : t.visits = before ++ after) (hp : p ∈ after) (hc : c ∈ t.openChildren p) :
    c ∈ after := by
  have hmem : ∀ {x}, x ∈ after → x ∈ t.visits := fun hx => hsplit ▸ List.mem_append_right _ hx
  have hvisited : t.Visited c := .child ((h.mem_visits hroot).mp (hmem hp)) hc
  have hcases := (h.mem_visits hroot).mpr hvisited
  have hpairwise := h.pairwise_visits
  rw [hsplit] at hcases hpairwise
  rcases List.mem_append.mp hcases with hbefore | hafter
  · exact absurd hc ((List.pairwise_append.mp hpairwise).2.2 c hbefore p hp)
  · exact hafter

end Tree

namespace Resolution

variable {cfg : Setting} {t : Tree} {slotType : String → Option TypeId} {isLabel : String → Bool}

/-! ## The recursion

`meaning` is defined by recursion on the weight of the tree below a node, and needs no tables but
the types of slots and the labels. The rule looks at a node and the types of its children
(`rule_map`), so two nodes with the same mean the same. -/

/-- The meaning of a node by recursion: the rule applied to the types of its children, as they are
recorded. Nothing is recorded of a child that is not visited. -/
def meaning (cfg : Setting) (ht : t.Linked) (slotType : String → Option TypeId)
    (isLabel : String → Bool) (id : NodeId) : Finding :=
  rule cfg t slotType (fun c =>
    if h : c ∈ t.openChildren id then
      have := ht.weight_lt (Tree.mem_children_of_openChildren h)
      ((itemRule cfg t isLabel id c).getD (meaning cfg ht slotType isLabel c)).type
    else none) id
termination_by t.weight id

/-- What is recorded of a node when some nodes have been gone over: its meaning, unless the list
that it is the only item of has made a bare call of it. -/
def recorded (cfg : Setting) (ht : t.Linked) (slotType : String → Option TypeId)
    (isLabel : String → Bool) (done : List NodeId) (id : NodeId) : Finding :=
  if id ∈ done then
    (((t.parent? id).filter (· ∈ done)).bind (itemRule cfg t isLabel · id)).getD
      (meaning cfg ht slotType isLabel id)
  else {}

theorem oddItems_subset {α : Type} (xs : List α) : oddItems xs ⊆ xs := by
  fun_induction oddItems xs with
  | case1 _ a rest ih =>
    intro x hx
    rcases List.mem_cons.mp hx with rfl | hx
    · simp
    · exact List.mem_cons_of_mem _ (List.mem_cons_of_mem _ (ih hx))
  | case2 => simp

theorem branches_subset (children : List NodeId) : branches children ⊆ children := by
  unfold branches
  refine List.append_subset.mpr ⟨oddItems_subset children, ?_⟩
  split
  · intro x hx
    exact List.mem_of_getLast? (by simpa using hx)
  · exact List.nil_subset _

theorem mapM_congr {α β : Type} {f g : α → Option β} {xs : List α} (h : ∀ x ∈ xs, f x = g x) :
    xs.mapM f = xs.mapM g := by
  induction xs with
  | nil => rfl
  | cons x xs ih =>
    rw [List.mapM_cons, List.mapM_cons, h x List.mem_cons_self,
      ih fun y hy => h y (List.mem_cons_of_mem _ hy)]

/-- The rule looks at the tag of a node, the names and the types of its children, and nothing else:
a node of another tree that agrees in these has the same meaning. -/
theorem rule_map {t' : Tree} {f : NodeId → NodeId} {id : NodeId}
    {slotType' : String → Option TypeId} {typeOf typeOf' : NodeId → Option TypeId}
    (hchildren : t'.children (f id) = (t.children id).map f) (htag : ∀ c, t'.tag (f c) = t.tag c)
    (hslots : ∀ c name, (t.tag c).text? = some name → slotType' name = slotType name)
    (htypes : ∀ c ∈ t.children id, typeOf' (f c) = typeOf c) :
    rule cfg t' slotType' typeOf' (f id) = rule cfg t slotType typeOf id := by
  have hmap : ∀ ids ⊆ t.children id, (ids.map f).mapM typeOf' = ids.mapM typeOf := by
    intro ids hsub
    rw [List.mapM_map]
    exact mapM_congr fun c hc => htypes c (hsub hc)
  have hnamed : ∀ c, namedType? t' slotType' (f c) = namedType? t slotType c := by
    intro c
    rw [namedType?, namedType?, htag]
    cases hname : (t.tag c).text? with
    | none => rfl
    | some name => exact hslots c name hname
  have hcall : ∀ tag, callRule cfg typeOf' tag ((t.children id).map f) =
      callRule cfg typeOf tag (t.children id) := by
    intro tag
    unfold callRule
    rw [hmap _ (List.Subset.refl _), List.length_map]
  have hbranches := hmap _ (branches_subset (t.children id))
  rw [← branches_map] at hbranches
  have hleaf : (t'.node (f id)).isLeaf = (t.node id).isLeaf := by
    show (t'.children (f id)).isEmpty = (t.children id).isEmpty
    rw [hchildren, List.isEmpty_map]
  unfold rule
  rw [hleaf, htag, hchildren]
  split
  next => rfl
  next hleaf =>
    split
    next =>
      rw [List.getLast?_map]
      cases hlast : (t.children id).getLast? with
      | none => rfl
      | some last =>
        rw [Option.map_some, Option.bind_some, Option.bind_some,
          htypes last (List.mem_of_getLast? hlast)]
    next tag _ =>
      unfold taggedRule
      rw [hbranches, List.length_map]
      have hcall := hcall tag
      -- Keywords look at the first two children.
      cases hcases : t.children id with
      | nil => simp [Node.isLeaf, show (t.node id).children = [] from hcases] at hleaf
      | cons first rest =>
        rw [hcases] at hcall htypes
        cases rest with
        | nil =>
          simp only [List.map_cons, List.map_nil] at hcall ⊢
          simp only [hcall, List.headD_cons, hnamed, htag]
        | cons second rest =>
          have hsecond := htypes second (by simp)
          cases rest with
          | nil =>
            simp only [List.map_cons, List.map_nil] at hcall ⊢
            simp only [hcall, List.headD_cons, hnamed, hsecond]
          | cons third rest =>
            simp only [List.map_cons] at hcall ⊢
            simp only [hcall, List.headD_cons, hnamed]
    next => rfl

/-- The rule looks at the types of the children and at no others. -/
theorem rule_congr {id : NodeId} {typeOf typeOf' : NodeId → Option TypeId}
    (h : ∀ c ∈ t.children id, typeOf c = typeOf' c) :
    rule cfg t slotType typeOf id = rule cfg t slotType typeOf' id :=
  rule_map (f := fun c => c) (List.map_id' _).symm (fun _ => rfl) (fun _ _ _ => rfl) h

/-! ## The way back

The nodes are gone over from the last visited to the first, and so children before their parents.
What has been recorded after some of them is the meaning of each, but for an item that its list
has made a call of (`recorded`); one more node changes its own entry and that of such an item. -/

variable {ht : t.Linked} {w w' : Workspace} {done : List NodeId} {id x : NodeId}

theorem mem_openChildren_of_itemRule {p c : NodeId} {found : Finding}
    (h : itemRule cfg t isLabel p c = some found) : c ∈ t.openChildren p := by
  obtain ⟨htag, hchildren, -⟩ := itemRule_eq_some h
  rw [Tree.openChildren, if_neg (by simp [Tree.isSealed, htag, Value.text?]), hchildren]
  exact List.mem_singleton_self c

/-- Before its own list is gone over, a node has its plain meaning. -/
theorem recorded_of_not_mem (hid : id ∈ done) (hparent : ∀ p, t.parent? id = some p → p ∉ done) :
    recorded cfg ht slotType isLabel done id = meaning cfg ht slotType isLabel id := by
  have hnone : (t.parent? id).filter (· ∈ done) = none := by
    cases hp : t.parent? id with
    | none => rfl
    | some p => simp [Option.filter, hparent p hp]
  rw [recorded, if_pos hid, hnone]
  rfl

/-- Going over one more node: its own meaning is recorded, and an item of it may become a bare
call. -/
theorem recorded_cons (hdone : ∀ p ∈ x :: done, ∀ c ∈ t.openChildren p, c ∈ done) (hx : x ∉ done) :
    recorded cfg ht slotType isLabel (x :: done) id =
      if id = x then meaning cfg ht slotType isLabel x
      else (itemRule cfg t isLabel x id).getD (recorded cfg ht slotType isLabel done id) := by
  -- The list that makes a bare call of an item is its parent.
  have hitem : t.parent? id ≠ some x → itemRule cfg t isLabel x id = none := by
    intro hne
    cases hitem : itemRule cfg t isLabel x id with
    | none => rfl
    | some found => exact absurd (ht.parent_of_openChildren (mem_openChildren_of_itemRule hitem)) hne
  by_cases hid : id = x
  · subst hid
    have hlist : ((t.parent? id).filter (· ∈ id :: done)).bind (itemRule cfg t isLabel · id) =
        none := by
      cases hp : t.parent? id with
      | none => rfl
      | some p =>
        by_cases hmem : p ∈ id :: done
        · simp only [Option.filter, hmem, decide_true, if_true, Option.bind_some]
          cases hbare : itemRule cfg t isLabel p id with
          | none => rfl
          | some found => exact absurd (hdone p hmem id (mem_openChildren_of_itemRule hbare)) hx
        · simp [Option.filter, hmem]
    rw [recorded, if_pos List.mem_cons_self, hlist, if_pos rfl]
    rfl
  · rw [if_neg hid]
    by_cases hmem : id ∈ done
    · by_cases hparent : t.parent? id = some x
      · have hplain : recorded cfg ht slotType isLabel done id =
            meaning cfg ht slotType isLabel id := by
          refine recorded_of_not_mem hmem fun p hp => ?_
          rwa [← Option.some.inj (hparent.symm.trans hp)]
        rw [hplain, recorded, if_pos (List.mem_cons_of_mem _ hmem), hparent]
        simp [Option.filter]
      · have hlist : (t.parent? id).filter (· ∈ x :: done) = (t.parent? id).filter (· ∈ done) := by
          cases hp : t.parent? id with
          | none => rfl
          | some p =>
            have hne : p ≠ x := fun heq => hparent (by rw [hp, heq])
            simp [Option.filter, hne]
        rw [hitem hparent, recorded, recorded, if_pos (List.mem_cons_of_mem _ hmem), if_pos hmem,
          hlist]
        rfl
    · have hnone : itemRule cfg t isLabel x id = none := by
        cases hbare : itemRule cfg t isLabel x id with
        | none => rfl
        | some found =>
          exact absurd (hdone x List.mem_cons_self id (mem_openChildren_of_itemRule hbare)) hmem
      rw [hnone, recorded, recorded, if_neg hmem, if_neg (by simp [hid, hmem])]
      rfl

/-- One node of the way back. -/
theorem classify_records {found : Finding} {heap : Heap}
    (h : Yields (classify cfg t x) w found w') (hannounced : Announced t w x)
    (hheap : Predefines cfg.catalog w'.assembly.heap heap)
    (hdone : ∀ p ∈ x :: done, ∀ c ∈ t.openChildren p, c ∈ done) (hx : x ∉ done)
    (hothers : ∀ c ∈ t.children x, c ∉ t.openChildren x → c ∉ done)
    (hsize : w.findings.size = t.size) (hlt : x < t.size)
    (hrecorded : ∀ id, w.finding id =
      recorded cfg ht heap.slotType? w.entryPoints.contains done id) :
    w'.findings.size = t.size ∧ ∀ id, (w'.record x found).finding id =
      recorded cfg ht heap.slotType? w.entryPoints.contains (x :: done) id := by
  obtain ⟨hrule, hitem⟩ := classify_byRule h hannounced
  -- What the node makes of its items.
  have hitems : w'.findings.size = t.size ∧ ∀ id, w'.finding id =
      (itemRule cfg t w.entryPoints.contains x id).getD (w.finding id) := by
    rcases hitem with ⟨hfindings, hnone⟩ | ⟨only, bare, hbare, hfindings⟩
    · refine ⟨hfindings ▸ hsize, fun id => ?_⟩
      rw [hnone, Workspace.finding, hfindings]
      rfl
    · refine ⟨by rw [hfindings]; simpa [Workspace.record] using hsize, fun id => ?_⟩
      have hsame : w'.finding id = (w.record only bare).finding id := by
        rw [Workspace.finding, hfindings, Workspace.finding]
      have honly := (itemRule_eq_some hbare).2.1
      rw [hsame, finding_record]
      by_cases hid : id = only
      · have hlt : only < w.findings.size := by
          rw [hsize]
          exact ht.child_lt (p := x) (by simp [honly])
        rw [if_pos ⟨hid, hlt⟩, hid, hbare]
        rfl
      · rw [if_neg fun heq => hid heq.1, itemRule, if_neg]
        · rfl
        · rintro ⟨-, hid'⟩
          rw [honly] at hid'
          exact hid (by simpa using hid'.symm)
  refine ⟨hitems.1, fun id => ?_⟩
  rw [finding_record, recorded_cons hdone hx]
  by_cases hid : id = x
  · rw [if_pos ⟨hid, hitems.1 ▸ hlt⟩, if_pos hid, hrule.rule heap hheap, meaning]
    refine rule_congr fun c hc => ?_
    rw [Workspace.nodeType?, hitems.2]
    split
    next hopen =>
      -- The children of the node have been gone over, and it is the first to make a call of one.
      have hparent : ∀ p, t.parent? c = some p → p ∉ done := by
        intro p hp
        rwa [← Option.some.inj ((ht.parent_of_openChildren hopen).symm.trans hp)]
      rw [hrecorded, recorded_of_not_mem (hdone x List.mem_cons_self c hopen) hparent]
    next hopen =>
      have hnone : itemRule cfg t w.entryPoints.contains x c = none := by
        cases hbare : itemRule cfg t w.entryPoints.contains x c with
        | none => rfl
        | some bare => exact absurd (mem_openChildren_of_itemRule hbare) hopen
      rw [hnone, hrecorded, recorded, if_neg (hothers c hc hopen)]
      rfl
  · rw [if_neg fun heq => hid heq.1, if_neg hid, hitems.2, hrecorded]

/-- The way back records what the recursion says. -/
theorem classifyAll_records {heap : Heap} {ids : List NodeId}
    (h : Yields (classifyAll cfg t ids) w () w') (hroot : Tree.root < t.size)
    (hheap : Predefines cfg.catalog w'.assembly.heap heap)
    (hsplit : t.visits = ids.reverse ++ done) (hannounced : ∀ id ∈ ids, Announced t w id)
    (hsize : w.findings.size = t.size)
    (hrecorded : ∀ id, w.finding id =
      recorded cfg ht heap.slotType? w.entryPoints.contains done id) :
    w'.findings.size = t.size ∧ ∀ id, w'.finding id =
      recorded cfg ht heap.slotType? w.entryPoints.contains t.visits id := by
  induction ids generalizing w done with
  | nil =>
    obtain ⟨-, rfl⟩ := Yields.pure_iff.mp h
    rw [hsplit]
    exact ⟨hsize, hrecorded⟩
  | cons x ids ih =>
    simp only [classifyAll, Yields.bind_iff, Yields.modify_iff, Compilation.at_iff] at h
    obtain ⟨found, w₁, hclassify, _, _, rfl, hrest⟩ := h
    have hannounced_x := hannounced x List.mem_cons_self
    obtain ⟨hrule, -⟩ := classify_byRule hclassify hannounced_x
    have hannounced' : ∀ id ∈ ids, Announced t (w₁.record x found) id := fun other hother =>
      (hannounced other (List.mem_cons_of_mem _ hother)).mono (hrule.remembers.record x found)
    obtain ⟨hpredefines, -, -⟩ := classifyAll_byRule hrest hannounced'
    -- Where the node stands in the order of the visits.
    have hsplit' : t.visits = ids.reverse ++ (x :: done) := by
      rw [hsplit, List.reverse_cons, List.append_assoc]
      rfl
    have hnodup := ht.nodup_visits
    rw [hsplit'] at hnodup
    have hx : x ∉ done := (List.nodup_cons.mp (List.nodup_append.mp hnodup).2.1).1
    have hvisited : ∀ {id}, id ∈ x :: done → t.Visited id := fun hid =>
      (ht.mem_visits hroot).mp (hsplit' ▸ List.mem_append_right _ hid)
    have hdone : ∀ p ∈ x :: done, ∀ c ∈ t.openChildren p, c ∈ done := by
      intro p hp c hc
      have hmem := ht.mem_of_split hroot hsplit' hp hc
      rcases List.mem_cons.mp hmem with rfl | hmem
      · rcases List.mem_cons.mp hp with rfl | hp
        · exact absurd (ht.weight_lt (Tree.mem_children_of_openChildren hc)) (Nat.lt_irrefl _)
        · have hsplit_c : t.visits = (ids.reverse ++ [c]) ++ done := by simpa using hsplit'
          exact ht.mem_of_split hroot hsplit_c hp hc
      · exact hmem
    have hothers : ∀ c ∈ t.children x, c ∉ t.openChildren x → c ∉ done := fun c hc hopen hmem =>
      hopen ((hvisited List.mem_cons_self).mem_openChildren ht
        (hvisited (List.mem_cons_of_mem _ hmem)) hc)
    obtain ⟨hsize', hrecorded'⟩ := classify_records hclassify hannounced_x
      (hpredefines.trans hheap) hdone hx hothers hsize
      ((hvisited List.mem_cons_self).lt_size ht hroot) hrecorded
    rw [← hrule.entryPoints]
    rw [← hrule.entryPoints] at hrecorded'
    exact ih (w := w₁.record x found) hrest hsplit' hannounced'
      (by simpa [Workspace.record] using hsize') hrecorded'

/-! ## The tables

What the recursion looks at is known before the way back begins: slots have their types from the
declarations, and labels are those of the blocks that are visited. So the tables at the end are
those of the recursion. -/

/-- The tables that resolution leaves are those of the recursion over the tree. -/
structure BottomUp (cfg : Setting) (ht : t.Linked) (w : Workspace) : Prop where
  /-- The nodes are gone over in the order of the visits and back. -/
  passes : ∃ declared,
    Yields (declareLevels cfg t t.size [Tree.root]) (.forTree t) t.visits declared ∧
      Yields (classifyAll cfg t t.visits.reverse) declared () w
  /-- A node that is not below a sealed one is visited, -/
  visited : ∀ id, id ∈ t.visits ↔ t.Visited id
  /-- exactly once. -/
  once : t.visits.Nodup
  /-- Every node has the meaning that the rule gives it, with the types of variables and the labels
  that there are at the end. -/
  findings : w.findings = (Array.range t.size).map
    (recorded cfg ht w.assembly.heap.slotType? w.entryPoints.contains t.visits)
  /-- A read sees a declaration, wherever both stand. -/
  reads : ∀ d name, t.Visited d → t.tag d = .string Keyword.declare →
    (t.node d).isLeaf = false → t.Named ((t.children d).headD 0) name →
    ∃ type, w.assembly.heap.slotType? name = some type ∧
      ∀ g c, t.tag g = .string Keyword.get → t.children g = [c] → t.Named c name →
        meaning cfg ht w.assembly.heap.slotType? w.entryPoints.contains g =
          ⟨some .get, some type⟩
  /-- A bare name sees a block of an event, wherever both stand. -/
  calls : ∀ e first label, t.Visited e → t.isEvent e = true → (t.children e)[0]? = some first →
    t.Named first label → cfg.catalog.resolveOverload label [] = none →
    ∀ p c, t.Visited p → t.tag p = .null → t.children p = [c] → t.Named c label →
      w.finding c = ⟨some .callEvent, some TypeTable.object⟩

theorem meaning_get {g c : NodeId} {name : String} (htag : t.tag g = .string Keyword.get)
    (hchildren : t.children g = [c]) (hname : t.Named c name) :
    meaning cfg ht slotType isLabel g = ⟨some .get, slotType name⟩ := by
  have hleaf : (t.node g).isLeaf = false := by
    show (t.children g).isEmpty = false
    rw [hchildren]
    rfl
  rw [meaning, rule_of_tagged hleaf htag, hchildren]
  unfold taggedRule
  rw [if_neg (by decide), if_neg (by decide), if_neg fun h => absurd h.1 (by decide)]
  show (if _ then _ else _ : Finding) = _
  rw [if_pos rfl, namedType?, hname.1]
  rfl

end Resolution

open Resolution

/-- What visited nodes declare is known after resolution. -/
theorem Program.resolved_announced {cfg : Setting} {t : Tree} {w : Workspace}
    (h : Program.resolved cfg t = .ok w) : ∀ id ∈ t.visits, Announced t w id := by
  obtain ⟨declared, -, hclassify, -, -, hannounced⟩ := Program.resolved_visits h
  obtain ⟨-, -, hremembers⟩ :=
    classifyAll_byRule hclassify fun id hid => hannounced id (List.mem_reverse.mp hid)
  exact fun id hid => (hannounced id hid).mono hremembers

/-- The labels of events are those of the blocks that are visited. -/
theorem Program.resolved_contains_iff {cfg : Setting} {t : Tree} {w : Workspace}
    (h : Program.resolved cfg t = .ok w) {label : String} :
    w.entryPoints.contains label = true ↔ ∃ block ∈ t.visits, t.eventLabel? block = some label := by
  constructor
  · intro hcontains
    obtain ⟨entry, hentry⟩ := OrderedMap.contains_iff.mp hcontains
    exact ((Program.resolved_pointed h).pointers label entry hentry).opened
  · rintro ⟨block, hblock, hlabel⟩
    have hevent : t.isEvent block = true := by
      by_contra hno
      rw [Tree.eventLabel?_eq_none hno] at hlabel
      cases hlabel
    obtain ⟨first, label', hfirst, hlabel', hentry⟩ :=
      (Program.resolved_announced h block hblock).entryPoint hevent
    rw [Tree.eventLabel?_eq_some hevent hfirst hlabel'.1] at hlabel
    rwa [← Option.some.inj hlabel]

/-- The blocks of an event are those that are visited. -/
theorem Program.resolved_blocksOf {cfg : Setting} {t : Tree} {w : Workspace}
    (h : Program.resolved cfg t = .ok w) (label : String) :
    w.blocksOf label = t.visits.countP (t.eventLabel? · = some label) := by
  obtain ⟨declared, hlevels, hclassify, -⟩ := Program.resolved_visits h
  rw [Workspace.blocksOf, (classifyAll_events hclassify).1]
  exact ((declareLevels_visits hlevels).2.counts.blocks label).trans (Nat.zero_add _)

/-- After resolution, every node has the meaning of the recursion. -/
theorem Program.resolved_records {cfg : Setting} {t : Tree} {w : Workspace} (ht : t.Linked)
    (hroot : Tree.root < t.size) (h : Program.resolved cfg t = .ok w) :
    w.findings.size = t.size ∧ ∀ id, w.finding id =
      recorded cfg ht w.assembly.heap.slotType? w.entryPoints.contains t.visits id := by
  obtain ⟨declared, -, hclassify, hfindings, -, hannounced⟩ := Program.resolved_visits h
  have hannounced' : ∀ id ∈ t.visits.reverse, Announced t declared id :=
    fun id hid => hannounced id (List.mem_reverse.mp hid)
  obtain ⟨-, hentries, -⟩ := classifyAll_byRule hclassify hannounced'
  have hempty : ∀ id, declared.finding id =
      recorded cfg ht w.assembly.heap.slotType? declared.entryPoints.contains [] id := by
    intro id
    rw [Workspace.finding, hfindings, Array.getD_eq_getD_getElem?, Array.getElem?_replicate,
      recorded, if_neg List.not_mem_nil]
    split <;> rfl
  have hsize : declared.findings.size = t.size := by rw [hfindings, Array.size_replicate]
  rw [hentries]
  exact classifyAll_records hclassify hroot (.refl _ _) (by simp) hannounced' hsize hempty

/-- When resolution succeeds, every node that is not below a declaration, a read, inline assembly or
a type has been visited exactly once, and the tables hold what recursion over the tree gives, with
the types of variables and the labels of events as they are at the end. -/
theorem Program.resolved_bottomUp {cfg : Setting} {t : Tree} {w : Workspace} (ht : t.Linked)
    (hroot : Tree.root < t.size) (h : Program.resolved cfg t = .ok w) : BottomUp cfg ht w := by
  obtain ⟨declared, hlevels, hclassify, -⟩ := Program.resolved_visits h
  obtain ⟨hsize', hrecorded⟩ := Program.resolved_records ht hroot h
  have hknown : ∀ id, t.Visited id → Announced t w id := fun id hid =>
    Program.resolved_announced h id ((ht.mem_visits hroot).mpr hid)
  refine ⟨⟨declared, hlevels, hclassify⟩, fun id => ht.mem_visits hroot, ht.nodup_visits,
    ?_, ?_, ?_⟩
  · refine Array.ext (by simpa using hsize') fun id hid _ => ?_
    have hget : w.finding id = w.findings[id] := by
      rw [Workspace.finding, Array.getD_eq_getD_getElem?, Array.getElem?_eq_getElem hid]
      rfl
    rw [← hget, hrecorded, Array.getElem_map, Array.getElem_range]
  · intro d name hd htag hleaf hname
    obtain ⟨name', hname', hslot⟩ := (hknown d hd).slot htag hleaf
    obtain rfl := hname.unique hname'
    obtain ⟨v, hv⟩ := OrderedMap.contains_iff.mp hslot
    have htype : w.assembly.heap.slotType? name' = some v.type := by
      rw [Heap.slotType?, hv]
      rfl
    refine ⟨v.type, htype, fun g c hg hc hcname => ?_⟩
    rw [meaning_get hg hc hcname, htype]
  · intro e first label he hevent hfirst hlabel hoverload p c hp htag hchildren hname
    obtain ⟨first', label', hfirst', hlabel', hentry⟩ := (hknown e he).entryPoint hevent
    obtain rfl := Option.some.inj (hfirst.symm.trans hfirst')
    obtain rfl := hlabel.unique hlabel'
    have hbare : itemRule cfg t w.entryPoints.contains p c =
        some ⟨some .callEvent, some TypeTable.object⟩ := by
      rw [itemRule, if_pos ⟨htag, hchildren⟩, bareRule, hname.1, Option.bind_some, hoverload,
        if_pos hentry]
    have hopen := mem_openChildren_of_itemRule hbare
    have hp' := (ht.mem_visits hroot).mpr hp
    have hc' := (ht.mem_visits hroot).mpr (.child hp hopen)
    rw [hrecorded, recorded, if_pos hc', ht.parent_of_openChildren hopen]
    simp only [Option.filter, hp', decide_true, if_true, Option.bind_some, hbare, Option.getD_some]

/-- The variable is declared and the event has its block behind their uses. -/
theorem Program.resolved_bottomUp_behind : ∃ (t : Tree) (ht : t.Linked) (w : Workspace),
    Tree.read "($(x),(_a),var(x,Int32,1),when(_a,2))" = .ok t ∧ Tree.root < t.size ∧
      Program.resolved ⟨Catalog.empty, true⟩ t = .ok w ∧ t.visits = [0, 1, 3, 5, 9, 4, 10, 11] ∧
      w.finding 1 = ⟨some .get, w.assembly.heap.slotType? "x"⟩ ∧
      w.finding 4 = ⟨some .callEvent, some TypeTable.object⟩ ∧
      BottomUp ⟨Catalog.empty, true⟩ ht w := by
  have hrun : (Tree.read "($(x),(_a),var(x,Int32,1),when(_a,2))").toOption.any fun t =>
      decide (t.visits = [0, 1, 3, 5, 9, 4, 10, 11]) &&
        (Program.resolved ⟨Catalog.empty, true⟩ t).toOption.any fun w =>
          w.finding 1 == ⟨some .get, w.assembly.heap.slotType? "x"⟩ &&
            w.finding 4 == ⟨some .callEvent, some TypeTable.object⟩ := by
    decide +kernel
  obtain ⟨t, hread, ht, hroot, hrun⟩ := Tree.read_of_any hrun
  obtain ⟨hvisits, hrun⟩ := (Bool.and_eq_true ..).mp hrun
  obtain ⟨w, hresolved, hrun⟩ := exists_ok_of_any hrun
  simp only [Bool.and_eq_true, beq_iff_eq] at hrun
  exact ⟨t, ht, w, hread, hroot, hresolved, of_decide_eq_true hvisits, hrun.1, hrun.2,
    Program.resolved_bottomUp ht hroot hresolved⟩

end SexprAsm
