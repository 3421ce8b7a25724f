import SexprAsm.Proofs.EventBlocks

/-!
# The nodes that resolution visits

Resolution goes through a tree level by level from the root. It looks below every node except a
declaration, a read, inline assembly and a type as a value. `Tree.visits` lists the nodes in the
order in which they come. In a linked tree every node that can be reached that way comes exactly
once, and before its children.

What a visited node declares is known from then on (`Resolution.Announced`).
-/

namespace SexprAsm

namespace Tree

/-- A node that is visited: the root, or a child of a visited node that is not sealed. -/
inductive Visited (t : Tree) : NodeId → Prop where
  | root : Visited t Tree.root
  | child {p c : NodeId} (hp : Visited t p) (hc : c ∈ t.openChildren p) : Visited t c

/-- The nodes in the order in which they are visited. -/
def visits (t : Tree) : List NodeId := (List.range t.size).flatMap (t.level [Tree.root])

variable {t : Tree} {ids : List NodeId} {p c x : NodeId} {n : Nat}

theorem mem_children_of_openChildren (h : c ∈ t.openChildren p) : c ∈ t.children p := by
  unfold openChildren at h
  split at h
  · cases h
  · exact h

theorem mem_level_succ : c ∈ t.level ids (n + 1) ↔ ∃ p ∈ t.level ids n, c ∈ t.openChildren p := by
  rw [level, Function.iterate_succ_apply', List.mem_flatMap]
  rfl

section Linked

variable (h : t.Linked)

include h

theorem Linked.parent_of_openChildren (hc : c ∈ t.openChildren p) : t.parent? c = some p :=
  (h.mem_iff p c).mp (mem_children_of_openChildren hc)

/-- A node has one parent, so nodes that are listed once have children that are listed once. -/
theorem Linked.nodup_level (n : Nat) : (t.level [Tree.root] n).Nodup := by
  induction n with
  | zero => exact List.nodup_singleton _
  | succ n ih =>
    rw [level, Function.iterate_succ_apply']
    refine List.nodup_flatMap.mpr ⟨fun p _ => ?_, List.Pairwise.imp (fun {p q} hne => ?_) ih⟩
    · unfold openChildren
      split
      · exact List.nodup_nil
      · exact h.nodup p
    · intro c hp hq
      have hsame := (h.parent_of_openChildren hp).symm.trans (h.parent_of_openChildren hq)
      exact hne (Option.some.inj hsame)

/-- Ranks go down from level to level. -/
theorem Linked.rank_level {rank : NodeId → Nat}
    (hrank : ∀ c p, t.parent? c = some p → rank c < rank p) (hx : x ∈ t.level [Tree.root] n) :
    rank x + n ≤ rank Tree.root := by
  induction n generalizing x with
  | zero =>
    obtain rfl : x = Tree.root := List.mem_singleton.mp hx
    exact Nat.le_refl _
  | succ n ih =>
    obtain ⟨p, hp, hx⟩ := mem_level_succ.mp hx
    have hlt := hrank x p (h.parent_of_openChildren hx)
    have hle := ih hp
    omega

/-- A node is in one level: going up from it leads through the levels to the root. -/
theorem Linked.level_disjoint {m : Nat} (hlt : m < n) (hx : x ∈ t.level [Tree.root] m) :
    x ∉ t.level [Tree.root] n := by
  intro hx'
  induction m generalizing x n with
  | zero =>
    obtain rfl : x = Tree.root := List.mem_singleton.mp hx
    obtain ⟨rank, hrank⟩ := h.ranked
    have hle := h.rank_level hrank hx'
    omega
  | succ m ih =>
    obtain ⟨n, rfl⟩ : ∃ k, n = k + 1 := ⟨n - 1, by omega⟩
    obtain ⟨p, hp, hx⟩ := mem_level_succ.mp hx
    obtain ⟨q, hq, hx'⟩ := mem_level_succ.mp hx'
    have hsame := (h.parent_of_openChildren hx).symm.trans (h.parent_of_openChildren hx')
    obtain rfl := Option.some.inj hsame
    exact ih (by omega) hp hq

/-- No node is visited twice. -/
theorem Linked.nodup_visits : t.visits.Nodup := by
  refine List.nodup_flatMap.mpr ⟨fun n _ => h.nodup_level n, ?_⟩
  refine List.Pairwise.imp (fun {m n} hlt => ?_) List.pairwise_lt_range
  exact fun x hx hx' => h.level_disjoint hlt hx hx'

/-- A node that is visited before another one is no child of it. -/
theorem Linked.pairwise_visits : t.visits.Pairwise fun x y => x ∉ t.openChildren y := by
  have hlevels : ∀ {m n : Nat}, m ≤ n → ∀ x ∈ t.level [Tree.root] m,
      ∀ y ∈ t.level [Tree.root] n, x ∉ t.openChildren y := by
    intro m n hle x hx y hy hchild
    exact h.level_disjoint (Nat.lt_succ_of_le hle) hx (mem_level_succ.mpr ⟨y, hy, hchild⟩)
  unfold visits
  refine List.pairwise_flatMap.mpr ⟨fun n _ => ?_, ?_⟩
  · exact List.pairwise_iff_forall_sublist.mpr fun {x y} hsub =>
      hlevels (Nat.le_refl n) x (hsub.subset (by simp)) y (hsub.subset (by simp))
  · exact List.Pairwise.imp (fun hlt => hlevels (Nat.le_of_lt hlt)) List.pairwise_lt_range

/-- There are no more levels than nodes, so every node that can be reached is visited. -/
theorem Linked.mem_visits (hroot : Tree.root < t.size) : x ∈ t.visits ↔ t.Visited x := by
  obtain ⟨rank, hrank, hbound⟩ := h.exists_rank_lt
  have hdepth : ∀ {n x}, x ∈ t.level [Tree.root] n → n < t.size := by
    intro n x hx
    have hle := h.rank_level hrank hx
    have hlt := hbound _ hroot
    omega
  constructor
  · intro hx
    obtain ⟨n, -, hlevel⟩ := List.mem_flatMap.mp hx
    clear hx
    induction n generalizing x with
    | zero =>
      obtain rfl : x = Tree.root := List.mem_singleton.mp hlevel
      exact .root
    | succ n ih =>
      obtain ⟨p, hp, hx⟩ := mem_level_succ.mp hlevel
      exact .child (ih hp) hx
  · intro hx
    have hlevel : ∃ n, x ∈ t.level [Tree.root] n := by
      induction hx with
      | root => exact ⟨0, List.mem_singleton_self _⟩
      | child _ hc ih =>
        obtain ⟨n, hp⟩ := ih
        exact ⟨n + 1, mem_level_succ.mpr ⟨_, hp, hc⟩⟩
    obtain ⟨n, hx⟩ := hlevel
    exact List.mem_flatMap.mpr ⟨n, List.mem_range.mpr (hdepth hx), hx⟩

end Linked

end Tree

namespace Resolution

variable {cfg : Setting} {t : Tree} {w w' w'' : Workspace}

/-! ## What has been declared -/

/-- What a node declares is known: its variable has a slot, its label an entry point. -/
structure Announced (t : Tree) (w : Workspace) (id : NodeId) : Prop where
  slot : t.tag id = .string Keyword.declare → (t.node id).isLeaf = false →
    ∃ name, t.Named ((t.children id).headD 0) name ∧ w.assembly.heap.slots.contains name = true
  entryPoint : t.isEvent id = true →
    ∃ first label, (t.children id)[0]? = some first ∧ t.Named first label ∧
      w.entryPoints.contains label = true

/-- What was known stays known, and no event is without a label. -/
structure Remembers (w w' : Workspace) : Prop where
  slots : ∀ name, w.assembly.heap.slots.contains name = true →
    w'.assembly.heap.slots.contains name = true
  entryPoints : ∀ label, w.entryPoints.contains label = true →
    w'.entryPoints.contains label = true
  labels : (∀ label, w.entryPoints.contains label = true → label.isEmpty = false) →
    ∀ label, w'.entryPoints.contains label = true → label.isEmpty = false

theorem Remembers.refl (w : Workspace) : Remembers w w :=
  ⟨fun _ h => h, fun _ h => h, fun h => h⟩

theorem Remembers.trans (h : Remembers w w') (h' : Remembers w' w'') : Remembers w w'' :=
  ⟨fun name hname => h'.slots name (h.slots name hname),
    fun label hlabel => h'.entryPoints label (h.entryPoints label hlabel),
    fun hlabels => h'.labels (h.labels hlabels)⟩

theorem Remembers.ofKeeps {heap : Heap} (h : Keeps w.assembly.heap heap) :
    Remembers w { w with assembly := { w.assembly with heap := heap } } :=
  ⟨h.2, fun _ hlabel => hlabel, fun h => h⟩

theorem Remembers.record (h : Remembers w w') (id : NodeId) (found : Finding) :
    Remembers w (w'.record id found) :=
  ⟨h.slots, h.entryPoints, h.labels⟩

theorem Announced.mono {id : NodeId} (h : Announced t w id) (hremembers : Remembers w w') :
    Announced t w' id := by
  refine ⟨fun htag hleaf => ?_, fun hevent => ?_⟩
  · obtain ⟨name, hname, hslot⟩ := h.slot htag hleaf
    exact ⟨name, hname, hremembers.slots name hslot⟩
  · obtain ⟨first, label, hfirst, hlabel, hentry⟩ := h.entryPoint hevent
    exact ⟨first, label, hfirst, hlabel, hremembers.entryPoints label hentry⟩

theorem declareVariable_announces {id : NodeId} (h : Yields (declareVariable cfg t id) w () w') :
    Remembers w w' ∧ ∃ name, t.Named ((t.children id).headD 0) name ∧
      w'.assembly.heap.slots.contains name = true := by
  obtain ⟨heap, hkeeps, rfl⟩ := declareVariable_keeps h
  refine ⟨.ofKeeps hkeeps, ?_⟩
  obtain ⟨name, type, attributes, value, heap', hname, hdefine, hsame⟩ := declareVariable_cases h
  obtain rfl : heap = heap' := congrArg (fun w : Workspace => w.assembly.heap) hsame
  obtain ⟨-, rfl⟩ := Heap.define_ok hdefine
  exact ⟨name, hname, OrderedMap.contains_iff.mpr ⟨_, by rw [OrderedMap.get?_put, if_pos rfl]⟩⟩

theorem declareEntryPoint_announces {label : String} {entry : EntryPoint}
    (h : Yields (Build.declareEntryPoint cfg label) w entry w') (hlabel : label.isEmpty = false) :
    Remembers w w' ∧ w'.entryPoints.contains label = true := by
  obtain ⟨heap, hkeeps, -, rfl, -⟩ := declareEntryPoint_spec h
  refine ⟨⟨hkeeps.2, fun other hother => OrderedMap.contains_put.mpr (Or.inr hother),
    fun hlabels other hother => ?_⟩, OrderedMap.contains_put.mpr (Or.inl rfl)⟩
  rcases OrderedMap.contains_put.mp hother with rfl | hother
  · exact hlabel
  · exact hlabels other hother

theorem declareNode_announces {id : NodeId} {visit : Bool}
    (h : Yields (declareNode cfg t id) w visit w') : Remembers w w' ∧ Announced t w' id := by
  rcases (declareNode_cases h).2 with ⟨htag, -, hvariable⟩ |
    ⟨hevent, first, label, entry, hfirst, hlabel, hentry⟩ | ⟨hleaf, hevent, rfl⟩
  · obtain ⟨hremembers, hname⟩ := declareVariable_announces hvariable
    exact ⟨hremembers, fun _ _ => hname,
      fun hevent => absurd htag (Tree.not_declare_of_isEvent hevent)⟩
  · obtain ⟨hremembers, hcontains⟩ := declareEntryPoint_announces hentry hlabel.2
    exact ⟨hremembers, fun htag => absurd htag (Tree.not_declare_of_isEvent hevent),
      fun _ => ⟨first, label, hfirst, hlabel, hcontains⟩⟩
  · refine ⟨.refl w, fun htag hinner => ?_, fun h => absurd h (by simp [hevent])⟩
    exact absurd (hleaf htag) (by simp [hinner])

/-- What the first pass visits is announced when it is over. -/
theorem Visits.announces {ids : List NodeId} (h : Visits cfg t ids w w') :
    Remembers w w' ∧ ∀ id ∈ ids, Announced t w' id := by
  have hstart : Remembers w w ∧ ∀ id ∈ [], Announced t w id := ⟨.refl w, by rintro _ ⟨⟩⟩
  refine h.keeps (P := fun ids w' => Remembers w w' ∧ ∀ id ∈ ids, Announced t w' id) ?_ hstart
  rintro visited id descend w₁ w₂ ⟨hremembers, hvisited⟩ hnode
  obtain ⟨hremembers', hid⟩ := declareNode_announces hnode
  refine ⟨hremembers.trans hremembers', fun other hother => ?_⟩
  rcases List.mem_append.mp hother with hother | hother
  · exact (hvisited other hother).mono hremembers'
  · exact List.mem_singleton.mp hother ▸ hid

end Resolution

/-- Resolution visits the nodes, and goes back over them to find what they mean. -/
theorem Program.resolved_visits {cfg : Setting} {t : Tree} {w : Workspace}
    (h : Program.resolved cfg t = .ok w) : ∃ w₁,
      Yields (Resolution.declareLevels cfg t t.size [Tree.root]) (.forTree t) t.visits w₁ ∧
      Yields (Resolution.classifyAll cfg t t.visits.reverse) w₁ () w ∧
      w₁.findings = Array.replicate t.size {} ∧
      (∀ label, w₁.entryPoints.contains label = true → label.isEmpty = false) ∧
      ∀ id ∈ t.visits, Resolution.Announced t w₁ id := by
  obtain ⟨order, declared, hlevels, hclassify⟩ := Program.resolved_stages h
  obtain ⟨rfl, hvisits⟩ := Resolution.declareLevels_visits hlevels
  obtain ⟨hremembers, hannounced⟩ := hvisits.announces
  exact ⟨declared, hlevels, hclassify, hvisits.counts.findings,
    hremembers.labels (by simp [Workspace.forTree, OrderedMap.contains]), hannounced⟩

end SexprAsm
