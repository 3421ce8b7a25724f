import SexprAsm.Proofs.Assembly.Twins
import SexprAsm.Proofs.Generation.Unread
import SexprAsm.Proofs.Workspace.Changes

/-!
# Workspaces of similar compilations

Two compilations of similar trees (`Variation`) go through workspaces that correspond
(`Variation.Alike`): their assemblies do, they know the same of nodes that correspond, and their
events are at the same stage. Which temporaries are free may differ. Renting one cannot fail
(`Build.rent_yields`), and each compilation has its own.
-/

namespace SexprAsm

open Workspace

/-! ## Renting

No variable is named like a temporary, and neither is a predefined name, so a free name is always
found, and variables keep the slots that they have. Which name is found depends on the pools and
on the heap, which are not the same in the two compilations. -/

/-- A name of a temporary is none of a literal, nor of a variable. -/
theorem Heap.Orderly.kind?_of_temporary {c : Catalog} {w : Workspace}
    (h : w.assembly.heap.Orderly c) {name : String} {type : TypeId}
    (htemp : w.Temporary name type) : w.assembly.heap.kind? name = some (type, false) := by
  obtain ⟨hlead, v, hv, rfl⟩ := htemp
  have hkind : w.assembly.heap.kind? name = some (v.type, v.attributes.constant) :=
    Heap.kind?_eq_some.mpr ⟨v, hv, rfl, rfl⟩
  cases hconstant : v.attributes.constant with
  | false => rw [hkind, hconstant]
  | true =>
    have hconst := h.lead name v.type (by rw [hkind, hconstant])
    have hclash := List.prefix_or_prefix_of_prefix hlead hconst
    exact absurd hclash (by decide)

theorem Workspace.isEmpty_of_tempLead {name : String} (h : tempLead.toList <+: name.toList) :
    name.isEmpty = false := by
  by_contra hempty
  rw [Bool.not_eq_false, String.isEmpty_iff] at hempty
  rw [hempty] at h
  revert h
  decide

namespace Build

variable {T : Twins} {w w' : Workspace}

/-- The names of temporaries of a type. -/
theorem tempLead_prefix (base : String) (n : Nat) :
    tempLead.toList <+: (Heap.numbered ("__temp_" ++ base) n).toList := by
  rw [Heap.toList_numbered, String.toList_append, List.append_assoc]
  exact List.prefix_append _ _

/-- A temporary can always be rented. -/
theorem exists_rent (T : Twins) (horderly : w.assembly.heap.Orderly T.catalog) (type : TypeId) :
    ∃ name w' heap, Yields (rent T.setting type) w name w' ∧
      w'.assembly = { w.assembly with heap := heap } ∧ heap.Orderly T.catalog ∧
      T.Steady w.assembly.heap heap := by
  have hordinary : ∀ {name : String}, tempLead.toList <+: name.toList →
      ¬ (T.shared name ∨ name = T.target) := fun hlead hname => (T.ordinary _ hname).2 hlead
  cases hfree : ((w.pools.get? type).getD {}).free with
  | cons name free =>
    refine ⟨name, { w with
      pools := w.pools.put type { (w.pools.get? type).getD {} with free := free }
      rented := w.rented.put name type }, w.assembly.heap, ?_, rfl, horderly, fun _ _ => rfl⟩
    simp only [rent, Yields.bind_iff, Yields.get_iff]
    exact ⟨w, w, ⟨rfl, rfl⟩, by rw [hfree]; rfl⟩
  | nil =>
    -- No predefined name is in the way, so a free name is found among enough of them.
    let base := "__temp_" ++ T.catalog.types.name type
    have hlead : ∀ n, tempLead.toList <+: (Heap.numbered base n).toList := tempLead_prefix _
    obtain ⟨⟨name, serial⟩, hfirst⟩ := firstFree_yields T.setting (Heap.numbered base)
      (fun n => T.predefined_eq_none fun hshared => hordinary (hlead n) (Or.inl hshared))
      (w.assembly.heap.slots.size + T.catalog.predefined.size)
      ((w.pools.get? type).getD {}).serial w
    have htries : Yields (nameTries T.setting) w
        (w.assembly.heap.slots.size + T.catalog.predefined.size) w := by
      simp [nameTries]
    obtain ⟨a, j, -, hsame, rfl, hnew, -⟩ := firstFree_spec (Heap.numbered_injective base)
      (Yields.bind_iff.mpr ⟨_, w, htries, hfirst⟩)
    obtain rfl : w.assembly = a := congrArg Workspace.assembly hsame
    obtain ⟨heap, hdefine, horderly', -, hkinds⟩ := horderly.define T.sound
      (isEmpty_of_tempLead (hlead j)) (Heap.kind?_eq_none.mpr hnew) (some type)
    refine ⟨Heap.numbered base j, { w with
      assembly := { w.assembly with heap := heap }
      pools := w.pools.put type { (w.pools.get? type).getD {} with serial := serial + 1 }
      rented := w.rented.put (Heap.numbered base j) type }, heap, ?_, rfl, horderly', ?_⟩
    · simp only [rent, Yields.bind_iff, Yields.get_iff]
      refine ⟨w, w, ⟨rfl, rfl⟩, ?_⟩
      rw [hfree]
      simp only [Yields.bind_iff, emit_iff, Yields.modify_iff, Yields.pure_iff]
      exact ⟨_, w, htries, _, w, hfirst, (), _, rfl, (), _, ⟨_, Emit.onHeap_iff.mpr
        ⟨heap, by rw [hdefine]; rfl, rfl⟩, rfl⟩, (), _, rfl, rfl, rfl⟩
    · intro other hother
      rw [hkinds, if_neg]
      rintro rfl
      exact hordinary (hlead j) hother

/-- A temporary can always be rented, and has the kind of its type. -/
theorem rent_yields (T : Twins) (horderly : w.assembly.heap.Orderly T.catalog)
    (hpooled : w.Pooled) (type : TypeId) :
    ∃ name w' heap, Yields (rent T.setting type) w name w' ∧
      w'.assembly = { w.assembly with heap := heap } ∧ heap.Orderly T.catalog ∧
      w.assembly.heap.Extends heap ∧ w'.Pooled ∧ w'.findings = w.findings ∧
      w'.entryPoints = w.entryPoints ∧ name.isEmpty = false ∧
      heap.kind? name = some (type, false) ∧ T.Steady w.assembly.heap heap := by
  obtain ⟨name, w', heap, hyields, hassembly, horderly', hsteady⟩ := exists_rent T horderly type
  obtain ⟨hemits, hpooled', hfindings, hentries, -, htemp, -⟩ := rent_spec hyields hpooled
  have hheap : w'.assembly.heap = heap := by rw [hassembly]
  have hkind := Heap.Orderly.kind?_of_temporary (hheap.symm ▸ horderly') htemp
  rw [hheap] at hkind
  exact ⟨name, w', heap, hyields, hassembly, horderly', hheap ▸ hemits.heap, hpooled', hfindings,
    hentries, isEmpty_of_tempLead htemp.1, hkind, hsteady⟩

end Build

/-! ## Two compilations of similar trees

What is known of the trees is fixed once (`Variation`): which nodes correspond, that they have
the same tags and meanings, and where the trees differ. The invariant of the two compilations
(`Variation.Alike`) then lifts that of the assemblies to workspaces, and what is done to the
assembly is lifted with it (`Variation.emit_trails`). -/

/-- Two trees that are alike but at one assignment, and what is known of their nodes. -/
structure Variation extends Twins where
  tree : Tree
  tree' : Tree
  findings : Array Finding
  findings' : Array Finding
  /-- The assignment. -/
  site : NodeId
  /-- Nodes that correspond. -/
  node : NodeId → NodeId → Prop
  /-- Nodes of the first tree whose value is used nowhere. -/
  unread : NodeId → Prop
  tag : ∀ id id', node id id' → tree'.tag id' = tree.tag id
  finding : ∀ id id', node id id' → findings'.getD id' {} = findings.getD id {}
  children : ∀ id id', node id id' → id ≠ site →
    List.Forall₂ node (tree.children id) (tree'.children id')
  names : ∀ id id' name, node id id' → (tree.tag id).text? = some name → shared name
  returnValue : shared Catalog.returnValue
  unread_child : ∀ p child, child ∈ tree.children p → unread child → ∃ construct n,
    (findings.getD p {}).construct = some construct ∧ (tree.children p)[n]? = some child ∧
      (construct.Drops (tree.children p).length n ∨
        construct.HandsOn (tree.children p).length n ∧ unread p)
  unread_site : ¬ shared target → unread site
  site_tag : tree.tag site = .string Keyword.set
  site_construct : (findings.getD site {}).construct = some .set

/-- The same event, at the same stage. -/
structure EntryPoint.Alike (a a' : Assembly) (entry entry' : EntryPoint) : Prop where
  pointer : a.Same a' entry.returnPointer entry'.returnPointer
  blocks : entry'.blocks = entry.blocks
  compiled : entry'.compiled = entry.compiled
  bodyStart : Option.Rel (fun start start' => start ≠ .unresolved ∧ start' ≠ .unresolved)
    entry.bodyStart entry'.bodyStart
  chain : Option.Rel (a.SameJump a') entry.chain entry'.chain
  landingPoints : List.Forall₂ (a.SameJump a') entry.landingPoints entry'.landingPoints

theorem Option.Rel.imp {α β : Type} {R R' : α → β → Prop} {x : Option α} {y : Option β}
    (h : Option.Rel R x y) (himp : ∀ a b, R a b → R' a b) : Option.Rel R' x y := by
  cases h with
  | some h => exact .some (himp _ _ h)
  | none => exact .none

theorem EntryPoint.Alike.mono {a a' a₁ a₁' : Assembly} {entry entry' : EntryPoint}
    (h : EntryPoint.Alike a a' entry entry') (hkeeps : a.Keeps a₁) (hkeeps' : a'.Keeps a₁') :
    EntryPoint.Alike a₁ a₁' entry entry' :=
  ⟨h.pointer.mono hkeeps hkeeps', h.blocks, h.compiled, h.bodyStart,
    Option.Rel.imp h.chain fun _ _ hjump => hjump.mono hkeeps hkeeps',
    h.landingPoints.imp fun _ _ hjump => hjump.mono hkeeps hkeeps'⟩

namespace Variation

variable {S : Variation} {w w' w₁ w₁' : Workspace} {α β : Type}

/-- Two workspaces that correspond. -/
structure Alike (S : Variation) (w w' : Workspace) : Prop where
  assembly : Assembly.Alike S.toTwins w.assembly w'.assembly
  pooled : w.Pooled
  pooled' : w'.Pooled
  findings : w.findings = S.findings
  findings' : w'.findings = S.findings'
  entryPoints : ∀ label, Option.Rel (EntryPoint.Alike w.assembly w'.assembly)
    (w.entryPoints.get? label) (w'.entryPoints.get? label)

/-- Workspaces of two compilations. -/
def workspaces (S : Variation) : Bond Workspace where
  alike := S.Alike
  keeps w w' := w.assembly.Keeps w'.assembly
  refl w := .refl w.assembly
  trans _ _ _ := .trans

/-- A fault that is excused. -/
def Faulty (S : Variation) (fault : CompileFault) : Prop := ∃ e, fault = .build e ∧ S.Excused e

theorem Alike.onAssembly (h : S.Alike w w') {a a' : Assembly}
    (ha : Assembly.Alike S.toTwins a a') (hkeeps : w.assembly.Keeps a)
    (hkeeps' : w'.assembly.Keeps a') :
    S.Alike { w with assembly := a } { w' with assembly := a' } :=
  ⟨ha, h.pooled.onAssembly hkeeps.heap, h.pooled'.onAssembly hkeeps'.heap, h.findings, h.findings',
    fun label => Option.Rel.imp (h.entryPoints label) fun _ _ hentry => hentry.mono hkeeps hkeeps'⟩

theorem emit_trails (h : S.Alike w w') {act : Emit α} {act' : Emit β}
    {P : α → β → Assembly → Assembly → Prop}
    (hact : Trails S.assemblies S.Excused act w.assembly act' w'.assembly P) :
    Trails S.workspaces S.Faulty (Compile.emit act) w (Compile.emit act') w'
      fun r r' w₁ w₁' => P r r' w₁.assembly w₁'.assembly := by
  intro r w₁ hyields
  obtain ⟨a₁, hemit, rfl⟩ := Compile.emit_iff.mp hyields
  rcases hact r a₁ hemit with ⟨r', a₁', hemit', ha, hkeeps, hkeeps', hP⟩ | ⟨e, a₁', hemit', he⟩
  · exact Or.inl ⟨r', _, Compile.emit_iff.mpr ⟨a₁', hemit', rfl⟩, h.onAssembly ha hkeeps hkeeps',
      hkeeps, hkeeps', hP⟩
  · refine Or.inr ⟨.build e, { w' with assembly := a₁' }, ?_, e, rfl, he⟩
    simp only [Compile.emit, Compile.build, EStateM.adaptExcept, Build.emit, hemit']

/-- The first compilation rents a temporary. -/
theorem Alike.rent_first (h : S.Alike w w') (type : TypeId) :
    ∃ name w₁, Yields (Build.rent S.setting type) w name w₁ ∧ S.Alike w₁ w' ∧
      w.assembly.Keeps w₁.assembly ∧ name.isEmpty = false ∧
      w₁.assembly.heap.kind? name = some (type, false) := by
  obtain ⟨name, w₁, heap, hyields, hassembly, horderly, hext, hpooled, hfindings, hentries, hempty,
    hkind, hsteady⟩ := Build.rent_yields S.toTwins h.assembly.orderly h.pooled type
  have hkeeps : w.assembly.Keeps w₁.assembly := hassembly ▸ .onHeap hext
  refine ⟨name, w₁, hyields, ⟨?_, hpooled, h.pooled', hfindings.trans h.findings, h.findings',
    fun label => ?_⟩, hkeeps, hempty, by rw [hassembly]; exact hkind⟩
  · rw [hassembly]
    exact h.assembly.onSteady horderly h.assembly.orderly' hsteady (.refl _ _)
  · rw [hentries]
    exact Option.Rel.imp (h.entryPoints label) fun _ _ hentry => hentry.mono hkeeps (.refl _)

/-- The second compilation rents a temporary. -/
theorem Alike.rent_second (h : S.Alike w w') (type : TypeId) :
    ∃ name w₁', Yields (Build.rent S.setting type) w' name w₁' ∧ S.Alike w w₁' ∧
      w'.assembly.Keeps w₁'.assembly ∧ name.isEmpty = false ∧
      w₁'.assembly.heap.kind? name = some (type, false) := by
  obtain ⟨name, w₁', heap, hyields, hassembly, horderly, hext, hpooled, hfindings, hentries, hempty,
    hkind, hsteady⟩ := Build.rent_yields S.toTwins h.assembly.orderly' h.pooled' type
  have hkeeps : w'.assembly.Keeps w₁'.assembly := hassembly ▸ .onHeap hext
  refine ⟨name, w₁', hyields, ⟨?_, h.pooled, hpooled, h.findings, hfindings.trans h.findings',
    fun label => ?_⟩, hkeeps, hempty, by rw [hassembly]; exact hkind⟩
  · rw [hassembly]
    exact h.assembly.onSteady h.assembly.orderly horderly (.refl _ _) hsteady
  · rw [hentries]
    exact Option.Rel.imp (h.entryPoints label) fun _ _ hentry => hentry.mono (.refl _) hkeeps

/-- Both rent a temporary of a type. -/
theorem rent_trails (h : S.Alike w w') (type : TypeId) :
    Trails S.workspaces S.Faulty (Compile.build (Build.rent S.setting type)) w
      (Compile.build (Build.rent S.setting type)) w'
      fun name name' w₁ w₁' => w₁.assembly.Same w₁'.assembly name name' := by
  obtain ⟨name, w₁, hyields, h₁, hkeeps, hempty, hkind⟩ := h.rent_first type
  obtain ⟨name', w₁', hyields', h₂, hkeeps', hempty', hkind'⟩ := h₁.rent_second type
  exact .of_yields (Compile.build_iff.mpr hyields) (Compile.build_iff.mpr hyields') h₂ hkeeps
    hkeeps' ⟨hempty, hempty', _, hkind, hkind'⟩

/-- Giving temporaries back changes nothing that is compared. -/
theorem Alike.giveBack (h : S.Alike w w') (temps temps' : List String) :
    S.Alike (temps.foldl Workspace.giveBack w) (temps'.foldl Workspace.giveBack w') := by
  obtain ⟨hpooled, hassembly, hfindings, hentries, -⟩ := foldl_giveBack_spec h.pooled temps
  obtain ⟨hpooled', hassembly', hfindings', hentries', -⟩ := foldl_giveBack_spec h.pooled' temps'
  refine ⟨?_, hpooled, hpooled', hfindings.trans h.findings, hfindings'.trans h.findings',
    fun label => ?_⟩
  · rw [hassembly, hassembly']
    exact h.assembly
  · rw [hassembly, hassembly', hentries, hentries']
    exact h.entryPoints label

/-- Both bring an entry point up to date. -/
theorem modifyEntry_trails (h : S.Alike w w') (label : String) {f f' : EntryPoint → EntryPoint}
    (hf : ∀ entry entry', EntryPoint.Alike w.assembly w'.assembly entry entry' →
      EntryPoint.Alike w.assembly w'.assembly (f entry) (f' entry')) :
    Trails S.workspaces S.Faulty (Generation.modifyEntry label f) w
      (Generation.modifyEntry label f') w'
      fun _ _ w₁ w₁' => w₁.assembly = w.assembly ∧ w₁'.assembly = w'.assembly := by
  refine .modify ⟨h.assembly, ⟨h.pooled.nodup, h.pooled.free, h.pooled.rented⟩,
    ⟨h.pooled'.nodup, h.pooled'.free, h.pooled'.rented⟩, h.findings, h.findings', fun other => ?_⟩
    (.refl _) (.refl _) ⟨rfl, rfl⟩
  simp only [OrderedMap.get?_modify]
  split
  next =>
    have hentry := h.entryPoints label
    revert hentry
    cases w.entryPoints.get? label <;> cases w'.entryPoints.get? label <;> intro hentry <;>
      cases hentry
    · exact .none
    · exact .some (hf _ _ ‹_›)
  next => exact h.entryPoints other

/-- Both look up the entry point of a label. -/
theorem entryAt_trails (h : S.Alike w w') (label : String) :
    Trails S.workspaces S.Faulty (Generation.entryAt label) w (Generation.entryAt label) w'
      fun entry entry' w₁ w₁' => EntryPoint.Alike w.assembly w'.assembly entry entry' ∧
        w₁ = w ∧ w₁' = w' := by
  refine .get_bind ?_
  have hentry := h.entryPoints label
  revert hentry
  cases w.entryPoints.get? label <;> cases w'.entryPoints.get? label <;> intro hentry <;>
    cases hentry
  · exact .throw
  · exact .pure h ⟨‹_›, rfl, rfl⟩

end Variation

end SexprAsm
