import SexprAsm.Proofs.Generation.Unchecked
import SexprAsm.Proofs.Program
import SexprAsm.Proofs.Resolution

/-!
# Type checking only rejects

A source that compiles with types checked compiles without, to the same code over slots of the same
names (`Program.compile_unchecked`). The two programs can differ in one way: a variable that is
assigned, but neither declared nor predefined (`Implicit`), gets its slot where it is first written.
There a checked compilation gives it the type of what is stored, while an unchecked one may fall
back to the root type. Without such variables the programs are the same.

Both compilations find the same meaning of the nodes, because that does not look at the setting
(`Resolution.resolve_unchecked`).
-/

namespace SexprAsm

open Generation

/-! ## Meanings -/

namespace Resolution

variable {c : Catalog} {t : Tree}

theorem firstFree_unchecked (name : Nat → String) (tries n : Nat) :
    Build.firstFree ⟨c, false⟩ name tries n = Build.firstFree ⟨c, true⟩ name tries n := by
  induction tries generalizing n with
  | zero => rfl
  | succ tries ih =>
    unfold Build.firstFree
    simp only [ih]
    rfl

theorem declareEntryPoint_unchecked (label : String) :
    Build.declareEntryPoint ⟨c, false⟩ label = Build.declareEntryPoint ⟨c, true⟩ label := by
  unfold Build.declareEntryPoint Build.defineReturnPointer
  simp only [firstFree_unchecked]
  rfl

theorem modifiers_unchecked (ids : List NodeId) (found : Option TypeId × Attributes) :
    modifiers ⟨c, false⟩ t ids found = modifiers ⟨c, true⟩ t ids found := by
  induction ids generalizing found with
  | nil => rfl
  | cons id ids ih =>
    unfold modifiers
    simp only [ih]

theorem declareNode_unchecked (id : NodeId) :
    declareNode ⟨c, false⟩ t id = declareNode ⟨c, true⟩ t id := by
  unfold declareNode declareVariable
  simp only [declareEntryPoint_unchecked, modifiers_unchecked]
  rfl

theorem declareLevel_unchecked (ids : List NodeId) :
    declareLevel ⟨c, false⟩ t ids = declareLevel ⟨c, true⟩ t ids := by
  induction ids with
  | nil => rfl
  | cons id ids ih =>
    unfold declareLevel
    rw [declareNode_unchecked, ih]

theorem declareLevels_unchecked (depth : Nat) (ids : List NodeId) :
    declareLevels ⟨c, false⟩ t depth ids = declareLevels ⟨c, true⟩ t depth ids := by
  induction depth generalizing ids with
  | zero => rfl
  | succ depth ih =>
    cases ids with
    | nil => rfl
    | cons id ids =>
      unfold declareLevels
      simp only [declareLevel_unchecked, ih]

theorem classifyAll_unchecked (ids : List NodeId) :
    classifyAll ⟨c, false⟩ t ids = classifyAll ⟨c, true⟩ t ids := by
  induction ids with
  | nil => rfl
  | cons id ids ih =>
    unfold classifyAll
    rw [ih]
    rfl

/-- The meaning of nodes does not depend on whether types are checked. -/
theorem resolve_unchecked (c : Catalog) (t : Tree) :
    resolve ⟨c, false⟩ t = resolve ⟨c, true⟩ t := by
  unfold resolve
  simp only [declareLevels_unchecked, classifyAll_unchecked]

end Resolution

/-! ## Programs -/

/-- The name of a variable that is assigned, but neither declared nor predefined. -/
def Implicit (c : Catalog) (t : Tree) (w : Workspace) (name : String) : Prop :=
  c.predefined.get? name = none ∧ w.assembly.heap.slots.get? name = none ∧
    ∃ id first, w.construct? id = some .set ∧ (t.children id)[0]? = some first ∧
      (t.tag first).text? = some name

/-- After resolution, all that code writes to is a slot, is predefined, or is an implicit
variable. -/
theorem Resolution.Prepared.grounded {c : Catalog} {t : Tree} {w : Workspace} (hc : c.Loaded)
    (h : Prepared ⟨c, true⟩ t w) : Grounded c t (Implicit c t w) w := by
  refine ⟨h.unstarted.pooled, fun id name hname => ?_, fun id first name hid hfirst hname => ?_,
    hc.predefines_returnValue⟩
  · unfold passedVariable? at hname
    split at hname
    next hget =>
      obtain ⟨child, hchild, hname⟩ := Option.bind_eq_some_iff.mp hname
      rw [List.head?_eq_getElem?] at hchild
      exact h.meaning id .get hget child name hchild hname
    next => cases hname
  · cases hslot : w.assembly.heap.slots.get? name with
    | some v => exact Or.inl (OrderedMap.contains_iff.mpr ⟨v, hslot⟩)
    | none =>
      cases hpinned : c.predefined.get? name with
      | some pinned => exact Or.inr (Or.inl (OrderedMap.contains_iff.mpr ⟨pinned, hpinned⟩))
      | none => exact Or.inr (Or.inr ⟨hpinned, hslot, id, first, hid, hfirst, hname⟩)

theorem Program.Stages.compile_eq {cfg : Setting} {source : String} {p : Program} {t : Tree}
    {before after : Workspace} (h : Stages cfg source p t before after) :
    Program.compile cfg source = .ok p := by
  have hgenerated : (generate cfg t).run before = .ok () after := h.generated
  unfold Program.compile Program.ofTree Program.generated
  simp only [h.read, h.resolved, hgenerated, bind, Except.bind, h.assembled]

/-- Assemblies with the same code both have a text, or neither has. -/
theorem Assembly.text_ok_of_lines {types : TypeTable} {a : Assembly} {text : String}
    (h : a.text types = .ok text) (heap : Heap) :
    ∃ text', ({ a with heap := heap } : Assembly).text types = .ok text' := by
  have hsame : ∀ offset target, ({ a with heap := heap } : Assembly).addressOf offset target =
      a.addressOf offset target := fun _ _ => rfl
  refine Assembly.exists_text_iff_addresses.mpr fun line hline target htarget => ?_
  rw [hsame]
  exact Assembly.exists_text_iff_addresses.mp ⟨text, h⟩ line hline target htarget

/-- Slots that mirror each other with no loose name are the same. -/
theorem Mirrored.eq_of_forall₂ {loose : String → Prop} {entries entries' : List (String × Variable)}
    (h : List.Forall₂ (Mirrored loose) entries entries') (hnone : ∀ name, ¬ loose name) :
    entries' = entries := by
  induction h with
  | nil => rfl
  | cons hentry _ ih =>
    obtain ⟨hname, hvalue | ⟨hloose, -⟩⟩ := hentry
    · rw [ih, Prod.ext hname hvalue]
    · exact absurd hloose (hnone _)

/-- A source that compiles with types checked compiles without: to the same code, entry points and
number of slots, over slots of the same names in the same order. Only the slot of an implicit variable
can differ, and then it is one of the root type without a value; without implicit variables the
programs are the same. -/
theorem Program.compile_unchecked {c : Catalog} {source : String} {p : Program} (hc : c.Loaded)
    (h : Program.compile ⟨c, true⟩ source = .ok p) :
    ∃ p' t before after after', Program.Stages ⟨c, true⟩ source p t before after ∧
      Program.Stages ⟨c, false⟩ source p' t before after' ∧
      Program.compile ⟨c, false⟩ source = .ok p' ∧
      after'.assembly.lines = after.assembly.lines ∧
      List.Forall₂ (Mirrored (Implicit c t before)) after.assembly.heap.slots.entries
        after'.assembly.heap.slots.entries ∧
      p'.heapSize = p.heapSize ∧ p'.entryPoints = p.entryPoints ∧
      ((∀ name, ¬ Implicit c t before name) → p' = p) := by
  obtain ⟨t, before, after, hstages⟩ := Program.compile_stages h
  have hprepared := Program.resolved_prepared hstages.resolved
  have hresolved : Program.resolved ⟨c, false⟩ t = .ok before := by
    have := hstages.resolved
    unfold Program.resolved at this ⊢
    rwa [Resolution.resolve_unchecked]
  -- The two runs start in one workspace, in which no literal has a slot yet.
  have hmirrors : before.Mirrors (Implicit c t before) before :=
    ⟨before.assembly, ⟨before.assembly.heap, .ofNoConstants hprepared.unstarted.constants, rfl⟩, rfl⟩
  obtain ⟨after', hgenerated, ⟨a', ⟨heap', hheap, rfl⟩, rfl⟩, -⟩ :=
    generate_echoed hc.indexed hmirrors (hprepared.grounded hc) () after hstages.generated
  obtain ⟨htext, hsymbols, hsize, hentries⟩ := Program.ofAssembly_eq_ok_iff.mp hstages.assembled
  obtain ⟨text', htext'⟩ := Assembly.text_ok_of_lines htext heap'
  have hstages' : Program.Stages ⟨c, false⟩ source
      { assembly := text'
        symbols := ({ after.assembly with heap := heap' } : Assembly).symbols c.types
        heapSize := ({ after.assembly with heap := heap' } : Assembly).heapSize
        entryPoints := after.assembly.entryLabels } t before
      { after with assembly := { after.assembly with heap := heap' } } :=
    ⟨hstages.read, hresolved, hgenerated,
      Program.ofAssembly_eq_ok_iff.mpr ⟨htext', rfl, rfl, rfl⟩⟩
  refine ⟨_, t, before, after, _, hstages, hstages', hstages'.compile_eq, rfl, hheap.slots, ?_,
    hentries.symm, fun hnone => ?_⟩
  · rw [hsize]
    show heap'.slots.size + after.assembly.called.length = _
    rw [hheap.size]
    rfl
  · have hslots := Mirrored.eq_of_forall₂ hheap.slots hnone
    obtain rfl : heap' = after.assembly.heap := by
      obtain ⟨⟨entries⟩, constants⟩ := heap'
      have hconstants := hheap.constants
      dsimp only at hslots hconstants
      rw [hslots, hconstants]
    refine Except.ok.inj (Eq.trans ?_ hstages.assembled)
    exact (Program.ofAssembly_eq_ok_iff.mpr ⟨htext', rfl, rfl, rfl⟩).symm

/-- A variable that is made by a call gets the type of its result with checks, and the root type
without. -/
theorem Program.compile_unchecked_result : ∃ c p p', Catalog.Loaded c ∧
    Program.compile ⟨c, true⟩ "=(x,(Int32Make))" = .ok p ∧
    Program.compile ⟨c, false⟩ "=(x,(Int32Make))" = .ok p' ∧
    p'.heapSize = p.heapSize ∧ p'.entryPoints = p.entryPoints ∧ p' ≠ p := by
  let manifest : Manifest :=
    { operations := [{
        name := "SystemInt32.__Make__SystemInt32"
        owner := "SystemInt32"
        parameters := [{ name := "result", type := "SystemInt32", direction := .output }] }] }
  have hdiffer : (Catalog.load manifest).toOption.any (fun c =>
      (Program.compile ⟨c, true⟩ "=(x,(Int32Make))").toOption.any fun p =>
        (Program.compile ⟨c, false⟩ "=(x,(Int32Make))").toOption.all (decide <| · ≠ p)) = true := by
    decide +kernel
  cases hload : Catalog.load manifest with
  | error e =>
    rw [hload] at hdiffer
    cases hdiffer
  | ok c =>
    cases hchecked : Program.compile ⟨c, true⟩ "=(x,(Int32Make))" with
    | error e =>
      simp only [hload, hchecked, Except.toOption, Option.any_some, Option.any_none] at hdiffer
      cases hdiffer
    | ok p =>
      have hc : c.Loaded := Or.inr ⟨manifest, hload⟩
      obtain ⟨p', _, _, _, _, -, -, hunchecked, -, -, hsize, hentries, -⟩ :=
        Program.compile_unchecked hc hchecked
      refine ⟨c, p, p', hc, hchecked, hunchecked, hsize, hentries, ?_⟩
      simpa [hload, hchecked, hunchecked, Except.toOption] using hdiffer

end SexprAsm
