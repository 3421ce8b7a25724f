import SexprAsm.Proofs.Generation.Literals
import SexprAsm.Proofs.Generation.Recursion
import SexprAsm.Proofs.Generation.Survival
import SexprAsm.Proofs.Resolution.Pointers

/-!
# Slots that are not of the source

A compilation makes slots of its own: those of literals and temporaries while it generates code
(`Workspace.Internal`), those of return addresses while it resolves. Each is made under a name that
is no slot at that moment, so a variable that is there before stays one of the source. Nothing
keeps the source from naming such a slot later on. What can then happen is bounded by
`Program.compile_apart`: a declared variable is never the slot of a literal or a temporary, and
only a declaration behind the first block of an event can change how the slot for its return
address begins.
-/

namespace SexprAsm

open Relation Generation Workspace

/-! ## Literals and temporaries -/

/-- A constant slot was there before, or has been made under a free name. -/
theorem Assembly.Change.constant_cases {c : Catalog} {a a' : Assembly} (h : Change c a a')
    {name : String} {v : Variable} (hv : a'.heap.slots.get? name = some v)
    (hconstant : v.attributes.constant = true) :
    a.heap.slots.get? name = some v ∨
      a.heap.slots.get? name = none ∧ Heap.constantLead.toList <+: name.toList := by
  cases h with
  | code heap =>
    rw [heap] at hv
    exact Or.inl hv
  | @slot heap other type fresh define =>
    obtain ⟨-, rfl⟩ := Heap.define_ok define
    rw [OrderedMap.get?_put] at hv
    split at hv
    · -- A slot that is defined without attributes is not constant.
      have hplain : v.attributes.constant = false :=
        Option.some.inj hv ▸ Heap.settle_constant c other type none rfl
      rw [hconstant] at hplain
      cases hplain
    · exact Or.inl hv
  | literal unknown fresh lead define =>
    obtain ⟨-, rfl⟩ := Heap.define_ok define
    rw [OrderedMap.get?_put] at hv
    split at hv
    next heq =>
      subst heq
      exact Or.inr ⟨fresh, lead⟩
    next => exact Or.inl hv

theorem Assembly.constant_of_changes {c : Catalog} {a a' : Assembly}
    (h : ReflTransGen (Change c) a a') {name : String} {v : Variable}
    (hv : a'.heap.slots.get? name = some v) (hconstant : v.attributes.constant = true) :
    a.heap.slots.get? name = some v ∨
      a.heap.slots.get? name = none ∧ Heap.constantLead.toList <+: name.toList := by
  induction h with
  | refl => exact Or.inl hv
  | tail hchain hchange ih =>
    rcases hchange.constant_cases hv hconstant with hv | ⟨hnone, hlead⟩
    · exact ih hv
    · exact Or.inr ⟨(Assembly.extends_of_changes hchain).get?_eq_none hnone, hlead⟩

namespace Workspace

variable {cfg : Setting} {w w' before : Workspace} {name : String}

/-- Generation has made the slot for itself: it holds a literal, or is a temporary. -/
def Internal (w : Workspace) (name : String) : Prop :=
  (∃ v, w.assembly.heap.slots.get? name = some v ∧ v.attributes.constant = true) ∨ w.Known name

/-- A slot is made by generation, or not, once and for all. -/
theorem Proceeds.internal_cases (h : Proceeds cfg w w') (hname : w'.Internal name) :
    w.Internal name ∨ w.assembly.heap.slots.get? name = none := by
  rcases hname with ⟨v, hv, hconstant⟩ | hknown
  · rcases Assembly.constant_of_changes h.assembly hv hconstant with hv | ⟨hnone, -⟩
    · exact Or.inl (Or.inl ⟨v, hv, hconstant⟩)
    · exact Or.inr hnone
  · exact (h.known_cases hknown).imp_left Or.inr

/-- From a workspace without constant slots and without temporaries on, names tell what generation
has made. -/
theorem Proceeds.internal_lead (h : Proceeds cfg before w) (hplain : before.assembly.heap.Plain)
    (hpooled : before.Pooled) (hname : w.Internal name) :
    Heap.constantLead.toList <+: name.toList ∨ tempLead.toList <+: name.toList := by
  rcases hname with ⟨v, hv, hconstant⟩ | hknown
  · rcases Assembly.constant_of_changes h.assembly hv hconstant with hv | ⟨-, hlead⟩
    · rw [hplain.slots name v hv] at hconstant
      cases hconstant
    · exact Or.inl hlead
  · obtain ⟨type, hlead, -⟩ := (h.pooled hpooled).temporary_of_known hknown
    exact Or.inr hlead

theorem Unstarted.not_known (h : before.Unstarted) : ¬ before.Known name := by
  rintro (hrented | ⟨type, pool, hpool, -⟩)
  · rw [h.rented] at hrented
    exact hrented rfl
  · rw [h.pools] at hpool
    cases hpool

/-- What is a slot before generation is none that it makes. -/
theorem Unstarted.not_internal (h : before.Unstarted) (hplain : before.assembly.heap.Plain)
    (hslot : before.assembly.heap.slots.contains name = true) (hlater : Proceeds cfg before w) :
    ¬ w.Internal name := by
  intro hname
  rcases hlater.internal_cases hname with (⟨v, hv, hconstant⟩ | hknown) | hnone
  · rw [hplain.slots name v hv] at hconstant
    cases hconstant
  · exact h.not_known hknown
  · rw [OrderedMap.contains, hnone] at hslot
    cases hslot

end Workspace

/-! ## Symbols -/

theorem Assembly.mem_symbols {types : TypeTable} {a : Assembly} {name : String} {v : Variable}
    (hv : a.heap.slots.get? name = some v) (hthis : v.attributes.defaultThis = false)
    (hvoid : v.type ≠ TypeTable.void) :
    (name, ⟨types.name v.type, v.attributes, v.value⟩) ∈ a.symbols types := by
  refine List.mem_filterMap.mpr ⟨(name, v), OrderedMap.mem_entries_of_get? hv, ?_⟩
  simp [hthis, hvoid]

/-- A return address starts as the address that ends the program. -/
theorem Catalog.Indexed.mem_symbols_pointer {c : Catalog} (h : c.Indexed) {a : Assembly}
    {pointer : String} (hslot : a.heap.slots.get? pointer = some c.pointerSlot) :
    (pointer, ⟨TypeTable.uint32Name, {}, some (.uint32 returnAddress)⟩) ∈ a.symbols c.types := by
  obtain ⟨hvoid, -, hname⟩ := h.names
  replace hname : c.types.name c.pointerSlot.type = TypeTable.uint32Name := hname
  have hne : c.pointerSlot.type ≠ TypeTable.void := by
    intro heq
    rw [heq, hvoid] at hname
    exact absurd hname (by decide)
  rw [← hname]
  exact Assembly.mem_symbols hslot rfl hne

/-- The slots that a compilation makes for itself are set apart by their names, and by being made
under free names: a variable that has a slot first never comes to share it. A variable declared
with the name of a return pointer comes behind a block of its event; without one, the pointer
starts as the address that ends the program. -/
theorem Program.compile_apart {cfg : Setting} {source : String} {p : Program}
    (hloaded : cfg.catalog.Loaded) (h : Program.compile cfg source = .ok p) :
    ∃ t before after, Program.Stages cfg source p t before after ∧ Proceeds cfg before after ∧
      (∀ w w' name, Proceeds cfg before w → Proceeds cfg w w' → w'.Internal name →
        (Heap.constantLead.toList <+: name.toList ∨ tempLead.toList <+: name.toList) ∧
        (w.Internal name ∨ w.assembly.heap.slots.get? name = none)) ∧
      (∀ id ∈ t.visits, ∀ name, t.Declares id name →
        ∀ w, Proceeds cfg before w → ¬ w.Internal name) ∧
      ∀ label entry, after.entryPoints.get? label = some entry →
        (pointerLead label).toList <+: entry.returnPointer.toList ∧
        (∀ w, Proceeds cfg before w → ¬ w.Internal entry.returnPointer) ∧
        (∀ other entry', after.entryPoints.get? other = some entry' →
          entry'.returnPointer = entry.returnPointer → other = label) ∧
        (∀ id ∈ t.visits, t.Declares id entry.returnPointer →
          ∃ block, t.eventLabel? block = some label ∧ [block, id].Sublist t.visits) ∧
        ((∀ id ∈ t.visits, ¬ t.Declares id entry.returnPointer) →
          (entry.returnPointer, ⟨TypeTable.uint32Name, {}, some (.uint32 returnAddress)⟩) ∈
            p.symbols) := by
  obtain ⟨t, before, after, hstages⟩ := Program.compile_stages h
  obtain ⟨x, -, hholds⟩ := Tree.read?_ok (Tree.read_eq_ok_iff.mp hstages.read)
  have hprepared := Program.resolved_prepared hstages.resolved
  have hunstarted := hprepared.unstarted
  have hplain := (Program.resolved_proceeds hstages.resolved).plain Heap.plain_empty
  have hpointed := Program.resolved_pointed hstages.resolved
  obtain ⟨first, hstart, hreaches⟩ :=
    generate_reaches hholds.linked hholds.root_lt hstages.generated
  have hsame := (hreaches.attended (hprepared.attended hstart)).declarations
  refine ⟨t, before, after, hstages, hreaches.proceeds, fun w w' name hw hw' hname => ⟨?_, ?_⟩,
    fun id hid name hdeclares w hw => ?_, fun label entry hentry => ?_⟩
  · exact Proceeds.internal_lead (hw.trans hw') hplain hunstarted.pooled hname
  · exact hw'.internal_cases hname
  · exact hunstarted.not_internal hplain (hpointed.slots id hid name hdeclares) hw
  · -- Generation leaves the return pointers as resolution has declared them.
    obtain ⟨entry₀, hentry₀, hpointer, -⟩ := hsame.get? hentry
    rw [← hpointer]
    have hpoints := hpointed.pointers label entry₀ hentry₀
    refine ⟨hpoints.lead, fun w hw => ?_, fun other entry' hentry' heq => ?_, hpoints.declared,
      fun hnone => ?_⟩
    · exact hunstarted.not_internal hplain (hunstarted.entryPoints label entry₀ hentry₀).pointer hw
    · obtain ⟨entry₀', hentry₀', hpointer', -⟩ := hsame.get? hentry'
      exact hunstarted.pointers other label entry₀' entry₀ hentry₀' hentry₀ (hpointer'.trans heq)
    · obtain ⟨v, hv, -, hslot⟩ := hpoints.slot
      rw [hstages.symbols]
      refine hloaded.indexed.mem_symbols_pointer ?_
      rw [← hslot hnone]
      exact hreaches.proceeds.extends.slots _ v hv

/-- The source takes the names that the literal and the return pointer ask for. -/
theorem Program.compile_apart_taken : ∃ p t before after,
    Program.Stages ⟨Catalog.empty, true⟩ "(var(__const_Int32_1,5),var(___a_return,7u),when(_a,1))"
      p t before after ∧
    (∀ w, Proceeds ⟨Catalog.empty, true⟩ before w → ¬ w.Internal "__const_Int32_1") ∧
    ("___a_return_0", ⟨TypeTable.uint32Name, {}, some (.uint32 returnAddress)⟩) ∈ p.symbols := by
  have hrun : ((Program.compile ⟨Catalog.empty, true⟩
      "(var(__const_Int32_1,5),var(___a_return,7u),when(_a,1))").toOption.map fun _ => ()) =
      some () := by
    decide +kernel
  obtain ⟨p, hp, -⟩ := exists_ok_of_map hrun
  have hloaded : (⟨Catalog.empty, true⟩ : Setting).catalog.Loaded := Or.inl rfl
  obtain ⟨t, before, after, hstages, -, -, hdeclared, hpointers⟩ := Program.compile_apart hloaded hp
  have hvisits : (Tree.read "(var(__const_Int32_1,5),var(___a_return,7u),when(_a,1))").toOption.all
      fun t => decide ((∃ id ∈ t.visits, t.Declares id "__const_Int32_1") ∧
        ∀ id ∈ t.visits, ¬ t.Declares id "___a_return_0") := by
    decide +kernel
  rw [hstages.read, Except.toOption, Option.all_some, decide_eq_true_iff] at hvisits
  obtain ⟨⟨id, hid, hdeclares⟩, hnone⟩ := hvisits
  have hpointer : (Tree.read "(var(__const_Int32_1,5),var(___a_return,7u),when(_a,1))").toOption.all
      fun t => (Program.generated ⟨Catalog.empty, true⟩ t).toOption.all fun w =>
        decide ((w.entryPoints.get? "_a").map (·.returnPointer) = some "___a_return_0") := by
    decide +kernel
  have hgenerated : Program.generated ⟨Catalog.empty, true⟩ t = .ok after :=
    Program.generated_eq_ok_iff.mpr ⟨before, hstages.resolved, hstages.generated⟩
  rw [hstages.read, Except.toOption, Option.all_some, hgenerated, Except.toOption, Option.all_some,
    decide_eq_true_iff] at hpointer
  obtain ⟨entry, hentry, hname⟩ := Option.map_eq_some_iff.mp hpointer
  obtain ⟨-, -, -, -, hsymbol⟩ := hpointers "_a" entry hentry
  rw [hname] at hsymbol
  exact ⟨p, t, before, after, hstages, hdeclared id hid _ hdeclares, hsymbol hnone⟩

end SexprAsm
