import SexprAsm.Proofs.Assembly.Groups
import SexprAsm.Proofs.Generation.Footprint
import SexprAsm.Proofs.Generation.Literals

/-!
# Loads and stores

Straight code is a list of groups that copy a slot to another one or call an operation
(`EmitsGroups`). It reads a slot before it changes it if no group that copies from the slot stands
behind one that may store in it (`Group.LoadsFirst`).

Besides the slots that a unit hands to it, code names those of literals and temporaries. None of
them is the slot of a variable that has been there before (`Workspace.Shuns`), so operands are all
there is to look at.
-/

namespace SexprAsm

open Relation Generation Workspace

/-! ## Loads and stores

A group loads from the slots that it copies, and stores in those that it copies to. An operation
may do anything to the slots that it is handed. -/

namespace Group

/-- The group neither jumps nor branches. -/
def isStraight : Group → Bool
  | nop | copy _ _ | call _ _ => true
  | _ => false

theorem retarget?_eq_none {g : Group} (h : g.isStraight = true) {i : Instruction}
    (hi : i ∈ g.instructions) (target : JumpTarget) : i.retarget? target = none := by
  cases g with
  | nop => rw [List.mem_singleton.mp hi]; rfl
  | copy source slot =>
    obtain rfl | rfl | rfl : i = .push source ∨ i = .push slot ∨ i = .copy := by
      simpa [instructions] using hi
    all_goals rfl
  | call arguments operation =>
    rcases List.mem_append.mp hi with hi | hi
    · obtain ⟨argument, -, rfl⟩ := List.mem_map.mp hi
      rfl
    · rw [List.mem_singleton.mp hi]
      rfl
  | _ => cases h

/-- The group copies what the slot holds. -/
def Loads (x : String) : Group → Prop
  | copy source _ => source = x
  | _ => False

/-- The group may change what the slot holds: it copies to it, or hands it to an operation. -/
def Stores (x : String) : Group → Prop
  | copy _ target => target = x
  | call arguments _ => x ∈ arguments
  | _ => False

/-- No group loads from the slot behind one that may store in it. A group that does both loads
before it stores. -/
def LoadsFirst (x : String) (gs : List Group) : Prop :=
  gs.Pairwise fun g g' => g.Stores x → ¬ g'.Loads x

variable {x : String} {gs gs' : List Group}

theorem LoadsFirst.of_not_loads (h : ∀ g ∈ gs, ¬ g.Loads x) : LoadsFirst x gs :=
  List.pairwise_of_forall_mem_list fun _ _ g' hg' _ => h g' hg'

theorem LoadsFirst.append (hquiet : ∀ g ∈ gs, ¬ g.Stores x) (h : LoadsFirst x gs') :
    LoadsFirst x (gs ++ gs') := by
  have hnever : ∀ g ∈ gs, ∀ g' : Group, g.Stores x → ¬ g'.Loads x :=
    fun g hg g' hstores => absurd hstores (hquiet g hg)
  exact List.pairwise_append.mpr
    ⟨List.pairwise_of_forall_mem_list fun g hg g' _ => hnever g hg g', h,
      fun g hg g' _ => hnever g hg g'⟩

theorem LoadsFirst.toList (g? : Option Group) : LoadsFirst x g?.toList := by
  cases g? <;> simp [LoadsFirst]

end Group

/-- The group of a copy to a target, if there is one. -/
theorem copyCode_eq (slot : String) (target : Option String) :
    copyCode slot target = (target.map (Group.copy slot)).toList.flatMap Group.instructions := by
  cases target <;> rfl

/-- Straight code has been appended. -/
structure EmitsGroups (w : Workspace) (gs : List Group) (w' : Workspace) : Prop where
  code : w'.assembly.instructions = w.assembly.instructions ++ gs.flatMap Group.instructions
  straight : ∀ g ∈ gs, g.isStraight = true

namespace EmitsGroups

variable {w w' w'' : Workspace} {gs gs' : List Group} {g : Group}

theorem refl (w : Workspace) : EmitsGroups w [] w :=
  ⟨(List.append_nil _).symm, List.forall_mem_nil _⟩

theorem trans (h : EmitsGroups w gs w') (h' : EmitsGroups w' gs' w'') :
    EmitsGroups w (gs ++ gs') w'' := by
  refine ⟨by rw [h'.code, h.code, List.flatMap_append, List.append_assoc], fun g hg => ?_⟩
  exact (List.mem_append.mp hg).elim (h.straight g) (h'.straight g)

/-- What does not change the code may come before or behind. -/
theorem congr (h : EmitsGroups w gs w') {v v' : Workspace}
    (hbefore : w.assembly.instructions = v.assembly.instructions)
    (hbehind : v'.assembly.instructions = w'.assembly.instructions) : EmitsGroups v gs v' :=
  ⟨by rw [hbehind, h.code, hbefore], h.straight⟩

theorem ofAppends (h : Appends w g.instructions w') (hg : g.isStraight = true) :
    EmitsGroups w [g] w' :=
  ⟨by rw [h.code_eq, List.flatMap_singleton], List.forall_mem_singleton.mpr hg⟩

end EmitsGroups

/-! ## Slots of literals and temporaries

A variable with a slot that is neither that of a literal nor a temporary stays so. So copies and
calls name it only where they are handed its name. -/

/-- The slot is there, and it is not that of a literal. -/
structure Heap.Outside (heap : Heap) (x : String) : Prop where
  slot : heap.slots.contains x = true
  literal : ∀ value, heap.constants.get? value ≠ some x

namespace Heap.Outside

variable {c : Catalog} {heap heap' : Heap} {x name : String} {value : Value}

theorem ne (h : heap.Outside x) (hfree : heap.slots.get? name = none) : name ≠ x := by
  rintro rfl
  have := h.slot
  rw [OrderedMap.contains, hfree] at this
  cases this

theorem constant (h : heap.Outside x) (hconstant : heap.constant c value = .ok (name, heap')) :
    name ≠ x ∧ heap'.Outside x := by
  rcases Heap.constant_ok hconstant with ⟨hknown, rfl⟩ | ⟨hfree, -, hdefine⟩
  · exact ⟨fun heq => h.literal value (heq ▸ hknown), h⟩
  · obtain ⟨hext, -⟩ := Heap.define_fresh hdefine hfree
    refine ⟨h.ne hfree, hext.contains h.slot, fun other hother => ?_⟩
    cases hknown : heap.constants.get? other with
    | none => exact h.ne hfree (Heap.define_constants hdefine hknown hother)
    | some known =>
      obtain rfl := Option.some.inj ((hext.constants other known hknown).symm.trans hother)
      exact h.literal other hknown

theorem of_changes {cfg : Setting} {a a' : Assembly} (h : a.heap.Outside x)
    (hchanges : ReflTransGen (Assembly.Change cfg.catalog) a a') : a'.heap.Outside x := by
  have hext := Assembly.extends_of_changes hchanges
  refine ⟨hext.contains h.slot, fun value hvalue => ?_⟩
  cases hknown : a.heap.constants.get? value with
  | none => exact h.ne (Assembly.fresh_of_changes hchanges hknown hvalue) rfl
  | some known =>
    obtain rfl := Option.some.inj ((hext.constants value known hknown).symm.trans hvalue)
    exact h.literal value hknown

end Heap.Outside

section Emit

variable {cfg : Setting} {a a' : Assembly} {x : String}

theorem Emit.slot_outside {operand : Operand} {name : String}
    (h : Yields (Emit.slot cfg operand) a name a') (ha : a.heap.Outside x) :
    a'.heap.Outside x ∧ (name = x → operand = .var x) := by
  cases operand with
  | var other =>
    obtain ⟨rfl, rfl⟩ := Yields.pure_iff.mp h
    exact ⟨ha, fun heq => heq ▸ rfl⟩
  | const value =>
    simp only [Emit.slot, Emit.constant] at h
    obtain ⟨heap, hconstant, rfl⟩ := Emit.onHeap_iff.mp h
    obtain ⟨hne, houtside⟩ := ha.constant hconstant
    exact ⟨houtside, fun heq => absurd heq hne⟩

theorem Emit.slots_outside {operands : List Operand} {names : List String}
    (h : Yields (Emit.slots cfg operands) a names a') (ha : a.heap.Outside x) :
    x ∈ names → .var x ∈ operands := by
  induction operands generalizing a names with
  | nil =>
    obtain ⟨rfl, -⟩ := Yields.pure_iff.mp h
    exact fun hmem => absurd hmem List.not_mem_nil
  | cons operand operands ih =>
    simp only [Emit.slots, Yields.bind_iff, Yields.pure_iff] at h
    obtain ⟨name, a₁, hslot, names, a₂, hrest, rfl, rfl⟩ := h
    obtain ⟨houtside, hname⟩ := Emit.slot_outside hslot ha
    intro hmem
    rcases List.mem_cons.mp hmem with heq | hmem
    · rw [hname heq.symm]
      exact List.mem_cons_self
    · exact List.mem_cons_of_mem _ (ih hrest houtside hmem)

end Emit

/-- The slot is there, and it is neither that of a literal nor a temporary. -/
structure Workspace.Shuns (w : Workspace) (x : String) : Prop where
  sound : w.assembly.heap.Sound
  pooled : w.Pooled
  outside : w.assembly.heap.Outside x
  known : ¬ w.Known x

namespace Workspace.Shuns

variable {cfg : Setting} {w w' : Workspace} {x : String} {u u' : WorkUnit} {id : InstructionId}

theorem rent (h : w.Shuns x) {type : TypeId} {name : String}
    (hrent : Yields (Build.rent cfg type) w name w') :
    w'.Shuns x ∧ name ≠ x ∧ w'.assembly.instructions = w.assembly.instructions := by
  obtain ⟨hemits, hpooled, -, -, -, -, hrented⟩ := Build.rent_spec hrent h.pooled
  have hknown : ¬ w'.Known x := by
    intro hknown
    exact (Build.rent_known hrent hknown).elim h.known fun hfree => h.outside.ne hfree rfl
  refine ⟨⟨hemits.sound h.sound, hpooled, ?_, hknown⟩, ?_, ?_⟩
  · exact h.outside.of_changes (Proceeds.assembly (.single (.rent hrent)))
  · rintro rfl
    exact hknown (Or.inl (by simp [hrented]))
  · rw [hemits.code, List.append_nil]

theorem copy (h : w.Shuns x) {source : Operand} {target : String}
    (hcopy : Yields (Compile.emit (Emit.copy cfg source target)) w id w') :
    ∃ slot, Appends w (Group.copy slot target).instructions w' ∧ (slot = x → source = .var x) := by
  obtain ⟨a, hcopy', rfl⟩ := Compile.emit_iff.mp hcopy
  obtain ⟨slot, a₁, hslot, hemits, -⟩ := Emit.copy_cases hcopy'
  obtain ⟨hemits', -⟩ := Emit.slot_spec hslot h.sound
  exact ⟨slot, .ofEmits (hemits'.trans hemits), (Emit.slot_outside hslot h.outside).2⟩

theorem call (h : w.Shuns x) {operands : List Operand} {name : String}
    (hcall : Yields (Compile.emit (Emit.call cfg name operands)) w id w') :
    ∃ slots, Appends w (Group.call slots name).instructions w' ∧
      (x ∈ slots → .var x ∈ operands) := by
  obtain ⟨a, hcall', rfl⟩ := Compile.emit_iff.mp hcall
  obtain ⟨slots, a₁, hslots, hemits, -⟩ := Emit.call_cases hcall'
  obtain ⟨hemits', -⟩ := Emit.slots_spec hslots h.sound
  exact ⟨slots, .ofEmits (hemits'.trans hemits), Emit.slots_outside hslots h.outside⟩

theorem typeOf? (h : w.Shuns x) {name : String} {found : Option TypeId}
    (htype : Yields (Compile.emit (Emit.typeOf? cfg name)) w found w') :
    w'.Shuns x ∧ w'.assembly.instructions = w.assembly.instructions := by
  have happends := Appends.typeOf? htype
  refine ⟨⟨happends.emits.sound h.sound, happends.pooled h.pooled, ?_, fun hknown => ?_⟩, ?_⟩
  · obtain ⟨a, htype', rfl⟩ := Compile.emit_iff.mp htype
    exact h.outside.of_changes ((Emit.typeOf?_changes name).of_yields htype')
  · exact h.known (hknown.ofSame happends.rented happends.pools)
  · rw [happends.code_eq, List.append_nil]

/-- A copy to the target of a unit stores there, and loads from its operand. -/
theorem copyToTarget (h : w.Shuns x) {source : Operand}
    (hcopy : Yields (Generation.copyToTarget cfg u source) w () w') :
    ∃ g? : Option Group, EmitsGroups w g?.toList w' ∧ w'.Pooled ∧
      (∀ g ∈ g?, g.Stores x → u.target = some x) ∧ ∀ g ∈ g?, g.Loads x → source = .var x := by
  rcases copyToTarget_cases hcopy with ⟨-, rfl⟩ | ⟨target, id, htarget, hcopy⟩
  · exact ⟨none, .refl _, h.pooled, by simp, by simp⟩
  · obtain ⟨slot, happends, hslot⟩ := h.copy hcopy
    refine ⟨some (.copy slot target), .ofAppends happends rfl, happends.pooled h.pooled, ?_, ?_⟩
    · rintro g ⟨⟩ hstores
      rw [htarget, hstores]
    · rintro g ⟨⟩ hloads
      exact hslot hloads

end Workspace.Shuns

section Slots

variable {cfg : Setting} {n : Nat} {u u' : WorkUnit} {w w' : Workspace} {x : String}

/-- The slot for the result of a call is the target or a temporary. -/
theorem Generation.CompletesArguments.shuns {op : Operation} {arguments operands : List Operand}
    (h : CompletesArguments cfg op u w arguments operands u' w') (hw : w.Shuns x)
    (harguments : Operand.var x ∉ arguments) :
    w'.Shuns x ∧ w'.assembly.instructions = w.assembly.instructions ∧
      (Operand.var x ∈ operands → u.target = some x) ∧ ∃ temps, u' = { u with temps := temps } := by
  obtain ⟨-, rfl, rfl, rfl⟩ | ⟨type, slot, -, htarget, rfl, rfl, rfl⟩ |
    ⟨type, name, -, -, rfl, hrent, rfl⟩ := h
  · exact ⟨hw, rfl, fun hmem => absurd hmem harguments, _, rfl⟩
  · refine ⟨hw, rfl, fun hmem => ?_, _, rfl⟩
    rcases List.mem_append.mp hmem with hmem | hmem
    · exact absurd hmem harguments
    · obtain rfl := Operand.var.inj (List.mem_singleton.mp hmem)
      exact htarget
  · obtain ⟨hw', hne, hcode⟩ := hw.rent hrent
    refine ⟨hw', hcode, fun hmem => ?_, _, rfl⟩
    rcases List.mem_append.mp hmem with hmem | hmem
    · exact absurd hmem harguments
    · exact absurd (Operand.var.inj (List.mem_singleton.mp hmem)).symm hne

/-- The array is the target or a temporary, and elements come from another temporary. What is
emitted makes the array, or stores an element in it. -/
theorem Generation.FillsElement.emits {type : TypeId} {slots slots' : Option (String × String)}
    (h : FillsElement cfg n u type slots w slots' u' w') (hw : w.Shuns x)
    (hslots : ∀ array scratch, slots = some (array, scratch) →
      scratch ≠ x ∧ (array = x → u.target = some x)) :
    ∃ g? : Option Group, EmitsGroups w g?.toList w' ∧ w'.Pooled ∧
      (∀ g ∈ g?, g.Stores x → u.target = some x) ∧ (∀ g ∈ g?, ¬ g.Loads x) ∧
      (∀ array scratch, slots' = some (array, scratch) →
        scratch ≠ x ∧ (array = x → u.target = some x)) ∧
      ∃ temps, u' = { u with temps := temps } := by
  obtain ⟨-, array, scratch, element, elementName, length, last, v, w₁, w₂, harray, hrent, rfl, rfl,
    hcall⟩ | ⟨array, scratch, index, last, rfl, rfl, rfl, hcall⟩ | ⟨rfl, rfl, rfl, rfl⟩ := h
  · -- The array is the variable only if the variable is the target.
    have harray' : w₁.Shuns x ∧ w₁.assembly.instructions = w.assembly.instructions ∧
        (array = x → u.target = some x) ∧ ∃ temps, v = { u with temps := temps } := by
      obtain ⟨htarget, rfl, rfl⟩ | ⟨-, hrent, rfl⟩ := harray
      · exact ⟨hw, rfl, fun heq => heq ▸ htarget, _, rfl⟩
      · obtain ⟨hw₁, hne, hcode⟩ := hw.rent hrent
        exact ⟨hw₁, hcode, fun heq => absurd heq hne, _, rfl⟩
    obtain ⟨hw₁, hcode₁, haims, temps, rfl⟩ := harray'
    obtain ⟨hw₂, hne, hcode₂⟩ := hw₁.rent hrent
    obtain ⟨names, happends, hnames⟩ := hw₂.call hcall
    refine ⟨some (.call names _), (EmitsGroups.ofAppends happends rfl).congr
      (hcode₂.trans hcode₁) rfl, happends.pooled hw₂.pooled, ?_, ?_, ?_, _, rfl⟩
    · rintro g ⟨⟩ hmem
      have hoperand := hnames hmem
      exact haims (by simpa [eq_comm] using hoperand)
    · rintro g ⟨⟩ hloads
      exact hloads.elim
    · rintro _ _ ⟨⟩
      exact ⟨hne, haims⟩
  · obtain ⟨hne, haims⟩ := hslots array scratch rfl
    obtain ⟨names, happends, hnames⟩ := hw.call hcall
    refine ⟨some (.call names _), .ofAppends happends rfl, happends.pooled hw.pooled, ?_, ?_,
      hslots, _, rfl⟩
    · rintro g ⟨⟩ hmem
      have hoperand := hnames hmem
      simp only [List.mem_cons, Operand.var.injEq, reduceCtorEq, List.not_mem_nil, or_false]
        at hoperand
      exact haims (hoperand.resolve_right hne.symm).symm
    · rintro g ⟨⟩ hloads
      exact hloads.elim
  · exact ⟨none, .refl w, hw.pooled, by simp, by simp, by simp, _, rfl⟩

end Slots

end SexprAsm
