import SexprAsm.Proofs.Generation.ControlFlow
import SexprAsm.Proofs.Generation.Stores
import SexprAsm.Proofs.Semantics.Pieces

/-!
# Reading a variable before it is assigned

The right side of an assignment is compiled straight into the variable: the slot is handed down as
the target, through the last items of sequences, to a literal, a call, a cast or an array fill. So
the right side sees the old value only if all that is read of the variable is read before something
is stored in it (`Group.LoadsFirst`).

Calls and casts store when all their operands are there. Array fills do not: they make the array in
the target before they come to the first element. So the value is the old one unless an array fill
that makes the value reads the variable (`FillsFrom`).
-/

namespace SexprAsm

open Relation Generation Workspace Evaluation

/-! ## Expressions

The theorem is about expressions that read the variable and do nothing else to it (`NeverStores`).
Where they read it, and whether an array in it would be made too early, is a question about the
tree (`ReadsIn`, `FillsFrom`). A unit at work on such an expression is `Careful`. -/

/-- A node is the other one, or below it. -/
def Tree.Inside (t : Tree) : NodeId → NodeId → Prop :=
  ReflTransGen fun id child => child ∈ t.children id

section Expressions

variable (cfg : Setting) (t : Tree) (before : Workspace) (x : String)

/-- A construct that does not assign the variable, nor hands it to an output parameter. There are
none of control flow, events, declarations or inline assembly. -/
def Harmless (id : NodeId) : Construct → Prop
  | .literal | .get | .sequence | .typeOf _ | .cast _ | .arrayFill _ => True
  | .set => name? t id ≠ some x
  | .call op => ∀ k < (t.children id).length,
      (cfg.catalog.operation op).parameters[k]?.elim .input (·.direction) ≠ .input →
        (t.children id)[k]?.bind (passedVariable? t before) ≠ some x
  | _ => False

instance (id : NodeId) (construct : Construct) :
    Decidable (Harmless cfg t before x id construct) :=
  match construct with
  | .literal | .get | .sequence | .typeOf _ | .cast _ | .arrayFill _ => isTrue trivial
  | .set => inferInstanceAs (Decidable (name? t id ≠ some x))
  | .call op => inferInstanceAs (Decidable (∀ k < (t.children id).length,
      (cfg.catalog.operation op).parameters[k]?.elim .input (·.direction) ≠ .input →
        (t.children id)[k]?.bind (passedVariable? t before) ≠ some x))
  | .declare | .conditional | .loop | .event | .inlineAsm | .callEvent =>
    isFalse not_false

/-- An expression that may read the variable, but does nothing else to it. -/
def NeverStores (e : NodeId) : Prop :=
  ∀ id, t.Inside e id → ∀ construct, before.construct? id = some construct →
    Harmless cfg t before x id construct

/-- The variable is read somewhere in a node, as `$(x)`. -/
def ReadsIn (e : NodeId) : Prop := ∃ id, t.Inside e id ∧ passedVariable? t before id = some x

/-- The value of a node is that of the other one, as its last item. -/
def Tail : NodeId → NodeId → Prop :=
  ReflTransGen fun id item =>
    before.construct? id = some .sequence ∧ (t.children id).getLast? = some item

/-- The value of a node is an array that is filled from the variable. -/
def FillsFrom (e : NodeId) : Prop :=
  ∃ fill type, Tail t before e fill ∧ before.construct? fill = some (.arrayFill type) ∧
    ReadsIn t before x fill

end Expressions

section Expressions

variable {cfg : Setting} {t : Tree} {before : Workspace} {x : String} {e id child : NodeId}

/-- What is below a node is in every set of nodes that holds it and all children. -/
theorem Tree.Inside.mem {S : List NodeId} (h : t.Inside e id) (he : e ∈ S)
    (hclosed : ∀ id ∈ S, ∀ child ∈ t.children id, child ∈ S) : id ∈ S := by
  induction h with
  | refl => exact he
  | tail _ hchild ih => exact hclosed _ ih _ hchild

theorem Tail.mem {S : List NodeId} (h : Tail t before e id) (he : e ∈ S)
    (hclosed : ∀ id ∈ S, before.construct? id = some .sequence →
      ∀ item ∈ (t.children id).getLast?, item ∈ S) : id ∈ S := by
  induction h with
  | refl => exact he
  | tail _ hlast ih => exact hclosed _ ih hlast.1 _ hlast.2

theorem passedVariable?_eq_some :
    passedVariable? t before id = some x ↔
      before.construct? id = some .get ∧ name? t id = some x := by
  unfold passedVariable? name?
  rw [List.head?_eq_getElem?]
  split <;> simp_all

theorem NeverStores.of_mem (h : NeverStores cfg t before x e) (hchild : child ∈ t.children e) :
    NeverStores cfg t before x child :=
  fun id hid => h id (.head hchild hid)

theorem ReadsIn.of_child (h : ReadsIn t before x child) (hchild : child ∈ t.children e) :
    ReadsIn t before x e := by
  obtain ⟨id, hid, hreads⟩ := h
  exact ⟨id, .head hchild hid, hreads⟩

/-- The variable has a slot before code is generated. -/
theorem ReadsIn.contains (h : ReadsIn t before x e) (hprepared : Resolution.Prepared cfg t before) :
    before.assembly.heap.slots.contains x = true := by
  obtain ⟨id, -, hreads⟩ := h
  obtain ⟨hconstruct, hname⟩ := passedVariable?_eq_some.mp hreads
  obtain ⟨child, hchild, htext⟩ := Option.bind_eq_some_iff.mp hname
  exact hprepared.meaning id .get hconstruct child x hchild htext

/-- A node that descends to its last item fills from what that fills from. -/
theorem FillsFrom.of_last (h : FillsFrom t before x child)
    (hconstruct : before.construct? e = some .sequence)
    (hlast : (t.children e).getLast? = some child) : FillsFrom t before x e := by
  obtain ⟨fill, type, htail, hfill, hreads⟩ := h
  exact ⟨fill, type, .head ⟨hconstruct, hlast⟩ htail, hfill, hreads⟩

end Expressions

/-- Nothing follows the last item of a sequence. -/
theorem Generation.last_of_sequence {cfg : Setting} {t : Tree} {u u' : WorkUnit}
    {w w₁ w₂ w' : Workspace} {child : NodeId} {target : Option String} (htask : u.task = .sequence)
    (hlast : u.step + 1 = (t.children u.node).length)
    (h : Yields (step cfg t u) w (.descend child target, u') w₁) (hend : Finishes cfg t u' w₂ w') :
    (t.children u.node).getLast? = some child ∧ w' = w₂ := by
  obtain ⟨id, slot, n, temps, task⟩ := u
  obtain rfl : task = .sequence := htask
  obtain ⟨rfl, rfl, ⟨item, hitem, hp⟩ | ⟨-, hp⟩⟩ := stepSequence_cases h
  swap
  · cases hp
  obtain ⟨rfl, -⟩ := Progress.descend.inj hp
  refine ⟨?_, ?_⟩
  · rw [List.getLast?_eq_getElem?, ← hlast, Nat.add_sub_cancel]
    exact hitem
  · obtain ⟨p, u', w₃, hstep, hrest⟩ := hend.step_cases
    obtain ⟨rfl, rfl, ⟨other, hother, -⟩ | ⟨-, rfl⟩⟩ := stepSequence_cases hstep
    · rw [List.getElem?_eq_none hlast.ge] at hother
      cases hother
    · obtain ⟨-, rfl⟩ | ⟨hp, -⟩ | ⟨_, _, _, _, hp, -⟩ := hrest
      · rfl
      · cases hp
      · cases hp

/-- The unit fills the array in the slot, which is its target, through another one. -/
def WorkUnit.Fills (u : WorkUnit) (x : String) : Prop :=
  u.target = some x ∧ ∃ type scratch, u.task = .arrayFill type (some (x, scratch)) ∧ scratch ≠ x

namespace WholeRun

variable {cfg : Setting} {t : Tree} (r : WholeRun cfg t) (x : String)

/-- A unit at work on an expression that never stores in the variable. If it keeps the variable for
its later steps, that is the array that it fills. -/
structure Careful (u : WorkUnit) : Prop where
  harmless : NeverStores cfg t r.before x u.node
  construct : ∃ construct, r.before.construct? u.node = some construct ∧
    u.task.initial = .ofConstruct construct
  uses : x ∈ u.task.uses → u.Fills x

/-- What a step of such a unit does: it emits one group or none. The group stores in the variable
only if that is the target, and loads from it only in the unit of `$(x)`. All but array fills emit
at their end, and the variable is handed down only to the last item of a sequence. -/
structure StepEmits (u : WorkUnit) (w : Workspace) (p : Progress) (u' : WorkUnit) (w' : Workspace)
    (g? : Option Group) : Prop where
  emitted : EmitsGroups w g?.toList w'
  stores : ∀ g ∈ g?, g.Stores x → u.target = some x
  loads : ∀ g ∈ g?, g.Loads x → passedVariable? t r.before u.node = some x
  early : p = .done ∨ g? = none ∨ ∃ type slots, u.task = .arrayFill type slots
  target : u'.target = u.target
  aims : ∀ child, p = .descend child (some x) →
    u.target = some x ∧ u.task = .sequence ∧ u.step + 1 = (t.children u.node).length
  uses : x ∈ u'.task.uses → u'.Fills x

variable {r x} {u u' next : WorkUnit} {stack rest : List WorkUnit} {w w₁ w' : Workspace}
  {p : Progress} {id child : NodeId} {target : Option String} {n : Nat} {temps : List String}
  {g? : Option Group}

/-- Generation never makes a slot of its own where a variable has one. -/
theorem At.shuns (h : r.At stack w) (hx : r.before.assembly.heap.slots.contains x = true) :
    w.Shuns x := by
  have hbefore : r.before.assembly.heap.Outside x :=
    ⟨hx, fun value hvalue => by
      rw [r.prepared.unstarted.constants] at hvalue
      cases hvalue⟩
  refine ⟨h.vocabulary.sound, h.vocabulary.pooled,
    hbefore.of_changes (Reaches.proceeds h).assembly, fun hknown => ?_⟩
  exact hbefore.ne (h.attended.known x hknown) rfl

theorem At.passedVariable?_eq (h : r.At stack w) (id : NodeId) :
    passedVariable? t w id = passedVariable? t r.before id := by
  unfold passedVariable? construct? finding
  rw [h.attended.later.findings]

/-! ### Steps

A step of a careful unit emits one group of instructions or none. That group loads from the
variable only where the node reads it, and stores in it only if it is the target
(`At.stepEmits`). There is one lemma for each kind of unit, and the constructs that are not
harmless do not occur. -/

theorem Careful.cases (h : r.Careful x u) : ∃ construct,
    r.before.construct? u.node = some construct ∧ u.task.initial = .ofConstruct construct ∧
      Harmless cfg t r.before x u.node construct := by
  obtain ⟨construct, hconstruct, hinitial⟩ := h.construct
  exact ⟨construct, hconstruct, hinitial, h.harmless u.node .refl construct hconstruct⟩

/-- A step that ends its unit with a copy to the target. -/
theorem StepEmits.copies {v : WorkUnit} {w₂ : Workspace} {source : Operand}
    (hbefore : w₁.Shuns x ∧ w₁.assembly.instructions = w.assembly.instructions)
    (hcopy : Yields (copyToTarget cfg v source) w₁ () w₂) (hv : v.target = u.target)
    (hbehind : w₂.Pooled → w'.assembly.instructions = w₂.assembly.instructions)
    (hsource : source = .var x → passedVariable? t r.before u.node = some x)
    (htarget : u'.target = u.target)
    (huses : x ∈ u'.task.uses → u'.Fills x) :
    ∃ g?, r.StepEmits x u w .done u' w' g? := by
  obtain ⟨g?, hemitted, hpooled, hstores, hloads⟩ := hbefore.1.copyToTarget hcopy
  exact ⟨g?, hemitted.congr hbefore.2 (hbehind hpooled),
    fun g hg hx => hv ▸ hstores g hg hx, fun g hg hx => hsource (hloads g hg hx), Or.inl rfl,
    htarget, by simp, huses⟩

/-- A step that emits nothing. -/
theorem StepEmits.nothing (hcode : w'.assembly.instructions = w.assembly.instructions)
    (htarget : u'.target = u.target)
    (haims : ∀ child, p = .descend child (some x) →
      u.target = some x ∧ u.task = .sequence ∧ u.step + 1 = (t.children u.node).length)
    (huses : x ∈ u'.task.uses → u'.Fills x) :
    ∃ g?, r.StepEmits x u w p u' w' g? :=
  ⟨none, (EmitsGroups.refl w).congr rfl hcode, by simp, by simp, Or.inr (Or.inl rfl), htarget,
    haims, huses⟩

theorem stepLiteral_emits (hw : w.Shuns x)
    (h : Yields (step cfg t ⟨id, target, n, temps, .literal⟩) w (p, u') w') :
    ∃ g?, r.StepEmits x ⟨id, target, n, temps, .literal⟩ w p u' w' g? := by
  obtain ⟨rfl, rfl, ⟨last, htarget, hnop⟩ | ⟨slot, last, htarget, hcopy⟩⟩ := stepLiteral_cases h
  · exact ⟨some .nop, .ofAppends (Appends.nop hnop) rfl, by simp [Group.Stores],
      by simp [Group.Loads], Or.inl rfl, rfl, by simp, by simp [Task.uses]⟩
  · obtain ⟨source, happends, hsource⟩ := hw.copy hcopy
    refine ⟨some (.copy source slot), .ofAppends happends rfl, ?_, ?_, Or.inl rfl, rfl, by simp,
      by simp [Task.uses]⟩
    · rintro g ⟨⟩ hstores
      exact htarget.trans (congrArg some hstores)
    · rintro g ⟨⟩ hloads
      cases hsource hloads

theorem stepTypeOf_emits {type : TypeId} (hw : w.Shuns x)
    (h : Yields (step cfg t ⟨id, target, n, temps, .typeOf type⟩) w (p, u') w') :
    ∃ g?, r.StepEmits x ⟨id, target, n, temps, .typeOf type⟩ w p u' w' g? := by
  obtain ⟨hcopy, rfl, rfl⟩ := step_typeOf_cases h
  exact StepEmits.copies ⟨hw, rfl⟩ hcopy rfl (fun _ => rfl) (by simp) rfl (by simp [Task.uses])

/-- Looking up the type of a variable emits nothing. -/
theorem stepGet_emits (hw : w.Shuns x) (hu : r.Careful x ⟨id, target, n, temps, .get⟩)
    (h : Yields (step cfg t ⟨id, target, n, temps, .get⟩) w (p, u') w') :
    ∃ g?, r.StepEmits x ⟨id, target, n, temps, .get⟩ w p u' w' g? := by
  obtain ⟨construct, hconstruct, hinitial, -⟩ := hu.cases
  obtain rfl : construct = .get := by cases construct <;> first | rfl | cases hinitial
  obtain ⟨rfl, rfl, child, name, found, w₁, hchild, hname, htype, hcopy⟩ := stepGet_cases h
  refine StepEmits.copies (hw.typeOf? htype) hcopy rfl (fun _ => rfl) (fun heq => ?_) rfl
    (by simp [Task.uses])
  obtain rfl : name = x := Operand.var.inj heq
  refine passedVariable?_eq_some.mpr ⟨hconstruct, ?_⟩
  rw [name?, hchild, Option.bind_some, hname]

/-- An assignment in an expression is one to another variable. -/
theorem stepSet_emits (hw : w.Shuns x) (hu : r.Careful x ⟨id, target, n, temps, .set⟩)
    (h : Yields (step cfg t ⟨id, target, n, temps, .set⟩) w (p, u') w') :
    ∃ g?, r.StepEmits x ⟨id, target, n, temps, .set⟩ w p u' w' g? := by
  obtain ⟨construct, -, hinitial, hharmless⟩ := hu.cases
  obtain rfl : construct = .set := by cases construct <;> first | rfl | cases hinitial
  obtain ⟨first, name, hfirst, hname, hcases⟩ := stepSet_cases h
  have hne : name ≠ x := by
    rintro rfl
    exact hharmless (by rw [name?, hfirst, Option.bind_some, hname])
  obtain ⟨-, child, -, rfl, rfl, rfl⟩ | ⟨-, rfl, w₁, hcopy, hrelease⟩ := hcases
  · refine StepEmits.nothing rfl rfl (fun child hp => ?_) (by simp [Task.uses])
    exact absurd (Option.some.inj (Progress.descend.inj hp).2) hne
  · have hassembly := fun hpooled => release_assembly (w := w₁) hpooled hrelease
    obtain ⟨rfl, -⟩ := release_cases hrelease
    exact StepEmits.copies ⟨hw, rfl⟩ hcopy rfl (fun hpooled => congrArg _ (hassembly hpooled))
      (fun heq => absurd (Operand.var.inj heq) hne) rfl (by simp [Task.uses])

theorem stepSequence_emits
    (h : Yields (step cfg t ⟨id, target, n, temps, .sequence⟩) w (p, u') w') :
    ∃ g?, r.StepEmits x ⟨id, target, n, temps, .sequence⟩ w p u' w' g? := by
  obtain ⟨rfl, rfl, ⟨child, hchild, rfl⟩ | ⟨-, rfl⟩⟩ := stepSequence_cases h
  · refine StepEmits.nothing rfl rfl (fun other hp => ?_) (by simp [Task.uses])
    have htarget := (Progress.descend.inj hp).2
    split at htarget
    next hlast => exact ⟨htarget, rfl, hlast⟩
    next => cases htarget
  · exact StepEmits.nothing rfl rfl (by simp) (by simp [Task.uses])

theorem stepCast_emits {value : Option String} (hw : w.Shuns x)
    (hu : r.Careful x ⟨id, target, n, temps, .cast value⟩)
    (h : Yields (step cfg t ⟨id, target, n, temps, .cast value⟩) w (p, u') w') :
    ∃ g?, r.StepEmits x ⟨id, target, n, temps, .cast value⟩ w p u' w' g? := by
  have hvalue : value ≠ some x := by
    rintro rfl
    obtain ⟨-, type, scratch, hfill, -⟩ := hu.uses (List.mem_singleton_self x)
    cases hfill
  obtain ⟨-, inner, type, name, -, hrent, rfl, rfl⟩ | ⟨-, rfl, w₁, hcopies, hrelease⟩ :=
    stepCast_cases h
  · obtain ⟨-, hne, hcode⟩ := hw.rent hrent
    refine StepEmits.nothing hcode rfl (fun child hp => ?_) fun hmem => ?_
    · exact absurd (Option.some.inj (Progress.descend.inj hp).2) hne
    · exact absurd (List.mem_singleton.mp hmem).symm hne
  · have hassembly := fun hpooled => release_assembly (w := w₁) hpooled hrelease
    obtain ⟨rfl, -⟩ := release_cases hrelease
    have huses : x ∉ (Task.cast value).uses := fun hmem => hvalue (Option.mem_toList.mp hmem)
    rcases hcopies with ⟨-, rfl⟩ | ⟨name, rfl, hcopy⟩
    · exact StepEmits.nothing (congrArg _ (hassembly hw.pooled)) rfl (by simp)
        fun hmem => absurd hmem huses
    · refine StepEmits.copies ⟨hw, rfl⟩ hcopy rfl (fun hpooled => congrArg _ (hassembly hpooled))
        (fun heq => ?_) rfl fun hmem => absurd hmem huses
      exact absurd (congrArg some (Operand.var.inj heq)) hvalue

/-- The arguments of a call are in temporaries, but for those that are handed out as they are. -/
theorem stepCall_emits {op : OperationId} {arguments : List Operand} (hat : r.At stack w)
    (hw : w.Shuns x) (hu : r.Careful x ⟨id, target, n, temps, .call op arguments⟩)
    (h : Yields (step cfg t ⟨id, target, n, temps, .call op arguments⟩) w (p, u') w') :
    ∃ g?, r.StepEmits x ⟨id, target, n, temps, .call op arguments⟩ w p u' w' g? := by
  obtain ⟨construct, -, hinitial, hharmless⟩ := hu.cases
  obtain rfl : construct = .call op := by
    cases construct <;> first | cases hinitial; rfl | cases hinitial
  have harguments : x ∉ arguments.filterMap Operand.name? := by
    intro hmem
    obtain ⟨-, type, scratch, hfill, -⟩ := hu.uses hmem
    cases hfill
  have hnext : ∀ name, name ≠ x →
      x ∉ (arguments ++ [Operand.var name]).filterMap Operand.name? := by
    intro name hne hmem
    rw [List.filterMap_append] at hmem
    rcases List.mem_append.mp hmem with hmem | hmem
    · exact harguments hmem
    · exact hne (List.mem_singleton.mp hmem).symm
  -- An argument is handed out as it is, compiled into a temporary, or there are no more of them.
  obtain ⟨argument, hargument, ⟨name, ⟨hdirection, hpassed⟩, rfl, rfl, rfl⟩ |
    ⟨-, type, name, hrent, rfl, rfl⟩⟩ | ⟨-, rfl, operands, u₁, w₁, last, w₂, hcompletes, hcall,
    hrelease⟩ := stepCall_cases h
  · have hne : name ≠ x := by
      rintro rfl
      refine hharmless n (List.getElem?_eq_some_iff.mp hargument).1 hdirection ?_
      rw [hat.passedVariable?_eq] at hpassed
      rw [hargument, Option.bind_some, hpassed]
    exact StepEmits.nothing rfl rfl (by simp) fun hmem => absurd hmem (hnext name hne)
  · obtain ⟨-, hne, hcode⟩ := hw.rent hrent
    refine StepEmits.nothing hcode rfl (fun child hp => ?_) fun hmem => absurd hmem (hnext name hne)
    exact absurd (Option.some.inj (Progress.descend.inj hp).2) hne
  · have hvar : Operand.var x ∉ arguments := fun hmem =>
      harguments (List.mem_filterMap.mpr ⟨_, hmem, rfl⟩)
    obtain ⟨hw₁, hcode, hstores, temps', rfl⟩ := hcompletes.shuns hw hvar
    obtain ⟨slots, happends, hslots⟩ := hw₁.call hcall
    have hassembly := release_assembly (happends.pooled hw₁.pooled) hrelease
    obtain ⟨rfl, -⟩ := release_cases hrelease
    refine ⟨some (.call slots _), (EmitsGroups.ofAppends happends rfl).congr hcode
      (congrArg _ hassembly), ?_, ?_, Or.inl rfl, rfl, by simp, fun hmem => absurd hmem harguments⟩
    · rintro g ⟨⟩ hmem
      exact hstores (hslots hmem)
    · rintro g ⟨⟩ hloads
      exact hloads.elim

/-- An array fill makes the array, or stores an element, and goes on to the next element. -/
theorem stepArrayFill_emits {type : TypeId} {slots : Option (String × String)} (hw : w.Shuns x)
    (hu : r.Careful x ⟨id, target, n, temps, .arrayFill type slots⟩)
    (h : Yields (step cfg t ⟨id, target, n, temps, .arrayFill type slots⟩) w (p, u') w') :
    ∃ g?, r.StepEmits x ⟨id, target, n, temps, .arrayFill type slots⟩ w p u' w' g? := by
  have hslots : ∀ array scratch, slots = some (array, scratch) →
      scratch ≠ x ∧ (array = x → target = some x) := by
    rintro array scratch rfl
    refine ⟨?_, ?_⟩
    · rintro rfl
      obtain ⟨-, type', scratch', hfill, hne⟩ := hu.uses (List.mem_pair.mpr (Or.inr rfl))
      cases hfill
      exact hne rfl
    · rintro rfl
      exact (hu.uses (List.mem_pair.mpr (Or.inl rfl))).1
  obtain ⟨slots', u₁, w₁, hfills, hnext⟩ := stepArrayFill_cases h
  obtain ⟨g?, hemits, hpooled, hstores, hloads, hslots', temps', rfl⟩ := hfills.emits hw hslots
  have hloads' : ∀ g ∈ g?, g.Loads x → passedVariable? t r.before id = some x :=
    fun g hg hx => absurd hx (hloads g hg)
  refine ⟨g?, ?_⟩
  obtain ⟨element, array, scratch, rfl, rfl, rfl, -, rfl⟩ | ⟨rfl, hrelease⟩ := hnext
  · obtain ⟨hne, haims⟩ := hslots' array scratch rfl
    refine ⟨hemits, hstores, hloads', Or.inr (Or.inr ⟨type, slots, rfl⟩), rfl, fun child hp => ?_,
      fun hmem => ?_⟩
    · exact absurd (Option.some.inj (Progress.descend.inj hp).2) hne
    · rcases List.mem_pair.mp hmem with rfl | rfl
      · exact ⟨haims rfl, type, scratch, rfl, hne⟩
      · exact absurd rfl hne
  · have hassembly := release_assembly hpooled hrelease
    obtain ⟨rfl, -⟩ := release_cases hrelease
    exact ⟨hemits.congr rfl (congrArg _ hassembly), hstores, hloads', Or.inl rfl, rfl, by simp,
      hu.uses⟩

/-- A step of a unit at work on an expression that never stores in the variable. -/
theorem At.stepEmits (hat : r.At (u :: rest) w)
    (hx : r.before.assembly.heap.slots.contains x = true) (hu : r.Careful x u)
    (h : Yields (step cfg t u) w (p, u') w') : ∃ g?, r.StepEmits x u w p u' w' g? := by
  have hw := hat.shuns hx
  obtain ⟨construct, -, hinitial, hharmless⟩ := hu.cases
  obtain ⟨id, target, n, temps, task⟩ := u
  cases task with
  | literal => exact stepLiteral_emits hw h
  | get => exact stepGet_emits hw hu h
  | set => exact stepSet_emits hw hu h
  | sequence => exact stepSequence_emits h
  | call op arguments => exact stepCall_emits hat hw hu h
  | cast value => exact stepCast_emits hw hu h
  | typeOf type => exact stepTypeOf_emits hw h
  | arrayFill type slots => exact stepArrayFill_emits hw hu h
  | _ => cases construct <;> first | exact hharmless.elim | cases hinitial

/-- Such a unit stays one. -/
theorem StepEmits.careful (h : r.StepEmits x u w p u' w' g?) (hu : r.Careful x u)
    (hstep : Yields (step cfg t u) w (p, u') w') : r.Careful x u' := by
  obtain ⟨hnode, -, hinitial, -⟩ := step_counts hstep
  exact ⟨hnode ▸ hu.harmless, by rw [hnode, hinitial]; exact hu.construct, h.uses⟩

/-- It descends to such units. -/
theorem Careful.start (hu : r.Careful x u) (hchild : child ∈ t.children u.node)
    (hat : r.At stack w) (hstart : Yields (start t child target) w next w') :
    r.Careful x next ∧ next.node = child ∧ next.target = target := by
  obtain ⟨-, construct, hconstruct, rfl⟩ := start_cases hstart
  have hsame : r.before.construct? child = some construct := by
    rw [construct?, finding, hat.attended.later.findings] at hconstruct
    exact hconstruct
  refine ⟨⟨hu.harmless.of_mem hchild, ⟨construct, hsame, Task.initial_ofConstruct construct⟩, ?_⟩,
    rfl, rfl⟩
  intro hmem
  cases construct <;> cases hmem

/-! ### Units that come to their end

From steps to whole units, by induction on the run. The argument is the same for what is never
stored and for what is never loaded, so it is made once (`Careful.emits_all`). The order of loads
and stores takes an induction of its own (`Careful.loadsFirst`), on the run: what comes before
the last part of a unit has another target, so it stores nothing in the variable. -/

/-- What all steps of such units emit, as long as they keep to some condition on nodes and targets,
is what a whole unit emits. -/
theorem Careful.emits_all {I : NodeId → Option String → Prop} {Q : Group → Prop}
    (hI : ∀ {u w p u' w' g?}, r.StepEmits x u w p u' w' g? → I u.node u.target →
      (∀ g ∈ g?, Q g) ∧ ∀ child ∈ t.children u.node, ∀ target, p = .descend child target →
        I child target)
    (hx : r.before.assembly.heap.slots.contains x = true) (hend : Finishes cfg t u w w')
    (hat : r.At (u :: rest) w) (hu : r.Careful x u) (hIu : I u.node u.target) :
    ∃ gs, EmitsGroups w gs w' ∧ ∀ g ∈ gs, Q g := by
  induction hend generalizing rest with
  | done hstep =>
    obtain ⟨g?, hemits⟩ := hat.stepEmits hx hu hstep
    exact ⟨_, hemits.emitted, fun g hg => (hI hemits hIu).1 g (Option.mem_toList.mp hg)⟩
  | again hstep _ ih =>
    obtain ⟨g?, hemits⟩ := hat.stepEmits hx hu hstep
    obtain ⟨hnode, -⟩ := step_counts hstep
    obtain ⟨gs, hrest, hall⟩ := ih (Reaches.trans hat (.head (.again hstep) (.refl _ _)))
      (hemits.careful hu hstep) (by rw [hnode, hemits.target]; exact hIu)
    refine ⟨_, hemits.emitted.trans hrest, fun g hg => ?_⟩
    exact (List.mem_append.mp hg).elim (fun hg => (hI hemits hIu).1 g (Option.mem_toList.mp hg))
      (hall g)
  | descend hstep hstart hchild hrest ihchild ihrest =>
    obtain ⟨rfl, -⟩ := start_cases hstart
    obtain ⟨g?, hemits⟩ := hat.stepEmits hx hu hstep
    obtain ⟨hnode, -⟩ := step_counts hstep
    obtain ⟨-, hat₁, hat₂, -⟩ := hat.compiles hstep hstart hchild
    have hmem := mem_of_descend hstep
    obtain ⟨hnext, hnode', htarget'⟩ := hu.start hmem hat₁ hstart
    obtain ⟨gs₁, hgs₁, hall₁⟩ := ihchild hat₁ hnext
      (by rw [hnode', htarget']; exact (hI hemits hIu).2 _ hmem _ rfl)
    obtain ⟨gs₂, hgs₂, hall₂⟩ := ihrest hat₂ (hemits.careful hu hstep)
      (by rw [hnode, hemits.target]; exact hIu)
    refine ⟨_, hemits.emitted.trans (hgs₁.trans hgs₂), fun g hg => ?_⟩
    rcases List.mem_append.mp hg with hg | hg
    · exact (hI hemits hIu).1 g (Option.mem_toList.mp hg)
    · exact (List.mem_append.mp hg).elim (hall₁ g) (hall₂ g)

/-- A unit with another target never stores in the variable. -/
theorem Careful.not_stores (hx : r.before.assembly.heap.slots.contains x = true)
    (hend : Finishes cfg t u w w') (hat : r.At (u :: rest) w) (hu : r.Careful x u)
    (htarget : u.target ≠ some x) : ∃ gs, EmitsGroups w gs w' ∧ ∀ g ∈ gs, ¬ g.Stores x := by
  refine Careful.emits_all (I := fun _ target => target ≠ some x) (Q := fun g => ¬ g.Stores x) ?_ hx
    hend hat hu htarget
  intro u w p u' w' g? hemits hne
  refine ⟨fun g hg hstores => hne (hemits.stores g hg hstores), ?_⟩
  rintro child - _ hp rfl
  exact hne (hemits.aims child hp).1

/-- A unit below which the variable is not read never loads from it. -/
theorem Careful.not_loads (hx : r.before.assembly.heap.slots.contains x = true)
    (hend : Finishes cfg t u w w') (hat : r.At (u :: rest) w) (hu : r.Careful x u)
    (hreads : ¬ ReadsIn t r.before x u.node) :
    ∃ gs, EmitsGroups w gs w' ∧ ∀ g ∈ gs, ¬ g.Loads x := by
  refine Careful.emits_all (I := fun id _ => ¬ ReadsIn t r.before x id)
    (Q := fun g => ¬ g.Loads x) ?_ hx hend hat hu hreads
  intro u w p u' w' g? hemits hnot
  refine ⟨fun g hg hloads => hnot ⟨u.node, .refl, hemits.loads g hg hloads⟩, ?_⟩
  rintro child hchild - -
  exact fun h => hnot (h.of_child hchild)

/-- An array that does not read the variable may be made in it. -/
theorem Careful.loadsFirst_fill (hx : r.before.assembly.heap.slots.contains x = true)
    (hend : Finishes cfg t u w w') (hat : r.At (u :: rest) w) (hu : r.Careful x u)
    (hfills : ¬ FillsFrom t r.before x u.node) {type : TypeId} {slots : Option (String × String)}
    (htask : u.task = .arrayFill type slots) :
    ∃ gs, EmitsGroups w gs w' ∧ Group.LoadsFirst x gs := by
  obtain ⟨construct, hconstruct, hinitial⟩ := hu.construct
  rw [htask] at hinitial
  obtain rfl : construct = .arrayFill type := by
    cases construct <;> first | cases hinitial; rfl | cases hinitial
  obtain ⟨gs, hgs, hloads⟩ := Careful.not_loads hx hend hat hu fun hreads =>
    hfills ⟨u.node, type, .refl, hconstruct, hreads⟩
  exact ⟨gs, hgs, .of_not_loads hloads⟩

/-- A unit whose target is the variable loads from it before it stores there. -/
theorem Careful.loadsFirst (hx : r.before.assembly.heap.slots.contains x = true)
    (hend : Finishes cfg t u w w') (hat : r.At (u :: rest) w) (hu : r.Careful x u)
    (htarget : u.target = some x) (hfills : ¬ FillsFrom t r.before x u.node) :
    ∃ gs, EmitsGroups w gs w' ∧ Group.LoadsFirst x gs := by
  induction hend generalizing rest with
  | done hstep =>
    obtain ⟨g?, hemits⟩ := hat.stepEmits hx hu hstep
    exact ⟨_, hemits.emitted, .toList g?⟩
  | again hstep hrest ih =>
    obtain ⟨g?, hemits⟩ := hat.stepEmits hx hu hstep
    obtain ⟨hnode, -⟩ := step_counts hstep
    obtain hp | rfl | ⟨type, slots, htask⟩ := hemits.early
    · cases hp
    · obtain ⟨gs, hgs, hfirst⟩ := ih (Reaches.trans hat (.head (.again hstep) (.refl _ _)))
        (hemits.careful hu hstep) (hemits.target.trans htarget) (hnode ▸ hfills)
      exact ⟨gs, hemits.emitted.trans hgs, hfirst⟩
    · exact Careful.loadsFirst_fill hx (.again hstep hrest) hat hu hfills htask
  | @descend u u' next w w₁ w₂ w₃ w' child slot hstep hstart hchild hrest ihchild ihrest =>
    obtain ⟨g?, hemits⟩ := hat.stepEmits hx hu hstep
    -- What is emitted before the child is nothing, unless an array is filled in the variable.
    obtain hp | rfl | ⟨type, slots, htask⟩ := hemits.early
    · cases hp
    swap
    · exact Careful.loadsFirst_fill hx (.descend hstep hstart hchild hrest) hat hu hfills htask
    obtain ⟨rfl, -⟩ := start_cases hstart
    obtain ⟨hnode, hcount, hinitial, -⟩ := step_counts hstep
    obtain ⟨-, hat₁, hat₂, -⟩ := hat.compiles hstep hstart hchild
    have hmem := mem_of_descend hstep
    obtain ⟨hnext, hnode', htarget'⟩ := hu.start hmem hat₁ hstart
    by_cases hslot : slot = some x
    · -- Only a sequence hands the variable down, to its last item.
      subst hslot
      obtain ⟨-, htask, hlast⟩ := hemits.aims child rfl
      obtain ⟨hitem, rfl⟩ := last_of_sequence htask hlast hstep hrest
      obtain ⟨construct, hconstruct, hinitial⟩ := hu.construct
      rw [htask] at hinitial
      obtain rfl : construct = .sequence := by cases construct <;> first | rfl | cases hinitial
      obtain ⟨gs, hgs, hfirst⟩ := ihchild hat₁ hnext htarget' fun hfrom =>
        hfills ((hnode' ▸ hfrom).of_last hconstruct hitem)
      exact ⟨gs, hemits.emitted.trans hgs, hfirst⟩
    · -- All that is read of the variable here is read before it is stored in.
      obtain ⟨gs₁, hgs₁, hquiet⟩ := Careful.not_stores hx hchild hat₁ hnext (htarget' ▸ hslot)
      obtain ⟨gs₂, hgs₂, hfirst⟩ := ihrest hat₂ (hemits.careful hu hstep)
        (hemits.target.trans htarget) (hnode ▸ hfills)
      exact ⟨gs₁ ++ gs₂, hemits.emitted.trans (hgs₁.trans hgs₂), .append hquiet hfirst⟩

/-! ### Assignments -/

/-- Straight code stays as it is to the end. -/
theorem At.codeAt {gs : List Group} (h : r.At stack w') (hgs : EmitsGroups w gs w') :
    CodeAt r.after.assembly.instructions w.assembly.instructions.length
        (gs.flatMap Group.instructions) ∧
      w'.assembly.instructions.length =
        w.assembly.instructions.length + (gs.flatMap Group.instructions).length := by
  refine ⟨fun k i hi => ?_, by rw [hgs.code, List.length_append]⟩
  have hget : w'.assembly.instructions[w.assembly.instructions.length + k]? = some i := by
    rw [hgs.code, List.getElem?_append_right (Nat.le_add_right _ _), Nat.add_sub_cancel_left, hi]
  obtain ⟨i', hi', rfl | ⟨target, htarget⟩⟩ :=
    (h.onward.finishAll.later h.vocabulary).code _ _ hget
  · exact hi'
  · obtain ⟨g, hg, hmem⟩ := List.mem_flatMap.mp (List.mem_of_getElem? hi)
    rw [Group.retarget?_eq_none (hgs.straight g hg) hmem] at htarget
    cases htarget

/-- The code of an assignment is that of its right side, with the variable as the target, and a copy
of the variable to the target of the assignment. All copies from the variable in the former are
those of `$(x)`. -/
theorem Spans.assignment {lo hi : Nat} (h : r.Spans id target lo hi)
    (hconstruct : r.before.construct? id = some .set) (hname : name? t id = some x) :
    ∃ e mid, (t.children id)[1]? = some e ∧ r.Spans e (some x) lo mid ∧
      CodeAt r.after.assembly.instructions mid (copyCode x target) ∧
      hi = mid + (copyCode x target).length ∧
      (NeverStores cfg t r.before x e → ReadsIn t r.before x e → ¬ FillsFrom t r.before x e →
        ∃ gs : List Group,
          CodeAt r.after.assembly.instructions lo (gs.flatMap Group.instructions) ∧
          mid = lo + (gs.flatMap Group.instructions).length ∧ Group.LoadsFirst x gs) := by
  obtain ⟨w, w', ⟨u, rest, hat, hstart, hend⟩, rfl, rfl⟩ := h
  obtain rfl := hat.start_eq hstart hconstruct
  -- The right side.
  obtain ⟨p, u', w₁, hstep, hrest⟩ := hend.step_cases
  obtain ⟨first, name, hfirst, hname', ⟨-, e, he, rfl, rfl, rfl⟩ | ⟨hzero, -⟩⟩ :=
    stepSet_cases hstep
  swap
  · exact absurd rfl hzero
  obtain rfl : name = x := by
    rw [name?, hfirst, Option.bind_some, hname'] at hname
    exact Option.some.inj hname
  obtain ⟨hp, -⟩ | ⟨hp, -⟩ | ⟨child, slot, next, w₂, hp, hnext, hchild, hrest⟩ := hrest
  · cases hp
  · cases hp
  obtain ⟨rfl, rfl⟩ := Progress.descend.inj hp
  obtain ⟨hcompiles, hat₁, hat₂, -⟩ := hat.compiles hstep hnext hchild
  -- The copy.
  obtain ⟨p, u', w₃, hstep', hrest'⟩ := hrest.step_cases
  obtain ⟨first', name', hfirst', hname'', ⟨hzero, -⟩ | ⟨-, rfl, w₄, hcopy, hrelease⟩⟩ :=
    stepSet_cases hstep'
  · cases hzero
  obtain rfl := Option.some.inj (hfirst.symm.trans hfirst')
  obtain rfl := Option.some.inj (hname'.symm.trans hname'')
  obtain ⟨-, rfl⟩ | ⟨hp, -⟩ | ⟨_, _, _, _, hp, -⟩ := hrest'
  rotate_left
  · cases hp
  · cases hp
  have hcopied : EmitsGroups w₂ (target.map (Group.copy name)).toList w₃ := by
    obtain ⟨slot, hslot, happends⟩ := Appends.copyToTarget hat₂.vocabulary.sound hcopy
    refine ⟨?_, by cases target <;> simp [Group.isStraight]⟩
    rw [release_assembly (happends.pooled hat₂.vocabulary.pooled) hrelease, happends.code_eq,
      ← copyCode_eq]
    cases target with
    | none => rfl
    | some _ => rw [show slot = name from hslot rfl]
  obtain ⟨hcode, hlength⟩ := (hat₂.finish hrest).codeAt hcopied
  rw [← copyCode_eq] at hcode hlength
  refine ⟨e, w₂.assembly.instructions.length, he, ⟨w, w₂, hcompiles, rfl, rfl⟩, hcode, hlength,
    fun hnever hreads hfills => ?_⟩
  obtain ⟨-, construct, hconstruct', rfl⟩ := start_cases hnext
  rw [construct?, finding, hat₁.attended.later.findings] at hconstruct'
  have hcareful : r.Careful name ⟨e, some name, 0, [], .ofConstruct construct⟩ := by
    refine ⟨hnever, ⟨construct, hconstruct', Task.initial_ofConstruct construct⟩, fun hmem => ?_⟩
    cases construct <;> cases hmem
  obtain ⟨gs, hgs, hloads⟩ := Careful.loadsFirst (hreads.contains r.prepared) hchild hat₁ hcareful
    rfl hfills
  obtain ⟨hcode, hlength⟩ := hat₂.codeAt hgs
  exact ⟨gs, hcode, hlength, hloads⟩

end WholeRun

/-- In a program that compiles, the right side of an assignment sees the old value of the variable:
all copies of the variable that it makes come before the variable may change, unless the value is an
array that is filled from the variable. -/
theorem Program.compile_assignment {cfg : Setting} {source : String} {p : Program}
    (h : Program.compile cfg source = .ok p) :
    ∃ t, ∃ r : WholeRun cfg t, Program.Stages cfg source p t r.before r.after ∧
      ∀ id target x, r.before.construct? id = some .set → name? t id = some x →
        ∀ u rest w, r.At (u :: rest) w → Yields (start t id target) w u w →
          ∃ e mid hi, (t.children id)[1]? = some e ∧
            r.Spans id target w.assembly.instructions.length hi ∧
            r.Spans e (some x) w.assembly.instructions.length mid ∧
            CodeAt r.after.assembly.instructions mid (copyCode x target) ∧
            hi = mid + (copyCode x target).length ∧
            (NeverStores cfg t r.before x e → ReadsIn t r.before x e →
              ¬ FillsFrom t r.before x e →
                ∃ gs : List Group,
                  CodeAt r.after.assembly.instructions w.assembly.instructions.length
                    (gs.flatMap Group.instructions) ∧
                  mid = w.assembly.instructions.length +
                    (gs.flatMap Group.instructions).length ∧
                  Group.LoadsFirst x gs) := by
  obtain ⟨t, before, after, hstages⟩ := Program.compile_stages h
  obtain ⟨tree, -, hholds⟩ := Tree.read?_ok (Tree.read_eq_ok_iff.mp hstages.read)
  obtain ⟨first, hstart, hend⟩ := generate_cases hholds hstages.generated
  refine ⟨t, ⟨before, first, after, Program.resolved_prepared hstages.resolved, hstart, hend⟩,
    hstages, fun id target x hconstruct hname u rest w hat hunit => ?_⟩
  obtain ⟨hi, hspans⟩ := hat.spans hunit
  obtain ⟨e, mid, he, hright, hcode, rfl, hloads⟩ := hspans.assignment hconstruct hname
  exact ⟨e, mid, _, he, hspans, hright, hcode, rfl, hloads⟩

/-- The variable is read for an array that is dropped, and then for the value. -/
theorem Program.compile_assignment_dropped : ∃ p t, ∃ r : WholeRun ⟨Catalog.empty, false⟩ t,
    Program.compile ⟨Catalog.empty, false⟩
        "=(__returnValue,(ToObjectArray($(__returnValue)),!SystemObject($(__returnValue))))" =
      .ok p ∧
    Program.Stages ⟨Catalog.empty, false⟩
        "=(__returnValue,(ToObjectArray($(__returnValue)),!SystemObject($(__returnValue))))"
        p t r.before r.after ∧
    ∃ e gs, (t.children Tree.root)[1]? = some e ∧
      NeverStores ⟨Catalog.empty, false⟩ t r.before Catalog.returnValue e ∧
      ReadsIn t r.before Catalog.returnValue e ∧ ¬ FillsFrom t r.before Catalog.returnValue e ∧
      CodeAt r.after.assembly.instructions 0 (gs.flatMap Group.instructions) ∧
      Group.LoadsFirst Catalog.returnValue gs := by
  have hrun : ((Program.compile ⟨Catalog.empty, false⟩
      "=(__returnValue,(ToObjectArray($(__returnValue)),!SystemObject($(__returnValue))))"
      ).toOption.map fun _ => ()) = some () := by
    decide +kernel
  obtain ⟨p, hp, -⟩ := exists_ok_of_map hrun
  obtain ⟨t, r, hstages, hassignments⟩ := Program.compile_assignment hp
  have hnodes : (Tree.read
      "=(__returnValue,(ToObjectArray($(__returnValue)),!SystemObject($(__returnValue))))"
      ).toOption.all fun t =>
        (Program.resolved ⟨Catalog.empty, false⟩ t).toOption.all fun w => decide (
        (w.construct? Tree.root = some .set ∧ name? t Tree.root = some Catalog.returnValue ∧
          (t.children Tree.root)[1]? = some 2) ∧
        (∀ id ∈ [2, 3, 4, 5, 6, 7, 8], (∀ child ∈ t.children id, child ∈ [3, 4, 5, 6, 7, 8]) ∧
          ∀ construct ∈ w.construct? id,
            Harmless ⟨Catalog.empty, false⟩ t w Catalog.returnValue id construct) ∧
        (6 ∈ t.children 2 ∧ 7 ∈ t.children 6 ∧
          passedVariable? t w 7 = some Catalog.returnValue) ∧
        w.construct? 2 = some .sequence ∧ (t.children 2).getLast? = some 6 ∧
          w.construct? 6 = some (.cast TypeTable.object)) := by
    decide +kernel
  rw [hstages.read, Except.toOption, Option.all_some, hstages.resolved, Except.toOption,
    Option.all_some, decide_eq_true_iff] at hnodes
  obtain ⟨⟨hset, hname, he⟩, hbelow, ⟨hsix, hseven, hreads⟩, htwo, hlast, hcast⟩ := hnodes
  have hnever : NeverStores ⟨Catalog.empty, false⟩ t r.before Catalog.returnValue 2 := by
    intro id hid construct hconstruct
    have hmem : id ∈ [2, 3, 4, 5, 6, 7, 8] := hid.mem (by decide) fun id hid child hchild =>
      List.mem_cons_of_mem _ ((hbelow id hid).1 child hchild)
    exact (hbelow id hmem).2 construct hconstruct
  have hread : ReadsIn t r.before Catalog.returnValue 2 :=
    ⟨7, .head hsix (.single hseven), hreads⟩
  have hfills : ¬ FillsFrom t r.before Catalog.returnValue 2 := by
    rintro ⟨fill, type, htail, hfill, -⟩
    have hmem : fill ∈ [2, 6] := by
      refine htail.mem (by decide) fun id hid hsequence item hitem => ?_
      rcases List.mem_pair.mp hid with rfl | rfl
      · rw [hlast] at hitem
        exact List.mem_pair.mpr (Or.inr (Option.some.inj hitem).symm)
      · cases hcast.symm.trans hsequence
    rcases List.mem_pair.mp hmem with rfl | rfl
    · cases htwo.symm.trans hfill
    · cases hcast.symm.trans hfill
  have hstart : r.At [r.first] r.before := .refl _ _
  obtain ⟨e, mid, hi, he', -, -, -, -, hloads⟩ :=
    hassignments _ _ _ hset hname r.first [] r.before hstart r.started
  obtain rfl := Option.some.inj (he.symm.trans he')
  obtain ⟨gs, hcode, -, hfirst⟩ := hloads hnever hread hfills
  rw [r.prepared.unstarted.length_instructions] at hcode
  exact ⟨p, t, r, hp, hstages, 2, gs, he, hnever, hread, hfills, hcode, hfirst⟩

/-- An array that is filled from the variable is made in it before the old value is read. -/
example : ((Tree.read "=(__returnValue,ToObjectArray($(__returnValue)))").toOption.bind fun t =>
    (Program.generated ⟨Catalog.empty, false⟩ t).toOption.map fun w =>
      w.assembly.instructions.take 7) = some (List.flatMap Group.instructions
    [.call ["__const_Type_SystemObject", "__const_Int32_1", "__returnValue"] Manifest.arrayCreate,
      .copy "__returnValue" "__temp_SystemObject_0"]) := by
  decide +kernel

end SexprAsm
