import SexprAsm.Proofs.Generation.Changes
import SexprAsm.Proofs.Generation.Shapes
import SexprAsm.Proofs.Generation.Twins
import SexprAsm.Proofs.Resolution.BottomUp

/-!
# Filling an array through a cast

An array that is filled straight in the slot of a variable, and one that is filled in a temporary of
its own type, which is then copied to the variable, because it stands in a cast. The first goes
through if the array operations take the variable, the second one if they take the temporary and the
variable is compatible with the type of the array. Where these conditions agree, one assignment
compiles if the other one does (`Variation.Straight.compiles_site`, `Variation.Cast.compiles_site`).

A variable without a slot is made by both, by the operation that makes the array or by the copy.
It then has the type that the one or the other gives it, and neither refuses it.
-/

namespace SexprAsm

open Generation

/-! ## Assignments and casts

A unit is resumed after each step (`resume_eq`). For an assignment and for a cast this comes to a
few actions in a row, with the value below in the middle (`compileNode_set`, `compileNode_cast`),
and these are what the two compilations are compared by. -/

namespace Generation

variable {cfg : Setting} {t : Tree} {id a b : NodeId} {x : String} {target : Option String}
  {w w' : Workspace} {u : WorkUnit} {c : Catalog} {type other : TypeId}

/-- How the unit of an assignment or a cast ends: its value is copied to its target. -/
def passOn (cfg : Setting) (u : WorkUnit) (x : String) : Compile WorkUnit := do
  copyToTarget cfg u (.var x)
  release u

/-- A unit whose step is its last one. -/
theorem resume_done (ht : t.Linked) {act : Compile WorkUnit}
    (h : step cfg t u = do return (Progress.done, ← act)) :
    resume cfg ht u = do
      let _ ← Compilation.at u.node act
      return () := by
  rw [resume_eq, h]
  funext w
  simp only [Compilation.at, EStateM.adaptExcept, bind, EStateM.bind, Pure.pure, EStateM.pure]
  cases act w <;> rfl

/-- A unit whose step goes to a child. -/
theorem resume_descend (ht : t.Linked) {α : Type} {act : Compile α} {child : NodeId}
    {slot : α → String} {next : α → WorkUnit}
    (h : step cfg t u w = (do
      let r ← act
      return (Progress.descend child (some (slot r)), next r)) w) :
    resume cfg ht u w = (do
      let r ← Compilation.at u.node act
      compileNode cfg ht child (some (slot r))
      resume cfg ht (next r)) w := by
  rw [resume_eq]
  simp only [Compilation.at, EStateM.adaptExcept, bind, EStateM.bind, Pure.pure, EStateM.pure] at h ⊢
  rw [h]
  cases act w <;> rfl

theorem compileNode_start (ht : t.Linked) {construct : Construct}
    (hconstruct : w.construct? id = some construct) (target : Option String) :
    compileNode cfg ht id target w = resume cfg ht ⟨id, target, 0, [], .ofConstruct construct⟩ w := by
  have hstart : Compilation.at id (start t id target) w =
      .ok ⟨id, target, 0, [], .ofConstruct construct⟩ w := by
    refine Compilation.at_iff.mpr (Yields.bind_iff.mpr ⟨w, w, rfl, ?_⟩)
    rw [hconstruct]
    rfl
  rw [compileNode_eq, bind_of_yields hstart]

/-- An assignment compiles its right side into its variable, and hands the variable on. -/
theorem compileNode_set (ht : t.Linked) (hchildren : t.children id = [a, b])
    (hname : t.Named a x) (hconstruct : w.construct? id = some .set) (target : Option String) :
    compileNode cfg ht id target w = (do
      compileNode cfg ht b (some x)
      let _ ← Compilation.at id (passOn cfg ⟨id, target, 2, [], .set⟩ x)
      return ()) w := by
  have hfirst : childAt t id 0 Keyword.set = pure a := childAt_eq (by rw [hchildren]; rfl) _
  have hsecond : childAt t id 1 Keyword.set = pure b := childAt_eq (by rw [hchildren]; rfl) _
  have hdescend : step cfg t ⟨id, target, 0, [], .set⟩ = (do
      let r ← pure x
      return (Progress.descend b (some r), ⟨id, target, 1, [], .set⟩)) := by
    simp only [step, stepSet, hfirst, hsecond, Compile.nameAt_eq hname, pure_bind, if_true]
  have hdone : step cfg t ⟨id, target, 1, [], .set⟩ = (do
      return (Progress.done, ← passOn cfg ⟨id, target, 2, [], .set⟩ x)) := by
    simp only [step, stepSet, hfirst, Compile.nameAt_eq hname, pure_bind, passOn, bind_assoc,
      Nat.one_ne_zero, if_false]
  rw [compileNode_start ht hconstruct, Task.ofConstruct,
    resume_descend ht (congrFun hdescend w), resume_done ht hdone]
  rfl

/-- A cast compiles its value into a temporary, which it hands on. -/
theorem compileNode_cast (ht : t.Linked) (hchildren : t.children id = [b])
    (hconstruct : w.construct? id = some (.cast other)) (htype : w.nodeType? b = some type)
    (target : Option String) :
    compileNode cfg ht id target w = (do
      let slot ← Compilation.at id (Compile.build (Build.rent cfg type))
      compileNode cfg ht b (some slot)
      let _ ← Compilation.at id (passOn cfg ⟨id, target, 2, [slot], .cast (some slot)⟩ slot)
      return ()) w := by
  have hinner : ∀ s, childAt t id 0 s = pure b := fun s => childAt_eq (by rw [hchildren]; rfl) s
  -- Two steps: the first one rents the slot and goes to the child, the second one copies.
  have hdescend : step cfg t ⟨id, target, 0, [], .cast none⟩ w = (do
      let slot ← Compile.build (Build.rent cfg type)
      return (Progress.descend b (some slot),
        WorkUnit.mk id target 1 [slot] (.cast (some slot)))) w := by
    have htypeAt : Yields (typeAt t b) w type w := by
      refine Yields.bind_iff.mpr ⟨w, w, rfl, ?_⟩
      rw [htype]
      rfl
    simp only [step, stepCast, hinner, pure_bind, if_true]
    rw [bind_of_yields htypeAt]
    simp only [rent, bind_assoc, pure_bind, List.nil_append]
  have hdone : ∀ slot, step cfg t ⟨id, target, 1, [slot], .cast (some slot)⟩ = (do
      return (Progress.done, ← passOn cfg ⟨id, target, 2, [slot], .cast (some slot)⟩ slot)) := by
    intro slot
    simp only [step, stepCast, passOn, bind_assoc, Nat.one_ne_zero, if_false]
  rw [compileNode_start ht hconstruct, Task.ofConstruct, resume_descend ht hdescend]
  simp only [resume_done ht (hdone _)]

/-! ## What filling an array takes

The two operations are calls whose checks look at the slot. Once the slot is there, a call that
goes through has admitted its type (`Emit.takes_of_call`), so an array that has been filled fits
its slot (`fillsAt_of_compileNode`). Where this fails, the first compilation does, and there is
nothing to show. -/

/-- A node that compiles keeps the slots that there are. -/
theorem extends_of_compileNode (ht : t.Linked)
    (h : Yields (compileNode cfg ht id target) w () w') :
    w.assembly.heap.Extends w'.assembly.heap := by
  rw [compileNode_eq] at h
  obtain ⟨u, w₁, hstart, hresume⟩ := Yields.bind_iff.mp h
  obtain ⟨rfl, -⟩ := start_cases (Compilation.at_iff.mp hstart)
  have hall : Yields (resumeAll cfg ht [u]) w () w' :=
    Yields.bind_iff.mpr ⟨(), w', hresume, rfl⟩
  rw [Yields, ← run_eq_resumeAll ht (Nat.le_refl _)] at hall
  exact Workspace.Proceeds.extends ((run_changes _ _).of_yields hall)

end Generation

namespace Emit

variable {a a₁ : Assembly} {id : InstructionId} {name x : String} {operands : List Operand}
  {c : Catalog} {type : TypeId} {n : Nat}

/-- A variable that has its slot before a call fits its parameter. -/
theorem takes_of_call (h : Yields (call ⟨c, true⟩ name operands) a id a₁)
    (hx : operands[n]? = some (.var x)) (hkind : a.heap.kind? x = some (type, false)) :
    c.Takes name n type := by
  obtain ⟨arguments, a₂, op, a₃, hslots, hop, hlength, hchecked, hafter⟩ := call_stages rfl h
  have hslot := slots_getElem? hslots hx
  obtain ⟨hn, -⟩ := List.getElem?_eq_some_iff.mp hslot
  have hp := List.getElem?_eq_getElem (hlength ▸ hn)
  obtain ⟨v, hv, hadmits⟩ := argument_admits hlength hchecked hafter hslot hp
  have hext₂ := Assembly.extends_of_changes ((slots_edits operands).changes.of_yields hslots)
  have hext := Assembly.extends_of_changes ((call_changes name operands).of_yields h)
  obtain ⟨v', hv', htype, hconstant⟩ := Heap.kind?_eq_some.mp (hext.kind? hkind)
  obtain rfl := Option.some.inj (hv.symm.trans hv')
  refine ⟨op, _, hop, hp, ?_⟩
  rcases hadmits with hadmits | ⟨hmissing, -⟩
  · exact hadmits.congr (by rw [htype, hconstant])
  · have hthere := hext₂.kind? hkind
    rw [Heap.kind?_eq_none.mpr hmissing] at hthere
    cases hthere

end Emit

namespace Generation

variable {t : Tree} {id : NodeId} {x : String} {w w' : Workspace} {c : Catalog} {type other : TypeId}

/-- An array that has been made in a slot, and filled there, fits the slot. -/
theorem fillsAt_of_compileNode (ht : t.Linked) (hconstruct : w.construct? id = some (.arrayFill other))
    (hkind : w.assembly.heap.kind? x = some (type, false))
    (h : Yields (compileNode ⟨c, true⟩ ht id (some x)) w () w') :
    c.FillsAt type (t.children id).length := by
  rw [Yields, compileNode_start ht hconstruct, resume_eq] at h
  obtain ⟨⟨p, u⟩, w₁, hstep, hrest⟩ := Yields.bind_iff.mp h
  have hkind₁ := (Workspace.Proceeds.extends
    (step_changes.of_yields (Compilation.at_iff.mp hstep))).kind? hkind
  replace hstep : Yields (makeArray ⟨c, true⟩ (t.children id)
      ⟨id, some x, 1, [], .arrayFill other none⟩ other x) w (p, u) w₁ := Compilation.at_iff.mp hstep
  simp only [makeArray, Yields.bind_iff] at hstep
  obtain ⟨⟨scratch, u₁⟩, w₂, hrent, length, w₃, hlength, _, w₄, hcall, ⟨slots, u₂⟩, w₅, hpair,
    hnext⟩ := hstep
  obtain ⟨hslots, rfl⟩ := Yields.pure_iff.mp hpair
  obtain ⟨rfl, rfl⟩ := Prod.mk.inj hslots
  obtain rfl := ofExcept_cases hlength
  have hkind₂ := (Workspace.Proceeds.extends ((rent_changes _).of_yields hrent)).kind? hkind
  obtain ⟨hrented, rfl⟩ := rent_cases hrent
  obtain ⟨a₄, hcalled, rfl⟩ := Compile.emit_iff.mp hcall
  refine ⟨Emit.takes_of_call (n := 2) hcalled rfl hkind₂, fun hcount => ?_⟩
  -- The first element is compiled next, and then stored.
  obtain ⟨child, children, hchildren⟩ := List.exists_cons_of_ne_nil
    (fun hnil => hcount (by rw [hnil]; rfl) : t.children id ≠ [])
  rw [hchildren] at hnext
  obtain ⟨hdescend, rfl⟩ := Yields.pure_iff.mp hnext
  obtain ⟨rfl, rfl⟩ := Prod.mk.inj hdescend
  obtain ⟨_, w₅, hchild, hresume⟩ := Yields.bind_iff.mp hrest
  have hkind₅ := (extends_of_compileNode ht hchild).kind? hkind₁
  rw [resume_eq] at hresume
  obtain ⟨⟨p, u⟩, w₆, hsecond, -⟩ := Yields.bind_iff.mp hresume
  replace hsecond : Yields (stepArrayFill ⟨c, true⟩ t 1
      ⟨id, some x, 2, [scratch], .arrayFill other (some (x, scratch))⟩ other (some (x, scratch)))
      _ (p, u) w₆ := Compilation.at_iff.mp hsecond
  obtain ⟨slots, _, w₇, hfills, -⟩ := stepArrayFill_cases hsecond
  rcases hfills with ⟨hzero, -⟩ | ⟨array, _, index, _, hslots, -, -, hset⟩ | ⟨hnone, -⟩
  · cases hzero
  · obtain ⟨rfl, -⟩ := Prod.mk.inj (Option.some.inj hslots)
    obtain ⟨a₆, hstored, rfl⟩ := Compile.emit_iff.mp hset
    exact Emit.takes_of_call (n := 0) hstored rfl hkind₅
  · cases hnone

end Generation

/-! ## Copying what has been filled

An array that has been filled in a temporary is copied to the variable that is assigned. The slot
of the variable is there, and then its type decides, or the copy makes it
(`Emit.checkSlot_target`). Only one of the two compilations does so, so its code is added on one
side of the invariant (`Alike.append_first`, `Alike.append_second`). -/

/-- An assembly after a copy from a slot to another one. -/
def Assembly.copied (a : Assembly) (y x : String) : Assembly :=
  ((a.append (.push y)).append (.push x)).append .copy

theorem Assembly.keeps_copied (a : Assembly) (y x : String) : a.Keeps (a.copied y x) :=
  (Keeps.append a _).trans ((Keeps.append _ _).trans (Keeps.append _ _))

namespace Emit

variable {cfg : Setting} {a : Assembly} {x y : String} {v u : Variable} {type : TypeId}

/-- A slot of a compatible type passes its check. -/
theorem checkSlot_of_compatible (hempty : x.isEmpty = false) (hv : a.heap.slots.get? x = some v)
    (hcompatible : cfg.catalog.types.isCompatible v.type type = true) :
    Yields (checkSlot cfg x (some type) false) a () a := by
  simp only [checkSlot, hempty, Bool.false_eq_true, if_false]
  refine Yields.bind_iff.mpr ⟨some v.type, a,
    onHeap_iff.mpr ⟨a.heap, Heap.typeOf?_of_slot hv, rfl⟩, ?_⟩
  simp only [hcompatible, Bool.not_true, Bool.and_false, Bool.false_eq_true, if_false]
  rfl

variable {T : Twins} {A : TypeId} {constant : Bool}

/-- The slot of the variable passes its check, or is made. -/
theorem checkSlot_target (horderly : a.heap.Orderly T.catalog) (hx : T.target.isEmpty = false)
    (hholds : T.Holds A (a.heap.kind? T.target))
    (hcompatible : T.catalog.types.isCompatible A type = true) (hnew : T.Loose → A = type) :
    ∃ heap, Yields (checkSlot T.setting T.target (some type) false) a () { a with heap := heap } ∧
      heap.Orderly T.catalog ∧ a.heap.Extends heap ∧ heap.kind? T.target = some (A, false) ∧
      ∀ name, T.shared name → heap.kind? name = a.heap.kind? name := by
  rcases hholds with hkind | ⟨hloose, hmissing⟩
  · obtain ⟨v, hv, rfl, -⟩ := Heap.kind?_eq_some.mp hkind
    exact ⟨a.heap, checkSlot_of_compatible hx hv hcompatible, horderly, .refl _, hkind, fun _ _ => rfl⟩
  · obtain rfl := hnew hloose
    obtain ⟨heap, hdefine, hrest⟩ := define_target A horderly hx hloose hmissing
    refine ⟨heap, ?_, hrest⟩
    have htype : a.heap.typeOf? T.catalog T.target = .ok (none, a.heap) := by
      rw [Heap.typeOf?_of_ordinary (T.predefined_eq_none hloose), Heap.kind?_eq_none.mp hmissing,
        Option.map_none]
    simp only [checkSlot, hx, Bool.false_eq_true, if_false]
    exact Yields.bind_iff.mpr ⟨none, a, onHeap_iff.mpr ⟨a.heap, htype, rfl⟩, hdefine⟩

/-- A copy to the variable emits its code, and makes the slot if it is missing. -/
theorem copy_target (horderly : a.heap.Orderly T.catalog) (hy : y.isEmpty = false)
    (hkind : a.heap.kind? y = some (type, constant)) (hx : T.target.isEmpty = false)
    (hholds : T.Holds A (a.heap.kind? T.target))
    (hcompatible : T.catalog.types.isCompatible A type = true) (hnew : T.Loose → A = type) :
    ∃ id heap,
      Yields (copy T.setting (.var y) T.target) a id ({ a with heap := heap }.copied y T.target) ∧
      heap.Orderly T.catalog ∧ a.heap.Extends heap ∧ heap.kind? T.target = some (A, false) ∧
      ∀ name, T.shared name → heap.kind? name = a.heap.kind? name := by
  obtain ⟨v, hv, rfl, -⟩ := Heap.kind?_eq_some.mp hkind
  have hpush : Yields (pushSlot T.setting y none false) a a.lines.size (a.append (.push y)) :=
    Yields.bind_iff.mpr ⟨(), a, checkSlot_of_contains hy (OrderedMap.contains_iff.mpr ⟨v, hv⟩), rfl⟩
  obtain ⟨heap, hcheck, hrest⟩ := checkSlot_target (a := a.append (.push y)) horderly hx hholds
    hcompatible hnew
  let pushed := ({ a with heap := heap }.append (.push y)).append (.push T.target)
  have hpush' : Yields (pushSlot T.setting T.target (some v.type) false) (a.append (.push y))
      (a.append (.push y)).lines.size pushed := Yields.bind_iff.mpr ⟨(), _, hcheck, rfl⟩
  refine ⟨pushed.lines.size, heap, Yields.bind_iff.mpr ⟨y, a, rfl,
    Yields.bind_iff.mpr ⟨_, _, hpush, Yields.bind_iff.mpr ⟨_, _, rfl,
      Yields.bind_iff.mpr ⟨(a.append (.push y)).lines.size, pushed, ?_, rfl⟩⟩⟩⟩, hrest⟩
  show Yields (pushSlot T.setting T.target
    (some ((a.heap.slots.get? y).elim TypeTable.object (·.type))) false) _ _ _
  rw [hv]
  exact hpush'

end Emit

namespace Assembly

variable {T : Twins} {a a' : Assembly} {i : Instruction}

/-- The first one emits an instruction that is no jump. -/
theorem Alike.append_first (h : Alike T a a') (hi : i.pending? = none) :
    Alike T (a.append i) a' := by
  refine ⟨h.orderly, h.orderly', h.shared, h.target, h.target', ?_, h.laid.append i, h.laid',
    fun hlean => ?_⟩
  · rw [pending_append, hi, h.pending, Option.toList_none, List.append_nil]
  · have := h.bytes hlean
    rw [instructions_append, Instruction.bytes_append]
    omega

/-- The second one, which may have more code, emits an instruction that is no jump. -/
theorem Alike.append_second (h : Alike T a a') (hlean : ¬ T.lean) (hi : i.pending? = none) :
    Alike T a (a'.append i) := by
  refine ⟨h.orderly, h.orderly', h.shared, h.target, h.target', ?_, h.laid, h.laid'.append i,
    fun hmore => absurd hmore hlean⟩
  rw [pending_append, hi, h.pending, Option.toList_none, List.append_nil]

end Assembly

namespace Generation

variable {cfg : Setting} {w : Workspace} {u : WorkUnit} {x y : String} {type other : TypeId}
  {constant : Bool}

/-- A unit hands its value on to the variable. -/
theorem passOn_target {T : Twins} {A : TypeId} (htarget : u.target = some T.target)
    (horderly : w.assembly.heap.Orderly T.catalog) (hy : y.isEmpty = false)
    (hkind : w.assembly.heap.kind? y = some (type, constant)) (hx : T.target.isEmpty = false)
    (hholds : T.Holds A (w.assembly.heap.kind? T.target))
    (hcompatible : T.catalog.types.isCompatible A type = true) (hnew : T.Loose → A = type) :
    ∃ u₁ heap, Yields (passOn T.setting u y) w u₁ (u.temps.foldl Workspace.giveBack
        { w with assembly := { w.assembly with heap := heap }.copied y T.target }) ∧
      heap.Orderly T.catalog ∧ w.assembly.heap.Extends heap ∧
      heap.kind? T.target = some (A, false) ∧
      ∀ name, T.shared name → heap.kind? name = w.assembly.heap.kind? name := by
  obtain ⟨id, heap, hcopy, hrest⟩ := Emit.copy_target horderly hy hkind hx hholds hcompatible hnew
  refine ⟨_, heap, Yields.bind_iff.mpr ⟨(), _, ?_, rfl⟩, hrest⟩
  unfold copyToTarget
  rw [htarget]
  exact Yields.bind_iff.mpr ⟨id, _, Compile.emit_iff.mpr ⟨_, hcopy, rfl⟩, rfl⟩

/-- Only slots of compatible types can be copied. -/
theorem compatible_of_passOn (hcheck : cfg.typeCheck = true) (htarget : u.target = some x)
    {w' : Workspace} {u₁ : WorkUnit}
    (hkind : w.assembly.heap.kind? y = some (type, constant))
    (hkind' : w.assembly.heap.kind? x = some (other, false))
    (h : Yields (passOn cfg u y) w u₁ w') : cfg.catalog.types.isCompatible other type = true := by
  obtain ⟨_, w₁, hcopy, -⟩ := Yields.bind_iff.mp h
  unfold copyToTarget at hcopy
  rw [htarget] at hcopy
  obtain ⟨id, w₂, hemit, -⟩ := Yields.bind_iff.mp hcopy
  obtain ⟨a₁, hcopy, rfl⟩ := Compile.emit_iff.mp hemit
  obtain ⟨slot, a₂, hslot, hemits, v, v', hv, hv', hcompatible⟩ := Emit.copy_cases hcopy
  obtain ⟨rfl, rfl⟩ := Yields.pure_iff.mp hslot
  have hsame := hemits.heap.kind? hkind
  have hsame' := hemits.heap.kind? hkind'
  rw [Heap.kind?, hv] at hsame
  rw [Heap.kind?, hv'] at hsame'
  obtain ⟨rfl, -⟩ := Prod.mk.inj (Option.some.inj hsame)
  obtain ⟨rfl, -⟩ := Prod.mk.inj (Option.some.inj hsame')
  exact hcompatible hcheck

end Generation

/-! ## The assignment

Both assignments do the same to the array and to the value that they hand on; what one of them
has more is the cast, with a temporary and a copy. It is compiled before and after what both have
in common, so the two lemmas below take its steps on one side only (`before_second`,
`after_second`, `before_first`, `after_first`). A variable that is made here may get another type
in each of them. That goes unnoticed, as nothing else names it and the value of the assignment is
not asked for (`assigned_trails`). -/

namespace Variation

open Assembly

variable {S : Variation} {w w' : Workspace} {u : WorkUnit} {y : String} {type : TypeId}

/-- The first compilation copies a slot to the target. -/
theorem Alike.passOn_first (h : S.Alike w w') (htarget : u.target = some S.target)
    (hx : S.target.isEmpty = false) (hy : y.isEmpty = false)
    (hkind : w.assembly.heap.kind? y = some (type, false))
    (hcompatible : S.catalog.types.isCompatible S.type type = true)
    (hnew : S.Loose → S.type = type) :
    ∃ u₁ w₁, Yields (passOn S.setting u y) w u₁ w₁ ∧ S.Alike w₁ w' ∧
      w.assembly.Keeps w₁.assembly := by
  obtain ⟨u₁, heap, hyields, horderly, hext, hkind', hshared⟩ :=
    passOn_target htarget h.assembly.orderly hy hkind hx h.assembly.target hcompatible hnew
  have hheap : Assembly.Alike S.toTwins { w.assembly with heap := heap } w'.assembly :=
    h.assembly.onHeap horderly h.assembly.orderly' (fun name hname =>
      (h.assembly.shared name hname).trans (hshared name hname).symm) (Or.inl hkind')
      h.assembly.target'
  have hkeeps := (Keeps.onHeap hext).trans (keeps_copied _ y S.target)
  have hcopied : S.Alike
      { w with assembly := { w.assembly with heap := heap }.copied y S.target } w' :=
    h.onAssembly (((hheap.append_first rfl).append_first rfl).append_first rfl) hkeeps (.refl _)
  obtain ⟨-, hassembly, -⟩ := Workspace.foldl_giveBack_spec hcopied.pooled u.temps
  refine ⟨u₁, _, hyields, hcopied.giveBack u.temps [], ?_⟩
  rw [hassembly]
  exact hkeeps

/-- The second compilation copies a slot to the target. -/
theorem Alike.passOn_second (h : S.Alike w w') (hlean : ¬ S.lean) (htarget : u.target = some S.target)
    (hx : S.target.isEmpty = false) (hy : y.isEmpty = false)
    (hkind : w'.assembly.heap.kind? y = some (type, false))
    (hcompatible : S.catalog.types.isCompatible S.type' type = true)
    (hnew : S.Loose → S.type' = type) :
    ∃ u₁ w₁', Yields (passOn S.setting u y) w' u₁ w₁' ∧ S.Alike w w₁' ∧
      w'.assembly.Keeps w₁'.assembly := by
  obtain ⟨u₁, heap, hyields, horderly, hext, hkind', hshared⟩ :=
    passOn_target htarget h.assembly.orderly' hy hkind hx h.assembly.target' hcompatible hnew
  have hheap : Assembly.Alike S.toTwins w.assembly { w'.assembly with heap := heap } :=
    h.assembly.onHeap h.assembly.orderly horderly (fun name hname =>
      (hshared name hname).trans (h.assembly.shared name hname)) h.assembly.target (Or.inl hkind')
  have hkeeps := (Keeps.onHeap hext).trans (keeps_copied _ y S.target)
  have hcopied : S.Alike w
      { w' with assembly := { w'.assembly with heap := heap }.copied y S.target } :=
    h.onAssembly (((hheap.append_second hlean rfl).append_second hlean rfl).append_second hlean
      rfl) (.refl _) hkeeps
  obtain ⟨-, hassembly, -⟩ := Workspace.foldl_giveBack_spec hcopied.pooled' u.temps
  refine ⟨u₁, _, hyields, hcopied.giveBack [] u.temps, ?_⟩
  rw [hassembly]
  exact hkeeps

/-- The first tree fills an array straight in the target, and the second one through a cast. -/
structure Straight (S : Variation) (type : TypeId) (a b : NodeId) : Prop where
  children : S.tree.children S.site = [a, b]
  named : S.tree.Named a S.target
  fills : (S.findings.getD b {}).construct = some (.arrayFill type)
  typed : (S.findings.getD b {}).type = some type
  new : S.Loose → S.type = S.catalog.newArrayType ∧ S.type' = type
  cast : ∀ p', S.node S.site p' → ∃ a' b' k other, S.tree'.children p' = [a', k] ∧
    S.tree'.children k = [b'] ∧ S.tree'.Named a' S.target ∧ S.node b b' ∧
    (S.findings'.getD k {}).construct = some (.cast other)

/-- The first tree fills an array through a cast, and the second one straight in the target. -/
structure Cast (S : Variation) (type : TypeId) (a k b : NodeId) : Prop where
  children : S.tree.children S.site = [a, k]
  inner : S.tree.children k = [b]
  named : S.tree.Named a S.target
  cast : ∃ other, (S.findings.getD k {}).construct = some (.cast other)
  fills : (S.findings.getD b {}).construct = some (.arrayFill type)
  typed : (S.findings.getD b {}).type = some type
  new : S.Loose → S.type = type ∧ S.type' = S.catalog.newArrayType
  straight : ∀ p', S.node S.site p' → ∃ a' b', S.tree'.children p' = [a', b'] ∧
    S.tree'.Named a' S.target ∧ S.node b b'

/-- Both assignments end alike: they hand on a variable that both share, or nothing. -/
theorem assigned_trails (h : S.Alike w w') {p p' : NodeId} {target target' : Option String}
    (htarget : Option.Rel (Like S.toTwins w.assembly w'.assembly) target target')
    (hloose : S.Loose → target = none) :
    Trails S.workspaces S.FaultyAt (do
        let _ ← Compilation.at p (passOn S.setting ⟨p, target, 2, [], .set⟩ S.target)
        return ()) w (do
        let _ ← Compilation.at p' (passOn S.setting ⟨p', target', 2, [], .set⟩ S.target)
        return ()) w' fun _ _ _ _ => True := by
  have hcopy : Trails S.workspaces S.Faulty
      (copyToTarget S.setting ⟨p, target, 2, [], .set⟩ (.var S.target)) w
      (copyToTarget S.setting ⟨p', target', 2, [], .set⟩ (.var S.target)) w'
      fun _ _ _ _ => True := by
    by_cases hshared : S.shared S.target
    · exact copyToTarget_trails h (.var (Or.inl ⟨rfl, hshared⟩)) htarget
    · -- The variable is not shared, but then its value goes nowhere.
      obtain rfl := hloose hshared
      cases htarget
      exact .pure h trivial
  have hpass : Trails S.workspaces S.Faulty (passOn S.setting ⟨p, target, 2, [], .set⟩ S.target) w
      (passOn S.setting ⟨p', target', 2, [], .set⟩ S.target) w' fun _ _ _ _ => True := by
    refine .bind hcopy ?_
    intro _ _ w₁ w₁' h₁ _ _ _
    exact Trails.imp (release_trails h₁ _ _) fun _ _ _ _ _ _ _ _ => trivial
  refine .bind (at_trails hpass p p') ?_
  intro _ _ w₁ w₁' h₁ _ _ _
  exact .pure h₁ trivial

variable {ht : S.tree.Linked} {ht' : S.tree'.Linked} {a b k : NodeId}

/-- A construct that neither drops values nor hands them on reads all of them. -/
theorem not_unread_child (S : Variation) {p child : NodeId} {construct : Construct}
    (hchild : child ∈ S.tree.children p)
    (hconstruct : (S.findings.getD p {}).construct = some construct)
    (hdrops : ∀ {count n}, ¬ construct.Drops count n)
    (hhands : ∀ {count n}, ¬ construct.HandsOn count n) : ¬ S.unread child := by
  intro hunread
  obtain ⟨other, n, hother, -, hread⟩ := S.unread_child p child hchild hunread
  obtain rfl := Option.some.inj (hconstruct.symm.trans hother)
  rcases hread with hdrop | ⟨hhand, -⟩
  · exact hdrops hdrop
  · exact hhands hhand

/-- The site is compiled alike if the value that is assigned there is. -/
theorem site_trails (h : S.Alike w w') {p' a' b' : NodeId} {target target' : Option String}
    (hnode : S.node S.site p') (hchildren : S.tree.children S.site = [a, b])
    (hchildren' : S.tree'.children p' = [a', b']) (hnamed : S.tree.Named a S.target)
    (hnamed' : S.tree'.Named a' S.target)
    (htarget : S.Targets w.assembly w'.assembly S.site target target')
    (hunread : S.unread S.site → target = none)
    (hvalue : Trails S.workspaces S.FaultyAt (compileNode S.setting ht b (some S.target)) w
      (compileNode S.setting ht' b' (some S.target)) w' fun _ _ _ _ => True) :
    Trails S.workspaces S.FaultyAt (compileNode S.setting ht S.site target) w
      (compileNode S.setting ht' p' target') w' fun _ _ _ _ => True := by
  have hconstruct : w.construct? S.site = some .set := by
    rw [Workspace.construct?, Workspace.finding, h.findings, S.site_construct]
  have hconstruct' : w'.construct? p' = some .set := by
    rw [Workspace.construct?, finding_eq h hnode]
    exact hconstruct
  refine .congr (compileNode_set ht hchildren hnamed hconstruct target)
    (compileNode_set ht' hchildren' hnamed' hconstruct' target') ?_
  exact .bind hvalue fun _ _ w₁ w₁' h₁ hkeeps hkeeps' _ =>
    assigned_trails h₁ (target_mono (htarget .set S.site_construct) hkeeps hkeeps')
      fun hloose => hunread (S.unread_site hloose)

/-- What fits the target fits a temporary and can be copied from there. -/
theorem Straight.compiles_site (hsite : S.Straight type a b) (hlean : ¬ S.lean)
    (hfits : (S.shared S.target → S.catalog.FillsAt S.type (S.tree.children b).length) →
      S.catalog.FillsAt type (S.tree.children b).length ∧
        S.catalog.types.isCompatible S.type' type = true)
    (hbelow : ∀ id, S.tree.weight id < S.tree.weight S.site → S.Compiles ht ht' id) :
    S.Compiles ht ht' S.site := by
  intro p' w w' target target' hnode h htarget hunread
  obtain ⟨a', b', k', other, hchildren', hinner', hnamed', hb, hcast⟩ := hsite.cast p' hnode
  refine site_trails h hnode hsite.children hchildren' hsite.named hnamed' htarget hunread ?_
  by_cases hfill : S.shared S.target → S.catalog.FillsAt S.type (S.tree.children b).length
  · obtain ⟨hfill', hcompatible⟩ := hfits hfill
    have hcast' : w'.construct? k' = some (.cast other) := by
      rw [Workspace.construct?, Workspace.finding, h.findings', hcast]
    have htype' : w'.nodeType? b' = some type := by
      rw [Workspace.nodeType?, finding_eq h hb, Workspace.finding, h.findings, hsite.typed]
    refine .congr rfl (compileNode_cast ht' hinner' hcast' htype' _) ?_
    obtain ⟨slot, w₁', hrent, h₁, hkeeps₁', hslot, hkind⟩ := h.rent_second type
    refine .before_second (Compilation.at_iff.mpr (Compile.build_iff.mpr hrent)) hkeeps₁' ?_
    -- The array is filled in the variable here, which may have no slot yet, and in the temporary there.
    have hfirst : w.assembly.heap.slots.contains S.target = true ∨
        S.target = S.target ∧ S.type = S.catalog.newArrayType := by
      refine h.assembly.target.imp (fun hthere => ?_) fun hmissing => ⟨rfl, (hsite.new hmissing.1).1⟩
      obtain ⟨v, hv, -⟩ := Heap.kind?_eq_some.mp hthere
      exact OrderedMap.contains_iff.mpr ⟨v, hv⟩
    refine .after_second (hbelow b ?_ b' w w₁' _ _ hb h₁ ?_ ?_) ?_
    · exact ht.weight_lt (by simp [hsite.children])
    · intro construct hb'
      obtain rfl := Option.some.inj (hsite.fills.symm.trans hb')
      exact .some (Or.inr ⟨hsite.named.2, hslot, hfirst, type, hfill', Or.inl hkind⟩)
    · exact fun hunread => absurd hunread
        (S.not_unread_child (by simp [hsite.children]) S.site_construct id id)
    · intro _ _ w₂ w₂' h₂ _ hkeeps₂' _
      obtain ⟨u₁, w₃', hpass, h₃, hkeeps₃'⟩ := h₂.passOn_second
        (u := ⟨k', some S.target, 2, [slot], .cast (some slot)⟩) hlean rfl hsite.named.2 hslot
        (hkeeps₂'.heap.kind? hkind) hcompatible fun hloose => (hsite.new hloose).2
      exact .of_yields rfl (Yields.bind_iff.mpr ⟨u₁, w₃', Compilation.at_iff.mpr hpass, rfl⟩) h₃
        (.refl _) hkeeps₃' trivial
  · -- The array operations refuse the target.
    obtain ⟨hshared, hrefused⟩ := Classical.not_imp.mp hfill
    intro _ w₁ hyields
    have hfills : w.construct? b = some (.arrayFill type) := by
      rw [Workspace.construct?, Workspace.finding, h.findings, hsite.fills]
    exact absurd (fillsAt_of_compileNode ht hfills (h.assembly.target.of_shared hshared) hyields)
      hrefused

/-- What fits a temporary and can be copied to the target fits the target. -/
theorem Cast.compiles_site (hsite : S.Cast type a k b)
    (hfits : S.catalog.FillsAt type (S.tree.children b).length ∧
        (S.shared S.target → S.catalog.types.isCompatible S.type type = true) →
      S.catalog.FillsAt S.type' (S.tree.children b).length)
    (hbelow : ∀ id, S.tree.weight id < S.tree.weight S.site → S.Compiles ht ht' id) :
    S.Compiles ht ht' S.site := by
  intro p' w w' target target' hnode h htarget hunread
  obtain ⟨a', b', hchildren', hnamed', hb⟩ := hsite.straight p' hnode
  obtain ⟨other, hmeaning⟩ := hsite.cast
  refine site_trails h hnode hsite.children hchildren' hsite.named hnamed' htarget hunread ?_
  have hcast : w.construct? k = some (.cast other) := by
    rw [Workspace.construct?, Workspace.finding, h.findings, hmeaning]
  have htype : w.nodeType? b = some type := by
    rw [Workspace.nodeType?, Workspace.finding, h.findings, hsite.typed]
  refine .congr (compileNode_cast ht hsite.inner hcast htype _) rfl ?_
  obtain ⟨slot, w₁, hrent, h₁, hkeeps₁, hslot, hkind⟩ := h.rent_first type
  refine .before_first fun name w₂ hyields => ?_
  obtain ⟨rfl, rfl⟩ := (Compile.build_iff.mp (Compilation.at_iff.mp hyields)).unique hrent
  refine ⟨hkeeps₁, ?_⟩
  by_cases hfill : S.catalog.FillsAt type (S.tree.children b).length ∧
      (S.shared S.target → S.catalog.types.isCompatible S.type type = true)
  · have hcompatible : S.catalog.types.isCompatible S.type type = true := by
      by_cases hshared : S.shared S.target
      · exact hfill.2 hshared
      · rw [(hsite.new hshared).1]
        exact S.catalog.types.isCompatible_refl type
    -- The array is compiled into the temporary here and into the target there; then the copy.
    refine .after_first (hbelow b ?_ b' w₁ w' _ _ hb h₁ ?_ ?_) ?_
    · have hinner : S.tree.weight b < S.tree.weight k :=
        ht.weight_lt (by simp [hsite.inner])
      exact hinner.trans (ht.weight_lt (by simp [hsite.children]))
    · intro construct hb'
      obtain rfl := Option.some.inj (hsite.fills.symm.trans hb')
      refine .some (Or.inr ⟨hslot, hsite.named.2, Or.inl ?_, S.type', hfits hfill, ?_⟩)
      · obtain ⟨v, hv, -⟩ := Heap.kind?_eq_some.mp hkind
        exact OrderedMap.contains_iff.mpr ⟨v, hv⟩
      · exact h₁.assembly.target'.imp_right fun hmissing => ⟨rfl, rfl, (hsite.new hmissing.1).2⟩
    · exact fun hunread => absurd hunread
        (S.not_unread_child (by simp [hsite.inner]) hmeaning id id)
    · intro _ _ w₂ w₂' h₂ hkeeps₂ _ _
      obtain ⟨u₁, w₃, hpass, h₃, hkeeps₃⟩ := h₂.passOn_first
        (u := ⟨k, some S.target, 2, [slot], .cast (some slot)⟩) rfl hsite.named.2 hslot
        (hkeeps₂.heap.kind? hkind) hcompatible fun hloose => (hsite.new hloose).1
      exact .of_yields (Yields.bind_iff.mpr ⟨u₁, w₃, Compilation.at_iff.mpr hpass, rfl⟩) rfl h₃
        hkeeps₃ (.refl _) trivial
  · -- The array operations refuse the temporary, or it cannot be copied.
    intro _ w₂ hyields
    obtain ⟨_, w₃, hfilled, hrest⟩ := Yields.bind_iff.mp hyields
    obtain ⟨_, w₄, hpass, -⟩ := Yields.bind_iff.mp hrest
    have hext := extends_of_compileNode ht hfilled
    have hfills₁ : w₁.construct? b = some (.arrayFill type) := by
      rw [Workspace.construct?, Workspace.finding, h₁.findings, hsite.fills]
    refine absurd ⟨fillsAt_of_compileNode ht hfills₁ hkind hfilled, fun hshared => ?_⟩ hfill
    exact compatible_of_passOn rfl rfl (hext.kind? hkind)
      (hext.kind? (h₁.assembly.target.of_shared hshared)) (Compilation.at_iff.mp hpass)

end Variation

end SexprAsm
