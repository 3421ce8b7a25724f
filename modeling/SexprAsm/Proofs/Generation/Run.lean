import SexprAsm.Proofs.Generation.Steps
import SexprAsm.Proofs.Tree.Links

/-!
# Runs of the work stack

`Move` is one turn of the loop over the stack of units, and `Reaches` any number of them. The loop
has enough turns: each of them lowers what is left to do (`Generation.left`), and the bound that it
starts with covers a whole tree, so a loop that ends without an error ends with an empty stack.
-/

namespace SexprAsm

/-! ## The size of a subtree

The measure for the loop counts nodes. A node weighs one and what its children weigh
(`weight_eq`), and the root weighs the whole arena. -/

theorem Forest.hi_eq {nodes : Array Node} {parent : Option NodeId} {lo hi : Nat}
    {ids : List NodeId} {xs : List Sexpr} (h : Forest nodes parent lo hi ids xs) :
    hi = lo + Sexpr.sizeAll xs := by
  induction h with
  | nil => rfl
  | cons _ _ _ _ ihitems ihrest =>
    rw [Sexpr.sizeAll, Sexpr.size]
    omega

namespace Tree

variable {t : Tree}

theorem Row.unique {ids : List NodeId} {xs ys : List Sexpr} (h : t.Row ids xs) (h' : t.Row ids ys) :
    ys = xs := by
  induction h generalizing ys with
  | nil =>
    cases h'
    rfl
  | cons _ _ ihitems ihrest =>
    cases h' with
    | cons hitems hrest => rw [ihitems hitems, ihrest hrest]

/-- The number of nodes below a node, itself included. -/
def weight (t : Tree) (id : NodeId) : Nat := (t.sexpr id).size

theorem sizeAll_map_sexpr (t : Tree) (ids : List NodeId) :
    Sexpr.sizeAll (ids.map t.sexpr) = (ids.map t.weight).sum := by
  induction ids with
  | nil => rfl
  | cons id ids ih => rw [List.map_cons, List.map_cons, List.sum_cons, Sexpr.sizeAll, ih, weight]

theorem Linked.weight_eq (h : t.Linked) {id : NodeId} (hid : id < t.size) :
    t.weight id = ((t.children id).map t.weight).sum + 1 := by
  have hrow := h.row_sexpr hid
  have hchildren : t.Row (t.children id) ((t.children id).map t.sexpr) :=
    .map fun c hc => h.row_sexpr (h.child_lt hc)
  rw [weight, hrow.unique (.cons hchildren .nil) |> List.head_eq_of_cons_eq |> Eq.symm, Sexpr.size,
    sizeAll_map_sexpr]

theorem Linked.one_le_weight (h : t.Linked) {id : NodeId} (hid : id < t.size) :
    1 ≤ t.weight id := by
  rw [h.weight_eq hid]
  omega

theorem Holds.weight_root {x : Sexpr} (h : t.Holds x) : t.weight Tree.root = t.size := by
  have hhi := Forest.hi_eq h
  rw [weight, h.sexpr_eq]
  simpa [Sexpr.sizeAll] using hhi.symm

theorem Holds.root_lt {x : Sexpr} (h : t.Holds x) : Tree.root < t.size := by
  have hhi := Forest.hi_eq h
  cases x
  simp only [Sexpr.sizeAll, Sexpr.size] at hhi
  show 0 < t.size
  omega

end Tree

/-- The first child of the node is a name that is not compiled. -/
def Task.skipsName : Task → Bool
  | .set | .event _ => true
  | _ => false

/-- The task as it was before its first step. -/
def Task.initial : Task → Task
  | .conditional _ _ _ => .conditional none none []
  | .loop _ _ _ => .loop none none none
  | .call operation _ => .call operation []
  | .cast _ => .cast none
  | .arrayFill type _ => .arrayFill type none
  | .event _ => .event none
  | task => task

theorem Task.initial_ofConstruct (construct : Construct) :
    (Task.ofConstruct construct).initial = .ofConstruct construct := by
  cases construct <;> rfl

theorem Task.skipsName_initial (task : Task) : task.initial.skipsName = task.skipsName := by
  cases task <;> rfl

namespace Generation

/-! ## Turns of the loop

`Move` and `Reaches` follow the loop and its stack, `Finishes` one unit with all that it descends
to. The first is what the loop does, the last is what proofs about nodes are by induction on;
`Reaches.finishAll` leads from the one to the other. -/

/-- One turn of the loop: a step of the unit on top of the stack. -/
inductive Move (cfg : Setting) (t : Tree) :
    List WorkUnit → Workspace → List WorkUnit → Workspace → Prop where
  | done {u u' : WorkUnit} {rest : List WorkUnit} {w w' : Workspace}
      (hstep : Yields (step cfg t u) w (.done, u') w') : Move cfg t (u :: rest) w rest w'
  | again {u u' : WorkUnit} {rest : List WorkUnit} {w w' : Workspace}
      (hstep : Yields (step cfg t u) w (.again, u') w') : Move cfg t (u :: rest) w (u' :: rest) w'
  | descend {u u' next : WorkUnit} {rest : List WorkUnit} {w w' w'' : Workspace} {child : NodeId}
      {target : Option String} (hstep : Yields (step cfg t u) w (.descend child target, u') w')
      (hstart : Yields (start t child target) w' next w'') :
      Move cfg t (u :: rest) w (next :: u' :: rest) w''

/-- Any number of turns of the loop. -/
inductive Reaches (cfg : Setting) (t : Tree) :
    List WorkUnit → Workspace → List WorkUnit → Workspace → Prop where
  | refl (stack : List WorkUnit) (w : Workspace) : Reaches cfg t stack w stack w
  | head {stack stack' stack'' : List WorkUnit} {w w' w'' : Workspace}
      (hmove : Move cfg t stack w stack' w') (hrest : Reaches cfg t stack' w' stack'' w'') :
      Reaches cfg t stack w stack'' w''

/-- A unit comes to its end, with all that it descends to. -/
inductive Finishes (cfg : Setting) (t : Tree) : WorkUnit → Workspace → Workspace → Prop where
  | done {u u' : WorkUnit} {w w' : Workspace} (hstep : Yields (step cfg t u) w (.done, u') w') :
      Finishes cfg t u w w'
  | again {u u' : WorkUnit} {w w' w'' : Workspace} (hstep : Yields (step cfg t u) w (.again, u') w')
      (hrest : Finishes cfg t u' w' w'') : Finishes cfg t u w w''
  | descend {u u' next : WorkUnit} {w w₁ w₂ w₃ w' : Workspace} {child : NodeId}
      {target : Option String} (hstep : Yields (step cfg t u) w (.descend child target, u') w₁)
      (hstart : Yields (start t child target) w₁ next w₂) (hchild : Finishes cfg t next w₂ w₃)
      (hrest : Finishes cfg t u' w₃ w') : Finishes cfg t u w w'

variable {cfg : Setting} {t : Tree} {u u' : WorkUnit} {stack stack' stack'' rest : List WorkUnit}
  {w w' w'' : Workspace} {p : Progress}

theorem Move.unique (h : Move cfg t stack w stack' w') (h' : Move cfg t stack w stack'' w'') :
    stack'' = stack' ∧ w'' = w' := by
  cases h with
  | done hstep =>
    cases h' with
    | done hstep' => exact ⟨rfl, (hstep.unique hstep').2⟩
    | again hstep' => cases (hstep.unique hstep').1
    | descend hstep' _ => cases (hstep.unique hstep').1
  | again hstep =>
    cases h' with
    | done hstep' => cases (hstep.unique hstep').1
    | again hstep' =>
      obtain ⟨hpair, rfl⟩ := hstep.unique hstep'
      cases hpair
      exact ⟨rfl, rfl⟩
    | descend hstep' _ => cases (hstep.unique hstep').1
  | descend hstep hstart =>
    cases h' with
    | done hstep' => cases (hstep.unique hstep').1
    | again hstep' => cases (hstep.unique hstep').1
    | descend hstep' hstart' =>
      obtain ⟨hpair, rfl⟩ := hstep.unique hstep'
      cases hpair
      obtain ⟨rfl, rfl⟩ := hstart.unique hstart'
      exact ⟨rfl, rfl⟩

/-- What a run passes through comes to the same end. -/
theorem Reaches.rest_of_end {stack₁ : List WorkUnit} {w₁ : Workspace}
    (h : Reaches cfg t stack w stack₁ w₁) (hend : Reaches cfg t stack w [] w') :
    Reaches cfg t stack₁ w₁ [] w' := by
  induction h with
  | refl => exact hend
  | head hmove _ ih =>
    cases hend with
    | refl => cases hmove
    | head hmove' hrest' =>
      obtain ⟨rfl, rfl⟩ := hmove.unique hmove'
      exact ih hrest'

/-- The units of a stack come to their ends one after the other. -/
def FinishAll (cfg : Setting) (t : Tree) : List WorkUnit → Workspace → Workspace → Prop
  | [], w, w' => w = w'
  | u :: rest, w, w' => ∃ w₁, Finishes cfg t u w w₁ ∧ FinishAll cfg t rest w₁ w'

theorem Reaches.finishAll (h : Reaches cfg t stack w [] w') : FinishAll cfg t stack w w' := by
  generalize hempty : ([] : List WorkUnit) = last at h
  induction h with
  | refl =>
    subst hempty
    rfl
  | head hmove _ ih =>
    have hrest := ih hempty
    cases hmove with
    | done hstep => exact ⟨_, .done hstep, hrest⟩
    | again hstep =>
      obtain ⟨w₁, hfinishes, hrest⟩ := hrest
      exact ⟨w₁, .again hstep hfinishes, hrest⟩
    | descend hstep hstart =>
      obtain ⟨_, hchild, w₁, hfinishes, hrest⟩ := hrest
      exact ⟨w₁, .descend hstep hstart hchild hfinishes, hrest⟩

/-! ## What is left to do

`step_counts` is the one place where all tasks are gone through: how the counter moves, and to
which child. The measure `left` has two turns for each node that is still to come, one in which
its parent goes to it and one in which it ends, and `left_step` follows from `step_counts`
without another look at the tasks. -/

/-- A step counts on, keeps its target, and goes to the next child that is compiled, if to any. -/
theorem step_counts (h : Yields (step cfg t u) w (p, u') w') :
    u'.node = u.node ∧ u'.step = u.step + 1 ∧ u'.task.initial = u.task.initial ∧
      u'.target = u.target ∧ (p = .done ∨
        (u.task.skipsName = false ∧ ∃ child, (t.children u.node)[u.step]? = some child ∧
          (p = .again ∨ ∃ target, p = .descend child target)) ∨
        u.task.skipsName = true ∧ u.step = 0 ∧ ∃ child target,
          (t.children u.node)[1]? = some child ∧ p = .descend child target) := by
  obtain ⟨node, target, n, temps, task⟩ := u
  -- Whether a case goes to a child is what its step did; `release` changes nothing but the slots.
  cases task with
  | literal =>
    obtain ⟨rfl, rfl, -⟩ := stepLiteral_cases h
    exact ⟨rfl, rfl, rfl, rfl, Or.inl rfl⟩
  | get =>
    obtain ⟨rfl, rfl, -⟩ := stepGet_cases h
    exact ⟨rfl, rfl, rfl, rfl, Or.inl rfl⟩
  | declare =>
    obtain ⟨rfl, rfl, -⟩ := stepDeclare_cases h
    exact ⟨rfl, rfl, rfl, rfl, Or.inl rfl⟩
  | set =>
    obtain ⟨first, name, -, -, ⟨rfl, child, hchild, rfl, rfl, -⟩ | ⟨-, rfl, w₁, -, hrelease⟩⟩ :=
      stepSet_cases h
    · exact ⟨rfl, rfl, rfl, rfl, Or.inr (Or.inr ⟨rfl, rfl, child, some name, hchild, rfl⟩)⟩
    · obtain ⟨rfl, -⟩ := release_cases hrelease
      exact ⟨rfl, rfl, rfl, rfl, Or.inl rfl⟩
  | sequence =>
    obtain ⟨rfl, -, ⟨child, hchild, rfl⟩ | ⟨-, rfl⟩⟩ := stepSequence_cases h
    · exact ⟨rfl, rfl, rfl, rfl, Or.inr (Or.inl ⟨rfl, child, hchild, Or.inr ⟨_, rfl⟩⟩)⟩
    · exact ⟨rfl, rfl, rfl, rfl, Or.inl rfl⟩
  | conditional condition pending exits =>
    rcases stepConditional_cases h with ⟨-, rfl, w₁, w₂, u₁, -, -, hrelease, rfl⟩ |
      ⟨branch, hbranch, ⟨-, name, jump, w₁, u₁, -, -, hrelease, rfl, rfl⟩ |
        ⟨-, pending', exits', w₁, -, ⟨-, type, name, -, rfl, rfl⟩ | ⟨-, -, rfl, rfl⟩⟩⟩
    · obtain ⟨rfl, -⟩ := release_cases hrelease
      exact ⟨rfl, rfl, rfl, rfl, Or.inl rfl⟩
    · obtain ⟨rfl, -⟩ := release_cases hrelease
      exact ⟨rfl, rfl, rfl, rfl, Or.inr (Or.inl ⟨rfl, branch, hbranch, Or.inr ⟨_, rfl⟩⟩)⟩
    · exact ⟨rfl, rfl, rfl, rfl, Or.inr (Or.inl ⟨rfl, branch, hbranch, Or.inr ⟨_, rfl⟩⟩)⟩
    · exact ⟨rfl, rfl, rfl, rfl, Or.inr (Or.inl ⟨rfl, branch, hbranch, Or.inr ⟨_, rfl⟩⟩)⟩
  | loop start condition exit =>
    rcases stepLoop_cases h with ⟨rfl, test, type, name, htest, -, rfl, rfl⟩ |
      ⟨rfl, name, jump, body, w₁, u₁, -, -, hbody, hrelease, rfl, rfl⟩ |
      ⟨-, rfl, back, w₁, w₂, -, -, hrelease⟩
    · exact ⟨rfl, rfl, rfl, rfl, Or.inr (Or.inl ⟨rfl, test, htest, Or.inr ⟨_, rfl⟩⟩)⟩
    · obtain ⟨rfl, -⟩ := release_cases hrelease
      exact ⟨rfl, rfl, rfl, rfl, Or.inr (Or.inl ⟨rfl, body, hbody, Or.inr ⟨_, rfl⟩⟩)⟩
    · obtain ⟨rfl, -⟩ := release_cases hrelease
      exact ⟨rfl, rfl, rfl, rfl, Or.inl rfl⟩
  | call id arguments =>
    rcases stepCall_cases h with ⟨argument, hargument, ⟨name, -, rfl, -, rfl⟩ |
      ⟨-, type, name, -, rfl, rfl⟩⟩ | ⟨-, rfl, operands, u₁, w₁, last, w₂, hcompletes, -, hrelease⟩
    · exact ⟨rfl, rfl, rfl, rfl, Or.inr (Or.inl ⟨rfl, argument, hargument, Or.inl rfl⟩)⟩
    · exact ⟨rfl, rfl, rfl, rfl, Or.inr (Or.inl ⟨rfl, argument, hargument, Or.inr ⟨_, rfl⟩⟩)⟩
    · obtain ⟨rfl, -⟩ := release_cases hrelease
      rcases hcompletes with ⟨-, -, rfl, -⟩ | ⟨type, target, -, -, -, rfl, -⟩ |
        ⟨type, name, -, -, -, -, rfl⟩ <;> exact ⟨rfl, rfl, rfl, rfl, Or.inl rfl⟩
  | cast value =>
    rcases stepCast_cases h with ⟨rfl, inner, type, name, hinner, -, rfl, rfl⟩ |
      ⟨-, rfl, w₁, -, hrelease⟩
    · exact ⟨rfl, rfl, rfl, rfl, Or.inr (Or.inl ⟨rfl, inner, hinner, Or.inr ⟨_, rfl⟩⟩)⟩
    · obtain ⟨rfl, -⟩ := release_cases hrelease
      exact ⟨rfl, rfl, rfl, rfl, Or.inl rfl⟩
  | arrayFill type slots =>
    obtain ⟨slots', u₁, w₁, hfills, hends⟩ := stepArrayFill_cases h
    -- Storing an element may rent, which is all that it does to the unit.
    have hu₁ : u₁ =
        { node, target, step := n + 1, temps := u₁.temps, task := .arrayFill type slots } := by
      rcases hfills with ⟨-, array, scratch, element, elementName, length, id, u₀, w₀, w₂, harray,
        -, rfl, -, -⟩ | ⟨array, scratch, index, id, -, -, rfl, -⟩ | ⟨-, -, rfl, -⟩
      · rcases harray with ⟨-, rfl, -⟩ | ⟨-, -, rfl⟩ <;> rfl
      · rfl
      · rfl
    rcases hends with ⟨element, array, scratch, -, -, rfl, helement, rfl⟩ | ⟨rfl, hrelease⟩
    · rw [hu₁]
      exact ⟨rfl, rfl, rfl, rfl, Or.inr (Or.inl ⟨rfl, element, helement, Or.inr ⟨_, rfl⟩⟩)⟩
    · obtain ⟨rfl, -⟩ := release_cases hrelease
      rw [hu₁]
      exact ⟨rfl, rfl, rfl, rfl, Or.inl rfl⟩
  | inlineAsm =>
    obtain ⟨_, -, -, rfl, rfl⟩ := step_inlineAsm_cases h
    exact ⟨rfl, rfl, rfl, rfl, Or.inl rfl⟩
  | event skip =>
    obtain ⟨first, label, -, -, ⟨rfl, skip', body, w₁, -, -, hbody, rfl, rfl⟩ |
      ⟨-, rfl, rfl, -⟩⟩ := stepEvent_cases h
    · exact ⟨rfl, rfl, rfl, rfl, Or.inr (Or.inr ⟨rfl, rfl, body, _, hbody, rfl⟩)⟩
    · exact ⟨rfl, rfl, rfl, rfl, Or.inl rfl⟩
  | callEvent =>
    obtain ⟨_, -, -, rfl, rfl⟩ := step_callEvent_cases h
    exact ⟨rfl, rfl, rfl, rfl, Or.inl rfl⟩
  | typeOf type =>
    obtain ⟨-, rfl, rfl⟩ := step_typeOf_cases h
    exact ⟨rfl, rfl, rfl, rfl, Or.inl rfl⟩

/-- A step only goes to children. -/
theorem mem_of_descend {child : NodeId} {target : Option String}
    (h : Yields (step cfg t u) w (.descend child target, u') w') : child ∈ t.children u.node := by
  obtain ⟨-, -, -, -, hp | ⟨-, other, hother, hp | ⟨_, hp⟩⟩ | ⟨-, -, other, _, hother, hp⟩⟩ :=
    step_counts h
  · cases hp
  · cases hp
  · cases hp
    exact List.mem_of_getElem? hother
  · cases hp
    exact List.mem_of_getElem? hother

/-- The steps that a unit may still cause, those of the children it still goes to included. -/
def left (t : Tree) (u : WorkUnit) : Nat :=
  if u.task.skipsName = true ∧ u.step ≠ 0 then 1
  else 2 * (((t.children u.node).drop u.step).map t.weight).sum + 1

/-- The steps that a stack may still cause. -/
def leftAll (t : Tree) (stack : List WorkUnit) : Nat := (stack.map (left t)).sum

theorem left_start (ht : t.Linked) {child : NodeId} {target : Option String}
    (hchild : child < t.size) (h : Yields (start t child target) w u w') :
    left t u + 1 = 2 * t.weight child := by
  obtain ⟨-, construct, -, rfl⟩ := start_cases h
  rw [ht.weight_eq hchild, left, if_neg (by simp)]
  simp only [List.drop_zero]
  omega

theorem one_le_left (u : WorkUnit) : 1 ≤ left t u := by
  unfold left
  split <;> omega

theorem sum_drop {ids : List NodeId} {n : Nat} {child : NodeId} (h : ids[n]? = some child) :
    ((ids.drop n).map t.weight).sum = t.weight child + ((ids.drop (n + 1)).map t.weight).sum := by
  obtain ⟨hn, rfl⟩ := List.getElem?_eq_some_iff.mp h
  rw [List.drop_eq_getElem_cons hn, List.map_cons, List.sum_cons]

/-- A step that does not finish its unit leaves less to do, by what the child it goes to takes. -/
theorem left_step (ht : t.Linked) (h : Yields (step cfg t u) w (p, u') w') :
    (p = .again → left t u' < left t u) ∧
      ∀ child target, p = .descend child target →
        child < t.size ∧ left t u' + 2 * t.weight child ≤ left t u := by
  obtain ⟨hnode, hcount, hinitial, -, hp⟩ := step_counts h
  have hskips : u'.task.skipsName = u.task.skipsName := by
    rw [← Task.skipsName_initial, hinitial, Task.skipsName_initial]
  rcases hp with rfl | ⟨hskip, child, hchild, hp⟩ | ⟨hskip, hzero, child, target, hchild, rfl⟩
  · exact ⟨by simp, by simp⟩
  · have hlt := ht.child_lt (List.mem_of_getElem? hchild)
    have hsum := sum_drop (t := t) hchild
    have hweight := ht.one_le_weight hlt
    have hleft : left t u' + 2 * t.weight child = left t u := by
      rw [left, left, hnode, hcount, if_neg (by simp [hskips, hskip]), if_neg (by simp [hskip])]
      omega
    rcases hp with rfl | ⟨target, rfl⟩
    · exact ⟨fun _ => by omega, by simp⟩
    · refine ⟨by simp, fun other target' hp => ?_⟩
      obtain ⟨rfl, -⟩ := Progress.descend.inj hp
      exact ⟨hlt, hleft.le⟩
  · -- The first child is a name, and the unit is done once the second has been compiled.
    have hlt := ht.child_lt (List.mem_of_getElem? hchild)
    refine ⟨by simp, fun other target' hp => ?_⟩
    obtain ⟨rfl, -⟩ := Progress.descend.inj hp
    refine ⟨hlt, ?_⟩
    have hsum := sum_drop (t := t) hchild
    obtain ⟨first, hfirst⟩ : ∃ first, (t.children u.node)[0]? = some first := by
      obtain ⟨hlength, -⟩ := List.getElem?_eq_some_iff.mp hchild
      exact ⟨_, List.getElem?_eq_getElem (by omega)⟩
    have hsum' := sum_drop (t := t) hfirst
    rw [Nat.zero_add] at hsum'
    rw [left, left, if_pos ⟨hskips.trans hskip, by omega⟩, if_neg (by simp [hzero]), hzero]
    omega

/-- A turn of the loop lowers what is left to do. -/
theorem Move.left_lt (ht : t.Linked) (h : Move cfg t stack w stack' w') :
    leftAll t stack' < leftAll t stack := by
  cases h with
  | @done u _ rest _ _ _ =>
    have := one_le_left (t := t) u
    simp only [leftAll, List.map_cons, List.sum_cons]
    omega
  | again hstep =>
    have := (left_step ht hstep).1 rfl
    simp only [leftAll, List.map_cons, List.sum_cons]
    omega
  | descend hstep hstart =>
    obtain ⟨hchild, hleft⟩ := (left_step ht hstep).2 _ _ rfl
    have := left_start ht hchild hstart
    simp only [leftAll, List.map_cons, List.sum_cons]
    omega

/-- A loop with enough turns that ends without an error ends with an empty stack. -/
theorem reaches_of_run (ht : t.Linked) {fuel : Nat} (h : Yields (run cfg t fuel stack) w () w')
    (hfuel : leftAll t stack ≤ fuel) : Reaches cfg t stack w [] w' := by
  induction fuel generalizing stack w with
  | zero =>
    cases stack with
    | nil =>
      obtain ⟨-, rfl⟩ := Yields.pure_iff.mp h
      exact .refl _ _
    | cons u rest =>
      have := one_le_left (t := t) u
      simp only [leftAll, List.map_cons, List.sum_cons] at hfuel
      omega
  | succ fuel ih =>
    cases stack with
    | nil =>
      obtain ⟨-, rfl⟩ := Yields.pure_iff.mp h
      exact .refl _ _
    | cons u rest =>
      simp only [run, Yields.bind_iff, Compilation.at_iff] at h
      obtain ⟨⟨p, u'⟩, w₁, hstep, h⟩ := h
      -- Whatever the step says, the turn it makes leaves less to do than there was.
      have hnext : ∀ {stack' : List WorkUnit} {w₂ : Workspace},
          Move cfg t (u :: rest) w stack' w₂ → Yields (run cfg t fuel stack') w₂ () w' →
          Reaches cfg t (u :: rest) w [] w' := by
        intro stack' w₂ hmove hrun
        have := hmove.left_lt ht
        exact .head hmove (ih hrun (by omega))
      cases p with
      | done => exact hnext (.done hstep) h
      | again => exact hnext (.again hstep) h
      | descend child target =>
        simp only [Yields.bind_iff, Compilation.at_iff] at h
        obtain ⟨next, w₂, hstart, hrun⟩ := h
        exact hnext (.descend hstep hstart) hrun

/-- Generation that succeeds starts a unit for the root, and ends with an empty stack. -/
theorem generate_cases {x : Sexpr} (ht : t.Holds x) (h : Yields (generate cfg t) w () w') :
    ∃ first, Yields (start t Tree.root none) w first w ∧ Reaches cfg t [first] w [] w' := by
  simp only [generate, Yields.bind_iff, Compilation.at_iff] at h
  obtain ⟨first, _, hstart, hrun⟩ := h
  obtain ⟨rfl, -⟩ := start_cases hstart
  have hroot := ht.weight_root
  have hleft := left_start ht.linked ht.root_lt hstart
  refine ⟨first, hstart, reaches_of_run ht.linked hrun ?_⟩
  simp only [leftAll, List.map_cons, List.map_nil, List.sum_cons, List.sum_nil, stepBound]
  omega

end Generation

end SexprAsm
