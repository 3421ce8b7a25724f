import SexprAsm.Proofs.Yields

/-!
# What the steps of a unit do

One lemma for each kind of unit takes a step that succeeded apart: the parts that it ran, in order,
and the outcome. All that is proved of a compilation goes through these lemmas.
-/

namespace SexprAsm

theorem Compile.nameAt_cases {t : Tree} {id : NodeId} {construct name : String} {w w' : Workspace}
    (h : Yields (Compile.nameAt t id construct) w name w') :
    (t.tag id).text? = some name ∧ w = w' := by
  unfold Compile.nameAt at h
  cases htext : (t.tag id).text? with
  | none => simp [htext] at h
  | some found =>
    simp only [htext] at h
    split at h
    next => simp at h
    next =>
      obtain ⟨rfl, rfl⟩ := Yields.pure_iff.mp h
      exact ⟨rfl, rfl⟩

namespace Generation

variable {cfg : Setting} {t : Tree} {u u' : WorkUnit} {w w' : Workspace} {p : Progress} {n : Nat}

/-! ## Parts of steps

The small actions that steps are made of. Each of them either changes nothing, or is an operation
on the workspace that has its own specification. -/

theorem childAt_cases {id child : NodeId} {construct : String}
    (h : Yields (childAt t id n construct) w child w') :
    (t.children id)[n]? = some child ∧ w = w' := by
  unfold childAt at h
  cases hchild : (t.children id)[n]? with
  | none => simp [hchild] at h
  | some found =>
    simp only [hchild] at h
    obtain ⟨rfl, rfl⟩ := Yields.pure_iff.mp h
    exact ⟨rfl, rfl⟩

theorem typeAt_cases {id : NodeId} {type : TypeId} (h : Yields (typeAt t id) w type w') :
    w.nodeType? id = some type ∧ w = w' := by
  simp only [typeAt, Yields.bind_iff, Yields.get_iff] at h
  obtain ⟨_, _, ⟨rfl, rfl⟩, h⟩ := h
  split at h
  next htype =>
    obtain ⟨rfl, rfl⟩ := Yields.pure_iff.mp h
    exact ⟨htype, rfl⟩
  next => simp at h

theorem release_cases (h : Yields (release u) w u' w') :
    u' = { u with temps := [] } ∧ w' = u.temps.foldl Workspace.giveBack w := by
  simp only [release, Yields.bind_iff, Yields.modify_iff, Yields.pure_iff] at h
  obtain ⟨_, _, rfl, rfl, rfl⟩ := h
  exact ⟨rfl, rfl⟩

theorem rent_cases {type : TypeId} {name : String}
    (h : Yields (rent cfg u type) w (name, u') w') :
    Yields (Build.rent cfg type) w name w' ∧ u' = { u with temps := u.temps ++ [name] } := by
  simp only [rent, Yields.bind_iff, Compile.build_iff, Yields.pure_iff] at h
  obtain ⟨name, w₁, hrent, hpair, rfl⟩ := h
  obtain ⟨rfl, rfl⟩ := Prod.mk.inj hpair
  exact ⟨hrent, rfl⟩

theorem lastInstruction_cases {last : Option InstructionId}
    (h : Yields lastInstruction w last w') : last = w.assembly.last? ∧ w = w' := by
  simp only [lastInstruction, Yields.bind_iff, Yields.get_iff, Yields.pure_iff] at h
  obtain ⟨_, _, ⟨rfl, rfl⟩, rfl, rfl⟩ := h
  exact ⟨rfl, rfl⟩

theorem copyToTarget_cases {source : Operand} (h : Yields (copyToTarget cfg u source) w () w') :
    (u.target = none ∧ w = w') ∨
      ∃ target id, u.target = some target ∧
        Yields (Compile.emit (Emit.copy cfg source target)) w id w' := by
  unfold copyToTarget at h
  cases htarget : u.target with
  | none =>
    simp only [htarget] at h
    exact Or.inl ⟨rfl, (Yields.pure_iff.mp h).2⟩
  | some target =>
    simp only [htarget, Yields.bind_iff, Yields.pure_iff] at h
    obtain ⟨id, _, hcopy, -, rfl⟩ := h
    exact Or.inr ⟨target, id, rfl, hcopy⟩

/-! ## Units that descend to no child

These are done after one step, which copies something to the target, if there is one. -/

theorem stepLiteral_cases (h : Yields (stepLiteral cfg t u) w (p, u') w') :
    p = .done ∧ u' = u ∧
      ((∃ id, u.target = none ∧ Yields (Compile.emit (Emit.instruction .nop)) w id w') ∨
        ∃ target id, u.target = some target ∧
          Yields (Compile.emit (Emit.copy cfg (.const (t.tag u.node)) target)) w id w') := by
  unfold stepLiteral at h
  cases htarget : u.target with
  | none =>
    simp only [htarget, Yields.bind_iff, Yields.pure_iff] at h
    obtain ⟨id, _, hnop, hpair, rfl⟩ := h
    obtain ⟨rfl, rfl⟩ := Prod.mk.inj hpair
    exact ⟨rfl, rfl, Or.inl ⟨id, rfl, hnop⟩⟩
  | some target =>
    simp only [htarget, Yields.bind_iff, Yields.pure_iff] at h
    obtain ⟨id, _, hcopy, hpair, rfl⟩ := h
    obtain ⟨rfl, rfl⟩ := Prod.mk.inj hpair
    exact ⟨rfl, rfl, Or.inr ⟨target, id, rfl, hcopy⟩⟩

theorem stepGet_cases (h : Yields (stepGet cfg t u) w (p, u') w') :
    p = .done ∧ u' = u ∧ ∃ child name found w₁, (t.children u.node)[0]? = some child ∧
      (t.tag child).text? = some name ∧ Yields (Compile.emit (Emit.typeOf? cfg name)) w found w₁ ∧
      Yields (copyToTarget cfg u (.var name)) w₁ () w' := by
  simp only [stepGet, Yields.bind_iff] at h
  obtain ⟨child, _, hchild', name, _, hname', found, w₁, htype, h⟩ := h
  obtain ⟨hchild, rfl⟩ := childAt_cases hchild'
  obtain ⟨hname, rfl⟩ := Compile.nameAt_cases hname'
  split at h
  next => simp at h
  next =>
    simp only [Yields.bind_iff, Yields.pure_iff] at h
    obtain ⟨_, _, hcopy, hpair, rfl⟩ := h
    obtain ⟨rfl, rfl⟩ := Prod.mk.inj hpair
    exact ⟨rfl, rfl, child, name, found, w₁, hchild, hname, htype, hcopy⟩

theorem stepDeclare_cases (h : Yields (stepDeclare cfg t u) w (p, u') w') :
    p = .done ∧ u' = u ∧
      ((u.target = none ∧ w = w') ∨
        ∃ child name, (t.children u.node)[0]? = some child ∧ (t.tag child).text? = some name ∧
          Yields (copyToTarget cfg u (.var name)) w () w') := by
  unfold stepDeclare at h
  split at h
  next =>
    simp only [Yields.bind_iff, Yields.pure_iff] at h
    obtain ⟨child, _, hchild', name, _, hname', _, _, hcopy, hpair, rfl⟩ := h
    obtain ⟨hchild, rfl⟩ := childAt_cases hchild'
    obtain ⟨hname, rfl⟩ := Compile.nameAt_cases hname'
    obtain ⟨rfl, rfl⟩ := Prod.mk.inj hpair
    exact ⟨rfl, rfl, Or.inr ⟨child, name, hchild, hname, hcopy⟩⟩
  next hnone =>
    obtain ⟨hpair, rfl⟩ := Yields.pure_iff.mp h
    obtain ⟨rfl, rfl⟩ := Prod.mk.inj hpair
    exact ⟨rfl, rfl, Or.inl ⟨by simpa using hnone, rfl⟩⟩

/-! ## Assignments, sequences and casts

The number of the step tells whether a child is to be compiled next. The target that the child
gets is part of what these lemmas say: the variable, that of the sequence for its last item, or a
temporary. -/

theorem stepSet_cases (h : Yields (stepSet cfg t n u) w (p, u') w') :
    ∃ first name, (t.children u.node)[0]? = some first ∧ (t.tag first).text? = some name ∧
      ((n = 0 ∧ ∃ child, (t.children u.node)[1]? = some child ∧
          p = .descend child (some name) ∧ u' = u ∧ w = w') ∨
        n ≠ 0 ∧ p = .done ∧ ∃ w₁, Yields (copyToTarget cfg u (.var name)) w () w₁ ∧
          Yields (release u) w₁ u' w') := by
  simp only [stepSet, Yields.bind_iff] at h
  obtain ⟨first, _, hfirst', name, _, hname', h⟩ := h
  obtain ⟨hfirst, rfl⟩ := childAt_cases hfirst'
  obtain ⟨hname, rfl⟩ := Compile.nameAt_cases hname'
  refine ⟨first, name, hfirst, hname, ?_⟩
  split at h
  next hzero =>
    simp only [Yields.bind_iff, Yields.pure_iff] at h
    obtain ⟨child, _, hchild', hpair, rfl⟩ := h
    obtain ⟨hchild, rfl⟩ := childAt_cases hchild'
    obtain ⟨rfl, rfl⟩ := Prod.mk.inj hpair
    exact Or.inl ⟨hzero, child, hchild, rfl, rfl, rfl⟩
  next hzero =>
    simp only [Yields.bind_iff, Yields.pure_iff] at h
    obtain ⟨_, w₁, hcopy, _, _, hrelease, hpair, rfl⟩ := h
    obtain ⟨rfl, rfl⟩ := Prod.mk.inj hpair
    exact Or.inr ⟨hzero, rfl, w₁, hcopy, hrelease⟩

theorem stepSequence_cases (h : Yields (stepSequence t n u) w (p, u') w') :
    u' = u ∧ w = w' ∧
      ((∃ child, (t.children u.node)[n]? = some child ∧
          p = .descend child (if n + 1 = (t.children u.node).length then u.target else none)) ∨
        (t.children u.node)[n]? = none ∧ p = .done) := by
  simp only [stepSequence] at h
  cases hchild : (t.children u.node)[n]? with
  | none =>
    simp only [hchild, Yields.pure_iff] at h
    obtain ⟨hpair, rfl⟩ := h
    obtain ⟨rfl, rfl⟩ := Prod.mk.inj hpair
    exact ⟨rfl, rfl, Or.inr ⟨rfl, rfl⟩⟩
  | some child =>
    simp only [hchild, Yields.pure_iff] at h
    obtain ⟨hpair, rfl⟩ := h
    obtain ⟨rfl, rfl⟩ := Prod.mk.inj hpair
    exact ⟨rfl, rfl, Or.inl ⟨child, rfl, rfl⟩⟩

theorem stepCast_cases {value : Option String} (h : Yields (stepCast cfg t n u value) w (p, u') w') :
    (n = 0 ∧ ∃ inner type name, (t.children u.node)[0]? = some inner ∧
        Yields (Build.rent cfg type) w name w' ∧ p = .descend inner (some name) ∧
        u' = { u with temps := u.temps ++ [name], task := .cast (some name) }) ∨
      n ≠ 0 ∧ p = .done ∧ ∃ w₁,
        ((value = none ∧ w = w₁) ∨
          ∃ name, value = some name ∧ Yields (copyToTarget cfg u (.var name)) w () w₁) ∧
        Yields (release u) w₁ u' w' := by
  simp only [stepCast] at h
  split at h
  next hzero =>
    simp only [Yields.bind_iff, Yields.pure_iff] at h
    obtain ⟨inner, _, hinner', type, _, htype, ⟨name, u₁⟩, _, hrent', hpair, rfl⟩ := h
    obtain ⟨hinner, rfl⟩ := childAt_cases hinner'
    obtain ⟨-, rfl⟩ := typeAt_cases htype
    obtain ⟨hrent, rfl⟩ := rent_cases hrent'
    obtain ⟨rfl, rfl⟩ := Prod.mk.inj hpair
    exact Or.inl ⟨hzero, inner, type, name, hinner, hrent, rfl, rfl⟩
  next hzero =>
    refine Or.inr ⟨hzero, ?_⟩
    cases value with
    | none =>
      simp only [Yields.bind_iff, Yields.pure_iff] at h
      obtain ⟨_, _, hrelease, hpair, rfl⟩ := h
      obtain ⟨rfl, rfl⟩ := Prod.mk.inj hpair
      exact ⟨rfl, w, Or.inl ⟨rfl, rfl⟩, hrelease⟩
    | some name =>
      simp only [Yields.bind_iff, Yields.pure_iff] at h
      obtain ⟨_, w₁, hcopy, _, _, hrelease, hpair, rfl⟩ := h
      obtain ⟨rfl, rfl⟩ := Prod.mk.inj hpair
      exact ⟨rfl, w₁, Or.inr ⟨name, rfl, hcopy⟩, hrelease⟩

/-! ## Conditionals and loops

A step of a conditional closes the branch before, if there is one (`EndsBranch`), and then goes
to a condition, to the last branch, or to the end. Its odd steps test the condition. The parts
have names, so that the proofs about conditionals can treat them one at a time. -/

/-- Before the condition of a later branch or the last branch: the branch before jumps to the end,
and the jump over it lands behind that jump. -/
def EndsBranch (n : Nat) (w : Workspace) (pending pending' : Option InstructionId)
    (exits exits' : List InstructionId) (w' : Workspace) : Prop :=
  (n = 0 ∧ pending' = pending ∧ exits' = exits ∧ w = w') ∨
    n ≠ 0 ∧ pending' = none ∧ ∃ exit w₁, exits' = exits ++ [exit] ∧
      Yields (Compile.emit (Emit.instruction (.jump .unresolved))) w exit w₁ ∧
      Yields (patchAll (.after (some exit)) pending.toList) w₁ () w'

/-- How a step of a conditional goes on once the branch before is closed: to the next condition, or
to the last branch. -/
def takeBranch (cfg : Setting) (t : Tree) (n : Nat) (u : WorkUnit) (condition : Option String)
    (branch : NodeId) (pending : Option InstructionId) (exits : List InstructionId) :
    Compile (Progress × WorkUnit) := do
  if n + 1 < (t.children u.node).length then
    let (name, u) ← rent cfg u (← typeAt t branch)
    let task := .conditional (some name) pending exits
    return (.descend branch (some name), { u with task := task })
  else
    return (.descend branch u.target, { u with task := .conditional condition pending exits })

/-- A condition is compiled into a temporary of its type. -/
theorem takeBranch_rents {condition : Option String} {branch : NodeId}
    {pending : Option InstructionId} {exits : List InstructionId}
    (h : Yields (takeBranch cfg t n u condition branch pending exits) w (p, u') w')
    (hn : n + 1 < (t.children u.node).length) :
    ∃ type name, w.nodeType? branch = some type ∧ Yields (Build.rent cfg type) w name w' ∧
      p = .descend branch (some name) ∧ u' = { u with
        temps := u.temps ++ [name], task := .conditional (some name) pending exits } := by
  rw [takeBranch, if_pos hn] at h
  simp only [Yields.bind_iff, Yields.pure_iff] at h
  obtain ⟨type, _, htype', ⟨name, u₁⟩, _, hrent', hpair, rfl⟩ := h
  obtain ⟨htype, rfl⟩ := typeAt_cases htype'
  obtain ⟨hrent, rfl⟩ := rent_cases hrent'
  obtain ⟨rfl, rfl⟩ := Prod.mk.inj hpair
  exact ⟨type, name, htype, hrent, rfl, rfl⟩

/-- An even step of a conditional with a child left closes the branch before and goes on. -/
theorem stepConditional_even {condition : Option String} {pending : Option InstructionId}
    {exits : List InstructionId} {branch : NodeId}
    (h : Yields (stepConditional cfg t n u condition pending exits) w (p, u') w')
    (hbranch : (t.children u.node)[n]? = some branch) (hn : n % 2 = 0) :
    ∃ pending' exits' w₁, EndsBranch n w pending pending' exits exits' w₁ ∧
      Yields (takeBranch cfg t n u condition branch pending' exits') w₁ (p, u') w' := by
  simp only [stepConditional, hbranch] at h
  rw [if_neg (by omega)] at h
  split at h
  next hzero =>
    simp only [Yields.bind_iff, Yields.pure_iff] at h
    obtain ⟨_, _, ⟨rfl, rfl⟩, h⟩ := h
    exact ⟨pending, exits, w, Or.inl ⟨hzero, rfl, rfl, rfl⟩, h⟩
  next hzero =>
    obtain ⟨exit, w₂, hexit, h⟩ := Yields.bind_iff.mp h
    obtain ⟨_, w₃, hpatch, h⟩ := Yields.bind_iff.mp h
    obtain ⟨_, _, hpure, h⟩ := Yields.bind_iff.mp h
    obtain ⟨rfl, rfl⟩ := Yields.pure_iff.mp hpure
    exact ⟨none, exits ++ [exit], w₃, Or.inr ⟨hzero, rfl, exit, w₂, rfl, hexit, hpatch⟩, h⟩

theorem stepConditional_cases {condition : Option String} {pending : Option InstructionId}
    {exits : List InstructionId}
    (h : Yields (stepConditional cfg t n u condition pending exits) w (p, u') w') :
    ((t.children u.node)[n]? = none ∧ p = .done ∧ ∃ w₁ w₂ u₁,
        Yields (patchAll (.after w.assembly.last?) exits) w () w₁ ∧
        Yields (patchAll (.after w.assembly.last?) pending.toList) w₁ () w₂ ∧
        Yields (release u) w₂ u₁ w' ∧ u' = { u₁ with task := .conditional condition none [] }) ∨
      ∃ branch, (t.children u.node)[n]? = some branch ∧
        ((n % 2 = 1 ∧ ∃ name jump w₁ u₁, condition = some name ∧
            Yields (Compile.emit (Emit.jumpIfFalse cfg name .unresolved)) w jump w₁ ∧
            Yields (release u) w₁ u₁ w' ∧ p = .descend branch u₁.target ∧
            u' = { u₁ with task := .conditional none (some jump) exits }) ∨
          n % 2 = 0 ∧ ∃ pending' exits' w₁, EndsBranch n w pending pending' exits exits' w₁ ∧
            ((n + 1 < (t.children u.node).length ∧ ∃ type name,
                Yields (Build.rent cfg type) w₁ name w' ∧ p = .descend branch (some name) ∧
                u' = { u with
                  temps := u.temps ++ [name], task := .conditional (some name) pending' exits' }) ∨
              (t.children u.node).length ≤ n + 1 ∧ w₁ = w' ∧ p = .descend branch u.target ∧
                u' = { u with task := .conditional condition pending' exits' })) := by
  cases hbranch : (t.children u.node)[n]? with
  | none =>
    simp only [stepConditional, hbranch, Yields.bind_iff, Yields.pure_iff] at h
    obtain ⟨last, _, hlast, _, w₁, hexits, _, w₂, hpending, u₁, _, hrelease, hpair, rfl⟩ := h
    obtain ⟨rfl, rfl⟩ := lastInstruction_cases hlast
    obtain ⟨rfl, rfl⟩ := Prod.mk.inj hpair
    exact Or.inl ⟨rfl, rfl, w₁, w₂, u₁, hexits, hpending, hrelease, rfl⟩
  | some branch =>
    refine Or.inr ⟨branch, rfl, ?_⟩
    -- At an even child a branch has ended, and a test or the last branch follows.
    rcases Nat.mod_two_eq_zero_or_one n with heven | hodd
    · right
      obtain ⟨pending', exits', w₁, hends, h⟩ := stepConditional_even h hbranch heven
      refine ⟨heven, pending', exits', w₁, hends, ?_⟩
      rcases Nat.lt_or_ge (n + 1) (t.children u.node).length with hlt | hge
      · obtain ⟨type, name, -, hrent, rfl, rfl⟩ := takeBranch_rents h hlt
        exact Or.inl ⟨hlt, type, name, hrent, rfl, rfl⟩
      · rw [takeBranch, if_neg (by omega)] at h
        obtain ⟨hpair, rfl⟩ := Yields.pure_iff.mp h
        obtain ⟨rfl, rfl⟩ := Prod.mk.inj hpair
        exact Or.inr ⟨hge, rfl, rfl, rfl⟩
    · left
      simp only [stepConditional, hbranch] at h
      rw [if_pos hodd] at h
      cases condition with
      | none => simp at h
      | some name =>
        simp only [Yields.bind_iff, Yields.pure_iff] at h
        obtain ⟨jump, w₁, hjump, u₁, _, hrelease, hpair, rfl⟩ := h
        obtain ⟨rfl, rfl⟩ := Prod.mk.inj hpair
        exact ⟨hodd, name, jump, w₁, u₁, rfl, hjump, hrelease, rfl, rfl⟩

/-- The condition of a loop is compiled into a temporary of its type. -/
theorem stepLoop_rents {start : Option InstructionId} {condition : Option String}
    {exit : Option InstructionId}
    (h : Yields (stepLoop cfg t 0 u start condition exit) w (p, u') w') :
    ∃ test type name, (t.children u.node)[0]? = some test ∧ w.nodeType? test = some type ∧
      Yields (Build.rent cfg type) w name w' ∧ p = .descend test (some name) ∧ u' = { u with
        temps := u.temps ++ [name], task := .loop w.assembly.last? (some name) exit } := by
  simp only [stepLoop, Yields.bind_iff, Yields.pure_iff] at h
  obtain ⟨last, _, hlast, test, _, htest', type, _, htype', ⟨name, u₁⟩, _, hrent', hpair, rfl⟩ := h
  obtain ⟨rfl, rfl⟩ := lastInstruction_cases hlast
  obtain ⟨htest, rfl⟩ := childAt_cases htest'
  obtain ⟨htype, rfl⟩ := typeAt_cases htype'
  obtain ⟨hrent, rfl⟩ := rent_cases hrent'
  obtain ⟨rfl, rfl⟩ := Prod.mk.inj hpair
  exact ⟨test, type, name, htest, htype, hrent, rfl, rfl⟩

theorem stepLoop_cases {start : Option InstructionId} {condition : Option String}
    {exit : Option InstructionId}
    (h : Yields (stepLoop cfg t n u start condition exit) w (p, u') w') :
    (n = 0 ∧ ∃ test type name, (t.children u.node)[0]? = some test ∧
        Yields (Build.rent cfg type) w name w' ∧ p = .descend test (some name) ∧
        u' = { u with
          temps := u.temps ++ [name], task := .loop w.assembly.last? (some name) exit }) ∨
      (n = 1 ∧ ∃ name jump body w₁ u₁, condition = some name ∧
        Yields (Compile.emit (Emit.jumpIfFalse cfg name .unresolved)) w jump w₁ ∧
        (t.children u.node)[1]? = some body ∧ Yields (release u) w₁ u₁ w' ∧
        p = .descend body u₁.target ∧ u' = { u₁ with task := .loop start none (some jump) }) ∨
      1 < n ∧ p = .done ∧ ∃ back w₁ w₂,
        Yields (Compile.emit (Emit.instruction (.jump (.after start)))) w back w₁ ∧
        Yields (patchAll (.after (some back)) exit.toList) w₁ () w₂ ∧
        Yields (release u) w₂ u' w' := by
  rcases n with _ | _ | n
  · obtain ⟨test, type, name, htest, -, hrent, rfl, rfl⟩ := stepLoop_rents h
    exact Or.inl ⟨rfl, test, type, name, htest, hrent, rfl, rfl⟩
  · unfold stepLoop at h
    refine Or.inr (Or.inl ⟨rfl, ?_⟩)
    cases condition with
    | none => simp at h
    | some name =>
      simp only [Yields.bind_iff, Yields.pure_iff] at h
      obtain ⟨jump, w₁, hjump, body, _, hbody', u₁, _, hrelease, hpair, rfl⟩ := h
      obtain ⟨hbody, rfl⟩ := childAt_cases hbody'
      obtain ⟨rfl, rfl⟩ := Prod.mk.inj hpair
      exact ⟨name, jump, body, w₁, u₁, rfl, hjump, hbody, hrelease, rfl, rfl⟩
  · simp only [stepLoop, Yields.bind_iff, Yields.pure_iff] at h
    obtain ⟨back, w₁, hback, _, w₂, hpatch, u₁, _, hrelease, hpair, rfl⟩ := h
    obtain ⟨rfl, rfl⟩ := Prod.mk.inj hpair
    exact Or.inr (Or.inr ⟨by omega, rfl, back, w₁, w₂, hback, hpatch, hrelease⟩)

/-! ## Calls

A call first compiles its arguments, each to a temporary or handed over as it is, and the last step
places the call. The slot for its result is the only operand that may be missing until then. -/

/-- The operands of a call: the arguments and the slot for the result, which is the target or a
new temporary. -/
def CompletesArguments (cfg : Setting) (op : Operation) (u : WorkUnit) (w : Workspace)
    (arguments operands : List Operand) (u' : WorkUnit) (w' : Workspace) : Prop :=
  (op.returnType? = none ∧ operands = arguments ∧ u' = u ∧ w = w') ∨
    (∃ type target, op.returnType? = some type ∧ u.target = some target ∧
      operands = arguments ++ [.var target] ∧ u' = u ∧ w = w') ∨
    ∃ type name, op.returnType? = some type ∧ u.target = none ∧
      operands = arguments ++ [.var name] ∧ Yields (Build.rent cfg type) w name w' ∧
      u' = { u with temps := u.temps ++ [name] }

/-- How a call ends, once all of its operands are there. -/
def placeCall (cfg : Setting) (operation : String) (operands : List Operand) (u : WorkUnit) :
    Compile (Progress × WorkUnit) := do
  let _ ← Compile.emit (Emit.call cfg operation operands)
  return (.done, ← release u)

theorem placeCall_cases {operation : String} {operands : List Operand}
    (h : Yields (placeCall cfg operation operands u) w (p, u') w') :
    p = .done ∧ ∃ last w₁, Yields (Compile.emit (Emit.call cfg operation operands)) w last w₁ ∧
      Yields (release u) w₁ u' w' := by
  simp only [placeCall, Yields.bind_iff, Yields.pure_iff] at h
  obtain ⟨last, w₁, hcall, _, _, hrelease, hpair, rfl⟩ := h
  obtain ⟨rfl, rfl⟩ := Prod.mk.inj hpair
  exact ⟨rfl, last, w₁, hcall, hrelease⟩

/-- Without an argument left, the call has no result, a result in its target, or one in a temporary
that nobody reads. -/
theorem stepCall_last {id : OperationId} {arguments : List Operand}
    (h : Yields (stepCall cfg t n u id arguments) w (p, u') w')
    (hnone : (t.children u.node)[n]? = none) :
    ∃ operands u₁ w₁,
      CompletesArguments cfg (cfg.catalog.operation id) u w arguments operands u₁ w₁ ∧
      Yields (placeCall cfg (cfg.catalog.operation id).fullName operands u₁) w₁ (p, u') w' := by
  simp only [stepCall, hnone] at h
  cases htype : (cfg.catalog.operation id).returnType? with
  | none =>
    rw [htype] at h
    exact ⟨arguments, u, w, Or.inl ⟨htype, rfl, rfl, rfl⟩, h⟩
  | some type =>
    cases htarget : u.target with
    | some target =>
      rw [htype, htarget] at h
      exact ⟨_, _, w, Or.inr (Or.inl ⟨type, target, htype, htarget, rfl, rfl, rfl⟩), h⟩
    | none =>
      rw [htype, htarget] at h
      obtain ⟨⟨name, u₁⟩, w₁, hrent', h⟩ := Yields.bind_iff.mp h
      obtain ⟨hrent, rfl⟩ := rent_cases hrent'
      exact ⟨_, _, w₁, Or.inr (Or.inr ⟨type, name, htype, htarget, rfl, hrent, rfl⟩), h⟩

theorem stepCall_cases {id : OperationId} {arguments : List Operand}
    (h : Yields (stepCall cfg t n u id arguments) w (p, u') w') :
    (∃ argument, (t.children u.node)[n]? = some argument ∧
        ((∃ name, ((cfg.catalog.operation id).parameters[n]?.elim .input (·.direction) ≠ .input ∧
              passedVariable? t w argument = some name) ∧ p = .again ∧ w = w' ∧
            u' = { u with task := .call id (arguments ++ [.var name]) }) ∨
          ((cfg.catalog.operation id).parameters[n]?.elim .input (·.direction) = .input ∨
            passedVariable? t w argument = none) ∧ ∃ type name,
              Yields (Build.rent cfg type) w name w' ∧ p = .descend argument (some name) ∧
              u' = { u with
                temps := u.temps ++ [name], task := .call id (arguments ++ [.var name]) })) ∨
      (t.children u.node)[n]? = none ∧ p = .done ∧ ∃ operands u₁ w₁ last w₂,
        CompletesArguments cfg (cfg.catalog.operation id) u w arguments operands u₁ w₁ ∧
        Yields (Compile.emit (Emit.call cfg (cfg.catalog.operation id).fullName operands))
          w₁ last w₂ ∧ Yields (release u₁) w₂ u' w' := by
  cases hargument : (t.children u.node)[n]? with
  | some argument =>
    refine Or.inl ⟨argument, rfl, ?_⟩
    simp only [stepCall, hargument, Yields.bind_iff, Yields.get_iff] at h
    obtain ⟨_, _, ⟨rfl, rfl⟩, h⟩ := h
    -- A variable is handed out as it is only in a place that is not one of an input.
    cases hpassed : (if (cfg.catalog.operation id).parameters[n]?.elim .input (·.direction) = .input
        then none else passedVariable? t w argument) with
    | some name =>
      simp only [hpassed, Yields.pure_iff] at h
      obtain ⟨hpair, rfl⟩ := h
      obtain ⟨rfl, rfl⟩ := Prod.mk.inj hpair
      split at hpassed
      next => cases hpassed
      next hdirection => exact Or.inl ⟨name, ⟨hdirection, hpassed⟩, rfl, rfl, rfl⟩
    | none =>
      simp only [hpassed, Yields.bind_iff, Yields.pure_iff] at h
      obtain ⟨type, _, htype, ⟨name, u₁⟩, _, hrent', hpair, rfl⟩ := h
      obtain ⟨-, rfl⟩ := typeAt_cases htype
      obtain ⟨hrent, rfl⟩ := rent_cases hrent'
      obtain ⟨rfl, rfl⟩ := Prod.mk.inj hpair
      refine Or.inr ⟨?_, type, name, hrent, rfl, rfl⟩
      split at hpassed
      next hdirection => exact Or.inl hdirection
      next => exact Or.inr hpassed
  | none =>
    obtain ⟨operands, u₁, w₁, hcompletes, h⟩ := stepCall_last h hargument
    obtain ⟨rfl, last, w₂, hcall, hrelease⟩ := placeCall_cases h
    exact Or.inr ⟨rfl, rfl, operands, u₁, w₁, last, w₂, hcompletes, hcall, hrelease⟩

/-! ## Arrays

The first step makes the array, each later one stores the element that has just been compiled,
and all of them go on in the same way (`fillNext`). -/

theorem ofExcept_cases {α : Type} {a : α} {outcome : Except BuildError α}
    (h : Yields (Compile.emit (ofExcept outcome)) w a w') : w = w' := by
  obtain ⟨a', h, rfl⟩ := Compile.emit_iff.mp h
  cases outcome with
  | error e => exact absurd h (by simp [ofExcept])
  | ok a => exact (Yields.pure_iff.mp h).2 ▸ rfl

/-- What an array fill does before it goes on to an element: it makes the array, or stores the
element before. -/
def FillsElement (cfg : Setting) (n : Nat) (u : WorkUnit) (type : TypeId)
    (slots : Option (String × String)) (w : Workspace) (slots' : Option (String × String))
    (u' : WorkUnit) (w' : Workspace) : Prop :=
  (n = 0 ∧ ∃ array scratch element elementName length id u₁ w₁ w₂,
    ((u.target = some array ∧ u₁ = u ∧ w = w₁) ∨
      u.target = none ∧ Yields (Build.rent cfg type) w array w₁ ∧
        u₁ = { u with temps := u.temps ++ [array] }) ∧
    Yields (Build.rent cfg element) w₁ scratch w₂ ∧
    u' = { u₁ with temps := u₁.temps ++ [scratch] } ∧ slots' = some (array, scratch) ∧
    Yields (Compile.emit (Emit.call cfg Manifest.arrayCreate
      [.const (.typeName elementName), .const length, .var array])) w₂ id w') ∨
  (∃ array scratch index id, slots = some (array, scratch) ∧ slots' = slots ∧ u' = u ∧
    Yields (Compile.emit (Emit.call cfg Manifest.arraySetValue
      [.var array, .var scratch, .const index])) w id w') ∨
  slots = none ∧ slots' = none ∧ u' = u ∧ w = w'

/-- How a step of an array fill ends: with the next element, if there is one. -/
def fillNext (children : List NodeId) (n : Nat) (u : WorkUnit) (type : TypeId)
    (slots : Option (String × String)) : Compile (Progress × WorkUnit) := do
  match children[n]?, slots with
  | some element, some (_, scratch) =>
    return (.descend element (some scratch), { u with task := .arrayFill type slots })
  | _, _ => return (.done, ← release u)

theorem fillNext_cases {children : List NodeId} {type : TypeId} {slots : Option (String × String)}
    (h : Yields (fillNext children n u type slots) w (p, u') w') :
    (∃ element array scratch, slots = some (array, scratch) ∧ w = w' ∧
        p = .descend element (some scratch) ∧ children[n]? = some element ∧
        u' = { u with task := .arrayFill type slots }) ∨
      p = .done ∧ Yields (release u) w u' w' := by
  unfold fillNext at h
  split at h
  next element array scratch helement =>
    obtain ⟨hpair, rfl⟩ := Yields.pure_iff.mp h
    obtain ⟨rfl, rfl⟩ := Prod.mk.inj hpair
    exact Or.inl ⟨element, array, scratch, rfl, rfl, rfl, helement, rfl⟩
  next =>
    simp only [Yields.bind_iff, Yields.pure_iff] at h
    obtain ⟨u₁, _, hrelease, hpair, rfl⟩ := h
    obtain ⟨rfl, rfl⟩ := Prod.mk.inj hpair
    exact Or.inr ⟨rfl, hrelease⟩

/-- How the first step of an array fill goes on once it knows the slot of the array: it makes the
array there, with a temporary for its elements. -/
def makeArray (cfg : Setting) (children : List NodeId) (u : WorkUnit) (type : TypeId)
    (array : String) : Compile (Progress × WorkUnit) := do
  let element := (cfg.catalog.types.info type).element.getD TypeTable.object
  let (scratch, u) ← rent cfg u element
  let length ← Compile.emit (ofExcept (countLiteral children.length))
  let _ ← Compile.emit (Emit.call cfg Manifest.arrayCreate
    [.const (.typeName (cfg.catalog.types.name element)), .const length, .var array])
  let (slots, u) ← pure (some (array, scratch), u)
  fillNext children 0 u type slots

theorem makeArray_cases {children : List NodeId} {type : TypeId} {array : String}
    (h : Yields (makeArray cfg children u type array) w (p, u') w') :
    ∃ element elementName scratch length id w₁ w₂, Yields (Build.rent cfg element) w scratch w₁ ∧
      Yields (Compile.emit (Emit.call cfg Manifest.arrayCreate
        [.const (.typeName elementName), .const length, .var array])) w₁ id w₂ ∧
      Yields (fillNext children 0 { u with temps := u.temps ++ [scratch] } type
        (some (array, scratch))) w₂ (p, u') w' := by
  simp only [makeArray, Yields.bind_iff, Yields.pure_iff] at h
  obtain ⟨⟨scratch, u₁⟩, w₁, hrent', length, _, hlength, id, w₂, hcall, _, _, ⟨rfl, rfl⟩, h⟩ := h
  obtain ⟨hrent, rfl⟩ := rent_cases hrent'
  obtain rfl := ofExcept_cases hlength
  exact ⟨_, _, scratch, length, id, w₁, w₂, hrent, hcall, h⟩

theorem stepArrayFill_cases {type : TypeId} {slots : Option (String × String)}
    (h : Yields (stepArrayFill cfg t n u type slots) w (p, u') w') :
    ∃ slots' u₁ w₁, FillsElement cfg n u type slots w slots' u₁ w₁ ∧
      ((∃ element array scratch, slots' = some (array, scratch) ∧ w₁ = w' ∧
          p = .descend element (some scratch) ∧ (t.children u.node)[n]? = some element ∧
          u' = { u₁ with task := .arrayFill type slots' }) ∨
        p = .done ∧ Yields (release u₁) w₁ u' w') := by
  simp only [stepArrayFill] at h
  -- The first step makes the array; each later one stores the element that the one before compiled.
  split at h
  next =>
    -- The array is made in the target, or in a temporary of its own.
    cases htarget : u.target with
    | some target =>
      rw [htarget] at h
      obtain ⟨element, elementName, scratch, length, id, w₁, w₂, hrent, hcall, h⟩ :=
        makeArray_cases (u := u) h
      refine ⟨_, _, w₂, Or.inl ⟨rfl, target, scratch, element, elementName, length, id, u, w, w₁,
        Or.inl ⟨htarget, rfl, rfl⟩, hrent, rfl, rfl, hcall⟩, ?_⟩
      exact fillNext_cases h
    | none =>
      rw [htarget] at h
      obtain ⟨⟨array, u₀⟩, w₀, hrent₀, h⟩ := Yields.bind_iff.mp h
      obtain ⟨hrent, rfl⟩ := rent_cases hrent₀
      obtain ⟨element, elementName, scratch, length, id, w₁, w₂, hrent', hcall, h⟩ :=
        makeArray_cases h
      refine ⟨_, _, w₂, Or.inl ⟨rfl, array, scratch, element, elementName, length, id, _, w₀, w₁,
        Or.inr ⟨htarget, hrent, rfl⟩, hrent', rfl, rfl, hcall⟩, ?_⟩
      exact fillNext_cases h
  next k array scratch =>
    simp only [Yields.bind_iff, Yields.pure_iff] at h
    obtain ⟨index, _, hindex, id, w₁, hcall, _, _, ⟨rfl, rfl⟩, h⟩ := h
    obtain rfl := ofExcept_cases hindex
    refine ⟨_, u, w₁, Or.inr (Or.inl ⟨array, scratch, index, id, rfl, rfl, rfl, hcall⟩), ?_⟩
    exact fillNext_cases h
  next =>
    simp only [Yields.bind_iff, Yields.pure_iff] at h
    obtain ⟨_, _, ⟨rfl, rfl⟩, h⟩ := h
    refine ⟨_, u, w, Or.inr (Or.inr ⟨rfl, rfl, rfl, rfl⟩), ?_⟩
    exact fillNext_cases h

/-! ## Events

A call of an event stores the address behind it and jumps, to the first block if that has begun,
else to a place that is patched later. The first step of a block begins it, after a call of it
where its value is asked for, and the second step ends it. -/

theorem entryAt_cases {label : String} {entry : EntryPoint} (h : Yields (entryAt label) w entry w') :
    w.entryPoints.get? label = some entry ∧ w = w' := by
  simp only [entryAt, Yields.bind_iff, Yields.get_iff] at h
  obtain ⟨_, _, ⟨rfl, rfl⟩, h⟩ := h
  split at h
  next found hfound =>
    obtain ⟨rfl, rfl⟩ := Yields.pure_iff.mp h
    exact ⟨hfound, rfl⟩
  next => simp at h

/-- What a call of a routine does behind its jump: it resets the return pointer, and hands the
result on. -/
def finishCall (cfg : Setting) (entry : EntryPoint) (target : Option String) : Compile Unit := do
  let _ ← Compile.emit (Emit.copy cfg (.const (.uint32 returnAddress)) entry.returnPointer)
  if let some target := target then
    let _ ← Compile.emit (Emit.copy cfg (.var Catalog.returnValue) target)

theorem callEvent_cases {label : String} {target : Option String}
    (h : Yields (callEvent cfg label target) w () w') :
    ∃ entry id w₁ jump w₂ w₃ id' w₄, w.entryPoints.get? label = some entry ∧
      Yields (Compile.emit (Emit.copyOffset cfg entry.returnPointer
        (UInt32.ofNat Instruction.jumpSize))) w id w₁ ∧
      ((∃ start, entry.bodyStart = some start ∧
          Yields (Compile.emit (Emit.instruction (.jump start))) w₁ jump w₂ ∧ w₂ = w₃) ∨
        entry.bodyStart = none ∧
          Yields (Compile.emit (Emit.instruction (.jump .unresolved))) w₁ jump w₂ ∧
          Yields (modifyEntry label fun entry =>
            { entry with landingPoints := entry.landingPoints ++ [jump] }) w₂ () w₃) ∧
      Yields (Compile.emit (Emit.copy cfg (.const (.uint32 returnAddress)) entry.returnPointer))
        w₃ id' w₄ ∧
      ((target = none ∧ w₄ = w') ∨ ∃ slot last, target = some slot ∧
        Yields (Compile.emit (Emit.copy cfg (.var Catalog.returnValue) slot)) w₄ last w') := by
  simp only [callEvent, Yields.bind_iff, Yields.get_iff] at h
  obtain ⟨_, _, ⟨rfl, rfl⟩, h⟩ := h
  cases hentry : w.entryPoints.get? label with
  | none => simp [hentry] at h
  | some entry =>
    simp only [hentry, Yields.bind_iff] at h
    obtain ⟨id, w₁, hoffset, h⟩ := h
    -- The two ways to jump come together again at what is done behind the jump.
    have hrest : ∃ jump w₂ w₃, ((∃ start, entry.bodyStart = some start ∧
          Yields (Compile.emit (Emit.instruction (.jump start))) w₁ jump w₂ ∧ w₂ = w₃) ∨
        entry.bodyStart = none ∧
          Yields (Compile.emit (Emit.instruction (.jump .unresolved))) w₁ jump w₂ ∧
          Yields (modifyEntry label fun entry =>
            { entry with landingPoints := entry.landingPoints ++ [jump] }) w₂ () w₃) ∧
        Yields (finishCall cfg entry target) w₃ () w' := by
      cases hstart : entry.bodyStart with
      | some start =>
        simp only [hstart] at h
        obtain ⟨jump, w₂, hjump, h⟩ := Yields.bind_iff.mp h
        exact ⟨jump, w₂, w₂, Or.inl ⟨start, rfl, hjump, rfl⟩, h⟩
      | none =>
        simp only [hstart] at h
        obtain ⟨jump, w₂, hjump, h⟩ := Yields.bind_iff.mp h
        obtain ⟨_, w₃, hmodify, h⟩ := Yields.bind_iff.mp h
        exact ⟨jump, w₂, w₃, Or.inr ⟨rfl, hjump, hmodify⟩, h⟩
    obtain ⟨jump, w₂, w₃, hjump, h⟩ := hrest
    obtain ⟨id', w₄, hcopy, h⟩ := Yields.bind_iff.mp h
    refine ⟨entry, id, w₁, jump, w₂, w₃, id', w₄, rfl, hoffset, hjump, hcopy, ?_⟩
    cases target with
    | none => exact Or.inl ⟨rfl, (Yields.pure_iff.mp h).2⟩
    | some slot =>
      simp only [Yields.bind_iff, Yields.pure_iff] at h
      obtain ⟨last, _, hresult, -, rfl⟩ := h
      exact Or.inr ⟨slot, last, rfl, hresult⟩

theorem beginBlock_cases {label : String} (h : Yields (beginBlock label) w () w') :
    ∃ entry w₁ w₂, w.entryPoints.get? label = some entry ∧
      ((entry.compiled = 0 ∧
          Yields (modifyEntry label fun entry => { entry with
            bodyStart := some (.after w.assembly.last?), landingPoints := [] }) w () w₁ ∧
          Yields (Compile.emit (Emit.entryPoint label)) w₁ () w₂ ∧
          Yields (patchAll (.after w.assembly.last?) entry.landingPoints) w₂ () w') ∨
        entry.compiled ≠ 0 ∧
          Yields (modifyEntry label fun entry => { entry with chain := none }) w () w₁ ∧ w₁ = w₂ ∧
          Yields (patchAll (.after w.assembly.last?) entry.chain.toList) w₂ () w') := by
  simp only [beginBlock, Yields.bind_iff] at h
  obtain ⟨last, _, hlast, entry, _, hentry', h⟩ := h
  obtain ⟨rfl, rfl⟩ := lastInstruction_cases hlast
  obtain ⟨hentry, rfl⟩ := entryAt_cases hentry'
  split at h
  next hzero =>
    simp only [Yields.bind_iff] at h
    obtain ⟨_, w₁, hmodify, _, w₂, hlabel, hpatch⟩ := h
    exact ⟨entry, w₁, w₂, hentry, Or.inl ⟨hzero, hmodify, hlabel, hpatch⟩⟩
  next hzero =>
    simp only [Yields.bind_iff] at h
    obtain ⟨_, w₁, hmodify, hpatch⟩ := h
    exact ⟨entry, w₁, w₁, hentry, Or.inr ⟨hzero, hmodify, rfl, hpatch⟩⟩

theorem endBlock_cases {label : String} (h : Yields (endBlock cfg label) w () w') :
    ∃ entry w₁, w.entryPoints.get? label = some entry ∧
      Yields (modifyEntry label fun entry' => { entry' with compiled := entry.compiled + 1 })
        w () w₁ ∧
      ((entry.blocks ≤ entry.compiled + 1 ∧
          ∃ id, Yields (Compile.emit (Emit.jumpIndirect cfg entry.returnPointer)) w₁ id w') ∨
        entry.compiled + 1 < entry.blocks ∧
          ∃ jump w₂, Yields (Compile.emit (Emit.instruction (.jump .unresolved))) w₁ jump w₂ ∧
            Yields (modifyEntry label fun entry => { entry with chain := some jump }) w₂ () w') := by
  simp only [endBlock, Yields.bind_iff] at h
  obtain ⟨entry, _, hentry', _, w₁, hmodify, h⟩ := h
  obtain ⟨hentry, rfl⟩ := entryAt_cases hentry'
  refine ⟨entry, w₁, hentry, hmodify, ?_⟩
  split at h
  next hle =>
    simp only [Yields.bind_iff, Yields.pure_iff] at h
    obtain ⟨id, _, hjump, -, rfl⟩ := h
    exact Or.inl ⟨hle, id, hjump⟩
  next hle =>
    simp only [Yields.bind_iff] at h
    obtain ⟨jump, w₂, hjump, hchain⟩ := h
    exact Or.inr ⟨Nat.lt_of_not_le hle, jump, w₂, hjump, hchain⟩

/-- How the first step of a block goes on, whether it has called the block or not: the block begins,
and its body follows. -/
def enterBlock (t : Tree) (node : NodeId) (label : String) (u : WorkUnit) :
    Compile (Progress × WorkUnit) := do
  beginBlock label
  let body ← childAt t node 1 Keyword.event
  return (.descend body (some Catalog.returnValue), u)

theorem enterBlock_cases {node : NodeId} {label : String}
    (h : Yields (enterBlock t node label u) w (p, u') w') :
    ∃ body, Yields (beginBlock label) w () w' ∧ (t.children node)[1]? = some body ∧
      p = .descend body (some Catalog.returnValue) ∧ u' = u := by
  simp only [enterBlock, Yields.bind_iff, Yields.pure_iff] at h
  obtain ⟨_, _, hbegin, body, _, hbody', hpair, rfl⟩ := h
  obtain ⟨hbody, rfl⟩ := childAt_cases hbody'
  obtain ⟨rfl, rfl⟩ := Prod.mk.inj hpair
  exact ⟨body, hbegin, hbody, rfl, rfl⟩

theorem stepEvent_cases {skip : Option InstructionId}
    (h : Yields (stepEvent cfg t n u skip) w (p, u') w') :
    ∃ first label, (t.children u.node)[0]? = some first ∧ (t.tag first).text? = some label ∧
      ((n = 0 ∧ ∃ skip' body w₁,
          ((u.target = none ∧ skip' = none ∧ w = w₁) ∨
            ∃ target jump w₀, u.target = some target ∧ skip' = some jump ∧
              Yields (callEvent cfg label (some target)) w () w₀ ∧
              Yields (Compile.emit (Emit.instruction (.jump .unresolved))) w₀ jump w₁) ∧
          Yields (beginBlock label) w₁ () w' ∧ (t.children u.node)[1]? = some body ∧
          p = .descend body (some Catalog.returnValue) ∧ u' = { u with task := .event skip' }) ∨
        n ≠ 0 ∧ p = .done ∧ u' = u ∧ ∃ w₁, Yields (endBlock cfg label) w () w₁ ∧
          Yields (patchAll (.after w₁.assembly.last?) skip.toList) w₁ () w') := by
  simp only [stepEvent, Yields.bind_iff] at h
  obtain ⟨first, _, hfirst', label, _, hlabel', h⟩ := h
  obtain ⟨hfirst, rfl⟩ := childAt_cases hfirst'
  obtain ⟨hlabel, rfl⟩ := Compile.nameAt_cases hlabel'
  refine ⟨first, label, hfirst, hlabel, ?_⟩
  split at h
  next hzero =>
    refine Or.inl ⟨hzero, ?_⟩
    cases htarget : u.target with
    | none =>
      rw [htarget] at h
      obtain ⟨body, hbegin, hbody, rfl, rfl⟩ := enterBlock_cases h
      exact ⟨none, body, w, Or.inl ⟨rfl, rfl, rfl⟩, hbegin, hbody, rfl, rfl⟩
    | some target =>
      rw [htarget] at h
      obtain ⟨_, w₀, hcall, h⟩ := Yields.bind_iff.mp h
      obtain ⟨jump, w₁, hjump, h⟩ := Yields.bind_iff.mp h
      obtain ⟨body, hbegin, hbody, rfl, rfl⟩ := enterBlock_cases h
      exact ⟨some jump, body, w₁, Or.inr ⟨target, jump, w₀, rfl, rfl, hcall, hjump⟩, hbegin, hbody,
        rfl, rfl⟩
  next hzero =>
    simp only [Yields.bind_iff, Yields.pure_iff] at h
    obtain ⟨_, w₁, hend, last, _, hlast, _, _, hpatch, hpair, rfl⟩ := h
    obtain ⟨rfl, rfl⟩ := lastInstruction_cases hlast
    obtain ⟨rfl, rfl⟩ := Prod.mk.inj hpair
    exact Or.inr ⟨hzero, rfl, rfl, w₁, hend, hpatch⟩

/-! ## Units of one step -/

section OneStep

variable {node : NodeId} {target : Option String} {temps : List String}

theorem step_callEvent_cases
    (h : Yields (step cfg t ⟨node, target, n, temps, .callEvent⟩) w (p, u') w') :
    ∃ label, (t.tag node).text? = some label ∧ Yields (callEvent cfg label target) w () w' ∧
      p = .done ∧ u' = ⟨node, target, n + 1, temps, .callEvent⟩ := by
  simp only [step, Yields.bind_iff, Yields.pure_iff] at h
  obtain ⟨label, _, hlabel', _, _, hcall, hpair, rfl⟩ := h
  obtain ⟨hlabel, rfl⟩ := Compile.nameAt_cases hlabel'
  obtain ⟨rfl, rfl⟩ := Prod.mk.inj hpair
  exact ⟨label, hlabel, hcall, rfl, rfl⟩

/-- A unit of inline assembly changes nothing of the workspace but the assembly. -/
theorem step_inlineAsm_cases
    (h : Yields (step cfg t ⟨node, target, n, temps, .inlineAsm⟩) w (p, u') w') :
    ∃ a, Yields (inlineInstructions cfg t (t.children node)) w.assembly () a ∧
      w' = { w with assembly := a } ∧ p = .done ∧
      u' = ⟨node, target, n + 1, temps, .inlineAsm⟩ := by
  simp only [step, Yields.bind_iff, Yields.pure_iff] at h
  obtain ⟨_, _, hemit, hpair, rfl⟩ := h
  obtain ⟨rfl, rfl⟩ := Prod.mk.inj hpair
  obtain ⟨a, hinline, rfl⟩ := Compile.emit_iff.mp hemit
  exact ⟨a, hinline, rfl, rfl, rfl⟩

theorem step_typeOf_cases {type : TypeId}
    (h : Yields (step cfg t ⟨node, target, n, temps, .typeOf type⟩) w (p, u') w') :
    Yields (copyToTarget cfg ⟨node, target, n + 1, temps, .typeOf type⟩
        (.const (.typeName (cfg.catalog.types.name type)))) w () w' ∧
      p = .done ∧ u' = ⟨node, target, n + 1, temps, .typeOf type⟩ := by
  simp only [step, Yields.bind_iff, Yields.pure_iff] at h
  obtain ⟨_, _, hcopy, hpair, rfl⟩ := h
  obtain ⟨rfl, rfl⟩ := Prod.mk.inj hpair
  exact ⟨hcopy, rfl, rfl⟩

end OneStep

/-! ## Units -/

theorem start_cases {id : NodeId} {target : Option String}
    (h : Yields (start t id target) w u w') :
    w = w' ∧ ∃ construct, w.construct? id = some construct ∧
      u = { node := id, target := target, task := .ofConstruct construct } := by
  simp only [start, Yields.bind_iff, Yields.get_iff] at h
  obtain ⟨_, _, ⟨rfl, rfl⟩, h⟩ := h
  split at h
  next construct hconstruct =>
    obtain ⟨rfl, rfl⟩ := Yields.pure_iff.mp h
    exact ⟨rfl, construct, hconstruct, rfl⟩
  next => simp at h

end Generation

end SexprAsm
