import SexprAsm.Proofs.Generation.Waiting

/-!
# The layout of conditionals and loops

The code of a conditional is that of its children in order, with a test behind each condition that
skips the branch, and a jump to the end behind each branch but the last child (`WholeRun.Branches`).
The code of a loop is that of its condition, a test, and the code of its body with a jump back
(`WholeRun.Cycles`). This holds of the final code, whatever the children are, blocks of events and
inline assembly included: the jumps that a unit has given their target wait for nothing any more,
so they stay as they are.
-/

namespace SexprAsm

open Generation Workspace Instruction

/-! ## Jumps to places

Places in the code are numbers of instructions, while jumps go to addresses. The two are tied
together by the layout of the code, where every instruction starts at the end of the one before. -/

/-- The instruction at a place jumps to another place: its target has the address at which the code
before that place ends. -/
def Assembly.Directs (a : Assembly) (jump : JumpTarget → Instruction) (k n : Nat) : Prop :=
  ∃ target, a.instructions[k]? = some (jump target) ∧ target.place? = some n ∧
    ∀ offset, a.addressOf offset target = .ok (bytes (a.instructions.take n))

theorem Assembly.Laid.directs {a : Assembly} (h : a.Laid) {jump : JumpTarget → Instruction}
    {k n : Nat} {target : JumpTarget} (hget : a.instructions[k]? = some (jump target))
    (hplace : target.place? = some n) (hn : n ≤ a.instructions.length) : a.Directs jump k n := by
  refine ⟨target, hget, hplace, fun offset => ?_⟩
  cases target with
  | unresolved => cases hplace
  | address _ => cases hplace
  | after id =>
    cases id with
    | none =>
      obtain rfl := Option.some.inj hplace
      rfl
    | some id =>
      obtain rfl := Option.some.inj hplace
      exact h.addressOf_after (a.length_instructions ▸ hn) offset

/-! ## A run from its start to its end

The layout is a relation between nodes and ranges of the code of the finished run (`Spans`). That
of a conditional and of a loop is defined by their children (`Branches`, `Cycles`), and asks of
each child that it has its range, so nesting needs no further definition. -/

/-- A run of the work stack on a tree whose nodes have their meaning, from the root to the end. -/
structure WholeRun (cfg : Setting) (t : Tree) where
  before : Workspace
  first : WorkUnit
  after : Workspace
  prepared : Resolution.Prepared cfg t before
  started : Yields (start t Tree.root none) before first before
  ended : Reaches cfg t [first] before [] after

namespace WholeRun

variable {cfg : Setting} {t : Tree} (r : WholeRun cfg t)

/-- The run passes through a stack and a workspace. -/
def At (stack : List WorkUnit) (w : Workspace) : Prop := Reaches cfg t [r.first] r.before stack w

/-- The unit of a node with a target starts in one workspace, and is done in another. -/
def Compiles (id : NodeId) (target : Option String) (w w' : Workspace) : Prop :=
  ∃ u rest, r.At (u :: rest) w ∧ Yields (start t id target) w u w ∧ Finishes cfg t u w w'

/-- The code of a node with a target: what is emitted while its unit is at work. -/
def Spans (id : NodeId) (target : Option String) (lo hi : Nat) : Prop :=
  ∃ w w', r.Compiles id target w w' ∧ w.assembly.instructions.length = lo ∧
    w'.assembly.instructions.length = hi

/-- The code of a condition, whose value goes to a temporary of its type, and behind it a test: if
that holds false, the code goes on elsewhere. -/
def Tests (id : NodeId) (lo mid next : Nat) : Prop :=
  ∃ name type w w', r.before.nodeType? id = some type ∧ w.rented.get? name = some type ∧
    r.after.Temporary name type ∧ r.Compiles id (some name) w w' ∧
    w.assembly.instructions.length = lo ∧ w'.assembly.instructions.length = mid ∧
    r.after.assembly.instructions[mid]? = some (.push name) ∧
    r.after.assembly.Directs .jumpIfFalse (mid + 1) next

/-- The code of children of a conditional, from a place on to its end. -/
inductive Branches (target : Option String) (finish : Nat) : List NodeId → Nat → Prop where
  | nil : Branches target finish [] finish
  /-- The child that is left is compiled without a condition. -/
  | otherwise {branch : NodeId} {lo : Nat} (code : r.Spans branch target lo finish) :
      Branches target finish [branch] lo
  /-- The last branch needs no jump to the end. -/
  | last {test branch : NodeId} {lo mid : Nat} (tests : r.Tests test lo mid finish)
      (code : r.Spans branch target (mid + 2) finish) : Branches target finish [test, branch] lo
  | branch {test branch : NodeId} {rest : List NodeId} {lo mid hi : Nat} (more : rest ≠ [])
      (tests : r.Tests test lo mid (hi + 1)) (code : r.Spans branch target (mid + 2) hi)
      (exits : r.after.assembly.Directs .jump hi finish)
      (others : Branches target finish rest (hi + 1)) :
      Branches target finish (test :: branch :: rest) lo

/-- The code of a loop. -/
def Cycles (children : List NodeId) (target : Option String) (lo hi : Nat) : Prop :=
  ∃ test body mid back, children[0]? = some test ∧ children[1]? = some body ∧
    r.Tests test lo mid hi ∧ r.Spans body target (mid + 2) back ∧
    r.after.assembly.Directs .jump back lo ∧ hi = back + 1

variable {r} {u u' next : WorkUnit} {stack rest : List WorkUnit} {w w₁ w₂ w' : Workspace}
  {k n : Nat} {i : Instruction} {child : NodeId} {target : Option String}

/-! ### Points of the run

What is known at any point of the run: the code before it is final but for the jumps that a unit
on the stack has still to give a target, and every unit that is started comes to its end. -/

theorem At.attended (h : r.At stack w) : Attended t r.before stack w :=
  Reaches.attended h (r.prepared.attended r.started)

theorem At.vocabulary (h : r.At stack w) : Vocabulary (fun _ => True) t w := h.attended.vocabulary

theorem At.onward (h : r.At stack w) : Reaches cfg t stack w [] r.after :=
  Reaches.rest_of_end h r.ended

theorem At.respects (h : r.At stack w) :
    Respects t (Unpatched stack w) w (Unpatched [] r.after) r.after :=
  h.onward.respects h.vocabulary

/-- Only jumps that have been emitted wait for their target. -/
theorem At.lt_of_unpatched (h : r.At stack w) (hk : Unpatched stack w k) :
    k < w.assembly.instructions.length := by
  have hstart : r.At [r.first] r.before := .refl _ _
  exact (Reaches.respects h hstart.vocabulary).bounded
    (fun _ hk => absurd hk (r.prepared.not_unpatched r.started)) k hk

theorem laid (r : WholeRun cfg t) : r.after.assembly.Laid := by
  have hstart : r.At [r.first] r.before := .refl _ _
  exact hstart.respects.laid r.prepared.unstarted.laid

theorem At.nodeType?_eq (h : r.At stack w) (id : NodeId) :
    w.nodeType? id = r.before.nodeType? id := by
  rw [nodeType?, finding, h.attended.later.findings]
  rfl

/-- Where no one waits, the code is as it is in the end. -/
theorem At.get? (h : r.At stack w) (hi : w.assembly.instructions[k]? = some i)
    (hk : ¬ Unpatched stack w k) : r.after.assembly.instructions[k]? = some i :=
  h.respects.get?_eq hi hk

theorem At.directs (h : r.At stack w) {jump : JumpTarget → Instruction} {target : JumpTarget}
    (hi : w.assembly.instructions[k]? = some (jump target)) (hk : ¬ Unpatched stack w k)
    (hplace : target.place? = some n) (hn : n ≤ w.assembly.instructions.length) :
    r.after.assembly.Directs jump k n :=
  r.laid.directs (h.get? hi hk) hplace (hn.trans h.respects.length_le)

/-- Every unit that is started comes to its end. -/
theorem At.spans {id : NodeId} (h : r.At (u :: rest) w)
    (hstart : Yields (start t id target) w u w) :
    ∃ hi, r.Spans id target w.assembly.instructions.length hi := by
  obtain ⟨w', hend, -⟩ := h.onward.finishAll
  exact ⟨_, w, w', ⟨u, rest, h, hstart, hend⟩, rfl, rfl⟩

/-- All code is that of the root. -/
theorem spans_root (r : WholeRun cfg t) :
    r.Spans Tree.root none 0 r.after.assembly.instructions.length := by
  obtain ⟨w', hend, rfl⟩ := r.ended.finishAll
  exact ⟨r.before, _, ⟨r.first, [], .refl _ _, r.started, hend⟩,
    r.prepared.unstarted.length_instructions, rfl⟩

/-- A unit starts with the task of its node. -/
theorem At.start_eq {id : NodeId} {construct : Construct} (h : r.At (u :: rest) w)
    (hstart : Yields (start t id target) w u w)
    (hconstruct : r.before.construct? id = some construct) :
    u = ⟨id, target, 0, [], .ofConstruct construct⟩ := by
  obtain ⟨-, found, hfound, rfl⟩ := start_cases hstart
  rw [Workspace.construct?, finding, h.attended.later.findings] at hfound
  obtain rfl := Option.some.inj (hfound.symm.trans hconstruct)
  rfl

theorem At.finish (h : r.At (u :: rest) w) (hend : Finishes cfg t u w w') : r.At rest w' :=
  Reaches.trans h (hend.reaches rest)

/-- Entry points change only around events. -/
theorem At.entryPoints_eq {p : Progress} (h : r.At (u :: rest) w) (hlocal : u.task.isLocal = true)
    (hstep : Yields (step cfg t u) w (p, u') w₁) : w₁.entryPoints = w.entryPoints :=
  (step_footprint (D := fun _ => True) h.vocabulary (fun _ _ => trivial) hlocal
    hstep).confined.entryPoints

/-- A child is compiled on top of its parent, and leaves alone what does not wait below. -/
theorem At.compiles (h : r.At (u :: rest) w)
    (hstep : Yields (step cfg t u) w (.descend child target, u') w₁)
    (hstart : Yields (start t child target) w₁ next w₁) (hend : Finishes cfg t next w₁ w₂) :
    r.Compiles child target w₁ w₂ ∧ r.At (next :: u' :: rest) w₁ ∧ r.At (u' :: rest) w₂ ∧
      Respects t (Unpatched rest w₁) w₁ (Unpatched rest w₂) w₂ := by
  have hnext : r.At (next :: u' :: rest) w₁ :=
    Reaches.trans h (.head (.descend hstep hstart) (.refl _ _))
  refine ⟨⟨next, _, hnext, hstart, hend⟩, hnext, hnext.finish hend, ?_⟩
  exact ((hend.reaches rest).respects hnext.vocabulary).mono
    (fun k hk => (unpatched_start hstart).mp hk) fun k hk => hk

/-- A condition whose value is pushed and tested. -/
theorem Compiles.tests {id : NodeId} {name : String} {type : TypeId}
    (h : r.Compiles id (some name) w w') (htype : w.nodeType? id = some type)
    (hrented : w.rented.get? name = some type)
    (hpush : r.after.assembly.instructions[w'.assembly.instructions.length]? = some (.push name))
    (hjump : r.after.assembly.Directs .jumpIfFalse (w'.assembly.instructions.length + 1) n) :
    r.Tests id w.assembly.instructions.length w'.assembly.instructions.length n := by
  obtain ⟨u, rest, hat, hcompiles⟩ := h
  have hlater := hat.onward.finishAll.later hat.vocabulary
  exact ⟨name, type, w, w', hat.nodeType?_eq _ ▸ htype, hrented,
    (hat.vocabulary.pooled.rented name type hrented).mono hlater.heap, ⟨u, rest, hat, hcompiles⟩,
    rfl, rfl, hpush, hjump⟩

/-! ### Jumps that a conditional carries on

From one branch to the next a conditional keeps the jump over the branch and the jumps past all
of them (`Carries`). A condition with its branch is one round (`Carries.round`), and the layout
of the whole is put together by induction on the children that are left. -/

/-- The jumps that a conditional has still to give a target are there, and no one else keeps
them. -/
structure Carries (rest : List WorkUnit) (w : Workspace) (pending : Option InstructionId)
    (exits : List InstructionId) : Prop where
  pending : ∀ k ∈ pending, ¬ Unpatched rest w k ∧
    ∃ target, w.assembly.instructions[k]? = some (.jumpIfFalse target)
  exits : ∀ k ∈ exits, ¬ Unpatched rest w k ∧
    ∃ target, w.assembly.instructions[k]? = some (.jump target)

section Conditionals

variable {id : NodeId} {temps : List String} {condition : Option String}
  {pending pending' : Option InstructionId} {exits exits' : List InstructionId}
  {target' : Option String}

theorem Carries.respects (h : Carries rest w pending exits)
    (hrespects : Respects t (Unpatched rest w) w (Unpatched rest w') w') :
    Carries rest w' pending exits := by
  refine ⟨fun k hk => ?_, fun k hk => ?_⟩
  · obtain ⟨hnot, target, hi⟩ := h.pending k hk
    exact ⟨hrespects.not_owes (List.getElem?_eq_some_iff.mp hi).1 hnot, target,
      hrespects.get?_eq hi hnot⟩
  · obtain ⟨hnot, target, hi⟩ := h.exits k hk
    exact ⟨hrespects.not_owes (List.getElem?_eq_some_iff.mp hi).1 hnot, target,
      hrespects.get?_eq hi hnot⟩

theorem Carries.same (h : Carries rest w pending exits) (hentries : w'.entryPoints = w.entryPoints)
    (hcode : ∀ (k : Nat) (i : Instruction), w.assembly.instructions[k]? = some i →
      w'.assembly.instructions[k]? = some i) : Carries rest w' pending exits := by
  refine ⟨fun k hk => ?_, fun k hk => ?_⟩
  · obtain ⟨hnot, target, hi⟩ := h.pending k hk
    exact ⟨(unpatched_congr hentries).not.mpr hnot, target, hcode k _ hi⟩
  · obtain ⟨hnot, target, hi⟩ := h.exits k hk
    exact ⟨(unpatched_congr hentries).not.mpr hnot, target, hcode k _ hi⟩

/-- What is no jump is none of the jumps past the branches. -/
theorem Carries.not_mem_exits (h : Carries rest w pending exits)
    (hi : w.assembly.instructions[k]? = some i) (hjump : ∀ target, i ≠ .jump target) :
    k ∉ exits := by
  intro hk
  obtain ⟨-, target, hget⟩ := h.exits k hk
  exact hjump target (Option.some.inj (hi.symm.trans hget))

/-- At the end of a conditional, all its jumps get the end as their target. -/
theorem Carries.finish
    (hat : r.At (⟨id, target, n, temps, .conditional condition pending exits⟩ :: rest) w)
    (hend : Finishes cfg t ⟨id, target, n, temps, .conditional condition pending exits⟩ w w')
    (hn : (t.children id)[n]? = none) (h : Carries rest w pending exits) :
    w'.assembly.instructions.length = w.assembly.instructions.length ∧
      (∀ k ∈ pending, r.after.assembly.Directs .jumpIfFalse k w.assembly.instructions.length) ∧
      ∀ k ∈ exits, r.after.assembly.Directs .jump k w.assembly.instructions.length := by
  obtain ⟨p, u', w₃, hstep, hrest⟩ := hend.step_cases
  obtain ⟨rfl, hlength, hpending, hexits⟩ := stepConditional_end hstep hn hat.vocabulary.pooled
  obtain ⟨-, rfl⟩ | ⟨hp, -⟩ | ⟨_, _, _, _, hp, -⟩ := hrest
  rotate_left
  · cases hp
  · cases hp
  have hentries := hat.entryPoints_eq rfl hstep
  have hat₃ := hat.finish hend
  refine ⟨hlength, fun k hk => ?_, fun k hk => ?_⟩
  · obtain ⟨hnot, jump, hi⟩ := h.pending k hk
    exact hat₃.directs (hpending k hk jump hi) ((unpatched_congr hentries).not.mpr hnot)
      w.assembly.place?_last hlength.ge
  · obtain ⟨hnot, jump, hi⟩ := h.exits k hk
    exact hat₃.directs (hexits k hk jump hi) ((unpatched_congr hentries).not.mpr hnot)
      w.assembly.place?_last hlength.ge

/-- Where a branch is closed, the jump past it is new, and the one over it goes behind that. -/
theorem Carries.endsBranch (h : Carries rest w pending exits)
    (hnew : ¬ Unpatched rest w w.assembly.instructions.length)
    (hends : EndsBranch n w pending pending' exits exits' w₁)
    (hzero : n = 0 → pending = none) :
    pending' = none ∧ Carries rest w₁ none exits' ∧ (∀ k ∈ exits, k ∈ exits') ∧
      w₁ = { w with assembly := w₁.assembly } ∧ (w.Pooled → w₁.Pooled) ∧
      (n = 0 → w₁.assembly.instructions.length = w.assembly.instructions.length) ∧
      (n ≠ 0 → w₁.assembly.instructions.length = w.assembly.instructions.length + 1 ∧
        w.assembly.instructions.length ∈ exits') ∧
      ∀ k ∈ pending, ¬ Unpatched rest w₁ k ∧ ∃ target,
        w₁.assembly.instructions[k]? = some (.jumpIfFalse target) ∧
        target.place? = some w₁.assembly.instructions.length := by
  obtain ⟨rfl, rfl, rfl, rfl⟩ | ⟨hn, rfl, rfl, hcloses⟩ := hends.cases
  · obtain rfl := hzero rfl
    exact ⟨rfl, h, fun _ hk => hk, rfl, id, fun _ => rfl, fun hn => absurd rfl hn, by simp⟩
  have hentries : w₁.entryPoints = w.entryPoints := by rw [hcloses.rest]
  refine ⟨rfl, ⟨by simp, fun k hk => ?_⟩, fun k hk => List.mem_append_left _ hk, hcloses.rest,
    hcloses.pooled, fun hzero => absurd hzero hn,
    fun _ => ⟨hcloses.length, List.mem_append_right _ List.mem_cons_self⟩, fun k hk => ?_⟩
  · rw [unpatched_congr hentries]
    rcases List.mem_append.mp hk with hk | hk
    · obtain ⟨hnot, target, hi⟩ := h.exits k hk
      exact ⟨hnot, hcloses.kept k target hi⟩
    · obtain rfl := List.mem_singleton.mp hk
      exact ⟨hnew, hcloses.exit⟩
  · obtain ⟨hnot, target, hi⟩ := h.pending k hk
    refine ⟨(unpatched_congr hentries).not.mpr hnot, _, hcloses.lands k hk target hi, ?_⟩
    rw [hcloses.length]
    rfl

/-- The jump over a branch lands where the code goes on with a child. -/
theorem Carries.directs_pending (h : Carries rest w none exits)
    (hat : r.At (next :: ⟨id, target, n, temps, .conditional condition none exits⟩ :: rest) w)
    (hstart : Yields (start t child target') w next w)
    (hpending : ∀ k ∈ pending, ¬ Unpatched rest w k ∧ ∃ jump,
      w.assembly.instructions[k]? = some (.jumpIfFalse jump) ∧
      jump.place? = some w.assembly.instructions.length) :
    ∀ k ∈ pending, r.after.assembly.Directs .jumpIfFalse k w.assembly.instructions.length := by
  intro k hk
  obtain ⟨hnot, jump, hi, hplace⟩ := hpending k hk
  refine hat.directs hi ?_ hplace (Nat.le_refl _)
  rw [unpatched_start hstart, unpatched_cons]
  exact not_or.mpr ⟨h.not_mem_exits hi (by simp), hnot⟩

/-- The test behind a condition is there, and its jump is carried on. -/
theorem Carries.tested {name : String} (h : Carries rest w none exits) (hat : r.At (u :: rest) w)
    (hentries : w'.entryPoints = w.entryPoints)
    (hcode : w'.assembly.instructions =
      w.assembly.instructions ++ [.push name, .jumpIfFalse .unresolved]) :
    Carries rest w' (some (w.assembly.instructions.length + 1)) exits ∧
      w'.assembly.instructions[w.assembly.instructions.length]? = some (.push name) ∧
      w'.assembly.instructions.length = w.assembly.instructions.length + 2 ∧
      ¬ Unpatched rest w' w.assembly.instructions.length := by
  have hnew : ∀ k, w.assembly.instructions.length ≤ k → ¬ Unpatched rest w' k := fun k hk hwaits =>
    Nat.not_lt.mpr hk (hat.lt_of_unpatched
      (unpatched_cons.mpr (Or.inr ((unpatched_congr hentries).mp hwaits))))
  refine ⟨⟨fun k hk => ?_, (h.same hentries fun k i hi => ?_).exits⟩, ?_, ?_,
    hnew _ (Nat.le_refl _)⟩
  · obtain rfl := Option.some.inj hk
    refine ⟨hnew _ (Nat.le_succ _), .unresolved, ?_⟩
    rw [hcode, List.getElem?_append_right (Nat.le_succ _), Nat.succ_sub (Nat.le_refl _),
      Nat.sub_self]
    rfl
  · rw [hcode, List.getElem?_append_left (List.getElem?_eq_some_iff.mp hi).1, hi]
  · rw [hcode, List.getElem?_append_right (Nat.le_refl _), Nat.sub_self]
    rfl
  · rw [hcode, List.length_append]
    rfl

/-- A conditional from a condition to the end of its branch. -/
theorem Carries.round
    (hat : r.At (⟨id, target, n, temps, .conditional condition pending exits⟩ :: rest) w)
    (hend : Finishes cfg t ⟨id, target, n, temps, .conditional condition pending exits⟩ w w')
    (heven : n % 2 = 0) (hn : n + 1 < (t.children id).length) (hzero : n = 0 → pending = none)
    (h : Carries rest w pending exits) :
    ∃ test branch lo mid temps' exits' w₂, (t.children id)[n]? = some test ∧
      (t.children id)[n + 1]? = some branch ∧ (∀ k ∈ exits, k ∈ exits') ∧
      (n = 0 → lo = w.assembly.instructions.length) ∧
      (n ≠ 0 → lo = w.assembly.instructions.length + 1 ∧
        w.assembly.instructions.length ∈ exits') ∧
      (∀ k ∈ pending, r.after.assembly.Directs .jumpIfFalse k lo) ∧
      (∀ place, r.after.assembly.Directs .jumpIfFalse (mid + 1) place →
        r.Tests test lo mid place) ∧
      r.Spans branch target (mid + 2) w₂.assembly.instructions.length ∧
      r.At (⟨id, target, n + 2, temps', .conditional none (some (mid + 1)) exits'⟩ :: rest) w₂ ∧
      Finishes cfg t ⟨id, target, n + 2, temps', .conditional none (some (mid + 1)) exits'⟩ w₂ w' ∧
      Carries rest w₂ (some (mid + 1)) exits' := by
  -- The step before the condition.
  obtain ⟨p, u', w₁, hstep, hrest⟩ := hend.step_cases
  change Yields (stepConditional cfg t n ⟨id, target, n + 1, temps, .conditional condition pending
    exits⟩ condition pending exits) w (p, u') w₁ at hstep
  have htest : (t.children id)[n]? = some (t.children id)[n] := List.getElem?_eq_getElem _
  have hbranch : (t.children id)[n + 1]? = some (t.children id)[n + 1] := List.getElem?_eq_getElem _
  obtain ⟨pending', exits', w₀, hends, htakes⟩ := stepConditional_even hstep htest heven
  obtain ⟨type, name, htype, hrent, rfl, rfl⟩ := takeBranch_rents htakes hn
  obtain ⟨hp, -⟩ | ⟨hp, -⟩ | ⟨child, slot, next, w₂, hp, hstart, hchild, hrest⟩ := hrest
  · cases hp
  · cases hp
  obtain ⟨rfl, rfl⟩ := Progress.descend.inj hp
  obtain ⟨rfl, hcarries₀, hmore, hsame₀, hpooled₀, hlo, hexit, hpending⟩ :=
    h.endsBranch (fun hk => absurd (hat.lt_of_unpatched (unpatched_cons.mpr (Or.inr hk)))
      (Nat.lt_irrefl _)) hends hzero
  obtain ⟨hemits, -, -, hentries₁, -, -, hrented⟩ :=
    Build.rent_spec hrent (hpooled₀ hat.vocabulary.pooled)
  have hcode₁ : w₁.assembly.instructions = w₀.assembly.instructions := by
    rw [hemits.code, List.append_nil]
  have hcarries₁ : Carries rest w₁ none exits' := hcarries₀.same hentries₁ fun k i hi => by
    rw [hcode₁, hi]
  -- The condition.
  obtain ⟨hcompiles, hat₁, hat₂, hrespects₁⟩ := hat.compiles hstep hstart hchild
  have hpending₁ := hcarries₁.directs_pending hat₁ hstart fun k hk => by
    rw [unpatched_congr hentries₁, hcode₁]
    exact hpending k hk
  have hcarries₂ := hcarries₁.respects hrespects₁
  -- The step between condition and branch.
  obtain ⟨p, u', w₃, hstep', hrest'⟩ := hrest.step_cases
  change Yields (stepConditional cfg t (n + 1) ⟨id, target, n + 2, temps ++ [name],
    .conditional (some name) none exits'⟩ (some name) none exits') w₂ (p, u') w₃ at hstep'
  obtain ⟨hnone, -⟩ | ⟨branch, hbranch', ⟨-, name', jump, w₂', u₁, hname, hjump, hrelease, rfl,
    rfl⟩ | ⟨heven', -⟩⟩ := stepConditional_cases hstep'
  · cases hnone.symm.trans hbranch
  swap
  · omega
  obtain rfl := Option.some.inj hname
  obtain ⟨hp, -⟩ | ⟨hp, -⟩ | ⟨child', slot', next', w₄, hp, hstart', hchild', hrest'⟩ := hrest'
  · cases hp
  · cases hp
  obtain ⟨rfl, rfl⟩ := Progress.descend.inj hp
  obtain ⟨rfl, happends⟩ := Appends.jumpIfFalse hjump
  obtain ⟨hcompiles', hat₃, hat₄, hrespects₂⟩ := hat₂.compiles hstep' hstart' hchild'
  have hassembly := release_assembly (happends.pooled hat₂.vocabulary.pooled) hrelease
  have hentries₃ := hat₂.entryPoints_eq rfl hstep'
  obtain ⟨rfl, -⟩ := release_cases hrelease
  have hcode₃ : w₃.assembly.instructions = w₂.assembly.instructions ++
      [.push name, .jumpIfFalse .unresolved] := by
    rw [hassembly, happends.code_eq]
  obtain ⟨hcarries₃, hpush, hlength₃, hnot⟩ := hcarries₂.tested hat₂ hentries₃ hcode₃
  refine ⟨_, branch, w₁.assembly.instructions.length, w₂.assembly.instructions.length, [], exits',
    w₄, htest, hbranch', hmore, fun hzero => ?_, fun hne => ?_, hpending₁, fun place hplace => ?_,
    ⟨w₃, w₄, hcompiles', hlength₃, rfl⟩, hat₄, hrest', hcarries₃.respects hrespects₂⟩
  · rw [hcode₁, hlo hzero]
  · rw [hcode₁]
    exact hexit hne
  · refine hcompiles.tests ?_ (by rw [hrented, if_pos rfl]) (hat₃.get? hpush ?_) hplace
    · rw [hat₁.nodeType?_eq, ← hat.nodeType?_eq, ← htype, hsame₀]
      rfl
    · rw [unpatched_start hstart', unpatched_cons]
      exact not_or.mpr ⟨List.mem_cons.not.mpr (not_or.mpr ⟨(Nat.lt_succ_self _).ne,
        hcarries₃.not_mem_exits hpush (by simp)⟩), hnot⟩

/-- The last child of a conditional, where it has no condition. -/
theorem Carries.lastBranch
    (hat : r.At (⟨id, target, n, temps, .conditional condition pending exits⟩ :: rest) w)
    (hend : Finishes cfg t ⟨id, target, n, temps, .conditional condition pending exits⟩ w w')
    (heven : n % 2 = 0) (hn : (t.children id).length = n + 1) (hzero : n = 0 → pending = none)
    (h : Carries rest w pending exits) :
    ∃ branch lo, (t.children id)[n]? = some branch ∧
      r.Spans branch target lo w'.assembly.instructions.length ∧
      (n = 0 → lo = w.assembly.instructions.length) ∧
      (n ≠ 0 → lo = w.assembly.instructions.length + 1 ∧ r.after.assembly.Directs .jump
        w.assembly.instructions.length w'.assembly.instructions.length) ∧
      (∀ k ∈ pending, r.after.assembly.Directs .jumpIfFalse k lo) ∧
      ∀ k ∈ exits, r.after.assembly.Directs .jump k w'.assembly.instructions.length := by
  obtain ⟨p, u', w₁, hstep, hrest⟩ := hend.step_cases
  change Yields (stepConditional cfg t n ⟨id, target, n + 1, temps, .conditional condition pending
    exits⟩ condition pending exits) w (p, u') w₁ at hstep
  have hbranch : (t.children id)[n]? = some (t.children id)[n] := List.getElem?_eq_getElem _
  obtain ⟨hnone, -⟩ | ⟨branch, hbranch', ⟨hodd, -⟩ | ⟨-, pending', exits', w₀, hends,
    ⟨hlt, -⟩ | ⟨-, rfl, rfl, rfl⟩⟩⟩ := stepConditional_cases hstep
  · cases hnone.symm.trans hbranch
  · omega
  · exact absurd hlt (by simp [hn])
  obtain ⟨hp, -⟩ | ⟨hp, -⟩ | ⟨child, slot, next, w₂, hp, hstart, hchild, hrest⟩ := hrest
  · cases hp
  · cases hp
  obtain ⟨rfl, rfl⟩ := Progress.descend.inj hp
  obtain ⟨rfl, hcarries₁, hmore, -, -, hlo, hexit, hpending⟩ :=
    h.endsBranch (fun hk => absurd (hat.lt_of_unpatched (unpatched_cons.mpr (Or.inr hk)))
      (Nat.lt_irrefl _)) hends hzero
  obtain ⟨hcompiles, hat₁, hat₂, hrespects⟩ := hat.compiles hstep hstart hchild
  obtain ⟨hlength, -, hexits⟩ := Carries.finish hat₂ hrest
    (List.getElem?_eq_none hn.le) (hcarries₁.respects hrespects)
  rw [← hlength] at hexits
  refine ⟨branch, w₀.assembly.instructions.length, hbranch', ⟨w₀, w₂, hcompiles, rfl, hlength.symm⟩,
    hlo, fun hne => ⟨(hexit hne).1, hexits _ (hexit hne).2⟩,
    hcarries₁.directs_pending hat₁ hstart hpending, fun k hk => hexits k (hmore k hk)⟩

/-- The layout of a conditional from one of its conditions, or its last child, on. Behind a branch
there is a jump to the end if a child follows. -/
theorem Carries.branches
    (hat : r.At (⟨id, target, n, temps, .conditional condition pending exits⟩ :: rest) w)
    (hend : Finishes cfg t ⟨id, target, n, temps, .conditional condition pending exits⟩ w w')
    (heven : n % 2 = 0) (hn : n ≤ (t.children id).length) (hzero : n = 0 → pending = none)
    (h : Carries rest w pending exits) :
    ∃ lo, r.Branches target w'.assembly.instructions.length ((t.children id).drop n) lo ∧
      (n = 0 ∨ (t.children id).drop n = [] → lo = w.assembly.instructions.length) ∧
      (n ≠ 0 → (t.children id).drop n ≠ [] →
        lo = w.assembly.instructions.length + 1 ∧ r.after.assembly.Directs .jump
          w.assembly.instructions.length w'.assembly.instructions.length) ∧
      (∀ k ∈ pending, r.after.assembly.Directs .jumpIfFalse k lo) ∧
      ∀ k ∈ exits, r.after.assembly.Directs .jump k w'.assembly.instructions.length := by
  -- The induction is on the number of children left, two at a time.
  generalize hleft : (t.children id).length - n = left
  induction left using Nat.strong_induction_on generalizing n w temps condition pending exits with
  | _ left ih =>
  obtain heq | heq | hlt : (t.children id).length = n ∨ (t.children id).length = n + 1 ∨
      n + 1 < (t.children id).length := by omega
  · obtain ⟨hlength, hpending, hexits⟩ :=
      Carries.finish hat hend (List.getElem?_eq_none heq.le) h
    have hnil : (t.children id).drop n = [] := List.drop_eq_nil_of_le heq.le
    rw [hnil, hlength]
    exact ⟨_, .nil, fun _ => rfl, fun _ hne => absurd rfl hne, hpending, hexits⟩
  · obtain ⟨branch, lo, hbranch, hspans, hlo, hexit, hpending, hexits⟩ :=
      h.lastBranch hat hend heven heq hzero
    have hsingle : (t.children id).drop n = [branch] := by
      rw [List.drop_eq_getElem_cons (by omega), List.drop_eq_nil_of_le heq.le]
      obtain ⟨-, rfl⟩ := List.getElem?_eq_some_iff.mp hbranch
      rfl
    rw [hsingle]
    exact ⟨lo, .otherwise hspans, fun hn => hlo (hn.resolve_right (by simp)),
      fun hne _ => hexit hne, hpending, hexits⟩
  · obtain ⟨test, branch, lo, mid, temps', exits', w₂, htest, hbranch, hmore, hlo, hexit, hpending,
      htests, hspans, hat₂, hend₂, h₂⟩ := h.round hat hend heven hlt hzero
    obtain ⟨lo₂, hbranches, hsame, hjump, hover, hexits⟩ :=
      ih _ (by omega) hat₂ hend₂ (by omega) (by omega) (by simp) h₂ rfl
    have hcons : (t.children id).drop n = test :: branch :: (t.children id).drop (n + 2) := by
      obtain ⟨hlt₀, rfl⟩ := List.getElem?_eq_some_iff.mp htest
      obtain ⟨hlt₁, rfl⟩ := List.getElem?_eq_some_iff.mp hbranch
      rw [List.drop_eq_getElem_cons hlt₀, List.drop_eq_getElem_cons hlt₁]
    have htests₂ := htests lo₂ (hover _ rfl)
    refine ⟨lo, ?_, fun hn => hlo (hn.resolve_right (by simp [hcons])),
      fun hne _ => ⟨(hexit hne).1, hexits _ (hexit hne).2⟩, hpending,
      fun k hk => hexits k (hmore k hk)⟩
    rw [hcons]
    by_cases hnil : (t.children id).drop (n + 2) = []
    · -- The branch is the last child: what follows it is the end.
      rw [hnil] at hbranches
      have hfinish := hsame (Or.inr hnil)
      cases hbranches
      rw [hnil]
      exact .last htests₂ (hfinish ▸ hspans)
    · obtain ⟨rfl, hjumps⟩ := hjump (by omega) hnil
      exact .branch hnil htests₂ hspans hjumps hbranches

/-- The code of a conditional is that of its children. -/
theorem Spans.branches {lo hi : Nat} (h : r.Spans id target lo hi)
    (hconstruct : r.before.construct? id = some .conditional) :
    r.Branches target hi (t.children id) lo := by
  obtain ⟨w, w', ⟨u, rest, hat, hstart, hend⟩, rfl, rfl⟩ := h
  obtain rfl := hat.start_eq hstart hconstruct
  obtain ⟨lo, hbranches, hlo, -⟩ := Carries.branches hat hend rfl (Nat.zero_le _) (fun _ => rfl)
    ⟨by simp, by simp⟩
  rw [List.drop_zero] at hbranches
  exact hlo (Or.inl rfl) ▸ hbranches

/-! ### Loops

A loop takes three steps, so it needs no induction: the condition, the body, and the jump back,
behind which the test goes. -/

/-- The last step of a loop jumps back, and lets the test leave the loop behind that jump. -/
theorem Carries.loops {start exit : Option InstructionId}
    (hat : r.At (⟨id, target, 2, temps, .loop start none exit⟩ :: rest) w)
    (hend : Finishes cfg t ⟨id, target, 2, temps, .loop start none exit⟩ w w')
    (hstart : (JumpTarget.after start).place? = some n) (hn : n ≤ w.assembly.instructions.length)
    (h : Carries rest w exit []) :
    w'.assembly.instructions.length = w.assembly.instructions.length + 1 ∧
      r.after.assembly.Directs .jump w.assembly.instructions.length n ∧
      ∀ k ∈ exit, r.after.assembly.Directs .jumpIfFalse k w'.assembly.instructions.length := by
  obtain ⟨p, u', w₃, hstep, hrest⟩ := hend.step_cases
  change Yields (stepLoop cfg t 2 ⟨id, target, 3, temps, .loop start none exit⟩ start none exit) w
    (p, u') w₃ at hstep
  obtain ⟨rfl, hlength, hback, hexit, -⟩ := stepLoop_end hstep hat.vocabulary.pooled
    fun k hk => (h.pending k hk).2
  obtain ⟨-, rfl⟩ | ⟨hp, -⟩ | ⟨_, _, _, _, hp, -⟩ := hrest
  rotate_left
  · cases hp
  · cases hp
  have hentries := hat.entryPoints_eq rfl hstep
  have hat₃ := hat.finish hend
  refine ⟨hlength, hat₃.directs hback (fun hwaits => ?_) hstart (by omega), fun k hk => ?_⟩
  · exact Nat.lt_irrefl _
      (hat.lt_of_unpatched (unpatched_cons.mpr (Or.inr ((unpatched_congr hentries).mp hwaits))))
  · refine hat₃.directs (hexit k hk) ((unpatched_congr hentries).not.mpr (h.pending k hk).1) ?_
      (Nat.le_refl _)
    rw [hlength]
    rfl

/-- The code of a loop is that of its condition and of its body, and the jump back. -/
theorem Spans.cycles {lo hi : Nat} (h : r.Spans id target lo hi)
    (hconstruct : r.before.construct? id = some .loop) :
    r.Cycles (t.children id) target lo hi := by
  obtain ⟨w, w', ⟨u, rest, hat, hstart, hend⟩, rfl, rfl⟩ := h
  obtain rfl := hat.start_eq hstart hconstruct
  -- The condition.
  obtain ⟨p, u', w₁, hstep, hrest⟩ := hend.step_cases
  change Yields (stepLoop cfg t 0 ⟨id, target, 1, [], .loop none none none⟩ none none none) w
    (p, u') w₁ at hstep
  obtain ⟨test, type, name, htest, htype, hrent, rfl, rfl⟩ := stepLoop_rents hstep
  obtain ⟨hp, -⟩ | ⟨hp, -⟩ | ⟨child, slot, next, w₂, hp, hnext, hchild, hrest⟩ := hrest
  · cases hp
  · cases hp
  obtain ⟨rfl, rfl⟩ := Progress.descend.inj hp
  obtain ⟨hemits, -, -, -, -, -, hrented⟩ := Build.rent_spec hrent hat.vocabulary.pooled
  have hlength₁ : w₁.assembly.instructions.length = w.assembly.instructions.length := by
    rw [hemits.code, List.append_nil]
  obtain ⟨hcompiles, hat₁, hat₂, hrespects₁⟩ := hat.compiles hstep hnext hchild
  -- The test, and the body.
  obtain ⟨p, u', w₃, hstep', hrest'⟩ := hrest.step_cases
  change Yields (stepLoop cfg t 1 ⟨id, target, 2, [name], .loop w.assembly.last? (some name) none⟩
    w.assembly.last? (some name) none) w₂ (p, u') w₃ at hstep'
  obtain ⟨hzero, -⟩ | ⟨-, name', jump, body, w₂', u₁, hname, hjump, hbody, hrelease, rfl, rfl⟩ |
    ⟨hlt, -⟩ := stepLoop_cases hstep'
  · cases hzero
  swap
  · omega
  obtain rfl := Option.some.inj hname
  obtain ⟨hp, -⟩ | ⟨hp, -⟩ | ⟨child', slot', next', w₄, hp, hnext', hchild', hrest'⟩ := hrest'
  · cases hp
  · cases hp
  obtain ⟨rfl, rfl⟩ := Progress.descend.inj hp
  obtain ⟨rfl, happends⟩ := Appends.jumpIfFalse hjump
  obtain ⟨hcompiles', hat₃, hat₄, hrespects₂⟩ := hat₂.compiles hstep' hnext' hchild'
  have hassembly := release_assembly (happends.pooled hat₂.vocabulary.pooled) hrelease
  have hentries₃ := hat₂.entryPoints_eq rfl hstep'
  obtain ⟨rfl, -⟩ := release_cases hrelease
  have hnone : Carries rest w₂ none [] := ⟨by simp, by simp⟩
  obtain ⟨hcarries₃, hpush, hlength₃, hnot⟩ := hnone.tested hat₂ hentries₃
    (by rw [hassembly, happends.code_eq])
  -- The jump back.
  have hle : w.assembly.instructions.length ≤ w₄.assembly.instructions.length := by
    have := hrespects₁.length_le
    have := hrespects₂.length_le
    omega
  obtain ⟨hlength, hback, hexit⟩ := Carries.loops hat₄ hrest' w.assembly.place?_last hle
    (hcarries₃.respects hrespects₂)
  refine ⟨test, body, w₂.assembly.instructions.length, w₄.assembly.instructions.length, htest,
    hbody, ?_, ⟨w₃, w₄, hcompiles', hlength₃, rfl⟩, hback, hlength⟩
  rw [← hlength₁]
  refine hcompiles.tests ?_ (by rw [hrented, if_pos rfl]) (hat₃.get? hpush ?_) (hexit _ rfl)
  · rw [hat₁.nodeType?_eq, ← hat.nodeType?_eq, htype]
  · rw [unpatched_start hnext', unpatched_cons]
    exact not_or.mpr ⟨List.mem_singleton.not.mpr (Nat.lt_succ_self _).ne, hnot⟩

end Conditionals

end WholeRun

/-- In a program that compiles, every unit has its code, that of the root is all of it, and the code
of every conditional and of every loop is laid out from the code of its children. -/
theorem Program.compile_control_flow {cfg : Setting} {source : String} {p : Program}
    (h : Program.compile cfg source = .ok p) :
    ∃ t, ∃ r : WholeRun cfg t, Program.Stages cfg source p t r.before r.after ∧
      r.Spans Tree.root none 0 r.after.assembly.instructions.length ∧
      (∀ u rest w id target, r.At (u :: rest) w → Yields (start t id target) w u w →
        ∃ hi, r.Spans id target w.assembly.instructions.length hi) ∧
      (∀ id target lo hi, r.Spans id target lo hi → r.before.construct? id = some .conditional →
        r.Branches target hi (t.children id) lo) ∧
      ∀ id target lo hi, r.Spans id target lo hi → r.before.construct? id = some .loop →
        r.Cycles (t.children id) target lo hi := by
  obtain ⟨t, before, after, hstages⟩ := Program.compile_stages h
  obtain ⟨x, -, hholds⟩ := Tree.read?_ok (Tree.read_eq_ok_iff.mp hstages.read)
  obtain ⟨first, hstart, hend⟩ := generate_cases hholds hstages.generated
  exact ⟨t, ⟨before, first, after, Program.resolved_prepared hstages.resolved, hstart, hend⟩,
    hstages, WholeRun.spans_root _, fun _ _ _ _ _ hat hstart => hat.spans hstart,
    fun _ _ _ _ hspans hconstruct => hspans.branches hconstruct,
    fun _ _ _ _ hspans hconstruct => hspans.cycles hconstruct⟩

/-- The code of a loop whose body is a conditional with two conditions. -/
theorem Program.compile_control_flow_nested : ∃ p t, ∃ r : WholeRun ⟨Catalog.empty, true⟩ t,
    Program.compile ⟨Catalog.empty, true⟩ "while(true,if(true,1,false,2,3))" = .ok p ∧
      Program.Stages ⟨Catalog.empty, true⟩ "while(true,if(true,1,false,2,3))" p t r.before r.after ∧
      r.Cycles (t.children Tree.root) none 0 r.after.assembly.instructions.length ∧
      ∃ id lo hi, (t.children id).length = 5 ∧ r.Branches none hi (t.children id) lo := by
  have hrun : ((Program.compile ⟨Catalog.empty, true⟩
      "while(true,if(true,1,false,2,3))").toOption.map fun _ => ()) = some () := by
    decide +kernel
  obtain ⟨p, hp, -⟩ := exists_ok_of_map hrun
  obtain ⟨t, r, hstages, hroot, -, hbranches, hcycles⟩ := Program.compile_control_flow hp
  have hnodes : (Tree.read "while(true,if(true,1,false,2,3))").toOption.all fun t =>
      (Program.resolved ⟨Catalog.empty, true⟩ t).toOption.all fun w =>
        decide (w.construct? Tree.root = some .loop) && (t.children Tree.root)[1]?.all fun id =>
          decide (w.construct? id = some .conditional) && decide ((t.children id).length = 5) := by
    decide +kernel
  rw [hstages.read, Except.toOption, Option.all_some, hstages.resolved, Except.toOption,
    Option.all_some, Bool.and_eq_true, decide_eq_true_iff] at hnodes
  have hloop := hcycles _ _ _ _ hroot hnodes.1
  obtain ⟨test, body, mid, back, -, hbody, -, hspans, -⟩ := id hloop
  rw [hbody, Option.all_some, Bool.and_eq_true, decide_eq_true_iff, decide_eq_true_iff] at hnodes
  exact ⟨p, t, r, hp, hstages, hloop, body, _, _, hnodes.2.2,
    hbranches _ _ _ _ hspans hnodes.2.1⟩

end SexprAsm
