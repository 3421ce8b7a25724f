import SexprAsm.Proofs.Semantics.Straight

/-!
# Conditionals and loops

First what code of the shape of a conditional or a loop does, whoever has written it; then that the
code of these constructs has the shape, once all its jumps have been given their targets.
-/

namespace SexprAsm

open Generation Workspace Evaluation

/-! ## Shapes of code

What code does is said of places in it, whoever has written it. If the parts of a conditional or
of a loop do what they should, and the jumps between them go where they should, so does the
whole. -/

section Shapes

variable {V : Type} {host : Host V} {c : Catalog} {code : List Instruction} {n : Nat}
  {start : Store V} {target : Option String} {live live₁ live₂ : String → Prop} {name : String}
  {lo hi p₁ p₂ : Nat} {jump back : JumpTarget}
  {ev : NodeId → Store V → Option (Store V × V)}

variable (host c code n start target live ev) in
/-- A piece of code does what the branches of a conditional say. -/
def Chooses (lo hi : Nat) (branches : List NodeId) : Prop :=
  ∀ σ τ, Matches start σ τ →
    Does host c code n lo hi τ (choose host ev branches σ) (Leaves start target live τ)

theorem chooses_nil : Chooses host c code n start none live ev lo lo [] := by
  intro σ τ hmatch
  exact .done (.refl _) (hmatch.leaves fun _ _ => rfl)

/-- A condition, a jump over the branch, the branch, and a way to the end. -/
theorem chooses_cons {test branch : NodeId} {rest : List NodeId} {next : Nat}
    (htest : ∀ σ τ, Matches start σ τ →
      Does host c code n lo p₁ τ (ev test σ) (Leaves start (some name) live₁ τ))
    (hbranch : ∀ σ τ, Matches start σ τ →
      Does host c code n (p₁ + 2) p₂ τ (ev branch σ) (Leaves start target live₂ τ))
    (hname : tempLead.toList <+: name.toList)
    (hlive : ∀ x, live x → (live₁ x ∧ x ≠ name) ∧ live₂ x)
    (hpush : code[p₁]? = some (.push name)) (hjump : code[p₁ + 1]? = some (.jumpIfFalse jump))
    (hplace : jump.place? = some next)
    (hend : ∀ τ, ∃ k, Runs host c code k ⟨p₂, [], τ⟩ ⟨hi, [], τ⟩)
    (hrest : Chooses host c code n start target live ev next hi rest) :
    Chooses host c code n start target live ev lo hi (test :: branch :: rest) := by
  intro σ τ hmatch
  rw [choose_cons_cons]
  refine (htest σ τ hmatch).bind fun r τ₁ _ hleaves => ?_
  have hmatch₁ : Matches start r.1 τ₁ :=
    hleaves.matches fun x hx => Or.inl (Option.some.inj hx ▸ hname)
  have hkept : ∀ x, live x → target ≠ some x → τ₁ x = τ x := fun x hx _ =>
    hleaves.kept x (hlive x hx).1.1 fun heq => (hlive x hx).1.2 (Option.some.inj heq).symm
  have hrun : Runs host c code 2 ⟨p₁, [], τ₁⟩
      ⟨if host.isFalse (τ₁ name) then next else p₁ + 2, [], τ₁⟩ := .branch hpush hjump hplace
  rw [hleaves.value name rfl] at hrun
  cases hfalse : host.isFalse r.2 with
  | true =>
    rw [hfalse] at hrun
    exact .before hrun ((hrest r.1 τ₁ hmatch₁).mono fun r' τ' hleaves' =>
      hleaves'.rebase (fun _ hx _ => hx) hkept)
  | false =>
    rw [hfalse] at hrun
    exact .before hrun (((hbranch r.1 τ₁ hmatch₁).after hend).mono fun r' τ' hleaves' =>
      hleaves'.rebase (fun x hx _ => (hlive x hx).2) hkept)

/-- A condition, a jump past the loop, the body, and a jump back. -/
theorem does_iterate {test body : Store V → Option (Store V × V)}
    (htest : ∀ σ τ, Matches start σ τ →
      Does host c code n lo p₁ τ (test σ) (Leaves start (some name) live₁ τ))
    (hbody : ∀ σ τ, Matches start σ τ →
      Does host c code n (p₁ + 2) p₂ τ (body σ) (Leaves start none live₂ τ))
    (hname : tempLead.toList <+: name.toList)
    (hlive : ∀ x, live x → (live₁ x ∧ x ≠ name) ∧ live₂ x)
    (hpush : code[p₁]? = some (.push name)) (hjump : code[p₁ + 1]? = some (.jumpIfFalse jump))
    (hplace : jump.place? = some hi) (hback : code[p₂]? = some (.jump back))
    (hplace' : back.place? = some lo) {m : Nat} (hm : m ≤ n) {σ τ τ₀ : Store V}
    (hmatch : Matches start σ τ) (hkept : ∀ x, live x → τ x = τ₀ x) :
    Does host c code m lo hi τ (iterate host test body m σ) (Leaves start none live τ₀) := by
  -- Each round takes at least the step back, so `m` rounds take at least `m` steps.
  induction m generalizing σ τ with
  | zero => exact ⟨0, _, Nat.le_refl _, .refl _⟩
  | succ m ih =>
    rw [iterate_succ]
    refine ((htest σ τ hmatch).weaken hm).bind fun r τ₁ _ hleaves => ?_
    have hmatch₁ : Matches start r.1 τ₁ :=
      hleaves.matches fun x hx => Or.inl (Option.some.inj hx ▸ hname)
    have hkept₁ : ∀ x, live x → τ₁ x = τ₀ x := fun x hx =>
      (hleaves.kept x (hlive x hx).1.1 fun heq => (hlive x hx).1.2 (Option.some.inj heq).symm).trans
        (hkept x hx)
    have hrun : Runs host c code 2 ⟨p₁, [], τ₁⟩
        ⟨if host.isFalse (τ₁ name) then hi else p₁ + 2, [], τ₁⟩ := .branch hpush hjump hplace
    rw [hleaves.value name rfl] at hrun
    cases hfalse : host.isFalse r.2 with
    | true =>
      rw [hfalse] at hrun
      exact .done hrun (hmatch₁.leaves hkept₁)
    | false =>
      rw [hfalse] at hrun
      refine .before hrun (((hbody r.1 τ₁ hmatch₁).weaken hm).bind fun r' τ₂ _ hleaves' => ?_)
      refine .before_succ (.jump hback hplace')
        (ih (by omega) (hleaves'.matches (by simp)) fun x hx => ?_)
      exact (hleaves'.kept x (hlive x hx).2 (by simp)).trans (hkept₁ x hx)

end Shapes

/-! ## Temporaries in use

A condition holds a temporary while its code is emitted, and gives it back before the branch is
compiled. What else is in use is in use before and after. -/

variable {V : Type} {cfg : Setting} {t : Tree} {before : Workspace} {final : Assembly}
  {w w' : Workspace} {id : NodeId} {target : Option String} {host : Host V} {n levels : Nat}

/-- Temporaries that a unit has not held are still in use when it has given its own back. -/
theorem Owned.rented_of_released {u u' : WorkUnit} (h : Owned u w u' w') (htemps : u'.temps = [])
    {x : String} (hx : x ∉ u.temps) : w'.rented.get? x = w.rented.get? x := by
  have hbeneath := h.beneath x
  rwa [WorkUnit.beneath, WorkUnit.beneath, htemps, if_neg List.not_mem_nil, if_neg hx] at hbeneath

/-- Temporaries in use stay so while a unit holds none of them. -/
theorem Owned.still {u u' : WorkUnit} (h : Owned u w u' w') (htemps : u.temps = []) {x : String}
    (hx : w.rented.get? x ≠ none) : w'.rented.get? x ≠ none ∧ x ∉ u'.temps := by
  have hbeneath := h.beneath x
  rw [WorkUnit.beneath, WorkUnit.beneath, htemps, if_neg List.not_mem_nil] at hbeneath
  rw [← hbeneath] at hx
  split at hx
  next hmem => exact absurd rfl hx
  next hmem => exact ⟨hx, hmem⟩

/-! ## Loops

The unit of a loop takes three steps. Its jumps get their targets in the last one, so what they
are in the end is known only from there, and the code between stays as it is. -/

/-- A loop that has compiled its condition jumps past itself and goes to the body. -/
theorem Job.loop_tested {again : Option InstructionId} {name : String}
    (hjob : Job cfg t before final ⟨id, none, 1, [name], .loop again (some name) none⟩ w w') :
    ∃ body next w₁ w₂, (t.children id)[1]? = some body ∧
      w₁.assembly.instructions =
        w.assembly.instructions ++ [.push name, .jumpIfFalse .unresolved] ∧
      (∀ x, x ≠ name → w₁.rented.get? x = w.rented.get? x) ∧
      Yields (start t body none) w₁ next w₁ ∧ Job cfg t before final next w₁ w₂ ∧
      Job cfg t before final ⟨id, none, 2, [], .loop again none
        (some (w.assembly.instructions.length + 1))⟩ w₂ w' ∧
      Touches [] w₁ w₂ ∧
      ∀ lo, lo ≤ w₁.assembly.instructions.length → Settled final lo w' →
        Settled final w₁.assembly.instructions.length w₂ := by
  obtain ⟨p, u', w₁, hstep, howned, hrest⟩ := hjob.cases
  change Yields (stepLoop cfg t 1 ⟨id, none, 2, [name], .loop again (some name) none⟩
    again (some name) none) w (p, u') w₁ at hstep
  obtain ⟨hone, -⟩ | ⟨-, name', jump, body, w₀, u₁, hname, hjump, hbody, hrelease, rfl, rfl⟩ |
    ⟨hone, -⟩ := stepLoop_cases hstep
  · cases hone
  swap
  · omega
  obtain rfl := Option.some.inj hname
  obtain ⟨rfl, happends⟩ := Appends.jumpIfFalse hjump
  have hassembly := release_assembly (happends.pooled hjob.coherent.pooled) hrelease
  obtain ⟨rfl, -⟩ := release_cases hrelease
  obtain ⟨next, w₂, hstart, hnext, hrest, -, htouches, hsettled⟩ := hrest
  exact ⟨body, next, w₁, w₂, hbody, by rw [hassembly, happends.code_eq],
    fun x hx => howned.rented_of_released rfl (List.mem_singleton.not.mpr hx), hstart, hnext, hrest,
    htouches, hsettled⟩

theorem translates_loop (hjob : Job cfg t before final ⟨id, none, 0, [], .loop none none none⟩ w w')
    (hconstruct : before.construct? id = some .loop)
    (hsettled : Settled final w.assembly.instructions.length w')
    (hih : ∀ child ∈ t.children id, Correct host n cfg t before final levels child) :
    Translates host n cfg t before final (levels + 1) id none w w' := by
  intro σ τ hmatch
  simp only [eval_loop hconstruct]
  -- The condition.
  obtain ⟨p, u', w₁, hstep, -, hrest⟩ := hjob.cases
  change Yields (stepLoop cfg t 0 ⟨id, none, 1, [], .loop none none none⟩ none none none)
    w (p, u') w₁ at hstep
  obtain ⟨-, test, type, name, htest, hrent, rfl, rfl⟩ | ⟨hone, -⟩ | ⟨hone, -⟩ :=
    stepLoop_cases hstep
  rotate_left
  · cases hone
  · omega
  obtain ⟨next, w₂, hstart, hnext, hjob₂, hrented₂, htouches₂, hsettled₂⟩ := hrest
  obtain ⟨hlead, hcode₁, -, -, hstill⟩ := hjob.coherent.rented_fresh hrent
  -- The jump past the loop, and the body.
  obtain ⟨body, next', w₄, w₅, hbody, hcode₄, hkept₄, hstart', hnext', hjob₃, htouches₅, hsettled₅⟩ :=
    hjob₂.loop_tested
  -- The jump back.
  obtain ⟨p, u', w₈, hstep, -, hrest⟩ := hjob₃.cases
  change Yields (stepLoop cfg t 2 ⟨id, none, 3, [], .loop w.assembly.last? none
    (some (w₂.assembly.instructions.length + 1))⟩ w.assembly.last? none
    (some (w₂.assembly.instructions.length + 1))) w₅ (p, u') w₈ at hstep
  have hlength₁ := congrArg List.length hcode₁
  have hlength₄ : w₄.assembly.instructions.length = w₂.assembly.instructions.length + 2 := by
    rw [hcode₄, List.length_append]
    rfl
  have hgrows₂ := htouches₂.grows
  have hgrows₅ := htouches₅.grows
  have htested : ∀ k i, [.push name, .jumpIfFalse .unresolved][k]? = some i →
      w₅.assembly.instructions[w₂.assembly.instructions.length + k]? = some i := fun k i hi => by
    have hk := (List.getElem?_eq_some_iff.mp hi).1
    rw [htouches₅.code _ (by rw [hlength₄]; exact Nat.add_lt_add_left hk _) List.not_mem_nil,
      hcode₄, List.getElem?_append_right (Nat.le_add_right _ _), Nat.add_sub_cancel_left, hi]
  obtain ⟨rfl, hlength₈, hback, hexit, hcode₈⟩ := stepLoop_end hstep hjob₃.coherent.pooled
    fun k hk => ⟨.unresolved, Option.some.inj hk ▸ htested 1 _ rfl⟩
  obtain rfl : w₈ = w' := hrest
  -- What stands at the three places that hold the loop together.
  have hpush : final.instructions[w₂.assembly.instructions.length]? = some (.push name) := by
    rw [hsettled _ (by omega) (by omega), hcode₈ _ (by omega) (by simp)]
    exact htested 0 _ rfl
  have hpast : final.instructions[w₂.assembly.instructions.length + 1]? =
      some (.jumpIfFalse (.after (some w₅.assembly.instructions.length))) := by
    rw [hsettled _ (by omega) (by omega)]
    exact hexit _ rfl
  have hagain : final.instructions[w₅.assembly.instructions.length]? =
      some (.jump (.after w.assembly.last?)) := by
    rw [hsettled _ (by omega) (by omega), hback]
  rw [htest, Option.bind_some, hbody, Option.bind_some]
  have htests := hih test (List.mem_of_getElem? htest) (some name) next w₁ w₂ hstart hnext
    (.temp (.repeated hconstruct htest) hlead) (hsettled₂ _ hlength₁.ge hsettled)
  have hbodies := hih body (List.mem_of_getElem? hbody) none next' w₄ w₅ hstart' hnext'
    ⟨by simp, by simp⟩ (hsettled₅ _ (by omega) hsettled)
  rw [Translates, hlength₁] at htests
  rw [Translates, hlength₄] at hbodies
  refine does_iterate htests hbodies hlead (fun x hx => ?_) hpush hpast ?_ hagain
    (Assembly.place?_last _) (Nat.le_refl n) hmatch fun _ _ => rfl
  · obtain ⟨hx₁, hne⟩ := hstill x hx
    refine ⟨⟨hx₁, hne⟩, ?_⟩
    rw [hkept₄ x hne, hrented₂]
    exact hx₁
  · rw [hlength₈]
    rfl

/-! ## Conditionals

A conditional is followed from one of its conditions on, by induction on the children that are
left (`exists_chooses`). `Branching` says which jumps it has still to give a target, and `Onward`
where they go in the end. -/

/-- The jumps that a conditional has still to give a target, in the code so far. -/
structure Branching (lo : Nat) (w : Workspace) (pending : Option InstructionId)
    (exits : List InstructionId) : Prop where
  pending : ∀ k ∈ pending, lo ≤ k ∧ ∃ jump, w.assembly.instructions[k]? = some (.jumpIfFalse jump)
  exits : ∀ k ∈ exits, lo ≤ k ∧ ∃ jump, w.assembly.instructions[k]? = some (.jump jump)

/-- The same jumps in the end: the one over a branch goes to what comes next, and those past the
other branches to the end. -/
structure Onward (final : Assembly) (next hi : Nat) (pending : Option InstructionId)
    (exits : List InstructionId) : Prop where
  pending : ∀ k ∈ pending, ∃ jump, final.instructions[k]? = some (.jumpIfFalse jump) ∧
    jump.place? = some next
  exits : ∀ k ∈ exits, ∃ jump, final.instructions[k]? = some (.jump jump) ∧
    jump.place? = some hi

section Branches

variable {lo m : Nat} {temps : List String} {condition : Option String}
  {pending pending' : Option InstructionId} {exits exits' : List InstructionId} {w₁ : Workspace}

theorem Branching.touches (h : Branching lo w pending exits) (htouches : Touches [] w w') :
    Branching lo w' pending exits := by
  have hsame : ∀ k i, w.assembly.instructions[k]? = some i →
      w'.assembly.instructions[k]? = some i := fun k i hi => by
    rw [htouches.code k (List.getElem?_eq_some_iff.mp hi).1 List.not_mem_nil, hi]
  refine ⟨fun k hk => ?_, fun k hk => ?_⟩
  · obtain ⟨hle, jump, hget⟩ := h.pending k hk
    exact ⟨hle, jump, hsame k _ hget⟩
  · obtain ⟨hle, jump, hget⟩ := h.exits k hk
    exact ⟨hle, jump, hsame k _ hget⟩

/-- What a unit does not have to come back to is settled. -/
theorem Job.settled_get {u : WorkUnit} (h : Job cfg t before final u w w')
    (hsettled : Settled final lo w') {k : Nat} {i : Instruction} (hk : lo ≤ k)
    (hi : w.assembly.instructions[k]? = some i) (hjumps : k ∉ u.task.jumps) :
    final.instructions[k]? = some i := by
  have hlt := (List.getElem?_eq_some_iff.mp hi).1
  have htouches := h.finished.touches
  rw [hsettled k hk (hlt.trans_le htouches.grows), htouches.code k hlt hjumps, hi]

/-- What a conditional has written so far stays but for the jumps that have no target yet. -/
theorem Branching.settled_get
    (h : Branching lo w pending exits)
    (hjob : Job cfg t before final ⟨id, target, m, temps, .conditional condition pending exits⟩ w w')
    (hsettled : Settled final lo w') {k : Nat} {i : Instruction} (hk : lo ≤ k)
    (hi : w.assembly.instructions[k]? = some i) (hpending : k ∉ pending)
    (hjump : ∀ jump, i ≠ .jump jump) : final.instructions[k]? = some i := by
  refine hjob.settled_get hsettled hk hi fun hmem => ?_
  rcases List.mem_append.mp hmem with hmem | hmem
  · exact hpending (Option.mem_toList.mp hmem)
  · obtain ⟨-, jump, hi'⟩ := h.exits k hmem
    exact hjump jump (Option.some.inj (hi.symm.trans hi'))

/-- After the jump over a branch, which has no target yet. -/
theorem Branching.tested {name : String} (h : Branching lo w none exits)
    (hlo : lo ≤ w.assembly.instructions.length) (hcode : w₁.assembly.instructions =
      w.assembly.instructions ++ [.push name, .jumpIfFalse .unresolved]) :
    Branching lo w₁ (some (w.assembly.instructions.length + 1)) exits := by
  refine ⟨fun k hk => ?_, (h.touches (.ofCode hcode)).exits⟩
  obtain rfl := Option.some.inj hk
  exact ⟨by omega, .unresolved, by rw [hcode]; simp⟩

/-- A conditional that has compiled a condition jumps over the branch and goes to it. -/
theorem Job.tested {name : String}
    (hjob : Job cfg t before final
      ⟨id, target, m + 1, [name], .conditional (some name) none exits⟩ w w')
    (heven : m % 2 = 0) (hlt : m + 1 < (t.children id).length) :
    ∃ branch next w₁ w₂, (t.children id)[m + 1]? = some branch ∧
      w₁.assembly.instructions =
        w.assembly.instructions ++ [.push name, .jumpIfFalse .unresolved] ∧
      (∀ x, x ≠ name → w₁.rented.get? x = w.rented.get? x) ∧
      Yields (start t branch target) w₁ next w₁ ∧ Job cfg t before final next w₁ w₂ ∧
      Job cfg t before final ⟨id, target, m + 2, [], .conditional none
        (some (w.assembly.instructions.length + 1)) exits⟩ w₂ w' ∧
      (∀ x, w₂.rented.get? x = w₁.rented.get? x) ∧ Touches [] w₁ w₂ ∧
      ∀ lo, lo ≤ w₁.assembly.instructions.length → Settled final lo w' →
        Settled final w₁.assembly.instructions.length w₂ := by
  obtain ⟨p, u', w₁, hstep, howned, hrest⟩ := hjob.cases
  change Yields (stepConditional cfg t (m + 1) ⟨id, target, m + 2, [name], .conditional (some name)
    none exits⟩ (some name) none exits) w (p, u') w₁ at hstep
  obtain ⟨hnone, -⟩ | ⟨branch, hbranch, ⟨-, name', jump, w₀, u₁, hname, hjump, hrelease, rfl, rfl⟩ |
    ⟨heven', -⟩⟩ := stepConditional_cases hstep
  · rw [List.getElem?_eq_getElem hlt] at hnone
    cases hnone
  swap
  · omega
  obtain rfl := Option.some.inj hname
  obtain ⟨rfl, happends⟩ := Appends.jumpIfFalse hjump
  have hassembly := release_assembly (happends.pooled hjob.coherent.pooled) hrelease
  obtain ⟨rfl, -⟩ := release_cases hrelease
  obtain ⟨next, w₂, hstart, hnext, hrest, hrented, htouches, hsettled⟩ := hrest
  exact ⟨branch, next, w₁, w₂, hbranch, by rw [hassembly, happends.code_eq],
    fun x hx => howned.rented_of_released rfl (List.mem_singleton.not.mpr hx), hstart, hnext, hrest,
    hrented, htouches, hsettled⟩

/-- At the end of a conditional, all its jumps go there. -/
theorem Branching.finish
    (hjob : Job cfg t before final ⟨id, target, m, temps, .conditional condition pending exits⟩ w w')
    (hend : (t.children id)[m]? = none) (h : Branching lo w pending exits)
    (hsettled : Settled final lo w') :
    w'.assembly.instructions.length = w.assembly.instructions.length ∧
      Onward final w.assembly.instructions.length w.assembly.instructions.length pending exits := by
  obtain ⟨p, u', w₃, hstep, -, hrest⟩ := hjob.cases
  obtain ⟨rfl, hlength, hpending, hexits⟩ := stepConditional_end hstep hend hjob.coherent.pooled
  obtain rfl : w₃ = w' := hrest
  refine ⟨hlength, fun k hk => ?_, fun k hk => ?_⟩
  · obtain ⟨hle, jump, hget⟩ := h.pending k hk
    refine ⟨_, ?_, Assembly.place?_last w.assembly⟩
    have hlt := (List.getElem?_eq_some_iff.mp hget).1
    rw [hsettled k hle (by omega), hpending k hk jump hget]
  · obtain ⟨hle, jump, hget⟩ := h.exits k hk
    refine ⟨_, ?_, Assembly.place?_last w.assembly⟩
    have hlt := (List.getElem?_eq_some_iff.mp hget).1
    rw [hsettled k hle (by omega), hexits k hk jump hget]

theorem endsBranch_pooled (hends : EndsBranch m w pending pending' exits exits' w₁)
    (hpooled : w.Pooled) : w₁.Pooled := by
  obtain ⟨-, -, -, rfl⟩ | ⟨-, -, -, hcloses⟩ := hends.cases
  · exact hpooled
  · exact hcloses.pooled hpooled

/-- Before the condition of a later branch or the last branch. -/
theorem Branching.endsBranch (h : Branching lo w pending exits)
    (hends : EndsBranch m w pending pending' exits exits' w₁)
    (hzero : m = 0 → pending = none ∧ exits = []) (hlo : lo ≤ w.assembly.instructions.length) :
    pending' = none ∧ Branching lo w₁ none exits' ∧
      w.assembly.instructions.length ≤ w₁.assembly.instructions.length ∧ (m = 0 → w = w₁) ∧
      (∀ k ∈ exits, k ∈ exits') ∧ (m ≠ 0 → w.assembly.instructions.length ∈ exits') ∧
      ∀ k ∈ pending, lo ≤ k ∧ ∃ jump, w₁.assembly.instructions[k]? = some (.jumpIfFalse jump) ∧
        jump.place? = some w₁.assembly.instructions.length := by
  obtain ⟨rfl, rfl, rfl, rfl⟩ | ⟨hm, rfl, rfl, hcloses⟩ := hends.cases
  · obtain ⟨rfl, rfl⟩ := hzero rfl
    exact ⟨rfl, h, Nat.le_refl _, fun _ => rfl, fun _ hk => hk, fun hm => absurd rfl hm, by simp⟩
  refine ⟨rfl, ⟨by simp, fun k hk => ?_⟩, by rw [hcloses.length]; omega,
    fun hzero => absurd hzero hm, fun k hk => List.mem_append_left _ hk,
    fun _ => List.mem_append_right _ (by simp), fun k hk => ?_⟩
  · rcases List.mem_append.mp hk with hk | hk
    · obtain ⟨hle, jump, hi⟩ := h.exits k hk
      exact ⟨hle, hcloses.kept k jump hi⟩
    · obtain rfl := List.mem_singleton.mp hk
      exact ⟨hlo, hcloses.exit⟩
  · obtain ⟨hle, jump, hi⟩ := h.pending k hk
    refine ⟨hle, _, hcloses.lands k hk jump hi, ?_⟩
    rw [hcloses.length]
    rfl

/-- A conditional whose branches have all been compiled. -/
theorem chooses_of_end
    (hjob : Job cfg t before final ⟨id, target, m, [], .conditional condition pending exits⟩ w w')
    (hconstruct : before.construct? id = some .conditional) (haim : Aim t before id target)
    (hsettled : Settled final lo w') (hm : m = (t.children id).length) (heven : m % 2 = 0)
    (h : Branching lo w pending exits) {live : String → Prop} {host : Host V}
    {ev : NodeId → Store V → Option (Store V × V)} :
    w'.assembly.instructions.length = w.assembly.instructions.length ∧
      Onward final w.assembly.instructions.length w.assembly.instructions.length pending exits ∧
      Chooses host cfg.catalog final.instructions n (host.initial final.heap) target live ev
        w.assembly.instructions.length w.assembly.instructions.length ((t.children id).drop m) := by
  obtain ⟨hlength, honward⟩ := h.finish hjob (List.getElem?_eq_none hm.ge) hsettled
  refine ⟨hlength, honward, ?_⟩
  rw [hm, List.drop_length]
  cases target with
  | none => exact chooses_nil
  | some x =>
    -- A value that is used comes from some branch.
    have := hjob.scene.eventFree.conditionals id (haim.used rfl) hconstruct
    omega

/-- A conditional from one of its conditions, or its last branch, on. -/
theorem exists_chooses
    (hjob : Job cfg t before final ⟨id, target, m, [], .conditional condition pending exits⟩ w w')
    (hconstruct : before.construct? id = some .conditional) (haim : Aim t before id target)
    (hlo : lo ≤ w.assembly.instructions.length) (hsettled : Settled final lo w')
    (hih : ∀ child ∈ t.children id, Correct host n cfg t before final levels child)
    (heven : m % 2 = 0) (hm : m ≤ (t.children id).length)
    (hzero : m = 0 → pending = none ∧ exits = []) (h : Branching lo w pending exits)
    {live : String → Prop} (hlive : ∀ x, live x → w.rented.get? x ≠ none) :
    ∃ next, (m = 0 → next = w.assembly.instructions.length) ∧
      Onward final next w'.assembly.instructions.length pending exits ∧
      (m ≠ 0 → ∀ τ, ∃ k, Runs host cfg.catalog final.instructions k
        ⟨w.assembly.instructions.length, [], τ⟩ ⟨w'.assembly.instructions.length, [], τ⟩) ∧
      Chooses host cfg.catalog final.instructions n (host.initial final.heap) target live
        (eval host cfg.catalog t before n levels) next w'.assembly.instructions.length
        ((t.children id).drop m) := by
  -- The induction is on the number of children left, two at a time.
  generalize hleft : (t.children id).length - m = left
  induction left using Nat.strong_induction_on generalizing m w condition pending exits with
  | _ left ih =>
  rcases Nat.eq_or_lt_of_le hm with hmend | hlt
  · obtain ⟨hlength, honward, hchooses⟩ :=
      chooses_of_end hjob hconstruct haim hsettled hmend heven h
    rw [hlength]
    exact ⟨_, fun _ => rfl, honward, fun _ τ => ⟨0, .refl _⟩, hchooses⟩
  obtain ⟨p, u', w₂, hstep, howned, hrest⟩ := hjob.cases
  change Yields (stepConditional cfg t m ⟨id, target, m + 1, [], .conditional condition pending
    exits⟩ condition pending exits) w (p, u') w₂ at hstep
  obtain ⟨hnone, -⟩ | ⟨child, hchild, ⟨hodd, -⟩ | ⟨-, pending', exits', w₁, hends, hnext⟩⟩ :=
    stepConditional_cases hstep
  · rw [List.getElem?_eq_getElem hlt] at hnone
    cases hnone
  · omega
  have hpooled₁ := endsBranch_pooled hends hjob.coherent.pooled
  obtain ⟨rfl, h₁, hgrows₁, hsame, hexits, hexit, hpending⟩ := h.endsBranch hends hzero hlo
  have hmem := List.mem_of_getElem? hchild
  obtain ⟨_, hget⟩ := List.getElem?_eq_some_iff.mp hchild
  -- Whatever comes now, the jumps past the other branches get to the end with it.
  suffices hrest : (∀ k ∈ exits', ∃ jump, final.instructions[k]? = some (.jump jump) ∧
        jump.place? = some w'.assembly.instructions.length) ∧
      (∀ k jump, lo ≤ k → w₁.assembly.instructions[k]? = some (.jumpIfFalse jump) →
        final.instructions[k]? = some (.jumpIfFalse jump)) ∧
      Chooses host cfg.catalog final.instructions n (host.initial final.heap) target live
        (eval host cfg.catalog t before n levels) w₁.assembly.instructions.length
        w'.assembly.instructions.length ((t.children id).drop m) by
    obtain ⟨honward, hkeeps, hchooses⟩ := hrest
    refine ⟨_, fun hm => by rw [hsame hm], ⟨fun k hk => ?_, fun k hk => honward k (hexits k hk)⟩,
      fun hm τ => ?_, hchooses⟩
    · obtain ⟨hle, jump, hi, hplace⟩ := hpending k hk
      exact ⟨jump, hkeeps k _ hle hi, hplace⟩
    · obtain ⟨jump, hi, hplace⟩ := honward _ (hexit hm)
      exact ⟨1, .jump hi hplace⟩
  rw [List.drop_eq_getElem_cons hlt, hget]
  rcases hnext with ⟨hbranch, type, name, hrent, rfl, rfl⟩ | ⟨hlast, rfl, rfl, rfl⟩
  · change m + 1 < (t.children id).length at hbranch
    obtain ⟨next, w₃, hstart, hnext, hjob₃, hrented₃, htouches₃, hsettled₃⟩ := hrest
    obtain ⟨hemits, -, -, -, -, htemp, -⟩ := Build.rent_spec hrent hpooled₁
    have hcode₂ : w₂.assembly.instructions = w₁.assembly.instructions ++ [] := hemits.code
    have hlength₂ : w₂.assembly.instructions.length = w₁.assembly.instructions.length := by
      rw [hcode₂, List.append_nil]
    have htouches₁ : Touches [] w₁ w₃ := Touches.trans (.ofCode hcode₂) htouches₃ (by simp)
    -- The jump over the branch, and the branch.
    obtain ⟨branch, next', w₅, w₆, hbranch', hcode₅, hkept₅, hstart', hnext', hjob₆, hrented₆,
      htouches₆, hsettled₆⟩ := hjob₃.tested heven hbranch
    have hlength₅ : w₅.assembly.instructions.length = w₃.assembly.instructions.length + 2 := by
      rw [hcode₅, List.length_append]
      rfl
    have hgrows₃ := htouches₁.grows
    have hgrows₆ := htouches₆.grows
    have h₃ : Branching lo w₃ none exits' := h₁.touches htouches₁
    have h₆ := (h₃.tested (by omega) hcode₅).touches htouches₆
    have hlive₅ : ∀ x, live x → w₂.rented.get? x ≠ none ∧ x ≠ name ∧ w₅.rented.get? x ≠ none := by
      intro x hx
      obtain ⟨hx₂, hnot⟩ := howned.still rfl (hlive x hx)
      have hne := List.mem_singleton.not.mp hnot
      refine ⟨hx₂, hne, ?_⟩
      rw [hkept₅ x hne, hrented₃]
      exact hx₂
    obtain ⟨other, -, honward, hend, hchooses⟩ := ih (left - 2) (by omega) hjob₆
      (by omega) (by omega) hbranch (by simp) h₆
      (fun x hx => by rw [hrented₆]; exact (hlive₅ x hx).2.2) (by omega)
    refine ⟨honward.exits, fun k jump hle hi => h₃.settled_get hjob₃ hsettled hle ?_ (by simp)
      (by simp), ?_⟩
    · rw [htouches₁.code k (List.getElem?_eq_some_iff.mp hi).1 List.not_mem_nil, hi]
    obtain ⟨_, hget'⟩ := List.getElem?_eq_some_iff.mp hbranch'
    obtain ⟨jump, hjumpIfFalse, hplace⟩ := honward.pending _ rfl
    have hpush : final.instructions[w₃.assembly.instructions.length]? = some (.push name) := by
      refine h₆.settled_get hjob₆ hsettled (by omega) ?_ (by simp) (by simp)
      rw [htouches₆.code _ (by omega) List.not_mem_nil, hcode₅]
      simp
    have htests := hih child hmem (some name) next w₂ w₃ hstart hnext
      (.temp (.tested hconstruct hchild heven hbranch) htemp.1)
      (hsettled₃ lo (by omega) hsettled)
    have hbranches := hih branch (List.mem_of_getElem? hbranch') target next' w₅ w₆ hstart' hnext'
      ⟨fun hsome => .branch hconstruct (haim.used hsome) hbranch' (Or.inl (by omega)), haim.free⟩
      (hsettled₆ lo (by omega) hsettled)
    rw [Translates, hlength₂] at htests
    rw [Translates, hlength₅] at hbranches
    rw [List.drop_eq_getElem_cons hbranch, hget']
    exact chooses_cons htests hbranches htemp.1
      (fun x hx => ⟨⟨(hlive₅ x hx).1, (hlive₅ x hx).2.1⟩, (hlive₅ x hx).2.2⟩) hpush hjumpIfFalse
      hplace (hend (by simp)) hchooses
  · obtain ⟨next, w₃, hstart, hnext, hjob₃, -, htouches₃, hsettled₃⟩ := hrest
    have hend : m + 1 = (t.children id).length := Nat.le_antisymm hlt hlast
    have h₃ := h₁.touches htouches₃
    obtain ⟨hlength, honward⟩ := h₃.finish hjob₃ (List.getElem?_eq_none hend.ge) hsettled
    rw [hlength]
    refine ⟨honward.exits, fun k jump hle hi => h₃.settled_get hjob₃ hsettled hle ?_ (by simp)
      (by simp), fun σ τ hmatch => ?_⟩
    · rw [htouches₃.code k (List.getElem?_eq_some_iff.mp hi).1 List.not_mem_nil, hi]
    · rw [List.drop_eq_nil_of_le hend.ge]
      have hdoes := hih child hmem target next w₁ w₃ hstart hnext
        ⟨fun hsome => .branch hconstruct (haim.used hsome) hchild (Or.inr hend), haim.free⟩
        (hsettled₃ lo (hlo.trans hgrows₁) hsettled) σ τ hmatch
      exact hdoes.mono fun r τ' hleaves =>
        hleaves.rebase (fun x hx _ => (howned.still rfl (hlive x hx)).1) fun _ _ _ => rfl

theorem translates_conditional
    (hjob : Job cfg t before final ⟨id, target, 0, [], .conditional none none []⟩ w w')
    (hconstruct : before.construct? id = some .conditional) (haim : Aim t before id target)
    (hsettled : Settled final w.assembly.instructions.length w')
    (hih : ∀ child ∈ t.children id, Correct host n cfg t before final levels child) :
    Translates host n cfg t before final (levels + 1) id target w w' := by
  intro σ τ hmatch
  simp only [eval_conditional hconstruct]
  obtain ⟨next, hnext, -, -, hchooses⟩ := exists_chooses hjob hconstruct haim (Nat.le_refl _)
    hsettled hih rfl (Nat.zero_le _) (fun _ => ⟨rfl, rfl⟩) ⟨by simp, by simp⟩ fun _ hx => hx
  obtain rfl := hnext rfl
  exact hchooses σ τ hmatch

end Branches

end SexprAsm
