import SexprAsm.Proofs.Semantics.Simulation

/-!
# Constructs without jumps

Literals, variables, types, assignments, casts, sequences and calls: the code of each does what
it is evaluated to, if the code of its children does.
-/

namespace SexprAsm

open Generation Workspace Evaluation

variable {V : Type} {cfg : Setting} {t : Tree} {before : Workspace} {final : Assembly}
  {u : WorkUnit} {w w' : Workspace} {id : NodeId} {target : Option String} {host : Host V}
  {n levels : Nat}

/-! ## Nodes without children

The code is a copy to the target, or nothing. What is copied is a literal, whose slot holds it,
or a variable that is not reserved and so has the value that evaluation sees. -/

theorem translates_literal (hjob : Job cfg t before final ⟨id, target, 0, [], .literal⟩ w w')
    (hconstruct : before.construct? id = some .literal) (haim : Aim t before id target)
    (hsettled : Settled final w.assembly.instructions.length w') :
    Translates host n cfg t before final (levels + 1) id target w w' := by
  intro σ τ hmatch
  simp only [eval_literal hconstruct]
  obtain ⟨p, u', w₁, hstep, -, hrest⟩ := hjob.cases
  obtain ⟨rfl, rfl, ⟨last, htarget, hnop⟩ | ⟨x, last, htarget, hcopy⟩⟩ := stepLiteral_cases hstep
  · obtain rfl : target = none := htarget
    obtain rfl : w₁ = w' := hrest
    have happends := Appends.nop hnop
    rw [happends.length_eq]
    exact .done (.nop (hsettled.codeAt happends.code_eq (Nat.le_refl _)))
      (hmatch.leaves fun _ _ => rfl)
  · obtain rfl : target = some x := htarget
    obtain rfl : w₁ = w' := hrest
    obtain ⟨slot, hin, happends⟩ := Appends.copy hjob.coherent.sound hcopy
    have hcode : w₁.assembly.instructions = w.assembly.instructions ++ copyCode slot (some x) :=
      happends.code_eq
    obtain ⟨k, τ', hrun, hleaves⟩ := exists_copyRun hcode hsettled (Nat.le_refl _) haim.free hmatch
      (fun _ => hmatch.constant hjob.scene hin hjob.heap) (fun _ _ _ => rfl)
    exact .done hrun hleaves

theorem translates_typeOf {type : TypeId}
    (hjob : Job cfg t before final ⟨id, target, 0, [], .typeOf type⟩ w w')
    (hconstruct : before.construct? id = some (.typeOf type)) (haim : Aim t before id target)
    (hsettled : Settled final w.assembly.instructions.length w') :
    Translates host n cfg t before final (levels + 1) id target w w' := by
  intro σ τ hmatch
  simp only [eval_typeOf hconstruct]
  obtain ⟨p, u', w₁, hstep, -, hrest⟩ := hjob.cases
  obtain ⟨hcopy, rfl, rfl⟩ := step_typeOf_cases hstep
  obtain rfl := hrest
  obtain ⟨slot, hin, happends⟩ := Appends.copyToTarget hjob.coherent.sound hcopy
  obtain ⟨k, τ', hrun, hleaves⟩ := exists_copyRun happends.code_eq hsettled (Nat.le_refl _)
    haim.free hmatch (fun hsome => hmatch.constant hjob.scene (hin hsome) hjob.heap)
    (fun _ _ _ => rfl)
  exact .done hrun hleaves

/-- The name of a variable is not reserved. -/
theorem Job.name_free (hjob : Job cfg t before final u w w')
    (hconstruct : before.construct? id = some .get ∨ before.construct? id = some .set ∨
      before.construct? id = some .declare) {child : NodeId} {name : String}
    (hchild : (t.children id)[0]? = some child) (hname : (t.tag child).text? = some name) :
    name? t id = some name ∧ ¬ Reserved name := by
  have hname' : name? t id = some name := by
    rw [name?, hchild, Option.bind_some, hname]
  exact ⟨hname', hjob.scene.eventFree.names id hconstruct name hname'⟩

theorem translates_get (hjob : Job cfg t before final ⟨id, target, 0, [], .get⟩ w w')
    (hconstruct : before.construct? id = some .get) (haim : Aim t before id target)
    (hsettled : Settled final w.assembly.instructions.length w') :
    Translates host n cfg t before final (levels + 1) id target w w' := by
  intro σ τ hmatch
  simp only [eval_get hconstruct]
  obtain ⟨p, u', w₁, hstep, -, hrest⟩ := hjob.cases
  obtain ⟨rfl, rfl, child, name, found, w₀, hchild, hname, htype, hcopy⟩ := stepGet_cases hstep
  obtain rfl : w₁ = w' := hrest
  obtain ⟨hname', hfree⟩ := hjob.name_free (Or.inl hconstruct) hchild hname
  have happends := Appends.typeOf? htype
  obtain ⟨slot, hin, happends'⟩ := Appends.copyToTarget
    (happends.emits.sound hjob.coherent.sound) hcopy
  obtain ⟨k, τ', hrun, hleaves⟩ := exists_copyRun (v := σ name)
    (happends.trans happends').code_eq hsettled (Nat.le_refl _) haim.free hmatch
    (fun hsome => (congrArg τ (hin hsome)).trans (hmatch.vars name hfree)) (fun _ _ _ => rfl)
  rw [hname']
  exact .done hrun hleaves

theorem translates_declare (hjob : Job cfg t before final ⟨id, target, 0, [], .declare⟩ w w')
    (hconstruct : before.construct? id = some .declare) (haim : Aim t before id target)
    (hsettled : Settled final w.assembly.instructions.length w') :
    Translates host n cfg t before final (levels + 1) id target w w' := by
  intro σ τ hmatch
  simp only [eval_declare hconstruct]
  obtain ⟨p, u', w₁, hstep, -, hrest⟩ := hjob.cases
  obtain ⟨rfl, rfl, ⟨htarget, rfl⟩ | ⟨child, name, hchild, hname, hcopy⟩⟩ := stepDeclare_cases hstep
  · obtain rfl : target = none := htarget
    obtain rfl : w = w' := hrest
    exact .done (.refl _) (hmatch.leaves fun _ _ => rfl)
  · obtain rfl : w₁ = w' := hrest
    obtain ⟨hname', hfree⟩ := hjob.name_free (Or.inr (Or.inr hconstruct)) hchild hname
    obtain ⟨slot, hin, happends⟩ := Appends.copyToTarget hjob.coherent.sound hcopy
    obtain ⟨k, τ', hrun, hleaves⟩ := exists_copyRun (v := σ name) happends.code_eq hsettled
      (Nat.le_refl _) haim.free hmatch
      (fun hsome => (congrArg τ (hin hsome)).trans (hmatch.vars name hfree)) (fun _ _ _ => rfl)
    rw [hname']
    exact .done hrun hleaves

/-! ## Assignments, casts and sequences

The children are compiled one after the other, and what they translate to is taken as given.
Between them nothing is emitted, so their pieces of code join. -/

/-- A last step that copies a slot to the target and gives the temporaries back. -/
theorem copyAndRelease_code (hw : Coherent cfg.catalog w) {u' : WorkUnit} {w₁ : Workspace}
    {name : String}
    (hcopy : Yields (copyToTarget cfg u (.var name)) w () w₁)
    (hrelease : Yields (release u) w₁ u' w') : ∃ slot, (u.target.isSome = true → slot = name) ∧
      w'.assembly.instructions = w.assembly.instructions ++ copyCode slot u.target := by
  obtain ⟨slot, hin, happends⟩ := Appends.copyToTarget hw.sound hcopy
  refine ⟨slot, hin, ?_⟩
  rw [release_assembly (happends.pooled hw.pooled) hrelease, happends.code_eq]

theorem translates_set (hjob : Job cfg t before final ⟨id, target, 0, [], .set⟩ w w')
    (hconstruct : before.construct? id = some .set) (haim : Aim t before id target)
    (hsettled : Settled final w.assembly.instructions.length w')
    (hih : ∀ child ∈ t.children id, Correct host n cfg t before final levels child) :
    Translates host n cfg t before final (levels + 1) id target w w' := by
  intro σ τ hmatch
  simp only [eval_set hconstruct]
  obtain ⟨p, u', w₁, hstep, -, hrest⟩ := hjob.cases
  obtain ⟨first, name, hfirst, hname, ⟨-, child, hchild, rfl, rfl, rfl⟩ | ⟨hzero, -⟩⟩ :=
    stepSet_cases hstep
  swap
  · exact absurd rfl hzero
  obtain ⟨next, w₂, hstart, hnext, hjob₂, -, htouches, hchildSettled⟩ := hrest
  obtain ⟨hname', hreserved⟩ := hjob.name_free (Or.inr (Or.inl hconstruct)) hfirst hname
  -- The second step copies the variable to the target.
  obtain ⟨p, u', w₃, hstep, -, hrest⟩ := hjob₂.cases
  obtain ⟨first', name', hfirst', hname'', ⟨hzero, -⟩ | ⟨-, rfl, w₄, hcopy, hrelease⟩⟩ :=
    stepSet_cases hstep
  · cases hzero
  obtain rfl : w₃ = w' := hrest
  obtain rfl := Option.some.inj (hfirst.symm.trans hfirst')
  obtain rfl := Option.some.inj (hname.symm.trans hname'')
  obtain ⟨slot, hslot, hcode⟩ :=
    copyAndRelease_code hjob₂.coherent hcopy hrelease
  have hassigned := hih child (List.mem_of_getElem? hchild) (some name) next w w₂ hstart hnext
    ⟨fun _ => .assigned hconstruct hchild, fun x hx hlead => hreserved (Or.inr
      (Option.some.inj hx ▸ hlead))⟩ (hchildSettled _ (Nat.le_refl _) hsettled) σ τ hmatch
  rw [hname', Option.bind_some, hchild, Option.bind_some, Option.map_eq_bind]
  refine hassigned.bind fun r τ₁ _ hleaves => ?_
  obtain ⟨σ', v⟩ := r
  have hmatch' : Matches (host.initial final.heap) (Function.update σ' name v) τ₁ := by
    refine ⟨fun x hx => ?_, hleaves.constants⟩
    by_cases hxname : x = name
    · rw [hxname, Function.update_self]
      exact hleaves.value name rfl
    · rw [Function.update_of_ne hxname]
      exact hleaves.vars x hx fun heq => hxname (Option.some.inj heq).symm
  have hkept : ∀ x, w.rented.get? x ≠ none → target ≠ some x → τ₁ x = τ x := by
    intro x hx _
    refine hleaves.kept x hx fun heq => hreserved ?_
    rw [Option.some.inj heq]
    exact Or.inl (hjob.coherent.reserved_of_rented hx)
  obtain ⟨k, τ', hrun, hleaves'⟩ := exists_copyRun hcode hsettled htouches.grows haim.free hmatch'
    (fun hsome => (congrArg τ₁ (hslot hsome)).trans (hleaves.value name rfl)) hkept
  exact .done hrun hleaves'

/-- A temporary that has just been rented: it can be the target of a child, and what was in use is
still in use. -/
theorem Coherent.rented_fresh (hw : Coherent cfg.catalog w) {type : TypeId} {name : String}
    (h : Yields (Build.rent cfg type) w name w') :
    tempLead.toList <+: name.toList ∧
      w'.assembly.instructions = w.assembly.instructions ∧
      w.rented.get? name = none ∧ w'.rented.get? name ≠ none ∧
      ∀ x, w.rented.get? x ≠ none → w'.rented.get? x ≠ none ∧ x ≠ name := by
  obtain ⟨hemits, -, -, -, hnone, htemp, hrented⟩ := Build.rent_spec h hw.pooled
  refine ⟨htemp.1, by rw [hemits.code, List.append_nil], hnone, by simp [hrented], fun x hx => ?_⟩
  have hne : x ≠ name := fun heq => hx (heq ▸ hnone)
  exact ⟨by rwa [hrented, if_neg hne], hne⟩

theorem Aim.temp {child : NodeId} {name : String} (hused : Used t before child)
    (hlead : tempLead.toList <+: name.toList) : Aim t before child (some name) :=
  ⟨fun _ => hused, fun _ hx hconst => not_reserved_of_temp_const hlead (Option.some.inj hx ▸ hconst)⟩

theorem translates_cast {type : TypeId}
    (hjob : Job cfg t before final ⟨id, target, 0, [], .cast none⟩ w w')
    (hconstruct : before.construct? id = some (.cast type)) (haim : Aim t before id target)
    (hsettled : Settled final w.assembly.instructions.length w')
    (hih : ∀ child ∈ t.children id, Correct host n cfg t before final levels child) :
    Translates host n cfg t before final (levels + 1) id target w w' := by
  intro σ τ hmatch
  simp only [eval_cast hconstruct]
  obtain ⟨p, u', w₁, hstep, -, hrest⟩ := hjob.cases
  change Yields (stepCast cfg t 0 ⟨id, target, 1, [], .cast none⟩ none) w (p, u') w₁ at hstep
  obtain ⟨-, inner, type', name, hinner, hrent, rfl, rfl⟩ | ⟨hzero, -⟩ := stepCast_cases hstep
  swap
  · exact absurd rfl hzero
  obtain ⟨next, w₂, hstart, hnext, hjob₂, -, htouches, hchildSettled⟩ := hrest
  obtain ⟨hlead, hcode₁, -, -, hstill⟩ := hjob.coherent.rented_fresh hrent
  obtain ⟨p, u', w₃, hstep, -, hrest⟩ := hjob₂.cases
  change Yields (stepCast cfg t 1 ⟨id, target, 2, [name], .cast (some name)⟩ (some name))
    w₂ (p, u') w₃ at hstep
  obtain ⟨hzero, -⟩ | ⟨-, rfl, w₄, ⟨hnone, -⟩ | ⟨name', hname', hcopy⟩, hrelease⟩ :=
    stepCast_cases hstep
  · cases hzero
  · cases hnone
  obtain rfl : w₃ = w' := hrest
  obtain rfl := Option.some.inj hname'
  obtain ⟨slot, hslot, hcode⟩ :=
    copyAndRelease_code hjob₂.coherent hcopy hrelease
  -- The value comes into the temporary, and from there into the target.
  have hchild := hih inner (List.mem_of_getElem? hinner) (some name) next w₁ w₂ hstart hnext
    (.temp (.casted hconstruct hinner) hlead)
    (hchildSettled _ (by rw [hcode₁]) hsettled) σ τ hmatch
  rw [hcode₁] at hchild
  rw [hinner, Option.bind_some, ← Option.bind_fun_some (eval host _ _ _ _ _ inner σ)]
  refine hchild.bind fun r τ₁ _ hleaves => ?_
  obtain ⟨k, τ', hrun, hleaves'⟩ := exists_copyRun hcode hsettled
    (by rw [← hcode₁]; exact htouches.grows) haim.free
    (hleaves.matches fun x hx => Or.inl (Option.some.inj hx ▸ hlead))
    (fun hsome => (congrArg τ₁ (hslot hsome)).trans (hleaves.value name rfl)) fun x hx _ => by
      obtain ⟨hx', hne⟩ := hstill x hx
      exact hleaves.kept x hx' fun heq => hne (Option.some.inj heq).symm
  exact .done hrun hleaves'

/-- The items of a sequence from one on. -/
theorem does_lastOf {m : Nat} (hjob : Job cfg t before final ⟨id, target, m, [], .sequence⟩ w w')
    (hconstruct : before.construct? id = some .sequence) (haim : Aim t before id target)
    (hsettled : Settled final w.assembly.instructions.length w')
    (hih : ∀ child ∈ t.children id, Correct host n cfg t before final levels child)
    (hm : m < (t.children id).length) {σ τ : Store V}
    (hmatch : Matches (host.initial final.heap) σ τ) :
    Does host cfg.catalog final.instructions n w.assembly.instructions.length
      w'.assembly.instructions.length τ
      (lastOf host (eval host cfg.catalog t before n levels) ((t.children id).drop m) σ)
      (Leaves (host.initial final.heap) target (fun x => w.rented.get? x ≠ none) τ) := by
  -- The induction is on the number of items left.
  generalize hleft : (t.children id).length - m = left
  induction left generalizing m w σ τ with
  | zero => omega
  | succ left ih =>
    obtain ⟨p, u', w₁, hstep, -, hrest⟩ := hjob.cases
    obtain ⟨rfl, rfl, ⟨child, hchild, rfl⟩ | ⟨hnone, -⟩⟩ := stepSequence_cases hstep
    swap
    · rw [List.getElem?_eq_getElem hm] at hnone
      cases hnone
    obtain ⟨next, w₂, hstart, hnext, hjob₂, hrented, htouches, hchildSettled⟩ := hrest
    have hmem := List.mem_of_getElem? hchild
    obtain ⟨hlt, hget⟩ := List.getElem?_eq_some_iff.mp hchild
    rw [List.drop_eq_getElem_cons hlt, hget]
    dsimp only at hstart
    by_cases hlast : m + 1 = (t.children id).length
    · -- The last item has the value of the sequence, and nothing follows it.
      rw [if_pos hlast] at hstart
      rw [List.drop_eq_nil_of_le hlast.ge]
      obtain ⟨p, u', w₃, hstep, -, hrest⟩ := hjob₂.cases
      obtain ⟨rfl, rfl, ⟨other, hother, -⟩ | ⟨-, rfl⟩⟩ := stepSequence_cases hstep
      · rw [List.getElem?_eq_none hlast.ge] at hother
        cases hother
      obtain rfl : w₂ = w' := hrest
      refine hih child hmem target next w w₂ hstart hnext ⟨fun hsome => ?_, haim.free⟩
        (hchildSettled _ (Nat.le_refl _) hsettled) σ τ hmatch
      refine .last hconstruct (haim.used hsome) ?_
      rw [List.getLast?_eq_getElem?, ← hlast, Nat.add_sub_cancel]
      exact hchild
    · rw [if_neg hlast] at hstart
      have hdoes := hih child hmem none next w w₂ hstart hnext ⟨by simp, by simp⟩
        (hchildSettled _ (Nat.le_refl _) hsettled) σ τ hmatch
      have hnonempty : ∃ second rest, (t.children id).drop (m + 1) = second :: rest :=
        ⟨_, _, List.drop_eq_getElem_cons (by omega)⟩
      obtain ⟨second, rest, hdrop⟩ := hnonempty
      rw [hdrop, lastOf_cons_cons, ← hdrop]
      refine hdoes.bind fun r τ₁ _ hleaves => ?_
      have hdoes' := ih (m := m + 1) hjob₂
        (hsettled.earlier (.refl [] w') htouches.grows (by simp)) (by omega)
        (hleaves.matches (by simp)) (by omega)
      refine hdoes'.mono fun r' τ' hleaves' => hleaves'.rebase (fun x hx _ => ?_) fun x hx _ => ?_
      · rw [hrented]
        exact hx
      · exact hleaves.kept x hx (by simp)

theorem translates_sequence (hjob : Job cfg t before final ⟨id, target, 0, [], .sequence⟩ w w')
    (hconstruct : before.construct? id = some .sequence) (haim : Aim t before id target)
    (hsettled : Settled final w.assembly.instructions.length w')
    (hih : ∀ child ∈ t.children id, Correct host n cfg t before final levels child) :
    Translates host n cfg t before final (levels + 1) id target w w' := by
  intro σ τ hmatch
  simp only [eval_sequence hconstruct]
  have hleaf : (t.node id).isLeaf = false :=
    hjob.under.steady.backed id .sequence ((hjob.construct?_eq id).trans hconstruct)
  have hpos : 0 < (t.children id).length := by
    cases hchildren : t.children id with
    | nil =>
      rw [Node.isLeaf, ← Tree.children, hchildren] at hleaf
      cases hleaf
    | cons first rest => exact Nat.succ_pos _
  exact does_lastOf hjob hconstruct haim hsettled hih hpos hmatch

/-! ## Calls

The values of arguments are held in temporaries until all of them are there. While later
arguments are evaluated, these temporaries are in use and so keep their values. The induction
goes over the arguments that are left (`does_call`). -/

namespace Operation

variable {op : Operation}

theorem returns_of_returnType? {type : TypeId} (h : op.returnType? = some type) :
    op.returns = true := by
  by_contra hreturns
  simp [returnType?, arity, hreturns] at h

theorem not_returns_of_returnType? (h : op.returnType? = none) : op.returns = false := by
  by_contra hreturns
  have hreturns : op.returns = true := by simpa using hreturns
  have hpos : 0 < op.parameters.length := by
    rcases List.eq_nil_or_concat op.parameters with hnil | ⟨init, last, hconcat⟩
    · simp [returns, hnil] at hreturns
    · simp [hconcat]
  rw [returnType?, Option.map_eq_none_iff, List.getElem?_eq_none_iff, arity, if_pos hreturns] at h
  omega

/-- What a call of a plain operation supplies is for inputs. -/
theorem Plain.direction (h : op.Plain) {m : Nat} (hm : m < op.arity) :
    op.parameters[m]?.elim .input (·.direction) = .input := by
  rcases List.eq_nil_or_concat op.parameters with hnil | ⟨init, last, hconcat⟩
  · rw [hnil]
    rfl
  rw [List.concat_eq_append] at hconcat
  obtain ⟨hinputs, hlast⟩ := h
  rw [hconcat] at hinputs hlast
  rw [List.dropLast_concat] at hinputs
  rcases Nat.lt_or_ge m init.length with hlt | hge
  · rw [hconcat, List.getElem?_append_left hlt, List.getElem?_eq_getElem hlt]
    exact hinputs _ (List.getElem_mem hlt)
  · -- Only an operation without a result supplies its last parameter.
    have hreturns : op.returns = false := by
      by_contra hreturns
      rw [arity, if_pos (by simpa using hreturns), hconcat, List.length_append,
        List.length_singleton] at hm
      omega
    have hm' : m = init.length := by
      simp [arity, hreturns, hconcat] at hm
      omega
    have hdirection : last.direction ≠ .output := by
      simpa [returns, hconcat] using hreturns
    have hboth := hlast last (by simp)
    rw [hconcat, hm', List.getElem?_concat_length, Option.elim_some]
    cases hd : last.direction with
    | input => rfl
    | output => exact absurd hd hdirection
    | both => exact absurd hd hboth

end Operation

section Calls

variable {op : OperationId} {m : Nat} {names temps : List String}

theorem Job.operationNamed? {arguments : List Operand}
    (hjob : Job cfg t before final ⟨id, target, m, temps, .call op arguments⟩ w w') :
    cfg.catalog.operationNamed? (cfg.catalog.operation op).fullName =
      some (cfg.catalog.operation op) :=
  (hjob.under.steady.fits _ List.mem_cons_self).task.1

/-- The last step of a call: the arguments are pushed, and a slot for the result if there is one,
which is the target or a new temporary. -/
theorem Job.lastCall
    (hjob : Job cfg t before final ⟨id, target, m, temps, .call op (names.map .var)⟩ w w')
    (hend : (t.children id)[m]? = none) :
    ∃ results, w'.assembly.instructions = w.assembly.instructions ++
        ((names ++ results).map .push ++ [.call (cfg.catalog.operation op).fullName]) ∧
      (cfg.catalog.operation op).parameters.length = (names ++ results).length ∧
      ((cfg.catalog.operation op).returns = false ∧ results = [] ∨
        ∃ x, (cfg.catalog.operation op).returns = true ∧ results = [x] ∧
          (target = some x ∨
            target = none ∧ tempLead.toList <+: x.toList ∧ w.rented.get? x = none)) := by
  obtain ⟨p, u', w₁, hstep, -, hrest⟩ := hjob.cases
  change Yields (stepCall cfg t m ⟨id, target, m + 1, temps, .call op (names.map .var)⟩ op
    (names.map .var)) w (p, u') w₁ at hstep
  obtain ⟨argument, hargument, -⟩ |
    ⟨-, rfl, operands, u₁, w₂, last, w₃, hcompletes, hcall, hrelease⟩ := stepCall_cases hstep
  · rw [hend] at hargument
    cases hargument
  obtain rfl : w₁ = w' := hrest
  -- The slot for the result is pushed behind the arguments, and nothing is emitted to get it.
  obtain ⟨results, hoperands, hw₂, hcode₂, hresults⟩ : ∃ results,
      operands = (names ++ results).map .var ∧ Coherent cfg.catalog w₂ ∧
      w₂.assembly.instructions = w.assembly.instructions ∧
      ((cfg.catalog.operation op).returns = false ∧ results = [] ∨
        ∃ x, (cfg.catalog.operation op).returns = true ∧ results = [x] ∧
          (target = some x ∨
            target = none ∧ tempLead.toList <+: x.toList ∧ w.rented.get? x = none)) := by
    rcases hcompletes with ⟨htype, rfl, -, rfl⟩ | ⟨type, x, htype, htarget, rfl, -, rfl⟩ |
      ⟨type, x, htype, htarget, rfl, hrent, -⟩
    · exact ⟨[], by simp, hjob.coherent, rfl,
        Or.inl ⟨Operation.not_returns_of_returnType? htype, rfl⟩⟩
    · exact ⟨[x], by simp, hjob.coherent, rfl,
        Or.inr ⟨x, Operation.returns_of_returnType? htype, rfl, Or.inl htarget⟩⟩
    · obtain ⟨hlead, hcode, hnone, -⟩ := hjob.coherent.rented_fresh hrent
      exact ⟨[x], by simp, (hjob.coherent.rent hrent).1.coherent, hcode,
        Or.inr ⟨x, Operation.returns_of_returnType? htype, rfl, Or.inr ⟨htarget, hlead, hnone⟩⟩⟩
  subst hoperands
  obtain ⟨found, hfound, hlength, happends⟩ := Appends.callVars hjob.scene.check hw₂.sound hcall
  obtain rfl := Option.some.inj (hjob.operationNamed?.symm.trans hfound)
  refine ⟨results, ?_, hlength, hresults⟩
  rw [release_assembly (happends.pooled hw₂.pooled) hrelease, happends.code_eq, hcode₂]

/-- A call that compiles has as many arguments as its operation takes. -/
theorem Job.arity_eq
    (hjob : Job cfg t before final ⟨id, target, m, temps, .call op (names.map .var)⟩ w w')
    (hnames : names.length = m) (hm : m ≤ (t.children id).length) :
    (cfg.catalog.operation op).arity = (t.children id).length := by
  generalize hleft : (t.children id).length - m = left
  induction left generalizing m names temps w with
  | zero =>
    obtain ⟨results, -, hlength, ⟨hreturns, rfl⟩ | ⟨x, hreturns, rfl, -⟩⟩ :=
      hjob.lastCall (List.getElem?_eq_none (by omega))
    · rw [Operation.arity, if_neg (by simp [hreturns]), hlength, List.append_nil]
      omega
    · rw [Operation.arity, if_pos hreturns, hlength, List.length_append, List.length_singleton]
      omega
  | succ left ih =>
    obtain ⟨p, u', w₁, hstep, -, hrest⟩ := hjob.cases
    change Yields (stepCall cfg t m ⟨id, target, m + 1, temps, .call op (names.map .var)⟩ op
      (names.map .var)) w (p, u') w₁ at hstep
    rcases stepCall_cases hstep with ⟨argument, -, ⟨name, -, rfl, rfl, rfl⟩ |
      ⟨-, type, name, -, rfl, rfl⟩⟩ | ⟨hnone, -⟩
    · have hnext : Job cfg t before final ⟨id, target, m + 1, temps,
          .call op ((names ++ [name]).map .var)⟩ w w' := by
        rw [List.map_append]
        exact hrest
      exact ih hnext (by simp [hnames]) (by omega) (by omega)
    · obtain ⟨next, w₂, -, -, hjob₂, -⟩ := hrest
      have hnext : Job cfg t before final ⟨id, target, m + 1, temps ++ [name],
          .call op ((names ++ [name]).map .var)⟩ w₂ w' := by
        rw [List.map_append]
        exact hjob₂
      exact ih hnext (by simp [hnames]) (by omega) (by omega)
    · have : (t.children id).length ≤ m := List.getElem?_eq_none_iff.mp hnone
      omega

theorem Matches.update_temp {start σ τ : Store V} {x : String} {v : V} (h : Matches start σ τ)
    (hx : tempLead.toList <+: x.toList) : Matches start σ (Function.update τ x v) := by
  refine ⟨fun y hy => ?_, fun y hy => ?_⟩
  · have hne : y ≠ x := fun heq => hy (Or.inl (heq ▸ hx))
    rw [Function.update_of_ne hne]
    exact h.vars y hy
  · have hne : y ≠ x := fun heq => not_reserved_of_temp_const hx (heq ▸ hy)
    rw [Function.update_of_ne hne]
    exact h.constants y hy

/-- A call whose arguments are all there. -/
theorem does_lastCall
    (hjob : Job cfg t before final ⟨id, target, m, temps, .call op (names.map .var)⟩ w w')
    (hconstruct : before.construct? id = some (.call op)) (haim : Aim t before id target)
    (hsettled : Settled final w.assembly.instructions.length w')
    (hend : (t.children id)[m]? = none) {σ τ : Store V}
    (hmatch : Matches (host.initial final.heap) σ τ) :
    Does host cfg.catalog final.instructions n w.assembly.instructions.length
      w'.assembly.instructions.length τ
      (some (σ, host.apply (cfg.catalog.operation op).fullName (names.map τ)))
      (Leaves (host.initial final.heap) target (fun x => w.rented.get? x ≠ none) τ) := by
  obtain ⟨results, hcode, hlength, hresults⟩ := hjob.lastCall hend
  have hplain : (cfg.catalog.operation op).Plain := hjob.scene.eventFree.plain id _ hconstruct
  have hrun : Runs host cfg.catalog final.instructions _ ⟨w.assembly.instructions.length, [], τ⟩ _ :=
    .call (hsettled.codeAt hcode (Nat.le_refl _)) hjob.operationNamed? hlength
  have hhi : w'.assembly.instructions.length =
      w.assembly.instructions.length + ((names ++ results).length + 1) := by
    rw [hcode, List.length_append, List.length_append, List.length_map, List.length_singleton]
  rw [hhi]
  rcases hresults with ⟨hreturns, rfl⟩ | ⟨x, hreturns, rfl, hx⟩
  · rw [Operation.effect_of_not_returns hreturns] at hrun
    cases target with
    | none => exact .done hrun (hmatch.leaves fun _ _ => rfl)
    | some x =>
      -- A value that is used is there.
      have := hjob.scene.eventFree.calls id op (haim.used rfl) hconstruct
      rw [hreturns] at this
      cases this
  · rw [Operation.effect_of_returns hreturns hplain hlength] at hrun
    rcases hx with rfl | ⟨rfl, hlead, hnone⟩
    · exact .done hrun (hmatch.leaves_update (haim.free x rfl) fun _ _ _ => rfl)
    · refine .done hrun ((hmatch.update_temp hlead).leaves fun y hy => ?_)
      have hne : y ≠ x := fun heq => hy (heq ▸ hnone)
      exact Function.update_of_ne hne ..

/-- A call from one of its arguments on: the values of those before are held in temporaries. -/
theorem does_call
    (hjob : Job cfg t before final ⟨id, target, m, temps, .call op (names.map .var)⟩ w w')
    (hconstruct : before.construct? id = some (.call op)) (haim : Aim t before id target)
    (hsettled : Settled final w.assembly.instructions.length w')
    (hih : ∀ child ∈ t.children id, Correct host n cfg t before final levels child)
    (hnames : names.length = m) (hm : m ≤ (t.children id).length)
    (harity : (cfg.catalog.operation op).arity = (t.children id).length)
    (hheld : ∀ x ∈ names, w.rented.get? x ≠ none) {live : String → Prop}
    (hlive : ∀ x, live x → w.rented.get? x ≠ none) {σ τ : Store V}
    (hmatch : Matches (host.initial final.heap) σ τ) :
    Does host cfg.catalog final.instructions n w.assembly.instructions.length
      w'.assembly.instructions.length τ
      ((values (eval host cfg.catalog t before n levels) ((t.children id).drop m) σ).map fun r =>
        (r.1, host.apply (cfg.catalog.operation op).fullName (names.map τ ++ r.2)))
      (Leaves (host.initial final.heap) target live τ) := by
  generalize hleft : (t.children id).length - m = left
  induction left generalizing m names temps w σ τ with
  | zero =>
    have hdoes : Does host _ _ n _ _ τ _ _ := does_lastCall hjob hconstruct haim hsettled
      (List.getElem?_eq_none (by omega)) hmatch
    rw [List.drop_eq_nil_of_le (by omega), values, Option.map_some, List.append_nil]
    exact hdoes.mono fun r τ' hleaves => hleaves.rebase (fun x hx _ => hlive x hx) fun _ _ _ => rfl
  | succ left ih =>
    have hlt : m < (t.children id).length := by omega
    obtain ⟨p, u', w₁, hstep, -, hrest⟩ := hjob.cases
    change Yields (stepCall cfg t m ⟨id, target, m + 1, temps, .call op (names.map .var)⟩ op
      (names.map .var)) w (p, u') w₁ at hstep
    have hplain : (cfg.catalog.operation op).Plain := hjob.scene.eventFree.plain id _ hconstruct
    rcases stepCall_cases hstep with ⟨argument, hargument, ⟨name, ⟨hdirection, -⟩, -⟩ |
      ⟨-, type, name, hrent, rfl, rfl⟩⟩ | ⟨hnone, -⟩
    · -- No argument is handed to an output.
      exact absurd (hplain.direction (harity ▸ hlt)) hdirection
    · obtain ⟨next, w₂, hstart, hnext, hjob₂, hrented, htouches, hchildSettled⟩ := hrest
      obtain ⟨hlead, hcode₁, hfresh, hheld₁, hstill⟩ := hjob.coherent.rented_fresh hrent
      have hjob₂' : Job cfg t before final ⟨id, target, m + 1, temps ++ [name],
          .call op ((names ++ [name]).map .var)⟩ w₂ w' := by
        rw [List.map_append]
        exact hjob₂
      have hchild := hih argument (List.mem_of_getElem? hargument) (some name) next w₁ w₂ hstart
        hnext (.temp (.argument hconstruct (List.mem_of_getElem? hargument)) hlead)
        (hchildSettled _ (by rw [hcode₁]) hsettled) σ τ hmatch
      rw [hcode₁] at hchild
      obtain ⟨_, hget⟩ := List.getElem?_eq_some_iff.mp hargument
      rw [List.drop_eq_getElem_cons hlt, hget, values, Option.map_bind]
      refine hchild.bind fun r τ₁ _ hleaves => ?_
      -- The temporaries of the arguments before are in use while this one is evaluated.
      have hvalues : (names ++ [name]).map τ₁ = names.map τ ++ [r.2] := by
        rw [List.map_append, List.map_singleton, hleaves.value name rfl]
        congr 1
        refine List.map_congr_left fun x hx => ?_
        obtain ⟨hx', hne⟩ := hstill x (hheld x hx)
        exact hleaves.kept x hx' fun heq => hne (Option.some.inj heq).symm
      have hrest := ih hjob₂' (hsettled.earlier (.refl [] w') (by
          rw [← hcode₁]
          exact htouches.grows) (by simp)) (by simp [hnames]) hlt (fun x hx => ?_)
        (fun x hx => by
          rw [hrented]
          exact (hstill x (hlive x hx)).1)
        (hleaves.matches fun x hx => Or.inl (Option.some.inj hx ▸ hlead)) (by omega)
      · rw [hvalues] at hrest
        obtain ⟨σ', v⟩ := r
        simp only [Function.comp_apply, Option.map_map]
        simp only [List.append_assoc, List.singleton_append] at hrest
        refine hrest.mono fun r' τ' hleaves' => hleaves'.rebase (fun x hx _ => hx) fun x hx _ => ?_
        obtain ⟨hx', hne⟩ := hstill x (hlive x hx)
        exact hleaves.kept x hx' fun heq => hne (Option.some.inj heq).symm
      · rw [hrented]
        rcases List.mem_append.mp hx with hx | hx
        · exact (hstill x (hheld x hx)).1
        · rw [List.mem_singleton.mp hx]
          exact hheld₁
    · have : (t.children id).length ≤ m := List.getElem?_eq_none_iff.mp hnone
      omega

theorem translates_call (hjob : Job cfg t before final ⟨id, target, 0, [], .call op []⟩ w w')
    (hconstruct : before.construct? id = some (.call op)) (haim : Aim t before id target)
    (hsettled : Settled final w.assembly.instructions.length w')
    (hih : ∀ child ∈ t.children id, Correct host n cfg t before final levels child) :
    Translates host n cfg t before final (levels + 1) id target w w' := by
  intro σ τ hmatch
  simp only [eval_call hconstruct]
  have hnone : Job cfg t before final
      ⟨id, target, 0, [], .call op (([] : List String).map .var)⟩ w w' := hjob
  exact does_call hnone hconstruct haim hsettled hih rfl (Nat.zero_le _)
    (Job.arity_eq hnone rfl (Nat.zero_le _)) (by simp) (fun _ hx => hx) hmatch

end Calls

end SexprAsm
