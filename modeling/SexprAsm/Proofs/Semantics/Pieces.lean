import SexprAsm.Proofs.Semantics.Evaluation

/-!
# Running pieces of code

What the groups of instructions that a compilation emits do to the store (`Runs`), and what it means
that a piece of code does the same as an evaluation (`Does`): if the evaluation ends, the piece runs
to its end; if it does not end within `n` rounds of a loop, the piece takes at least `n` steps.
-/

namespace SexprAsm

open Machine

/-- The code has some instructions from a place on. -/
def CodeAt (code : List Instruction) (n : Nat) (piece : List Instruction) : Prop :=
  ∀ k i, piece[k]? = some i → code[n + k]? = some i

namespace CodeAt

variable {code piece piece' : List Instruction} {n : Nat} {i : Instruction}

theorem head (h : CodeAt code n (i :: piece)) : code[n]? = some i := h 0 i rfl

theorem tail (h : CodeAt code n (i :: piece)) : CodeAt code (n + 1) piece := by
  intro k j hj
  rw [Nat.add_assoc, Nat.add_comm 1 k]
  exact h (k + 1) j hj

theorem left (h : CodeAt code n (piece ++ piece')) : CodeAt code n piece := by
  intro k j hj
  exact h k j (by rw [List.getElem?_append_left (List.getElem?_eq_some_iff.mp hj).1, hj])

theorem right (h : CodeAt code n (piece ++ piece')) : CodeAt code (n + piece.length) piece' := by
  intro k j hj
  rw [Nat.add_assoc]
  exact h (piece.length + k) j (by rw [List.getElem?_append_right (by omega)]; simpa using hj)

end CodeAt

section Runs

variable {V : Type} (host : Host V) (c : Catalog) (code : List Instruction)

/-- The machine gets from a state to another one in a number of steps. -/
def Runs (k : Nat) (s s' : Machine V) : Prop := runFor (stepAt host c code) k s = some s'

variable {host c code} {n k k' : Nat} {s s' s'' : Machine V} {σ : Store V} {stack : List String}

theorem Runs.refl (s : Machine V) : Runs host c code 0 s s := rfl

theorem Runs.trans (h : Runs host c code k s s') (h' : Runs host c code k' s' s'') :
    Runs host c code (k + k') s s'' := by
  rw [Runs, runFor_add, h]
  exact h'

theorem Runs.one (h : stepAt host c code s = some s') : Runs host c code 1 s s' := by
  rw [Runs, runFor, h]
  rfl

theorem Runs.push {name : String} (h : code[n]? = some (.push name)) :
    Runs host c code 1 ⟨n, stack, σ⟩ ⟨n + 1, name :: stack, σ⟩ :=
  .one (by simp [stepAt, h, Instruction.exec])

theorem Runs.pushAll {names : List String} (h : CodeAt code n (names.map .push)) :
    Runs host c code names.length ⟨n, stack, σ⟩
      ⟨n + names.length, names.reverse ++ stack, σ⟩ := by
  induction names generalizing n stack with
  | nil => exact .refl _
  | cons name names ih =>
    have hnext : Runs host c code names.length ⟨n + 1, name :: stack, σ⟩
        ⟨n + 1 + names.length, names.reverse ++ name :: stack, σ⟩ := ih h.tail
    have hrest := (Runs.push h.head).trans hnext
    rw [List.length_cons, List.reverse_cons, List.append_assoc, Nat.add_comm names.length 1,
      ← Nat.add_assoc]
    exact hrest

theorem Runs.nop (h : CodeAt code n [.nop]) : Runs host c code 1 ⟨n, [], σ⟩ ⟨n + 1, [], σ⟩ :=
  .one (by simp [stepAt, h.head, Instruction.exec])

theorem Runs.copy {source target : String} (h : CodeAt code n [.push source, .push target, .copy]) :
    Runs host c code 3 ⟨n, [], σ⟩ ⟨n + 3, [], Function.update σ target (σ source)⟩ := by
  have hcopy : stepAt host c code ⟨n + 2, [target, source], σ⟩ =
      some ⟨n + 3, [], Function.update σ target (σ source)⟩ := by
    simp [stepAt, h.tail.tail.head, Instruction.exec]
  exact (Runs.push h.head).trans ((Runs.push h.tail.head).trans (.one hcopy))

theorem Runs.jump {target : JumpTarget} {place : Nat} (h : code[n]? = some (.jump target))
    (hplace : target.place? = some place) :
    Runs host c code 1 ⟨n, [], σ⟩ ⟨place, [], σ⟩ :=
  .one (by simp [stepAt, h, Instruction.exec, hplace])

theorem Runs.branch {condition : String} {target : JumpTarget} {place : Nat}
    (hpush : code[n]? = some (.push condition)) (hjump : code[n + 1]? = some (.jumpIfFalse target))
    (hplace : target.place? = some place) :
    Runs host c code 2 ⟨n, [], σ⟩
      ⟨if host.isFalse (σ condition) then place else n + 2, [], σ⟩ := by
  have hbranch : stepAt host c code ⟨n + 1, [condition], σ⟩ =
      some ⟨if host.isFalse (σ condition) then place else n + 2, [], σ⟩ := by
    cases hfalse : host.isFalse (σ condition) <;>
      simp [stepAt, hjump, Instruction.exec, hplace, hfalse]
  exact (Runs.push hpush).trans (.one hbranch)

theorem Runs.call {name : String} {arguments : List String} {op : Operation}
    (h : CodeAt code n (arguments.map .push ++ [.call name]))
    (hop : c.operationNamed? name = some op)
    (hlength : op.parameters.length = arguments.length) :
    Runs host c code (arguments.length + 1) ⟨n, [], σ⟩
      ⟨n + (arguments.length + 1), [], op.effect host arguments σ⟩ := by
  refine (Runs.pushAll h.left).trans (.one ?_)
  have hcall := h.right.head
  rw [List.length_map] at hcall
  have hdrop : List.drop arguments.length arguments.reverse = [] :=
    List.drop_eq_nil_of_le (by rw [List.length_reverse])
  have htake : List.take arguments.length arguments.reverse = arguments.reverse :=
    List.take_of_length_le (by rw [List.length_reverse])
  simp [stepAt, hcall, Instruction.exec, hop, hlength, hdrop, htake, Nat.add_assoc]

end Runs

/-! ## Calls of plain operations

A plain operation has inputs and at most a result behind them. So its effect is that of applying
the host to the values of the arguments, and of storing what comes out in the last slot. -/

section Effect

variable {V : Type} {host : Host V} {op : Operation} {σ : Store V}

theorem Operation.effect_of_not_returns (h : op.returns = false) (arguments : List String) :
    op.effect host arguments σ = σ := by
  simp [effect, h]

theorem Operation.effect_of_returns (h : op.returns = true) (hplain : op.Plain)
    {arguments : List String} {result : String}
    (hlength : op.parameters.length = (arguments ++ [result]).length) :
    op.effect host (arguments ++ [result]) σ =
      Function.update σ result (host.apply op.fullName (arguments.map σ)) := by
  rcases List.eq_nil_or_concat op.parameters with hnil | ⟨inputs, last, hconcat⟩
  · simp [hnil] at hlength
  rw [List.concat_eq_append] at hconcat
  have hlast : last.direction = .output := by
    simpa [Operation.returns, hconcat] using h
  have hinputs : ∀ pair ∈ arguments.zip inputs, pair.2.direction == .input := by
    intro pair hpair
    have hmem := (List.of_mem_zip (show (pair.1, pair.2) ∈ _ from hpair)).2
    rw [hplain.1 pair.2 (by rw [hconcat]; simpa using hmem)]
    rfl
  have hsame : arguments.length = inputs.length := by
    simpa [hconcat] using hlength.symm
  have hzip : ((arguments ++ [result]).zip op.parameters).filter
      (fun pair => pair.2.direction == .input) = arguments.zip inputs := by
    rw [hconcat, List.zip_append hsame, List.filter_append, List.filter_eq_self.mpr hinputs]
    simp [hlast]
  have hmap : (arguments.zip inputs).map (fun pair => σ pair.1) = arguments.map σ := by
    rw [show (fun pair : String × Parameter => σ pair.1) = σ ∘ Prod.fst from rfl, ← List.map_map,
      List.map_fst_zip hsame.le]
  simp only [effect, h, hzip, hmap, List.getLast?_append, List.getLast?_singleton,
    Option.some_or]

end Effect

/-! ## Pieces that do what an evaluation does

`Does` relates a stretch of code to an evaluation that may lack rounds. Without a result it only
counts steps, so that a program that never ends and an evaluation that has no value agree. The
lemmas compose such stretches, in the order in which the code of a node is laid out: what runs
before, one after the other, and what may follow. -/

section Does

variable {V : Type} (host : Host V) (c : Catalog) (code : List Instruction) (n : Nat)

/-- A piece of code does what an evaluation says: it runs to its end, in a store that goes with the
result, or takes at least `n` steps if there is no result. -/
def Does {α : Type} (lo hi : Nat) (σ : Store V) (r : Option α) (Q : α → Store V → Prop) : Prop :=
  match r with
  | some a => ∃ k σ', Runs host c code k ⟨lo, [], σ⟩ ⟨hi, [], σ'⟩ ∧ Q a σ'
  | none => ∃ k s, n ≤ k ∧ Runs host c code k ⟨lo, [], σ⟩ s

variable {host c code n} {α β : Type} {lo mid hi k : Nat} {σ σ' : Store V} {r : Option α}
  {Q Q' : α → Store V → Prop} {R : β → Store V → Prop}

theorem Does.before (hrun : Runs host c code k ⟨lo, [], σ⟩ ⟨mid, [], σ'⟩)
    (h : Does host c code n mid hi σ' r Q) : Does host c code n lo hi σ r Q := by
  cases r with
  | some a =>
    obtain ⟨k', σ'', hrun', hQ⟩ := h
    exact ⟨k + k', σ'', hrun.trans hrun', hQ⟩
  | none =>
    obtain ⟨k', s, hle, hrun'⟩ := h
    exact ⟨k + k', s, by omega, hrun.trans hrun'⟩

theorem Does.bind {f : α → Option β} (h : Does host c code n lo mid σ r Q)
    (hnext : ∀ a σ', r = some a → Q a σ' → Does host c code n mid hi σ' (f a) R) :
    Does host c code n lo hi σ (r.bind f) R := by
  cases r with
  | some a =>
    obtain ⟨k, σ', hrun, hQ⟩ := h
    exact .before hrun (hnext a σ' rfl hQ)
  | none => exact h

theorem Does.done {a : α} (hrun : Runs host c code k ⟨lo, [], σ⟩ ⟨hi, [], σ'⟩) (hQ : Q a σ') :
    Does host c code n lo hi σ (some a) Q :=
  ⟨k, σ', hrun, hQ⟩

theorem Does.map {f : α → β} (h : Does host c code n lo hi σ r Q)
    (hmap : ∀ a σ', Q a σ' → R (f a) σ') : Does host c code n lo hi σ (r.map f) R := by
  cases r with
  | some a =>
    obtain ⟨k, σ', hrun, hQ⟩ := h
    exact ⟨k, σ', hrun, hmap a σ' hQ⟩
  | none => exact h

/-- Code that leaves the store alone may follow. -/
theorem Does.after (h : Does host c code n lo mid σ r Q)
    (hrun : ∀ τ, ∃ k, Runs host c code k ⟨mid, [], τ⟩ ⟨hi, [], τ⟩) :
    Does host c code n lo hi σ r Q := by
  cases r with
  | some a =>
    obtain ⟨k, σ', hrun', hQ⟩ := h
    obtain ⟨k', hrun⟩ := hrun σ'
    exact ⟨k + k', σ', hrun'.trans hrun, hQ⟩
  | none => exact h

theorem Does.weaken {m : Nat} (h : Does host c code n lo hi σ r Q) (hm : m ≤ n) :
    Does host c code m lo hi σ r Q := by
  cases r with
  | some a => exact h
  | none =>
    obtain ⟨k, s, hle, hrun⟩ := h
    exact ⟨k, s, hm.trans hle, hrun⟩

/-- Steps before count. -/
theorem Does.before_succ (hrun : Runs host c code (k + 1) ⟨lo, [], σ⟩ ⟨mid, [], σ'⟩)
    (h : Does host c code n mid hi σ' r Q) : Does host c code (n + 1) lo hi σ r Q := by
  cases r with
  | some a => exact Does.before (n := n + 1) (r := some a) hrun h
  | none =>
    obtain ⟨k', s, hle, hrun'⟩ := h
    exact ⟨k + 1 + k', s, by omega, hrun.trans hrun'⟩

theorem Does.mono (h : Does host c code n lo hi σ r Q) (hQ : ∀ a σ', Q a σ' → Q' a σ') :
    Does host c code n lo hi σ r Q' := by
  have := h.map (f := id) (R := Q') hQ
  rwa [Option.map_id] at this

end Does

end SexprAsm
