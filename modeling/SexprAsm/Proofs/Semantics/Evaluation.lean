import SexprAsm.Generation
import SexprAsm.Proofs.Semantics.Machine
import SexprAsm.Proofs.Workspace

/-!
# What a tree means

Evaluation of the constructs that are not about events, arrays or inline assembly: nodes are
evaluated in order, over a store of variables, to a store and a value. Every loop may go round a
bounded number of times; a node terminates if some bound is enough.

`EventFree` says which trees have a meaning here, and `Used` which nodes have values that matter.
-/

namespace SexprAsm

namespace Evaluation

variable {V : Type}

/-- The values of nodes that are evaluated one after the other. -/
def values (ev : NodeId → Store V → Option (Store V × V)) :
    List NodeId → Store V → Option (Store V × List V)
  | [], σ => some (σ, [])
  | id :: ids, σ =>
    (ev id σ).bind fun (σ, v) => (values ev ids σ).map fun (σ, vs) => (σ, v :: vs)

variable (host : Host V)

/-- Nodes that are evaluated one after the other for the value of the last one. -/
def lastOf (ev : NodeId → Store V → Option (Store V × V)) :
    List NodeId → Store V → Option (Store V × V)
  | [], σ => some (σ, host.ofValue .null)
  | [id], σ => ev id σ
  | id :: ids, σ => (ev id σ).bind fun (σ, _) => lastOf ev ids σ

/-- The first branch whose condition holds; a last one may have no condition. -/
def choose (ev : NodeId → Store V → Option (Store V × V)) :
    List NodeId → Store V → Option (Store V × V)
  | [], σ => some (σ, host.ofValue .null)
  | [id], σ => ev id σ
  | test :: branch :: rest, σ =>
    (ev test σ).bind fun (σ, v) => if host.isFalse v then choose ev rest σ else ev branch σ

/-- At most `n` tests of a condition, with the body after each that holds. -/
def iterate (test body : Store V → Option (Store V × V)) : Nat → Store V → Option (Store V × V)
  | 0, _ => none
  | n + 1, σ =>
    (test σ).bind fun (σ, v) =>
      if host.isFalse v then some (σ, host.ofValue .null)
      else (body σ).bind fun (σ, _) => iterate test body n σ

theorem lastOf_cons_cons (ev : NodeId → Store V → Option (Store V × V)) (id next : NodeId)
    (ids : List NodeId) (σ : Store V) :
    lastOf host ev (id :: next :: ids) σ =
      (ev id σ).bind fun r => lastOf host ev (next :: ids) r.1 :=
  rfl

theorem choose_cons_cons (ev : NodeId → Store V → Option (Store V × V)) (test branch : NodeId)
    (rest : List NodeId) (σ : Store V) :
    choose host ev (test :: branch :: rest) σ =
      (ev test σ).bind fun r => if host.isFalse r.2 then choose host ev rest r.1 else ev branch r.1 :=
  rfl

theorem iterate_succ (test body : Store V → Option (Store V × V)) (n : Nat) (σ : Store V) :
    iterate host test body (n + 1) σ =
      (test σ).bind fun r =>
        if host.isFalse r.2 then some (r.1, host.ofValue .null)
        else (body r.1).bind fun r' => iterate host test body n r'.1 :=
  rfl

/-- The name that the first child of a node is. -/
def name? (t : Tree) (id : NodeId) : Option String :=
  (t.children id)[0]?.bind fun child => (t.tag child).text?

/-- The store and the value that a node is evaluated to, at most `levels` levels down, where every
loop tests its condition at most `n` times. -/
def eval (c : Catalog) (t : Tree) (w : Workspace) (n : Nat) :
    Nat → NodeId → Store V → Option (Store V × V)
  | 0, _, _ => none
  | levels + 1, id, σ =>
    let ev := eval c t w n levels
    let children := t.children id
    match w.construct? id with
    | some .literal => some (σ, host.ofValue (t.tag id))
    | some .get | some .declare => some (σ, (name? t id).elim (host.ofValue .null) σ)
    | some .set =>
      (name? t id).bind fun name => children[1]?.bind fun value =>
        (ev value σ).map fun (σ, v) => (Function.update σ name v, v)
    | some .sequence => lastOf host ev children σ
    | some .conditional => choose host ev children σ
    | some .loop =>
      children[0]?.bind fun test => children[1]?.bind fun body =>
        iterate host (ev test) (ev body) n σ
    | some (.typeOf type) => some (σ, host.ofValue (.typeName (c.types.name type)))
    | some (.cast _) => children[0]?.bind fun inner => ev inner σ
    | some (.call op) =>
      (values ev children σ).map fun (σ, vs) => (σ, host.apply (c.operation op).fullName vs)
    | _ => none

/-! ### One equation for each construct -/

section Equations

variable {host} {c : Catalog} {t : Tree} {w : Workspace} {n levels : Nat} {id : NodeId} {σ : Store V}

-- Unfolded here only: the match on the construct is decided once, by the hypothesis of each equation.
attribute [local simp] eval

theorem eval_literal (h : w.construct? id = some .literal) :
    eval host c t w n (levels + 1) id σ = some (σ, host.ofValue (t.tag id)) := by
  simp [h]

theorem eval_get (h : w.construct? id = some .get) :
    eval host c t w n (levels + 1) id σ =
      some (σ, (name? t id).elim (host.ofValue .null) σ) := by
  simp [h]

theorem eval_declare (h : w.construct? id = some .declare) :
    eval host c t w n (levels + 1) id σ =
      some (σ, (name? t id).elim (host.ofValue .null) σ) := by
  simp [h]

theorem eval_set (h : w.construct? id = some .set) :
    eval host c t w n (levels + 1) id σ =
      (name? t id).bind fun name => (t.children id)[1]?.bind fun value =>
        (eval host c t w n levels value σ).map fun (σ, v) => (Function.update σ name v, v) := by
  simp [h]

theorem eval_sequence (h : w.construct? id = some .sequence) :
    eval host c t w n (levels + 1) id σ =
      lastOf host (eval host c t w n levels) (t.children id) σ := by
  simp [h]

theorem eval_conditional (h : w.construct? id = some .conditional) :
    eval host c t w n (levels + 1) id σ =
      choose host (eval host c t w n levels) (t.children id) σ := by
  simp [h]

theorem eval_loop (h : w.construct? id = some .loop) :
    eval host c t w n (levels + 1) id σ =
      (t.children id)[0]?.bind fun test => (t.children id)[1]?.bind fun body =>
        iterate host (eval host c t w n levels test) (eval host c t w n levels body) n σ := by
  simp [h]

theorem eval_typeOf {type : TypeId} (h : w.construct? id = some (.typeOf type)) :
    eval host c t w n (levels + 1) id σ =
      some (σ, host.ofValue (.typeName (c.types.name type))) := by
  simp [h]

theorem eval_cast {type : TypeId} (h : w.construct? id = some (.cast type)) :
    eval host c t w n (levels + 1) id σ =
      (t.children id)[0]?.bind fun inner => eval host c t w n levels inner σ := by
  simp [h]

theorem eval_call {op : OperationId} (h : w.construct? id = some (.call op)) :
    eval host c t w n (levels + 1) id σ =
      (values (eval host c t w n levels) (t.children id) σ).map fun (σ, vs) =>
        (σ, host.apply (c.operation op).fullName vs) := by
  simp [h]

end Equations

/-- A tree is evaluated to a store, if its loops may go round often enough. -/
def Evaluates (c : Catalog) (t : Tree) (w : Workspace) (σ σ' : Store V) : Prop :=
  ∃ n v, eval host c t w n t.size Tree.root σ = some (σ', v)

end Evaluation

/-! ## Trees with a meaning -/

/-- The value of a node is used: it is assigned, cast, handed to an operation or tested, or it is
the value of a node whose value is used. -/
inductive Used (t : Tree) (w : Workspace) : NodeId → Prop where
  | assigned {id child : NodeId} (h : w.construct? id = some .set)
      (hchild : (t.children id)[1]? = some child) : Used t w child
  | argument {id child : NodeId} {op : OperationId} (h : w.construct? id = some (.call op))
      (hchild : child ∈ t.children id) : Used t w child
  | casted {id child : NodeId} {type : TypeId} (h : w.construct? id = some (.cast type))
      (hchild : (t.children id)[0]? = some child) : Used t w child
  | tested {id child : NodeId} {n : Nat} (h : w.construct? id = some .conditional)
      (hchild : (t.children id)[n]? = some child) (heven : n % 2 = 0)
      (hbranch : n + 1 < (t.children id).length) : Used t w child
  | repeated {id child : NodeId} (h : w.construct? id = some .loop)
      (hchild : (t.children id)[0]? = some child) : Used t w child
  | last {id child : NodeId} (h : w.construct? id = some .sequence) (hused : Used t w id)
      (hchild : (t.children id).getLast? = some child) : Used t w child
  | branch {id child : NodeId} {n : Nat} (h : w.construct? id = some .conditional)
      (hused : Used t w id) (hchild : (t.children id)[n]? = some child)
      (hbranch : n % 2 = 1 ∨ n + 1 = (t.children id).length) : Used t w child
  | body {id child : NodeId} (h : w.construct? id = some .loop) (hused : Used t w id)
      (hchild : (t.children id)[1]? = some child) : Used t w child

/-- Every parameter is an input, but for an output at the end. -/
def Operation.Plain (op : Operation) : Prop :=
  (∀ p ∈ op.parameters.dropLast, p.direction = .input) ∧
    ∀ p ∈ op.parameters.getLast?, p.direction ≠ .both

/-- The construct is none of events, array fills and inline assembly. -/
def Construct.Plain (c : Catalog) : Construct → Prop
  | .event | .callEvent | .inlineAsm | .arrayFill _ => False
  | .call op => (c.operation op).Plain
  | _ => True

/-- A name that only the compiler gives: that of a temporary or of the slot of a literal. -/
def Reserved (name : String) : Prop :=
  Workspace.tempLead.toList <+: name.toList ∨ Heap.constantLead.toList <+: name.toList

/-- A tree without events, whose variables have names of their own, and all of whose values that
are used are there. -/
structure EventFree (c : Catalog) (t : Tree) (w : Workspace) : Prop where
  plain : ∀ id construct, w.construct? id = some construct → construct.Plain c
  names : ∀ id, w.construct? id = some .get ∨ w.construct? id = some .set ∨
    w.construct? id = some .declare →
      ∀ name, Evaluation.name? t id = some name → ¬ Reserved name
  predefined : ∀ name, Reserved name → c.predefined.get? name = none
  conditionals : ∀ id, Used t w id → w.construct? id = some .conditional →
    (t.children id).length % 2 = 1
  loops : ∀ id, Used t w id → w.construct? id ≠ some .loop
  calls : ∀ id op, Used t w id → w.construct? id = some (.call op) →
    (c.operation op).returns = true

end SexprAsm
