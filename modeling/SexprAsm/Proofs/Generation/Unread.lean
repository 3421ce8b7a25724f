import SexprAsm.Proofs.Generation.Run

/-!
# Values that no one asks for

A unit puts the value of its node in its target, if it has one. The root has none, and neither have
the items of a sequence but the last. The last item has the target of the sequence, the branches of
a conditional have that of the conditional, and the body of a loop that of the loop. So where one of
these has none, the nodes below it that it hands its target to have none either (`Tree.Unread`). All
other nodes get a target, as what is made of their value depends on it.

The run keeps to this (`Generation.target_of_descend`): a step gives no target to a child whose
value is dropped, and its own target to one whose value is handed on.
-/

namespace SexprAsm

open Generation

/-- A construct drops the value of a child, by its place among as many children. -/
def Construct.Drops : Construct → Nat → Nat → Prop
  | .sequence, count, n => n + 1 < count
  | _, _, _ => False

/-- The value of a construct is that of a child, by its place among as many children. -/
def Construct.HandsOn : Construct → Nat → Nat → Prop
  | .sequence, count, n => n + 1 = count
  | .conditional, count, n => n % 2 = 1 ∨ n + 1 = count
  | .loop, _, n => n = 1
  | _, _, _ => False

/-- A node whose value no one asks for: it is below no other node, its parent drops the value, or its
parent hands it on where no one asks for it. -/
inductive Tree.Unread (t : Tree) (w : Workspace) : NodeId → Prop where
  | top {id : NodeId} (hparent : t.parent? id = none) : t.Unread w id
  | dropped {p id : NodeId} {n : Nat} {construct : Construct}
      (hconstruct : w.construct? p = some construct) (hchild : (t.children p)[n]? = some id)
      (hdrops : construct.Drops (t.children p).length n) : t.Unread w id
  | handedOn {p id : NodeId} {n : Nat} {construct : Construct}
      (hconstruct : w.construct? p = some construct) (hchild : (t.children p)[n]? = some id)
      (hhands : construct.HandsOn (t.children p).length n) (hunread : t.Unread w p) : t.Unread w id

namespace Generation

variable {cfg : Setting} {t : Tree} {u u' : WorkUnit} {w w' : Workspace} {child : NodeId}
  {target : Option String} {construct : Construct} {n : Nat}

/-- What a child gets whose value is dropped or handed on. -/
theorem target_of_descend (ht : t.Linked) (htask : u.task.initial = .ofConstruct construct)
    (hchild : (t.children u.node)[n]? = some child)
    (h : Yields (step cfg t u) w (.descend child target, u') w') :
    (construct.Drops (t.children u.node).length n → target = none) ∧
      (construct.HandsOn (t.children u.node).length n → target = u.target) := by
  obtain ⟨node, own, m, temps, task⟩ := u
  -- A child stands at one place only, so the step is the one that goes there.
  have hplace : (t.children node)[m]? = some child → m = n := fun hm =>
    (List.getElem?_inj (List.getElem?_eq_some_iff.mp hm).1 (ht.nodup node)).mp (hm.trans hchild.symm)
  cases construct with
  | sequence =>
    cases task <;> cases htask
    obtain ⟨-, -, ⟨other, hother, hp⟩ | ⟨-, hp⟩⟩ := stepSequence_cases h
    · obtain ⟨rfl, rfl⟩ := Progress.descend.inj hp
      obtain rfl := hplace hother
      exact ⟨fun hdrops => if_neg (Nat.ne_of_lt hdrops), fun hhands => if_pos hhands⟩
    · cases hp
  | conditional =>
    refine ⟨False.elim, fun hhands => ?_⟩
    cases task <;> cases htask
    rcases stepConditional_cases h with ⟨-, hp, -⟩ |
      ⟨branch, hbranch, ⟨hodd, name, jump, w₁, u₁, -, -, hrelease, hp, -⟩ |
        ⟨heven, pending', exits', w₁, -, ⟨hlt, type, name, -, hp, -⟩ | ⟨-, -, hp, -⟩⟩⟩
    · cases hp
    · obtain ⟨rfl, rfl⟩ := Progress.descend.inj hp
      obtain ⟨rfl, -⟩ := release_cases hrelease
      rfl
    · -- A condition stands at an even place, with its branch behind it.
      obtain ⟨rfl, rfl⟩ := Progress.descend.inj hp
      obtain rfl := hplace hbranch
      rcases hhands with hodd | hlast
      · cases heven.symm.trans hodd
      · exact absurd hlast (Nat.ne_of_lt hlt)
    · exact (Progress.descend.inj hp).2
  | loop =>
    refine ⟨False.elim, fun hhands => ?_⟩
    cases task <;> cases htask
    rcases stepLoop_cases h with ⟨rfl, test, type, name, htest, -, hp, -⟩ |
      ⟨rfl, name, jump, body, w₁, u₁, -, -, hbody, hrelease, hp, -⟩ | ⟨-, hp, -⟩
    · obtain ⟨rfl, rfl⟩ := Progress.descend.inj hp
      cases (hplace htest).trans hhands
    · obtain ⟨rfl, rfl⟩ := Progress.descend.inj hp
      obtain ⟨rfl, -⟩ := release_cases hrelease
      rfl
    · cases hp
  | _ => exact ⟨False.elim, False.elim⟩

end Generation

/-- What is known of a node with a parent. -/
theorem Tree.Unread.cases {t : Tree} {w : Workspace} {p id : NodeId} (h : t.Unread w id)
    (ht : t.Linked) (hp : id ∈ t.children p) : ∃ construct n, w.construct? p = some construct ∧
      (t.children p)[n]? = some id ∧ (construct.Drops (t.children p).length n ∨
        construct.HandsOn (t.children p).length n ∧ t.Unread w p) := by
  have hparent := (ht.mem_iff p id).mp hp
  have hsame : ∀ {q : NodeId} {n : Nat}, (t.children q)[n]? = some id → q = p := fun hchild =>
    Option.some.inj (((ht.mem_iff _ id).mp (List.mem_of_getElem? hchild)).symm.trans hparent)
  cases h with
  | top hnone => cases hnone.symm.trans hparent
  | @dropped _ _ n construct hconstruct hchild hdrops =>
    obtain rfl := hsame hchild
    exact ⟨construct, n, hconstruct, hchild, Or.inl hdrops⟩
  | @handedOn _ _ n construct hconstruct hchild hhands hunread =>
    obtain rfl := hsame hchild
    exact ⟨construct, n, hconstruct, hchild, Or.inr ⟨hhands, hunread⟩⟩

end SexprAsm
