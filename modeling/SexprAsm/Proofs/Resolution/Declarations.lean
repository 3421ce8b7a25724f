import Mathlib.Logic.Function.Iterate
import SexprAsm.Proofs.Generation.Steps
import SexprAsm.Proofs.Workspace

/-!
# What the first pass does

The first pass of resolution visits nodes. A visit declares a variable, or a block of an event, or
nothing at all, and it goes on to the children unless the tag of the node seals them off
(`Resolution.declareNode_cases`). The pass as a whole is one visit after the other, level by level
from the root (`Resolution.declareLevels_visits`): what a visit keeps, the pass keeps
(`Resolution.Visits.keeps`).
-/

namespace SexprAsm

/-! ## Nodes that declare something

Blocks of events and named nodes, told by their tags and children alone, with inversions of the
two operations on a workspace that every visit is made of: reading a name, and defining a slot. -/

/-- The node is `when(label, body)`, a block of an event. -/
def Tree.isEvent (t : Tree) (id : NodeId) : Bool :=
  t.tag id == .string Keyword.event && (t.children id).length == 2

/-- The label of a node that is a block of an event. -/
def Tree.eventLabel? (t : Tree) (id : NodeId) : Option String :=
  if t.isEvent id then (t.children id)[0]?.bind fun label => (t.tag label).text? else none

theorem Value.eq_string_of_text? {v : Value} {text : String} (h : v.text? = some text) :
    v = .string text := by
  cases v with
  | string found => rw [Option.some.inj h]
  | _ => cases h

namespace Tree

variable {t : Tree} {id : NodeId}

theorem isEvent_iff :
    t.isEvent id = true ↔ t.tag id = .string Keyword.event ∧ (t.children id).length = 2 := by
  rw [isEvent, Bool.and_eq_true, beq_iff_eq, beq_iff_eq]

theorem eventLabel?_eq_none (h : ¬ t.isEvent id = true) : t.eventLabel? id = none := if_neg h

theorem eventLabel?_eq_some {first : NodeId} {label : String} (h : t.isEvent id = true)
    (hfirst : (t.children id)[0]? = some first) (hlabel : (t.tag first).text? = some label) :
    t.eventLabel? id = some label := by
  rw [eventLabel?, if_pos h, hfirst]
  exact hlabel

/-- A block declares no variable. -/
theorem not_declare_of_isEvent (h : t.isEvent id = true) : t.tag id ≠ .string Keyword.declare := by
  rw [(isEvent_iff.mp h).1]
  decide

end Tree

/-- The tag of a node is a name: a text that is not empty. -/
def Tree.Named (t : Tree) (id : NodeId) (name : String) : Prop :=
  (t.tag id).text? = some name ∧ name.isEmpty = false

theorem Tree.Named.unique {t : Tree} {id : NodeId} {name name' : String} (h : t.Named id name)
    (h' : t.Named id name') : name' = name :=
  Option.some.inj (h'.1.symm.trans h.1)

theorem Compile.nameAt_named {t : Tree} {id : NodeId} {construct name : String} {w w' : Workspace}
    (h : Yields (Compile.nameAt t id construct) w name w') : t.Named id name ∧ w = w' := by
  obtain ⟨htext, rfl⟩ := Compile.nameAt_cases h
  refine ⟨⟨htext, ?_⟩, rfl⟩
  unfold Compile.nameAt at h
  simp only [htext] at h
  cases hempty : name.isEmpty with
  | false => rfl
  | true => simp [hempty] at h

theorem Compile.nameAt_eq {t : Tree} {id : NodeId} {name : String} (h : t.Named id name)
    (construct : String) : Compile.nameAt t id construct = pure name := by
  unfold Compile.nameAt
  rw [h.1]
  simp only [h.2]
  rfl

theorem Compile.nameAt_iff {t : Tree} {id : NodeId} {construct name : String} {w w' : Workspace} :
    Yields (Compile.nameAt t id construct) w name w' ↔ t.Named id name ∧ w = w' := by
  refine ⟨Compile.nameAt_named, ?_⟩
  rintro ⟨hname, rfl⟩
  rw [Compile.nameAt_eq hname]
  rfl

/-- A definition changes the heap and nothing else. -/
theorem Compile.define_iff {cfg : Setting} {name : String} {type : Option TypeId}
    {attributes : Attributes} {value : Option Value} {w w' : Workspace} :
    Yields (Compile.emit (Emit.define cfg name type attributes value)) w () w' ↔
      ∃ heap, w.assembly.heap.define cfg.catalog name type attributes value = .ok heap ∧
        w' = { w with assembly := { w.assembly with heap := heap } } := by
  constructor
  · intro h
    obtain ⟨a, hdefine, rfl⟩ := Compile.emit_iff.mp h
    obtain ⟨heap, hheap, rfl⟩ := Emit.onHeap_iff.mp hdefine
    cases hok : w.assembly.heap.define cfg.catalog name type attributes value with
    | error e => rw [hok] at hheap; cases hheap
    | ok heap₁ =>
      rw [hok] at hheap
      obtain ⟨-, rfl⟩ := Prod.mk.inj (Except.ok.inj hheap)
      exact ⟨heap₁, rfl, rfl⟩
  · rintro ⟨heap, hdefine, rfl⟩
    exact Compile.emit_iff.mpr ⟨_, Emit.onHeap_iff.mpr ⟨heap, by rw [hdefine]; rfl, rfl⟩, rfl⟩

namespace Tree

/-! ## Levels

The walk goes level by level and does not enter what is sealed. `level` iterates the children
that it does enter; `flatMap_level_succ` is the step from one level to the next. -/

/-- Nothing below the node is visited: there are names, types or instructions. -/
def isSealed (t : Tree) (id : NodeId) : Bool :=
  (t.tag id).text?.any fun tag =>
    tag ∈ [Keyword.declare, Keyword.get, Keyword.inlineAsm, Keyword.typeOf]

/-- The children of a node that are visited. -/
def openChildren (t : Tree) (id : NodeId) : List NodeId :=
  if t.isSealed id then [] else t.children id

theorem isSealed_iff {t : Tree} {id : NodeId} {tag : String} (htag : t.tag id = .string tag) :
    t.isSealed id = true ↔
      tag = Keyword.declare ∨ tag = Keyword.get ∨ tag = Keyword.inlineAsm ∨
        tag = Keyword.typeOf := by
  simp [isSealed, htag, Value.text?]

theorem openChildren_of_isSealed {t : Tree} {id : NodeId} (h : t.isSealed id = true) :
    t.openChildren id = [] := if_pos h

/-- A leaf has no children to visit, whatever its tag. -/
theorem openChildren_of_isLeaf {t : Tree} {id : NodeId}
    (h : t.isSealed id = true → (t.node id).isLeaf = true) : t.openChildren id = t.children id := by
  unfold openChildren
  split
  next hsealed => exact (List.isEmpty_iff.mp (h hsealed)).symm
  next => rfl

/-- The nodes that are visited a number of levels below some nodes. -/
def level (t : Tree) (ids : List NodeId) (n : Nat) : List NodeId :=
  (fun ids => ids.flatMap t.openChildren)^[n] ids

theorem flatMap_level_succ (t : Tree) (ids : List NodeId) (n : Nat) :
    (List.range (n + 1)).flatMap (t.level ids) =
      ids ++ (List.range n).flatMap (t.level (ids.flatMap t.openChildren)) := by
  rw [List.range_succ_eq_map, List.flatMap_cons, List.flatMap_map]
  rfl

theorem level_nil (t : Tree) (n : Nat) : t.level [] n = [] := Function.iterate_fixed rfl n

end Tree

namespace Resolution

variable {cfg : Setting} {t : Tree} {w w' w'' : Workspace}

/-! ## Visits

`declareNode_cases` says all that a visit can do, so that no later proof opens the pass again.
`Visits` is a run of them, and `Visits.keeps` the induction over it that every invariant of the
pass goes through. That the levels are such a run is proved once, at the end. -/

/-- What the last item of a declaration gives: its default value, and the attributes with it. -/
def lastValue (t : Tree) (id : NodeId) (name : String) (attributes : Attributes) :
    Except CompileFault (Attributes × Option Value) :=
  match ((t.children id).drop 1).getLast? with
  | some last => defaultValue t name attributes last
  | none => .ok (attributes, none)

theorem declareVariable.ofExcept_cases {α : Type} {a : α} {outcome : Except CompileFault α}
    (h : Yields (declareVariable.ofExcept outcome) w a w') : outcome = .ok a ∧ w = w' := by
  cases outcome with
  | error e => exact absurd h (by simp [declareVariable.ofExcept])
  | ok b =>
    obtain ⟨rfl, rfl⟩ := Yields.pure_iff.mp h
    exact ⟨rfl, rfl⟩

theorem declareVariable.ofExcept_iff {α : Type} {a : α} {outcome : Except CompileFault α} :
    Yields (declareVariable.ofExcept outcome) w a w' ↔ outcome = .ok a ∧ w = w' := by
  refine ⟨declareVariable.ofExcept_cases, ?_⟩
  rintro ⟨rfl, rfl⟩
  rfl

/-- A declaration defines a slot with what its items ask for. -/
theorem declareVariable_iff {id : NodeId} : Yields (declareVariable cfg t id) w () w' ↔
    ∃ name type attributes₀ attributes value, t.Named ((t.children id).headD 0) name ∧
      modifiers cfg t ((t.children id).drop 1).dropLast (none, {}) = .ok (type, attributes₀) ∧
      lastValue t id name attributes₀ = .ok (attributes, value) ∧
      Yields (Compile.emit (Emit.define cfg name type attributes value)) w () w' := by
  simp only [declareVariable, lastValue, Yields.bind_iff, Compile.nameAt_iff,
    declareVariable.ofExcept_iff]
  constructor
  · rintro ⟨name, _, ⟨hname, rfl⟩, ⟨type, attributes₀⟩, _, ⟨hmodifiers, rfl⟩, h⟩
    cases hlast : ((t.children id).drop 1).getLast? with
    | none =>
      simp only [hlast, Yields.bind_iff, Yields.pure_iff] at h
      obtain ⟨_, _, ⟨rfl, rfl⟩, hdefine⟩ := h
      exact ⟨name, type, attributes₀, attributes₀, none, hname, hmodifiers, rfl, hdefine⟩
    | some last =>
      simp only [hlast, Yields.bind_iff, declareVariable.ofExcept_iff] at h
      obtain ⟨⟨attributes, value⟩, _, ⟨hvalue, rfl⟩, hdefine⟩ := h
      exact ⟨name, type, attributes₀, attributes, value, hname, hmodifiers, hvalue, hdefine⟩
  · rintro ⟨name, type, attributes₀, attributes, value, hname, hmodifiers, hvalue, hdefine⟩
    refine ⟨name, w, ⟨hname, rfl⟩, (type, attributes₀), w, ⟨hmodifiers, rfl⟩, ?_⟩
    cases hlast : ((t.children id).drop 1).getLast? with
    | none =>
      simp only [hlast] at hvalue ⊢
      obtain ⟨rfl, rfl⟩ := Prod.mk.inj (Except.ok.inj hvalue)
      exact Yields.bind_iff.mpr ⟨_, w, rfl, hdefine⟩
    | some last =>
      simp only [hlast] at hvalue ⊢
      exact Yields.bind_iff.mpr ⟨(attributes, value), w,
        declareVariable.ofExcept_iff.mpr ⟨hvalue, rfl⟩, hdefine⟩

/-- A declaration that succeeds defines a slot under the name. -/
theorem declareVariable_cases {id : NodeId} (h : Yields (declareVariable cfg t id) w () w') :
    ∃ name type attributes value heap, t.Named ((t.children id).headD 0) name ∧
      w.assembly.heap.define cfg.catalog name type attributes value = .ok heap ∧
      w' = { w with assembly := { w.assembly with heap := heap } } := by
  obtain ⟨name, type, -, attributes, value, hname, -, -, hemit⟩ := declareVariable_iff.mp h
  obtain ⟨heap, hdefine, rfl⟩ := Compile.define_iff.mp hemit
  exact ⟨name, type, attributes, value, heap, hname, hdefine, rfl⟩

/-- What a visit does: it declares a variable, or a block of an event, or nothing. -/
theorem declareNode_cases {id : NodeId} {visit : Bool}
    (h : Yields (declareNode cfg t id) w visit w') :
    (if visit then t.children id else []) = t.openChildren id ∧
      ((t.tag id = .string Keyword.declare ∧ (t.node id).isLeaf = false ∧
          Yields (declareVariable cfg t id) w () w') ∨
        (t.isEvent id = true ∧ ∃ first label entry,
          (t.children id)[0]? = some first ∧ t.Named first label ∧
          Yields (Build.declareEntryPoint cfg label) w entry w') ∨
        (t.tag id = .string Keyword.declare → (t.node id).isLeaf = true) ∧
          t.isEvent id = false ∧ w = w') := by
  simp only [declareNode] at h
  split at h
  next htext =>
    obtain ⟨rfl, rfl⟩ := Yields.pure_iff.mp h
    have htext' : (t.tag id).text? = none := htext
    have hno : ∀ word, t.tag id ≠ .string word := fun word hword => by
      rw [hword] at htext'
      cases htext'
    refine ⟨(Tree.openChildren_of_isLeaf fun hsealed => ?_).symm, Or.inr (Or.inr ⟨?_, ?_, rfl⟩)⟩
    · rw [Tree.isSealed, htext'] at hsealed
      cases hsealed
    · exact fun hdeclare => absurd hdeclare (hno _)
    · exact Bool.eq_false_iff.mpr fun hevent => hno _ (Tree.isEvent_iff.mp hevent).1
  next tag htext =>
    have htag : t.tag id = .string tag := Value.eq_string_of_text? htext
    have hno_event : tag ≠ Keyword.event → t.isEvent id = false := fun hne =>
      Bool.eq_false_iff.mpr fun hevent =>
        hne (Value.string.inj (htag.symm.trans (Tree.isEvent_iff.mp hevent).1))
    split at h
    next hdeclare =>
      simp only [Yields.bind_iff, Yields.pure_iff] at h
      obtain ⟨_, _, hvariable, rfl, rfl⟩ := h
      have hsealed := (Tree.isSealed_iff htag).mpr (Or.inl hdeclare.1)
      exact ⟨(Tree.openChildren_of_isSealed hsealed).symm,
        Or.inl ⟨by rw [htag, hdeclare.1], by simpa using hdeclare.2, hvariable⟩⟩
    next hdeclare =>
      have hleaf : t.tag id = .string Keyword.declare → (t.node id).isLeaf = true := fun hword =>
        by_contra fun hleaf =>
          hdeclare ⟨Value.string.inj (htag.symm.trans hword), by simpa using hleaf⟩
      split at h
      next hsealed =>
        obtain ⟨rfl, rfl⟩ := Yields.pure_iff.mp h
        have hsealed' := (Tree.isSealed_iff htag).mpr (Or.inr hsealed.1)
        refine ⟨(Tree.openChildren_of_isSealed hsealed').symm,
          Or.inr (Or.inr ⟨hleaf, hno_event ?_, rfl⟩)⟩
        rcases hsealed.1 with rfl | rfl | rfl <;> decide
      next hsealed =>
        -- The children come next: a node that is sealed is a leaf by now.
        have hopen : t.children id = t.openChildren id :=
          (Tree.openChildren_of_isLeaf fun hmem => by_contra fun hne => by
            rcases (Tree.isSealed_iff htag).mp hmem with hword | hword
            · exact hdeclare ⟨hword, by simpa using hne⟩
            · exact hsealed ⟨hword, by simpa using hne⟩).symm
        split at h
        next first second hchildren =>
          split at h
          next hword =>
            simp only [Yields.bind_iff, Yields.pure_iff, Compile.build_iff] at h
            obtain ⟨label, _, hlabel', entry, _, hentry, rfl, rfl⟩ := h
            obtain ⟨hlabel, rfl⟩ := Compile.nameAt_named hlabel'
            refine ⟨hopen, Or.inr (Or.inl ⟨?_, first, label, entry, ?_, hlabel, hentry⟩)⟩
            · refine Tree.isEvent_iff.mpr ⟨by rw [htag, hword], ?_⟩
              rw [Tree.children, hchildren]
              rfl
            · rw [Tree.children, hchildren]
              rfl
          next hword =>
            obtain ⟨rfl, rfl⟩ := Yields.pure_iff.mp h
            exact ⟨hopen, Or.inr (Or.inr ⟨hleaf, hno_event hword, rfl⟩)⟩
        next hchildren =>
          obtain ⟨rfl, rfl⟩ := Yields.pure_iff.mp h
          refine ⟨hopen, Or.inr (Or.inr ⟨hleaf, Bool.eq_false_iff.mpr fun hevent => ?_, rfl⟩)⟩
          obtain ⟨first, second, hpair⟩ := List.length_eq_two.mp (Tree.isEvent_iff.mp hevent).2
          exact hchildren first second hpair

/-- Nodes are visited, one after the other. -/
inductive Visits (cfg : Setting) (t : Tree) : List NodeId → Workspace → Workspace → Prop where
  | done (w : Workspace) : Visits cfg t [] w w
  | visit {id : NodeId} {ids : List NodeId} {descend : Bool} {w w₁ w' : Workspace}
      (first : Yields (declareNode cfg t id) w descend w₁) (rest : Visits cfg t ids w₁ w') :
      Visits cfg t (id :: ids) w w'

theorem Visits.append {ids ids' : List NodeId} (h : Visits cfg t ids w w')
    (h' : Visits cfg t ids' w' w'') : Visits cfg t (ids ++ ids') w w'' := by
  induction h with
  | done => exact h'
  | visit first _ ih => exact .visit first (ih h')

/-- What each visit keeps, with one more node visited, holds after all of them. -/
theorem Visits.keeps {P : List NodeId → Workspace → Prop} {visited ids : List NodeId}
    (hvisit : ∀ {visited : List NodeId} {id : NodeId} {descend : Bool} {w w' : Workspace},
      P visited w → Yields (declareNode cfg t id) w descend w' → P (visited ++ [id]) w')
    (h : Visits cfg t ids w w') (hw : P visited w) : P (visited ++ ids) w' := by
  induction h generalizing visited with
  | done => rwa [List.append_nil]
  | visit first _ ih =>
    rw [List.append_cons]
    exact ih (hvisit hw first)

/-- The nodes of a level are visited, and their children make the next one. -/
theorem declareLevel_visits {ids next : List NodeId}
    (h : Yields (declareLevel cfg t ids) w next w') :
    next = ids.flatMap t.openChildren ∧ Visits cfg t ids w w' := by
  induction ids generalizing w next with
  | nil =>
    obtain ⟨rfl, rfl⟩ := Yields.pure_iff.mp h
    exact ⟨rfl, .done w⟩
  | cons id ids ih =>
    simp only [declareLevel, Yields.bind_iff, Yields.pure_iff, Compilation.at_iff] at h
    obtain ⟨descend, w₁, hnode, next', _, hrest, rfl, rfl⟩ := h
    obtain ⟨rfl, hvisits⟩ := ih hrest
    exact ⟨by rw [(declareNode_cases hnode).1, List.flatMap_cons], .visit hnode hvisits⟩

/-- The pass visits the nodes of one level after the other. -/
theorem declareLevels_visits {depth : Nat} {ids order : List NodeId}
    (h : Yields (declareLevels cfg t depth ids) w order w') :
    order = (List.range depth).flatMap (t.level ids) ∧ Visits cfg t order w w' := by
  induction depth generalizing w ids order with
  | zero =>
    obtain ⟨rfl, rfl⟩ := Yields.pure_iff.mp h
    exact ⟨rfl, .done w⟩
  | succ depth ih =>
    cases ids with
    | nil =>
      obtain ⟨rfl, rfl⟩ := Yields.pure_iff.mp h
      exact ⟨by simp [Tree.level_nil], .done w⟩
    | cons id ids =>
      simp only [declareLevels, Yields.bind_iff, Yields.pure_iff] at h
      obtain ⟨next, w₁, hlevel, order', _, hrest, rfl, rfl⟩ := h
      obtain ⟨rfl, hvisits⟩ := declareLevel_visits hlevel
      obtain ⟨rfl, hbelow⟩ := ih hrest
      exact ⟨(t.flatMap_level_succ _ _).symm, hvisits.append hbelow⟩

end Resolution

end SexprAsm
