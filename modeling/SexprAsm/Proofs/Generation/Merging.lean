import Mathlib.Data.List.Pairwise
import SexprAsm.Proofs.Generation.Routines
import SexprAsm.Proofs.Generation.Survival
import SexprAsm.Proofs.Generation.Traversal
import SexprAsm.Proofs.Generation.WellFormed

/-!
# Events are merged from their blocks

A run of the work stack is accompanied by a log of what happens to the routines of events: calls,
and blocks that begin and end (`Incident`). The log does not take part in the run; it is what the
blocks of a label and the calls of it are known by afterwards.

Where blocks do not stand inside each other, at most one is open at any time, and the entry points,
the labels and the jumps agree with the log throughout (`Ledger`): every label has its `Routine`. At
the end no jump waits for a target any more. So all blocks that have been declared for a label have
been compiled, and they make one routine (`Program.compile_merges`).
-/

namespace SexprAsm

open Generation Workspace Resolution

/-! ## What happens to routines

The log of a run is the list of the incidents of its turns (`Records`), and each turn adds none,
one or two of them (`WorkUnit.incidents`). What is asked of a log is always about one label: its
calls, where its blocks begin, and where they end. The lemmas on `callsOf`, `startsOf` and
`finishesOf` say what one more incident does to these lists, and that an instruction is about one
incident only (`Increasing`). -/

/-- Something that happens to the routine of an event. -/
inductive Incident where
  /-- It is called, by a jump. -/
  | call (label : String) (jump : InstructionId)
  /-- One of its blocks begins; the code of its body starts at a place. -/
  | begins (label : String) (block : NodeId) (start : Nat)
  /-- The block ends, with an instruction. -/
  | ends (label : String) (finish : InstructionId)

namespace Incident

/-- The jump of a call of the label. -/
def call? (label : String) : Incident → Option Nat
  | call other jump => if other = label then some jump else none
  | _ => none

/-- A block of the label, and the place where it begins. -/
def block? (label : String) : Incident → Option (NodeId × Nat)
  | begins other block start => if other = label then some (block, start) else none
  | _ => none

/-- The instruction that ends a block of the label. -/
def finish? (label : String) : Incident → Option Nat
  | ends other finish => if other = label then some finish else none
  | _ => none

/-- The instruction that the incident is about. -/
def jump? : Incident → Option Nat
  | call _ jump => some jump
  | begins _ _ _ => none
  | ends _ finish => some finish

/-- The node that the incident is about. -/
def node? : Incident → Option NodeId
  | begins _ block _ => some block
  | _ => none

/-- The label of the routine that the incident happens to. -/
def label : Incident → String
  | call label _ | begins label _ _ | ends label _ => label

end Incident

/-- The jumps of the calls of a label, in the order of the code. -/
def callsOf (label : String) (log : List Incident) : List Nat := log.filterMap (·.call? label)

/-- The blocks of a label, in the order of the code. -/
def blocksOf (label : String) (log : List Incident) : List (NodeId × Nat) :=
  log.filterMap (·.block? label)

/-- The places where the blocks of a label begin. -/
def startsOf (label : String) (log : List Incident) : List Nat := (blocksOf label log).map Prod.snd

/-- The instructions that end the blocks of a label. -/
def finishesOf (label : String) (log : List Incident) : List Nat := log.filterMap (·.finish? label)

/-- What a step of a unit does to the routines of events. A call stores the address to return to
before it jumps, with three instructions. A block whose value is used is called in place before it
begins. -/
def WorkUnit.incidents (t : Tree) (u : WorkUnit) (w w' : Workspace) : List Incident :=
  match u.task with
  | .callEvent =>
    ((t.tag u.node).text?.map fun label => .call label (w.assembly.instructions.length + 3)).toList
  | .event _ =>
    match t.eventLabel? u.node with
    | none => []
    | some label =>
      if u.step = 0 then
        (if u.target.isSome then [.call label (w.assembly.instructions.length + 3)] else []) ++
          [.begins label u.node w'.assembly.instructions.length]
      else [.ends label w.assembly.instructions.length]
  | _ => []

/-- A run, with the log of what happens to the routines of events. -/
inductive Records (cfg : Setting) (t : Tree) :
    List WorkUnit → Workspace → List Incident → List WorkUnit → Workspace → Prop where
  | refl (stack : List WorkUnit) (w : Workspace) : Records cfg t stack w [] stack w
  | head {u : WorkUnit} {rest stack' stack'' : List WorkUnit} {w w' w'' : Workspace}
      {log : List Incident} (hmove : Move cfg t (u :: rest) w stack' w')
      (hrest : Records cfg t stack' w' log stack'' w'') :
      Records cfg t (u :: rest) w (u.incidents t w w' ++ log) stack'' w''

theorem Generation.Reaches.records {cfg : Setting} {t : Tree} {stack stack' : List WorkUnit}
    {w w' : Workspace} (h : Reaches cfg t stack w stack' w') :
    ∃ log, Records cfg t stack w log stack' w' := by
  induction h with
  | refl stack w => exact ⟨[], .refl stack w⟩
  | head hmove _ ih =>
    obtain ⟨log, hlog⟩ := ih
    cases hmove with
    | done hstep => exact ⟨_, .head (.done hstep) hlog⟩
    | again hstep => exact ⟨_, .head (.again hstep) hlog⟩
    | descend hstep hstart => exact ⟨_, .head (.descend hstep hstart) hlog⟩

/-- What each turn keeps, with its log at the end, holds after the run with the log of all. -/
theorem Records.keeps {cfg : Setting} {t : Tree}
    {P : List Incident → List WorkUnit → Workspace → Prop}
    (hturn : ∀ {log : List Incident} {u : WorkUnit} {rest stack' : List WorkUnit}
      {w w' : Workspace}, P log (u :: rest) w → Move cfg t (u :: rest) w stack' w' →
      P (log ++ u.incidents t w w') stack' w')
    {log log' : List Incident} {stack stack' : List WorkUnit} {w w' : Workspace}
    (h : Records cfg t stack w log' stack' w') (hstart : P log stack w) :
    P (log ++ log') stack' w' := by
  induction h generalizing log with
  | refl => rwa [List.append_nil]
  | head hmove _ ih =>
    rw [← List.append_assoc]
    exact ih (hturn hstart hmove)

section Logs

variable {label : String} {log : List Incident} {k : Nat}

theorem callsOf_concat (i : Incident) :
    callsOf label (log ++ [i]) = callsOf label log ++ (i.call? label).toList := by
  simp only [callsOf, List.filterMap_append]
  cases h : i.call? label <;> simp [h]

theorem blocksOf_concat (i : Incident) :
    blocksOf label (log ++ [i]) = blocksOf label log ++ (i.block? label).toList := by
  simp only [blocksOf, List.filterMap_append]
  cases h : i.block? label <;> simp [h]

theorem startsOf_concat (i : Incident) :
    startsOf label (log ++ [i]) = startsOf label log ++ ((i.block? label).map Prod.snd).toList := by
  rw [startsOf, blocksOf_concat, List.map_append]
  cases i.block? label <;> rfl

theorem finishesOf_concat (i : Incident) :
    finishesOf label (log ++ [i]) = finishesOf label log ++ (i.finish? label).toList := by
  simp only [finishesOf, List.filterMap_append]
  cases h : i.finish? label <;> simp [h]

section

variable {other : String} {block : NodeId} {start finish : Nat}

theorem callsOf_begins : callsOf other (log ++ [.begins label block start]) = callsOf other log :=
  (callsOf_concat _).trans (List.append_nil _)

theorem startsOf_begins : startsOf other (log ++ [.begins label block start]) =
    startsOf other log ++ if label = other then [start] else [] := by
  rw [startsOf_concat, Incident.block?]
  split <;> rfl

theorem finishesOf_begins :
    finishesOf other (log ++ [.begins label block start]) = finishesOf other log :=
  (finishesOf_concat _).trans (List.append_nil _)

theorem callsOf_ends : callsOf other (log ++ [.ends label finish]) = callsOf other log :=
  (callsOf_concat _).trans (List.append_nil _)

theorem startsOf_ends : startsOf other (log ++ [.ends label finish]) = startsOf other log :=
  (startsOf_concat _).trans (List.append_nil _)

theorem finishesOf_ends : finishesOf other (log ++ [.ends label finish]) =
    finishesOf other log ++ if label = other then [finish] else [] := by
  rw [finishesOf_concat, Incident.finish?]
  split <;> rfl

end

theorem mem_callsOf : k ∈ callsOf label log ↔ .call label k ∈ log := by
  refine List.mem_filterMap.trans ⟨?_, fun h => ⟨_, h, if_pos rfl⟩⟩
  rintro ⟨i, hi, hk⟩
  cases i with
  | call other jump =>
    simp only [Incident.call?] at hk
    split at hk
    next hlabel => rw [← hlabel, ← Option.some.inj hk]; exact hi
    next => cases hk
  | _ => cases hk

theorem mem_finishesOf : k ∈ finishesOf label log ↔ .ends label k ∈ log := by
  refine List.mem_filterMap.trans ⟨?_, fun h => ⟨_, h, if_pos rfl⟩⟩
  rintro ⟨i, hi, hk⟩
  cases i with
  | ends other jump =>
    simp only [Incident.finish?] at hk
    split at hk
    next hlabel => rw [← hlabel, ← Option.some.inj hk]; exact hi
    next => cases hk
  | _ => cases hk

theorem mem_blocksOf {b : NodeId × Nat} : b ∈ blocksOf label log ↔ .begins label b.1 b.2 ∈ log := by
  refine List.mem_filterMap.trans ⟨?_, fun h => ⟨_, h, if_pos rfl⟩⟩
  rintro ⟨i, hi, hb⟩
  cases i with
  | begins other block start =>
    simp only [Incident.block?] at hb
    split at hb
    next hlabel => rw [← hlabel, ← Option.some.inj hb]; exact hi
    next => cases hb
  | _ => cases hb

/-- The instructions of a log come in the order of the code. -/
def Increasing (log : List Incident) : Prop :=
  log.Pairwise fun a b => ∀ k ∈ a.jump?, ∀ k' ∈ b.jump?, k < k'

theorem Increasing.concat {i : Incident} (h : Increasing log)
    (hi : ∀ a ∈ log, ∀ k ∈ a.jump?, ∀ k' ∈ i.jump?, k < k') : Increasing (log ++ [i]) := by
  refine List.pairwise_append.mpr ⟨h, List.pairwise_singleton _ _, fun a ha b hb => ?_⟩
  rw [List.mem_singleton.mp hb]
  exact hi a ha

/-- An instruction is about one incident only. -/
theorem Increasing.unique (h : Increasing log) {a b : Incident} (ha : a ∈ log) (hb : b ∈ log)
    (hak : k ∈ a.jump?) (hbk : k ∈ b.jump?) : a = b := by
  have hsymm : Std.Symm fun a b : Incident => k ∈ a.jump? → k ∈ b.jump? → a = b :=
    ⟨fun a b hab hbk hak => (hab hak hbk).symm⟩
  have hpairs : log.Pairwise fun a b : Incident => k ∈ a.jump? → k ∈ b.jump? → a = b :=
    h.imp fun hlt hak hbk => absurd (hlt k hak k hbk) (Nat.lt_irrefl k)
  exact hpairs.forall_of_forall (fun a _ _ _ => rfl) ha hb hak hbk

theorem Increasing.nodup_finishesOf (h : Increasing log) : (finishesOf label log).Nodup := by
  have hlt : (finishesOf label log).Pairwise (· < ·) := by
    refine List.pairwise_filterMap.mpr (h.imp fun {a b} hlt k hk k' hk' => hlt k ?_ k' ?_)
    · cases a with
      | ends other finish => exact (Option.ite_none_right_eq_some.mp hk).2
      | _ => cases hk
    · cases b with
      | ends other finish => exact (Option.ite_none_right_eq_some.mp hk').2
      | _ => cases hk'
  exact hlt.imp Nat.ne_of_lt

end Logs

/-! ## The log and the code

`Ledger` is the invariant. It is shown once for each thing that a step can do: more code and
targets for jumps of units (`grows`), a call, and a block that begins or ends. The last two are
where the routine of a label changes, and the routines of all others have to stay as they are,
because jumps have the number of one incident only (`code_of_ne`). -/

/-- The instructions of the log are in the code, in their order, and none of them is a jump that
belongs to a unit of the stack. -/
structure Logged (log : List Incident) (own : List InstructionId) (w : Workspace) : Prop where
  increasing : Increasing log
  jumps : ∀ a ∈ log, ∀ k ∈ a.jump?, k < w.assembly.instructions.length ∧ k ∉ own
  own : ∀ k ∈ own, k < w.assembly.instructions.length

namespace Logged

variable {log : List Incident} {own own' : List InstructionId} {w w' : Workspace}

theorem grows (h : Logged log own w)
    (hle : w.assembly.instructions.length ≤ w'.assembly.instructions.length)
    (hown : ∀ k ∈ own', k ∈ own ∨
      w.assembly.instructions.length ≤ k ∧ k < w'.assembly.instructions.length) :
    Logged log own' w' := by
  refine ⟨h.increasing, fun a ha k hk => ?_, fun k hk => ?_⟩
  · obtain ⟨hlt, hnot⟩ := h.jumps a ha k hk
    refine ⟨hlt.trans_le hle, fun hmem => ?_⟩
    rcases hown k hmem with hmem | ⟨hge, -⟩
    · exact hnot hmem
    · exact absurd hlt (Nat.not_lt.mpr hge)
  · rcases hown k hk with hk | ⟨-, hlt⟩
    · exact (h.own k hk).trans_le hle
    · exact hlt

theorem same (h : Logged log own w)
    (hlength : w'.assembly.instructions.length = w.assembly.instructions.length) :
    Logged log own w' :=
  h.grows hlength.ge fun _ hk => Or.inl hk

/-- The jumps of a label are in the code, and belong to no unit. -/
theorem of_mem (h : Logged log own w) {label : String} {k : Nat}
    (hk : k ∈ callsOf label log ∨ k ∈ finishesOf label log) :
    k < w.assembly.instructions.length ∧ k ∉ own := by
  rcases hk with hk | hk
  · exact h.jumps _ (mem_callsOf.mp hk) k rfl
  · exact h.jumps _ (mem_finishesOf.mp hk) k rfl

/-- What a block takes up of its own label is no jump of another label. -/
theorem code_of_ne (h : Logged log own w) {label other : String} {jumps : List InstructionId}
    (hjumps : ∀ k ∈ jumps, .call label k ∈ log ∨ .ends label k ∈ log) (hne : other ≠ label)
    (htouches : Touches jumps w w') {k : Nat}
    (hk : k ∈ callsOf other log ∨ k ∈ finishesOf other log) :
    w'.assembly.instructions[k]? = w.assembly.instructions[k]? := by
  refine htouches.code k (h.of_mem hk).1 fun hmem => hne ?_
  rcases hk.imp mem_callsOf.mp mem_finishesOf.mp with hlog | hlog <;>
    rcases hjumps k hmem with hlog' | hlog' <;> cases h.increasing.unique hlog hlog' rfl rfl <;> rfl

theorem concat (h : Logged log own w) {i : Incident}
    (hi : ∀ k ∈ i.jump?, (∀ a ∈ log, ∀ k' ∈ a.jump?, k' < k) ∧
      k < w.assembly.instructions.length ∧ k ∉ own) : Logged (log ++ [i]) own w := by
  refine ⟨h.increasing.concat fun a ha k hk k' hk' => (hi k' hk').1 a ha k hk, fun a ha k hk => ?_,
    h.own⟩
  rcases List.mem_append.mp ha with ha | ha
  · exact h.jumps a ha k hk
  · rw [List.mem_singleton.mp ha] at hk
    exact (hi k hk).2

/-- The instruction that ends a block is new. -/
theorem ends (h : Logged log own w) {label : String}
    (hlength : w'.assembly.instructions.length = w.assembly.instructions.length + 1) :
    Logged (log ++ [.ends label w.assembly.instructions.length]) own w' := by
  refine concat (h.grows (hlength ▸ Nat.le_succ _) fun _ hk => Or.inl hk) fun k hk => ?_
  rw [← Option.some.inj hk]
  refine ⟨fun a ha k' hk' => (h.jumps a ha k' hk').1, ?_, fun hmem => ?_⟩
  · rw [hlength]
    exact Nat.lt_succ_self _
  · exact Nat.lt_irrefl _ (h.own _ hmem)

end Logged

/-- How the code, the labels and the entry points agree with the log, while the block of a label may
be open and some jumps belong to the units of the stack. -/
structure Ledger (before : Workspace) (log : List Incident) (current : Option String)
    (own : List InstructionId) (w : Workspace) : Prop extends Logged log own w where
  marks : ∀ label n,
    w.assembly.marks[n]? = some (some label) ↔ (startsOf label log).head? = some n
  indirect : ∀ k name, w.assembly.instructions[k]? = some (.jumpIndirect name) →
    ∃ label entry, before.entryPoints.get? label = some entry ∧ entry.returnPointer = name ∧
      k ∈ finishesOf label log
  declared : ∀ label, startsOf label log ≠ [] → w.entryPoints.get? label ≠ none
  routines : ∀ label entry, w.entryPoints.get? label = some entry →
    Routine w.assembly.instructions entry (decide (current = some label)) (callsOf label log)
      (startsOf label log) (finishesOf label log)

section Ledgers

variable {P : String → Prop} {cfg : Setting} {t : Tree} {before w w' : Workspace}
  {log : List Incident} {current : Option String} {own own' jumps : List InstructionId}
  {label : String} {entry : EntryPoint}

theorem getElem?_append_none {marks : List (Option String)} {n m : Nat} :
    (marks ++ List.replicate m none)[n]? = some (some label) ↔ marks[n]? = some (some label) := by
  rcases Nat.lt_or_ge n marks.length with hlt | hge
  · rw [List.getElem?_append_left hlt]
  · rw [List.getElem?_append_right hge, List.getElem?_eq_none hge, List.getElem?_replicate]
    split <;> simp

/-- Without new indirect jumps, those that there are were there before. -/
theorem Lengthens.indirect (h : Lengthens P (fun _ => False) w w') {k : Nat} {name : String}
    (hk : w'.assembly.instructions[k]? = some (.jumpIndirect name)) :
    w.assembly.instructions[k]? = some (.jumpIndirect name) := by
  rcases Nat.lt_or_ge k w.assembly.instructions.length with hlt | hge
  · obtain ⟨i, hi, hsame⟩ := h.later.code k _ (List.getElem?_eq_getElem hlt)
    obtain rfl := Option.some.inj (hk.symm.trans hi)
    rcases hsame with hsame | ⟨target, htarget⟩
    · rw [List.getElem?_eq_getElem hlt, ← hsame]
    · exact (Instruction.within_of_retarget? (P := P) (D := fun _ => False) htarget).elim
  · exact (h.within k _ hge hk).elim

namespace Ledger

/-- New code, and new targets for the jumps of units, concern no routine. -/
theorem grows (h : Ledger before log current own w) (hgrows : Grows P (fun _ => False) jumps w w')
    (hjumps : ∀ k ∈ jumps, k ∈ own) (hentries : w'.entryPoints = w.entryPoints)
    (hown : ∀ k ∈ own', k ∈ own ∨
      w.assembly.instructions.length ≤ k ∧ k < w'.assembly.instructions.length) :
    Ledger before log current own' w' := by
  have hle := hgrows.touches.grows
  refine ⟨h.toLogged.grows hle hown, fun label n => ?_, fun k name hk => ?_, ?_,
    fun label entry hentry => ?_⟩
  · rw [hgrows.marks, getElem?_append_none]
    exact h.marks label n
  · exact h.indirect k name (hgrows.toLengthens.indirect hk)
  · rw [hentries]
    exact h.declared
  · rw [hentries] at hentry
    refine (h.routines label entry hentry).same (fun k hk => ?_) hle
    obtain ⟨hlt, hnot⟩ := h.of_mem hk
    exact hgrows.touches.code k hlt fun hmem => hnot (hjumps k hmem)

/-- The units may own fewer jumps. -/
theorem mono (h : Ledger before log current own w) (hown : ∀ k ∈ own', k ∈ own) :
    Ledger before log current own' w := by
  have hgrows : Grows (fun _ => True) (fun _ => False) [] w w := .refl w
  exact h.grows hgrows (by simp) rfl fun k hk => Or.inl (hown k hk)

/-- A call is logged once its jump has been emitted. -/
theorem call (h : Ledger before log current own w) {jump : Nat}
    (hentry : w.entryPoints.get? label = some entry)
    (hjump : w.assembly.instructions[jump]? = some (.jump entry.landing))
    (hlater : ∀ a ∈ log, ∀ k ∈ a.jump?, k < jump) (hown : jump ∉ own)
    (hassembly : w'.assembly = w.assembly) (hchanged : w.EntryChanged label (·.called jump) w') :
    Ledger before (log ++ [.call label jump]) current own w' := by
  refine ⟨.concat (h.toLogged.same (by rw [hassembly])) fun k hk => ?_, fun label' n => ?_,
    fun k name hk => ?_, fun label' hstarts => ?_, fun label' entry' hentry' => ?_⟩
  · rw [← Option.some.inj hk, hassembly]
    exact ⟨hlater, (List.getElem?_eq_some_iff.mp hjump).1, hown⟩
  · rw [hassembly, startsOf_concat]
    simpa [Incident.block?] using h.marks label' n
  · rw [hassembly] at hk
    obtain ⟨label', entry', hentry', hpointer, hmem⟩ := h.indirect k name hk
    refine ⟨label', entry', hentry', hpointer, ?_⟩
    rw [finishesOf_concat]
    exact List.mem_append_left _ hmem
  · rw [startsOf_concat] at hstarts
    exact hchanged.get?_ne_none hentry fun _ =>
      h.declared label' (by simpa [Incident.block?] using hstarts)
  · rw [hassembly, callsOf_concat, startsOf_concat, finishesOf_concat]
    simp only [Incident.block?, Incident.finish?, Incident.call?, Option.map_none,
      Option.toList_none, List.append_nil]
    rcases hchanged.get?_cases hentry hentry' with ⟨rfl, rfl⟩ | ⟨hne, hentry'⟩
    · rw [if_pos rfl]
      exact (h.routines label' entry hentry).call hjump
    · rw [if_neg (Ne.symm hne), Option.toList_none, List.append_nil]
      exact h.routines label' entry' hentry'

/-- While no block is open, the first block of a label has ended. -/
theorem head_lt (h : Ledger before log none own w) {s : Nat}
    (hs : (startsOf label log).head? = some s) : s < w.assembly.instructions.length := by
  have hsome : startsOf label log ≠ [] := by
    rintro hnil
    rw [hnil] at hs
    cases hs
  obtain ⟨entry, hentry⟩ := Option.ne_none_iff_exists'.mp (h.declared label hsome)
  have hroutine := h.routines label entry hentry
  have hbalanced : (startsOf label log).length = (finishesOf label log).length := hroutine.balanced
  have hpos : 0 < (finishesOf label log).length := hbalanced ▸ List.length_pos_iff.mpr hsome
  have hfinish := List.getElem?_eq_getElem hpos
  rw [List.head?_eq_getElem?] at hs
  exact (hroutine.ordered 0 s _ hs hfinish).trans_lt
    (hroutine.finish_lt (List.mem_of_getElem? hfinish))

/-- The jumps that wait for a block have been logged for its label. -/
theorem logged_of_awaited (h : Ledger before log none own w)
    (hentry : w.entryPoints.get? label = some entry)
    (hmore : (startsOf label log).length < entry.blocks) {k : Nat} (hk : k ∈ entry.awaited) :
    .call label k ∈ log ∨ .ends label k ∈ log := by
  rw [(h.routines label entry hentry).awaited_eq hmore] at hk
  split at hk
  · exact Or.inl (mem_callsOf.mp hk)
  · exact Or.inr (mem_finishesOf.mp (List.mem_of_getLast? (Option.mem_toList.mp hk)))

/-- The label of a first block waits for the next instruction, and takes no other label's place. -/
theorem marks_begins (h : Ledger before log none own w)
    (hentry : w.entryPoints.get? label = some entry) (hbegins : Begins label entry w w')
    (other : String) (n : Nat) :
    w'.assembly.marks[n]? = some (some other) ↔ (startsOf other log ++
      if label = other then [w.assembly.instructions.length] else []).head? = some n := by
  have hroutine := h.routines label entry hentry
  have hbalanced : (startsOf label log).length = (finishesOf label log).length := hroutine.balanced
  have hlength := w.assembly.length_marks
  rw [hbegins.marks]
  by_cases hzero : entry.compiled = 0
  · rw [if_pos hzero]
    have hnil : startsOf label log = [] := by
      refine List.length_eq_zero_iff.mp ?_
      rw [hbalanced, ← hroutine.compiled, hzero]
    -- Marks before the next place stay, the one at it is the label's, and behind it is none.
    rcases Nat.lt_trichotomy n w.assembly.instructions.length with hlt | rfl | hgt
    · rw [List.getElem?_append_left (by rw [List.length_dropLast]; omega),
        List.getElem?_dropLast, if_pos (by omega), h.marks other n]
      by_cases hother : label = other
      · subst hother
        rw [hnil, if_pos rfl]
        exact ⟨by simp, fun heq => absurd (Option.some.inj heq) (Nat.ne_of_gt hlt)⟩
      · rw [if_neg hother, List.append_nil]
    · rw [List.getElem?_append_right (by rw [List.length_dropLast]; omega), List.length_dropLast,
        hlength, Nat.add_sub_cancel, Nat.sub_self, List.getElem?_cons_zero]
      by_cases hother : label = other
      · subst hother
        rw [hnil, if_pos rfl]
        exact iff_of_true rfl rfl
      · rw [if_neg hother, List.append_nil]
        refine iff_of_false (fun heq => hother ?_) fun hhead => ?_
        · exact Option.some.inj (Option.some.inj heq)
        · exact Nat.lt_irrefl _ (h.head_lt hhead)
    · have hout : (w.assembly.marks.dropLast ++ [some label]).length ≤ n := by
        rw [List.length_append, List.length_dropLast, List.length_singleton]
        omega
      rw [List.getElem?_eq_none hout]
      refine iff_of_false (by simp) fun hhead => ?_
      by_cases hother : label = other
      · subst hother
        rw [hnil, if_pos rfl] at hhead
        exact absurd (Option.some.inj hhead) (Nat.ne_of_lt hgt)
      · rw [if_neg hother, List.append_nil] at hhead
        exact absurd (h.head_lt hhead) (Nat.not_lt.mpr hgt.le)
  · -- A later block sets no mark, and the first block stays the first.
    rw [if_neg hzero, h.marks other n]
    by_cases hother : label = other
    · subst hother
      have hsome : startsOf label log ≠ [] := by
        rintro hnil
        rw [hroutine.compiled, ← hbalanced, hnil] at hzero
        exact hzero rfl
      rw [List.head?_append_of_ne_nil _ hsome]
    · rw [if_neg hother, List.append_nil]

/-- A block may begin while no other one is open. -/
theorem begins (h : Ledger before log none own w) {block : NodeId}
    (hentry : w.entryPoints.get? label = some entry)
    (hmore : (startsOf label log).length < entry.blocks) (hbegins : Begins label entry w w') :
    Ledger before (log ++ [.begins label block w.assembly.instructions.length]) (some label) own
      w' := by
  have hroutine := h.routines label entry hentry
  refine ⟨.concat (h.toLogged.same hbegins.length) (by rintro _ ⟨⟩), fun other n => ?_,
    fun k name hk => ?_, fun other hsome => ?_, fun other entry' hentry' => ?_⟩
  · rw [startsOf_begins]
    exact h.marks_begins hentry hbegins other n
  · have hlengthens : Lengthens (fun _ => True) (fun _ => False) w w' :=
      .ofLength hbegins.later hbegins.length
    obtain ⟨other, entry', hentry', hpointer, hmem⟩ := h.indirect k name (hlengthens.indirect hk)
    refine ⟨other, entry', hentry', hpointer, ?_⟩
    rw [finishesOf_begins]
    exact hmem
  · refine hbegins.changed.get?_ne_none hentry fun hother => ?_
    rw [startsOf_begins, if_neg (Ne.symm hother), List.append_nil] at hsome
    exact h.declared other hsome
  · rw [callsOf_begins, startsOf_begins, finishesOf_begins]
    rcases hbegins.changed.get?_cases hentry hentry' with ⟨rfl, rfl⟩ | ⟨hother, hentry'⟩
    · rw [if_pos rfl, decide_eq_true rfl]
      -- The first block takes the waiting calls, a later one the end of the block before.
      by_cases hnil : startsOf other log = []
      · exact hroutine.begins_first hmore hbegins.length hbegins.targets w.assembly.place?_last hnil
      · refine hroutine.begins_next hmore hbegins.length hbegins.targets w.assembly.place?_last
          hbegins.touches.code h.increasing.nodup_finishesOf (fun k hk hk' => ?_) hnil
        cases h.increasing.unique (mem_callsOf.mp hk) (mem_finishesOf.mp hk') rfl rfl
    · have hclosed : decide (some label = some other) =
          decide ((none : Option String) = some other) := by
        simp [Ne.symm hother]
      rw [if_neg (Ne.symm hother), List.append_nil, hclosed]
      -- No jump of another label has waited for this block.
      exact (h.routines other entry' hentry').same (fun k hk => h.code_of_ne
        (fun _ => h.logged_of_awaited hentry hmore) hother hbegins.touches hk) hbegins.touches.grows

/-- The open block may end. -/
theorem ends (h : Ledger before log (some label) own w)
    (hentry : w.entryPoints.get? label = some entry)
    (hpointer : ∃ entry', before.entryPoints.get? label = some entry' ∧
      entry'.returnPointer = entry.returnPointer)
    (hgrows : Grows P (fun _ => True) jumps w w')
    (hcode : w'.assembly.instructions = w.assembly.instructions ++ [entry.ending])
    (hchanged : w.EntryChanged label (·.ended w.assembly.instructions.length) w') :
    Ledger before (log ++ [.ends label w.assembly.instructions.length]) none own w' := by
  have hlength : w'.assembly.instructions.length = w.assembly.instructions.length + 1 := by
    rw [hcode, List.length_append]
    rfl
  have hkept : ∀ k, k < w.assembly.instructions.length →
      w'.assembly.instructions[k]? = w.assembly.instructions[k]? := by
    intro k hk
    rw [hcode, List.getElem?_append_left hk]
  refine ⟨h.toLogged.ends hlength, fun other n => ?_, fun k name hk => ?_, fun other hsome => ?_,
    fun other entry' hentry' => ?_⟩
  · rw [hgrows.marks, getElem?_append_none, startsOf_ends]
    exact h.marks other n
  · rcases Nat.lt_or_ge k w.assembly.instructions.length with hlt | hge
    · rw [hkept k hlt] at hk
      obtain ⟨other, entry', hentry', hpointer', hmem⟩ := h.indirect k name hk
      refine ⟨other, entry', hentry', hpointer', ?_⟩
      rw [finishesOf_ends]
      exact List.mem_append_left _ hmem
    · -- The new instruction, if it is an indirect jump, goes through the label's own pointer.
      obtain rfl : k = w.assembly.instructions.length := by
        have := (List.getElem?_eq_some_iff.mp hk).1
        omega
      rw [hcode, List.getElem?_concat_length, EntryPoint.ending, Option.some.injEq] at hk
      split at hk
      · obtain ⟨entry', hentry', hsame⟩ := hpointer
        refine ⟨label, entry', hentry', hsame.trans (Instruction.jumpIndirect.inj hk), ?_⟩
        rw [finishesOf_ends, if_pos rfl]
        exact List.mem_append_right _ List.mem_cons_self
      · cases hk
  · rw [startsOf_ends] at hsome
    exact hchanged.get?_ne_none hentry fun _ => h.declared other hsome
  · rw [callsOf_ends, startsOf_ends, finishesOf_ends, hcode]
    rcases hchanged.get?_cases hentry hentry' with ⟨rfl, rfl⟩ | ⟨hother, hentry'⟩
    · have hroutine := h.routines other entry hentry
      rw [decide_eq_true rfl] at hroutine
      rw [if_pos rfl]
      exact hroutine.ends
    · -- The jumps of another label are in the code before, which is kept.
      have hclosed : decide (some label = some other) =
          decide ((none : Option String) = some other) := by
        simp [Ne.symm hother]
      rw [if_neg (Ne.symm hother), List.append_nil, ← hclosed]
      refine (h.routines other entry' hentry').same (fun k hk => ?_) ?_
      · exact List.getElem?_append_left (h.of_mem hk).1
      · rw [List.length_append]
        exact Nat.le_add_right _ _

/-- A call of an event is logged as such. -/
theorem callEvent {target : Option String} (hw : Vocabulary (fun _ => True) t w)
    (h : Ledger before log current own w)
    (hcall : Yields (Generation.callEvent cfg label target) w () w') :
    Ledger before (log ++ [.call label (w.assembly.instructions.length + 3)]) current own w' ∧
      Vocabulary (fun _ => True) t w' := by
  obtain ⟨entry, hentry, hextended, hjump, hchanged⟩ := callEvent_spec (D := fun _ => False) hw
    ⟨fun _ _ _ => trivial, trivial⟩ (fun _ _ => trivial) hcall
  -- First the code is emitted, then the entry point changes.
  have hbesides : Grows (fun _ => True) (fun _ => False) [] w'
      { w' with entryPoints := w.entryPoints } := .besides rfl rfl
  have hemitted : Ledger before log current own { w' with entryPoints := w.entryPoints } :=
    h.grows (hextended.grows.trans hbesides (by simp)) (by simp) rfl fun k hk => Or.inl hk
  refine ⟨hemitted.call hentry hjump (fun a ha k hk => ?_) (fun hmem => ?_) rfl hchanged,
    hextended.vocabulary⟩
  · exact (h.jumps a ha k hk).1.trans_le (Nat.le_add_right _ _)
  · exact absurd (h.own _ hmem) (Nat.not_lt.mpr (Nat.le_add_right _ _))

/-- A block begins, and is called in place before if its value is used. -/
theorem beginEvent {target : Option String} {skip : Option InstructionId} {block : NodeId}
    {w₁ : Workspace} (hw : Vocabulary (fun _ => True) t w) (h : Ledger before log none own w)
    (hcall : (target = none ∧ skip = none ∧ w = w₁) ∨
      ∃ slot jump w₀, target = some slot ∧ skip = some jump ∧
        Yields (Generation.callEvent cfg label (some slot)) w () w₀ ∧
        Yields (Compile.emit (Emit.instruction (.jump .unresolved))) w₀ jump w₁)
    (hbegin : Yields (beginBlock label) w₁ () w')
    (hmore : ∀ entry, w'.entryPoints.get? label = some entry →
      (startsOf label log).length < entry.blocks) :
    Ledger before (log ++ ((if target.isSome then
        [.call label (w.assembly.instructions.length + 3)] else []) ++
          [.begins label block w'.assembly.instructions.length]))
      (some label) (skip.toList ++ own) w' := by
  have hcalled : ∃ log₁, log₁ = log ++ (if target.isSome then
        [.call label (w.assembly.instructions.length + 3)] else []) ∧
      startsOf label log₁ = startsOf label log ∧ Ledger before log₁ none (skip.toList ++ own) w₁ ∧
      Vocabulary (fun _ => True) t w₁ := by
    rcases hcall with ⟨rfl, rfl, rfl⟩ | ⟨slot, jump, w₀, rfl, rfl, hcall, hjump⟩
    · exact ⟨log, (List.append_nil _).symm, rfl, h, hw⟩
    · obtain ⟨hledger, hw₀⟩ := h.callEvent hw hcall
      obtain ⟨rfl, happends⟩ := Appends.jump hjump
      refine ⟨_, rfl, (startsOf_concat _).trans (List.append_nil _), ?_, hw₀.appends happends⟩
      -- The jump over the block belongs to the unit.
      have hgrows : Grows (fun _ => True) (fun _ => False) [] w₀ w₁ :=
        .ofAppends happends (List.forall_mem_singleton.mpr trivial)
      refine hledger.grows hgrows (by simp) happends.entryPoints fun k hk => ?_
      rcases List.mem_cons.mp hk with rfl | hk
      · rw [happends.length_eq]
        exact Or.inr ⟨Nat.le_refl _, Nat.lt_succ_self _⟩
      · exact Or.inl hk
  obtain ⟨log₁, hlog, hstarts, hledger, hw₁⟩ := hcalled
  obtain ⟨entry, hentry, hbegins, -⟩ := beginBlock_spec hw₁ hbegin
  have hblocks : (startsOf label log₁).length < entry.blocks := by
    rw [hstarts]
    refine (hmore _ (hbegins.changed.get? hentry)).trans_eq ?_
    exact entry.begun_blocks _
  rw [← List.append_assoc, ← hlog, hbegins.length]
  exact hledger.begins hentry hblocks hbegins

/-- The block that is open ends, and the code that has jumped over it goes on. -/
theorem endEvent {skip : Option InstructionId} {w₁ : Workspace} {target : JumpTarget}
    (hw : Vocabulary (fun _ => True) t w) (h : Ledger before log (some label) own w)
    (hskip : ∀ k ∈ skip.toList, k ∈ own) (hdeclarations : before.SameDeclarations w)
    (hend : Yields (endBlock cfg label) w () w₁)
    (hpatch : Yields (patchAll target skip.toList) w₁ () w') :
    Ledger before (log ++ [.ends label w.assembly.instructions.length]) none own w' := by
  obtain ⟨entry, hentry, hextended, hcode, hchanged⟩ :=
    endBlock_spec (D := fun _ => True) hw (fun _ _ => trivial) hend
  obtain ⟨entry', hentry', hpointer, -⟩ := hdeclarations.get? hentry
  have hended := h.ends hentry ⟨entry', hentry', hpointer⟩ hextended.grows hcode hchanged
  have hretargets := patchAll_spec hpatch
  exact hended.grows (P := fun _ => True) (.ofRetargets hretargets) hskip hretargets.entryPoints
    fun k hk => Or.inl hk

/-- A step that concerns no event. -/
theorem step_local {u u' : WorkUnit} {p : Progress} (hw : Vocabulary (fun _ => True) t w)
    (h : Ledger before log current (u.task.jumps ++ own) w) (hlocal : u.task.isLocal = true)
    (hstep : Yields (step cfg t u) w (p, u') w') :
    Ledger before log current (u'.task.jumps ++ own) w' := by
  have hconfined := (step_footprint (D := fun _ => False) hw (fun _ _ => trivial) hlocal
    hstep).confined
  refine h.grows hconfined.grows (fun k hk => List.mem_append_left _ hk) hconfined.entryPoints
    fun k hk => ?_
  rcases List.mem_append.mp hk with hk | hk
  · exact (hconfined.jumps k hk).imp_left (List.mem_append_left _)
  · exact Or.inl (List.mem_append_right _ hk)

end Ledger

end Ledgers

/-! ## The log and the stack

Which block is open can be seen from the stack: it is that of the unit that has begun one and not
ended it. With that, a step keeps the ledger (`Chronicle.step_ledger`), and so does a run, by
induction on its turns (`Records.chronicle`). A block can only begin while none is open, since
events are not nested, and no label has more blocks in the log than have been declared for it
(`length_startsOf_le`). -/

/-- The label of the block that a unit has begun and not ended. -/
def WorkUnit.openLabel? (t : Tree) (u : WorkUnit) : Option String :=
  if u.task.isEvent = true ∧ u.step ≠ 0 then t.eventLabel? u.node else none

/-- The label of the block that is open. -/
def currentOf (t : Tree) (stack : List WorkUnit) : Option String :=
  stack.findSome? (·.openLabel? t)

/-- The jumps that the units of a stack have still to give a target. -/
def ownOf (stack : List WorkUnit) : List InstructionId := stack.flatMap (·.task.jumps)

/-- What a run keeps, with its log. -/
structure Chronicle (t : Tree) (before : Workspace) (log : List Incident) (stack : List WorkUnit)
    (w : Workspace) : Prop where
  attended : Attended t before stack w
  walk : Walk t before (log.filterMap Incident.node?) stack
  events : ∀ label block start, .begins label block start ∈ log →
    before.construct? block = some .event ∧ t.eventLabel? block = some label
  ledger : Ledger before log (currentOf t stack) (ownOf stack) w

section Runs

variable {cfg : Setting} {t : Tree} {x : Sexpr} {u u' : WorkUnit} {rest stack stack' : List WorkUnit}
  {before w w' : Workspace} {log : List Incident} {p : Progress} {label : String}

/-- A label has no more blocks in the log than have been declared for it. -/
theorem length_startsOf_le (hresolved : Program.resolved cfg t = .ok before)
    (hnodup : (log.filterMap Incident.node?).Nodup)
    (hevents : ∀ label block start, .begins label block start ∈ log →
      before.construct? block = some .event ∧ t.eventLabel? block = some label) :
    (startsOf label log).length ≤ before.blocksOf label := by
  have hblock : ∀ {i : Incident} {b : NodeId × Nat}, i.block? label = some b →
      i = .begins label b.1 b.2 := by
    intro i b hi
    cases i with
    | begins other block start =>
      obtain ⟨rfl, heq⟩ := Option.ite_none_right_eq_some.mp hi
      rw [← Option.some.inj heq]
    | _ => cases hi
  have hne : (blocksOf label log).Pairwise fun b b' => b.1 ≠ b'.1 := by
    refine List.pairwise_filterMap.mpr ((List.pairwise_filterMap.mp hnodup).imp ?_)
    intro i i' hnodes b hb b' hb'
    rw [hblock hb, hblock hb'] at hnodes
    exact hnodes b.1 rfl b'.1 rfl
  have hblocks : ((blocksOf label log).map Prod.fst).Nodup := List.pairwise_map.mpr hne
  have hids : ∀ id ∈ (blocksOf label log).map Prod.fst,
      before.construct? id = some .event ∧ t.eventLabel? id = some label := by
    intro id hid
    obtain ⟨b, hb, rfl⟩ := List.mem_map.mp hid
    exact hevents label b.1 b.2 (mem_blocksOf.mp hb)
  have hle := Program.length_le_blocksOf hresolved hblocks hids
  rw [startsOf, List.length_map]
  rwa [List.length_map] at hle

theorem node?_incidents (u : WorkUnit) (w w' : Workspace) :
    (u.incidents t w w').filterMap Incident.node? = [] ∨
      (u.incidents t w w').filterMap Incident.node? = [u.node] ∧ u.step = 0 := by
  unfold WorkUnit.incidents
  split
  next =>
    left
    cases (t.tag u.node).text? <;> rfl
  next =>
    split
    next => exact Or.inl rfl
    next =>
      split
      next hzero =>
        refine Or.inr ⟨?_, hzero⟩
        split <;> rfl
      next => exact Or.inl rfl
  next => exact Or.inl rfl

theorem mem_incidents {block : NodeId} {start : Nat}
    (h : .begins label block start ∈ u.incidents t w w') :
    u.task.isEvent = true ∧ block = u.node ∧ t.eventLabel? u.node = some label := by
  unfold WorkUnit.incidents at h
  split at h
  next =>
    cases htext : (t.tag u.node).text? <;> simp [htext] at h
  next htask =>
    split at h
    next => cases h
    next other hother =>
      rw [htask]
      split at h
      next =>
        rcases List.mem_append.mp h with h | h
        · split at h <;> simp at h
        · obtain ⟨rfl, rfl, -⟩ := Incident.begins.inj (List.mem_singleton.mp h)
          exact ⟨rfl, rfl, hother⟩
      next => simp at h
  next => cases h

/-- The blocks of the log stay those of events. -/
theorem events_incidents (h : ∀ label block start, .begins label block start ∈ log →
      before.construct? block = some .event ∧ t.eventLabel? block = some label)
    (hu : u.task.isEvent = true → before.construct? u.node = some .event) (label : String)
    (block : NodeId) (start : Nat) (hmem : .begins label block start ∈ log ++ u.incidents t w w') :
    before.construct? block = some .event ∧ t.eventLabel? block = some label := by
  rcases List.mem_append.mp hmem with hmem | hmem
  · exact h label block start hmem
  · obtain ⟨hevent, rfl, hlabel⟩ := mem_incidents hmem
    exact ⟨hu hevent, hlabel⟩

/-- What a turn of the loop makes of the stack. -/
theorem Generation.Move.stack_cases (h : Move cfg t (u :: rest) w stack' w') :
    ∃ p u', Yields (step cfg t u) w (p, u') w' ∧
      (∀ k ∈ ownOf stack', k ∈ u'.task.jumps ++ ownOf rest) ∧
      currentOf t stack' =
        if p = .done then currentOf t rest else (u'.openLabel? t).or (currentOf t rest) := by
  cases h with
  | @done _ u' _ _ _ hstep =>
    exact ⟨_, u', hstep, fun k hk => List.mem_append_right _ hk, (if_pos rfl).symm⟩
  | @again _ u' _ _ _ hstep =>
    refine ⟨_, u', hstep, fun k hk => hk, ?_⟩
    rw [currentOf, List.findSome?_cons]
    cases u'.openLabel? t <;> rfl
  | @descend _ u' next _ _ _ _ _ _ hstep hstart =>
    obtain ⟨rfl, construct, -, rfl⟩ := start_cases hstart
    refine ⟨_, u', hstep, fun k hk => ?_, ?_⟩
    · have hnone : (Task.ofConstruct construct).jumps = [] := by cases construct <;> rfl
      rwa [ownOf, List.flatMap_cons, hnone] at hk
    · rw [currentOf, List.findSome?_cons, List.findSome?_cons, WorkUnit.openLabel?,
        if_neg (by simp)]
      cases u'.openLabel? t <;> rfl

theorem openLabel?_of_not_isEvent (h : u.task.isEvent = false) : u.openLabel? t = none :=
  if_neg fun hopen => Bool.false_ne_true (h.symm.trans hopen.1)

theorem currentOf_cons (u : WorkUnit) (rest : List WorkUnit) :
    currentOf t (u :: rest) = (u.openLabel? t).or (currentOf t rest) := by
  rw [currentOf, List.findSome?_cons]
  cases u.openLabel? t <;> rfl

theorem currentOf_eq_none (h : ∀ v ∈ rest, v.task.isEvent = false) : currentOf t rest = none :=
  List.findSome?_eq_none_iff.mpr fun v hv => openLabel?_of_not_isEvent (h v hv)

theorem incidents_of_isLocal (h : u.task.isLocal = true) : u.incidents t w w' = [] := by
  unfold WorkUnit.incidents
  split
  next htask => rw [htask] at h; cases h
  next htask => rw [htask] at h; cases h
  next => rfl

theorem incidents_begin (hevent : u.task.isEvent = true) (hlabel : t.eventLabel? u.node = some label)
    (hzero : u.step = 0) : u.incidents t w w' = (if u.target.isSome then
      [.call label (w.assembly.instructions.length + 3)] else []) ++
        [.begins label u.node w'.assembly.instructions.length] := by
  cases htask : u.task with
  | event skip =>
    simp only [WorkUnit.incidents, htask, hlabel]
    exact if_pos hzero
  | _ =>
    rw [htask] at hevent
    cases hevent

theorem incidents_end {label : String} {skip : Option InstructionId}
    (hlabel : t.eventLabel? node = some label) (hne : n ≠ 0) :
    WorkUnit.incidents t ⟨node, target, n, temps, .event skip⟩ w w' =
      [.ends label w.assembly.instructions.length] := by
  rw [WorkUnit.incidents, hlabel]
  exact if_neg hne

theorem incidents_call {label : String} (hlabel : (t.tag node).text? = some label) :
    WorkUnit.incidents t ⟨node, target, n, temps, .callEvent⟩ w w' =
      [.call label (w.assembly.instructions.length + 3)] := by
  rw [WorkUnit.incidents, hlabel]
  rfl

theorem openLabel?_event {label : String} {skip : Option InstructionId}
    (hlabel : t.eventLabel? node = some label) (hne : n ≠ 0) :
    WorkUnit.openLabel? t ⟨node, target, n, temps, .event skip⟩ = some label :=
  (if_pos ⟨rfl, hne⟩).trans hlabel

theorem blocksOf_begin (hevent : u.task.isEvent = true) (hlabel : t.eventLabel? u.node = some label)
    (hzero : u.step = 0) (other : String) : blocksOf other (log ++ u.incidents t w w') =
      blocksOf other log ++
        if label = other then [(u.node, w'.assembly.instructions.length)] else [] := by
  have hcalled : blocksOf other (log ++ if u.target.isSome then
      [.call label (w.assembly.instructions.length + 3)] else []) = blocksOf other log := by
    split
    · exact (blocksOf_concat _).trans (List.append_nil _)
    · rw [List.append_nil]
  rw [incidents_begin hevent hlabel hzero, ← List.append_assoc, blocksOf_concat, hcalled,
    Incident.block?]
  split <;> rfl

theorem startsOf_begin (hevent : u.task.isEvent = true) (hlabel : t.eventLabel? u.node = some label)
    (hzero : u.step = 0) : startsOf label (log ++ u.incidents t w w') =
      startsOf label log ++ [w'.assembly.instructions.length] := by
  rw [startsOf, blocksOf_begin hevent hlabel hzero, if_pos rfl, List.map_append]
  rfl

/-- A step keeps the ledger: a block begins only while none is open. -/
theorem Chronicle.step_ledger (ht : t.Holds x) (hprepared : Prepared cfg t before)
    (hasm : t.NoInlineAsm) (hnested : t.NoNestedEvents) (h : Chronicle t before log (u :: rest) w)
    (hstep : Yields (step cfg t u) w (p, u') w')
    (hmore : ∀ label entry, t.eventLabel? u.node = some label → u.task.isEvent = true →
      u.step = 0 → w'.entryPoints.get? label = some entry →
        (startsOf label log).length < entry.blocks) :
    Ledger before (log ++ u.incidents t w w')
      (if p = .done then currentOf t rest else (u'.openLabel? t).or (currentOf t rest))
      (u'.task.jumps ++ ownOf rest) w' := by
  have hw := h.attended.vocabulary
  have hledger := h.ledger
  rw [currentOf_cons, ownOf, List.flatMap_cons] at hledger
  by_cases hlocal : u.task.isLocal = true
  · -- A unit that is no event is not one after the step either.
    have hplain : u.task.isEvent = false := by
      cases htask : u.task <;> rw [htask] at hlocal <;> first | rfl | cases hlocal
    have hplain' : u'.task.isEvent = false := by
      rw [← Task.isEvent_initial, (step_counts hstep).2.2.1, Task.isEvent_initial]
      exact hplain
    rw [openLabel?_of_not_isEvent hplain, Option.none_or] at hledger
    rw [openLabel?_of_not_isEvent hplain', Option.none_or, ite_self, incidents_of_isLocal hlocal,
      List.append_nil]
    exact hledger.step_local hw hlocal hstep
  obtain ⟨-, construct, hconstruct, hinitial⟩ := h.walk.units u List.mem_cons_self
  have hbelow := h.walk.not_isEvent_below ht hprepared hnested
  have hdeclarations := h.attended.declarations
  have hevent := h.walk.construct_of_isEvent (u := u) List.mem_cons_self
  obtain ⟨node, target, n, temps, task⟩ := u
  cases task with
  | inlineAsm =>
    cases construct with
    | inlineAsm => exact absurd hconstruct (hasm.not_inlineAsm hprepared)
    | _ => cases hinitial
  | callEvent =>
    obtain ⟨label, hlabel, hcall, rfl, rfl⟩ := step_callEvent_cases hstep
    rw [incidents_call hlabel, if_pos rfl]
    exact (hledger.callEvent hw hcall).1
  | event skip =>
    obtain ⟨first, label, hfirst, hlabel, hcases⟩ := stepEvent_cases hstep
    have hlabel' : t.eventLabel? node = some label :=
      Tree.eventLabel?_eq_some (hprepared.isEvent (hevent rfl)) hfirst hlabel
    -- Blocks are not nested, so no other one is open around this one.
    have hnone : currentOf t rest = none := currentOf_eq_none (hbelow rfl)
    rcases hcases with ⟨rfl, skip', body, w₁, hcall, hbegin, -, rfl, rfl⟩ |
      ⟨hne, rfl, rfl, w₁, hend, hpatch⟩
    · have hgoes : Progress.descend body (some Catalog.returnValue) ≠ .done := (by simp)
      rw [incidents_begin rfl hlabel' rfl, if_neg hgoes,
        openLabel?_event hlabel' (Nat.succ_ne_zero 0), Option.some_or]
      rw [hnone, WorkUnit.openLabel?, if_neg (by simp)] at hledger
      have hbelow' : Ledger before log none (ownOf rest) w :=
        hledger.mono fun k hk => List.mem_append_right _ hk
      exact hbelow'.beginEvent hw hcall hbegin fun entry hentry =>
        hmore label entry hlabel' rfl rfl hentry
    · rw [incidents_end hlabel' hne, if_pos rfl, hnone]
      rw [openLabel?_event hlabel' hne, Option.some_or] at hledger
      exact hledger.endEvent hw (fun k hk => List.mem_append_left _ hk) hdeclarations hend hpatch
  | _ => exact absurd rfl hlocal

/-- A turn of the loop keeps the log in step. -/
theorem Chronicle.move (ht : t.Holds x) (hresolved : Program.resolved cfg t = .ok before)
    (hasm : t.NoInlineAsm) (hnested : t.NoNestedEvents)
    (h : Chronicle t before log (u :: rest) w) (hmove : Move cfg t (u :: rest) w stack' w') :
    Chronicle t before (log ++ u.incidents t w w') stack' w' := by
  have hprepared := Program.resolved_prepared hresolved
  have hattended := h.attended.move hmove
  have hwalk : Walk t before ((log ++ u.incidents t w w').filterMap Incident.node?) stack' := by
    rw [List.filterMap_append]
    exact h.walk.move ht hmove hattended.later.findings (node?_incidents u w w')
  have hevents : ∀ label block start, .begins label block start ∈ log ++ u.incidents t w w' →
      before.construct? block = some .event ∧ t.eventLabel? block = some label :=
    events_incidents h.events (h.walk.construct_of_isEvent List.mem_cons_self)
  refine ⟨hattended, hwalk, hevents, ?_⟩
  obtain ⟨p, u', hstep, hown, hcurrent⟩ := hmove.stack_cases
  have hledger := h.step_ledger ht hprepared hasm hnested hstep fun label entry hlabel hevent hzero
      hentry => by
    -- The block that begins is one of those that have been declared.
    have hle : (startsOf label _).length ≤ _ :=
      length_startsOf_le hresolved (hwalk.increasing.imp Nat.ne_of_lt) hevents
    obtain ⟨entry', hentry', -, hblocks⟩ := hattended.declarations.get? hentry
    rw [startsOf_begin hevent hlabel hzero, List.length_append, Workspace.blocksOf, hentry'] at hle
    rw [← hblocks]
    exact hle
  rw [hcurrent]
  exact hledger.mono hown

/-- The log of a run stays in step to its end. -/
theorem Records.chronicle (ht : t.Holds x) (hresolved : Program.resolved cfg t = .ok before)
    (hasm : t.NoInlineAsm) (hnested : t.NoNestedEvents) {log' : List Incident}
    (h : Records cfg t stack w log' stack' w') (hstart : Chronicle t before log stack w) :
    Chronicle t before (log ++ log') stack' w' :=
  h.keeps (fun hlog hmove => hlog.move ht hresolved hasm hnested hmove) hstart

/-- Before anything is generated, nothing has happened. -/
theorem Resolution.Prepared.ledger (h : Prepared cfg t before) : Ledger before [] none [] before := by
  have hcode := h.unstarted.instructions_eq_nil
  have hmarks := h.unstarted.marks_eq
  refine ⟨⟨.nil, by simp, by simp⟩, fun label n => ?_, fun k name hk => ?_,
    fun label hsome => absurd rfl hsome, fun label entry hentry => ?_⟩
  · rw [hmarks]
    refine iff_of_false (fun hmark => ?_) (by rintro ⟨⟩)
    cases n <;> simp at hmark
  · rw [hcode] at hk
    cases hk
  · obtain ⟨hcompiled, hstart, hchain, hlanding, -⟩ := h.unstarted.entryPoints label entry hentry
    exact ⟨hcompiled, rfl, Nat.zero_le _, by rw [hstart]; rfl, fun _ => hlanding,
      fun _ _ => hchain, by rintro _ ⟨⟩, by rintro _ _ ⟨⟩, by rintro _ _ ⟨⟩, by rintro _ ⟨⟩,
      by rintro _ _ _ ⟨⟩, by rintro _ _ _ ⟨⟩⟩

theorem Resolution.Prepared.chronicle (h : Prepared cfg t before) (ht : t.Holds x)
    (hstart : Yields (start t Tree.root none) before u before) :
    Chronicle t before [] [u] before := by
  refine ⟨h.attended hstart, Walk.start ht hstart, by simp, ?_⟩
  obtain ⟨-, construct, -, rfl⟩ := start_cases hstart
  have hcurrent : currentOf t [⟨Tree.root, none, 0, [], .ofConstruct construct⟩] = none := by
    rw [currentOf_cons, WorkUnit.openLabel?, if_neg (by simp)]
    rfl
  have hown : ownOf [⟨Tree.root, none, 0, [], .ofConstruct construct⟩] = [] := by
    cases construct <;> rfl
  rw [hcurrent, hown]
  exact h.ledger

end Runs

/-! ## Programs

At the end the stack is empty, so the ledger speaks of whole routines, and no jump waits, as the
program was assembled. What is left is to read off what it says of labels and jumps. -/

/-- What stands at one place of a list only counts once. -/
theorem count_filterMap_eq_one {α : Type} {f : α → Option String} {items : List α} {a : String}
    {m : Nat} (h : ∀ n, items[n]?.bind f = some a ↔ n = m) : (items.filterMap f).count a = 1 := by
  induction items generalizing m with
  | nil => cases (h m).mpr rfl
  | cons item items ih =>
    cases m with
    | zero =>
      have hitem : f item = some a := (h 0).mpr rfl
      rw [List.filterMap_cons_some hitem, List.count_cons_self, List.count_eq_zero.mpr]
      intro hmem
      obtain ⟨other, hother, heq⟩ := List.mem_filterMap.mp hmem
      obtain ⟨n, hn⟩ := List.mem_iff_getElem?.mp hother
      have hplace := (h (n + 1)).mp (by rw [List.getElem?_cons_succ, hn]; exact heq)
      cases hplace
    | succ m =>
      have hitem : f item ≠ some a := fun heq => Nat.succ_ne_zero m ((h 0).mp heq).symm
      have hrest := ih (m := m) fun n => (h (n + 1)).trans Nat.succ_inj
      cases heq : f item with
      | none => rw [List.filterMap_cons_none heq, hrest]
      | some b =>
        rw [List.filterMap_cons_some heq, List.count_cons_of_ne, hrest]
        rintro rfl
        exact hitem heq

variable {cfg : Setting} {source : String} {p : Program} {t : Tree} {before after : Workspace}
  {log : List Incident} {label : String}

/-- At the end, the lines with labels are those where first blocks begin. -/
theorem Ledger.label_iff (h : Ledger before log none [] after) (n : Nat) :
    after.assembly.lines[n]?.bind (·.label) = some label ↔
      (startsOf label log).head? = some n := by
  rw [← h.marks label n]
  constructor
  · intro hlabel
    obtain ⟨line, hline, -⟩ := Option.bind_eq_some_iff.mp hlabel
    rw [after.assembly.getElem?_marks (Array.getElem?_eq_some_iff.mp hline).1, hlabel]
  · intro hmark
    have hlt := h.head_lt ((h.marks label n).mp hmark)
    rw [Assembly.length_instructions] at hlt
    rw [after.assembly.getElem?_marks hlt] at hmark
    exact Option.some.inj hmark

theorem Program.Stages.no_unresolved (h : Program.Stages cfg source p t before after) :
    .jump .unresolved ∉ after.assembly.instructions := by
  intro hmem
  obtain ⟨line, hline, heq⟩ := List.mem_map.mp hmem
  have htarget : line.instruction.target? = some .unresolved := by
    rw [heq]
    rfl
  obtain ⟨address, haddress⟩ := h.addresses hline htarget
  cases haddress

/-- In a program that compiles, without inline assembly and without blocks of events inside others,
the blocks of each label that are compiled are all that are declared for it, and make one routine.
Its label is exported once, where its first block begins; the slots of return addresses of different
labels are different. -/
theorem Program.compile_merges (h : Program.compile cfg source = .ok p) :
    ∃ t before after first log, Program.Stages cfg source p t before after ∧
      Yields (start t Tree.root none) before first before ∧
      Records cfg t [first] before log [] after ∧
      (t.NoInlineAsm → t.NoNestedEvents →
        (∀ label n, after.assembly.lines[n]?.bind (·.label) = some label ↔
          (startsOf label log).head? = some n) ∧
        (∀ label, startsOf label log ≠ [] → p.entryPoints.count label = 1 ∧
          ∃ entry, before.entryPoints.get? label = some entry ∧
            Merged after.assembly.instructions entry.blocks entry.returnPointer (callsOf label log)
              (startsOf label log) (finishesOf label log)) ∧
        ∀ label label' entry entry', before.entryPoints.get? label = some entry →
          before.entryPoints.get? label' = some entry' → label ≠ label' →
          entry.returnPointer ≠ entry'.returnPointer) := by
  obtain ⟨t, before, after, hstages⟩ := Program.compile_stages h
  obtain ⟨x, -, hholds⟩ := Tree.read?_ok (Tree.read_eq_ok_iff.mp hstages.read)
  obtain ⟨first, hstart, hend⟩ := generate_cases hholds hstages.generated
  obtain ⟨log, hrecords⟩ := hend.records
  refine ⟨t, before, after, first, log, hstages, hstart, hrecords, fun hasm hnested => ?_⟩
  have hprepared := Program.resolved_prepared hstages.resolved
  have hpointers := hprepared.unstarted.pointers
  have hlast := hrecords.chronicle hholds hstages.resolved hasm hnested
    (hprepared.chronicle hholds hstart)
  have hledger : Ledger before log none [] after := hlast.ledger
  refine ⟨fun label n => hledger.label_iff n, fun label hsome => ⟨?_, ?_⟩,
    fun label label' entry entry' hentry hentry' hne heq =>
      hne (hpointers label label' entry entry' hentry hentry' heq)⟩
  · rw [hstages.entryPoints]
    refine count_filterMap_eq_one (m := (startsOf label log).head hsome) fun n => ?_
    rw [Array.getElem?_toList, hledger.label_iff n, List.head?_eq_some_head hsome,
      Option.some.injEq, eq_comm]
  · obtain ⟨entry', hentry'⟩ := Option.ne_none_iff_exists'.mp (hledger.declared label hsome)
    obtain ⟨entry, hentry, hpointer, hblocks⟩ := hlast.attended.declarations.get? hentry'
    refine ⟨entry, hentry, ?_⟩
    rw [hpointer, hblocks]
    refine (hledger.routines label entry' hentry').merged hsome hstages.no_unresolved fun k hk => ?_
    -- Of all labels, only this one has this slot.
    obtain ⟨other, found, hfound, hsame, hmem⟩ := hledger.indirect k _ hk
    rw [hpointers label other entry found hentry hfound (hpointer.trans hsame.symm)]
    exact hmem

/-- A call that comes before two blocks of its event, which make one routine. -/
theorem Program.compile_merges_two :
    ∃ p t before after first log entry,
      Program.compile ⟨Catalog.empty, true⟩ "((_a),when(_a,1),when(_a,2))" = .ok p ∧
      Program.Stages ⟨Catalog.empty, true⟩ "((_a),when(_a,1),when(_a,2))" p t before after ∧
      Records ⟨Catalog.empty, true⟩ t [first] before log [] after ∧ p.entryPoints = ["_a"] ∧
      before.entryPoints.get? "_a" = some entry ∧ entry.blocks = 2 ∧
      Merged after.assembly.instructions entry.blocks entry.returnPointer (callsOf "_a" log)
        (startsOf "_a" log) (finishesOf "_a" log) := by
  have hok : (Program.compile ⟨Catalog.empty, true⟩
      "((_a),when(_a,1),when(_a,2))").toOption.map (·.entryPoints) = some ["_a"] := by
    decide +kernel
  obtain ⟨p, hp, hentries⟩ := exists_ok_of_map hok
  obtain ⟨t, before, after, first, log, hstages, -, hrecords, hmerges⟩ :=
    Program.compile_merges hp
  have htree : (Tree.read "((_a),when(_a,1),when(_a,2))").toOption.all fun t =>
      decide (t.NoInlineAsm ∧ t.NoNestedEvents) && (Program.resolved ⟨Catalog.empty, true⟩
        t).toOption.all fun w => (w.entryPoints.get? "_a").map (·.blocks) == some 2 := by
    decide +kernel
  rw [hstages.read, Except.toOption, Option.all_some, hstages.resolved, Except.toOption,
    Option.all_some, Bool.and_eq_true, decide_eq_true_iff, beq_iff_eq] at htree
  obtain ⟨⟨hasm, hnested⟩, hblocks⟩ := htree
  obtain ⟨hlabels, hroutines, -⟩ := hmerges hasm hnested
  have hsome : startsOf "_a" log ≠ [] := by
    -- The label is exported, so its first block begins somewhere.
    have hmem : "_a" ∈ after.assembly.lines.toList.filterMap (·.label) := by
      rw [← hstages.entryPoints, hentries]
      exact List.mem_singleton_self _
    obtain ⟨line, hline, hlabel⟩ := List.mem_filterMap.mp hmem
    obtain ⟨n, hn⟩ := List.mem_iff_getElem?.mp hline
    rw [Array.getElem?_toList] at hn
    have hhead := (hlabels "_a" n).mp (by rw [hn]; exact hlabel)
    rintro hnil
    rw [hnil] at hhead
    cases hhead
  obtain ⟨-, entry, hentry, hmerged⟩ := hroutines "_a" hsome
  rw [hentry, Option.map_some, Option.some.injEq] at hblocks
  exact ⟨p, t, before, after, first, log, entry, hp, hstages, hrecords, hentries, hentry, hblocks,
    hmerged⟩

end SexprAsm
