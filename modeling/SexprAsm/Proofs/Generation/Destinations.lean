import SexprAsm.Proofs.Generation.Courses
import SexprAsm.Proofs.Generation.Merging
import SexprAsm.Proofs.Generation.Once
import SexprAsm.Proofs.Generation.Recursion

/-!
# Which jumps have a destination

When a run has come to its end, all its units have given their jumps a target. What may be left are
jumps of calls of an event, and jumps from one of its blocks to the next. They are followed through
the run by the log of what happens to events: every label keeps to its `Course` (`Account`).

So a program is assembled just if every label that is called has a block, and of every label that
has one all declared blocks have been compiled, each after the end of the one before
(`Program.assembled_iff`). Resolution counts blocks that are never compiled: those in the place of
a name are an example.
-/

namespace SexprAsm

open Generation Workspace Resolution

/-! ## Blocks one after the other

Blocks may stand inside others here, even inside one of their own label. Whether those of a label
follow one another is a question about the log (`Apart`), and one more incident decides it at its
end. -/

/-- The blocks of a label follow one another: where one begins, all those before it have ended. -/
def Apart (label : String) (log : List Incident) : Prop :=
  ∀ earlier block start later, log = earlier ++ .begins label block start :: later →
    (startsOf label earlier).length = (finishesOf label earlier).length

section Logs

variable {label : String} {log : List Incident}

theorem apart_nil : Apart label [] := by
  intro earlier block start later h
  cases earlier <;> cases h

theorem apart_concat {i : Incident} :
    Apart label (log ++ [i]) ↔ Apart label log ∧ (i.block? label ≠ none →
      (startsOf label log).length = (finishesOf label log).length) := by
  constructor
  · refine fun h => ⟨fun earlier block start later hlog => ?_, fun hi => ?_⟩
    · refine h earlier block start (later ++ [i]) ?_
      rw [hlog, List.append_assoc]
      rfl
    · cases i with
      | begins other block start =>
        obtain rfl : other = label := by
          by_contra hne
          exact hi (if_neg hne)
        exact h log block start [] rfl
      | _ => exact absurd rfl hi
  · rintro ⟨h, hi⟩ earlier block start later hlog
    rcases List.eq_nil_or_concat later with rfl | ⟨later, last, rfl⟩
    · obtain ⟨rfl, heq⟩ := List.append_inj' hlog rfl
      obtain rfl := List.head_eq_of_cons_eq heq
      refine hi ?_
      rw [Incident.block?, if_pos rfl]
      rintro ⟨⟩
    · refine h earlier block start later ?_
      rw [List.concat_eq_append, ← List.cons_append, ← List.append_assoc] at hlog
      exact (List.append_inj' hlog rfl).1

theorem apart_concat_of_none {i : Incident} (hi : i.block? label = none) :
    Apart label (log ++ [i]) = Apart label log := by
  rw [apart_concat]
  exact propext ⟨And.left, fun h => ⟨h, fun hne => absurd hi hne⟩⟩

end Logs

/-! ## Calls

The only code of an event that jumps forward into what is not there yet is its call. All else of
it has its target at once (`Settles`). -/

/-- The code of a call goes to places in the code, but for its jump, which may wait. -/
theorem callEvent_settles {cfg : Setting} {t : Tree} {label : String} {target : Option String}
    {w w' : Workspace} (hw : Vocabulary (fun _ => True) t w)
    (hstart : ∀ entry, w.entryPoints.get? label = some entry → ∀ start ∈ entry.bodyStart,
      start.Sited w.assembly.instructions.length)
    (h : Yields (callEvent cfg label target) w () w') :
    Settles t [] [w.assembly.instructions.length + 3] w w' := by
  obtain ⟨entry, id, w₁, jump, w₂, w₃, id', w₄, hentry, hoffset, hjump, hcopy, hresult⟩ :=
    callEvent_cases h
  obtain ⟨a, hstore, rfl⟩ := Compile.emit_iff.mp hoffset
  obtain ⟨-, slot, -, hemits, -⟩ := Emit.copyOffset_spec hstore hw.sound
  have happends := Appends.ofEmits hemits
  have h₁ : Settles t [] [] w { w with assembly := a } := by
    refine .emits hw happends ?_
    simp only [List.forall_mem_cons]
    exact ⟨.ofNone rfl, .ofNone rfl, .ofNone rfl, by simp⟩
  have h₃ : Settles t [] [w.assembly.instructions.length + 3] { w with assembly := a } w₃ := by
    rcases hjump with ⟨start, hbody, hjump, rfl⟩ | ⟨-, hjump, hmodify⟩
    · have hsited := (hstart entry hentry start hbody).mono h₁.grows
      exact (Settles.jumpsTo h₁.vocabulary [] hsited hjump).1.mono (by simp)
    · obtain ⟨hemitted, -⟩ := Settles.owes h₁.vocabulary [] hjump
      obtain ⟨rfl, -⟩ := Appends.jump hjump
      have hlength : a.instructions.length = w.assembly.instructions.length + 3 :=
        happends.length_eq
      have hnoted : Extended (fun _ => True) (fun _ => True) t [] w₂ w₃ :=
        .modifyEntry hemitted.vocabulary hmodify
      rw [← hlength]
      refine hemitted.trans (.besides hnoted.vocabulary ?_)
      obtain rfl := Yields.modify_iff.mp hmodify
      rfl
  have h₄ := (h₁.trans h₃).trans (.copies h₃.vocabulary hcopy)
  rcases hresult with ⟨-, rfl⟩ | ⟨slot', last, -, hresult⟩
  · exact h₄
  · exact h₄.trans (.copies h₄.vocabulary hresult)

/-! ## The log and the targets

`Account` is the invariant: a jump either has its target in the code, or it belongs to a unit of
the stack, or it is one of a routine that waits for a block. The lemmas follow what a step can do
to a routine, as for the ledger of events that are not nested, but ask for less: only for which
jumps wait. -/

/-- How the code and the entry points agree with the log, while some blocks are open and some jumps
belong to the units of the stack. Every jump has a target in the code, belongs to a unit or has been
logged. -/
structure Account (log : List Incident) (opened : String → Nat) (held : List InstructionId)
    (w : Workspace) : Prop extends Logged log held w where
  sited : ∀ k i, w.assembly.instructions[k]? = some i →
    i.Sited w.assembly.instructions.length ∨ k ∈ held ∨ ∃ a ∈ log, k ∈ a.jump?
  declared : ∀ a ∈ log, w.entryPoints.get? a.label ≠ none
  courses : ∀ label entry, w.entryPoints.get? label = some entry →
    Course w.assembly.instructions entry (opened label) (Apart label log) (callsOf label log)
      (startsOf label log) (finishesOf label log)

namespace Account

variable {cfg : Setting} {t : Tree} {w w' : Workspace} {log : List Incident}
  {opened : String → Nat} {own jumps jumps' : List InstructionId} {label : String}
  {entry : EntryPoint} {u u' : WorkUnit} {p : Progress}

/-- What concerns no routine: new code, and targets for the jumps of a unit. -/
theorem settles (h : Account log opened (jumps ++ own) w) (hsettles : Settles t jumps jumps' w w')
    (htouches : Touches jumps w w') (hentries : w'.entryPoints = w.entryPoints)
    (hjumps : ∀ k ∈ jumps', k ∈ jumps ∨
      w.assembly.instructions.length ≤ k ∧ k < w'.assembly.instructions.length) :
    Account log opened (jumps' ++ own) w' := by
  refine ⟨h.toLogged.grows hsettles.grows fun k hk => ?_, fun k i hi => ?_, ?_,
    fun label entry hentry => ?_⟩
  · rcases List.mem_append.mp hk with hk | hk
    · exact (hjumps k hk).imp_left (List.mem_append_left _)
    · exact Or.inl (List.mem_append_right _ hk)
  · rcases hsettles.settled k i hi with hsited | howed | ⟨hnot, hi⟩
    · exact Or.inl hsited
    · exact Or.inr (Or.inl (List.mem_append_left _ howed))
    · rcases h.sited k i hi with hsited | hown | hlogged
      · exact Or.inl (hsited.mono hsettles.grows)
      · rcases List.mem_append.mp hown with hown | hown
        · exact absurd hown hnot
        · exact Or.inr (Or.inl (List.mem_append_right _ hown))
      · exact Or.inr (Or.inr hlogged)
  · rw [hentries]
    exact h.declared
  · rw [hentries] at hentry
    refine (h.courses label entry hentry).same (fun k hk => ?_) hsettles.grows
    obtain ⟨hlt, hnot⟩ := h.of_mem hk
    exact htouches.code k hlt fun hmem => hnot (List.mem_append_left _ hmem)

/-- A change of the entry point of a label leaves all labels of the log with theirs. -/
theorem declared_changed (h : Account log opened own w) {f : EntryPoint → EntryPoint}
    {i a : Incident} (ha : a ∈ log ++ [i]) (hlabel : i.label = label)
    (hchanged : w.EntryChanged label f w') (hentry : w.entryPoints.get? label = some entry) :
    w'.entryPoints.get? a.label ≠ none := by
  refine hchanged.get?_ne_none hentry fun hne => ?_
  rcases List.mem_append.mp ha with ha | ha
  · exact h.declared a ha
  · rw [List.mem_singleton.mp ha] at hne
    exact absurd hlabel hne

/-- A call of an event is logged as such. -/
theorem callEvent {target : Option String} (hw : Vocabulary (fun _ => True) t w)
    (h : Account log opened own w)
    (hcall : Yields (Generation.callEvent cfg label target) w () w') :
    Account (log ++ [.call label (w.assembly.instructions.length + 3)]) opened own w' ∧
      Vocabulary (fun _ => True) t w' := by
  have hsettles := callEvent_settles hw (fun entry hentry => (h.courses label entry hentry).start)
    hcall
  obtain ⟨entry, hentry, hextended, hjump, hchanged⟩ := callEvent_spec (D := fun _ => False) hw
    ⟨fun _ _ _ => trivial, trivial⟩ (fun _ _ => trivial) hcall
  have hlt := (List.getElem?_eq_some_iff.mp hjump).1
  have hkept : ∀ other k, k ∈ callsOf other log ∨ k ∈ finishesOf other log →
      w'.assembly.instructions[k]? = w.assembly.instructions[k]? :=
    fun other k hk => hextended.grows.touches.code k (h.of_mem hk).1 List.not_mem_nil
  refine ⟨⟨.concat (h.toLogged.grows hsettles.grows fun k hk => Or.inl hk) fun k hk => ?_,
    fun k i hi => ?_, fun a ha => ?_, fun other entry' hentry' => ?_⟩, hextended.vocabulary⟩
  · rw [← Option.some.inj hk]
    refine ⟨fun a ha k' hk' => ?_, hlt, fun hmem => ?_⟩
    · exact (h.jumps a ha k' hk').1.trans_le (Nat.le_add_right _ _)
    · exact absurd (h.own _ hmem) (Nat.not_lt.mpr (Nat.le_add_right _ _))
  · rcases hsettles.settled k i hi with hsited | howed | ⟨-, hi⟩
    · exact Or.inl hsited
    · rw [List.mem_singleton.mp howed]
      exact Or.inr (Or.inr ⟨_, List.mem_append_right _ List.mem_cons_self, rfl⟩)
    · rcases h.sited k i hi with hsited | hown | ⟨a, ha, hk⟩
      · exact Or.inl (hsited.mono hsettles.grows)
      · exact Or.inr (Or.inl hown)
      · exact Or.inr (Or.inr ⟨a, List.mem_append_left _ ha, hk⟩)
  · exact h.declared_changed ha rfl hchanged hentry
  · rw [apart_concat_of_none rfl, callsOf_concat, startsOf_concat, finishesOf_concat]
    simp only [Incident.block?, Incident.finish?, Incident.call?, Option.map_none,
      Option.toList_none, List.append_nil]
    rcases hchanged.get?_cases hentry hentry' with ⟨rfl, rfl⟩ | ⟨hne, hentry'⟩
    · rw [if_pos rfl]
      exact ((h.courses other entry hentry).same (hkept other) hsettles.grows).call hjump
    · rw [if_neg (Ne.symm hne), Option.toList_none, List.append_nil]
      exact (h.courses other entry' hentry').same (hkept other) hsettles.grows

/-- A block begins. -/
theorem begins (h : Account log opened own w) {block : NodeId}
    (hentry : w.entryPoints.get? label = some entry)
    (hmore : (startsOf label log).length < entry.blocks) (hbegins : Begins label entry w w') :
    Account (log ++ [.begins label block w.assembly.instructions.length])
      (fun other => opened other + if other = label then 1 else 0) own w' := by
  have hcourse := h.courses label entry hentry
  -- The jumps that have waited for the block have been logged for its label.
  have hlogged : ∀ k ∈ entry.awaited, .call label k ∈ log ∨ .ends label k ∈ log := by
    intro k hk
    unfold EntryPoint.awaited at hk
    split at hk
    · rw [hcourse.landing] at hk
      split at hk
      · exact Or.inl (mem_callsOf.mp hk)
      · cases hk
    · exact Or.inr (mem_finishesOf.mp (hcourse.chain k (Option.mem_toList.mp hk)).1)
  refine ⟨.concat (h.toLogged.same hbegins.length) (by rintro _ ⟨⟩), fun k i hi => ?_,
    fun a ha => ?_, fun other entry' hentry' => ?_⟩
  · by_cases hk : k ∈ entry.awaited
    · right; right
      rcases hlogged k hk with hlog | hlog
      · exact ⟨_, List.mem_append_left _ hlog, rfl⟩
      · exact ⟨_, List.mem_append_left _ hlog, rfl⟩
    · have hlt : k < w.assembly.instructions.length :=
        hbegins.length ▸ (List.getElem?_eq_some_iff.mp hi).1
      rw [hbegins.touches.code k hlt hk] at hi
      rw [hbegins.length]
      refine (h.sited k i hi).imp_right (Or.imp_right ?_)
      exact fun ⟨a, ha, hk⟩ => ⟨a, List.mem_append_left _ ha, hk⟩
  · exact h.declared_changed ha rfl hbegins.changed hentry
  · rw [callsOf_begins, startsOf_begins, finishesOf_begins]
    rcases hbegins.changed.get?_cases hentry hentry' with ⟨rfl, rfl⟩ | ⟨hne, hentry'⟩
    · have hapart : Apart other (log ++ [.begins other block w.assembly.instructions.length]) =
          (Apart other log ∧ opened other = 0) := by
        rw [apart_concat]
        have hbalanced := hcourse.balanced
        refine propext (and_congr_right fun _ => ?_)
        rw [Incident.block?, if_pos rfl]
        constructor
        · intro heq
          have := heq (by simp)
          omega
        · intro hzero _
          omega
      rw [if_pos rfl, if_pos rfl, hapart]
      exact hcourse.begins w.assembly.sited_last hbegins.targets hbegins.touches.code hmore
        hbegins.length
    · rw [if_neg (Ne.symm hne), List.append_nil, if_neg hne, Nat.add_zero,
        apart_concat_of_none (i := .begins label block _) (if_neg (Ne.symm hne))]
      -- No jump of another label has waited for this block.
      exact (h.courses other entry' hentry').same
        (fun k hk => h.code_of_ne hlogged hne hbegins.touches hk) hbegins.touches.grows

/-- A block ends. -/
theorem ends (h : Account log opened own w) (hentry : w.entryPoints.get? label = some entry)
    (hopened : opened label ≠ 0)
    (hcode : w'.assembly.instructions = w.assembly.instructions ++ [entry.ending])
    (hchanged : w.EntryChanged label (·.ended w.assembly.instructions.length) w') :
    Account (log ++ [.ends label w.assembly.instructions.length])
      (fun other => opened other - if other = label then 1 else 0) own w' := by
  have hlength : w'.assembly.instructions.length = w.assembly.instructions.length + 1 := by
    rw [hcode, List.length_append]
    rfl
  have hle : w.assembly.instructions.length ≤ w'.assembly.instructions.length :=
    hlength ▸ Nat.le_succ _
  refine ⟨h.toLogged.ends hlength, fun k i hi => ?_, fun a ha => ?_,
    fun other entry' hentry' => ?_⟩
  · rcases Nat.lt_or_ge k w.assembly.instructions.length with hlt | hge
    · rw [hcode, List.getElem?_append_left hlt] at hi
      rcases h.sited k i hi with hsited | hown | ⟨a, ha, hk⟩
      · exact Or.inl (hsited.mono hle)
      · exact Or.inr (Or.inl hown)
      · exact Or.inr (Or.inr ⟨a, List.mem_append_left _ ha, hk⟩)
    · have hlt : k < w.assembly.instructions.length + 1 :=
        hlength ▸ (List.getElem?_eq_some_iff.mp hi).1
      obtain rfl : k = w.assembly.instructions.length := Nat.le_antisymm (Nat.le_of_lt_succ hlt) hge
      exact Or.inr (Or.inr ⟨_, List.mem_append_right _ List.mem_cons_self, rfl⟩)
  · exact h.declared_changed ha rfl hchanged hentry
  · rw [callsOf_ends, startsOf_ends, finishesOf_ends, apart_concat_of_none rfl]
    rcases hchanged.get?_cases hentry hentry' with ⟨rfl, rfl⟩ | ⟨hne, hentry'⟩
    · rw [if_pos rfl, if_pos rfl, hcode]
      exact (h.courses other entry hentry).ends hopened
    · rw [if_neg (Ne.symm hne), if_neg hne, List.append_nil, Nat.sub_zero]
      refine (h.courses other entry' hentry').same (fun k hk => ?_) hle
      rw [hcode]
      exact List.getElem?_append_left (h.of_mem hk).1

/-- A block begins, and is called in place before if its value is used. -/
theorem beginEvent {target : Option String} {skip : Option InstructionId} {block : NodeId}
    {w₁ : Workspace} (hw : Vocabulary (fun _ => True) t w) (h : Account log opened own w)
    (hcall : (target = none ∧ skip = none ∧ w = w₁) ∨
      ∃ slot jump w₀, target = some slot ∧ skip = some jump ∧
        Yields (Generation.callEvent cfg label (some slot)) w () w₀ ∧
        Yields (Compile.emit (Emit.instruction (.jump .unresolved))) w₀ jump w₁)
    (hbegin : Yields (beginBlock label) w₁ () w')
    (hmore : ∀ entry, w'.entryPoints.get? label = some entry →
      (startsOf label log).length < entry.blocks) :
    Account (log ++ ((if target.isSome then
        [.call label (w.assembly.instructions.length + 3)] else []) ++
          [.begins label block w'.assembly.instructions.length]))
      (fun other => opened other + if other = label then 1 else 0) (skip.toList ++ own) w' := by
  have hcalled : ∃ log₁, log₁ = log ++ (if target.isSome then
        [.call label (w.assembly.instructions.length + 3)] else []) ∧
      startsOf label log₁ = startsOf label log ∧ Account log₁ opened (skip.toList ++ own) w₁ ∧
      Vocabulary (fun _ => True) t w₁ := by
    rcases hcall with ⟨rfl, rfl, rfl⟩ | ⟨slot, jump, w₀, rfl, rfl, hcall, hjump⟩
    · exact ⟨log, (List.append_nil _).symm, rfl, h, hw⟩
    · obtain ⟨haccount, hw₀⟩ := h.callEvent hw hcall
      obtain ⟨howes, hlt⟩ := Settles.owes hw₀ [] hjump
      obtain ⟨rfl, happends⟩ := Appends.jump hjump
      refine ⟨_, rfl, (startsOf_concat _).trans (List.append_nil _), ?_, howes.vocabulary⟩
      -- The jump over the block belongs to the unit.
      refine settles ?_ howes (.ofCode happends.code_eq) happends.entryPoints fun k hk => Or.inr ?_
      · exact haccount
      · rw [List.mem_singleton.mp hk]
        exact ⟨Nat.le_refl _, hlt⟩
  obtain ⟨log₁, hlog, hstarts, haccount, hw₁⟩ := hcalled
  obtain ⟨entry, hentry, hbegins, -⟩ := beginBlock_spec hw₁ hbegin
  have hblocks : (startsOf label log₁).length < entry.blocks := by
    rw [hstarts]
    refine (hmore _ (hbegins.changed.get? hentry)).trans_eq ?_
    exact entry.begun_blocks _
  rw [← List.append_assoc, ← hlog, hbegins.length]
  exact haccount.begins hentry hblocks hbegins

/-- A block ends, and the code that has jumped over it goes on. -/
theorem endEvent {skip : Option InstructionId} {w₁ : Workspace}
    (hw : Vocabulary (fun _ => True) t w) (h : Account log opened (skip.toList ++ own) w)
    (hopened : opened label ≠ 0) (hend : Yields (endBlock cfg label) w () w₁)
    (hpatch : Yields (patchAll (.after w₁.assembly.last?) skip.toList) w₁ () w') :
    Account (log ++ [.ends label w.assembly.instructions.length])
      (fun other => opened other - if other = label then 1 else 0) own w' := by
  obtain ⟨entry, hentry, hextended, hcode, hchanged⟩ :=
    endBlock_spec (D := fun _ => True) hw (fun _ _ => trivial) hend
  have hretargets := patchAll_spec hpatch
  have hsettles : Settles t skip.toList [] w₁ w' :=
    .retargets hextended.vocabulary hretargets w₁.assembly.sited_last fun k hk => Or.inr hk
  have hended := (h.ends hentry hopened hcode hchanged).settles hsettles hretargets.touches
    hretargets.entryPoints (by simp)
  exact hended

/-- A step that concerns no event. -/
theorem step_plain (hw : Vocabulary (fun _ => True) t w)
    (h : Account log opened (u.task.jumps ++ own) w)
    (hpunctual : u.Punctual w.assembly.instructions.length)
    (hplain : u.task.isLocal = true ∨ u.task = .inlineAsm)
    (hstep : Yields (step cfg t u) w (p, u') w') :
    Account log opened ((if p = .done then [] else u'.task.jumps) ++ own) w' := by
  have hsettles := (step_keeps hw hpunctual hplain hstep).settles
  have hconfined : Touches u.task.jumps w w' ∧ w'.entryPoints = w.entryPoints ∧
      ∀ k ∈ u'.task.jumps, k ∈ u.task.jumps ∨
        w.assembly.instructions.length ≤ k ∧ k < w'.assembly.instructions.length := by
    rcases hplain with hlocal | htask
    · have hconfined := (step_footprint (D := fun _ => False) hw (fun _ _ => trivial) hlocal
        hstep).confined
      exact ⟨hconfined.grows.touches, hconfined.entryPoints, hconfined.jumps⟩
    · obtain ⟨node, target, n, temps, task⟩ := u
      obtain rfl : task = .inlineAsm := htask
      obtain ⟨a, hinline, rfl, rfl, rfl⟩ := step_inlineAsm_cases hstep
      obtain ⟨code, hemits, -⟩ := inlineInstructions_emits hinline
      exact ⟨.ofCode hemits.code, rfl, fun k hk => Or.inl hk⟩
  obtain ⟨htouches, hentries, hjumps⟩ := hconfined
  refine h.settles hsettles htouches hentries fun k hk => ?_
  split at hk
  · cases hk
  · exact hjumps k hk

end Account

/-! ## The log and the stack

How many blocks of a label are open is counted on the stack. A step keeps the account, so a run
does, and it holds at the beginning, where nothing has happened. -/

/-- The number of blocks of a label that are open. -/
def openOf (t : Tree) (stack : List WorkUnit) (label : String) : Nat :=
  stack.countP fun u => u.openLabel? t = some label

/-- What a run keeps, with its log. -/
structure Journal (t : Tree) (before : Workspace) (log : List Incident) (stack : List WorkUnit)
    (w : Workspace) : Prop where
  attended : Attended t before stack w
  tour : Tour t before (log.filterMap Incident.node?) stack
  events : ∀ label block start, .begins label block start ∈ log →
    before.construct? block = some .event ∧ t.eventLabel? block = some label
  punctual : ∀ u ∈ stack, u.Punctual w.assembly.instructions.length
  account : Account log (openOf t stack) (ownOf stack) w

section Runs

variable {cfg : Setting} {t : Tree} {u u' : WorkUnit} {rest stack stack' : List WorkUnit}
  {before w w' : Workspace} {log : List Incident} {p : Progress} {label : String}

theorem openOf_cons_none (h : u.openLabel? t = none) : openOf t (u :: rest) = openOf t rest := by
  funext label
  rw [openOf, List.countP_cons, h]
  rfl

theorem openOf_cons_some (h : u.openLabel? t = some label) :
    openOf t (u :: rest) = fun other => openOf t rest other + if other = label then 1 else 0 := by
  funext other
  rw [openOf, List.countP_cons, h, openOf]
  simp [eq_comm]

/-- What a turn of the loop keeps of the stack, besides a unit that has only been started. -/
theorem Generation.Move.kept (h : Move cfg t (u :: rest) w stack' w') :
    ∃ p u', Yields (step cfg t u) w (p, u') w' ∧
      openOf t stack' = openOf t (if p = .done then rest else u' :: rest) ∧
      ownOf stack' = (if p = .done then [] else u'.task.jumps) ++ ownOf rest ∧
      ∀ v ∈ stack', v ∈ rest ∨ v = u' ∨ ∀ n, v.Punctual n := by
  cases h with
  | @done _ u' _ _ _ hstep =>
    exact ⟨_, u', hstep, by rw [if_pos rfl], by rw [if_pos rfl]; rfl, fun v hv => Or.inl hv⟩
  | @again _ u' _ _ _ hstep =>
    exact ⟨_, u', hstep, by rw [if_neg (by simp)], by rw [if_neg (by simp)]; rfl,
      fun v hv => (List.mem_cons.mp hv).symm.imp_right Or.inl⟩
  | @descend _ u' next _ _ _ _ _ _ hstep hstart =>
    have hpunctual : ∀ n, next.Punctual n := fun n => .start hstart
    obtain ⟨rfl, construct, -, rfl⟩ := start_cases hstart
    refine ⟨_, u', hstep, ?_, ?_, fun v hv => ?_⟩
    · rw [if_neg (by simp)]
      exact openOf_cons_none (if_neg (by simp))
    · rw [if_neg (by simp), ownOf, List.flatMap_cons, List.flatMap_cons]
      cases construct <;> rfl
    · rcases List.mem_cons.mp hv with rfl | hv
      · exact Or.inr (Or.inr hpunctual)
      · exact (List.mem_cons.mp hv).symm.imp_right Or.inl

theorem Task.isEvent_of_isLocal {task : Task} (h : task.isLocal = true ∨ task = .inlineAsm) :
    task.isEvent = false := by
  rcases h with h | rfl
  · cases task <;> first | rfl | cases h
  · rfl

/-- A step keeps the account. -/
theorem Journal.step_account (hprepared : Prepared cfg t before)
    (h : Journal t before log (u :: rest) w) (hstep : Yields (step cfg t u) w (p, u') w')
    (hmore : ∀ label entry, t.eventLabel? u.node = some label → u.task.isEvent = true →
      u.step = 0 → w'.entryPoints.get? label = some entry →
        (startsOf label log).length < entry.blocks) :
    Account (log ++ u.incidents t w w') (openOf t (if p = .done then rest else u' :: rest))
      ((if p = .done then [] else u'.task.jumps) ++ ownOf rest) w' ∧
      u'.Punctual w'.assembly.instructions.length := by
  have hw := h.attended.vocabulary
  have hpunctual := h.punctual u List.mem_cons_self
  have haccount : Account log (openOf t (u :: rest)) (u.task.jumps ++ ownOf rest) w := h.account
  by_cases hplain : u.task.isLocal = true ∨ u.task = .inlineAsm
  · -- A unit that is no event is not one after the step either.
    have hnone := Task.isEvent_of_isLocal hplain
    have hnone' : u'.task.isEvent = false := by
      rw [← Task.isEvent_initial, (step_counts hstep).2.2.1, Task.isEvent_initial]
      exact hnone
    have hincidents : u.incidents t w w' = [] := by
      rcases hplain with hlocal | htask
      · exact incidents_of_isLocal hlocal
      · rw [WorkUnit.incidents, htask]
    have hopen : openOf t (if p = .done then rest else u' :: rest) = openOf t rest := by
      split
      · rfl
      · exact openOf_cons_none (openLabel?_of_not_isEvent hnone')
    rw [openOf_cons_none (openLabel?_of_not_isEvent hnone)] at haccount
    rw [hincidents, List.append_nil, hopen]
    exact ⟨haccount.step_plain hw hpunctual hplain hstep,
      (step_keeps hw hpunctual hplain hstep).punctual⟩
  -- What is left are calls of events and their blocks, which write to the log.
  have hevent := h.tour.construct_of_isEvent (u := u) List.mem_cons_self
  obtain ⟨node, target, n, temps, task⟩ := u
  cases task with
  | callEvent =>
    obtain ⟨label, hlabel, hcall, rfl, rfl⟩ := step_callEvent_cases hstep
    rw [openOf_cons_none (openLabel?_of_not_isEvent rfl)] at haccount
    rw [incidents_call hlabel, if_pos rfl, if_pos rfl]
    exact ⟨(haccount.callEvent hw hcall).1, trivial⟩
  | event skip =>
    obtain ⟨first, label, hfirst, hlabel, hcases⟩ := stepEvent_cases hstep
    have hlabel' : t.eventLabel? node = some label :=
      Tree.eventLabel?_eq_some (hprepared.isEvent (hevent rfl)) hfirst hlabel
    rcases hcases with ⟨rfl, skip', body, w₁, hcall, hbegin, -, rfl, rfl⟩ |
      ⟨hne, rfl, rfl, w₁, hend, hpatch⟩
    · -- The block begins: from here on its unit is counted as open.
      obtain rfl : skip = none := hpunctual rfl
      have hgoes : Progress.descend body (some Catalog.returnValue) ≠ .done := (by simp)
      rw [openOf_cons_none (if_neg (by simp))] at haccount
      rw [incidents_begin rfl hlabel' rfl, if_neg hgoes, if_neg hgoes,
        openOf_cons_some (openLabel?_event hlabel' (Nat.succ_ne_zero 0))]
      refine ⟨haccount.beginEvent hw hcall hbegin fun entry hentry =>
        hmore label entry hlabel' rfl rfl hentry, fun hzero => ?_⟩
      cases hzero
    · -- The block that ends is counted as open, so there is one to take off.
      have hopen : WorkUnit.openLabel? t ⟨node, target, n, temps, .event skip⟩ = some label :=
        openLabel?_event hlabel' hne
      have hpositive : openOf t (⟨node, target, n, temps, .event skip⟩ :: rest) label ≠ 0 := by
        rw [openOf_cons_some hopen]
        simp
      rw [incidents_end hlabel' hne, if_pos rfl, if_pos rfl]
      have hended := haccount.endEvent hw hpositive hend hpatch
      rw [openOf_cons_some hopen] at hended
      simp only [Nat.add_sub_cancel] at hended
      exact ⟨hended, fun hzero => absurd hzero (Nat.succ_ne_zero n)⟩
  | inlineAsm => exact absurd (Or.inr rfl) hplain
  | _ => exact absurd (Or.inl rfl) hplain

/-- A turn of the loop keeps the log in step. -/
theorem Journal.move (ht : t.Linked) (hresolved : Program.resolved cfg t = .ok before)
    (h : Journal t before log (u :: rest) w) (hmove : Move cfg t (u :: rest) w stack' w') :
    Journal t before (log ++ u.incidents t w w') stack' w' := by
  have hprepared := Program.resolved_prepared hresolved
  have hattended := h.attended.move hmove
  have htour : Tour t before ((log ++ u.incidents t w w').filterMap Incident.node?) stack' := by
    rw [List.filterMap_append]
    exact h.tour.move ht hmove hattended.later.findings (node?_incidents u w w')
  have hevents : ∀ label block start, .begins label block start ∈ log ++ u.incidents t w w' →
      before.construct? block = some .event ∧ t.eventLabel? block = some label :=
    events_incidents h.events (h.tour.construct_of_isEvent List.mem_cons_self)
  obtain ⟨p, u', hstep, hopen, hown, hkept⟩ := hmove.kept
  obtain ⟨haccount, hpunctual⟩ := h.step_account hprepared hstep fun label entry hlabel hevent
      hzero hentry => by
    -- The block that begins is one of those that have been declared.
    have hle : (startsOf label _).length ≤ _ := length_startsOf_le hresolved htour.nodup hevents
    obtain ⟨entry', hentry', -, hblocks⟩ := hattended.declarations.get? hentry
    rw [startsOf_begin hevent hlabel hzero, List.length_append, Workspace.blocksOf, hentry'] at hle
    rw [← hblocks]
    exact hle
  refine ⟨hattended, htour, hevents, fun v hv => ?_, ?_⟩
  · rcases hkept v hv with hv | rfl | hstarted
    · have hspares := step_spares (D := fun _ => True) h.attended.vocabulary
        ⟨fun _ _ _ => trivial, trivial, fun _ _ _ => ⟨trivial, trivial⟩⟩ (fun _ _ => trivial) hstep
      exact (h.punctual v (List.mem_cons_of_mem _ hv)).mono hspares.lengthens.later.code.length_le
    · exact hpunctual
    · exact hstarted _
  · rw [hopen, hown]
    exact haccount

/-- The log of a run stays in step to its end. -/
theorem Records.journal (ht : t.Linked) (hresolved : Program.resolved cfg t = .ok before)
    {log' : List Incident} (h : Records cfg t stack w log' stack' w')
    (hstart : Journal t before log stack w) : Journal t before (log ++ log') stack' w' :=
  h.keeps (fun hlog hmove => hlog.move ht hresolved hmove) hstart

/-- Before anything is generated, nothing has happened. -/
theorem Resolution.Prepared.journal (h : Prepared cfg t before)
    (hstart : Yields (start t Tree.root none) before u before) :
    Journal t before [] [u] before := by
  have hcode := h.unstarted.instructions_eq_nil
  have hpunctual : u.Punctual before.assembly.instructions.length := .start hstart
  refine ⟨h.attended hstart, .start hstart, by simp, List.forall_mem_singleton.mpr hpunctual, ?_⟩
  obtain ⟨-, construct, -, rfl⟩ := start_cases hstart
  have hown : ownOf [⟨Tree.root, none, 0, [], .ofConstruct construct⟩] = [] := by
    cases construct <;> rfl
  rw [openOf_cons_none (if_neg (by simp)), hown]
  refine ⟨⟨.nil, by simp, by simp⟩, fun k i hi => ?_, by simp, fun label entry hentry => ?_⟩
  · rw [hcode] at hi
    cases hi
  · obtain ⟨hcompiled, hbody, hchain, hlanding, -⟩ := h.unstarted.entryPoints label entry hentry
    refine ⟨hcompiled, rfl, Nat.zero_le _, iff_of_true hbody rfl, ?_, hlanding, by rintro _ ⟨⟩, ?_,
      by rintro _ ⟨⟩, fun _ => ⟨Nat.zero_le _, fun hne => absurd hchain hne, ?_, by rintro _ ⟨⟩⟩,
      fun hnot => absurd apart_nil hnot⟩
    · rw [hbody]
      rintro _ ⟨⟩
    · rw [hchain]
      rintro _ ⟨⟩
    · intro _ hpos
      rw [hcompiled] at hpos
      cases hpos

end Runs

/-! ## Programs

A program is assembled if every jump has an address. At the end of a run no unit is left, so a
jump without a target is one of a routine (`sited_or_waits`), and the declared blocks tell
whether there is one. -/

/-- A jump has an address if its target is in the code. -/
theorem Assembly.addressOf_ok_iff {a : Assembly} {offset : Nat} {target : JumpTarget} :
    (∃ address, a.addressOf offset target = .ok address) ↔ target.Sited a.instructions.length := by
  rw [a.length_instructions]
  cases target with
  | unresolved => exact iff_of_false (by rintro ⟨_, ⟨⟩⟩) id
  | address n => exact iff_of_true ⟨_, rfl⟩ trivial
  | after id =>
    cases id with
    | none => exact iff_of_true ⟨_, rfl⟩ (by rintro _ ⟨⟩)
    | some n =>
      constructor
      · rintro ⟨address, haddress⟩ k hk
        obtain rfl := Option.some.inj hk
        refine Nat.lt_of_not_le fun hle => ?_
        simp [Assembly.addressOf, Array.getElem?_eq_none hle] at haddress
      · intro hlt
        have hn : n < a.lines.size := hlt n rfl
        refine ⟨a.lines[n].finish, ?_⟩
        simp [Assembly.addressOf, Array.getElem?_eq_getElem hn]

/-- An assembly makes a program if all its jumps go to a place in the code. -/
theorem Program.ofAssembly_ok_iff {types : TypeTable} {a : Assembly} :
    (∃ p, Program.ofAssembly types a = .ok p) ↔
      ∀ i ∈ a.instructions, i.Sited a.instructions.length := by
  have htext : (∃ p, Program.ofAssembly types a = .ok p) ↔ ∃ text, a.text types = .ok text := by
    constructor
    · rintro ⟨p, hp⟩
      exact ⟨_, (Program.ofAssembly_eq_ok_iff.mp hp).1⟩
    · rintro ⟨text, htext⟩
      exact ⟨⟨text, _, _, _⟩, Program.ofAssembly_eq_ok_iff.mpr ⟨htext, rfl, rfl, rfl⟩⟩
  rw [htext, Assembly.exists_text_iff_addresses, Assembly.instructions, List.forall_mem_map]
  exact forall₂_congr fun line _ => forall₂_congr fun target _ => Assembly.addressOf_ok_iff

section Ends

variable {log : List Incident} {w : Workspace}

/-- At the end, a jump that goes nowhere is one of an event, and waits. -/
theorem Account.sited_or_waits (h : Account log (fun _ => 0) [] w) {k : Nat} {i : Instruction}
    (hi : w.assembly.instructions[k]? = some i) :
    i.Sited w.assembly.instructions.length ∨ i = .jump .unresolved := by
  rcases h.sited k i hi with hsited | hown | ⟨a, ha, hk⟩
  · exact Or.inl hsited
  · cases hown
  · obtain ⟨entry, hentry⟩ := Option.ne_none_iff_exists'.mp (h.declared a ha)
    have hcourse := h.courses a.label entry hentry
    cases a with
    | call label jump =>
      obtain rfl := Option.some.inj hk
      obtain ⟨target, hget, htarget⟩ := hcourse.called jump (mem_callsOf.mpr ha)
      obtain rfl := Option.some.inj (hi.symm.trans hget)
      split at htarget
      · exact Or.inr (congrArg Instruction.jump htarget)
      · left
        intro other hother
        exact Option.some.inj hother ▸ htarget
    | begins label block start => cases hk
    | ends label finish =>
      obtain rfl := Option.some.inj hk
      obtain ⟨other, hget, hcase⟩ := hcourse.ended finish (mem_finishesOf.mpr ha)
      obtain rfl := Option.some.inj (hi.symm.trans hget)
      exact hcase.symm

/-- At the end, no jump waits if none of any label does. -/
theorem Account.sited_iff (h : Account log (fun _ => 0) [] w) :
    (∀ i ∈ w.assembly.instructions, i.Sited w.assembly.instructions.length) ↔
      ∀ label k, k ∈ callsOf label log ∨ k ∈ finishesOf label log →
        ¬ Waits w.assembly.instructions k := by
  constructor
  · intro hsited label k _ hwaits
    exact hsited _ (List.mem_of_getElem? hwaits) .unresolved rfl
  · intro hnone i hi
    obtain ⟨k, hk⟩ := List.mem_iff_getElem?.mp hi
    rcases h.sited k i hk with hsited | hown | ⟨a, ha, hjump⟩
    · exact hsited
    · cases hown
    · refine (h.sited_or_waits hk).resolve_right fun heq => ?_
      subst heq
      cases a with
      | call label jump =>
        obtain rfl := Option.some.inj hjump
        exact hnone label jump (Or.inl (mem_callsOf.mpr ha)) hk
      | begins label block start => cases hjump
      | ends label finish =>
        obtain rfl := Option.some.inj hjump
        exact hnone label finish (Or.inr (mem_finishesOf.mpr ha)) hk

/-- At the end, the code assembles just if no label has a jump that waits. -/
theorem Journal.assembles_iff {t : Tree} {before : Workspace} (h : Journal t before log [] w)
    {types : TypeTable} : (∃ p, Program.ofAssembly types w.assembly = .ok p) ↔
      ∀ label, (callsOf label log ≠ [] → startsOf label log ≠ []) ∧
        (startsOf label log ≠ [] →
          (startsOf label log).length = before.blocksOf label ∧ Apart label log) := by
  have haccount : Account log (fun _ => 0) [] w := h.account
  rw [Program.ofAssembly_ok_iff, haccount.sited_iff]
  refine forall_congr' fun label => ?_
  cases hentry : w.entryPoints.get? label with
  | some entry =>
    obtain ⟨entry', hentry', -, hblocks⟩ := h.attended.declarations.get? hentry
    rw [(haccount.courses label entry hentry).none_waits_iff, Workspace.blocksOf, hentry',
      ← hblocks]
    rfl
  | none =>
    -- Nothing has happened to a label without an entry point.
    have hnone : ∀ a ∈ log, a.label ≠ label := by
      rintro a ha rfl
      exact haccount.declared a ha hentry
    have hcalls : callsOf label log = [] := by
      refine List.eq_nil_iff_forall_not_mem.mpr fun k hk => ?_
      exact hnone _ (mem_callsOf.mp hk) rfl
    have hfinishes : finishesOf label log = [] := by
      refine List.eq_nil_iff_forall_not_mem.mpr fun k hk => ?_
      exact hnone _ (mem_finishesOf.mp hk) rfl
    have hstarts : startsOf label log = [] := by
      rw [startsOf, List.map_eq_nil_iff]
      refine List.eq_nil_iff_forall_not_mem.mpr fun b hb => ?_
      exact hnone _ (mem_blocksOf.mp hb) rfl
    rw [hcalls, hfinishes, hstarts]
    simp

end Ends

/-- Code that has been generated for a tree assembles just if every event that is called has a
block, and the blocks of every event that has one are all that have been declared and have been
compiled one after the other. Whether it assembles or not, all conditional jumps have a target, and
no target is beyond the code. -/
theorem Program.assembled_iff {cfg : Setting} {t : Tree} {before after : Workspace}
    (ht : t.Linked) (hroot : Tree.root < t.size) (hresolved : Program.resolved cfg t = .ok before)
    (hgenerated : Yields (generate cfg t) before () after) :
    ∃ first log, Yields (start t Tree.root none) before first before ∧
      Records cfg t [first] before log [] after ∧
      (∀ i ∈ after.assembly.instructions, i ≠ .jumpIfFalse .unresolved) ∧
      (∀ i ∈ after.assembly.instructions, ∀ id, i.target? = some (.after (some id)) →
        id < after.assembly.instructions.length) ∧
      ((∃ p, Program.ofAssembly cfg.catalog.types after.assembly = .ok p) ↔
        ∀ label, (callsOf label log ≠ [] → startsOf label log ≠ []) ∧
          (startsOf label log ≠ [] →
            (startsOf label log).length = before.blocksOf label ∧ Apart label log)) := by
  obtain ⟨first, hstart, hend⟩ := generate_reaches ht hroot hgenerated
  obtain ⟨log, hrecords⟩ := hend.records
  have hprepared := Program.resolved_prepared hresolved
  have hjournal : Journal t before log [] after :=
    hrecords.journal ht hresolved (hprepared.journal hstart)
  have haccount : Account log (fun _ => 0) [] after := hjournal.account
  refine ⟨first, log, hstart, hrecords, fun i hi => ?_, fun i hi id hid => ?_,
    hjournal.assembles_iff⟩
  · rintro rfl
    obtain ⟨k, hk⟩ := List.mem_iff_getElem?.mp hi
    rcases haccount.sited_or_waits hk with hsited | heq
    · exact hsited .unresolved rfl
    · cases heq
  · obtain ⟨k, hk⟩ := List.mem_iff_getElem?.mp hi
    rcases haccount.sited_or_waits hk with hsited | rfl
    · exact hsited _ hid id rfl
    · cases hid

/-- A block in the place of a name is declared and never compiled. The other block of its event hands
on to it, so its last jump waits in vain. -/
theorem Program.assembled_iff_uncompiled :
    ∃ t before after first log e, Tree.read "(=(when(_a,1),2),when(_a,3))" = .ok t ∧
      Program.resolved ⟨Catalog.empty, true⟩ t = .ok before ∧ before.blocksOf "_a" = 2 ∧
      Yields (generate ⟨Catalog.empty, true⟩ t) before () after ∧
      Program.ofAssembly Catalog.empty.types after.assembly = .error e ∧
      e.fault = .build (.unresolvedJump 40) ∧
      Records ⟨Catalog.empty, true⟩ t [first] before log [] after ∧
      ¬ ∀ label, (callsOf label log ≠ [] → startsOf label log ≠ []) ∧
        (startsOf label log ≠ [] →
          (startsOf label log).length = before.blocksOf label ∧ Apart label log) := by
  have hrun : (Tree.read "(=(when(_a,1),2),when(_a,3))").toOption.any fun t =>
      (Program.resolved ⟨Catalog.empty, true⟩ t).toOption.any fun before =>
        before.blocksOf "_a" == 2 && (generate ⟨Catalog.empty, true⟩ t before).casesOn
          (fun _ after => match Program.ofAssembly Catalog.empty.types after.assembly with
            | .ok _ => false
            | .error e => decide (e.fault = .build (.unresolvedJump 40)))
          fun _ _ => false := by
    decide +kernel
  obtain ⟨t, hread, ht, hroot, hrun⟩ := Tree.read_of_any hrun
  obtain ⟨before, hresolved, hrun⟩ := exists_ok_of_any hrun
  simp only [Bool.and_eq_true, beq_iff_eq] at hrun
  obtain ⟨hblocks, hrun⟩ := hrun
  cases hgenerated : generate ⟨Catalog.empty, true⟩ t before with
  | error e w => simp [hgenerated] at hrun
  | ok _ after =>
    cases hassembled : Program.ofAssembly Catalog.empty.types after.assembly with
    | ok p => simp [hgenerated, hassembled] at hrun
    | error e =>
      simp only [hgenerated, hassembled, decide_eq_true_iff] at hrun
      obtain ⟨first, log, -, hrecords, -, -, hiff⟩ :=
        Program.assembled_iff ht hroot hresolved hgenerated
      refine ⟨t, before, after, first, log, e, hread, hresolved, hblocks, hgenerated, hassembled,
        hrun, hrecords, fun hall => ?_⟩
      obtain ⟨p, hp⟩ := hiff.mpr hall
      cases hassembled.symm.trans hp

end SexprAsm
