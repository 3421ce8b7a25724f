import SexprAsm.Proofs.Generation.Destinations

/-!
# Which events are exported

The label of an event waits in one place for the next instruction, and a label that is set while
another one waits takes its place. Between the beginning of a block and the first instruction of its
body only blocks inside it can begin.

So a label that has a block is exported once, where its first block begins, unless the first
block of another label begins at the same place inside that one. Then it is not exported at all
(`Program.compile_exports`).
-/

namespace SexprAsm

open Generation Workspace Resolution

/-- The first block of a label, and the place where it begins. -/
def firstOf (label : String) (log : List Incident) : Option (NodeId × Nat) :=
  (blocksOf label log).head?

/-- The first block of another label begins at the same place, inside the block. -/
def Overtaken (t : Tree) (log : List Incident) (label : String) (block : NodeId) (place : Nat) :
    Prop :=
  ∃ other inner, other ≠ label ∧ firstOf other log = some (inner, place) ∧
    t.AncestorOrSelf block inner

section Logs

variable {cfg : Setting} {t : Tree} {label : String} {log log' : List Incident} {u : WorkUnit}
  {w w' : Workspace} {block : NodeId} {place : Nat}

theorem Apart.of_append (h : Apart label (log ++ log')) : Apart label log := by
  intro earlier block start later hlog
  refine h earlier block start (later ++ log') ?_
  rw [hlog, List.append_assoc, List.cons_append]

/-- A label without blocks has none that stand inside each other. -/
theorem apart_of_startsOf_nil (h : startsOf label log = []) : Apart label log := by
  rintro earlier block start later rfl
  have hmem : (block, start) ∈ blocksOf label (earlier ++ .begins label block start :: later) :=
    mem_blocksOf.mpr (List.mem_append_right _ List.mem_cons_self)
  rw [List.map_eq_nil_iff.mp h] at hmem
  cases hmem

theorem overtaken_congr (h : ∀ other, firstOf other log' = firstOf other log) :
    Overtaken t log' label block place ↔ Overtaken t log label block place := by
  simp only [Overtaken, h]

/-- Only the first step of an event begins a block. -/
theorem blocksOf_incidents (hnot : u.task.isEvent = true → u.step ≠ 0) :
    blocksOf label (log ++ u.incidents t w w') = blocksOf label log := by
  have hnone : blocksOf label (u.incidents t w w') = [] := by
    unfold WorkUnit.incidents
    split
    next => cases (t.tag u.node).text? <;> rfl
    next htask =>
      split
      next => rfl
      next =>
        rw [if_neg (hnot (by rw [htask]; rfl))]
        rfl
    next => rfl
  rw [blocksOf, List.filterMap_append]
  exact (congrArg (blocksOf label log ++ ·) hnone).trans (List.append_nil _)

theorem firstOf_begin (hevent : u.task.isEvent = true) (hlabel : t.eventLabel? u.node = some label)
    (hzero : u.step = 0) (other : String) : firstOf other (log ++ u.incidents t w w') =
      (firstOf other log).or
        (if label = other then some (u.node, w'.assembly.instructions.length) else none) := by
  rw [firstOf, blocksOf_begin hevent hlabel hzero, List.head?_append, firstOf]
  split <;> rfl

end Logs

/-! ## Steps

Of all steps only the first one of an event sets a label. All others add code without labels, and
the one that ends a block adds some, so no block that has ended begins at the end of the code. -/

section Steps

variable {cfg : Setting} {t : Tree} {u u' : WorkUnit} {rest stack' : List WorkUnit}
  {w w' : Workspace} {p : Progress}

/-- A step that begins no block adds code without labels. The step that ends a block adds some. -/
theorem step_grows (hw : Vocabulary (fun _ => True) t w)
    (hstep : Yields (step cfg t u) w (p, u') w') (hnot : u.task.isEvent = true → u.step ≠ 0) :
    (∃ jumps, Grows (fun _ => True) (fun _ => True) jumps w w') ∧
      (u.task.isEvent = true →
        w.assembly.instructions.length < w'.assembly.instructions.length) := by
  by_cases hlocal : u.task.isLocal = true
  · refine ⟨⟨_, (step_footprint hw (fun _ _ => trivial) hlocal hstep).confined.grows⟩, ?_⟩
    rw [Task.isEvent_of_isLocal (Or.inl hlocal)]
    rintro ⟨⟩
  obtain ⟨node, target, n, temps, task⟩ := u
  cases task with
  | callEvent =>
    obtain ⟨label, -, hcall, -, -⟩ := step_callEvent_cases hstep
    obtain ⟨entry, -, hextended, -⟩ := callEvent_spec hw ⟨fun _ _ _ => trivial, trivial⟩
      (fun _ _ => trivial) hcall
    exact ⟨⟨_, hextended.grows⟩, by rintro ⟨⟩⟩
  | inlineAsm =>
    obtain ⟨a, hinline, rfl, -, -⟩ := step_inlineAsm_cases hstep
    obtain ⟨code, hemits, hcode⟩ := inlineInstructions_emits hinline
    refine ⟨⟨[], .ofEmits hemits rfl fun i hi => ?_⟩, by rintro ⟨⟩⟩
    exact (hcode i hi).within fun _ _ _ => ⟨trivial, trivial⟩
  | event skip =>
    obtain ⟨first, label, -, -, ⟨hzero, -⟩ | ⟨-, -, -, w₁, hend, hpatch⟩⟩ := stepEvent_cases hstep
    · exact absurd hzero (hnot rfl)
    obtain ⟨entry, -, hextended, hcode, -⟩ := endBlock_spec (D := fun _ => True) hw
      (fun _ _ => trivial) hend
    have hretargets := patchAll_spec hpatch
    refine ⟨⟨skip.toList, (hextended.grows.mono (by simp)).trans (.ofRetargets hretargets)
      fun k hk => Or.inl hk⟩, fun _ => ?_⟩
    rw [hretargets.length, hcode, List.length_append]
    exact Nat.lt_succ_self _
  | _ => exact absurd rfl hlocal

/-- The first step of an event begins a block, behind code without labels. -/
theorem step_begins (hw : Vocabulary (fun _ => True) t w)
    (hstep : Yields (step cfg t u) w (p, u') w') (hnode : t.isEvent u.node = true)
    (hevent : u.task.isEvent = true) (hzero : u.step = 0) :
    p ≠ .done ∧ ∃ label entry w₁ jumps, t.eventLabel? u.node = some label ∧
      w₁.entryPoints.get? label = some entry ∧
      Grows (fun _ => True) (fun _ => True) jumps w w₁ ∧ Begins label entry w₁ w' := by
  obtain ⟨node, target, n, temps, task⟩ := u
  cases task with
  | event skip =>
    obtain ⟨first, label, hfirst, hlabel, ⟨-, skip', body, w₁, hcall, hbegin, -, rfl, -⟩ | ⟨hne, -⟩⟩ :=
      stepEvent_cases hstep
    swap
    · exact absurd hzero hne
    have hcalled : Extended (fun _ => True) (fun _ => True) t [] w w₁ := by
      rcases hcall with ⟨-, -, rfl⟩ | ⟨slot, jump, w₀, -, -, hcall, hjump⟩
      · exact ⟨.refl w, hw, rfl, rfl⟩
      · obtain ⟨entry, -, hextended, -⟩ := callEvent_spec (D := fun _ => True) hw
          ⟨fun _ _ _ => trivial, trivial⟩ (fun _ _ => trivial) hcall
        obtain ⟨-, happends⟩ := Appends.jump hjump
        exact hextended.trans (.ofAppends hextended.vocabulary happends
          (List.forall_mem_singleton.mpr trivial)) fun k hk => Or.inl hk
    obtain ⟨entry, hentry, hbegins, -⟩ := beginBlock_spec hcalled.vocabulary hbegin
    exact ⟨by simp, label, entry, w₁, [], Tree.eventLabel?_eq_some hnode hfirst hlabel, hentry,
      hcalled.grows, hbegins⟩
  | _ => cases hevent

/-- The units below stay on the stack, and so does a unit that is not done. -/
theorem Generation.Move.stays (h : Move cfg t (u :: rest) w stack' w') :
    ∃ p u', Yields (step cfg t u) w (p, u') w' ∧ (∀ v ∈ rest, v ∈ stack') ∧
      (p ≠ .done → u' ∈ stack') := by
  cases h with
  | @done _ u' _ _ _ hstep => exact ⟨_, u', hstep, fun v hv => hv, fun hp => absurd rfl hp⟩
  | @again _ u' _ _ _ hstep =>
    exact ⟨_, u', hstep, fun v hv => List.mem_cons_of_mem _ hv, fun _ => List.mem_cons_self⟩
  | @descend _ u' _ _ _ _ _ _ _ hstep hstart =>
    obtain ⟨rfl, -⟩ := start_cases hstart
    refine ⟨_, u', hstep, fun v hv => ?_, fun _ => List.mem_cons_of_mem _ List.mem_cons_self⟩
    exact List.mem_cons_of_mem _ (List.mem_cons_of_mem _ hv)

end Steps

/-! ## Runs

`Labelled` follows where the first blocks begin. One that begins at the end of the code still
waits for an instruction, and loses its label if another first block begins there, too. That one
is inside it, since the block is still open. -/

/-- What a run keeps of its labels. A block that begins at the end of the code is still open. While
blocks of one label follow one another, the labels are those of the first blocks, but for the blocks
that have been overtaken. -/
structure Labelled (t : Tree) (before : Workspace) (log : List Incident) (stack : List WorkUnit)
    (w : Workspace) : Prop extends Journal t before log stack w where
  places : ∀ label, ∀ b ∈ blocksOf label log, b.2 < w.assembly.instructions.length ∨
    b.2 = w.assembly.instructions.length ∧ ∃ v ∈ stack, v.node = b.1 ∧ v.step ≠ 0
  marks : (∀ label, Apart label log) → ∀ label n, w.assembly.marks[n]? = some (some label) ↔
    ∃ block, firstOf label log = some (block, n) ∧ ¬ Overtaken t log label block n

section Runs

variable {cfg : Setting} {t : Tree} {u u' : WorkUnit} {rest stack stack' : List WorkUnit}
  {before w w₁ w' : Workspace} {log log' : List Incident} {p : Progress} {label : String}
  {entry : EntryPoint} {jumps : List InstructionId}

/-- Where blocks of a label follow one another, all that have begun before one have been compiled. -/
theorem Journal.compiled_eq (h : Journal t before (log ++ u.incidents t w w') stack' w')
    (hevent : u.task.isEvent = true) (hlabel : t.eventLabel? u.node = some label)
    (hzero : u.step = 0) (hentry : w'.entryPoints.get? label = some entry)
    (hapart : Apart label (log ++ u.incidents t w w')) :
    entry.compiled = (blocksOf label log).length := by
  have hstarts : startsOf label (log ++ u.incidents t w w') = _ :=
    startsOf_begin hevent hlabel hzero
  have hcompiled := (h.account.courses label entry hentry).compiled
  rw [incidents_begin hevent hlabel hzero, ← List.append_assoc] at hstarts hcompiled hapart
  rw [startsOf_concat, Incident.block?, if_pos rfl] at hstarts
  have hbalanced := hapart _ _ _ [] rfl
  rw [(List.append_inj' hstarts rfl).1, startsOf, List.length_map] at hbalanced
  rw [hcompiled, hbalanced, finishesOf_begins]

namespace Labelled

/-- The first blocks that have begun before stand at or before the end of the code, and none of them
is below a unit that has not begun. -/
theorem first_cases (h : Labelled t before log (u :: rest) w) (hzero : u.step = 0) {block : NodeId}
    {place : Nat} (hfirst : firstOf label log = some (block, place)) :
    ¬ t.AncestorOrSelf u.node block ∧ (place < w.assembly.instructions.length ∨
      place = w.assembly.instructions.length ∧ t.AncestorOrSelf block u.node) := by
  have hmem : (block, place) ∈ blocksOf label log := List.mem_of_mem_head? hfirst
  have hseen : block ∈ log.filterMap Incident.node? :=
    List.mem_filterMap.mpr ⟨_, mem_blocksOf.mp hmem, rfl⟩
  refine ⟨(h.tour.fresh block hseen u List.mem_cons_self).1 hzero, ?_⟩
  refine (h.places label _ hmem).imp_right (And.imp_right ?_)
  rintro ⟨v, hv, hnode, hbegun⟩
  have hrest : v ∈ rest := by
    rcases List.mem_cons.mp hv with rfl | hv
    · exact absurd hzero hbegun
    · exact hv
  have hsupports := (List.pairwise_cons.mp h.tour.supports).1 v hrest
  rw [← show v.node = block from hnode]
  exact hsupports.ancestor

/-- A block that is not the first of its label has no label of its own. -/
theorem marks_begins_next (h : Labelled t before log (u :: rest) w)
    (hfirst : ∀ other, firstOf other log' = (firstOf other log).or
      (if label = other then some (u.node, w'.assembly.instructions.length) else none))
    (hgrows : Grows (fun _ => True) (fun _ => True) jumps w w₁)
    (hmarks : w'.assembly.marks = w₁.assembly.marks) (hsome : firstOf label log ≠ none)
    (hapart : ∀ label, Apart label log) (other : String) (n : Nat) :
    w'.assembly.marks[n]? = some (some other) ↔
      ∃ block, firstOf other log' = some (block, n) ∧ ¬ Overtaken t log' other block n := by
  have hsame : ∀ other, firstOf other log' = firstOf other log := by
    intro other
    rw [hfirst other]
    split
    next heq =>
      subst heq
      obtain ⟨b, hb⟩ := Option.ne_none_iff_exists'.mp hsome
      rw [hb, Option.some_or]
    next => rw [Option.or_none]
  rw [hmarks, hgrows.marks, getElem?_append_none, h.marks hapart]
  simp only [hsame, overtaken_congr hsame]

/-- The label of a first block takes the place of the one that waits, if any does: that of a block
around it. -/
theorem marks_begins_first (h : Labelled t before log (u :: rest) w) (hzero : u.step = 0)
    (hfirst : ∀ other, firstOf other log' = (firstOf other log).or
      (if label = other then some (u.node, w'.assembly.instructions.length) else none))
    (hgrows : Grows (fun _ => True) (fun _ => True) jumps w w₁)
    (hlength : w'.assembly.instructions.length = w₁.assembly.instructions.length)
    (hmarks : w'.assembly.marks = w₁.assembly.marks.dropLast ++ [some label])
    (hnone : firstOf label log = none) (hapart : ∀ label, Apart label log) (other : String)
    (n : Nat) : w'.assembly.marks[n]? = some (some other) ↔
      ∃ block, firstOf other log' = some (block, n) ∧ ¬ Overtaken t log' other block n := by
  have hdrop : w₁.assembly.marks.dropLast.length = w'.assembly.instructions.length := by
    rw [List.length_dropLast, w₁.assembly.length_marks, hlength, Nat.add_sub_cancel]
  have hle : w.assembly.instructions.length ≤ w'.assembly.instructions.length :=
    hgrows.touches.grows.trans hlength.ge
  have hlabel : firstOf label log' = some (u.node, w'.assembly.instructions.length) := by
    rw [hfirst label, hnone, Option.none_or, if_pos rfl]
  have hothers : ∀ other, other ≠ label → firstOf other log' = firstOf other log := by
    intro other hne
    rw [hfirst other, if_neg (Ne.symm hne), Option.or_none]
  have helsewhere : ∀ other block place, place ≠ w'.assembly.instructions.length →
      (firstOf other log' = some (block, place) ↔ firstOf other log = some (block, place)) := by
    intro other block place hplace
    by_cases hne : other = label
    · subst hne
      rw [hlabel, hnone]
      simp [Ne.symm hplace]
    · rw [hothers other hne]
  rw [hmarks]
  -- Only the last place has another label than before; beyond it there is none.
  rcases Nat.lt_trichotomy n w'.assembly.instructions.length with hlt | rfl | hgt
  · rw [List.getElem?_append_left (hdrop ▸ hlt), List.getElem?_dropLast,
      if_pos (by rw [← List.length_dropLast, hdrop]; exact hlt), hgrows.marks,
      getElem?_append_none, h.marks hapart]
    simp only [Overtaken, helsewhere _ _ n hlt.ne]
  · rw [List.getElem?_append_right hdrop.le, hdrop, Nat.sub_self, List.getElem?_cons_zero,
      Option.some.injEq, Option.some.injEq]
    constructor
    · rintro rfl
      refine ⟨u.node, hlabel, ?_⟩
      rintro ⟨other, inner, hne, hinner, hancestor⟩
      rw [hothers other hne] at hinner
      exact (h.first_cases hzero hinner).1 hancestor
    · rintro ⟨block, hblock, hnot⟩
      by_contra hne
      -- Another label that has begun here is that of a block around the new one.
      rw [hothers other (Ne.symm hne)] at hblock
      refine hnot ⟨label, u.node, hne, hlabel, ?_⟩
      rcases (h.first_cases hzero hblock).2 with hlt | ⟨-, hancestor⟩
      · exact absurd (hlt.trans_le hle) (Nat.lt_irrefl _)
      · exact hancestor
  · have hout : (w₁.assembly.marks.dropLast ++ [some label]).length ≤ n := by
      rw [List.length_append, hdrop]
      exact hgt
    rw [List.getElem?_eq_none hout]
    refine iff_of_false (by simp) ?_
    rintro ⟨block, hblock, -⟩
    rw [helsewhere other block n hgt.ne'] at hblock
    rcases (h.first_cases hzero hblock).2 with hlt | ⟨heq, -⟩ <;> omega

/-- The block of a unit that takes its last step is no longer at the end of the code. -/
theorem places_step (h : Labelled t before log (u :: rest) w) (hrest : ∀ v ∈ rest, v ∈ stack')
    (hle : w.assembly.instructions.length ≤ w'.assembly.instructions.length)
    (hends : u.task.isEvent = true → u.step ≠ 0 →
      w.assembly.instructions.length < w'.assembly.instructions.length)
    {b : NodeId × Nat} (hb : b ∈ blocksOf label log) : b.2 < w'.assembly.instructions.length ∨
      b.2 = w'.assembly.instructions.length ∧ ∃ v ∈ stack', v.node = b.1 ∧ v.step ≠ 0 := by
  rcases h.places label b hb with hlt | ⟨heq, v, hv, hnode, hbegun⟩
  · exact Or.inl (hlt.trans_le hle)
  rcases List.mem_cons.mp hv with rfl | hv
  · have hevent : v.task.isEvent = true := by
      obtain ⟨construct, hconstruct, hinitial⟩ := h.tour.units v List.mem_cons_self
      rw [hnode, (h.events label b.1 b.2 (mem_blocksOf.mp hb)).1] at hconstruct
      rw [← Task.isEvent_initial, hinitial, ← Option.some.inj hconstruct]
      rfl
    exact Or.inl (heq ▸ hends hevent hbegun)
  · rcases Nat.lt_or_eq_of_le hle with hlt | hsame
    · exact Or.inl (heq ▸ hlt)
    · exact Or.inr ⟨heq.trans hsame, v, hrest v hv, hnode, hbegun⟩

/-- A turn of the loop keeps the labels. -/
theorem move (ht : t.Linked) (hresolved : Program.resolved cfg t = .ok before)
    (h : Labelled t before log (u :: rest) w) (hmove : Move cfg t (u :: rest) w stack' w') :
    Labelled t before (log ++ u.incidents t w w') stack' w' := by
  have hjournal := h.toJournal.move ht hresolved hmove
  have hw := h.attended.vocabulary
  obtain ⟨p, u', hstep, hrest, hstays⟩ := hmove.stays
  by_cases hbegin : u.task.isEvent = true ∧ u.step = 0
  · obtain ⟨hevent, hzero⟩ := hbegin
    have hnode := (Program.resolved_prepared hresolved).isEvent
      (h.tour.construct_of_isEvent List.mem_cons_self hevent)
    obtain ⟨hp, label, entry, w₁, jumps, hlabel, hentry, hgrows, hbegins⟩ :=
      step_begins hw hstep hnode hevent hzero
    have hle : w.assembly.instructions.length ≤ w'.assembly.instructions.length :=
      hgrows.touches.grows.trans hbegins.length.ge
    refine ⟨hjournal, fun other b hb => ?_, fun hapart => ?_⟩
    · rw [blocksOf_begin hevent hlabel hzero] at hb
      rcases List.mem_append.mp hb with hb | hb
      · exact h.places_step hrest hle (fun _ hne => absurd hzero hne) hb
      · split at hb
        · obtain ⟨hsame, hcount, -⟩ := step_counts hstep
          rw [List.mem_singleton.mp hb]
          exact Or.inr ⟨rfl, u', hstays hp, hsame, hcount ▸ Nat.succ_ne_zero _⟩
        · cases hb
    · have hfirst : ∀ other, firstOf other (log ++ u.incidents t w w') = _ :=
        firstOf_begin hevent hlabel hzero
      have hapart' : ∀ label, Apart label log := fun label => (hapart label).of_append
      have hcompiled := hjournal.compiled_eq hevent hlabel hzero (hbegins.changed.get? hentry)
        (hapart label)
      rw [EntryPoint.begun_compiled] at hcompiled
      have hmarks := hbegins.marks
      -- Only the first block of a label marks the place where it begins.
      by_cases hnone : firstOf label log = none
      · have hnil : entry.compiled = 0 := by
          rw [hcompiled, List.head?_eq_none_iff.mp hnone, List.length_nil]
        rw [if_pos hnil] at hmarks
        exact h.marks_begins_first hzero hfirst hgrows hbegins.length hmarks hnone hapart'
      · have hsome : entry.compiled ≠ 0 := by
          rw [hcompiled]
          exact fun hnil => hnone (List.head?_eq_none_iff.mpr (List.length_eq_zero_iff.mp hnil))
        rw [if_neg hsome] at hmarks
        exact h.marks_begins_next hfirst hgrows hmarks hnone hapart'
  · have hnot : u.task.isEvent = true → u.step ≠ 0 := fun hevent hzero => hbegin ⟨hevent, hzero⟩
    obtain ⟨⟨jumps, hgrows⟩, hends⟩ := step_grows hw hstep hnot
    have hfirst : ∀ other, firstOf other (log ++ u.incidents t w w') = firstOf other log :=
      fun other => congrArg List.head? (blocksOf_incidents hnot)
    refine ⟨hjournal, fun other b hb => ?_, fun hapart other n => ?_⟩
    · rw [blocksOf_incidents hnot] at hb
      exact h.places_step hrest hgrows.touches.grows (fun hevent _ => hends hevent) hb
    · rw [hgrows.marks, getElem?_append_none, h.marks (fun label => (hapart label).of_append)]
      simp only [hfirst, overtaken_congr hfirst]

end Labelled

/-- The labels of a run are kept to its end. -/
theorem Records.labelled (ht : t.Linked) (hresolved : Program.resolved cfg t = .ok before)
    (h : Records cfg t stack w log' stack' w') (hstart : Labelled t before log stack w) :
    Labelled t before (log ++ log') stack' w' :=
  h.keeps (fun hlog hmove => hlog.move ht hresolved hmove) hstart

theorem Resolution.Prepared.labelled (h : Prepared cfg t before)
    (hstart : Yields (start t Tree.root none) before u before) :
    Labelled t before [] [u] before := by
  have hmarks := h.unstarted.marks_eq
  refine ⟨h.journal hstart, by rintro label b ⟨⟩, fun _ label n => iff_of_false (fun hmark => ?_) ?_⟩
  · rw [hmarks] at hmark
    cases n <;> simp at hmark
  · rintro ⟨block, ⟨⟩, -⟩

end Runs

/-! ## Programs

At the end no block is open, so there is code behind each place where one begins, and no label
waits. In code that assembles, blocks of one label follow one another, as a jump would wait in
vain otherwise. -/

section Programs

variable {t : Tree} {before after : Workspace} {log : List Incident} {label : String}

/-- At the end, the lines with labels are those where first blocks begin that are not overtaken. -/
theorem Labelled.label_iff (h : Labelled t before log [] after) (hapart : ∀ label, Apart label log)
    (n : Nat) : after.assembly.lines[n]?.bind (·.label) = some label ↔
      ∃ block, firstOf label log = some (block, n) ∧ ¬ Overtaken t log label block n := by
  rw [← h.marks hapart label n]
  constructor
  · intro hlabel
    obtain ⟨line, hline, -⟩ := Option.bind_eq_some_iff.mp hlabel
    rw [after.assembly.getElem?_marks (Array.getElem?_eq_some_iff.mp hline).1, hlabel]
  · intro hmark
    obtain ⟨block, hfirst, -⟩ := (h.marks hapart label n).mp hmark
    -- No block is open any more, so there is code behind every place.
    rcases h.places label _ (List.mem_of_mem_head? hfirst) with hlt | ⟨-, v, hv, -⟩
    · rw [Assembly.length_instructions] at hlt
      rw [after.assembly.getElem?_marks hlt] at hmark
      exact Option.some.inj hmark
    · cases hv

/-- At the end, a label is on one line, or on none if its first block has been overtaken. -/
theorem Labelled.count_le_one (h : Labelled t before log [] after)
    (hapart : ∀ label, Apart label log) {block : NodeId} {place : Nat}
    (hfirst : firstOf label log = some (block, place)) :
    (after.assembly.lines.toList.filterMap (·.label)).count label ≤ 1 ∧
      ((after.assembly.lines.toList.filterMap (·.label)).count label = 0 ↔
        Overtaken t log label block place) := by
  have hlines : ∀ n, after.assembly.lines.toList[n]?.bind (·.label) = some label ↔
      n = place ∧ ¬ Overtaken t log label block place := by
    intro n
    rw [Array.getElem?_toList, h.label_iff hapart, hfirst]
    constructor
    · rintro ⟨other, heq, hnot⟩
      obtain ⟨rfl, rfl⟩ := Prod.mk.inj (Option.some.inj heq)
      exact ⟨rfl, hnot⟩
    · rintro ⟨rfl, hnot⟩
      exact ⟨block, rfl, hnot⟩
  by_cases hovertaken : Overtaken t log label block place
  · have hzero : (after.assembly.lines.toList.filterMap (·.label)).count label = 0 := by
      refine List.count_eq_zero.mpr fun hmem => ?_
      obtain ⟨line, hline, hlabel⟩ := List.mem_filterMap.mp hmem
      obtain ⟨n, hn⟩ := List.mem_iff_getElem?.mp hline
      exact ((hlines n).mp (by rw [hn]; exact hlabel)).2 hovertaken
    rw [hzero]
    exact ⟨Nat.zero_le 1, iff_of_true rfl hovertaken⟩
  · have hone : (after.assembly.lines.toList.filterMap (·.label)).count label = 1 :=
      count_filterMap_eq_one fun n => (hlines n).trans (and_iff_left hovertaken)
    rw [hone]
    exact ⟨Nat.le_refl 1, iff_of_false Nat.one_ne_zero hovertaken⟩

/-- In code that assembles, no block stands inside one of the same label. -/
theorem Journal.apart (h : Journal t before log [] after) {types : TypeTable} {p : Program}
    (hassembled : Program.ofAssembly types after.assembly = .ok p) (label : String) :
    Apart label log := by
  by_cases hnil : startsOf label log = []
  · exact apart_of_startsOf_nil hnil
  · exact ((h.assembles_iff.mp ⟨p, hassembled⟩ label).2 hnil).2

end Programs

variable {cfg : Setting} {source : String} {p : Program}

/-- In a program that compiles, the label of a block that is compiled is exported at most once. It is
not exported just if its first block has been overtaken: the first block of another label begins at
the same place, inside it. -/
theorem Program.compile_exports (h : Program.compile cfg source = .ok p) :
    ∃ t before after first log, Program.Stages cfg source p t before after ∧
      Yields (start t Tree.root none) before first before ∧
      Records cfg t [first] before log [] after ∧
      ∀ label node start, .begins label node start ∈ log →
        ∃ block place, firstOf label log = some (block, place) ∧
          p.entryPoints.count label ≤ 1 ∧
          (p.entryPoints.count label = 0 ↔ Overtaken t log label block place) := by
  obtain ⟨t, before, after, hstages⟩ := Program.compile_stages h
  obtain ⟨x, -, hholds⟩ := Tree.read?_ok (Tree.read_eq_ok_iff.mp hstages.read)
  obtain ⟨first, hstart, hend⟩ := generate_cases hholds hstages.generated
  obtain ⟨log, hrecords⟩ := hend.records
  refine ⟨t, before, after, first, log, hstages, hstart, hrecords, fun label node start hbegins => ?_⟩
  have hprepared := Program.resolved_prepared hstages.resolved
  have hlabelled : Labelled t before log [] after :=
    hrecords.labelled hholds.linked hstages.resolved (hprepared.labelled hstart)
  obtain ⟨⟨block, place⟩, hfirst⟩ : ∃ b, firstOf label log = some b := by
    refine Option.ne_none_iff_exists'.mp fun hnone => ?_
    have hmem : (node, start) ∈ blocksOf label log := mem_blocksOf.mpr hbegins
    rw [List.head?_eq_none_iff.mp hnone] at hmem
    cases hmem
  have hcount := hlabelled.count_le_one (hlabelled.apart hstages.assembled) hfirst
  rw [← hstages.entryPoints] at hcount
  exact ⟨block, place, hfirst, hcount⟩

/-- A body that begins with a block of another event loses its label to it. -/
theorem Program.compile_exports_overtaken :
    ∃ p t before after first log block place,
      Program.compile ⟨Catalog.empty, true⟩ "when(_a,(when(_b,1),2))" = .ok p ∧
      p.entryPoints = ["_b"] ∧
      Program.Stages ⟨Catalog.empty, true⟩ "when(_a,(when(_b,1),2))" p t before after ∧
      Records ⟨Catalog.empty, true⟩ t [first] before log [] after ∧
      firstOf "_a" log = some (block, place) ∧ Overtaken t log "_a" block place := by
  have hok : (Program.compile ⟨Catalog.empty, true⟩ "when(_a,(when(_b,1),2))").toOption.map
      (·.entryPoints) = some ["_b"] := by
    decide +kernel
  obtain ⟨p, hp, hentries⟩ := exists_ok_of_map hok
  obtain ⟨t, before, after, first, log, hstages, hstart, hrecords, hexports⟩ :=
    Program.compile_exports hp
  have htree : (Tree.read "when(_a,(when(_b,1),2))").toOption.all fun t =>
      t.eventLabel? Tree.root == some "_a" && (Program.resolved ⟨Catalog.empty, true⟩
        t).toOption.all fun w => w.construct? Tree.root == some .event := by
    decide +kernel
  rw [hstages.read, Except.toOption, Option.all_some, hstages.resolved, Except.toOption,
    Option.all_some, Bool.and_eq_true, beq_iff_eq, beq_iff_eq] at htree
  obtain ⟨hlabel, hevent⟩ := htree
  -- The run starts with the outer block.
  have hbegins : ∃ start, .begins "_a" Tree.root start ∈ log := by
    obtain ⟨-, construct, hconstruct, rfl⟩ := start_cases hstart
    obtain rfl := Option.some.inj (hevent.symm.trans hconstruct)
    cases hrecords with
    | @head _ _ _ _ _ w' _ _ hmove hrest =>
      refine ⟨w'.assembly.instructions.length, List.mem_append_left _ ?_⟩
      rw [incidents_begin rfl hlabel rfl]
      exact List.mem_append_right _ List.mem_cons_self
  obtain ⟨start, hbegins⟩ := hbegins
  obtain ⟨block, place, hfirst, -, hzero⟩ := hexports "_a" Tree.root start hbegins
  rw [hentries] at hzero
  exact ⟨p, t, before, after, first, log, block, place, hp, hentries, hstages, hrecords, hfirst,
    hzero.mp (by decide)⟩

end SexprAsm
