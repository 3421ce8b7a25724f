import SexprAsm.Proofs.Generation.Settling

/-!
# The jumps of an event

The jumps of a label are those of its calls and those that end its blocks. `Course` says which of
them wait for a target after some calls, and after some blocks have begun and ended, whether or not
the blocks stand inside each other.

An entry point remembers one jump to the next block at most, in its chain. While blocks of the label
follow one another that is enough (`Orderly`). As soon as one begins inside another, the chain gets
a second jump to remember or keeps one that no block will take up, and from then on some jump waits
to the end (`Doomed`).
-/

namespace SexprAsm

/-- The jump waits for its target. -/
def Waits (code : List Instruction) (k : Nat) : Prop := code[k]? = some (.jump .unresolved)

/-- Blocks follow one another: of the jumps that end them, at most the one in the chain waits, and
it waits for a block that has yet to begin. -/
structure Orderly (code : List Instruction) (entry : EntryPoint) (opened : Nat)
    (finishes : List Nat) : Prop where
  single : opened ≤ 1
  closed : entry.chain ≠ none → opened = 0 ∧ entry.compiled < entry.blocks
  linked : opened = 0 → 0 < entry.compiled → entry.compiled < entry.blocks → entry.chain ≠ none
  waits : ∀ k ∈ finishes, Waits code k → entry.chain = some k

/-- Some jump waits, or will wait, for a block that never begins. -/
inductive Doomed (code : List Instruction) (entry : EntryPoint) (opened : Nat)
    (finishes : List Nat) : Prop where
  /-- Two blocks are open: the inner one will end with a jump before the outer one does. -/
  | nested (h : 2 ≤ opened)
  /-- A jump is in the chain while a block is open, or after all blocks have ended. -/
  | hung (hchain : entry.chain ≠ none) (h : 0 < opened ∨ entry.blocks ≤ entry.compiled)
  /-- A jump waits that is no longer in the chain. -/
  | lost (k : Nat) (hk : k ∈ finishes) (hwaits : Waits code k) (hchain : entry.chain ≠ some k)

/-- How the entry point of a label and the code agree with what has happened: with the jumps of its
calls, with where its blocks have begun and with the instructions that have ended them, while some
of its blocks are open. -/
structure Course (code : List Instruction) (entry : EntryPoint) (opened : Nat) (apart : Prop)
    (calls starts finishes : List Nat) : Prop where
  compiled : entry.compiled = finishes.length
  balanced : starts.length = finishes.length + opened
  bounded : starts.length ≤ entry.blocks
  body : entry.bodyStart = none ↔ starts = []
  start : ∀ start ∈ entry.bodyStart, start.Sited code.length
  landing : entry.landingPoints = if starts = [] then calls else []
  called : ∀ k ∈ calls, ∃ target, code[k]? = some (.jump target) ∧
    if starts = [] then target = .unresolved else target.Sited code.length
  chain : ∀ k ∈ entry.chain, k ∈ finishes ∧ Waits code k
  ended : ∀ k ∈ finishes, ∃ i, code[k]? = some i ∧ (i = .jump .unresolved ∨ i.Sited code.length)
  orderly : apart → Orderly code entry opened finishes
  doomed : ¬ apart → Doomed code entry opened finishes

namespace Course

variable {code code' : List Instruction} {entry : EntryPoint} {opened : Nat} {apart : Prop}
  {calls starts finishes : List Nat}

theorem lt_length (h : Course code entry opened apart calls starts finishes) {k : Nat}
    (hk : k ∈ finishes) : k < code.length := by
  obtain ⟨i, hi, -⟩ := h.ended k hk
  exact (List.getElem?_eq_some_iff.mp hi).1

/-- Only the jumps of the calls and the ends of the blocks matter. -/
theorem same (h : Course code entry opened apart calls starts finishes)
    (hcode : ∀ k, k ∈ calls ∨ k ∈ finishes → code'[k]? = code[k]?)
    (hlength : code.length ≤ code'.length) :
    Course code' entry opened apart calls starts finishes where
  compiled := h.compiled
  balanced := h.balanced
  bounded := h.bounded
  body := h.body
  start start hstart := (h.start start hstart).mono hlength
  landing := h.landing
  called k hk := by
    obtain ⟨target, hget, htarget⟩ := h.called k hk
    refine ⟨target, (hcode k (Or.inl hk)).trans hget, ?_⟩
    split
    next hnil => rwa [if_pos hnil] at htarget
    next hsome =>
      rw [if_neg hsome] at htarget
      exact htarget.mono hlength
  chain k hk := by
    obtain ⟨hmem, hwaits⟩ := h.chain k hk
    exact ⟨hmem, (hcode k (Or.inr hmem)).trans hwaits⟩
  ended k hk := by
    obtain ⟨i, hi, hsited⟩ := h.ended k hk
    exact ⟨i, (hcode k (Or.inr hk)).trans hi, hsited.imp_right (·.mono hlength)⟩
  orderly hapart := by
    obtain ⟨hsingle, hclosed, hlinked, hwaits⟩ := h.orderly hapart
    refine ⟨hsingle, hclosed, hlinked, fun k hk hwait => hwaits k hk ?_⟩
    exact (hcode k (Or.inr hk)).symm.trans hwait
  doomed hapart := by
    cases h.doomed hapart with
    | nested hopened => exact .nested hopened
    | hung hchain hcase => exact .hung hchain hcase
    | lost k hk hwaits hchain => exact .lost k hk ((hcode k (Or.inr hk)).trans hwaits) hchain

/-- A call jumps to the first block, or waits for it. -/
theorem call (h : Course code entry opened apart calls starts finishes) {jump : Nat}
    (hjump : code[jump]? = some (.jump entry.landing)) :
    Course code (entry.called jump) opened apart (calls ++ [jump]) starts finishes := by
  have hcalled : ∀ k ∈ calls ++ [jump], ∃ target, code[k]? = some (.jump target) ∧
      if starts = [] then target = .unresolved else target.Sited code.length := by
    intro k hk
    rcases List.mem_append.mp hk with hk | hk
    · exact h.called k hk
    · rw [List.mem_singleton.mp hk]
      refine ⟨entry.landing, hjump, ?_⟩
      unfold EntryPoint.landing
      cases hbody : entry.bodyStart with
      | none =>
        rw [if_pos (h.body.mp hbody)]
        rfl
      | some start =>
        rw [if_neg fun hnil => by rw [h.body.mpr hnil] at hbody; cases hbody]
        exact h.start start hbody
  unfold EntryPoint.called
  -- A call waits for the first block only if this has not begun.
  split
  next hsome =>
    have hstarts : starts ≠ [] := by
      rintro hnil
      rw [h.body.mpr hnil] at hsome
      cases hsome
    refine ⟨h.compiled, h.balanced, h.bounded, h.body, h.start, ?_, hcalled, h.chain, h.ended,
      h.orderly, h.doomed⟩
    rw [h.landing, if_neg hstarts, if_neg hstarts]
  next hnone =>
    have hstarts : starts = [] := h.body.mp (by simpa using hnone)
    refine ⟨h.compiled, h.balanced, h.bounded, h.body, h.start, ?_, hcalled, h.chain, h.ended,
      fun hapart => ?_, fun hapart => ?_⟩
    · rw [h.landing, if_pos hstarts, if_pos hstarts]
    · obtain ⟨hsingle, hclosed, hlinked, hwaits⟩ := h.orderly hapart
      exact ⟨hsingle, hclosed, hlinked, hwaits⟩
    · cases h.doomed hapart with
      | nested hopened => exact .nested hopened
      | hung hchain hcase => exact .hung hchain hcase
      | lost k hk hwaits hchain => exact .lost k hk hwaits hchain

/-- A block of the label has ended if there is a jump that ends one. -/
theorem compiled_ne_zero (h : Course code entry opened apart calls starts finishes) {k : Nat}
    (hk : k ∈ finishes) : entry.compiled ≠ 0 := by
  rw [h.compiled]
  exact (List.length_pos_of_mem hk).ne'

/-- Of the jumps that end blocks, a block that begins takes up the one in the chain. -/
theorem mem_awaited_iff (h : Course code entry opened apart calls starts finishes) {k : Nat}
    (hk : k ∈ finishes) : k ∈ entry.awaited ↔ entry.chain = some k := by
  rw [EntryPoint.awaited, if_neg (h.compiled_ne_zero hk), Option.mem_toList]

theorem chain_begun (h : Course code entry opened apart calls starts finishes)
    (start : JumpTarget) : (entry.begun start).chain = none := by
  unfold EntryPoint.begun
  split
  next hzero =>
    refine Option.eq_none_iff_forall_not_mem.mpr fun k hk => ?_
    exact h.compiled_ne_zero (h.chain k hk).1 hzero
  next => rfl

/-- No block has ended before the first one has begun. -/
theorem compiled_of_nil (h : Course code entry opened apart calls starts finishes)
    (hnil : starts = []) : entry.compiled = 0 := by
  have hbalanced := h.balanced
  rw [hnil, List.length_nil] at hbalanced
  rw [h.compiled]
  omega

section Begins

variable {start : JumpTarget} (h : Course code entry opened apart calls starts finishes)
  (hstart : start.Sited code.length)
  (htargets : ∀ k ∈ entry.awaited, ∀ i, code[k]? = some i →
    ∃ i', i.retarget? start = some i' ∧ code'[k]? = some i')
  (hkept : ∀ k, k < code.length → k ∉ entry.awaited → code'[k]? = code[k]?)

include h

theorem bodyStart_begun : (entry.begun start).bodyStart ≠ none ∧
    ∀ other ∈ (entry.begun start).bodyStart, other = start ∨ other ∈ entry.bodyStart := by
  unfold EntryPoint.begun
  split
  next => exact ⟨by simp, fun other hother => Or.inl (Option.some.inj hother).symm⟩
  next hne =>
    exact ⟨fun hnone => hne (h.compiled_of_nil (h.body.mp hnone)), fun _ hother => Or.inr hother⟩

theorem landingPoints_begun : (entry.begun start).landingPoints = [] := by
  unfold EntryPoint.begun
  split
  next => rfl
  next hne =>
    show entry.landingPoints = []
    rw [h.landing, if_neg fun hnil => hne (h.compiled_of_nil hnil)]

/-- A jump that ends a block keeps its target or gets the start of the block that begins. -/
theorem ended_begun (htargets : ∀ k ∈ entry.awaited, ∀ i, code[k]? = some i →
      ∃ i', i.retarget? start = some i' ∧ code'[k]? = some i')
    (hkept : ∀ k, k < code.length → k ∉ entry.awaited → code'[k]? = code[k]?) {k : Nat}
    (hk : k ∈ finishes) : ∃ i i', code[k]? = some i ∧ code'[k]? = some i' ∧
      (entry.chain = some k ∧ i.retarget? start = some i' ∨ entry.chain ≠ some k ∧ i' = i) := by
  obtain ⟨i, hi, -⟩ := h.ended k hk
  by_cases hmem : k ∈ entry.awaited
  · obtain ⟨i', hi', hget⟩ := htargets k hmem i hi
    exact ⟨i, i', hi, hget, Or.inl ⟨(h.mem_awaited_iff hk).mp hmem, hi'⟩⟩
  · refine ⟨i, i, hi, (hkept k (h.lt_length hk) hmem).trans hi, Or.inr ⟨fun heq => hmem ?_, rfl⟩⟩
    exact (h.mem_awaited_iff hk).mpr heq

include hstart htargets hkept

/-- What has been taken up goes to the block: only a jump that was not in the chain still waits. -/
theorem waits_begun_iff {k : Nat} (hk : k ∈ finishes) :
    Waits code' k ↔ Waits code k ∧ entry.chain ≠ some k := by
  obtain ⟨i, i', hi, hi', ⟨hchain, hretarget⟩ | ⟨hchain, rfl⟩⟩ := h.ended_begun htargets hkept hk
  · refine iff_of_false (fun hwait => ?_) fun hwait => hwait.2 hchain
    obtain rfl := Option.some.inj (hi'.symm.trans hwait)
    obtain rfl := Option.some.inj (Instruction.target?_of_retarget? hretarget)
    exact hstart.elim
  · rw [Waits, Waits, hi, hi']
    exact ⟨fun hwait => ⟨hwait, hchain⟩, And.left⟩

theorem orderly_begins (hapart : apart) (hopened : opened = 0) :
    Orderly code' (entry.begun start) (opened + 1) finishes := by
  have hchain := h.chain_begun start
  subst hopened
  refine ⟨Nat.le_refl 1, fun hne => absurd hchain hne, (by simp),
    fun k hk hwait => ?_⟩
  obtain ⟨hwait, hne⟩ := (h.waits_begun_iff hstart htargets hkept hk).mp hwait
  exact absurd ((h.orderly hapart).waits k hk hwait) hne

theorem doomed_begins (hmore : starts.length < entry.blocks) (hapart : ¬ (apart ∧ opened = 0)) :
    Doomed code' (entry.begun start) (opened + 1) finishes := by
  by_cases hbefore : apart
  · exact .nested (Nat.succ_le_succ (Nat.pos_of_ne_zero fun hzero => hapart ⟨hbefore, hzero⟩))
  cases h.doomed hbefore with
  | nested hopened => exact .nested (hopened.trans (Nat.le_succ _))
  | hung hchain hcase =>
    rcases hcase with hopened | hle
    · exact .nested (Nat.succ_le_succ hopened)
    · have hbalanced := h.balanced
      have hcount := h.compiled
      omega
  | lost k hk hwait hne =>
    refine .lost k hk ((h.waits_begun_iff hstart htargets hkept hk).mpr ⟨hwait, hne⟩) ?_
    rw [h.chain_begun start]
    rintro ⟨⟩

/-- The first block takes up the waiting calls, a later one the end of the block before. -/
theorem begins {s : Nat} (hmore : starts.length < entry.blocks)
    (hlength : code'.length = code.length) :
    Course code' (entry.begun start) (opened + 1) (apart ∧ opened = 0) calls (starts ++ [s])
      finishes := by
  have hsome : starts ++ [s] ≠ [] := by simp
  obtain ⟨hbegun, hbody⟩ := h.bodyStart_begun
  refine { compiled := ?compiled, balanced := ?balanced, bounded := ?bounded,
           body := iff_of_false hbegun hsome, start := fun other hother => ?start,
           landing := ?landing, called := fun k hk => ?called, chain := ?chain,
           ended := fun k hk => ?ended,
           orderly := fun ⟨hapart, hopened⟩ =>
             h.orderly_begins hstart htargets hkept hapart hopened,
           doomed := h.doomed_begins hstart htargets hkept hmore }
  case compiled => rw [EntryPoint.begun_compiled, h.compiled]
  case balanced =>
    rw [List.length_append, List.length_singleton, h.balanced]
    omega
  case bounded => rwa [List.length_append, EntryPoint.begun_blocks]
  case start =>
    rw [hlength]
    rcases hbody other hother with rfl | hother
    · exact hstart
    · exact h.start other hother
  case landing => rw [if_neg hsome, h.landingPoints_begun]
  case called =>
    simp only [if_neg hsome, hlength]
    obtain ⟨target, hget, htarget⟩ := h.called k hk
    by_cases hmem : k ∈ entry.awaited
    · obtain ⟨i', hi', hget'⟩ := htargets k hmem _ hget
      obtain rfl := Option.some.inj hi'
      exact ⟨start, hget', hstart⟩
    · refine ⟨target, (hkept k (List.getElem?_eq_some_iff.mp hget).1 hmem).trans hget, ?_⟩
      split at htarget
      next hnil =>
        refine absurd ?_ hmem
        rw [EntryPoint.awaited, if_pos (h.compiled_of_nil hnil), h.landing, if_pos hnil]
        exact hk
      next => exact htarget
  case chain =>
    rw [h.chain_begun start]
    rintro _ ⟨⟩
  case ended =>
    rw [hlength]
    obtain ⟨i, i', hi, hi', ⟨-, hretarget⟩ | ⟨-, rfl⟩⟩ := h.ended_begun htargets hkept hk
    · exact ⟨i', hi', Or.inr (.retarget hstart hretarget)⟩
    · obtain ⟨j, hj, hcase⟩ := h.ended k hk
      obtain rfl := Option.some.inj (hi.symm.trans hj)
      exact ⟨i', hi', hcase⟩

end Begins

section Ends

variable (h : Course code entry opened apart calls starts finishes)

include h

/-- The instruction that ends a block touches no jump of the label. -/
theorem append_ending :
    Course (code ++ [entry.ending]) entry opened apart calls starts finishes := by
  refine h.same (fun k hk => List.getElem?_append_left ?_) (by simp)
  rcases hk with hk | hk
  · obtain ⟨target, hget, -⟩ := h.called k hk
    exact (List.getElem?_eq_some_iff.mp hget).1
  · exact h.lt_length hk

theorem orderly_ends (hopened : opened ≠ 0) (hapart : apart) : Orderly (code ++ [entry.ending])
    (entry.ended code.length) (opened - 1) (finishes ++ [code.length]) := by
  have hbalanced := h.balanced
  have hbounded := h.bounded
  have hcount := h.compiled
  obtain ⟨hsingle, hclosed, -, hwaits⟩ := h.append_ending.orderly hapart
  -- The block that ends was the only one, and no jump was in the chain.
  have hnone : entry.chain = none := by
    by_contra hne
    exact hopened (hclosed hne).1
  refine ⟨by omega, fun hne => ⟨by omega, ?_⟩, fun _ _ hlt => ?_, fun k hk hwait => ?_⟩
  · rw [EntryPoint.ended_chain, hnone] at hne
    rw [EntryPoint.ended_compiled, EntryPoint.ended_blocks]
    split at hne
    · exact absurd rfl hne
    · omega
  · rw [EntryPoint.ended_compiled, EntryPoint.ended_blocks] at hlt
    rw [EntryPoint.ended_chain, if_neg (by omega)]
    rintro ⟨⟩
  · rw [EntryPoint.ended_chain]
    rcases List.mem_append.mp hk with hk | hk
    · have hold := hwaits k hk hwait
      rw [hnone] at hold
      cases hold
    · -- The new jump waits if a block is to come.
      obtain rfl := List.mem_singleton.mp hk
      have hending := Option.some.inj (List.getElem?_concat_length.symm.trans hwait)
      unfold EntryPoint.ending at hending
      split at hending
      next => cases hending
      next hlt => rw [if_neg hlt]

theorem doomed_ends (hapart : ¬ apart) : Doomed (code ++ [entry.ending])
    (entry.ended code.length) (opened - 1) (finishes ++ [code.length]) := by
  have hbalanced := h.balanced
  have hbounded := h.bounded
  have hcount := h.compiled
  have hnew : ∀ k ∈ finishes, some code.length ≠ some k :=
    fun k hk heq => (h.lt_length hk).ne (Option.some.inj heq).symm
  cases h.append_ending.doomed hapart with
  | nested htwo =>
    refine .hung ?_ (Or.inl (by omega))
    rw [EntryPoint.ended_chain, if_neg (by omega)]
    rintro ⟨⟩
  | hung hne hcase =>
    by_cases hle : entry.blocks ≤ entry.compiled + 1
    · refine .hung ?_ (Or.inr ?_)
      · rwa [EntryPoint.ended_chain, if_pos hle]
      · rwa [EntryPoint.ended_compiled, EntryPoint.ended_blocks]
    · -- The end of this block takes the place of the jump in the chain.
      obtain ⟨k, hk⟩ := Option.ne_none_iff_exists'.mp hne
      obtain ⟨hmem, hwaits⟩ := h.append_ending.chain k hk
      refine .lost k (List.mem_append_left _ hmem) hwaits ?_
      rw [EntryPoint.ended_chain, if_neg hle]
      exact hnew k hmem
  | lost k hk hwaits hne =>
    refine .lost k (List.mem_append_left _ hk) hwaits ?_
    rw [EntryPoint.ended_chain]
    split
    · exact hne
    · exact hnew k hk

/-- A block that ends hands on to the next one, if there is one to come. -/
theorem ends (hopened : opened ≠ 0) : Course (code ++ [entry.ending]) (entry.ended code.length)
    (opened - 1) apart calls starts (finishes ++ [code.length]) := by
  have hsame := h.append_ending
  refine { compiled := ?compiled, balanced := ?balanced, bounded := ?bounded, body := ?body,
           start := ?start, landing := ?landing, called := hsame.called,
           chain := fun k hk => ?chain, ended := fun k hk => ?ended,
           orderly := h.orderly_ends hopened, doomed := h.doomed_ends }
  case compiled =>
    rw [EntryPoint.ended_compiled, List.length_append, List.length_singleton, h.compiled]
  case balanced =>
    have hbalanced := h.balanced
    rw [List.length_append, List.length_singleton]
    omega
  case bounded =>
    rw [EntryPoint.ended_blocks]
    exact h.bounded
  case body =>
    rw [EntryPoint.ended_bodyStart]
    exact h.body
  case start =>
    rw [EntryPoint.ended_bodyStart]
    exact hsame.start
  case landing =>
    rw [EntryPoint.ended_landingPoints]
    exact h.landing
  case chain =>
    rw [EntryPoint.ended_chain] at hk
    split at hk
    next =>
      obtain ⟨hmem, hwaits⟩ := hsame.chain k hk
      exact ⟨List.mem_append_left _ hmem, hwaits⟩
    next hlt =>
      obtain rfl := Option.some.inj hk
      refine ⟨List.mem_append_right _ List.mem_cons_self, List.getElem?_concat_length.trans ?_⟩
      rw [EntryPoint.ending, if_neg hlt]
  case ended =>
    rcases List.mem_append.mp hk with hk | hk
    · exact hsame.ended k hk
    · rw [List.mem_singleton.mp hk]
      refine ⟨_, List.getElem?_concat_length, ?_⟩
      unfold EntryPoint.ending
      split
      · exact Or.inr (.ofNone rfl)
      · exact Or.inl rfl

end Ends

/-- Once no block is open, no jump of the label waits just if its calls have a block to go to, and
its blocks are all that have been declared and have followed one another. -/
theorem none_waits_iff (h : Course code entry 0 apart calls starts finishes) :
    (∀ k, k ∈ calls ∨ k ∈ finishes → ¬ Waits code k) ↔
      (calls ≠ [] → starts ≠ []) ∧ (starts ≠ [] → starts.length = entry.blocks ∧ apart) := by
  have hbalanced := h.balanced
  have hbounded := h.bounded
  have hcount := h.compiled
  constructor
  · intro hnone
    have hchain : entry.chain = none := by
      refine Option.eq_none_iff_forall_not_mem.mpr fun k hk => ?_
      obtain ⟨hmem, hwaits⟩ := h.chain k hk
      exact hnone k (Or.inr hmem) hwaits
    refine ⟨fun hcalls hnil => ?_, fun hsome => ?_⟩
    · obtain ⟨k, hk⟩ := List.exists_mem_of_ne_nil calls hcalls
      obtain ⟨target, hget, htarget⟩ := h.called k hk
      rw [if_pos hnil] at htarget
      subst htarget
      exact hnone k (Or.inl hk) hget
    · have hpos := List.length_pos_iff.mpr hsome
      have hapart : apart := by
        by_contra hapart
        cases h.doomed hapart with
        | nested htwo => omega
        | hung hne _ => exact hne hchain
        | lost k hk hwaits _ => exact hnone k (Or.inr hk) hwaits
      refine ⟨?_, hapart⟩
      by_contra hne
      -- The last block that has ended would wait for a further one.
      exact (h.orderly hapart).linked rfl (by omega) (by omega) hchain
  · rintro ⟨hcalls, hstarts⟩ k hk hwaits
    rcases hk with hk | hk
    · have hsome := hcalls (List.ne_nil_of_mem hk)
      obtain ⟨target, hget, htarget⟩ := h.called k hk
      rw [if_neg hsome] at htarget
      obtain rfl := Instruction.jump.inj (Option.some.inj (hget.symm.trans hwaits))
      exact htarget
    · have hpos := List.length_pos_of_mem hk
      have hsome : starts ≠ [] := List.length_pos_iff.mp (by omega)
      obtain ⟨hall, hapart⟩ := hstarts hsome
      have hchain := (h.orderly hapart).waits k hk hwaits
      have hclosed := ((h.orderly hapart).closed (by rw [hchain]; rintro ⟨⟩)).2
      omega

end Course

end SexprAsm
