import SexprAsm.Proofs.Generation.Events

/-!
# The routine of an event

The blocks of a label make one routine. Callers jump to its first block, each block ends with a jump
to the next one, and the last one returns. Which of these jumps have their target yet depends on
what has happened so far: `Routine` says what the entry point and the code look like after some
calls, and after some blocks have begun and ended. Each of the three keeps it.
-/

namespace SexprAsm

/-- A jump waits for its target, or goes to a place. -/
def JumpTarget.Aims (target : JumpTarget) : Option Nat → Prop
  | none => target = .unresolved
  | some place => target.place? = some place

/-! ## The routine of a label -/

/-- How the entry point of a label and the code agree with what has happened: with the jumps of its
calls, with where its blocks have begun and with the instructions that have ended them. One block
more has begun than ended while a block is open. -/
structure Routine (code : List Instruction) (entry : EntryPoint) (opened : Bool)
    (calls starts finishes : List Nat) : Prop where
  compiled : entry.compiled = finishes.length
  balanced : starts.length = finishes.length + opened.toNat
  bounded : starts.length ≤ entry.blocks
  body : entry.bodyStart.map JumpTarget.place? = starts.head?.map some
  landing : starts = [] → entry.landingPoints = calls
  chain : opened = false → finishes.length < entry.blocks → entry.chain = finishes.getLast?
  called : ∀ k ∈ calls, ∃ target, code[k]? = some (.jump target) ∧ target.Aims starts.head?
  linked : ∀ (i f : Nat), finishes[i]? = some f → i + 1 < entry.blocks →
    ∃ target, code[f]? = some (.jump target) ∧ target.Aims starts[i + 1]?
  returns : ∀ (i f : Nat), finishes[i]? = some f → entry.blocks ≤ i + 1 →
    code[f]? = some (.jumpIndirect entry.returnPointer)
  within : ∀ s ∈ starts, s ≤ code.length
  ordered : ∀ (i s f : Nat), starts[i]? = some s → finishes[i]? = some f → s ≤ f
  apart : ∀ (i f s : Nat), finishes[i]? = some f → starts[i + 1]? = some s → f < s

namespace Routine

variable {code code' : List Instruction} {entry : EntryPoint} {opened : Bool}
  {calls starts finishes : List Nat}

theorem finish_lt (h : Routine code entry opened calls starts finishes) {f : Nat}
    (hf : f ∈ finishes) : f < code.length := by
  obtain ⟨i, hi⟩ := List.mem_iff_getElem?.mp hf
  rcases Nat.lt_or_ge (i + 1) entry.blocks with hlt | hge
  · obtain ⟨target, hget, -⟩ := h.linked i f hi hlt
    exact (List.getElem?_eq_some_iff.mp hget).1
  · exact (List.getElem?_eq_some_iff.mp (h.returns i f hi hge)).1

/-- Only the jumps of the calls and the ends of the blocks matter. -/
theorem same (h : Routine code entry opened calls starts finishes)
    (hcode : ∀ k, k ∈ calls ∨ k ∈ finishes → code'[k]? = code[k]?)
    (hlength : code.length ≤ code'.length) : Routine code' entry opened calls starts finishes where
  compiled := h.compiled
  balanced := h.balanced
  bounded := h.bounded
  body := h.body
  landing := h.landing
  chain := h.chain
  called k hk := by
    rw [hcode k (Or.inl hk)]
    exact h.called k hk
  linked i f hf hlt := by
    rw [hcode f (Or.inr (List.mem_of_getElem? hf))]
    exact h.linked i f hf hlt
  returns i f hf hge := by
    rw [hcode f (Or.inr (List.mem_of_getElem? hf))]
    exact h.returns i f hf hge
  within s hs := (h.within s hs).trans hlength
  ordered := h.ordered
  apart := h.apart

theorem landing_aims (h : Routine code entry opened calls starts finishes) :
    entry.landing.Aims starts.head? := by
  have hbody := h.body
  unfold EntryPoint.landing
  cases hstart : entry.bodyStart with
  | none =>
    rw [hstart] at hbody
    have hnone := Option.map_eq_none_iff.mp hbody.symm
    rw [hnone]
    rfl
  | some start =>
    rw [hstart, Option.map_some] at hbody
    obtain ⟨place, hplace, heq⟩ := Option.map_eq_some_iff.mp hbody.symm
    rw [hplace]
    exact heq.symm

/-- A call jumps to the first block, or waits for it. -/
theorem call (h : Routine code entry opened calls starts finishes) {jump : Nat}
    (hjump : code[jump]? = some (.jump entry.landing)) :
    Routine code (entry.called jump) opened (calls ++ [jump]) starts finishes := by
  have hcalled : ∀ k ∈ calls ++ [jump], ∃ target, code[k]? = some (.jump target) ∧
      target.Aims starts.head? := by
    intro k hk
    rcases List.mem_append.mp hk with hk | hk
    · exact h.called k hk
    · rw [List.mem_singleton.mp hk]
      exact ⟨entry.landing, hjump, h.landing_aims⟩
  unfold EntryPoint.called
  split
  next hsome =>
    refine ⟨h.compiled, h.balanced, h.bounded, h.body, fun hempty => ?_, h.chain, hcalled, h.linked,
      h.returns, h.within, h.ordered, h.apart⟩
    -- The routine has begun.
    have hbody := h.body
    rw [hempty] at hbody
    rw [Option.map_eq_none_iff.mp hbody] at hsome
    cases hsome
  next hnone =>
    refine ⟨h.compiled, h.balanced, h.bounded, h.body, fun hempty => ?_, h.chain, hcalled, h.linked,
      h.returns, h.within, h.ordered, h.apart⟩
    exact congrArg (· ++ [jump]) (h.landing hempty)

/-- The jumps that wait for a block belong to calls if it is the first one, and else to the block
before. -/
theorem awaited_eq (h : Routine code entry false calls starts finishes)
    (hmore : starts.length < entry.blocks) :
    entry.awaited = if starts = [] then calls else finishes.getLast?.toList := by
  have hbalanced := h.balanced
  rw [Bool.toNat_false, Nat.add_zero] at hbalanced
  unfold EntryPoint.awaited
  by_cases hempty : starts = []
  · have hzero : entry.compiled = 0 := by rw [h.compiled, ← hbalanced, hempty]; rfl
    rw [if_pos hzero, if_pos hempty, h.landing hempty]
  · have hzero : entry.compiled ≠ 0 := by
      rw [h.compiled, ← hbalanced]
      exact fun hlength => hempty (List.length_eq_zero_iff.mp hlength)
    rw [if_neg hzero, if_neg hempty, h.chain rfl (hbalanced ▸ hmore)]

section Begins

variable {target : JumpTarget} (h : Routine code entry false calls starts finishes)
  (hmore : starts.length < entry.blocks) (hlength : code'.length = code.length)
  (hpatched : ∀ k ∈ entry.awaited, ∀ i, code[k]? = some i →
    ∃ i', i.retarget? target = some i' ∧ code'[k]? = some i')

include h hmore hlength hpatched

/-- The first block begins: all calls so far have waited for it. -/
theorem begins_first (htarget : target.place? = some code.length) (hempty : starts = []) :
    Routine code' (entry.begun target) true calls (starts ++ [code.length]) finishes := by
  have hbalanced := h.balanced
  subst hempty
  obtain rfl : finishes = [] := List.length_eq_zero_iff.mp hbalanced.symm
  have hawaited := h.awaited_eq hmore
  rw [if_pos rfl] at hawaited
  rw [hawaited] at hpatched
  rw [EntryPoint.begun, if_pos (show entry.compiled = 0 from h.compiled)]
  refine { compiled := h.compiled, balanced := rfl, bounded := hmore, body := congrArg some htarget,
           landing := by simp, chain := by simp, called := fun k hk => ?called, linked := by simp,
           returns := by simp, within := fun s hs => ?within, ordered := by simp, apart := by simp }
  case called =>
    obtain ⟨old, hold, -⟩ := h.called k hk
    obtain ⟨i, hi, hget⟩ := hpatched k hk _ hold
    obtain rfl := Option.some.inj hi
    exact ⟨target, hget, htarget⟩
  case within => rw [hlength, List.mem_singleton.mp hs]

/-- A later block begins: the end of the one before has waited for it. -/
theorem begins_next (htarget : target.place? = some code.length)
    (hkept : ∀ k, k < code.length → k ∉ entry.awaited → code'[k]? = code[k]?)
    (hnodup : finishes.Nodup) (hdisjoint : ∀ k ∈ calls, k ∉ finishes) (hsome : starts ≠ []) :
    Routine code' (entry.begun target) true calls (starts ++ [code.length]) finishes := by
  have hbalanced : starts.length = finishes.length := h.balanced
  -- Of the jumps of the label only the last end is open, so this is all that the patch changes.
  have hawaited := h.awaited_eq hmore
  rw [if_neg hsome] at hawaited
  have hhead : (starts ++ [code.length]).head? = starts.head? := by
    rw [List.head?_append_of_ne_nil _ hsome]
  have hcompiled : entry.compiled ≠ 0 := by
    rw [h.compiled, ← hbalanced]
    exact fun hzero => hsome (List.length_eq_zero_iff.mp hzero)
  rw [EntryPoint.begun, if_neg hcompiled]
  refine { compiled := h.compiled, balanced := ?balanced, bounded := ?bounded, body := ?body,
           landing := by simp, chain := by simp, called := fun k hk => ?called,
           linked := fun i f hf hlt => ?linked, returns := fun i f hf hge => ?returns,
           within := fun s hs => ?within, ordered := fun i s f hs hf => ?ordered,
           apart := fun i f s hf hs => ?apart }
  case balanced =>
    rw [List.length_append, hbalanced]
    rfl
  case bounded =>
    rw [List.length_append]
    exact hmore
  case body =>
    rw [hhead]
    exact h.body
  case called =>
    -- Calls go to the first block as before; none of them is an end.
    obtain ⟨old, hold, haims⟩ := h.called k hk
    refine ⟨old, ?_, hhead ▸ haims⟩
    rw [hkept k (List.getElem?_eq_some_iff.mp hold).1, hold]
    rw [hawaited, Option.mem_toList]
    exact fun hlast => hdisjoint k hk (List.mem_of_getLast? hlast)
  case linked =>
    obtain ⟨old, hold, haims⟩ := h.linked i f hf hlt
    have hi := (List.getElem?_eq_some_iff.mp hf).1
    by_cases hlast : i + 1 = finishes.length
    · -- The last end has waited for this block.
      have hmem : f ∈ entry.awaited := by
        rw [hawaited, Option.mem_toList, List.getLast?_eq_getElem?, ← hlast, Nat.add_sub_cancel]
        exact hf
      obtain ⟨i', hi', hget⟩ := hpatched f hmem _ hold
      obtain rfl := Option.some.inj hi'
      refine ⟨target, hget, ?_⟩
      rw [hlast, ← hbalanced, List.getElem?_concat_length]
      exact htarget
    · -- An end before the last one is linked already, and stays as it is.
      refine ⟨old, ?_, ?_⟩
      · rw [hkept f (List.getElem?_eq_some_iff.mp hold).1, hold]
        rw [hawaited, Option.mem_toList, List.getLast?_eq_getElem?]
        intro heq
        have := (List.getElem?_inj hi hnodup).mp (hf.trans heq.symm)
        omega
      · rw [List.getElem?_append_left (by omega)]
        exact haims
  case returns =>
    have := (List.getElem?_eq_some_iff.mp hf).1
    dsimp only at hge
    omega
  case within =>
    rw [hlength]
    rcases List.mem_append.mp hs with hs | hs
    · exact h.within s hs
    · rw [List.mem_singleton.mp hs]
  case ordered =>
    have hi := (List.getElem?_eq_some_iff.mp hf).1
    rw [List.getElem?_append_left (by omega)] at hs
    exact h.ordered i s f hs hf
  case apart =>
    have hi := (List.getElem?_eq_some_iff.mp hf).1
    by_cases hlast : i + 1 = starts.length
    · rw [hlast, List.getElem?_concat_length] at hs
      rw [← Option.some.inj hs]
      exact h.finish_lt (List.mem_of_getElem? hf)
    · rw [List.getElem?_append_left (by omega)] at hs
      exact h.apart i f s hf hs

end Begins

/-- A block ends: it returns if it is the last one, and else waits for the next. -/
theorem ends (h : Routine code entry true calls starts finishes) :
    Routine (code ++ [entry.ending]) (entry.ended code.length) false calls starts
      (finishes ++ [code.length]) := by
  have hbalanced : starts.length = finishes.length + 1 := h.balanced
  have hbounded := h.bounded
  have hcompiled := h.compiled
  have hnew : (code ++ [entry.ending])[code.length]? = some entry.ending :=
    List.getElem?_concat_length
  -- Nothing else has changed.
  have hkept : ∀ k, k < code.length → (code ++ [entry.ending])[k]? = code[k]? :=
    fun k hk => List.getElem?_append_left hk
  -- An end is the new one, or it was there before.
  have hends : ∀ {i f : Nat}, (finishes ++ [code.length])[i]? = some f →
      i = finishes.length ∧ f = code.length ∨ finishes[i]? = some f := by
    intro i f hf
    rcases Nat.lt_trichotomy i finishes.length with hlt | rfl | hgt
    · exact Or.inr ((List.getElem?_append_left hlt).symm.trans hf)
    · rw [List.getElem?_concat_length] at hf
      exact Or.inl ⟨rfl, (Option.some.inj hf).symm⟩
    · rw [List.getElem?_eq_none (by rw [List.length_append, List.length_singleton]; omega)] at hf
      cases hf
  refine { compiled := ?compiled, balanced := ?balanced, bounded := ?bounded, body := ?body,
           landing := ?landing, chain := ?chain, called := fun k hk => ?called,
           linked := fun i f hf hlt => ?linked, returns := fun i f hf hge => ?returns,
           within := fun s hs => ?within, ordered := fun i s f hs hf => ?ordered,
           apart := fun i f s hf hs => ?apart }
  case compiled =>
    rw [EntryPoint.ended_compiled, hcompiled, List.length_append, List.length_singleton]
  case balanced => rwa [List.length_append]
  case bounded => rwa [EntryPoint.ended_blocks]
  case body =>
    rw [EntryPoint.ended_bodyStart]
    exact h.body
  case landing =>
    rw [EntryPoint.ended_landingPoints]
    exact h.landing
  case chain =>
    intro _ hlt
    rw [EntryPoint.ended_blocks, List.length_append, List.length_singleton] at hlt
    rw [EntryPoint.ended_chain, if_neg (by omega), List.getLast?_concat]
  case called =>
    obtain ⟨target, hget, haims⟩ := h.called k hk
    exact ⟨target, (hkept k (List.getElem?_eq_some_iff.mp hget).1).trans hget, haims⟩
  case linked =>
    rw [EntryPoint.ended_blocks] at hlt
    rcases hends hf with ⟨rfl, rfl⟩ | hf
    · rw [hnew, EntryPoint.ending, if_neg (by omega)]
      refine ⟨_, rfl, ?_⟩
      rw [List.getElem?_eq_none (by omega)]
      rfl
    · rw [hkept f (h.finish_lt (List.mem_of_getElem? hf))]
      exact h.linked i f hf hlt
  case returns =>
    rw [EntryPoint.ended_blocks] at hge
    rw [EntryPoint.ended_returnPointer]
    rcases hends hf with ⟨rfl, rfl⟩ | hf
    · rw [hnew, EntryPoint.ending, if_pos (by omega)]
    · rw [hkept f (h.finish_lt (List.mem_of_getElem? hf))]
      exact h.returns i f hf hge
  case within =>
    rw [List.length_append]
    exact (h.within s hs).trans (Nat.le_add_right _ _)
  case ordered =>
    rcases hends hf with ⟨rfl, rfl⟩ | hf
    · exact h.within s (List.mem_of_getElem? hs)
    · exact h.ordered i s f hs hf
  case apart =>
    rcases hends hf with ⟨rfl, rfl⟩ | hf
    · rw [List.getElem?_eq_none (by omega)] at hs
      cases hs
    · exact h.apart i f s hf hs

end Routine

/-! ## The finished routine -/

/-- The blocks of a label follow each other in the code and make one routine: every call jumps to
the first block, each block ends with a jump to the next one, and the last block alone returns
through the slot of the return address. -/
structure Merged (code : List Instruction) (blocks : Nat) (pointer : String)
    (calls starts finishes : List Nat) : Prop where
  begun : starts.length = blocks
  ended : finishes.length = blocks
  ordered : ∀ (i s f : Nat), starts[i]? = some s → finishes[i]? = some f → s ≤ f
  apart : ∀ (i f s : Nat), finishes[i]? = some f → starts[i + 1]? = some s → f < s
  called : ∀ k ∈ calls, ∃ target, code[k]? = some (.jump target) ∧ target.place? = starts.head?
  chained : ∀ (i f s : Nat), finishes[i]? = some f → starts[i + 1]? = some s →
    ∃ target, code[f]? = some (.jump target) ∧ target.place? = some s
  returns : ∀ k, code[k]? = some (.jumpIndirect pointer) ↔ finishes.getLast? = some k

/-- Once no jump waits for a target any more, all blocks have been compiled. -/
theorem Routine.merged {code : List Instruction} {entry : EntryPoint}
    {calls starts finishes : List Nat} (h : Routine code entry false calls starts finishes)
    (hsome : starts ≠ []) (hresolved : .jump .unresolved ∉ code)
    (hindirect : ∀ k, code[k]? = some (.jumpIndirect entry.returnPointer) → k ∈ finishes) :
    Merged code entry.blocks entry.returnPointer calls starts finishes := by
  have hbalanced : starts.length = finishes.length := h.balanced
  have hpos : 0 < finishes.length := hbalanced ▸ List.length_pos_iff.mpr hsome
  have hbounded := h.bounded
  have hblocks : finishes.length = entry.blocks := by
    refine Nat.le_antisymm (hbalanced ▸ hbounded) (Nat.le_of_not_lt fun hlt => ?_)
    -- The last block would end with a jump that waits for another one.
    have hlast := List.getElem?_eq_getElem (l := finishes) (i := finishes.length - 1) (by omega)
    obtain ⟨target, hget, haims⟩ := h.linked _ _ hlast (by omega)
    rw [List.getElem?_eq_none (by omega)] at haims
    obtain rfl : target = .unresolved := haims
    exact hresolved (List.mem_of_getElem? hget)
  refine ⟨hbalanced.trans hblocks, hblocks, h.ordered, h.apart, fun k hk => ?_,
    fun i f s hf hs => ?_, fun k => ⟨fun hk => ?_, fun hk => ?_⟩⟩
  · obtain ⟨target, hget, haims⟩ := h.called k hk
    refine ⟨target, hget, ?_⟩
    rw [List.head?_eq_some_head hsome] at haims ⊢
    exact haims
  · have hi := (List.getElem?_eq_some_iff.mp hs).1
    obtain ⟨target, hget, haims⟩ := h.linked i f hf (by omega)
    rw [hs] at haims
    exact ⟨target, hget, haims⟩
  · obtain ⟨i, hi⟩ := List.mem_iff_getElem?.mp (hindirect k hk)
    have hlt := (List.getElem?_eq_some_iff.mp hi).1
    rcases Nat.lt_or_ge (i + 1) entry.blocks with hmore | hlast
    · obtain ⟨target, hget, -⟩ := h.linked i k hi hmore
      cases hk.symm.trans hget
    · rw [List.getLast?_eq_getElem?, ← hi]
      congr 1
      omega
  · rw [List.getLast?_eq_getElem?] at hk
    exact h.returns _ k hk (by omega)

end SexprAsm
