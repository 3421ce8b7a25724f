import SexprAsm.Proofs.Assembly.Emission

/-!
# Temporaries

A temporary is either rented or free, never both, and no two of them share a name
(`Workspace.Pooled`). So a temporary that is rented anew is none of those in use
(`Build.rent_spec`), and giving some back leaves the others rented.

New names are free because more of them are tried than there are slots and predefined names.
-/

namespace SexprAsm

/-! ## Free names

The search tries one name after the other, and has as many tries as there are names in use. The
names tried are different, so one of them is free. -/

namespace Build

variable {cfg : Setting} {w w' : Workspace} {name : Nat → String}

/-- The search stops at a name that is free, or when it has no more tries; all names before it are
taken. -/
theorem firstFree_cases {tries n found : Nat} {free : String}
    (h : Yields (Build.firstFree cfg name tries n) w (free, found) w') :
    ∃ a, Emits w.assembly [] a ∧ w' = { w with assembly := a } ∧
      (∀ other, a.heap.slots.contains other = true →
        w.assembly.heap.slots.contains other = true ∨
          cfg.catalog.predefined.contains other = true) ∧
      ∃ j, free = name (n + j) ∧
        (∀ i < j, w.assembly.heap.slots.contains (name (n + i)) = true ∨
          cfg.catalog.predefined.contains (name (n + i)) = true) ∧
        (j = tries ∨
          a.heap.slots.get? free = none ∧ cfg.catalog.predefined.get? free = none) := by
  induction tries generalizing w n with
  | zero =>
    obtain ⟨hfree, rfl⟩ := Yields.pure_iff.mp h
    obtain ⟨rfl, rfl⟩ := Prod.mk.inj hfree
    exact ⟨_, .refl _, rfl, fun _ hother => Or.inl hother, 0, rfl,
      fun i hi => absurd hi (Nat.not_lt_zero i), Or.inl rfl⟩
  | succ tries ih =>
    simp only [Build.firstFree, Yields.bind_iff, Build.emit_iff] at h
    obtain ⟨type, _, ⟨a₁, htype, rfl⟩, h⟩ := h
    obtain ⟨hemits, hfound, hnone⟩ := Emit.typeOf?_spec htype
    obtain ⟨heap, hheap, rfl⟩ := Emit.onHeap_iff.mp htype
    cases type with
    | none =>
      simp only [Yields.pure_iff] at h
      obtain ⟨hfree, rfl⟩ := h
      obtain ⟨rfl, rfl⟩ := Prod.mk.inj hfree
      refine ⟨_, hemits, rfl, fun other hother => Heap.typeOf?_contains hheap hother, 0, rfl,
        fun i hi => absurd hi (Nat.not_lt_zero i), Or.inr ⟨by simpa using hfound.symm, ?_⟩⟩
      exact (hnone rfl).2
    | some type =>
      obtain ⟨a, hemits', rfl, hcontains, j, rfl, htaken, hstop⟩ := ih h
      -- What is taken after the first name has been asked for was taken, or is predefined.
      have hback : ∀ other, heap.slots.contains other = true ∨
          cfg.catalog.predefined.contains other = true →
          w.assembly.heap.slots.contains other = true ∨
            cfg.catalog.predefined.contains other = true := by
        rintro other (hother | hother)
        · exact Heap.typeOf?_contains hheap hother
        · exact Or.inr hother
      refine ⟨a, hemits.trans hemits', rfl, fun other hother => hback other (hcontains other hother),
        j + 1, by rw [Nat.add_assoc, Nat.add_comm 1], fun i hi => ?_, ?_⟩
      · cases i with
        | zero =>
          obtain ⟨v, hv, -⟩ := Option.map_eq_some_iff.mp hfound.symm
          exact hback _ (Or.inl (OrderedMap.contains_iff.mpr ⟨v, hv⟩))
        | succ i =>
          have := htaken i (by omega)
          rw [Nat.add_assoc, Nat.add_comm 1] at this
          exact hback _ this
      · exact hstop.imp_left fun h => by omega

/-- With a try for each slot and each predefined name, the name found is free. -/
theorem firstFree_spec {n found : Nat} {free : String} (hname : Function.Injective name)
    (h : Yields (do Build.firstFree cfg name (← Build.nameTries cfg) n) w (free, found) w') :
    ∃ a j, Emits w.assembly [] a ∧ w' = { w with assembly := a } ∧ free = name j ∧
      a.heap.slots.get? free = none ∧ cfg.catalog.predefined.get? free = none := by
  simp only [Yields.bind_iff, Build.nameTries, Yields.get_iff, Yields.pure_iff] at h
  obtain ⟨_, _, ⟨_, _, ⟨rfl, rfl⟩, rfl, rfl⟩, h⟩ := h
  obtain ⟨a, hemits, rfl, hcontains, j, rfl, htaken, hstop⟩ := firstFree_cases h
  refine ⟨a, n + j, hemits, rfl, rfl, ?_⟩
  rcases hstop with rfl | hfree
  · -- All tries have been used up, by as many names as can be taken.
    let slots := w.assembly.heap.slots
    let predefined := cfg.catalog.predefined
    have hinj : Function.Injective fun i => name (n + i) :=
      fun i j hij => Nat.add_left_cancel (hname hij)
    have hnot : ¬ (slots.contains (name (n + (slots.size + predefined.size))) = true ∨
        predefined.contains (name (n + (slots.size + predefined.size))) = true) := by
      intro hlast
      have hall : ∀ taken ∈ (List.range (slots.size + predefined.size + 1)).map
          (fun i => name (n + i)),
          slots.contains taken = true ∨ predefined.contains taken = true := by
        intro taken hmem
        obtain ⟨i, hi, rfl⟩ := List.mem_map.mp hmem
        rcases Nat.lt_succ_iff_lt_or_eq.mp (List.mem_range.mp hi) with hlt | rfl
        · exact htaken i hlt
        · exact hlast
      have hle := OrderedMap.length_le_size_add (List.nodup_range.map hinj) hall
      rw [List.length_map, List.length_range] at hle
      exact Nat.not_succ_le_self _ hle
    constructor
    · rw [← OrderedMap.contains_eq_false_iff, ← Bool.not_eq_true]
      exact fun hc => hnot (hcontains _ hc)
    · rw [← OrderedMap.contains_eq_false_iff, ← Bool.not_eq_true]
      exact fun hc => hnot (Or.inr hc)
  · exact hfree

end Build

/-! ## Rented and free temporaries

`Pooled` is the invariant of the pool. Renting and giving back are looked at through the queue of
free names of each type (`freeOf`), which both change at one end. -/

namespace Workspace

/-- How temporaries begin. -/
def tempLead : String := "__temp_"

/-- The slot of a temporary is there, with its type. -/
def Temporary (w : Workspace) (name : String) (type : TypeId) : Prop :=
  tempLead.toList <+: name.toList ∧ ∃ v, w.assembly.heap.slots.get? name = some v ∧ v.type = type

/-- Temporaries are rented or free, and none is free twice. -/
structure Pooled (w : Workspace) : Prop where
  nodup : ∀ type pool, w.pools.get? type = some pool → pool.free.Nodup
  free : ∀ type pool, w.pools.get? type = some pool → ∀ name ∈ pool.free,
    w.rented.get? name = none ∧ w.Temporary name type
  rented : ∀ name type, w.rented.get? name = some type → w.Temporary name type

variable {w w' : Workspace} {name : String} {type type' : TypeId}

theorem Temporary.mono (h : w.Temporary name type)
    (hext : w.assembly.heap.Extends w'.assembly.heap) : w'.Temporary name type := by
  obtain ⟨hlead, v, hv, htype⟩ := h
  exact ⟨hlead, v, hext.slots name v hv, htype⟩

theorem Temporary.unique (h : w.Temporary name type) (h' : w.Temporary name type') :
    type = type' := by
  obtain ⟨-, v, hv, rfl⟩ := h
  obtain ⟨-, u, hu, rfl⟩ := h'
  rw [hv] at hu
  rw [Option.some.inj hu]

theorem Temporary.contains (h : w.Temporary name type) :
    w.assembly.heap.slots.contains name = true := by
  obtain ⟨-, v, hv, -⟩ := h
  exact OrderedMap.contains_iff.mpr ⟨v, hv⟩

/-- Work on the assembly alone leaves the temporaries as they are. -/
theorem Pooled.onAssembly (h : w.Pooled) {a : Assembly} (hext : w.assembly.heap.Extends a.heap) :
    ({ w with assembly := a } : Workspace).Pooled := by
  refine ⟨h.nodup, fun type pool hpool name hname => ?_, fun name type hname => ?_⟩
  · exact ⟨(h.free type pool hpool name hname).1, (h.free type pool hpool name hname).2.mono hext⟩
  · exact (h.rented name type hname).mono hext

/-- The temporaries of a type that are free, the longest free first. -/
def freeOf (w : Workspace) (type : TypeId) : List String := ((w.pools.get? type).getD {}).free

theorem mem_freeOf_iff :
    name ∈ w.freeOf type ↔ ∃ pool, w.pools.get? type = some pool ∧ name ∈ pool.free := by
  unfold freeOf
  cases w.pools.get? type <;> simp

theorem pooled_iff : w.Pooled ↔ (∀ type, (w.freeOf type).Nodup) ∧
    (∀ type, ∀ name ∈ w.freeOf type, w.rented.get? name = none ∧ w.Temporary name type) ∧
    ∀ name type, w.rented.get? name = some type → w.Temporary name type := by
  constructor
  · intro h
    refine ⟨fun type => ?_, fun type name hname => ?_, h.rented⟩
    · unfold freeOf
      cases hpool : w.pools.get? type with
      | none => exact List.nodup_nil
      | some pool => exact h.nodup type pool hpool
    · obtain ⟨pool, hpool, hmem⟩ := mem_freeOf_iff.mp hname
      exact h.free type pool hpool name hmem
  · rintro ⟨hnodup, hfree, hrented⟩
    refine ⟨fun type pool hpool => ?_, fun type pool hpool name hname => ?_, hrented⟩
    · have := hnodup type
      rwa [freeOf, hpool] at this
    · exact hfree type name (mem_freeOf_iff.mpr ⟨pool, hpool, hname⟩)

theorem freeOf_put_pool (w : Workspace) (type : TypeId) (pool : TempPool) (type' : TypeId) :
    ({ w with pools := w.pools.put type pool } : Workspace).freeOf type' =
      if type' = type then pool.free else w.freeOf type' := by
  unfold freeOf
  rw [OrderedMap.get?_put]
  split <;> rfl

theorem rented_giveBack : (w.giveBack name).rented.get? other =
    if other = name then none else w.rented.get? other := by
  unfold giveBack
  split
  next hnone =>
    split
    next heq => rw [heq, hnone]
    next => rfl
  next => exact OrderedMap.get?_erase

/-- What is given back goes to the end of the queue of its type. -/
theorem freeOf_giveBack : (w.giveBack name).freeOf type =
    w.freeOf type ++ if w.rented.get? name = some type then [name] else [] := by
  unfold giveBack
  split
  next hnone => simp [hnone]
  next type' hsome =>
    have hput := w.freeOf_put_pool type'
      { (w.pools.get? type').getD {} with free := w.freeOf type' ++ [name] } type
    refine Eq.trans (show _ = _ from hput) ?_
    by_cases heq : type = type'
    · subst heq
      simp [hsome]
    · simp [hsome, heq, Ne.symm heq]

theorem giveBack_assembly : (w.giveBack name).assembly = w.assembly := by
  unfold giveBack
  split <;> rfl

/-- Giving a temporary back makes it free. -/
theorem giveBack_spec (h : w.Pooled) (name : String) :
    (w.giveBack name).Pooled ∧ (w.giveBack name).assembly = w.assembly ∧
      (w.giveBack name).findings = w.findings ∧
      (w.giveBack name).entryPoints = w.entryPoints ∧
      ∀ other, (w.giveBack name).rented.get? other =
        if other = name then none else w.rented.get? other := by
  obtain ⟨hnodup, hfree, hrented⟩ := pooled_iff.mp h
  have hsame : (w.giveBack name).findings = w.findings ∧
      (w.giveBack name).entryPoints = w.entryPoints := by
    unfold giveBack
    split <;> exact ⟨rfl, rfl⟩
  have htemp : ∀ {other type}, w.Temporary other type → (w.giveBack name).Temporary other type :=
    fun h => h.mono (giveBack_assembly ▸ .refl _)
  refine ⟨pooled_iff.mpr ⟨fun type => ?_, fun type other hother => ?_, fun other type hother => ?_⟩,
    giveBack_assembly, hsame.1, hsame.2, fun _ => rented_giveBack⟩
  · rw [freeOf_giveBack]
    split
    next hname =>
      -- A rented temporary is not free yet.
      have hnot : name ∉ w.freeOf type := by
        intro hmem
        rw [(hfree type name hmem).1] at hname
        cases hname
      simpa [List.nodup_append, hnot] using
        ⟨hnodup type, fun other hother heq => hnot (heq ▸ hother)⟩
    next =>
      rw [List.append_nil]
      exact hnodup type
  · rw [freeOf_giveBack] at hother
    rw [rented_giveBack]
    rcases List.mem_append.mp hother with hother | hother
    · obtain ⟨hnone, hold⟩ := hfree type other hother
      exact ⟨by simp [hnone], htemp hold⟩
    · split at hother
      next hname =>
        obtain rfl := List.mem_singleton.mp hother
        exact ⟨if_pos rfl, htemp (hrented other type hname)⟩
      next => cases hother
  · rw [rented_giveBack] at hother
    split at hother
    next => cases hother
    next => exact htemp (hrented other type hother)

/-- Giving several temporaries back leaves the others rented. -/
theorem foldl_giveBack_spec (h : w.Pooled) (names : List String) :
    (names.foldl giveBack w).Pooled ∧ (names.foldl giveBack w).assembly = w.assembly ∧
      (names.foldl giveBack w).findings = w.findings ∧
      (names.foldl giveBack w).entryPoints = w.entryPoints ∧
      ∀ other, (names.foldl giveBack w).rented.get? other =
        if other ∈ names then none else w.rented.get? other := by
  induction names generalizing w with
  | nil => exact ⟨h, rfl, rfl, rfl, fun other => rfl⟩
  | cons name names ih =>
    obtain ⟨hpooled, hassembly, hfindings, hentries, hrented⟩ := giveBack_spec h name
    obtain ⟨hpooled', hassembly', hfindings', hentries', hrented'⟩ := ih hpooled
    refine ⟨hpooled', hassembly'.trans hassembly, hfindings'.trans hfindings,
      hentries'.trans hentries, fun other => ?_⟩
    rw [List.foldl_cons, hrented', hrented]
    by_cases hmem : other ∈ names <;> by_cases hname : other = name <;> simp [hmem, hname]

end Workspace

open Workspace

/-- What is rented is the temporary of its type that has been free for longest, or a new one under a
free name if none is free. -/
theorem Build.rent_stages {cfg : Setting} {w w' : Workspace} {name : String} {type : TypeId}
    (h : Yields (Build.rent cfg type) w name w') :
    w'.rented = w.rented.put name type ∧ w'.findings = w.findings ∧
      w'.entryPoints = w.entryPoints ∧ (∀ other ≠ type, w'.freeOf other = w.freeOf other) ∧
      (w.freeOf type = name :: w'.freeOf type ∧ w'.assembly = w.assembly ∨
        w.freeOf type = [] ∧ w'.freeOf type = [] ∧ ∃ a serial n,
          Yields (do
            Build.firstFree cfg (Heap.numbered (tempLead ++ cfg.catalog.types.name type))
              (← Build.nameTries cfg) serial) w (name, n) { w with assembly := a } ∧
          Yields (Emit.define cfg name (some type) {} none) a () w'.assembly) := by
  simp only [Build.rent, Yields.bind_iff, Yields.get_iff] at h
  obtain ⟨_, _, ⟨rfl, rfl⟩, h⟩ := h
  -- The pool of the type is put back; the other pools stay as they are.
  have hput : ∀ (pool : TempPool) (rented : NameMap TypeId) (a : Assembly) (other : TypeId),
      ({ w with assembly := a, rented := rented, pools := w.pools.put type pool } :
        Workspace).freeOf other = if other = type then pool.free else w.freeOf other :=
    fun pool _ _ other => w.freeOf_put_pool type pool other
  cases hfree : ((w.pools.get? type).getD {}).free with
  | cons first rest =>
    simp only [hfree, Yields.bind_iff, Yields.modify_iff, Yields.pure_iff] at h
    obtain ⟨_, _, rfl, rfl, rfl⟩ := h
    refine ⟨rfl, rfl, rfl, fun other hne => (hput ..).trans (if_neg hne), Or.inl ⟨?_, rfl⟩⟩
    rw [hput, if_pos rfl]
    exact hfree
  | nil =>
    simp only [hfree, Yields.bind_iff, Yields.modify_iff, Yields.pure_iff, Build.emit_iff] at h
    obtain ⟨tries, w₁, htries, ⟨free, n⟩, w₂, hfirst, _, _, rfl, _, _, ⟨a, hdefine, rfl⟩, _, _,
      rfl, rfl, rfl⟩ := h
    have hsearch : Yields (do
        Build.firstFree cfg (Heap.numbered (tempLead ++ cfg.catalog.types.name type))
          (← Build.nameTries cfg) ((w.pools.get? type).getD {}).serial) w (free, n) w₂ :=
      Yields.bind_iff.mpr ⟨tries, w₁, htries, hfirst⟩
    obtain ⟨a₁, -, -, rfl, -⟩ := firstFree_spec (Heap.numbered_injective _) hsearch
    refine ⟨rfl, rfl, rfl, fun other hne => (hput ..).trans (if_neg hne), Or.inr ⟨hfree, ?_,
      a₁, _, n, hsearch, hdefine⟩⟩
    rw [hput, if_pos rfl]

/-- A temporary that is rented has not been in use. -/
theorem Build.rent_spec {cfg : Setting} {w w' : Workspace} {name : String} {type : TypeId}
    (h : Yields (Build.rent cfg type) w name w') (hpooled : w.Pooled) :
    Emits w.assembly [] w'.assembly ∧ w'.Pooled ∧ w'.findings = w.findings ∧
      w'.entryPoints = w.entryPoints ∧ w.rented.get? name = none ∧ w'.Temporary name type ∧
      ∀ other, w'.rented.get? other = if other = name then some type else w.rented.get? other := by
  obtain ⟨hrented, hfindings, hentries, hothers, hcase⟩ := Build.rent_stages h
  obtain ⟨hnodup, hfree, hknown⟩ := pooled_iff.mp hpooled
  -- In both cases, what is free afterwards was free before, and is not what has been rented.
  have hspec : Emits w.assembly [] w'.assembly ∧ w.rented.get? name = none ∧
      w'.Temporary name type ∧ (w'.freeOf type).Nodup ∧
      ∀ type', ∀ other ∈ w'.freeOf type', other ≠ name ∧ other ∈ w.freeOf type' := by
    rcases hcase with ⟨hfirst, hassembly⟩ | ⟨-, hempty, a, serial, n, hsearch, hdefine⟩
    · obtain ⟨hnone, htemp⟩ := hfree type name (by rw [hfirst]; exact List.mem_cons_self)
      obtain ⟨hnot, hrest⟩ := List.nodup_cons.mp (hfirst ▸ hnodup type)
      refine ⟨hassembly ▸ .refl _, hnone, htemp.mono (hassembly ▸ .refl _), hrest,
        fun type' other hmem => ?_⟩
      by_cases htype : type' = type
      · subst htype
        exact ⟨fun heq => hnot (heq ▸ hmem), by rw [hfirst]; exact List.mem_cons_of_mem _ hmem⟩
      · -- The slot of a temporary has one type, so it is free for one type only.
        rw [hothers type' htype] at hmem
        exact ⟨fun heq => htype ((heq ▸ (hfree type' other hmem).2).unique htemp), hmem⟩
    · obtain ⟨a₁, j, hemits, ha, rfl, hnew, hpinned⟩ :=
        firstFree_spec (Heap.numbered_injective _) hsearch
      obtain rfl := congrArg Workspace.assembly ha
      obtain ⟨hemits', hslot⟩ := Emit.define_spec hdefine hnew rfl
      -- Known temporaries have slots, so the new name is none of theirs.
      have hne : ∀ other type', w.Temporary other type' →
          other ≠ Heap.numbered (tempLead ++ cfg.catalog.types.name type) j := by
        rintro other type' htemp rfl
        obtain ⟨v, hv⟩ := OrderedMap.contains_iff.mp (hemits.heap.contains htemp.contains)
        rw [hnew] at hv
        cases hv
      refine ⟨hemits.trans hemits', ?_, ⟨?_, _, hslot, by simp [Heap.settle, hpinned]⟩, ?_,
        fun type' other hmem => ?_⟩
      · refine Option.eq_none_iff_forall_ne_some.mpr fun type' htype' => ?_
        exact hne _ type' (hknown _ type' htype') rfl
      · rw [Heap.toList_numbered, String.toList_append, List.append_assoc]
        exact List.prefix_append _ _
      · rw [hempty]
        exact List.nodup_nil
      · by_cases htype : type' = type
        · subst htype
          rw [hempty] at hmem
          cases hmem
        · rw [hothers type' htype] at hmem
          exact ⟨hne other type' (hfree type' other hmem).2, hmem⟩
  obtain ⟨hemits, hnone, htemp, hrest, hback⟩ := hspec
  have hget : ∀ other, w'.rented.get? other =
      if other = name then some type else w.rented.get? other := by
    intro other
    rw [hrented, OrderedMap.get?_put]
  refine ⟨hemits, pooled_iff.mpr ⟨fun type' => ?_, fun type' other hother => ?_,
    fun other type' hother => ?_⟩, hfindings, hentries, hnone, htemp, hget⟩
  · by_cases htype : type' = type
    · rwa [htype]
    · rw [hothers type' htype]
      exact hnodup type'
  · obtain ⟨hne, hmem⟩ := hback type' other hother
    obtain ⟨hother', hold⟩ := hfree type' other hmem
    exact ⟨by rw [hget, if_neg hne, hother'], hold.mono hemits.heap⟩
  · rw [hrented] at hother
    rcases OrderedMap.get?_put_eq_some.mp hother with ⟨rfl, rfl⟩ | ⟨-, hold⟩
    · exact htemp
    · exact (hknown other type' hold).mono hemits.heap

/-! ## Known temporaries

Whether a temporary is rented or free changes all the time; that it is one of both does not. -/

/-- A temporary is known: it is rented or free. -/
def Workspace.Known (w : Workspace) (name : String) : Prop :=
  w.rented.get? name ≠ none ∨ ∃ type pool, w.pools.get? type = some pool ∧ name ∈ pool.free

theorem Workspace.known_iff {w : Workspace} {name : String} : w.Known name ↔
    (∃ type, w.rented.get? name = some type) ∨ ∃ type, name ∈ w.freeOf type := by
  unfold Known
  simp only [mem_freeOf_iff, Option.ne_none_iff_exists']

/-- A temporary that is known has a slot. -/
theorem Workspace.Pooled.temporary_of_known {w : Workspace} {name : String} (h : w.Pooled)
    (hname : w.Known name) : ∃ type, w.Temporary name type := by
  rcases known_iff.mp hname with ⟨type, hrented⟩ | ⟨type, hfree⟩
  · exact ⟨type, h.rented name type hrented⟩
  · exact ⟨type, ((pooled_iff.mp h).2.1 type name hfree).2⟩

theorem Workspace.Known.ofSame {w w' : Workspace} {name : String} (h : w'.Known name)
    (hrented : w'.rented = w.rented) (hpools : w'.pools = w.pools) : w.Known name := by
  unfold Known
  rw [← hrented, ← hpools]
  exact h

theorem Workspace.giveBack_known {w : Workspace} {name other : String}
    (h : (w.giveBack name).Known other) : w.Known other := by
  rw [known_iff] at h ⊢
  rcases h with ⟨type, hrented⟩ | ⟨type, hfree⟩
  · rw [rented_giveBack] at hrented
    split at hrented
    next => cases hrented
    next => exact Or.inl ⟨type, hrented⟩
  · rw [freeOf_giveBack] at hfree
    rcases List.mem_append.mp hfree with hfree | hmem
    · exact Or.inr ⟨type, hfree⟩
    · split at hmem
      next hname =>
        -- What is given back was rented.
        rw [List.mem_singleton.mp hmem]
        exact Or.inl ⟨type, hname⟩
      next => cases hmem

theorem Workspace.foldl_giveBack_known {w : Workspace} {names : List String} {other : String}
    (h : (names.foldl giveBack w).Known other) : w.Known other := by
  induction names generalizing w with
  | nil => exact h
  | cons name names ih => exact giveBack_known (ih h)

/-- A temporary that is not known yet is a new slot. -/
theorem Build.rent_known {cfg : Setting} {w w' : Workspace} {name other : String} {type : TypeId}
    (h : Yields (Build.rent cfg type) w name w') (hother : w'.Known other) :
    w.Known other ∨ w.assembly.heap.slots.get? other = none := by
  obtain ⟨hput, -, -, hothers, hcase⟩ := Build.rent_stages h
  rcases known_iff.mp hother with ⟨type', hrented⟩ | ⟨type', hmem⟩
  · rw [hput] at hrented
    rcases OrderedMap.get?_put_eq_some.mp hrented with ⟨rfl, rfl⟩ | ⟨-, hold⟩
    · rcases hcase with ⟨hfirst, -⟩ | ⟨-, -, a, serial, n, hsearch, -⟩
      · exact Or.inl (known_iff.mpr (Or.inr ⟨type', by rw [hfirst]; exact List.mem_cons_self⟩))
      · obtain ⟨a₁, j, hemits, -, -, hnew, -⟩ :=
          firstFree_spec (Heap.numbered_injective _) hsearch
        exact Or.inr (hemits.heap.get?_eq_none hnew)
    · exact Or.inl (known_iff.mpr (Or.inl ⟨type', hold⟩))
  · refine Or.inl (known_iff.mpr (Or.inr ⟨type', ?_⟩))
    by_cases htype : type' = type
    · subst htype
      rcases hcase with ⟨hfirst, -⟩ | ⟨-, hempty, -⟩
      · rw [hfirst]
        exact List.mem_cons_of_mem _ hmem
      · rw [hempty] at hmem
        cases hmem
    · rwa [hothers type' htype] at hmem

end SexprAsm
