import SexprAsm.Proofs.Assembly.Changes
import SexprAsm.Proofs.Workspace

/-!
# What changes a workspace

While code is generated, five things happen to a workspace (`Workspace.Change`): something is
emitted, the entry points are brought up to date, a temporary is rented, a temporary is given back,
and a search for the name of a new temporary moves on. Each of them keeps the slots, keeps rented
and free temporaries apart, and keeps every temporary known; and a name that comes to be known was
no slot before.
-/

namespace SexprAsm

open Relation

/-! ## Renting -/

/-- Something is emitted, and nothing else happens. -/
def Workspace.Emitted (c : Catalog) (w w' : Workspace) : Prop :=
  ∃ a, Assembly.Change c w.assembly a ∧ w' = { w with assembly := a }

theorem Workspace.emitted_chain {c : Catalog} {w w' : Workspace}
    (h : ReflTransGen (Emitted c) w w') :
    ∃ a, ReflTransGen (Assembly.Change c) w.assembly a ∧ w' = { w with assembly := a } := by
  induction h with
  | refl => exact ⟨_, .refl, rfl⟩
  | tail _ hchange ih =>
    obtain ⟨a, hchain, rfl⟩ := ih
    obtain ⟨a', hchange, rfl⟩ := hchange
    exact ⟨a', hchain.tail hchange, rfl⟩

namespace Build

open Workspace

variable {cfg : Setting} {w w' : Workspace} {name : String} {type : TypeId}

/-- The search for a free name only asks for types. -/
theorem firstFree_madeOf {change : Workspace → Workspace → Prop} {names : Nat → String}
    {tries n : Nat}
    (h : ∀ {w : Workspace} name, MadeOf change (Build.emit (Emit.typeOf? cfg name)) w) :
    MadeOf change (firstFree cfg names tries n) w := by
  induction tries generalizing w n with
  | zero => exact .pure _
  | succ tries ih =>
    refine .bind (h _) fun found w' _ => ?_
    cases found with
    | none => exact .pure _
    | some type => exact ih

theorem firstFree_emitted (names : Nat → String) (tries n : Nat) :
    MadeOf (Emitted cfg.catalog) (firstFree cfg names tries n) w :=
  firstFree_madeOf fun name =>
    .emit (fun _ a' hchange => ⟨a', hchange, rfl⟩) (Emit.typeOf?_changes name)

/-- The search among names that are not predefined makes no slot. -/
theorem firstFree_yields (cfg : Setting) (names : Nat → String)
    (hnames : ∀ n, cfg.catalog.predefined.get? (names n) = none) (tries n : Nat) (w : Workspace) :
    ∃ found, Yields (firstFree cfg names tries n) w found w := by
  induction tries generalizing n with
  | zero => exact ⟨(names n, n), rfl⟩
  | succ tries ih =>
    have htype : Yields (emit (Emit.typeOf? cfg (names n))) w
        ((w.assembly.heap.slots.get? (names n)).map (·.type)) w :=
      emit_iff.mpr ⟨w.assembly, Emit.onHeap_iff.mpr
        ⟨w.assembly.heap, Heap.typeOf?_of_ordinary (hnames n), rfl⟩, rfl⟩
    cases hslot : w.assembly.heap.slots.get? (names n) with
    | none =>
      rw [hslot] at htype
      exact ⟨(names n, n), Yields.bind_iff.mpr ⟨_, w, htype, rfl⟩⟩
    | some v =>
      rw [hslot] at htype
      obtain ⟨found, hrest⟩ := ih (n + 1)
      exact ⟨found, Yields.bind_iff.mpr ⟨_, w, htype, hrest⟩⟩

/-- A free temporary is rented as it is; only if there is none, a slot is made for a new one. -/
theorem rent_cases (h : Yields (rent cfg type) w name w') :
    w'.rented = w.rented.put name type ∧ w'.findings = w.findings ∧
      w'.entryPoints = w.entryPoints ∧ (∀ other ≠ type, w'.freeOf other = w.freeOf other) ∧
      (w.freeOf type = name :: w'.freeOf type ∧ w'.assembly = w.assembly ∨
        w.freeOf type = [] ∧ w'.freeOf type = [] ∧ w.assembly.heap.slots.get? name = none ∧
          ReflTransGen (Assembly.Change cfg.catalog) w.assembly w'.assembly) := by
  obtain ⟨hrented, hfindings, hentries, hother, hcase⟩ := rent_stages h
  refine ⟨hrented, hfindings, hentries, hother, hcase.imp_right ?_⟩
  rintro ⟨hfree, hfree', a, serial, n, hsearch, hdefine⟩
  obtain ⟨_, _, hemits, ha, -, hnew, -⟩ := firstFree_spec (Heap.numbered_injective _) hsearch
  obtain rfl := congrArg Workspace.assembly ha
  obtain ⟨tries, w₁, htries, hfirst⟩ := Yields.bind_iff.mp hsearch
  simp only [nameTries, Yields.bind_iff, Yields.get_iff, Yields.pure_iff] at htries
  obtain ⟨_, _, ⟨rfl, rfl⟩, -, rfl⟩ := htries
  obtain ⟨a₁, hchain, hw₂⟩ := emitted_chain ((firstFree_emitted _ _ _).of_yields hfirst)
  obtain rfl := congrArg Workspace.assembly hw₂
  exact ⟨hfree, hfree', hemits.heap.get?_eq_none hnew,
    hchain.trans ((Emit.define_changes hnew).of_yields hdefine)⟩

/-- Renting that fails has looked for a name, and has at most noted how far it came. -/
theorem rent_error {e : BuildError} (h : rent cfg type w = .error e w') :
    ∃ a pools, ReflTransGen (Assembly.Change cfg.catalog) w.assembly a ∧
      w' = { w with assembly := a, pools := pools } ∧
      ∀ type', w'.freeOf type' = w.freeOf type' := by
  rcases bind_error_cases h with h | ⟨_, _, hget, h⟩
  · cases h
  obtain ⟨rfl, rfl⟩ := Yields.get_iff.mp hget
  cases hfree : ((w.pools.get? type).getD {}).free with
  | cons first rest =>
    -- A free temporary is there, and nothing can fail.
    simp only [hfree] at h
    cases h
  | nil =>
    simp only [hfree] at h
    rcases bind_error_cases h with h | ⟨tries, _, htries, h⟩
    · cases h
    simp only [nameTries, Yields.bind_iff, Yields.get_iff, Yields.pure_iff] at htries
    obtain ⟨_, _, ⟨rfl, rfl⟩, -, rfl⟩ := htries
    rcases bind_error_cases h with h | ⟨⟨free, serial⟩, w₁, hfirst, h⟩
    · obtain ⟨a, hchain, rfl⟩ := emitted_chain ((firstFree_emitted _ _ _).of_error h)
      exact ⟨a, _, hchain, rfl, fun _ => rfl⟩
    obtain ⟨a, hchain, rfl⟩ := emitted_chain ((firstFree_emitted _ _ _).of_yields hfirst)
    rcases bind_error_cases h with h | ⟨_, _, hserial, h⟩
    · cases h
    obtain rfl := Yields.modify_iff.mp hserial
    rcases bind_error_cases h with h | ⟨_, _, -, h⟩
    · -- The definition fails as a whole, and the number tried is kept.
      obtain ⟨a', hdefine, rfl⟩ := Build.emit_error h
      obtain rfl := Emit.onHeap_error hdefine
      refine ⟨_, _, hchain, rfl, fun type' => ?_⟩
      refine (w.freeOf_put_pool type _ type').trans ?_
      split
      next heq => rw [heq, freeOf, hfree]
      next => rfl
    · rcases bind_error_cases h with h | ⟨_, _, -, h⟩ <;> cases h

end Build

/-! ## Changes -/

namespace Workspace

/-- A single change of a workspace while code is generated. -/
inductive Change (cfg : Setting) : Workspace → Workspace → Prop where
  | emit {w w' : Workspace} (h : w.Emitted cfg.catalog w') : Change cfg w w'
  /-- The entry points are brought up to date. -/
  | note (w : Workspace) (entryPoints : NameMap EntryPoint) :
      Change cfg w { w with entryPoints := entryPoints }
  | rent {w w' : Workspace} {name : String} {type : TypeId}
      (h : Yields (Build.rent cfg type) w name w') : Change cfg w w'
  /-- The search for the name of a temporary moves on. -/
  | search {w : Workspace} {pools : OrderedMap TypeId TempPool}
      (free : ∀ type, ({ w with pools := pools } : Workspace).freeOf type = w.freeOf type) :
      Change cfg w { w with pools := pools }
  | giveBack (w : Workspace) (name : String) : Change cfg w (w.giveBack name)

/-- A workspace comes from another one by changes. -/
def Proceeds (cfg : Setting) : Workspace → Workspace → Prop := ReflTransGen (Change cfg)

variable {cfg : Setting} {w w' : Workspace} {name : String} {type : TypeId}

theorem Change.assembly (h : Change cfg w w') :
    ReflTransGen (Assembly.Change cfg.catalog) w.assembly w'.assembly := by
  cases h with
  | emit h =>
    obtain ⟨a, hchange, rfl⟩ := h
    exact .single hchange
  | note => exact .refl
  | rent h =>
    obtain ⟨-, -, -, -, ⟨-, hsame⟩ | ⟨-, -, -, hchain⟩⟩ := Build.rent_cases h
    · rw [hsame]
    · exact hchain
  | search => exact .refl
  | giveBack =>
    rw [giveBack_assembly]

theorem Change.extends (h : Change cfg w w') : w.assembly.heap.Extends w'.assembly.heap :=
  Assembly.extends_of_changes h.assembly

/-- Rented and free temporaries stay apart. -/
theorem Change.pooled (h : Change cfg w w') (hw : w.Pooled) : w'.Pooled := by
  cases h with
  | emit h =>
    obtain ⟨a, hchange, rfl⟩ := h
    exact hw.onAssembly hchange.extends
  | note => exact ⟨hw.nodup, hw.free, hw.rented⟩
  | rent h => exact (Build.rent_spec h hw).2.1
  | search free =>
    rw [pooled_iff] at hw ⊢
    simp only [free]
    exact hw
  | giveBack name => exact (giveBack_spec hw name).1

/-- A temporary stays known. -/
theorem Change.known (h : Change cfg w w') (hname : w.Known name) : w'.Known name := by
  rw [known_iff] at hname ⊢
  cases h with
  | emit h =>
    obtain ⟨a, -, rfl⟩ := h
    exact hname
  | note => exact hname
  | @rent _ rented type h =>
    obtain ⟨hrented, -, -, hother, hcase⟩ := Build.rent_cases h
    rw [hrented]
    simp only [OrderedMap.get?_put]
    by_cases heq : name = rented
    · exact Or.inl ⟨type, if_pos heq⟩
    -- Another name stays rented, or stays free behind the one that is taken.
    simp only [if_neg heq]
    refine hname.imp_right fun hfree => ?_
    obtain ⟨type', hfree⟩ := hfree
    refine ⟨type', ?_⟩
    by_cases htype : type' = type
    · subst htype
      rcases hcase with ⟨hfirst, -⟩ | ⟨hnone, -⟩
      · rw [hfirst, List.mem_cons] at hfree
        exact hfree.resolve_left heq
      · rw [hnone] at hfree
        cases hfree
    · rwa [hother type' htype]
  | search free =>
    simp only [free]
    exact hname
  | giveBack other =>
    simp only [rented_giveBack, freeOf_giveBack]
    by_cases heq : name = other
    · subst heq
      right
      rcases hname with ⟨type, hrented⟩ | ⟨type, hfree⟩
      · exact ⟨type, by simp [hrented]⟩
      · exact ⟨type, List.mem_append_left _ hfree⟩
    · rcases hname with ⟨type, hrented⟩ | ⟨type, hfree⟩
      · exact Or.inl ⟨type, by rw [if_neg heq, hrented]⟩
      · exact Or.inr ⟨type, List.mem_append_left _ hfree⟩

/-- A name that comes to be known was no slot before. -/
theorem Change.known_cases (h : Change cfg w w') (hname : w'.Known name) :
    w.Known name ∨ w.assembly.heap.slots.get? name = none := by
  cases h with
  | emit h =>
    obtain ⟨a, -, rfl⟩ := h
    exact Or.inl hname
  | note => exact Or.inl hname
  | rent h => exact Build.rent_known h hname
  | search free =>
    left
    rw [known_iff] at hname ⊢
    simpa only [free] using hname
  | giveBack other => exact Or.inl (giveBack_known hname)

theorem Proceeds.assembly (h : Proceeds cfg w w') :
    ReflTransGen (Assembly.Change cfg.catalog) w.assembly w'.assembly := by
  induction h with
  | refl => exact .refl
  | tail _ hchange ih => exact ih.trans hchange.assembly

theorem Proceeds.extends (h : Proceeds cfg w w') : w.assembly.heap.Extends w'.assembly.heap :=
  Assembly.extends_of_changes h.assembly

theorem Proceeds.pooled (h : Proceeds cfg w w') (hw : w.Pooled) : w'.Pooled := by
  induction h with
  | refl => exact hw
  | tail _ hchange ih => exact hchange.pooled ih

theorem Proceeds.known (h : Proceeds cfg w w') (hname : w.Known name) : w'.Known name := by
  induction h with
  | refl => exact hname
  | tail _ hchange ih => exact hchange.known ih

theorem Proceeds.known_cases (h : Proceeds cfg w w') (hname : w'.Known name) :
    w.Known name ∨ w.assembly.heap.slots.get? name = none := by
  induction h with
  | refl => exact Or.inl hname
  | tail hchain hchange ih =>
    rcases hchange.known_cases hname with hknown | hnone
    · exact ih hknown
    · exact Or.inr ((Proceeds.extends hchain).get?_eq_none hnone)

end Workspace

end SexprAsm
