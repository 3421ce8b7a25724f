import Mathlib.Data.Finset.Card
import SexprAsm.Proofs.Workspace.Changes

/-!
# Temporaries under any sequence of calls

A workspace offers its pool of temporaries, its entry points and all operations of its assembly
(`Workspace.Request`). Here they are called in any order, and calls that fail count too. Rented and
free temporaries stay apart, renting hands out only slots that renting has made, and it makes no
more of them than have been rented at one time (`Workspace.pool_of_requests`).

The books that carry this are `Workspace.Tended`: the names that renting a type has returned are the
temporaries of that type that are rented or free. A new name is made only when none is free, that
is, when all names so far are rented.
-/

namespace SexprAsm

open Relation

/-! ## Calls

A workspace is worked on from outside by calls, which may fail. A sequence of them is a list, so
all that is said of sequences is proved by induction on lists. What renting has returned, and
how many temporaries were rented at a time, is read off the sequence (`returnedAll`, `peak`). -/

/-- A call of an operation on an assembly. -/
inductive Assembly.Request where
  | define (name : String) (type : Option TypeId) (attributes : Attributes) (value : Option Value)
  | typeOf (name : String)
  | constant (value : Value)
  | instruction (i : Instruction)
  | entryPoint (label : String)
  | patch (id : InstructionId) (target : JumpTarget)
  | push (operand : Operand)
  | copy (source : Operand) (target : String)
  | copyOffset (target : String) (relative : UInt32)
  | jumpIfFalse (condition : String) (target : JumpTarget)
  | jumpIndirect (address : String)
  | callPushed (name : String)
  | call (name : String) (operands : List Operand)
  deriving DecidableEq, Repr

/-- The assembly after a call, also if it fails. -/
def Assembly.Request.after (cfg : Setting) (a : Assembly) : Assembly.Request → Assembly
  | .define name type attributes value => endState (Emit.define cfg name type attributes value) a
  | .typeOf name => endState (Emit.typeOf? cfg name) a
  | .constant value => endState (Emit.constant cfg value) a
  | .instruction i => endState (Emit.instruction i) a
  | .entryPoint label => endState (Emit.entryPoint label) a
  | .patch id target => endState (Emit.patch id target) a
  | .push operand => endState (Emit.push cfg operand) a
  | .copy source target => endState (Emit.copy cfg source target) a
  | .copyOffset target relative => endState (Emit.copyOffset cfg target relative) a
  | .jumpIfFalse condition target => endState (Emit.jumpIfFalse cfg condition target) a
  | .jumpIndirect address => endState (Emit.jumpIndirect cfg address) a
  | .callPushed name => endState (Emit.callPushed cfg name) a
  | .call name operands => endState (Emit.call cfg name operands) a

/-- A call changes the assembly as emitting does, or is an outright definition that succeeds. -/
theorem Assembly.Request.after_cases (cfg : Setting) (a : Assembly) (request : Assembly.Request) :
    ReflTransGen (Assembly.Change cfg.catalog) a (request.after cfg a) ∨
      ∃ name type attributes value heap, request = .define name type attributes value ∧
        a.heap.define cfg.catalog name type attributes value = .ok heap ∧
        request.after cfg a = { a with heap := heap } := by
  cases request with
  | define name type attributes value =>
    show ReflTransGen _ a (endState (Emit.define cfg name type attributes value) a) ∨ _
    cases hdefine : a.heap.define cfg.catalog name type attributes value with
    | error e =>
      left
      have hsame : endState (Emit.define cfg name type attributes value) a = a := by
        simp [endState, Emit.define, Emit.onHeap, hdefine, Except.map]
      rw [hsame]
    | ok heap =>
      refine Or.inr ⟨name, type, attributes, value, heap, rfl, hdefine, ?_⟩
      simp [Assembly.Request.after, endState, Emit.define, Emit.onHeap, hdefine, Except.map]
  | typeOf name => exact Or.inl (Emit.typeOf?_changes name)
  | constant value => exact Or.inl (Emit.constant_changes value)
  | instruction i => exact Or.inl (Emit.instruction_changes i)
  | entryPoint label => exact Or.inl (Emit.entryPoint_changes label)
  | patch id target => exact Or.inl (Emit.patch_changes id target)
  | push operand => exact Or.inl (Emit.push_changes operand)
  | copy source target => exact Or.inl (Emit.copy_changes source target)
  | copyOffset target relative => exact Or.inl (Emit.copyOffset_changes target relative)
  | jumpIfFalse condition target => exact Or.inl (Emit.jumpIfFalse_changes condition target)
  | jumpIndirect address => exact Or.inl (Emit.jumpIndirect_changes address)
  | callPushed name => exact Or.inl (Emit.callPushed_changes name)
  | call name operands => exact Or.inl (Emit.call_changes name operands)

theorem Assembly.Request.keepsTypes (cfg : Setting) (a : Assembly) (request : Assembly.Request) :
    a.heap.KeepsTypes (request.after cfg a).heap := by
  rcases request.after_cases cfg a with hchanges | ⟨_, _, _, _, heap, -, hdefine, hafter⟩
  · exact (Assembly.extends_of_changes hchanges).keepsTypes
  · rw [hafter]
    exact Heap.define_keepsTypes hdefine

namespace Workspace

/-- A call on a workspace: of its pool of temporaries, its entry points or its assembly. -/
inductive Request where
  | rent (type : TypeId)
  | giveBack (name : String)
  | declareEntryPoint (label : String)
  | build (request : Assembly.Request)
  deriving DecidableEq, Repr

/-- The workspace after a call, also if it fails. -/
def Request.after (cfg : Setting) (w : Workspace) : Request → Workspace
  | .rent type => endState (Build.rent cfg type) w
  | .giveBack name => w.giveBack name
  | .declareEntryPoint label => endState (Build.declareEntryPoint cfg label) w
  | .build request => { w with assembly := request.after cfg w.assembly }

/-- The workspace after a sequence of calls. -/
def afterAll (cfg : Setting) (w : Workspace) (requests : List Request) : Workspace :=
  requests.foldl (Request.after cfg) w

/-- What renting a temporary of a type returns, if that is what is called and it succeeds. -/
def Request.returned (cfg : Setting) (w : Workspace) (type : TypeId) : Request → List String
  | .rent type' =>
    if type' = type then
      match Build.rent cfg type w with
      | .ok name _ => [name]
      | .error _ _ => []
    else []
  | _ => []

/-- The names that renting a type returns in a sequence of calls. -/
def returnedAll (cfg : Setting) (type : TypeId) : Workspace → List Request → List String
  | _, [] => []
  | w, request :: requests =>
    request.returned cfg w type ++ returnedAll cfg type (request.after cfg w) requests

/-- The temporaries of a type that are rented. -/
def rentedOf (w : Workspace) (type : TypeId) : Finset String :=
  w.rented.keys.toFinset.filter fun name => w.rented.get? name = some type

/-- The largest number of temporaries of a type that are rented at one time in a sequence of
calls. -/
def peak (cfg : Setting) (type : TypeId) : Workspace → List Request → Nat
  | w, [] => (w.rentedOf type).card
  | w, request :: requests =>
    max (w.rentedOf type).card (peak cfg type (request.after cfg w) requests)

/-! ## Calls that leave the temporaries alone

Only renting and giving back concern the pools. All other calls, whether they fail or not, keep
them, and keep the types of slots, so temporaries stay temporaries. -/

/-- The temporaries are left alone, and slots keep their types. -/
structure Untouched (w w' : Workspace) : Prop where
  rented : w'.rented = w.rented
  pools : w'.pools = w.pools
  types : w.assembly.heap.KeepsTypes w'.assembly.heap

variable {cfg : Setting} {w w' : Workspace}

theorem Untouched.refl (w : Workspace) : w.Untouched w := ⟨rfl, rfl, .refl _⟩

theorem Untouched.trans {w'' : Workspace} (h : w.Untouched w') (h' : w'.Untouched w'') :
    w.Untouched w'' :=
  ⟨h'.rented.trans h.rented, h'.pools.trans h.pools, h.types.trans h'.types⟩

theorem untouched_of_chain (h : ReflTransGen Untouched w w') : w.Untouched w' := by
  induction h with
  | refl => exact .refl _
  | tail _ hchange ih => exact ih.trans hchange

theorem untouched_emit {α : Type} {act : Emit α}
    (h : MadeOf (fun a a' => a.heap.KeepsTypes a'.heap) act w.assembly) :
    MadeOf Untouched (Build.emit act) w :=
  .emit (fun _ _ htypes => ⟨rfl, rfl, htypes⟩) h

theorem declareEntryPoint_untouched (label : String) :
    MadeOf Untouched (Build.declareEntryPoint cfg label) w := by
  have hpointer : MadeOf Untouched (Build.defineReturnPointer cfg label) w := by
    refine .bind (.bind .get fun _ _ _ => .pure _) fun tries _ _ => ?_
    refine .bind (Build.firstFree_madeOf fun name => untouched_emit ?_) fun found _ _ => ?_
    · exact (Emit.typeOf?_changes name).mono fun _ _ hchange => hchange.extends.keepsTypes
    · exact .bind (untouched_emit (.define fun _ => Heap.define_keepsTypes)) fun _ _ _ => .pure _
  refine .bind .get fun known w₁ hget => ?_
  obtain ⟨rfl, rfl⟩ := Yields.get_iff.mp hget
  have hnote : ∀ {w : Workspace} (entry : EntryPoint), MadeOf Untouched (do
      modify fun w => { w with entryPoints := w.entryPoints.put label entry }
      return entry : Build EntryPoint) w :=
    fun entry => .bind (.modify ⟨rfl, rfl, .refl _⟩) fun _ _ _ => .pure _
  split
  · exact hnote _
  · exact .bind hpointer fun _ _ _ => hnote _

/-- A call rents a temporary, gives one back, or leaves the temporaries alone. -/
theorem Request.after_cases (cfg : Setting) (w : Workspace) (request : Request) :
    (∃ type name, request = .rent type ∧
        Yields (Build.rent cfg type) w name (request.after cfg w)) ∨
      (∃ name, request = .giveBack name) ∨
      (request.after cfg w).rented = w.rented ∧
        (∀ type, (request.after cfg w).freeOf type = w.freeOf type) ∧
        w.assembly.heap.KeepsTypes (request.after cfg w).assembly.heap ∧
        ∀ type, request.returned cfg w type = [] := by
  have huntouched : w.Untouched (request.after cfg w) →
      (request.after cfg w).rented = w.rented ∧
        (∀ type, (request.after cfg w).freeOf type = w.freeOf type) ∧
        w.assembly.heap.KeepsTypes (request.after cfg w).assembly.heap :=
    fun h => ⟨h.rented, fun type => by rw [freeOf, freeOf, h.pools], h.types⟩
  cases request with
  | rent type =>
    cases hrent : Build.rent cfg type w with
    | ok name w' =>
      refine Or.inl ⟨type, name, rfl, ?_⟩
      rw [Request.after, Yields.endState_eq hrent]
      exact hrent
    | error e w' =>
      obtain ⟨a, pools, hchain, rfl, hfree⟩ := Build.rent_error hrent
      right; right
      rw [Request.after, endState_of_error hrent]
      refine ⟨rfl, hfree, (Assembly.extends_of_changes hchain).keepsTypes, fun type' => ?_⟩
      by_cases heq : type = type'
      · subst heq
        simp [Request.returned, hrent]
      · simp [Request.returned, heq]
  | giveBack name => exact Or.inr (Or.inl ⟨name, rfl⟩)
  | declareEntryPoint label =>
    obtain ⟨hrented, hfree, htypes⟩ :=
      huntouched (untouched_of_chain (declareEntryPoint_untouched label))
    exact Or.inr (Or.inr ⟨hrented, hfree, htypes, fun _ => rfl⟩)
  | build request =>
    obtain ⟨hrented, hfree, htypes⟩ := huntouched ⟨rfl, rfl, request.keepsTypes cfg w.assembly⟩
    exact Or.inr (Or.inr ⟨hrented, hfree, htypes, fun _ => rfl⟩)

theorem Temporary.keeps {name : String} {type : TypeId} (h : w.Temporary name type)
    (htypes : w.assembly.heap.KeepsTypes w'.assembly.heap) : w'.Temporary name type := by
  obtain ⟨hlead, v, hv, htype⟩ := h
  obtain ⟨v', hv', htype'⟩ := htypes name v hv
  exact ⟨hlead, v', hv', htype'.trans htype⟩

theorem Request.keepsTypes (cfg : Setting) (w : Workspace) (request : Request) :
    w.assembly.heap.KeepsTypes (request.after cfg w).assembly.heap := by
  rcases request.after_cases cfg w with ⟨type, name, -, hrent⟩ | ⟨name, rfl⟩ | ⟨-, -, htypes, -⟩
  · exact (Change.rent hrent).extends.keepsTypes
  · rw [Request.after, giveBack_assembly]
    exact .refl _
  · exact htypes

/-! ## The books

`Tended` is the invariant: all names that have been returned so far are rented or free, and there
are no more of them than have been rented at one time. Renting makes a new name only if none is
free, and that is when the number of those rented grows beyond what it was. -/

theorem mem_rentedOf_iff {name : String} {type : TypeId} :
    name ∈ w.rentedOf type ↔ w.rented.get? name = some type := by
  rw [rentedOf, Finset.mem_filter, List.mem_toFinset, OrderedMap.mem_keys_iff]
  refine and_iff_right_of_imp fun h => ?_
  exact OrderedMap.contains_iff.mpr ⟨type, h⟩

/-- The names that renting has returned are the temporaries that are rented or free, and there are
as many as have been rented at one time. -/
structure Tended (w : Workspace) (names : TypeId → Finset String) (most : TypeId → Nat) : Prop where
  pooled : w.Pooled
  accounted : ∀ type, names type = w.rentedOf type ∪ (w.freeOf type).toFinset
  counted : ∀ type, (names type).card = most type

theorem tended_forTree (t : Tree) : Tended (.forTree t) (fun _ => ∅) fun _ => 0 :=
  ⟨⟨by rintro _ _ ⟨⟩, by rintro _ _ ⟨⟩, by rintro _ _ ⟨⟩⟩, fun _ => rfl, fun _ => rfl⟩

variable {names : TypeId → Finset String} {most : TypeId → Nat} {type : TypeId} {name : String}

/-- Where no name is new, no more temporaries can be rented than there have been. -/
theorem Tended.max_most (h : Tended w names most)
    (hnames : names type = w'.rentedOf type ∪ (w'.freeOf type).toFinset) :
    (names type).card = max (most type) (w'.rentedOf type).card := by
  rw [← h.counted type, max_eq_left]
  rw [hnames]
  exact Finset.card_le_card Finset.subset_union_left

/-- Renting makes a new name only if all names are rented. -/
theorem Tended.rent (h : Tended w names most) (hrent : Yields (Build.rent cfg type) w name w') :
    Tended w' (fun other => names other ∪ if type = other then {name} else ∅)
      fun other => max (most other) (w'.rentedOf other).card := by
  obtain ⟨hrented, -, -, hother, hcase⟩ := Build.rent_cases hrent
  obtain ⟨-, hpooled, -, -, hnot, -, -⟩ := Build.rent_spec hrent h.pooled
  have hrentedOf : ∀ other, w'.rentedOf other =
      w.rentedOf other ∪ if type = other then {name} else ∅ := by
    intro other
    ext x
    rw [mem_rentedOf_iff, hrented, OrderedMap.get?_put, Finset.mem_union, mem_rentedOf_iff]
    by_cases hx : x = name <;> by_cases htype : type = other <;> simp [hx, htype, hnot]
  have haccounted : ∀ other, (names other ∪ if type = other then {name} else ∅) =
      w'.rentedOf other ∪ (w'.freeOf other).toFinset := by
    intro other
    rw [h.accounted other, hrentedOf other]
    by_cases htype : type = other
    · subst htype
      rcases hcase with ⟨hfirst, -⟩ | ⟨hfree, hfree', -⟩
      · rw [hfirst, List.toFinset_cons, if_pos rfl]
        ext x
        simp only [Finset.mem_union, Finset.mem_insert, Finset.mem_singleton]
        tauto
      · rw [hfree, hfree', if_pos rfl]
        ext x
        simp
    · rw [hother other (Ne.symm htype), if_neg htype]
      simp
  refine ⟨hpooled, haccounted, fun other => ?_⟩
  -- As long as no name is added, the most that were rented at once stay as many.
  have hsame : (names other ∪ if type = other then {name} else ∅) = names other →
      (names other ∪ if type = other then {name} else ∅).card =
        max (most other) (w'.rentedOf other).card := by
    intro heq
    rw [heq]
    exact h.max_most (heq ▸ haccounted other)
  by_cases htype : type = other
  · subst htype
    rcases hcase with ⟨hfirst, -⟩ | ⟨hfree, -⟩
    · refine hsame (Finset.union_eq_left.mpr ?_)
      rw [h.accounted, hfirst, if_pos rfl]
      simp
    · -- None was free, so all names were rented, and now there is one more.
      have hall : names type = w.rentedOf type := by
        rw [h.accounted, hfree]
        simp
      have hnew : name ∉ w.rentedOf type := by
        rw [mem_rentedOf_iff, hnot]
        simp
      rw [hrentedOf, ← h.counted type, hall, if_pos rfl, Finset.union_singleton,
        Finset.card_insert_of_notMem hnew]
      omega
  · exact hsame (by simp [htype])

theorem Tended.giveBack (h : Tended w names most) (name : String) :
    Tended (w.giveBack name) names
      fun other => max (most other) ((w.giveBack name).rentedOf other).card := by
  have haccounted : ∀ other, names other =
      (w.giveBack name).rentedOf other ∪ ((w.giveBack name).freeOf other).toFinset := by
    intro other
    rw [h.accounted other]
    ext x
    simp only [Finset.mem_union, mem_rentedOf_iff, List.mem_toFinset, rented_giveBack,
      freeOf_giveBack, List.mem_append]
    -- The name moves from the rented ones to the free ones of its type, if it was rented.
    by_cases hx : x = name
    · subst hx
      by_cases hrented : w.rented.get? x = some other <;> simp [hrented]
    · have : ∀ rented : Prop, [Decidable rented] → x ∉ (if rented then [name] else []) := by
        intro rented _
        split <;> simp [hx]
      simp [hx, this]
  exact ⟨(giveBack_spec h.pooled name).1, haccounted, fun other => h.max_most (haccounted other)⟩

theorem Tended.same (h : Tended w names most) (hrented : w'.rented = w.rented)
    (hfree : ∀ type, w'.freeOf type = w.freeOf type)
    (htypes : w.assembly.heap.KeepsTypes w'.assembly.heap) :
    Tended w' names fun other => max (most other) (w'.rentedOf other).card := by
  have haccounted : ∀ other, names other = w'.rentedOf other ∪ (w'.freeOf other).toFinset := by
    intro other
    rw [h.accounted other, hfree, rentedOf, rentedOf, hrented]
  obtain ⟨hnodup, hfreed, hhired⟩ := pooled_iff.mp h.pooled
  refine ⟨pooled_iff.mpr ⟨fun type => hfree type ▸ hnodup type, fun type name hname => ?_,
    fun name type hname => ?_⟩, haccounted, fun other => h.max_most (haccounted other)⟩
  · rw [hfree] at hname
    obtain ⟨hnone, htemp⟩ := hfreed type name hname
    exact ⟨hrented ▸ hnone, htemp.keeps htypes⟩
  · rw [hrented] at hname
    exact (hhired name type hname).keeps htypes

/-- One call keeps the books. -/
theorem Tended.after (h : Tended w names most) (cfg : Setting) (request : Request) :
    Tended (request.after cfg w)
      (fun type => names type ∪ (request.returned cfg w type).toFinset)
      fun type => max (most type) ((request.after cfg w).rentedOf type).card := by
  rcases request.after_cases cfg w with ⟨type, name, rfl, hrent⟩ | ⟨name, rfl⟩ |
    ⟨hrented, hfree, htypes, hnone⟩
  · have hreturned : (fun other => names other ∪
        ((Request.rent type).returned cfg w other).toFinset) =
        fun other => names other ∪ if type = other then {name} else ∅ := by
      funext other
      by_cases htype : type = other
      · subst htype
        have : Build.rent cfg type w = .ok name _ := hrent
        simp [Request.returned, this]
      · simp [Request.returned, htype]
    rw [hreturned]
    exact h.rent hrent
  · have hreturned : (fun other => names other ∪
        ((Request.giveBack name).returned cfg w other).toFinset) = names := by
      funext other
      exact Finset.union_empty _
    rw [hreturned]
    exact h.giveBack name
  · simp only [hnone, List.toFinset_nil, Finset.union_empty]
    exact h.same hrented hfree htypes

/-! ## Sequences of calls

By induction on the sequence, from its end: one more call keeps the books (`Tended.after`). That
a name is one that renting has made is followed in the same way (`made_of_known`). -/

theorem afterAll_concat (cfg : Setting) (w : Workspace) (requests : List Request)
    (request : Request) :
    afterAll cfg w (requests ++ [request]) = request.after cfg (afterAll cfg w requests) := by
  simp [afterAll]

theorem returnedAll_concat (cfg : Setting) (type : TypeId) (w : Workspace)
    (requests : List Request) (request : Request) :
    returnedAll cfg type w (requests ++ [request]) =
      returnedAll cfg type w requests ++ request.returned cfg (afterAll cfg w requests) type := by
  induction requests generalizing w with
  | nil => simp [returnedAll, afterAll]
  | cons first requests ih => simp [returnedAll, afterAll, ih]

theorem peak_concat (cfg : Setting) (type : TypeId) (w : Workspace) (requests : List Request)
    (request : Request) :
    peak cfg type w (requests ++ [request]) = max (peak cfg type w requests)
      ((request.after cfg (afterAll cfg w requests)).rentedOf type).card := by
  induction requests generalizing w with
  | nil => rfl
  | cons first requests ih => simp [peak, afterAll, ih, max_assoc]

/-- A sequence of calls keeps the books. -/
theorem tended_afterAll (cfg : Setting) (t : Tree) (requests : List Request) :
    Tended (afterAll cfg (.forTree t) requests)
      (fun type => (returnedAll cfg type (.forTree t) requests).toFinset)
      fun type => peak cfg type (.forTree t) requests := by
  induction requests using List.reverseRecOn with
  | nil => exact tended_forTree t
  | append_singleton requests request ih =>
    have hafter := ih.after cfg request
    simp only [← List.toFinset_append, ← returnedAll_concat, ← peak_concat] at hafter
    rw [afterAll_concat]
    exact hafter

theorem keepsTypes_afterAll (cfg : Setting) (w : Workspace) (requests : List Request) :
    w.assembly.heap.KeepsTypes (afterAll cfg w requests).assembly.heap := by
  induction requests generalizing w with
  | nil => exact .refl _
  | cons request requests ih => exact (request.keepsTypes cfg w).trans (ih _)

/-- One of the calls is a renting that has returned the name, which was no slot before. -/
def Made (cfg : Setting) (w : Workspace) (requests : List Request) (type : TypeId)
    (name : String) : Prop :=
  ∃ earlier later w', requests = earlier ++ .rent type :: later ∧
    (afterAll cfg w earlier).assembly.heap.slots.get? name = none ∧
    Yields (Build.rent cfg type) (afterAll cfg w earlier) name w'

theorem Made.concat {requests : List Request} (h : Made cfg w requests type name)
    (request : Request) : Made cfg w (requests ++ [request]) type name := by
  obtain ⟨earlier, later, w', rfl, hslot, hrent⟩ := h
  exact ⟨earlier, later ++ [request], w', by simp, hslot, hrent⟩

theorem made_of_rent {requests : List Request}
    (hrent : Yields (Build.rent cfg type) (afterAll cfg w requests) name w')
    (hfree : name ∈ (afterAll cfg w requests).freeOf type → Made cfg w requests type name) :
    Made cfg w (requests ++ [.rent type]) type name := by
  obtain ⟨-, -, -, -, ⟨hfirst, -⟩ | ⟨-, -, hslot, -⟩⟩ := Build.rent_cases hrent
  · refine (hfree ?_).concat _
    rw [hfirst]
    exact List.mem_cons_self
  · exact ⟨requests, [], w', rfl, hslot, hrent⟩

/-- What is rented or free has been made by renting. -/
theorem made_of_known (cfg : Setting) (t : Tree) (requests : List Request) :
    (∀ type name, (afterAll cfg (.forTree t) requests).rented.get? name = some type →
        Made cfg (.forTree t) requests type name) ∧
      ∀ type, ∀ name ∈ (afterAll cfg (.forTree t) requests).freeOf type,
        Made cfg (.forTree t) requests type name := by
  induction requests using List.reverseRecOn with
  | nil => exact ⟨by rintro _ _ ⟨⟩, by rintro _ _ ⟨⟩⟩
  | append_singleton requests request ih =>
    obtain ⟨hrented, hfree⟩ := ih
    rw [afterAll_concat]
    -- Only renting adds a name, and one that it does not find free is made by it.
    rcases request.after_cases cfg (afterAll cfg (.forTree t) requests) with
      ⟨type, name, rfl, hrent⟩ | ⟨name, rfl⟩ | ⟨hsame, hfree', -, -⟩
    · obtain ⟨hput, -, -, hother, hcase⟩ := Build.rent_cases hrent
      refine ⟨fun type' other hget => ?_, fun type' other hmem => ?_⟩
      · rw [hput, OrderedMap.get?_put] at hget
        split at hget
        next heq =>
          obtain rfl := Option.some.inj hget
          exact heq ▸ made_of_rent hrent (hfree _ _)
        next => exact (hrented type' other hget).concat _
      · refine (hfree type' other ?_).concat _
        by_cases htype : type' = type
        · subst htype
          rcases hcase with ⟨hfirst, -⟩ | ⟨-, hnone, -⟩
          · rw [hfirst]
            exact List.mem_cons_of_mem _ hmem
          · rw [hnone] at hmem
            cases hmem
        · rwa [hother type' htype] at hmem
    · refine ⟨fun type' other hget => ?_, fun type' other hmem => ?_⟩
      · rw [Request.after, rented_giveBack] at hget
        split at hget
        · cases hget
        · exact (hrented type' other hget).concat _
      · rw [Request.after, freeOf_giveBack, List.mem_append] at hmem
        rcases hmem with hmem | hmem
        · exact (hfree type' other hmem).concat _
        · split at hmem
          next hget =>
            rw [List.mem_singleton.mp hmem]
            exact (hrented type' name hget).concat _
          next => cases hmem
    · refine ⟨fun type' other hget => ?_, fun type' other hmem => ?_⟩
      · exact (hrented type' other (hsame ▸ hget)).concat _
      · exact (hfree type' other (hfree' type' ▸ hmem)).concat _

/-- After any sequence of calls on a new workspace, failing ones included: no temporary is rented
and free, or free twice; a temporary that is rented was not, has the type asked for from then on,
and its slot has been made by renting that type; and renting a type has returned no more names
than temporaries of that type have been rented at one time. -/
theorem pool_of_requests (cfg : Setting) (t : Tree) (requests : List Request) :
    (∀ type name, name ∈ (afterAll cfg (.forTree t) requests).freeOf type →
        (afterAll cfg (.forTree t) requests).rented.get? name = none ∧
          ((afterAll cfg (.forTree t) requests).freeOf type).count name = 1 ∧
          ∀ other ≠ type, name ∉ (afterAll cfg (.forTree t) requests).freeOf other) ∧
      (∀ type name w', Yields (Build.rent cfg type) (afterAll cfg (.forTree t) requests) name w' →
        (afterAll cfg (.forTree t) requests).rented.get? name = none ∧
          Made cfg (.forTree t) (requests ++ [.rent type]) type name ∧
          ∀ later, ∃ v, (afterAll cfg w' later).assembly.heap.slots.get? name = some v ∧
            v.type = type) ∧
      ∀ type, (returnedAll cfg type (.forTree t) requests).toFinset.card =
        peak cfg type (.forTree t) requests := by
  have htended := tended_afterAll cfg t requests
  obtain ⟨hnodup, hfree, -⟩ := pooled_iff.mp htended.pooled
  refine ⟨fun type name hname => ?_, fun type name w' hrent => ?_, htended.counted⟩
  · obtain ⟨hnone, htemp⟩ := hfree type name hname
    refine ⟨hnone, List.count_eq_one_of_mem (hnodup type) hname, fun other hne hother => ?_⟩
    exact hne ((hfree other name hother).2.unique htemp)
  · obtain ⟨-, -, -, -, hnone, htemp, -⟩ := Build.rent_spec hrent htended.pooled
    refine ⟨hnone, made_of_rent hrent ((made_of_known cfg t requests).2 type name), fun later => ?_⟩
    exact (htemp.keeps (keepsTypes_afterAll cfg w' later)).2

/-- Renting does return names that have been defined by another call: a temporary that is free may
be declared again with its type, and is rented again all the same. -/
theorem rent_returns_declared :
    ¬ ∀ (cfg : Setting) (t : Tree) (earlier later : List Request) (type : TypeId) (name : String)
      (type' : Option TypeId) (attributes : Attributes) (value : Option Value) (a : Assembly)
      (w' : Workspace),
      Yields (Emit.define cfg name type' attributes value)
        (afterAll cfg (.forTree t) earlier).assembly () a →
      ¬ Yields (Build.rent cfg type) (afterAll cfg (.forTree t)
        (earlier ++ .build (.define name type' attributes value) :: later)) name w' := by
  intro hnever
  obtain ⟨_, a, hdefine, -⟩ : ∃ r a, Yields (Emit.define ⟨Catalog.empty, true⟩
      "__temp_SystemObject_0" (some TypeTable.object) {} none)
      (afterAll ⟨Catalog.empty, true⟩ (.forTree (.single .null))
        [.rent TypeTable.object, .giveBack "__temp_SystemObject_0"]).assembly r a ∧
      true = true :=
    exists_yields (by decide +kernel)
  obtain ⟨name, w', hrent, hname⟩ : ∃ name w', Yields (Build.rent ⟨Catalog.empty, true⟩
      TypeTable.object) (afterAll ⟨Catalog.empty, true⟩ (.forTree (.single .null))
        ([.rent TypeTable.object, .giveBack "__temp_SystemObject_0"] ++
          .build (.define "__temp_SystemObject_0" (some TypeTable.object) {} none) :: []))
      name w' ∧ decide (name = "__temp_SystemObject_0") = true :=
    exists_yields (p := fun name => decide (name = "__temp_SystemObject_0")) (by decide +kernel)
  rw [of_decide_eq_true hname] at hrent
  exact hnever _ _ _ _ _ _ _ _ _ a w' hdefine hrent

end Workspace

end SexprAsm
