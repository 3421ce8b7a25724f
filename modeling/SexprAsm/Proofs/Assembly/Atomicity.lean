import SexprAsm.Proofs.Assembly.Calls
import SexprAsm.Proofs.Assembly.Integrity
import SexprAsm.Proofs.Assembly.Unchecked
import SexprAsm.Proofs.Catalog.Index
import SexprAsm.Proofs.Generation.Literals

/-!
# Checked calls are all or nothing

A call finds the slots of its operands and checks them before it emits anything; all that has
happened by then is that slots have been made (`Assembly.Stocks`). Once the checks have passed, no
part of the emission can fail: every argument has a slot, no slot has the empty name
(`Heap.named_afterAll`), and a known operation has a name. So the code, the entry points and the
operations called either stay as they are, or get the whole call (`Emit.call_atomic`).
-/

namespace SexprAsm

open Relation

/-! ## Slots have names -/

/-- No slot has the empty name. -/
def Heap.Named (heap : Heap) : Prop := ∀ name, heap.slots.contains name = true → name.isEmpty = false

theorem Heap.Named.define {c : Catalog} {heap heap' : Heap} {name : String} {type : Option TypeId}
    {attributes : Attributes} {value : Option Value} (h : heap.Named)
    (hdefine : heap.define c name type attributes value = .ok heap') : heap'.Named := by
  obtain ⟨hempty, rfl⟩ := Heap.define_ok hdefine
  intro other hother
  rw [OrderedMap.contains, OrderedMap.get?_put] at hother
  split at hother
  next heq => exact heq ▸ hempty
  next => exact h other hother

namespace Assembly

variable {c : Catalog} {a a' a'' : Assembly}

theorem Change.named (h : Change c a a') (ha : a.heap.Named) : a'.heap.Named := by
  cases h with
  | code heap => exact heap ▸ ha
  | slot fresh define => exact ha.define define
  | literal unknown fresh lead define => exact ha.define define

theorem named_of_changes (h : ReflTransGen (Change c) a a') (ha : a.heap.Named) :
    a'.heap.Named := by
  induction h with
  | refl => exact ha
  | tail _ hchange ih => exact hchange.named ih

theorem Request.named (cfg : Setting) (request : Request) (ha : a.heap.Named) :
    (request.after cfg a).heap.Named := by
  rcases request.after_cases cfg a with hchanges | ⟨_, _, _, _, heap, -, hdefine, hafter⟩
  · exact named_of_changes hchanges ha
  · rw [hafter]
    exact ha.define hdefine

theorem named_afterAll (cfg : Setting) (requests : List Request) (ha : a.heap.Named) :
    (afterAll cfg a requests).heap.Named := by
  induction requests generalizing a with
  | nil => exact ha
  | cons request requests ih => exact ih (request.named cfg ha)

/-! ## Finding slots and checking

Up to the end of the checks a call only works on the heap (`Stocks`). So if it fails there, no
code has been added. -/

/-- Nothing but the heap changes, and it keeps what it has. -/
def Stocks (a a' : Assembly) : Prop := ∃ heap, a.heap.Extends heap ∧ a' = { a with heap := heap }

theorem Stocks.refl (a : Assembly) : a.Stocks a := ⟨a.heap, .refl _, rfl⟩

theorem Stocks.trans (h : a.Stocks a') (h' : a'.Stocks a'') : a.Stocks a'' := by
  obtain ⟨heap, hext, rfl⟩ := h
  obtain ⟨heap', hext', rfl⟩ := h'
  exact ⟨heap', hext.trans hext', rfl⟩

theorem stocks_of_chain (h : ReflTransGen Stocks a a') : a.Stocks a' := by
  induction h with
  | refl => exact .refl _
  | tail _ hstep ih => exact ih.trans hstep

end Assembly

/-- The slot of an operand: a variable is its own, a literal has the one that is kept for it, unless
the name of that one is predefined. -/
def Operand.IsAt (c : Catalog) (heap : Heap) : Operand → String → Prop
  | .var name, slot => slot = name
  | .const value, slot =>
    heap.constants.get? value = some slot ∨ c.predefined.contains slot = true

theorem Operand.IsAt.mono {c : Catalog} {heap heap' : Heap} {operand : Operand} {slot : String}
    (h : operand.IsAt c heap slot) (hext : heap.Extends heap') : operand.IsAt c heap' slot := by
  cases operand with
  | var name => exact h
  | const value => exact h.imp_left (hext.constants value slot)

namespace Emit

open Assembly (Stocks)

variable {cfg : Setting} {a a' : Assembly} {name : String}

theorem define_stocks {type : Option TypeId} (hfresh : a.heap.slots.get? name = none) :
    MadeOf Stocks (Emit.define cfg name type {} none) a :=
  .define fun heap hdefine => ⟨heap, (Heap.define_fresh hdefine hfresh).1, rfl⟩

theorem slot_stocks (operand : Operand) : MadeOf Stocks (Emit.slot cfg operand) a := by
  cases operand with
  | var name => exact .pure _
  | const value =>
    unfold Emit.slot
    exact .onHeap fun _ heap hconstant => .single ⟨heap, Heap.constant_extends hconstant, rfl⟩

theorem slots_stocks (operands : List Operand) : MadeOf Stocks (Emit.slots cfg operands) a := by
  induction operands generalizing a with
  | nil => exact .pure _
  | cons operand operands ih =>
    exact .bind (slot_stocks operand) fun _ _ _ => .bind ih fun _ _ _ => .pure _

theorem checkArguments_stocks (operation : String) (index : Nat)
    (pairs : List (String × Parameter)) :
    MadeOf Stocks (Emit.checkArguments cfg operation index pairs) a := by
  induction pairs generalizing a index with
  | nil => exact .pure _
  | cons pair pairs ih =>
    refine .bind .get fun before a' hget => ?_
    obtain ⟨rfl, rfl⟩ := Yields.get_iff.mp hget
    split
    next hfresh => exact .bind (define_stocks hfresh) fun _ _ _ => ih _
    next v _ =>
      split
      · exact ih _
      · exact .throw_bind _ _

theorem checkCall_stocks (operation : String) (arguments : List String) :
    MadeOf Stocks (Emit.checkCall cfg operation arguments) a := by
  unfold Emit.checkCall
  split
  · exact .throw _
  · split
    · exact .throw_bind _ _
    · exact checkArguments_stocks _ _ _

theorem slot_isAt (hvoid : cfg.catalog.types.name TypeTable.void = TypeTable.voidName)
    {operand : Operand} (h : Yields (Emit.slot cfg operand) a name a') :
    operand.IsAt cfg.catalog a'.heap name := by
  cases operand with
  | var n => exact (Yields.pure_iff.mp h).1.symm
  | const value =>
    simp only [Emit.slot, Emit.constant] at h
    obtain ⟨heap, hconstant, rfl⟩ := onHeap_iff.mp h
    cases hpinned : cfg.catalog.predefined.get? name with
    | some type => exact Or.inr (OrderedMap.contains_iff.mpr ⟨type, hpinned⟩)
    | none => exact Or.inl (Heap.constant_known_of_ordinary hconstant hvoid fun _ => hpinned)

theorem slots_isAt (hvoid : cfg.catalog.types.name TypeTable.void = TypeTable.voidName)
    {operands : List Operand} {arguments : List String}
    (h : Yields (Emit.slots cfg operands) a arguments a') :
    List.Forall₂ (Operand.IsAt cfg.catalog a'.heap) operands arguments := by
  induction operands generalizing a arguments with
  | nil =>
    obtain ⟨rfl, -⟩ := Yields.pure_iff.mp h
    exact .nil
  | cons operand operands ih =>
    simp only [Emit.slots, Yields.bind_iff, Yields.pure_iff] at h
    obtain ⟨slot, a₁, hslot, rest, a₂, hrest, rfl, rfl⟩ := h
    obtain ⟨heap, hext, rfl⟩ :=
      Assembly.stocks_of_chain ((slots_stocks operands).of_yields hrest)
    exact .cons ((slot_isAt hvoid hslot).mono hext) (ih hrest)

/-- Every argument of a call that has been checked has a slot. -/
theorem contains_of_checkCall {arguments : List String} {argument : String}
    (h : Yields (Emit.checkCall cfg name arguments) a () a') (hargument : argument ∈ arguments) :
    a'.heap.slots.contains argument = true := by
  obtain ⟨-, op, -, hlength, hfits⟩ := checkCall_spec h
  obtain ⟨n, hn, rfl⟩ := List.mem_iff_getElem.mp hargument
  have hzip : (arguments[n], op.parameters[n]) ∈ arguments.zip op.parameters :=
    List.mem_iff_getElem.mpr ⟨n, by simp [hlength, hn], by simp⟩
  obtain ⟨v, hv, -⟩ := hfits _ hzip
  exact OrderedMap.contains_iff.mpr ⟨v, hv⟩

/-! ## Emitting

After the checks nothing can fail: all arguments have slots with names, and the operation is in
the catalogue. -/

/-- Slots that are there can be pushed, if they have names. -/
theorem pushAll_of_contains {arguments : List String} (hnamed : a.heap.Named)
    (hthere : ∀ argument ∈ arguments, a.heap.slots.contains argument = true) :
    Yields (Emit.pushAll cfg arguments) a () (pushes a arguments) := by
  have hready : Readies cfg arguments a a := by
    induction arguments with
    | nil => rfl
    | cons argument arguments ih =>
      obtain ⟨hfirst, hrest⟩ := List.forall_mem_cons.mp hthere
      exact ⟨a, checkSlot_of_contains (hnamed argument hfirst) hfirst, ih hrest⟩
  exact hready.pushAll

/-- An operation of the catalogue can be called. -/
theorem callPushed_of_known {op : Operation} (hloaded : cfg.catalog.Loaded)
    (hop : cfg.catalog.operationNamed? name = some op) :
    Yields (Emit.callPushed cfg name) a a.lines.size
      { a.append (.call name) with
        called := if name ∈ a.called then a.called else a.called ++ [name] } := by
  have hempty : name.isEmpty = false := by
    by_contra hempty
    obtain rfl := String.isEmpty_iff.mp ((Bool.not_eq_false _).mp hempty)
    exact absurd (Catalog.methodOf?_of_operationNamed? hloaded hop) (by decide)
  simp only [Emit.callPushed, hempty, hop, Option.isNone_some, Bool.and_false, Bool.or_self,
    Bool.false_eq_true, if_false]
  rfl

/-- The lines that pushing puts behind the code, and one more instruction: a pending entry point
starts at the first of them. -/
theorem lines_pushes_append (a : Assembly) (arguments : List String) (i : Instruction) :
    ∃ added, ((pushes a arguments).append i).lines.toList = a.lines.toList ++ added ∧
      added.map (·.instruction) = arguments.map .push ++ [i] ∧
      added.map (·.label) = a.pendingLabel :: arguments.map fun _ => none := by
  induction arguments generalizing a with
  | nil => exact ⟨[⟨a.size, a.pendingLabel, i⟩], by simp [pushes, Assembly.append], rfl, rfl⟩
  | cons argument arguments ih =>
    obtain ⟨added, hlines, hcode, hlabels⟩ := ih (a.append (.push argument))
    refine ⟨⟨a.size, a.pendingLabel, .push argument⟩ :: added, hlines.trans ?_, ?_, ?_⟩
    · simp [Assembly.append]
    · rw [List.map_cons, hcode, List.map_cons, List.cons_append]
    · rw [List.map_cons, hlabels, List.map_cons]
      rfl

theorem heap_pushes (a : Assembly) (arguments : List String) :
    (pushes a arguments).heap = a.heap ∧ (pushes a arguments).called = a.called := by
  induction arguments generalizing a with
  | nil => exact ⟨rfl, rfl⟩
  | cons argument arguments ih => exact ih (a.append (.push argument))

/-! ## Calls

So a call fails before it emits anything, or emits all. The entry point that waits starts at the
first line that is added. -/

/-- A checked call that passes its checks is emitted. -/
theorem call_of_checkCall {operands : List Operand} {arguments : List String} {a₁ a₂ : Assembly}
    (hcheck : cfg.typeCheck = true) (hloaded : cfg.catalog.Loaded) (hnamed : a₂.heap.Named)
    (hslots : Yields (Emit.slots cfg operands) a arguments a₁)
    (hcall : Yields (Emit.checkCall cfg name arguments) a₁ () a₂) :
    Yields (Emit.call cfg name operands) a (pushes a₂ arguments).lines.size
      { (pushes a₂ arguments).append (.call name) with
        called := if name ∈ a₂.called then a₂.called else a₂.called ++ [name] } := by
  obtain ⟨-, op, hop, -⟩ := checkCall_spec hcall
  have hpush : Yields (Emit.pushAll cfg arguments) a₂ () (pushes a₂ arguments) :=
    pushAll_of_contains hnamed fun _ => contains_of_checkCall hcall
  have hcalled := callPushed_of_known (a := pushes a₂ arguments) hloaded hop
  rw [(heap_pushes a₂ arguments).2] at hcalled
  simp only [Emit.call, hcheck, if_true]
  exact Yields.bind_iff.mpr ⟨arguments, a₁, hslots, Yields.bind_iff.mpr ⟨(), a₂, hcall,
    Yields.bind_iff.mpr ⟨(), _, hpush, hcalled⟩⟩⟩

/-- After any sequence of calls on an empty assembly, failing ones included, a checked call of an
operation is all or nothing. Either it fails, and no more than slots have been made: the code, its
entry points, the one that waits and the operations called are as before. Or one push for each
operand, in order, and the call itself are put behind the code, and the entry point that waits, if
any, starts at the first of these instructions. -/
theorem call_atomic (hcheck : cfg.typeCheck = true) (hloaded : cfg.catalog.Loaded)
    (requests : List Assembly.Request) (ha : a = Assembly.afterAll cfg {} requests) (name : String)
    (operands : List Operand) :
    (∃ e heap, a.heap.Extends heap ∧
        Emit.call cfg name operands a = .error e { a with heap := heap }) ∨
      ∃ id a' arguments added, Emit.call cfg name operands a = .ok id a' ∧
        List.Forall₂ (Operand.IsAt cfg.catalog a'.heap) operands arguments ∧
        a.heap.Extends a'.heap ∧
        a'.lines.toList = a.lines.toList ++ added ∧
        added.map (·.instruction) = arguments.map .push ++ [.call name] ∧
        added.map (·.label) = a.pendingLabel :: arguments.map (fun _ => none) ∧
        a'.pendingLabel = none ∧
        a'.called = if name ∈ a.called then a.called else a.called ++ [name] := by
  have hnamed : a.heap.Named := by
    rw [ha]
    exact Assembly.named_afterAll cfg requests (by rintro _ ⟨⟩)
  -- Up to the end of the checks, nothing but the heap has changed.
  have hfailed : ∀ e a₁, a.Stocks a₁ → Emit.call cfg name operands a = .error e a₁ →
      ∃ e heap, a.heap.Extends heap ∧
        Emit.call cfg name operands a = .error e { a with heap := heap } := by
    rintro e _ ⟨heap, hext, rfl⟩ herror
    exact ⟨e, heap, hext, herror⟩
  cases hslots : Emit.slots cfg operands a with
  | error e a₁ =>
    have hstocks := Assembly.stocks_of_chain ((slots_stocks operands).of_error hslots)
    exact Or.inl (hfailed e a₁ hstocks (bind_of_error hslots))
  | ok arguments a₁ =>
    have hstocks := Assembly.stocks_of_chain ((slots_stocks operands).of_yields hslots)
    cases hcall : Emit.checkCall cfg name arguments a₁ with
    | error e a₂ =>
      have hstocks' := Assembly.stocks_of_chain ((checkCall_stocks name arguments).of_error hcall)
      refine Or.inl (hfailed e a₂ (hstocks.trans hstocks') ?_)
      rw [Emit.call, bind_of_yields hslots, if_pos hcheck]
      exact bind_of_error hcall
    | ok _ a₂ =>
      have hstocks' := Assembly.stocks_of_chain ((checkCall_stocks name arguments).of_yields hcall)
      have hnamed₂ : a₂.heap.Named := by
        have hchanges := ((slots_edits operands).changes.of_yields hslots).trans
          ((checkCall_edits name arguments).changes.of_yields hcall)
        exact Assembly.named_of_changes hchanges hnamed
      have hdone := call_of_checkCall hcheck hloaded hnamed₂ hslots hcall
      have hat := slots_isAt hloaded.indexed.names.1 hslots
      obtain ⟨heap, hext, rfl⟩ := hstocks
      obtain ⟨heap', hext', rfl⟩ := hstocks'
      obtain ⟨added, hlines, hcode, hlabels⟩ :=
        lines_pushes_append { a with heap := heap' } arguments (.call name)
      have hheap := (heap_pushes { a with heap := heap' } arguments).1
      refine Or.inr ⟨_, _, arguments, added, hdone, ?_, ?_, hlines, hcode, hlabels, rfl, rfl⟩
      · refine hat.imp fun operand slot h => h.mono ?_
        show heap.Extends (pushes _ _).heap
        rw [hheap]
        exact hext'
      · show a.heap.Extends (pushes _ _).heap
        rw [hheap]
        exact hext.trans hext'

/-- With an entry point waiting, negating a number is emitted from there on. Storing the result under
the empty name fails after a slot has been made for the number, and the entry point still waits. -/
theorem call_atomic_waiting : ∃ c id a' heap, Catalog.Loaded c ∧
    Emit.call ⟨c, true⟩ "SystemInt32.__op_UnaryMinus__SystemInt32__SystemInt32"
      [.const (.int32 5), .var "x"] (Assembly.afterAll ⟨c, true⟩ {} [.entryPoint "_start"]) =
        .ok id a' ∧
    a'.lines.toList.map (fun line => (line.label, line.instruction)) =
      [(some "_start", .push "__const_Int32_5"), (none, .push "x"),
        (none, .call "SystemInt32.__op_UnaryMinus__SystemInt32__SystemInt32")] ∧
    Emit.call ⟨c, true⟩ "SystemInt32.__op_UnaryMinus__SystemInt32__SystemInt32"
      [.const (.int32 5), .var ""] (Assembly.afterAll ⟨c, true⟩ {} [.entryPoint "_start"]) =
        .error .invalidVariableName
          { Assembly.afterAll ⟨c, true⟩ {} [.entryPoint "_start"] with heap := heap } ∧
    heap.slots.keys = ["__const_Int32_5"] := by
  obtain ⟨manifest, hknown⟩ : ∃ manifest : Manifest, (Catalog.load manifest).toOption.map (fun c =>
      (match Emit.call ⟨c, true⟩ "SystemInt32.__op_UnaryMinus__SystemInt32__SystemInt32"
          [.const (.int32 5), .var "x"] (Assembly.afterAll ⟨c, true⟩ {} [.entryPoint "_start"]) with
        | .ok _ a' => a'.instructions
        | .error _ _ => [],
      match Emit.call ⟨c, true⟩ "SystemInt32.__op_UnaryMinus__SystemInt32__SystemInt32"
          [.const (.int32 5), .var ""] (Assembly.afterAll ⟨c, true⟩ {} [.entryPoint "_start"]) with
        | .ok _ _ => none
        | .error e a' => some (e, a'.heap.slots.keys))) =
      some ([.push "__const_Int32_5", .push "x",
        .call "SystemInt32.__op_UnaryMinus__SystemInt32__SystemInt32"],
        some (.invalidVariableName, ["__const_Int32_5"])) := by
    refine ⟨⟨[], [Manifest.function "SystemInt32" "op_UnaryMinus" ["SystemInt32"] "SystemInt32"],
      []⟩, ?_⟩
    decide +kernel
  obtain ⟨c, hload, hknown⟩ := exists_ok_of_map hknown
  obtain ⟨hdone, hfailed⟩ := Prod.mk.inj hknown
  have hloaded : c.Loaded := Or.inr ⟨manifest, hload⟩
  have hcheck : (Setting.mk c true).typeCheck = true := rfl
  have hatomic (operands : List Operand) := call_atomic hcheck hloaded [.entryPoint "_start"] rfl
    "SystemInt32.__op_UnaryMinus__SystemInt32__SystemInt32" operands
  rcases hatomic [.const (.int32 5), .var "x"] with ⟨e, heap, -, herror⟩ |
    ⟨id, a', arguments, added, hok, -, -, hlines, hcode, hlabels, -, -⟩
  · rw [herror] at hdone
    cases hdone
  rcases hatomic [.const (.int32 5), .var ""] with ⟨e, heap, -, herror⟩ | ⟨_, _, _, _, hok', -⟩
  · rw [hok] at hdone
    rw [herror] at hfailed
    obtain ⟨rfl, hkeys⟩ := Prod.mk.inj (Option.some.inj hfailed)
    refine ⟨c, id, a', heap, hloaded, hok, ?_, herror, hkeys⟩
    have hlines' : a'.lines.toList = added := hlines
    have hcode' : a'.lines.toList.map (·.instruction) = _ := hdone
    rw [hlines'] at hcode'
    have harguments : arguments.length = 2 := by
      have hlength := congrArg List.length (hcode.symm.trans hcode')
      simpa using hlength
    have hlabels' : added.map (·.label) = [some "_start", none, none] := by
      rw [hlabels, List.map_const', harguments]
      rfl
    rw [hlines', ← List.zip_map', hlabels', hcode']
    rfl
  · rw [hok'] at hfailed
    cases hfailed

end Emit

end SexprAsm
