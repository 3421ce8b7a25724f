import SexprAsm.Proofs.Assembly.Emission
import SexprAsm.Proofs.Catalog.Loading

/-!
# What a checked call guarantees

The arguments of a call are checked one after the other, and one that has no slot yet gets a slot
of the type of its parameter, which fits. So after the call every argument has a slot that its
parameter admits, with one exception (`Emit.call_admits`): a predefined name keeps its own type,
and where it gets its slot at its first place among the arguments, that type is not compared with
the parameter. At all its later places it is.
-/

namespace SexprAsm.Emit

variable {cfg : Setting} {a a' : Assembly} {id : InstructionId} {name : String}
  {operands : List Operand} {arguments : List String} {pair : String × Parameter}
  {pairs : List (String × Parameter)} {index : Nat}

/-- The first argument is checked before the others. -/
theorem checkArguments_cons
    (h : Yields (Emit.checkArguments cfg name index (pair :: pairs)) a () a') :
    ∃ a₁, Yields (Emit.checkArguments cfg name index [pair]) a () a₁ ∧
      Yields (Emit.checkArguments cfg name (index + 1) pairs) a₁ () a' := by
  obtain ⟨argument, p⟩ := pair
  simp only [Emit.checkArguments, Yields.bind_iff, Yields.get_iff] at h ⊢
  obtain ⟨_, _, ⟨rfl, rfl⟩, h⟩ := h
  cases hget : a.heap.slots.get? argument with
  | none =>
    simp only [hget, Yields.bind_iff] at h
    obtain ⟨_, a₁, hdefine, hrest⟩ := h
    refine ⟨a₁, ⟨a, a, ⟨rfl, rfl⟩, ?_⟩, hrest⟩
    simp only [hget, Yields.bind_iff, Yields.pure_iff]
    exact ⟨(), a₁, hdefine, trivial, rfl⟩
  | some v =>
    simp only [hget] at h
    cases hok : Emit.checkArgument cfg name index argument v p with
    | error e => simp [hok] at h
    | ok _ =>
      rw [hok] at h
      refine ⟨a, ⟨a, a, ⟨rfl, rfl⟩, ?_⟩, h⟩
      simp only [hget, hok, Yields.pure_iff, true_and]

/-- An argument whose slot has not been compared with its parameter did not occur before. -/
theorem checkArguments_admits
    (h : Yields (Emit.checkArguments cfg name index pairs) a () a') {n : Nat}
    (hpair : pairs[n]? = some pair) :
    ∃ v, a'.heap.slots.get? pair.1 = some v ∧ (pair.2.Admits cfg.catalog.types v ∨
      a.heap.slots.get? pair.1 = none ∧ pair.1 ∉ (pairs.take n).map Prod.fst ∧
        cfg.catalog.predefined.get? pair.1 = some v.type ∧ v.attributes.constant = false) := by
  induction pairs generalizing a index n with
  | nil => cases hpair
  | cons first rest ih =>
    obtain ⟨a₁, hfirst, hrest⟩ := checkArguments_cons h
    obtain ⟨hemits, hfits⟩ := checkArguments_spec hfirst
    obtain ⟨hemits', -⟩ := checkArguments_spec hrest
    have hfits := hfits first List.mem_cons_self
    cases n with
    | zero =>
      obtain rfl := Option.some.inj hpair
      obtain ⟨v, hv, hadmits⟩ := hfits.mono (.refl _) hemits'.heap
      refine ⟨v, hv, hadmits.imp_right fun ⟨hfresh, hpinned⟩ => ⟨hfresh, ?_, hpinned⟩⟩
      exact List.not_mem_nil
    | succ n =>
      obtain ⟨v, hv, hadmits⟩ := ih hrest hpair
      refine ⟨v, hv, hadmits.imp_right fun ⟨hfresh, hnew, hpinned⟩ => ⟨?_, ?_, hpinned⟩⟩
      · exact hemits.heap.get?_eq_none hfresh
      · -- The first argument has a slot by now.
        rw [List.take_succ_cons, List.map_cons, List.mem_cons, not_or]
        refine ⟨fun heq => ?_, hnew⟩
        obtain ⟨u, hu, -⟩ := hfits
        rw [← heq, hfresh] at hu
        cases hu

theorem slots_length (h : Yields (Emit.slots cfg operands) a arguments a') :
    arguments.length = operands.length := by
  induction operands generalizing a arguments a' with
  | nil =>
    obtain ⟨rfl, -⟩ := Yields.pure_iff.mp h
    rfl
  | cons operand operands ih =>
    simp only [Emit.slots, Yields.bind_iff, Yields.pure_iff] at h
    obtain ⟨slot, a₁, -, slots, a₂, hrest, rfl, -⟩ := h
    rw [List.length_cons, List.length_cons, ih hrest]

/-- A variable is its own slot. -/
theorem slots_getElem? {n : Nat} {x : String}
    (h : Yields (Emit.slots cfg operands) a arguments a') (hx : operands[n]? = some (.var x)) :
    arguments[n]? = some x := by
  induction operands generalizing a a' arguments n with
  | nil => cases hx
  | cons operand operands ih =>
    simp only [Emit.slots, Yields.bind_iff, Yields.pure_iff] at h
    obtain ⟨first, a₂, hslot, rest, a₃, hrest, rfl, -⟩ := h
    cases n with
    | zero =>
      obtain rfl := Option.some.inj hx
      obtain ⟨rfl, -⟩ := Yields.pure_iff.mp hslot
      rfl
    | succ n =>
      rw [List.getElem?_cons_succ] at hx ⊢
      exact ih hrest hx

/-- A call that succeeds with types checked: its operands get their slots, an operation of its name is
found that has as many parameters, and the arguments pass their checks. What is pushed and called then
leaves the slots as they are. -/
theorem call_stages (hcheck : cfg.typeCheck = true) (h : Yields (Emit.call cfg name operands) a id a') :
    ∃ arguments a₁ op a₂, Yields (Emit.slots cfg operands) a arguments a₁ ∧
      cfg.catalog.operationNamed? name = some op ∧ op.parameters.length = arguments.length ∧
      Yields (Emit.checkArguments cfg name 0 (arguments.zip op.parameters)) a₁ () a₂ ∧
      a₂.heap.Extends a'.heap := by
  simp only [Emit.call, Yields.bind_iff, hcheck, if_true] at h
  obtain ⟨arguments, a₁, hslots, _, a₂, hcall, _, a₃, hpush, hcalled⟩ := h
  obtain ⟨op, hop, hlength, hchecked⟩ := checkCall_cases hcall
  exact ⟨arguments, a₁, op, a₂, hslots, hop, hlength, hchecked,
    ((pushAll_spec hpush).trans (callPushed_spec hcalled)).heap⟩

/-- What is known of one argument after the checks. -/
theorem argument_admits {op : Operation} {a₁ a₂ : Assembly} {n : Nat} {argument : String}
    {p : Parameter} (hlength : op.parameters.length = arguments.length)
    (hchecked : Yields (Emit.checkArguments cfg name 0 (arguments.zip op.parameters)) a₁ () a₂)
    (hext : a₂.heap.Extends a'.heap) (hargument : arguments[n]? = some argument)
    (hp : op.parameters[n]? = some p) :
    ∃ v, a'.heap.slots.get? argument = some v ∧ (p.Admits cfg.catalog.types v ∨
      a₁.heap.slots.get? argument = none ∧ argument ∉ arguments.take n ∧
        cfg.catalog.predefined.get? argument = some v.type ∧ v.attributes.constant = false) := by
  have hpair : (arguments.zip op.parameters)[n]? = some (argument, p) :=
    List.getElem?_zip_eq_some.mpr ⟨hargument, hp⟩
  have hnames : ((arguments.zip op.parameters).take n).map Prod.fst = arguments.take n := by
    rw [List.map_take, List.map_fst_zip (Nat.le_of_eq hlength.symm)]
  obtain ⟨v, hv, hadmits⟩ := checkArguments_admits hchecked hpair
  rw [hnames] at hadmits
  exact ⟨v, hext.slots argument v hv, hadmits⟩

/-- A variable that is handed to a call has a slot afterwards. -/
theorem call_there (hcheck : cfg.typeCheck = true) (h : Yields (Emit.call cfg name operands) a id a')
    {x : String} (hx : .var x ∈ operands) : a'.heap.slots.contains x = true := by
  obtain ⟨n, hn⟩ := List.mem_iff_getElem?.mp hx
  obtain ⟨arguments, a₁, op, a₂, hslots, -, hlength, hchecked, hext⟩ := call_stages hcheck h
  have hargument := slots_getElem? hslots hn
  obtain ⟨hlt, -⟩ := List.getElem?_eq_some_iff.mp hargument
  obtain ⟨v, hv, -⟩ := argument_admits hlength hchecked hext hargument
    (List.getElem?_eq_getElem (hlength ▸ hlt))
  exact OrderedMap.contains_iff.mpr ⟨v, hv⟩

/-- After a call that succeeds with types checked, every argument has a slot that its parameter
admits: an input accepts its type, an output can be stored in it, and a parameter that is both has
its very type; constants are only inputs. The one exception is a predefined name that has no slot
before the arguments are checked: at its first place among them, its slot has the predefined type,
whatever the parameter is. -/
theorem call_admits (hcheck : cfg.typeCheck = true)
    (h : Yields (Emit.call cfg name operands) a id a') :
    ∃ arguments a₁ op, Yields (Emit.slots cfg operands) a arguments a₁ ∧
      arguments.length = operands.length ∧ cfg.catalog.operationNamed? name = some op ∧
      op.parameters.length = arguments.length ∧
      ∀ (n : Nat) (argument : String) (p : Parameter), arguments[n]? = some argument →
        op.parameters[n]? = some p →
          ∃ v, a'.heap.slots.get? argument = some v ∧ (p.Admits cfg.catalog.types v ∨
            a₁.heap.slots.get? argument = none ∧ argument ∉ arguments.take n ∧
              cfg.catalog.predefined.get? argument = some v.type ∧
              v.attributes.constant = false) := by
  obtain ⟨arguments, a₁, op, a₂, hslots, hop, hlength, hchecked, hext⟩ := call_stages hcheck h
  exact ⟨arguments, a₁, op, hslots, slots_length hslots, hop, hlength,
    fun n argument p hargument hp => argument_admits hlength hchecked hext hargument hp⟩

/-- The result of an event may be any value, and is negated as a number where the call makes its
slot. The variable beside it becomes a number. -/
theorem call_admits_result : ∃ c id a', Catalog.Loaded c ∧
    Yields (Emit.call ⟨c, true⟩ "SystemInt32.__op_UnaryMinus__SystemInt32__SystemInt32"
      [.var Catalog.returnValue, .var "x"]) {} id a' ∧
    ∃ p q v u, c.predefined.get? Catalog.returnValue = some v.type ∧
      a'.heap.slots.get? Catalog.returnValue = some v ∧ ¬ Parameter.Admits c.types p v ∧
      a'.heap.slots.get? "x" = some u ∧ Parameter.Admits c.types q u ∧
      c.operationNamed? "SystemInt32.__op_UnaryMinus__SystemInt32__SystemInt32" =
        some ⟨"SystemInt32.__op_UnaryMinus__SystemInt32__SystemInt32", 11, [p, q]⟩ := by
  let p : Parameter := ⟨"arg0", 11, .input⟩
  let q : Parameter := ⟨"result", 11, .output⟩
  obtain ⟨manifest, hknown⟩ : ∃ manifest : Manifest, (Catalog.load manifest).toOption.map (fun c =>
      (c.operationNamed? "SystemInt32.__op_UnaryMinus__SystemInt32__SystemInt32",
        c.predefined.get? Catalog.returnValue, c.predefined.get? "x", c.types.accepts 11 0,
        match Emit.call ⟨c, true⟩ "SystemInt32.__op_UnaryMinus__SystemInt32__SystemInt32"
          [.var Catalog.returnValue, .var "x"] {} with
        | .ok _ a' => (a'.heap.slots.get? Catalog.returnValue).map (·.type)
        | .error _ _ => none)) =
      some (some ⟨"SystemInt32.__op_UnaryMinus__SystemInt32__SystemInt32", 11, [p, q]⟩,
        some 0, none, false, some 0) := by
    refine ⟨⟨[], [Manifest.function "SystemInt32" "op_UnaryMinus" ["SystemInt32"] "SystemInt32"],
      []⟩, ?_⟩
    decide +kernel
  obtain ⟨c, hload, hknown⟩ := exists_ok_of_map hknown
  simp only [Prod.mk.injEq] at hknown
  obtain ⟨hop, hresult, hx, haccepts, htype⟩ := hknown
  split at htype
  next id a' hcall =>
    obtain ⟨arguments, a₁, op, hslots, -, hop', -, hfits⟩ := call_admits (by rfl) hcall
    obtain rfl := Option.some.inj (hop.symm.trans hop')
    obtain ⟨rfl, -⟩ : arguments = [Catalog.returnValue, "x"] ∧ a₁ = {} := by
      simpa [Emit.slots, Emit.slot, eq_comm] using hslots
    obtain ⟨v, hv, -⟩ := hfits 0 Catalog.returnValue p rfl rfl
    obtain ⟨u, hu, hadmits | ⟨-, -, hpinned, -⟩⟩ := hfits 1 "x" q rfl rfl
    · rw [hv, Option.map_some, Option.some.injEq] at htype
      refine ⟨c, id, a', Or.inr ⟨manifest, hload⟩, hcall, p, q, v, u, ?_, hv, ?_, hu, hadmits, hop⟩
      · rw [hresult, htype]
      · show ¬ c.types.accepts 11 v.type = true
        rw [htype, haccepts]
        decide
    · rw [hx] at hpinned
      cases hpinned
  next => cases htype

end SexprAsm.Emit
