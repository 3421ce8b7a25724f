import SexprAsm.Proofs.Assembly.Integrity
import SexprAsm.Proofs.Generation.Literals

/-!
# How long constants stay constant

The slot of a literal is constant and holds the literal (`Heap.HoldsConstant`). A definition of it
is accepted only with its type and its value. But it need not ask for a constant, and then the slot
is none any more, although the table of literals still names it (`Request.Releases`). From then on
the slot may get any value of its type.

Nothing else can happen to it. A slot under a name that the table gives a literal holds it until
it is released (`Assembly.holds_afterAll`), and the table forgets nothing, so a slot that has
been asked for stays as it is until then (`Assembly.constant_until_released`).
-/

namespace SexprAsm

open Relation

/-! ## Definitions -/

namespace Heap

variable {c : Catalog} {heap heap' : Heap} {name other : String} {type : Option TypeId}
  {attributes : Attributes} {stored : Option Value} {value : Value}

/-- The slot is constant and holds the value; null may be held as no value. -/
def HoldsConstant (heap : Heap) (name : String) (value : Value) : Prop :=
  ∃ v, heap.slots.get? name = some v ∧ v.attributes.constant = true ∧ v.value.getD .null = value

theorem HoldsConstant.extends (h : heap.HoldsConstant name value) (hext : heap.Extends heap') :
    heap'.HoldsConstant name value := by
  obtain ⟨v, hv, hheld⟩ := h
  exact ⟨v, hext.slots name v hv, hheld⟩

/-- A definition leaves a constant slot as it is, or is one of it that does not make it constant. -/
theorem HoldsConstant.define (hheld : heap.HoldsConstant other value)
    (h : heap.define c name type attributes stored = .ok heap') :
    heap'.HoldsConstant other value ∨
      other = name ∧ (settle c name type attributes stored).attributes.constant = false := by
  obtain ⟨v, hv, hconstant, hvalue⟩ := hheld
  by_cases heq : other = name
  · subst heq
    have hsame := (same_of_define h hv).2 hconstant
    obtain ⟨-, rfl⟩ := define_ok h
    cases hsettled : (settle c other type attributes stored).attributes.constant with
    | true => exact Or.inl ⟨_, by rw [OrderedMap.get?_put, if_pos rfl], hsettled, hsame ▸ hvalue⟩
    | false => exact Or.inr ⟨rfl, rfl⟩
  · obtain ⟨-, rfl⟩ := define_ok h
    exact Or.inl ⟨v, by simpa [OrderedMap.get?_put, heq] using hv, hconstant, hvalue⟩

/-- A literal that gets a slot by a definition gets a constant one that holds it. -/
theorem holdsConstant_of_define (h : heap.define c name type attributes stored = .ok heap')
    (hnone : heap.constants.get? value = none) (hsome : heap'.constants.get? value = some other) :
    heap'.HoldsConstant other value := by
  obtain rfl := define_constants h hnone hsome
  obtain ⟨-, rfl⟩ := define_ok h
  cases hsettled : (settle c name type attributes stored).attributes.constant with
  | true =>
    simp only [hsettled, if_true, OrderedMap.get?_putNew, hnone] at hsome
    split at hsome
    next hnew => exact ⟨_, by rw [OrderedMap.get?_put, if_pos rfl], hsettled, hnew.2.symm⟩
    next => cases hsome
  | false =>
    simp only [hsettled, Bool.false_eq_true, if_false, hnone] at hsome
    cases hsome

/-- Literals keep their places in the table. -/
theorem constants_of_define (h : heap.define c name type attributes stored = .ok heap')
    (hsome : heap.constants.get? value = some other) :
    heap'.constants.get? value = some other := by
  obtain ⟨-, rfl⟩ := define_ok h
  show OrderedMap.get? (if _ then _ else _) value = some other
  split
  · rw [OrderedMap.get?_putNew, if_neg]
    · exact hsome
    · rintro ⟨hnone, rfl⟩
      rw [hnone] at hsome
      cases hsome
  · exact hsome

end Heap

namespace Assembly

/-- The call defines a constant slot that holds the value, but not as a constant, and is accepted. -/
def Request.Releases (cfg : Setting) (a : Assembly) (name : String) (value : Value) :
    Request → Prop
  | .define other type attributes stored =>
    other = name ∧ a.heap.HoldsConstant name value ∧
      (Heap.settle cfg.catalog name type attributes stored).attributes.constant = false ∧
      ∃ heap, a.heap.define cfg.catalog name type attributes stored = .ok heap
  | _ => False

/-- One of the calls releases the slot from being constant. -/
def Released (cfg : Setting) (requests : List Request) (name : String) (value : Value) : Prop :=
  ∃ before request after, requests = before ++ request :: after ∧
    request.Releases cfg (afterAll cfg {} before) name value

variable {cfg : Setting} {a a' : Assembly} {requests : List Request} {request : Request}
  {name : String} {value : Value}

theorem Released.append (h : Released cfg requests name value) (later : List Request) :
    Released cfg (requests ++ later) name value := by
  obtain ⟨before, request, after, rfl, hreleases⟩ := h
  exact ⟨before, request, after ++ later, by simp, hreleases⟩

theorem released_concat (h : request.Releases cfg (afterAll cfg {} requests) name value) :
    Released cfg (requests ++ [request]) name value :=
  ⟨requests, request, [], rfl, h⟩

/-! ## Single calls -/

/-- What the table names holds, up to a change, and then still does. -/
theorem Change.holdsConstant (h : Change cfg.catalog a a')
    (hsome : a'.heap.constants.get? value = some name) :
    a.heap.constants.get? value = some name ∨ a'.heap.HoldsConstant name value := by
  cases hknown : a.heap.constants.get? value with
  | some other =>
    left
    rw [← hsome, h.extends.constants value other hknown]
  | none =>
    right
    cases h with
    | code heap =>
      rw [heap, hknown] at hsome
      cases hsome
    | slot fresh define => exact Heap.holdsConstant_of_define define hknown hsome
    | literal unknown fresh lead define => exact Heap.holdsConstant_of_define define hknown hsome

theorem holdsConstant_of_changes (h : ReflTransGen (Change cfg.catalog) a a')
    (hsome : a'.heap.constants.get? value = some name) :
    a.heap.constants.get? value = some name ∨ a'.heap.HoldsConstant name value := by
  induction h with
  | refl => exact Or.inl hsome
  | tail _ hchange ih =>
    rcases hchange.holdsConstant hsome with hbefore | hheld
    · exact (ih hbefore).imp_right fun h => h.extends hchange.extends
    · exact Or.inr hheld

/-- A slot that the table names after a call has been named before, or holds its literal. -/
theorem Request.holdsConstant (cfg : Setting) (a : Assembly) (request : Request)
    (hsome : (request.after cfg a).heap.constants.get? value = some name) :
    a.heap.constants.get? value = some name ∨
      (request.after cfg a).heap.HoldsConstant name value := by
  rcases request.after_cases cfg a with hchanges | ⟨_, _, _, _, heap, -, hdefine, hafter⟩
  · exact holdsConstant_of_changes hchanges hsome
  · rw [hafter] at hsome ⊢
    cases hknown : a.heap.constants.get? value with
    | some other => exact Or.inl (by rw [← hsome, Heap.constants_of_define hdefine hknown])
    | none => exact Or.inr (Heap.holdsConstant_of_define hdefine hknown hsome)

/-- A constant slot stays as it is, unless it is released. -/
theorem Request.keeps_constant (cfg : Setting) (request : Request)
    (hheld : a.heap.HoldsConstant name value) :
    (request.after cfg a).heap.HoldsConstant name value ∨ request.Releases cfg a name value := by
  rcases request.after_cases cfg a with
    hchanges | ⟨other, type, attributes, stored, heap, rfl, hdefine, hafter⟩
  · exact Or.inl (hheld.extends (extends_of_changes hchanges))
  · rw [hafter]
    refine (hheld.define hdefine).imp_right ?_
    rintro ⟨rfl, hconstant⟩
    exact ⟨rfl, hheld, hconstant, heap, hdefine⟩

theorem Request.keeps_known (cfg : Setting) (request : Request)
    (hsome : a.heap.constants.get? value = some name) :
    (request.after cfg a).heap.constants.get? value = some name := by
  rcases request.after_cases cfg a with hchanges | ⟨_, _, _, _, heap, -, hdefine, hafter⟩
  · exact (extends_of_changes hchanges).constants value name hsome
  · rw [hafter]
    exact Heap.constants_of_define hdefine hsome

/-! ## Sequences of calls -/

theorem afterAll_append (cfg : Setting) (a : Assembly) (requests later : List Request) :
    afterAll cfg a (requests ++ later) = afterAll cfg (afterAll cfg a requests) later :=
  List.foldl_append

theorem afterAll_constant
    (h : Yields (Emit.constant cfg value) (afterAll cfg {} requests) name a) :
    afterAll cfg {} (requests ++ [.constant value]) = a := by
  rw [afterAll_append]
  exact h.endState_eq

theorem known_afterAll (cfg : Setting) (requests : List Request)
    (hsome : a.heap.constants.get? value = some name) :
    (afterAll cfg a requests).heap.constants.get? value = some name := by
  induction requests generalizing a with
  | nil => exact hsome
  | cons request requests ih => exact ih (request.keeps_known cfg hsome)

/-- At every point, what the table names as the slot of a literal is constant and holds it, or has
been released. -/
theorem holds_afterAll (cfg : Setting) (requests : List Request)
    (hsome : (afterAll cfg {} requests).heap.constants.get? value = some name) :
    (afterAll cfg {} requests).heap.HoldsConstant name value ∨
      Released cfg requests name value := by
  induction requests using List.reverseRecOn with
  | nil => cases hsome
  | append_singleton requests request ih =>
    rw [afterAll_append] at hsome ⊢
    -- The table has named the slot before, or this call has made it for the literal.
    rcases request.holdsConstant cfg _ hsome with hbefore | hheld
    · rcases ih hbefore with hheld | hreleased
      · exact (request.keeps_constant cfg hheld).imp_right released_concat
      · exact Or.inr (hreleased.append _)
    · exact Or.inl hheld

/-- After any sequence of calls on an empty assembly, failing ones included, a literal is given a
slot, and other calls follow. The slot is then still constant and still holds the literal, whatever
these are, unless one of the calls, earlier or later, has released it: a definition of the constant
slot that does not make it constant. A predefined name is no constant to begin with. -/
theorem constant_until_released (hloaded : cfg.catalog.Loaded) (requests later : List Request)
    (hconstant : Yields (Emit.constant cfg value) (afterAll cfg {} requests) name a) :
    (afterAll cfg a later).heap.HoldsConstant name value ∨
      Released cfg (requests ++ .constant value :: later) name value ∨
      cfg.catalog.predefined.contains name = true := by
  cases hpinned : cfg.catalog.predefined.contains name with
  | true => exact Or.inr (Or.inr rfl)
  | false =>
    have ha := afterAll_constant hconstant
    obtain ⟨heap, hheap, rfl⟩ := Emit.onHeap_iff.mp hconstant
    have hknown := Heap.constant_known_of_ordinary hheap hloaded.indexed.names.1 fun _ =>
      OrderedMap.contains_eq_false_iff.mp hpinned
    -- The table still names the slot in the end, so the invariant speaks about it.
    have hlater := known_afterAll cfg later (a := { afterAll cfg {} requests with heap := heap })
      hknown
    rw [← ha, ← afterAll_append, List.append_assoc] at hlater ⊢
    exact (holds_afterAll cfg _ hlater).imp_right Or.inl

/-- The slot of a number is defined again with the number, but not as a constant; then it takes
another number. -/
theorem constant_until_released_overwritten : ∃ a,
    Yields (Emit.constant ⟨Catalog.empty, true⟩ (.int32 1))
      (afterAll ⟨Catalog.empty, true⟩ {} []) "__const_Int32_1" a ∧
    Released ⟨Catalog.empty, true⟩ [.constant (.int32 1),
      .define "__const_Int32_1" none {} (some (.int32 1)),
      .define "__const_Int32_1" none {} (some (.int32 2))] "__const_Int32_1" (.int32 1) ∧
    (afterAll ⟨Catalog.empty, true⟩ a [.define "__const_Int32_1" none {} (some (.int32 1)),
      .define "__const_Int32_1" none {} (some (.int32 2))]).heap.slots.get? "__const_Int32_1" =
        some ⟨Catalog.empty.types.typeOf (.int32 2), {}, some (.int32 2)⟩ := by
  -- All that has to be computed, at once: the name, and the slot after both definitions.
  have hknown : (match Emit.constant ⟨Catalog.empty, true⟩ (.int32 1)
        (afterAll ⟨Catalog.empty, true⟩ {} []) with
      | .ok name a => decide (name = "__const_Int32_1" ∧ (afterAll ⟨Catalog.empty, true⟩ a
          [.define "__const_Int32_1" none {} (some (.int32 1)),
            .define "__const_Int32_1" none {} (some (.int32 2))]).heap.slots.get?
              "__const_Int32_1" =
            some ⟨Catalog.empty.types.typeOf (.int32 2), {}, some (.int32 2)⟩)
      | .error _ _ => false) = true := by
    decide +kernel
  cases hconstant : Emit.constant ⟨Catalog.empty, true⟩ (.int32 1)
      (afterAll ⟨Catalog.empty, true⟩ {} []) with
  | error e a =>
    rw [hconstant] at hknown
    cases hknown
  | ok name a =>
    rw [hconstant] at hknown
    obtain ⟨rfl, hslot⟩ := of_decide_eq_true hknown
    refine ⟨a, hconstant, ?_, hslot⟩
    have hloaded : Catalog.Loaded (Setting.mk Catalog.empty true).catalog := Or.inl rfl
    have huntil := constant_until_released hloaded [] [.define "__const_Int32_1" none {}
      (some (.int32 1)), .define "__const_Int32_1" none {} (some (.int32 2))] hconstant
    simp only [Heap.HoldsConstant, hslot] at huntil
    rcases huntil with ⟨v, hv, hheld, -⟩ | hreleased | hpinned
    · obtain rfl := Option.some.inj hv
      cases hheld
    · exact hreleased
    · exact absurd hpinned (by decide +kernel)

end Assembly

end SexprAsm
