import SexprAsm.Proofs.Workspace.Requests

/-!
# Assemblies under any sequence of calls

The operations of an assembly (`Assembly.Request`) are called in any order, and calls that fail
count too: what they have defined and emitted before stays. The only restriction is on bare
instructions. One that names a slot or an operation is emitted by the operation that checks the
name and by no other (`Assembly.Request.Offered`).

Heap and code then fit together at every point (`Assembly.Integral`), and slots stay in their
places with their types (`Assembly.integral_of_requests`). Both are facts about single edits and
outright definitions (`Assembly.Upholds`), of which every call is made.
-/

namespace SexprAsm

open Relation Instruction

/-- The calls that an assembly offers. -/
def Assembly.Request.Offered : Assembly.Request → Prop
  | .instruction i => i.name? = none
  | _ => True

namespace Assembly

/-- The assembly after a sequence of calls. -/
def afterAll (cfg : Setting) (a : Assembly) (requests : List Request) : Assembly :=
  requests.foldl (Request.after cfg) a

/-- Heap and code fit together. -/
structure Integral (c : Catalog) (a : Assembly) : Prop where
  /-- No two slots have one name. -/
  distinct : a.heap.slots.keys.Nodup
  /-- A slot of a predefined name has the type of the name and is at most exported. -/
  pinned : ∀ name v type, a.heap.slots.get? name = some v → c.predefined.get? name = some type →
    v.type = type ∧ v.attributes = { exported := v.attributes.exported }
  /-- An initial value is of a type that can be assigned to the slot. -/
  fits : ∀ name v value, a.heap.slots.get? name = some v → v.type ≠ TypeTable.void →
    v.value = some value → c.types.isAssignable v.type (c.types.typeOf value) = true
  /-- The names in the code are those of slots and of operations called. -/
  known : ∀ i ∈ a.instructions, a.Knows i
  /-- Instructions follow each other without gaps. -/
  laid : a.Laid

/-- What a step keeps: slots in their places and with their types, operations called, and that heap
and code fit together. -/
structure Upholds (c : Catalog) (a a' : Assembly) : Prop where
  keys : a.heap.slots.keys <+: a'.heap.slots.keys
  types : a.heap.KeepsTypes a'.heap
  called : a.called ⊆ a'.called
  integral : a.Integral c → a'.Integral c

variable {c : Catalog} {a a' a'' : Assembly} {i : Instruction}

theorem Upholds.refl (a : Assembly) : Upholds c a a :=
  ⟨List.prefix_refl _, .refl _, fun _ h => h, id⟩

theorem Upholds.trans (h : Upholds c a a') (h' : Upholds c a' a'') : Upholds c a a'' :=
  ⟨h.keys.trans h'.keys, h.types.trans h'.types, fun _ hmem => h'.called (h.called hmem),
    h'.integral ∘ h.integral⟩

theorem upholds_of_chain (h : ReflTransGen (Upholds c) a a') : Upholds c a a' := by
  induction h with
  | refl => exact .refl _
  | tail _ hstep ih => exact ih.trans hstep

theorem integral_empty (c : Catalog) : Integral c {} where
  distinct := List.nodup_nil
  pinned := by rintro _ _ _ ⟨⟩
  fits := by rintro _ _ _ ⟨⟩
  known := by rintro _ ⟨⟩
  laid := by
    intro n line hline
    simp at hline

/-! ## Single steps -/

theorem Knows.mono (h : a.Knows i) (htypes : a.heap.KeepsTypes a'.heap)
    (hcalled : a.called ⊆ a'.called) : a'.Knows i := by
  have hslot : ∀ name, a.heap.slots.contains name = true →
      a'.heap.slots.contains name = true := by
    intro name hname
    obtain ⟨v, hv⟩ := OrderedMap.contains_iff.mp hname
    obtain ⟨v', hv', -⟩ := htypes name v hv
    exact OrderedMap.contains_iff.mpr ⟨v', hv'⟩
  cases i with
  | push name => exact hslot name h
  | jumpIndirect name => exact hslot name h
  | call name => exact hcalled h
  | _ => trivial

/-- A jump names nothing, whatever its target. -/
theorem name?_of_retarget? {target : JumpTarget} {i' : Instruction}
    (h : i.retarget? target = some i') : i'.name? = none := by
  cases i with
  | jump t =>
    obtain rfl := Option.some.inj h
    rfl
  | jumpIfFalse t =>
    obtain rfl := Option.some.inj h
    rfl
  | _ => cases h

/-- A definition that succeeds, of a new slot or of one that is there. -/
theorem upholds_define {heap : Heap} {name : String} {type : Option TypeId}
    {attributes : Attributes} {value : Option Value}
    (h : a.heap.define c name type attributes value = .ok heap) :
    Upholds c a { a with heap := heap } := by
  have htypes := Heap.define_keepsTypes h
  have hfits := Heap.fits_of_define h
  obtain ⟨-, rfl⟩ := Heap.define_ok h
  refine ⟨?_, htypes, fun _ h => h, fun hintegral => ⟨?_, ?_, ?_, ?_, ?_⟩⟩
  · rw [OrderedMap.keys_put]
    split
    · exact List.prefix_refl _
    · exact List.prefix_append _ _
  · exact OrderedMap.nodup_keys_put hintegral.distinct
  · intro other v pinned hv hpinned
    rw [OrderedMap.get?_put] at hv
    split at hv
    next heq =>
      obtain rfl := Option.some.inj hv
      subst heq
      simp [Heap.settle, hpinned]
    next => exact hintegral.pinned other v pinned hv hpinned
  · intro other v stored hv hvoid hstored
    rw [OrderedMap.get?_put] at hv
    split at hv
    next =>
      obtain rfl := Option.some.inj hv
      rw [Heap.fits, hstored] at hfits
      simpa [hvoid] using hfits
    next => exact hintegral.fits other v stored hv hvoid hstored
  · intro i hi
    exact (hintegral.known i hi).mono htypes fun _ h => h
  · exact hintegral.laid

/-- An edit of the code alone. -/
theorem upholds_code (hheap : a'.heap = a.heap) (hcalled : a.called ⊆ a'.called)
    (hknown : a.Integral c → ∀ i ∈ a'.instructions, a'.Knows i) (hlaid : a.Laid → a'.Laid) :
    Upholds c a a' where
  keys := by rw [hheap]
  types := by
    rw [hheap]
    exact .refl _
  called := hcalled
  integral h :=
    { distinct := by
        rw [hheap]
        exact h.distinct
      pinned := by
        rw [hheap]
        exact h.pinned
      fits := by
        rw [hheap]
        exact h.fits
      known := hknown h
      laid := hlaid h.laid }

theorem Edit.upholds (h : Edit c a a') : Upholds c a a' := by
  cases h with
  | slot fresh define => exact upholds_define define
  | literal unknown fresh lead define => exact upholds_define define
  | @append i known =>
    refine upholds_code rfl (fun _ h => h) (fun h j hj => ?_) fun h => h.append i
    rw [instructions_append, List.mem_append, List.mem_singleton] at hj
    rcases hj with hj | rfl
    · exact h.known j hj
    · exact known
  | called name =>
    have hcalled : a.called ⊆ if name ∈ a.called then a.called else a.called ++ [name] := by
      split
      · exact fun _ h => h
      · exact List.subset_append_left _ _
    exact upholds_code rfl hcalled (fun h j hj => (h.known j hj).mono (.refl _) hcalled) id
  | entryPoint label => exact upholds_code rfl (fun _ h => h) (fun h => h.known) id
  | @retarget id target i i' found jump =>
    refine upholds_code rfl (fun _ h => h) (fun h j hj => ?_) fun h =>
      h.modify found (size_of_retarget? jump)
    rw [instructions_modify] at hj
    rcases List.mem_or_eq_of_mem_set hj with hj | rfl
    · exact h.known j hj
    · exact knows_of_name? (name?_of_retarget? jump) _

/-! ## Calls -/

theorem Request.upholds (cfg : Setting) (a : Assembly) {request : Request}
    (hoffered : request.Offered) : Upholds cfg.catalog a (request.after cfg a) := by
  have hedits : ∀ {α : Type} {act : Emit α}, MadeOf (Edit cfg.catalog) act a →
      Upholds cfg.catalog a (endState act a) :=
    fun h => upholds_of_chain (h.mono fun _ _ => Edit.upholds)
  cases request with
  | define name type attributes value =>
    exact upholds_of_chain (MadeOf.define fun _ => upholds_define)
  | typeOf name => exact hedits (Emit.typeOf?_edits name)
  | constant value => exact hedits (Emit.constant_edits value)
  | instruction i => exact hedits (Emit.instruction_edits (knows_of_name? hoffered a))
  | entryPoint label => exact hedits (Emit.entryPoint_edits label)
  | patch id target => exact hedits (Emit.patch_edits id target)
  | push operand => exact hedits (Emit.push_edits operand)
  | copy source target => exact hedits (Emit.copy_edits source target)
  | copyOffset target relative => exact hedits (Emit.copyOffset_edits target relative)
  | jumpIfFalse condition target => exact hedits (Emit.jumpIfFalse_edits condition target)
  | jumpIndirect address => exact hedits (Emit.jumpIndirect_edits address)
  | callPushed name => exact hedits (Emit.callPushed_edits name)
  | call name operands => exact hedits (Emit.call_edits name operands)

theorem upholds_afterAll (cfg : Setting) (a : Assembly) {requests : List Request}
    (hoffered : ∀ request ∈ requests, request.Offered) :
    Upholds cfg.catalog a (afterAll cfg a requests) := by
  induction requests generalizing a with
  | nil => exact .refl _
  | cons request requests ih =>
    have hfirst := Request.upholds cfg a (hoffered request List.mem_cons_self)
    exact hfirst.trans (ih _ fun r hr => hoffered r (List.mem_cons_of_mem _ hr))

/-- After any sequence of calls on an empty assembly, failing ones included, heap and code fit
together; and whatever is called later, a slot stays in its place with its type. -/
theorem integral_of_requests (cfg : Setting) (requests later : List Request)
    (hoffered : ∀ request ∈ requests ++ later, request.Offered) :
    Integral cfg.catalog (afterAll cfg {} requests) ∧
      ∀ (n : Nat) (name : String), (afterAll cfg {} requests).heap.slots.keys[n]? = some name →
        (afterAll cfg {} (requests ++ later)).heap.slots.keys[n]? = some name ∧
          ∃ v v', (afterAll cfg {} requests).heap.slots.get? name = some v ∧
            (afterAll cfg {} (requests ++ later)).heap.slots.get? name = some v' ∧
            v'.type = v.type := by
  have hbefore := upholds_afterAll cfg {} fun r hr => hoffered r (List.mem_append_left _ hr)
  have hafter := upholds_afterAll cfg (afterAll cfg {} requests) fun r hr =>
    hoffered r (List.mem_append_right _ hr)
  have hsplit : afterAll cfg {} (requests ++ later) =
      afterAll cfg (afterAll cfg {} requests) later := List.foldl_append
  rw [hsplit]
  refine ⟨hbefore.integral (integral_empty _), fun n name hname => ⟨?_, ?_⟩⟩
  · obtain ⟨rest, hrest⟩ := hafter.keys
    have hlt := (List.getElem?_eq_some_iff.mp hname).1
    rw [← hrest, List.getElem?_append_left hlt, hname]
  · obtain ⟨v, hv⟩ := OrderedMap.contains_iff.mp
      (OrderedMap.mem_keys_iff.mp (List.mem_of_getElem? hname))
    obtain ⟨v', hv', htype⟩ := hafter.types name v hv
    exact ⟨v, v', hv, hv', htype⟩

/-- A copy that fails at its target has pushed its source; declaring the source again with another
type fails as well. -/
theorem integral_of_failed_copy :
    (afterAll ⟨Catalog.empty, true⟩ {} [.copy (.var "x") ""]).instructions = [.push "x"] ∧
      Integral Catalog.empty (afterAll ⟨Catalog.empty, true⟩ {} [.copy (.var "x") ""]) ∧
      (afterAll ⟨Catalog.empty, true⟩ {} ([.copy (.var "x") ""] ++
        [.define "x" (some TypeTable.void) {} none])).heap.slots.keys[0]? = some "x" := by
  have hall := integral_of_requests ⟨Catalog.empty, true⟩ [.copy (.var "x") ""]
    [.define "x" (some TypeTable.void) {} none] (by simp [Request.Offered])
  exact ⟨by decide +kernel, hall.1, (hall.2 0 "x" (by decide +kernel)).1⟩

end Assembly

end SexprAsm
