import Mathlib.Data.List.Zip
import SexprAsm.Proofs.TypeTable.Requests
import SexprAsm.Catalog.Overload

/-!
# Comparing operations

Candidates are compared by a sum of scores, one for each parameter. `Overload.Refines` says when one
operation is more specific than another: its inputs may be stored in those of the other. Where the
inputs that differ are references, the sum then tells which one is more general
(`Overload.Refines.generality_pos`), and it tells so the other way round only where two arrays are
compared, each of which passes for the more general one
(`Overload.Refines.isArray_of_generality`). Types that are entered later change no score.
-/

namespace SexprAsm

open TypeTable

/-! ## Comparisons in a larger table

Types that are entered later change none of the bases that there were, so candidates are compared
in the same way before and after. -/

namespace TypeTable

variable {t t' : TypeTable} {id top : TypeId} {n : Nat}

/-- Steps up are the same in a table that agrees on the bases of a closed part. -/
theorem Above.agree {bound : Nat} (hagree : ∀ id < bound, (t'.info id).base = (t.info id).base)
    (hbound : ∀ id < bound, ∀ base, (t.info id).base = some base → base < bound)
    (h : t.Above n top id) (hid : id < bound) : t'.Above n top id := by
  induction h with
  | self => exact .self _
  | step hbase _ ih => exact .step ((hagree _ hid).trans hbase) (ih (hbound _ hid _ hbase))

theorem Grows.above_iff (hgrows : t.Grows t') (h : t.Sound) (hid : id < t.size) :
    t'.Above n top id ↔ t.Above n top id := by
  obtain ⟨-, -, hinfo⟩ := hgrows.sound h
  have hagree : ∀ id < t.size, (t.info id).base = (t'.info id).base := fun id hid => by
    rw [hinfo id hid]
  have hbound : ∀ id < t.size, ∀ base, (t'.info id).base = some base → base < t.size :=
    fun id hid base hbase => h.wellFormed.base_lt id base ((hagree id hid).trans hbase)
  constructor
  · exact fun habove => habove.agree hagree hbound hid
  · exact fun habove => habove.agree (fun id hid => (hagree id hid).symm)
      (fun id _ => h.wellFormed.base_lt id) hid

theorem Grows.distance_eq (hgrows : t.Grows t') (h : t.Sound) (hid : id < t.size) :
    t'.distance top id = t.distance top id := by
  obtain ⟨h', hext, -⟩ := hgrows.sound h
  refine Option.ext fun n => ?_
  rw [h.wellFormed.distance_eq_some_iff hid, ← hgrows.above_iff h hid]
  exact h'.wellFormed.distance_eq_some_iff (Nat.lt_of_lt_of_le hid hext.size_le)

end TypeTable

namespace Overload

variable {types types' : TypeTable} {p q : Parameter} {l r : Operation}

theorem parameterScore_grows (hgrows : types.Grows types') (h : types.Sound)
    (hp : p.type < types.size) (hq : q.type < types.size) :
    parameterScore types' p q = parameterScore types p q := by
  obtain ⟨-, -, hinfo⟩ := hgrows.sound h
  have helement {id element : TypeId} (hid : id < types.size)
      (hsome : (types.info id).element = some element) : types'.info element = types.info element :=
    hinfo element (Nat.lt_trans (h.elementsFirst id element hsome) hid)
  unfold parameterScore
  rw [hinfo _ hp, hinfo _ hq, hgrows.distance_eq h hp, hgrows.distance_eq h hq]
  dsimp only
  cases hpe : (types.info p.type).element with
  | none => rfl
  | some pe =>
    cases hqe : (types.info q.type).element with
    | none => rfl
    | some qe => simp only [helement hp hpe, helement hq hqe]

theorem generality_grows (hgrows : types.Grows types') (h : types.Sound)
    (hl : ∀ p ∈ l.parameters, p.type < types.size) (hr : ∀ q ∈ r.parameters, q.type < types.size) :
    generality types' l r = generality types l r := by
  unfold generality
  split
  · rfl
  · refine List.foldl_ext _ _ _ fun score pair hpair => ?_
    obtain ⟨hp, hq⟩ := List.of_mem_zip hpair
    show score + parameterScore types' pair.1 pair.2 = score + parameterScore types pair.1 pair.2
    rw [parameterScore_grows hgrows h (hl _ hp) (hr _ hq)]

/-! ## Comparisons of assignable types

Two parameters are compared by the steps between their types, unless both are arrays. So where
one type may be stored as the other one, the more general one scores as such, with arrays as the
exception. -/

/-- The comparison tells values from references: the type is a value type or an array of one. -/
def holdsValues (types : TypeTable) (id : TypeId) : Bool :=
  (types.info id).valueType || (types.info id).element.any fun e => (types.info e).valueType

/-- Two parameters that are compared by their types. -/
structure Compared (p q : Parameter) : Prop where
  directions : ¬ (p.direction = .output ∧ q.direction = .output)
  types : p.type ≠ q.type

theorem Compared.symm (h : Compared p q) : Compared q p :=
  ⟨fun ⟨hq, hp⟩ => h.directions ⟨hp, hq⟩, h.types.symm⟩

theorem parameterScore_of_not_compared (h : ¬ Compared p q) : parameterScore types p q = 0 := by
  unfold parameterScore
  split
  next => rfl
  next hdirections =>
    have heq : p.type = q.type := by
      by_contra hne
      exact h ⟨hdirections, hne⟩
    rw [if_pos heq]

theorem Compared.arrays (h : Compared p q) {pe qe : TypeId}
    (hp : (types.info p.type).element = some pe) (hq : (types.info q.type).element = some qe) :
    parameterScore types p q =
      valueTypeScore (types.info pe).valueType (types.info qe).valueType := by
  unfold parameterScore
  rw [if_neg h.directions, if_neg h.types]
  simp only [hp, hq]

/-- Unless two arrays are compared, a value type is told from a reference, and two references by the
steps between them. -/
theorem Compared.score_eq (h : Compared p q)
    (helement : (types.info p.type).element = none ∨ (types.info q.type).element = none) :
    parameterScore types p q =
      if (types.info p.type).valueType || (types.info q.type).valueType then
        valueTypeScore (types.info p.type).valueType (types.info q.type).valueType
      else
        match types.distance p.type q.type, types.distance q.type p.type with
        | some steps, _ => (steps : Int)
        | none, some steps => -(steps : Int)
        | none, none => 0 := by
  unfold parameterScore
  rw [if_neg h.directions, if_neg h.types]
  dsimp only
  split
  next pe qe hp hq => simp [hp, hq] at helement
  next => rfl

theorem Compared.plain (h : Compared p q)
    (helement : (types.info p.type).element = none ∨ (types.info q.type).element = none) :
    (((types.info p.type).valueType || (types.info q.type).valueType) = true →
      parameterScore types p q =
        valueTypeScore (types.info p.type).valueType (types.info q.type).valueType) ∧
    (((types.info p.type).valueType || (types.info q.type).valueType) = false → ∀ steps : Nat,
      (types.distance p.type q.type = some steps → parameterScore types p q = steps) ∧
      (types.distance p.type q.type = none → types.distance q.type p.type = some steps →
        parameterScore types p q = -(steps : Int))) := by
  rw [h.score_eq helement]
  refine ⟨fun hvalue => if_pos hvalue, fun hvalue steps => ⟨fun hdistance => ?_, ?_⟩⟩
  · simp [hvalue, hdistance]
  · intro hnone hdistance
    simp [hvalue, hnone, hdistance]

/-- A type other than a given one that it may be stored as, unless both are arrays, is above it. -/
theorem exists_above {target source : TypeId} (h : types.Assignable target source)
    (hne : target ≠ source)
    (helement : (types.info target).element = none ∨ (types.info source).element = none) :
    ∃ n, types.Above (n + 1) target source := by
  cases h with
  | @above n _ _ habove =>
    cases n with
    | zero =>
      cases habove
      exact absurd rfl hne
    | succ n => exact ⟨n, habove⟩
  | element htarget hsource => simp [htarget, hsource] at helement

/-- A more general input of a reference type scores as such. -/
theorem Compared.score_pos (h : Compared p q) (hwell : types.WellFormed)
    (hq : q.type < types.size) (hassignable : types.Assignable p.type q.type)
    (hvalues : holdsValues types p.type = false) : 0 < parameterScore types p q := by
  obtain ⟨hvalue, hany⟩ := Bool.or_eq_false_iff.mp hvalues
  by_cases harrays : (types.info p.type).element = none ∨ (types.info q.type).element = none
  · cases hqvalue : (types.info q.type).valueType with
    | true =>
      rw [(h.plain harrays).1 (by rw [hqvalue, Bool.or_true]), hvalue, hqvalue]
      decide
    | false =>
      obtain ⟨n, habove⟩ := exists_above hassignable h.types harrays
      have hdistance := (hwell.distance_eq_some_iff hq).mpr habove
      rw [((h.plain harrays).2 (by rw [hvalue, hqvalue]; rfl) _).1 hdistance]
      exact Int.natCast_pos.mpr (Nat.succ_pos n)
  · obtain ⟨⟨pe, hpe⟩, qe, hqe⟩ := (not_or.mp harrays).imp Option.ne_none_iff_exists'.mp
      Option.ne_none_iff_exists'.mp
    rw [hpe] at hany
    rw [h.arrays hpe hqe, show (types.info pe).valueType = false from hany]
    exact (show (0 : Int) < 1 by decide)

/-- The other way round it scores as more general only where both are arrays. -/
theorem Compared.isArray_of_score (h : Compared p q) (hwell : types.WellFormed)
    (hp : p.type < types.size) (hq : q.type < types.size)
    (hassignable : types.Assignable p.type q.type) (hvalues : holdsValues types p.type = false)
    (hscore : 0 < parameterScore types q p) :
    (types.info p.type).isArray = true ∧ (types.info q.type).isArray = true := by
  obtain ⟨hvalue, -⟩ := Bool.or_eq_false_iff.mp hvalues
  by_contra hboth
  have harrays : (types.info p.type).element = none ∨ (types.info q.type).element = none := by
    rw [TypeInfo.isArray, TypeInfo.isArray, not_and_or] at hboth
    simpa using hboth
  cases hqvalue : (types.info q.type).valueType with
  | true =>
    rw [(h.symm.plain harrays.symm).1 (by rw [hqvalue, Bool.true_or]), hvalue, hqvalue] at hscore
    exact absurd hscore (by decide)
  | false =>
    obtain ⟨n, habove⟩ := exists_above hassignable h.types harrays
    have hdistance := (hwell.distance_eq_some_iff hq).mpr habove
    -- No steps lead back up, since the bases form no circle.
    have hback : types.distance q.type p.type = none := by
      refine Option.eq_none_iff_forall_ne_some.mpr fun m hm => ?_
      have habove' := (hwell.distance_eq_some_iff hp).mp hm
      exact h.types (hwell.above_antisymm hq habove habove').2
    obtain ⟨-, hsteps⟩ := h.symm.plain harrays.symm
    have hbelow := (hsteps (by rw [hvalue, hqvalue]; rfl) _).2 hback hdistance
    omega

/-! ## Comparisons of operations

The score of two operations is the sum over their parameters. It is positive if no parameter
scores less than zero and one of them more. -/

theorem le_foldl_add {α : Type} {f : α → Int} {items : List α} (h : ∀ a ∈ items, 0 ≤ f a)
    (start : Int) : start ≤ items.foldl (fun sum a => sum + f a) start := by
  induction items generalizing start with
  | nil => exact Int.le_refl _
  | cons a items ih =>
    have hfirst := h a List.mem_cons_self
    have hrest := ih (fun b hb => h b (List.mem_cons_of_mem _ hb)) (start + f a)
    rw [List.foldl_cons]
    omega

theorem lt_foldl_add {α : Type} {f : α → Int} {items : List α} (h : ∀ a ∈ items, 0 ≤ f a)
    {a : α} (ha : a ∈ items) (hpos : 0 < f a) (start : Int) :
    start < items.foldl (fun sum a => sum + f a) start := by
  induction items generalizing start with
  | nil => cases ha
  | cons b items ih =>
    have hrest := fun b hb => h b (List.mem_cons_of_mem _ hb)
    rw [List.foldl_cons]
    rcases List.mem_cons.mp ha with rfl | ha
    · have hle := le_foldl_add hrest (start + f a)
      omega
    · have hfirst := h b List.mem_cons_self
      have hlt := ih hrest ha (start + f b)
      omega

theorem exists_pos_of_lt_foldl {α : Type} {f : α → Int} {items : List α} {start : Int}
    (h : start < items.foldl (fun sum a => sum + f a) start) : ∃ a ∈ items, 0 < f a := by
  induction items generalizing start with
  | nil => exact absurd h (Int.lt_irrefl _)
  | cons a items ih =>
    by_cases hfirst : 0 < f a
    · exact ⟨a, List.mem_cons_self, hfirst⟩
    · rw [List.foldl_cons] at h
      obtain ⟨b, hb, hpos⟩ := ih (show start + f a < _ by omega)
      exact ⟨b, List.mem_cons_of_mem _ hb, hpos⟩

theorem generality_eq (types : TypeTable) (h : l.parameters.length = r.parameters.length) :
    generality types l r = (l.parameters.zip r.parameters).foldl
      (fun score pair => score + parameterScore types pair.1 pair.2) 0 := by
  unfold generality
  rw [if_neg (not_not.mpr h)]

/-- The inputs in which two operations differ, in pairs. -/
def differences (l r : Operation) : List (Parameter × Parameter) :=
  (l.parameters.zip r.parameters).filter fun (p, q) => p.direction = .input ∧ p.type ≠ q.type

theorem mem_differences {special general : Operation} {pair : Parameter × Parameter} :
    pair ∈ differences general special ↔
      pair ∈ general.parameters.zip special.parameters ∧ pair.1.direction = .input ∧
        pair.1.type ≠ pair.2.type := by
  simp [differences]

/-- The first operation is more specific than the second: it has the same directions, its inputs can
be stored in those of the other, and some of them differ. -/
structure Refines (types : TypeTable) (special general : Operation) : Prop where
  directions : general.parameters.map (·.direction) = special.parameters.map (·.direction)
  assignable : ∀ pair ∈ general.parameters.zip special.parameters, pair.1.direction = .input →
    types.isAssignable pair.1.type pair.2.type = true
  differ : differences general special ≠ []

instance Refines.decidable (types : TypeTable) (special general : Operation) :
    Decidable (Refines types special general) :=
  decidable_of_iff
    (general.parameters.map (·.direction) = special.parameters.map (·.direction) ∧
      (∀ pair ∈ general.parameters.zip special.parameters, pair.1.direction = .input →
        types.isAssignable pair.1.type pair.2.type = true) ∧
      differences general special ≠ [])
    ⟨fun ⟨hdirections, hassignable, hdiffer⟩ => ⟨hdirections, hassignable, hdiffer⟩,
      fun h => ⟨h.directions, h.assignable, h.differ⟩⟩

theorem exists_getElem?_of_mem_zip {α β : Type} {items : List α} {others : List β} {pair : α × β}
    (h : pair ∈ items.zip others) :
    ∃ i : Nat, items[i]? = some pair.1 ∧ others[i]? = some pair.2 := by
  obtain ⟨i, hi⟩ := List.mem_iff_getElem?.mp h
  exact ⟨i, List.getElem?_zip_eq_some.mp hi⟩

theorem Refines.direction_eq {special general : Operation} (h : Refines types special general)
    {pair : Parameter × Parameter} (hpair : pair ∈ general.parameters.zip special.parameters) :
    pair.1.direction = pair.2.direction := by
  obtain ⟨i, hgeneral, hspecial⟩ := exists_getElem?_of_mem_zip hpair
  have hi := congrArg (·[i]?) h.directions
  simpa [hgeneral, hspecial] using hi

theorem Refines.ne {special general : Operation} (h : Refines types special general) :
    special ≠ general := by
  rintro rfl
  obtain ⟨pair, hpair⟩ := List.exists_mem_of_ne_nil _ h.differ
  obtain ⟨hmem, -, hne⟩ := mem_differences.mp hpair
  obtain ⟨i, hp, hq⟩ := exists_getElem?_of_mem_zip hmem
  exact hne (by rw [Option.some.inj (hp.symm.trans hq)])

theorem arguments_of_both {op : Operation} {arguments : List TypeId}
    (harity : op.arity = arguments.length) (h : acceptsArguments types op arguments = true)
    {i : Nat} (hp : op.parameters[i]? = some p) (hboth : p.direction = .both) :
    arguments[i]? = some p.type := by
  obtain ⟨hi, -⟩ := List.getElem?_eq_some_iff.mp hp
  have hlt : i < arguments.length := by
    rw [← harity, Operation.arity]
    split
    next hreturns =>
      -- A parameter without an argument is the last one, and that is an output.
      by_contra hge
      have hlast : op.parameters.getLast? = some p := by
        rw [List.getLast?_eq_getElem?, ← hp]
        congr 1
        omega
      rw [Operation.returns, hlast] at hreturns
      simp [hboth] at hreturns
    next => exact hi
  have hargument : arguments[i]? = some arguments[i] := List.getElem?_eq_getElem hlt
  have hmem : (p, arguments[i]) ∈ op.parameters.zip arguments :=
    List.mem_iff_getElem?.mpr ⟨i, List.getElem?_zip_eq_some.mpr ⟨hp, hargument⟩⟩
  have htype := List.all_eq_true.mp h _ hmem
  simp only [hboth, beq_iff_eq] at htype
  rw [hargument, htype]

/-- Parameters for both directions have the type of the argument that they accept. -/
theorem types_of_both {special general : Operation} {arguments : List TypeId}
    (hgeneral : general.arity = arguments.length) (hspecial : special.arity = arguments.length)
    (haccepts : acceptsArguments types general arguments = true)
    (haccepts' : acceptsArguments types special arguments = true)
    {pair : Parameter × Parameter} (hpair : pair ∈ general.parameters.zip special.parameters)
    (hboth : pair.1.direction = .both) (hboth' : pair.2.direction = .both) :
    pair.1.type = pair.2.type := by
  obtain ⟨i, hp, hq⟩ := exists_getElem?_of_mem_zip hpair
  have hp := arguments_of_both hgeneral haccepts hp hboth
  have hq := arguments_of_both hspecial haccepts' hq hboth'
  exact Option.some.inj (hp.symm.trans hq)

theorem Compared.of_mem_differences {special general : Operation} {pair : Parameter × Parameter}
    (hpair : pair ∈ differences general special) : Compared pair.1 pair.2 := by
  obtain ⟨-, hinput, hne⟩ := mem_differences.mp hpair
  refine ⟨fun ⟨houtput, _⟩ => ?_, hne⟩
  rw [hinput] at houtput
  cases houtput

theorem Refines.length_eq {special general : Operation} (h : Refines types special general) :
    general.parameters.length = special.parameters.length := by
  simpa using congrArg List.length h.directions

theorem Refines.assignable_of_differs {special general : Operation}
    (h : Refines types special general) (hsound : types.Sound)
    (hspecial : ∀ p ∈ special.parameters, p.type < types.size) {pair : Parameter × Parameter}
    (hpair : pair ∈ differences general special) :
    types.Assignable pair.1.type pair.2.type ∧ pair.2.type < types.size := by
  obtain ⟨hmem, hinput, -⟩ := mem_differences.mp hpair
  have hlt := hspecial _ (List.of_mem_zip hmem).2
  refine ⟨?_, hlt⟩
  exact (hsound.wellFormed.isAssignable_iff hsound.elementsFirst hlt).mp
    (h.assignable pair hmem hinput)

section

variable {special general : Operation} (h : Refines types special general)
  (hboth : ∀ pair ∈ general.parameters.zip special.parameters,
    pair.1.direction = .both → pair.1.type = pair.2.type)

include h hboth

/-- Where two accepting operations are compared by their types, an input differs. -/
theorem Refines.differs {pair : Parameter × Parameter}
    (hpair : pair ∈ general.parameters.zip special.parameters)
    (hcompared : Compared pair.1 pair.2) : pair ∈ differences general special := by
  refine mem_differences.mpr ⟨hpair, ?_, hcompared.types⟩
  have hdirection := h.direction_eq hpair
  cases hfirst : pair.1.direction with
  | input => rfl
  | output => exact absurd ⟨hfirst, hdirection ▸ hfirst⟩ hcompared.directions
  | both => exact absurd (hboth pair hpair hfirst) hcompared.types

variable (hsound : types.Sound) (hspecial : ∀ p ∈ special.parameters, p.type < types.size)
  (hvalues : ∀ pair ∈ differences general special, holdsValues types pair.1.type = false)

include hsound hspecial hvalues

/-- The more general of two accepting operations scores as such. -/
theorem Refines.generality_pos : 0 < generality types general special := by
  have hscore : ∀ pair ∈ differences general special,
      0 < parameterScore types pair.1 pair.2 := by
    intro pair hpair
    obtain ⟨hassignable, hlt⟩ := h.assignable_of_differs hsound hspecial hpair
    exact (Compared.of_mem_differences hpair).score_pos hsound.wellFormed hlt hassignable
      (hvalues pair hpair)
  obtain ⟨pair, hpair⟩ := List.exists_mem_of_ne_nil _ h.differ
  rw [generality_eq types h.length_eq]
  -- Every parameter scores, and the inputs that differ score above nothing.
  refine lt_foldl_add (fun other hother => ?_) (mem_differences.mp hpair).1 (hscore pair hpair) 0
  by_cases hcompared : Compared other.1 other.2
  · exact Int.le_of_lt (hscore other (h.differs hboth hother hcompared))
  · exact Int.le_of_eq (parameterScore_of_not_compared hcompared).symm

/-- The other way round it scores as more general only where two arrays are compared. -/
theorem Refines.isArray_of_generality (hgeneral : ∀ p ∈ general.parameters, p.type < types.size)
    (hscore : 0 < generality types special general) :
    ∃ pair ∈ differences general special,
      (types.info pair.1.type).isArray = true ∧ (types.info pair.2.type).isArray = true := by
  rw [generality_eq types h.length_eq.symm] at hscore
  obtain ⟨pair, hpair, hpos⟩ := exists_pos_of_lt_foldl hscore
  have hswap : pair.swap ∈ general.parameters.zip special.parameters := by
    rw [← List.zip_swap]
    exact List.mem_map_of_mem hpair
  have hcompared : Compared pair.1 pair.2 := by
    by_contra hnot
    rw [parameterScore_of_not_compared hnot] at hpos
    exact absurd hpos (Int.lt_irrefl 0)
  have hdiffers := h.differs hboth hswap hcompared.symm
  obtain ⟨hassignable, hlt⟩ := h.assignable_of_differs hsound hspecial hdiffers
  have hlt' := hgeneral _ (List.of_mem_zip hswap).1
  exact ⟨pair.swap, hdiffers, hcompared.symm.isArray_of_score hsound.wellFormed hlt' hlt hassignable
    (hvalues _ hdiffers) hpos⟩

end

end Overload

end SexprAsm
