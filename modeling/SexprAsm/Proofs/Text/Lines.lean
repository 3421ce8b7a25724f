import Mathlib.Data.List.Basic
import SexprAsm.BuildError
import SexprAsm.Proofs.Text.Digits

/-!
# Reading lines and addresses back

Lines without line ends are told apart in the text that they make (`join_lines_injective`), and so
are numbers written as addresses (`hex8_injective`).
-/

namespace SexprAsm.Text

/-! ## Cutting lists -/

/-- There is one way to cut a list where a property ends. -/
theorem append_inj_of_ends {α : Type} {p : α → Prop} {xs xs' rest rest' : List α}
    (h : xs ++ rest = xs' ++ rest') (hxs : ∀ x ∈ xs, p x) (hxs' : ∀ x ∈ xs', p x)
    (hrest : ∀ x ∈ rest.head?, ¬ p x) (hrest' : ∀ x ∈ rest'.head?, ¬ p x) :
    xs = xs' ∧ rest = rest' := by
  induction xs generalizing xs' with
  | nil =>
    cases xs' with
    | nil => exact ⟨rfl, h⟩
    | cons x xs' =>
      refine (hrest x ?_ (hxs' x List.mem_cons_self)).elim
      rw [show rest = _ from h]
      rfl
  | cons x xs ih =>
    cases xs' with
    | nil =>
      refine (hrest' x ?_ (hxs x List.mem_cons_self)).elim
      rw [← show _ = rest' from h]
      rfl
    | cons x' xs' =>
      rw [List.cons_append, List.cons_append] at h
      obtain ⟨rfl, htail⟩ := List.cons.inj h
      obtain ⟨rfl, rfl⟩ := ih htail (fun y hy => hxs y (List.mem_cons_of_mem _ hy))
        fun y hy => hxs' y (List.mem_cons_of_mem _ hy)
      exact ⟨rfl, rfl⟩

/-- A prefix without the mark that ends a list is a prefix of what stands before it. -/
theorem prefix_of_prefix_append {α : Type} {xs ys rest : List α} {mark : α}
    (h : xs <+: ys ++ mark :: rest) (hmark : mark ∉ xs) : xs <+: ys := by
  induction xs generalizing ys with
  | nil => exact List.nil_prefix
  | cons x xs ih =>
    cases ys with
    | nil =>
      obtain ⟨rfl, -⟩ := List.cons_prefix_cons.mp h
      exact (hmark List.mem_cons_self).elim
    | cons y ys =>
      obtain ⟨rfl, htail⟩ := List.cons_prefix_cons.mp h
      exact List.cons_prefix_cons.mpr
        ⟨rfl, ih htail fun hmem => hmark (List.mem_cons_of_mem _ hmem)⟩

/-- If images tell something of their sources, equal lists of images tell it of every source. -/
theorem map_eq_of_map_eq {α β γ : Type} {f f' : α → β} {g g' : α → γ} {xs xs' : List α}
    (h : xs.map f = xs'.map f') (himage : ∀ x ∈ xs, ∀ x' ∈ xs', f x = f' x' → g x = g' x') :
    xs.map g = xs'.map g' := by
  induction xs generalizing xs' with
  | nil =>
    obtain rfl := List.map_eq_nil_iff.mp h.symm
    rfl
  | cons x xs ih =>
    cases xs' with
    | nil => cases h
    | cons x' xs' =>
      obtain ⟨hhead, htail⟩ := List.cons.inj h
      rw [List.map_cons, List.map_cons, himage x List.mem_cons_self x' List.mem_cons_self hhead,
        ih htail fun y hy y' hy' =>
          himage y (List.mem_cons_of_mem _ hy) y' (List.mem_cons_of_mem _ hy')]

theorem append_left_inj {lead x y : String} (h : lead ++ x = lead ++ y) : x = y := by
  have hchars := congrArg String.toList h
  rw [String.toList_append, String.toList_append, List.append_cancel_left_eq] at hchars
  exact String.toList_inj.mp hchars

theorem append_right_inj {x y tail : String} (h : x ++ tail = y ++ tail) : x = y := by
  have hchars := congrArg String.toList h
  rw [String.toList_append, String.toList_append, List.append_cancel_right_eq] at hchars
  exact String.toList_inj.mp hchars

/-! ## Lines -/

/-- A text that stays on one line. -/
def OneLine (text : String) : Prop := '\n' ∉ text.toList

instance (text : String) : Decidable (OneLine text) :=
  inferInstanceAs (Decidable ('\n' ∉ text.toList))

@[simp]
theorem oneLine_append {x y : String} : OneLine (x ++ y) ↔ OneLine x ∧ OneLine y := by
  simp [OneLine, not_or]

theorem join_lines_injective {lines lines' : List String}
    (h : String.join (lines.map (· ++ "\n")) = String.join (lines'.map (· ++ "\n")))
    (hlines : ∀ line ∈ lines, OneLine line) (hlines' : ∀ line ∈ lines', OneLine line) :
    lines = lines' := by
  have hchars := congrArg String.toList h
  simp only [String.toList_join] at hchars
  clear h
  induction lines generalizing lines' with
  | nil =>
    cases lines' with
    | nil => rfl
    | cons line' lines' => simp at hchars
  | cons line lines ih =>
    cases lines' with
    | nil => simp at hchars
    | cons line' lines' =>
      simp only [List.map_cons, List.flatMap_cons, String.toList_append, List.append_assoc]
        at hchars
      have hend : "\n".toList = ['\n'] := rfl
      rw [hend, List.singleton_append, List.singleton_append] at hchars
      -- The first line end is where the first line ends.
      obtain ⟨hline, hrest⟩ := append_inj_of_ends (p := (· ≠ '\n')) hchars
        (fun c hc heq => hlines line List.mem_cons_self (heq ▸ hc))
        (fun c hc heq => hlines' line' List.mem_cons_self (heq ▸ hc)) (by simp) (by simp)
      rw [String.toList_inj.mp hline, ih (fun l hl => hlines l (List.mem_cons_of_mem _ hl))
        (fun l hl => hlines' l (List.mem_cons_of_mem _ hl)) (List.cons.inj hrest).2]

/-! ## Addresses -/

theorem digit?_toUpper_digitChar {n : Nat} (h : n < 16) :
    digit? 16 n.digitChar.toUpper = some n := by
  have hall : ∀ n < 16, digit? 16 n.digitChar.toUpper = some n := by decide
  exact hall n h

/-- The digits of a number in base sixteen spell it, in upper case too. -/
theorem ofDigits_toUpper_toDigits (n : Nat) :
    ofDigits 16 ((Nat.toDigits 16 n).map Char.toUpper) = n := by
  induction n using Nat.strongRecOn with
  | _ n ih =>
    rw [Nat.toDigits_eq_if (by decide)]
    split
    next h => rw [List.map_singleton, ofDigits_singleton, digit?_toUpper_digitChar h]; rfl
    next h =>
      rw [List.map_append, List.map_singleton, ofDigits_append, ih (n / 16) (by omega),
        ofDigits_singleton, digit?_toUpper_digitChar (by omega), List.length_singleton, pow_one,
        Option.getD_some, Nat.div_add_mod']

theorem ofDigits_hex8 (n : Nat) : ofDigits 16 (hex8 n).toList = n := by
  rw [hex8, String.toList_ofList, ofDigits_append, ofDigits_zeros, Nat.zero_mul, Nat.zero_add,
    ofDigits_toUpper_toDigits]

theorem hex8_injective : Function.Injective hex8 := by
  intro m n h
  rw [← ofDigits_hex8 m, h, ofDigits_hex8]

theorem isDigit_of_mem_toDigits_toUpper (n : Nat) :
    ∀ c ∈ (Nat.toDigits 16 n).map Char.toUpper, isDigit 16 c := by
  induction n using Nat.strongRecOn with
  | _ n ih =>
    have hdigit : ∀ d < 16, isDigit 16 d.digitChar.toUpper := by
      intro d hd
      rw [isDigit, digit?_toUpper_digitChar hd]
      rfl
    rw [Nat.toDigits_eq_if (by decide)]
    split
    next h => simpa using hdigit n h
    next h =>
      intro c hc
      rw [List.map_append, List.mem_append, List.map_singleton, List.mem_singleton] at hc
      rcases hc with hc | rfl
      · exact ih (n / 16) (by omega) c hc
      · exact hdigit (n % 16) (by omega)

theorem oneLine_hex8 (n : Nat) : OneLine (hex8 n) := by
  intro hmem
  rw [hex8, String.toList_ofList, List.mem_append] at hmem
  rcases hmem with hmem | hmem
  · cases List.eq_of_mem_replicate hmem
  · have := isDigit_of_mem_toDigits_toUpper n _ hmem
    revert this
    decide

end SexprAsm.Text
