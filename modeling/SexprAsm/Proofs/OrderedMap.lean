import Mathlib.Data.List.Nodup
import Mathlib.Data.List.Perm.Subperm
import Mathlib.Tactic.Common
import SexprAsm.OrderedMap

/-!
# Laws of tables

How the other ways of changing a table act on its entries, and how many names a table can take:
a list of distinct names that are all taken is no longer than the table.
-/

namespace SexprAsm.OrderedMap

variable {κ α : Type} [DecidableEq κ] {m : OrderedMap κ α} {key other : κ} {a : α}

theorem mem_keys_iff : key ∈ m.keys ↔ m.contains key = true := by
  obtain ⟨entries⟩ := m
  simp only [keys, contains, get?]
  induction entries with
  | nil => simp [getIn]
  | cons entry rest ih =>
    obtain ⟨k, b⟩ := entry
    by_cases h : k = key
    · simp [getIn, h]
    · simp only [List.map_cons, List.mem_cons, getIn, if_neg h, ih]
      simp [Ne.symm h]

theorem mem_entries_of_get? (h : m.get? key = some a) : (key, a) ∈ m.entries := by
  obtain ⟨entries⟩ := m
  simp only [get?] at h ⊢
  induction entries with
  | nil => cases h
  | cons entry rest ih =>
    obtain ⟨k, b⟩ := entry
    simp only [getIn] at h
    split at h
    next heq =>
      obtain rfl := Option.some.inj h
      rw [heq]
      exact List.mem_cons_self
    next => exact List.mem_cons_of_mem _ (ih h)

theorem contains_iff : m.contains key = true ↔ ∃ a, m.get? key = some a :=
  Option.isSome_iff_exists

theorem contains_eq_false_iff : m.contains key = false ↔ m.get? key = none := by
  rw [contains, Option.isSome_eq_false_iff, Option.isNone_iff_eq_none]

theorem size_eq_zero (h : ∀ key, m.get? key = none) : m.size = 0 := by
  obtain ⟨entries⟩ := m
  cases entries with
  | nil => rfl
  | cons entry rest =>
    have hfirst := h entry.1
    rw [get?, getIn, if_pos rfl] at hfirst
    cases hfirst

/-- A new entry goes to the end. -/
theorem entries_put_of_get?_eq_none (h : m.get? key = none) :
    (m.put key a).entries = m.entries ++ [(key, a)] := by
  obtain ⟨entries⟩ := m
  simp only [put, get?] at h ⊢
  induction entries with
  | nil => rfl
  | cons entry rest ih =>
    obtain ⟨k, b⟩ := entry
    simp only [getIn] at h
    split at h
    next => cases h
    next hk => rw [putIn, if_neg hk, ih h, List.cons_append]

/-- No key comes twice. -/
theorem nodup_keys_put (h : m.keys.Nodup) : (m.put key a).keys.Nodup := by
  rw [keys_put]
  split
  next => exact h
  next hnew => simpa using h.concat hnew

/-- What is found once an entry has been put is that entry, or was there. -/
theorem get?_put_eq_some {b : α} : (m.put key a).get? other = some b ↔
    other = key ∧ b = a ∨ other ≠ key ∧ m.get? other = some b := by
  rw [get?_put]
  by_cases heq : other = key
  · simp [heq, eq_comm]
  · simp [heq]

theorem contains_put :
    (m.put key a).contains other = true ↔ other = key ∨ m.contains other = true := by
  rw [contains, contains, get?_put]
  by_cases heq : other = key
  · simp [heq]
  · simp [heq]

theorem get?_putNew :
    (m.putNew key a).get? other =
      if m.get? key = none ∧ other = key then some a else m.get? other := by
  rw [putNew]
  cases h : m.contains key with
  | true =>
    obtain ⟨b, hb⟩ := contains_iff.mp h
    simp [hb]
  | false => simp [get?_put, contains_eq_false_iff.mp h]

theorem get?_erase : (m.erase key).get? other = if other = key then none else m.get? other := by
  obtain ⟨entries⟩ := m
  simp only [erase, get?]
  induction entries with
  | nil => simp [getIn]
  | cons entry rest ih =>
    obtain ⟨k, b⟩ := entry
    by_cases hk : k = key
    · subst hk
      by_cases ho : other = k
      · simpa [ho] using ih
      · simpa [getIn, ho, Ne.symm ho] using ih
    · by_cases ho : k = other
      · subst ho
        simp [getIn, hk]
      · simpa [getIn, hk, ho] using ih

theorem get?_modify {f : α → α} :
    (m.modify key f).get? other = if other = key then (m.get? key).map f else m.get? other := by
  obtain ⟨entries⟩ := m
  simp only [modify, get?]
  induction entries with
  | nil => simp [getIn]
  | cons entry rest ih =>
    obtain ⟨k, b⟩ := entry
    by_cases hk : k = key
    · subst hk
      by_cases ho : other = k
      · subst ho
        simp [getIn]
      · simpa [getIn, ho, Ne.symm ho] using ih
    · by_cases ho : k = other
      · subst ho
        simp [getIn, hk]
      · simpa [getIn, hk, ho] using ih

/-- Changing all entries changes what is found under each key. -/
theorem get?_map {β : Type} (f : α → β) :
    (⟨m.entries.map fun (k, a) => (k, f a)⟩ : OrderedMap κ β).get? key = (m.get? key).map f := by
  obtain ⟨entries⟩ := m
  simp only [get?]
  induction entries with
  | nil => rfl
  | cons entry rest ih =>
    obtain ⟨k, a⟩ := entry
    by_cases h : k = key
    · simp [getIn, h]
    · simpa [getIn, h] using ih

/-- Distinct names that are each taken in one of two tables are no more than the entries of both. -/
theorem length_le_size_add {β : Type} {m' : OrderedMap κ β} {names : List κ}
    (hnodup : names.Nodup)
    (h : ∀ name ∈ names, m.contains name = true ∨ m'.contains name = true) :
    names.length ≤ m.size + m'.size := by
  have hsub : names ⊆ m.keys ++ m'.keys := by
    intro name hname
    rw [List.mem_append, mem_keys_iff, mem_keys_iff]
    exact h name hname
  have hle := (hnodup.subperm hsub).length_le
  simpa [keys, size] using hle

end SexprAsm.OrderedMap
