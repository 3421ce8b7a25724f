/-!
# Tables in order of entry

A table that keeps its entries in the order in which their keys first came. Writing an entry again
replaces it where it stands.
-/

namespace SexprAsm

/-- Entries under distinct keys, oldest first. -/
structure OrderedMap (κ α : Type) where
  entries : List (κ × α) := []
  deriving DecidableEq, Repr

/-- Entries under distinct names. -/
abbrev NameMap (α : Type) := OrderedMap String α

namespace OrderedMap

variable {κ α : Type}

instance : Inhabited (OrderedMap κ α) := ⟨{}⟩

/-- The number of entries. -/
def size (m : OrderedMap κ α) : Nat := m.entries.length

/-- The keys, oldest first. -/
def keys (m : OrderedMap κ α) : List κ := m.entries.map Prod.fst

variable [DecidableEq κ]

/-- The entry under a key in a list of entries. -/
def getIn (key : κ) : List (κ × α) → Option α
  | [] => none
  | (other, a) :: rest => if other = key then some a else getIn key rest

/-- The entry under a key. -/
def get? (m : OrderedMap κ α) (key : κ) : Option α := getIn key m.entries

/-- There is an entry under the key. -/
def contains (m : OrderedMap κ α) (key : κ) : Bool := (m.get? key).isSome

/-- Replaces the entry under a key, or adds it at the end. -/
def putIn (key : κ) (a : α) : List (κ × α) → List (κ × α)
  | [] => [(key, a)]
  | (other, b) :: rest => if other = key then (other, a) :: rest else (other, b) :: putIn key a rest

/-- Writes the entry under a key. -/
def put (m : OrderedMap κ α) (key : κ) (a : α) : OrderedMap κ α := ⟨putIn key a m.entries⟩

/-- Writes the entry under a key unless there is one. -/
def putNew (m : OrderedMap κ α) (key : κ) (a : α) : OrderedMap κ α :=
  if m.contains key then m else m.put key a

/-- Drops the entry under a key. -/
def erase (m : OrderedMap κ α) (key : κ) : OrderedMap κ α :=
  ⟨m.entries.filter fun entry => entry.1 ≠ key⟩

/-- Changes the entry under a key, if there is one. -/
def modify (m : OrderedMap κ α) (key : κ) (f : α → α) : OrderedMap κ α :=
  ⟨m.entries.map fun entry => if entry.1 = key then (entry.1, f entry.2) else entry⟩

@[simp] theorem get?_empty (key : κ) : ({} : OrderedMap κ α).get? key = none := rfl

theorem getIn_putIn (key other : κ) (a : α) (entries : List (κ × α)) :
    getIn other (putIn key a entries) = if other = key then some a else getIn other entries := by
  induction entries with
  | nil => simp [putIn, getIn, eq_comm]
  | cons entry rest ih =>
    by_cases hk : entry.1 = key
    · subst hk
      by_cases h : other = entry.1
      · simp [putIn, getIn, h]
      · simp [putIn, getIn, h, Ne.symm h]
    · by_cases h : entry.1 = other
      · subst h
        simp [putIn, getIn, hk]
      · simp [putIn, getIn, hk, h, ih]

/-- Writing changes the entry under its own key and no other. -/
theorem get?_put (m : OrderedMap κ α) (key other : κ) (a : α) :
    (m.put key a).get? other = if other = key then some a else m.get? other :=
  getIn_putIn key other a m.entries

theorem map_fst_putIn (key : κ) (a : α) (entries : List (κ × α)) :
    (putIn key a entries).map Prod.fst =
      if key ∈ entries.map Prod.fst then entries.map Prod.fst
      else entries.map Prod.fst ++ [key] := by
  induction entries with
  | nil => simp [putIn]
  | cons entry rest ih =>
    rcases entry with ⟨other, b⟩
    by_cases h : other = key
    · simp [putIn, h]
    · have hmem : key ∈ other :: rest.map Prod.fst ↔ key ∈ rest.map Prod.fst := by
        rw [List.mem_cons]
        exact or_iff_right (Ne.symm h)
      rw [putIn, if_neg h]
      simp only [List.map_cons, ih, hmem]
      split <;> rfl

/-- Writing keeps the keys in place and adds a new one at the end. -/
theorem keys_put (m : OrderedMap κ α) (key : κ) (a : α) :
    (m.put key a).keys = if key ∈ m.keys then m.keys else m.keys ++ [key] :=
  map_fst_putIn key a m.entries

end OrderedMap

end SexprAsm
