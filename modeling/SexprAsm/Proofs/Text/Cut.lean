import Mathlib.Data.String.Basic
import SexprAsm.Text.Cut

/-!
# Cutting texts where they were put together

A piece that was put in front of a text or after it comes off again, and so does a front at the
number of its bytes, which is a boundary between characters.
-/

namespace SexprAsm.Text

/-! ## Either end -/

theorem dropLead?_append (lead s : String) : dropLead? lead (lead ++ s) = some s := by
  simp [dropLead?]

theorem dropTail?_append (tail s : String) : dropTail? tail (s ++ tail) = some s := by
  simp [dropTail?]

theorem byteLength_eq (cs : List Char) : byteLength cs = String.utf8Len cs :=
  String.utf8ByteSize_ofList cs

theorem byteLength_cons (c : Char) (cs : List Char) :
    byteLength (c :: cs) = c.utf8Size + byteLength cs := by
  rw [byteLength_eq, byteLength_eq, String.utf8Len_cons, Nat.add_comm]

/-- The characters that start before the end of a front are the front. -/
theorem startingBefore_append (front cs : List Char) :
    startingBefore (front ++ cs) (byteLength front) = front := by
  induction front with
  | nil => cases cs <;> rfl
  | cons c front ih =>
    have hpos : 0 < c.utf8Size := c.utf8Size_pos
    rw [List.cons_append, startingBefore, byteLength_cons, if_neg (by omega),
      Nat.add_sub_cancel_left, ih]

theorem cutAtByte?_append (front rest : List Char) :
    cutAtByte? (front ++ rest) (byteLength front) = some (front, rest) := by
  rw [cutAtByte?, startingBefore_append, if_pos rfl, List.drop_left]

end SexprAsm.Text
