import Playbook.Proofs.Text.Bytes

/-!
# Slices

A slice is what a text has between two byte offsets. It is valid if the offsets are in order and
each lies at an end of the text or between two characters, so that no character is cut.

Results:
* `slice_of_eq`: the sizes of two leading parts make a valid slice, which is what the longer has
  behind the shorter.
-/
namespace Playbook.Text

/-- Byte `n` lies at an end of the text or between two characters. -/
def Boundary (t : Text) (n : Nat) : Prop := ∃ front back, t = front ++ back ∧ byteSize front = n

theorem boundary_append (front back : Text) : Boundary (front ++ back) (byteSize front) :=
  ⟨front, back, rfl, rfl⟩

/-- What a text has from byte `start` up to byte `stop`. -/
def slice (start stop : Nat) (t : Text) : Text := (upTo stop t).drop (upTo start t).length

/-- The offsets are in order, and neither of them cuts a character. -/
structure ValidSlice (start stop : Nat) (t : Text) : Prop where
  ordered : start ≤ stop
  start : Boundary t start
  stop : Boundary t stop

/-- The sizes of two leading parts cut out what the longer has behind the shorter. -/
theorem slice_of_eq {t front middle back : Text} (ht : t = front ++ middle ++ back) :
    ValidSlice (byteSize front) (byteSize (front ++ middle)) t ∧
      slice (byteSize front) (byteSize (front ++ middle)) t = middle := by
  have hstop := upTo_append (front ++ middle) back
  have hstart := upTo_append front (middle ++ back)
  have hbehind := boundary_append front (middle ++ back)
  rw [← List.append_assoc] at hstart hbehind
  rw [ht]
  refine ⟨⟨?_, hbehind, boundary_append _ back⟩, ?_⟩
  · rw [byteSize_append]
    exact Nat.le_add_right _ _
  · rw [slice, hstop, hstart, List.drop_left]

end Playbook.Text
