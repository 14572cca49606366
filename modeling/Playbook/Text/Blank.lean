import Playbook.Text.Basic

/-!
# Blanks

The blanks are the characters with the property White_Space; trimming removes them from both
ends of a text.

Results:
* `isBlank_of_isWhitespace`: every blank of the core library's class is one.
* `trim_eq_self`: trimming changes only a text with a blank at one of its ends.
* `trim_append`: blanks behind a text do not matter.
* `exists_trim`: trimming removes blanks only.
-/
namespace Playbook.Text

def isBlank (c : Char) : Bool :=
  let n := c.toNat
  (9 ≤ n && n ≤ 13) || n = 0x20 || n = 0x85 || n = 0xA0 || n = 0x1680 ||
    (0x2000 ≤ n && n ≤ 0x200A) || n = 0x2028 || n = 0x2029 || n = 0x202F || n = 0x205F ||
    n = 0x3000

theorem isBlank_of_isWhitespace {c : Char} (h : c.isWhitespace = true) : isBlank c = true := by
  simp only [Char.isWhitespace, Bool.or_eq_true, decide_eq_true_eq] at h
  rcases h with ((h | h) | h) | h <;> subst h <;> decide

def trimStart (t : Text) : Text := t.dropWhile isBlank

def trimEnd (t : Text) : Text := (t.reverse.dropWhile isBlank).reverse

/-- The text without the blanks at its ends. -/
def trim (t : Text) : Text := trimEnd (trimStart t)

theorem trim_cons {c : Char} (h : isBlank c = true) (t : Text) : trim (c :: t) = trim t := by
  rw [trim, trim, trimStart, trimStart, List.dropWhile_cons_of_pos h]

theorem trim_eq_self {t : Text} (hh : t.head?.any isBlank = false)
    (hl : t.getLast?.any isBlank = false) : trim t = t := by
  have hstart : trimStart t = t := by
    cases t with
    | nil => rfl
    | cons c t => rw [trimStart, List.dropWhile_cons_of_neg (by simpa using hh)]
  rw [trim, hstart, trimEnd]
  rcases List.eq_nil_or_concat t with rfl | ⟨u, c, rfl⟩
  · rfl
  · rw [List.concat_eq_append, List.getLast?_concat, Option.any_some] at hl
    rw [List.concat_eq_append, List.reverse_append, List.reverse_singleton, List.singleton_append,
      List.dropWhile_cons_of_neg (by simp [hl]), List.reverse_cons, List.reverse_reverse]

theorem trim_of_not_blank {t : Text} (h : ∀ c ∈ t, isBlank c = false) : trim t = t := by
  refine trim_eq_self ?_ ?_
  · cases hc : t.head? with
    | none => rfl
    | some c => exact h c (List.mem_of_head? hc)
  · cases hc : t.getLast? with
    | none => rfl
    | some c => exact h c (List.mem_of_getLast? hc)

/-- Blanks behind a text do not matter. -/
theorem trim_append {gap : Text} (h : ∀ c ∈ gap, isBlank c = true) (t : Text) :
    trim (t ++ gap) = trim t := by
  have hend (u : Text) : trimEnd (u ++ gap) = trimEnd u := by
    rw [trimEnd, List.reverse_append, List.dropWhile_append_of_pos, trimEnd]
    exact fun c hc => h c (List.mem_reverse.1 hc)
  have hall : gap.dropWhile isBlank = [] := by
    rw [← List.append_nil gap, List.dropWhile_append_of_pos h, List.dropWhile_nil]
  rw [trim, trimStart, List.dropWhile_append]
  split
  · rename_i hempty
    rw [List.isEmpty_iff] at hempty
    rw [trim, trimStart, hempty, hall]
  · rw [hend, trim, trimStart]

theorem exists_trimEnd (t : Text) : ∃ trail, t = trimEnd t ++ trail ∧
    ∀ c ∈ trail, isBlank c = true := by
  refine ⟨(t.reverse.takeWhile isBlank).reverse, ?_, ?_⟩
  · rw [trimEnd, ← List.reverse_append, List.takeWhile_append_dropWhile, List.reverse_reverse]
  · exact fun c hc => List.all_eq_true.1 List.all_takeWhile c (List.mem_reverse.1 hc)

/-- Trimming removes blanks only. -/
theorem exists_trim (t : Text) : ∃ lead trail, t = lead ++ trim t ++ trail ∧
    (∀ c ∈ lead, isBlank c = true) ∧ ∀ c ∈ trail, isBlank c = true := by
  have hstart : t = t.takeWhile isBlank ++ trimStart t := List.takeWhile_append_dropWhile.symm
  obtain ⟨trail, hend, htrail⟩ := exists_trimEnd (trimStart t)
  refine ⟨t.takeWhile isBlank, trail, ?_, List.all_eq_true.1 List.all_takeWhile, htrail⟩
  rw [trim, List.append_assoc, ← hend]
  exact hstart

end Playbook.Text
