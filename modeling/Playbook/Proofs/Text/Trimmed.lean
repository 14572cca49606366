import Playbook.Text.Blank

/-!
# Texts without blanks at their ends

Trimming gives a text that neither starts nor ends with a blank. Such a text may hold blanks, and
of two of them with anything between them only the outer ends count.

Results:
* `trimmed_trim`: trimming gives a trimmed text.
* `Trimmed.trim_eq`: a trimmed text stays as it is.
* `Trimmed.trim_append`: behind a trimmed text, only the end is trimmed.
* `trim_eq_nil_iff`: nothing is left of blanks only.
* `Trimmed.append`: a trimmed text in front and one behind make a trimmed text.
-/
namespace Playbook.Text

/-- No blank stands at an end. -/
structure Trimmed (t : Text) : Prop where
  head : t.head?.any isBlank = false
  last : t.getLast?.any isBlank = false

theorem Trimmed.trim_eq {t : Text} (h : Trimmed t) : trim t = t := trim_eq_self h.head h.last

theorem trimmed_nil : Trimmed [] := ⟨rfl, rfl⟩

theorem head?_dropWhile_isBlank (t : Text) : (t.dropWhile isBlank).head?.any isBlank = false := by
  have hhead := List.head?_dropWhile_not isBlank t
  cases hc : (t.dropWhile isBlank).head? with
  | none => rfl
  | some c =>
    rw [hc] at hhead
    simpa using hhead

theorem trimmed_trim (t : Text) : Trimmed (trim t) := by
  constructor
  · -- what is taken off the end leaves the first character, unless nothing is left
    obtain ⟨front, hfront⟩ := List.dropWhile_suffix isBlank (l := (trimStart t).reverse)
    have hstart := head?_dropWhile_isBlank t
    have hsplit : trimStart t = trim t ++ front.reverse := by
      rw [trim, trimEnd, ← List.reverse_append, hfront, List.reverse_reverse]
    rw [← trimStart, hsplit] at hstart
    cases htrim : trim t with
    | nil => rfl
    | cons c rest => rwa [htrim, List.cons_append] at hstart
  · rw [trim, trimEnd, List.getLast?_reverse]
    exact head?_dropWhile_isBlank _

/-- Nothing is left of blanks, and something of any other text. -/
theorem trim_eq_nil_iff {t : Text} : trim t = [] ↔ ∀ c ∈ t, isBlank c = true := by
  constructor
  · intro h c hc
    obtain ⟨lead, trail, ht, hlead, htrail⟩ := exists_trim t
    rw [h, List.append_nil] at ht
    rw [ht] at hc
    rcases List.mem_append.1 hc with hc | hc
    · exact hlead c hc
    · exact htrail c hc
  · intro h
    exact trim_append h []

theorem mem_of_mem_trim {t : Text} {c : Char} (h : c ∈ trim t) : c ∈ t := by
  obtain ⟨lead, trail, ht, -, -⟩ := exists_trim t
  rw [ht]
  exact List.mem_append_left _ (List.mem_append_right _ h)

/-- Behind a trimmed text, trimming takes blanks off the end only. -/
theorem Trimmed.trim_append {s : Text} (hs : Trimmed s) (hne : s ≠ []) (t : Text) :
    trim (s ++ t) = s ++ trimEnd t := by
  have hstart : trimStart (s ++ t) = s ++ t := by
    cases s with
    | nil => exact absurd rfl hne
    | cons c s => exact List.dropWhile_cons_of_neg (by simpa using hs.head)
  have hend : s.reverse.dropWhile isBlank = s.reverse := by
    rcases List.eq_nil_or_concat s with rfl | ⟨front, c, rfl⟩
    · exact absurd rfl hne
    · rw [List.concat_eq_append, List.reverse_concat]
      exact List.dropWhile_cons_of_neg (by simpa using hs.last)
  rw [trim, hstart, trimEnd, List.reverse_append, List.dropWhile_append, trimEnd, hend]
  split
  · rename_i hempty
    rw [List.isEmpty_iff.1 hempty, List.reverse_reverse, List.reverse_nil, List.append_nil]
  · rw [List.reverse_append, List.reverse_reverse]

theorem all_head?_trimEnd (t : Text) :
    (trimEnd t).head?.all isBlank = t.head?.all isBlank := by
  obtain ⟨trail, ht, htrail⟩ := exists_trimEnd t
  cases hend : trimEnd t with
  | cons c u =>
    rw [hend] at ht
    rw [ht]
    rfl
  | nil =>
    rw [hend, List.nil_append] at ht
    rw [ht]
    cases trail with
    | nil => rfl
    | cons c trail => exact (htrail c List.mem_cons_self).symm

theorem Trimmed.append {s t : Text} (hs : Trimmed s) (hne : s ≠ []) (ht : Trimmed t)
    (hne' : t ≠ []) (between : Text) : Trimmed (s ++ between ++ t) := by
  constructor
  · obtain ⟨c, rest, rfl⟩ := List.exists_cons_of_ne_nil hne
    exact hs.head
  · have hlast := ht.last
    rw [List.getLast?_append, List.getLast?_eq_some_getLast hne'] at *
    exact hlast

end Playbook.Text
