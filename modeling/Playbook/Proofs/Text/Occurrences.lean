import Playbook.Text.Basic

/-!
# Occurrences of a pattern

A pattern occurs in a text if the text from some place on starts with it. What is broken off at the
first occurrence lacks the pattern, and a text that lacks it takes part in an occurrence only where
the pattern goes on behind the text.

Results:
* `occursIn_eq_false`: a pattern does not occur if the text starts with it nowhere.
* `occursIn_of_breakOn`: what stands before the first occurrence lacks the pattern.
* `after?_across`, `occursIn_across`: no occurrence begins in a text that lacks the pattern, if what
  follows does not go on with it.
-/
namespace Playbook.Text

theorem occursIn_eq_false {pattern t : Text} :
    occursIn pattern t = false ↔ ∀ u v, t = u ++ v → after? pattern v = none := by
  constructor
  · intro h u v huv
    rw [Option.eq_none_iff_forall_ne_some]
    intro rest hrest
    rw [huv, after?_eq_some.1 hrest, ← List.append_assoc, occursIn_append] at h
    cases h
  · intro h
    cases hbreak : breakOn pattern t with
    | none => rw [occursIn, hbreak, Option.isSome_none]
    | some parts =>
      obtain ⟨before, rest⟩ := parts
      have ht := breakOn_eq_some hbreak
      rw [List.append_assoc] at ht
      have hnone := h before (pattern ++ rest) ht
      rw [after?_eq_some.2 rfl] at hnone
      cases hnone

theorem occursIn_eq_true {pattern t : Text} :
    occursIn pattern t = true ↔ ∃ u v, t = u ++ (pattern ++ v) := by
  constructor
  · intro h
    obtain ⟨⟨u, v⟩, hbreak⟩ := Option.isSome_iff_exists.1 h
    exact ⟨u, v, by rw [breakOn_eq_some hbreak, List.append_assoc]⟩
  · rintro ⟨u, v, rfl⟩
    rw [← List.append_assoc]
    exact occursIn_append u pattern v

theorem occursIn_trans {a b t : Text} (hab : occursIn a b = true) (hb : occursIn b t = true) :
    occursIn a t = true := by
  obtain ⟨u, v, rfl⟩ := occursIn_eq_true.1 hab
  obtain ⟨front, back, rfl⟩ := occursIn_eq_true.1 hb
  exact occursIn_eq_true.2 ⟨front ++ u, v ++ back, by simp only [List.append_assoc]⟩

/-- A text lacks a pattern if a text that it begins lacks it. -/
theorem occursIn_left {pattern t u : Text} (h : occursIn pattern (t ++ u) = false) :
    occursIn pattern t = false := by
  rw [occursIn_eq_false] at h ⊢
  intro a b hab
  rw [Option.eq_none_iff_forall_ne_some]
  intro rest hrest
  have hnone := h a (b ++ u) (by rw [hab, List.append_assoc])
  rw [after?_eq_some.1 hrest, List.append_assoc, after?_eq_some.2 rfl] at hnone
  cases hnone

/-- What does not hold the first character of a pattern lacks it in front of a text that does. -/
theorem occursIn_append_of_not_mem {a : Char} {pattern w t : Text} (hw : a ∉ w)
    (ht : occursIn (a :: pattern) t = false) : occursIn (a :: pattern) (w ++ t) = false := by
  induction w with
  | nil => exact ht
  | cons c w ih =>
    rw [List.mem_cons, not_or] at hw
    rw [List.cons_append, occursIn, breakOn_cons_of_none (by rw [after?_cons, if_neg hw.1]),
      Option.isSome_map]
    exact ih hw.2

theorem occursIn_of_breakOn {pattern t before rest : Text} (hne : pattern ≠ [])
    (h : breakOn pattern t = some (before, rest)) : occursIn pattern before = false := by
  have hnil : breakOn pattern [] = none := by
    cases pattern with
    | nil => exact absurd rfl hne
    | cons a pattern => rfl
  induction t generalizing before with
  | nil =>
    rw [hnil] at h
    cases h
  | cons c t ih =>
    cases hafter : after? pattern (c :: t) with
    | some behind =>
      rw [breakOn_of_after? hafter] at h
      cases h
      rw [occursIn, hnil, Option.isSome_none]
    | none =>
      rw [breakOn_cons_of_none hafter, Option.map_eq_some_iff] at h
      obtain ⟨⟨front, r⟩, hfront, hcons⟩ := h
      cases hcons
      have hstart : after? pattern (c :: front) = none := by
        rw [Option.eq_none_iff_forall_ne_some]
        intro x hx
        rw [breakOn_eq_some hfront, List.append_assoc, ← List.cons_append, after?_eq_some.1 hx,
          List.append_assoc, after?_eq_some.2 rfl] at hafter
        cases hafter
      rw [occursIn, breakOn_cons_of_none hstart, Option.isSome_map]
      exact ih hfront

/-- In front of a text with which no part of a pattern goes on, a text that lacks the pattern does
not begin an occurrence. -/
theorem after?_across {pattern w t : Text} (h : occursIn pattern w = false)
    (ht : ∀ a b, pattern = a ++ b → a ≠ [] → b ≠ [] → after? b t = none) {u v : Text}
    (hw : w = u ++ v) (hv : v ≠ []) : after? pattern (v ++ t) = none := by
  rw [Option.eq_none_iff_forall_ne_some]
  intro rest hrest
  have hinside (x : Text) (hx : v = pattern ++ x) : False := by
    rw [hw, hx, ← List.append_assoc, occursIn_append] at h
    cases h
  rcases List.append_eq_append_iff.1 (after?_eq_some.1 hrest) with ⟨b, hpattern, hb⟩ | ⟨x, hx, -⟩
  · cases b with
    | nil => exact hinside [] (by rw [hpattern, List.append_nil, List.append_nil])
    | cons c b =>
      have hnone := ht v (c :: b) hpattern hv (List.cons_ne_nil c b)
      rw [hb, after?_eq_some.2 rfl] at hnone
      cases hnone
  · exact hinside x hx

theorem occursIn_across {pattern w t : Text} (hw : occursIn pattern w = false)
    (ht : ∀ a b, pattern = a ++ b → a ≠ [] → b ≠ [] → after? b t = none)
    (hbehind : occursIn pattern t = false) : occursIn pattern (w ++ t) = false := by
  rw [occursIn_eq_false]
  intro u v huv
  rcases List.append_eq_append_iff.1 huv with ⟨x, -, hv⟩ | ⟨x, hx, hv⟩
  · exact occursIn_eq_false.1 hbehind x v hv
  · cases x with
    | nil => exact occursIn_eq_false.1 hbehind [] v hv.symm
    | cons c x =>
      rw [hv]
      exact after?_across hw ht hx (List.cons_ne_nil c x)

end Playbook.Text
