import Playbook.Text.Basic

/-!
# The first match

A search looks at a text from one of its places on and may find something there. Before the first
place where it does, a text is free of it, and it breaks there in one way.

Results:
* `free_breakAt`, `breakAt_stops`: what a text is broken into.
* `breakAt_eq`: a text breaks in one way at the first match.
* `first_induction`: induction from one first match to what is behind it.
-/
namespace Playbook.Text

variable {α : Type}

/-- The search matches nowhere within `u`, when `v` stands behind it. -/
def Free (find : Text → Option α) (u v : Text) : Prop :=
  ∀ a b, u = a ++ b → b ≠ [] → find (b ++ v) = none

theorem free_nil (find : Text → Option α) (v : Text) : Free find [] v := by
  intro a b hab hb
  exact absurd (List.append_eq_nil_iff.1 hab.symm).2 hb

theorem free_cons {find : Text → Option α} {c : Char} {u v : Text} :
    Free find (c :: u) v ↔ find (c :: (u ++ v)) = none ∧ Free find u v := by
  constructor
  · intro h
    refine ⟨h [] (c :: u) rfl (List.cons_ne_nil c u), fun a b hab hb => ?_⟩
    exact h (c :: a) b (by rw [hab, List.cons_append]) hb
  · rintro ⟨hhere, h⟩ a b hab hb
    cases a with
    | nil =>
      rw [List.nil_append] at hab
      rw [← hab]
      exact hhere
    | cons d a =>
      rw [List.cons_append, List.cons.injEq] at hab
      exact h a b hab.2 hb

/-- The text up to the first match of a search, and from there on. -/
def breakAt (find : Text → Option α) : Text → Text × Text
  | [] => ([], [])
  | c :: t =>
    if (find (c :: t)).isSome then ([], c :: t)
    else (c :: (breakAt find t).1, (breakAt find t).2)

theorem append_breakAt (find : Text → Option α) (t : Text) :
    (breakAt find t).1 ++ (breakAt find t).2 = t := by
  induction t with
  | nil => rfl
  | cons c t ih =>
    unfold breakAt
    split
    · rfl
    · rw [List.cons_append, ih]

theorem free_breakAt (find : Text → Option α) (t : Text) :
    Free find (breakAt find t).1 (breakAt find t).2 := by
  induction t with
  | nil => exact free_nil find []
  | cons c t ih =>
    unfold breakAt
    split
    · exact free_nil find (c :: t)
    · rename_i h
      rw [free_cons, append_breakAt]
      exact ⟨by simpa using h, ih⟩

theorem breakAt_stops (find : Text → Option α) (t : Text) :
    (breakAt find t).2 = [] ∨ find (breakAt find t).2 ≠ none := by
  induction t with
  | nil => exact Or.inl rfl
  | cons c t ih =>
    unfold breakAt
    split
    · rename_i h
      exact Or.inr (by simpa [Option.isSome_iff_ne_none] using h)
    · exact ih

/-- A text breaks in one way at the first match. -/
theorem breakAt_eq {find : Text → Option α} {u v : Text} (hfree : Free find u v)
    (hstop : v = [] ∨ find v ≠ none) : breakAt find (u ++ v) = (u, v) := by
  induction u with
  | nil =>
    rw [List.nil_append]
    cases v with
    | nil => rfl
    | cons c v =>
      have hmatch := hstop.resolve_left (List.cons_ne_nil c v)
      rw [breakAt, if_pos (Option.isSome_iff_ne_none.2 hmatch)]
  | cons c u ih =>
    obtain ⟨hnone, hfree⟩ := free_cons.1 hfree
    rw [List.cons_append, breakAt, hnone, ih hfree]
    rfl

/-- A text has no match, or it goes on from the first one, where what holds of all shorter texts
may be used. -/
@[elab_as_elim]
theorem first_induction (find : Text → Option α) {motive : Text → Prop}
    (none : ∀ t, Free find t [] → motive t)
    (first : ∀ u v a, Free find u v → find v = some a → (∀ w, w.length < v.length → motive w) →
      motive (u ++ v)) (t : Text) : motive t := by
  induction hn : t.length using Nat.strongRecOn generalizing t with
  | ind n ih =>
    have ht := append_breakAt find t
    have hfree := free_breakAt find t
    rcases breakAt_stops find t with hnil | hmatch
    · rw [hnil, List.append_nil] at ht
      rw [hnil, ht] at hfree
      exact none t hfree
    · obtain ⟨a, ha⟩ := Option.ne_none_iff_exists'.1 hmatch
      have hlength := congrArg List.length ht
      rw [List.length_append] at hlength
      rw [← ht]
      exact first _ _ a hfree ha fun w hw => ih w.length (by omega) w rfl

end Playbook.Text
