import Playbook.Text.Basic

/-!
# Editing rules

A rule looks at one position of a text, with the characters before it (the nearest first) and
the characters after it, and may replace the next few characters. Applying a rule goes through
the text once, from the left: where the rule acts, the search goes on behind what it replaced,
so the replaced parts do not overlap and what is written is not looked at again.

Results:
* `apply_of_inert`: a rule that acts nowhere changes nothing.
-/
namespace Playbook

/-- Replace the next `width` characters, at least one, by `text`. -/
structure Edit where
  width : Nat
  text : Text

/-- What to do at a position, given the text before it, reversed, and the text after it. -/
abbrev Rule := (before : Text) → (rest : Text) → Option Edit

namespace Rule

/-- The text after `rule` has acted, where the first `skip` characters are already replaced. -/
def applyFrom (rule : Rule) : (skip : Nat) → (before : Text) → Text → Text
  | _, _, [] => []
  | skip + 1, before, c :: t => applyFrom rule skip (c :: before) t
  | 0, before, c :: t =>
    match rule before (c :: t) with
    | some edit => edit.text ++ applyFrom rule (edit.width - 1) (c :: before) t
    | none => c :: applyFrom rule 0 (c :: before) t

def apply (rule : Rule) (t : Text) : Text := applyFrom rule 0 [] t

theorem applyFrom_of_inert {rule : Rule} (t before : Text)
    (h : ∀ u v, before.reverse ++ t = u ++ v → before.length ≤ u.length → v ≠ [] →
      rule u.reverse v = none) :
    applyFrom rule 0 before t = t := by
  induction t generalizing before with
  | nil => rfl
  | cons c t ih =>
    have hc : rule before (c :: t) = none := by
      simpa using h before.reverse (c :: t) rfl (by simp) (by simp)
    simp only [applyFrom, hc]
    rw [ih (c :: before)]
    intro u v huv hlen hv
    exact h u v (by simpa using huv) (by simp at hlen; omega) hv

theorem apply_of_inert {rule : Rule} {t : Text}
    (h : ∀ u v, t = u ++ v → v ≠ [] → rule u.reverse v = none) : rule.apply t = t :=
  applyFrom_of_inert t [] fun u v huv _ hv => h u v huv hv

/-- Replace every occurrence of a fixed text. -/
def replacing (found written : Text) : Rule := fun _ rest =>
  if Text.startsWith found rest then some ⟨found.length, written⟩ else none

theorem eq_of_replacing {found written before rest : Text} {edit : Edit}
    (h : replacing found written before rest = some edit) : ∃ after, rest = found ++ after := by
  unfold replacing at h
  split at h
  · rename_i hs
    exact Text.startsWith_iff.1 hs
  · simp at h

end Rule

end Playbook
