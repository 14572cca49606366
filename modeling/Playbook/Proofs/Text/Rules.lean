import Playbook.Proofs.Text.Occurrences
import Playbook.Text.Blank
import Playbook.Text.Rule

/-!
# Where a rule acts

A rule goes through a text from the left. What it does behind an edit is what it does to the text
there, and if it stays within words, that are runs of characters without blanks, it does not matter
what stands on the other side of a blank.

Results:
* `applyFrom_of_edit`: the rule replaces what it finds and goes on behind it.
* `Fits.applyFrom_induction`: induction along what a rule does to a text.
* `occursIn_apply_replacing`: what is written for something that is there is in the text.
* `InWord.apply_blank`: a rule that stays within words acts apart on both sides of a blank.
-/
namespace Playbook

namespace Text

/-- A character that `lead` does not hold does not matter for what starts with `lead`. -/
theorem after?_append_cons {lead : Text} {c : Char} (h : c ∉ lead) (u v : Text) :
    after? lead (u ++ c :: v) = (after? lead u).map (· ++ c :: v) := by
  induction lead generalizing u with
  | nil => rfl
  | cons a lead ih =>
    rw [List.mem_cons, not_or] at h
    cases u with
    | nil => exact (after?_cons ..).trans (if_neg (Ne.symm h.1))
    | cons d u =>
      rw [List.cons_append, after?_cons, after?_cons]
      split
      · exact ih h.2 u
      · rfl

theorem startsWith_append_cons {lead : Text} {c : Char} (h : c ∉ lead) (u v : Text) :
    startsWith lead (u ++ c :: v) = startsWith lead u := by
  rw [startsWith_eq, startsWith_eq, after?_append_cons h, Option.isSome_map]

theorem strip_append_cons {lead : Text} {c : Char} (h : c ∉ lead) (u v : Text) :
    strip lead (u ++ c :: v) = strip lead u ++ c :: v := by
  unfold strip
  rw [after?_append_cons h]
  cases after? lead u with
  | none => rfl
  | some rest => rfl

theorem strip_append (lead rest : Text) : strip lead (lead ++ rest) = rest := by
  rw [strip, after?_eq_some.2 rfl, Option.getD_some]

theorem span_append_cons {p : Char → Bool} {c : Char} (h : p c = false) (u v : Text) :
    (u ++ c :: v).takeWhile p = u.takeWhile p ∧
      (u ++ c :: v).dropWhile p = u.dropWhile p ++ c :: v := by
  induction u with
  | nil => simp [h]
  | cons d u ih =>
    rw [List.cons_append]
    cases hd : p d with
    | true => simp [hd, ih]
    | false => simp [hd]

end Text

/-! ## Rules within words -/

namespace Rule

/-- The rule does not look at what stands before a position, nor at a blank or behind it. -/
structure InWord (rule : Rule) : Prop where
  forgets : ∀ before rest, rule before rest = rule [] rest
  idle : rule [] [] = none
  stops : ∀ (u v : Text) (c : Char), Text.isBlank c = true → rule [] (u ++ c :: v) = rule [] u
  width_le : ∀ rest edit, rule [] rest = some edit → edit.width ≤ rest.length

section
variable {rule : Rule} (h : InWord rule)
include h

theorem InWord.applyFrom_before (skip : Nat) (before t : Text) :
    applyFrom rule skip before t = applyFrom rule skip [] t := by
  induction t generalizing skip before with
  | nil => rfl
  | cons c t ih =>
    cases skip with
    | succ skip => rw [applyFrom, applyFrom, ih, ih skip [c]]
    | zero =>
      rw [applyFrom, applyFrom, h.forgets before]
      cases rule [] (c :: t) with
      | none => exact congrArg (c :: ·) (by rw [ih, ih 0 [c]])
      | some edit => exact congrArg (edit.text ++ ·) (by rw [ih, ih _ [c]])

theorem InWord.applyFrom_blank {c : Char} (hc : Text.isBlank c = true) (v : Text) {skip : Nat}
    {u : Text} (hskip : skip ≤ u.length) (before : Text) :
    applyFrom rule skip before (u ++ c :: v) =
      applyFrom rule skip before u ++ c :: rule.apply v := by
  induction u generalizing skip before with
  | nil =>
    obtain rfl : skip = 0 := Nat.le_zero.1 hskip
    have hnone : rule before (c :: v) = none := by
      rw [h.forgets, ← h.idle]
      exact h.stops [] v c hc
    simp only [List.nil_append, applyFrom, hnone]
    exact congrArg (c :: ·) (h.applyFrom_before 0 (c :: before) v)
  | cons d u ih =>
    rw [List.cons_append]
    cases skip with
    | succ skip => exact ih (Nat.le_of_succ_le_succ hskip) _
    | zero =>
      have hsame : rule before (d :: (u ++ c :: v)) = rule before (d :: u) := by
        rw [h.forgets, h.forgets before (d :: u)]
        exact h.stops (d :: u) v c hc
      rw [applyFrom, applyFrom, hsame]
      cases hr : rule before (d :: u) with
      | none => exact congrArg (d :: ·) (ih (Nat.zero_le _) _)
      | some edit =>
        -- the edit ends before the blank
        have hwidth : edit.width ≤ u.length + 1 := by
          rw [h.forgets] at hr
          exact h.width_le _ _ hr
        simp only [List.append_assoc]
        exact congrArg (edit.text ++ ·) (ih (Nat.sub_le_of_le_add hwidth) _)

/-- A rule that stays within words acts apart on both sides of a blank. -/
theorem InWord.apply_blank {c : Char} (hc : Text.isBlank c = true) (u v : Text) :
    rule.apply (u ++ c :: v) = rule.apply u ++ c :: rule.apply v :=
  h.applyFrom_blank hc v (Nat.zero_le _) []

end

theorem replacing_eq_some {found written before rest : Text} {edit : Edit} :
    replacing found written before rest = some edit ↔
      edit = ⟨found.length, written⟩ ∧ ∃ behind, rest = found ++ behind := by
  rw [replacing, Text.startsWith_eq]
  cases hafter : Text.after? found rest with
  | none => simp [← Text.after?_eq_some, hafter]
  | some behind => simp [← Text.after?_eq_some, hafter, eq_comm]

theorem replacing_eq_none {found written before rest : Text} :
    replacing found written before rest = none ↔ Text.after? found rest = none := by
  rw [replacing, Text.startsWith_eq]
  cases Text.after? found rest <;> simp

theorem inWord_replacing {found : Text} (hne : found ≠ [])
    (h : found.any Text.isBlank = false) (written : Text) :
    InWord (replacing found written) where
  forgets _ _ := rfl
  idle := by
    cases found with
    | nil => exact absurd rfl hne
    | cons a found => rfl
  stops u v c hc := by
    have hmem : c ∉ found := fun hmem => List.any_eq_false.1 h c hmem hc
    unfold replacing
    rw [Text.startsWith_append_cons hmem]
  width_le rest edit he := by
    obtain ⟨rfl, behind, rfl⟩ := replacing_eq_some.1 he
    rw [List.length_append]
    exact Nat.le_add_right _ _

/-! ## Edits -/

theorem applyFrom_skip (rule : Rule) (before u t : Text) :
    applyFrom rule u.length before (u ++ t) = applyFrom rule 0 (u.reverse ++ before) t := by
  induction u generalizing before with
  | nil => rfl
  | cons c u ih =>
    rw [List.reverse_cons, List.append_assoc, List.singleton_append]
    exact ih (c :: before)

/-- A part of the text in which the rule acts nowhere is kept. -/
theorem applyFrom_append {rule : Rule} {w before t : Text}
    (h : ∀ u v, w = u ++ v → v ≠ [] → rule (u.reverse ++ before) (v ++ t) = none) :
    applyFrom rule 0 before (w ++ t) = w ++ applyFrom rule 0 (w.reverse ++ before) t := by
  induction w generalizing before with
  | nil => rfl
  | cons c w ih =>
    have hhere : rule before (c :: (w ++ t)) = none := h [] (c :: w) rfl (List.cons_ne_nil c w)
    simp only [List.cons_append, applyFrom, hhere]
    rw [ih, List.reverse_cons, List.append_assoc, List.singleton_append]
    intro u v huv hv
    have hnone := h (c :: u) v (by rw [huv, List.cons_append]) hv
    rwa [List.reverse_cons, List.append_assoc, List.singleton_append] at hnone

/-- What stands at a position where the rule acts is replaced, and the rule goes on behind it. -/
theorem applyFrom_of_edit {rule : Rule} {before found t written : Text} (hne : found ≠ [])
    (h : rule before (found ++ t) = some ⟨found.length, written⟩) :
    applyFrom rule 0 before (found ++ t) =
      written ++ applyFrom rule 0 (found.reverse ++ before) t := by
  cases found with
  | nil => exact absurd rfl hne
  | cons c found =>
    rw [List.cons_append] at h
    simp only [List.cons_append, applyFrom, h, List.length_cons, Nat.add_sub_cancel]
    rw [applyFrom_skip, List.reverse_cons, List.append_assoc, List.singleton_append]

/-- What the rule replaces stands at the position. -/
def Fits (rule : Rule) : Prop :=
  ∀ before rest edit, rule before rest = some edit →
    ∃ found behind, rest = found ++ behind ∧ found ≠ [] ∧ edit.width = found.length

/-- Applying a rule goes from character to character, or from one edit to what is behind it. -/
theorem Fits.applyFrom_induction {rule : Rule} (h : rule.Fits)
    {motive : (before t t' : Text) → Prop} (done : ∀ before, motive before [] [])
    (keep : ∀ before c t t', rule before (c :: t) = none → motive (c :: before) t t' →
      motive before (c :: t) (c :: t'))
    (edit : ∀ before found written t t', rule before (found ++ t) = some ⟨found.length, written⟩ →
      found ≠ [] → motive (found.reverse ++ before) t t' →
      motive before (found ++ t) (written ++ t')) (before t : Text) :
    motive before t (applyFrom rule 0 before t) := by
  induction hn : t.length using Nat.strongRecOn generalizing before t with
  | ind n ih =>
    cases t with
    | nil => exact done before
    | cons c t =>
      cases hr : rule before (c :: t) with
      | none =>
        simp only [applyFrom, hr]
        rw [List.length_cons] at hn
        exact keep before c t _ hr (ih t.length (by omega) _ t rfl)
      | some e =>
        obtain ⟨found, behind, hrest, hne, hwidth⟩ := h before (c :: t) e hr
        have hpos := List.length_pos_iff.2 hne
        have hedit : rule before (found ++ behind) = some ⟨found.length, e.text⟩ := by
          rw [← hrest, hr, ← hwidth]
        rw [hrest, List.length_append] at hn
        rw [hrest, applyFrom_of_edit hne hedit]
        exact edit before found e.text behind _ hedit hne (ih behind.length (by omega) _ behind rfl)

theorem fits_replacing {found : Text} (hne : found ≠ []) (written : Text) :
    (replacing found written).Fits := by
  intro before rest edit h
  obtain ⟨rfl, behind, hrest⟩ := replacing_eq_some.1 h
  exact ⟨found, behind, hrest, hne, rfl⟩

theorem occursIn_apply_replacing {found written t : Text} (hne : found ≠ [])
    (h : Text.occursIn found t = true) :
    Text.occursIn written ((replacing found written).apply t) = true := by
  refine (fits_replacing hne written).applyFrom_induction (motive := fun _ t t' =>
    Text.occursIn found t = true → Text.occursIn written t' = true) ?_ ?_ ?_ [] t h
  · intro _ h
    obtain ⟨u, v, huv⟩ := Text.occursIn_eq_true.1 h
    have hfound := (List.append_eq_nil_iff.1 (List.append_eq_nil_iff.1 huv.symm).2).1
    exact absurd hfound hne
  · intro _ c t t' hnone ih h
    have hafter := replacing_eq_none.1 hnone
    rw [Text.occursIn, Text.breakOn_cons_of_none hafter, Option.isSome_map] at h
    obtain ⟨u, v, rfl⟩ := Text.occursIn_eq_true.1 (ih h)
    exact Text.occursIn_eq_true.2 ⟨c :: u, v, rfl⟩
  · intro _ old new t t' hedit _ _ _
    have hnew : new = written := (Edit.mk.inj (replacing_eq_some.1 hedit).1).2
    exact Text.occursIn_eq_true.2 ⟨[], t', by rw [hnew, List.nil_append]⟩

theorem apply_of_edit {rule : Rule} {t written : Text} (hne : t ≠ [])
    (h : rule [] t = some ⟨t.length, written⟩) : rule.apply t = written := by
  have hall := applyFrom_of_edit (t := []) hne (by rwa [List.append_nil])
  rwa [List.append_nil, applyFrom, List.append_nil] at hall

end Rule

end Playbook
