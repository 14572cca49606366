import Playbook.Proofs.Call.Readers
import Playbook.Proofs.Text.Bytes

/-!
# Reading bytes

Every character that the reader of nested text reacts to is a byte, and the bytes of any other
character pass as that character does. So a text may be read by its characters or by its bytes.

Results:
* `run_octets`: the bytes of a text lead to the state that its characters lead to.
* `breakClose_octets`: the closing parenthesis is found at the same place.
* `body_octets_iff`: a text is a body exactly if its bytes are.
-/
namespace Playbook.Call

open Text (octets octetsOf)

namespace Nesting

/-- An open quote is a byte below 128. It always is: only the three quotes open a string. -/
def QuoteBelow (s : Nesting) : Prop := ∀ q, s.quote = some q → q.toNat < 128

theorem quoteBelow_inside (d : Nat) : (inside d).QuoteBelow := by
  intro q hq
  cases hq

theorem toNat_lt_of_isQuote {c : Char} (h : isQuote c = true) : c.toNat < 128 := by
  simp only [isQuote, Bool.or_eq_true, decide_eq_true_eq] at h
  rcases h with (rfl | rfl) | rfl <;> decide

theorem isQuote_of_role {s : Nesting} {c : Char} (h : s.role c = .quoteOpen) :
    isQuote c = true := by
  unfold role at h
  split at h
  · cases h
  · split at h
    · cases h
    · split at h
      · split at h <;> cases h
      · split at h
        · assumption
        · split at h
          · cases h
          · split at h <;> cases h

theorem QuoteBelow.step {s : Nesting} (hs : s.QuoteBelow) (c : Char) :
    (s.step c).QuoteBelow := by
  unfold Nesting.step
  split
  · exact hs
  · exact hs
  · rename_i hr
    intro q hq
    cases hq
    exact toNat_lt_of_isQuote (isQuote_of_role hr)
  · intro q hq
    cases hq
  · exact hs
  · exact hs
  · exact hs
  · exact hs

theorem isPlain_of_le {c : Char} (h : 128 ≤ c.toNat) : isPlain c = true :=
  isPlain_of_class (p := fun c => decide (128 ≤ c.toNat)) (by decide) (by simpa using h)

theorem step_of_le {s : Nesting} {c : Char} (hs : s.QuoteBelow) (he : s.escaped = false)
    (hc : 128 ≤ c.toNat) : s.step c = s := by
  obtain ⟨depth, quote, escaped⟩ := s
  simp only at he
  subst he
  have hp := isPlain_of_le hc
  cases quote with
  | none => exact step_inside_plain depth hp
  | some q =>
    have hq : c ≠ q := by
      intro h
      have := hs q rfl
      rw [h] at hc
      omega
    exact step_string_char depth hq (isPlain_iff.1 hp).1

theorem run_of_le {s : Nesting} {t : Text} (hs : s.QuoteBelow) (he : s.escaped = false)
    (ht : ∀ c ∈ t, 128 ≤ c.toNat) : s.run t = s := by
  induction t with
  | nil => rfl
  | cons c t ih =>
    rw [run_cons, step_of_le hs he (ht c (by simp))]
    exact ih fun d hd => ht d (by simp [hd])

/-- The first byte of a character takes a pending escape, the others change nothing. -/
theorem run_octetsOf {s : Nesting} (hs : s.QuoteBelow) (c : Char) :
    s.run (octetsOf c) = s.step c := by
  rcases Nat.lt_or_ge c.toNat 128 with hc | hc
  · rw [Text.octetsOf_ascii hc]
    rfl
  · have hm := fun o => Text.le_of_mem_octetsOf (o := o) hc
    cases he : s.escaped with
    | false => rw [run_of_le hs he hm, step_of_le hs he hc]
    | true =>
      obtain ⟨depth, quote, escaped⟩ := s
      simp only at he
      subst he
      obtain ⟨o, os, ho⟩ := List.exists_cons_of_ne_nil (Text.octetsOf_ne_nil c)
      rw [ho, run_cons, step_escaped, step_escaped]
      rw [ho] at hm
      exact run_of_le (s := ⟨depth, quote, false⟩) hs rfl fun d hd => hm d (by simp [hd])

theorem run_octets {s : Nesting} (hs : s.QuoteBelow) (t : Text) :
    s.run (octets t) = s.run t := by
  induction t generalizing s with
  | nil => rfl
  | cons c t ih => rw [Text.octets_cons, run_append, run_octetsOf hs, run_cons, ih (hs.step c)]

end Nesting

theorem quiet_of_all {stop : Nesting → Char → Bool} {t : Text}
    (h : ∀ c ∈ t, ∀ s, stop s c = false) (s : Nesting) : Quiet stop s t := by
  induction t generalizing s with
  | nil => trivial
  | cons c t ih => exact ⟨h c (by simp) s, ih (fun d hd => h d (by simp [hd])) _⟩

theorem breakClose_octets {s : Nesting} (hs : s.QuoteBelow) (t : Text) :
    breakClose s (octets t) =
      (breakClose s t).map fun (inner, rest) => (octets inner, octets rest) := by
  induction t generalizing s with
  | nil => rfl
  | cons c t ih =>
    rcases Nat.lt_or_ge c.toNat 128 with hc | hc
    · rw [Text.octets_cons, Text.octetsOf_ascii hc, List.singleton_append, breakClose, breakClose]
      split
      · split <;> rfl
      · rw [ih (hs.step c), Option.map_map, Option.map_map]
        congr 1
        funext x
        simp [Text.octetsOf_ascii hc]
    · have hnc {o : Char} (ho : 128 ≤ o.toNat) (s : Nesting) : closes s o = false := by
        refine closes_eq_false ?_
        rw [(isPlain_iff.1 (Nesting.isPlain_of_le ho)).2.2.2]
        decide
      have hq : Quiet closes s (octetsOf c) :=
        quiet_of_all (fun o ho => hnc (Text.le_of_mem_octetsOf hc ho)) s
      have hcl := hnc hc s
      rw [closes] at hcl
      rw [Text.octets_cons, breakClose_append hq, Nesting.run_octetsOf hs, ih (hs.step c),
        breakClose, if_neg (by rw [hcl]; decide), Option.map_map, Option.map_map]
      rfl

/-- A text is a body exactly if its bytes are. -/
theorem body_octets_iff {t : Text} : Body (octets t) ↔ Body t := by
  have hb := breakClose_octets (Nesting.quoteBelow_inside 1) (t ++ [')'])
  have ho : octets (t ++ [')']) = octets t ++ [')'] := by
    rw [Text.octets_append]
    rfl
  rw [ho] at hb
  constructor
  · intro h
    rw [breakClose_eq_some_iff.2 ⟨h, rfl⟩] at hb
    obtain ⟨⟨inner, rest⟩, hi, he⟩ := Option.map_eq_some_iff.1 hb.symm
    simp only [Prod.mk.injEq] at he
    obtain ⟨hbody, ht⟩ := breakClose_eq_some_iff.1 hi
    have hr : rest = [] := Text.octets_eq_nil.1 he.2
    subst hr
    rw [List.append_cancel_right ht]
    exact hbody
  · intro h
    rw [breakClose_eq_some_iff.2 ⟨h, rfl⟩] at hb
    exact (breakClose_eq_some_iff.1 hb).1

end Playbook.Call
