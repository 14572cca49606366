import Playbook.Invocation
import Playbook.Proofs.Section.Grammar
import Playbook.Proofs.Text.Upper

/-!
# Agents named like a phase

A title is written from a name character by character: a dash becomes a blank, the first letter of
each word its upper case, and all else stays. Digits, blanks and signs are the same before and
after, so from a title one can tell what the name was, up to dashes and the case of first letters:
the names whose titles read as the heading of a phase are `phase-1-setup` and its like.

Results:
* `titleCase_eq`: title case, character by character.
* `titled_append`, `exists_of_titled`: the parts of a title without letters are those of its name.
* `isSome_ofLine?_titleCase`: which titles read as the heading of a phase.
-/
namespace Playbook.Invocation

open Text (upper IsCased)

/-! ## Titles, character by character -/

/-- A name as a title, where `opens` says whether a word starts. -/
def titled : (opens : Bool) → Text → Text
  | _, [] => []
  | opens, c :: t =>
    if c = '-' then ' ' :: titled true t
    else (if opens then upper c else [c]) ++ titled false t

theorem titled_dash (opens : Bool) (t : Text) :
    titled opens ('-' :: t) = ' ' :: titled true t := rfl

theorem titled_cons {c : Char} (h : c ≠ '-') (opens : Bool) (t : Text) :
    titled opens (c :: t) = (if opens then upper c else [c]) ++ titled false t := by
  rw [titled, if_neg h]

/-- Within a word a title goes on as its name does. -/
theorem titled_word {word : Text} (h : '-' ∉ word) (t : Text) :
    titled false (word ++ t) = word ++ titled false t := by
  induction word with
  | nil => rfl
  | cons c word ih =>
    rw [List.mem_cons, not_or] at h
    rw [List.cons_append, titled_cons (Ne.symm h.1), ih h.2]
    rfl

/-- A word as part of a title. -/
def capitalized : Text → Text
  | [] => []
  | c :: word => upper c ++ word

theorem titled_capitalized {word : Text} (h : '-' ∉ word) {t : Text}
    (ht : t = [] ∨ t.head? = some '-') :
    titled true (word ++ t) = capitalized word ++ titled false t := by
  cases word with
  | nil =>
    rcases ht with rfl | ht
    · rfl
    · obtain ⟨rest, rfl⟩ := List.head?_eq_some_iff.1 ht
      rfl
  | cons c word =>
    rw [List.mem_cons, not_or] at h
    rw [List.cons_append, titled_cons (Ne.symm h.1), titled_word h.2, if_pos rfl, capitalized,
      List.append_assoc]

/-- Title case, character by character. -/
theorem titleCase_eq (name : Text) : titleCase name = titled true name := by
  have hwords (t : Text) :
      titleCase t = ([' '] : Text).intercalate ((Text.fields '-' t).map capitalized) := rfl
  by_cases h : '-' ∈ name
  · obtain ⟨word, rest, hname, hword⟩ := List.eq_append_cons_of_mem h
    obtain ⟨first, others, hrest⟩ :=
      List.exists_cons_of_ne_nil (Text.fields_ne_nil '-' rest)
    have ih := titleCase_eq rest
    rw [hwords, hrest, List.map_cons] at ih
    rw [hwords, hname, Text.fields_append_cons hword, hrest, List.map_cons, List.map_cons,
      List.intercalate_cons_cons, ih, titled_capitalized hword (Or.inr rfl), titled_dash,
      List.append_assoc]
    rfl
  · have hword := titled_capitalized h (Or.inl rfl)
    rw [List.append_nil] at hword
    rw [hwords, Text.fields_of_not_mem h, List.map_singleton, List.intercalate_singleton, hword]
    exact (List.append_nil _).symm
termination_by name.length
decreasing_by simp [hname]; omega

/-- The name with blanks for its dashes. -/
def spaced (t : Text) : Text := t.map fun c => if c = '-' then ' ' else c

theorem spaced_cons {c : Char} (h : c ≠ '-') (t : Text) : spaced (c :: t) = c :: spaced t := by
  rw [spaced, List.map_cons, if_neg h]
  rfl

theorem spaced_eq_self {t : Text} (h : '-' ∉ t) : spaced t = t := by
  induction t with
  | nil => rfl
  | cons c t ih =>
    rw [List.mem_cons, not_or] at h
    rw [spaced_cons (Ne.symm h.1), ih h.2]

theorem eq_of_spaced {t u : Text} (h : spaced t = u) (hu : ' ' ∉ u) : t = u := by
  rw [← h, spaced_eq_self]
  intro hdash
  rw [← h] at hu
  exact hu (List.mem_map.2 ⟨'-', hdash, rfl⟩)

theorem titled_append {front : Text} (h : ∀ c ∈ front, ¬ IsCased c) (opens : Bool) :
    ∃ opens', ∀ t, titled opens (front ++ t) = spaced front ++ titled opens' t := by
  induction front generalizing opens with
  | nil => exact ⟨opens, fun t => rfl⟩
  | cons c front ih =>
    have hfront := fun d hd => h d (List.mem_cons_of_mem c hd)
    by_cases hc : c = '-'
    · subst hc
      obtain ⟨opens', hbehind⟩ := ih hfront true
      refine ⟨opens', fun t => ?_⟩
      rw [List.cons_append, titled_dash, hbehind]
      rfl
    · obtain ⟨opens', hbehind⟩ := ih hfront false
      refine ⟨opens', fun t => ?_⟩
      rw [List.cons_append, titled_cons hc, Text.upper_of_not_isCased (h c List.mem_cons_self),
        ite_self, hbehind, spaced_cons hc]
      rfl

/-- A first character of a title that is no letter is that of the name. -/
theorem eq_of_titled_cons {opens : Bool} {c d : Char} {t rest : Text} (hc : c ≠ '-')
    (hd : ¬ IsCased d) (h : titled opens (c :: t) = d :: rest) : c = d ∧ titled false t = rest := by
  have hstays : (if opens then upper c else [c]) = [c] := by
    rcases Text.upper_cases c with hupper | ⟨-, hne, hcased⟩
    · rw [hupper, ite_self]
    · cases opens with
      | false => rfl
      | true =>
        -- a letter in upper case is a letter, and `d` is none
        obtain ⟨e, tail, hupper⟩ := List.exists_cons_of_ne_nil hne
        rw [titled_cons hc, if_pos rfl, hupper, List.cons_append, List.cons.injEq] at h
        refine absurd (hcased e ?_) (h.1 ▸ hd)
        rw [hupper]
        exact List.mem_cons_self
  rwa [titled_cons hc, hstays, List.singleton_append, List.cons.injEq] at h

theorem exists_of_titled {front rest t : Text} {opens : Bool} (h : ∀ c ∈ front, ¬ IsCased c)
    (ht : titled opens t = front ++ rest) :
    ∃ u v opens', t = u ++ v ∧ spaced u = front ∧ titled opens' v = rest := by
  induction front generalizing opens t with
  | nil => exact ⟨[], t, opens, rfl, rfl, ht⟩
  | cons d front ih =>
    have hfront := fun e he => h e (List.mem_cons_of_mem d he)
    cases t with
    | nil => cases ht
    | cons c t =>
      by_cases hc : c = '-'
      · subst hc
        rw [titled_dash, List.cons_append, List.cons.injEq] at ht
        obtain ⟨rfl, ht⟩ := ht
        obtain ⟨u, v, opens', rfl, rfl, hv⟩ := ih hfront ht
        exact ⟨'-' :: u, v, opens', rfl, rfl, hv⟩
      · obtain ⟨rfl, hbehind⟩ := eq_of_titled_cons hc (h d List.mem_cons_self) ht
        obtain ⟨u, v, opens', rfl, rfl, hv⟩ := ih hfront hbehind
        exact ⟨c :: u, v, opens', rfl, spaced_cons hc u, hv⟩

theorem exists_of_titled_word {word t rest : Text} (hword : ' ' ∉ word)
    (ht : titled false t = word ++ rest) : ∃ v, t = word ++ v ∧ titled false v = rest := by
  induction word generalizing t with
  | nil => exact ⟨t, rfl, ht⟩
  | cons d word ih =>
    rw [List.mem_cons, not_or] at hword
    cases t with
    | nil => cases ht
    | cons c t =>
      by_cases hc : c = '-'
      · subst hc
        rw [titled_dash, List.cons_append, List.cons.injEq] at ht
        exact absurd ht.1 hword.1
      · rw [titled_cons hc, if_neg Bool.false_ne_true, List.singleton_append, List.cons_append,
          List.cons.injEq] at ht
        obtain ⟨rfl, ht⟩ := ht
        obtain ⟨v, rfl, hv⟩ := ih hword.2 ht
        exact ⟨v, rfl, hv⟩

theorem line_feed_not_mem_titled {t : Text} (h : '\n' ∉ t) (opens : Bool) :
    '\n' ∉ titled opens t := by
  induction t generalizing opens with
  | nil => exact List.not_mem_nil
  | cons c t ih =>
    rw [List.mem_cons, not_or] at h
    by_cases hc : c = '-'
    · rw [hc, titled_dash, List.mem_cons, not_or]
      exact ⟨by decide, ih h.2 true⟩
    · rw [titled_cons hc, List.mem_append, not_or]
      refine ⟨fun hmem => ?_, ih h.2 false⟩
      cases opens with
      | false => exact h.1 (List.mem_singleton.1 hmem)
      | true =>
        rw [if_pos rfl] at hmem
        rcases Text.upper_cases c with hupper | ⟨-, -, hcased⟩
        · rw [hupper] at hmem
          exact h.1 (List.mem_singleton.1 hmem)
        · exact absurd (hcased _ hmem) (by decide)

/-! ## Names of phases -/

/-- The word that names a phase, without its first letter. -/
def phaseTail : Text := "hase"

/-- Names such as `phase-1-setup` or `Phase 2.1: Build`: the word, an ordinal and a title, where a
dash counts as a blank. -/
def IsPhaseName (name : Text) : Prop :=
  ∃ p s ordinal gap title, name = p :: (phaseTail ++ s :: (ordinal ++ (gap ++ title))) ∧
    (p = 'p' ∨ p = 'P') ∧ (s = '-' ∨ s = ' ') ∧ Heading.Ordinal ordinal ∧
    Heading.Gap (spaced gap) ∧ Heading.Title (spaced title)

/-- Whether a title starts with a blank depends on no case. -/
theorem title_titled {opens : Bool} {t : Text} :
    Heading.Title (titled opens t) ↔ Heading.Title (spaced t) := by
  cases t with
  | nil => rfl
  | cons c t =>
    by_cases hc : c = '-'
    · subst hc
      exact Iff.rfl
    · rw [titled_cons hc, spaced_cons hc]
      rcases Text.upper_cases c with hupper | ⟨hcased, hne, hupper⟩
      · rw [hupper, ite_self]
        rfl
      · have hnot {d : Char} (hd : IsCased d) : Text.isBlank d = false := by
          rw [Bool.eq_false_iff]
          exact fun hblank => Text.not_isCased_of_isBlank hblank hd
        obtain ⟨d, tail, htail⟩ := List.exists_cons_of_ne_nil hne
        have hd := hnot (hupper d (htail ▸ List.mem_cons_self))
        cases opens with
        | false => rfl
        | true => simp [Heading.Title, htail, hd, hnot hcased]

theorem isCased_spaced {t : Text} :
    (∀ c ∈ spaced t, ¬ IsCased c) ↔ ∀ c ∈ t, ¬ IsCased c := by
  have hchar (c : Char) : IsCased (if c = '-' then ' ' else c) ↔ IsCased c := by
    split
    · rename_i hc
      rw [hc]
      decide
    · rfl
  rw [spaced, List.forall_mem_map]
  exact forall₂_congr fun c _ => not_congr (hchar c)

theorem not_isCased_of_mem {ordinal gap : Text} (hordinal : Heading.Ordinal ordinal)
    (hgap : Heading.Gap gap) : ∀ c ∈ ' ' :: (ordinal ++ gap), ¬ IsCased c := by
  have hblank {c : Char} (hc : Heading.isGap c = true) : ¬ IsCased c :=
    Text.not_isCased_of_isBlank (Heading.isBlank_of_isGap hc)
  intro c hc
  rw [List.mem_cons, List.mem_append] at hc
  rcases hc with rfl | hc | hc
  · decide
  · have hchar := hordinal.isOrdinalChar hc
    rw [Heading.isOrdinalChar, Bool.or_eq_true, decide_eq_true_eq] at hchar
    rcases hchar with hdigit | rfl
    · exact Text.not_isCased_of_isDigit hdigit
    · decide
  · obtain ⟨blanks, hblanks, rfl | ⟨rfl, -⟩⟩ := hgap
    · rcases List.mem_cons.1 hc with rfl | hc
      · decide
      · exact hblank (hblanks c hc)
    · exact hblank (hblanks c hc)

/-- A blank, an ordinal and a gap are read from the same with dashes for some of the blanks. -/
theorem spaced_eq_iff {u ordinal gap : Text} (h : Heading.Ordinal ordinal) :
    spaced u = ' ' :: (ordinal ++ gap) ↔
      ∃ s g, u = s :: (ordinal ++ g) ∧ (s = '-' ∨ s = ' ') ∧ spaced g = gap := by
  have hspace : ' ' ∉ ordinal := fun hmem => absurd (h.isOrdinalChar hmem) (by decide)
  have hdash : '-' ∉ ordinal := fun hmem => absurd (h.isOrdinalChar hmem) (by decide)
  constructor
  · intro hu
    obtain ⟨s, w, rfl, hs, hw⟩ := List.map_eq_cons_iff.1 hu
    obtain ⟨o, g, rfl, ho, hg⟩ := List.map_eq_append_iff.1 hw
    refine ⟨s, g, ?_, ?_, hg⟩
    · rw [eq_of_spaced ho hspace]
    · by_cases hsep : s = '-'
      · exact Or.inl hsep
      · rw [if_neg hsep] at hs
        exact Or.inr hs
  · rintro ⟨s, g, rfl, rfl | rfl, rfl⟩
    all_goals
      rw [spaced, List.map_cons, List.map_append, ← spaced, ← spaced, spaced_eq_self hdash]
      rfl

/-- A title that starts with `Phase` is that of a name that starts so, up to the case of its first
letter. -/
theorem exists_of_titled_phase {name rest : Text}
    (h : titled true name = 'P' :: (phaseTail ++ rest)) :
    ∃ p behind, name = p :: (phaseTail ++ behind) ∧ (p = 'p' ∨ p = 'P') ∧
      titled false behind = rest := by
  cases name with
  | nil => cases h
  | cons c t =>
    by_cases hc : c = '-'
    · subst hc
      cases h
    · obtain ⟨d, tail, hupper⟩ := List.exists_cons_of_ne_nil (Text.upper_ne_nil c)
      rw [titled_cons hc, if_pos rfl, hupper, List.cons_append, List.cons.injEq] at h
      obtain ⟨rfl, h⟩ := h
      obtain ⟨hp, rfl⟩ := Text.upper_eq_P hupper
      obtain ⟨behind, rfl, hbehind⟩ := exists_of_titled_word (by decide) h
      exact ⟨c, behind, rfl, hp, hbehind⟩

theorem titled_phase {p : Char} (hp : p = 'p' ∨ p = 'P') (t : Text) :
    titled true (p :: (phaseTail ++ t)) = 'P' :: (phaseTail ++ titled false t) := by
  have hword := titled_word (by decide : '-' ∉ phaseTail) t
  rcases hp with rfl | rfl
  all_goals
    rw [titled_cons (by decide), hword]
    rfl

/-- Which titles read as the heading of a phase. -/
theorem isSome_ofLine?_titleCase {name : Text} :
    (Heading.ofLine? ("## " ++ titleCase name)).isSome = true ↔ IsPhaseName name := by
  have hlead (ordinal gap title : Text) : Heading.lead ++ ordinal ++ gap ++ title =
      "## " ++ ('P' :: (phaseTail ++ ((' ' :: (ordinal ++ gap)) ++ title))) := by
    rw [List.append_assoc, List.append_assoc, List.cons_append, List.append_assoc]
    rfl
  rw [titleCase_eq, Option.isSome_iff_exists]
  constructor
  · intro h
    obtain ⟨⟨ordinal, _⟩, hheading⟩ := h
    obtain ⟨gap, title, ⟨hline, hordinal, hgap, htitle⟩, -⟩ :=
      Heading.ofLine?_eq_some_iff.1 hheading
    rw [hlead] at hline
    obtain ⟨p, behind, rfl, hp, hbehind⟩ := exists_of_titled_phase (List.append_cancel_left hline)
    obtain ⟨u, name, opens, rfl, hu, rfl⟩ :=
      exists_of_titled (not_isCased_of_mem hordinal hgap) hbehind
    obtain ⟨s, g, rfl, hs, rfl⟩ := (spaced_eq_iff hordinal).1 hu
    refine ⟨p, s, ordinal, g, name, ?_, hp, hs, hordinal, hgap, title_titled.1 htitle⟩
    rw [List.cons_append, List.append_assoc]
  · intro h
    obtain ⟨p, s, ordinal, gap, title, rfl, hp, hs, hordinal, hgap, htitle⟩ := h
    have hu : spaced (s :: (ordinal ++ gap)) = ' ' :: (ordinal ++ spaced gap) :=
      (spaced_eq_iff hordinal).2 ⟨s, gap, rfl, hs, rfl⟩
    have hfront := not_isCased_of_mem hordinal hgap
    rw [← hu, isCased_spaced] at hfront
    obtain ⟨opens, htitled⟩ := titled_append hfront false
    have hline : titled true (p :: (phaseTail ++ s :: (ordinal ++ (gap ++ title)))) =
        'P' :: (phaseTail ++ ((' ' :: (ordinal ++ spaced gap)) ++ titled opens title)) := by
      rw [titled_phase hp, ← hu, ← htitled, List.cons_append, List.append_assoc]
    have hheading : Heading.Line
        ("## " ++ titled true (p :: (phaseTail ++ s :: (ordinal ++ (gap ++ title)))))
        ordinal (spaced gap) (titled opens title) :=
      ⟨by rw [hlead, hline], hordinal, hgap, title_titled.2 htitle⟩
    exact ⟨_, hheading.ofLine?⟩

end Playbook.Invocation
