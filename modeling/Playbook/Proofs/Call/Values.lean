import Playbook.Proofs.Call.Body

/-!
# Spelling values

A `Spelling` is a way to write an argument's value: a text in quotes of a kind, a path of
identifiers, or any other expression as it stands. `Spelling.print` writes it, `Value.parse`
reads it.

Results:
* `literal?_eq_some_iff`: what is taken for one string literal.
* `isIdentifierPath_iff`: what is taken for a path.
* `unescape_escape`: the content of a string is read back.
* `parse_print`: a value is read back, of the kind it was written as.
-/
namespace Playbook.Call

/-! ## Literals -/

/-- One string literal and nothing else. -/
def IsLiteral (t : Text) : Prop :=
  ∃ q inner, isQuote q = true ∧ StringBody q inner ∧ t = q :: (inner ++ [q])

/-- One or more identifiers joined by dots. -/
def IsPath (t : Text) : Prop :=
  ∃ parts : List Text, parts ≠ [] ∧ (∀ part ∈ parts, isIdentifier part = true) ∧
    t = ['.'].intercalate parts

theorem role_string {d : Nat} {q c : Char} (he : c ≠ '\\') :
    (⟨d, some q, false⟩ : Nesting).role c = if c = q then .quoteClose else .quoted := by
  simp [Nesting.role, he]

theorem closesAtEnd_escape {d : Nat} {q c : Char} {t : Text} :
    closesAtEnd ⟨d, some q, false⟩ ('\\' :: c :: t) = closesAtEnd ⟨d, some q, false⟩ t := by
  rw [closesAtEnd, if_neg (by simp [Nesting.role]), Nesting.step_string_escape, closesAtEnd,
    if_neg (by simp [Nesting.role]), Nesting.step_escaped]

theorem closesAtEnd_char {d : Nat} {q c : Char} {t : Text} (hq : c ≠ q) (he : c ≠ '\\') :
    closesAtEnd ⟨d, some q, false⟩ (c :: t) = closesAtEnd ⟨d, some q, false⟩ t := by
  rw [closesAtEnd, role_string he, if_neg hq, if_neg (by decide),
    Nesting.step_string_char d hq he]

theorem closesAtEnd_of_stringBody {d : Nat} {q : Char} {t : Text} (hq : isQuote q = true)
    (h : StringBody q t) : closesAtEnd ⟨d, some q, false⟩ (t ++ [q]) = true := by
  induction h with
  | nil =>
    rw [List.nil_append, closesAtEnd, role_string (ne_escape_of_isQuote hq), if_pos rfl,
      if_pos rfl]
    rfl
  | char hc he _ ih => rw [List.cons_append, closesAtEnd_char hc he, ih]
  | escape c _ ih => rw [List.cons_append, List.cons_append, closesAtEnd_escape, ih]

theorem stringBody_of_closesAtEnd {d : Nat} {q : Char} (hq : isQuote q = true) :
    ∀ {t : Text}, closesAtEnd ⟨d, some q, false⟩ t = true → ∃ w, StringBody q w ∧ t = w ++ [q]
  | [], h => by cases h
  | c :: t, h => by
    by_cases he : c = '\\'
    · subst he
      cases t with
      | nil =>
        rw [closesAtEnd, if_neg (by simp [Nesting.role])] at h
        cases h
      | cons x t =>
        rw [closesAtEnd_escape] at h
        obtain ⟨w, hw, rfl⟩ := stringBody_of_closesAtEnd hq h
        exact ⟨'\\' :: x :: w, .escape x hw, rfl⟩
    · by_cases hc : c = q
      · subst hc
        rw [closesAtEnd, role_string he, if_pos rfl, if_pos rfl, List.isEmpty_iff] at h
        subst h
        exact ⟨[], .nil, rfl⟩
      · rw [closesAtEnd_char hc he] at h
        obtain ⟨w, hw, rfl⟩ := stringBody_of_closesAtEnd hq h
        exact ⟨c :: w, .char hc he hw, rfl⟩

theorem literal?_eq_some_iff {t inner : Text} {q : Char} :
    literal? t = some (q, inner) ↔
      isQuote q = true ∧ StringBody q inner ∧ t = q :: (inner ++ [q]) := by
  constructor
  · intro h
    cases t with
    | nil => cases h
    | cons c t =>
      rw [literal?] at h
      split at h
      · rename_i hc
        rw [Bool.and_eq_true] at hc
        rw [show Nesting.top = .inside 0 from rfl, Nesting.step_inside_quote 0 hc.1] at hc
        obtain ⟨w, hw, rfl⟩ := stringBody_of_closesAtEnd hc.1 hc.2
        cases h
        rw [List.dropLast_concat]
        exact ⟨hc.1, hw, rfl⟩
      · cases h
  · intro h
    obtain ⟨hq, hw, ht⟩ := h
    rw [ht, literal?, show Nesting.top = .inside 0 from rfl, Nesting.step_inside_quote 0 hq, hq,
      closesAtEnd_of_stringBody hq hw, if_pos (by decide), List.dropLast_concat]

theorem literal?_eq_none {t : Text} (h : ¬ IsLiteral t) : literal? t = none := by
  cases hl : literal? t with
  | none => rfl
  | some p =>
    obtain ⟨q, inner⟩ := p
    obtain ⟨hq, hw, ht⟩ := literal?_eq_some_iff.1 hl
    exact absurd ⟨q, inner, hq, hw, ht⟩ h

/-! ## Paths -/

theorem isIdentifierPath_iff {t : Text} : isIdentifierPath t = true ↔ IsPath t := by
  rw [isIdentifierPath, List.all_eq_true]
  constructor
  · intro h
    exact ⟨_, Text.fields_ne_nil '.' t, h, (Text.flatten_fields '.' t).symm⟩
  · intro h
    obtain ⟨parts, hne, h, ht⟩ := h
    rw [ht, Text.fields_intercalate hne]
    · exact h
    · intro part hp hm
      exact absurd ((isIdentifier_iff.1 (h part hp)).2 '.' hm) (by decide)

/-! ## Strings -/

/-- The text with a backslash before each backslash and each `quote`. -/
def escape (quote : Char) : Text → Text
  | [] => []
  | c :: t => if c = '\\' ∨ c = quote then '\\' :: c :: escape quote t else c :: escape quote t

theorem stringBody_escape (q : Char) (t : Text) : StringBody q (escape q t) := by
  induction t with
  | nil => exact .nil
  | cons c t ih =>
    rw [escape]
    split
    · exact .escape c ih
    · rename_i h
      exact .char (fun hq => h (Or.inr hq)) (fun he => h (Or.inl he)) ih

theorem unescape_cons {q c : Char} (he : c ≠ '\\') (t : Text) :
    unescape q (c :: t) = c :: unescape q t := by
  rw [unescape.eq_4]
  · intro h
    exact absurd h he
  · intro _ _ h
    exact absurd h he

theorem unescape_escape {q : Char} (hq : isQuote q = true) (t : Text) :
    unescape q (escape q t) = t := by
  have hn : q ≠ 'n' := by intro h; rw [h] at hq; exact absurd hq (by decide)
  have ht : q ≠ 't' := by intro h; rw [h] at hq; exact absurd hq (by decide)
  have he := ne_escape_of_isQuote hq
  induction t with
  | nil => rfl
  | cons c t ih =>
    rw [escape]
    by_cases hc : c = '\\'
    · rw [if_pos (Or.inl hc), unescape, if_neg (by rw [hc]; decide), if_neg (by rw [hc]; decide),
        if_pos hc, ih, hc]
    · by_cases hcq : c = q
      · subst hcq
        rw [if_pos (Or.inr rfl), unescape, if_neg hn, if_neg ht, if_neg he, if_pos rfl, ih]
      · rw [if_neg (not_or.2 ⟨hc, hcq⟩), unescape_cons hc, ih]

/-! ## Spellings -/

/-- A way to write a value. -/
inductive Spelling
  | text (quote : Char) (content : Text)
  | identifier (parts : List Text)
  | expression (source : Text)

namespace Spelling

def print : Spelling → Text
  | text quote content => quote :: (escape quote content ++ [quote])
  | identifier parts => ['.'].intercalate parts
  | expression source => source

def value : Spelling → Value
  | text _ content => .text content
  | identifier parts => .identifier (['.'].intercalate parts)
  | expression source => .expression source

/-- An expression must be one: with no blanks around it, closed in itself, without a comma on
its own level, and neither of the other kinds. -/
def Valid : Spelling → Prop
  | text quote _ => isQuote quote = true
  | identifier parts => parts ≠ [] ∧ ∀ part ∈ parts, isIdentifier part = true
  | expression source =>
    source ≠ [] ∧ source.head?.any Text.isBlank = false ∧
      source.getLast?.any Text.isBlank = false ∧ BodyWithout [','] source ∧
      ¬ IsLiteral source ∧ ¬ IsPath source

end Spelling

theorem isBlank_false_of_isQuote {c : Char} (h : isQuote c = true) : Text.isBlank c = false := by
  simp only [isQuote, Bool.or_eq_true, decide_eq_true_eq] at h
  rcases h with (rfl | rfl) | rfl <;> decide

theorem isBlank_false_of_isIdentifierChar {c : Char} (h : isIdentifierChar c = true) :
    Text.isBlank c = false := by
  obtain ⟨hlo, hhi⟩ := toNat_of_isIdentifierChar h
  simp only [Text.isBlank, Bool.or_eq_false_iff, Bool.and_eq_false_iff, decide_eq_false_iff_not]
  omega

theorem bodyWithout_of_plain {seps t : Text} (h : ∀ c ∈ t, isPlain c = true ∧ c ∉ seps) :
    BodyWithout seps t := by
  induction t with
  | nil => exact .nil
  | cons c t ih =>
    exact .char (h c (by simp)).1 (h c (by simp)).2 (ih fun d hd => h d (by simp [hd]))

theorem mem_path {parts : List Text} (h : ∀ part ∈ parts, isIdentifier part = true) {c : Char}
    (hc : c ∈ (['.'] : Text).intercalate parts) : isIdentifierChar c = true ∨ c = '.' := by
  rcases Text.mem_intercalate hc with hdot | ⟨part, hpart, hmem⟩
  · exact Or.inr hdot
  · exact Or.inl ((isIdentifier_iff.1 (h part hpart)).2 c hmem)

theorem isPlain_of_mem_path {parts : List Text} (h : ∀ part ∈ parts, isIdentifier part = true)
    {c : Char} (hc : c ∈ (['.'] : Text).intercalate parts) : isPlain c = true := by
  rcases mem_path h hc with hi | hd
  · exact isPlain_of_isIdentifierChar hi
  · subst hd
    decide

theorem trim_print {s : Spelling} (h : s.Valid) : Text.trim s.print = s.print := by
  cases s with
  | text q t =>
    have hb := isBlank_false_of_isQuote h
    refine Text.trim_eq_self ?_ ?_
    · rw [Spelling.print, List.head?_cons, Option.any_some, hb]
    · rw [Spelling.print, ← List.cons_append, List.getLast?_concat, Option.any_some, hb]
  | identifier parts =>
    refine Text.trim_of_not_blank fun c hc => ?_
    rcases mem_path h.2 hc with hi | hd
    · exact isBlank_false_of_isIdentifierChar hi
    · subst hd
      decide
  | expression e => exact Text.trim_eq_self h.2.1 h.2.2.1

theorem bodyWithout_print {s : Spelling} (h : s.Valid) : BodyWithout [','] s.print := by
  cases s with
  | text q t => exact .string h (stringBody_escape q t) .nil
  | identifier parts =>
    refine bodyWithout_of_plain fun c hc => ⟨isPlain_of_mem_path h.2 hc, ?_⟩
    intro hm
    rw [List.mem_singleton.1 hm] at hc
    rcases mem_path h.2 hc with hi | hd
    · exact absurd hi (by decide)
    · exact absurd hd (by decide)
  | expression e => exact h.2.2.2.1

/-- A value is read back, of the kind it was written as. -/
theorem parse_print {s : Spelling} (h : s.Valid) : Value.parse s.print = s.value := by
  rw [Value.parse, trim_print h]
  cases s with
  | text q t =>
    have hl := literal?_eq_some_iff.2 ⟨h, stringBody_escape q t, rfl⟩
    simp only [Spelling.print, hl, unescape_escape h, Spelling.value]
  | identifier parts =>
    have hl : literal? (['.'].intercalate parts) = none := by
      refine literal?_eq_none fun hlit => ?_
      obtain ⟨q, inner, hq, -, ht⟩ := hlit
      have hp := isPlain_of_mem_path h.2 (c := q) (by rw [ht]; simp)
      rw [isPlain_false_of_isQuote hq] at hp
      cases hp
    have hp : isIdentifierPath (['.'].intercalate parts) = true :=
      isIdentifierPath_iff.2 ⟨parts, h.1, h.2, rfl⟩
    simp only [Spelling.print, hl, hp, if_true, Spelling.value]
  | expression e =>
    obtain ⟨-, -, -, -, hlit, hpath⟩ := h
    have hp : isIdentifierPath e = false := by
      cases hp : isIdentifierPath e with
      | false => rfl
      | true => exact absurd (isIdentifierPath_iff.1 hp) hpath
    simp only [Spelling.print, literal?_eq_none hlit, hp, Bool.false_eq_true, if_false,
      Spelling.value]

end Playbook.Call
