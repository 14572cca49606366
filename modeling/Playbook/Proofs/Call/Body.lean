import Playbook.Call.Scan

/-!
# The grammar between parentheses

`Body` is the language of what may stand between the parentheses of a call: plain characters,
escapes, strings, and bodies in brackets of any kind. `BodyWithout seps` are the bodies that
have none of `seps` outside brackets, strings and escapes.

A reader of nested text goes from state to state until something stops it. `Quiet stop` says
that a text is read without a stop; one lemma about bodies (`BodyWithout.quiet`) then serves
every reader, whatever it stops for.

Results:
* `BodyWithout.quiet`: a body leads back to the state before it, and no character of it stops a
  reader that stops at closing brackets and at `seps` on the level of the body.
-/
namespace Playbook.Call

/-- A character outside the syntax of brackets, strings and escapes. -/
def isPlain (c : Char) : Bool := c ≠ '\\' && !isQuote c && !isOpener c && !isCloser c

/-- The inside of a string between two `q`. -/
inductive StringBody (q : Char) : Text → Prop
  | nil : StringBody q []
  | char {c : Char} {t : Text} : c ≠ q → c ≠ '\\' → StringBody q t → StringBody q (c :: t)
  | escape {t : Text} (c : Char) : StringBody q t → StringBody q ('\\' :: c :: t)

/-- The bodies with none of `seps` outside brackets, strings and escapes. A bracket may be
closed by one of another kind. -/
inductive BodyWithout : (seps : Text) → Text → Prop
  | nil {seps : Text} : BodyWithout seps []
  | char {seps : Text} {c : Char} {t : Text} :
      isPlain c = true → c ∉ seps → BodyWithout seps t → BodyWithout seps (c :: t)
  | escape {seps t : Text} (c : Char) : BodyWithout seps t → BodyWithout seps ('\\' :: c :: t)
  | string {seps : Text} {q : Char} {inner t : Text} :
      isQuote q = true → StringBody q inner → BodyWithout seps t →
      BodyWithout seps (q :: (inner ++ q :: t))
  | bracket {seps : Text} {o c : Char} {inner t : Text} :
      isOpener o = true → BodyWithout [] inner → isCloser c = true → BodyWithout seps t →
      BodyWithout seps (o :: (inner ++ c :: t))

abbrev Body (t : Text) : Prop := BodyWithout [] t

theorem BodyWithout.append {seps s t : Text} (hs : BodyWithout seps s)
    (ht : BodyWithout seps t) : BodyWithout seps (s ++ t) := by
  induction hs with
  | nil => exact ht
  | char hc hn _ ih => exact .char hc hn (ih ht)
  | escape c _ ih => exact .escape c (ih ht)
  | string hq hw _ ih =>
    rw [List.cons_append, List.append_assoc, List.cons_append]
    exact .string hq hw (ih ht)
  | bracket ho hi hc _ _ ih =>
    rw [List.cons_append, List.append_assoc, List.cons_append]
    exact .bracket ho hi hc (ih ht)

theorem BodyWithout.body {seps t : Text} (h : BodyWithout seps t) : Body t := by
  induction h with
  | nil => exact .nil
  | char hc _ _ ih => exact .char hc List.not_mem_nil ih
  | escape c _ ih => exact .escape c ih
  | string hq hw _ ih => exact .string hq hw ih
  | bracket ho hi hc _ _ ih => exact .bracket ho hi hc ih

/-! ## The kinds of characters -/

theorem ne_escape_of_isQuote {c : Char} (h : isQuote c = true) : c ≠ '\\' := by
  intro he
  subst he
  exact absurd h (by decide)

theorem isPlain_false_of_isQuote {c : Char} (h : isQuote c = true) : isPlain c = false := by
  simp [isPlain, h]

theorem isQuote_false_of_isOpener {c : Char} (h : isOpener c = true) : isQuote c = false := by
  simp only [isOpener, Bool.or_eq_true, decide_eq_true_eq] at h
  rcases h with (rfl | rfl) | rfl <;> decide

theorem isQuote_false_of_isCloser {c : Char} (h : isCloser c = true) :
    isQuote c = false ∧ isOpener c = false ∧ c ≠ '\\' := by
  simp only [isCloser, Bool.or_eq_true, decide_eq_true_eq] at h
  rcases h with (rfl | rfl) | rfl <;> decide

theorem isCloser_false_of_isOpener {c : Char} (h : isOpener c = true) :
    isCloser c = false ∧ c ≠ '\\' := by
  simp only [isOpener, Bool.or_eq_true, decide_eq_true_eq] at h
  rcases h with (rfl | rfl) | rfl <;> decide

theorem isCloser_false_of_isQuote {c : Char} (h : isQuote c = true) : isCloser c = false := by
  simp only [isQuote, Bool.or_eq_true, decide_eq_true_eq] at h
  rcases h with (rfl | rfl) | rfl <;> decide

theorem isPlain_iff {c : Char} : isPlain c = true ↔
    c ≠ '\\' ∧ isQuote c = false ∧ isOpener c = false ∧ isCloser c = false := by
  simp [isPlain, and_assoc]

/-- The characters of the syntax. -/
def specials : Text := ['\\', '"', '\'', '\x60', '(', '\x7b', '[', ')', '\x7d', ']']

theorem isPlain_of_class {p : Char → Bool} (hp : specials.any p = false) {c : Char}
    (h : p c = true) : isPlain c = true := by
  have hne {d : Char} (hd : d ∈ specials) : c ≠ d := by
    intro hcd
    rw [hcd] at h
    exact List.any_eq_false.1 hp d hd h
  have hmem := fun d => hne (d := d)
  simp only [specials, List.mem_cons, List.not_mem_nil, or_false, forall_eq_or_imp,
    forall_eq] at hmem
  simp [isPlain, isQuote, isOpener, isCloser, hmem]

/-! ## Identifiers -/

theorem isPlain_of_isIdentifierChar {c : Char} (h : isIdentifierChar c = true) :
    isPlain c = true :=
  isPlain_of_class (by decide) h

theorem toNat_of_isIdentifierChar {c : Char} (h : isIdentifierChar c = true) :
    48 ≤ c.toNat ∧ c.toNat < 128 := by
  have hle {a b : Char} (h : a ≤ b) : a.toNat ≤ b.toNat := h
  simp only [isIdentifierChar, isIdentifierStart, Text.isAsciiDigit, Bool.or_eq_true,
    Bool.and_eq_true, decide_eq_true_eq] at h
  rcases h with ((h | h) | rfl) | h
  · have h₁ : 97 ≤ c.toNat := hle h.1
    have h₂ : c.toNat ≤ 122 := hle h.2
    omega
  · have h₁ : 65 ≤ c.toNat := hle h.1
    have h₂ : c.toNat ≤ 90 := hle h.2
    omega
  · decide
  · have h₁ : 48 ≤ c.toNat := hle h.1
    have h₂ : c.toNat ≤ 57 := hle h.2
    omega

theorem isIdentifierChar_of_start {c : Char} (h : isIdentifierStart c = true) :
    isIdentifierChar c = true := by
  rw [isIdentifierChar, h]
  rfl

theorem isIdentifier_iff {t : Text} : isIdentifier t = true ↔
    t.head?.any isIdentifierStart = true ∧ ∀ c ∈ t, isIdentifierChar c = true := by
  cases t with
  | nil => simp [isIdentifier]
  | cons c t =>
    simp only [isIdentifier, Bool.and_eq_true, List.all_eq_true, List.head?_cons, Option.any_some,
      List.mem_cons, forall_eq_or_imp]
    constructor
    · intro h
      obtain ⟨hc, ht⟩ := h
      exact ⟨hc, isIdentifierChar_of_start hc, ht⟩
    · intro h
      obtain ⟨hc, _, ht⟩ := h
      exact ⟨hc, ht⟩

/-! ## Steps outside strings -/

namespace Nesting

variable {c : Char} (d : Nat)

theorem step_inside_plain (h : isPlain c = true) : (inside d).step c = inside d := by
  obtain ⟨he, hq, ho, hc⟩ := isPlain_iff.1 h
  simp [step, role, inside, he, hq, ho, hc]

theorem step_inside_escape : (inside d).step '\\' = ⟨d, none, true⟩ := by
  simp [step, role, inside]

theorem step_escaped (q : Option Char) : (⟨d, q, true⟩ : Nesting).step c = ⟨d, q, false⟩ := by
  simp [step, role]

theorem step_inside_quote (h : isQuote c = true) : (inside d).step c = ⟨d, some c, false⟩ := by
  simp [step, role, inside, h, ne_escape_of_isQuote h]

theorem step_inside_opener (h : isOpener c = true) : (inside d).step c = inside (d + 1) := by
  have hq := isQuote_false_of_isOpener h
  have he := (isCloser_false_of_isOpener h).2
  simp [step, role, inside, h, hq, he]

theorem step_inside_closer (h : isCloser c = true) : (inside d).step c = inside (d - 1) := by
  obtain ⟨hq, ho, he⟩ := isQuote_false_of_isCloser h
  simp [step, role, inside, h, hq, ho, he]

theorem step_string_escape (q : Char) :
    (⟨d, some q, false⟩ : Nesting).step '\\' = ⟨d, some q, true⟩ := by
  simp [step, role]

theorem step_string_quote (h : isQuote c = true) :
    (⟨d, some c, false⟩ : Nesting).step c = inside d := by
  simp [step, role, inside, ne_escape_of_isQuote h]

theorem step_string_char {q : Char} (hq : c ≠ q) (he : c ≠ '\\') :
    (⟨d, some q, false⟩ : Nesting).step c = ⟨d, some q, false⟩ := by
  simp [step, role, he, hq]

@[simp] theorem run_nil (s : Nesting) : s.run [] = s := rfl

@[simp] theorem run_cons (s : Nesting) (t : Text) : s.run (c :: t) = (s.step c).run t := rfl

end Nesting

/-! ## Reading without a stop -/

/-- The text is read from a state without a character that `stop` picks. -/
def Quiet (stop : Nesting → Char → Bool) : Nesting → Text → Prop
  | _, [] => True
  | s, c :: t => stop s c = false ∧ Quiet stop (s.step c) t

theorem quiet_append {stop : Nesting → Char → Bool} {s : Nesting} {t u : Text} :
    Quiet stop s (t ++ u) ↔ Quiet stop s t ∧ Quiet stop (s.run t) u := by
  induction t generalizing s with
  | nil => simp [Quiet]
  | cons c t ih => simp [Quiet, ih, and_assoc]

/-- At depth `d` and deeper, `stop` picks only characters at depth `d` outside strings and
escapes, and of these only closing brackets and plain characters among `seps`. -/
def StopsAt (d : Nat) (seps : Text) (stop : Nesting → Char → Bool) : Prop :=
  ∀ s c, d ≤ s.depth → stop s c = true →
    s = .inside d ∧ (isCloser c = true ∨ isPlain c = true ∧ c ∈ seps)

section
variable {d : Nat} {seps : Text} {stop : Nesting → Char → Bool}

theorem StopsAt.deeper (h : StopsAt d seps stop) : StopsAt (d + 1) [] stop := by
  intro s c hd hs
  obtain ⟨rfl, -⟩ := h s c (by omega) hs
  simp only [Nesting.inside] at hd
  omega

theorem StopsAt.of_ne (h : StopsAt d seps stop) {s : Nesting} (hd : d ≤ s.depth)
    (hs : s ≠ .inside d) (c : Char) : stop s c = false := by
  cases hc : stop s c with
  | false => rfl
  | true => exact absurd (h s c hd hc).1 hs

theorem StopsAt.of_char (h : StopsAt d seps stop) {c : Char} (hc : isCloser c = false)
    (hp : isPlain c = true → c ∉ seps) : stop (.inside d) c = false := by
  cases hs : stop (.inside d) c with
  | false => rfl
  | true =>
    rcases (h _ _ (Nat.le_refl d) hs).2 with h | ⟨h, hm⟩
    · rw [hc] at h
      cases h
    · exact absurd hm (hp h)

theorem StringBody.quiet {q : Char} {t : Text} (ht : StringBody q t)
    (h : StopsAt d seps stop) : Quiet stop ⟨d, some q, false⟩ t ∧
      (⟨d, some q, false⟩ : Nesting).run t = ⟨d, some q, false⟩ := by
  have hne (e : Bool) : (⟨d, some q, e⟩ : Nesting) ≠ .inside d := by simp [Nesting.inside]
  induction ht with
  | nil => exact ⟨trivial, rfl⟩
  | char hcq hce _ ih =>
    rw [Nesting.run_cons, Quiet, Nesting.step_string_char d hcq hce]
    exact ⟨⟨h.of_ne (Nat.le_refl d) (hne false) _, ih.1⟩, ih.2⟩
  | escape c _ ih =>
    rw [Nesting.run_cons, Nesting.run_cons, Quiet, Quiet, Nesting.step_string_escape,
      Nesting.step_escaped]
    exact ⟨⟨h.of_ne (Nat.le_refl d) (hne false) _, h.of_ne (Nat.le_refl d) (hne true) _, ih.1⟩,
      ih.2⟩

/-- A body leads back to the state before it, without a stop. -/
theorem BodyWithout.quiet {t : Text} (ht : BodyWithout seps t) (h : StopsAt d seps stop) :
    Quiet stop (.inside d) t ∧ (Nesting.inside d).run t = .inside d := by
  induction ht generalizing d with
  | nil => exact ⟨trivial, rfl⟩
  | char hp hn _ ih =>
    have hc := (isPlain_iff.1 hp).2.2.2
    rw [Nesting.run_cons, Quiet, Nesting.step_inside_plain d hp]
    exact ⟨⟨h.of_char hc fun _ => hn, (ih h).1⟩, (ih h).2⟩
  | escape c _ ih =>
    have hne : (⟨d, none, true⟩ : Nesting) ≠ .inside d := by simp [Nesting.inside]
    rw [Nesting.run_cons, Nesting.run_cons, Quiet, Quiet, Nesting.step_inside_escape,
      Nesting.step_escaped]
    refine ⟨⟨h.of_char (by decide) ?_, h.of_ne (Nat.le_refl d) hne c, (ih h).1⟩, (ih h).2⟩
    intro hp
    exact absurd hp (by decide)
  | string hq hw _ ih =>
    obtain ⟨hw₁, hw₂⟩ := hw.quiet h
    rw [Nesting.run_cons, Nesting.run_append, Nesting.run_cons, Quiet, quiet_append, Quiet,
      Nesting.step_inside_quote d hq, hw₂, Nesting.step_string_quote d hq]
    refine ⟨⟨h.of_char (isCloser_false_of_isQuote hq) ?_, hw₁, ?_, (ih h).1⟩, (ih h).2⟩
    · intro hp
      rw [isPlain_false_of_isQuote hq] at hp
      cases hp
    · exact h.of_ne (Nat.le_refl d) (by simp [Nesting.inside]) _
  | bracket ho _ hc _ ihi ih =>
    obtain ⟨hi₁, hi₂⟩ := ihi h.deeper
    rw [Nesting.run_cons, Nesting.run_append, Nesting.run_cons, Quiet, quiet_append, Quiet,
      Nesting.step_inside_opener d ho, hi₂, Nesting.step_inside_closer _ hc, Nat.add_sub_cancel]
    refine ⟨⟨h.of_char (isCloser_false_of_isOpener ho).1 ?_, hi₁, ?_, (ih h).1⟩, (ih h).2⟩
    · intro hp
      rw [(isPlain_iff.1 hp).2.2.1] at ho
      cases ho
    · exact h.of_ne (Nat.le_succ d) (by simp [Nesting.inside]) _

end

end Playbook.Call
