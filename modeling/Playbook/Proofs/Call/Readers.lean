import Playbook.Proofs.Call.Body

/-!
# Readers of nested text

The readers of `Nesting` go through a text until they are stopped: `breakClose` by the bracket
that closes, `breakTop` by a mark and `splitTop` by each separator at top level. What is read
without a stop comes out in front of what they make of the rest.

Results:
* `breakClose_eq_some_iff`: the inside of a call is a body, and the call ends at the first `)`
  behind a body.
* `breakTop_body`: behind a body without it a mark is the first one at top level.
* `splitTop_body`, `splitTop_body_cons`: a body without the separator is one part.
-/
namespace Playbook.Call

/-! ## Passing what does not stop -/

def closes (s : Nesting) (c : Char) : Bool := s.role c = .closer && (s.step c).depth = 0

def marks (mark : Char) (s : Nesting) (c : Char) : Bool := c = mark && s.atTop

theorem breakClose_append {s : Nesting} {t : Text} (h : Quiet closes s t) (u : Text) :
    breakClose s (t ++ u) =
      (breakClose (s.run t) u).map fun (inner, rest) => (t ++ inner, rest) := by
  induction t generalizing s with
  | nil => simp
  | cons c t ih =>
    obtain ⟨hc, ht⟩ := h
    rw [closes] at hc
    rw [List.cons_append, breakClose, if_neg (by rw [hc]; decide), ih ht, Option.map_map]
    rfl

theorem breakTop_append {mark : Char} {s : Nesting} {t : Text} (h : Quiet (marks mark) s t)
    (u : Text) : breakTop mark s (t ++ u) =
      (breakTop mark (s.run t) u).map fun (before, rest) => (t ++ before, rest) := by
  induction t generalizing s with
  | nil => simp
  | cons c t ih =>
    obtain ⟨hc, ht⟩ := h
    rw [marks] at hc
    rw [List.cons_append, breakTop, if_neg (by rw [hc]; decide), ih ht, Option.map_map]
    rfl

theorem splitTop_ne_nil (separator : Char) (s : Nesting) (t : Text) :
    splitTop separator s t ≠ [] := by
  cases t with
  | nil => simp [splitTop]
  | cons c t =>
    rw [splitTop]
    split
    · simp
    · split <;> simp

theorem splitTop_append {separator : Char} {s : Nesting} {t : Text}
    (h : Quiet (marks separator) s t) (u : Text) : splitTop separator s (t ++ u) =
      (splitTop separator (s.run t) u).modifyHead (t ++ ·) := by
  induction t generalizing s with
  | nil =>
    cases hp : splitTop separator s u with
    | nil => exact absurd hp (splitTop_ne_nil separator s u)
    | cons part parts => simp [hp]
  | cons c t ih =>
    obtain ⟨hc, ht⟩ := h
    rw [marks] at hc
    rw [List.cons_append, splitTop, if_neg (by rw [hc]; decide), ih ht, Nesting.run_cons]
    cases hp : splitTop separator ((s.step c).run t) u with
    | nil => exact absurd hp (splitTop_ne_nil _ _ _)
    | cons part parts => rfl

/-! ## Where a mark stops -/

theorem breakTop_eq_none_iff {mark : Char} {s : Nesting} {t : Text} :
    breakTop mark s t = none ↔ Quiet (marks mark) s t := by
  induction t generalizing s with
  | nil => simp [breakTop, Quiet]
  | cons c t ih =>
    rw [breakTop, Quiet, marks, ← ih]
    split <;> rename_i h
    · simp [h]
    · rw [Bool.not_eq_true] at h
      simp [h]

/-- The first mark at top level stands behind a text without one, which leads to top level. -/
theorem breakTop_eq_some {mark : Char} {s : Nesting} {t before rest : Text}
    (h : breakTop mark s t = some (before, rest)) :
    t = before ++ mark :: rest ∧ Quiet (marks mark) s before ∧ (s.run before).atTop = true := by
  induction t generalizing s before with
  | nil => cases h
  | cons c t ih =>
    rw [breakTop] at h
    split at h
    · rename_i hc
      rw [Bool.and_eq_true, decide_eq_true_eq] at hc
      cases h
      exact ⟨by rw [hc.1]; rfl, trivial, hc.2⟩
    · rename_i hc
      rw [Bool.not_eq_true] at hc
      obtain ⟨⟨before', rest'⟩, hb, he⟩ := Option.map_eq_some_iff.1 h
      cases he
      obtain ⟨ht, hquiet, htop⟩ := ih hb
      exact ⟨by rw [ht]; rfl, ⟨hc, hquiet⟩, htop⟩

/-! ## Bodies -/

theorem role_closer {s : Nesting} {c : Char} (h : s.role c = .closer) :
    s.escaped = false ∧ s.quote = none ∧ isCloser c = true := by
  unfold Nesting.role at h
  split at h
  · cases h
  · rename_i he
    split at h
    · cases h
    · split at h
      · split at h <;> cases h
      · rename_i hq
        refine ⟨by simpa using he, hq, ?_⟩
        split at h
        · cases h
        · split at h
          · cases h
          · split at h
            · assumption
            · cases h

theorem closes_inside {d : Nat} {c : Char} (hc : isCloser c = true) :
    closes (.inside d) c = decide (d - 1 = 0) := by
  have hr : (Nesting.inside d).role c = .closer := by
    obtain ⟨hq, ho, he⟩ := isQuote_false_of_isCloser hc
    simp [Nesting.role, Nesting.inside, hc, hq, ho, he]
  rw [closes, hr, Nesting.step_inside_closer d hc]
  rfl

theorem stopsAt_closes : StopsAt 1 [] closes := by
  intro s c hd hs
  obtain ⟨depth, quote, escaped⟩ := s
  simp only [closes, Bool.and_eq_true, decide_eq_true_eq] at hs
  obtain ⟨he, hq, hc⟩ := role_closer hs.1
  simp only at he hq
  subst he hq
  have hstep := hs.2
  rw [show (⟨depth, none, false⟩ : Nesting) = .inside depth from rfl,
    Nesting.step_inside_closer depth hc] at hstep
  simp only [Nesting.inside] at hstep hd
  obtain rfl : depth = 1 := by omega
  exact ⟨rfl, Or.inl hc⟩

theorem closes_eq_false {s : Nesting} {c : Char} (hc : isCloser c ≠ true) :
    closes s c = false := by
  cases h : closes s c with
  | false => rfl
  | true =>
    rw [closes, Bool.and_eq_true, decide_eq_true_eq] at h
    exact absurd (role_closer h.1).2.2 hc

theorem stopsAt_marks {mark : Char} {seps : Text} (hp : isPlain mark = true)
    (hm : mark ∈ seps) : StopsAt 0 seps (marks mark) := by
  intro s c _ hs
  obtain ⟨depth, quote, escaped⟩ := s
  simp only [marks, Nesting.atTop, Bool.and_eq_true, decide_eq_true_eq, Option.isNone_iff_eq_none,
    Bool.not_eq_true'] at hs
  obtain ⟨rfl, ⟨rfl, rfl⟩, rfl⟩ := hs
  exact ⟨rfl, Or.inr ⟨hp, hm⟩⟩

theorem breakClose_body {t : Text} (h : Body t) (rest : Text) :
    breakClose (.inside 1) (t ++ ')' :: rest) = some (t, rest) := by
  obtain ⟨hq, hr⟩ := BodyWithout.quiet h stopsAt_closes
  rw [breakClose_append hq, hr, breakClose, if_pos (by decide), if_pos rfl]
  simp

theorem breakTop_body {mark : Char} {t : Text} (hp : isPlain mark = true)
    (h : BodyWithout [mark] t) (rest : Text) :
    breakTop mark .top (t ++ mark :: rest) = some (t, rest) := by
  obtain ⟨hq, hr⟩ := h.quiet (stopsAt_marks hp (by simp))
  rw [show Nesting.top = .inside 0 from rfl, breakTop_append hq, hr]
  simp [breakTop, Nesting.atTop, Nesting.inside]

theorem splitTop_body {separator : Char} {t : Text} (hp : isPlain separator = true)
    (h : BodyWithout [separator] t) : splitTop separator .top t = [t] := by
  obtain ⟨hq, hr⟩ := h.quiet (stopsAt_marks hp (by simp))
  have := splitTop_append hq []
  rw [List.append_nil, hr] at this
  rw [show Nesting.top = .inside 0 from rfl, this]
  simp [splitTop]

theorem splitTop_body_cons {separator : Char} {t : Text} (hp : isPlain separator = true)
    (h : BodyWithout [separator] t) (rest : Text) :
    splitTop separator .top (t ++ separator :: rest) = t :: splitTop separator .top rest := by
  obtain ⟨hq, hr⟩ := h.quiet (stopsAt_marks hp (by simp))
  rw [show Nesting.top = .inside 0 from rfl, splitTop_append hq, hr]
  simp [splitTop, Nesting.atTop, Nesting.inside]

/-! ## What a reader stopped behind was a body -/

/-- What stands before the bracket that closes `d + 1` open ones. -/
inductive Tail : (d : Nat) → Text → Prop
  | body {t : Text} : Body t → Tail 0 t
  | close {d : Nat} {t u : Text} {c : Char} :
      Body t → isCloser c = true → Tail d u → Tail (d + 1) (t ++ c :: u)

theorem Tail.prepend {d : Nat} {t u : Text} (h : Tail d u)
    (ht : ∀ v, Body v → Body (t ++ v)) : Tail d (t ++ u) := by
  cases h with
  | body hu => exact .body (ht _ hu)
  | close hv hc hu =>
    rw [← List.append_assoc]
    exact .close (ht _ hv) hc hu

theorem breakClose_cons {s : Nesting} {c : Char} {t inner rest : Text}
    (h : breakClose s (c :: t) = some (inner, rest)) (hc : closes s c = false) :
    ∃ inner', inner = c :: inner' ∧ breakClose (s.step c) t = some (inner', rest) := by
  rw [closes] at hc
  rw [breakClose, if_neg (by rw [hc]; decide)] at h
  obtain ⟨⟨inner', rest'⟩, hb, he⟩ := Option.map_eq_some_iff.1 h
  simp only [Prod.mk.injEq] at he
  obtain ⟨rfl, rfl⟩ := he
  exact ⟨inner', rfl, hb⟩

theorem breakClose_of_closes {s : Nesting} {c : Char} (hc : closes s c = true) (t : Text) :
    breakClose s (c :: t) = if c = ')' then some ([], t) else none := by
  rw [closes] at hc
  rw [breakClose, if_pos hc]

theorem closes_string {d : Nat} {q c : Char} {e : Bool} :
    closes ⟨d, some q, e⟩ c = false := by
  cases hc : closes ⟨d, some q, e⟩ c with
  | false => rfl
  | true =>
    rw [closes, Bool.and_eq_true, decide_eq_true_eq] at hc
    exact absurd (role_closer hc.1).2.1 (by simp)

theorem closes_escaped {d : Nat} {q : Option Char} {c : Char} :
    closes ⟨d, q, true⟩ c = false := by
  simp [closes, Nesting.role]

/-- From inside a string the reader gets behind it before it closes. -/
theorem breakClose_string {d : Nat} {q : Char} (hq : isQuote q = true) :
    ∀ {t inner rest : Text}, breakClose ⟨d, some q, false⟩ t = some (inner, rest) →
      ∃ w t' inner', t = w ++ q :: t' ∧ inner = w ++ q :: inner' ∧ StringBody q w ∧
        breakClose (.inside d) t' = some (inner', rest)
  | [], _, _, h => by simp [breakClose] at h
  | c :: t, inner, rest, h => by
    obtain ⟨i₁, rfl, h₁⟩ := breakClose_cons h closes_string
    by_cases he : c = '\\'
    · subst he
      rw [Nesting.step_string_escape] at h₁
      cases t with
      | nil => simp [breakClose] at h₁
      | cons x t =>
        obtain ⟨i₂, rfl, h₂⟩ := breakClose_cons h₁ closes_escaped
        rw [Nesting.step_escaped] at h₂
        obtain ⟨w, t', i₃, rfl, rfl, hw, hb⟩ := breakClose_string hq h₂
        exact ⟨'\\' :: x :: w, t', i₃, rfl, rfl, .escape x hw, hb⟩
    · by_cases hc : c = q
      · subst hc
        rw [Nesting.step_string_quote d hq] at h₁
        exact ⟨[], t, i₁, rfl, rfl, .nil, h₁⟩
      · rw [Nesting.step_string_char d hc he] at h₁
        obtain ⟨w, t', i₂, rfl, rfl, hw, hb⟩ := breakClose_string hq h₁
        exact ⟨c :: w, t', i₂, rfl, rfl, .char hc he hw, hb⟩

/-- Other than a bracket, the reader passes a whole construct of the grammar. -/
theorem breakClose_construct {d : Nat} {c : Char} {t inner rest : Text}
    (h : breakClose (.inside d) (c :: t) = some (inner, rest)) (hc : isCloser c = false)
    (ho : isOpener c = false) :
    ∃ s t' inner', c :: t = c :: s ++ t' ∧ inner = c :: s ++ inner' ∧
      (∀ v, Body v → Body (c :: s ++ v)) ∧ breakClose (.inside d) t' = some (inner', rest) := by
  obtain ⟨i, rfl, hb⟩ := breakClose_cons h (closes_eq_false (by simp [hc]))
  by_cases he : c = '\\'
  · subst he
    rw [Nesting.step_inside_escape] at hb
    cases t with
    | nil => simp [breakClose] at hb
    | cons x t =>
      obtain ⟨j, rfl, hj⟩ := breakClose_cons hb closes_escaped
      rw [Nesting.step_escaped] at hj
      exact ⟨[x], t, j, rfl, rfl, fun _ hv => .escape x hv, hj⟩
  · by_cases hq : isQuote c = true
    · rw [Nesting.step_inside_quote _ hq] at hb
      obtain ⟨w, t', j, rfl, rfl, hw, hb⟩ := breakClose_string hq hb
      refine ⟨w ++ [c], t', j, by simp, by simp, ?_, hb⟩
      intro v hv
      have hbody := BodyWithout.string hq hw hv
      simpa using hbody
    · have hp : isPlain c = true := isPlain_iff.2 ⟨he, by simpa using hq, ho, hc⟩
      rw [Nesting.step_inside_plain _ hp] at hb
      exact ⟨[], t, i, rfl, rfl, fun _ hv => .char hp List.not_mem_nil hv, hb⟩

/-- What the reader stopped behind, by the length of the text: a bracket changes the level, any
other construct is passed as a whole. -/
theorem tail_of_breakClose {d : Nat} {t inner rest : Text}
    (h : breakClose (.inside (d + 1)) t = some (inner, rest)) : Tail d inner := by
  induction hn : t.length using Nat.strongRecOn generalizing d t inner with
  | ind n ih =>
    cases t with
    | nil => simp [breakClose] at h
    | cons c t =>
      rw [List.length_cons] at hn
      by_cases hc : isCloser c = true
      · cases d with
        | zero =>
          rw [breakClose_of_closes (s := .inside 1) (closes_inside hc)] at h
          split at h
          · cases h
            exact .body .nil
          · cases h
        | succ d =>
          have hcl : closes (.inside (d + 2)) c = false := closes_inside hc
          obtain ⟨i, hi, hb⟩ := breakClose_cons h hcl
          subst hi
          rw [Nesting.step_inside_closer _ hc] at hb
          exact .close .nil hc (ih _ (by omega) hb rfl)
      · by_cases ho : isOpener c = true
        · obtain ⟨i, hi, hb⟩ := breakClose_cons h (closes_eq_false hc)
          subst hi
          rw [Nesting.step_inside_opener _ ho] at hb
          cases ih _ (by omega) hb rfl with
          | @close _ v u k hv hk hu =>
            have htail := hu.prepend (t := c :: (v ++ [k])) fun x hx => by
              simpa using BodyWithout.bracket ho hv hk hx
            simpa using htail
        · obtain ⟨s, t', inner', ht, hi, hbody, hb⟩ :=
            breakClose_construct h (by simpa using hc) (by simpa using ho)
          have hlen := congrArg List.length ht
          simp only [List.length_cons, List.length_append] at hlen
          rw [hi]
          exact (ih _ (by omega) hb rfl).prepend hbody

/-- The inside of a call is a body, and the call ends at the first `)` behind a body. -/
theorem breakClose_eq_some_iff {t inner rest : Text} :
    breakClose (.inside 1) t = some (inner, rest) ↔ Body inner ∧ t = inner ++ ')' :: rest := by
  constructor
  · intro h
    cases tail_of_breakClose h with
    | body hb => exact ⟨hb, breakClose_eq h⟩
  · intro h
    obtain ⟨hb, ht⟩ := h
    rw [ht]
    exact breakClose_body hb rest

end Playbook.Call
