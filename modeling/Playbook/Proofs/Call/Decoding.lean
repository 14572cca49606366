import Playbook.Proofs.Call.Octets
import Playbook.Proofs.Call.Values
import Playbook.Proofs.Text.Slices

/-!
# Reading a value

What a value is depends on its text without the blanks around it. Whether it is one string literal
is told by the machine that reads nested text, and that may read bytes; the content of a literal is
decoded character by character, by a reader of its own. Both take a backslash together with the
character behind it, so the decoder never comes to a backslash that is the last character.

Results:
* `literal?_octets`: the bytes of a text are a literal exactly if the text is.
* `unescape_turn`: the decoder turn by turn.
* `StringBody.turn`, `StringBody.reaches`: what a turn, and any number of turns, leave of a literal.
* `StringBody.exists_glyphs`, `source_injective`: what stands between quotes, taken apart in one
  way.
* `parse_exact`: which text is read as a string, which as a path, and which as it stands.
-/
namespace Playbook.Call

open Text (octets octetsOf)
open Nesting (QuoteBelow)

/-! ## Literals by their bytes -/

theorem role_ne_quoteClose {s : Nesting} (hs : s.QuoteBelow) {c : Char} (hc : 128 ≤ c.toNat) :
    s.role c ≠ .quoteClose := by
  intro h
  unfold Nesting.role at h
  split at h
  · cases h
  · split at h
    · cases h
    · split at h
      · rename_i q hq
        split at h
        · rename_i heq
          have hlt := hs q hq
          rw [← heq] at hlt
          omega
        · cases h
      · split at h
        · cases h
        · split at h
          · cases h
          · split at h <;> cases h

theorem closesAtEnd_of_le {s : Nesting} (hs : s.QuoteBelow) {u : Text}
    (hu : ∀ o ∈ u, 128 ≤ o.toNat) (t : Text) :
    closesAtEnd s (u ++ t) = closesAtEnd (s.run u) t := by
  induction u generalizing s with
  | nil => rfl
  | cons o u ih =>
    have ho := role_ne_quoteClose hs (hu o List.mem_cons_self)
    rw [List.cons_append, closesAtEnd, if_neg ho, Nesting.run_cons]
    exact ih (hs.step o) fun p hp => hu p (List.mem_cons_of_mem o hp)

theorem closesAtEnd_octets {s : Nesting} (hs : s.QuoteBelow) (t : Text) :
    closesAtEnd s (octets t) = closesAtEnd s t := by
  induction t generalizing s with
  | nil => rfl
  | cons c t ih =>
    rcases Nat.lt_or_ge c.toNat 128 with hc | hc
    · have hempty : (octets t).isEmpty = t.isEmpty := by
        rw [Bool.eq_iff_iff, List.isEmpty_iff, List.isEmpty_iff, Text.octets_eq_nil]
      rw [Text.octets_cons, Text.octetsOf_ascii hc, List.singleton_append, closesAtEnd, closesAtEnd,
        hempty, ih (hs.step c)]
    · rw [Text.octets_cons, closesAtEnd_of_le hs fun o => Text.le_of_mem_octetsOf hc,
        Nesting.run_octetsOf hs, ih (hs.step c), closesAtEnd, if_neg (role_ne_quoteClose hs hc)]

/-- The bytes of a text are a literal exactly if the text is. -/
theorem literal?_octets (t : Text) :
    literal? (octets t) = (literal? t).map fun (q, inner) => (q, octets inner) := by
  cases t with
  | nil => rfl
  | cons q t =>
    rcases Nat.lt_or_ge q.toNat 128 with hq | hq
    · have htop : Nesting.top = .inside 0 := rfl
      have hcloses := closesAtEnd_octets ((Nesting.quoteBelow_inside 0).step q) t
      rw [Text.octets_cons, Text.octetsOf_ascii hq, List.singleton_append, literal?, literal?, htop,
        hcloses]
      split
      · rename_i hlit
        rw [Bool.and_eq_true, Nesting.step_inside_quote 0 hlit.1] at hlit
        obtain ⟨inner, -, rfl⟩ := stringBody_of_closesAtEnd hlit.1 hlit.2
        rw [Text.octets_append, Text.octets_cons, Text.octetsOf_ascii hq, Text.octets_nil,
          List.append_nil, List.dropLast_concat, Option.map_some, List.dropLast_concat]
      · rfl
    · have hnot {c : Char} (hc : 128 ≤ c.toNat) (rest : Text) : literal? (c :: rest) = none := by
        rw [literal?, (isPlain_iff.1 (Nesting.isPlain_of_le hc)).2.1]
        rfl
      obtain ⟨o, os, ho⟩ := List.exists_cons_of_ne_nil (Text.octetsOf_ne_nil q)
      have hle := Text.le_of_mem_octetsOf hq (ho ▸ List.mem_cons_self)
      rw [hnot hq, Text.octets_cons, ho, List.cons_append, hnot hle]
      rfl

/-! ## Between the quotes -/

/-- What stands between quotes: a character for itself, or a pair of a backslash and the character
that it takes with it. -/
inductive Glyph
  | char (c : Char)
  | pair (c : Char)
  deriving Repr, DecidableEq

namespace Glyph

def source : Glyph → Text
  | char c => [c]
  | pair c => ['\\', c]

/-- What is read from a glyph: four of the pairs stand for a character, others for themselves. -/
def meaning (quote : Char) : Glyph → Text
  | char c => [c]
  | pair c =>
    if c = 'n' then ['\n']
    else if c = 't' then ['\t']
    else if c = '\\' then ['\\']
    else if c = quote then [quote]
    else ['\\', c]

/-- The quote and the backslash stand in pairs only. -/
def Valid (quote : Char) : Glyph → Prop
  | char c => c ≠ quote ∧ c ≠ '\\'
  | pair _ => True

end Glyph

theorem StringBody.exists_glyphs {q : Char} {t : Text} (h : StringBody q t) :
    ∃ glyphs : List Glyph, (∀ g ∈ glyphs, g.Valid q) ∧ t = glyphs.flatMap Glyph.source := by
  induction h with
  | nil => exact ⟨[], fun g hg => absurd hg List.not_mem_nil, rfl⟩
  | @char c t hq he _ ih =>
    obtain ⟨glyphs, hvalid, rfl⟩ := ih
    exact ⟨.char c :: glyphs, List.forall_mem_cons.2 ⟨⟨hq, he⟩, hvalid⟩, rfl⟩
  | escape c _ ih =>
    obtain ⟨glyphs, hvalid, rfl⟩ := ih
    exact ⟨.pair c :: glyphs, List.forall_mem_cons.2 ⟨trivial, hvalid⟩, rfl⟩

/-- Glyphs can be told apart: only a pair starts with a backslash. -/
theorem source_injective {q : Char} {glyphs others : List Glyph} (h : ∀ g ∈ glyphs, g.Valid q)
    (h' : ∀ g ∈ others, g.Valid q)
    (heq : glyphs.flatMap Glyph.source = others.flatMap Glyph.source) : glyphs = others := by
  induction glyphs generalizing others with
  | nil =>
    cases others with
    | nil => rfl
    | cons g others => cases g <;> cases heq
  | cons g glyphs ih =>
    cases others with
    | nil => cases g <;> cases heq
    | cons g' others =>
      rw [List.forall_mem_cons] at h h'
      have hrest := fun hsource => congrArg (g :: ·) (ih h.2 h'.2 hsource)
      rw [List.flatMap_cons, List.flatMap_cons] at heq
      cases g with
      | char c =>
        cases g' with
        | char c' =>
          obtain ⟨rfl, hsource⟩ := List.cons.inj heq
          exact hrest hsource
        | pair c' => exact absurd (List.cons.inj heq).1 h.1.2
      | pair c =>
        cases g' with
        | char c' => exact absurd (List.cons.inj heq).1.symm h'.1.2
        | pair c' =>
          obtain ⟨rfl, hsource⟩ := List.cons.inj (List.cons.inj heq).2
          exact hrest hsource

/-! ## The decoder -/

/-- One turn of the decoder: what it writes, and what it leaves. -/
def turn (quote : Char) : Text → Option (Text × Text)
  | [] => none
  | c :: t =>
    if c = '\\' then
      match t with
      | [] => some (['\\'], [])
      | d :: t => some ((Glyph.pair d).meaning quote, t)
    else some ((Glyph.char c).meaning quote, t)

theorem turn_pair (q c : Char) (t : Text) :
    turn q ('\\' :: c :: t) = some ((Glyph.pair c).meaning q, t) := rfl

theorem turn_char {c : Char} (h : c ≠ '\\') (q : Char) (t : Text) :
    turn q (c :: t) = some ((Glyph.char c).meaning q, t) := if_neg h

theorem unescape_pair (q c : Char) (t : Text) :
    unescape q ('\\' :: c :: t) = (Glyph.pair c).meaning q ++ unescape q t := by
  rw [unescape, Glyph.meaning]
  repeat' split
  all_goals rfl

/-- The decoder turn by turn. -/
theorem unescape_turn (q : Char) (t : Text) :
    unescape q t = match turn q t with
      | none => []
      | some (out, rest) => out ++ unescape q rest := by
  cases t with
  | nil => rfl
  | cons c t =>
    by_cases hc : c = '\\'
    · subst hc
      cases t with
      | nil => rfl
      | cons c t => rw [turn_pair, unescape_pair]
    · rw [turn_char hc, unescape_cons hc]
      rfl

/-- After any number of turns on a text, `written` is written and `rest` is left. -/
inductive Reaches (q : Char) : (t written rest : Text) → Prop
  | done (t : Text) : Reaches q t [] t
  | turn {t out next written rest : Text} :
      turn q t = some (out, next) → Reaches q next written rest → Reaches q t (out ++ written) rest

theorem Reaches.unescape_eq {q : Char} {t written rest : Text} (h : Reaches q t written rest) :
    unescape q t = written ++ unescape q rest := by
  induction h with
  | done t => rfl
  | turn hturn _ ih => rw [unescape_turn, hturn, List.append_assoc, ← ih]

/-- A turn takes a glyph of a literal, writes its meaning, and leaves the inside of a literal. -/
theorem StringBody.turn {q : Char} {t out rest : Text} (h : StringBody q t)
    (hturn : turn q t = some (out, rest)) :
    StringBody q rest ∧ ∃ g : Glyph, g.Valid q ∧ t = g.source ++ rest ∧ out = g.meaning q := by
  cases h with
  | nil => cases hturn
  | @char c t hq he hrest =>
    rw [turn_char he] at hturn
    cases hturn
    exact ⟨hrest, .char c, ⟨hq, he⟩, rfl, rfl⟩
  | escape c hrest =>
    rw [turn_pair] at hturn
    cases hturn
    exact ⟨hrest, .pair c, trivial, rfl, rfl⟩

theorem StringBody.reaches {q : Char} {t written rest : Text} (h : StringBody q t)
    (hrun : Reaches q t written rest) : StringBody q rest := by
  induction hrun with
  | done t => exact h
  | turn hturn _ ih => exact ih (h.turn hturn).1

theorem StringBody.ne_backslash {q : Char} {t : Text} (h : StringBody q t) : t ≠ ['\\'] := by
  rintro rfl
  cases h with
  | char _ he _ => exact he rfl

/-- What is read from the inside of a literal, glyph by glyph. -/
theorem unescape_source {q : Char} {glyphs : List Glyph} (h : ∀ g ∈ glyphs, g.Valid q) :
    unescape q (glyphs.flatMap Glyph.source) = glyphs.flatMap (Glyph.meaning q) := by
  induction glyphs with
  | nil => rfl
  | cons g glyphs ih =>
    rw [List.forall_mem_cons] at h
    rw [List.flatMap_cons, List.flatMap_cons, ← ih h.2]
    cases g with
    | char c => exact unescape_cons h.1.2 _
    | pair c => exact unescape_pair q c _

/-! ## Values -/

theorem slice_literal {v inner : Text} {q : Char} (hq : isQuote q = true)
    (hv : v = q :: (inner ++ [q])) :
    Text.ValidSlice 1 (Text.byteSize v - 1) v ∧ Text.slice 1 (Text.byteSize v - 1) v = inner := by
  have hone : Text.byteSize [q] = 1 := by
    simp only [isQuote, Bool.or_eq_true, decide_eq_true_eq] at hq
    rcases hq with (rfl | rfl) | rfl <;> rfl
  have ht : v = [q] ++ inner ++ [q] := hv
  have hslice := Text.slice_of_eq ht
  have hstop : Text.byteSize v - 1 = Text.byteSize ([q] ++ inner) := by
    rw [ht, Text.byteSize_append _ [q], hone, Nat.add_sub_cancel]
  rwa [hone, ← hstop] at hslice

theorem parse_of_literal {raw inner : Text} {q : Char} (hq : isQuote q = true)
    (hbody : StringBody q inner) (hv : Text.trim raw = q :: (inner ++ [q])) :
    Value.parse raw = .text (unescape q inner) := by
  simp only [Value.parse, literal?_eq_some_iff.2 ⟨hq, hbody, hv⟩]

theorem parse_of_path {raw : Text} (hlit : ¬ IsLiteral (Text.trim raw))
    (hpath : IsPath (Text.trim raw)) : Value.parse raw = .identifier (Text.trim raw) := by
  simp only [Value.parse, literal?_eq_none hlit, isIdentifierPath_iff.2 hpath, if_true]

theorem parse_of_expression {raw : Text} (hlit : ¬ IsLiteral (Text.trim raw))
    (hpath : ¬ IsPath (Text.trim raw)) : Value.parse raw = .expression (Text.trim raw) := by
  rw [← isIdentifierPath_iff] at hpath
  simp only [Value.parse, literal?_eq_none hlit, if_neg hpath]

/-- The three kinds of value, one of which a text has. -/
theorem parse_cases {raw v : Text} (h : Text.trim raw = v) :
    (IsLiteral v ∧ ∃ content, Value.parse raw = .text content) ∨
    (¬ IsLiteral v ∧ IsPath v ∧ Value.parse raw = .identifier v) ∨
    (¬ IsLiteral v ∧ ¬ IsPath v ∧ Value.parse raw = .expression v) := by
  subst h
  by_cases hlit : IsLiteral (Text.trim raw)
  · obtain ⟨q, inner, hq, hbody, hv⟩ := hlit
    exact Or.inl ⟨⟨q, inner, hq, hbody, hv⟩, _, parse_of_literal hq hbody hv⟩
  · by_cases hpath : IsPath (Text.trim raw)
    · exact Or.inr (Or.inl ⟨hlit, hpath, parse_of_path hlit hpath⟩)
    · exact Or.inr (Or.inr ⟨hlit, hpath, parse_of_expression hlit hpath⟩)

/-- A value is a string exactly if its text is one literal, a path exactly if it is one and no
literal, and else an expression as it stands; its bytes are a literal exactly if it is. The inside
of a literal is a slice between characters, the decoder never comes to a backslash that is the last
character, and what it reads is the meaning of the characters and pairs that the inside is made of
in one way only. -/
theorem parse_exact (raw : Text) :
    let v := Text.trim raw
    ((∃ content, Value.parse raw = .text content) ↔ IsLiteral v) ∧
    (∀ path, Value.parse raw = .identifier path ↔ ¬ IsLiteral v ∧ IsPath v ∧ path = v) ∧
    (∀ source, Value.parse raw = .expression source ↔ ¬ IsLiteral v ∧ ¬ IsPath v ∧ source = v) ∧
    literal? (octets v) = (literal? v).map (fun (q, inner) => (q, octets inner)) ∧
    ∀ q inner, isQuote q = true → StringBody q inner → v = q :: (inner ++ [q]) →
      Text.ValidSlice 1 (Text.byteSize v - 1) v ∧ Text.slice 1 (Text.byteSize v - 1) v = inner ∧
      (∀ written rest, Reaches q inner written rest →
        unescape q inner = written ++ unescape q rest ∧ rest ≠ ['\\']) ∧
      ∃ glyphs : List Glyph, (∀ g ∈ glyphs, g.Valid q) ∧ inner = glyphs.flatMap Glyph.source ∧
        (∀ others : List Glyph, (∀ g ∈ others, g.Valid q) → inner = others.flatMap Glyph.source →
          others = glyphs) ∧
        Value.parse raw = .text (glyphs.flatMap (Glyph.meaning q)) := by
  intro v
  have hraw : Text.trim raw = v := rfl
  clear_value v
  have hkinds := parse_cases hraw
  refine ⟨?_, ?_, ?_, literal?_octets v, ?_⟩
  · rcases hkinds with ⟨hlit, content, h⟩ | ⟨hlit, -, h⟩ | ⟨hlit, -, h⟩
    all_goals simp [h, hlit]
  · intro path
    rcases hkinds with ⟨hlit, content, h⟩ | ⟨hlit, hpath, h⟩ | ⟨hlit, hpath, h⟩
    · simp [h, hlit]
    · simp [h, hlit, hpath, eq_comm]
    · simp [h, hpath]
  · intro source
    rcases hkinds with ⟨hlit, content, h⟩ | ⟨hlit, hpath, h⟩ | ⟨hlit, hpath, h⟩
    · simp [h, hlit]
    · simp [h, hpath]
    · simp [h, hlit, hpath, eq_comm]
  · intro q inner hq hbody hv
    obtain ⟨hvalid, hslice⟩ := slice_literal hq hv
    obtain ⟨glyphs, hglyphs, hinner⟩ := hbody.exists_glyphs
    refine ⟨hvalid, hslice, ?_, glyphs, hglyphs, hinner, ?_, ?_⟩
    · intro written rest hrun
      exact ⟨hrun.unescape_eq, (hbody.reaches hrun).ne_backslash⟩
    · intro others hothers hsource
      exact source_injective hothers hglyphs (hsource.symm.trans hinner)
    · rw [parse_of_literal hq hbody (hraw.trans hv), hinner, unescape_source hglyphs]

end Playbook.Call
