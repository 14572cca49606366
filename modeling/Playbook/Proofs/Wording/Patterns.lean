import Playbook.Proofs.Text.Rules
import Playbook.Wording

/-!
# Patterns of blocks

A block that chooses a model is told by where it starts and where it stops. Both are patterns: a
fixed text, or a heading with a number. A pattern does not look beyond the row it matches in, and
all blocks stop at headings.

Results:
* `literal_eq_some_iff`, `numbered_eq_some_iff`: what the patterns match.
* `sound_of_mem`: what the blocks have in common.
-/
namespace Playbook

namespace Wording

/-! ## What patterns match -/

theorem literal_eq_some_iff {pattern t : Text} {width : Nat} :
    literal pattern t = some width ↔ width = pattern.length ∧ ∃ rest, t = pattern ++ rest := by
  unfold literal
  split
  · rename_i h
    simp [Text.startsWith_iff.1 h, eq_comm]
  · rename_i h
    rw [Text.startsWith_iff] at h
    simp [h]

theorem literal_eq_none {pattern t : Text} :
    literal pattern t = none ↔ Text.after? pattern t = none := by
  rw [literal, Text.startsWith_eq]
  cases Text.after? pattern t <;> simp

/-- The number has digits of any script, at least one, and the title stands behind a dot. -/
theorem numbered_eq_some_iff {title t : Text} {width : Nat} :
    numbered title t = some width ↔ ∃ digits rest, digits ≠ [] ∧ digits.all Text.isDigit = true ∧
      t = anyHeading ++ (digits ++ ("." ++ title)) ++ rest ∧
      width = (anyHeading ++ (digits ++ ("." ++ title))).length := by
  have hwidth (digits : Text) : 3 + digits.length + 1 + title.length =
      (anyHeading ++ (digits ++ ("." ++ title))).length := by
    have hheading : anyHeading.length = 3 := rfl
    have hdot : ("." : Text).length = 1 := rfl
    simp only [List.length_append, hheading, hdot]
    omega
  constructor
  · intro h
    unfold numbered at h
    split at h
    · cases h
    · rename_i rest hrest
      simp only at h
      split at h
      · cases h
      · rename_i hdigits
        split at h
        · rename_i hdot
          obtain ⟨behind, hbehind⟩ := Text.startsWith_iff.1 hdot
          refine ⟨rest.takeWhile Text.isDigit, behind, by simpa using hdigits,
            List.all_takeWhile, ?_, ?_⟩
          · rw [List.append_assoc, List.append_assoc, ← hbehind,
              List.takeWhile_append_dropWhile]
            exact Text.after?_eq_some.1 hrest
          · rw [← Option.some.inj h, hwidth]
        · cases h
  · rintro ⟨digits, rest, hne, hall, rfl, rfl⟩
    have hafter : Text.after? "## " (anyHeading ++ (digits ++ ("." ++ title)) ++ rest) =
        some (digits ++ ("." ++ title ++ rest)) := by
      rw [Text.after?_eq_some, List.append_assoc, List.append_assoc]
      rfl
    -- the digits end right before the dot
    have htake : (digits ++ ("." ++ title ++ rest)).takeWhile Text.isDigit = digits := by
      rw [List.takeWhile_append_of_pos (List.all_eq_true.1 hall)]
      exact List.append_nil digits
    have hdrop : (digits ++ ("." ++ title ++ rest)).dropWhile Text.isDigit =
        "." ++ title ++ rest := by
      rw [List.dropWhile_append_of_pos (List.all_eq_true.1 hall)]
      rfl
    unfold numbered
    simp only [hafter, htake, hdrop]
    rw [if_neg (by simpa using hne), if_pos (Text.startsWith_iff.2 ⟨rest, rfl⟩), hwidth]

/-! ## Blocks -/

/-- A kind of block. -/
structure Block where
  start : Pattern
  stop : Pattern

def lookupTitle : Text := "**Model lookup table:**"

/-- The kinds of blocks that choose a model, in the order in which they are struck. -/
def modelBlocks : List Block :=
  [⟨numbered (" " ++ modelTitle), numbered []⟩,
    ⟨literal (anyHeading ++ modelTitle), literal anyHeading⟩,
    ⟨literal lookupTitle, literal anyHeading⟩]

def Block.strike (block : Block) (t : Text) : Text := Wording.strike block.start block.stop t

theorem strikeModels_eq (t : Text) :
    strikeModels t = modelBlocks.foldl (fun t block => block.strike t) t := rfl

/-- What the pattern matches is a part of the text, at least one character long. -/
def Consumes (pattern : Pattern) : Prop :=
  ∀ t width, pattern t = some width → ∃ found rest, t = found ++ rest ∧ found.length = width ∧
    found ≠ []

/-- The pattern does not look beyond a line feed. -/
def InRow (pattern : Pattern) : Prop := ∀ t u, pattern (t ++ '\n' :: u) = pattern t

/-- The pattern matches only where a heading starts. -/
def AtHeading (pattern : Pattern) : Prop := ∀ t, pattern t ≠ none → ∃ rest, t = anyHeading ++ rest

/-- The pattern does not match within the marks of a heading. -/
def OffHeading (pattern : Pattern) : Prop :=
  ∀ t, pattern ('#' :: ' ' :: t) = none ∧ pattern (' ' :: t) = none

theorem consumes_literal {pattern : Text} (h : pattern ≠ []) : Consumes (literal pattern) := by
  intro t width hmatch
  obtain ⟨rfl, rest, ht⟩ := literal_eq_some_iff.1 hmatch
  exact ⟨pattern, rest, ht, rfl, h⟩

theorem consumes_numbered (title : Text) : Consumes (numbered title) := by
  intro t width hmatch
  obtain ⟨digits, rest, -, -, ht, hwidth⟩ := numbered_eq_some_iff.1 hmatch
  exact ⟨_, rest, ht, hwidth.symm, List.append_ne_nil_of_left_ne_nil (by decide) _⟩

theorem inRow_literal {pattern : Text} (h : '\n' ∉ pattern) : InRow (literal pattern) := by
  intro t u
  rw [literal, literal, Text.startsWith_append_cons h]

theorem inRow_numbered {title : Text} (h : '\n' ∉ title) : InRow (numbered title) := by
  intro t u
  have hdot : '\n' ∉ ("." ++ title : Text) := by
    rw [List.mem_append, not_or]
    exact ⟨by decide, h⟩
  unfold numbered
  rw [Text.after?_append_cons (by decide)]
  cases Text.after? "## " t with
  | none => rfl
  | some rest =>
    obtain ⟨htake, hdrop⟩ := Text.span_append_cons (show Text.isDigit '\n' = false by decide) rest u
    simp only [Option.map_some, htake, hdrop, Text.startsWith_append_cons hdot]

theorem atHeading_anyHeading : AtHeading (literal anyHeading) := by
  intro t h
  obtain ⟨width, hwidth⟩ := Option.ne_none_iff_exists'.1 h
  exact (literal_eq_some_iff.1 hwidth).2

theorem atHeading_numbered (title : Text) : AtHeading (numbered title) := by
  intro t h
  obtain ⟨width, hwidth⟩ := Option.ne_none_iff_exists'.1 h
  obtain ⟨digits, rest, -, -, ht, -⟩ := numbered_eq_some_iff.1 hwidth
  exact ⟨digits ++ ("." ++ title) ++ rest, by rw [ht, List.append_assoc]⟩

/-- What all blocks have in common. -/
structure Block.Sound (block : Block) : Prop where
  consumes : Consumes block.start
  off : OffHeading block.start
  startInRow : InRow block.start
  atHeading : AtHeading block.stop
  stopInRow : InRow block.stop

theorem sound_of_mem {block : Block} (h : block ∈ modelBlocks) : block.Sound := by
  simp only [modelBlocks, List.mem_cons, List.not_mem_nil, or_false] at h
  rcases h with rfl | rfl | rfl
  · exact ⟨consumes_numbered _, fun _ => ⟨rfl, rfl⟩, inRow_numbered (by decide),
      atHeading_numbered [], inRow_numbered (by decide)⟩
  · exact ⟨consumes_literal (by decide), fun _ => ⟨rfl, rfl⟩, inRow_literal (by decide),
      atHeading_anyHeading, inRow_literal (by decide)⟩
  · exact ⟨consumes_literal (by decide), fun _ => ⟨rfl, rfl⟩, inRow_literal (by decide),
      atHeading_anyHeading, inRow_literal (by decide)⟩

end Wording

end Playbook
