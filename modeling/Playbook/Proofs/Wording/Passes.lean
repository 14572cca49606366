import Playbook.Proofs.Text.First
import Playbook.Proofs.Wording.Patterns

/-!
# Passes

Striking a kind of blocks is one pass over the text, from the left. The pass keeps what stands
before a block, takes out its opening, that is what its start matches, and its body, that runs to
where the block stops, and goes on from there. What is kept holds no start, and a body no stop.

Results:
* `strikeFrom_open`: behind a block, the text goes on with a heading.
* `strike_source`: a pass described in this way keeps what striking keeps.
* `exists_pass`, `exists_passes`: every text has such a pass, and one after the other.
-/
namespace Playbook.Wording

open Text (Free breakAt)

/-! ## Passes -/

/-- What a pass does to a text, from the left. -/
inductive Pass
  /-- The text is kept. -/
  | last (kept : Text)
  /-- Some text is kept, and the block behind it is taken out. -/
  | cut (kept opening body : Text) (behind : Pass)

namespace Pass

/-- The text that the pass is over. -/
def source : Pass → Text
  | last kept => kept
  | cut kept opening body behind => kept ++ (opening ++ (body ++ behind.source))

/-- The text that the pass leaves. -/
def result : Pass → Text
  | last kept => kept
  | cut kept _ _ behind => kept ++ behind.result

end Pass

/-- A block stands between what is kept and the rest of the text: it is the first that starts, and
stops as soon as it can. -/
structure Block.Cut (block : Block) (kept opening body rest : Text) : Prop where
  kept : Free block.start kept (opening ++ (body ++ rest))
  opening : block.start (opening ++ (body ++ rest)) = some opening.length
  body : Free block.stop body rest
  stop : rest = [] ∨ block.stop rest ≠ none

/-- The pass takes out the blocks of a kind. -/
def Pass.Exact (block : Block) : Pass → Prop
  | .last kept => Free block.start kept []
  | .cut kept opening body behind =>
    block.Cut kept opening body behind.source ∧ behind.Exact block

section
variable {start stop : Pattern}

theorem strikeFrom_free {u v : Text} (h : Free start u v) :
    strikeFrom start stop 0 false (u ++ v) = u ++ strikeFrom start stop 0 false v := by
  induction u with
  | nil => rfl
  | cons c u ih =>
    obtain ⟨hnone, h⟩ := Text.free_cons.1 h
    simp only [List.cons_append, strikeFrom, Bool.false_and, Bool.false_eq_true, if_false, hnone]
    rw [ih h]

theorem strikeFrom_skip (u v : Text) :
    strikeFrom start stop u.length true (u ++ v) = strikeFrom start stop 0 true v := by
  induction u with
  | nil => rfl
  | cons c u ih => exact ih

theorem strikeFrom_opening {u v : Text} (hne : u ≠ []) (h : start (u ++ v) = some u.length) :
    strikeFrom start stop 0 false (u ++ v) = strikeFrom start stop 0 true v := by
  cases u with
  | nil => exact absurd rfl hne
  | cons c u =>
    rw [List.cons_append] at h
    simp only [List.cons_append, strikeFrom, Bool.false_and, Bool.false_eq_true, if_false, h]
    exact strikeFrom_skip u v

theorem strikeFrom_body {u v : Text} (h : Free stop u v) :
    strikeFrom start stop 0 true (u ++ v) = strikeFrom start stop 0 true v := by
  induction u with
  | nil => rfl
  | cons c u ih =>
    obtain ⟨hnone, h⟩ := Text.free_cons.1 h
    rw [List.cons_append, strikeFrom, hnone, Option.isNone_none, Bool.and_self, if_pos rfl, ih h]

theorem strikeFrom_stop {t : Text} (h : t = [] ∨ stop t ≠ none) :
    strikeFrom start stop 0 true t = strikeFrom start stop 0 false t := by
  cases t with
  | nil => rfl
  | cons c t =>
    have hstop := h.resolve_left (List.cons_ne_nil c t)
    rw [← Option.isSome_iff_ne_none, ← Option.not_isNone, Bool.not_eq_true'] at hstop
    simp only [strikeFrom, hstop, Bool.and_false]

end

section
variable {block : Block} (hblock : block.Sound)
include hblock

theorem Block.Sound.opening_ne_nil {opening rest : Text}
    (h : block.start (opening ++ rest) = some opening.length) : opening ≠ [] := by
  obtain ⟨found, rest, -, hlength, hne⟩ := hblock.consumes _ _ h
  rwa [← List.length_pos_iff, ← hlength, List.length_pos_iff]

/-- What is left behind an open block starts with a heading, if there is anything. -/
theorem strikeFrom_open (skip : Nat) (t : Text) :
    strikeFrom block.start block.stop skip true t = [] ∨
      ∃ rest, strikeFrom block.start block.stop skip true t = anyHeading ++ rest := by
  induction t generalizing skip with
  | nil => exact Or.inl rfl
  | cons c t ih =>
    cases skip with
    | succ skip => exact ih skip
    | zero =>
      rw [strikeFrom, Bool.true_and]
      split
      · exact ih 0
      · rename_i hmatch
        split
        · exact ih _
        · -- no other block starts within the marks of the heading
          obtain ⟨rest, hrest⟩ := hblock.atHeading (c :: t) (by simpa using hmatch)
          have hcons : c :: t = '#' :: '#' :: ' ' :: rest := hrest
          obtain ⟨rfl, rfl⟩ := List.cons.inj hcons
          obtain ⟨hmark, hblank⟩ := hblock.off rest
          simp only [strikeFrom, Bool.false_and, Bool.false_eq_true, if_false, hmark, hblank]
          exact Or.inr ⟨_, rfl⟩

/-- A pass that takes out the blocks leaves what striking leaves. -/
theorem strike_source {pass : Pass} (h : pass.Exact block) :
    block.strike pass.source = pass.result := by
  unfold Block.strike strike
  induction pass with
  | last kept =>
    have hall : strikeFrom block.start block.stop 0 false (kept ++ []) = _ := strikeFrom_free h
    rwa [List.append_nil, strikeFrom, List.append_nil] at hall
  | cut kept opening body behind ih =>
    obtain ⟨hcut, hbehind⟩ := h
    rw [Pass.source, strikeFrom_free hcut.kept,
      strikeFrom_opening (hblock.opening_ne_nil hcut.opening) hcut.opening,
      strikeFrom_body hcut.body, strikeFrom_stop hcut.stop, ih hbehind, Pass.result]

/-- Every text has a pass that takes out its blocks. -/
theorem exists_pass (t : Text) : ∃ pass : Pass, pass.source = t ∧ pass.Exact block := by
  induction t using Text.first_induction block.start with
  | none t hfree => exact ⟨.last t, rfl, hfree⟩
  | first kept v width hkept hwidth ih =>
    obtain ⟨opening, rest, rfl, rfl, hne⟩ := hblock.consumes _ _ hwidth
    have hbody := Text.append_breakAt block.stop rest
    -- the pass goes on behind the body
    have hshorter : (breakAt block.stop rest).2.length < (opening ++ rest).length := by
      have hlength := congrArg List.length hbody
      have hpos := List.length_pos_iff.2 hne
      rw [List.length_append] at hlength ⊢
      omega
    obtain ⟨behind, hsource, hexact⟩ := ih _ hshorter
    refine ⟨.cut kept opening (breakAt block.stop rest).1 behind, ?_, ?_, hexact⟩
    · rw [Pass.source, hsource, hbody]
    · rw [hsource]
      refine ⟨?_, ?_, Text.free_breakAt block.stop rest, Text.breakAt_stops block.stop rest⟩
      · rwa [hbody]
      · rwa [hbody]

end

/-- Passes in turn, one for each kind of blocks, and each over what the one before it leaves. -/
inductive Passes : List Block → Text → List Pass → Text → Prop
  | done (t : Text) : Passes [] t [] t
  | pass {block : Block} {blocks : List Block} {pass : Pass} {passes : List Pass} {result : Text}
      (hexact : pass.Exact block) (behind : Passes blocks pass.result passes result) :
      Passes (block :: blocks) pass.source (pass :: passes) result

theorem exists_passes {blocks : List Block} (hsound : ∀ block ∈ blocks, block.Sound) (t : Text) :
    ∃ passes, Passes blocks t passes (blocks.foldl (fun t block => block.strike t) t) := by
  induction blocks generalizing t with
  | nil => exact ⟨[], .done t⟩
  | cons block blocks ih =>
    obtain ⟨hblock, hothers⟩ := List.forall_mem_cons.1 hsound
    obtain ⟨pass, rfl, hexact⟩ := exists_pass hblock t
    obtain ⟨passes, hpasses⟩ := ih hothers (block.strike pass.source)
    rw [List.foldl_cons, strike_source hblock hexact] at *
    exact ⟨pass :: passes, .pass hexact hpasses⟩

end Playbook.Wording
