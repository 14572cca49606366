import Playbook.Proofs.Snippet.Blocks
import Playbook.Proofs.Wording.Traces

/-!
# Traces before a snippet

The marker before a safe block starts with the character that `~/.claude` lacks to be a path below
the assistant's directory. No other mark comes with a marker, and none goes.

Results:
* `annotated_applyFrom`: how marking safe blocks goes through a text.
* `Annotated.edited`, `Annotated.edited_back`: the marks with and without the markers.
* `Annotated.exists_marked`: a safe block right behind `~/.claude` is marked.
* `traceless_annotate_iff`: what marking safe blocks does to a text without traces.
-/
namespace Playbook

namespace Text

theorem exists_of_not_mem_left {a b s t : Text} {c : Char} (h : a ++ b = s ++ c :: t)
    (hc : c ∉ a) : ∃ u, s = a ++ u ∧ b = u ++ c :: t := by
  rcases List.append_eq_append_iff.1 h with ⟨u, hs, hb⟩ | ⟨u, ha, hcons⟩
  · exact ⟨u, hs, hb⟩
  · cases u with
    | nil => exact ⟨[], by simp [ha], hcons.symm⟩
    | cons d u =>
      obtain ⟨rfl, -⟩ := List.cons.inj hcons
      exact absurd (by simp [ha]) hc

theorem exists_of_not_mem_right {a b s t : Text} {c : Char} (h : a ++ b = s ++ c :: t)
    (hc : c ∉ b) : ∃ u, a = s ++ c :: u ∧ t = u ++ b := by
  rcases List.append_eq_append_iff.1 h with ⟨u, -, hb⟩ | ⟨u, ha, hcons⟩
  · exact absurd (by simp [hb]) hc
  · cases u with
    | nil =>
      have hb : b = c :: t := hcons.symm
      exact absurd (by simp [hb]) hc
    | cons d u =>
      obtain ⟨rfl, ht⟩ := List.cons.inj hcons
      exact ⟨u, ha, ht⟩

end Text

namespace Snippet

open Wording (marks pathMark sameChar)

/-! ## Going through a text -/

theorem exists_cons_of_isSafe {line : Text} (h : isSafe line = true) :
    ∃ c t, line = c :: t ∧ c ≠ '\x60' := by
  cases line with
  | nil => cases h
  | cons c t =>
    refine ⟨c, t, rfl, ?_⟩
    rintro rfl
    cases h

theorem startBehind_cases (before : Text) :
    startBehind before = fenceStart ∨ startBehind before = markedStart := by
  unfold startBehind
  split
  · exact Or.inl rfl
  · exact Or.inr rfl

/-- Behind `before`, marking the safe blocks of the first text gives the second. -/
inductive Annotated : (before t t' : Text) → Prop
  | done (before : Text) : Annotated before [] []
  | char {before t t' : Text} (c : Char)
      (hother : ∀ line, block? (c :: t) = some line → isSafe line = false)
      (behind : Annotated (c :: before) t t') : Annotated before (c :: t) (c :: t')
  | safe {before line t t' : Text} (hline : block? (block line ++ t) = some line)
      (hsafe : isSafe line = true) (behind : Annotated ((block line).reverse ++ before) t t') :
      Annotated before (block line ++ t) (startBehind before ++ (blockTail line ++ t'))

theorem annotated_applyFrom (before t : Text) :
    Annotated before t (rule.applyFrom 0 before t) := by
  refine fits_rule.applyFrom_induction (motive := Annotated) .done ?_ ?_ before t
  · intro before c t t' hnone ih
    refine .char c (fun line hline => ?_) ih
    simpa [rule, hline] using hnone
  · intro before found written t t' hedit hne ih
    obtain ⟨line, behind, hrest, hline, hsafe⟩ := rule_eq_some hedit
    rw [hrest] at hedit hline
    rw [rule_of_safe before hline hsafe, Option.some.injEq, Edit.mk.injEq] at hedit
    obtain ⟨hlen, rfl⟩ := hedit
    obtain ⟨rfl, rfl⟩ := List.append_inj hrest hlen.symm
    rw [List.append_assoc]
    exact .safe hline hsafe ih

/-! ## Marks with a marker -/

/-- What a path below the assistant's directory starts with, but for its last character. -/
def pathLead : Text := "~/.claude"

/-- Where a marker is written, a mark that has begun goes on only from `~/.claude`. -/
theorem clashes_marked {m : Mark} (hm : m ∈ marks) {q p : List (Char → Bool)}
    (hshape : m.shape = q ++ p) (hq : q ≠ []) (hp : p ≠ []) :
    Mark.clashes p markedStart = true ∨ (m = pathMark ∧ q = pathLead.map sameChar) := by
  have hall : ∀ m ∈ marks, Mark.allTails (fun p => Mark.clashes p markedStart ||
      (decide (p.length = 1) && !m.whole)) m.others = true := by decide
  obtain ⟨a, q, rfl⟩ := List.exists_cons_of_ne_nil hq
  rw [Mark.shape, List.cons_append, List.cons.injEq] at hshape
  have hrest := hall m hm
  rw [hshape.2] at hrest
  have hcase := Mark.of_allTails hrest hp
  rw [Bool.or_eq_true, Bool.and_eq_true, Bool.not_eq_true', decide_eq_true_eq] at hcase
  rcases hcase with hclash | ⟨hlen, hwhole⟩
  · exact Or.inl hclash
  · right
    obtain rfl := Wording.eq_pathMark hm hwhole
    obtain ⟨x, rfl⟩ := List.length_eq_one_iff.1 hlen
    have hlast := congrArg List.dropLast hshape.2
    rw [List.dropLast_concat] at hlast
    exact ⟨rfl, by rw [← hshape.1, ← hlast]; rfl⟩

theorem startsWith_of_ends {before : Text} (h : Mark.Ends (pathLead.map sameChar) before) :
    Text.startsWith pathLead.reverse before = true := by
  obtain ⟨w, rest, rfl, hw⟩ := h
  rw [Wording.after?_sameChar, Text.after?_eq_some, List.append_nil] at hw
  subst hw
  exact Text.startsWith_iff.2 ⟨rest, rfl⟩

/-- A marker brings no mark along, unless it comes right behind `~/.claude`. -/
theorem swap_marked {m : Mark} (hm : m ∈ marks) {before before' t t' : Text}
    (hlead : m = pathMark → Text.startsWith pathLead.reverse before' = false)
    (behind : m.Edited (fenceStart.reverse ++ before) (markedStart.reverse ++ before') t t') :
    m.Edited before before' (fenceStart ++ t) (markedStart ++ t') := by
  have hwithin : ∀ m ∈ marks, Mark.allTails (Mark.clashes m.shape) markedStart = true := by decide
  refine .swap fenceStart markedStart ?_ ?_ behind
  · rintro u v huv hv ⟨remaining, hafter, -⟩
    have hclash := hwithin m hm
    rw [huv] at hclash
    rw [Mark.after?_of_clashes (Mark.of_allTails hclash hv)] at hafter
    cases hafter
  · intro q p hshape hq hends
    constructor
    · intro hp
      rcases clashes_marked hm hshape hq hp with hclash | ⟨hpath, rfl⟩
      · exact Mark.after?_of_clashes hclash t'
      · rw [startsWith_of_ends hends] at hlead
        cases hlead hpath
    · intro _ _
      rw [Mark.head?_append (by decide), Mark.head?_append (by decide)]
      decide

/-- Without its marker, a block brings no mark along. -/
theorem spares_unmarked {m : Mark} (hm : m ∈ marks) : m.Spares markedStart fenceStart where
  apart := by
    have hall : ∀ m ∈ marks, m.apart fenceStart = true := by decide
    exact hall m hm
  old_ne := by decide
  new_ne := by decide
  head := by decide
  last := by decide

theorem isWordAt_start {start : Text} (h : start = fenceStart ∨ start = markedStart)
    (before : Text) : Text.isWordAt (start.reverse ++ before).head? = false := by
  rcases h with rfl | rfl
  all_goals rw [Mark.head?_reverse_append (by decide)]
  all_goals decide

theorem isWordAt_blockTail (line before : Text) :
    Text.isWordAt ((blockTail line).reverse ++ before).head? = false := by
  obtain ⟨inner, hinner⟩ := exists_blockTail_eq line
  rw [hinner, List.reverse_append]
  exact isWordAt_start (Or.inl rfl) _

/-! ## Marks in an annotated text -/

/-- The places right behind `~/.claude` hold no safe block. -/
def Clear (before t : Text) : Prop :=
  ∀ u v line, t = u ++ v → block? v = some line → isSafe line = true →
    Text.startsWith pathLead.reverse (u.reverse ++ before) = false

theorem Clear.append {before t w : Text} (h : Clear before (w ++ t)) :
    Clear (w.reverse ++ before) t := by
  intro u v line huv hline hsafe
  have hlead := h (w ++ u) v line (by rw [huv, List.append_assoc]) hline hsafe
  rwa [List.reverse_append, List.append_assoc] at hlead

/-- What stands before a block does not matter behind it. -/
theorem Clear.behind_block {line before before' t : Text}
    (h : Clear ((blockTail line).reverse ++ before) t) :
    Clear ((blockTail line).reverse ++ before') t := by
  obtain ⟨inner, hinner⟩ := exists_blockTail_eq line
  have hfence : '\x60' ∉ pathLead.reverse := by decide
  have hforgets (u b : Text) : Text.startsWith pathLead.reverse
      (u ++ ((blockTail line).reverse ++ b)) = Text.startsWith pathLead.reverse u := by
    rw [hinner, List.reverse_append]
    exact Text.startsWith_append_cons hfence u (inner.reverse ++ b)
  intro u v line' huv hline hsafe
  have hlead := h u v line' huv hline hsafe
  rwa [hforgets] at hlead ⊢

/-- Marking safe blocks brings no mark along, unless one is right behind `~/.claude`. -/
theorem Annotated.edited {m : Mark} (hm : m ∈ marks) {original before before' t t' : Text}
    (h : Annotated original t t')
    (hedge : Text.isWordAt before.head? = Text.isWordAt before'.head?)
    (habsent : m.AbsentFrom before t) (hclear : m = pathMark → Clear before' t) :
    m.Edited before before' t t' := by
  induction h generalizing before before' with
  | done original => exact .done before before'
  | char c hother behind ih =>
    obtain ⟨hnot, hbehind⟩ := habsent.cons
    refine .keep c hnot (fun _ _ => hedge) (ih rfl hbehind fun hpath => ?_)
    exact (hclear hpath).append (w := [c])
  | @safe original line t t' hline hsafe behind ih =>
    rw [block, List.append_assoc] at hline habsent hclear ⊢
    have hgo (start : Text) :
        m.Edited ((blockTail line).reverse ++ (fenceStart.reverse ++ before))
          ((blockTail line).reverse ++ (start.reverse ++ before')) t t' := by
      refine ih ?_ habsent.append.append fun hpath => (hclear hpath).append.append.behind_block
      rw [isWordAt_blockTail, isWordAt_blockTail]
    rcases startBehind_cases original with hstart | hstart
    all_goals rw [hstart]
    · exact .keep_all habsent hedge (.keep_all habsent.append rfl (hgo fenceStart))
    · refine swap_marked hm (fun hpath => hclear hpath [] _ line rfl hline hsafe)
        (.keep_all habsent.append ?_ (hgo markedStart))
      rw [isWordAt_start (Or.inl rfl), isWordAt_start (Or.inr rfl)]

/-- Without its markers, a text has no mark that it does not have with them. -/
theorem Annotated.edited_back {m : Mark} (hm : m ∈ marks) {original before before' t t' : Text}
    (h : Annotated original t t')
    (hedge : Text.isWordAt before.head? = Text.isWordAt before'.head?)
    (habsent : m.AbsentFrom before t') : m.Edited before before' t' t := by
  induction h generalizing before before' with
  | done original => exact .done before before'
  | char c hother behind ih =>
    obtain ⟨hnot, hbehind⟩ := habsent.cons
    exact .keep c hnot (fun _ _ => hedge) (ih rfl hbehind)
  | @safe original line t t' hline hsafe behind ih =>
    rw [block, List.append_assoc]
    have hgo {start : Text} (habsent : m.AbsentFrom before (start ++ (blockTail line ++ t'))) :
        m.Edited ((blockTail line).reverse ++ (start.reverse ++ before))
          ((blockTail line).reverse ++ (fenceStart.reverse ++ before')) t' t := by
      refine ih ?_ habsent.append.append
      rw [isWordAt_blockTail, isWordAt_blockTail]
    rcases startBehind_cases original with hstart | hstart
    all_goals rw [hstart] at habsent ⊢
    · exact .keep_all habsent hedge (.keep_all habsent.append rfl (hgo habsent))
    · refine (spares_unmarked hm).swap (.keep_all habsent.append ?_ (hgo habsent))
      rw [isWordAt_start (Or.inl rfl), isWordAt_start (Or.inr rfl)]

/-! ## A block right behind a path that has begun -/

/-- A safe block right behind `~/.claude` does not start in another block, whose closing fence
would have to be its line. -/
theorem exists_append_of_block {line line' behind u v : Text}
    (h : block line ++ behind = u ++ (pathLead ++ v)) (hnl : '\n' ∉ line)
    (hline : block? v = some line') (hsafe : isSafe line' = true) : ∃ w, u = block line ++ w := by
  have hlead : pathLead = "~/.claud" ++ ['e'] := rfl
  rw [← List.append_assoc] at h
  rcases List.append_eq_append_iff.1 h with ⟨r, hr, -⟩ | ⟨a, ha, hv⟩
  · -- the block ends with a character that the path does not hold
    obtain ⟨inner, hinner⟩ := exists_blockTail_eq line
    have hblock (t : Text) : block line ++ t = (fenceStart ++ inner) ++ '\x60' :: t := by
      rw [block, hinner, ← List.append_assoc, List.append_assoc _ fenceStart]
      rfl
    rw [hblock] at hr
    obtain ⟨w, hu, -⟩ := Text.exists_of_not_mem_right hr (by decide)
    exact ⟨w, hu.trans (hblock w).symm⟩
  · -- the last character of the path is on the line of the block
    have htext : openFence ++ (line ++ '\n' :: closeFence) = (u ++ "~/.claud") ++ 'e' :: a := by
      rw [← block_eq, ha, hlead, List.append_assoc, List.append_assoc, List.append_assoc]
      rfl
    obtain ⟨y, -, hy⟩ := Text.exists_of_not_mem_left htext (by decide)
    obtain ⟨rest, hrest, hclose⟩ := Text.exists_of_not_mem_right hy (by decide)
    obtain ⟨-, behind', hbehind'⟩ := block?_eq_some hline
    obtain ⟨fence, hopen, hfence⟩ : ∃ fence : Text, openFence = fence ++ ['\n'] ∧ '\n' ∉ fence :=
      ⟨"\x60\x60\x60bash", rfl, by decide⟩
    have hcut : fence ++ '\n' :: (line' ++ '\n' :: (closeFence ++ behind')) =
        rest ++ '\n' :: (closeFence ++ behind) := by
      rw [hclose, hbehind', block_eq, hopen] at hv
      simpa only [List.append_assoc, List.cons_append, List.nil_append] using hv
    have hrest' : '\n' ∉ rest := fun hmem => hnl (by simp [hrest, hmem])
    obtain ⟨-, hlines⟩ := Text.append_cons_inj hcut hfence hrest'
    obtain ⟨c, t, rfl, hc⟩ := exists_cons_of_isSafe hsafe
    exact absurd (List.cons.inj hlines).1 hc

theorem Annotated.cons_of_ne {before t t' : Text} {c : Char} (h : Annotated before (c :: t) t')
    (hc : c ≠ '\x60') : ∃ w, t' = c :: w ∧ Annotated (c :: before) t w := by
  generalize htext : c :: t = text at h
  cases h with
  | done => cases htext
  | char d hsafe behind =>
    cases htext
    exact ⟨_, rfl, behind⟩
  | safe hline hsafe behind => exact absurd (List.cons.inj htext).1 hc

theorem Annotated.of_append {before w t t' : Text} (h : Annotated before (w ++ t) t')
    (hw : '\x60' ∉ w) : ∃ t'', t' = w ++ t'' ∧ Annotated (w.reverse ++ before) t t'' := by
  induction w generalizing before t' with
  | nil => exact ⟨t', rfl, h⟩
  | cons c w ih =>
    rw [List.mem_cons, not_or] at hw
    obtain ⟨rest, rfl, hrest⟩ := h.cons_of_ne (Ne.symm hw.1)
    obtain ⟨t'', rfl, ht⟩ := ih hrest hw.2
    refine ⟨t'', rfl, ?_⟩
    rwa [List.reverse_cons, List.append_assoc]

theorem Annotated.of_safe {before t t' line : Text} (h : Annotated before t t')
    (hline : block? t = some line) (hsafe : isSafe line = true) :
    ∃ w, t' = startBehind before ++ w := by
  cases h with
  | done => cases hline
  | char c hother behind =>
    rw [hother line hline] at hsafe
    cases hsafe
  | safe hline' hsafe' behind => exact ⟨_, rfl⟩

/-- A safe block is marked right behind `~/.claude`. -/
theorem Annotated.exists_marked {before t t' u v line : Text} (h : Annotated before t t')
    (ht : t = u ++ (pathLead ++ v)) (hline : block? v = some line) (hsafe : isSafe line = true) :
    ∃ w rest, t' = w ++ (pathLead ++ (marker ++ rest)) := by
  induction h generalizing u with
  | done before =>
    have hnil := (List.append_eq_nil_iff.1 ht.symm).2
    exact absurd (List.append_eq_nil_iff.1 hnil).1 (by decide)
  | @char before t t' c hother behind ih =>
    cases u with
    | nil =>
      have h := Annotated.char c hother behind
      rw [ht, List.nil_append] at h
      obtain ⟨rest, hrest, hgo⟩ := h.of_append (by decide)
      obtain ⟨w, rfl⟩ := hgo.of_safe hline hsafe
      have hstart : startBehind (pathLead.reverse ++ before) = marker ++ fenceStart := rfl
      rw [hstart, List.append_assoc] at hrest
      exact ⟨[], fenceStart ++ w, hrest⟩
    | cons d u =>
      obtain ⟨rfl, htail⟩ := List.cons.inj ht
      obtain ⟨w, rest, rfl⟩ := ih htail
      exact ⟨c :: w, rest, rfl⟩
  | @safe before line' t t' hline' hsafe' behind ih =>
    obtain ⟨w, rfl⟩ := exists_append_of_block ht (block?_eq_some hline').1 hline hsafe
    rw [List.append_assoc] at ht
    obtain ⟨w', rest, rfl⟩ := ih (List.append_cancel_left ht)
    exact ⟨startBehind before ++ (blockTail line' ++ w'), rest, by simp⟩

/-- Marking safe blocks leaves a text without traces, unless a safe block stands right behind
`~/.claude`. -/
theorem traceless_annotate_iff {t : Text} : Wording.Traceless (annotate t) ↔
    Wording.Traceless t ∧ ∀ u v line, t = u ++ (pathLead ++ v) → block? v = some line →
      isSafe line = false := by
  have hannotated := annotated_applyFrom [] t
  constructor
  · intro h
    have hmarks := Wording.traceless_iff.1 h
    have hback : Wording.Traceless t := Wording.traceless_iff.2 fun m hm =>
      (hannotated.edited_back hm rfl (hmarks m hm)).absent
    refine ⟨hback, fun u v line ht hline => ?_⟩
    cases hsafe : isSafe line with
    | false => rfl
    | true =>
      obtain ⟨w, rest, hmarked⟩ := hannotated.exists_marked ht hline hsafe
      have hroot : annotate t = w ++ Reference.installRoot ++ ("/ turbo\n" ++ rest) := by
        rw [List.append_assoc]
        exact hmarked
      have hoccurs := h.2
      rw [hroot, Text.occursIn_append] at hoccurs
      cases hoccurs
  · rintro ⟨h, hclear⟩
    refine Wording.traceless_iff.2 fun m hm =>
      (hannotated.edited hm rfl (Wording.traceless_iff.1 h m hm) fun _ => ?_).absent
    intro u v line ht hline hsafe
    rw [List.append_nil]
    cases hlead : Text.after? pathLead.reverse u.reverse with
    | none => rw [Text.startsWith_eq, hlead, Option.isSome_none]
    | some rest =>
      have hu := congrArg List.reverse (Text.after?_eq_some.1 hlead)
      rw [List.reverse_reverse, List.reverse_append, List.reverse_reverse] at hu
      rw [hu, List.append_assoc] at ht
      rw [hclear _ v line ht hline] at hsafe
      cases hsafe

end Snippet

end Playbook
