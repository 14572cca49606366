import Playbook.Proofs.Snippet.Insertion
import Playbook.Proofs.Snippet.Marker
import Playbook.Proofs.Text.Rows

/-!
# Marking a marked text

A marker ends with a line feed. Put before a block in the middle of a line it ends that line, and if
the line is a safe one behind an opening fence, the fence of the block closes it: a safe block that
was not there before, which takes a fence away from the one that was marked. Where no marker is put
behind such a line, the safe blocks stay what they are, and marking again changes nothing.

Results:
* `annotate_eq_self_iff`: a text stays as it is exactly if all of its safe blocks are marked.
* `block_across`: where a block that starts in a text ends.
* `Blocks.exact_marked_iff`: whether the safe blocks of a marked text are those it had.
* `annotate_again`: when marking again changes nothing, and when it does.
* `annotate_again_marks`: a text that is marked twice.
-/
namespace Playbook.Snippet

open Text (Free)

/-! ## Texts that stay as they are -/

namespace Blocks

theorem length_annotated (blocks : Blocks) :
    blocks.annotated.length = blocks.source.length + marker.length * blocks.inserted.length := by
  induction blocks with
  | last text => rfl
  | next between line behind ih =>
    rw [annotated, source, inserted]
    cases isMarked between
    · simp only [Bool.false_eq_true, if_false, List.length_append, List.length_cons, ih,
        Nat.mul_succ]
      omega
    · simp only [if_true, List.length_append, List.length_nil, ih]
      omega

theorem annotated_eq_source {blocks : Blocks} (h : blocks.inserted = []) :
    blocks.annotated = blocks.source := by
  induction blocks with
  | last text => rfl
  | next between line behind ih =>
    rw [inserted] at h
    split at h
    · rename_i hmarked
      rw [annotated, source, if_pos hmarked, List.nil_append, ih h]
    · cases h

end Blocks

/-- A text stays as it is exactly if all of its safe blocks are marked. -/
theorem annotate_eq_self_iff {blocks : Blocks} (h : blocks.Exact) :
    annotate blocks.source = blocks.source ↔ blocks.inserted = [] := by
  rw [annotate_source h]
  refine ⟨fun hsame => ?_, Blocks.annotated_eq_source⟩
  have hlength := blocks.length_annotated
  have hmarker : 0 < marker.length := by decide
  rw [hsame] at hlength
  have hzero : marker.length * blocks.inserted.length = 0 := by omega
  exact List.eq_nil_of_length_eq_zero ((Nat.mul_eq_zero.1 hzero).resolve_left (by omega))

/-! ## Blocks that start before something -/

/-- An opening fence without its line feed. -/
def openRow : Text := "\x60\x60\x60bash"

/-- A marker without its line feed. -/
def markerRow : Text := "// turbo"

theorem openFence_append (t : Text) : openFence ++ t = openRow ++ '\n' :: t := rfl

theorem marker_append (t : Text) : marker ++ t = markerRow ++ '\n' :: t := rfl

theorem block_append (line rest : Text) :
    block line ++ rest = openFence ++ (line ++ '\n' :: (closeFence ++ rest)) := by
  rw [block_eq, List.append_assoc, List.append_assoc, List.cons_append]

/-- A block that starts in `u` ends behind the row `v`, or its line ends with that row, or its line
ends within `u`. -/
theorem block_across {u v w line behind : Text} (h : u ++ (v ++ '\n' :: w) = block line ++ behind)
    (hv : '\n' ∉ v) (hline : '\n' ∉ line) :
    openRow = u ++ v ∨
    (∃ front, u = openFence ++ front ∧ line = front ++ v ∧ w = closeFence ++ behind) ∨
    ∃ front, u = openFence ++ (line ++ '\n' :: front) ∧
      front ++ (v ++ '\n' :: w) = closeFence ++ behind := by
  rw [block_append, openFence_append] at h
  rcases Text.cut_row h hv (by decide) with ⟨hrow, -⟩ | ⟨front, rfl, hfront⟩
  · exact Or.inl hrow
  · refine Or.inr ?_
    rcases Text.cut_row hfront hv hline with ⟨hrow, hw⟩ | ⟨front, rfl, hclose⟩
    · exact Or.inl ⟨front, (openFence_append front).symm, hrow, hw⟩
    · exact Or.inr ⟨front, (openFence_append _).symm, hclose⟩

theorem safe?_closed {line front rest : Text} (hrow : '\n' ∉ line) (hsafe : SafeLine line)
    (behind : Text) (hclose : front ++ rest = closeFence ++ behind) :
    safe? (openFence ++ (line ++ '\n' :: front) ++ rest) = some line := by
  refine safe?_eq_some_iff.2 ⟨hrow, hsafe, behind, ?_⟩
  rw [block_append, ← hclose, List.append_assoc, List.append_assoc, List.cons_append]

/-- What follows a safe block does not matter before it. -/
theorem safe?_before_block {u line found rest : Text} (hu : u ≠ []) (hsafe : SafeLine line)
    (h : safe? (u ++ (block line ++ rest)) = some found) (rest' : Text) :
    safe? (u ++ (block line ++ rest')) = some found := by
  obtain ⟨hrow, hfound, behind, ht⟩ := safe?_eq_some_iff.1 h
  rw [block_append, openFence_append] at ht
  rcases block_across ht (by decide) hrow with hfence | ⟨front, -, -, hclose⟩ | ⟨front, rfl, hclose⟩
  · have hnil : [] ++ openRow = u ++ openRow := hfence
    exact absurd (List.append_cancel_right hnil).symm hu
  · -- a safe line is no closing fence
    obtain ⟨c, tail, rfl, hc⟩ := exists_cons_of_isSafe (isSafe_iff.2 hsafe)
    exact absurd (List.cons.inj hclose).1 hc
  · rw [← openFence_append, ← block_append, ← List.append_assoc] at hclose
    have hlength : closeFence.length ≤ (front ++ block line).length := by
      rw [block_eq]
      simp only [List.length_append, List.length_cons]
      omega
    obtain ⟨more, hmore⟩ :=
      List.prefix_of_prefix_length_le ⟨behind, hclose.symm⟩ (List.prefix_append _ _) hlength
    refine safe?_closed hrow hfound (more ++ rest') ?_
    rw [← List.append_assoc, ← hmore, List.append_assoc]

/-- A block that starts before a marker ends before it, or its line ends with it. -/
theorem safe?_before_marker {u found rest : Text} (h : safe? (u ++ (marker ++ rest)) = some found) :
    (∀ rest', safe? (u ++ rest') = some found) ∨
      ∃ front, u = openFence ++ front ∧ found = front ++ markerRow := by
  obtain ⟨hrow, hfound, behind, ht⟩ := safe?_eq_some_iff.1 h
  rw [marker_append] at ht
  rcases block_across ht (by decide) hrow with hfence | ⟨front, hu, hline, -⟩ | ⟨front, rfl, hclose⟩
  · have hlength := congrArg List.length hfence
    have hlengths : openRow.length < markerRow.length := by decide
    rw [List.length_append] at hlength
    omega
  · exact Or.inr ⟨front, hu, hline⟩
  · refine Or.inl fun rest' => ?_
    rcases List.append_eq_append_iff.1 hclose with ⟨more, hfence, hmore⟩ | ⟨more, rfl, -⟩
    · cases more with
      | nil =>
        rw [List.append_nil] at hfence
        exact safe?_closed hrow hfound rest' (by rw [hfence])
      | cons c more =>
        -- a fence does not hold the character that a marker starts with
        have hc : '/' = c := (List.cons.inj hmore).1
        have hslash : '/' ∈ closeFence := by
          rw [hfence, hc]
          exact List.mem_append_right _ List.mem_cons_self
        exact absurd hslash (by decide)
    · exact safe?_closed hrow hfound (more ++ rest') (List.append_assoc _ _ _)

/-! ## Open lines -/

/-- No lead holds the character that a marker starts with, so a marker behind a line completes
none. -/
theorem safeLine_append_markerRow {line : Text} : SafeLine (line ++ markerRow) ↔ SafeLine line := by
  have hleads : ∀ lead ∈ commandLeads ++ testLeads, '/' ∉ lead := by decide
  have hslash : markerRow = '/' :: "/ turbo" := rfl
  constructor
  · rintro (⟨lead, hlead, tail, hline⟩ | ⟨lead, hlead, tail, hline, hclosed⟩)
    · rw [hslash] at hline
      obtain ⟨rest, hrest, -⟩ :=
        Text.exists_of_not_mem_left hline.symm (hleads lead (List.mem_append_left _ hlead))
      exact Or.inl ⟨lead, hlead, rest, hrest⟩
    · rw [hslash] at hline
      obtain ⟨rest, hrest, rfl⟩ :=
        Text.exists_of_not_mem_left hline.symm (hleads lead (List.mem_append_right _ hlead))
      refine Or.inr ⟨lead, hlead, rest, hrest, ?_⟩
      rw [← hslash, List.mem_append] at hclosed
      exact hclosed.resolve_right (by decide)
  · rintro (⟨lead, hlead, tail, rfl⟩ | ⟨lead, hlead, tail, rfl, hclosed⟩)
    · exact Or.inl ⟨lead, hlead, tail ++ markerRow, List.append_assoc _ _ _⟩
    · exact Or.inr ⟨lead, hlead, tail ++ markerRow, List.append_assoc _ _ _,
        List.mem_append_left _ hclosed⟩

/-- Behind `front`, the text is an opening fence and a safe line that has not ended. -/
def OpenBehind (front t : Text) : Prop :=
  ∃ line, t = front ++ (openFence ++ line) ∧ '\n' ∉ line ∧ SafeLine line

theorem OpenBehind.not_lineStart {front t : Text} (h : OpenBehind front t) :
    ¬ Text.LineStart t := by
  obtain ⟨line, rfl, hrow, hsafe⟩ := h
  obtain ⟨c, rest, rfl, -⟩ := exists_cons_of_isSafe (isSafe_iff.2 hsafe)
  intro hstart
  rw [← List.append_assoc] at hstart
  obtain ⟨u, hu⟩ := hstart.behind.eq_append (List.cons_ne_nil c rest)
  rw [hu] at hrow
  exact hrow (List.mem_append_right u List.mem_cons_self)

theorem block_open_eq (front line rest : Text) :
    openFence ++ front ++ (marker ++ (block line ++ rest)) =
      block (front ++ markerRow) ++ ("bash\n" ++ (line ++ '\n' :: (closeFence ++ rest))) := by
  rw [marker_append, block_append, block_append, List.append_assoc, List.append_assoc]
  rfl

theorem safe?_open {front : Text} (hrow : '\n' ∉ front) (hsafe : SafeLine front)
    (line rest : Text) :
    safe? (openFence ++ front ++ (marker ++ (block line ++ rest))) = some (front ++ markerRow) := by
  refine safe?_eq_some_iff.2 ⟨?_, safeLine_append_markerRow.2 hsafe, _,
    block_open_eq front line rest⟩
  rw [List.mem_append, not_or]
  exact ⟨hrow, by decide⟩

/-! ## The blocks of a marked text -/

namespace Blocks

/-- What is put before a block behind `between`. -/
def gap (between : Text) : Text := if isMarked between then [] else marker

/-- The blocks, where the markers that were put in count as text before them. -/
def marked : Blocks → Blocks
  | last text => last text
  | next between line behind => next (between ++ gap between) line behind.marked

/-- No marker is put in behind an open line. -/
def Apart : Blocks → Prop
  | last _ => True
  | next between _ behind =>
    (isMarked between = false → ∀ front, ¬ OpenBehind front between) ∧ behind.Apart

/-- A marker is put in behind an open line, and what stands before the first such line since the
block before it is `front`. -/
def OpenFirst (front : Text) : Blocks → Prop
  | last _ => False
  | next between _ behind =>
    isMarked between = false ∧ OpenBehind front between ∨
      (isMarked between = false → ∀ front, ¬ OpenBehind front between) ∧ behind.OpenFirst front

theorem apart_or_openFirst (blocks : Blocks) : blocks.Apart ∨ ∃ front, blocks.OpenFirst front := by
  induction blocks with
  | last text => exact Or.inl trivial
  | next between line behind ih =>
    by_cases hopen : isMarked between = false ∧ ∃ front, OpenBehind front between
    · obtain ⟨hmarked, front, hfront⟩ := hopen
      exact Or.inr ⟨front, Or.inl ⟨hmarked, hfront⟩⟩
    · have hapart : isMarked between = false → ∀ front, ¬ OpenBehind front between :=
        fun hmarked front hfront => hopen ⟨hmarked, front, hfront⟩
      rcases ih with hbehind | ⟨front, hbehind⟩
      · exact Or.inl ⟨hapart, hbehind⟩
      · exact Or.inr ⟨front, Or.inr ⟨hapart, hbehind⟩⟩

theorem source_marked (blocks : Blocks) : blocks.marked.source = blocks.annotated := by
  induction blocks with
  | last text => rfl
  | next between line behind ih =>
    rw [marked, source, ih, annotated, gap, List.append_assoc]

theorem isMarked_gap (between : Text) : isMarked (between ++ gap between) = true := by
  rw [gap]
  split
  · rename_i hmarked
    rwa [List.append_nil]
  · exact isMarked_iff.2 (List.suffix_append _ _)

/-- Each block of a marked text that was a block before is marked. -/
theorem inserted_marked (blocks : Blocks) : blocks.marked.inserted = [] := by
  induction blocks with
  | last text => rfl
  | next between line behind ih => rw [marked, inserted, if_pos (isMarked_gap between), ih]

theorem safe?_cons_of_ne {c : Char} (h : c ≠ '\x60') (t : Text) : safe? (c :: t) = none := by
  cases hsafe : safe? (c :: t) with
  | none => rfl
  | some line =>
    obtain ⟨-, -, behind, ht⟩ := safe?_eq_some_iff.1 hsafe
    exact absurd (List.cons.inj ht).1 h

section
variable {between line : Text} {behind : Blocks} (h : (next between line behind).Exact)
include h

theorem exact_safeLine : '\n' ∉ line ∧ SafeLine line :=
  ⟨(safe?_eq_some_iff.1 h.2.1).1, (safe?_eq_some_iff.1 h.2.1).2.1⟩

theorem safe?_block (rest : Text) : safe? (block line ++ rest) = some line :=
  safe?_eq_some_iff.2 ⟨(exact_safeLine h).1, (exact_safeLine h).2, rest, rfl⟩

/-- A block that starts before a marker and was not there before starts with an open line. -/
theorem openBehind_of_safe? {a b found rest : Text} (hab : between = a ++ b) (hb : b ≠ [])
    (hfound : safe? (b ++ (marker ++ rest)) = some found) : OpenBehind a between := by
  obtain ⟨hrow, hsafe, -⟩ := safe?_eq_some_iff.1 hfound
  rcases safe?_before_marker hfound with hwithin | ⟨front, rfl, rfl⟩
  · have hnone := h.1 a b hab hb
    rw [hwithin] at hnone
    cases hnone
  · rw [List.mem_append, not_or] at hrow
    exact ⟨front, hab, hrow.1, safeLine_append_markerRow.1 hsafe⟩

/-- Before a block no other one starts after marking, unless the marker is behind an open line. -/
theorem free_gap (hapart : isMarked between = false → ∀ front, ¬ OpenBehind front between)
    (rest : Text) : Free safe? (between ++ gap between) (block line ++ rest) := by
  intro a b hab hb
  cases hfound : safe? (b ++ (block line ++ rest)) with
  | none => rfl
  | some found =>
    cases hmarked : isMarked between with
    | true =>
      rw [gap, if_pos hmarked, List.append_nil] at hab
      have hnone := h.1 a b hab hb
      rw [safe?_before_block hb (exact_safeLine h).2 hfound] at hnone
      cases hnone
    | false =>
      rw [gap, hmarked, if_neg Bool.false_ne_true] at hab
      rcases List.append_eq_append_iff.1 hab with ⟨front, -, hmarker⟩ | ⟨front, hbetween, rfl⟩
      · -- the place is in the marker, which holds no fence
        obtain ⟨c, b, rfl⟩ := List.exists_cons_of_ne_nil hb
        have hc : c ≠ '\x60' := by
          rintro rfl
          have hmem : '\x60' ∈ marker := by
            rw [hmarker]
            exact List.mem_append_right front List.mem_cons_self
          exact absurd hmem (by decide)
        rw [List.cons_append, safe?_cons_of_ne hc] at hfound
        cases hfound
      · rw [List.append_assoc] at hfound
        cases front with
        | nil =>
          rw [List.nil_append, marker_append] at hfound
          exact absurd (hfound.symm.trans (safe?_cons_of_ne (by decide) _)) (by simp)
        | cons c front =>
          exact absurd (openBehind_of_safe? h hbetween (List.cons_ne_nil c front) hfound)
            (hapart hmarked a)

theorem free_front {front line' : Text} (hbetween : between = front ++ (openFence ++ line'))
    (rest : Text) :
    Free safe? front (openFence ++ line' ++ (marker ++ rest)) := by
  intro a b hab hb
  cases hfound : safe? (b ++ (openFence ++ line' ++ (marker ++ rest))) with
  | none => rfl
  | some found =>
    -- an open line ends the text before the marker, so there is one of them
    have hplace : between = a ++ (b ++ (openFence ++ line')) := by
      rw [hbetween, hab, List.append_assoc]
    rw [← List.append_assoc] at hfound
    obtain ⟨line'', hline'', hrow'', -⟩ :=
      openBehind_of_safe? h hplace (List.append_ne_nil_of_left_ne_nil hb _) hfound
    rw [hplace, openFence_append, openFence_append] at hline''
    rcases Text.cut_row (List.append_cancel_left hline'') (by decide) (by decide) with
      ⟨hopen, -⟩ | ⟨more, -, rfl⟩
    · have hnil : [] ++ openRow = b ++ openRow := hopen
      exact absurd (List.append_cancel_right hnil).symm hb
    · exact absurd (List.mem_append_right more (by simp)) hrow''

end

/-- The safe blocks of a marked text are those it had, exactly if no marker is behind an open
line. -/
theorem exact_marked_iff {blocks : Blocks} (h : blocks.Exact) :
    blocks.marked.Exact ↔ blocks.Apart := by
  induction blocks with
  | last text => exact iff_of_true h trivial
  | next between line behind ih =>
    rw [marked, Exact, Apart, ih h.2.2]
    constructor
    · rintro ⟨hfree, -, hbehind⟩
      refine ⟨fun hmarked front hopen => ?_, hbehind⟩
      obtain ⟨line', hbetween, hrow, hsafe⟩ := hopen
      have hplace : between ++ gap between = front ++ (openFence ++ line' ++ marker) := by
        rw [gap, hmarked, if_neg Bool.false_ne_true, hbetween, List.append_assoc]
      have hnone := hfree _ _ hplace (by simp [openFence_append])
      rw [List.append_assoc, safe?_open hrow hsafe] at hnone
      cases hnone
    · rintro ⟨hapart, hbehind⟩
      exact ⟨free_gap h hapart _, safe?_block h _, hbehind⟩

/-- If the first open line that a marker is put behind has no marker before it, it gets one the next
time. -/
theorem inserted_ne_nil {blocks again : Blocks} {front : Text} (h : blocks.Exact)
    (hopen : blocks.OpenFirst front) (hfront : isMarked front = false) (hagain : again.Exact)
    (hsource : again.source = blocks.annotated) : again.inserted ≠ [] := by
  induction blocks generalizing again with
  | last text => exact hopen.elim
  | next between line behind ih =>
    rcases hopen with ⟨hmarked, line', hbetween, hrow, hsafe⟩ | ⟨hapart, hbehind⟩
    · obtain ⟨rest, hrest, hexact⟩ :=
        exists_blocks ("bash\n" ++ (line ++ '\n' :: (closeFence ++ behind.annotated)))
      have htext : (next front (line' ++ markerRow) rest).source = again.source := by
        rw [hsource, annotated, hmarked, if_neg Bool.false_ne_true, source, hrest, hbetween,
          ← block_open_eq]
        simp only [List.append_assoc]
      have hfirst : (next front (line' ++ markerRow) rest).Exact := by
        have hblock := block_open_eq line' line behind.annotated
        rw [← hrest] at hblock
        refine ⟨?_, ?_, hexact⟩
        · rw [← hblock]
          exact free_front h hbetween _
        · rw [← hblock]
          exact safe?_open hrow hsafe _ _
      rw [← hfirst.unique hagain htext, inserted, hfront, if_neg Bool.false_ne_true]
      exact List.cons_ne_nil _ _
    · obtain ⟨rest, hrest, hexact⟩ := exists_blocks behind.annotated
      have htext : (next (between ++ gap between) line rest).source = again.source := by
        rw [hsource, annotated, source, hrest, gap, List.append_assoc]
      have hfirst : (next (between ++ gap between) line rest).Exact :=
        ⟨free_gap h hapart _, safe?_block h _, hexact⟩
      rw [← hfirst.unique hagain htext, inserted, if_pos (isMarked_gap between)]
      exact ih h.2.2 hbehind hexact hrest

/-- Each marker is put in where a line starts. -/
def StartLines : Blocks → Prop
  | last _ => True
  | next between _ behind =>
    (isMarked between = false → Text.LineStart between) ∧ behind.StartLines

theorem StartLines.apart {blocks : Blocks} (h : blocks.StartLines) : blocks.Apart := by
  induction blocks with
  | last text => trivial
  | next between line behind ih =>
    exact ⟨fun hmarked front hopen => hopen.not_lineStart (h.1 hmarked), ih h.2⟩

end Blocks

/-- Marking again changes nothing exactly if each safe block of the marked text is marked. These are
the blocks that the text had exactly if no marker is put in behind an open line, and none is where
each marker starts a line; then marking again changes nothing. Where a marker is put in behind an
open line and the first such line has no marker before it, marking again changes the text. -/
theorem annotate_again (t : Text) : ∃ blocks again : Blocks,
    (blocks.source = t ∧ blocks.Exact) ∧ (again.source = annotate t ∧ again.Exact) ∧
    (annotate (annotate t) = annotate t ↔ again.inserted = []) ∧
    (again = blocks.marked ↔ blocks.Apart) ∧ (blocks.StartLines → blocks.Apart) ∧
    (blocks.Apart ∧ annotate (annotate t) = annotate t ∨
      ∃ front, blocks.OpenFirst front ∧
        (Blocks.isMarked front = false → annotate (annotate t) ≠ annotate t)) := by
  obtain ⟨blocks, rfl, hexact⟩ := exists_blocks t
  obtain ⟨again, hsource, hagain⟩ := exists_blocks (annotate blocks.source)
  have hself := annotate_eq_self_iff hagain
  rw [hsource] at hself
  rw [annotate_source hexact] at hsource
  have hmarked : again = blocks.marked ↔ blocks.Apart := by
    rw [← Blocks.exact_marked_iff hexact]
    refine ⟨fun h => h ▸ hagain, fun h => hagain.unique h ?_⟩
    rw [hsource, blocks.source_marked]
  refine ⟨blocks, again, ⟨rfl, hexact⟩, ⟨?_, hagain⟩, hself, hmarked, Blocks.StartLines.apart, ?_⟩
  · rw [hsource, annotate_source hexact]
  · rcases blocks.apart_or_openFirst with hapart | ⟨front, hopen⟩
    · refine Or.inl ⟨hapart, hself.2 ?_⟩
      rw [hmarked.2 hapart, blocks.inserted_marked]
    · exact Or.inr ⟨front, hopen, fun hfront hsame =>
        Blocks.inserted_ne_nil hexact hopen hfront hagain hsource (hself.1 hsame)⟩

/-- The marker of the first run closes a line that no fence closed before, and the second run marks
the block that this makes. -/
theorem annotate_again_marks :
    let t : Text := openFence ++ "ls " ++ block "ls x"
    annotate (annotate t) = marker ++ annotate t ∧ annotate (annotate t) ≠ annotate t := by
  decide +kernel

end Playbook.Snippet
