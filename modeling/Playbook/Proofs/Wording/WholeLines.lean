import Playbook.Proofs.Text.Rows
import Playbook.Proofs.Wording.Passes

/-!
# Whole lines

A block is meant to be taken out line by line, from its first line up to the next heading. Where a
block starts, only the characters of its pattern decide, and so they do where it stops: a heading
mark within a line stops it, too, and what is left of that line becomes a line of its own.

Results:
* `whole_iff`: a pass keeps whole lines exactly if what it takes out ends where a line ends.
* `whole_of_stops`: so it does if the first heading mark behind a start begins a line.
* `strikeModels_lines`: what striking the blocks that choose a model does to the lines of a text.
-/
namespace Playbook.Wording

open Text (Free breakAt LineStart lines)

/-! ## Patterns and lines -/

/-- Wherever the pattern matches, a line starts. -/
def OnlyAtLines (pattern : Pattern) (t : Text) : Prop :=
  ∀ u v, t = u ++ v → pattern v ≠ none → LineStart u

/-- The first match of `stop` behind a start of the block begins a line, if there is one. -/
def Block.StopsLines (block : Block) (t : Text) : Prop :=
  ∀ u v width, t = u ++ v → block.start v = some width →
    (breakAt block.stop (v.drop width)).2 = [] ∨
      LineStart (u ++ (v.take width ++ (breakAt block.stop (v.drop width)).1))

instance (pattern : Pattern) (t : Text) : Decidable (OnlyAtLines pattern t) :=
  decidable_of_iff (∀ n ≤ t.length, pattern (t.drop n) ≠ none → LineStart (t.take n)) (by
    constructor
    · rintro h u v rfl hmatch
      have hline := h u.length (by simp)
      rw [List.drop_left, List.take_left] at hline
      exact hline hmatch
    · exact fun h n _ => h _ _ (List.take_append_drop n t).symm)

instance (block : Block) (t : Text) : Decidable (block.StopsLines t) :=
  decidable_of_iff (∀ n ≤ t.length, ∀ width ∈ block.start (t.drop n),
      (breakAt block.stop ((t.drop n).drop width)).2 = [] ∨ LineStart (t.take n ++
        ((t.drop n).take width ++ (breakAt block.stop ((t.drop n).drop width)).1))) (by
    constructor
    · rintro h u v width rfl hwidth
      have hline := h u.length (by simp) width
      rw [List.drop_left, List.take_left] at hline
      exact hline hwidth
    · exact fun h n _ width hwidth => h _ _ width (List.take_append_drop n t).symm hwidth)

theorem InRow.append {pattern : Pattern} (hp : InRow pattern) {t : Text} (ht : LineStart t)
    (hne : t ≠ []) (u : Text) : pattern (t ++ u) = pattern t := by
  obtain ⟨v, rfl⟩ := ht.eq_append hne
  rw [List.append_assoc, List.singleton_append, hp, hp]

theorem OnlyAtLines.behind {pattern : Pattern} {t u : Text} (h : OnlyAtLines pattern (t ++ u)) :
    OnlyAtLines pattern u := by
  intro a b hab hmatch
  refine LineStart.behind (t := t) (h (t ++ a) b ?_ hmatch)
  rw [hab, List.append_assoc]

theorem onlyAtLines_append {pattern : Pattern} (hp : InRow pattern) (hnil : pattern [] = none)
    {t : Text} (ht : LineStart t) (u : Text) :
    OnlyAtLines pattern (t ++ u) ↔ OnlyAtLines pattern t ∧ OnlyAtLines pattern u := by
  constructor
  · intro h
    refine ⟨fun a b hab hmatch => ?_, h.behind⟩
    have hne : b ≠ [] := by
      rintro rfl
      exact hmatch hnil
    subst hab
    refine h a (b ++ u) (List.append_assoc a b u) ?_
    rwa [hp.append ht.behind hne]
  · rintro ⟨h, hu⟩ a b hab hmatch
    rcases List.append_eq_append_iff.1 hab with ⟨w, rfl, hb⟩ | ⟨w, rfl, rfl⟩
    · exact ht.append (hu w b hb hmatch)
    · by_cases hne : w = []
      · subst hne
        rwa [List.append_nil] at ht
      · rw [hp.append ht.behind hne] at hmatch
        exact h a w rfl hmatch

theorem Block.StopsLines.behind {block : Block} {t u : Text} (h : block.StopsLines (t ++ u)) :
    block.StopsLines u := by
  intro a b width hab hstart
  refine (h (t ++ a) b width ?_ hstart).imp_right fun hline => ?_
  · rw [hab, List.append_assoc]
  · rw [List.append_assoc] at hline
    exact hline.behind

section
variable {block : Block} (hblock : block.Sound)
include hblock

theorem Block.Sound.start_nil : block.start [] = none := by
  rw [Option.eq_none_iff_forall_ne_some]
  intro width hwidth
  obtain ⟨found, rest, hnil, -, hne⟩ := hblock.consumes _ _ hwidth
  exact hne (List.append_eq_nil_iff.1 hnil.symm).1

theorem Block.Sound.line_feed_not_mem {opening rest : Text}
    (h : block.start (opening ++ rest) = some opening.length) : '\n' ∉ opening := by
  intro hmem
  obtain ⟨u, v, rfl⟩ := List.append_of_mem hmem
  -- the pattern matches in front of the line feed already
  rw [List.append_assoc, List.cons_append, hblock.startInRow] at h
  obtain ⟨found, behind, rfl, hlength, -⟩ := hblock.consumes _ _ h
  rw [List.length_append, List.length_append, List.length_cons] at hlength
  omega

end

/-! ## One pass -/

/-- Whatever the pass takes out ends where a line ends, or at the end of the text. -/
def Pass.Whole : Pass → Prop
  | .last _ => True
  | .cut _ opening body behind =>
    (Text.endsLine (opening ++ body) = true ∨ behind.source = []) ∧ behind.Whole

section
variable {block : Block} {kept opening body : Text} {behind : Pass}

theorem lineStart_kept (hcut : block.Cut kept opening body behind.source)
    (h : OnlyAtLines block.start (Pass.cut kept opening body behind).source) : LineStart kept := by
  refine h kept _ rfl ?_
  rw [hcut.opening]
  exact Option.some_ne_none _

theorem source_cut : (Pass.cut kept opening body behind).source =
    kept ++ (opening ++ body) ++ behind.source := by
  simp only [Pass.source, List.append_assoc]

theorem onlyAtLines_behind {pattern : Pattern}
    (h : OnlyAtLines pattern (Pass.cut kept opening body behind).source) :
    OnlyAtLines pattern behind.source := by
  rw [source_cut] at h
  exact h.behind

end

/-- A pass that takes out whole lines keeps some of the lines. -/
theorem sublist_of_whole {block : Block} {pass : Pass} (hexact : pass.Exact block)
    (hstart : OnlyAtLines block.start pass.source) (h : pass.Whole) :
    (lines pass.result).Sublist (lines pass.source) := by
  induction pass with
  | last kept => exact List.Sublist.refl _
  | cut kept opening body behind ih =>
    obtain ⟨hcut, hbehind⟩ := hexact
    obtain ⟨hends, hwhole⟩ := h
    have hkept := lineStart_kept hcut hstart
    rw [Pass.result, Pass.source, Text.lines_append hkept, Text.lines_append hkept]
    refine List.Sublist.append_left ?_ _
    refine (ih hbehind (onlyAtLines_behind hstart) hwhole).trans ?_
    rcases hends with hends | hnil
    · rw [← List.append_assoc, Text.lines_append (Or.inr hends)]
      exact List.sublist_append_right _ _
    · rw [hnil]
      exact List.nil_sublist _

section
variable {p : Text → Bool} (hp : ∀ t u, p (t ++ '\n' :: u) = p t)
include hp

theorem countP_lines_row {row rest : Text} (hrow : '\n' ∉ row) (hne : row ≠ [])
    (hfirst : p (row ++ rest) = false) :
    (lines (row ++ rest)).countP p ≤ (lines rest).countP p ∧
      (rest ≠ [] → p rest = true → (lines (row ++ rest)).countP p < (lines rest).countP p) := by
  have hjoined {next : Text} (hnext : '\n' ∉ next) : '\n' ∉ row ++ next := by
    rw [List.mem_append, not_or]
    exact ⟨hrow, hnext⟩
  induction rest using Text.rows_induction with
  | last next hnext =>
    rw [Text.lines_of_not_mem (hjoined hnext) (List.append_ne_nil_of_left_ne_nil hne next),
      List.countP_singleton, hfirst]
    refine ⟨Nat.zero_le _, fun hrest hmatch => ?_⟩
    rw [Text.lines_of_not_mem hnext hrest, List.countP_singleton, hmatch]
    exact Nat.one_pos
  | line next others hnext _ =>
    rw [← List.append_assoc, hp] at hfirst
    rw [← List.append_assoc, Text.lines_row (hjoined hnext), Text.lines_row hnext,
      List.countP_cons, List.countP_cons, hp, hfirst, hp, hp]
    exact ⟨Nat.le_add_right _ _, fun _ hmatch => by simp [hmatch]⟩

/-- A text in which no line of a sort starts brings none along. If it ends within a line, the first
line of what follows does not count any more either. -/
theorem countP_lines_append {region rest : Text}
    (h : ∀ u v, region = u ++ v → v ≠ [] → LineStart u → p (v ++ rest) = false) :
    (lines (region ++ rest)).countP p ≤ (lines rest).countP p ∧
      (¬ LineStart region → rest ≠ [] → p rest = true →
        (lines (region ++ rest)).countP p < (lines rest).countP p) := by
  induction region using Text.rows_induction with
  | last row hrow =>
    by_cases hne : row = []
    · subst hne
      exact ⟨Nat.le_refl _, fun hline => absurd (Or.inl rfl) hline⟩
    · obtain ⟨hle, hlt⟩ := countP_lines_row hp hrow hne (h [] row rfl hne (Or.inl rfl))
      exact ⟨hle, fun _ => hlt⟩
  | line row region hrow ih =>
    have hline : LineStart (row ++ ['\n']) := Or.inr (by simp [Text.endsLine])
    have hfirst := h [] (row ++ '\n' :: region) rfl (by simp) (Or.inl rfl)
    rw [List.append_assoc, List.cons_append, hp] at hfirst
    obtain ⟨hle, hlt⟩ := ih fun u v huv hv hu =>
      h (row ++ ['\n'] ++ u) v (by simp [huv]) hv (hline.append hu)
    rw [List.append_assoc, List.cons_append, Text.lines_row hrow, List.countP_cons, hp, hfirst]
    refine ⟨hle, fun hopen => hlt fun hregion => hopen ?_⟩
    rw [List.append_cons]
    exact hline.append hregion

end

/-- Whether the text starts as a block stops, but not with a block. -/
def Block.endsAt (block : Block) (t : Text) : Bool :=
  (block.stop t).isSome && (block.start t).isNone

section
variable {block : Block} (hblock : block.Sound)
include hblock

/-- No line that starts within a block is one at which a block may end. -/
theorem endsAt_of_cut {kept opening body rest : Text} (hcut : block.Cut kept opening body rest)
    {u v : Text} (huv : opening ++ body = u ++ v) (hv : v ≠ []) (hu : LineStart u) :
    block.endsAt (v ++ rest) = false := by
  rcases List.append_eq_append_iff.1 huv with ⟨w, rfl, hbody⟩ | ⟨w, hopening, rfl⟩
  · rw [Block.endsAt, hcut.body w v hbody hv, Option.isSome_none, Bool.false_and]
  · -- a line that starts in the opening is the first one
    have hfirst : u = [] := Classical.byContradiction fun hne => by
      obtain ⟨front, rfl⟩ := hu.eq_append hne
      refine hblock.line_feed_not_mem hcut.opening ?_
      simp [hopening]
    subst hfirst
    rw [List.nil_append] at hopening
    rw [List.append_assoc, ← hopening, Block.endsAt, hcut.opening, Option.isNone_some,
      Bool.and_false]

theorem endsAt_append_cons (t u : Text) : block.endsAt (t ++ '\n' :: u) = block.endsAt t := by
  rw [Block.endsAt, hblock.startInRow, hblock.stopInRow, Block.endsAt]

/-- A pass leaves all lines at which a block may end, and one more wherever it takes out the front
of a line. -/
theorem countP_result {pass : Pass} (hexact : pass.Exact block)
    (hstart : OnlyAtLines block.start pass.source) :
    (lines pass.source).countP block.endsAt ≤ (lines pass.result).countP block.endsAt ∧
      (¬ pass.Whole →
        (lines pass.source).countP block.endsAt < (lines pass.result).countP block.endsAt) := by
  induction pass with
  | last kept => exact ⟨Nat.le_refl _, fun h => absurd trivial h⟩
  | cut kept opening body behind ih =>
    obtain ⟨hcut, hbehind⟩ := hexact
    have hkept := lineStart_kept hcut hstart
    obtain ⟨hle, hlt⟩ := ih hbehind (onlyAtLines_behind hstart)
    obtain ⟨hregion, hopen⟩ := countP_lines_append (endsAt_append_cons hblock)
      fun u v => endsAt_of_cut hblock hcut
    have hends (hline : ¬ LineStart (opening ++ body)) (hne : behind.source ≠ []) :
        block.endsAt behind.source = true := by
      have hstop := Option.isSome_iff_ne_none.2 (hcut.stop.resolve_left hne)
      rw [source_cut] at hstart
      rw [Block.endsAt, hstop, Bool.true_and, Option.isNone_iff_eq_none]
      exact Classical.byContradiction fun hmatch => hline (hstart _ _ rfl hmatch).behind
    rw [Pass.result, Pass.source, ← List.append_assoc opening, Text.lines_append hkept,
      Text.lines_append hkept, List.countP_append, List.countP_append]
    refine ⟨Nat.add_le_add_left (Nat.le_trans hregion hle) _, fun hwhole => ?_⟩
    refine Nat.add_lt_add_left ?_ _
    rcases Classical.em behind.Whole with hall | hbroken
    · have hcutLine : ¬ (Text.endsLine (opening ++ body) = true ∨ behind.source = []) :=
        fun h => hwhole ⟨h, hall⟩
      rw [not_or] at hcutLine
      have hline : ¬ LineStart (opening ++ body) := fun h => by
        rcases h with hnil | h
        · exact hblock.opening_ne_nil hcut.opening (List.append_eq_nil_iff.1 hnil).1
        · exact hcutLine.1 h
      exact Nat.lt_of_lt_of_le (hopen hline hcutLine.2 (hends hline hcutLine.2)) hle
    · exact Nat.lt_of_le_of_lt hregion (hlt hbroken)

/-- A pass keeps whole lines exactly if it takes out whole lines. -/
theorem whole_iff {pass : Pass} (hexact : pass.Exact block)
    (hstart : OnlyAtLines block.start pass.source) :
    pass.Whole ↔ (lines pass.result).Sublist (lines pass.source) := by
  refine ⟨sublist_of_whole hexact hstart, fun hsub => Classical.byContradiction fun hbroken => ?_⟩
  have hlt := (countP_result hblock hexact hstart).2 hbroken
  exact absurd (hsub.countP_le) (Nat.not_le.2 hlt)

end

/-! ## Where blocks stop -/

/-- The first match behind a start, as a place in the text. -/
theorem stopsLines_iff {block : Block} (hblock : block.Sound) {t : Text} :
    block.StopsLines t ↔ ∀ u opening body rest, t = u ++ (opening ++ (body ++ rest)) →
      block.start (opening ++ (body ++ rest)) = some opening.length → Free block.stop body rest →
      block.stop rest ≠ none → LineStart (u ++ (opening ++ body)) := by
  constructor
  · intro h u opening body rest ht hstart hfree hstop
    have hline := h u _ _ ht hstart
    rw [List.drop_left, List.take_left, Text.breakAt_eq hfree (Or.inr hstop)] at hline
    refine hline.resolve_left ?_
    rintro rfl
    obtain ⟨rest, hnil⟩ := hblock.atHeading [] hstop
    cases hnil
  · intro h u v width ht hwidth
    obtain ⟨opening, behind, rfl, rfl, -⟩ := hblock.consumes _ _ hwidth
    rw [List.drop_left, List.take_left]
    have hbehind := Text.append_breakAt block.stop behind
    refine (Text.breakAt_stops block.stop behind).imp_right fun hstop => ?_
    exact h u opening _ _ (by rw [ht, hbehind]) (by rwa [hbehind])
      (Text.free_breakAt block.stop behind) hstop

/-- A pass takes out whole lines if the first match behind a start begins a line. -/
theorem whole_of_stops {block : Block} (hblock : block.Sound) {pass : Pass}
    (hexact : pass.Exact block) (h : block.StopsLines pass.source) : pass.Whole := by
  induction pass with
  | last kept => trivial
  | cut kept opening body behind ih =>
    obtain ⟨hcut, hbehind⟩ := hexact
    refine ⟨hcut.stop.symm.imp_left fun hstop => ?_, ih hbehind ?_⟩
    · have hline := (stopsLines_iff hblock).1 h kept _ _ _ rfl hcut.opening hcut.body hstop
      refine hline.behind.resolve_left fun hnil => ?_
      exact hblock.opening_ne_nil hcut.opening (List.append_eq_nil_iff.1 hnil).1
    · rw [source_cut] at h
      exact h.behind

/-! ## One pass after the other -/

/-- What a pass leaves has no match where no line starts, if the text has none. -/
theorem onlyAtLines_result {block : Block} {pass : Pass} (hexact : pass.Exact block)
    (hstart : OnlyAtLines block.start pass.source) {pattern : Pattern} (hp : InRow pattern)
    (hnil : pattern [] = none) (h : OnlyAtLines pattern pass.source) :
    OnlyAtLines pattern pass.result := by
  induction pass with
  | last kept => exact h
  | cut kept opening body behind ih =>
    obtain ⟨hcut, hbehind⟩ := hexact
    have happend := onlyAtLines_append hp hnil (lineStart_kept hcut hstart)
    exact (happend _).2 ⟨((happend _).1 h).1,
      ih hbehind (onlyAtLines_behind hstart) (onlyAtLines_behind h)⟩

theorem heading_result {block : Block} (hblock : block.Sound) {pass : Pass}
    (hexact : pass.Exact block) (hstop : pass.source = [] ∨ block.stop pass.source ≠ none) :
    pass.result = [] ∨ ∃ rest, pass.result = anyHeading ++ rest := by
  rw [← strike_source hblock hexact, Block.strike, strike, ← strikeFrom_stop hstop]
  exact strikeFrom_open hblock 0 pass.source

/-- Every heading stops the block. -/
def Block.StopsAtHeadings (block : Block) : Prop :=
  ∀ rest, block.stop (anyHeading ++ rest) ≠ none

/-- A block that starts in whole lines, with nothing or a heading behind them, stops right behind
them, or within them whatever stands behind them. -/
theorem stop_within {other : Block} (hother : other.Sound) (hheadings : other.StopsAtHeadings)
    {w r : Text} (hline : LineStart w) (hne : w ≠ [])
    (hr : r = [] ∨ ∃ rest, r = anyHeading ++ rest) {opening body rest : Text}
    (ht : opening ++ (body ++ rest) = w ++ r)
    (hmatch : other.start (opening ++ (body ++ rest)) = some opening.length)
    (hfree : Free other.stop body rest) (hstop : other.stop rest ≠ none) :
    w = opening ++ body ∨ ∃ x, w = opening ++ (body ++ x) ∧ ∀ s,
      other.start (w ++ s) = some opening.length ∧ Free other.stop body (x ++ s) ∧
        other.stop (x ++ s) ≠ none := by
  rw [ht, hother.startInRow.append hline hne] at hmatch
  obtain ⟨found, behind, rfl, hlength, -⟩ := hother.consumes _ _ hmatch
  rw [List.append_assoc] at ht
  obtain ⟨rfl, hbehind⟩ := List.append_inj ht hlength.symm
  rcases List.append_eq_append_iff.1 hbehind with ⟨x, rfl, hrest⟩ | ⟨x, rfl, hrest⟩
  · by_cases hx : x = []
    · subst hx
      exact Or.inl (by rw [List.append_nil])
    · -- the block stops within the lines, and so it does with any text behind them
      have hlineX : LineStart x := by
        rw [← List.append_assoc] at hline
        exact hline.behind
      subst hrest
      refine Or.inr ⟨x, rfl, fun s => ⟨?_, fun c d hcd hd => ?_, ?_⟩⟩
      · rw [hother.startInRow.append hline hne, hmatch]
      · have hnone := hfree c d hcd hd
        have hlineD : LineStart (d ++ x) := Or.inr (Text.endsLine_append d (hlineX.resolve_left hx))
        have hneD : d ++ x ≠ [] := List.append_ne_nil_of_left_ne_nil hd x
        rw [← List.append_assoc, hother.stopInRow.append hlineD hneD] at hnone ⊢
        exact hnone
      · rw [hother.stopInRow.append hlineX hx] at hstop ⊢
        exact hstop
  · by_cases hx : x = []
    · subst hx
      exact Or.inl (by rw [List.append_nil])
    · -- the body does not go on over a heading
      have hnone := hfree behind x rfl hx
      rw [← hrest] at hnone
      rcases hr with rfl | ⟨y, rfl⟩
      · exact absurd (List.append_eq_nil_iff.1 hrest.symm).1 hx
      · exact absurd hnone (hheadings y)

/-- The first heading behind the start of another block begins a line in what a pass leaves, if it
does so in the text. -/
theorem stopsLines_result {block other : Block} (hblock : block.Sound) (hother : other.Sound)
    (hheadings : other.StopsAtHeadings) {pass : Pass} (hexact : pass.Exact block)
    (hstart : OnlyAtLines block.start pass.source) (h : other.StopsLines pass.source) :
    other.StopsLines pass.result := by
  induction pass with
  | last kept => exact h
  | cut kept opening body behind ih =>
    obtain ⟨hcut, hbehind⟩ := hexact
    have hkept := lineStart_kept hcut hstart
    have hleft := (stopsLines_iff hother).1 (ih hbehind (onlyAtLines_behind hstart)
      (by rw [source_cut] at h; exact h.behind))
    rw [stopsLines_iff hother] at h ⊢
    intro u o b rest ht hmatch hfree hstop
    rcases List.append_eq_append_iff.1 ht with ⟨w, rfl, hresult⟩ | ⟨w, rfl, hresult⟩
    · -- the other block starts behind what is taken out
      rw [List.append_assoc]
      exact hkept.append (hleft w o b rest hresult hmatch hfree hstop)
    · by_cases hne : w = []
      · subst hne
        rw [List.append_nil] at hkept
        exact hkept.append (hleft [] o b rest hresult.symm hmatch hfree hstop)
      · have hgoes := heading_result hblock hbehind hcut.stop
        rcases stop_within hother hheadings hkept.behind hne hgoes hresult hmatch hfree hstop with
          rfl | ⟨x, rfl, hwithin⟩
        · exact hkept
        · obtain ⟨hmatch, hfree, hstop⟩ := hwithin (opening ++ (body ++ behind.source))
          refine h u o b _ ?_ ?_ hfree hstop
          · simp only [Pass.source, List.append_assoc]
          · rwa [List.append_assoc, List.append_assoc] at hmatch

section
variable {blocks : List Block} {t result : Text} {passes : List Pass}

theorem Passes.whole_iff_sublist (h : Passes blocks t passes result)
    (hsound : ∀ block ∈ blocks, block.Sound)
    (hstart : ∀ block ∈ blocks, OnlyAtLines block.start t) :
    ∀ pass ∈ passes, pass.Whole ↔ (lines pass.result).Sublist (lines pass.source) := by
  induction h with
  | done t => exact fun _ hmem => nomatch hmem
  | @pass block blocks pass passes result hexact behind ih =>
    obtain ⟨hblock, hsound⟩ := List.forall_mem_cons.1 hsound
    obtain ⟨hfirst, hstart⟩ := List.forall_mem_cons.1 hstart
    refine List.forall_mem_cons.2 ⟨whole_iff hblock hexact hfirst, ih hsound fun other hother => ?_⟩
    exact onlyAtLines_result hexact hfirst (hsound other hother).startInRow
      (hsound other hother).start_nil (hstart other hother)

/-- All passes take out whole lines if the first match behind a start begins a line, in the text
that they start from. -/
theorem Passes.whole_of_stopsLines (h : Passes blocks t passes result)
    (hsound : ∀ block ∈ blocks, block.Sound)
    (hheadings : ∀ block ∈ blocks.tail, block.StopsAtHeadings)
    (hstart : ∀ block ∈ blocks, OnlyAtLines block.start t)
    (hstops : ∀ block ∈ blocks, block.StopsLines t) : ∀ pass ∈ passes, pass.Whole := by
  induction h with
  | done t => exact fun _ hmem => nomatch hmem
  | @pass block blocks pass passes result hexact behind ih =>
    obtain ⟨hblock, hsound⟩ := List.forall_mem_cons.1 hsound
    obtain ⟨hfirst, hstart⟩ := List.forall_mem_cons.1 hstart
    obtain ⟨hstop, hstops⟩ := List.forall_mem_cons.1 hstops
    refine List.forall_mem_cons.2 ⟨whole_of_stops hblock hexact hstop, ih hsound ?_ ?_ ?_⟩
    · exact fun other hother => hheadings other (List.mem_of_mem_tail hother)
    · exact fun other hother => onlyAtLines_result hexact hfirst (hsound other hother).startInRow
        (hsound other hother).start_nil (hstart other hother)
    · exact fun other hother => stopsLines_result hblock (hsound other hother)
        (hheadings other hother) hexact hfirst (hstops other hother)

theorem Passes.sublist (h : Passes blocks t passes result)
    (hlines : ∀ pass ∈ passes, (lines pass.result).Sublist (lines pass.source)) :
    (lines result).Sublist (lines t) := by
  induction h with
  | done t => exact List.Sublist.refl _
  | pass hexact behind ih =>
    obtain ⟨hfirst, hothers⟩ := List.forall_mem_cons.1 hlines
    exact (ih hothers).trans hfirst

end

theorem stopsAtHeadings_anyHeading (start : Pattern) :
    Block.StopsAtHeadings ⟨start, literal anyHeading⟩ := by
  intro rest h
  rw [literal_eq_none, Text.after?_eq_some.2 rfl] at h
  cases h

/-- Where the blocks that choose a model start only at the start of a line, each pass keeps whole
lines exactly if what it takes out ends where a line ends. If also the first match of a stop behind
each start begins a line, that holds of all passes, and what is left are some of the lines. -/
theorem strikeModels_lines {t : Text}
    (hstart : ∀ block ∈ modelBlocks, OnlyAtLines block.start t) :
    ∃ passes, Passes modelBlocks t passes (strikeModels t) ∧
      (∀ pass ∈ passes, pass.Whole ↔ (lines pass.result).Sublist (lines pass.source)) ∧
      ((∀ block ∈ modelBlocks, block.StopsLines t) →
        (∀ pass ∈ passes, pass.Whole) ∧ (lines (strikeModels t)).Sublist (lines t)) := by
  have hsound : ∀ block ∈ modelBlocks, block.Sound := fun _ => sound_of_mem
  have hheadings : ∀ block ∈ modelBlocks.tail, block.StopsAtHeadings := by
    simp only [modelBlocks, List.tail_cons, List.forall_mem_cons, List.not_mem_nil, false_implies,
      implies_true, and_true]
    exact ⟨stopsAtHeadings_anyHeading _, stopsAtHeadings_anyHeading _⟩
  obtain ⟨passes, hpasses⟩ := exists_passes hsound t
  have hiff := hpasses.whole_iff_sublist hsound hstart
  refine ⟨passes, hpasses, hiff, fun hstops => ?_⟩
  have hwhole := hpasses.whole_of_stopsLines hsound hheadings hstart hstops
  exact ⟨hwhole, hpasses.sublist fun pass hpass => (hiff pass hpass).1 (hwhole pass hpass)⟩

theorem strikeModels_lines_profile :
    let t : Text := "Intro\n## Resolve Model Profile\nUse a heading.\n## Next\nrest\n"
    (∀ block ∈ modelBlocks, OnlyAtLines block.start t) ∧
      (∀ block ∈ modelBlocks, block.StopsLines t) ∧
        (lines (strikeModels t)).Sublist (lines t) := by
  intro t
  have hstart : ∀ block ∈ modelBlocks, OnlyAtLines block.start t := by decide +kernel
  have hstops : ∀ block ∈ modelBlocks, block.StopsLines t := by decide +kernel
  obtain ⟨_, -, -, hlines⟩ := strikeModels_lines hstart
  exact ⟨hstart, hstops, (hlines hstops).2⟩

/-- A heading mark within a line stops a block: the front of the line is taken out. -/
theorem strikeModels_cuts_line :
    let t : Text := "Intro\n## Resolve Model Profile\nUse a ## heading.\n## Next\nrest\n"
    (∀ block ∈ modelBlocks, OnlyAtLines block.start t) ∧
      ¬ (lines (strikeModels t)).Sublist (lines t) := by
  decide +kernel

end Playbook.Wording
