import Playbook.Proofs.Snippet.Blocks

/-!
# Where markers are put

A safe block has a shape that can be told without a search: fence, one safe line, fence. A text
has leftmost safe blocks in one way only. Marking goes through the text and puts a marker at the
start of each of them that has none right before it, so what it gives is the text again as soon as
the markers that it put in are left out.

Results:
* `noBlockStarts_iff`: the search finds nothing exactly if there is no piece of that shape.
* `Blocks.Exact.unique`: a text has its safe blocks in one way only.
* `Blocks.written_pieces`: what marking gives, piece by piece.
* `annotate_exact`: where markers are put, that nothing else changes, and that every safe block has
  a marker right before it afterwards.
-/
namespace Playbook.Snippet

open Text (Free breakAt)

/-! ## The shape of a block -/

/-- A safe block: an opening fence, one safe line, and a closing fence. -/
def IsSafeBlock (b : Text) : Prop :=
  ∃ line, '\n' ∉ line ∧ SafeLine line ∧ b = openFence ++ (line ++ '\n' :: closeFence)

/-- No safe block starts within `u`, when `v` stands behind it. -/
def NoBlockStarts (u v : Text) : Prop :=
  ∀ a b found behind, u = a ++ b → b ≠ [] → b ++ v = found ++ behind → ¬ IsSafeBlock found

theorem block_inj {line line' : Text} (h : block line = block line') : line = line' := by
  rw [block_eq, block_eq] at h
  exact List.append_cancel_right (List.append_cancel_left h)

theorem isSafeBlock_block {line : Text} :
    IsSafeBlock (block line) ↔ '\n' ∉ line ∧ SafeLine line := by
  constructor
  · rintro ⟨line', hrow, hsafe, hblock⟩
    rw [← block_eq] at hblock
    rw [block_inj hblock]
    exact ⟨hrow, hsafe⟩
  · rintro ⟨hrow, hsafe⟩
    exact ⟨line, hrow, hsafe, block_eq line⟩

theorem safe?_eq_none_iff {t : Text} :
    safe? t = none ↔ ∀ found behind, t = found ++ behind → ¬ IsSafeBlock found := by
  constructor
  · rintro h found behind rfl ⟨line, hrow, hsafe, rfl⟩
    rw [← block_eq, safe?_eq_some_iff.2 ⟨hrow, hsafe, behind, rfl⟩] at h
    cases h
  · intro h
    cases hsafe? : safe? t with
    | none => rfl
    | some line =>
      obtain ⟨hrow, hsafe, behind, ht⟩ := safe?_eq_some_iff.1 hsafe?
      exact absurd (isSafeBlock_block.2 ⟨hrow, hsafe⟩) (h _ behind ht)

/-- The search finds nothing exactly if there is no piece of that shape. -/
theorem noBlockStarts_iff {u v : Text} : NoBlockStarts u v ↔ Free safe? u v := by
  constructor
  · intro h a b hu hb
    exact safe?_eq_none_iff.2 fun found behind => h a b found behind hu hb
  · intro h a b found behind hu hb
    exact safe?_eq_none_iff.1 (h a b hu hb) found behind

namespace Blocks

/-- The blocks are safe ones, and none starts before the next of them or behind the last. -/
def Leftmost : Blocks → Prop
  | last text => NoBlockStarts text []
  | next between line behind => NoBlockStarts between (block line ++ behind.source) ∧
    IsSafeBlock (block line) ∧ behind.Leftmost

theorem leftmost_iff {blocks : Blocks} : blocks.Leftmost ↔ blocks.Exact := by
  induction blocks with
  | last text => exact noBlockStarts_iff
  | next between line behind ih =>
    have hfound : IsSafeBlock (block line) ↔
        safe? (block line ++ behind.source) = some line := by
      rw [isSafeBlock_block, safe?_eq_some_iff]
      exact ⟨fun h => ⟨h.1, h.2, _, rfl⟩, fun h => ⟨h.1, h.2.1⟩⟩
    rw [Leftmost, Exact, noBlockStarts_iff, hfound, ih]

/-! ## The blocks of a text -/

theorem breakAt_last {text : Text} (h : (last text).Exact) :
    breakAt safe? (last text).source = (text, []) := by
  have hbreak := Text.breakAt_eq h (Or.inl rfl)
  rwa [List.append_nil] at hbreak

theorem breakAt_next {between line : Text} {behind : Blocks}
    (h : (next between line behind).Exact) :
    breakAt safe? (next between line behind).source =
      (between, block line ++ behind.source) := by
  obtain ⟨hfree, hline, -⟩ := h
  refine Text.breakAt_eq hfree (Or.inr ?_)
  rw [hline]
  exact Option.some_ne_none line

/-- A text has its safe blocks in one way only. -/
theorem Exact.unique {blocks other : Blocks} (h : blocks.Exact) (h' : other.Exact)
    (hsource : blocks.source = other.source) : blocks = other := by
  have hne (line rest : Text) : [] ≠ block line ++ rest := List.cons_ne_nil _ _ ∘ Eq.symm
  have hbreak := congrArg (breakAt safe?) hsource
  induction blocks generalizing other with
  | last text =>
    cases other with
    | last text' =>
      rw [breakAt_last h, breakAt_last h', Prod.mk.injEq] at hbreak
      rw [hbreak.1]
    | next between line behind =>
      rw [breakAt_last h, breakAt_next h', Prod.mk.injEq] at hbreak
      exact absurd hbreak.2 (hne line _)
  | next between line behind ih =>
    cases other with
    | last text' =>
      rw [breakAt_next h, breakAt_last h', Prod.mk.injEq] at hbreak
      exact absurd hbreak.2.symm (hne line _)
    | next between' line' behind' =>
      rw [breakAt_next h, breakAt_next h', Prod.mk.injEq] at hbreak
      obtain ⟨rfl, hrest⟩ := hbreak
      have hline := h.2.1
      rw [hrest, h'.2.1, Option.some.injEq] at hline
      subst hline
      have hbehind := List.append_cancel_left hrest
      rw [ih h.2.2 h'.2.2 hbehind (congrArg _ hbehind)]

end Blocks

/-! ## The pieces of a marked text -/

/-- A piece of a marked text: copied text, a marker that was put in, or a safe block. -/
inductive Piece
  | copied (text : Text)
  | marker
  | block (line : Text)
  deriving Repr, DecidableEq

def Piece.text : Piece → Text
  | copied text => text
  | marker => Snippet.marker
  | block line => Snippet.block line

def written (pieces : List Piece) : Text := pieces.flatMap Piece.text

@[simp] theorem written_nil : written [] = [] := rfl

@[simp] theorem written_cons (p : Piece) (ps : List Piece) :
    written (p :: ps) = p.text ++ written ps := rfl

@[simp] theorem written_append (ps qs : List Piece) :
    written (ps ++ qs) = written ps ++ written qs := List.flatMap_append

/-- The pieces without the markers that were put in. -/
def unmarked (pieces : List Piece) : List Piece := pieces.filter (· ≠ .marker)

/-- The pieces of a text in which a marker is put at the start of each block that has none right
before it, where `front` is the text before. -/
def Blocks.pieces (front : Text) : Blocks → List Piece
  | last text => [.copied text]
  | next between line behind =>
    .copied between :: ((if marker <:+ front ++ between then [] else [.marker]) ++
      .block line :: behind.pieces (front ++ between ++ Snippet.block line))

/-- The text before a block is looked at no further than to the block before that. -/
def Closed (front : Text) : Prop := front = [] ∨ ∃ inner, front = inner ++ ['\x60']

theorem closed_block (front line : Text) : Closed (front ++ block line) := by
  obtain ⟨inner, hinner⟩ := exists_blockTail_eq line
  refine Or.inr ⟨front ++ (fenceStart ++ inner), ?_⟩
  rw [block, hinner, List.append_assoc, List.append_assoc]
  rfl

theorem isMarked_iff {between : Text} : Blocks.isMarked between = true ↔ marker <:+ between := by
  rw [Blocks.isMarked, Text.startsWith, List.isPrefixOf_iff_prefix, List.reverse_prefix]

/-- Behind another block, or at the start, only what stands since then is looked at. -/
theorem marker_suffix_iff {front between : Text} (h : Closed front) :
    marker <:+ front ++ between ↔ Blocks.isMarked between = true := by
  rcases h with rfl | ⟨inner, rfl⟩
  · exact isMarked_iff.symm
  · have hfence : Text.startsWith marker.reverse (between.reverse ++ '\x60' :: inner.reverse) =
        Text.startsWith marker.reverse between.reverse :=
      Text.startsWith_append_cons (by decide) _ _
    rw [← isMarked_iff, Blocks.isMarked, Blocks.isMarked, ← hfence]
    simp only [List.reverse_append, List.reverse_cons, List.reverse_nil, List.nil_append,
      List.singleton_append]

namespace Blocks

theorem written_pieces {front : Text} (h : Closed front) (blocks : Blocks) :
    written (blocks.pieces front) = blocks.annotated := by
  induction blocks generalizing front with
  | last text => exact List.append_nil text
  | next between line behind ih =>
    have hgap : written (if marker <:+ front ++ between then [] else [.marker]) =
        if isMarked between then [] else marker := by
      simp only [marker_suffix_iff h]
      split <;> rfl
    rw [pieces, written_cons, written_append, hgap, written_cons,
      ih (closed_block (front ++ between) line)]
    rfl

/-- Without the markers that were put in, the text is left. -/
theorem written_unmarked (front : Text) (blocks : Blocks) :
    written (unmarked (blocks.pieces front)) = blocks.source := by
  induction blocks generalizing front with
  | last text => exact List.append_nil text
  | next between line behind ih =>
    have hgap : unmarked (if marker <:+ front ++ between then [] else [.marker]) = [] := by
      split <;> rfl
    have hbehind := ih (front ++ between ++ Snippet.block line)
    unfold unmarked at hgap hbehind ⊢
    rw [pieces, List.filter_cons_of_pos (by simp), List.filter_append, hgap, List.nil_append,
      List.filter_cons_of_pos (by simp), written_cons, written_cons, hbehind]
    rfl

theorem marker_suffix_written {front : Text} (h : Closed front) {blocks : Blocks}
    {before behind : List Piece} {line : Text}
    (hpieces : blocks.pieces front = before ++ .block line :: behind) :
    marker <:+ written before := by
  induction blocks generalizing front before with
  | last text =>
    rcases List.cons_eq_append_iff.1 hpieces with ⟨-, hblock⟩ | ⟨before, -, hnil⟩
    · cases hblock
    · exact absurd hnil.symm (List.append_ne_nil_of_right_ne_nil _ (List.cons_ne_nil _ _))
  | next between first rest ih =>
    have hlater {before : List Piece} (gap : List Piece)
        (hbefore : rest.pieces (front ++ between ++ Snippet.block first) =
          before ++ .block line :: behind) :
        marker <:+ written (.copied between :: (gap ++ .block first :: before)) := by
      have hsuffix := ih (closed_block (front ++ between) first) hbefore
      rw [written_cons, written_append, written_cons]
      exact hsuffix.trans (((List.suffix_append _ _).trans (List.suffix_append _ _)).trans
        (List.suffix_append _ _))
    rw [pieces] at hpieces
    rcases List.cons_eq_append_iff.1 hpieces with ⟨-, hblock⟩ | ⟨before, rfl, hgap⟩
    · cases hblock
    · by_cases hmarked : marker <:+ front ++ between
      · rw [if_pos hmarked, List.nil_append] at hgap
        rcases List.cons_eq_append_iff.1 hgap with ⟨rfl, -⟩ | ⟨before, rfl, hbefore⟩
        · rw [written_cons, written_nil, List.append_nil]
          exact isMarked_iff.1 ((marker_suffix_iff h).1 hmarked)
        · exact hlater [] hbefore
      · rw [if_neg hmarked, List.singleton_append] at hgap
        rcases List.cons_eq_append_iff.1 hgap with ⟨-, hblock⟩ | ⟨before, rfl, hfirst⟩
        · cases hblock
        · rcases List.cons_eq_append_iff.1 hfirst with ⟨rfl, -⟩ | ⟨before, rfl, hbefore⟩
          · rw [written_cons, written_cons, written_nil, List.append_nil]
            exact List.suffix_append _ _
          · exact hlater [.marker] hbefore

end Blocks

/-- The safe blocks of a text are its leftmost ones, each behind the one before it, and there is
one way to find them. Marking puts a marker at the start of each that has none right before it and
copies everything else, so without these markers the text is left. Afterwards each of the blocks
has a marker right before it. -/
theorem annotate_exact (t : Text) : ∃ blocks : Blocks,
    blocks.source = t ∧ blocks.Leftmost ∧
    (∀ other : Blocks, other.source = t → other.Leftmost → other = blocks) ∧
    annotate t = written (blocks.pieces []) ∧
    written (unmarked (blocks.pieces [])) = t ∧
    ∀ before line behind, blocks.pieces [] = before ++ .block line :: behind →
      marker <:+ written before := by
  obtain ⟨blocks, rfl, hexact⟩ := exists_blocks t
  have hclosed : Closed [] := Or.inl rfl
  refine ⟨blocks, rfl, Blocks.leftmost_iff.2 hexact, ?_, ?_, blocks.written_unmarked [], ?_⟩
  · intro other hsource hother
    exact (Blocks.leftmost_iff.1 hother).unique hexact hsource
  · rw [annotate_source hexact, Blocks.written_pieces hclosed]
  · intro before line behind
    exact Blocks.marker_suffix_written hclosed

/-- The leads of safe lines, and lines that come close. -/
example :
    let block (line : Text) : Text := "\x60\x60\x60bash\n" ++ line ++ "\n\x60\x60\x60\n"
    let safe : List Text := ["git status", "ls a", "cat a", "echo a", "[ -f a ] && ls", "[ -d a ]"]
    let other : List Text := ["git add a", "ls", "cat", "echo", "[ -f a", "[ -e a ]"]
    annotate ((safe ++ other).flatMap block) =
      safe.flatMap (fun line => ("// turbo\n" : Text) ++ block line) ++ other.flatMap block := by
  decide +kernel

end Playbook.Snippet
