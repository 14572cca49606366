import Playbook.Proofs.Text.First
import Playbook.Proofs.Text.Rules
import Playbook.Snippet

/-!
# Safe blocks

The safe blocks of a text are found from the left, each behind the closing fence of the one before
it. Marking puts the marker before those of them that it does not stand before already, and changes
nothing else.

Results:
* `safe?_eq_some_iff`: what a safe block is.
* `exists_blocks`: every text has its safe blocks.
* `annotate_source`: marking puts the marker before the blocks that lack it.
-/
namespace Playbook.Snippet

open Text (Free)

/-! ## Blocks -/

/-- The character that a block starts and ends with. -/
def fenceStart : Text := ['\x60']

/-- A block behind its first character. -/
def blockTail (line : Text) : Text := "\x60\x60bash\n" ++ (line ++ '\n' :: closeFence)

/-- A fenced block of one line. -/
def block (line : Text) : Text := fenceStart ++ blockTail line

theorem block_eq (line : Text) : block line = openFence ++ (line ++ '\n' :: closeFence) := by
  have hopen : openFence = fenceStart ++ "\x60\x60bash\n" := rfl
  unfold block blockTail
  rw [hopen, List.append_assoc]

theorem exists_blockTail_eq (line : Text) : ∃ inner, blockTail line = inner ++ fenceStart := by
  have hclose : '\n' :: closeFence = "\n\x60\x60" ++ fenceStart := rfl
  refine ⟨"\x60\x60bash\n" ++ (line ++ "\n\x60\x60"), ?_⟩
  unfold blockTail
  rw [hclose, List.append_assoc, List.append_assoc]

theorem block?_eq_some {t line : Text} (h : block? t = some line) :
    '\n' ∉ line ∧ ∃ behind, t = block line ++ behind := by
  unfold block? at h
  split at h
  · cases h
  · rename_i rest hrest
    split at h
    · rename_i hclose
      cases h
      obtain ⟨behind, hbehind⟩ := Text.startsWith_iff.1 hclose
      have hline := List.takeWhile_append_dropWhile (p := (· ≠ '\n')) (l := rest)
      rw [hbehind] at hline
      refine ⟨fun hmem => ?_, behind, (Text.after?_eq_some.1 hrest).trans ?_⟩
      · have hne := List.all_eq_true.1 (List.all_takeWhile (p := (· ≠ '\n'))) _ hmem
        exact of_decide_eq_true hne rfl
      · rw [block_eq, List.append_assoc, List.append_assoc]
        exact congrArg (openFence ++ ·) hline.symm
    · cases h

/-! ## Marking a block -/

/-- What a safe block starts with when it is marked. -/
def markedStart : Text := marker ++ fenceStart

/-- What a safe block starts with afterwards, behind `before`. -/
def startBehind (before : Text) : Text :=
  if Text.startsWith marker.reverse before then fenceStart else markedStart

theorem rule_of_safe (before : Text) {line behind : Text}
    (h : block? (block line ++ behind) = some line) (hsafe : isSafe line = true) :
    rule before (block line ++ behind) =
      some ⟨(block line).length, startBehind before ++ blockTail line⟩ := by
  have hwidth : openFence.length + line.length + 1 + closeFence.length = (block line).length := by
    rw [block_eq, List.length_append, List.length_append, List.length_cons]
    omega
  have hwritten : (if Text.startsWith marker.reverse before then block line
      else marker ++ block line) = startBehind before ++ blockTail line := by
    unfold startBehind markedStart
    split
    · rfl
    · rw [block, List.append_assoc]
  unfold rule
  simp only [h, hsafe, if_true, hwidth, List.take_left, hwritten]

theorem rule_eq_some {before rest : Text} {edit : Edit} (h : rule before rest = some edit) :
    ∃ line behind, rest = block line ++ behind ∧ block? rest = some line ∧ isSafe line = true := by
  unfold rule at h
  split at h
  · cases h
  · rename_i line hline
    split at h
    · rename_i hsafe
      obtain ⟨-, behind, hrest⟩ := block?_eq_some hline
      exact ⟨line, behind, hrest, hline, hsafe⟩
    · cases h

theorem block_ne_nil (line : Text) : block line ≠ [] := List.cons_ne_nil _ _

theorem fits_rule : rule.Fits := by
  intro before rest edit h
  obtain ⟨line, behind, hrest, hline, hsafe⟩ := rule_eq_some h
  rw [hrest] at h hline
  rw [rule_of_safe before hline hsafe] at h
  cases h
  exact ⟨block line, behind, hrest, block_ne_nil line, rfl⟩

theorem block?_block {line : Text} (h : '\n' ∉ line) (behind : Text) :
    block? (block line ++ behind) = some line := by
  have hafter : Text.after? openFence (block line ++ behind) =
      some (line ++ '\n' :: (closeFence ++ behind)) := by
    rw [Text.after?_eq_some, block_eq]
    simp only [List.append_assoc, List.cons_append]
  have hline : ∀ c ∈ line, decide (c ≠ '\n') = true := by
    intro c hc
    refine decide_eq_true ?_
    rintro rfl
    exact h hc
  have hclose : Text.startsWith ('\n' :: closeFence) ('\n' :: (closeFence ++ behind)) = true :=
    Text.startsWith_iff.2 ⟨behind, rfl⟩
  unfold block?
  simp only [hafter, List.takeWhile_append_of_pos hline, List.dropWhile_append_of_pos hline]
  rw [List.dropWhile_cons_of_neg (by decide), List.takeWhile_cons_of_neg (by decide), if_pos hclose,
    List.append_nil]

/-! ## Safe blocks -/

/-- A line of a safe block, by what it begins with. -/
def SafeLine (line : Text) : Prop :=
  (∃ lead ∈ commandLeads, ∃ tail, line = lead ++ tail) ∨
    ∃ lead ∈ testLeads, ∃ tail, line = lead ++ tail ∧ ']' ∈ tail

theorem isSafe_iff {line : Text} : isSafe line = true ↔ SafeLine line := by
  unfold isSafe SafeLine
  rw [Bool.or_eq_true, List.any_eq_true, List.any_eq_true]
  refine or_congr (exists_congr fun lead => and_congr_right fun _ => ?_)
    (exists_congr fun lead => and_congr_right fun _ => ?_)
  · exact Text.startsWith_iff
  · rw [Option.any_eq_true]
    exact exists_congr fun tail => and_congr Text.after?_eq_some List.contains_iff_mem

/-- The line of the safe block at the start of a text. -/
def safe? (t : Text) : Option Text := (block? t).filter isSafe

theorem safe?_eq_some_iff {t line : Text} :
    safe? t = some line ↔ '\n' ∉ line ∧ SafeLine line ∧ ∃ behind, t = block line ++ behind := by
  rw [safe?, Option.filter_eq_some_iff, isSafe_iff]
  constructor
  · rintro ⟨hline, hsafe⟩
    obtain ⟨hrow, hbehind⟩ := block?_eq_some hline
    exact ⟨hrow, hsafe, hbehind⟩
  · rintro ⟨hrow, hsafe, behind, rfl⟩
    exact ⟨block?_block hrow behind, hsafe⟩

theorem rule_eq_none {before t : Text} (h : safe? t = none) : rule before t = none := by
  unfold safe? at h
  unfold rule
  cases hline : block? t with
  | none => rfl
  | some line =>
    cases hsafe : isSafe line with
    | true => simp [hline, hsafe] at h
    | false => simp [hsafe]

/-- The safe blocks of a text, from the left. -/
inductive Blocks
  /-- There is none in the text. -/
  | last (text : Text)
  /-- There is one behind some text. -/
  | next (between line : Text) (behind : Blocks)

namespace Blocks

def source : Blocks → Text
  | last text => text
  | next between line behind => between ++ (block line ++ behind.source)

/-- The blocks are the leftmost ones, each behind the one before it. -/
def Exact : Blocks → Prop
  | last text => Free safe? text []
  | next between line behind => Free safe? between (block line ++ behind.source) ∧
    safe? (block line ++ behind.source) = some line ∧ behind.Exact

/-- The marker stands right at the end of the text. -/
def isMarked (between : Text) : Bool := Text.startsWith marker.reverse between.reverse

/-- The text with the marker before each of its safe blocks. -/
def annotated : Blocks → Text
  | last text => text
  | next between line behind =>
    between ++ ((if isMarked between then [] else marker) ++ (block line ++ behind.annotated))

/-- The lines of the blocks that a marker is put before. -/
def inserted : Blocks → List Text
  | last _ => []
  | next between line behind =>
    if isMarked between then behind.inserted else line :: behind.inserted

end Blocks

/-- Every text has its safe blocks. -/
theorem exists_blocks (t : Text) : ∃ blocks : Blocks, blocks.source = t ∧ blocks.Exact := by
  induction t using Text.first_induction safe? with
  | none t hfree => exact ⟨.last t, rfl, hfree⟩
  | first between v line hfree hline ih =>
    obtain ⟨-, -, rest, rfl⟩ := safe?_eq_some_iff.1 hline
    have hshorter : rest.length < (block line ++ rest).length := by
      have hpos := List.length_pos_iff.2 (block_ne_nil line)
      rw [List.length_append]
      omega
    obtain ⟨behind, hsource, hexact⟩ := ih rest hshorter
    subst hsource
    exact ⟨.next between line behind, rfl, hfree, hline, hexact⟩

/-- Whether the marker stands before a block is told by the text behind the block before it. -/
theorem startBehind_eq {between before : Text} (h : before = [] ∨ ∃ front, before = '\x60' :: front)
    (line : Text) : startBehind (between.reverse ++ before) ++ blockTail line =
      (if Blocks.isMarked between then [] else marker) ++ block line := by
  have hmarked : Text.startsWith marker.reverse (between.reverse ++ before) =
      Blocks.isMarked between := by
    rcases h with rfl | ⟨front, rfl⟩
    · rw [List.append_nil, Blocks.isMarked]
    · exact Text.startsWith_append_cons (by decide) between.reverse front
  rw [startBehind, hmarked]
  cases Blocks.isMarked between
  · exact List.append_assoc marker fenceStart (blockTail line)
  · rfl

/-- Marking puts the marker before the safe blocks that it does not stand before. -/
theorem annotate_source {blocks : Blocks} (h : blocks.Exact) :
    annotate blocks.source = blocks.annotated := by
  have hfrom (before : Text) (hbefore : before = [] ∨ ∃ front, before = '\x60' :: front) :
      rule.applyFrom 0 before blocks.source = blocks.annotated := by
    induction blocks generalizing before with
    | last text =>
      have hidle : rule.applyFrom 0 before (text ++ []) = _ :=
        Rule.applyFrom_append fun u v huv hv => rule_eq_none (h u v huv hv)
      rwa [List.append_nil, Rule.applyFrom, List.append_nil] at hidle
    | next between line behind ih =>
      obtain ⟨hfree, hline, hexact⟩ := h
      obtain ⟨hblock, hsafe⟩ := Option.filter_eq_some_iff.1 hline
      obtain ⟨inner, hinner⟩ := exists_blockTail_eq line
      have hfence : ∃ front,
          (block line).reverse ++ (between.reverse ++ before) = '\x60' :: front := by
        rw [block, hinner, List.reverse_append, List.reverse_append, List.append_assoc]
        exact ⟨_, rfl⟩
      have hedit := rule_of_safe (between.reverse ++ before) hblock hsafe
      rw [startBehind_eq hbefore] at hedit
      rw [Blocks.source, Rule.applyFrom_append fun u v huv hv => rule_eq_none (hfree u v huv hv),
        Rule.applyFrom_of_edit (block_ne_nil line) hedit, ih hexact _ (Or.inr hfence),
        Blocks.annotated, List.append_assoc]
  exact hfrom [] (Or.inl rfl)

end Playbook.Snippet
