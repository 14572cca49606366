import Playbook.Invocation
import Playbook.Proofs.Call.Candidates
import Playbook.Proofs.Wording.Traces

/-!
# Traces in blocks of instructions

A block is written in the place of a call, with the call's prompt without its escapes and the name
of its agent. A line feed stands at each of its ends, and calls start at word starts only, so
nothing outside a block becomes a mark by it: the marks that are there afterwards are those inside
blocks.

Results:
* `render_eq`: a block as its rows.
* `absent_rows`, `absent_render_iff`: the marks in a block are those in the parts that depend on
  its call.
* `absent_expand_iff`: a text without a mark has it after the calls are replaced exactly if it is
  in a block.
-/
namespace Playbook.Invocation

open Wording (marks)

section
variable (style : Style) (call : Call)

/-! ## Blocks of instructions -/

def Style.fileRow : Text :=
  "   View file: " ++ style.skillsDir ++ "/" ++ style.skillName (call.handler?.getD []) ++
    "/SKILL.md"

/-- The parts of a block that depend on its call. -/
def Style.callRows : List Text :=
  let skill := style.skillName (call.handler?.getD [])
  ["## " ++ titleCase skill, promptText call.prompt?, "1. Read the " ++ skill ++ " skill:",
    style.fileRow call]

def noticeRows : Text :=
  "\n" ++ Host.contextNotice ++ Host.directoryNotice ++ "\n" ++ "**Task Context:**"

/-- A block between its first line feed and the row with the skill's file. -/
def Style.opening : Text :=
  let skill := style.skillName (call.handler?.getD [])
  "## " ++ titleCase skill ++ '\n' :: (noticeRows ++ '\n' :: (promptText call.prompt? ++
    '\n' :: ("\n**How to proceed:**" ++ '\n' :: ("1. Read the " ++ skill ++ " skill:" ++
      '\n' :: "   \x60\x60\x60"))))

/-- A block behind the row with the skill's file, without its last line feed. -/
def Style.closing : Text :=
  "   \x60\x60\x60\n" ++
  "2. Follow the skill's instructions, applying them to the task context above. " ++
  "Note: You are " ++ style.host ++ ", follow the instructions as " ++ style.host ++ ".\n" ++
  "3. Create outputs as specified in the skill"

/-- A block without its first and its last line feed. -/
def Style.inside : Text :=
  style.opening call ++ '\n' :: (style.fileRow call ++ '\n' :: style.closing)

theorem render_eq : style.render call = '\n' :: (style.inside call ++ ['\n']) := by
  unfold Style.render Style.inside Style.opening Style.fileRow Style.closing noticeRows
  simp only [List.append_assoc, List.cons_append]
  rfl

end

/-- The parts of a block that are the same for every call. -/
def fixedRows : List Text :=
  [noticeRows, "\n**How to proceed:**", "   \x60\x60\x60", Style.standard.closing]

/-- A mark that holds no line feed and is not in the fixed parts of a block is in a block exactly
if it is in a part that depends on its call. -/
theorem absent_rows {m : Mark} (hc : m.Parts '\n') (hfixed : ∀ row ∈ fixedRows, m.Absent row)
    (call : Call) : m.Absent (Style.standard.render call) ↔
      ∀ row ∈ Style.standard.callRows call, m.Absent row := by
  simp only [fixedRows, List.forall_mem_cons] at hfixed
  obtain ⟨hnotice, hproceed, hfence, hclosing, -⟩ := hfixed
  rw [render_eq, Mark.absent_block hc]
  unfold Style.inside Style.opening Style.callRows
  simp only [Mark.absent_separator hc, List.forall_mem_cons, List.not_mem_nil, false_implies,
    implies_true, and_true, hnotice, hproceed, hfence, hclosing, true_and, and_assoc]

theorem parts_newline {m : Mark} (hm : m ∈ marks) : m.Parts '\n' := by
  have hshape : ∀ m ∈ marks, ∀ a ∈ m.shape, a '\n' = false := by decide
  exact ⟨hshape m hm, by decide⟩

theorem absent_render_iff {m : Mark} (hm : m ∈ marks) (call : Call) :
    m.Absent (Style.standard.render call) ↔
      ∀ row ∈ Style.standard.callRows call, m.Absent row := by
  have hfixed : ∀ m ∈ marks, ∀ row ∈ fixedRows, m.apart row = true := by
    decide +kernel
  exact absent_rows (parts_newline hm) (fun row hrow => Mark.absent_of_apart (hfixed m hm row hrow))
    call

/-! ## Calls replaced by blocks -/

theorem isIdentifierChar_eq : Call.isIdentifierChar = Text.isAsciiWord := by
  funext c
  unfold Call.isIdentifierChar Call.isIdentifierStart Text.isAsciiWord Text.isAsciiDigit
  ac_rfl

/-- A call at a word start is replaced by a block without marks. -/
theorem swap_block {style : Style} {call : Call} {m : Mark} (hm : m ∈ marks)
    (hinside : m.Absent (style.inside call)) {source before before' t t' : Text}
    (hstart : before'.head?.any Call.isIdentifierChar = false)
    (behind : m.Edited (source.reverse ++ before) ((style.render call).reverse ++ before') t t') :
    m.Edited before before' (source ++ t) (style.render call ++ t') := by
  have hc := parts_newline hm
  rw [render_eq] at behind ⊢
  refine .swap source _ (fun u v huv hv => Mark.not_foundAt_block hc hinside huv hv _ _) ?_ behind
  intro q p hshape hq hends
  constructor
  · intro hp
    obtain ⟨a, p, rfl⟩ := List.exists_cons_of_ne_nil hp
    exact if_neg (by rw [hc.1 a (by rw [hshape]; simp)]; exact Bool.false_ne_true)
  · rintro rfl hwhole
    rw [List.append_nil] at hshape
    rw [← hshape] at hends
    have hword := Wording.isAsciiWord_of_ends hm hwhole hends
    rw [← isIdentifierChar_eq, hstart] at hword
    cases hword

theorem edited_expandFrom {style : Style} {names : Call.Names} {m : Mark} (hm : m ∈ marks)
    {inWord : Bool} {before before' t : Text}
    (hstart : before'.head?.any Call.isIdentifierChar = inWord)
    (hedge : Text.isWordAt before.head? = Text.isWordAt before'.head?)
    (habsent : m.AbsentFrom before t)
    (hinside : ∀ source call, .call source call ∈ Call.piecesFrom names inWord 0 t →
      call.handler?.isSome = true → m.Absent (style.inside call)) :
    m.Edited before before' t ((Call.piecesFrom names inWord 0 t).flatMap style.expandPiece) := by
  induction inWord, t using Call.piecesFrom_induction names generalizing before before' with
  | nil inWord => exact .done before before'
  | call name inner rest hp ih =>
    have htext : name ++ '(' :: (inner ++ ')' :: rest) =
        (name ++ '(' :: (inner ++ [')'])) ++ rest := by simp
    rw [Call.piecesFrom_parts hp] at hinside ⊢
    have hrest := fun source call hcall =>
      hinside source call (List.mem_cons_of_mem _ hcall)
    rw [htext] at habsent ⊢
    have hsource (t : Text) :
        ((name ++ '(' :: (inner ++ [')'])).reverse ++ t).head? = some ')' := by simp
    rw [List.flatMap_cons, Style.expandPiece]
    split
    · rename_i hhandler
      have hblock (call : Call) (t : Text) :
          ((style.render call).reverse ++ t).head? = some '\n' := by simp [render_eq]
      refine swap_block hm (hinside _ _ List.mem_cons_self hhandler) hstart (ih ?_ ?_ ?_ hrest)
      · rw [hblock]
        decide
      · rw [hsource, hblock]
        decide
      · exact habsent.append
    · refine .keep_all habsent hedge (ih ?_ ?_ habsent.append hrest)
      · rw [hsource]
        decide
      · rw [hsource, hsource]
  | char inWord c t hpieces ih =>
    rw [hpieces] at hinside ⊢
    obtain ⟨hnot, hbehind⟩ := habsent.cons
    refine .keep c hnot (fun _ _ => hedge) (ih rfl rfl hbehind ?_)
    exact fun source call hcall => hinside source call (List.mem_cons_of_mem _ hcall)

/-- A text without a mark has none after its calls are replaced, unless it is in a block. -/
theorem absent_expand_iff {style : Style} {names : Call.Names} {m : Mark} (hm : m ∈ marks)
    {t : Text} (ht : m.Absent t) : m.Absent (style.expand names t) ↔
      ∀ source call, .call source call ∈ Call.pieces names t → call.handler?.isSome = true →
        m.Absent (style.render call) := by
  have hc := parts_newline hm
  constructor
  · intro h source call hcall hhandler
    obtain ⟨front, back, hpieces⟩ := List.append_of_mem hcall
    rw [Style.expand, hpieces, List.flatMap_append, List.flatMap_cons, Style.expandPiece,
      if_pos hhandler, render_eq, List.cons_append, List.append_assoc, List.singleton_append,
      Mark.absent_separator hc, Mark.absent_separator hc] at h
    rw [render_eq, Mark.absent_block hc]
    exact h.2.1
  · intro h
    refine (edited_expandFrom hm rfl rfl ht fun source call hcall hhandler => ?_).absent
    have hblock := h source call hcall hhandler
    rwa [render_eq, Mark.absent_block hc] at hblock

end Playbook.Invocation
