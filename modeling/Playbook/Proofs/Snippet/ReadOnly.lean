import Playbook.Proofs.Snippet.Blocks
import Playbook.Proofs.Text.Trimmed

/-!
# Read-only lines

The host may run a marked block without asking, so its line should do nothing but read: each of its
commands is a file test, `git status`, `ls`, `cat` or `echo`, and there is no redirection and no
substitution. What marking looks at is how the line begins. It is the first command that begins
there, and whatever follows it is not looked at.

Results:
* `commands_eq`: the commands of a line are the first one and the later ones.
* `isReadOnly_first`: when the first command of a marked line is read-only.
* `annotate_block`: whatever follows a lead, the block is marked.
* `annotate_readOnly_iff`: what is still to be checked of the lines that are marked.
* `annotate_marks_deletion`: a marked line that deletes.
-/
namespace Playbook.Snippet

/-! ## Commands of a line -/

/-- The shell's operators are `;`, `&&`, `||`, `|` and `&`. -/
def isOperator (c : Char) : Bool := c = ';' || c = '&' || c = '|'

/-- The commands of a line, without the blanks around them. Operators of two characters are read as
two operators with nothing in between. -/
def commands (line : Text) : List Text :=
  let parts := Text.fields ';' (line.map fun c => if isOperator c then ';' else c)
  (parts.map Text.trim).filter fun command => !command.isEmpty

def readers : List Text := ["git status", "ls", "cat", "echo"]

/-- A command that only reads: a test that is closed at its end, or one of a few words by itself or
with arguments. -/
def isReadOnly (command : Text) : Bool :=
  (testLeads.any (Text.startsWith · command) && command.getLast? = some ']') ||
    readers.any fun word => (Text.after? word command).any (·.head?.all Text.isBlank)

/-- Nothing is redirected and nothing is substituted. -/
def Unredirected (line : Text) : Prop :=
  '>' ∉ line ∧ '\x60' ∉ line ∧ Text.occursIn "$(" line = false

/-- The line only reads. -/
def ReadOnly (line : Text) : Prop :=
  (∀ command ∈ commands line, isReadOnly command = true) ∧ Unredirected line

instance (line : Text) : Decidable (Unredirected line) := inferInstanceAs (Decidable (_ ∧ _))

instance (line : Text) : Decidable (ReadOnly line) := inferInstanceAs (Decidable (_ ∧ _))

/-- The line up to its first operator. -/
def firstCommand (line : Text) : Text := line.takeWhile (!isOperator ·)

/-- The commands behind the first operator. -/
def laterCommands (line : Text) : List Text := commands (line.dropWhile (!isOperator ·))

theorem commands_operator {c : Char} (hc : isOperator c = true) (t u : Text) :
    commands (t ++ c :: u) = commands t ++ commands u := by
  unfold commands
  simp only [List.map_append, List.map_cons, hc, if_true, Text.fields_separator, List.filter_append]

theorem commands_of_no_operator {t : Text} (h : ∀ c ∈ t, isOperator c = false)
    (hne : Text.trim t ≠ []) : commands t = [Text.trim t] := by
  have hmap : (t.map fun c => if isOperator c then ';' else c) = t := by
    refine (List.map_congr_left fun c hc => ?_).trans (List.map_id t)
    rw [h c hc]
    rfl
  have hsemicolon : ';' ∉ t := fun hmem => by cases h ';' hmem
  unfold commands
  rw [hmap]
  simp [Text.fields_of_not_mem hsemicolon, hne]

/-- The commands of a line are the first one and the later ones. -/
theorem commands_eq {line : Text} (hne : Text.trim (firstCommand line) ≠ []) :
    commands line = Text.trim (firstCommand line) :: laterCommands line := by
  have hfirst : ∀ c ∈ firstCommand line, isOperator c = false := by
    intro c hc
    simpa using List.all_eq_true.1 List.all_takeWhile c hc
  have hline : line = firstCommand line ++ line.dropWhile (!isOperator ·) :=
    List.takeWhile_append_dropWhile.symm
  have hrest := List.head?_dropWhile_not (!isOperator ·) line
  have hone := commands_of_no_operator hfirst hne
  unfold laterCommands
  generalize line.dropWhile (!isOperator ·) = rest at hline hrest ⊢
  generalize firstCommand line = first at hline hone ⊢
  subst hline
  cases rest with
  | nil =>
    rw [List.append_nil, hone]
    rfl
  | cons c rest =>
    have hc : isOperator c = true := by simpa using hrest
    have hbehind := commands_operator hc [] rest
    rw [commands_operator hc, hone, ← List.nil_append (c :: rest), hbehind]
    rfl

/-! ## The first command -/

/-- A test is closed at the end of the command, and `git status` is not the front of a longer
word. -/
def Whole (command : Text) : Prop :=
  (command.head? = some '[' → (Text.trim command).getLast? = some ']') ∧
    ∀ tail, command = "git status" ++ tail → tail.head?.all Text.isBlank = true

theorem isReadOnly_status (tail : Text) :
    isReadOnly ("git status" ++ tail) = tail.head?.all Text.isBlank := by
  have hwords : isReadOnly ("git status" ++ tail) = (tail.head?.all Text.isBlank || false) := rfl
  rw [hwords, Bool.or_false]

theorem isReadOnly_reader {word tail : Text} (hword : word ∈ readers)
    (htail : tail.head?.all Text.isBlank = true) : isReadOnly (word ++ tail) = true := by
  refine Bool.or_eq_true_iff.2 (Or.inr (List.any_eq_true.2 ⟨word, hword, ?_⟩))
  rw [Text.after?_eq_some.2 rfl, Option.any_some]
  exact htail

theorem isReadOnly_test {word : Text} (hword : word = "[ -f" ∨ word = "[ -d") (args : Text) :
    isReadOnly (Text.trim (word ++ ' ' :: args)) = true ↔
      (Text.trim (word ++ ' ' :: args)).getLast? = some ']' := by
  have htrim : Text.trim (word ++ ' ' :: args) = word ++ Text.trimEnd (' ' :: args) := by
    rcases hword with rfl | rfl
    all_goals exact Text.Trimmed.trim_append ⟨by decide, by decide⟩ (by decide) _
  obtain ⟨trail, hargs, -⟩ := Text.exists_trimEnd (' ' :: args)
  rw [htrim]
  cases hend : Text.trimEnd (' ' :: args) with
  | nil =>
    rcases hword with rfl | rfl
    all_goals decide
  | cons c rest =>
    rw [hend] at hargs
    obtain ⟨rfl, -⟩ := List.cons.inj hargs
    have hlead : isReadOnly (word ++ ' ' :: rest) =
        (decide ((word ++ ' ' :: rest).getLast? = some ']') || false) := by
      rcases hword with rfl | rfl
      all_goals rfl
    rw [hlead, Bool.or_false, decide_eq_true_eq]

theorem firstCommand_append {lead : Text} (h : lead.all (!isOperator ·) = true) (tail : Text) :
    firstCommand (lead ++ tail) = lead ++ firstCommand tail :=
  List.takeWhile_append_of_pos (List.all_eq_true.1 h)

/-- The command starts with neither a test nor `git status`. -/
theorem whole_of_ne {c : Char} {tail : Text} (htest : c ≠ '[') (hstatus : c ≠ 'g') :
    Whole (c :: tail) :=
  ⟨fun h => absurd (Option.some.inj h) htest, fun _ h => absurd (List.cons.inj h).1 hstatus⟩

theorem isReadOnly_trim (word args : Text) (hword : word ∈ readers) :
    isReadOnly (Text.trim (word ++ ' ' :: args)) = true := by
  have htrimmed : ∀ word ∈ readers, word ≠ [] ∧ word.head?.any Text.isBlank = false ∧
      word.getLast?.any Text.isBlank = false := by decide
  obtain ⟨hne, hhead, hlast⟩ := htrimmed word hword
  rw [Text.Trimmed.trim_append ⟨hhead, hlast⟩ hne]
  exact isReadOnly_reader hword (Text.all_head?_trimEnd (' ' :: args))

/-- The first command of a line that begins as a marked one is read-only exactly if it is whole. -/
theorem isReadOnly_first {line : Text} (h : SafeLine line) :
    isReadOnly (Text.trim (firstCommand line)) = true ↔ Whole (firstCommand line) := by
  rcases h with ⟨lead, hlead, tail, rfl⟩ | ⟨lead, hlead, tail, rfl, -⟩
  · have hquiet : ∀ lead ∈ commandLeads, lead.all (!isOperator ·) = true := by decide
    rw [firstCommand_append (hquiet lead hlead)]
    generalize firstCommand tail = tail
    -- only behind `git status` may something be missing: the other leads end with a blank
    simp only [commandLeads, List.mem_cons, List.not_mem_nil, or_false] at hlead
    rcases hlead with rfl | rfl | rfl | rfl
    · rw [Text.Trimmed.trim_append ⟨by decide, by decide⟩ (by decide), isReadOnly_status,
        Text.all_head?_trimEnd]
      refine ⟨fun h => ⟨fun hhead => (by cases hhead), fun rest hrest => ?_⟩, fun h => h.2 tail rfl⟩
      rwa [← List.append_cancel_left hrest]
    · exact iff_of_true (isReadOnly_trim "ls" tail (by decide))
        (whole_of_ne (by decide) (by decide))
    · exact iff_of_true (isReadOnly_trim "cat" tail (by decide))
        (whole_of_ne (by decide) (by decide))
    · exact iff_of_true (isReadOnly_trim "echo" tail (by decide))
        (whole_of_ne (by decide) (by decide))
  · have hquiet : ∀ lead ∈ testLeads, lead.all (!isOperator ·) = true := by decide
    rw [firstCommand_append (hquiet lead hlead)]
    generalize firstCommand tail = tail
    obtain ⟨word, hword, rfl⟩ : ∃ word : Text, (word = "[ -f" ∨ word = "[ -d") ∧
        lead = word ++ [' '] := by
      simp only [testLeads, List.mem_cons, List.not_mem_nil, or_false] at hlead
      rcases hlead with rfl | rfl
      · exact ⟨"[ -f", Or.inl rfl, rfl⟩
      · exact ⟨"[ -d", Or.inr rfl, rfl⟩
    have hopen : (word ++ [' '] ++ tail).head? = some '[' := by
      rcases hword with rfl | rfl
      all_goals rfl
    rw [List.append_assoc, List.singleton_append] at hopen ⊢
    rw [isReadOnly_test hword]
    refine ⟨fun h => ⟨fun _ => h, fun rest hrest => ?_⟩, fun h => h.1 hopen⟩
    rw [hrest] at hopen
    cases hopen

theorem trim_firstCommand_ne_nil {line : Text} (h : SafeLine line) :
    Text.trim (firstCommand line) ≠ [] := by
  have hleads : ∀ lead ∈ commandLeads ++ testLeads,
      lead.head?.any (fun c => !Text.isBlank c && !isOperator c) = true := by decide
  obtain ⟨lead, hlead, tail, rfl⟩ :
      ∃ lead ∈ commandLeads ++ testLeads, ∃ tail, line = lead ++ tail := by
    rcases h with ⟨lead, hlead, tail, hline⟩ | ⟨lead, hlead, tail, hline, -⟩
    · exact ⟨lead, List.mem_append_left _ hlead, tail, hline⟩
    · exact ⟨lead, List.mem_append_right _ hlead, tail, hline⟩
  obtain ⟨c, hhead, hc⟩ := (Option.any_eq_true _ _).1 (hleads lead hlead)
  obtain ⟨rest, rfl⟩ := List.head?_eq_some_iff.1 hhead
  obtain ⟨hblank, hoperator⟩ := Bool.and_eq_true_iff.1 hc
  have hfirst : firstCommand (c :: rest ++ tail) = c :: firstCommand (rest ++ tail) :=
    List.takeWhile_cons_of_pos hoperator
  rw [hfirst, ne_eq, Text.trim_eq_nil_iff]
  intro hall
  rw [hall c List.mem_cons_self] at hblank
  cases hblank

/-! ## Marked lines -/

theorem annotate_block {line : Text} (hrow : '\n' ∉ line) (h : SafeLine line) :
    annotate (block line) = marker ++ block line := by
  have hsafe : safe? (block line) = some line :=
    safe?_eq_some_iff.2 ⟨hrow, h, [], (List.append_nil _).symm⟩
  have hexact : (Blocks.next [] line (.last [])).Exact := by
    refine ⟨Text.free_nil safe? _, ?_, Text.free_nil safe? []⟩
    rwa [Blocks.source, List.append_nil]
  have hmarked := annotate_source hexact
  rw [Blocks.source, Blocks.source, List.nil_append, List.append_nil] at hmarked
  rw [hmarked, Blocks.annotated, Blocks.annotated, List.nil_append, List.append_nil]
  rfl

theorem safeLine_of_inserted {blocks : Blocks} (h : blocks.Exact) :
    ∀ line ∈ blocks.inserted, SafeLine line := by
  induction blocks with
  | last text => exact fun _ hmem => nomatch hmem
  | next between line behind ih =>
    obtain ⟨-, hline, hbehind⟩ := h
    rw [Blocks.inserted]
    split
    · exact ih hbehind
    · exact List.forall_mem_cons.2 ⟨(safe?_eq_some_iff.1 hline).2.1, ih hbehind⟩

/-- A line that begins as a marked one is read-only exactly if its first command is whole, the later
ones are read-only, and nothing is redirected or substituted. -/
theorem readOnly_iff {line : Text} (h : SafeLine line) : ReadOnly line ↔
    Whole (firstCommand line) ∧ (∀ command ∈ laterCommands line, isReadOnly command = true) ∧
      Unredirected line := by
  rw [ReadOnly, commands_eq (trim_firstCommand_ne_nil h), List.forall_mem_cons, isReadOnly_first h,
    and_assoc]

/-- What marking knows of a line that it marks is how it begins. The line is read-only exactly if
also the first command is whole, the later ones are read-only, and nothing is redirected or
substituted. -/
theorem annotate_readOnly_iff (t : Text) : ∃ blocks : Blocks, blocks.source = t ∧ blocks.Exact ∧
    annotate t = blocks.annotated ∧ ∀ line ∈ blocks.inserted, SafeLine line ∧
      (ReadOnly line ↔ Whole (firstCommand line) ∧
        (∀ command ∈ laterCommands line, isReadOnly command = true) ∧ Unredirected line) := by
  obtain ⟨blocks, rfl, hexact⟩ := exists_blocks t
  refine ⟨blocks, rfl, hexact, annotate_source hexact, fun line hline => ?_⟩
  have hsafe := safeLine_of_inserted hexact line hline
  exact ⟨hsafe, readOnly_iff hsafe⟩

/-- A line with a second command that deletes is marked. -/
theorem annotate_marks_deletion :
    let line : Text := "ls . && rm -rf build"
    annotate (block line) = marker ++ block line ∧ ¬ ReadOnly line :=
  ⟨annotate_block (by decide) (isSafe_iff.1 (by decide)), by decide +kernel⟩

end Playbook.Snippet
