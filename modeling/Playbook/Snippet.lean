import Playbook.Text.Rule

/-!
# Shell snippets

A fenced block of shell whose single line starts with a file test, `git status`, `ls`, `cat` or
`echo` may run without the user's consent. The line `// turbo` in front of the fence says so.

Results:
* `annotate_of_no_fence`: a text without a fenced block of shell stays as it is.
-/
namespace Playbook.Snippet

def openFence : Text := "\x60\x60\x60bash\n"

def closeFence : Text := "\x60\x60\x60"

def marker : Text := "// turbo\n"

def commandLeads : List Text := ["git status", "ls ", "cat ", "echo "]

def testLeads : List Text := ["[ -f ", "[ -d "]

/-- Whether a line starts with a command that changes nothing: one of a few words, or a test
that is closed on the line. -/
def isSafe (line : Text) : Bool :=
  commandLeads.any (Text.startsWith · line) ||
    testLeads.any fun lead => (Text.after? lead line).any (·.contains ']')

/-- The line of a block at the start of a text: fence, line, fence. -/
def block? (t : Text) : Option Text :=
  match Text.after? openFence t with
  | none => none
  | some rest =>
    let line := rest.takeWhile (· ≠ '\n')
    if Text.startsWith ('\n' :: closeFence) (rest.dropWhile (· ≠ '\n')) then some line else none

/-- Mark a safe block, unless the marker already stands before it. -/
def rule : Rule := fun before rest =>
  match block? rest with
  | none => none
  | some line =>
    if isSafe line then
      let width := openFence.length + line.length + 1 + closeFence.length
      let marked := Text.startsWith marker.reverse before
      some ⟨width, if marked then rest.take width else marker ++ rest.take width⟩
    else none

/-- The text with its safe blocks marked. -/
def annotate (t : Text) : Text := rule.apply t

theorem annotate_of_no_fence {t : Text} (h : Text.occursIn openFence t = false) :
    annotate t = t := by
  refine Rule.apply_of_inert fun u v huv _ => ?_
  have hb : block? v = none := by
    unfold block?
    split
    · rfl
    · rename_i rest hr
      have := Text.occursIn_append u openFence rest
      rw [List.append_assoc, ← Text.after?_eq_some.1 hr, ← huv, h] at this
      simp at this
  simp [rule, hb]

end Playbook.Snippet
