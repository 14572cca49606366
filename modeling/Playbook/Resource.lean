import Playbook.Invocation
import Playbook.Path
import Playbook.Reference
import Playbook.Wording

/-!
# Resources

Templates, references and the like are copied as they are; only the markdown among them is led
over to the host, if its bytes are valid UTF-8.

Results:
* `transform_of_not_markdown`: other files keep their bytes.
-/
namespace Playbook.Resource

def bodyText (t : Text) : Text :=
  Invocation.expandTasks (Wording.forHost (Reference.localize t))

/-- The bytes to write for the resource file at a path with these contents. -/
def transform (path : Path) (contents : ByteArray) : ByteArray :=
  if path.isMarkdown then
    match String.fromUTF8? contents with
    | some s => (String.ofList (bodyText s.toList)).toUTF8
    | none => contents
  else contents

theorem transform_of_not_markdown {path : Path} (h : path.isMarkdown = false)
    (contents : ByteArray) : transform path contents = contents := by
  simp [transform, h]

end Playbook.Resource
