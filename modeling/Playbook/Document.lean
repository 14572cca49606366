import Playbook.OrderedMap
import Playbook.Text.Blank

/-!
# Documents

A document has a frontmatter, which maps keys to values on single lines, and a body. Written
out, the frontmatter stands between two lines `---`, an empty line follows, then the body.

Results:
* `length_render`: the size of a written document is that of its body and a constant part.
-/
namespace Playbook

abbrev Frontmatter := OrderedMap Text Text

structure Document where
  frontmatter : Frontmatter
  body : Text
  deriving Repr, DecidableEq

namespace Frontmatter

def descriptionKey : Text := "description"

/-- The entry that a line of a frontmatter block makes: key and value stand around its first
colon. A line without a colon, or with nothing before it, makes none. -/
def entry? (line : Text) : Option (Text × Text) :=
  match Text.breakOn ":" line with
  | none => none
  | some (before, rest) =>
    let key := Text.trim before
    if key.isEmpty then none else some (key, Text.trim rest)

/-- The frontmatter of a block of lines. -/
def parse (block : Text) : Frontmatter :=
  OrderedMap.ofList ((Text.fields '\n' block).filterMap entry?)

/-- The lines of the entries. -/
def render (frontmatter : Frontmatter) : Text :=
  frontmatter.entries.flatMap fun (key, value) => key ++ ": " ++ value ++ "\n"

end Frontmatter

namespace Document

/-- What stands before the body. -/
def header (frontmatter : Frontmatter) : Text :=
  "---\n" ++ frontmatter.render ++ "---\n\n"

def render (d : Document) : Text := header d.frontmatter ++ d.body

/-- The size of the written document. -/
def size (d : Document) : Nat := d.render.length

/-- The document of a text. A block of frontmatter starts on the first line and ends at the
next line `---`; without one the whole text is the body. -/
def parse (source : Text) : Document :=
  match Text.after? "---\n" source with
  | none => ⟨.empty, source⟩
  | some rest =>
    match Text.breakOn "\n---\n" rest with
    | none => ⟨.empty, source⟩
    | some (block, body) => ⟨Frontmatter.parse block, body⟩

theorem length_render (d : Document) :
    d.size = (header d.frontmatter).length + d.body.length := by
  simp [size, render]

/-- What a written document has besides its body. -/
def overhead (d : Document) : Nat := d.size - d.body.length

theorem overhead_eq (d : Document) : d.overhead = (header d.frontmatter).length := by
  rw [overhead, length_render, Nat.add_sub_cancel]

end Document

end Playbook
