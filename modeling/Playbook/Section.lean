import Playbook.Text.Blank
import Playbook.Text.Digit

/-!
# Phase sections

A line `## Phase 2.1: Title` opens a section, which runs to the next such line or to the end of
the text. What stands before the first one is the preamble.

Results:
* `text_outline`: preamble and sections, in order, make up the text.
-/
namespace Playbook

structure Heading where
  ordinal : Text
  title : Text
  deriving Repr, DecidableEq

namespace Heading

def lead : Text := "## Phase "

/-- Runs of digits joined by single dots. -/
def isOrdinal (t : Text) : Bool :=
  (Text.fields '.' t).all fun digits => !digits.isEmpty && digits.all Text.isDigit

def isOrdinalChar (c : Char) : Bool := Text.isDigit c || c = '.'

def isGap (c : Char) : Bool := c = ' ' || c = '\t'

/-- The title of what follows an ordinal: a colon, a space or a tab, any number of spaces and
tabs, then text that does not start with a blank. -/
def title? : Text → Option Text
  | [] => none
  | c :: t =>
    let title := t.dropWhile isGap
    if (c = ':' || isGap c) && title.head?.any (!Text.isBlank ·) then some (Text.trim title)
    else none

/-- The heading that a line is; the line comes without its end. -/
def ofLine? (line : Text) : Option Heading :=
  match Text.after? lead line with
  | none => none
  | some rest =>
    let ordinal := rest.takeWhile isOrdinalChar
    if isOrdinal ordinal then
      (title? (rest.dropWhile isOrdinalChar)).map fun title => ⟨ordinal, title⟩
    else none

end Heading

/-! ## Outline -/

/-- A text cut before each heading line. -/
structure Outline where
  preamble : Text
  parts : List (Heading × Text)

namespace Outline

/-- The outline of a line followed by lines with a given outline. -/
def addLine (line : Text) (rest : Outline) : Outline :=
  match Heading.ofLine? (Text.chomp line) with
  | some heading => ⟨[], (heading, line ++ rest.preamble) :: rest.parts⟩
  | none => ⟨line ++ rest.preamble, rest.parts⟩

def ofText (t : Text) : Outline := (Text.lines t).foldr addLine ⟨[], []⟩

def text (o : Outline) : Text := o.preamble ++ o.parts.flatMap (·.2)

theorem text_addLine (line : Text) (rest : Outline) :
    (addLine line rest).text = line ++ rest.text := by
  simp only [addLine]
  split <;> simp [text]

theorem text_outline (t : Text) : (ofText t).text = t := by
  have h (ls : List Text) : (ls.foldr addLine ⟨[], []⟩).text = ls.flatten := by
    induction ls with
    | nil => rfl
    | cons line ls ih => simp [text_addLine, ih]
  rw [ofText, h, Text.flatten_lines]

end Outline

/-! ## Sections -/

/-- A section with the byte of the text at which its heading line starts. -/
structure Section where
  heading : Heading
  start : Nat
  content : Text
  deriving Repr, DecidableEq

namespace Section

/-- The byte behind the section. -/
def stop (s : Section) : Nat := s.start + Text.byteSize s.content

/-- The number of its characters, heading included. -/
def size (s : Section) : Nat := s.content.length

/-- The ordinal as part of an id, with dashes for its dots. -/
def slug (s : Section) : Text := s.heading.ordinal.map fun c => if c = '.' then '-' else c

/-- The parts of an outline as sections, where the first starts at byte `start`. -/
def placed : (start : Nat) → List (Heading × Text) → List Section
  | _, [] => []
  | start, (heading, content) :: parts =>
    ⟨heading, start, content⟩ :: placed (start + Text.byteSize content) parts

/-- The sections of a text, in order. -/
def index (t : Text) : List Section :=
  let outline := Outline.ofText t
  placed (Text.byteSize outline.preamble) outline.parts

end Section

end Playbook
