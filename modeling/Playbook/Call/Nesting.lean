import Playbook.Text.Basic

/-!
# Nesting

Reading a text for its brackets, quotes and escapes. A backslash makes the next character
literal, inside a string as well as outside; a string runs from a quote to the next same quote;
the three kinds of brackets share one depth, and any closing bracket closes any opening one.
-/
namespace Playbook.Call

def isQuote (c : Char) : Bool := c = '"' || c = '\'' || c = '\x60'

def isOpener (c : Char) : Bool := c = '(' || c = '\x7b' || c = '['

def isCloser (c : Char) : Bool := c = ')' || c = '\x7d' || c = ']'

/-- The part that one character plays. -/
inductive Role
  | escape
  | escaped
  | quoteOpen
  | quoteClose
  | quoted
  | opener
  | closer
  | plain
  deriving Repr, DecidableEq

/-- How many brackets are open, which quote is, and whether a backslash came last. -/
structure Nesting where
  depth : Nat
  quote : Option Char
  escaped : Bool
  deriving Repr, DecidableEq

namespace Nesting

/-- Outside every bracket and string. -/
def top : Nesting := ⟨0, none, false⟩

/-- Behind `depth` opening brackets. -/
def inside (depth : Nat) : Nesting := ⟨depth, none, false⟩

def atTop (s : Nesting) : Bool := s.depth = 0 && s.quote.isNone && !s.escaped

def role (s : Nesting) (c : Char) : Role :=
  if s.escaped then .escaped
  else if c = '\\' then .escape
  else match s.quote with
    | some q => if c = q then .quoteClose else .quoted
    | none =>
      if isQuote c then .quoteOpen
      else if isOpener c then .opener
      else if isCloser c then .closer
      else .plain

/-- The state behind a character. The depth stays at zero if a bracket closes nothing. -/
def step (s : Nesting) (c : Char) : Nesting :=
  match s.role c with
  | .escape => { s with escaped := true }
  | .escaped => { s with escaped := false }
  | .quoteOpen => { s with quote := some c }
  | .quoteClose => { s with quote := none }
  | .opener => { s with depth := s.depth + 1 }
  | .closer => { s with depth := s.depth - 1 }
  | .quoted | .plain => s

def run (s : Nesting) (t : Text) : Nesting := t.foldl step s

theorem run_append (s : Nesting) (t u : Text) : s.run (t ++ u) = (s.run t).run u := by
  simp [run]

end Nesting

/-! ## Cutting at top level -/

/-- The parts of a text between the separators that stand at top level. -/
def splitTop (separator : Char) : Nesting → Text → List Text
  | _, [] => [[]]
  | s, c :: t =>
    if c = separator && s.atTop then [] :: splitTop separator s t
    else match splitTop separator (s.step c) t with
      | [] => [[c]]
      | part :: parts => (c :: part) :: parts

/-- The text before and after the first `mark` at top level. -/
def breakTop (mark : Char) : Nesting → Text → Option (Text × Text)
  | _, [] => none
  | s, c :: t =>
    if c = mark && s.atTop then some ([], t)
    else (breakTop mark (s.step c) t).map fun (before, rest) => (c :: before, rest)

/-- The text up to the closing bracket that brings the depth to zero, and the text behind that
bracket. It must be a `)`. -/
def breakClose : Nesting → Text → Option (Text × Text)
  | _, [] => none
  | s, c :: t =>
    if s.role c = .closer && (s.step c).depth = 0 then
      if c = ')' then some ([], t) else none
    else (breakClose (s.step c) t).map fun (inner, rest) => (c :: inner, rest)

end Playbook.Call
