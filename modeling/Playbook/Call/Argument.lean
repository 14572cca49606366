import Playbook.Call.Nesting
import Playbook.OrderedMap
import Playbook.Text.Blank
import Playbook.Text.Digit

/-!
# Arguments of a call

Between its parentheses a call carries fragments `key=value`, separated by commas at top level.
A fragment without `=` at top level, or whose key is not an identifier, says nothing. A value
is a string literal, a path of identifiers (`phase.prompt`), or any other expression, kept as
it is written.

Results:
* `unescape_of_plain`: a string without backslashes is its own content.
-/
namespace Playbook.Call

/-! ## Identifiers -/

def isIdentifierStart (c : Char) : Bool :=
  ('a' ≤ c && c ≤ 'z') || ('A' ≤ c && c ≤ 'Z') || c = '_'

def isIdentifierChar (c : Char) : Bool := isIdentifierStart c || Text.isAsciiDigit c

def isIdentifier : Text → Bool
  | [] => false
  | c :: t => isIdentifierStart c && t.all isIdentifierChar

/-- One or more identifiers joined by single dots. -/
def isIdentifierPath (t : Text) : Bool := (Text.fields '.' t).all isIdentifier

/-! ## Values -/

inductive Value
  | text (content : Text)
  | identifier (path : Text)
  | expression (source : Text)
  deriving Repr, DecidableEq

def Value.source : Value → Text
  | .text t | .identifier t | .expression t => t

/-- Whether the first quote to close does so at the very end. -/
def closesAtEnd : Nesting → Text → Bool
  | _, [] => false
  | s, c :: t => if s.role c = .quoteClose then t.isEmpty else closesAtEnd (s.step c) t

/-- The quote and the inside of a text that is exactly one string literal. -/
def literal? : Text → Option (Char × Text)
  | [] => none
  | q :: t =>
    if isQuote q && closesAtEnd (Nesting.top.step q) t then some (q, t.dropLast) else none

/-- The content of a string literal: a backslash before `n`, `t`, a backslash or the literal's
own quote stands for that character, and before any other it is kept. -/
def unescape (quote : Char) : Text → Text
  | [] => []
  | ['\\'] => ['\\']
  | '\\' :: c :: t =>
    if c = 'n' then '\n' :: unescape quote t
    else if c = 't' then '\t' :: unescape quote t
    else if c = '\\' then '\\' :: unescape quote t
    else if c = quote then quote :: unescape quote t
    else '\\' :: c :: unescape quote t
  | c :: t => c :: unescape quote t

theorem unescape_of_plain (quote : Char) (t : Text) (h : '\\' ∉ t) : unescape quote t = t := by
  induction t with
  | nil => rfl
  | cons c t ih =>
    simp only [List.mem_cons, not_or] at h
    rw [unescape.eq_4]
    · rw [ih h.2]
    · intro hc; exact absurd hc.symm h.1
    · intro c' t' hc; exact absurd hc.symm h.1

def Value.parse (raw : Text) : Value :=
  let t := Text.trim raw
  match literal? t with
  | some (quote, content) => .text (unescape quote content)
  | none => if isIdentifierPath t then .identifier t else .expression t

/-! ## Arguments -/

abbrev Arguments := OrderedMap Text Value

/-- The key and the value of one fragment. -/
def argument? (fragment : Text) : Option (Text × Value) :=
  match breakTop '=' .top fragment with
  | none => none
  | some (before, rest) =>
    let key := Text.trim before
    if isIdentifier key then some (key, Value.parse rest) else none

/-- A repeated key keeps its first place and its last value. -/
def Arguments.parse (inner : Text) : Arguments :=
  OrderedMap.ofList ((splitTop ',' .top inner).filterMap argument?)

end Playbook.Call
