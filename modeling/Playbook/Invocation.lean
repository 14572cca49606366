import Playbook.Call.Scan
import Playbook.Host
import Playbook.Text.Upper

/-!
# Invocations

A call that names an agent is replaced by a block of instructions that has the host run the
agent's skill. All other text, calls without a handler included, stays as it is.

Results:
* `expand_of_no_handler`: a text without a handler-carrying call is returned unchanged.
-/
namespace Playbook

/-- How invocation blocks are written. -/
structure Invocation.Style where
  /-- Leading part of agent names that skill names lack. -/
  namespaceTag : Text
  skillsDir : Text
  host : Text
  deriving Repr, DecidableEq

namespace Invocation

/-- The leading part of agent names. -/
def agentTag : Text := "gsd-"

def Style.standard : Style := ⟨agentTag, Host.skillsDir, Host.name⟩

/-- The names of the calls that run an agent. -/
def taskNames : Call.Names := .only ["Task"]

/-- The prompt of a call that has none. -/
def defaultPrompt : Text := "Follow the skill instructions"

/-- Words joined by dashes as a title: the first letter of each in upper case, with blanks
between (`plan-checker` to `Plan Checker`). -/
def titleCase (name : Text) : Text :=
  ([' '] : Text).intercalate <| (Text.fields '-' name).map fun
    | [] => []
    | c :: word => Text.upper c ++ word

def Style.skillName (style : Style) (handler : Text) : Text := Text.strip style.namespaceTag handler

/-- The task of a call: a string as it is, a name in braces, an expression as it is written. -/
def promptText : Option Call.Value → Text
  | some (.text t) => if t.isEmpty then defaultPrompt else t
  | some (.identifier name) => '\x7b' :: name ++ ['\x7d']
  | some (.expression t) => if t.isEmpty then defaultPrompt else t
  | none => defaultPrompt

/-- The block of instructions for a call. -/
def Style.render (style : Style) (call : Call) : Text :=
  let skill := style.skillName (call.handler?.getD [])
  "\n## " ++ titleCase skill ++ "\n\n" ++
  Host.contextNotice ++ Host.directoryNotice ++ "\n" ++
  "**Task Context:**\n" ++ promptText call.prompt? ++ "\n\n" ++
  "**How to proceed:**\n" ++
  "1. Read the " ++ skill ++ " skill:\n" ++
  "   \x60\x60\x60\n" ++
  "   View file: " ++ style.skillsDir ++ "/" ++ skill ++ "/SKILL.md\n" ++
  "   \x60\x60\x60\n" ++
  "2. Follow the skill's instructions, applying them to the task context above. " ++
  "Note: You are " ++ style.host ++ ", follow the instructions as " ++ style.host ++ ".\n" ++
  "3. Create outputs as specified in the skill\n"

/-- A piece as it stands in the result. -/
def Style.expandPiece (style : Style) : Call.Piece → Text
  | .char c => [c]
  | .call source call => if call.handler?.isSome then style.render call else source

/-- The text with every call that names an agent replaced by its block. -/
def Style.expand (style : Style) (names : Call.Names) (t : Text) : Text :=
  (Call.pieces names t).flatMap style.expandPiece

/-- The text with its task calls replaced, in the standard style. -/
def expandTasks (t : Text) : Text := Style.standard.expand taskNames t

theorem expand_of_no_handler (style : Style) (names : Call.Names) (t : Text)
    (h : ∀ source call, Call.Piece.call source call ∈ Call.pieces names t →
      call.handler? = none) :
    style.expand names t = t := by
  have hp : ∀ p ∈ Call.pieces names t, style.expandPiece p = p.source := by
    intro p hp
    cases p with
    | char c => rfl
    | call source call => simp [Style.expandPiece, Call.Piece.source, h source call hp]
  calc style.expand names t
      = ((Call.pieces names t).map style.expandPiece).flatten := by
        rw [Style.expand, List.flatMap_def]
    _ = ((Call.pieces names t).map Call.Piece.source).flatten := by
        rw [List.map_congr_left hp]
    _ = t := Call.flatten_pieces names t

end Invocation

end Playbook
