import Playbook.Text.Basic

/-!
# The host

The assistant that the output is written for: its name, where it looks for files, and what it is
told about the directory it works in.
-/
namespace Playbook.Host

def name : Text := "Antigravity"

def nameUpper : Text := "ANTIGRAVITY"

/-- The file with the user's standing rules. -/
def rulesFile : Text := "GEMINI.md"

/-- The directory of a project that holds what the host reads. -/
def dataDir : Text := ".agent"

def skillsDir : Text := ".agent/skills"

def contextNotice : Text :=
  "**Context:** You are operating in the user's PROJECT DIRECTORY.\n"

/-- The beginning of the directory notice; a document that has it needs no other. -/
def directoryMark : Text := "**CRITICAL:** Execute all commands"

def directoryNotice : Text :=
  directoryMark ++ " (ls, cat, mkdir) in the current working directory. " ++
  "DO NOT cd into the workflow source directories.\n"

end Playbook.Host
