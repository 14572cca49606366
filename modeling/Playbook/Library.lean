import Playbook.Disk.Walk
import Playbook.Resource
import Playbook.Skill
import Playbook.Workflow

/-!
# Libraries

A library is a directory with agents, commands, resources and a rules file. Compiling it writes
below an output directory what the host reads: `skills/` with one directory for each agent,
`workflows/` with a file for each command and each phase moved out of one, `resources/` and
`rules/`. Agents and commands must be there; resources and rules need not.

Results:
* `workflowFiles_eq`: every document of every bundle is one workflow file.
-/
namespace Playbook

open Disk

/-- Where the parts of a library are, relative to it. -/
structure Library.Layout where
  agents : Path
  commands : Path
  resources : Path
  rules : Path
  deriving Repr, DecidableEq

/-- A library, where to write, and how to compile. -/
structure Library where
  source : Path
  output : Path
  layout : Library.Layout
  settings : Workflow.Settings
  deriving Repr, DecidableEq

namespace Library

def Layout.standard : Layout where
  agents := .ofString "agents"
  commands := .ofString "commands/gsd"
  resources := .ofString "get-shit-done"
  rules := .ofString "antigravity/GEMINI.md"

/-! ## Reports -/

/-- A workflow file, by the id of its document, with its size. -/
structure Written where
  id : Text
  size : Nat
  deriving Repr, DecidableEq

structure Summary where
  main : Written
  satellites : List Written
  deriving Repr, DecidableEq

/-- What a run has written. -/
structure Report where
  /-- The ids of the skills. -/
  skills : List Text
  workflows : List Summary
  /-- The resource directories with the number of files in each. -/
  resources : List (Text × Nat)
  rules : Bool
  deriving Repr, DecidableEq

def Report.workflowFiles (r : Report) : Nat :=
  (r.workflows.flatMap fun w => w.main :: w.satellites).length

/-! ## Skills -/

def compileSkill (l : Library) (agent : Path) : Script Text := do
  match agent.fileName? with
  | none => .fail (.invalidPath agent)
  | some name =>
    let skill := Skill.compile name (← Script.readText agent)
    let target := ((l.output.join (.ofString "skills")).join ⟨skill.id⟩).join (.ofString "SKILL.md")
    save target (encode skill.document.render)
    return skill.id

/-! ## Workflows -/

/-- Write a document under its id. -/
def writeArtifact (directory : Path) (scope : Text) (a : Artifact) : Script Written := do
  save (directory.join ⟨Bundle.qualified scope a.id ++ ".md"⟩) (encode a.document.render)
  return ⟨a.id, a.document.size⟩

/-- Write the main document and then its satellites. -/
def writeBundle (directory : Path) (scope : Text) (b : Bundle) : Script Summary := do
  let main ← writeArtifact directory scope b.main
  let satellites ← Script.each (writeArtifact directory scope) b.satellites
  return ⟨main, satellites⟩

/-- The name of a command: that of its file without the extension. -/
def commandName (fileName : Text) : Text :=
  match Text.after? (".md" : Text).reverse fileName.reverse with
  | some rest => rest.reverse
  | none => fileName

def compileCommand (l : Library) (command : Path) : Script Summary := do
  match command.fileName? with
  | none => .fail (.invalidPath command)
  | some name =>
    let bundle := Workflow.compile l.settings (commandName name) (← Script.readText command)
    writeBundle (l.output.join (.ofString "workflows")) l.settings.scope bundle

/-! ## Resources and rules -/

/-- Copy a resource directory, if it is there; its name with the number of its files. -/
def copyResource (l : Library) (name : Text) : Script (List (Text × Nat)) := do
  let source := (l.source.join l.layout.resources).join ⟨name⟩
  if ← Script.leadsTo .directory source then
    let target := (l.output.join (.ofString "resources")).join ⟨name⟩
    let files ← copyTree Resource.transform source target
    return [(name, files.length)]
  else return []

def copyResources (l : Library) : Script (List (Text × Nat)) :=
  Script.gather l.copyResource Reference.resourceDirs

/-- Copy the rules file, if it is there. -/
def copyRules (l : Library) : Script Bool := do
  let source := l.source.join l.layout.rules
  if ← Script.leadsTo .file source then
    let contents ← Script.require (.read source)
    save ((l.output.join (.ofString "rules")).join ⟨Host.rulesFile⟩) contents
    return true
  else return false

/-! ## Compiling a library -/

/-- A directory that the library must have. -/
def sourceDirectory (l : Library) (part : Path) : Script Path := do
  let path := l.source.join part
  if ← Script.leadsTo .directory path then return path else .fail (.missingSource path)

def compile (l : Library) : Script Report := do
  let agents ← l.sourceDirectory l.layout.agents
  let commands ← l.sourceDirectory l.layout.commands
  let skills ← Script.each l.compileSkill (← markdownFiles agents)
  let workflows ← Script.each l.compileCommand (← markdownFiles commands)
  let resources ← l.copyResources
  let rules ← l.copyRules
  return ⟨skills, workflows, resources, rules⟩

/-- The summary of a bundle once it is written. -/
def Summary.ofBundle (b : Bundle) : Summary :=
  ⟨⟨b.main.id, b.main.document.size⟩, b.satellites.map fun a => ⟨a.id, a.document.size⟩⟩

theorem workflowFiles_eq (r : Report) (bundles : List Bundle)
    (h : r.workflows = bundles.map Summary.ofBundle) :
    r.workflowFiles = (bundles.flatMap fun b => b.main :: b.satellites).length := by
  rw [Report.workflowFiles, h]
  clear h
  induction bundles with
  | nil => rfl
  | cons b bundles ih =>
    rw [List.map_cons, List.flatMap_cons, List.flatMap_cons, List.length_append, ih,
      List.length_append]
    simp [Summary.ofBundle]

end Library

end Playbook
