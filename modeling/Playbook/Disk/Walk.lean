import Playbook.Disk.Save
import Playbook.Text.Basic

/-!
# Walks

A walk visits a directory and all below it, each directory before its entries and the entries
in the order of their names. A directory is listed when the walk reaches it, before anything is
done for it.
-/
namespace Playbook.Disk

/-! ## Entries by name -/

/-- Entries in the order of their names. -/
def sortByName (entries : List (Text × Kind)) : List (Text × Kind) :=
  entries.mergeSort fun e f => Text.le e.1 f.1

/-! ## Requests on the way -/

/-- The answer to a request about the entry at `path`. -/
def lookUp (path : Path) (request : Request) : Script request.Answer :=
  .ask request fun
    | .ok answer => .done answer
    | .error fault => .fail (.walk (.refused path fault))

/-- The place that a path leads to. -/
def placeOf (path : Path) : Script Text :=
  .ask (.place path) fun
    | .ok place => .done place
    | .error fault => .fail (.walk (.placeless fault))

/-- The first of some paths that leads to a place. -/
def firstAt (place : Text) : List Path → Script (Option Path)
  | [] => return none
  | path :: rest => do
    if (← placeOf path) = place then return some path else firstAt place rest

/-- What the link at a path leads to. It must not be a directory that the walk is in; these are
given from the innermost out, and looked at in that order. -/
def follow (within : List Path) (path : Path) : Script Kind := do
  let kind ← lookUp path (.kind path true)
  if kind = .directory then
    match ← firstAt (← placeOf path) within with
    | some ancestor => .fail (.walk (.loop path ancestor))
    | none => return kind
  else return kind

/-! ## Copying a tree -/

/-- More directories than a path can have. -/
def maxDepth : Nat := 4096

/-- Copy the entry at `source` to where `relative` leads from `target`, through `change`; the
relative paths of the files copied. -/
def copyEntry (change : Path → ByteArray → ByteArray) (target : Path) :
    (depth : Nat) → (within : List Path) → (source relative : Path) → Kind → Script (List Path)
  | 0, _, source, _, _ => .fail (.walk (.refused source .nameTooLong))
  | depth + 1, within, source, relative, kind => do
    let kind ← if kind = .link then follow within source else pure kind
    if kind = .directory then
      let listing ← Script.attempt (.list source)
      makeDirectories (target.join relative)
      match listing with
      | .error fault => .fail (.walk (.refused source fault))
      | .ok entries =>
        Script.gather
          (fun (name, kind) => copyEntry change target depth (source :: within)
            (source.join ⟨name⟩) (relative.join ⟨name⟩) kind)
          (sortByName entries)
    else
      let contents ← Script.require (.read source)
      save (target.join relative) (change relative contents)
      return [relative]

/-- Copy all below `source`, links followed, to the same places below `target`. `change` is
given every file's path relative to `source`, and its bytes. -/
def copyTree (change : Path → ByteArray → ByteArray) (source target : Path) :
    Script (List Path) := do
  let kind ← lookUp source (.kind source false)
  copyEntry change target maxDepth [] source ⟨[]⟩ kind

/-! ## Files of a directory -/

/-- The markdown files right in a directory, links excepted, by name. A path that leads to a
file holds none. -/
def markdownFiles (directory : Path) : Script (List Path) := do
  let found ← lookUp directory (.kind directory false)
  let kind ← if found = .link then lookUp directory (.kind directory true) else pure found
  if kind = .directory then
    let entries ← lookUp directory (.list directory)
    let files := (sortByName entries).filterMap fun (name, kind) =>
      if kind = .file then some (directory.join ⟨name⟩) else none
    return files.filter Path.isMarkdown
  else return []

end Playbook.Disk
