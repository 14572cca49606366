import Playbook.Disk.Script

/-!
# Saving files

A file is saved whole or not at all: its bytes go to a temporary file beside it, which then
takes its name. Directories that are missing are made first.

Results:
* `save_of_nameless`: a path without a file name is refused before anything is asked.
-/
namespace Playbook.Disk

/-- Make a directory, after those around it that are missing; the text of each is shorter than
that of the one inside, so `fuel` of more than its length is enough. -/
def makeFrom : (fuel : Nat) → Path → Script Unit
  | 0, _ => .done ()
  | fuel + 1, path =>
    if path.isEmpty then .done ()
    else do
      match ← Script.attempt (.makeDirectory path) with
      | .ok _ => return
      | .error .notFound =>
        match path.parent? with
        | none => .fail (.disk .notFound)
        | some outer =>
          makeFrom fuel outer
          match ← Script.attempt (.makeDirectory path) with
          | .ok _ => return
          | .error fault =>
            if ← Script.leadsTo .directory path then return else .fail (.disk fault)
      | .error fault =>
        if ← Script.leadsTo .directory path then return else .fail (.disk fault)

/-- Make a directory and those that it lies in, unless they are there. -/
def makeDirectories (path : Path) : Script Unit := makeFrom (path.text.length + 1) path

/-- The name of the temporary file for a file. -/
def temporaryName (name : Text) : Text := "." ++ name ++ ".tmp"

/-- Replace the file at a path, or make it. -/
def save (path : Path) (contents : ByteArray) : Script Unit :=
  match path.fileName?, path.parent? with
  | some name, some directory => do
    makeDirectories directory
    let temporary := directory.join ⟨temporaryName name⟩
    Script.require (.create temporary)
    Script.require (.write temporary contents)
    Script.require (.sync temporary)
    Script.require (.rename temporary path)
  | _, _ => .fail (.invalidPath path)

theorem save_of_nameless {path : Path} (h : path.fileName? = none) (contents : ByteArray) :
    save path contents = .fail (.invalidPath path) := by
  simp [save, h]

/-- The UTF-8 bytes of a text. -/
def encode (t : Text) : ByteArray := (String.ofList t).toUTF8

end Playbook.Disk
