import Playbook.Disk.FileTree
import Playbook.Disk.Save

/-!
# Preparing file trees

File trees built entry by entry. Directories around a new entry are made with it; a change that
the tree refuses leaves it as it was.
-/
namespace Playbook.Disk.FileTree

def withDirectory (root : FileTree) (path : Path) : FileTree :=
  (run (makeDirectories path) root).2

/-- The tree with the directories that a path lies in. -/
def withOuter (root : FileTree) (path : Path) : FileTree :=
  match path.parent? with
  | some outer => root.withDirectory outer
  | none => root

def withFile (root : FileTree) (path : Path) (contents : ByteArray) : FileTree :=
  let root := root.withOuter path
  (settle root (store root path contents)).2

def withLink (root : FileTree) (path target : Path) : FileTree :=
  let root := root.withOuter path
  match spot root path with
  | .ok s =>
    if isDots s.name || s.found?.isSome then root else root.put s.outer s.name (.link target)
  | .error _ => root

/-- The tree without what is at a path, and without all below it. -/
def without (root : FileTree) (path : Path) : FileTree :=
  match spot root path with
  | .ok s => root.cut s.outer s.name
  | .error _ => root

end Playbook.Disk.FileTree
