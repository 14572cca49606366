import Playbook.Disk.Script
import Playbook.OrderedMap

/-!
# File trees

A disk in memory: a directory with files, symbolic links and directories in it. Its root is also
where relative paths start. A path is walked name by name; every name but the last must lead to
a directory, and a link is replaced by its target. Names, paths and chains of links have a
limited length.

Results:
* `steps_append`: walking two runs of names is walking one after the other.
* `run_bind`: scripts in a row are run in a row.
-/
namespace Playbook.Disk

inductive FileTree
  | file (contents : ByteArray)
  | link (target : Path)
  | directory (entries : List (Text × FileTree))

namespace FileTree

def empty : FileTree := .directory []

def kind : FileTree → Kind
  | file _ => .file
  | link _ => .link
  | directory _ => .directory

/-- The names from the root down to a place. -/
abbrev Location := List Text

/-- What an entry of a directory is. -/
def child? : FileTree → Text → Option FileTree
  | directory entries, name => OrderedMap.find name entries
  | file _, _ | link _, _ => none

/-- What is at a place; links are not followed. -/
def get? : FileTree → Location → Option FileTree
  | t, [] => some t
  | t, name :: rest => (t.child? name).bind fun t => t.get? rest

/-- The tree with other entries in the directory at a place. -/
def update (f : List (Text × FileTree) → List (Text × FileTree)) :
    Location → FileTree → FileTree
  | [], directory entries => directory (f entries)
  | name :: rest, directory entries =>
    match OrderedMap.find name entries with
    | some t => directory (OrderedMap.put name (update f rest t) entries)
    | none => directory entries
  | _, t => t

/-- The tree with an entry in the directory at a place, in place of any other of its name. -/
def put (t : FileTree) (place : Location) (name : Text) (new : FileTree) : FileTree :=
  t.update (OrderedMap.put name new) place

/-- The tree without an entry in the directory at a place. -/
def cut (t : FileTree) (place : Location) (name : Text) : FileTree :=
  t.update (OrderedMap.remove name) place

theorem get?_update (f : List (Text × FileTree) → List (Text × FileTree)) (t : FileTree)
    (place : Location) (entries : List (Text × FileTree))
    (h : t.get? place = some (.directory entries)) :
    (t.update f place).get? place = some (.directory (f entries)) := by
  induction place generalizing t with
  | nil =>
    simp only [get?, Option.some.injEq] at h
    subst h
    rfl
  | cons name rest ih =>
    cases t with
    | file | link => simp [get?, child?] at h
    | directory es =>
      simp only [get?, child?, Option.bind_eq_some_iff] at h
      obtain ⟨t, ht, h⟩ := h
      simp [update, ht, get?, child?, OrderedMap.find_put, ih t h]

/-! ## Walking a path -/

/-- The longest name, in bytes. -/
def maxName : Nat := 255

/-- The longest path, in bytes. -/
def maxPath : Nat := 4095

/-- The longest chain of links. -/
def maxLinks : Nat := 40

/-- The names in a path. -/
def names (p : Path) : List Text := (Text.fields '/' p.text).filter fun name => !name.isEmpty

/-- The way that a path leads: the names before the last, the last, and whether a slash closes
it. -/
structure Route where
  outer : List Text
  last : Text
  closed : Bool

/-- The way of a path; one without names leads to where it starts, like a dot. -/
def route (p : Path) : Route :=
  match (names p).reverse with
  | [] => ⟨[], ".", false⟩
  | last :: before => ⟨before.reverse, last, p.text.getLast? = some '/'⟩

/-- The names to walk; behind a closing slash nothing but a directory is accepted, as behind a
final dot. -/
def segments (p : Path) : List Text :=
  let r := route p
  r.outer ++ r.last :: if r.closed then [("." : Text)] else []

def isDots (name : Text) : Bool := name = "." || name = ".."

/-- Paths that are refused without a look at the tree. -/
def check (p : Path) : Except Fault Unit :=
  if p.text.contains '\x00' then .error .nulByte
  else if p.isEmpty then .error .notFound
  else if maxPath < Text.byteSize p.text then .error .nameTooLong
  else .ok ()

/-- A place that has been walked to: the names from there up to the root, each with what is
there. -/
abbrev Trail := List (Text × FileTree)

namespace Trail

/-- What is at the end of the trail. -/
def here (root : FileTree) : Trail → FileTree
  | [] => root
  | (_, t) :: _ => t

def place (trail : Trail) : Location := (trail.map Prod.fst).reverse

/-- Where the target of a link starts, if the link is at the end of the trail. -/
def start (trail : Trail) (target : Path) : Trail := if target.isAbsolute then [] else trail

end Trail

/-- How far a walk leads before it meets a link. -/
inductive Stop
  | arrived (trail : Trail)
  /-- A link in the directory that `trail` leads to, and the names behind it. -/
  | link (trail : Trail) (target : Path) (rest : List Text)

def steps (root : FileTree) : Trail → List Text → Except Fault Stop
  | trail, [] => .ok (.arrived trail)
  | trail, name :: rest =>
    match Trail.here root trail with
    | .directory entries =>
      if name = "." then steps root trail rest
      else if name = ".." then steps root trail.tail rest
      else if maxName < Text.byteSize name then .error .nameTooLong
      else match OrderedMap.find name entries with
        | none => .error .notFound
        | some (.link target) => .ok (.link trail target rest)
        | some t => steps root ((name, t) :: trail) rest
    | _ => .error .notADirectory

theorem steps_append (root : FileTree) (trail : Trail) (a b : List Text) :
    steps root trail (a ++ b) =
      match steps root trail a with
      | .error fault => .error fault
      | .ok (.arrived trail) => steps root trail b
      | .ok (.link trail target rest) => .ok (.link trail target (rest ++ b)) := by
  induction a generalizing trail with
  | nil => rfl
  | cons name a ih =>
    simp only [List.cons_append, steps]
    split
    · split
      · exact ih trail
      · split
        · exact ih trail.tail
        · split
          · rfl
          · split
            · rfl
            · rfl
            · exact ih _
    · rfl

/-- The trail that names lead along, through fewer than `links` links. -/
def walk (root : FileTree) : (links : Nat) → Trail → List Text → Except Fault Trail
  | 0, _, _ => .error .tooManyLinks
  | links + 1, trail, rest =>
    match steps root trail rest with
    | .error fault => .error fault
    | .ok (.arrived trail) => .ok trail
    | .ok (.link trail target rest) =>
      walk root links (Trail.start trail target) (segments target ++ rest)

/-- The trail of a path. -/
def locate (root : FileTree) (p : Path) : Except Fault Trail := do
  check p
  walk root (maxLinks + 1) [] (segments p)

/-- The entries of the directory that a trail leads to. -/
def entriesAt (root : FileTree) (trail : Trail) : Except Fault (List (Text × FileTree)) :=
  match Trail.here root trail with
  | .directory entries => .ok entries
  | _ => .error .notADirectory

/-- The place for an entry of a directory, whether or not there is one. -/
structure Spot where
  outer : Location
  entries : List (Text × FileTree)
  name : Text

/-- What is at the spot. -/
def Spot.found? (s : Spot) : Option FileTree := OrderedMap.find s.name s.entries

/-- The spot for a name that is not too long. -/
def Spot.check (s : Spot) : Except Fault Unit :=
  if maxName < Text.byteSize s.name then .error .nameTooLong else .ok ()

/-- The spot that a path stands for; a link there is not followed. -/
def spot (root : FileTree) (p : Path) : Except Fault Spot := do
  check p
  let r := route p
  let trail ← walk root (maxLinks + 1) [] r.outer
  return ⟨trail.place, ← entriesAt root trail, r.last⟩

/-- The spot of a file that is opened for writing, through fewer than `links` links in all. A
final link is followed even if there is nothing at its target yet; a closing slash asks for a
directory, whatever is there. -/
def writable (root : FileTree) : (links : Nat) → Trail → Route → Except Fault Spot
  | 0, _, _ => .error .tooManyLinks
  | links + 1, trail, r =>
    match steps root trail r.outer with
    | .error fault => .error fault
    | .ok (.link trail target rest) =>
      writable root links (Trail.start trail target)
        { r with outer := segments target ++ rest }
    | .ok (.arrived trail) => do
      let s : Spot := ⟨trail.place, ← entriesAt root trail, r.last⟩
      if r.closed || isDots r.last then .error .isADirectory
      else
        s.check
        match s.found? with
        | some (.directory _) => .error .isADirectory
        | some (.link target) => writable root links (Trail.start trail target) (route target)
        | _ => .ok s

/-! ## Answers -/

/-- What a path leads to; if it is a link, the link itself. -/
def unfollowed (root : FileTree) (p : Path) : Except Fault FileTree := do
  check p
  let r := route p
  if r.closed || isDots r.last then return (← locate root p).here root
  else
    let s ← spot root p
    s.check
    match s.found? with
    | some t => .ok t
    | none => .error .notFound

def kindOf (root : FileTree) (p : Path) : (follow : Bool) → Except Fault Kind
  | true => do return ((← locate root p).here root).kind
  | false => do return (← unfollowed root p).kind

def list (root : FileTree) (p : Path) : Except Fault (List (Text × Kind)) := do
  return (← entriesAt root (← locate root p)).map fun (name, t) => (name, t.kind)

def read (root : FileTree) (p : Path) : Except Fault ByteArray := do
  match (← locate root p).here root with
  | .file contents => .ok contents
  | .directory _ => .error .isADirectory
  | .link _ => .error .notFound

def makeDirectory (root : FileTree) (p : Path) : Except Fault FileTree := do
  let s ← spot root p
  if isDots s.name then .error .alreadyExists
  else
    s.check
    if s.found?.isSome then .error .alreadyExists else .ok (root.put s.outer s.name empty)

def store (root : FileTree) (p : Path) (contents : ByteArray) : Except Fault FileTree := do
  check p
  let s ← writable root (maxLinks + 1) [] (route p)
  return root.put s.outer s.name (.file contents)

/-- Only files and links are renamed; a directory stands in the way of the new name. -/
def rename (root : FileTree) (source target : Path) : Except Fault FileTree := do
  let old ← spot root source
  let new ← spot root target
  if isDots old.name || isDots new.name then .error .busy
  else
    old.check
    match old.found? with
    | none => .error .notFound
    | some t =>
      new.check
      if (route target).closed then .error .notADirectory
      else if t.kind = .directory || new.found?.any (·.kind = .directory) then
        .error .isADirectory
      else .ok ((root.cut old.outer old.name).put new.outer new.name t)

/-- The tree behind a change, which stays as it was if there is a fault. -/
def settle (root : FileTree) : Except Fault FileTree → Except Fault Unit × FileTree
  | .ok t => (.ok (), t)
  | .error fault => (.error fault, root)

/-- The text for a place. -/
def placeText (place : Location) : Text := (['/'] : Text).intercalate place

/-- The answer to a request, and the tree behind it. -/
def answer (root : FileTree) : (request : Request) → Except Fault request.Answer × FileTree
  | .kind path follow => (kindOf root path follow, root)
  | .place path => ((locate root path).map fun trail => placeText trail.place, root)
  | .list path => (list root path, root)
  | .read path => (read root path, root)
  | .makeDirectory path => settle root (makeDirectory root path)
  | .create path => settle root (store root path .empty)
  | .write path contents => settle root (store root path contents)
  | .sync _ => (.ok (), root)
  | .rename source target => settle root (rename root source target)

/-- The result of a script, and the tree behind it. -/
def run {α : Type} : Script α → FileTree → Except Failure α × FileTree
  | .done a, root => (.ok a, root)
  | .fail failure, root => (.error failure, root)
  | .ask request next, root => run (next (root.answer request).1) (root.answer request).2

theorem run_bind {α β : Type} (s : Script α) (f : α → Script β) (root : FileTree) :
    run (s.bind f) root =
      match run s root with
      | (.ok a, t) => run (f a) t
      | (.error failure, t) => (.error failure, t) := by
  induction s generalizing root with
  | done a => rfl
  | fail failure => rfl
  | ask request next ih => exact ih _ _

/-! ## Listing -/

/-- The path of an entry; that of a directory ends with a slash. -/
def label (lead name : Text) : FileTree → Text
  | directory _ => lead ++ name ++ "/"
  | file _ | link _ => lead ++ name

mutual

/-- All that is below a tree whose entries have paths that start with `lead`. -/
def inner (lead : Text) : FileTree → List (Text × FileTree)
  | directory entries => innerEach lead entries
  | file _ | link _ => []

def innerEach (lead : Text) : List (Text × FileTree) → List (Text × FileTree)
  | [] => []
  | (name, t) :: rest =>
    (label lead name t, t) :: inner (label lead name t) t ++ innerEach lead rest

end

/-- All that is below the root, by path. -/
def listing (root : FileTree) : List (Text × FileTree) :=
  (inner [] root).mergeSort fun a b => Text.le a.1 b.1

end FileTree

end Playbook.Disk
