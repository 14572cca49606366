import Playbook.Failure

/-!
# Scripts

Work on a disk is a script: a tree of requests, each with what is done next for every answer.
A script says what is asked and in which order; who answers is decided when it is run.

Results:
* `bind_done`, `done_bind`, `bind_assoc`: scripts in a row form a monad.
* `each_bind_done`: results known beforehand can be given behind all scripts.
-/
namespace Playbook.Disk

/-- What is found at a path. -/
inductive Kind
  | file
  | directory
  | link
  /-- A device, a pipe or a socket. -/
  | special
  deriving Repr, DecidableEq

inductive Request
  /-- What a path leads to; if it is a link, the link itself unless `follow` is set. -/
  | kind (path : Path) (follow : Bool)
  /-- A text that is the same for two paths exactly if they lead to the same place. -/
  | place (path : Path)
  /-- The names in a directory, in any order. -/
  | list (path : Path)
  | read (path : Path)
  | makeDirectory (path : Path)
  /-- Make an empty file, or empty the one that is there. -/
  | create (path : Path)
  | write (path : Path) (contents : ByteArray)
  /-- Wait until what was written is safe. -/
  | sync (path : Path)
  | rename (source target : Path)

abbrev Request.Answer : Request → Type
  | kind .. => Kind
  | place .. => Text
  | list .. => List (Text × Kind)
  | read .. => ByteArray
  | makeDirectory .. | create .. | write .. | sync .. | rename .. => Unit

inductive Script (α : Type) : Type
  | done (value : α)
  | fail (failure : Failure)
  | ask (request : Request) (next : Except Fault request.Answer → Script α)

namespace Script

variable {α β γ : Type}

def bind : Script α → (α → Script β) → Script β
  | done a, f => f a
  | fail failure, _ => fail failure
  | ask request next, f => ask request fun answer => (next answer).bind f

instance : Monad Script where
  pure := done
  bind := bind

theorem done_bind (a : α) (f : α → Script β) : (done a).bind f = f a := rfl

theorem bind_done (s : Script α) : s.bind done = s := by
  induction s with
  | done => rfl
  | fail => rfl
  | ask request next ih => simp only [bind, ih]

theorem bind_assoc (s : Script α) (f : α → Script β) (g : β → Script γ) :
    (s.bind f).bind g = s.bind fun a => (f a).bind g := by
  induction s with
  | done => rfl
  | fail => rfl
  | ask request next ih => simp only [bind, ih]

/-! ## Small scripts -/

/-- The answer to a request, a fault included. -/
def attempt (request : Request) : Script (Except Fault request.Answer) := ask request done

/-- The answer to a request; a fault is the end. -/
def require (request : Request) : Script request.Answer :=
  ask request fun
    | .ok answer => done answer
    | .error fault => fail (.disk fault)

/-- The failure of a script as its value. -/
def recover : Script α → Script (Except Failure α)
  | done a => done (.ok a)
  | fail failure => done (.error failure)
  | ask request next => ask request fun answer => (next answer).recover

/-- A script for every item in turn. -/
def each (f : α → Script β) : List α → Script (List β)
  | [] => done []
  | a :: rest => do
    let first ← f a
    let others ← each f rest
    return first :: others

theorem each_map (f : β → Script γ) (g : α → β) (items : List α) :
    each f (items.map g) = each (fun a => f (g a)) items := by
  induction items with
  | nil => rfl
  | cons a rest ih => rw [List.map_cons, each, each, ih]

/-- Where the results are known beforehand, they can be given behind all scripts. -/
theorem each_bind_done (f : α → Script β) (g : α → γ) (items : List α) :
    each (fun a => (f a).bind fun _ => done (g a)) items =
      (each f items).bind fun _ => done (items.map g) := by
  induction items with
  | nil => rfl
  | cons a rest ih =>
    simp only [each, Bind.bind, ih, bind_assoc, done_bind]
    rfl

/-- A script for every item in turn, with the results in one list. -/
def gather (f : α → Script (List β)) : List α → Script (List β)
  | [] => done []
  | a :: rest => do
    let first ← f a
    let others ← gather f rest
    return first ++ others

/-- Whether a path leads to something of a kind, through links. -/
def leadsTo (kind : Kind) (path : Path) : Script Bool :=
  ask (.kind path true) fun
    | .ok found => done (found = kind)
    | .error _ => done false

/-- The text of a file. -/
def readText (path : Path) : Script Text := do
  let contents ← require (.read path)
  match String.fromUTF8? contents with
  | some s => return s.toList
  | none => fail (.disk .notUtf8)

end Script

end Playbook.Disk
