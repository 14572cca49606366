import Playbook.Disk.FileTree

/-!
# Interrupted scripts

Any request of a script may be refused, a write may break off in the middle, and the script may be
stopped between two requests. `Guards` is what a script keeps to in spite of that: a property of the
disk at every moment, and what holds if the script gets to its end.

Results:
* `reaches_run`: a run in which every request is answered is one of them.
* `guards_bind`, `guards_require`: how scripts in a row are guarded.
* `Guards.of_reaches`, `Guards.of_run`: what is guarded holds at every moment that the script can
  reach, and at its end.
-/
namespace Playbook.Disk

open FileTree

/-! ## Interruption -/

/-- How a request may end: it is answered; it is refused, for any reason, before anything changes;
or, if it is a write, it breaks off when a leading part of the contents is stored. -/
inductive Turn (root : FileTree) :
    (request : Request) → Except Fault request.Answer → FileTree → Prop
  | answered (request : Request) :
      Turn root request (root.answer request).1 (root.answer request).2
  | refused (request : Request) (fault : Fault) : Turn root request (.error fault) root
  | torn {path : Path} {contents part rest : ByteArray} (fault : Fault) {t : FileTree} :
      contents = part ++ rest → store root path part = .ok t →
      Turn root (.write path contents) (.error fault) t

variable {α β : Type} {root t : FileTree}

/-- What is left of a script, and the disk, at some moment of a run. -/
inductive Reaches : Script α → FileTree → Script α → FileTree → Prop
  | here (s : Script α) (root : FileTree) : Reaches s root s root
  | turn {root t u : FileTree} {request : Request}
      {next : Except Fault request.Answer → Script α} {answer : Except Fault request.Answer}
      {s : Script α} : Turn root request answer t → Reaches (next answer) t s u →
      Reaches (.ask request next) root s u

/-- A script with a result. -/
def Script.ofResult : Except Failure α → Script α
  | .ok a => .done a
  | .error failure => .fail failure

/-- A run in which every request is answered is one of them. -/
theorem reaches_run (s : Script α) (root : FileTree) :
    Reaches s root (.ofResult (run s root).1) (run s root).2 := by
  induction s generalizing root with
  | done a => exact .here _ _
  | fail failure => exact .here _ _
  | ask request next ih => exact .turn (.answered request) (ih _ _)

/-- `inv` holds of the disk at every moment, and `post` where the script ends well. -/
def Guards (inv : FileTree → Prop) (post : α → FileTree → Prop) : Script α → FileTree → Prop
  | .done a, root => inv root ∧ post a root
  | .fail _, root => inv root
  | .ask request next, root =>
    inv root ∧ ∀ answer t, Turn root request answer t → Guards inv post (next answer) t

section
variable {inv : FileTree → Prop} {post : α → FileTree → Prop}

theorem Guards.now {s : Script α} (h : Guards inv post s root) : inv root := by
  cases s with
  | done a => exact h.1
  | fail failure => exact h
  | ask request next => exact h.1

/-- What is guarded holds at every moment that the script can reach. -/
theorem Guards.of_reaches {s s' : Script α} (h : Guards inv post s root)
    (hreach : Reaches s root s' t) : Guards inv post s' t := by
  induction hreach with
  | here => exact h
  | turn hturn _ ih => exact ih (h.2 _ _ hturn)

/-- An uninterrupted run is guarded. -/
theorem Guards.of_run {s : Script α} {a : α} (h : Guards inv post s root)
    (hrun : run s root = (.ok a, t)) : post a t := by
  have hreach := h.of_reaches (reaches_run s root)
  rw [hrun] at hreach
  exact hreach.2

theorem guards_bind {s : Script β} {f : β → Script α}
    (h : Guards inv (fun b t => Guards inv post (f b) t) s root) :
    Guards inv post (s >>= f) root := by
  induction s generalizing root with
  | done b => exact h.2
  | fail failure => exact h
  | ask request next ih => exact ⟨h.1, fun answer t hturn => ih answer (h.2 answer t hturn)⟩

theorem Guards.mono {inv' : FileTree → Prop} {post' : α → FileTree → Prop} {s : Script α}
    (h : Guards inv post s root) (hinv : ∀ t, inv t → inv' t)
    (hpost : ∀ a t, post a t → post' a t) : Guards inv' post' s root := by
  induction s generalizing root with
  | done a => exact ⟨hinv _ h.1, hpost _ _ h.2⟩
  | fail failure => exact hinv _ h
  | ask request next ih =>
    exact ⟨hinv _ h.1, fun answer t hturn => ih answer (h.2 answer t hturn)⟩

theorem guards_require {request : Request} {f : request.Answer → Script α} (hinv : inv root)
    (h : ∀ answer t, Turn root request answer t →
      inv t ∧ ∀ a, answer = .ok a → Guards inv post (f a) t) :
    Guards inv post (Script.require request >>= f) root := by
  refine ⟨hinv, fun answer t hturn => ?_⟩
  obtain ⟨ht, hnext⟩ := h answer t hturn
  cases answer with
  | ok a => exact hnext a rfl
  | error fault => exact ht

end

/-! ## Requests that change the disk -/

theorem settle_cases {change : Except Fault FileTree} :
    ((settle root change).2 = root ∧ ∃ fault, (settle root change).1 = .error fault) ∨
      change = .ok (settle root change).2 := by
  cases change with
  | ok t => exact Or.inr rfl
  | error fault => exact Or.inl ⟨rfl, fault, rfl⟩

theorem turn_makeDirectory {p : Path} {answer : Except Fault Unit}
    (h : Turn root (.makeDirectory p) answer t) :
    (t = root ∧ ∃ fault, answer = .error fault) ∨ makeDirectory root p = .ok t := by
  cases h with
  | refused _ fault => exact Or.inl ⟨rfl, fault, rfl⟩
  | answered => exact settle_cases

theorem turn_create {p : Path} {answer : Except Fault Unit} (h : Turn root (.create p) answer t) :
    (t = root ∧ ∃ fault, answer = .error fault) ∨ store root p .empty = .ok t := by
  cases h with
  | refused _ fault => exact Or.inl ⟨rfl, fault, rfl⟩
  | answered => exact settle_cases

/-- What is stored is the whole contents if the request is granted. -/
theorem turn_write {p : Path} {contents : ByteArray} {answer : Except Fault Unit}
    (h : Turn root (.write p contents) answer t) :
    (t = root ∧ ∃ fault, answer = .error fault) ∨
      ∃ part, store root p part = .ok t ∧ (answer = .ok () → part = contents) := by
  cases h with
  | refused _ fault => exact Or.inl ⟨rfl, fault, rfl⟩
  | answered => exact settle_cases.imp id fun hstore => ⟨contents, hstore, fun _ => rfl⟩
  | torn fault _ hstore => exact Or.inr ⟨_, hstore, fun h => by cases h⟩

theorem turn_sync {p : Path} {answer : Except Fault Unit} (h : Turn root (.sync p) answer t) :
    t = root := by
  cases h <;> rfl

theorem turn_rename {p q : Path} {answer : Except Fault Unit}
    (h : Turn root (.rename p q) answer t) :
    (t = root ∧ ∃ fault, answer = .error fault) ∨ rename root p q = .ok t := by
  cases h with
  | refused _ fault => exact Or.inl ⟨rfl, fault, rfl⟩
  | answered => exact settle_cases

theorem turn_kind {p : Path} {follow : Bool} {answer : Except Fault Kind}
    (h : Turn root (.kind p follow) answer t) :
    t = root ∧ ∀ k, answer = .ok k → kindOf root p follow = .ok k := by
  cases h with
  | refused _ fault => exact ⟨rfl, fun k hk => by cases hk⟩
  | answered => exact ⟨rfl, fun k hk => hk⟩

end Playbook.Disk
