import Playbook.Disk.FileTree
import Playbook.Proofs.OrderedMap.Entries

/-!
# What is where on a disk

A disk is seen as a map: a place holds a file, a link, a directory or nothing. Where one entry of a
directory changes, and nothing is below it before or after, its own place changes and no other: the
directories around it stay directories. What lies off the way to the entry stays the same tree,
with its entries in their order.

Results:
* `Frame`: nothing changes but at some places.
* `frame_update`: changing one entry changes its own place.
* `frame_put`, `frame_cut`, `frame_move`: an entry that is put, removed or moved.
-/
namespace Playbook.Disk

/-- What a place holds; the entries of a directory are places of their own. -/
inductive Item
  | file (contents : ByteArray)
  | link (target : Path)
  | directory

namespace FileTree

def item : FileTree → Item
  | file contents => .file contents
  | link target => .link target
  | directory _ => .directory

def item? (t : FileTree) (place : Location) : Option Item := (t.get? place).map item

/-! ## Places below others -/

theorem get?_append (t : FileTree) (a b : Location) :
    t.get? (a ++ b) = (t.get? a).bind (·.get? b) := by
  induction a generalizing t with
  | nil => rfl
  | cons name a ih =>
    rw [List.cons_append, get?, get?]
    cases t.child? name with
    | none => rfl
    | some t => exact ih t

theorem get?_name (t : FileTree) (place : Location) (name : Text) :
    t.get? (place ++ [name]) = (t.get? place).bind (·.child? name) := by
  rw [get?_append]
  congr 1
  funext t
  rw [get?]
  cases t.child? name <;> rfl

variable {t root : FileTree} {place loc : Location}

theorem item?_eq_directory_iff :
    t.item? place = some .directory ↔ ∃ entries, t.get? place = some (.directory entries) := by
  rw [item?, Option.map_eq_some_iff]
  constructor
  · intro h
    obtain ⟨node, hnode, hitem⟩ := h
    cases node with
    | directory entries => exact ⟨entries, hnode⟩
    | file | link => cases hitem
  · intro h
    obtain ⟨entries, h⟩ := h
    exact ⟨_, h, rfl⟩

theorem item?_eq_file_iff {contents : ByteArray} :
    t.item? place = some (.file contents) ↔ t.get? place = some (.file contents) := by
  rw [item?, Option.map_eq_some_iff]
  constructor
  · intro h
    obtain ⟨node, hnode, hitem⟩ := h
    cases node with
    | file => cases hitem; exact hnode
    | directory | link => cases hitem
  · intro h
    exact ⟨_, h, rfl⟩

/-- Nothing is below what is no directory. -/
theorem get?_below (h : t.item? place ≠ some .directory) (name : Text) (rest : Location) :
    t.get? (place ++ name :: rest) = none := by
  rw [get?_append]
  cases hnode : t.get? place with
  | none => rfl
  | some node =>
    cases node with
    | directory entries => exact absurd (item?_eq_directory_iff.2 ⟨entries, hnode⟩) h
    | file | link => rfl

theorem item?_below (h : t.item? place ≠ some .directory) (name : Text) (rest : Location) :
    t.item? (place ++ name :: rest) = none := by
  rw [item?, get?_below h]
  rfl

/-! ## Changing a directory -/

section
variable {f : List (Text × FileTree) → List (Text × FileTree)}

/-- What lies off the way to the directory stays as it is. -/
theorem get?_update_of_not_prefix (hplace : ¬ place <+: loc) (hloc : ¬ loc <+: place) :
    (t.update f place).get? loc = t.get? loc := by
  induction place generalizing t loc with
  | nil => exact absurd List.nil_prefix hplace
  | cons name place ih =>
    cases loc with
    | nil => exact absurd List.nil_prefix hloc
    | cons other loc =>
      cases t with
      | file | link => rfl
      | directory entries =>
        rw [update]
        cases hfind : OrderedMap.find name entries with
        | none => rfl
        | some node =>
          simp only [get?, child?, OrderedMap.find_put]
          split
          · rename_i hname
            subst hname
            rw [List.cons_prefix_cons] at hplace hloc
            rw [hfind, Option.bind_some, Option.bind_some]
            exact ih (fun h => hplace ⟨rfl, h⟩) (fun h => hloc ⟨rfl, h⟩)
          · rfl

/-- The directories around it stay directories. -/
theorem item?_update_of_not_prefix (hplace : ¬ place <+: loc) :
    (t.update f place).item? loc = t.item? loc := by
  induction place generalizing t loc with
  | nil => exact absurd List.nil_prefix hplace
  | cons name place ih =>
    cases t with
    | file | link => rfl
    | directory entries =>
      rw [update]
      cases hfind : OrderedMap.find name entries with
      | none => rfl
      | some node =>
        cases loc with
        | nil => rfl
        | cons other loc =>
          simp only [item?, get?, child?, OrderedMap.find_put]
          split
          · rename_i hname
            subst hname
            rw [List.cons_prefix_cons] at hplace
            rw [hfind, Option.bind_some, Option.bind_some]
            exact ih fun h => hplace ⟨rfl, h⟩
          · rfl

end

/-- Nothing changes but at some places. A tree that holds none of them stays as it is. -/
structure Frame (places : Location → Prop) (root t : FileTree) : Prop where
  items : ∀ loc, ¬ places loc → t.item? loc = root.item? loc
  trees : ∀ loc, (∀ place, places place → ¬ loc <+: place) → t.get? loc = root.get? loc

namespace Frame

variable {places others : Location → Prop} {u : FileTree}

theorem refl (places : Location → Prop) (root : FileTree) : Frame places root root :=
  ⟨fun _ _ => rfl, fun _ _ => rfl⟩

theorem mono (h : Frame places root t) (hle : ∀ loc, places loc → others loc) :
    Frame others root t :=
  ⟨fun loc hloc => h.items loc fun hp => hloc (hle loc hp),
    fun loc hloc => h.trees loc fun place hp => hloc place (hle place hp)⟩

theorem trans (h : Frame places root t) (h' : Frame places t u) : Frame places root u :=
  ⟨fun loc hloc => (h'.items loc hloc).trans (h.items loc hloc),
    fun loc hloc => (h'.trees loc hloc).trans (h.trees loc hloc)⟩

end Frame

/-- Changing one entry changes its own place, if nothing is below it before or after. -/
theorem frame_update {f : List (Text × FileTree) → List (Text × FileTree)}
    {entries : List (Text × FileTree)} {name : Text}
    (h : t.get? place = some (.directory entries))
    (hother : ∀ n, n ≠ name → OrderedMap.find n (f entries) = OrderedMap.find n entries)
    (hold : t.item? (place ++ [name]) ≠ some .directory)
    (hnew : ∀ new, OrderedMap.find name (f entries) = some new → ∀ n, new.child? n = none) :
    Frame (· = place ++ [name]) t (t.update f place) ∧
      (t.update f place).item? (place ++ [name]) =
        (OrderedMap.find name (f entries)).map item := by
  have hdir := get?_update f t place entries h
  -- an entry of the directory, or what is below one
  have hentry (n : Text) (more : Location) (hne : ¬ (n = name ∧ more = [])) :
      (t.update f place).get? (place ++ n :: more) = t.get? (place ++ n :: more) := by
    by_cases hn : n = name
    · subst hn
      obtain ⟨m, more, rfl⟩ := List.exists_cons_of_ne_nil fun hmore => hne ⟨rfl, hmore⟩
      have hbelow := get?_below hold m more
      rw [List.append_assoc, List.singleton_append] at hbelow
      rw [hbelow, get?_append, hdir, Option.bind_some, get?, child?]
      cases hfind : OrderedMap.find n (f entries) with
      | none => rfl
      | some new => rw [Option.bind_some, get?, hnew new hfind m]; rfl
    · rw [get?_append, hdir, get?_append t, h, Option.bind_some, Option.bind_some, get?, get?,
        child?, child?, hother n hn]
  refine ⟨⟨fun loc hloc => ?_, fun loc hloc => ?_⟩, ?_⟩
  · by_cases hprefix : place <+: loc
    · obtain ⟨rest, rfl⟩ := hprefix
      cases rest with
      | nil => rw [List.append_nil, item?, hdir, item?, h]; rfl
      | cons n more =>
        rw [item?, item?, hentry n more fun hn => hloc (by rw [hn.1, hn.2])]
    · exact item?_update_of_not_prefix hprefix
  · have hnot := hloc _ rfl
    by_cases hprefix : place <+: loc
    · obtain ⟨rest, rfl⟩ := hprefix
      cases rest with
      | nil => exact absurd (by simp) hnot
      | cons n more =>
        refine hentry n more fun hn => hnot ?_
        obtain ⟨rfl, rfl⟩ := hn
        exact List.prefix_rfl
    · exact get?_update_of_not_prefix hprefix fun h => hnot (h.trans (List.prefix_append _ _))
  · rw [item?, get?_name, hdir]
    rfl

/-- Putting a file or an empty directory where there is no directory. -/
theorem frame_put {entries : List (Text × FileTree)} {name : Text} (new : FileTree)
    (h : t.get? place = some (.directory entries))
    (hold : t.item? (place ++ [name]) ≠ some .directory) (hnew : ∀ n, new.child? n = none) :
    Frame (· = place ++ [name]) t (t.put place name new) ∧
      (t.put place name new).item? (place ++ [name]) = some new.item := by
  have hother (n : Text) (hn : n ≠ name) :
      OrderedMap.find n (OrderedMap.put name new entries) = OrderedMap.find n entries := by
    rw [OrderedMap.find_put, if_neg hn]
  have hfind : OrderedMap.find name (OrderedMap.put name new entries) = some new := by
    rw [OrderedMap.find_put, if_pos rfl]
  have hframe := frame_update (f := OrderedMap.put name new) h hother hold fun found hf => by
    rw [hfind] at hf
    cases hf
    exact hnew
  rw [hfind] at hframe
  exact hframe

theorem frame_cut {entries : List (Text × FileTree)} {name : Text}
    (h : t.get? place = some (.directory entries))
    (hold : t.item? (place ++ [name]) ≠ some .directory) :
    Frame (· = place ++ [name]) t (t.cut place name) ∧
      (t.cut place name).item? (place ++ [name]) = none := by
  have hother (n : Text) (hn : n ≠ name) :
      OrderedMap.find n (OrderedMap.remove name entries) = OrderedMap.find n entries := by
    rw [OrderedMap.find_remove, if_neg hn]
  have hfind : OrderedMap.find name (OrderedMap.remove name entries) = none := by
    rw [OrderedMap.find_remove, if_pos rfl]
  have hframe := frame_update (f := OrderedMap.remove name) h hother hold fun found hf => by
    rw [hfind] at hf
    cases hf
  rw [hfind] at hframe
  exact hframe

theorem frame_move {outer outer' : Location} {entries entries' : List (Text × FileTree)}
    {name name' : Text} {contents : ByteArray}
    (hsource : t.get? outer = some (.directory entries))
    (htarget : t.get? outer' = some (.directory entries'))
    (hfile : t.item? (outer ++ [name]) = some (.file contents))
    (hfree : t.item? (outer' ++ [name']) ≠ some .directory) :
    let moved := (t.cut outer name).put outer' name' (.file contents)
    Frame (fun place => place = outer ++ [name] ∨ place = outer' ++ [name']) t moved ∧
      moved.item? (outer' ++ [name']) = some (.file contents) ∧
      (outer ++ [name] ≠ outer' ++ [name'] → moved.item? (outer ++ [name]) = none) := by
  intro moved
  obtain ⟨hcut, hgone⟩ := frame_cut hsource (by rw [hfile]; exact nofun)
  -- what is moved is not the directory that it is moved to
  have houter : (t.cut outer name).item? outer' = some .directory := by
    have hdirectory := item?_eq_directory_iff.2 ⟨_, htarget⟩
    have hne : outer' ≠ outer ++ [name] := by
      intro heq
      rw [heq, hfile] at hdirectory
      cases hdirectory
    rw [hcut.items _ hne, hdirectory]
  have hplace : (t.cut outer name).item? (outer' ++ [name']) ≠ some .directory := by
    by_cases heq : outer' ++ [name'] = outer ++ [name]
    · rw [heq, hgone]
      exact nofun
    · rw [hcut.items _ heq]
      exact hfree
  obtain ⟨found, hfound⟩ := item?_eq_directory_iff.1 houter
  obtain ⟨hput, hnew⟩ := frame_put (.file contents) hfound hplace fun n => rfl
  refine ⟨(hcut.mono fun _ => Or.inl).trans (hput.mono fun _ => Or.inr), hnew, fun hne => ?_⟩
  rw [hput.items _ hne, hgone]

/-! ## Disks without links -/

def Linkless (root : FileTree) : Prop := ∀ place target, root.item? place ≠ some (.link target)

theorem Linkless.get?_ne (h : root.Linkless) (place : Location) (target : Path) :
    root.get? place ≠ some (.link target) := fun hlink => h place target (by rw [item?, hlink]; rfl)

theorem linkless_file (contents : ByteArray) : (file contents).Linkless := by
  intro place target
  cases place with
  | nil => exact nofun
  | cons name rest => exact nofun

theorem linkless_directory {entries : List (Text × FileTree)}
    (h : ∀ e ∈ entries, e.2.Linkless) : (directory entries).Linkless := by
  intro place target
  cases place with
  | nil =>
    intro h
    cases h
  | cons name rest =>
    rw [item?, get?, child?]
    cases hfind : OrderedMap.find name entries with
    | none =>
      intro h
      cases h
    | some t => exact h _ (OrderedMap.mem_of_find hfind) rest target

/-- A change that leaves no link at its places makes none. -/
theorem Frame.linkless {places : Location → Prop} (h : Frame places root t)
    (hroot : root.Linkless)
    (hplaces : ∀ place, places place → ∀ target, t.item? place ≠ some (.link target)) :
    t.Linkless := by
  intro place target
  by_cases hp : places place
  · exact hplaces place hp target
  · rw [h.items place hp]
    exact hroot place target

end FileTree

end Playbook.Disk
