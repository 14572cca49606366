import Playbook.Proofs.Disk.Items
import Playbook.Proofs.Disk.Listing
import Playbook.Proofs.Disk.Parents
import Playbook.Proofs.OrderedMap.Entries

/-!
# Copies of trees

A copy has the directories of a tree, and its files with changed contents. The files of a directory
are copied in the order of their names, each through a temporary file beside it; when that is
renamed, nothing is left at its name, whatever was there. So a file is lost from the copy if it has
the name of the temporary for a file that is copied later.

Results:
* `lostAt_cons_iff`: a file is lost among the entries of its own directory.
* `IsCopy.add`: a copy of entries, and of one more behind them.
* `Files.cons`: the files of entries, and of one more before them.
-/
namespace Playbook

namespace Disk

/-- An item with a file's contents changed. -/
def Item.changed (f : ByteArray → ByteArray) : Item → Item
  | .file contents => .file (f contents)
  | .link target => .link target
  | .directory => .directory

end Disk

theorem Path.isAbsolute_join {p q : Path} (hp : p.isAbsolute = false) (hq : q.isAbsolute = false) :
    (p.join q).isAbsolute = false := by
  obtain ⟨t⟩ := p
  unfold join
  rw [hq, if_neg Bool.false_ne_true]
  cases t with
  | nil => exact hq
  | cons c t => split <;> exact hp

namespace Disk.FileTree

open Playbook.Path (IsName)

/-! ## Paths down a tree -/

/-- The path that leads down some names, one below the other. -/
def relative (walked : Location) : Path := walked.foldl (fun p name => p.join ⟨name⟩) ⟨[]⟩

theorem relative_concat (walked : Location) (name : Text) :
    relative (walked ++ [name]) = (relative walked).join ⟨name⟩ := List.foldl_append

section
variable {walked : Location} (h : ∀ name ∈ walked, IsName name)
include h

theorem isAbsolute_relative : (relative walked).isAbsolute = false := by
  induction walked using List.reverseRecOn with
  | nil => rfl
  | append_singleton walked name ih =>
    rw [List.forall_mem_append, List.forall_mem_singleton] at h
    rw [relative_concat]
    exact Path.isAbsolute_join (ih h.1) (Path.not_isAbsolute h.2.slash)

theorem names_relative : names (relative walked) = walked := by
  induction walked using List.reverseRecOn with
  | nil => rfl
  | append_singleton walked name ih =>
    rw [List.forall_mem_append, List.forall_mem_singleton] at h
    rw [relative_concat, names_join_name h.2, ih h.1]

theorem names_join_relative (p : Path) : names (p.join (relative walked)) = names p ++ walked := by
  rw [names_join (isAbsolute_relative h), names_relative h]

theorem placeOf_join_relative (p : Path) :
    placeOf (p.join (relative walked)) = placeOf p ++ walked := by
  rw [placeOf, names_join_relative h, resolve_append, resolve_isName h, placeOf]

end

/-- Entries have names of entries, and those of one directory have different ones. -/
def Proper (t : FileTree) : Prop :=
  ∀ place entries, t.get? place = some (.directory entries) →
    (entries.map Prod.fst).Nodup ∧ ∀ e ∈ entries, IsName e.1

theorem proper_file (contents : ByteArray) : (file contents).Proper := by
  intro place entries h
  cases place with
  | nil => cases h
  | cons name rest => cases h

theorem proper_directory {entries : List (Text × FileTree)} (hnodup : (entries.map Prod.fst).Nodup)
    (h : ∀ e ∈ entries, IsName e.1 ∧ e.2.Proper) : (directory entries).Proper := by
  intro place found hget
  cases place with
  | nil =>
    cases hget
    exact ⟨hnodup, fun e he => (h e he).1⟩
  | cons name rest =>
    rw [get?, child?] at hget
    obtain ⟨t, hfind, hget⟩ := Option.bind_eq_some_iff.1 hget
    exact (h _ (OrderedMap.mem_of_find hfind)).2 rest found hget

theorem Proper.child {entries : List (Text × FileTree)} {name : Text} {t : FileTree}
    (h : (directory entries).Proper) (hfind : OrderedMap.find name entries = some t) :
    t.Proper := by
  intro place found hget
  refine h (name :: place) found ?_
  rw [get?, child?, hfind]
  exact hget

/-! ## Lost files -/

/-- A file with the name of the temporary for a file behind it. -/
def Lost (entries : List (Text × FileTree)) (name : Text) : Prop :=
  ∃ other contents contents', name = temporaryName other ∧ Text.le name other = true ∧
    OrderedMap.find name entries = some (.file contents) ∧
    OrderedMap.find other entries = some (.file contents')

/-- The place of a file that is lost among the entries of its directory. -/
def LostAt (t : FileTree) (place : Location) : Prop :=
  ∃ outer entries name, place = outer ++ [name] ∧ t.get? outer = some (.directory entries) ∧
    Lost entries name

theorem not_lostAt_nil (t : FileTree) : ¬ t.LostAt [] := by
  intro h
  obtain ⟨outer, -, name, hplace, -⟩ := h
  exact absurd hplace (by simp)

/-- A file is lost among the entries of its own directory. -/
theorem lostAt_cons_iff {entries : List (Text × FileTree)} {name : Text} {rest : Location} :
    (directory entries).LostAt (name :: rest) ↔ (rest = [] ∧ Lost entries name) ∨
      ∃ t, OrderedMap.find name entries = some t ∧ t.LostAt rest := by
  constructor
  · intro h
    obtain ⟨outer, found, last, hplace, hget, hlost⟩ := h
    cases outer with
    | nil =>
      rw [List.nil_append, List.cons.injEq] at hplace
      obtain ⟨rfl, rfl⟩ := hplace
      cases hget
      exact Or.inl ⟨rfl, hlost⟩
    | cons first outer =>
      rw [List.cons_append, List.cons.injEq] at hplace
      obtain ⟨rfl, rfl⟩ := hplace
      rw [get?, child?] at hget
      obtain ⟨t, hfind, hget⟩ := Option.bind_eq_some_iff.1 hget
      exact Or.inr ⟨t, hfind, outer, found, last, rfl, hget, hlost⟩
  · intro h
    rcases h with ⟨rfl, hlost⟩ | ⟨t, hfind, outer, found, last, rfl, hget, hlost⟩
    · exact ⟨[], entries, name, rfl, rfl, hlost⟩
    · refine ⟨name :: outer, found, last, rfl, ?_, hlost⟩
      rw [get?, child?, hfind]
      exact hget

theorem not_lostAt_file (contents : ByteArray) (place : Location) :
    ¬ (file contents).LostAt place := by
  intro h
  obtain ⟨outer, entries, name, -, hget, -⟩ := h
  cases outer with
  | nil => cases hget
  | cons first outer => cases hget

theorem item?_of_lostAt {t : FileTree} {place : Location} (h : t.LostAt place) :
    ∃ contents, t.item? place = some (.file contents) := by
  obtain ⟨outer, entries, name, rfl, hget, -, contents, -, -, -, hfind, -⟩ := h
  refine ⟨contents, item?_eq_file_iff.2 ?_⟩
  rw [get?_name, hget]
  exact hfind

section
variable {entries : List (Text × FileTree)} {name n : Text} {t : FileTree}
  (hnew : name ∉ entries.map Prod.fst)
include hnew

theorem find_last (t : FileTree) : OrderedMap.find name (entries ++ [(name, t)]) = some t := by
  rw [OrderedMap.find_concat, OrderedMap.find_eq_none_iff.2 hnew, if_pos rfl]
  rfl

omit hnew in
theorem find_before (hn : n ≠ name) (t : FileTree) :
    OrderedMap.find n (entries ++ [(name, t)]) = OrderedMap.find n entries := by
  rw [OrderedMap.find_concat, if_neg hn.symm, Option.or_none]

variable (hbefore : ∀ e ∈ entries, Text.le e.1 name = true)
include hbefore

omit hnew in
/-- The last file is not lost: the files before it are copied before it. -/
theorem not_lost_last : ¬ Lost (entries ++ [(name, t)]) name := by
  intro h
  obtain ⟨other, -, contents, htemporary, hle, -, hfind⟩ := h
  have hne : other ≠ name := fun h => temporaryName_ne other (htemporary.symm.trans h.symm)
  rw [find_before hne] at hfind
  exact hne (Text.le_antisymm (hbefore _ (OrderedMap.mem_of_find hfind)) hle)

/-- One more file loses the file that has the name of its temporary. -/
theorem lost_concat_iff (hn : n ≠ name) : Lost (entries ++ [(name, t)]) n ↔ Lost entries n ∨
    (n = temporaryName name ∧ (∃ contents, t = .file contents) ∧
      ∃ contents, OrderedMap.find n entries = some (.file contents)) := by
  constructor
  · intro h
    obtain ⟨other, contents, contents', htemporary, hle, hfind, hother⟩ := h
    rw [find_before hn] at hfind
    by_cases hlast : other = name
    · subst hlast
      rw [find_last hnew, Option.some_inj] at hother
      exact Or.inr ⟨htemporary, ⟨contents', hother⟩, contents, hfind⟩
    · rw [find_before hlast] at hother
      exact Or.inl ⟨other, contents, contents', htemporary, hle, hfind, hother⟩
  · intro h
    rcases h with ⟨other, contents, contents', htemporary, hle, hfind, hother⟩ |
      ⟨htemporary, ⟨contents', rfl⟩, contents, hfind⟩
    · have hlast : other ≠ name := by
        rintro rfl
        exact hnew (List.mem_map_of_mem (OrderedMap.mem_of_find hother))
      rw [← find_before hn] at hfind
      rw [← find_before hlast] at hother
      exact ⟨other, contents, contents', htemporary, hle, hfind, hother⟩
    · refine ⟨name, contents, contents', htemporary, ?_, by rw [find_before hn, hfind],
        find_last hnew _⟩
      exact hbefore _ (OrderedMap.mem_of_find hfind)

theorem lostAt_last_iff {rest : Location} :
    (directory (entries ++ [(name, t)])).LostAt (name :: rest) ↔ t.LostAt rest := by
  rw [lostAt_cons_iff, find_last hnew]
  constructor
  · intro h
    rcases h with ⟨-, h⟩ | ⟨_, hsome, h⟩
    · exact absurd h (not_lost_last hbefore)
    · cases hsome
      exact h
  · exact fun h => Or.inr ⟨t, rfl, h⟩

/-- Elsewhere one more file loses nothing. -/
theorem lostAt_before_iff {rest : Location} (hn : n ≠ name)
    (h : ¬ ((∃ contents, t = .file contents) ∧ n = temporaryName name ∧ rest = [])) :
    (directory (entries ++ [(name, t)])).LostAt (n :: rest) ↔
      (directory entries).LostAt (n :: rest) := by
  rw [lostAt_cons_iff, lostAt_cons_iff, find_before hn, lost_concat_iff hnew hbefore hn]
  constructor
  · intro hlost
    rcases hlost with ⟨hrest, hlost | ⟨htemporary, hfile, -⟩⟩ | hlost
    · exact Or.inl ⟨hrest, hlost⟩
    · exact absurd ⟨hfile, htemporary, hrest⟩ h
    · exact Or.inr hlost
  · exact fun hlost => hlost.imp_left fun hlost => ⟨hlost.1, Or.inl hlost.2⟩

/-- Unless a file is lost at the name of the temporary, nothing is there. -/
theorem find_temporary {contents : ByteArray} (ht : t = .file contents)
    (hlinks : ∀ n target, OrderedMap.find n entries ≠ some (.link target))
    (hdirectory : ∀ found, OrderedMap.find (temporaryName name) entries ≠ some (.directory found))
    (hkept : ¬ (directory (entries ++ [(name, t)])).LostAt [temporaryName name]) :
    OrderedMap.find (temporaryName name) entries = none := by
  cases hfind : OrderedMap.find (temporaryName name) entries with
  | none => rfl
  | some found =>
    cases found with
    | link target => exact absurd hfind (hlinks _ target)
    | directory found => exact absurd hfind (hdirectory found)
    | file contents' =>
      refine absurd (lostAt_cons_iff.2 (Or.inl ⟨rfl, ?_⟩)) hkept
      exact (lost_concat_iff hnew hbefore (temporaryName_ne name)).2
        (Or.inr ⟨rfl, ⟨contents, ht⟩, contents', hfind⟩)

end

/-! ## Copies -/

/-- What is at a place is a copy of a tree, which is found where `front` leads. -/
structure IsCopy (change : Path → ByteArray → ByteArray) (front : Location) (node t : FileTree)
    (place : Location) : Prop where
  lost : ∀ rest, node.LostAt rest → t.item? (place ++ rest) = none
  kept : ∀ rest, ¬ node.LostAt rest → t.item? (place ++ rest) =
    (node.item? rest).map (Item.changed (change (relative (front ++ rest))))

section
variable {change : Path → ByteArray → ByteArray} {front place : Location}
  {entries : List (Text × FileTree)} {t u : FileTree}

/-- A copy is exact if no file is lost. -/
theorem IsCopy.exact_iff {node : FileTree} (h : IsCopy change front node t place) :
    (∀ rest, t.item? (place ++ rest) =
      (node.item? rest).map (Item.changed (change (relative (front ++ rest))))) ↔
      ∀ rest, ¬ node.LostAt rest := by
  refine ⟨fun hexact rest hlost => ?_, fun hkept rest => h.kept rest (hkept rest)⟩
  obtain ⟨contents, hitem⟩ := item?_of_lostAt hlost
  have hnone := hexact rest
  rw [h.lost rest hlost, hitem] at hnone
  cases hnone

theorem isCopy_file {contents : ByteArray}
    (h : t.item? place = some (.file (change (relative front) contents))) :
    IsCopy change front (.file contents) t place := by
  refine ⟨fun rest hlost => absurd hlost (not_lostAt_file contents rest), fun rest _ => ?_⟩
  cases rest with
  | nil =>
    rw [List.append_nil, List.append_nil, h]
    rfl
  | cons name rest =>
    rw [item?_below (by rw [h]; exact nofun)]
    rfl

theorem item?_entry (name : Text) (rest : Location) : (directory entries).item? (name :: rest) =
    (OrderedMap.find name entries).bind (·.item? rest) := by
  rw [item?, get?, child?, Option.map_bind]
  rfl

theorem IsCopy.congr {others : List (Text × FileTree)}
    (hfind : ∀ name, OrderedMap.find name entries = OrderedMap.find name others)
    (h : IsCopy change front (directory entries) t place) :
    IsCopy change front (directory others) t place := by
  have hlost (rest : Location) :
      (directory others).LostAt rest ↔ (directory entries).LostAt rest := by
    cases rest with
    | nil => simp [not_lostAt_nil]
    | cons name rest => simp only [lostAt_cons_iff, Lost, hfind]
  refine ⟨fun rest hrest => h.lost rest ((hlost rest).1 hrest), fun rest hrest => ?_⟩
  rw [h.kept rest fun hl => hrest ((hlost rest).2 hl)]
  cases rest with
  | nil => rfl
  | cons name rest => rw [item?_entry, item?_entry, hfind]

theorem isCopy_nil (h : t.item? place = some .directory)
    (hbelow : ∀ name rest, t.item? (place ++ name :: rest) = none) :
    IsCopy change front (directory []) t place := by
  refine ⟨fun rest hlost => ?_, fun rest _ => ?_⟩
  · cases rest with
    | nil => exact absurd hlost (not_lostAt_nil _)
    | cons name rest => exact hbelow name rest
  · cases rest with
    | nil => rw [List.append_nil, h]; rfl
    | cons name rest => rw [hbelow, item?_entry]; rfl

theorem IsCopy.absent {name : Text} (h : IsCopy change front (directory entries) t place)
    (hnew : name ∉ entries.map Prod.fst) (rest : Location) :
    t.item? (place ++ name :: rest) = none := by
  by_cases hlost : (directory entries).LostAt (name :: rest)
  · exact h.lost _ hlost
  · rw [h.kept _ hlost, item?_entry, OrderedMap.find_eq_none_iff.2 hnew]
    rfl

theorem IsCopy.item?_directory {name : Text} {found : List (Text × FileTree)}
    (h : IsCopy change front (directory entries) t place)
    (hfind : OrderedMap.find name entries = some (.directory found)) :
    t.item? (place ++ [name]) = some .directory := by
  have hitem : (directory entries).item? [name] = some .directory := by
    rw [item?_entry, hfind]
    rfl
  have hkept : ¬ (directory entries).LostAt [name] := by
    intro hlost
    obtain ⟨contents, hfile⟩ := item?_of_lostAt hlost
    rw [hitem] at hfile
    cases hfile
  rw [h.kept [name] hkept, hitem]
  rfl

/-- One more entry behind those that are copied. If it is a file, its temporary goes. -/
theorem IsCopy.add {name : Text} {node : FileTree}
    (hcopied : IsCopy change front (.directory entries) t place)
    (hnew : name ∉ entries.map Prod.fst) (hbefore : ∀ e ∈ entries, Text.le e.1 name = true)
    (hlinks : ∀ n target, OrderedMap.find n entries ≠ some (.link target))
    (hframe : Frame (fun other => place ++ [name] <+: other ∨
      (∃ contents, node = .file contents) ∧ other = place ++ [temporaryName name]) t u)
    (hcopy : IsCopy change (front ++ [name]) node u (place ++ [name]))
    (htemporary : ∀ contents, node = .file contents →
      t.item? (place ++ [temporaryName name]) ≠ some .directory ∧
        u.item? (place ++ [temporaryName name]) = none) :
    IsCopy change front (.directory (entries ++ [(name, node)])) u place := by
  have hassoc (n : Text) (rest : Location) : place ++ n :: rest = place ++ [n] ++ rest := by simp
  -- what is neither the entry nor its temporary stays
  have hother (n : Text) (rest : Location) (hn : n ≠ name)
      (h : ¬ ((∃ contents, node = .file contents) ∧ n = temporaryName name ∧ rest = [])) :
      u.item? (place ++ n :: rest) = t.item? (place ++ n :: rest) := by
    refine hframe.items _ fun hplace => ?_
    rcases hplace with hprefix | ⟨hnode, heq⟩
    · rw [List.prefix_append_right_inj, List.cons_prefix_cons] at hprefix
      exact hn hprefix.1.symm
    · rw [List.append_cancel_left_eq, List.cons.injEq] at heq
      exact h ⟨hnode, heq⟩
  refine ⟨fun rest hrest => ?_, fun rest hrest => ?_⟩
  · cases rest with
    | nil => exact absurd hrest (not_lostAt_nil _)
    | cons n rest =>
      by_cases hn : n = name
      · subst hn
        rw [hassoc]
        exact hcopy.lost rest ((lostAt_last_iff hnew hbefore).1 hrest)
      · by_cases h : (∃ contents, node = .file contents) ∧ n = temporaryName name ∧ rest = []
        · obtain ⟨⟨contents, hnode⟩, rfl, rfl⟩ := h
          exact (htemporary contents hnode).2
        · rw [hother n rest hn h]
          exact hcopied.lost _ ((lostAt_before_iff hnew hbefore hn h).1 hrest)
  · cases rest with
    | nil =>
      have hplace : u.item? (place ++ []) = t.item? (place ++ []) := by
        refine hframe.items _ fun hplace => ?_
        rcases hplace with hprefix | ⟨-, heq⟩
        · have hlen := hprefix.length_le
          simp only [List.length_append, List.length_singleton, List.length_nil] at hlen
          omega
        · simp at heq
      rw [hplace, hcopied.kept [] (not_lostAt_nil _)]
      rfl
    | cons n rest =>
      by_cases hn : n = name
      · subst hn
        rw [hassoc, hcopy.kept rest fun h => hrest ((lostAt_last_iff hnew hbefore).2 h),
          item?_entry, find_last hnew]
        simp
      · rw [item?_entry, find_before hn]
        by_cases h : (∃ contents, node = .file contents) ∧ n = temporaryName name ∧ rest = []
        · obtain ⟨⟨contents, hnode⟩, rfl, rfl⟩ := h
          obtain ⟨hfree, hgone⟩ := htemporary contents hnode
          have hdirectory (found : List (Text × FileTree)) :
              OrderedMap.find (temporaryName name) entries ≠ some (.directory found) :=
            fun hfind => hfree (hcopied.item?_directory hfind)
          rw [hgone, find_temporary hnew hbefore hnode hlinks hdirectory hrest]
          rfl
        · rw [hother n rest hn h, hcopied.kept _ fun hlost =>
            hrest ((lostAt_before_iff hnew hbefore hn h).2 hlost), item?_entry]

end

/-! ## Files -/

/-- The paths of the files of a tree that is found where `front` leads, each once. -/
def Files (front : Location) (node : FileTree) (paths : List Path) : Prop :=
  ∃ places : List Location, places.Nodup ∧
    (∀ place, place ∈ places ↔ ∃ contents, node.item? place = some (.file contents)) ∧
    paths = places.map fun place => relative (front ++ place)

theorem files_file (front : Location) (contents : ByteArray) :
    Files front (.file contents) [relative front] := by
  refine ⟨[[]], by simp, fun place => ?_, by simp⟩
  cases place with
  | nil => exact ⟨fun _ => ⟨contents, rfl⟩, fun _ => List.mem_singleton_self _⟩
  | cons name rest => simp [item?, get?, child?]

theorem files_nil (front : Location) : Files front (.directory []) [] := by
  refine ⟨[], List.nodup_nil, fun place => ?_, rfl⟩
  cases place with
  | nil => simp [item?, get?, item]
  | cons name rest => simp [item?_entry, OrderedMap.find]

section
variable {front : Location} {entries others : List (Text × FileTree)} {paths more : List Path}

theorem Files.congr (hfind : ∀ name, OrderedMap.find name entries = OrderedMap.find name others)
    (h : Files front (.directory entries) paths) : Files front (.directory others) paths := by
  obtain ⟨places, hnodup, hmem, hpaths⟩ := h
  refine ⟨places, hnodup, fun place => (hmem place).trans ?_, hpaths⟩
  cases place with
  | nil => rfl
  | cons name rest => rw [item?_entry, item?_entry, hfind]

/-- The files of one more entry come before those of the others. -/
theorem Files.cons {name : Text} {node : FileTree} (hnew : name ∉ entries.map Prod.fst)
    (hnode : Files (front ++ [name]) node paths) (h : Files front (.directory entries) more) :
    Files front (.directory ((name, node) :: entries)) (paths ++ more) := by
  obtain ⟨inside, hinside, hmemInside, rfl⟩ := hnode
  obtain ⟨outside, houtside, hmemOutside, rfl⟩ := h
  have hfirst (rest : Location) : (directory ((name, node) :: entries)).item? (name :: rest) =
      node.item? rest := by
    rw [item?_entry, OrderedMap.find, if_pos rfl, Option.bind_some]
  have hnone (rest : Location) : (directory entries).item? (name :: rest) = none := by
    rw [item?_entry, OrderedMap.find_eq_none_iff.2 hnew, Option.bind_none]
  refine ⟨inside.map (name :: ·) ++ outside, ?_, fun place => ?_, by simp⟩
  · refine List.nodup_append.2 ⟨List.Pairwise.map _ (fun a b hne h => hne (List.cons.inj h).2)
      hinside, houtside, ?_⟩
    rintro _ hleft place hright rfl
    obtain ⟨rest, -, rfl⟩ := List.mem_map.1 hleft
    obtain ⟨contents, hitem⟩ := (hmemOutside _).1 hright
    rw [hnone] at hitem
    cases hitem
  · rw [List.mem_append, List.mem_map, hmemOutside]
    cases place with
    | nil => simp [item?, get?, item]
    | cons n rest =>
      by_cases hn : n = name
      · subst hn
        rw [hfirst, hnone, ← hmemInside]
        simp
      · rw [item?_entry, item?_entry, OrderedMap.find, if_neg (Ne.symm hn)]
        simp [Ne.symm hn]

end

end Disk.FileTree

end Playbook
