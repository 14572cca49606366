import Playbook.Proofs.Disk.Items
import Playbook.Proofs.Disk.Places

/-!
# What requests do to a disk

Without links a path leads to one place, which its names alone decide. A request that is granted
reads what that place holds, or changes it, and changes nothing else.

Results:
* `walk_linkless`: where a walk leads, and what is there.
* `directory_of_locate`: what a path leads through.
* `kindOf_eq_ok`, `list_eq_ok`, `read_eq_ok`: what is read is what the place of the path holds.
* `makeDirectory_eq_ok`, `store_eq_ok`, `rename_eq_ok`: what is changed is the place of the path.
-/
namespace Playbook.Disk

theorem bind_eq_ok {α β : Type} {x : Except Fault α} {f : α → Except Fault β} {b : β}
    (h : (do f (← x)) = .ok b) : ∃ a, x = .ok a ∧ f a = .ok b := by
  cases x with
  | ok a => exact ⟨a, rfl, h⟩
  | error fault => cases h

namespace FileTree

/-! ## Walks -/

/-- Each name of the trail is an entry of the directory before it. -/
def Trail.Sound (root : FileTree) : Trail → Prop
  | [] => True
  | (name, t) :: trail => Trail.Sound root trail ∧ (Trail.here root trail).child? name = some t

variable {root t : FileTree} {p : Path}

theorem Trail.sound_nil (root : FileTree) : Trail.Sound root [] := trivial

theorem Trail.Sound.get?_place {trail : Trail} (h : trail.Sound root) :
    root.get? trail.place = some (trail.here root) := by
  induction trail with
  | nil => rfl
  | cons entry trail ih =>
    obtain ⟨name, node⟩ := entry
    have hplace : Trail.place ((name, node) :: trail) = Trail.place trail ++ [name] := by
      simp [Trail.place]
    rw [hplace, get?_name, ih h.1]
    exact h.2

theorem Trail.Sound.tail {trail : Trail} (h : trail.Sound root) : Trail.Sound root trail.tail := by
  cases trail with
  | nil => trivial
  | cons entry trail => exact h.1

section
variable (hroot : root.Linkless)
include hroot

theorem steps_linkless {trail : Trail} {walked : List Text} {stop : Stop}
    (htrail : trail.Sound root) (h : steps root trail walked = .ok stop) :
    ∃ found, stop = .arrived found ∧ found.Sound root := by
  induction walked generalizing trail with
  | nil =>
    cases h
    exact ⟨trail, rfl, htrail⟩
  | cons name rest ih =>
    unfold steps at h
    split at h
    · rename_i entries hhere
      split at h
      · exact ih htrail h
      · split at h
        · exact ih htrail.tail h
        · split at h
          · cases h
          · split at h
            · cases h
            · rename_i target hfind
              -- the entry would be a link
              refine absurd ?_ (hroot.get?_ne (trail.place ++ [name]) target)
              rw [get?_name, htrail.get?_place, hhere]
              exact hfind
            · rename_i node _ hfind
              have hsound : Trail.Sound root ((name, node) :: trail) := by
                refine ⟨htrail, ?_⟩
                rw [hhere]
                exact hfind
              exact ih hsound h
    · cases h

theorem directory_of_steps {trail : Trail} {walked rest : List Text} {name : Text} {stop : Stop}
    (htrail : trail.Sound root) (h : steps root trail (walked ++ name :: rest) = .ok stop) :
    root.item? (resolve trail.place walked) = some .directory := by
  rw [steps_append] at h
  cases hsteps : steps root trail walked with
  | error fault => rw [hsteps] at h; cases h
  | ok stop' =>
    obtain ⟨found, rfl, hsound⟩ := steps_linkless hroot htrail hsteps
    rw [hsteps] at h
    simp only [steps] at h
    split at h
    · rename_i entries hhere
      rw [item?_eq_directory_iff]
      exact ⟨entries, by rw [← place_of_steps hsteps, hsound.get?_place, hhere]⟩
    · cases h

/-- A walk leads where its names alone lead. -/
theorem walk_linkless {links : Nat} {walked : List Text} {found : Trail}
    (h : walk root (links + 1) [] walked = .ok found) :
    root.get? found.place = some (found.here root) ∧ found.place = resolve [] walked := by
  rw [walk] at h
  cases hsteps : steps root [] walked with
  | error fault => rw [hsteps] at h; cases h
  | ok stop =>
    obtain ⟨trail, rfl, hsound⟩ := steps_linkless hroot (Trail.sound_nil root) hsteps
    rw [hsteps] at h
    cases h
    exact ⟨hsound.get?_place, place_of_steps hsteps⟩

end

/-! ## The place of a path -/

theorem resolve_route (p : Path) :
    resolve (resolve [] (route p).outer) [(route p).last] = placeOf p := by
  unfold route placeOf
  cases hnames : (names p).reverse with
  | nil =>
    rw [List.reverse_eq_nil_iff] at hnames
    rw [hnames]
    rfl
  | cons last before =>
    have hsplit : names p = before.reverse ++ [last] := by
      rw [← List.reverse_reverse (names p), hnames, List.reverse_cons]
    rw [hsplit, resolve_append]

theorem names_prefix_segments (p : Path) : names p <+: segments p := by
  unfold segments route
  cases hnames : (names p).reverse with
  | nil =>
    rw [List.reverse_eq_nil_iff] at hnames
    rw [hnames]
    exact List.nil_prefix
  | cons last before =>
    have hsplit : names p = before.reverse ++ [last] := by
      rw [← List.reverse_reverse (names p), hnames, List.reverse_cons]
    rw [hsplit, List.prefix_append_right_inj]
    exact List.prefix_append [last] _

theorem resolve_segments (p : Path) : resolve [] (segments p) = placeOf p := by
  have hdot (place : Location) : resolve place [("." : Text)] = place := rfl
  unfold segments
  simp only
  rw [← resolve_route, ← List.singleton_append, ← List.append_assoc, resolve_append,
    resolve_append]
  split
  · exact hdot _
  · rfl

/-- The spot is the place of a path, as far as its last name is that of an entry. -/
structure Spot.IsFor (s : Spot) (root : FileTree) (p : Path) : Prop where
  entries : root.get? s.outer = some (.directory s.entries)
  outer : s.outer = resolve [] (route p).outer
  name : s.name = (route p).last

namespace Spot.IsFor

variable {s : Spot}

theorem place (h : s.IsFor root p) (hdots : isDots s.name = false) :
    s.outer ++ [s.name] = placeOf p := by
  rw [isDots, Bool.or_eq_false_iff, decide_eq_false_iff_not, decide_eq_false_iff_not] at hdots
  rw [← resolve_route, ← h.outer, ← h.name, resolve_name hdots.1 hdots.2]

theorem get? (h : s.IsFor root p) : root.get? (s.outer ++ [s.name]) = s.found? := by
  rw [get?_name, h.entries]
  rfl

theorem item? (h : s.IsFor root p) : root.item? (s.outer ++ [s.name]) = s.found?.map item := by
  rw [FileTree.item?, h.get?]

end Spot.IsFor

theorem entriesAt_eq_ok {trail : Trail} {entries : List (Text × FileTree)}
    (h : entriesAt root trail = .ok entries) : trail.here root = .directory entries := by
  unfold entriesAt at h
  split at h
  · rename_i hhere
    cases h
    exact hhere
  · cases h

section
variable (hroot : root.Linkless)
include hroot

theorem locate_eq_ok {trail : Trail} (h : locate root p = .ok trail) :
    root.get? (placeOf p) = some (trail.here root) := by
  obtain ⟨_, -, h⟩ := bind_eq_ok h
  obtain ⟨hget, hplace⟩ := walk_linkless hroot h
  rw [← resolve_segments, ← hplace, hget]

/-- Whatever a path leads through is a directory. -/
theorem directory_of_locate {trail : Trail} {walked : List Text} (h : locate root p = .ok trail)
    (hwalked : walked <+: names p) (hne : walked ≠ names p) :
    root.item? (resolve [] walked) = some .directory := by
  obtain ⟨_, -, h⟩ := bind_eq_ok h
  obtain ⟨rest, hrest⟩ := names_prefix_segments p
  obtain ⟨behind, hbehind⟩ := hwalked
  cases behind with
  | nil => exact absurd (by simpa using hbehind) hne
  | cons name behind =>
    rw [← hrest, ← hbehind, List.append_assoc, List.cons_append, walk] at h
    cases hsteps : steps root [] (walked ++ name :: (behind ++ rest)) with
    | error fault => rw [hsteps] at h; cases h
    | ok stop => exact directory_of_steps hroot (Trail.sound_nil root) hsteps

theorem spot_eq_ok {s : Spot} (h : spot root p = .ok s) : s.IsFor root p := by
  obtain ⟨_, -, h⟩ := bind_eq_ok h
  obtain ⟨trail, hwalk, h⟩ := bind_eq_ok h
  obtain ⟨entries, hentries, h⟩ := bind_eq_ok h
  obtain ⟨hget, hplace⟩ := walk_linkless hroot hwalk
  rw [entriesAt_eq_ok hentries] at hget
  cases h
  exact ⟨hget, hplace, rfl⟩

/-! ## Reading -/

theorem unfollowed_eq_ok {node : FileTree} (h : unfollowed root p = .ok node) :
    root.get? (placeOf p) = some node := by
  obtain ⟨_, -, h⟩ := bind_eq_ok h
  simp only at h
  split at h
  · obtain ⟨trail, hlocate, h⟩ := bind_eq_ok h
    cases h
    exact locate_eq_ok hroot hlocate
  · rename_i hclosed
    rw [Bool.or_eq_true, not_or, Bool.not_eq_true, Bool.not_eq_true] at hclosed
    obtain ⟨s, hspot, h⟩ := bind_eq_ok h
    obtain ⟨_, -, h⟩ := bind_eq_ok h
    have hs := spot_eq_ok hroot hspot
    split at h
    · rename_i found hfound
      cases h
      rw [← hs.place (by rw [hs.name]; exact hclosed.2), hs.get?, hfound]
    · cases h

theorem kindOf_eq_ok {follow : Bool} {k : Kind} (h : kindOf root p follow = .ok k) :
    (root.get? (placeOf p)).map kind = some k := by
  cases follow with
  | true =>
    obtain ⟨trail, hlocate, h⟩ := bind_eq_ok h
    cases h
    rw [locate_eq_ok hroot hlocate]
    rfl
  | false =>
    obtain ⟨node, hnode, h⟩ := bind_eq_ok h
    cases h
    rw [unfollowed_eq_ok hroot hnode]
    rfl

theorem list_eq_ok {entries : List (Text × Kind)} (h : list root p = .ok entries) :
    ∃ found, root.get? (placeOf p) = some (.directory found) ∧
      entries = found.map fun (name, t) => (name, t.kind) := by
  obtain ⟨trail, hlocate, h⟩ := bind_eq_ok h
  obtain ⟨found, hentries, h⟩ := bind_eq_ok h
  cases h
  refine ⟨found, ?_, rfl⟩
  rw [locate_eq_ok hroot hlocate, entriesAt_eq_ok hentries]

theorem read_eq_ok {contents : ByteArray} (h : read root p = .ok contents) :
    root.get? (placeOf p) = some (.file contents) := by
  obtain ⟨trail, hlocate, h⟩ := bind_eq_ok h
  rw [locate_eq_ok hroot hlocate]
  split at h
  · rename_i hhere
    cases h
    rw [hhere]
  · cases h
  · cases h

/-! ## Changing -/

/-- A directory is made where nothing is. -/
theorem makeDirectory_eq_ok (h : makeDirectory root p = .ok t) :
    root.item? (placeOf p) = none ∧ Frame (· = placeOf p) root t ∧
      t.item? (placeOf p) = some .directory := by
  obtain ⟨s, hspot, h⟩ := bind_eq_ok h
  have hs := spot_eq_ok hroot hspot
  split at h
  · cases h
  · rename_i hdots
    obtain ⟨_, -, h⟩ := bind_eq_ok h
    split at h
    · cases h
    · rename_i hfound
      have hplace := hs.place (by rwa [Bool.not_eq_true] at hdots)
      have hnone : root.item? (s.outer ++ [s.name]) = none := by
        rw [hs.item?, Option.map_eq_none_iff]
        simpa using hfound
      have hput := frame_put empty hs.entries (by rw [hnone]; exact nofun) fun n => rfl
      cases h
      rw [← hplace]
      exact ⟨hnone, hput⟩

/-- A file is put where there is one, or nothing. -/
theorem writable_eq_ok {links : Nat} {s : Spot}
    (h : writable root (links + 1) [] (route p) = .ok s) :
    s.outer ++ [s.name] = placeOf p ∧ root.get? s.outer = some (.directory s.entries) ∧
      root.item? (s.outer ++ [s.name]) ≠ some .directory := by
  rw [writable] at h
  cases hsteps : steps root [] (route p).outer with
  | error fault => rw [hsteps] at h; cases h
  | ok stop =>
    obtain ⟨trail, rfl, hsound⟩ := steps_linkless hroot (Trail.sound_nil root) hsteps
    rw [hsteps] at h
    obtain ⟨entries, hentries, h⟩ := bind_eq_ok h
    have hs : Spot.IsFor ⟨trail.place, entries, (route p).last⟩ root p := by
      refine ⟨?_, place_of_steps hsteps, rfl⟩
      rw [hsound.get?_place, entriesAt_eq_ok hentries]
    simp only at h
    split at h
    · cases h
    · rename_i hclosed
      rw [Bool.or_eq_true, not_or, Bool.not_eq_true, Bool.not_eq_true] at hclosed
      obtain ⟨_, -, h⟩ := bind_eq_ok h
      split at h
      · cases h
      · rename_i target hfound
        -- the spot would hold a link
        refine absurd ?_ (hroot (trail.place ++ [(route p).last]) target)
        rw [hs.item?, hfound]
        rfl
      · rename_i hdirectory _
        cases h
        refine ⟨hs.place hclosed.2, hs.entries, ?_⟩
        rw [hs.item?]
        intro hitem
        obtain ⟨node, hnode, hitem⟩ := Option.map_eq_some_iff.1 hitem
        cases node with
        | directory es => exact hdirectory es hnode
        | file | link => cases hitem

theorem store_eq_ok {contents : ByteArray} (h : store root p contents = .ok t) :
    root.item? (placeOf p) ≠ some .directory ∧ Frame (· = placeOf p) root t ∧
      t.item? (placeOf p) = some (.file contents) := by
  obtain ⟨_, -, h⟩ := bind_eq_ok h
  obtain ⟨s, hspot, h⟩ := bind_eq_ok h
  obtain ⟨hplace, hentries, hitem⟩ := writable_eq_ok hroot hspot
  have hput := frame_put (.file contents) hentries hitem fun n => rfl
  cases h
  rw [← hplace]
  exact ⟨hitem, hput⟩

/-- A file gives up its place for another, where there is a file or nothing. -/
theorem rename_eq_ok {source target : Path} (h : rename root source target = .ok t) :
    ∃ contents, root.item? (placeOf source) = some (.file contents) ∧
      root.item? (placeOf target) ≠ some .directory ∧
      Frame (fun place => place = placeOf source ∨ place = placeOf target) root t ∧
      t.item? (placeOf target) = some (.file contents) ∧
      (placeOf source ≠ placeOf target → t.item? (placeOf source) = none) := by
  obtain ⟨old, hold, h⟩ := bind_eq_ok h
  obtain ⟨new, hnew, h⟩ := bind_eq_ok h
  have hs := spot_eq_ok hroot hold
  have ht := spot_eq_ok hroot hnew
  split at h
  · cases h
  · rename_i hdots
    rw [Bool.or_eq_true, not_or, Bool.not_eq_true, Bool.not_eq_true] at hdots
    obtain ⟨_, -, h⟩ := bind_eq_ok h
    split at h
    · cases h
    · rename_i node hfound
      obtain ⟨_, -, h⟩ := bind_eq_ok h
      split at h
      · cases h
      · split at h
        · cases h
        · rename_i hkind
          rw [Bool.or_eq_true, not_or, decide_eq_true_eq] at hkind
          have hsource := hs.item?
          have htarget := ht.item?
          rw [hfound, hs.place hdots.1] at hsource
          rw [ht.place hdots.2] at htarget
          obtain ⟨contents, rfl⟩ : ∃ contents, node = .file contents := by
            cases node with
            | file contents => exact ⟨contents, rfl⟩
            | link target => exact absurd hsource (hroot _ target)
            | directory entries => exact absurd rfl hkind.1
          have hfree : root.item? (placeOf target) ≠ some .directory := by
            rw [htarget]
            intro hdirectory
            obtain ⟨found, hfound, hitem⟩ := Option.map_eq_some_iff.1 hdirectory
            refine hkind.2 ?_
            rw [hfound, Option.any_some, decide_eq_true_eq]
            cases found with
            | directory => rfl
            | file | link => cases hitem
          have hmove := frame_move hs.entries ht.entries (by rw [hs.place hdots.1, hsource]; rfl)
            (by rwa [ht.place hdots.2])
          rw [hs.place hdots.1, ht.place hdots.2] at hmove
          cases h
          exact ⟨contents, hsource, hfree, hmove⟩

end

end FileTree

end Playbook.Disk
