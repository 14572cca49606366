import Playbook.Proofs.Disk.Guards
import Playbook.Proofs.Disk.Parents
import Playbook.Proofs.Disk.Requests

/-!
# Saving whole files

Saving a file makes the directories around it, stores its contents in a temporary file beside it
and renames that. Until it is renamed, nothing but the temporary changes, and nothing but
directories on the way to the file is added, each where nothing was; renaming is one step. So the
file is there as it was, or whole. One of the directories on the way may be at the place of the file
itself, if the path leads through that place and back.

Results:
* `guards_makeFrom`: making directories adds them on the way of the path, and nothing else.
* `guards_save`: what saving a file keeps to at every moment.
* `save_all_or_nothing`: a file is saved or stays as it was, whatever fails.
* `not_save_keeps_place`: a path that leads through the place of its own file.
-/
namespace Playbook.Disk.FileTree

variable {root t u : FileTree} {p q : Path}

/-! ## Making directories -/

/-- Directories were added on the way of a path, where nothing was, and nothing else changed. -/
structure Made (p : Path) (root t : FileTree) : Prop where
  frame : Frame (fun place => OnWay p place ∧ root.item? place = none) root t
  items : ∀ place, t.item? place = root.item? place ∨ t.item? place = some .directory

namespace Made

theorem refl (p : Path) (root : FileTree) : Made p root root :=
  ⟨.refl _ _, fun _ => Or.inl rfl⟩

theorem linkless (h : Made p root t) (hroot : root.Linkless) : t.Linkless := by
  intro place target
  rcases h.items place with hitem | hitem
  · rw [hitem]
    exact hroot place target
  · rw [hitem]
    exact nofun

theorem add (h : Made p root t) {place : Location} (hway : OnWay p place)
    (hnone : t.item? place = none) (hframe : Frame (· = place) t u)
    (hitem : u.item? place = some .directory) : Made p root u := by
  have hroot : root.item? place = none := by
    rcases h.items place with h | h
    · rw [← h, hnone]
    · rw [hnone] at h
      cases h
  refine ⟨h.frame.trans (hframe.mono ?_), fun other => ?_⟩
  · rintro _ rfl
    exact ⟨hway, hroot⟩
  · by_cases hother : other = place
    · rw [hother]
      exact Or.inr hitem
    · rw [hframe.items other hother]
      exact h.items other

end Made

section
variable (hroot : root.Linkless)
include hroot

theorem Made.turn (hmade : Made q root t) (hway : OnWay q (placeOf p))
    {answer : Except Fault Unit} (hturn : Turn t (.makeDirectory p) answer u) :
    Made q root u ∧ (answer = .ok () → u.item? (placeOf p) = some .directory) := by
  rcases turn_makeDirectory hturn with ⟨rfl, fault, hanswer⟩ | hu
  · rw [hanswer]
    exact ⟨hmade, fun h => by cases h⟩
  · obtain ⟨hnone, hframe, hitem⟩ := makeDirectory_eq_ok (hmade.linkless hroot) hu
    exact ⟨hmade.add hway hnone hframe hitem, fun _ => hitem⟩

theorem guards_leadsTo {failure : Failure} (hmade : Made q root t) :
    Guards (Made q root) (fun _ u => Made q root u ∧ u.item? (placeOf p) = some .directory)
      (Script.leadsTo .directory p >>= fun b => if b then .done () else .fail failure) t := by
  refine ⟨hmade, fun answer u hturn => ?_⟩
  obtain ⟨rfl, hkind⟩ := turn_kind hturn
  cases answer with
  | error fault => exact hmade
  | ok k =>
    have hget := kindOf_eq_ok (hmade.linkless hroot) (hkind k rfl)
    obtain ⟨node, hnode, rfl⟩ := Option.map_eq_some_iff.1 hget
    cases node with
    | directory entries => exact ⟨hmade, hmade, item?_eq_directory_iff.2 ⟨entries, hnode⟩⟩
    | file | link => exact hmade

/-- Making directories adds them on the way of the path, and nothing else. -/
theorem guards_makeFrom (fuel : Nat) (hsub : ∀ place, OnWay p place → OnWay q place)
    (hmade : Made q root t) :
    Guards (Made q root)
      (fun _ u => Made q root u ∧
        (0 < fuel → p.isEmpty = false → u.item? (placeOf p) = some .directory))
      (makeFrom fuel p) t := by
  induction fuel generalizing p t with
  | zero => exact ⟨hmade, hmade, fun h => absurd h (Nat.lt_irrefl 0)⟩
  | succ fuel ih =>
    have hway := hsub _ (onWay_placeOf p)
    have hthere {failure : Failure} {u : FileTree} (hu : Made q root u) :=
      (@guards_leadsTo root u p q hroot failure hu).mono (fun _ h => h) fun _ _ h =>
        (⟨h.1, fun _ _ => h.2⟩ : _ ∧ (0 < fuel + 1 → p.isEmpty = false → _))
    rw [makeFrom]
    split
    · rename_i hempty
      exact ⟨hmade, hmade, fun _ h => by rw [h] at hempty; cases hempty⟩
    · refine ⟨hmade, fun answer u hturn => ?_⟩
      obtain ⟨hu, hok⟩ := hmade.turn hroot hway hturn
      cases answer with
      | ok a => exact ⟨hu, hu, fun _ _ => hok rfl⟩
      | error fault =>
        cases fault with
        | notFound =>
          -- the directory around it is made, and then it is tried again
          simp only [Script.done_bind]
          cases hparent : p.parent? with
          | none => exact hu
          | some outer =>
            have houter := ih (fun place h => hsub place (h.of_parent hparent)) hu
            refine guards_bind (houter.mono (fun _ h => h) fun _ v hv => ?_)
            refine ⟨hv.1, fun answer w hturn => ?_⟩
            obtain ⟨hw, hok⟩ := hv.1.turn hroot hway hturn
            cases answer with
            | ok a => exact ⟨hw, hw, fun _ _ => hok rfl⟩
            | error fault => exact hthere hw
        | _ => exact hthere hu

/-- Making directories adds them on the way of the path, and nothing else. -/
theorem guards_makeDirectories (p : Path) :
    Guards (Made p root) (fun _ u => Made p root u ∧
      (p.isEmpty = false → u.item? (placeOf p) = some .directory)) (makeDirectories p) root :=
  (guards_makeFrom hroot _ (fun _ h => h) (.refl p root)).mono (fun _ h => h) fun _ _ h =>
    ⟨h.1, h.2 (Nat.succ_pos _)⟩

end

/-! ## Saving -/

/-- Before the temporary file is renamed. -/
structure Pending (directory : Path) (temporary : Location) (root t : FileTree) : Prop where
  linkless : t.Linkless
  made : ∃ made, Made directory root made ∧ Frame (· = temporary) made t

/-- After it is renamed. -/
structure Saved (directory : Path) (temporary place : Location) (contents : ByteArray)
    (root t : FileTree) : Prop where
  made : ∃ made, Made directory root made ∧ made.item? temporary ≠ some .directory ∧
    made.item? place ≠ some .directory ∧
    Frame (fun other => other = temporary ∨ other = place) made t
  item : t.item? place = some (.file contents)
  gone : t.item? temporary = none

section
variable {directory : Path} {place : Location} {name : Text} {contents : ByteArray}

/-- The temporary file is made, written and renamed. -/
theorem guards_rename {made : FileTree} (hmade : Made directory root made)
    (hlinkless : made.Linkless) {temporary path : Path} (hne : placeOf temporary ≠ placeOf path) :
    Guards (fun t => Pending directory (placeOf temporary) root t ∨
        Saved directory (placeOf temporary) (placeOf path) contents root t)
      (fun _ t => Saved directory (placeOf temporary) (placeOf path) contents root t)
      (do
        Script.require (.create temporary)
        Script.require (.write temporary contents)
        Script.require (.sync temporary)
        Script.require (.rename temporary path)) made := by
  have hpending {u : FileTree} {part : ByteArray} (hframe : Frame (· = placeOf temporary) made u)
      (hitem : u.item? (placeOf temporary) = some (.file part)) :
      Pending directory (placeOf temporary) root u := by
    refine ⟨hframe.linkless hlinkless ?_, made, hmade, hframe⟩
    rintro _ rfl target
    rw [hitem]
    exact nofun
  have hstart : Pending directory (placeOf temporary) root made :=
    ⟨hlinkless, made, hmade, .refl _ _⟩
  refine guards_require (Or.inl hstart) fun answer u hturn => ?_
  rcases turn_create hturn with ⟨rfl, fault, rfl⟩ | hcreate
  · exact ⟨Or.inl hstart, fun _ h => by cases h⟩
  obtain ⟨hfree, hframe, hitem⟩ := store_eq_ok hlinkless hcreate
  refine ⟨Or.inl (hpending hframe hitem), fun _ _ => ?_⟩
  refine guards_require (Or.inl (hpending hframe hitem)) fun answer v hturn => ?_
  rcases turn_write hturn with ⟨rfl, fault, rfl⟩ | ⟨part, hwrite, hwhole⟩
  · exact ⟨Or.inl (hpending hframe hitem), fun _ h => by cases h⟩
  obtain ⟨-, hframe', hitem'⟩ := store_eq_ok (hpending hframe hitem).linkless hwrite
  have hv := hpending (hframe.trans hframe') hitem'
  refine ⟨Or.inl hv, fun _ hanswer => ?_⟩
  rw [hwhole hanswer] at hitem'
  refine guards_require (Or.inl hv) fun answer w hturn => ?_
  obtain rfl := turn_sync hturn
  refine ⟨Or.inl hv, fun _ _ => ⟨Or.inl hv, fun answer x hturn => ?_⟩⟩
  rcases turn_rename hturn with ⟨rfl, fault, rfl⟩ | hrename
  · exact Or.inl hv
  obtain ⟨moved, hmoved, hplace, hframe'', hnew, hgone⟩ := rename_eq_ok hv.linkless hrename
  have hkept := hframe.trans hframe'
  rw [hitem'] at hmoved
  cases hmoved
  rw [hkept.items _ hne.symm] at hplace
  have hsaved : Saved directory (placeOf temporary) (placeOf path) contents root x :=
    ⟨⟨made, hmade, hfree, hplace, (hkept.mono fun _ => Or.inl).trans hframe''⟩, hnew, hgone hne⟩
  cases answer with
  | ok a => exact ⟨Or.inr hsaved, hsaved⟩
  | error fault => exact Or.inr hsaved

/-- What saving a file keeps to at every moment. -/
theorem guards_save (hroot : root.Linkless) {path : Path} (hname : path.fileName? = some name)
    (hparent : path.parent? = some directory) (hentry : IsEntry path directory name) :
    Guards (fun t => Pending directory (placeOf directory ++ [temporaryName name]) root t ∨
        Saved directory (placeOf directory ++ [temporaryName name]) (placeOf path) contents root t)
      (fun _ t =>
        Saved directory (placeOf directory ++ [temporaryName name]) (placeOf path) contents root t)
      (save path contents) root := by
  have htemporary := placeOf_join_name (p := directory) (isName_temporaryName hentry.isName.slash)
  have hne : placeOf (directory.join ⟨temporaryName name⟩) ≠ placeOf path := by
    rw [htemporary, hentry.place]
    intro h
    exact temporaryName_ne name (List.cons.inj (List.append_cancel_left h)).1
  rw [← htemporary]
  unfold save
  rw [hname, hparent]
  have hmake := guards_makeDirectories hroot directory
  refine guards_bind (hmake.mono (fun u hu => ?_) fun _ u hu => ?_)
  · exact Or.inl ⟨hu.linkless hroot, u, hu, .refl _ _⟩
  · exact guards_rename hu.1 (hu.1.linkless hroot) hne

end

/-! ## Whole or not at all -/

/-- A directory on the way of a path, where nothing was. -/
def Added (p : Path) (root t : FileTree) (place : Location) : Prop :=
  OnWay p place ∧ root.item? place = none ∧ t.item? place = some .directory

theorem Made.item? (h : Made p root t) (place : Location) :
    t.item? place = root.item? place ∨ Added p root t place := by
  by_cases hplace : OnWay p place ∧ root.item? place = none
  · exact (h.items place).imp_right fun hitem => ⟨hplace.1, hplace.2, hitem⟩
  · exact Or.inl (h.frame.items place hplace)

/-- While a file is saved its place holds what it held, or the whole new contents. Elsewhere, its
temporary apart, everything stays. Directories on the way to the file are added where nothing was,
which may be the place of the file. -/
structure Whole (directory : Path) (temporary place : Location) (contents : ByteArray)
    (root t : FileTree) : Prop where
  target : t.item? place = root.item? place ∨ t.item? place = some (.file contents) ∨
    Added directory root t place
  others : ∀ other, other ≠ place → other ≠ temporary →
    t.item? other = root.item? other ∨ Added directory root t other

section
variable {directory : Path} {temporary place : Location} {contents : ByteArray}

theorem Added.congr {made : FileTree} {other : Location} (h : Added p root made other)
    (hitem : t.item? other = made.item? other) : Added p root t other :=
  ⟨h.1, h.2.1, hitem.trans h.2.2⟩

theorem Pending.whole (h : Pending directory temporary root t) (hne : place ≠ temporary) :
    Whole directory temporary place contents root t := by
  obtain ⟨made, hmade, hframe⟩ := h.made
  have hother (other : Location) (ht : other ≠ temporary) :
      t.item? other = root.item? other ∨ Added directory root t other := by
    have hitem := hframe.items other ht
    exact (hmade.item? other).imp (fun h => hitem.trans h) fun h => h.congr hitem
  exact ⟨(hother place hne).imp_right Or.inr, fun other _ ht => hother other ht⟩

theorem Saved.whole (h : Saved directory temporary place contents root t) :
    Whole directory temporary place contents root t := by
  obtain ⟨made, hmade, -, -, hframe⟩ := h.made
  refine ⟨Or.inr (Or.inl h.item), fun other hp ht => ?_⟩
  have hitem := hframe.items other fun h => h.elim ht hp
  exact (hmade.item? other).imp (fun h => hitem.trans h) fun h => h.congr hitem

end

/-- Whatever fails while a file is saved, and wherever it is interrupted, the file is there as it
was or whole. If saving succeeds, the file has the contents and its temporary is gone. A path
without a file name is refused, and nothing changes. -/
theorem save_all_or_nothing (hroot : root.Linkless) (path : Path) (contents : ByteArray) :
    Reaches (save path contents) root (.ofResult (run (save path contents) root).1)
      (run (save path contents) root).2 ∧
    (path.fileName? = none → ∀ s t, Reaches (save path contents) root s t →
      s = .fail (.invalidPath path) ∧ t = root) ∧
    ∀ name, path.fileName? = some name → ∃ directory, path.parent? = some directory ∧
      placeOf path = placeOf directory ++ [name] ∧
      ∀ s t, Reaches (save path contents) root s t →
        Whole directory (placeOf directory ++ [temporaryName name]) (placeOf path) contents root t ∧
        (s = .done () → t.item? (placeOf path) = some (.file contents) ∧
          t.item? (placeOf directory ++ [temporaryName name]) = none) := by
  refine ⟨reaches_run _ _, fun hname s t hreach => ?_, fun name hname => ?_⟩
  · rw [save_of_nameless hname] at hreach
    cases hreach
    exact ⟨rfl, rfl⟩
  · obtain ⟨directory, hparent, hentry⟩ := isEntry_of_fileName hname
    refine ⟨directory, hparent, hentry.place, fun s t hreach => ?_⟩
    have hguards := (guards_save hroot hname hparent hentry).of_reaches hreach
    have hne : placeOf path ≠ placeOf directory ++ [temporaryName name] := by
      rw [hentry.place]
      intro h
      exact temporaryName_ne name (List.cons.inj (List.append_cancel_left h)).1.symm
    refine ⟨hguards.now.elim (fun h => h.whole hne) Saved.whole, fun hdone => ?_⟩
    rw [hdone] at hguards
    exact ⟨hguards.2.item, hguards.2.gone⟩

/-- A file that is replaced. -/
theorem save_all_or_nothing_replaced :
    (directory [("a", .file .empty)]).Linkless ∧
    ∃ outer, (Path.ofString "a").parent? = some outer ∧
      placeOf (.ofString "a") = placeOf outer ++ [("a" : Text)] ∧
      ∀ s t, Reaches (save (.ofString "a") ⟨#[120]⟩) (directory [("a", .file .empty)]) s t →
        Whole outer (placeOf outer ++ [temporaryName "a"]) (placeOf (.ofString "a")) ⟨#[120]⟩
          (directory [("a", .file .empty)]) t ∧
        (s = .done () → t.item? (placeOf (.ofString "a")) = some (.file ⟨#[120]⟩) ∧
          t.item? (placeOf outer ++ [temporaryName "a"]) = none) := by
  have hroot : (directory [("a", .file .empty)]).Linkless :=
    linkless_directory (by simp [linkless_file])
  exact ⟨hroot, (save_all_or_nothing hroot (.ofString "a") ⟨#[120]⟩).2.2 "a" (by decide)⟩

/-- A path that leads through the place of its own file: the directory made there stays. -/
theorem not_save_keeps_place : ¬ ∀ (root : FileTree) (path : Path) (contents : ByteArray)
    (s : Script Unit) (t : FileTree), root.Linkless → path.fileName?.isSome = true →
      Reaches (save path contents) root s t →
      t.item? (placeOf path) = root.item? (placeOf path) ∨
        t.item? (placeOf path) = some (.file contents) := by
  intro h
  have hrun := h .empty (.ofString "a/../a") .empty _ _ (linkless_directory nofun) (by decide)
    (reaches_run _ _)
  have hplace : placeOf (.ofString "a/../a") = [("a" : Text)] := by decide
  have hitem : (run (save (.ofString "a/../a") .empty) .empty).2.item? [("a" : Text)] =
      some .directory := by rfl
  rw [hplace, hitem] at hrun
  rcases hrun with hrun | hrun
  · cases hrun
  · cases hrun

end Playbook.Disk.FileTree
