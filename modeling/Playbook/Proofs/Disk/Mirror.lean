import Playbook.Proofs.Disk.Copies
import Playbook.Proofs.Disk.Saving

/-!
# Copying trees

A tree is copied directory by directory. Whatever is copied later, directories stay, and nothing
changes but below the place of the entry that is copied and at the name of its temporary. So what is
copied stays copied, unless it is a file of that name: the temporary takes its place and is renamed.

Results:
* `copyFile_eq_ok`, `copyDirectory_eq_ok`: what copying one file and one directory leaves.
* `copyEntries_eq_ok`: what is copied of a directory, entry by entry.
* `copyTree_mirrors`: what is at the target afterwards.
* `not_copyTree_mirrors_every_file`: a file that is gone from the copy.
-/
namespace Playbook.Disk.FileTree

open Playbook.Path (IsName)

theorem run_bind_eq_ok {α β : Type} {s : Script β} {f : β → Script α} {root u : FileTree} {a : α}
    (h : run (s >>= f) root = (.ok a, u)) :
    ∃ b t, run s root = (.ok b, t) ∧ run (f b) t = (.ok a, u) := by
  have hbind : run (s >>= f) root = _ := run_bind s f root
  rw [hbind] at h
  rcases hs : run s root with ⟨result, t⟩
  rw [hs] at h
  cases result with
  | ok b => exact ⟨b, t, rfl, h⟩
  | error failure => cases h

theorem run_bind_of_ok {α β : Type} {s : Script β} {f : β → Script α} {root t : FileTree} {b : β}
    (h : run s root = (.ok b, t)) : run (s >>= f) root = run (f b) t := by
  have hbind : run (s >>= f) root = _ := run_bind s f root
  rw [hbind, h]

/-- A request whose fault is the end is granted. -/
theorem run_ask_eq_ok {request : Request} (failure : Fault → Failure) {root t : FileTree}
    {a : request.Answer}
    (h : run (.ask request fun | .ok answer => .done answer | .error fault => .fail (failure fault))
      root = (.ok a, t)) : root.answer request = (.ok a, t) := by
  rw [run] at h
  rcases hanswer : root.answer request with ⟨result, u⟩
  rw [hanswer] at h
  cases result with
  | ok b => cases h; rfl
  | error fault => cases h

/-! ## What stays -/

/-- Directories stay, nothing but some places changes, and no link is made. -/
structure Grows (places : Location → Prop) (t u : FileTree) : Prop where
  linkless : u.Linkless
  directories : ∀ place, t.item? place = some .directory → u.item? place = some .directory
  frame : Frame places t u

namespace Grows

variable {places others : Location → Prop} {t u v : FileTree}

theorem trans (h : Grows places t u) (h' : Grows places u v) : Grows places t v :=
  ⟨h'.linkless, fun place hplace => h'.directories place (h.directories place hplace),
    h.frame.trans h'.frame⟩

theorem mono (h : Grows places t u) (hle : ∀ place, places place → others place) :
    Grows others t u := ⟨h.linkless, h.directories, h.frame.mono hle⟩

end Grows

/-- A file is saved where all directories around it are there. -/
theorem Saved.grows {directory : Path} {temporary place : Location} {contents : ByteArray}
    {t u : FileTree} (h : Saved directory temporary place contents t u) (ht : t.Linkless)
    (hway : ∀ other, OnWay directory other → t.item? other = some .directory) :
    Grows (fun other => other = place ∨ other = temporary) t u ∧
      t.item? temporary ≠ some .directory := by
  obtain ⟨made, hmade, htemporary, hfree, hframe⟩ := h.made
  have hsame : Frame (fun _ => False) t made := by
    refine hmade.frame.mono fun other hadded => ?_
    obtain ⟨hother, hnone⟩ := hadded
    rw [hway other hother] at hnone
    cases hnone
  have hkept : Frame (fun other => other = place ∨ other = temporary) t u :=
    (hsame.mono fun _ h => h.elim).trans (hframe.mono fun _ h => h.symm)
  refine ⟨⟨hkept.linkless ht ?_, fun other hitem => ?_, hkept⟩, ?_⟩
  · rintro _ (rfl | rfl) link
    · rw [h.item]
      exact nofun
    · rw [h.gone]
      exact nofun
  · have hmadeItem : made.item? other = some .directory := by
      rw [hsame.items other id, hitem]
    rw [hframe.items other ?_, hmadeItem]
    rintro (rfl | rfl)
    · exact htemporary hmadeItem
    · exact hfree hmadeItem
  · rw [← hsame.items _ id]
    exact htemporary

/-- Neither place lies in the other. -/
structure Apart (source target : Location) : Prop where
  outside : ¬ source <+: target
  around : ¬ target <+: source

theorem Apart.not_prefix {source target : Location} (h : Apart source target) (a b : Location) :
    ¬ source ++ a <+: target ++ b := by
  intro hprefix
  have hsource : source <+: target ++ b := (List.prefix_append source a).trans hprefix
  rcases List.prefix_or_prefix_of_prefix hsource (List.prefix_append target b) with h' | h'
  · exact h.outside h'
  · exact h.around h'

theorem apart_of_empty {t node : FileTree} {source target : Location}
    (hsource : t.get? source = some node) (htarget : t.get? target = some (directory []))
    (houtside : ¬ source <+: target) : Apart source target := by
  refine ⟨houtside, fun hprefix => ?_⟩
  obtain ⟨rest, rfl⟩ := hprefix
  cases rest with
  | nil => exact houtside (by simp)
  | cons name rest =>
    rw [get?_append, htarget] at hsource
    cases hsource

/-- The directories that a path leads through before its last names. -/
def Around (walked : List Text) (t : FileTree) : Prop :=
  ∀ front, front <+: walked → front ≠ walked → t.item? (resolve [] front) = some .directory

section
variable {change : Path → ByteArray → ByteArray} {source target s : Path} {front : Location}
  {t u : FileTree} {paths : List Path}

/-! ## Files -/

theorem isEntry_join_relative {name : Text} (hnames : ∀ n ∈ front ++ [name], IsName n)
    (target : Path) : ∃ directory,
      (target.join (relative (front ++ [name]))).fileName? = some name ∧
      (target.join (relative (front ++ [name]))).parent? = some directory ∧
      IsEntry (target.join (relative (front ++ [name]))) directory name ∧
      placeOf directory = placeOf target ++ front := by
  have hpath := names_join_relative hnames target
  rw [← List.append_assoc] at hpath
  have hname := fileName?_of_names (hnames name (by simp)) hpath
  obtain ⟨directory, hparent, hentry⟩ := isEntry_of_fileName hname
  refine ⟨directory, hname, hparent, hentry, ?_⟩
  have hplace := hentry.place
  rw [placeOf_join_relative hnames, ← List.append_assoc] at hplace
  exact (List.append_cancel_right hplace).symm

/-- A file is copied through its temporary. -/
theorem copyFile_eq_ok {name : Text} {contents : ByteArray}
    (hnames : ∀ n ∈ front ++ [name], IsName n) (ht : t.Linkless)
    (haround : Around (names target ++ (front ++ [name])) t)
    (hsource : t.get? (placeOf s) = some (.file contents))
    (hrun : run (do
      let contents ← Script.require (.read s)
      save (target.join (relative (front ++ [name]))) (change (relative (front ++ [name])) contents)
      return [relative (front ++ [name])]) t = (.ok paths, u)) :
    Grows (fun place => place = placeOf target ++ (front ++ [name]) ∨
        place = placeOf target ++ front ++ [temporaryName name]) t u ∧
      u.item? (placeOf target ++ (front ++ [name])) =
        some (.file (change (relative (front ++ [name])) contents)) ∧
      t.item? (placeOf target ++ front ++ [temporaryName name]) ≠ some .directory ∧
      u.item? (placeOf target ++ front ++ [temporaryName name]) = none ∧
      paths = [relative (front ++ [name])] := by
  obtain ⟨read, _, hread, hrun⟩ := run_bind_eq_ok hrun
  obtain ⟨_, v, hsave, hrun⟩ := run_bind_eq_ok hrun
  cases hrun
  have hanswer := run_ask_eq_ok .disk hread
  rw [answer, Prod.mk.injEq] at hanswer
  obtain ⟨hanswer, rfl⟩ := hanswer
  have hcontents := read_eq_ok ht hanswer
  rw [hsource] at hcontents
  cases hcontents
  have hpath := names_join_relative hnames target
  obtain ⟨directory, hname, hparent, hentry, hdirectory⟩ := isEntry_join_relative hnames target
  have hsaved := (guards_save ht hname hparent hentry).of_run hsave
  rw [placeOf_join_relative hnames target, hdirectory] at hsaved
  have hway (place : Location) (hplace : OnWay directory place) :
      t.item? place = some .directory := by
    obtain ⟨walked, hwalked, rfl⟩ := hplace
    refine haround walked (hpath ▸ hwalked.trans hentry.names) ?_
    rintro rfl
    rw [← hpath] at hwalked
    exact hentry.ne (hentry.names.eq_of_length_le hwalked.length_le)
  obtain ⟨hgrows, hfree⟩ := hsaved.grows ht hway
  exact ⟨hgrows, hsaved.item, hfree, hsaved.gone, rfl⟩

/-! ## Directories -/

theorem isEmpty_join {p q : Path} (hp : p.isEmpty = false) (hq : q.isAbsolute = false) :
    (p.join q).isEmpty = false := by
  obtain ⟨text⟩ := p
  unfold Path.join
  rw [hq, if_neg Bool.false_ne_true]
  cases text with
  | nil => cases hp
  | cons c text => split <;> rfl

theorem makeDirectories_eq_ok (hnames : ∀ n ∈ front, IsName n) (ht : t.Linkless)
    (haround : Around (names target ++ front) t) (htarget : target.isEmpty = false)
    (hrun : run (makeDirectories (target.join (relative front))) t = (.ok (), u)) :
    Grows (· = placeOf target ++ front) t u ∧
      u.item? (placeOf target ++ front) = some .directory := by
  have hpath := names_join_relative hnames target
  have hplace := placeOf_join_relative hnames target
  obtain ⟨hmade, hitem⟩ := (guards_makeDirectories ht _).of_run hrun
  have hdirectory := hitem (isEmpty_join htarget (isAbsolute_relative hnames))
  rw [hplace] at hdirectory
  refine ⟨⟨hmade.linkless ht, fun place hthere => ?_, hmade.frame.mono fun place hadded => ?_⟩,
    hdirectory⟩
  · rcases hmade.items place with h | h
    · rw [h, hthere]
    · exact h
  · obtain ⟨⟨walked, hwalked, rfl⟩, hnone⟩ := hadded
    rw [hpath] at hwalked
    by_cases hfull : walked = names target ++ front
    · rw [hfull, ← hpath]
      exact hplace
    · rw [haround walked hwalked hfull] at hnone
      cases hnone

/-- The disk before an entry of a directory is copied: the directory is as it was, and its copy is
there, with all that it lies in. -/
structure Ready (source target : Path) (front : Location) (entries : List (Text × FileTree))
    (t : FileTree) : Prop where
  linkless : t.Linkless
  source : t.get? (placeOf source ++ front) = some (.directory entries)
  around : ∀ walked, walked <+: names target ++ front →
    t.item? (resolve [] walked) = some .directory

theorem Ready.grow {entries : List (Text × FileTree)} {places : Location → Prop}
    (h : Ready source target front entries t) (hgrows : Grows places t u)
    (hapart : Apart (placeOf source) (placeOf target))
    (hplaces : ∀ place, places place → placeOf target <+: place) :
    Ready source target front entries u := by
  refine ⟨hgrows.linkless, ?_, fun walked hwalked => hgrows.directories _ (h.around walked hwalked)⟩
  rw [hgrows.frame.trees _ fun place hplace hprefix => ?_, h.source]
  obtain ⟨rest, rfl⟩ := hplaces place hplace
  exact hapart.not_prefix front rest hprefix

/-- When its copy is made, the entries of a directory can be copied. -/
theorem ready_of_made {entries : List (Text × FileTree)}
    (hapart : Apart (placeOf source) (placeOf target)) (hnames : ∀ n ∈ front, IsName n)
    (hsource : t.get? (placeOf source ++ front) = some (.directory entries))
    (haround : Around (names target ++ front) t) (hgrows : Grows (· = placeOf target ++ front) t u)
    (hdirectory : u.item? (placeOf target ++ front) = some .directory) :
    Ready source target front entries u := by
  refine ⟨hgrows.linkless, ?_, fun walked hwalked => ?_⟩
  · rw [hgrows.frame.trees _ ?_, hsource]
    rintro _ rfl
    exact hapart.not_prefix front front
  · by_cases hwhole : walked = names target ++ front
    · rw [hwhole, resolve_append, resolve_isName hnames, ← placeOf, hdirectory]
    · exact hgrows.directories _ (haround walked hwalked hwhole)

section
variable {entries : List (Text × FileTree)} (h : Ready source target front entries t)
include h

theorem Ready.around_name (name : Text) : Around (names target ++ (front ++ [name])) t := by
  intro walked hwalked hne
  rw [← List.append_assoc, List.prefix_concat_iff, List.append_assoc] at hwalked
  exact h.around walked (hwalked.resolve_left hne)

theorem Ready.get?_name {name : Text} {node : FileTree}
    (hfind : OrderedMap.find name entries = some node) :
    t.get? (placeOf source ++ (front ++ [name])) = some node := by
  rw [← List.append_assoc, FileTree.get?_name, h.source]
  exact hfind

theorem Ready.find_ne_link (name : Text) (path : Path) :
    OrderedMap.find name entries ≠ some (.link path) :=
  fun hfind => h.linkless.get?_ne _ path (h.get?_name hfind)

end

/-- What copying an entry of a directory leaves. -/
structure EntryCopied (change : Path → ByteArray → ByteArray) (target : Path) (front : Location)
    (name : Text) (node t u : FileTree) (paths : List Path) : Prop where
  grows : Grows (fun place => placeOf target ++ front ++ [name] <+: place ∨
    (∃ contents, node = .file contents) ∧
      place = placeOf target ++ front ++ [temporaryName name]) t u
  copy : IsCopy change (front ++ [name]) node u (placeOf target ++ front ++ [name])
  temporary : ∀ contents, node = .file contents →
    t.item? (placeOf target ++ front ++ [temporaryName name]) ≠ some .directory ∧
      u.item? (placeOf target ++ front ++ [temporaryName name]) = none
  files : Files (front ++ [name]) node paths

theorem copyFile_entry {name : Text} {contents : ByteArray} {entries : List (Text × FileTree)}
    {depth : Nat} {within : List Path} (hnames : ∀ n ∈ front ++ [name], IsName n)
    (hready : Ready source target front entries t)
    (hs : placeOf s = placeOf source ++ (front ++ [name]))
    (hfind : OrderedMap.find name entries = some (.file contents))
    (hrun : run (copyEntry change target depth within s (relative (front ++ [name])) .file) t =
      (.ok paths, u)) :
    EntryCopied change target front name (.file contents) t u paths := by
  cases depth with
  | zero => cases hrun
  | succ depth =>
    obtain ⟨hgrows, hitem, hfree, hgone, rfl⟩ := copyFile_eq_ok hnames hready.linkless
      (hready.around_name name) (hs ▸ hready.get?_name hfind) hrun
    rw [← List.append_assoc] at hgrows hitem
    refine ⟨hgrows.mono fun place h => ?_, isCopy_file hitem, fun _ _ => ⟨hfree, hgone⟩,
      files_file _ _⟩
    rcases h with rfl | h
    · exact Or.inl List.prefix_rfl
    · exact Or.inr ⟨⟨contents, rfl⟩, h⟩

/-- The entries of a directory are copied one after the other: what is there is a copy of those
before, and of one more at each turn. -/
theorem copyEntries_eq_ok {entries : List (Text × FileTree)} {f : Text × Kind → Script (List Path)}
    (hapart : Apart (placeOf source) (placeOf target)) (hnodup : (entries.map Prod.fst).Nodup)
    (hone : ∀ name node t u paths, OrderedMap.find name entries = some node →
      Ready source target front entries t →
      (∀ n rest, t.item? (placeOf target ++ front ++ [name] ++ n :: rest) = none) →
      run (f (name, node.kind)) t = (.ok paths, u) →
      EntryCopied change target front name node t u paths)
    (before : List (Text × FileTree)) {behind : List (Text × FileTree)}
    (hperm : (before ++ behind).Perm entries)
    (hsorted : (before ++ behind).Pairwise fun a b => Text.le a.1 b.1 = true)
    (hready : Ready source target front entries t)
    (hcopied : IsCopy change front (.directory before) t (placeOf target ++ front))
    (hrun : run (Script.gather f (behind.map shown)) t = (.ok paths, u)) :
    Grows (fun place => placeOf target ++ front <+: place) t u ∧
      IsCopy change front (.directory (before ++ behind)) u (placeOf target ++ front) ∧
      Files front (.directory behind) paths := by
  induction behind generalizing before t paths with
  | nil =>
    cases hrun
    rw [List.append_nil]
    exact ⟨⟨hready.linkless, fun _ h => h, .refl _ _⟩, hcopied, files_nil front⟩
  | cons e behind ih =>
    obtain ⟨name, node⟩ := e
    obtain ⟨first, v, hfirst, hrun⟩ := run_bind_eq_ok hrun
    obtain ⟨others, w, hothers, hrun⟩ := run_bind_eq_ok hrun
    cases hrun
    have hmem {entry : Text × FileTree} (h : entry ∈ before ++ (name, node) :: behind) :
        OrderedMap.find entry.1 entries = some entry.2 :=
      OrderedMap.find_of_mem hnodup (hperm.mem_iff.1 h)
    have hdifferent := (hperm.map Prod.fst).nodup_iff.2 hnodup
    rw [List.map_append, List.map_cons, List.nodup_append, List.nodup_cons] at hdifferent
    have hnew : name ∉ before.map Prod.fst := fun h =>
      hdifferent.2.2 name h name List.mem_cons_self rfl
    have hbefore : ∀ e ∈ before, Text.le e.1 name = true := fun e he =>
      (List.pairwise_append.1 hsorted).2.2 e he _ List.mem_cons_self
    have hlinks (n : Text) (path : Path) : OrderedMap.find n before ≠ some (.link path) :=
      fun hfind => hready.find_ne_link n path
        (hmem (List.mem_append_left _ (OrderedMap.mem_of_find hfind)))
    have hentry := hone name node t v first (hmem (List.mem_append_right _ List.mem_cons_self))
      hready (fun n rest => by
        rw [List.append_assoc]
        exact hcopied.absent hnew (n :: rest)) hfirst
    have hinside (place : Location) (h : placeOf target ++ front ++ [name] <+: place ∨
        (∃ contents, node = .file contents) ∧
          place = placeOf target ++ front ++ [temporaryName name]) :
        placeOf target ++ front <+: place := by
      rcases h with h | ⟨-, rfl⟩
      · exact (List.prefix_append _ _).trans h
      · exact List.prefix_append _ _
    have hcopied' := hcopied.add hnew hbefore hlinks hentry.grows.frame hentry.copy hentry.temporary
    have hready' := hready.grow hentry.grows hapart fun place h =>
      (List.prefix_append _ _).trans (hinside place h)
    have hassoc : before ++ [(name, node)] ++ behind = before ++ (name, node) :: behind := by simp
    obtain ⟨hgrows, hcopy, hfiles⟩ := ih (before ++ [(name, node)]) (by rwa [hassoc])
      (by rwa [hassoc]) hready' hcopied' hothers
    rw [hassoc] at hcopy
    exact ⟨(hentry.grows.mono hinside).trans hgrows, hcopy,
      hentry.files.cons hdifferent.2.1.1 hfiles⟩

/-- A directory is listed and made before its entries are copied in the order of their names. -/
theorem enterDirectory_eq_ok {depth : Nat} {within : List Path} {entries : List (Text × FileTree)}
    (hnames : ∀ n ∈ front, IsName n) (ht : t.Linkless) (htarget : target.isEmpty = false)
    (haround : Around (names target ++ front) t)
    (hsource : t.get? (placeOf s) = some (.directory entries))
    (hrun : run (copyEntry change target (depth + 1) within s (relative front) .directory) t =
      (.ok paths, u)) :
    ∃ (v : FileTree) (sorted : List (Text × FileTree)),
      Grows (· = placeOf target ++ front) t v ∧
      v.item? (placeOf target ++ front) = some .directory ∧ sorted.Perm entries ∧
      (sorted.Pairwise fun a b => Text.le a.1 b.1 = true) ∧
      run (Script.gather (fun e => copyEntry change target depth (s :: within)
        (s.join ⟨e.1⟩) ((relative front).join ⟨e.1⟩) e.2) (sorted.map shown)) v =
        (.ok paths, u) := by
  rw [copyEntry] at hrun
  obtain ⟨kind, _, hkind, hrun⟩ := run_bind_eq_ok hrun
  cases hkind
  simp only [if_true] at hrun
  obtain ⟨listing, _, hlisting, hrest⟩ := run_bind_eq_ok hrun
  have hlists : run (Script.attempt (.list s)) t = (.ok (list t s), t) := rfl
  rw [hlists] at hlisting
  cases hlisting
  obtain ⟨_, v, hmake, hgather⟩ := run_bind_eq_ok hrest
  obtain ⟨hgrows, hdirectory⟩ := makeDirectories_eq_ok hnames ht haround htarget hmake
  cases hlist : list t s with
  | error fault =>
    rw [hlist] at hgather
    cases hgather
  | ok listed =>
    obtain ⟨found, hfound, rfl⟩ := list_eq_ok ht hlist
    rw [hsource] at hfound
    cases hfound
    obtain ⟨sorted, hperm, hmap, hsorted⟩ := exists_sortByName entries
    refine ⟨v, sorted, hgrows, hdirectory, hperm, hsorted, ?_⟩
    rw [hlist] at hgather
    rw [hmap]
    exact hgather

/-- A directory is copied with all that is in it. -/
theorem copyDirectory_eq_ok (hapart : Apart (placeOf source) (placeOf target))
    (htarget : target.isEmpty = false) (depth : Nat) {within : List Path}
    {entries : List (Text × FileTree)} (hnames : ∀ n ∈ front, IsName n) (ht : t.Linkless)
    (hs : placeOf s = placeOf source ++ front)
    (hsource : t.get? (placeOf source ++ front) = some (.directory entries))
    (hproper : (directory entries).Proper) (haround : Around (names target ++ front) t)
    (hbelow : ∀ name rest, t.item? (placeOf target ++ front ++ name :: rest) = none)
    (hrun : run (copyEntry change target depth within s (relative front) .directory) t =
      (.ok paths, u)) :
    Grows (fun place => placeOf target ++ front <+: place) t u ∧
      IsCopy change front (.directory entries) u (placeOf target ++ front) ∧
      Files front (.directory entries) paths := by
  induction depth generalizing within s front entries t u paths with
  | zero => cases hrun
  | succ depth ih =>
    obtain ⟨v, sorted, hgrows, hdirectory, hperm, hsorted, hrun⟩ :=
      enterDirectory_eq_ok hnames ht htarget haround (hs ▸ hsource) hrun
    have hready := ready_of_made hapart hnames hsource haround hgrows hdirectory
    have hempty : IsCopy change front (.directory []) v (placeOf target ++ front) := by
      refine isCopy_nil hdirectory fun name rest => ?_
      rw [hgrows.frame.items _ (by simp), hbelow]
    have hentries := hproper [] entries rfl
    have hone (name : Text) (node t u : FileTree) (paths : List Path)
        (hfind : OrderedMap.find name entries = some node)
        (hready : Ready source target front entries t)
        (hbelow : ∀ n rest, t.item? (placeOf target ++ front ++ [name] ++ n :: rest) = none)
        (hrun : run (copyEntry change target depth (s :: within) (s.join ⟨name⟩)
          ((relative front).join ⟨name⟩) node.kind) t = (.ok paths, u)) :
        EntryCopied change target front name node t u paths := by
      have hname : IsName name := hentries.2 _ (OrderedMap.mem_of_find hfind)
      have hnames' : ∀ n ∈ front ++ [name], IsName n := by
        rw [List.forall_mem_append, List.forall_mem_singleton]
        exact ⟨hnames, hname⟩
      have hplace : placeOf (s.join ⟨name⟩) = placeOf source ++ (front ++ [name]) := by
        rw [placeOf_join_name hname, hs, List.append_assoc]
      rw [← relative_concat] at hrun
      -- a directory is copied in the same way, one level down
      cases node with
      | file contents => exact copyFile_entry hnames' hready hplace hfind hrun
      | link path => exact absurd hfind (hready.find_ne_link name path)
      | directory found =>
        rw [List.append_assoc] at hbelow
        obtain ⟨hgrows, hcopy, hfiles⟩ := ih hnames' hready.linkless hplace
          (hready.get?_name hfind) (hproper.child hfind) (hready.around_name name) hbelow hrun
        rw [← List.append_assoc] at hgrows hcopy
        exact ⟨hgrows.mono fun _ => Or.inl, hcopy, nofun, hfiles⟩
    obtain ⟨hgrows', hcopy, hfiles⟩ := copyEntries_eq_ok hapart hentries.1 hone [] hperm
      hsorted hready hempty hrun
    have hfind := OrderedMap.find_perm hperm ((hperm.map Prod.fst).nodup_iff.2 hentries.1)
    exact ⟨(hgrows.mono fun place h => h ▸ List.prefix_rfl).trans hgrows', hcopy.congr hfind,
      hfiles.congr hfind⟩

/-! ## Trees -/

theorem around_of_list {root : FileTree} {entries : List (Text × Kind)} (hroot : root.Linkless)
    (h : list root target = .ok entries) :
    target.isEmpty = false ∧ Around (names target ++ []) root := by
  obtain ⟨trail, hlocate, -⟩ := bind_eq_ok h
  refine ⟨?_, fun walked hwalked hne => ?_⟩
  · obtain ⟨_, hcheck, -⟩ := bind_eq_ok hlocate
    unfold check at hcheck
    split at hcheck
    · cases hcheck
    · split at hcheck
      · cases hcheck
      · rename_i hempty
        rwa [Bool.not_eq_true] at hempty
  · rw [List.append_nil] at hwalked hne
    exact directory_of_locate hroot hlocate hwalked hne

/-- A tree is copied into an empty directory outside of it. Directories are where they were, each
file has its changed contents, and nothing else is there; but a file is gone if it has the name of
the temporary for a file that is copied later. All files are counted, and the rest of the disk stays
as it was. -/
theorem copyTree_mirrors {root : FileTree} {entries : List (Text × FileTree)} {copied : List Path}
    (hroot : root.Linkless) (hsource : root.get? (placeOf source) = some (.directory entries))
    (hproper : (directory entries).Proper) (htarget : list root target = .ok [])
    (houtside : ¬ placeOf source <+: placeOf target)
    (hrun : run (copyTree change source target) root = (.ok copied, t)) :
    t.get? (placeOf source) = some (.directory entries) ∧
      (∀ place, ¬ placeOf target <+: place → t.item? place = root.item? place) ∧
      Files [] (.directory entries) copied ∧
      IsCopy change [] (.directory entries) t (placeOf target) ∧
      ((∀ rest, t.item? (placeOf target ++ rest) =
        ((directory entries).item? rest).map (Item.changed (change (relative rest)))) ↔
        ∀ rest, ¬ (directory entries).LostAt rest) := by
  obtain ⟨htargetName, haround⟩ := around_of_list hroot htarget
  obtain ⟨found, hempty, hnil⟩ := list_eq_ok hroot htarget
  obtain rfl : found = [] := List.map_eq_nil_iff.1 hnil.symm
  have hapart := apart_of_empty hsource hempty houtside
  obtain ⟨k, u, hkind, hcopy⟩ := run_bind_eq_ok hrun
  have hanswer := run_ask_eq_ok (fun fault => .walk (.refused source fault)) hkind
  rw [answer, Prod.mk.injEq] at hanswer
  obtain ⟨hanswer, rfl⟩ := hanswer
  have hdirectory := kindOf_eq_ok hroot hanswer
  rw [hsource] at hdirectory
  cases hdirectory
  have hbelow (name : Text) (rest : Location) :
      root.item? (placeOf target ++ [] ++ name :: rest) = none := by
    rw [List.append_nil, item?, get?_append, hempty]
    rfl
  obtain ⟨hgrows, hmirror, hfiles⟩ := copyDirectory_eq_ok hapart htargetName maxDepth
    (List.forall_mem_nil _) hroot (List.append_nil _).symm
    (by rwa [List.append_nil]) hproper haround hbelow hcopy
  rw [List.append_nil] at hgrows hmirror
  refine ⟨?_, fun place hplace => hgrows.frame.items place hplace, hfiles, hmirror,
    hmirror.exact_iff⟩
  rw [hgrows.frame.trees _ fun place hplace hprefix => ?_, hsource]
  obtain ⟨rest, rfl⟩ := hplace
  exact hapart.not_prefix [] rest (by rwa [List.append_nil])

end

/-- A disk with a tree and an empty directory. -/
def beside (entries : List (Text × FileTree)) : FileTree :=
  directory [("s", directory entries), ("t", directory [])]

theorem linkless_beside {entries : List (Text × FileTree)} (h : ∀ e ∈ entries, e.2.Linkless) :
    (beside entries).Linkless := by
  refine linkless_directory ?_
  rw [List.forall_mem_cons, List.forall_mem_singleton]
  exact ⟨linkless_directory h, linkless_directory nofun⟩

theorem run_gather_cons {α β : Type} {f : α → Script (List β)} {a : α} {rest : List α}
    {root t u : FileTree} (first others : List β) (h : run (f a) root = (.ok first, t))
    (h' : run (Script.gather f rest) t = (.ok others, u)) :
    run (Script.gather f (a :: rest)) root = (.ok (first ++ others), u) := by
  rw [Script.gather, run_bind_of_ok h, run_bind_of_ok h']
  rfl

/-- A directory whose entries are listed in the order of their names. -/
theorem run_copyEntry_directory {change : Path → ByteArray → ByteArray} {target s r : Path}
    {depth : Nat} {within : List Path} {t u : FileTree} {listed : List (Text × Kind)}
    (hlist : list t s = .ok listed) (hmake : run (makeDirectories (target.join r)) t = (.ok (), u))
    (hsorted : listed.Pairwise fun a b => Text.le a.1 b.1 = true) :
    run (copyEntry change target (depth + 1) within s r .directory) t =
      run (Script.gather (fun e => copyEntry change target depth (s :: within) (s.join ⟨e.1⟩)
        (r.join ⟨e.1⟩) e.2) listed) u := by
  rw [copyEntry]
  have hlisting : run (Script.attempt (.list s)) t = (.ok (.ok listed), t) := by
    rw [← hlist]
    rfl
  refine (run_bind_of_ok (show run (pure Kind.directory) t = (.ok .directory, t) from rfl)).trans ?_
  simp only [if_true]
  rw [run_bind_of_ok hlisting, run_bind_of_ok hmake]
  simp only [sortByName_of_sorted hsorted]

/-- A file and an empty directory are copied. -/
theorem copyTree_mirrors_beside :
    let entries : List (Text × FileTree) := [("a", .file .empty), ("b", .directory [])]
    let mark (_ : Path) (contents : ByteArray) := contents.push 120
    (beside entries).Linkless ∧ (directory entries).Proper ∧
      list (beside entries) (.ofString "t") = .ok [] ∧
      ∃ t, run (copyTree mark (.ofString "s") (.ofString "t")) (beside entries) =
          (.ok [.ofString "a"], t) ∧
        Files [] (.directory entries) [.ofString "a"] ∧
        IsCopy mark [] (.directory entries) t (placeOf (.ofString "t")) := by
  obtain ⟨t, hrun⟩ : ∃ t, run (copyTree (fun _ contents => contents.push 120) (.ofString "s")
      (.ofString "t")) (beside [("a", .file .empty), ("b", .directory [])]) =
      (.ok [.ofString "a"], t) := by
    apply Exists.intro
    apply (run_copyEntry_directory rfl rfl (by decide)).trans
    apply run_gather_cons [Path.ofString "a"] [] rfl
    apply run_gather_cons [] []
    · exact (run_copyEntry_directory rfl rfl List.Pairwise.nil).trans rfl
    · rfl
  intro entries mark
  have hroot : (beside entries).Linkless := linkless_beside
    (by simp [entries, linkless_file, linkless_directory])
  have hproper : (directory entries).Proper := by
    refine proper_directory (by decide) ?_
    rw [List.forall_mem_cons, List.forall_mem_singleton]
    exact ⟨⟨by decide, proper_file _⟩, by decide, proper_directory List.nodup_nil nofun⟩
  have htarget : list (beside entries) (.ofString "t") = .ok [] := rfl
  obtain ⟨-, -, hfiles, hcopy, -⟩ :=
    copyTree_mirrors hroot rfl hproper htarget (by decide) hrun
  exact ⟨hroot, hproper, htarget, t, hrun, hfiles, hcopy⟩

/-- A file that is gone from the copy: it has the name of the temporary for a file behind it. -/
theorem not_copyTree_mirrors_every_file : ¬ ∀ (change : Path → ByteArray → ByteArray)
    (source target : Path) (entries : List (Text × FileTree)) (root t : FileTree)
    (copied : List Path), root.Linkless → root.get? (placeOf source) = some (.directory entries) →
      (directory entries).Proper → list root target = .ok [] →
      ¬ placeOf source <+: placeOf target →
      run (copyTree change source target) root = (.ok copied, t) →
      ∀ rest, t.item? (placeOf target ++ rest) =
        ((directory entries).item? rest).map (Item.changed (change (relative rest))) := by
  intro h
  have hproper : (directory [(".a.tmp", .file .empty), ("a", .file .empty)]).Proper := by
    refine proper_directory (by decide) ?_
    rw [List.forall_mem_cons, List.forall_mem_singleton]
    exact ⟨⟨by decide, proper_file _⟩, by decide, proper_file _⟩
  have hrest := h (fun _ contents => contents) (.ofString "s") (.ofString "t") _ (beside _) _
    [.ofString ".a.tmp", .ofString "a"] (linkless_beside (by simp [linkless_file])) rfl hproper rfl
    (by decide) ((run_copyEntry_directory rfl rfl (by decide)).trans rfl) [(".a.tmp" : Text)]
  cases hrest

end Playbook.Disk.FileTree
