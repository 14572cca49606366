import Playbook.Proofs.Disk.Mirror

/-!
# What scripts write

A script that saves files and makes directories changes two kinds of places: those in a region of
its own, whatever they hold, and those on the ways to it, where it adds directories and nothing was
before. A file outside of the region stays, also on a way. So of several documents that are saved
one after the other each is there in the end, unless a later one has its place.

Results:
* `Writes.trans`, `Writes.item?_eq`, `Writes.get?_eq`: what is written in a row, and what stays.
* `writes_save`, `writes_makeDirectories`, `writes_copyTree`: what the scripts write.
* `Wrote.append`: documents that are saved behind others.
* `wrote_each`: of documents that are saved in a row the last at each place is there.
-/
namespace Playbook.Disk.FileTree

open Playbook.Path (IsName)

/-! ## Names of places -/

theorem mem_names {p : Path} {name : Text} (h : name ∈ names p) : name ≠ [] ∧ '/' ∉ name := by
  obtain ⟨hfield, hne⟩ := List.mem_filter.1 h
  exact ⟨by simpa using hne, Text.not_mem_of_mem_fields hfield⟩

/-- Walking names, dots and two dots leads to a place with names of entries. -/
theorem isName_of_mem_resolve {walked : List Text} (h : ∀ name ∈ walked, name ≠ [] ∧ '/' ∉ name)
    {place : Location} (hplace : ∀ name ∈ place, IsName name) :
    ∀ name ∈ resolve place walked, IsName name := by
  induction walked generalizing place with
  | nil => exact hplace
  | cons first walked ih =>
    rw [List.forall_mem_cons] at h
    rw [resolve]
    split
    · exact ih h.2 hplace
    · rename_i hdot
      split
      · exact ih h.2 fun name hname => hplace name (List.dropLast_subset _ hname)
      · rename_i hdots
        refine ih h.2 ?_
        rw [List.forall_mem_append, List.forall_mem_singleton]
        exact ⟨hplace, h.1.1, h.1.2, hdot, hdots⟩

theorem OnWay.isName {p : Path} {place : Location} (h : OnWay p place) :
    ∀ name ∈ place, IsName name := by
  obtain ⟨front, hfront, rfl⟩ := h
  exact isName_of_mem_resolve (fun name hname => mem_names (hfront.subset hname))
    (List.forall_mem_nil _)

/-- A disk without links on which all entries have names of entries. -/
structure Plain (t : FileTree) : Prop where
  linkless : t.Linkless
  named : ∀ place, t.item? place ≠ none → ∀ name ∈ place, IsName name

theorem Proper.plain {t : FileTree} (h : t.Proper) (hlinkless : t.Linkless) : t.Plain := by
  refine ⟨hlinkless, fun place hplace => ?_⟩
  induction place using List.reverseRecOn with
  | nil => exact List.forall_mem_nil _
  | append_singleton place name ih =>
    -- what has an entry is a directory
    cases hget : t.get? place with
    | none =>
      rw [item?, get?_name, hget] at hplace
      exact absurd rfl hplace
    | some node =>
      cases node with
      | file | link =>
        rw [item?, get?_name, hget] at hplace
        exact absurd rfl hplace
      | directory entries =>
        rw [item?, get?_name, hget, Option.bind_some, child?, Ne, Option.map_eq_none_iff] at hplace
        obtain ⟨found, hfind⟩ := Option.ne_none_iff_exists'.1 hplace
        rw [List.forall_mem_append, List.forall_mem_singleton]
        exact ⟨ih (by rw [item?, hget]; exact Option.some_ne_none _),
          (h place entries hget).2 _ (OrderedMap.mem_of_find hfind)⟩

/-! ## Regions and ways -/

section
variable {region ways region' ways' : Location → Prop} {t u v : FileTree}

/-- A place in the region, or on the ways where nothing is. -/
def Changes (region ways : Location → Prop) (t : FileTree) (place : Location) : Prop :=
  region place ∨ ways place ∧ t.item? place = none

/-- Nothing changes but in the region, and on the ways where nothing was. -/
structure Writes (region ways : Location → Prop) (t u : FileTree) : Prop where
  plain : u.Plain
  frame : Frame (Changes region ways t) t u

namespace Writes

theorem refl (ht : t.Plain) : Writes region ways t t := ⟨ht, .refl _ _⟩

/-- What is outside of the region and not empty stays. -/
theorem item?_eq (h : Writes region ways t u) {place : Location} (hregion : ¬ region place)
    (hthere : t.item? place ≠ none) : u.item? place = t.item? place :=
  h.frame.items place fun hchanges => hchanges.elim hregion fun hway => hthere hway.2

/-- A tree that nothing is written into stays. -/
theorem get?_eq (h : Writes region ways t u) {loc : Location}
    (hspared : ∀ place, region place ∨ ways place → ¬ loc <+: place) : u.get? loc = t.get? loc :=
  h.frame.trees loc fun place hchanges => hspared place (hchanges.imp_right And.left)

theorem mono (h : Writes region ways t u) (hregion : ∀ place, region place → region' place)
    (hways : ∀ place, ways place → region' place ∨ ways' place) : Writes region' ways' t u := by
  refine ⟨h.plain, h.frame.mono fun place hchanges => ?_⟩
  rcases hchanges with hplace | ⟨hplace, hnone⟩
  · exact Or.inl (hregion place hplace)
  · exact (hways place hplace).imp_right fun hway => ⟨hway, hnone⟩

theorem trans (h : Writes region ways t u) (h' : Writes region ways u v) :
    Writes region ways t v := by
  have hlater {place : Location} (hchanges : Changes region ways u place) :
      Changes region ways t place := by
    rcases hchanges with hplace | ⟨hway, hnone⟩
    · exact Or.inl hplace
    · by_cases hregion : region place
      · exact Or.inl hregion
      · refine Or.inr ⟨hway, by_contra fun hthere => ?_⟩
        rw [h.item?_eq hregion hthere] at hnone
        exact hthere hnone
  exact ⟨h'.plain, h.frame.trans (h'.frame.mono fun _ => hlater)⟩

end Writes

theorem Frame.plain {places : Location → Prop} (h : Frame places t u) (ht : t.Plain)
    (hlinks : ∀ place, places place → ∀ target, u.item? place ≠ some (.link target))
    (hnames : ∀ place, places place → ∀ name ∈ place, IsName name) : u.Plain := by
  refine ⟨h.linkless ht.linkless hlinks, fun place hthere => ?_⟩
  by_cases hplace : places place
  · exact hnames place hplace
  · rw [h.items place hplace] at hthere
    exact ht.named place hthere

end

/-! ## Directories and files -/

section
variable {p q : Path} {t u : FileTree} {contents : ByteArray}

theorem Made.writes (h : Made p t u) (ht : t.Plain) : Writes (fun _ => False) (OnWay p) t u := by
  refine ⟨h.frame.plain ht (fun place hplace target hlink => ?_) fun place hplace =>
    hplace.1.isName, h.frame.mono fun _ => Or.inr⟩
  rcases h.items place with hitem | hitem
  · rw [hitem, hplace.2] at hlink
    cases hlink
  · rw [hitem] at hlink
    cases hlink

theorem writes_makeDirectories (ht : t.Plain) (hrun : run (makeDirectories p) t = (.ok (), u)) :
    Writes (fun _ => False) (OnWay p) t u :=
  ((guards_makeDirectories ht.linkless p).of_run hrun).1.writes ht

/-- The place of a file, and that of its temporary. -/
def Beside (p : Path) (place : Location) : Prop :=
  place = placeOf p ∨ ∃ outer name, placeOf p = outer ++ [name] ∧
    place = outer ++ [temporaryName name]

/-- Saving a file changes its place and that of its temporary. -/
theorem writes_save (ht : t.Plain) (hrun : run (save p contents) t = (.ok (), u)) :
    Writes (Beside p) (OnWay p) t u ∧ u.item? (placeOf p) = some (.file contents) := by
  cases hname : p.fileName? with
  | none =>
    rw [save_of_nameless hname] at hrun
    cases hrun
  | some name =>
    obtain ⟨directory, hparent, hentry⟩ := isEntry_of_fileName hname
    have hsaved := (guards_save ht.linkless hname hparent hentry).of_run hrun
    obtain ⟨made, hmade, -, -, hframe⟩ := hsaved.made
    have hways := hmade.writes ht
    refine ⟨⟨?_, ?_⟩, hsaved.item⟩
    · refine hframe.plain hways.plain ?_ ?_
      · rintro place (rfl | rfl) target
        · rw [hsaved.gone]
          exact nofun
        · rw [hsaved.item]
          exact nofun
      · rintro place (rfl | rfl)
        · rw [List.forall_mem_append, List.forall_mem_singleton]
          exact ⟨(onWay_placeOf directory).isName, isName_temporaryName hentry.isName.slash⟩
        · exact (onWay_placeOf p).isName
    · refine (hmade.frame.mono fun place hadded => ?_).trans (hframe.mono fun place hplace => ?_)
      · exact Or.inr ⟨hadded.1.of_parent hparent, hadded.2⟩
      · refine Or.inl (hplace.symm.imp_right fun htemporary => ?_)
        exact ⟨placeOf directory, name, hentry.place, htemporary⟩

end

/-! ## Trees -/

/-- Scripts in a row write what each of them writes. -/
theorem writes_gather {α β : Type} {region ways : Location → Prop} {f : α → Script (List β)}
    {items : List α} {results : List β} {t u : FileTree} (ht : t.Plain)
    (h : ∀ a ∈ items, ∀ t u first, t.Plain → run (f a) t = (.ok first, u) → Writes region ways t u)
    (hrun : run (Script.gather f items) t = (.ok results, u)) : Writes region ways t u := by
  induction items generalizing t results with
  | nil =>
    cases hrun
    exact .refl ht
  | cons a rest ih =>
    obtain ⟨first, v, hfirst, hrun⟩ := run_bind_eq_ok hrun
    obtain ⟨others, w, hothers, hrun⟩ := run_bind_eq_ok hrun
    cases hrun
    rw [List.forall_mem_cons] at h
    have hwrites := h.1 t v first ht hfirst
    exact hwrites.trans (ih hwrites.plain h.2 hothers)

theorem run_placeOf_eq_ok {p : Path} {place : Text} {t u : FileTree}
    (h : run (Disk.placeOf p) t = (.ok place, u)) : u = t := by
  rw [Disk.placeOf, run] at h
  split at h
  · cases h
    rfl
  · cases h

theorem run_firstAt_eq_ok {within : List Path} {place : Text} {found : Option Path}
    {t u : FileTree} (h : run (firstAt place within) t = (.ok found, u)) : u = t := by
  induction within generalizing t with
  | nil =>
    cases h
    rfl
  | cons path rest ih =>
    obtain ⟨here, v, hhere, hrest⟩ := run_bind_eq_ok h
    obtain rfl := run_placeOf_eq_ok hhere
    split at hrest
    · cases hrest
      rfl
    · exact ih hrest

/-- Looking where a link leads changes nothing. -/
theorem run_follow_eq_ok {within : List Path} {p : Path} {kind : Kind} {t u : FileTree}
    (h : run (follow within p) t = (.ok kind, u)) : u = t := by
  obtain ⟨found, v, hkind, hfound⟩ := run_bind_eq_ok h
  have hanswer := run_ask_eq_ok (fun fault => .walk (.refused p fault)) hkind
  obtain rfl : t = v := congrArg Prod.snd hanswer
  split at hfound
  · obtain ⟨place, v, hhere, hplace⟩ := run_bind_eq_ok hfound
    obtain rfl := run_placeOf_eq_ok hhere
    obtain ⟨ancestor, w, hwithin, hend⟩ := run_bind_eq_ok hplace
    obtain rfl := run_firstAt_eq_ok hwithin
    split at hend
    · cases hend
    · cases hend
      rfl
  · cases hfound
    rfl

section
variable {change : Path → ByteArray → ByteArray} {source target s : Path} {front : Location}
  {t u : FileTree} {paths : List Path}

/-- A path below a target leads on the way to it, or into it. -/
theorem onWay_of_names {p : Path} {rest : List Text} (hnames : names p = names target ++ rest)
    (hrest : ∀ front, front <+: rest → placeOf target <+: resolve (placeOf target) front)
    {place : Location} (h : OnWay p place) : placeOf target <+: place ∨ OnWay target place := by
  obtain ⟨walked, hwalked, rfl⟩ := h
  rw [hnames] at hwalked
  rcases List.prefix_or_prefix_of_prefix hwalked (List.prefix_append (names target) rest)
    with hshort | ⟨behind, rfl⟩
  · exact Or.inr ⟨walked, hshort, rfl⟩
  · rw [resolve_append]
    exact Or.inl (hrest behind ((List.prefix_append_right_inj _).1 hwalked))

theorem prefix_resolve_isName {rest : List Text} (h : ∀ name ∈ rest, IsName name)
    (place : Location) : ∀ front, front <+: rest → place <+: resolve place front := by
  intro front hfront
  rw [resolve_isName fun name hname => h name (hfront.subset hname)]
  exact List.prefix_append _ _

theorem Beside.prefix {p : Path} {directory outer place : Location} {name : Text}
    (h : Beside p place) (hplace : placeOf p = outer ++ [name]) (houter : directory <+: outer) :
    directory <+: place := by
  rcases h with rfl | ⟨outer', last, hlast, rfl⟩
  · rw [hplace]
    exact houter.trans (List.prefix_append _ _)
  · rw [hplace] at hlast
    rw [← (List.append_inj' hlast rfl).1]
    exact houter.trans (List.prefix_append _ _)

theorem onWay_join_relative (hnames : ∀ n ∈ front, IsName n) {place : Location}
    (h : OnWay (target.join (relative front)) place) :
    placeOf target <+: place ∨ OnWay target place :=
  onWay_of_names (names_join_relative hnames target) (prefix_resolve_isName hnames _) h

theorem beside_join_relative {name : Text} (hnames : ∀ n ∈ front ++ [name], IsName n)
    {place : Location} (h : Beside (target.join (relative (front ++ [name]))) place) :
    placeOf target <+: place := by
  have hplace := placeOf_join_relative hnames target
  rw [← List.append_assoc] at hplace
  exact h.prefix hplace (List.prefix_append _ _)

theorem isName_of_list (ht : t.Plain) {listed : List (Text × Kind)} (h : list t s = .ok listed) :
    ∀ e ∈ sortByName listed, IsName e.1 := by
  obtain ⟨entries, hentries, rfl⟩ := list_eq_ok ht.linkless h
  intro e he
  obtain ⟨entry, hentry, rfl⟩ := List.mem_map.1 (List.mem_mergeSort.1 he)
  refine ht.named (placeOf s ++ [entry.1]) ?_ entry.1 (by simp)
  rw [item?, get?_name, hentries, Option.bind_some, child?, Ne, Option.map_eq_none_iff,
    OrderedMap.find_eq_none_iff, not_not]
  exact List.mem_map_of_mem hentry

/-- What an entry leads to is copied: a directory with its entries, or a file. -/
theorem writes_found {copy : Text × Kind → Script (List Path)} {found : Kind}
    (hnames : ∀ n ∈ front, IsName n) (hfound : front = [] → found = .directory) (ht : t.Plain)
    (hcopy : ∀ e, IsName e.1 → ∀ v w first, v.Plain → run (copy e) v = (.ok first, w) →
      Writes (placeOf target <+: ·) (OnWay target) v w)
    (hrun : run (if found = .directory then do
        let listing ← Script.attempt (.list s)
        makeDirectories (target.join (relative front))
        match listing with
        | .error fault => .fail (.walk (.refused s fault))
        | .ok entries => Script.gather copy (sortByName entries)
      else do
        let contents ← Script.require (.read s)
        save (target.join (relative front)) (change (relative front) contents)
        return [relative front]) t = (.ok paths, u)) :
    Writes (placeOf target <+: ·) (OnWay target) t u := by
  split at hrun
  · obtain ⟨listing, v, hlisting, hrun⟩ := run_bind_eq_ok hrun
    have hlists : run (Script.attempt (.list s)) t = (.ok (list t s), t) := rfl
    rw [hlists] at hlisting
    cases hlisting
    obtain ⟨_, v, hmake, hrun⟩ := run_bind_eq_ok hrun
    have hmade := (writes_makeDirectories ht hmake).mono (fun _ h => h.elim)
      fun place => onWay_join_relative hnames
    cases hlist : list t s with
    | error fault =>
      rw [hlist] at hrun
      cases hrun
    | ok listed =>
      rw [hlist] at hrun
      exact hmade.trans (writes_gather hmade.plain
        (fun e he => hcopy e (isName_of_list ht hlist e he)) hrun)
  · rename_i hfile
    obtain ⟨contents, v, hread, hrun⟩ := run_bind_eq_ok hrun
    obtain ⟨_, w, hsave, hrun⟩ := run_bind_eq_ok hrun
    cases hrun
    obtain rfl : t = v := congrArg Prod.snd (run_ask_eq_ok .disk hread)
    -- a file is below the target, and its temporary is beside it
    rcases List.eq_nil_or_concat front with rfl | ⟨outer, name, rfl⟩
    · exact absurd (hfound rfl) hfile
    · rw [List.concat_eq_append] at hnames hsave
      exact (writes_save ht hsave).1.mono (fun place => beside_join_relative hnames)
        fun place => onWay_join_relative hnames

theorem writes_copyEntry (depth : Nat) {within : List Path} {kind : Kind}
    (hnames : ∀ n ∈ front, IsName n) (hkind : front = [] → kind = .directory) (ht : t.Plain)
    (hrun : run (copyEntry change target depth within s (relative front) kind) t = (.ok paths, u)) :
    Writes (placeOf target <+: ·) (OnWay target) t u := by
  induction depth generalizing within s front kind t u paths with
  | zero => cases hrun
  | succ depth ih =>
    have hcopy (e : Text × Kind) (hname : IsName e.1) (v w : FileTree) (first : List Path)
        (hv : v.Plain) (hentry : run (copyEntry change target depth (s :: within) (s.join ⟨e.1⟩)
          ((relative front).join ⟨e.1⟩) e.2) v = (.ok first, w)) :
        Writes (placeOf target <+: ·) (OnWay target) v w := by
      rw [← relative_concat] at hentry
      refine ih ?_ (by simp) hv hentry
      rw [List.forall_mem_append, List.forall_mem_singleton]
      exact ⟨hnames, hname⟩
    rw [copyEntry] at hrun
    split at hrun
    · rename_i hlink
      obtain ⟨found, v, hfollow, hfound⟩ := run_bind_eq_ok hrun
      obtain rfl := run_follow_eq_ok hfollow
      refine writes_found hnames (fun hnil => ?_) ht hcopy hfound
      rw [hkind hnil] at hlink
      cases hlink
    · exact writes_found hnames hkind ht hcopy hrun

/-- Copying a directory changes what is below its target. -/
theorem writes_copyTree {entries : List (Text × FileTree)} (ht : t.Plain)
    (hsource : t.get? (placeOf source) = some (.directory entries))
    (hrun : run (copyTree change source target) t = (.ok paths, u)) :
    Writes (placeOf target <+: ·) (OnWay target) t u := by
  obtain ⟨kind, v, hkind, hcopy⟩ := run_bind_eq_ok hrun
  have hanswer := run_ask_eq_ok (fun fault => .walk (.refused source fault)) hkind
  rw [answer, Prod.mk.injEq] at hanswer
  obtain ⟨hanswer, rfl⟩ := hanswer
  have hdirectory := kindOf_eq_ok ht.linkless hanswer
  rw [hsource] at hdirectory
  cases hdirectory
  have hnil : (⟨[]⟩ : Path) = relative [] := rfl
  rw [hnil] at hcopy
  exact writes_copyEntry maxDepth (List.forall_mem_nil _) (fun _ => rfl) ht hcopy

end

/-! ## Documents in a row -/

/-- No temporary has this place. -/
def Lasting (place : Location) : Prop := ∀ outer name, place ≠ outer ++ [temporaryName name]

theorem Lasting.not_beside {p : Path} {place : Location} (h : Lasting place)
    (hne : placeOf p ≠ place) : ¬ Beside p place := by
  rintro (rfl | ⟨outer, name, -, rfl⟩)
  · exact hne rfl
  · exact h outer name rfl

/-- Each document is there unless a later one has its place. -/
def Latest (documents : List (Path × Text)) (t : FileTree) : Prop :=
  ∀ before d after, documents = before ++ d :: after →
    (∀ e ∈ after, placeOf e.1 ≠ placeOf d.1) →
    t.item? (placeOf d.1) = some (.file (encode d.2))

/-- Documents with different places are all there. -/
theorem Latest.item?_eq {documents : List (Path × Text)} {t : FileTree} (h : Latest documents t)
    (hnodup : (documents.map fun d => placeOf d.1).Nodup) :
    ∀ d ∈ documents, t.item? (placeOf d.1) = some (.file (encode d.2)) := by
  intro d hd
  obtain ⟨before, after, rfl⟩ := List.append_of_mem hd
  rw [List.map_append, List.map_cons, List.nodup_append, List.nodup_cons] at hnodup
  refine h before d after rfl fun e he heq => hnodup.2.1.1 ?_
  rw [← heq]
  exact List.mem_map_of_mem he

theorem Latest.mono {documents : List (Path × Text)} {t u : FileTree} (h : Latest documents t)
    (hkept : ∀ d ∈ documents, t.item? (placeOf d.1) ≠ none →
      u.item? (placeOf d.1) = t.item? (placeOf d.1)) : Latest documents u := by
  intro before d after hsplit hafter
  have hitem := h before d after hsplit hafter
  have hmem : d ∈ documents := by
    rw [hsplit]
    simp
  rw [hkept d hmem (by rw [hitem]; exact nofun), hitem]

/-- Documents were saved in a row. -/
structure Wrote (documents : List (Path × Text)) (t u : FileTree) : Prop where
  lasting : ∀ d ∈ documents, Lasting (placeOf d.1)
  writes : Writes (fun place => ∃ d ∈ documents, Beside d.1 place)
    (fun place => ∃ d ∈ documents, OnWay d.1 place) t u
  latest : Latest documents u

section
variable {documents others : List (Path × Text)} {t u v : FileTree}

theorem Wrote.nil (ht : t.Plain) : Wrote [] t t :=
  ⟨List.forall_mem_nil _, .refl ht, fun _ _ _ h => by simp at h⟩

theorem Wrote.append (h : Wrote documents t u) (h' : Wrote others u v) :
    Wrote (documents ++ others) t v := by
  refine ⟨List.forall_mem_append.2 ⟨h.lasting, h'.lasting⟩, ?_, ?_⟩
  · refine (h.writes.mono ?_ ?_).trans (h'.writes.mono ?_ ?_)
    · exact fun place ⟨d, hd, hplace⟩ => ⟨d, List.mem_append_left _ hd, hplace⟩
    · exact fun place ⟨d, hd, hplace⟩ => Or.inr ⟨d, List.mem_append_left _ hd, hplace⟩
    · exact fun place ⟨d, hd, hplace⟩ => ⟨d, List.mem_append_right _ hd, hplace⟩
    · exact fun place ⟨d, hd, hplace⟩ => Or.inr ⟨d, List.mem_append_right _ hd, hplace⟩
  · intro before d after hsplit hafter
    rcases List.append_eq_append_iff.1 hsplit with ⟨middle, -, hlater⟩ | ⟨rest, hdocuments, htail⟩
    · exact h'.latest middle d after hlater hafter
    · cases rest with
      | nil => exact h'.latest [] d after htail.symm hafter
      | cons first rest =>
        obtain ⟨rfl, rfl⟩ := List.cons.inj htail
        obtain ⟨hrest, hothers⟩ := List.forall_mem_append.1 hafter
        have hitem := h.latest before d rest hdocuments hrest
        have hlasting := h.lasting d (by rw [hdocuments]; simp)
        rw [h'.writes.item?_eq ?_ (by rw [hitem]; exact nofun), hitem]
        rintro ⟨e, he, hbeside⟩
        exact hlasting.not_beside (hothers e he) hbeside

theorem wrote_save {d : Path × Text} (hlasting : Lasting (placeOf d.1)) (ht : t.Plain)
    (hrun : run (save d.1 (encode d.2)) t = (.ok (), u)) : Wrote [d] t u := by
  obtain ⟨hwrites, hitem⟩ := writes_save ht hrun
  refine ⟨List.forall_mem_singleton.2 hlasting, hwrites.mono ?_ ?_, ?_⟩
  · exact fun place hplace => ⟨d, List.mem_singleton_self d, hplace⟩
  · exact fun place hplace => Or.inr ⟨d, List.mem_singleton_self d, hplace⟩
  · intro before e after hsplit _
    have he : e ∈ [d] := by
      rw [hsplit]
      simp
    rw [List.mem_singleton.1 he, hitem]

/-- Of documents that are saved in a row the last at each place is there. -/
theorem wrote_each {results : List Unit} (hlasting : ∀ d ∈ documents, Lasting (placeOf d.1))
    (ht : t.Plain)
    (hrun : run (Script.each (fun d => save d.1 (encode d.2)) documents) t = (.ok results, u)) :
    Wrote documents t u := by
  induction documents generalizing t results with
  | nil =>
    cases hrun
    exact .nil ht
  | cons d documents ih =>
    obtain ⟨_, v, hsave, hrun⟩ := run_bind_eq_ok hrun
    obtain ⟨rest, w, hrest, hrun⟩ := run_bind_eq_ok hrun
    cases hrun
    rw [List.forall_mem_cons] at hlasting
    have hwrote := wrote_save hlasting.1 ht hsave
    exact hwrote.append (ih hlasting.2 hwrote.writes.plain hrest)

end

end Playbook.Disk.FileTree
