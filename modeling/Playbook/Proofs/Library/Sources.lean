import Playbook.Proofs.Disk.Writing
import Playbook.Proofs.Library.Targets

/-!
# The sources of a library

The agents and the commands of a library are the markdown documents right in a directory, taken in
the order of their names. They are read one at a time, each right before what it is compiled to is
saved; what is saved outside of the directory leaves the others as they were.

Results:
* `readText_eq_ok`: a file that is read as a text holds its bytes.
* `markdownFiles_eq_ok`: what is found in a directory.
* `each_eq_ok`: a run over all documents of a directory, from the step for one.
-/
namespace Playbook

open Playbook.Path (IsName)

namespace Path

/-- Whether a name is that of a markdown document. -/
def IsDocument (name : Text) : Prop := isMarkdown ⟨name⟩ = true

theorem fileName?_join_name {p : Path} {name : Text} (h : IsName name) :
    (p.join ⟨name⟩).fileName? = some name :=
  Disk.FileTree.fileName?_of_names h (Disk.FileTree.names_join_name h)

theorem isMarkdown_join_name {p : Path} {name : Text} (h : IsName name) :
    (p.join ⟨name⟩).isMarkdown = isMarkdown ⟨name⟩ := by
  rw [isMarkdown, isMarkdown, extension?, extension?, fileName?_join_name h,
    fileName?_of_no_slash h.ne_nil h.slash h.dot h.dots]

theorem IsDocument.exists_stem {name : Text} (h : IsDocument name) (hname : IsName name) :
    ∃ stem, NamesDocument name stem := by
  unfold IsDocument at h
  rw [isMarkdown, extension?, fileName?_of_no_slash hname.ne_nil hname.slash hname.dot hname.dots,
    Option.bind_some, decide_eq_true_eq] at h
  have hsplit : splitName name = ((splitName name).1, some markdownExtension) := Prod.ext rfl h
  have heq := extension?_eq_some hsplit
  refine ⟨(splitName name).1, heq, fun hnil => ?_, fun hslash => ?_⟩
  · rw [hnil] at heq
    rw [heq] at h
    exact absurd h (by decide)
  · exact hname.slash (heq ▸ List.mem_append_left _ hslash)

end Path

namespace Disk.FileTree

theorem encode_of_fromUTF8? {contents : ByteArray} {s : String}
    (h : String.fromUTF8? contents = some s) : encode s.toList = contents := by
  rw [encode, String.ofList_toList]
  unfold String.fromUTF8? at h
  split at h
  · cases h
    rfl
  · cases h

/-- A file that is read as a text holds its bytes. -/
theorem readText_eq_ok {p : Path} {text : Text} {t u : FileTree} (ht : t.Linkless)
    (h : run (Script.readText p) t = (.ok text, u)) :
    t = u ∧ t.item? (placeOf p) = some (.file (encode text)) := by
  obtain ⟨contents, v, hread, hrest⟩ := run_bind_eq_ok h
  have hanswer := run_ask_eq_ok .disk hread
  rw [answer, Prod.mk.injEq] at hanswer
  obtain ⟨hcontents, rfl⟩ := hanswer
  split at hrest
  · rename_i s hs
    cases hrest
    rw [encode_of_fromUTF8? hs]
    exact ⟨rfl, item?_eq_file_iff.2 (read_eq_ok ht hcontents)⟩
  · cases hrest

theorem run_readText {p : Path} {text : Text} {t : FileTree} (h : read t p = .ok (encode text)) :
    run (Script.readText p) t = (.ok text, t) := by
  simp only [Script.readText, Script.require, bind, Script.bind, run, answer, h,
    CommandLine.fromUTF8?_encode, String.toList_ofList]
  rfl

/-- The names of the markdown documents right in a directory. -/
structure Names (t : FileTree) (directory : Location) (names : List Text) : Prop where
  sorted : names.Pairwise fun a b => Text.le a b = true
  nodup : names.Nodup
  mem_iff : ∀ name, name ∈ names ↔ Path.IsDocument name ∧
    ∃ contents, t.item? (directory ++ [name]) = some (.file contents)

/-- The entries of a directory that are markdown documents. -/
def isDocumentEntry (e : Text × FileTree) : Bool := e.2.kind = .file && Path.isMarkdown ⟨e.1⟩

theorem filter_isMarkdown (directory : Path) {entries : List (Text × FileTree)}
    (hnames : ∀ e ∈ entries, IsName e.1) :
    ((entries.map shown).filterMap fun e =>
      if e.2 = .file then some (directory.join ⟨e.1⟩) else none).filter Path.isMarkdown =
      ((entries.filter isDocumentEntry).map Prod.fst).map fun name => directory.join ⟨name⟩ := by
  induction entries with
  | nil => rfl
  | cons e entries ih =>
    rw [List.forall_mem_cons] at hnames
    have hmarkdown := Path.isMarkdown_join_name (p := directory) hnames.1
    rw [List.map_cons, List.filterMap_cons, List.filter_cons, isDocumentEntry]
    by_cases hkind : e.2.kind = .file
    · cases hname : Path.isMarkdown ⟨e.1⟩ with
      | true => simpa [shown, hkind, hmarkdown, hname] using ih hnames.2
      | false => simpa [shown, hkind, hmarkdown, hname] using ih hnames.2
    · simpa [shown, hkind] using ih hnames.2

theorem names_of_perm {directory : Location} {entries sorted : List (Text × FileTree)}
    {t : FileTree} (hdirectory : t.get? directory = some (.directory entries))
    (hnodup : (entries.map Prod.fst).Nodup) (hperm : sorted.Perm entries)
    (hsorted : sorted.Pairwise fun a b => Text.le a.1 b.1 = true) :
    Names t directory ((sorted.filter isDocumentEntry).map Prod.fst) := by
  refine ⟨?_, ?_, fun name => ?_⟩
  · exact List.pairwise_map.2 (hsorted.filter _)
  · exact ((hperm.map Prod.fst).nodup_iff.2 hnodup).sublist (List.filter_sublist.map Prod.fst)
  · have hitem (contents : ByteArray) : t.item? (directory ++ [name]) = some (.file contents) ↔
        (name, file contents) ∈ sorted := by
      rw [item?_eq_file_iff, get?_name, hdirectory, Option.bind_some, child?, hperm.mem_iff]
      exact ⟨OrderedMap.mem_of_find, OrderedMap.find_of_mem hnodup⟩
    rw [List.mem_map]
    constructor
    · intro h
      obtain ⟨e, he, rfl⟩ := h
      obtain ⟨hmem, hdocument⟩ := List.mem_filter.1 he
      rw [isDocumentEntry, Bool.and_eq_true, decide_eq_true_eq] at hdocument
      obtain ⟨name, node⟩ := e
      cases node with
      | file contents => exact ⟨hdocument.2, contents, (hitem contents).2 hmem⟩
      | link | directory => cases hdocument.1
    · intro h
      obtain ⟨hdocument, contents, hfile⟩ := h
      refine ⟨(name, file contents), List.mem_filter.2 ⟨(hitem contents).1 hfile, ?_⟩, rfl⟩
      rw [isDocumentEntry, Bool.and_eq_true, decide_eq_true_eq]
      exact ⟨rfl, hdocument⟩

theorem markdownFiles_eq_ok {directory : Path} {entries : List (Text × FileTree)}
    {files : List Path} {t u : FileTree} (ht : t.Linkless)
    (hdirectory : t.get? (placeOf directory) = some (.directory entries))
    (hnodup : (entries.map Prod.fst).Nodup) (hnames : ∀ e ∈ entries, IsName e.1)
    (h : run (markdownFiles directory) t = (.ok files, u)) :
    t = u ∧ ∃ names, files = names.map (fun name => directory.join ⟨name⟩) ∧
      Names t (placeOf directory) names := by
  obtain ⟨found, v, hfound, hkind⟩ := run_bind_eq_ok h
  have hanswer := run_ask_eq_ok (fun fault => .walk (.refused directory fault)) hfound
  rw [answer, Prod.mk.injEq] at hanswer
  obtain ⟨hanswer, rfl⟩ := hanswer
  have hitem := kindOf_eq_ok ht hanswer
  rw [hdirectory] at hitem
  cases hitem
  have hlink : ¬ (FileTree.directory entries).kind = .link := fun h => by cases h
  rw [if_neg hlink] at hkind
  obtain ⟨_, _, hpure, hlist⟩ := run_bind_eq_ok hkind
  cases hpure
  simp only [kind, if_true] at hlist
  obtain ⟨listed, w, hlisted, hend⟩ := run_bind_eq_ok hlist
  have hanswer := run_ask_eq_ok (fun fault => .walk (.refused directory fault)) hlisted
  rw [answer, Prod.mk.injEq] at hanswer
  obtain ⟨hanswer, rfl⟩ := hanswer
  obtain ⟨listing, hlisting, rfl⟩ := list_eq_ok ht hanswer
  rw [hdirectory] at hlisting
  cases hlisting
  cases hend
  obtain ⟨sorted, hperm, hmap, hsorted⟩ := exists_sortByName entries
  refine ⟨rfl, (sorted.filter isDocumentEntry).map Prod.fst, ?_,
    names_of_perm hdirectory hnodup hperm hsorted⟩
  rw [← filter_isMarkdown directory fun e he => hnames e (hperm.mem_iff.1 he), hmap]
  rfl

theorem run_markdownFiles {directory : Path} {t : FileTree} {listed : List (Text × Kind)}
    (hkind : kindOf t directory false = .ok .directory) (hlist : list t directory = .ok listed)
    (hsorted : listed.Pairwise fun a b => Text.le a.1 b.1 = true) :
    run (markdownFiles directory) t = (.ok ((listed.filterMap fun e =>
      if e.2 = .file then some (directory.join ⟨e.1⟩) else none).filter Path.isMarkdown), t) := by
  have hfound : run (lookUp directory (.kind directory false)) t = (.ok .directory, t) := by
    rw [lookUp, run, answer, hkind]
    rfl
  have hentries : run (lookUp directory (.list directory)) t = (.ok listed, t) := by
    rw [lookUp, run, answer, hlist]
    rfl
  have hpure : run (pure Kind.directory) t = (.ok .directory, t) := rfl
  rw [markdownFiles, run_bind_of_ok hfound]
  refine (run_bind_of_ok hpure).trans ?_
  simp only [if_true]
  rw [run_bind_of_ok hentries]
  simp only [sortByName_of_sorted hsorted]
  rfl

/-- Markdown documents of a directory, in the order of their names, with their texts. -/
structure Documents (t : FileTree) (directory : Location) (sources : List (Text × Text)) :
    Prop where
  names : Names t directory (sources.map Prod.fst)
  items : ∀ a ∈ sources, t.item? (directory ++ [a.1]) = some (.file (encode a.2))

/-- Nothing is written into a directory, nor is it removed, if this is saved. -/
def Spares (directory : Location) (p : Path) : Prop :=
  ∀ place, Beside p place ∨ OnWay p place → ¬ directory <+: place

section
variable {α : Type} {compile : Path → Script α} {result : Text × Text → α}
  {documents : Text × Text → List (Path × Text)} {directory : Path}

/-- The documents of a directory are compiled one after the other. -/
theorem each_eq_ok {names : List Text} {results : List α} {t u : FileTree}
    (hcompile : ∀ name ∈ names, compile (directory.join ⟨name⟩) =
      (Script.readText (directory.join ⟨name⟩)).bind fun text =>
        (Script.each (fun d => save d.1 (encode d.2)) (documents (name, text))).bind fun _ =>
          .done (result (name, text)))
    (hnames : ∀ name ∈ names, IsName name)
    (hdocuments : ∀ name ∈ names, ∀ text, ∀ d ∈ documents (name, text),
      Lasting (placeOf d.1) ∧ Spares (placeOf directory) d.1)
    (ht : t.Plain)
    (hrun : run (Script.each compile (names.map fun name => directory.join ⟨name⟩)) t =
      (.ok results, u)) :
    ∃ sources : List (Text × Text), sources.map Prod.fst = names ∧
      (∀ a ∈ sources, t.item? (placeOf directory ++ [a.1]) = some (.file (encode a.2))) ∧
      results = sources.map result ∧ Wrote (sources.flatMap documents) t u := by
  induction names generalizing t results with
  | nil =>
    cases hrun
    exact ⟨[], rfl, List.forall_mem_nil _, rfl, .nil ht⟩
  | cons name names ih =>
    rw [List.forall_mem_cons] at hcompile hnames hdocuments
    obtain ⟨first, v, hfirst, hothers⟩ := run_bind_eq_ok hrun
    obtain ⟨others, w, hrest, hend⟩ := run_bind_eq_ok hothers
    cases hend
    rw [hcompile.1] at hfirst
    obtain ⟨text, x, hread, hsave⟩ := run_bind_eq_ok hfirst
    obtain ⟨rfl, hitem⟩ := readText_eq_ok ht.linkless hread
    rw [placeOf_join_name hnames.1] at hitem
    obtain ⟨_, y, hsaved, hdone⟩ := run_bind_eq_ok hsave
    cases hdone
    have hwrote := wrote_each (fun d hd => (hdocuments.1 text d hd).1) ht hsaved
    obtain ⟨sources, hmap, hitems, rfl, hlater⟩ :=
      ih hcompile.2 hnames.2 hdocuments.2 hwrote.writes.plain hrest
    refine ⟨(name, text) :: sources, by rw [List.map_cons, hmap], ?_, rfl, hwrote.append hlater⟩
    rw [List.forall_mem_cons]
    refine ⟨hitem, fun a ha => ?_⟩
    -- the other documents of the directory were not touched
    have hget : v.get? (placeOf directory) = t.get? (placeOf directory) := by
      refine hwrote.writes.get?_eq ?_
      rintro place (⟨d, hd, hplace⟩ | ⟨d, hd, hplace⟩)
      · exact (hdocuments.1 text d hd).2 place (Or.inl hplace)
      · exact (hdocuments.1 text d hd).2 place (Or.inr hplace)
    rw [← hitems a ha, item?, item?, get?_name, get?_name, hget]

variable (documents result) in
/-- All documents of a directory are found and compiled. -/
theorem documents_eq_ok {entries : List (Text × FileTree)} {files : List Path} {results : List α}
    {t u v : FileTree}
    (hcompile : ∀ name, IsName name → compile (directory.join ⟨name⟩) =
      (Script.readText (directory.join ⟨name⟩)).bind fun text =>
        (Script.each (fun d => save d.1 (encode d.2)) (documents (name, text))).bind fun _ =>
          .done (result (name, text)))
    (hdocuments : ∀ a stem, Path.NamesDocument a.1 stem → ∀ d ∈ documents a,
      Lasting (placeOf d.1) ∧ Spares (placeOf directory) d.1)
    (ht : t.Plain) (hdirectory : t.get? (placeOf directory) = some (.directory entries))
    (hnodup : (entries.map Prod.fst).Nodup) (hnames : ∀ e ∈ entries, IsName e.1)
    (hfiles : run (markdownFiles directory) t = (.ok files, u))
    (hrun : run (Script.each compile files) u = (.ok results, v)) :
    ∃ sources, Documents t (placeOf directory) sources ∧ results = sources.map result ∧
      Wrote (sources.flatMap documents) t v := by
  obtain ⟨rfl, names, rfl, hfound⟩ :=
    markdownFiles_eq_ok ht.linkless hdirectory hnodup hnames hfiles
  have hname (name : Text) (hmem : name ∈ names) : IsName name := by
    obtain ⟨-, contents, hitem⟩ := (hfound.mem_iff name).1 hmem
    exact ht.named (placeOf directory ++ [name]) (by rw [hitem]; exact nofun) name (by simp)
  obtain ⟨sources, rfl, hitems, hresults, hwrote⟩ := each_eq_ok
    (fun name hmem => hcompile name (hname name hmem)) hname
    (fun name hmem text => by
      obtain ⟨stem, hstem⟩ := ((hfound.mem_iff name).1 hmem).1.exists_stem (hname name hmem)
      exact hdocuments (name, text) stem hstem) ht hrun
  exact ⟨sources, ⟨hfound, hitems⟩, hresults, hwrote⟩

/-- A directory that nothing is written into has the same documents. -/
theorem Documents.congr {directory : Location} {sources : List (Text × Text)} {t u : FileTree}
    (h : Documents u directory sources) (hget : u.get? directory = t.get? directory) :
    Documents t directory sources := by
  have hitem (name : Text) : u.item? (directory ++ [name]) = t.item? (directory ++ [name]) := by
    rw [item?, item?, get?_name, get?_name, hget]
  refine ⟨⟨h.names.sorted, h.names.nodup, fun name => ?_⟩, fun a ha => ?_⟩
  · rw [h.names.mem_iff, hitem]
  · rw [← hitem, h.items a ha]

theorem Documents.exists_stem {directory : Location} {sources : List (Text × Text)} {t : FileTree}
    (h : Documents t directory sources) (ht : t.Plain) :
    ∀ a ∈ sources, ∃ stem, Path.NamesDocument a.1 stem := by
  intro a ha
  have hdocument := ((h.names.mem_iff a.1).1 (List.mem_map_of_mem ha)).1
  exact hdocument.exists_stem (ht.named (directory ++ [a.1])
    (by rw [h.items a ha]; exact nofun) a.1 (by simp))

end

end Disk.FileTree

end Playbook
