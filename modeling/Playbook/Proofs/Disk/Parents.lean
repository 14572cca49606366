import Playbook.Disk.Save
import Playbook.Proofs.Disk.Places

/-!
# The directories around a file

The parent of a path is its text without the last segment that counts; what does not count leads
nowhere else. So a path leads to an entry of the directory that its parent leads to, and the names
of every path around it are leading names of its own.

Results:
* `names_parent`: the names of a parent are leading names of the path.
* `isEntry_of_fileName`: a path with a file name leads to the entry of that name in its parent.
* `fileName?_of_names`, `placeOf_join_name`: the paths of entries.
-/
namespace Playbook

theorem Text.not_mem_of_mem_fields {separator : Char} {t part : Text}
    (h : part ∈ Text.fields separator t) : separator ∉ part := by
  induction t generalizing part with
  | nil =>
    rw [fields, List.mem_singleton] at h
    rw [h]
    exact List.not_mem_nil
  | cons c t ih =>
    rw [fields] at h
    split at h
    · rw [List.mem_cons] at h
      rcases h with rfl | h
      · exact List.not_mem_nil
      · exact ih h
    · rename_i hc
      split at h
      · rw [List.mem_singleton] at h
        rw [h, List.mem_singleton]
        exact Ne.symm hc
      · rename_i first parts hfields
        rw [List.mem_cons] at h
        rcases h with rfl | h
        · rw [List.mem_cons, not_or]
          exact ⟨Ne.symm hc, ih (by rw [hfields]; exact List.mem_cons_self)⟩
        · exact ih (by rw [hfields]; exact List.mem_cons_of_mem _ h)

namespace Path

/-- A name that an entry of a directory can have. -/
structure IsName (name : Text) : Prop where
  ne_nil : name ≠ []
  slash : '/' ∉ name
  dot : name ≠ "."
  dots : name ≠ ".."

instance (name : Text) : Decidable (IsName name) :=
  decidable_of_iff (name ≠ [] ∧ '/' ∉ name ∧ name ≠ "." ∧ name ≠ "..")
    ⟨fun h => ⟨h.1, h.2.1, h.2.2.1, h.2.2.2⟩, fun h => ⟨h.1, h.2, h.3, h.4⟩⟩

/-! ## Segments -/

theorem exists_dropIdle (segments : List Text) : ∃ idle, segments = idle ++ dropIdle segments ∧
    ∀ s ∈ idle, s = [] ∨ s = "." := by
  induction segments with
  | nil => exact ⟨[], rfl, fun s hs => absurd hs List.not_mem_nil⟩
  | cons segment before ih =>
    rw [dropIdle]
    split
    · exact ⟨[], rfl, fun s hs => absurd hs List.not_mem_nil⟩
    · rename_i hcounts
      obtain ⟨idle, hsplit, hidle⟩ := ih
      have hsegment : segment = [] ∨ segment = "." := by
        rw [counts] at hcounts
        split at hcounts
        · rename_i hdot
          exact Or.inr hdot
        · exact Or.inl (by simpa using hcounts)
      refine ⟨segment :: idle, by rw [List.cons_append, ← hsplit], ?_⟩
      rw [List.forall_mem_cons]
      exact ⟨hsegment, hidle⟩

theorem counts_of_dropIdle {segments before : List Text} {segment : Text}
    (h : dropIdle segments = segment :: before) : counts before.isEmpty segment = true := by
  induction segments with
  | nil => cases h
  | cons first rest ih =>
    rw [dropIdle] at h
    split at h
    · rename_i hcounts
      cases h
      exact hcounts
    · exact ih h

end Path

namespace Disk.FileTree

open Playbook.Path (IsName)

variable {p directory : Path} {name : Text}

theorem resolve_dots {walked : List Text} (h : ∀ s ∈ walked, s = ".") (place : Location) :
    resolve place walked = place := by
  induction walked with
  | nil => rfl
  | cons s walked ih =>
    rw [List.forall_mem_cons] at h
    rw [resolve, if_pos h.1, ih h.2]

theorem dot_of_idle {idle : List Text} (h : ∀ s ∈ idle, s = [] ∨ s = ".") :
    ∀ s ∈ idle.filter (fun name => !name.isEmpty), s = "." := by
  intro s hs
  obtain ⟨hmem, hne⟩ := List.mem_filter.1 hs
  refine (h s hmem).resolve_left fun hnil => ?_
  rw [hnil] at hne
  cases hne

theorem names_intercalate {segments : List Text} (h : ∀ s ∈ segments, '/' ∉ s) :
    names ⟨(['/'] : Text).intercalate segments⟩ = segments.filter fun name => !name.isEmpty := by
  cases segments with
  | nil => rfl
  | cons s segments => rw [names, Text.fields_intercalate (List.cons_ne_nil _ _) h]

/-! ## Parents -/

/-- Behind the last segment that counts there are dots at most. -/
theorem exists_names_backward (p : Path) : ∃ behind : List Text, (∀ s ∈ behind, s = ".") ∧
    names p = (p.backward.reverse.filter fun name => !name.isEmpty) ++ behind := by
  obtain ⟨idle, hsplit, hidle⟩ := Path.exists_dropIdle (Text.fields '/' p.text).reverse
  refine ⟨idle.reverse.filter fun name => !name.isEmpty,
    dot_of_idle fun s hs => hidle s (List.mem_reverse.1 hs), ?_⟩
  have hfields : Text.fields '/' p.text = p.backward.reverse ++ idle.reverse := by
    rw [← List.reverse_append, Path.backward, ← hsplit, List.reverse_reverse]
  rw [names, hfields, List.filter_append]

theorem slash_of_mem_backward {s : Text} (h : s ∈ p.backward) : '/' ∉ s := by
  obtain ⟨idle, hsplit, -⟩ := Path.exists_dropIdle (Text.fields '/' p.text).reverse
  refine Text.not_mem_of_mem_fields (t := p.text) (List.mem_reverse.1 ?_)
  rw [hsplit]
  exact List.mem_append_right _ h

/-- Behind the names of its parent a path has the segment that counts, among dots. -/
theorem exists_names_parent (h : p.parent? = some directory) :
    ∃ segment before between behind, p.backward = segment :: before ∧
      names p = names directory ++ between ++
        ([segment].filter (fun name => !name.isEmpty) ++ behind) ∧
      (∀ s ∈ between, s = ".") ∧ ∀ s ∈ behind, s = "." := by
  unfold Path.parent? at h
  split at h
  · cases h
  · rename_i segment before hbackward
    obtain ⟨idle, hsplit, hidle⟩ := Path.exists_dropIdle before
    obtain ⟨behind, hbehind, hnames⟩ := exists_names_backward p
    have hdirectory : names directory =
        (Path.dropIdle before).reverse.filter fun name => !name.isEmpty := by
      cases hrest : Path.dropIdle before with
      | nil =>
        rw [hrest] at h
        cases h
        split <;> rfl
      | cons s rest =>
        rw [hrest] at h
        cases h
        refine names_intercalate fun part hpart => slash_of_mem_backward (p := p) ?_
        rw [hbackward, hsplit, hrest]
        exact List.mem_cons_of_mem _ (List.mem_append_right _ (List.mem_reverse.1 hpart))
    have hbefore : before.reverse = (Path.dropIdle before).reverse ++ idle.reverse := by
      rw [← List.reverse_append, ← hsplit]
    refine ⟨segment, before, idle.reverse.filter (fun name => !name.isEmpty), behind, hbackward,
      ?_, dot_of_idle fun s hs => hidle s (List.mem_reverse.1 hs), hbehind⟩
    rw [hnames, hdirectory, hbackward, List.reverse_cons, hbefore, List.filter_append,
      List.filter_append, List.append_assoc]

/-- The names of a parent are leading names of the path. -/
theorem names_parent (h : p.parent? = some directory) : names directory <+: names p := by
  obtain ⟨segment, -, between, behind, -, hnames, -, -⟩ := exists_names_parent h
  rw [hnames, List.append_assoc]
  exact List.prefix_append _ _

/-- A path that leads to an entry of a directory, whose names come before the entry's. -/
structure IsEntry (p directory : Path) (name : Text) : Prop where
  isName : IsName name
  place : placeOf p = placeOf directory ++ [name]
  names : names directory <+: names p
  ne : FileTree.names directory ≠ FileTree.names p

/-- A path with a file name leads to the entry of that name in its parent. -/
theorem isEntry_of_fileName (h : p.fileName? = some name) :
    ∃ directory, p.parent? = some directory ∧ IsEntry p directory name := by
  obtain ⟨before, hbackward, hdot, hdots⟩ : ∃ before, p.backward = name :: before ∧ name ≠ "." ∧
      name ≠ ".." := by
    unfold Path.fileName? at h
    split at h
    · cases h
    · rename_i segment before hbackward
      split at h
      · cases h
      · rename_i hsegment
        cases h
        rw [Bool.or_eq_true, decide_eq_true_eq, decide_eq_true_eq, not_or] at hsegment
        exact ⟨before, hbackward, hsegment⟩
  have hne : name ≠ [] := by
    have hcounts := Path.counts_of_dropIdle hbackward
    rw [Path.counts, if_neg hdot] at hcounts
    intro hnil
    rw [hnil] at hcounts
    cases hcounts
  have hslash : '/' ∉ name := slash_of_mem_backward (by rw [hbackward]; exact List.mem_cons_self)
  obtain ⟨directory, hparent⟩ : ∃ directory, p.parent? = some directory := by
    simp only [Path.parent?, hbackward]
    split <;> exact ⟨_, rfl⟩
  obtain ⟨segment, before', between, behind, hbackward', hnames, hbetween, hbehind⟩ :=
    exists_names_parent hparent
  obtain ⟨rfl, -⟩ := List.cons.inj (hbackward.symm.trans hbackward')
  have hkept : [name].filter (fun name => !name.isEmpty) = [name] := by simpa using hne
  rw [hkept] at hnames
  refine ⟨directory, hparent, ⟨hne, hslash, hdot, hdots⟩, ?_, names_parent hparent, ?_⟩
  · rw [placeOf, hnames, resolve_append, resolve_append, resolve_append, resolve_dots hbetween,
      resolve_dots hbehind, resolve_name hdot hdots, placeOf]
  · intro heq
    have hlen := congrArg List.length (heq.trans hnames)
    simp only [List.length_append, List.length_singleton] at hlen
    omega

/-- A path whose last name is that of an entry has it as its file name. -/
theorem fileName?_of_names {front : List Text} (hname : IsName name)
    (h : names p = front ++ [name]) : p.fileName? = some name := by
  obtain ⟨behind, hbehind, hnames⟩ := exists_names_backward p
  -- the dots behind would be the last name
  have hnil : behind = [] := by
    rcases List.eq_nil_or_concat behind with hnil | ⟨init, last, rfl⟩
    · exact hnil
    · rw [hnames, List.concat_eq_append, ← List.append_assoc] at h
      have hlast := List.append_inj_right' h rfl
      rw [List.cons.injEq] at hlast
      exact absurd (hlast.1.symm.trans (hbehind last (by simp))) hname.dot
  rw [hnil, List.append_nil] at hnames
  rw [h] at hnames
  cases hbackward : p.backward with
  | nil =>
    rw [hbackward] at hnames
    exact absurd hnames (by simp)
  | cons segment before =>
    have hcounts := Path.counts_of_dropIdle hbackward
    have hne : segment ≠ [] := by
      rintro rfl
      cases hcounts
    have hkept : [segment].filter (fun name => !name.isEmpty) = [segment] := by simpa using hne
    rw [hbackward, List.reverse_cons, List.filter_append, hkept] at hnames
    have hlast := List.append_inj_right' hnames rfl
    rw [List.cons.injEq] at hlast
    obtain ⟨rfl, -⟩ := hlast
    simp only [Path.fileName?, hbackward, decide_eq_false hname.dot, decide_eq_false hname.dots]
    rfl

/-- Where leading names of a path lead: the places that making its directories may add. -/
def OnWay (p : Path) (place : Location) : Prop :=
  ∃ front, front <+: names p ∧ resolve [] front = place

theorem OnWay.of_parent (h : p.parent? = some directory) {place : Location}
    (hplace : OnWay directory place) : OnWay p place := by
  obtain ⟨front, hfront, hplace⟩ := hplace
  exact ⟨front, hfront.trans (names_parent h), hplace⟩

theorem onWay_placeOf (p : Path) : OnWay p (placeOf p) := ⟨names p, List.prefix_rfl, rfl⟩

/-! ## Paths of entries -/

theorem length_temporaryName (name : Text) : (temporaryName name).length = name.length + 5 := by
  have htmp : (".tmp" : Text).length = 4 := rfl
  have hdot : ("." : Text).length = 1 := rfl
  rw [temporaryName, List.length_append, List.length_append, htmp, hdot]
  omega

theorem temporaryName_ne (name : Text) : temporaryName name ≠ name := by
  intro h
  have hlen := congrArg List.length h
  rw [length_temporaryName] at hlen
  omega

theorem isName_temporaryName (h : '/' ∉ name) : IsName (temporaryName name) := by
  have hne {other : Text} (hother : other.length < 5) : temporaryName name ≠ other := by
    intro heq
    rw [← heq, length_temporaryName] at hother
    omega
  refine ⟨hne (by decide), ?_, hne (by decide), hne (by decide)⟩
  rw [temporaryName, List.mem_append, List.mem_append]
  intro hmem
  rcases hmem with (hmem | hmem) | hmem
  · exact absurd hmem (by decide)
  · exact h hmem
  · exact absurd hmem (by decide)

/-- Names of entries are walked down. -/
theorem resolve_isName {walked : List Text} (h : ∀ name ∈ walked, IsName name)
    (place : Location) : resolve place walked = place ++ walked := by
  induction walked generalizing place with
  | nil => exact (List.append_nil place).symm
  | cons name walked ih =>
    rw [List.forall_mem_cons] at h
    rw [resolve, if_neg h.1.dot, if_neg h.1.dots, ih h.2, List.append_assoc]
    rfl

theorem names_name (h : IsName name) : names ⟨name⟩ = [name] := by
  rw [names_of_no_slash h.slash, if_neg h.ne_nil]

theorem names_join_name (h : IsName name) : names (p.join ⟨name⟩) = names p ++ [name] := by
  rw [names_join (Path.not_isAbsolute h.slash), names_name h]

theorem placeOf_join_name (h : IsName name) : placeOf (p.join ⟨name⟩) = placeOf p ++ [name] := by
  rw [placeOf, names_join_name h, resolve_append, resolve_name h.dot h.dots, placeOf]

end Disk.FileTree

end Playbook
