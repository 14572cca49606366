import Playbook.Library
import Playbook.Proofs.Bundle.Ids
import Playbook.Proofs.Bundle.Parts

/-!
# Links within a bundle

A stub refers to the file of its satellite, the footer of a satellite to the file of the main
document. Stub and footer are texts with a place for a link, so what they refer to can be read
from them. The files that they refer to are those that are written for the bundle.

Results:
* `Frame.target?_eq_some`: a text of a given form refers to one file.
* `stub_eq`, `footer_eq`: the forms of stubs and footers.
* `writeBundle_eq`: a bundle is written as one file for each document, under the name of its id.
* `nodup_files`: no two documents of an assembled bundle share a file.
* `assemble_linked`: stubs and footers refer to the files of the bundle and to no others.
-/
namespace Playbook

namespace Bundle

/-! ## Reading a link -/

/-- The name of the file of a workflow. -/
def fileName (scope id : Text) : Text := qualified scope id ++ ".md"

/-- A text with a place for a link. -/
structure Frame where
  before : Text
  behind : Text

namespace Frame

/-- The text with a link to a file in its place. -/
def fill (f : Frame) (file : Text) : Text := f.before ++ "@" ++ file ++ f.behind

/-- The file that a text of this form refers to. -/
def target? (f : Frame) (t : Text) : Option Text :=
  (Text.after? (f.before ++ "@") t).bind fun rest =>
    (Text.after? f.behind.reverse rest.reverse).map List.reverse

theorem target?_eq_some {f : Frame} {t file : Text} :
    f.target? t = some file ↔ t = f.fill file := by
  simp only [target?, Option.bind_eq_some_iff, Option.map_eq_some_iff, Text.after?_eq_some]
  constructor
  · rintro ⟨rest, rfl, r, hr, rfl⟩
    have hrest := congrArg List.reverse hr
    rw [List.reverse_reverse, List.reverse_append, List.reverse_reverse] at hrest
    rw [hrest, fill, List.append_assoc _ r.reverse]
  · rintro rfl
    refine ⟨file ++ f.behind, ?_, file.reverse, ?_, List.reverse_reverse file⟩
    · rw [fill, List.append_assoc _ file]
    · rw [List.reverse_append]

end Frame

/-! ## Stubs and footers -/

/-- The form of the stub for a section. -/
def stubFrame (heading : Heading) : Frame where
  before :=
    "## [Extracted] Phase " ++ heading.ordinal ++ ": " ++ heading.title ++ "\n\n" ++
    "> [!NOTE]\n" ++
    "> This phase has been extracted to a separate workflow for size management.\n\n" ++
    "**To continue this phase:**\n" ++
    "\x60\x60\x60\n"
  behind :=
    "\n" ++
    "\x60\x60\x60\n\n" ++
    "After completing Phase " ++ heading.ordinal ++ ", return here to proceed.\n\n"

/-- The form of the footer at place `position` of `total`. -/
def footerFrame (position total : Nat) (heading : Heading) : Frame where
  before :=
    "---\n\n" ++
    "> [!NOTE]\n" ++
    "> **Phase " ++ heading.ordinal ++ " complete** (" ++ Text.ofNat position ++ " of " ++
      Text.ofNat total ++ " extracted phases)\n" ++
    ">\n" ++
    "> Return to the main workflow to continue: \x60"
  behind := "\x60\n"

theorem stub_eq (scope id : Text) (heading : Heading) :
    stub (qualified scope id) heading = (stubFrame heading).fill (fileName scope id) := by
  have hlink : (".md\n" : Text) = ".md" ++ "\n" := by decide
  unfold stub Frame.fill stubFrame fileName
  simp only [hlink, List.append_assoc]

theorem footer_eq (scope name : Text) (position total : Nat) (heading : Heading) :
    footer (qualified scope name) position total heading =
      (footerFrame position total heading).fill (fileName scope name) := by
  have hopen : ("> Return to the main workflow to continue: \x60@" : Text) =
      "> Return to the main workflow to continue: \x60" ++ "@" := by simp
  have hclose : (".md\x60\n" : Text) = ".md" ++ "\x60\n" := by simp
  unfold footer Frame.fill footerFrame fileName
  simp only [hopen, hclose, List.append_assoc]

/-! ## The files of a bundle -/

/-- The documents of a bundle under the names of their files, the main one first. -/
def files (scope : Text) (b : Bundle) : List (Text × Document) :=
  (b.main :: b.satellites).map fun a => (fileName scope a.id, a.document)

theorem map_fst_files (scope : Text) (b : Bundle) :
    (b.files scope).map Prod.fst =
      (b.main.id :: b.satellites.map Artifact.id).map (fileName scope) := by
  simp [files]

theorem fileName_injective {scope id id' : Text} (h : fileName scope id = fileName scope id') :
    id = id' :=
  List.append_cancel_left (List.append_cancel_right h)

end Bundle

namespace Library

open Disk

theorem writeArtifact_eq (directory : Path) (scope : Text) :
    writeArtifact directory scope = fun a =>
      (save (directory.join ⟨Bundle.fileName scope a.id⟩) (encode a.document.render)).bind
        fun _ => .done ⟨a.id, a.document.size⟩ :=
  rfl

theorem writeBundle_eq (directory : Path) (scope : Text) (b : Bundle) :
    writeBundle directory scope b =
      (Script.each (fun (f : Text × Document) => save (directory.join ⟨f.1⟩) (encode f.2.render))
        (b.files scope)).bind fun _ => .done (Summary.ofBundle b) := by
  rw [Bundle.files, Script.each_map]
  simp only [writeBundle, Script.each, bind]
  rw [writeArtifact_eq, Script.each_bind_done]
  simp only [Script.bind_assoc, Script.done_bind]
  rfl

end Library

namespace Bundle

/-! ## The links of an assembled bundle -/

/-- No two documents of an assembled bundle share an id. -/
theorem nodup_ids (scope name : Text) (frontmatter : Frontmatter) (retained : Text)
    (overflow : List Section) :
    (name :: (assemble scope name frontmatter retained overflow).satellites.map
      Artifact.id).Nodup := by
  rw [map_id_satellites, List.nodup_cons]
  refine ⟨?_, nodup_assignIds name [] overflow⟩
  intro hmem
  obtain ⟨p, hp, hname⟩ := List.mem_map.1 hmem
  exact ne_of_mem_assignIds hp hname

/-- No two documents of an assembled bundle share a file. -/
theorem nodup_files (scope name : Text) (frontmatter : Frontmatter) (retained : Text)
    (overflow : List Section) :
    (((assemble scope name frontmatter retained overflow).files scope).map Prod.fst).Nodup := by
  rw [map_fst_files]
  refine List.pairwise_map.2 ((nodup_ids scope name frontmatter retained overflow).imp ?_)
  exact fun hne hfile => hne (fileName_injective hfile)

/-- The satellite at place `k` and the stub for it: how they refer to the files of each other. -/
structure LinkedAt (scope name : Text) (total k : Nat) (s : Section) (a : Artifact)
    (stub footer : Text) : Prop where
  stub_target : (stubFrame s.heading).target? stub = some (fileName scope a.id)
  parent : a.document.frontmatter.get? parentKey = some (qualified scope name)
  body : a.document.body = Text.trim s.content ++ "\n\n" ++ footer
  footer_target :
    (footerFrame (k + 1) total s.heading).target? footer = some (fileName scope name)

/-- The stubs of a main document and the footers of its satellites, one each for every section
moved out. -/
structure Linked (scope name : Text) (out : Bundle) (retained : Text) (moved : List Section)
    (stubs footers : List Text) : Prop where
  main_id : out.main.id = name
  main_body : out.main.document.body = endLine retained ++ stubs.flatten
  count : out.satellites.length = moved.length
  count_stubs : stubs.length = moved.length
  count_footers : footers.length = moved.length
  linked : ∀ (k : Nat) (s : Section) (a : Artifact) (stub footer : Text),
    moved[k]? = some s → out.satellites[k]? = some a → stubs[k]? = some stub →
    footers[k]? = some footer → LinkedAt scope name moved.length k s a stub footer

/-- A stub or a footer refers to the file. -/
def Refers (moved : List Section) (stubs footers : List Text) (file : Text) : Prop :=
  ∃ (k : Nat) (s : Section), moved[k]? = some s ∧
    ((∃ stub, stubs[k]? = some stub ∧ (stubFrame s.heading).target? stub = some file) ∨
     ∃ footer, footers[k]? = some footer ∧
       (footerFrame (k + 1) moved.length s.heading).target? footer = some file)

theorem get?_parent_satellite (scope name : Text) (position total : Nat) (id : Text)
    (s : Section) :
    (satellite scope name position total id s).document.frontmatter.get? parentKey =
      some (qualified scope name) := by
  show ((OrderedMap.empty.insert Frontmatter.descriptionKey _).insert parentKey _).get? _ = _
  rw [OrderedMap.get?_insert, if_pos rfl]

/-- The stubs and footers of an assembled bundle. -/
theorem exists_linked (scope name : Text) (frontmatter : Frontmatter) (retained : Text)
    (overflow : List Section) :
    ∃ stubs footers, Linked scope name (assemble scope name frontmatter retained overflow)
      retained overflow stubs footers := by
  refine ⟨(assignIds name [] overflow).map fun p => stub (qualified scope p.1) p.2.heading,
    overflow.mapIdx fun k s =>
      footer (qualified scope name) (k + 1) overflow.length s.heading, ?_⟩
  refine ⟨rfl, rfl, length_satellites _ _ _ _ _, ?_, List.length_mapIdx, ?_⟩
  · rw [List.length_map, length_assignIds]
  · intro k s a stub footer hs ha hstub hfooter
    rw [getElem?_satellites] at ha
    obtain ⟨⟨id, t⟩, hnamed, hat⟩ := Option.map_eq_some_iff.1 ha
    have ht : overflow[k]? = some t := by
      rw [← getElem?_assignIds name [] overflow, hnamed, Option.map_some]
    rw [hs, Option.some.injEq] at ht
    rw [List.getElem?_map, hnamed, Option.map_some, Option.some.injEq] at hstub
    rw [List.getElem?_mapIdx, hs, Option.map_some, Option.some.injEq] at hfooter
    subst ht hat hstub hfooter
    refine ⟨?_, ?_, rfl, ?_⟩
    · exact Frame.target?_eq_some.2 (stub_eq scope id s.heading)
    · exact get?_parent_satellite scope name _ _ id s
    · exact Frame.target?_eq_some.2 (footer_eq scope name _ _ s.heading)

section
variable {scope name : Text} {out : Bundle} {retained : Text} {moved : List Section}
  {stubs footers : List Text}

/-- Every section moved out has its satellite, its stub and its footer. -/
theorem Linked.at (h : Linked scope name out retained moved stubs footers) {k : Nat}
    (hk : k < moved.length) :
    ∃ s a stub footer, moved[k]? = some s ∧ out.satellites[k]? = some a ∧
      stubs[k]? = some stub ∧ footers[k]? = some footer ∧
      LinkedAt scope name moved.length k s a stub footer := by
  have hs := List.getElem?_eq_getElem hk
  have ha := List.getElem?_eq_getElem (l := out.satellites) (by rw [h.count]; exact hk)
  have hstub := List.getElem?_eq_getElem (l := stubs) (by rw [h.count_stubs]; exact hk)
  have hfooter := List.getElem?_eq_getElem (l := footers) (by rw [h.count_footers]; exact hk)
  exact ⟨_, _, _, _, hs, ha, hstub, hfooter, h.linked k _ _ _ _ hs ha hstub hfooter⟩

/-- Stubs and footers refer to the files of the bundle and to no others. -/
theorem Linked.refers_iff (h : Linked scope name out retained moved stubs footers)
    (hsplit : out.satellites ≠ []) (file : Text) :
    Refers moved stubs footers file ↔ file ∈ (out.files scope).map Prod.fst := by
  rw [map_fst_files, h.main_id, List.map_cons, List.map_map, List.mem_cons, List.mem_map]
  constructor
  · rintro ⟨k, s, hs, hfile⟩
    have hk := (List.getElem?_eq_some_iff.1 hs).1
    obtain ⟨s', a, stub, footer, hs', ha, hstub, hfooter, hlinked⟩ := h.at hk
    rw [hs, Option.some.injEq] at hs'
    subst hs'
    rcases hfile with ⟨t, ht, htarget⟩ | ⟨t, ht, htarget⟩
    · rw [hstub, Option.some.injEq] at ht
      subst ht
      rw [hlinked.stub_target, Option.some.injEq] at htarget
      exact Or.inr ⟨a, List.mem_of_getElem? ha, htarget⟩
    · rw [hfooter, Option.some.injEq] at ht
      subst ht
      rw [hlinked.footer_target, Option.some.injEq] at htarget
      exact Or.inl htarget.symm
  · rintro (rfl | ⟨a, ha, rfl⟩)
    · have hk : 0 < moved.length := by
        rw [← h.count]
        exact List.length_pos_iff.2 hsplit
      obtain ⟨s, a, stub, footer, hs, -, -, hfooter, hlinked⟩ := h.at hk
      exact ⟨0, s, hs, Or.inr ⟨footer, hfooter, hlinked.footer_target⟩⟩
    · obtain ⟨k, ha⟩ := List.mem_iff_getElem?.1 ha
      have hk := (List.getElem?_eq_some_iff.1 ha).1
      rw [h.count] at hk
      obtain ⟨s, a', stub, footer, hs, ha', hstub, -, hlinked⟩ := h.at hk
      rw [ha, Option.some.injEq] at ha'
      subst ha'
      exact ⟨k, s, hs, Or.inl ⟨stub, hstub, hlinked.stub_target⟩⟩

end

/-- The documents of an assembled bundle have ids and files of their own. Each stub refers to
the file of its satellite, each footer and each parent entry to the main document; if there are
satellites, the links lead to the files that are written for the bundle and to no others. -/
theorem assemble_linked (scope name : Text) (frontmatter : Frontmatter) (retained : Text)
    (overflow : List Section) :
    let out := assemble scope name frontmatter retained overflow
    (name :: out.satellites.map Artifact.id).Nodup ∧
    (∃ stubs footers, Linked scope name out retained overflow stubs footers ∧
      (out.satellites ≠ [] → ∀ file,
        Refers overflow stubs footers file ↔ file ∈ (out.files scope).map Prod.fst)) ∧
    ((out.files scope).map Prod.fst).Nodup ∧
    ∀ directory, Library.writeBundle directory scope out =
      (Disk.Script.each (fun (f : Text × Document) =>
        Disk.save (directory.join ⟨f.1⟩) (Disk.encode f.2.render)) (out.files scope)).bind
          fun _ => .done (Library.Summary.ofBundle out) := by
  intro out
  obtain ⟨stubs, footers, hlinked⟩ := exists_linked scope name frontmatter retained overflow
  refine ⟨nodup_ids scope name frontmatter retained overflow,
    ⟨stubs, footers, hlinked, fun hsplit => hlinked.refers_iff hsplit⟩,
    nodup_files scope name frontmatter retained overflow, ?_⟩
  exact fun directory => Library.writeBundle_eq directory scope out

/-- The number given to the second section makes the id that the third would have had. -/
theorem assemble_linked_collision :
    let moved : List Section :=
      [⟨⟨"2", "Build"⟩, 0, "## Phase 2: Build\nx\n"⟩,
        ⟨⟨"2", "Again"⟩, 20, "## Phase 2: Again\ny\n"⟩,
        ⟨⟨"2.2", "Check"⟩, 40, "## Phase 2.2: Check\nz\n"⟩]
    let out := assemble defaultScope "plan" .empty [] moved
    out.satellites.map Artifact.id =
      ["plan-phase-2", "plan-phase-2-2", "plan-phase-2-2-2"].map String.toList ∧
    out.satellites ≠ [] ∧
    ∃ stubs footers, Linked defaultScope "plan" out [] moved stubs footers ∧
      ∀ file, Refers moved stubs footers file ↔ file ∈ (out.files defaultScope).map Prod.fst := by
  intro moved out
  have hids : out.satellites.map Artifact.id =
      ["plan-phase-2", "plan-phase-2-2", "plan-phase-2-2-2"].map String.toList := by
    decide +kernel
  have hsplit : out.satellites ≠ [] := by
    intro hnil
    rw [hnil] at hids
    exact List.cons_ne_nil _ _ hids.symm
  obtain ⟨stubs, footers, hlinked, hrefers⟩ :=
    (assemble_linked defaultScope "plan" .empty [] moved).2.1
  exact ⟨hids, hsplit, stubs, footers, hlinked, hrefers hsplit⟩

end Bundle

end Playbook
