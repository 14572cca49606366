import Playbook.Proofs.Bundle.Ids
import Playbook.Proofs.Bundle.Parts
import Playbook.Proofs.Section.Headings

/-!
# Split documents and their sections

Stubs and footers put titles, ordinals and ids into lines of their own, next to text that was
written by hand. None of these lines opens a section, so what a split document keeps has the
sections it had, and a satellite is the one section it was made for.

Results:
* `stub_eq_ofRows`, `footer_eq_ofRows`: stubs and footers row by row.
* `isPlain_stubRows`, `isPlain_footerRows`: none of these rows opens a section.
* `assemble_keeps_sections`: what stays keeps its sections, and a satellite is one section.
-/
namespace Playbook

namespace Bundle

/-! ## Plain rows -/

/-- The row holds no line feed and opens no section. -/
def IsPlain (row : Text) : Prop := '\n' ∉ row ∧ Heading.ofLine? row = none

theorem isPlain_of_after? {row : Text} (h : '\n' ∉ row)
    (hlead : Text.after? Heading.lead row = none) : IsPlain row :=
  ⟨h, Heading.ofLine?_of_after? hlead⟩

/-- The rows of a stub. -/
def stubRows (target : Text) (heading : Heading) : List Text :=
  ["## [Extracted] Phase " ++ heading.ordinal ++ ": " ++ heading.title,
    [],
    "> [!NOTE]",
    "> This phase has been extracted to a separate workflow for size management.",
    [],
    "**To continue this phase:**",
    "\x60\x60\x60",
    "@" ++ target ++ ".md",
    "\x60\x60\x60",
    [],
    "After completing Phase " ++ heading.ordinal ++ ", return here to proceed.",
    []]

/-- The rows of a footer. -/
def footerRows (parent : Text) (position total : Nat) (heading : Heading) : List Text :=
  ["---",
    [],
    "> [!NOTE]",
    "> **Phase " ++ heading.ordinal ++ " complete** (" ++ Text.ofNat position ++ " of " ++
      Text.ofNat total ++ " extracted phases)",
    ">",
    "> Return to the main workflow to continue: \x60@" ++ parent ++ ".md\x60"]

set_option maxRecDepth 1000 in
theorem stub_eq_ofRows (target : Text) (heading : Heading) :
    stub target heading = Text.ofRows (stubRows target heading) := by
  unfold stub
  simp [stubRows, Text.ofRows]

theorem footer_eq_ofRows (parent : Text) (position total : Nat) (heading : Heading) :
    footer parent position total heading =
      Text.ofRows (footerRows parent position total heading) := by
  unfold footer
  simp [footerRows, Text.ofRows]

section
variable {heading : Heading} (hordinal : '\n' ∉ heading.ordinal)
include hordinal

theorem isPlain_stubRows {target : Text} (htarget : '\n' ∉ target) (htitle : '\n' ∉ heading.title) :
    ∀ row ∈ stubRows target heading, IsPlain row := by
  have hline : ∀ row ∈ stubRows target heading, '\n' ∉ row := by
    simp [stubRows, htarget, hordinal, htitle]
  have hlead : ∀ row ∈ stubRows target heading, Text.after? Heading.lead row = none := by
    simp only [stubRows, List.forall_mem_cons]
    refine ⟨rfl, rfl, rfl, rfl, rfl, rfl, rfl, rfl, rfl, rfl, rfl, rfl, ?_⟩
    exact List.forall_mem_nil _
  exact fun row hrow => isPlain_of_after? (hline row hrow) (hlead row hrow)

theorem isPlain_footerRows {parent : Text} (hparent : '\n' ∉ parent) (position total : Nat) :
    ∀ row ∈ footerRows parent position total heading, IsPlain row := by
  have hnumber (n : Nat) : '\n' ∉ Text.ofNat n := by
    intro hmem
    exact absurd (Text.isDigit_of_mem_ofNat hmem) (by decide)
  have hline : ∀ row ∈ footerRows parent position total heading, '\n' ∉ row := by
    simp [footerRows, hparent, hordinal, hnumber]
  have hlead : ∀ row ∈ footerRows parent position total heading,
      Text.after? Heading.lead row = none := by
    simp only [footerRows, List.forall_mem_cons]
    refine ⟨rfl, rfl, rfl, rfl, rfl, rfl, ?_⟩
    exact List.forall_mem_nil _
  exact fun row hrow => isPlain_of_after? (hline row hrow) (hlead row hrow)

end

theorem line_feed_not_mem_qualified {scope id : Text} (hscope : '\n' ∉ scope) (hid : '\n' ∉ id) :
    '\n' ∉ qualified scope id := by
  rw [qualified, List.mem_append, not_or]
  exact ⟨hscope, hid⟩

/-! ## The sections of the parts -/

section
variable {scope name : Text} (hscope : '\n' ∉ scope) (hname : '\n' ∉ name)
include hscope hname

/-- Stubs behind a text whose last line has ended open no section. -/
theorem spots_index_stubs {retained : Text} (hr : retained = [] ∨ Text.endsLine retained = true)
    {moved : List Section}
    (hm : ∀ s ∈ moved, '\n' ∉ s.heading.ordinal ∧ '\n' ∉ s.heading.title)
    (taken : List Text) :
    Section.spots (Section.index (retained ++ (assignIds name taken moved).flatMap fun (id, s) =>
      stub (qualified scope id) s.heading)) = Section.spots (Section.index retained) := by
  have hrows : ((assignIds name taken moved).flatMap fun (id, s) =>
      stub (qualified scope id) s.heading) =
      Text.ofRows ((assignIds name taken moved).flatMap fun (id, s) =>
        stubRows (qualified scope id) s.heading) := by
    rw [Text.ofRows, List.flatMap_assoc]
    simp only [stub_eq_ofRows, Text.ofRows]
  rw [hrows]
  refine Section.spots_index_append hr ?_
  intro row hrow
  obtain ⟨⟨id, s⟩, hp, hrow⟩ := List.mem_flatMap.1 hrow
  obtain ⟨hordinal, htitle⟩ := hm s (exists_of_mem_assignIds hp).1
  have hid := line_feed_not_mem_id hname (fun s hs => (hm s hs).1) hp
  exact isPlain_stubRows hordinal (line_feed_not_mem_qualified hscope hid) htitle row hrow

/-- A satellite is the section it was made for. -/
theorem spots_index_satellite {body : Text} {s : Section} (hs : s ∈ Section.index body)
    (position total : Nat) (id : Text) :
    Section.spots (Section.index (satellite scope name position total id s).document.body) =
      [(s.heading, 0)] := by
  have hbody : (satellite scope name position total id s).document.body =
      Text.trim s.content ++ ['\n'] ++
        Text.ofRows ([] :: footerRows (qualified scope name) position total s.heading) := by
    show Text.trim s.content ++ _ ++ footer _ _ _ _ = _
    rw [footer_eq_ofRows, Text.ofRows, Text.ofRows, List.flatMap_cons]
    simp
  have hplain : ∀ row ∈ [] :: footerRows (qualified scope name) position total s.heading,
      IsPlain row := by
    rw [List.forall_mem_cons]
    refine ⟨isPlain_of_after? List.not_mem_nil rfl, ?_⟩
    exact isPlain_footerRows (Section.line_feed_not_mem_heading hs).1
      (line_feed_not_mem_qualified hscope hname) position total
  have hends : Text.endsLine (Text.trim s.content ++ ['\n']) = true := Text.endsLine_append _ rfl
  have hblank : ∀ c ∈ ['\n'], Text.isBlank c = true := List.forall_mem_singleton.2 rfl
  rw [hbody, Section.spots_index_append (Or.inr hends) hplain,
    Section.spots_index_append_blank hblank, Section.spots_index_trim hs]

/-- What a plan keeps of a body has the same sections as in the body, with the stubs behind it;
each section moved out is the one section of its satellite, at its start. -/
theorem assemble_keeps_sections {b : Budget} {overhead : Nat} {body : Text} {plan : Plan}
    (hp : Plan.ofBody? b overhead body = some plan) (ho : plan.overflow ≠ [])
    (frontmatter : Frontmatter) :
    let out := assemble scope name frontmatter plan.retained plan.overflow
    Section.index body = plan.kept ++ plan.overflow ∧
    Section.spots (Section.index out.main.document.body) = Section.spots plan.kept ∧
    out.satellites.map (fun a => Section.spots (Section.index a.document.body)) =
      plan.overflow.map fun s => [(s.heading, 0)] := by
  intro out
  have hi := Plan.index_of_ofBody? hp
  have hmem : ∀ s ∈ plan.overflow, s ∈ Section.index body := by
    intro s hs
    rw [hi]
    exact List.mem_append_right _ hs
  refine ⟨hi, ?_, ?_⟩
  · obtain ⟨s, moved, hcons⟩ := List.exists_cons_of_ne_nil ho
    have hcut : Section.index body = plan.kept ++ s :: moved := by rw [hi, hcons]
    have hretained := Plan.retained_of_ofBody? hp hcons
    have hmain : out.main.document.body = endLine (Text.upTo s.start body) ++
        (assignIds name [] plan.overflow).flatMap fun (id, s) =>
          stub (qualified scope id) s.heading := by
      rw [← hretained]
      rfl
    rw [hmain, endLine_upTo_start hcut,
      spots_index_stubs hscope hname (Section.endsLine_upTo_start hcut)
        (fun s hs => Section.line_feed_not_mem_heading (hmem s hs)),
      Section.index_upTo hcut]
  · refine List.ext_getElem? fun k => ?_
    rw [List.getElem?_map, getElem?_satellites, List.getElem?_map,
      ← getElem?_assignIds name [] plan.overflow]
    cases hk : (assignIds name [] plan.overflow)[k]? with
    | none => rfl
    | some p =>
      have hs := hmem p.2 (exists_of_mem_assignIds (List.mem_of_getElem? hk)).1
      exact congrArg some (spots_index_satellite hscope hname hs _ _ p.1)

end

theorem assemble_keeps_sections_stub_title :
    let body : Text := "intro\n## Phase 1: A\nx\n## Phase 2: [Extracted] Phase 3: B\ny\n"
    ∃ plan, Plan.ofBody? ⟨60, Double.one⟩ 10 body = some plan ∧ plan.overflow ≠ [] ∧
      let out := assemble defaultScope "plan" .empty plan.retained plan.overflow
      Section.spots (Section.index out.main.document.body) = [(⟨"1", "A"⟩, 6)] ∧
      out.satellites.map (fun a => Section.spots (Section.index a.document.body)) =
        [[(⟨"2", "[Extracted] Phase 3: B"⟩, 0)]] := by
  intro body
  have hplan : (Plan.ofBody? ⟨60, Double.one⟩ 10 body).map
      (fun p => (Section.spots p.kept, p.overflow.map Section.heading)) =
        some ([(⟨"1", "A"⟩, 6)], [⟨"2", "[Extracted] Phase 3: B"⟩]) := by
    decide +kernel
  obtain ⟨plan, hp, hparts⟩ := Option.map_eq_some_iff.1 hplan
  obtain ⟨hkept, hmoved⟩ := Prod.mk.inj hparts
  have ho : plan.overflow ≠ [] := by
    intro hnil
    rw [hnil] at hmoved
    cases hmoved
  have hscope : '\n' ∉ defaultScope := by decide
  have hname : '\n' ∉ ("plan" : Text) := by decide
  obtain ⟨-, hmain, hsatellites⟩ := assemble_keeps_sections hscope hname hp ho .empty
  refine ⟨plan, hp, ho, hmain.trans hkept, hsatellites.trans ?_⟩
  have hheadings := congrArg (List.map fun heading => [(heading, 0)]) hmoved
  rwa [List.map_map] at hheadings

end Bundle

end Playbook
