import Playbook.Proofs.Bundle.Ids
import Playbook.Proofs.Document.Reading
import Playbook.Proofs.Section.Headings
import Playbook.Proofs.Workflow.Lossless

/-!
# Reading workflows back

Main documents and satellites are written to files that may be read again. Their frontmatter is
put together from what was read, from titles, which are trimmed pieces of one row, and from the
name of the command and the scope. So it can be read back, and nothing is added to the document
but the empty row that is written in front of the body.

Results:
* `Heading.title_of_ofLine?`: the title of a heading is trimmed and not empty.
* `readable_compile`: the documents of a workflow have writable entries.
* `parse_render`: what can be written is read back, and all that is read or compiled can be.
-/
namespace Playbook

theorem Heading.title_of_ofLine? {line : Text} {heading : Heading}
    (h : ofLine? line = some heading) : Text.Trimmed heading.title ∧ heading.title ≠ [] := by
  obtain ⟨-, -, title, -, -, -, -, hhead, htitle⟩ := exists_of_ofLine? h
  rw [htitle]
  refine ⟨Text.trimmed_trim title, fun hnil => ?_⟩
  -- the first character of the title is no blank, so trimming leaves it
  obtain ⟨lead, trail, hsplit, hlead, htrail⟩ := Text.exists_trim title
  rw [hnil, List.append_nil] at hsplit
  obtain ⟨c, hc, hblank⟩ := (Option.any_eq_true _ _).1 hhead
  have hmem : c ∈ lead ++ trail := hsplit ▸ List.mem_of_head? hc
  rcases List.mem_append.1 hmem with hmem | hmem
  · rw [hlead c hmem] at hblank
    cases hblank
  · rw [htrail c hmem] at hblank
    cases hblank

/-- The document has entries, they can stand on rows, and reading the written document gives it
back with the empty row in front of its body. -/
structure Document.Readable (d : Document) : Prop where
  ne_nil : d.frontmatter.entries ≠ []
  writable : d.frontmatter.Writable
  read_back : Document.parse d.render = { d with body := '\n' :: d.body }

theorem Document.readable_ofList {pairs : List (Text × Text)} (hne : pairs ≠ [])
    (h : ∀ e ∈ pairs, Frontmatter.EntryWritable e) (body : Text) :
    Document.Readable ⟨OrderedMap.ofList pairs, body⟩ := by
  have hentries := OrderedMap.entries_ofList_ne_nil hne
  have hw : Frontmatter.Writable (OrderedMap.ofList pairs) :=
    fun e he => h e (OrderedMap.mem_of_mem_ofList he)
  exact ⟨hentries, hw, parse_render_of_writable hentries hw body⟩

theorem Frontmatter.keyWritable_description : KeyWritable descriptionKey :=
  ⟨by decide, ⟨by decide, by decide⟩, by decide, by decide⟩

theorem Frontmatter.keyWritable_parent : KeyWritable Bundle.parentKey :=
  ⟨by decide, ⟨by decide, by decide⟩, by decide, by decide⟩

namespace Workflow

/-- What is put in front of a text or behind it: not empty, trimmed, and on one row. -/
structure Label (t : Text) : Prop where
  ne_nil : t ≠ []
  value : Frontmatter.ValueWritable t

section
variable {scope name : Text} (hname : Label name)
include hname

/-- The frontmatter of a workflow can be read back, with any body behind it. -/
theorem readable_document (style : Invocation.Style) (source body : Text) :
    Document.Readable ⟨(document style name source).frontmatter, body⟩ := by
  show Document.Readable ⟨OrderedMap.ofList [(Frontmatter.descriptionKey, _)], body⟩
  refine Document.readable_ofList (List.cons_ne_nil _ _) ?_ _
  rw [List.forall_mem_singleton]
  cases hfound : (Document.parse source).frontmatter.get? Frontmatter.descriptionKey with
  | none => exact ⟨Frontmatter.keyWritable_description, hname.value⟩
  | some value =>
    have hentry := Document.writable_parse source _ (OrderedMap.mem_of_find hfound)
    exact ⟨Frontmatter.keyWritable_description, hentry.value⟩

theorem readable_satellite (hscope : Label scope) {body : Text} {s : Section}
    (hs : s ∈ Section.index body) (position total : Nat) (id : Text) :
    (Bundle.satellite scope name position total id s).document.Readable := by
  obtain ⟨row, -, hheading⟩ := Section.exists_row hs
  obtain ⟨htrimmed, hne⟩ := Heading.title_of_ofLine? hheading
  obtain ⟨hordinal, htitle⟩ := Section.line_feed_not_mem_heading hs
  -- name and title are the ends of the description, scope and name those of the parent
  have hdescription := hname.value.trimmed.append hname.ne_nil htrimmed hne
    (" - Phase " ++ s.heading.ordinal ++ ": ")
  have hparent := hscope.value.trimmed.append hscope.ne_nil hname.value.trimmed hname.ne_nil []
  refine Document.readable_ofList (List.cons_ne_nil _ _) ?_ _
  rw [List.forall_mem_cons, List.forall_mem_singleton]
  refine ⟨⟨Frontmatter.keyWritable_description, ?_, ?_⟩, Frontmatter.keyWritable_parent, ?_, ?_⟩
  · simpa using hdescription
  · simp [hname.value.row, hordinal, htitle]
  · simpa [Bundle.qualified] using hparent
  · simp [Bundle.qualified, hscope.value.row, hname.value.row]

/-- Every document of a workflow can be read back. -/
theorem readable_compile {settings : Settings} (hscope : Label settings.scope) (source : Text) :
    ∀ a ∈ (compile settings name source).main :: (compile settings name source).satellites,
      a.document.Readable := by
  have hmain := readable_document hname settings.style source
  rcases compile_cases settings name source with h | ⟨retained, overflow, hoverflow, h⟩
  · rw [h]
    exact List.forall_mem_singleton.2 (hmain _)
  · rw [h, List.forall_mem_cons]
    constructor
    · exact hmain _
    · intro a ha
      obtain ⟨k, hk⟩ := List.mem_iff_getElem?.1 ha
      rw [Bundle.getElem?_satellites, Option.map_eq_some_iff] at hk
      obtain ⟨⟨id, s⟩, hnamed, rfl⟩ := hk
      have hs := (Bundle.exists_of_mem_assignIds (List.mem_of_getElem? hnamed)).1
      exact readable_satellite hname hscope (hoverflow s hs) _ _ id

end

end Workflow

namespace Document

/-- Reading a written document gives its entries back, in order, and its body behind an empty row,
whatever the body holds, if its keys are trimmed, not empty and without colons and line feeds, and
its values are trimmed and without line feeds. All that is read from a text is of that kind, and so
is every document of a compiled workflow. -/
theorem parse_render :
    (∀ (pairs : List (Text × Text)) (body : Text),
      let d : Document := ⟨OrderedMap.ofList pairs, body⟩
      d.frontmatter.entries ≠ [] → d.frontmatter.Writable →
        parse d.render = { d with body := '\n' :: d.body }) ∧
    (∀ source : Text, let d := parse source
      d.frontmatter.Writable ∧
        (d.frontmatter.entries ≠ [] → parse d.render = { d with body := '\n' :: d.body })) ∧
    ∀ (settings : Workflow.Settings) (name source : Text),
      Workflow.Label name → Workflow.Label settings.scope →
      let out := Workflow.compile settings name source
      ∀ a ∈ out.main :: out.satellites, a.document.Readable := by
  refine ⟨fun pairs body hne hw => parse_render_of_writable hne hw body, fun source => ?_,
    fun settings name source hname hscope => Workflow.readable_compile hname hscope source⟩
  have hw := writable_parse source
  refine ⟨hw, fun hne => ?_⟩
  obtain ⟨pairs, hpairs⟩ := exists_ofList_parse source
  rw [hpairs] at hw hne
  have hread := parse_render_of_writable hne hw (parse source).body
  rwa [← hpairs] at hread

/-- A colon in a value, an empty value, a row `---` in the body, and a phase that moves out. -/
theorem parse_render_two_phases :
    let pairs : List (Text × Text) := [("description", "Plan: the phase"), ("tools", [])]
    let body : Text := "---\nkey: value\n---\n"
    let d : Document := ⟨OrderedMap.ofList pairs, body⟩
    let source : Text := "---\ndescription: A: b\n---\n## Phase 1: A\nx\n## Phase 2: B: c\ny\n"
    let settings : Workflow.Settings := ⟨⟨50, Double.one⟩, Bundle.defaultScope, .standard⟩
    let out := Workflow.compile settings "plan" source
    d.frontmatter.entries ≠ [] ∧ d.frontmatter.Writable ∧
    parse d.render = { d with body := '\n' :: d.body } ∧
    (parse source).frontmatter.entries ≠ [] ∧
    parse (parse source).render =
      { parse source with body := '\n' :: (parse source).body } ∧
    Workflow.Label "plan" ∧ Workflow.Label settings.scope ∧ out.satellites ≠ [] ∧
    ∀ a ∈ out.main :: out.satellites, a.document.Readable := by
  intro pairs body d source settings out
  obtain ⟨hwritten, hread, hcompiled⟩ := parse_render
  have hne : d.frontmatter.entries ≠ [] := by decide
  have hw : d.frontmatter.Writable := by
    intro e he
    have hmem := OrderedMap.mem_of_mem_ofList he
    simp only [pairs, List.mem_cons, List.not_mem_nil, or_false] at hmem
    rcases hmem with rfl | rfl
    · exact ⟨⟨by decide, ⟨by decide, by decide⟩, by decide, by decide⟩,
        ⟨by decide, by decide⟩, by decide⟩
    · exact ⟨⟨by decide, ⟨by decide, by decide⟩, by decide, by decide⟩, Text.trimmed_nil, by decide⟩
  have hsource : (parse source).frontmatter.entries ≠ [] := by decide
  have hname : Workflow.Label "plan" := ⟨by decide, ⟨by decide, by decide⟩, by decide⟩
  have hscope : Workflow.Label settings.scope := ⟨by decide, ⟨by decide, by decide⟩, by decide⟩
  have hsplit : out.isSplit = true := by decide +kernel
  exact ⟨hne, hw, hwritten pairs body hne hw, hsource, (hread source).2 hsource, hname, hscope,
    Bundle.isSplit_iff.1 hsplit, hcompiled settings "plan" source hname hscope⟩

end Document

end Playbook
