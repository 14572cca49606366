import Playbook.Proofs.Invocation.Blocks
import Playbook.Proofs.Invocation.Titles

/-!
# Sections in blocks of instructions

A block has a line feed at each end, so its rows are rows of the text that it is put in, and no row
goes over into it or out of it. The rows that are the same for every call are no headings, and
neither is the row with the skill nor that with its file. What is left is the title, which is a
heading exactly if the agent is named like a phase, and the rows of the prompt.

Results:
* `spots_index_render`: where the sections of a block are.
* `spots_index_block`: a block opens its sections wherever it stands, and none around it.
* `index_render`: which blocks open no section, wherever they stand.
* `index_render_phase`: a block that opens one.
-/
namespace Playbook.Invocation

open Section (index spots moved)

/-! ## The rows of a block -/

theorem line_feed_not_mem_skillName (style : Style) {handler : Text} (h : '\n' ∉ handler) :
    '\n' ∉ style.skillName handler := by
  unfold Style.skillName Text.strip
  cases hlead : Text.after? style.namespaceTag handler with
  | none => exact h
  | some rest =>
    rw [Text.after?_eq_some.1 hlead] at h
    exact fun hmem => h (List.mem_append_right _ hmem)

theorem line_feed_not_mem_titleCase {name : Text} (h : '\n' ∉ name) : '\n' ∉ titleCase name := by
  rw [titleCase_eq]
  exact line_feed_not_mem_titled h true

/-- What a block has before its prompt. -/
def beforePrompt (skill : Text) : Text :=
  '\n' :: ("## " ++ titleCase skill ++ '\n' :: (noticeRows ++ ['\n']))

theorem byteSize_beforePrompt (skill : Text) : Text.byteSize (beforePrompt skill) =
    1 + (Text.byteSize ("## " ++ titleCase skill) + 1 + (Text.byteSize noticeRows + 1)) := by
  have hempty : Text.byteSize [] = 0 := rfl
  simp only [beforePrompt, Text.byteSize_line_feed, Text.byteSize_append, hempty]
  omega

theorem spots_index_fixedRows : ∀ row ∈ fixedRows, spots (index row) = [] := by
  have hplain : ∀ row ∈ fixedRows, ∀ r ∈ Text.rows row, Text.after? Heading.lead r = none := by
    decide +kernel
  intro row hrow
  rw [Section.spots_eq_nil, Section.index_eq_nil]
  exact fun r hr => Heading.ofLine?_of_after? (hplain row hrow r hr)

theorem spots_index_of_head {row : Text} {c : Char} (h : '\n' ∉ row) (hhead : row.head? = some c)
    (hc : '#' ≠ c) : spots (index row) = [] := by
  obtain ⟨rest, rfl⟩ := List.head?_eq_some_iff.1 hhead
  have hafter : Text.after? Heading.lead (c :: rest) = none :=
    (Text.after?_cons ..).trans (if_neg hc)
  rw [Section.spots_index_row h, Heading.ofLine?_of_after? hafter]
  rfl

/-- A block has the sections of what is between its line feeds. -/
theorem spots_render (style : Style) (call : Call) :
    spots (index (style.render call)) = moved 1 (spots (index (style.inside call))) := by
  have hblock : style.render call = [] ++ '\n' :: (style.inside call ++ '\n' :: []) :=
    render_eq style call
  have hempty : spots (index []) = [] := rfl
  rw [hblock, Section.spots_index_line_feed, Section.spots_index_line_feed, hempty,
    Section.moved_nil, List.append_nil, List.nil_append]
  rfl

section
variable {call : Call} {handler : Text} (hcall : call.handler? = some handler)
  (hrow : '\n' ∉ handler)
include hcall hrow

/-- The sections of a block are its title, if that is a heading, and those of its prompt. -/
theorem spots_index_render :
    spots (index (Style.standard.render call)) =
      (Heading.ofLine? ("## " ++ titleCase (Style.standard.skillName handler))).toList.map (·, 1) ++
        moved (Text.byteSize (beforePrompt (Style.standard.skillName handler)))
          (spots (index (promptText call.prompt?))) := by
  have hskill := line_feed_not_mem_skillName Style.standard hrow
  generalize hname : Style.standard.skillName handler = skill at hskill ⊢
  have htitle : '\n' ∉ "## ".toList ++ titleCase skill := by
    rw [List.mem_append, not_or]
    exact ⟨by decide, line_feed_not_mem_titleCase hskill⟩
  have hread : spots (index ("1. Read the " ++ skill ++ " skill:")) = [] := by
    refine spots_index_of_head ?_ rfl (by decide)
    rw [List.mem_append, List.mem_append, not_or, not_or]
    exact ⟨⟨by decide, hskill⟩, by decide⟩
  have hfile : spots (index (Style.standard.fileRow call)) = [] := by
    refine spots_index_of_head ?_ rfl (by decide)
    unfold Style.fileRow
    simp only [hcall, Option.getD_some, hname, List.mem_append, not_or]
    exact ⟨⟨⟨⟨by decide, by decide⟩, by decide⟩, hskill⟩, by decide⟩
  have hfixed := spots_index_fixedRows
  simp only [fixedRows, List.forall_mem_cons] at hfixed
  obtain ⟨hnotice, hproceed, hfence, hclosing, -⟩ := hfixed
  rw [spots_render]
  unfold Style.inside Style.opening
  simp only [hcall, Option.getD_some, hname, Section.spots_index_line_feed, hnotice, hproceed,
    hread, hfile, hfence, hclosing, Section.spots_index_row htitle, Section.moved_nil,
    Section.moved_append, List.append_nil, List.nil_append, Section.moved_moved,
    ← byteSize_beforePrompt]
  rw [Section.moved, List.map_map]
  rfl

end

/-- The sections of a text with a block in it are those before the block, those of the block, and
those behind it. -/
theorem spots_index_block (style : Style) (call : Call) (before after : Text) :
    spots (index (before ++ (style.render call ++ after))) =
      spots (index before) ++ moved (Text.byteSize before) (spots (index (style.render call))) ++
        moved (Text.byteSize (before ++ style.render call)) (spots (index after)) := by
  have hsize : Text.byteSize (before ++ style.render call) =
      Text.byteSize before + 1 + (Text.byteSize (style.inside call) + 1) := by
    rw [render_eq, Text.byteSize_append, Text.byteSize_line_feed, Text.byteSize_append,
      Text.byteSize_line_feed, Nat.add_assoc]
    rfl
  rw [spots_render, hsize, render_eq, List.cons_append, List.append_assoc, List.singleton_append,
    Section.spots_index_line_feed, Section.spots_index_line_feed, Section.moved_append,
    Section.moved_moved, Section.moved_moved, List.append_assoc]

/-- A block opens a section exactly if its agent is named like a phase or its prompt has a heading.
It does so wherever it stands, and the text around it has the sections that it has by itself. -/
theorem index_render {call : Call} {handler : Text} (hcall : call.handler? = some handler)
    (hrow : '\n' ∉ handler) :
    let skill := Style.standard.skillName handler
    let block := Style.standard.render call
    (index block = [] ↔ ¬ IsPhaseName skill ∧
      ∀ row ∈ Text.rows (promptText call.prompt?), Heading.ofLine? row = none) ∧
    spots (index block) =
      (Heading.ofLine? ("## " ++ titleCase skill)).toList.map (·, 1) ++
        moved (Text.byteSize (beforePrompt skill)) (spots (index (promptText call.prompt?))) ∧
    ∀ before after, spots (index (before ++ (block ++ after))) =
      spots (index before) ++ moved (Text.byteSize before) (spots (index block)) ++
        moved (Text.byteSize (before ++ block)) (spots (index after)) := by
  have hspots := spots_index_render hcall hrow
  refine ⟨?_, hspots, spots_index_block Style.standard call⟩
  rw [← Section.spots_eq_nil, hspots, List.append_eq_nil_iff, Section.moved_eq_nil,
    Section.spots_eq_nil, Section.index_eq_nil, List.map_eq_nil_iff, Option.toList_eq_nil_iff,
    ← isSome_ofLine?_titleCase, Bool.not_eq_true, Option.isSome_eq_false_iff,
    Option.isNone_iff_eq_none]

/-- The block of an agent that is not named like a phase, without a prompt. -/
theorem index_render_planner :
    let handler : Text := "gsd-planner"
    let call : Call := ⟨"Task", .ofList [(Call.handlerKey, .text handler)]⟩
    call.handler? = some handler ∧ '\n' ∉ handler ∧ index (Style.standard.render call) = [] := by
  intro handler call
  have hcall : call.handler? = some handler := by decide +kernel
  have hrow : '\n' ∉ handler := by decide
  refine ⟨hcall, hrow, (index_render hcall hrow).1.2 ⟨?_, by decide +kernel⟩⟩
  rw [← isSome_ofLine?_titleCase]
  decide +kernel

/-- The block of an agent that is named like a phase has its title as a heading. -/
theorem index_render_phase :
    let handler : Text := "gsd-phase-1-setup"
    let call : Call := ⟨"Task", .ofList [(Call.handlerKey, .text handler)]⟩
    call.handler? = some handler ∧ '\n' ∉ handler ∧ call.prompt? = none ∧
      spots (index (Style.standard.render call)) = [(⟨"1", "Setup"⟩, 1)] ∧
      index (Style.standard.render call) ≠ [] := by
  intro handler call
  have hcall : call.handler? = some handler := by decide +kernel
  have hrow : '\n' ∉ handler := by decide
  have hspots : spots (index (Style.standard.render call)) = [(⟨"1", "Setup"⟩, 1)] := by
    rw [spots_index_render hcall hrow]
    decide +kernel
  refine ⟨hcall, hrow, by decide +kernel, hspots, fun hnil => ?_⟩
  rw [hnil] at hspots
  cases hspots

end Playbook.Invocation
