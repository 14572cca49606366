import Playbook.Plan
import Playbook.Proofs.Text.Bytes
import Playbook.Proofs.Text.Rows

/-!
# Sections partition a text

The offsets of a section are byte offsets, its size is a number of characters, and its content
is a text. The three agree: cut at the start of a section, a text gives its preamble and the
sections before. Such a cut is always between two lines, so each side is outlined as it was in
the whole.

Results:
* `exists_cut`: a text can be cut before any of its headings.
* `preamble_index`: preamble and sections, in order, make up the text.
* `index_ne_nil_iff`: a text has sections exactly if one of its lines is a heading.
* `upTo_start`, `upTo_stop`: what lies before a section, and what lies before its end.
* `index_upTo`: cut at the start of a section, a text has the sections before.
* `index_content`: the content of a section is one section.
* `endsLine_upTo_start`: what lies before a section is empty or ends its last line.
* `exists_gaps`: sections are their trimmed contents with blanks around them.
-/
namespace Playbook

namespace Outline

theorem addLine_of_heading {line : Text} {heading : Heading}
    (h : Heading.ofLine? (Text.chomp line) = some heading) (rest : Outline) :
    addLine line rest = ⟨[], (heading, line ++ rest.preamble) :: rest.parts⟩ := by
  rw [addLine, h]

theorem addLine_of_none {line : Text} (h : Heading.ofLine? (Text.chomp line) = none)
    (rest : Outline) : addLine line rest = ⟨line ++ rest.preamble, rest.parts⟩ := by
  rw [addLine, h]

/-- Lines can be cut before the heading of any part. -/
theorem exists_cut_lines {ls : List Text} {before after : List (Heading × Text)}
    (h : (ls.foldr addLine ⟨[], []⟩).parts = before ++ after) :
    ∃ front back, ls = front ++ back ∧
      front.foldr addLine ⟨[], []⟩ = ⟨(ls.foldr addLine ⟨[], []⟩).preamble, before⟩ ∧
      back.foldr addLine ⟨[], []⟩ = ⟨[], after⟩ := by
  induction ls generalizing before with
  | nil =>
    obtain ⟨rfl, rfl⟩ := List.append_eq_nil_iff.1 h.symm
    exact ⟨[], [], rfl, rfl, rfl⟩
  | cons line ls ih =>
    rw [List.foldr_cons] at h ⊢
    cases hl : Heading.ofLine? (Text.chomp line) with
    | some heading =>
      rw [addLine_of_heading hl] at h ⊢
      cases before with
      | nil =>
        refine ⟨[], line :: ls, rfl, rfl, ?_⟩
        rw [List.foldr_cons, addLine_of_heading hl]
        exact congrArg (Outline.mk []) h
      | cons part before =>
        rw [List.cons_append, List.cons.injEq] at h
        obtain ⟨rfl, h⟩ := h
        obtain ⟨front, back, hls, hfront, hback⟩ := ih h
        refine ⟨line :: front, back, by rw [hls, List.cons_append], ?_, hback⟩
        rw [List.foldr_cons, hfront, addLine_of_heading hl]
    | none =>
      rw [addLine_of_none hl] at h ⊢
      obtain ⟨front, back, hls, hfront, hback⟩ := ih h
      refine ⟨line :: front, back, by rw [hls, List.cons_append], ?_, hback⟩
      rw [List.foldr_cons, hfront, addLine_of_none hl]

theorem exists_cut {t : Text} {before after : List (Heading × Text)}
    (h : (ofText t).parts = before ++ after) :
    ∃ front back, t = front ++ back ∧ ofText front = ⟨(ofText t).preamble, before⟩ ∧
      ofText back = ⟨[], after⟩ ∧ (after ≠ [] → front = [] ∨ Text.endsLine front = true) := by
  obtain ⟨front, back, hls, hfront, hback⟩ := exists_cut_lines h
  obtain ⟨hf, hb⟩ := Text.lines_flatten hls
  refine ⟨front.flatten, back.flatten, ?_, ?_, ?_, ?_⟩
  · rw [← List.flatten_append, ← hls, Text.flatten_lines]
  · rw [ofText, hf, hfront]
    rfl
  · rw [ofText, hb, hback]
  · intro ha
    have hne : back ≠ [] := by
      rintro rfl
      exact ha (congrArg Outline.parts hback).symm
    rcases List.eq_nil_or_concat front with rfl | ⟨init, line, rfl⟩
    · exact Or.inl rfl
    · have hline := Text.endsLine_lines hls hne line (by simp)
      right
      rw [List.concat_eq_append, List.flatten_append]
      refine Text.endsLine_append _ ?_
      rw [List.flatten_singleton]
      exact hline

theorem parts_ne_nil_iff (ls : List Text) :
    (ls.foldr addLine ⟨[], []⟩).parts ≠ [] ↔
      ∃ line ∈ ls, ∃ heading, Heading.ofLine? (Text.chomp line) = some heading := by
  induction ls with
  | nil => simp
  | cons line ls ih =>
    rw [List.foldr_cons]
    simp only [List.mem_cons, exists_eq_or_imp, ← ih]
    cases hl : Heading.ofLine? (Text.chomp line) with
    | some heading => simp [addLine_of_heading hl]
    | none => simp [addLine_of_none hl]

end Outline

namespace Section

theorem placed_eq_append {start : Nat} {parts : List (Heading × Text)}
    {before after : List Section} (h : placed start parts = before ++ after) :
    ∃ p q, parts = p ++ q ∧ placed start p = before ∧
      placed (start + Text.byteSize (before.flatMap content)) q = after := by
  induction parts generalizing start before with
  | nil =>
    obtain ⟨rfl, rfl⟩ := List.append_eq_nil_iff.1 h.symm
    exact ⟨[], [], rfl, rfl, rfl⟩
  | cons part parts ih =>
    obtain ⟨heading, text⟩ := part
    cases before with
    | nil => exact ⟨[], (heading, text) :: parts, rfl, rfl, h⟩
    | cons b before =>
      rw [placed, List.cons_append, List.cons.injEq] at h
      obtain ⟨rfl, h⟩ := h
      obtain ⟨p, q, rfl, hp, hq⟩ := ih h
      refine ⟨(heading, text) :: p, q, rfl, by rw [placed, hp], ?_⟩
      rw [List.flatMap_cons, Text.byteSize_append, ← Nat.add_assoc]
      exact hq

theorem placed_eq_cons {start : Nat} {parts : List (Heading × Text)} {after : List Section}
    {s : Section} (h : placed start parts = s :: after) :
    s.start = start ∧ ∃ rest, parts = (s.heading, s.content) :: rest := by
  cases parts with
  | nil => cases h
  | cons part parts =>
    rw [placed, List.cons.injEq] at h
    obtain ⟨rfl, -⟩ := h
    exact ⟨rfl, parts, rfl⟩

end Section

/-! ## The sections of a text -/

namespace Section

/-- Preamble and sections, in order, make up the text. -/
theorem preamble_index (t : Text) :
    (Outline.ofText t).preamble ++ (index t).flatMap content = t := by
  rw [index, Plan.flatMap_content_placed]
  exact Outline.text_outline t

/-- Whether some line is a heading. -/
def HasHeading (t : Text) : Prop :=
  ∃ line ∈ Text.lines t, ∃ heading, Heading.ofLine? (Text.chomp line) = some heading

theorem index_ne_nil_iff (t : Text) : index t ≠ [] ↔ HasHeading t := by
  unfold HasHeading
  rw [← Outline.parts_ne_nil_iff, index, Outline.ofText]
  cases ((Text.lines t).foldr Outline.addLine ⟨[], []⟩).parts with
  | nil => simp [placed]
  | cons part parts => simp [placed]

section
variable {t : Text} {before after : List Section} {s : Section}

theorem start_of_index (h : index t = before ++ s :: after) :
    s.start =
      Text.byteSize (Outline.ofText t).preamble + Text.byteSize (before.flatMap content) := by
  obtain ⟨p, q, -, -, hq⟩ := placed_eq_append h
  exact (placed_eq_cons hq).1

theorem upTo_start (h : index t = before ++ s :: after) :
    Text.upTo s.start t = (Outline.ofText t).preamble ++ before.flatMap content := by
  have ht := preamble_index t
  rw [h, List.flatMap_append, ← List.append_assoc] at ht
  have hcut := Text.upTo_append ((Outline.ofText t).preamble ++ before.flatMap content)
    ((s :: after).flatMap content)
  rw [ht] at hcut
  rwa [start_of_index h, ← Text.byteSize_append]

theorem upTo_stop (h : index t = before ++ s :: after) :
    Text.upTo s.stop t = (Outline.ofText t).preamble ++ (before ++ [s]).flatMap content := by
  have ht := preamble_index t
  rw [h, List.append_cons, List.flatMap_append, ← List.append_assoc] at ht
  have hstop : s.stop = Text.byteSize ((Outline.ofText t).preamble ++
      (before ++ [s]).flatMap content) := by
    rw [stop, start_of_index h, Text.byteSize_append, List.flatMap_append, Text.byteSize_append,
      List.flatMap_singleton, Nat.add_assoc]
  have hcut := Text.upTo_append ((Outline.ofText t).preamble ++ (before ++ [s]).flatMap content)
    (after.flatMap content)
  rw [ht] at hcut
  rwa [hstop]

theorem upTo_start_append (h : index t = before ++ s :: after) :
    Text.upTo s.start t ++ (s :: after).flatMap content = t := by
  rw [upTo_start h, List.append_assoc, ← List.flatMap_append, ← h, preamble_index]

/-- Cut at the start of a section, a text is outlined on each side as it was in the whole. -/
theorem exists_cut_start (h : index t = before ++ s :: after) :
    index (Text.upTo s.start t) = before ∧
    (Text.upTo s.start t = [] ∨ Text.endsLine (Text.upTo s.start t) = true) ∧
    ∃ back rest, Outline.ofText back = ⟨[], (s.heading, s.content) :: rest⟩ := by
  obtain ⟨p, q, hparts, hp, hq⟩ := placed_eq_append h
  obtain ⟨-, rest, rfl⟩ := placed_eq_cons hq
  obtain ⟨front, back, -, hfront, hback, hends⟩ := Outline.exists_cut hparts
  have hcut : Text.upTo s.start t = front := by
    have hbefore := Plan.flatMap_content_placed (Text.byteSize (Outline.ofText t).preamble) p
    rw [hp] at hbefore
    rw [upTo_start h, hbefore, ← Outline.text_outline front, hfront]
    rfl
  rw [hcut]
  refine ⟨?_, hends (List.cons_ne_nil _ _), back, rest, hback⟩
  rw [index, hfront]
  exact hp

/-- Cut at the start of a section, a text has the sections before. -/
theorem index_upTo (h : index t = before ++ s :: after) : index (Text.upTo s.start t) = before :=
  (exists_cut_start h).1

/-- What lies before a section is empty or ends its last line. -/
theorem endsLine_upTo_start (h : index t = before ++ s :: after) :
    Text.upTo s.start t = [] ∨ Text.endsLine (Text.upTo s.start t) = true :=
  (exists_cut_start h).2.1

/-- The content of a section is one section. -/
theorem index_content (h : s ∈ index t) : index s.content = [⟨s.heading, 0, s.content⟩] := by
  obtain ⟨before, after, hi⟩ := List.append_of_mem h
  obtain ⟨-, -, back, rest, hback⟩ := exists_cut_start hi
  have hparts : (Outline.ofText back).parts = [(s.heading, s.content)] ++ rest := by rw [hback]; rfl
  obtain ⟨front, -, -, hfront, -, -⟩ := Outline.exists_cut hparts
  rw [hback] at hfront
  have htext : front = s.content := by
    rw [← Outline.text_outline front, hfront]
    simp [Outline.text]
  rw [htext] at hfront
  simp only [index]
  rw [hfront]
  rfl

end

/-! ## Trimmed contents -/

/-- The text of sections is that of their trimmed contents, with blanks around each. -/
theorem exists_gaps (sections : List Section) :
    ∃ gaps : List (Text × Text), gaps.length = sections.length ∧
      (∀ gap ∈ gaps, gap.1.all Text.isBlank = true ∧ gap.2.all Text.isBlank = true) ∧
      sections.flatMap content = (gaps.zip sections).flatMap fun (gap, s) =>
        gap.1 ++ Text.trim s.content ++ gap.2 := by
  induction sections with
  | nil => exact ⟨[], rfl, by simp, rfl⟩
  | cons s rest ih =>
    obtain ⟨gaps, hlen, hblank, hgaps⟩ := ih
    obtain ⟨lead, trail, hcontent, hlead, htrail⟩ := Text.exists_trim s.content
    refine ⟨(lead, trail) :: gaps, by rw [List.length_cons, hlen, List.length_cons], ?_, ?_⟩
    · intro gap hgap
      rcases List.mem_cons.1 hgap with h | h
      · subst h
        exact ⟨List.all_eq_true.2 hlead, List.all_eq_true.2 htrail⟩
      · exact hblank gap h
    · rw [List.flatMap_cons, hgaps, List.zip_cons_cons, List.flatMap_cons]
      conv => lhs; lhs; rw [hcontent]

end Section

end Playbook
