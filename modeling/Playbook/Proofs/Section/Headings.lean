import Playbook.Proofs.Section.Partition

/-!
# Where the headings are

The sections of a text have the headings among its rows, in order, and start where these rows do.
So text behind the last heading changes nothing about where the sections are as long as none of
its rows is a heading, and neither do blanks, which cannot make a row one.

Results:
* `Heading.ofLine?_append`: blanks behind a line do not change its heading.
* `spots_index`: headings and starts of the sections of a text, read from its rows.
* `spots_index_append`: rows that are no headings, behind a closed line, open no section.
* `spots_index_append_blank`: blanks behind a text open no section and end none.
* `spots_index_trim`: the content of a section, trimmed, is still one section.
* `spots_index_line_feed`: the sections on both sides of a line feed.
* `index_eq_nil`: a text has no sections exactly if none of its rows is a heading.
-/
namespace Playbook

/-! ## Blanks behind a heading -/

namespace Text

theorem isBlank_false_of_isDigit {c : Char} (h : isDigit c = true) : isBlank c = false := by
  have hall : ∀ first ∈ digitZeros, ∀ k < 10, isBlank (Char.ofNat (first + k)) = false := by
    decide +kernel
  obtain ⟨first, hfirst, hrange⟩ := List.any_eq_true.1 h
  rw [Bool.and_eq_true, decide_eq_true_eq, decide_eq_true_eq] at hrange
  have hc := hall first hfirst (c.toNat - first) (by omega)
  rwa [Nat.add_sub_cancel' hrange.1, Char.ofNat_toNat] at hc

end Text

namespace Heading

theorem isBlank_false_of_isOrdinalChar {c : Char} (h : isOrdinalChar c = true) :
    Text.isBlank c = false := by
  rw [isOrdinalChar, Bool.or_eq_true, decide_eq_true_eq] at h
  rcases h with h | rfl
  · exact Text.isBlank_false_of_isDigit h
  · decide

section
variable {gap : Text} (hgap : ∀ c ∈ gap, Text.isBlank c = true)
include hgap

theorem takeWhile_isOrdinalChar_of_blank : gap.takeWhile isOrdinalChar = [] := by
  cases gap with
  | nil => rfl
  | cons c gap =>
    rw [List.takeWhile_cons_of_neg]
    intro hc
    have hblank := hgap c List.mem_cons_self
    rw [isBlank_false_of_isOrdinalChar hc] at hblank
    cases hblank

theorem span_isOrdinalChar_append (t : Text) :
    (t ++ gap).takeWhile isOrdinalChar = t.takeWhile isOrdinalChar ∧
      (t ++ gap).dropWhile isOrdinalChar = t.dropWhile isOrdinalChar ++ gap := by
  induction t with
  | nil =>
    have htake := takeWhile_isOrdinalChar_of_blank hgap
    have hall := List.takeWhile_append_dropWhile (p := isOrdinalChar) (l := gap)
    rw [htake, List.nil_append] at hall
    exact ⟨htake, hall⟩
  | cons c t ih =>
    rw [List.cons_append]
    cases hc : isOrdinalChar c with
    | true => simp [hc, ih]
    | false => simp [hc]

theorem any_head?_dropWhile_of_blank :
    (gap.dropWhile isGap).head?.any (!Text.isBlank ·) = false := by
  cases hd : gap.dropWhile isGap with
  | nil => rfl
  | cons c rest =>
    have hmem : c ∈ gap := by
      refine (List.dropWhile_sublist isGap).subset ?_
      rw [hd]
      exact List.mem_cons_self
    simp [hgap c hmem]

theorem title?_append (t : Text) : title? (t ++ gap) = title? t := by
  cases t with
  | nil =>
    cases gap with
    | nil => rfl
    | cons c gap =>
      have hrest := any_head?_dropWhile_of_blank fun d hd => hgap d (List.mem_cons_of_mem c hd)
      simp [title?, hrest]
  | cons c t =>
    simp only [List.cons_append, title?, List.dropWhile_append]
    cases hd : t.dropWhile isGap with
    | nil => simp [any_head?_dropWhile_of_blank hgap]
    | cons d rest =>
      have htrim := Text.trim_append hgap (d :: rest)
      rw [List.cons_append] at htrim
      simp [htrim]

/-- Blanks behind a line do not change its heading. -/
theorem ofLine?_append (line : Text) : ofLine? (line ++ gap) = ofLine? line := by
  cases hlead : Text.after? lead line with
  | some rest =>
    have happ : Text.after? lead (line ++ gap) = some (rest ++ gap) := by
      rw [Text.after?_eq_some] at hlead ⊢
      rw [hlead, List.append_assoc]
    obtain ⟨htake, hdrop⟩ := span_isOrdinalChar_append hgap rest
    simp only [ofLine?, hlead, happ, htake, hdrop, title?_append hgap]
  | none =>
    have hnone : ofLine? line = none := by simp only [ofLine?, hlead]
    rw [hnone]
    cases happ : Text.after? lead (line ++ gap) with
    | none => simp only [ofLine?, happ]
    | some rest =>
      -- the lead-in reaches into the blanks, so blanks are all that follows it
      have hblank : ∀ c ∈ rest, Text.isBlank c = true := by
        rw [Text.after?_eq_some] at happ
        rcases List.append_eq_append_iff.1 happ with ⟨u, hu, hg⟩ | ⟨u, hu, hg⟩
        · intro c hc
          exact hgap c (by rw [hg]; exact List.mem_append_right _ hc)
        · rw [Text.after?_eq_some.2 hu] at hlead
          cases hlead
      simp only [ofLine?, happ, takeWhile_isOrdinalChar_of_blank hblank]
      rfl

end

theorem ofLine?_of_after? {line : Text} (h : Text.after? lead line = none) :
    ofLine? line = none := by
  simp only [ofLine?, h]

/-- A heading line taken apart: lead-in, ordinal, a colon or a gap, more gap, and the title. -/
theorem exists_of_ofLine? {line : Text} {heading : Heading} (h : ofLine? line = some heading) :
    ∃ c gap title, line = lead ++ heading.ordinal ++ c :: (gap ++ title) ∧
      isOrdinal heading.ordinal = true ∧ (c = ':' || isGap c) = true ∧ gap.all isGap = true ∧
      title.head?.any (!Text.isBlank ·) = true ∧ heading.title = Text.trim title := by
  simp only [ofLine?] at h
  split at h
  · cases h
  · rename_i rest hrest
    split at h
    · rename_i hordinal
      obtain ⟨title, htitle, rfl⟩ := Option.map_eq_some_iff.1 h
      have hall := List.takeWhile_append_dropWhile (p := isOrdinalChar) (l := rest)
      cases hd : rest.dropWhile isOrdinalChar with
      | nil =>
        rw [hd] at htitle
        cases htitle
      | cons c t =>
        rw [hd] at htitle hall
        simp only [title?] at htitle
        split at htitle
        · rename_i hc
          rw [Bool.and_eq_true] at hc
          refine ⟨c, t.takeWhile isGap, t.dropWhile isGap, ?_, hordinal, hc.1, ?_, hc.2, ?_⟩
          · rw [List.takeWhile_append_dropWhile, List.append_assoc, hall]
            exact Text.after?_eq_some.1 hrest
          · exact List.all_takeWhile
          · exact (Option.some.inj htitle).symm
        · cases htitle
    · cases h

theorem mem_of_ofLine? {line : Text} {heading : Heading} (h : ofLine? line = some heading) :
    (∀ c ∈ heading.ordinal, c ∈ line) ∧ ∀ c ∈ heading.title, c ∈ line := by
  obtain ⟨d, gap, title, hline, -, -, -, -, htitle⟩ := exists_of_ofLine? h
  obtain ⟨front, back, htrim, -, -⟩ := Text.exists_trim title
  rw [htitle, hline]
  constructor
  · intro c hc
    simp [hc]
  · intro c hc
    have hmem : c ∈ title := by
      rw [htrim]
      simp [hc]
    simp [hmem]

end Heading

namespace Section

/-! ## Headings among rows -/

/-- Headings and starts of sections. -/
def spots (sections : List Section) : List (Heading × Nat) :=
  sections.map fun s => (s.heading, s.start)

/-- The headings among rows, each with the byte at which its row starts. -/
def marks : (start : Nat) → List Text → List (Heading × Nat)
  | _, [] => []
  | start, row :: rest =>
    match Heading.ofLine? row with
    | some heading => (heading, start) :: marks (start + Text.byteSize row + 1) rest
    | none => marks (start + Text.byteSize row + 1) rest

theorem marks_of_heading {row : Text} {heading : Heading} (h : Heading.ofLine? row = some heading)
    (start : Nat) (rest : List Text) :
    marks start (row :: rest) = (heading, start) :: marks (start + Text.byteSize row + 1) rest := by
  rw [marks, h]

theorem marks_of_none {row : Text} (h : Heading.ofLine? row = none) (start : Nat)
    (rest : List Text) :
    marks start (row :: rest) = marks (start + Text.byteSize row + 1) rest := by
  rw [marks, h]

theorem marks_eq_nil {rs : List Text} (h : ∀ row ∈ rs, Heading.ofLine? row = none) (start : Nat) :
    marks start rs = [] := by
  induction rs generalizing start with
  | nil => rfl
  | cons row rest ih =>
    rw [marks_of_none (h row List.mem_cons_self)]
    exact ih (fun r hr => h r (List.mem_cons_of_mem _ hr)) _

theorem marks_append {rs : List Text} (h : ∀ row ∈ rs, Heading.ofLine? row = none) (start : Nat)
    (front : List Text) : marks start (front ++ rs) = marks start front := by
  induction front generalizing start with
  | nil => exact marks_eq_nil h start
  | cons row rest ih =>
    rw [List.cons_append]
    cases hrow : Heading.ofLine? row with
    | some heading => rw [marks_of_heading hrow, marks_of_heading hrow, ih]
    | none => rw [marks_of_none hrow, marks_of_none hrow, ih]

theorem exists_of_mem_marks {start : Nat} {rs : List Text} {p : Heading × Nat}
    (h : p ∈ marks start rs) : start ≤ p.2 ∧ ∃ row ∈ rs, Heading.ofLine? row = some p.1 := by
  induction rs generalizing start with
  | nil => cases h
  | cons row rest ih =>
    have hlater (h : p ∈ marks (start + Text.byteSize row + 1) rest) :
        start ≤ p.2 ∧ ∃ r ∈ row :: rest, Heading.ofLine? r = some p.1 := by
      obtain ⟨hle, r, hr, hheading⟩ := ih h
      exact ⟨by omega, r, List.mem_cons_of_mem row hr, hheading⟩
    cases hrow : Heading.ofLine? row with
    | none => exact hlater (by rwa [marks_of_none hrow] at h)
    | some heading =>
      rw [marks_of_heading hrow] at h
      rcases List.mem_cons.1 h with rfl | h
      · exact ⟨Nat.le_refl _, row, List.mem_cons_self, hrow⟩
      · exact hlater h

theorem exists_of_marks_start {start : Nat} {rs : List Text} {heading : Heading}
    (h : (heading, start) ∈ marks start rs) :
    ∃ row rest, rs = row :: rest ∧ Heading.ofLine? row = some heading := by
  have hlater (row : Text) (rest : List Text) :
      (heading, start) ∉ marks (start + Text.byteSize row + 1) rest := by
    intro hmem
    have hle := (exists_of_mem_marks hmem).1
    omega
  cases rs with
  | nil => cases h
  | cons row rest =>
    refine ⟨row, rest, rfl, ?_⟩
    cases hrow : Heading.ofLine? row with
    | none => exact absurd (by rwa [marks_of_none hrow] at h) (hlater row rest)
    | some first =>
      rw [marks_of_heading hrow] at h
      rcases List.mem_cons.1 h with h | h
      · rw [(Prod.mk.inj h).1]
      · exact absurd h (hlater row rest)

end Section

namespace Outline

/-- The spots of an outline that starts at byte `start`. -/
def spotsFrom (start : Nat) (o : Outline) : List (Heading × Nat) :=
  Section.spots (Section.placed (start + Text.byteSize o.preamble) o.parts)

theorem ofText_row {row : Text} (h : '\n' ∉ row) : ofText row = addLine row ⟨[], []⟩ := by
  by_cases hne : row = []
  · subst hne
    rfl
  · rw [ofText, Text.lines_of_not_mem h hne]
    rfl

theorem ofText_row_append {row : Text} (h : '\n' ∉ row) (rest : Text) :
    ofText (row ++ '\n' :: rest) = addLine (row ++ ['\n']) (ofText rest) := by
  rw [ofText, Text.lines_row h]
  rfl

theorem spotsFrom_ofText (start : Nat) (t : Text) :
    (ofText t).spotsFrom start = Section.marks start (Text.rows t) := by
  induction t using Text.rows_induction generalizing start with
  | last row hrow =>
    have hchomp := Text.chomp_of_not_mem hrow
    rw [ofText_row hrow, Text.rows_of_not_mem hrow]
    cases hl : Heading.ofLine? row with
    | some heading =>
      rw [addLine_of_heading (by rwa [hchomp]), Section.marks_of_heading hl]
      rfl
    | none =>
      rw [addLine_of_none (by rwa [hchomp]), Section.marks_of_none hl]
      rfl
  | line row rest hrow ih =>
    have hchomp := Text.chomp_row hrow
    have hsize : Text.byteSize (row ++ ['\n']) = Text.byteSize row + 1 := by
      rw [Text.byteSize_append]
      rfl
    have hrest := ih (start + Text.byteSize row + 1)
    rw [ofText_row_append hrow, Text.rows_append_cons, Text.rows_of_not_mem hrow,
      List.singleton_append]
    unfold spotsFrom at hrest ⊢
    cases hl : Heading.ofLine? row with
    | some heading =>
      rw [addLine_of_heading (by rwa [hchomp]), Section.marks_of_heading hl, ← hrest]
      simp only [Section.placed, Section.spots, List.map_cons, Text.byteSize_append, hsize,
        ← Nat.add_assoc]
      rfl
    | none =>
      rw [addLine_of_none (by rwa [hchomp]), Section.marks_of_none hl, ← hrest]
      simp only [Text.byteSize_append, hsize, ← Nat.add_assoc]

end Outline

namespace Section

/-- Headings and starts of the sections of a text, read from its rows. -/
theorem spots_index (t : Text) : spots (index t) = marks 0 (Text.rows t) := by
  rw [← Outline.spotsFrom_ofText, Outline.spotsFrom, Nat.zero_add]
  rfl

section
variable {t : Text} {s : Section} (h : s ∈ index t)
include h

/-- The heading of a section is that of a row. -/
theorem exists_row : ∃ row ∈ Text.rows t, Heading.ofLine? row = some s.heading := by
  have hspot : (s.heading, s.start) ∈ spots (index t) := List.mem_map_of_mem h
  rw [spots_index] at hspot
  exact (exists_of_mem_marks hspot).2

theorem line_feed_not_mem_heading : '\n' ∉ s.heading.ordinal ∧ '\n' ∉ s.heading.title := by
  obtain ⟨row, hrow, hheading⟩ := exists_row h
  obtain ⟨hordinal, htitle⟩ := Heading.mem_of_ofLine? hheading
  exact ⟨fun hmem => (Text.of_mem_rows hrow (hordinal _ hmem)).2 rfl,
    fun hmem => (Text.of_mem_rows hrow (htitle _ hmem)).2 rfl⟩

/-- The content of a section starts with its heading line. -/
theorem exists_content : ∃ behind, s.content = Heading.lead ++ behind := by
  have hspot : (s.heading, 0) ∈ spots (index s.content) := by
    rw [index_content h]
    exact List.mem_cons_self
  rw [spots_index] at hspot
  obtain ⟨row, rest, hrows, hheading⟩ := exists_of_marks_start hspot
  obtain ⟨behind, hcontent⟩ := Text.exists_of_rows hrows
  obtain ⟨c, gap, title, hline, -⟩ := Heading.exists_of_ofLine? hheading
  rw [hcontent, hline, List.append_assoc, List.append_assoc]
  exact ⟨_, rfl⟩

end

/-! ## Text behind the sections -/

/-- Rows that are no headings, behind a closed line, open no section. -/
theorem spots_index_append {t : Text} (ht : t = [] ∨ Text.endsLine t = true) {rs : List Text}
    (hrs : ∀ row ∈ rs, '\n' ∉ row ∧ Heading.ofLine? row = none) :
    spots (index (t ++ Text.ofRows rs)) = spots (index t) := by
  have hrows := Text.rows_ofRows fun row hrow => (hrs row hrow).1
  have hempty : Heading.ofLine? [] = none := rfl
  have hplain : ∀ row ∈ rs ++ [[]], Heading.ofLine? row = none := by
    intro row hrow
    rcases List.mem_append.1 hrow with h | h
    · exact (hrs row h).2
    · rw [List.mem_singleton.1 h, hempty]
  rw [spots_index, spots_index]
  rcases ht with rfl | ht
  · rw [List.nil_append, hrows, marks_eq_nil hplain]
    rfl
  · obtain ⟨u, rfl⟩ : ∃ u, t = u ++ ['\n'] := by
      unfold Text.endsLine at ht
      rw [decide_eq_true_eq] at ht
      exact List.getLast?_eq_some_iff.1 ht
    rw [List.append_assoc, List.singleton_append, Text.rows_append_cons, Text.rows_append_cons,
      hrows, marks_append hplain, marks_append]
    intro row hrow
    rw [show Text.rows [] = [[]] from rfl, List.mem_singleton] at hrow
    rw [hrow, hempty]

theorem ofLine?_eq_none_of_blank {row : Text} (h : ∀ c ∈ row, Text.isBlank c = true) :
    Heading.ofLine? row = none :=
  Heading.ofLine?_append h []

/-- Blanks behind a text open no section and end none. -/
theorem spots_index_append_blank {gap : Text} (h : ∀ c ∈ gap, Text.isBlank c = true) (t : Text) :
    spots (index (t ++ gap)) = spots (index t) := by
  rw [spots_index, spots_index]
  generalize 0 = start
  induction t using Text.rows_induction generalizing start with
  | last row hrow =>
    obtain ⟨first, others, hgap⟩ := List.exists_cons_of_ne_nil (Text.fields_ne_nil '\n' gap)
    have hrows : Text.rows gap = first :: others := hgap
    have hblank : ∀ r ∈ Text.rows gap, ∀ c ∈ r, Text.isBlank c = true :=
      fun r hr c hc => h c (Text.of_mem_rows hr hc).1
    rw [hrows] at hblank
    have hfirst := Heading.ofLine?_append (hblank first List.mem_cons_self) row
    have hothers (n : Nat) : marks n others = [] := marks_eq_nil (fun r hr =>
      ofLine?_eq_none_of_blank (hblank r (List.mem_cons_of_mem _ hr))) n
    rw [Text.rows_append hrow hrows, Text.rows_of_not_mem hrow]
    cases hl : Heading.ofLine? row with
    | some heading =>
      rw [hl] at hfirst
      rw [marks_of_heading hfirst, marks_of_heading hl, hothers]
      rfl
    | none =>
      rw [hl] at hfirst
      rw [marks_of_none hfirst, marks_of_none hl, hothers]
      rfl
  | line row rest hrow ih =>
    rw [List.append_assoc, List.cons_append, Text.rows_append_cons, Text.rows_append_cons,
      Text.rows_of_not_mem hrow, List.singleton_append, List.singleton_append]
    cases hl : Heading.ofLine? row with
    | some heading => rw [marks_of_heading hl, marks_of_heading hl, ih]
    | none => rw [marks_of_none hl, marks_of_none hl, ih]

/-- The content of a section, trimmed, is still one section at its start. -/
theorem spots_index_trim {t : Text} {s : Section} (h : s ∈ index t) :
    spots (index (Text.trim s.content)) = [(s.heading, 0)] := by
  obtain ⟨lead, trail, hcontent, hlead, htrail⟩ := Text.exists_trim s.content
  -- the content starts with no blank, so nothing is trimmed there
  have hnil : lead = [] := by
    obtain ⟨behind, hstart⟩ := exists_content h
    cases lead with
    | nil => rfl
    | cons c lead =>
      have hblank := hlead c List.mem_cons_self
      rw [hstart, List.cons_append, List.cons_append] at hcontent
      rw [← (List.cons.inj hcontent).1] at hblank
      exact absurd hblank (by decide)
  rw [hnil, List.nil_append] at hcontent
  rw [← spots_index_append_blank htrail, ← hcontent, index_content h]
  rfl

/-! ## Sections on both sides of a line feed -/

/-- The same headings, `n` bytes on. -/
def moved (n : Nat) (found : List (Heading × Nat)) : List (Heading × Nat) :=
  found.map fun p => (p.1, n + p.2)

@[simp] theorem moved_nil (n : Nat) : moved n [] = [] := rfl

@[simp] theorem moved_append (n : Nat) (found others : List (Heading × Nat)) :
    moved n (found ++ others) = moved n found ++ moved n others := List.map_append

theorem moved_moved (m n : Nat) (found : List (Heading × Nat)) :
    moved m (moved n found) = moved (m + n) found := by
  simp [moved, Nat.add_assoc]

theorem moved_eq_nil {n : Nat} {found : List (Heading × Nat)} : moved n found = [] ↔ found = [] :=
  List.map_eq_nil_iff

theorem marks_add (m n : Nat) (rs : List Text) : marks (m + n) rs = moved m (marks n rs) := by
  induction rs generalizing n with
  | nil => rfl
  | cons row rest ih =>
    have hrest := ih (n + Text.byteSize row + 1)
    rw [← Nat.add_assoc, ← Nat.add_assoc] at hrest
    cases hrow : Heading.ofLine? row with
    | some heading =>
      rw [marks_of_heading hrow, marks_of_heading hrow, hrest]
      rfl
    | none => rw [marks_of_none hrow, marks_of_none hrow, hrest]

theorem marks_line_feed (start : Nat) (t u : Text) :
    marks start (Text.rows (t ++ '\n' :: u)) =
      marks start (Text.rows t) ++ marks (start + Text.byteSize t + 1) (Text.rows u) := by
  induction t using Text.rows_induction generalizing start with
  | last row hrow =>
    rw [Text.rows_append_cons, Text.rows_of_not_mem hrow, List.singleton_append]
    cases hl : Heading.ofLine? row with
    | some heading =>
      rw [marks_of_heading hl, marks_of_heading hl]
      rfl
    | none =>
      rw [marks_of_none hl, marks_of_none hl]
      rfl
  | line row rest hrow ih =>
    have hsize : Text.byteSize (row ++ '\n' :: rest) =
        Text.byteSize row + 1 + Text.byteSize rest := by
      rw [Text.byteSize_append, Text.byteSize_line_feed, Nat.add_assoc]
    have hrest := ih (start + Text.byteSize row + 1)
    rw [List.append_assoc, List.cons_append, Text.rows_append_cons, Text.rows_append_cons row rest,
      Text.rows_of_not_mem hrow, List.singleton_append, List.singleton_append, hsize,
      ← Nat.add_assoc, ← Nat.add_assoc]
    cases hl : Heading.ofLine? row with
    | some heading =>
      rw [marks_of_heading hl, marks_of_heading hl, hrest]
      rfl
    | none => rw [marks_of_none hl, marks_of_none hl, hrest]

/-- The sections on both sides of a line feed. -/
theorem spots_index_line_feed (t u : Text) :
    spots (index (t ++ '\n' :: u)) =
      spots (index t) ++ moved (Text.byteSize t + 1) (spots (index u)) := by
  have hmoved := marks_add (Text.byteSize t + 1) 0 (Text.rows u)
  rw [spots_index, spots_index, spots_index, marks_line_feed, Nat.zero_add, ← hmoved, Nat.add_zero]

theorem spots_index_row {row : Text} (h : '\n' ∉ row) :
    spots (index row) = (Heading.ofLine? row).toList.map (·, 0) := by
  rw [spots_index, Text.rows_of_not_mem h]
  cases hl : Heading.ofLine? row with
  | some heading =>
    rw [marks_of_heading hl]
    rfl
  | none =>
    rw [marks_of_none hl]
    rfl

theorem spots_eq_nil {sections : List Section} : spots sections = [] ↔ sections = [] :=
  List.map_eq_nil_iff

theorem index_eq_nil {t : Text} :
    index t = [] ↔ ∀ row ∈ Text.rows t, Heading.ofLine? row = none := by
  have hmarks {start : Nat} {rs : List Text} (h : marks start rs = []) :
      ∀ row ∈ rs, Heading.ofLine? row = none := by
    induction rs generalizing start with
    | nil => exact fun row hrow => absurd hrow List.not_mem_nil
    | cons row rest ih =>
      cases hrow : Heading.ofLine? row with
      | some heading =>
        rw [marks_of_heading hrow] at h
        cases h
      | none =>
        rw [marks_of_none hrow] at h
        exact List.forall_mem_cons.2 ⟨hrow, ih h⟩
  rw [← spots_eq_nil, spots_index]
  exact ⟨hmarks, fun h => marks_eq_nil h 0⟩

end Section

end Playbook
