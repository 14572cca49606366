import Playbook.Proofs.Section.Headings
import Playbook.Proofs.Text.Slices

/-!
# The grammar of headings

A heading line is a lead-in, an ordinal, a gap and a title. It can be read in one way only: no
character of an ordinal opens a gap, and no title starts with a blank. The sections of a text are
its heading lines, each with what stands between it and the next one.

Results:
* `ofLine?_eq_some_iff`: a line has a heading exactly if it is a heading line.
* `Line.unique`: a heading line is taken apart in one way only.
* `mem_marks_rows`: the headings among the rows of a text are those of its heading lines.
* `slice_content`: the content of a section is what the text has between its offsets.
* `index_exact`: there is one section for each heading line, and with the preamble they make up
  the text.
-/
namespace Playbook

namespace Heading

/-! ## Heading lines -/

/-- One or more runs of digits joined by single dots. -/
def Ordinal (t : Text) : Prop :=
  ∃ runs : List Text, runs ≠ [] ∧ (∀ run ∈ runs, run ≠ [] ∧ ∀ c ∈ run, Text.isDigit c = true) ∧
    t = (['.'] : Text).intercalate runs

/-- A colon and any number of spaces and tabs, or at least one of these. -/
def Gap (t : Text) : Prop :=
  ∃ blanks : Text, (∀ c ∈ blanks, isGap c = true) ∧ (t = ':' :: blanks ∨ t = blanks ∧ blanks ≠ [])

/-- A title goes to the end of its line and starts with no blank. -/
def Title (t : Text) : Prop := t.head?.any (!Text.isBlank ·) = true

/-- A heading line taken apart. -/
structure Line (line ordinal gap title : Text) : Prop where
  text : line = lead ++ ordinal ++ gap ++ title
  ordinal : Ordinal ordinal
  gap : Gap gap
  title : Title title

theorem isOrdinal_iff {t : Text} : isOrdinal t = true ↔ Ordinal t := by
  have hrun {run : Text} : (!run.isEmpty && run.all Text.isDigit) = true ↔
      run ≠ [] ∧ ∀ c ∈ run, Text.isDigit c = true := by
    simp
  rw [isOrdinal, List.all_eq_true]
  simp only [hrun]
  constructor
  · intro h
    exact ⟨_, Text.fields_ne_nil '.' t, h, (Text.flatten_fields '.' t).symm⟩
  · intro h
    obtain ⟨runs, hne, hruns, ht⟩ := h
    rw [ht, Text.fields_intercalate hne]
    · exact hruns
    · intro run hmem hdot
      exact absurd ((hruns run hmem).2 '.' hdot) (by decide)

theorem Ordinal.isOrdinalChar {t : Text} (h : Ordinal t) {c : Char} (hc : c ∈ t) :
    isOrdinalChar c = true := by
  obtain ⟨runs, -, hruns, rfl⟩ := h
  rw [Heading.isOrdinalChar, Bool.or_eq_true, decide_eq_true_eq]
  rcases Text.mem_intercalate hc with hdot | ⟨run, hrun, hmem⟩
  · exact Or.inr hdot
  · exact Or.inl ((hruns run hrun).2 c hmem)

theorem isBlank_of_isGap {c : Char} (h : isGap c = true) : Text.isBlank c = true := by
  rw [isGap, Bool.or_eq_true, decide_eq_true_eq, decide_eq_true_eq] at h
  rcases h with rfl | rfl <;> decide

theorem gap_iff {t : Text} : Gap t ↔ ∃ c blanks, t = c :: blanks ∧ (c = ':' || isGap c) = true ∧
    ∀ d ∈ blanks, isGap d = true := by
  constructor
  · intro h
    obtain ⟨blanks, hblanks, rfl | ⟨rfl, hne⟩⟩ := h
    · exact ⟨':', blanks, rfl, rfl, hblanks⟩
    · obtain ⟨c, rest, rfl⟩ := List.exists_cons_of_ne_nil hne
      refine ⟨c, rest, rfl, ?_, fun d hd => hblanks d (List.mem_cons_of_mem c hd)⟩
      rw [hblanks c List.mem_cons_self, Bool.or_true]
  · intro h
    obtain ⟨c, blanks, rfl, hc, hblanks⟩ := h
    rw [Bool.or_eq_true, decide_eq_true_eq] at hc
    rcases hc with rfl | hc
    · exact ⟨blanks, hblanks, Or.inl rfl⟩
    · exact ⟨c :: blanks, List.forall_mem_cons.2 ⟨hc, hblanks⟩, Or.inr ⟨rfl, List.cons_ne_nil _ _⟩⟩

theorem Title.dropWhile_isGap {blanks title : Text} (h : Title title)
    (hblanks : ∀ c ∈ blanks, isGap c = true) : (blanks ++ title).dropWhile isGap = title := by
  rw [List.dropWhile_append_of_pos hblanks]
  cases title with
  | nil => rfl
  | cons c title =>
    have hc : Text.isBlank c = false := by simpa [Title] using h
    refine List.dropWhile_cons_of_neg fun hgap => ?_
    rw [isBlank_of_isGap hgap] at hc
    cases hc

theorem Ordinal.span {ordinal : Text} {c : Char} (h : Ordinal ordinal)
    (hc : (c = ':' || isGap c) = true) (rest : Text) :
    (ordinal ++ c :: rest).takeWhile Heading.isOrdinalChar = ordinal ∧
      (ordinal ++ c :: rest).dropWhile Heading.isOrdinalChar = c :: rest := by
  have hordinal : ∀ d ∈ ordinal, Heading.isOrdinalChar d = true := fun d hd => h.isOrdinalChar hd
  have hnot : ¬ Heading.isOrdinalChar c = true := by
    rw [Bool.or_eq_true, decide_eq_true_eq, isGap, Bool.or_eq_true, decide_eq_true_eq,
      decide_eq_true_eq] at hc
    rcases hc with rfl | rfl | rfl <;> decide
  rw [List.takeWhile_append_of_pos hordinal, List.dropWhile_append_of_pos hordinal,
    List.takeWhile_cons_of_neg hnot, List.dropWhile_cons_of_neg hnot, List.append_nil]
  exact ⟨rfl, rfl⟩

theorem Line.ofLine? {line ordinal gap title : Text} (h : Line line ordinal gap title) :
    ofLine? line = some ⟨ordinal, Text.trim title⟩ := by
  obtain ⟨c, blanks, hgap, hc, hblanks⟩ := gap_iff.1 h.gap
  obtain ⟨htake, hdrop⟩ := h.ordinal.span hc (blanks ++ title)
  have hlead : Text.after? lead line = some (ordinal ++ c :: (blanks ++ title)) := by
    rw [Text.after?_eq_some, h.text, hgap]
    simp
  have htitle : title.head?.any (!Text.isBlank ·) = true := h.title
  simp only [Heading.ofLine?, hlead, htake, hdrop, isOrdinal_iff.2 h.ordinal, if_true, title?,
    h.title.dropWhile_isGap hblanks, hc, htitle, Bool.and_self, Option.map_some]

/-- A line has a heading exactly if it is a heading line. -/
theorem ofLine?_eq_some_iff {line : Text} {heading : Heading} :
    Heading.ofLine? line = some heading ↔
      ∃ gap title, Line line heading.ordinal gap title ∧ heading.title = Text.trim title := by
  constructor
  · intro h
    obtain ⟨c, gap, title, hline, hordinal, hc, hgap, htitle, htrim⟩ := exists_of_ofLine? h
    refine ⟨c :: gap, title, ⟨?_, isOrdinal_iff.1 hordinal, ?_, htitle⟩, htrim⟩
    · rw [hline]
      simp
    · exact gap_iff.2 ⟨c, gap, rfl, hc, List.all_eq_true.1 hgap⟩
  · intro h
    obtain ⟨gap, title, hline, htrim⟩ := h
    rw [hline.ofLine?, ← htrim]

/-- A heading line is taken apart in one way only. -/
theorem Line.unique {line o₁ g₁ t₁ o₂ g₂ t₂ : Text} (h₁ : Line line o₁ g₁ t₁)
    (h₂ : Line line o₂ g₂ t₂) : o₁ = o₂ ∧ g₁ = g₂ ∧ t₁ = t₂ := by
  have ho : o₁ = o₂ := by
    have hread := h₁.ofLine?
    rw [h₂.ofLine?, Option.some.injEq, Heading.mk.injEq] at hread
    exact hread.1.symm
  subst ho
  obtain ⟨c₁, b₁, rfl, -, hb₁⟩ := gap_iff.1 h₁.gap
  obtain ⟨c₂, b₂, rfl, -, hb₂⟩ := gap_iff.1 h₂.gap
  have hrest := h₁.text.symm.trans h₂.text
  rw [List.append_assoc, List.append_assoc, List.append_assoc, List.append_assoc,
    List.append_right_inj, List.append_right_inj, List.cons_append, List.cons_append,
    List.cons.injEq] at hrest
  obtain ⟨rfl, hrest⟩ := hrest
  have ht : t₁ = t₂ := by
    rw [← h₁.title.dropWhile_isGap hb₁, hrest, h₂.title.dropWhile_isGap hb₂]
  subst ht
  rw [List.append_cancel_right hrest]
  exact ⟨rfl, rfl, rfl⟩

end Heading

namespace Section

/-! ## Sections by their heading lines -/

theorem mem_marks_rows {t : Text} {n : Nat} {heading : Heading} (start : Nat) :
    (heading, n) ∈ marks start (Text.rows t) ↔
      ∃ k row, n = start + k ∧ Text.HasRow t k row ∧ Heading.ofLine? row = some heading := by
  have hhead {row : Text} {start : Nat} {rest : List Text} :
      (heading, n) ∈ marks start (row :: rest) ↔ Heading.ofLine? row = some heading ∧ n = start ∨
        (heading, n) ∈ marks (start + Text.byteSize row + 1) rest := by
    cases hrow : Heading.ofLine? row with
    | some first => simp [marks_of_heading hrow, eq_comm]
    | none => simp [marks_of_none hrow]
  induction t using Text.rows_induction generalizing start with
  | last row hrow =>
    rw [Text.rows_of_not_mem hrow, hhead, marks]
    simp only [List.not_mem_nil, or_false, Text.hasRow_of_not_mem hrow]
    constructor
    · intro h
      exact ⟨0, row, h.2, ⟨rfl, rfl⟩, h.1⟩
    · intro h
      obtain ⟨k, r, rfl, ⟨rfl, rfl⟩, hr⟩ := h
      exact ⟨hr, rfl⟩
  | line row rest hrow ih =>
    rw [Text.rows_append_cons, Text.rows_of_not_mem hrow, List.singleton_append, hhead]
    simp only [ih, Text.hasRow_line hrow]
    constructor
    · intro h
      rcases h with ⟨hr, rfl⟩ | ⟨k, r, rfl, hrest, hr⟩
      · exact ⟨0, row, rfl, Or.inl ⟨rfl, rfl⟩, hr⟩
      · exact ⟨Text.byteSize row + 1 + k, r, by omega, Or.inr ⟨k, rfl, hrest⟩, hr⟩
    · intro h
      obtain ⟨k, r, rfl, ⟨rfl, rfl⟩ | ⟨j, rfl, hrest⟩, hr⟩ := h
      · exact Or.inl ⟨hr, rfl⟩
      · exact Or.inr ⟨j, r, by omega, hrest, hr⟩

/-- Marks come in the order of their places, no two at one place. -/
theorem pairwise_marks (start : Nat) (rs : List Text) :
    (marks start rs).Pairwise fun p q => p.2 < q.2 := by
  induction rs generalizing start with
  | nil => exact List.Pairwise.nil
  | cons row rest ih =>
    cases hrow : Heading.ofLine? row with
    | none =>
      rw [marks_of_none hrow]
      exact ih _
    | some heading =>
      rw [marks_of_heading hrow, List.pairwise_cons]
      refine ⟨fun q hq => ?_, ih _⟩
      have hle := (exists_of_mem_marks hq).1
      show start < q.2
      omega

/-- Where the first of some sections starts, or where the text ends. -/
def startOr (t : Text) : List Section → Nat
  | [] => Text.byteSize t
  | s :: _ => s.start

section
variable {t : Text} {before after : List Section}

theorem startOr_eq (h : index t = before ++ after) :
    startOr t after = Text.byteSize ((Outline.ofText t).preamble ++ before.flatMap content) := by
  cases after with
  | nil =>
    rw [List.append_nil] at h
    rw [startOr, ← h, preamble_index]
  | cons s after => rw [startOr, start_of_index h, Text.byteSize_append]

theorem stop_eq {s : Section} (h : index t = before ++ s :: after) : s.stop = startOr t after := by
  have happ : index t = (before ++ [s]) ++ after := by rw [h, List.append_assoc]; rfl
  rw [startOr_eq happ, stop, start_of_index h, List.flatMap_append, ← List.append_assoc,
    Text.byteSize_append, Text.byteSize_append, List.flatMap_singleton]

theorem slice_content {s : Section} (h : index t = before ++ s :: after) :
    Text.ValidSlice s.start s.stop t ∧ Text.slice s.start s.stop t = s.content := by
  have hstart : s.start =
      Text.byteSize ((Outline.ofText t).preamble ++ before.flatMap content) := startOr_eq h
  have hstop : s.stop = Text.byteSize
      ((Outline.ofText t).preamble ++ before.flatMap content ++ s.content) := by
    rw [stop, hstart, ← Text.byteSize_append]
  have ht : (Outline.ofText t).preamble ++ before.flatMap content ++ s.content ++
      after.flatMap content = t := by
    have hall := preamble_index t
    rwa [h, List.flatMap_append, List.flatMap_cons, ← List.append_assoc, ← List.append_assoc]
      at hall
  rw [hstart, hstop]
  exact Text.slice_of_eq ht.symm

end

theorem foldl_size (n : Nat) (sections : List Section) :
    sections.foldl (fun used s => used + s.size) n = n + (sections.flatMap content).length := by
  induction sections generalizing n with
  | nil => rfl
  | cons s rest ih =>
    rw [List.foldl_cons, ih, List.flatMap_cons, List.length_append, size, Nat.add_assoc]

theorem upTo_startOr (t : Text) :
    Text.upTo (startOr t (index t)) t = (Outline.ofText t).preamble := by
  have hcut := Text.upTo_append (Outline.ofText t).preamble ((index t).flatMap content)
  rw [preamble_index] at hcut
  have hstart : startOr t (index t) = Text.byteSize (Outline.ofText t).preamble := by
    rw [startOr_eq (List.nil_append (index t)).symm, List.flatMap_nil, List.append_nil]
  rw [hstart, hcut]

/-- A heading line can be read in one way only. There is one section for each of them, in order,
with its ordinal, its trimmed title, the byte at which the line starts, and what the text has from
there up to the next section or the end. What stands before the first section and the sections
make up the text, and so do their numbers of characters. -/
theorem index_exact (t : Text) :
    (∀ line o₁ g₁ t₁ o₂ g₂ t₂, Heading.Line line o₁ g₁ t₁ → Heading.Line line o₂ g₂ t₂ →
      o₁ = o₂ ∧ g₁ = g₂ ∧ t₁ = t₂) ∧
    (∀ heading n, (∃ s ∈ index t, s.heading = heading ∧ s.start = n) ↔
      ∃ line gap title, Text.HasRow t n line ∧ Heading.Line line heading.ordinal gap title ∧
        heading.title = Text.trim title) ∧
    (index t).Pairwise (fun s next => s.start < next.start) ∧
    (∀ before s after, index t = before ++ s :: after → s.stop = startOr t after ∧
      Text.ValidSlice s.start s.stop t ∧ Text.slice s.start s.stop t = s.content ∧
      s.size = s.content.length) ∧
    Text.upTo (startOr t (index t)) t ++ (index t).flatMap content = t ∧
    (index t).foldl (fun used s => used + s.size) (Text.upTo (startOr t (index t)) t).length =
      t.length := by
  refine ⟨fun _ _ _ _ _ _ _ h₁ h₂ => h₁.unique h₂, ?_, ?_, ?_, ?_, ?_⟩
  · intro heading n
    have hspots : (∃ s ∈ index t, s.heading = heading ∧ s.start = n) ↔
        (heading, n) ∈ spots (index t) := by simp [spots]
    rw [hspots, spots_index, mem_marks_rows]
    simp only [Heading.ofLine?_eq_some_iff, Nat.zero_add]
    constructor
    · intro h
      obtain ⟨k, line, rfl, hrow, gap, title, hline⟩ := h
      exact ⟨line, gap, title, hrow, hline⟩
    · intro h
      obtain ⟨line, gap, title, hrow, hline⟩ := h
      exact ⟨n, line, rfl, hrow, gap, title, hline⟩
  · have hmarks := pairwise_marks 0 (Text.rows t)
    rwa [← spots_index, spots, List.pairwise_map] at hmarks
  · intro before s after h
    obtain ⟨hvalid, hslice⟩ := slice_content h
    exact ⟨stop_eq h, hvalid, hslice, rfl⟩
  · rw [upTo_startOr, preamble_index]
  · rw [upTo_startOr, foldl_size, ← List.length_append, preamble_index]

/-- Gaps of each kind, and lines that come close to a heading. -/
example :
    (index ("Intro\n## Phase 1: A\n## Phase 2.1 B \n## Phase 3\tC\n## phase 4: D\n" ++
      "## Phase 5\u00a0E\n## Phase : F\n # Phase 7: G\n")).map (fun s => (s.heading, s.start)) =
      [(⟨"1", "A"⟩, 6), (⟨"2.1", "B"⟩, 20), (⟨"3", "C"⟩, 36)] := by
  decide +kernel

end Section

end Playbook
