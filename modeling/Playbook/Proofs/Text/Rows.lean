import Playbook.Text.Blank

/-!
# Texts row by row

The rows of a text are what stands between its line feeds, so there is always one more than there
are line feeds and the last may be empty. The lines of the text are its rows with the line feeds
that end them. What is to hold of every text can be shown for a single row and carried over from
a text to the same text with one row more in front.

Results:
* `rows_induction`: a text is a row, or a row, a line feed and a text.
* `rows_append_cons`: a line feed anywhere parts the rows.
* `rows_ofRows`: rows without line feeds are read back.
* `cut_row`: where the first row of two texts ends.
* `hasRow_of_not_mem`, `hasRow_line`: where the rows of a text stand.
* `lines_append`: where a line starts, the lines of a text part.
* `lines_flatten`: some lines of a text, up to one of them or from one on, are the lines of the
  text they make up.
-/
namespace Playbook.Text

/-- What stands between the line feeds of a text. -/
def rows (t : Text) : List Text := fields '\n' t

theorem rows_of_not_mem {row : Text} (h : '\n' ∉ row) : rows row = [row] :=
  fields_of_not_mem h

/-- A line feed anywhere parts the rows. -/
theorem rows_append_cons (t u : Text) : rows (t ++ '\n' :: u) = rows t ++ rows u :=
  fields_separator '\n' t u

theorem rows_append {front t row : Text} {rest : List Text} (h : '\n' ∉ front)
    (ht : rows t = row :: rest) : rows (front ++ t) = (front ++ row) :: rest := by
  unfold rows at *
  induction front with
  | nil => exact ht
  | cons c front ih =>
    simp only [List.mem_cons, not_or] at h
    rw [List.cons_append, fields, if_neg (Ne.symm h.1), ih h.2]
    rfl

theorem of_mem_rows {t row : Text} {c : Char} (h : row ∈ rows t) (hc : c ∈ row) :
    c ∈ t ∧ c ≠ '\n' := by
  unfold rows at h
  induction t generalizing row with
  | nil =>
    rw [fields, List.mem_singleton] at h
    subst h
    cases hc
  | cons d t ih =>
    unfold fields at h
    split at h
    · rcases List.mem_cons.1 h with rfl | h
      · cases hc
      · exact ⟨List.mem_cons_of_mem d (ih h hc).1, (ih h hc).2⟩
    · rename_i hd
      cases hf : fields '\n' t with
      | nil => exact absurd hf (fields_ne_nil '\n' t)
      | cons first rest =>
        rw [hf] at h ih
        rcases List.mem_cons.1 h with rfl | h
        · rcases List.mem_cons.1 hc with rfl | hc
          · exact ⟨List.mem_cons_self, hd⟩
          · have hfirst := ih List.mem_cons_self hc
            exact ⟨List.mem_cons_of_mem d hfirst.1, hfirst.2⟩
        · have hrest := ih (List.mem_cons_of_mem _ h) hc
          exact ⟨List.mem_cons_of_mem d hrest.1, hrest.2⟩

/-- Rows, each ended by a line feed. -/
def ofRows (rs : List Text) : Text := rs.flatMap (· ++ ['\n'])

theorem rows_ofRows {rs : List Text} (h : ∀ row ∈ rs, '\n' ∉ row) :
    rows (ofRows rs) = rs ++ [[]] := by
  induction rs with
  | nil => rfl
  | cons row rs ih =>
    have hrow := rows_of_not_mem (h row List.mem_cons_self)
    rw [ofRows, List.flatMap_cons, List.append_assoc, List.singleton_append, rows_append_cons, hrow]
    exact congrArg (row :: ·) (ih fun r hr => h r (List.mem_cons_of_mem _ hr))

/-- A text is a row, or a row, a line feed and a text. -/
@[elab_as_elim]
theorem rows_induction {motive : Text → Prop} (last : ∀ row, '\n' ∉ row → motive row)
    (line : ∀ row rest, '\n' ∉ row → motive rest → motive (row ++ '\n' :: rest)) (t : Text) :
    motive t := by
  by_cases h : '\n' ∈ t
  · obtain ⟨row, rest, ht, hrow⟩ := List.eq_append_cons_of_mem h
    rw [ht]
    exact line row rest hrow (rows_induction last line rest)
  · exact last t h
termination_by t.length
decreasing_by simp [ht]; omega

theorem exists_of_rows {t row : Text} {rest : List Text} (h : rows t = row :: rest) :
    ∃ behind, t = row ++ behind := by
  induction t using rows_induction with
  | last first hfirst =>
    rw [rows_of_not_mem hfirst, List.cons.injEq] at h
    exact ⟨[], by rw [h.1, List.append_nil]⟩
  | line first others hfirst ih =>
    rw [rows_append_cons, rows_of_not_mem hfirst, List.singleton_append, List.cons.injEq] at h
    exact ⟨'\n' :: others, by rw [h.1]⟩

/-- A row that ends behind a text ends with what stands there, or it ends within the text. -/
theorem cut_row {u v w row rest : Text} (h : u ++ (v ++ '\n' :: w) = row ++ '\n' :: rest)
    (hv : '\n' ∉ v) (hrow : '\n' ∉ row) :
    row = u ++ v ∧ w = rest ∨
      ∃ front, u = row ++ '\n' :: front ∧ front ++ (v ++ '\n' :: w) = rest := by
  by_cases hu : '\n' ∈ u
  · obtain ⟨first, front, rfl, hfirst⟩ := List.eq_append_cons_of_mem hu
    rw [List.append_assoc, List.cons_append] at h
    obtain ⟨rfl, rfl⟩ := append_cons_inj h hfirst hrow
    exact Or.inr ⟨front, rfl, rfl⟩
  · rw [← List.append_assoc] at h
    obtain ⟨rfl, rfl⟩ := append_cons_inj h (by simp [hu, hv]) hrow
    exact Or.inl ⟨rfl, rfl⟩

/-! ## Rows by their place -/

theorem byteSize_line_feed (t : Text) : byteSize ('\n' :: t) = 1 + byteSize t := rfl

/-- A longest stretch without line feeds, from byte `n` on. -/
def HasRow (t : Text) (n : Nat) (row : Text) : Prop :=
  ∃ front back, t = front ++ (row ++ back) ∧ byteSize front = n ∧ '\n' ∉ row ∧
    (front = [] ∨ endsLine front = true) ∧ (back = [] ∨ back.head? = some '\n')

theorem hasRow_of_not_mem {row : Text} (h : '\n' ∉ row) {n : Nat} {r : Text} :
    HasRow row n r ↔ n = 0 ∧ r = row := by
  constructor
  · intro hr
    obtain ⟨front, back, ht, rfl, -, hopened, hclosed⟩ := hr
    rw [ht, List.mem_append, List.mem_append, not_or, not_or] at h
    have hfront : front = [] := by
      rcases hopened with hf | hf
      · exact hf
      · rw [endsLine, decide_eq_true_eq] at hf
        exact absurd (List.mem_of_getLast? hf) h.1
    have hback : back = [] := by
      rcases hclosed with hb | hb
      · exact hb
      · exact absurd (List.mem_of_head? hb) h.2.2
    rw [hfront, hback] at ht
    subst hfront
    exact ⟨rfl, by simpa using ht.symm⟩
  · intro hr
    obtain ⟨rfl, rfl⟩ := hr
    exact ⟨[], [], by simp, rfl, h, Or.inl rfl, Or.inl rfl⟩

theorem hasRow_line {row : Text} (h : '\n' ∉ row) {rest : Text} {n : Nat} {r : Text} :
    HasRow (row ++ '\n' :: rest) n r ↔
      n = 0 ∧ r = row ∨ ∃ k, n = byteSize row + 1 + k ∧ HasRow rest k r := by
  have hsize (u : Text) : byteSize (u ++ ['\n']) = byteSize u + 1 := byteSize_append u ['\n']
  constructor
  · intro hr
    obtain ⟨front, back, ht, rfl, hwhole, hopened, hclosed⟩ := hr
    rcases hopened with rfl | hopened
    · left
      refine ⟨rfl, ?_⟩
      rcases hclosed with rfl | hclosed
      · have hmem : '\n' ∈ r := by
          rw [show r = row ++ '\n' :: rest by simpa using ht.symm]
          simp
        exact absurd hmem hwhole
      · obtain ⟨tail, rfl⟩ := List.head?_eq_some_iff.1 hclosed
        exact (append_cons_inj ht h hwhole).1.symm
    · -- the text in front ends with a line feed, the first of them or a later one
      right
      rw [endsLine, decide_eq_true_eq] at hopened
      obtain ⟨u, rfl⟩ := List.getLast?_eq_some_iff.1 hopened
      by_cases hu : '\n' ∈ u
      · obtain ⟨v, w, rfl, hv⟩ := List.eq_append_cons_of_mem hu
        rw [show v ++ '\n' :: w ++ ['\n'] ++ (r ++ back) = v ++ '\n' :: (w ++ ['\n'] ++ (r ++ back))
          by simp] at ht
        obtain ⟨rfl, rfl⟩ := append_cons_inj ht h hv
        refine ⟨byteSize (w ++ ['\n']), ?_, w ++ ['\n'], back, rfl, rfl, hwhole, Or.inr ?_, hclosed⟩
        · rw [List.append_assoc, List.cons_append, List.append_cons, byteSize_append, hsize]
        · simp [endsLine]
      · rw [List.append_assoc, List.singleton_append] at ht
        obtain ⟨rfl, rfl⟩ := append_cons_inj ht h hu
        exact ⟨0, hsize row, [], back, rfl, rfl, hwhole, Or.inl rfl, hclosed⟩
  · intro hr
    rcases hr with ⟨rfl, rfl⟩ | ⟨k, rfl, front, back, rfl, rfl, hwhole, hopened, hclosed⟩
    · exact ⟨[], '\n' :: rest, rfl, rfl, h, Or.inl rfl, Or.inr rfl⟩
    · refine ⟨row ++ ['\n'] ++ front, back, by simp, ?_, hwhole, Or.inr ?_, hclosed⟩
      · rw [byteSize_append, hsize]
      · rcases hopened with rfl | hopened
        · simp [endsLine]
        · exact endsLine_append _ hopened

/-! ## Lines -/

/-- A line starts behind the text. -/
def LineStart (t : Text) : Prop := t = [] ∨ endsLine t = true

instance (t : Text) : Decidable (LineStart t) := inferInstanceAs (Decidable (_ ∨ _))

theorem LineStart.append {t u : Text} (ht : LineStart t) (hu : LineStart u) :
    LineStart (t ++ u) := by
  rcases hu with rfl | hu
  · rwa [List.append_nil]
  · exact Or.inr (endsLine_append t hu)

theorem LineStart.behind {t u : Text} (h : LineStart (t ++ u)) : LineStart u := by
  rcases List.eq_nil_or_concat u with rfl | ⟨v, c, rfl⟩
  · exact Or.inl rfl
  · rcases h with h | h
    · exact Or.inl (List.append_eq_nil_iff.1 h).2
    · refine Or.inr ?_
      rw [endsLine, decide_eq_true_eq] at h ⊢
      rw [← h]
      simp

theorem LineStart.eq_append {t : Text} (h : LineStart t) (hne : t ≠ []) : ∃ u, t = u ++ ['\n'] := by
  have hlast := h.resolve_left hne
  rw [endsLine, decide_eq_true_eq] at hlast
  exact List.getLast?_eq_some_iff.1 hlast

theorem chomp_append {row : Text} (h : '\n' ∉ row) (t : Text) :
    chomp (row ++ t) = row ++ chomp t := by
  refine List.takeWhile_append_of_pos fun c hc => ?_
  rw [decide_eq_true_eq]
  rintro rfl
  exact h hc

theorem chomp_of_not_mem {row : Text} (h : '\n' ∉ row) : chomp row = row := by
  have hrow := chomp_append h []
  rwa [List.append_nil, show chomp [] = [] from rfl, List.append_nil] at hrow

theorem chomp_row {row : Text} (h : '\n' ∉ row) : chomp (row ++ ['\n']) = row := by
  rw [chomp_append h, show chomp ['\n'] = [] from rfl, List.append_nil]

theorem lines_of_not_mem {row : Text} (h : '\n' ∉ row) (hne : row ≠ []) : lines row = [row] := by
  induction row with
  | nil => exact absurd rfl hne
  | cons c row ih =>
    simp only [List.mem_cons, not_or] at h
    rw [lines, if_neg (Ne.symm h.1)]
    cases row with
    | nil => rfl
    | cons d row => rw [ih h.2 (List.cons_ne_nil d row)]

theorem lines_row {row : Text} (h : '\n' ∉ row) (rest : Text) :
    lines (row ++ '\n' :: rest) = (row ++ ['\n']) :: lines rest := by
  induction row with
  | nil => rfl
  | cons c row ih =>
    simp only [List.mem_cons, not_or] at h
    rw [List.cons_append, lines, if_neg (Ne.symm h.1), ih h.2]
    rfl

/-- Where a line starts, the lines of a text part. -/
theorem lines_append {t : Text} (h : LineStart t) (u : Text) :
    lines (t ++ u) = lines t ++ lines u := by
  induction t using rows_induction with
  | last row hrow =>
    by_cases hne : row = []
    · rw [hne]
      rfl
    · obtain ⟨v, rfl⟩ := h.eq_append hne
      simp at hrow
  | line row rest hrow ih =>
    rw [List.append_cons] at h
    rw [List.append_assoc, List.cons_append, lines_row hrow, lines_row hrow, ih h.behind,
      List.cons_append]

/-- The lines of a text up to one of them, and those from it on, are the lines of the two texts
they make up. -/
theorem lines_flatten {t : Text} {front back : List Text} (h : lines t = front ++ back) :
    lines front.flatten = front ∧ lines back.flatten = back := by
  induction t using rows_induction generalizing front with
  | last row hrow =>
    by_cases hne : row = []
    · subst hne
      obtain ⟨rfl, rfl⟩ := List.append_eq_nil_iff.1 h.symm
      exact ⟨rfl, rfl⟩
    · rw [lines_of_not_mem hrow hne] at h
      rcases List.append_eq_singleton_iff.1 h.symm with ⟨rfl, rfl⟩ | ⟨rfl, rfl⟩
      all_goals simp [lines, lines_of_not_mem hrow hne]
  | line row rest hrow ih =>
    rw [lines_row hrow] at h
    cases front with
    | nil =>
      rw [List.nil_append] at h
      refine ⟨rfl, ?_⟩
      rw [← h, List.flatten_cons, flatten_lines, List.append_assoc, List.singleton_append,
        lines_row hrow]
    | cons first front =>
      rw [List.cons_append, List.cons.injEq] at h
      obtain ⟨rfl, h⟩ := h
      obtain ⟨hfront, hback⟩ := ih h
      refine ⟨?_, hback⟩
      rw [List.flatten_cons, List.append_assoc, List.singleton_append, lines_row hrow, hfront]

end Playbook.Text
