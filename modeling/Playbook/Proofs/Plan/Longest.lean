import Playbook.Proofs.Plan.Accounting

/-!
# The longest prefix that fits

A plan goes through the sections once and never looks again. Sizes only add up, so the sections
that it keeps are as many as ever fit together, and no later section, however small, could be kept
behind one that moves out.

Results:
* `fits_mono`: fewer sections fit if more do.
* `fits_of_le`, `not_fits_of_lt`: what a plan keeps fits, and nothing longer does.
* `ofBody?_longest`: a plan keeps the longest prefix of the sections that fits.
-/
namespace Playbook.Plan

/-- Whether the first `j` sections are within the cutoff, where `used` characters are used
already. -/
def Fits (b : Budget) (used : Nat) (sections : List Section) (j : Nat) : Bool :=
  !b.overCutoff (total used (sections.take j))

section
variable {b : Budget} {used : Nat} {sections kept overflow : List Section}

theorem fits_iff {j : Nat} :
    Fits b used sections j = true ↔ b.overCutoff (total used (sections.take j)) = false := by
  rw [Fits, Bool.not_eq_true']

theorem total_take_le {i j : Nat} (h : i ≤ j) :
    total used (sections.take i) ≤ total used (sections.take j) := by
  have hsplit : sections.take j = sections.take i ++ (sections.take j).drop i := by
    have hall := List.take_append_drop i (sections.take j)
    rwa [List.take_take, Nat.min_eq_left h, eq_comm] at hall
  rw [hsplit, total_append, total_eq (total used (sections.take i))]
  exact Nat.le_add_right _ _

theorem fits_mono {i j : Nat} (h : i ≤ j) (hj : Fits b used sections j = true) :
    Fits b used sections i = true := by
  rw [fits_iff] at hj ⊢
  refine Bool.eq_false_iff.2 fun hover => ?_
  rw [Budget.overCutoff_mono (total_take_le h) hover] at hj
  cases hj

theorem fits_of_le (h : keep b used sections = (kept, overflow)) (hne : kept ≠ []) {j : Nat}
    (hj : j ≤ kept.length) : Fits b used sections j = true := by
  have hall := keep_append b used sections
  rw [h] at hall
  refine fits_mono hj (fits_iff.2 ?_)
  rw [← hall, List.take_left]
  exact overCutoff_kept h hne

theorem not_fits_of_lt (h : keep b used sections = (kept, overflow)) {j : Nat}
    (hj : kept.length < j) (hle : j ≤ sections.length) : Fits b used sections j = false := by
  have hall := keep_append b used sections
  rw [h] at hall
  have hall : kept ++ overflow = sections := hall
  cases overflow with
  | nil =>
    rw [← hall, List.append_nil] at hle
    omega
  | cons s moved =>
    refine Bool.eq_false_iff.2 fun hfits => ?_
    have hnext := fits_iff.1 (fits_mono hj hfits)
    have htake : sections.take (kept.length + 1) = kept ++ [s] := by
      rw [← hall, List.take_length_add_append]
      rfl
    rw [← hall] at h
    rw [htake, overCutoff_moved h] at hnext
    cases hnext

end

theorem countP_range {p : Nat → Bool} {k n : Nat} (hle : k ≤ n) (hlt : ∀ i < k, p i = true)
    (hge : ∀ i < n, k ≤ i → p i = false) : (List.range n).countP p = k := by
  obtain ⟨m, rfl⟩ := Nat.exists_eq_add_of_le hle
  have hfront : (List.range k).countP p = k := by
    rw [List.countP_eq_length.2 fun i hi => hlt i (List.mem_range.1 hi), List.length_range]
  have hback : ((List.range m).map (k + ·)).countP p = 0 := by
    rw [List.countP_eq_zero]
    intro i hi
    obtain ⟨j, hj, rfl⟩ := List.mem_map.1 hi
    have hj := List.mem_range.1 hj
    rw [hge (k + j) (by omega) (by omega)]
    exact Bool.false_ne_true
  rw [List.range_add, List.countP_append, hfront, hback, Nat.add_zero]

/-- A text without sections has no plan. Else the plan keeps the longest prefix of the sections
that fits: all shorter ones do, and no longer one does. What it keeps and what it moves out make up
the text. -/
theorem ofBody?_longest (b : Budget) (overhead : Nat) (body : Text) :
    (Section.index body = [] → ofBody? b overhead body = none) ∧
    ∀ first rest, Section.index body = first :: rest → ∃ p k,
      ofBody? b overhead body = some p ∧
      p.preamble = Text.upTo first.start body ∧
      p.retained = p.preamble ++ ((Section.index body).take k).flatMap Section.content ∧
      p.overflow = (Section.index body).drop k ∧
      p.retained ++ p.overflow.flatMap Section.content = body ∧
      k = (List.range (Section.index body).length).countP (fun i =>
        Fits b (overhead + p.preamble.length) (Section.index body) (i + 1)) ∧
      (∀ j < k, Fits b (overhead + p.preamble.length) (Section.index body) j = true) ∧
      ∀ j, k < j → j ≤ (Section.index body).length →
        Fits b (overhead + p.preamble.length) (Section.index body) j = false := by
  refine ⟨ofBody?_of_index_eq_nil b overhead, fun first rest hi => ?_⟩
  have hfirst : Section.index body = [] ++ first :: rest := hi
  have hpreamble : (Outline.ofText body).preamble = Text.upTo first.start body := by
    rw [Section.upTo_start hfirst, List.flatMap_nil, List.append_nil]
  have hne : Section.index body ≠ [] := by
    rw [hi]
    exact List.cons_ne_nil first rest
  obtain ⟨⟨kept, overflow⟩, hk⟩ : ∃ q,
    keep b (overhead + (Outline.ofText body).preamble.length) (Section.index body) = q := ⟨_, rfl⟩
  have hp := ofBody?_of_index_ne_nil b overhead hne hk
  have hall : Section.index body = kept ++ overflow := index_of_ofBody? hp
  have hle : kept.length ≤ (Section.index body).length := by
    rw [hall, List.length_append]
    exact Nat.le_add_right _ _
  have hshort : ∀ i < kept.length, ∀ j ≤ i + 1,
      Fits b (overhead + (Outline.ofText body).preamble.length) (Section.index body) j = true :=
    fun i hi j hj => fits_of_le hk (List.ne_nil_of_length_pos (by omega)) (by omega)
  have hlong : ∀ j, kept.length < j → j ≤ (Section.index body).length →
      Fits b (overhead + (Outline.ofText body).preamble.length) (Section.index body) j = false :=
    fun _ hlt hj => not_fits_of_lt hk hlt hj
  refine ⟨_, kept.length, hp, hpreamble, ?_, ?_, text_plan hp, ?_, ?_, hlong⟩
  · rw [hall, List.take_left, retained]
  · rw [hall, List.drop_left]
  · exact (countP_range hle (fun i hi => hshort i hi _ (Nat.le_refl _))
      fun i hi hki => hlong _ (by omega) hi).symm
  · exact fun j hj => hshort j hj j (Nat.le_succ j)

/-- A section that brings the document right up to the cutoff stays. -/
theorem ofBody?_longest_two_phases :
    let body : Text := "## Phase 1: A\nx\n## Phase 2: B\ny\n"
    ∃ p, ofBody? ⟨16, Double.one⟩ 0 body = some p ∧
      p.overflow = (Section.index body).drop 1 := by
  intro body
  obtain ⟨first, rest, hi⟩ := List.exists_cons_of_ne_nil
    (show Section.index body ≠ [] by decide)
  obtain ⟨p, k, hp, hpreamble, -, hoverflow, -, hcount, -⟩ :=
    (ofBody?_longest ⟨16, Double.one⟩ 0 body).2 first rest hi
  have hstart : first.start = 0 := by
    have hhead : (Section.index body).head?.map Section.start = some 0 := by decide
    rw [hi] at hhead
    simpa using hhead
  rw [hpreamble, hstart] at hcount
  have hk : k = 1 := by
    rw [hcount]
    decide +kernel
  exact ⟨p, hp, hk ▸ hoverflow⟩

end Playbook.Plan
