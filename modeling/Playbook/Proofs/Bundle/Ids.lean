import Mathlib.Data.List.Nodup
import Playbook.Bundle

/-!
# The ids of satellites

A satellite is named after the ordinal of its section. If that id is taken, by a section with the
same ordinal or by a number put behind another one, it gets the first number that is free. The
ids given before are all that can be taken, so there is always one.

Results:
* `endingAt_injective`: the endings are all different.
* `exists_ending`: of more endings than are in use, one is free.
* `freshId_not_mem`: a fresh id is not taken.
* `nodup_freshIds`, `nodup_assignIds`: no id is given twice.
* `ne_of_mem_assignIds`: no satellite has the id of the main document.
-/
namespace Playbook.Bundle

/-! ## A fresh id -/

/-- The ending that is tried after so many others. -/
def endingAt : Nat → Text
  | 0 => []
  | k + 1 => '-' :: Text.ofNat (k + 2)

theorem endingAt_injective : Function.Injective endingAt := by
  intro j k h
  cases j with
  | zero => cases k with
    | zero => rfl
    | succ k => cases h
  | succ j => cases k with
    | zero => cases h
    | succ k =>
      have hsum := Text.ofNat_injective (List.cons.inj h).2
      omega

theorem endings_eq_map (n : Nat) : endings n = (List.range (n + 1)).map endingAt := by
  rw [endings, List.range_succ_eq_map, List.map_cons, List.map_map]
  rfl

theorem length_endings (n : Nat) : (endings n).length = n + 1 := by
  rw [endings_eq_map, List.length_map, List.length_range]

theorem nodup_endings (n : Nat) : (endings n).Nodup := by
  rw [endings_eq_map]
  exact List.nodup_range.map endingAt_injective

theorem dash_or_digit_of_mem_endings {n : Nat} {ending : Text} {c : Char} (h : ending ∈ endings n)
    (hc : c ∈ ending) : c = '-' ∨ c.isDigit = true := by
  rw [endings, List.mem_cons, List.mem_map] at h
  rcases h with rfl | ⟨i, -, rfl⟩
  · cases hc
  · exact (List.mem_cons.1 hc).imp_right Text.isDigit_of_mem_ofNat

/-- Of more endings than are in use, one is free. -/
theorem exists_ending (used : List Text) :
    ∃ ending, (endings used.length).find? (fun ending => !used.contains ending) = some ending ∧
      ending ∉ used := by
  cases hf : (endings used.length).find? fun ending => !used.contains ending with
  | some ending =>
    have hfree := List.find?_some hf
    rw [Bool.not_eq_true', List.contains_eq_mem, decide_eq_false_iff_not] at hfree
    exact ⟨ending, rfl, hfree⟩
  | none =>
    have hall : endings used.length ⊆ used := by
      intro ending he
      have hused := List.find?_eq_none.1 hf ending he
      rw [Bool.not_eq_true', Bool.not_eq_false, List.contains_eq_mem, decide_eq_true_eq] at hused
      exact hused
    have hlen := (nodup_endings used.length).length_le_of_subset hall
    rw [length_endings] at hlen
    omega

theorem freshId_eq {taken : List Text} {base found : Text}
    (h : (endings (taken.filterMap (Text.after? base)).length).find?
      (fun ending => !(taken.filterMap (Text.after? base)).contains ending) = some found) :
    freshId taken base = base ++ found := by
  simp only [freshId]
  rw [h, Option.getD_some]

theorem exists_freshId (taken : List Text) (base : Text) :
    ∃ n, ∃ ending ∈ endings n, freshId taken base = base ++ ending ∧ base ++ ending ∉ taken := by
  obtain ⟨ending, hf, hfree⟩ := exists_ending (taken.filterMap (Text.after? base))
  have hnot (htaken : base ++ ending ∈ taken) : False := hfree (append_mem_iff.1 htaken)
  exact ⟨_, ending, List.mem_of_find?_eq_some hf, freshId_eq hf, hnot⟩

theorem freshId_not_mem (taken : List Text) (base : Text) : freshId taken base ∉ taken := by
  obtain ⟨-, ending, -, heq, hfree⟩ := exists_freshId taken base
  rwa [heq]

/-! ## Ids one after the other -/

/-- The ids for bases in a row. What is given is taken from then on. -/
def freshIds (taken : List Text) : (bases : List Text) → List Text
  | [] => []
  | base :: rest => freshId taken base :: freshIds (freshId taken base :: taken) rest

section
variable {taken bases : List Text} {id : Text}

theorem not_mem_of_mem_freshIds (h : id ∈ freshIds taken bases) : id ∉ taken := by
  induction bases generalizing taken with
  | nil => cases h
  | cons base rest ih =>
    rcases List.mem_cons.1 h with rfl | h
    · exact freshId_not_mem taken base
    · exact fun htaken => ih h (List.mem_cons_of_mem _ htaken)

/-- No id is given twice: what is given later is not among the ids taken. -/
theorem nodup_freshIds (taken bases : List Text) : (freshIds taken bases).Nodup := by
  induction bases generalizing taken with
  | nil => exact List.nodup_nil
  | cons base rest ih =>
    rw [freshIds, List.nodup_cons]
    exact ⟨fun hmem => not_mem_of_mem_freshIds hmem List.mem_cons_self, ih _⟩

end

/-! ## The ids of all sections -/

section
variable {name : Text} {taken : List Text} {sections : List Section} {p : Text × Section}

theorem map_fst_assignIds (name : Text) (taken : List Text) (sections : List Section) :
    (assignIds name taken sections).map Prod.fst =
      freshIds taken (sections.map (satelliteId name)) := by
  induction sections generalizing taken with
  | nil => rfl
  | cons s rest ih => rw [assignIds, List.map_cons, ih, List.map_cons, freshIds]

/-- No two satellites have the same id. -/
theorem nodup_assignIds (name : Text) (taken : List Text) (sections : List Section) :
    ((assignIds name taken sections).map Prod.fst).Nodup := by
  rw [map_fst_assignIds]
  exact nodup_freshIds _ _

theorem exists_of_mem_assignIds (h : p ∈ assignIds name taken sections) :
    p.2 ∈ sections ∧ ∃ n, ∃ ending ∈ endings n, p.1 = satelliteId name p.2 ++ ending := by
  induction sections generalizing taken with
  | nil => cases h
  | cons s rest ih =>
    unfold assignIds at h
    rcases List.mem_cons.1 h with h | h
    · subst h
      obtain ⟨n, ending, hending, heq, -⟩ := exists_freshId taken (satelliteId name s)
      exact ⟨List.mem_cons_self, n, ending, hending, heq⟩
    · exact ⟨List.mem_cons_of_mem s (ih h).1, (ih h).2⟩

/-- No satellite has the id of the main document: its own is longer. -/
theorem ne_of_mem_assignIds (h : p ∈ assignIds name taken sections) : p.1 ≠ name := by
  obtain ⟨-, -, ending, -, heq⟩ := exists_of_mem_assignIds h
  intro hname
  have hlen := congrArg List.length (heq.symm.trans hname)
  simp only [satelliteId, List.length_append] at hlen
  have hpart : ("-phase-" : Text).length = 7 := by decide
  omega

/-! ## Ids in one row -/

theorem line_feed_not_mem_id (hname : '\n' ∉ name)
    (hordinal : ∀ s ∈ sections, '\n' ∉ s.heading.ordinal)
    (h : p ∈ assignIds name taken sections) : '\n' ∉ p.1 := by
  obtain ⟨hp, n, ending, hending, heq⟩ := exists_of_mem_assignIds h
  have hslug : '\n' ∉ p.2.slug := by
    intro hmem
    obtain ⟨c, hc, hchar⟩ := List.mem_map.1 hmem
    split at hchar
    · exact absurd hchar (by decide)
    · exact hordinal p.2 hp (hchar ▸ hc)
  have hpart : '\n' ∉ ("-phase-" : Text) := by decide
  have hnumber : '\n' ∉ ending := by
    intro hmem
    rcases dash_or_digit_of_mem_endings hending hmem with hchar | hchar
    · exact absurd hchar (by decide)
    · exact absurd hchar (by decide)
  rw [heq, satelliteId]
  simp only [List.mem_append, not_or]
  exact ⟨⟨⟨hname, hpart⟩, hslug⟩, hnumber⟩

end

end Playbook.Bundle
