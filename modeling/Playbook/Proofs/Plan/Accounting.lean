import Playbook.Proofs.Plan.Cutoff
import Playbook.Proofs.Section.Partition

/-!
# The accounts of a plan

A plan adds up what the document has besides its body, the preamble and one section after the
other. At every section the sum is the size of the document cut there, so with all sections it
is the size of the whole. A document over its budget is over the cutoff, and some section has to
move out.

Results:
* `keep_from`: behind kept sections a plan goes on as one that starts with their total.
* `overCutoff_kept`, `overCutoff_moved`: what is kept is within the cutoff, and over it with the
  first section that moves out.
* `overCutoff_total`: nothing moves out only if the total of all sections is within the cutoff.
* `retained_of_ofBody?`: a plan keeps the text before the first section that it moves out.
* `total_start`, `total_stop`: the total at a section is the size of the document cut there.
* `exists_moved`: the plan for a document over its budget moves something out.
* `split_outcomes`: a document stays whole, cannot be split, or gets a satellite.
-/
namespace Playbook

namespace Plan

/-! ## The running total -/

/-- The characters used once the sections are kept as well. -/
def total : (size : Nat) → List Section → Nat
  | size, [] => size
  | size, s :: rest => total (size + s.size) rest

theorem total_eq (size : Nat) (sections : List Section) :
    total size sections = size + (sections.flatMap Section.content).length := by
  induction sections generalizing size with
  | nil => rfl
  | cons s rest ih =>
    rw [total, ih, List.flatMap_cons, List.length_append, Section.size, Nat.add_assoc]

theorem total_append (size : Nat) (before rest : List Section) :
    total size (before ++ rest) = total (total size before) rest := by
  rw [total_eq, total_eq, total_eq, List.flatMap_append, List.length_append, Nat.add_assoc]

section
variable {b : Budget} {size : Nat} {s : Section} {rest kept overflow : List Section}

theorem keep_of_over (h : b.overCutoff (size + s.size) = true) (rest : List Section) :
    keep b size (s :: rest) = ([], s :: rest) := by
  rw [keep, if_pos h]

theorem keep_of_within (h : b.overCutoff (size + s.size) = false)
    (hr : keep b (size + s.size) rest = (kept, overflow)) :
    keep b size (s :: rest) = (s :: kept, overflow) := by
  rw [keep, if_neg (by rw [h]; exact Bool.false_ne_true), hr]

/-- What is kept of a first section and others: nothing, or the section and what is kept behind
it. -/
theorem keep_cons (h : keep b size (s :: rest) = (kept, overflow)) :
    (b.overCutoff (size + s.size) = true ∧ kept = [] ∧ overflow = s :: rest) ∨
    (b.overCutoff (size + s.size) = false ∧ ∃ kept', kept = s :: kept' ∧
      keep b (size + s.size) rest = (kept', overflow)) := by
  cases hs : b.overCutoff (size + s.size) with
  | true =>
    rw [keep_of_over hs, Prod.mk.injEq] at h
    exact Or.inl ⟨rfl, h.1.symm, h.2.symm⟩
  | false =>
    obtain ⟨⟨kept', overflow'⟩, hr⟩ : ∃ p, keep b (size + s.size) rest = p := ⟨_, rfl⟩
    rw [keep_of_within hs hr, Prod.mk.injEq] at h
    obtain ⟨hk, ho⟩ := h
    subst ho
    exact Or.inr ⟨rfl, kept', hk.symm, hr⟩

/-- Behind kept sections a plan goes on as one that starts with their total. -/
theorem keep_from {before more : List Section}
    (h : keep b size (before ++ rest) = (before ++ more, overflow)) :
    keep b (total size before) rest = (more, overflow) := by
  induction before generalizing size with
  | nil => exact h
  | cons s before ih =>
    rw [List.cons_append, List.cons_append] at h
    rcases keep_cons h with ⟨-, hk, -⟩ | ⟨-, kept', hk, hr⟩
    · exact absurd hk (List.cons_ne_nil _ _)
    · rw [List.cons.injEq] at hk
      rw [← hk.2] at hr
      exact ih hr

/-- What is kept is within the cutoff, unless it is nothing. -/
theorem overCutoff_kept {sections : List Section} (h : keep b size sections = (kept, overflow))
    (hne : kept ≠ []) : b.overCutoff (total size kept) = false := by
  induction sections generalizing size kept with
  | nil => exact absurd (Prod.mk.inj h).1.symm hne
  | cons s rest ih =>
    rcases keep_cons h with ⟨-, hk, -⟩ | ⟨hs, kept', rfl, hr⟩
    · exact absurd hk hne
    · rw [total]
      cases kept' with
      | nil => exact hs
      | cons next kept' => exact ih hr (List.cons_ne_nil _ _)

/-- The first section that moves out would bring what is kept over the cutoff. -/
theorem overCutoff_moved {moved : List Section}
    (h : keep b size (kept ++ rest) = (kept, s :: moved)) :
    b.overCutoff (total size (kept ++ [s])) = true := by
  have hfrom : keep b (total size kept) rest = ([], s :: moved) :=
    keep_from (by rwa [List.append_nil])
  have hall := keep_append b (total size kept) rest
  rw [hfrom, List.nil_append] at hall
  rw [← hall] at hfrom
  rcases keep_cons hfrom with ⟨hs, -, -⟩ | ⟨-, kept', hk, -⟩
  · rwa [total_append]
  · cases hk

/-- Nothing moves out only if the total of all sections is within the cutoff. -/
theorem overCutoff_total {sections : List Section} (hne : sections ≠ [])
    (h : keep b size sections = (kept, [])) : b.overCutoff (total size sections) = false := by
  have hall := keep_append b size sections
  rw [h, List.append_nil] at hall
  subst hall
  exact overCutoff_kept h hne

end

/-! ## The plan of a body -/

section
variable (b : Budget) (overhead : Nat) {body : Text}

theorem ofBody?_of_index_eq_nil (h : Section.index body = []) :
    ofBody? b overhead body = none := by
  rw [ofBody?, h]

theorem ofBody?_of_index_ne_nil (h : Section.index body ≠ []) {kept overflow : List Section}
    (hk : keep b (overhead + (Outline.ofText body).preamble.length) (Section.index body) =
      (kept, overflow)) :
    ofBody? b overhead body = some ⟨(Outline.ofText body).preamble, kept, overflow⟩ := by
  simp only [ofBody?]
  rw [hk]

variable {b : Budget} {overhead : Nat} {p : Plan} (hp : ofBody? b overhead body = some p)
include hp

theorem keep_of_ofBody? :
    p.preamble = (Outline.ofText body).preamble ∧
      keep b (overhead + (Outline.ofText body).preamble.length) (Section.index body) =
        (p.kept, p.overflow) := by
  by_cases hi : Section.index body = []
  · rw [ofBody?_of_index_eq_nil b overhead hi] at hp
    cases hp
  · rw [ofBody?_of_index_ne_nil b overhead hi rfl, Option.some.injEq] at hp
    subst hp
    exact ⟨rfl, rfl⟩

theorem index_of_ofBody? : Section.index body = p.kept ++ p.overflow := by
  have hall := keep_append b (overhead + (Outline.ofText body).preamble.length) (Section.index body)
  rw [(keep_of_ofBody? hp).2] at hall
  exact hall.symm

/-- A plan keeps the text before the first section that it moves out. -/
theorem retained_of_ofBody? {s : Section} {moved : List Section} (ho : p.overflow = s :: moved) :
    p.retained = Text.upTo s.start body := by
  have hi := index_of_ofBody? hp
  rw [ho] at hi
  rw [retained, (keep_of_ofBody? hp).1, Section.upTo_start hi]

end

end Plan

/-! ## The size of a cut document -/

namespace Document

/-- The document with its body cut at byte `n`. -/
def cut (d : Document) (n : Nat) : Document := ⟨d.frontmatter, Text.upTo n d.body⟩

/-- What is used before the first section. -/
def used (d : Document) : Nat := d.overhead + (Outline.ofText d.body).preamble.length

theorem length_body_le (d : Document) : d.body.length ≤ d.size := by
  rw [length_render]
  exact Nat.le_add_left _ _

theorem size_cut (d : Document) (n : Nat) :
    (d.cut n).size = d.overhead + (Text.upTo n d.body).length := by
  rw [length_render, overhead_eq]
  rfl

section
variable {d : Document} {before after : List Section} {s : Section}

theorem total_start (h : Section.index d.body = before ++ s :: after) :
    Plan.total d.used before = (d.cut s.start).size := by
  rw [size_cut, Section.upTo_start h, Plan.total_eq, used, List.length_append, Nat.add_assoc]

theorem total_stop (h : Section.index d.body = before ++ s :: after) :
    Plan.total d.used (before ++ [s]) = (d.cut s.stop).size := by
  rw [size_cut, Section.upTo_stop h, Plan.total_eq, used, List.length_append, Nat.add_assoc]

end

theorem total_index (d : Document) : Plan.total d.used (Section.index d.body) = d.size := by
  have hbody := congrArg List.length (Section.preamble_index d.body)
  rw [List.length_append] at hbody
  rw [Plan.total_eq, used, overhead_eq, length_render]
  omega

end Document

/-! ## The outcomes of a split -/

namespace Bundle

theorem length_satellites (scope name : Text) (frontmatter : Frontmatter) (retained : Text)
    (overflow : List Section) :
    (assemble scope name frontmatter retained overflow).satellites.length = overflow.length := by
  rw [assemble, List.length_mapIdx, length_assignIds]

section
variable {b : Budget} {d : Document}

theorem ofDocument?_of_le (h : d.size ≤ b.limit) (scope name : Text) :
    ofDocument? b scope name d = some (.single name d) := by
  rw [ofDocument?, Budget.exceeds_eq_false.2 h]
  rfl

theorem ofDocument?_of_lt (h : b.limit < d.size) (scope name : Text) :
    ofDocument? b scope name d = (Plan.ofBody? b d.overhead d.body).map fun plan =>
      assemble scope name d.frontmatter plan.retained plan.overflow := by
  rw [ofDocument?, if_pos (Budget.exceeds_eq_true.2 h)]

theorem ofDocument?_of_index (hv : b.Valid) (hl : b.limit < 2 ^ 53) (h : b.limit < d.size)
    (hi : Section.index d.body ≠ []) (scope name : Text) :
    ∃ kept overflow, Section.index d.body = kept ++ overflow ∧ overflow ≠ [] ∧
      Plan.keep b d.used (Section.index d.body) = (kept, overflow) ∧
      ofDocument? b scope name d = some (assemble scope name d.frontmatter
        ((Outline.ofText d.body).preamble ++ kept.flatMap Section.content) overflow) := by
  obtain ⟨⟨kept, overflow⟩, hk⟩ :
    ∃ p, Plan.keep b d.used (Section.index d.body) = p := ⟨_, rfl⟩
  have hall := Plan.keep_append b d.used (Section.index d.body)
  rw [hk] at hall
  refine ⟨kept, overflow, hall.symm, ?_, hk, ?_⟩
  · intro hnil
    rw [hnil] at hk
    have hwithin := Plan.overCutoff_total hi hk
    rw [Document.total_index] at hwithin
    exact Nat.not_lt.2 (Budget.le_limit_of_within hv hl hwithin) h
  · rw [ofDocument?_of_lt h, Plan.ofBody?_of_index_ne_nil _ _ hi hk, Option.map_some,
      Plan.retained]

theorem exists_moved (hv : b.Valid) (hl : b.limit < 2 ^ 53) (h : b.limit < d.size) {p : Plan}
    (hp : Plan.ofBody? b d.overhead d.body = some p) :
    ∃ s moved, p.overflow = s :: moved ∧ Section.index d.body = p.kept ++ s :: moved ∧
      p.retained = Text.upTo s.start d.body := by
  have hi : Section.index d.body ≠ [] := by
    intro hnil
    rw [Plan.ofBody?_of_index_eq_nil b d.overhead hnil] at hp
    cases hp
  obtain ⟨kept, overflow, -, hne, hkeep, -⟩ := ofDocument?_of_index hv hl h hi [] []
  obtain ⟨-, hplan⟩ := Plan.keep_of_ofBody? hp
  rw [← Document.used, hkeep] at hplan
  rw [(Prod.mk.inj hplan).2] at hne
  obtain ⟨s, moved, hcons⟩ := List.exists_cons_of_ne_nil hne
  exact ⟨s, moved, hcons, hcons ▸ Plan.index_of_ofBody? hp, Plan.retained_of_ofBody? hp hcons⟩

/-- A document within its budget stays whole. One over it cannot be split if it has no heading,
and else gets a satellite. What a plan has added up at a section is the size of the document cut
there. -/
theorem split_outcomes (hv : b.Valid) (hl : b.limit < 2 ^ 53) (scope name : Text)
    (d : Document) :
    (d.size ≤ b.limit → ofDocument? b scope name d = some (.single name d)) ∧
    (b.limit < d.size → ¬ Section.HasHeading d.body → ofDocument? b scope name d = none) ∧
    (b.limit < d.size → Section.HasHeading d.body →
      ∃ bundle, ofDocument? b scope name d = some bundle ∧ bundle.satellites ≠ []) ∧
    d.body.length ≤ d.size ∧
    ∀ before s after, Section.index d.body = before ++ s :: after →
      Plan.total d.used before = (d.cut s.start).size ∧
      Plan.total d.used (before ++ [s]) = (d.cut s.stop).size ∧
      ∀ more overflow, Plan.keep b d.used (Section.index d.body) = (before ++ more, overflow) →
        Plan.keep b (d.cut s.start).size (s :: after) = (more, overflow) := by
  refine ⟨fun h => ofDocument?_of_le h scope name, ?_, ?_, d.length_body_le, ?_⟩
  · intro h hno
    have hi : Section.index d.body = [] :=
      Decidable.not_not.1 fun hne => hno ((Section.index_ne_nil_iff _).1 hne)
    rw [ofDocument?_of_lt h, Plan.ofBody?_of_index_eq_nil _ _ hi, Option.map_none]
  · intro h hheading
    have hi := (Section.index_ne_nil_iff _).2 hheading
    obtain ⟨kept, overflow, -, hne, -, hsplit⟩ := ofDocument?_of_index hv hl h hi scope name
    refine ⟨_, hsplit, ?_⟩
    intro hnil
    have hlen := congrArg List.length hnil
    rw [length_satellites] at hlen
    exact hne (List.eq_nil_of_length_eq_zero hlen)
  · intro before s after hi
    refine ⟨Document.total_start hi, Document.total_stop hi, ?_⟩
    intro more overflow hk
    rw [hi] at hk
    rw [← Document.total_start hi]
    exact Plan.keep_from hk

end

theorem split_outcomes_two_phases :
    let d : Document := ⟨.empty, "## Phase 1: A\nx\n## Phase 2: B\ny\n"⟩
    30 < d.size ∧ Section.HasHeading d.body ∧
      ∃ bundle, ofDocument? ⟨30, Double.one⟩ defaultScope "plan" d = some bundle ∧
        bundle.satellites ≠ [] := by
  intro d
  have hsize : 30 < d.size := by decide
  have hheading : Section.HasHeading d.body := (Section.index_ne_nil_iff _).1 (by decide)
  have hv : Budget.Valid ⟨30, Double.one⟩ := Budget.valid_one (by decide)
  exact ⟨hsize, hheading,
    (split_outcomes hv (by decide) defaultScope "plan" d).2.2.1 hsize hheading⟩

end Bundle

end Playbook
