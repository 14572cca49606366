import Playbook.Proofs.Bundle.Parts

/-!
# The size of a split document

A plan measures what the main document keeps, and not the stubs that are put behind it. What is
kept is within the cutoff, and so within the limit; the stubs come on top, more than 200
characters each. The main document is within the limit only if they fit into what is left.

Results:
* `length_stub`: a stub has a fixed part, the link, the ordinal twice and the title.
* `main_size_eq`: the main document has what it keeps and its stubs.
* `split_size`: what is kept is within the limit, and the stubs come on top.
* `split_over_limit`: a main document that keeps two sections and is over the limit by its stub.
-/
namespace Playbook

namespace Bundle

/-! ## The size of stubs -/

set_option maxRecDepth 1000 in
theorem length_stub (target : Text) (heading : Heading) :
    (stub target heading).length =
      204 + target.length + 2 * heading.ordinal.length + heading.title.length := by
  unfold stub
  simp
  omega

/-- The characters of the stubs that lead to the given ids. -/
def stubsSize (scope : Text) : List Text → List Section → Nat
  | id :: ids, s :: moved =>
    204 + (qualified scope id).length + 2 * s.heading.ordinal.length + s.heading.title.length +
      stubsSize scope ids moved
  | _, _ => 0

theorem length_stubs (scope : Text) (ids : List Text) (moved : List Section) :
    ((ids.zip moved).flatMap fun (id, s) => stub (qualified scope id) s.heading).length =
      stubsSize scope ids moved := by
  induction ids generalizing moved with
  | nil => rfl
  | cons id ids ih =>
    cases moved with
    | nil => rfl
    | cons s moved =>
      rw [List.zip_cons_cons, List.flatMap_cons, List.length_append, length_stub, ih, stubsSize]

theorem le_stubsSize (scope : Text) {ids : List Text} {moved : List Section}
    (h : ids.length = moved.length) : 204 * moved.length ≤ stubsSize scope ids moved := by
  induction ids generalizing moved with
  | nil =>
    rw [← h]
    exact Nat.zero_le _
  | cons id ids ih =>
    cases moved with
    | nil => cases h
    | cons s moved =>
      have hrest := ih (Nat.succ.inj h)
      rw [stubsSize, List.length_cons]
      omega

/-! ## The size of the main document -/

section
variable {b : Budget} {scope name : Text} {d : Document} {out : Bundle}

theorem exists_plan_of_satellites (ho : ofDocument? b scope name d = some out)
    (hs : out.satellites ≠ []) :
    ∃ plan s moved, Plan.ofBody? b d.overhead d.body = some plan ∧ plan.overflow = s :: moved ∧
      out = assemble scope name d.frontmatter plan.retained plan.overflow := by
  rcases Nat.lt_or_ge b.limit d.size with hlt | hle
  · rw [ofDocument?_of_lt hlt, Option.map_eq_some_iff] at ho
    obtain ⟨plan, hp, rfl⟩ := ho
    cases hmoved : plan.overflow with
    | nil =>
      rw [hmoved] at hs
      exact absurd rfl hs
    | cons s moved => exact ⟨plan, s, moved, hp, hmoved, by rw [hmoved]⟩
  · rw [ofDocument?_of_le hle, Option.some.injEq] at ho
    subst ho
    exact absurd rfl hs

/-- The main document has what it keeps and its stubs. -/
theorem main_size_eq (scope name : Text) {kept moved : List Section} {s : Section}
    (hi : Section.index d.body = kept ++ s :: moved) :
    let out := assemble scope name d.frontmatter (Text.upTo s.start d.body) (s :: moved)
    out.main.document.size =
      (d.cut s.start).size + stubsSize scope (out.satellites.map Artifact.id) (s :: moved) := by
  intro out
  have hsplits := assemble_splits scope name d.frontmatter _ (s :: moved) (endLine_upTo_start hi)
  have hheader : out.main.document.frontmatter = (d.cut s.start).frontmatter := rfl
  have hcut : (d.cut s.start).body = Text.upTo s.start d.body := rfl
  rw [Document.length_render, Document.length_render, hsplits.main_body, List.length_append,
    length_stubs, hheader, hcut, Nat.add_assoc]

/-- Where a document is split, the part kept is within the cutoff, and so within the limit, and
with the first section moved out it would be over the cutoff. The stubs come on top, so the main
document is within the limit if there is room for them above the cutoff. -/
theorem split_size (hv : b.Valid) (hl : b.limit < 2 ^ 53)
    (ho : ofDocument? b scope name d = some out) (hs : out.satellites ≠ []) :
    ∃ kept s moved, Section.index d.body = kept ++ s :: moved ∧
      out.satellites.length = (s :: moved).length ∧
      (kept ≠ [] → b.overCutoff (d.cut s.start).size = false ∧ (d.cut s.start).size ≤ b.limit) ∧
      b.overCutoff (d.cut s.stop).size = true ∧
      out.main.document.size =
        (d.cut s.start).size + stubsSize scope (out.satellites.map Artifact.id) (s :: moved) ∧
      204 * out.satellites.length ≤
        stubsSize scope (out.satellites.map Artifact.id) (s :: moved) ∧
      (kept ≠ [] →
        b.cutoff + stubsSize scope (out.satellites.map Artifact.id) (s :: moved) * Double.one ≤
          b.limit * Double.one →
        out.main.document.size ≤ b.limit) := by
  obtain ⟨plan, s, moved, hp, hmoved, hout⟩ := exists_plan_of_satellites ho hs
  have hi := Plan.index_of_ofBody? hp
  obtain ⟨-, hkeep⟩ := Plan.keep_of_ofBody? hp
  rw [hmoved] at hi hkeep
  rw [Plan.retained_of_ofBody? hp hmoved, hmoved] at hout
  have hcount : out.satellites.length = (s :: moved).length := by
    rw [hout, length_satellites]
  have hsize : out.main.document.size = (d.cut s.start).size +
      stubsSize scope (out.satellites.map Artifact.id) (s :: moved) := by
    rw [hout]
    exact main_size_eq scope name hi
  have hwithin (hne : plan.kept ≠ []) : b.overCutoff (d.cut s.start).size = false := by
    have hkept := Plan.overCutoff_kept hkeep hne
    rwa [← Document.used, Document.total_start hi] at hkept
  have hle (hne : plan.kept ≠ []) : (d.cut s.start).size ≤ b.limit :=
    Budget.le_limit_of_within hv hl (hwithin hne)
  refine ⟨plan.kept, s, moved, hi, hcount, fun hne => ⟨hwithin hne, hle hne⟩, ?_, hsize, ?_, ?_⟩
  · rw [hi] at hkeep
    have hover := Plan.overCutoff_moved hkeep
    rwa [← Document.used, Document.total_stop hi] at hover
  · rw [hcount]
    exact le_stubsSize scope (by rw [List.length_map, hcount])
  · intro hne hroom
    have hexact : (d.cut s.start).size ≤ 2 ^ 53 := by
      have := hle hne
      omega
    have hkept := Budget.mul_one_le_cutoff hexact (hwithin hne)
    rw [hsize]
    refine Nat.le_of_mul_le_mul_right ?_ Double.one_pos
    rw [Nat.add_mul]
    omega

end

/-- The cutoff is half of the limit, and the one stub has room above it. -/
theorem split_size_two_phases :
    let row : Text := "Work through the list.\n"
    let d : Document := ⟨.empty, "## Phase 1: A\n" ++ (List.replicate 10 row).flatten ++
      "## Phase 2: B\n" ++ (List.replicate 20 row).flatten⟩
    let b : Budget := ⟨600, Double.one / 2⟩
    b.Valid ∧ b.limit < 2 ^ 53 ∧
    ∃ out, ofDocument? b defaultScope "plan" d = some out ∧ out.satellites ≠ [] ∧
      ∃ kept s moved, Section.index d.body = kept ++ s :: moved ∧ kept ≠ [] ∧
        (d.cut s.start).size ≤ b.limit ∧
        out.main.document.size = (d.cut s.start).size +
          stubsSize defaultScope (out.satellites.map Artifact.id) (s :: moved) ∧
        b.cutoff + stubsSize defaultScope (out.satellites.map Artifact.id) (s :: moved) *
          Double.one ≤ b.limit * Double.one ∧
        out.main.document.size ≤ b.limit := by
  intro row d b
  have hv : b.Valid := ⟨by decide, by decide +kernel, by decide +kernel⟩
  have hl : b.limit < 2 ^ 53 := by decide
  have hsections : (Section.index d.body).length = 2 := by decide +kernel
  have hsplit : (ofDocument? b defaultScope "plan" d).any (fun out => out.satellites.length = 1 &&
      stubsSize defaultScope (out.satellites.map Artifact.id) ((Section.index d.body).drop 1) =
        223) = true := by
    decide +kernel
  obtain ⟨out, ho, hout⟩ := (Option.any_eq_true _ _).1 hsplit
  simp only [Bool.and_eq_true, decide_eq_true_eq] at hout
  have hs : out.satellites ≠ [] := List.ne_nil_of_length_pos (by omega)
  obtain ⟨kept, s, moved, hi, hcount, hkept, -, hsize, -, hroom⟩ := split_size hv hl ho hs
  have hlength : kept.length = 1 := by
    have hparts := congrArg List.length hi
    rw [List.length_append] at hparts
    omega
  have hne : kept ≠ [] := List.ne_nil_of_length_pos (by omega)
  have hstubs : stubsSize defaultScope (out.satellites.map Artifact.id) (s :: moved) = 223 := by
    rw [← hout.2, hi, List.drop_left' hlength]
  have hfits : b.cutoff + stubsSize defaultScope (out.satellites.map Artifact.id) (s :: moved) *
      Double.one ≤ b.limit * Double.one := by
    rw [hstubs]
    decide +kernel
  exact ⟨hv, hl, out, ho, hs, kept, s, moved, hi, hne, (hkept hne).2, hsize, hfits, hroom hne hfits⟩

/-- Two of three phases are kept, with 875 characters; the stub for the third takes the main
document to 1102. With the second phase moved out as well it would have 667. -/
theorem split_over_limit :
    let row : Text := "Work through the list.\n"
    let first : Text := "## Phase 1: Collect\n" ++ (List.replicate 8 row).flatten
    let second : Text := "## Phase 2: Build\n" ++ (List.replicate 28 row).flatten
    let third : Text := "## Phase 3: Check\n" ++ (List.replicate 10 row).flatten
    let d : Document := ⟨.empty, first ++ second ++ third⟩
    let b : Budget := { Budget.standard with limit := 1000 }
    b.Valid ∧
    ∃ out, ofDocument? b defaultScope "plan" d = some out ∧ out.satellites.length = 1 ∧
      (Section.index out.main.document.body).length = 2 ∧ out.main.document.size = 1102 ∧
      (assemble defaultScope "plan" .empty first ((Section.index d.body).drop 1)).main.document.size
        = 667 := by
  intro row first second third d b
  have hv : b.Valid := ⟨by decide, by decide +kernel, by decide +kernel⟩
  have hsplit : (ofDocument? b defaultScope "plan" d).any (fun out =>
      out.satellites.length = 1 && (Section.index out.main.document.body).length = 2 &&
        out.main.document.size = 1102) = true := by
    decide +kernel
  have hmore : (assemble defaultScope "plan" .empty first
      ((Section.index d.body).drop 1)).main.document.size = 667 := by
    decide +kernel
  obtain ⟨out, ho, hout⟩ := (Option.any_eq_true _ _).1 hsplit
  simp only [Bool.and_eq_true, decide_eq_true_eq] at hout
  exact ⟨hv, out, ho, hout.1.1, hout.1.2, hout.2, hmore⟩

end Bundle

end Playbook
