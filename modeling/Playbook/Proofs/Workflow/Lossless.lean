import Playbook.Proofs.Bundle.Parts
import Playbook.Workflow

/-!
# Compilation keeps the body

A compiled workflow holds all of the body it was made from. Either it is one document with that
body, or the main document keeps the text up to some section and the satellites hold that
section and all behind it.

Results:
* `compile_cases`: a workflow is the whole document or is assembled of its parts.
* `compile_lossless`: a workflow has the body of its command, whole or split at a section.
-/
namespace Playbook.Workflow

theorem document_body (style : Invocation.Style) (name source : Text) :
    (document style name source).body = body style (Document.parse source).body := by
  rw [document]

theorem compile_eq (settings : Settings) (name source : Text) :
    (Bundle.ofDocument? settings.budget settings.scope name
      (document settings.style name source)).getD
        (.single name (document settings.style name source)) = compile settings name source := by
  rw [compile]

/-- A workflow is the whole document or is assembled of what stays and sections that move out. -/
theorem compile_cases (settings : Settings) (name source : Text) :
    let whole := document settings.style name source
    compile settings name source = .single name whole ∨
    ∃ retained overflow, (∀ s ∈ overflow, s ∈ Section.index whole.body) ∧
      compile settings name source =
        Bundle.assemble settings.scope name whole.frontmatter retained overflow := by
  intro whole
  rw [← compile_eq]
  rcases Nat.lt_or_ge settings.budget.limit whole.size with hlt | hle
  · rw [Bundle.ofDocument?_of_lt hlt]
    cases hp : Plan.ofBody? settings.budget whole.overhead whole.body with
    | none => exact Or.inl rfl
    | some plan =>
      refine Or.inr ⟨plan.retained, plan.overflow, ?_, rfl⟩
      intro s hs
      rw [Plan.index_of_ofBody? hp]
      exact List.mem_append_right _ hs
  · rw [Bundle.ofDocument?_of_le hle]
    exact Or.inl rfl

/-- A workflow has the body of its command, whole or split at a section. From the parts of a
split one the body can be put together again, up to the blanks around the sections moved out. -/
theorem compile_lossless {settings : Settings} (hv : settings.budget.Valid)
    (hl : settings.budget.limit < 2 ^ 53) (name source : Text) :
    let whole := body settings.style (Document.parse source).body
    let out := compile settings name source
    (out.main.document.body = whole ∧ out.satellites = []) ∨
    ∃ kept s moved, Section.index whole = kept ++ s :: moved ∧
      out.Splits settings.scope name (Text.upTo s.start whole) (s :: moved) ∧
      whole = Text.upTo s.start whole ++ (s :: moved).flatMap Section.content ∧
      ∃ gaps : List (Text × Text), gaps.length = (s :: moved).length ∧
        (∀ gap ∈ gaps, gap.1.all Text.isBlank = true ∧ gap.2.all Text.isBlank = true) ∧
        whole = Text.upTo s.start whole ++ (gaps.zip (s :: moved)).flatMap fun (gap, s) =>
          gap.1 ++ Text.trim s.content ++ gap.2 := by
  intro whole out
  have h := Bundle.getD_ofDocument? hv hl settings.scope name
    (document settings.style name source) (compile_eq settings name source)
  rw [document_body] at h
  rcases h with hwhole | ⟨kept, s, moved, hi, hsplits⟩
  · exact Or.inl hwhole
  · have hcut := Section.upTo_start_append hi
    obtain ⟨gaps, hlen, hblank, hgaps⟩ := Section.exists_gaps (s :: moved)
    refine Or.inr ⟨kept, s, moved, hi, hsplits, hcut.symm, gaps, hlen, hblank, ?_⟩
    rw [← hgaps]
    exact hcut.symm

theorem compile_lossless_two_phases :
    let settings : Settings := ⟨⟨50, Double.one⟩, Bundle.defaultScope, .standard⟩
    let source : Text := "## Phase 1: A\nx\n## Phase 2: B\ny\n"
    let whole := body settings.style (Document.parse source).body
    settings.budget.Valid ∧ ∃ kept s moved, Section.index whole = kept ++ s :: moved ∧
      (compile settings "plan" source).Splits settings.scope "plan"
        (Text.upTo s.start whole) (s :: moved) := by
  intro settings source whole
  have hv : settings.budget.Valid := Budget.valid_one (by decide)
  have hsplit : (compile settings "plan" source).isSplit = true := by decide +kernel
  refine ⟨hv, ?_⟩
  rcases compile_lossless hv (by decide) "plan" source with ⟨-, hnil⟩ | h
  · rw [Bundle.isSplit, hnil] at hsplit
    exact absurd hsplit (by decide)
  · obtain ⟨kept, s, moved, hi, hsplits, -⟩ := h
    exact ⟨kept, s, moved, hi, hsplits⟩

end Playbook.Workflow
