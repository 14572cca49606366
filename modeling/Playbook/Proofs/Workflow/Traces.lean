import Playbook.Proofs.Invocation.Blocks
import Playbook.Proofs.Snippet.Marker
import Playbook.Workflow

/-!
# Traces in a workflow

A body has no trace of the other assistant when its references are localized and its wording is led
over to the host. Only two things that are done to it later can bring one along: the block for a
call, which has the call's prompt without its escapes and the name of its agent, and the marker of
a safe snippet right behind `~/.claude`.

Results:
* `traceless_body_iff`: what a body must not have for its workflow to have no trace.
* `traces_body`: a workflow that names the other assistant.
-/
namespace Playbook.Workflow

open Wording (Traceless)

/-- Before calls and snippets are looked for, a body has no trace of the other assistant; the
workflow has none exactly if no call brings one with its agent or its prompt, and no safe snippet
stands right behind `~/.claude`. -/
theorem traceless_body_iff (t : Text) :
    let led := Wording.forHost (Reference.localize t)
    let expanded := Invocation.expandTasks led
    Traceless led ∧ (Traceless (body .standard t) ↔
      (∀ source call, .call source call ∈ Call.pieces Invocation.taskNames led →
        call.handler?.isSome = true →
          ∀ row ∈ Invocation.Style.standard.callRows call, Traceless row) ∧
      ∀ u v line, expanded = u ++ (Snippet.pathLead ++ v) → Snippet.block? v = some line →
        Snippet.isSafe line = false) := by
  intro led expanded
  have hled : Traceless led := Wording.traceless_forHost t
  have hexpanded : Traceless expanded ↔
      ∀ source call, .call source call ∈ Call.pieces Invocation.taskNames led →
        call.handler?.isSome = true →
          ∀ row ∈ Invocation.Style.standard.callRows call, Traceless row := by
    have hmarks {m : Mark} (hm : m ∈ Wording.marks) : m.Absent expanded ↔ _ :=
      Invocation.absent_expand_iff hm (Wording.traceless_iff.1 hled m hm)
    simp only [Wording.traceless_iff]
    constructor
    · intro h source call hcall hhandler row hrow m hm
      have hblock := (hmarks hm).1 (h m hm) source call hcall hhandler
      exact (Invocation.absent_render_iff hm call).1 hblock row hrow
    · intro h m hm
      refine (hmarks hm).2 fun source call hcall hhandler => ?_
      exact (Invocation.absent_render_iff hm call).2 fun row hrow =>
        h source call hcall hhandler row hrow m hm
  refine ⟨hled, ?_⟩
  rw [← hexpanded]
  exact Snippet.traceless_annotate_iff

/-- A prompt is led over to the host with its escapes, and the word behind an escaped line feed is
not the assistant's name until the prompt is written without them. -/
theorem traces_body :
    ¬ Traceless (body .standard "Task(subagent_type=\"gsd-writer\", prompt=\"Ask\\nClaude\")") := by
  rintro ⟨hrules, -⟩
  have hnone := hrules (Wording.wordRule "Claude" Host.name) (by simp [Wording.nameRules]) _ _
    (List.take_append_drop 233 _).symm
  revert hnone
  decide +kernel

end Playbook.Workflow
