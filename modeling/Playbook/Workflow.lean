import Playbook.Invocation
import Playbook.Plan
import Playbook.Reference
import Playbook.Snippet
import Playbook.Wording

/-!
# Workflows

A command document becomes a workflow: its body is put in terms of the host, its frontmatter
keeps a description only, and it is split if it is over the budget and has sections.

Results:
* `compile_of_fits`: a workflow within the budget is one document.
-/
namespace Playbook.Workflow

/-- How workflows are compiled. -/
structure Settings where
  budget : Budget
  /-- What stands before every workflow id in file names and references. -/
  scope : Text
  style : Invocation.Style
  deriving Repr, DecidableEq

def Settings.standard : Settings := ⟨.standard, Bundle.defaultScope, .standard⟩

/-- A body as it reads in a workflow: references, then wording, then task calls, then
snippets. -/
def body (style : Invocation.Style) (t : Text) : Text :=
  Snippet.annotate (style.expand Invocation.taskNames (Wording.forHost (Reference.localize t)))

/-- The whole workflow of a command before any split. -/
def document (style : Invocation.Style) (name source : Text) : Document :=
  let command := Document.parse source
  { frontmatter := .ofList [(Frontmatter.descriptionKey,
      (command.frontmatter.get? Frontmatter.descriptionKey).getD name)]
    body := body style command.body }

def compile (settings : Settings) (name source : Text) : Bundle :=
  let whole := document settings.style name source
  (Bundle.ofDocument? settings.budget settings.scope name whole).getD (.single name whole)

theorem compile_of_fits {settings : Settings} {name source : Text}
    (h : settings.budget.exceeds (document settings.style name source).size = false) :
    compile settings name source = .single name (document settings.style name source) := by
  simp [compile, Bundle.ofDocument?, h]

end Playbook.Workflow
