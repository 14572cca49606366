import Playbook.Bundle
import Playbook.Invocation
import Playbook.Path
import Playbook.Reference
import Playbook.Wording

/-!
# Skills

An agent's document becomes a skill: its body is led over to the host without touching calls,
and its frontmatter keeps a name and a description only.
-/
namespace Playbook.Skill

def nameKey : Text := "name"

/-- The description of an agent that has none. -/
def defaultDescription : Text := "GSD Agent"

/-- The id of the skill for an agent's file: its stem without the agents' tag. -/
def id (fileName : Text) : Text :=
  Text.strip Invocation.agentTag ((Path.fileStem? ⟨fileName⟩).getD fileName)

def compile (fileName source : Text) : Artifact :=
  let agent := Document.parse source
  { id := id fileName
    document :=
      { frontmatter := .ofList [
          (nameKey, id fileName),
          (Frontmatter.descriptionKey,
            (agent.frontmatter.get? Frontmatter.descriptionKey).getD defaultDescription)]
        body := Wording.forHost (Reference.localize agent.body) ++ "\n" } }

end Playbook.Skill
