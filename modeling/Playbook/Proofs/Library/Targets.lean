import Playbook.Library
import Playbook.Proofs.Bundle.Links
import Playbook.Proofs.Disk.Places
import Playbook.Proofs.Workflow.Prediction

/-!
# The files that a library is written to

Each agent of a library is written to one file and each document of a compiled command to one.
The path of the file is put together from the output directory and the id of the document.

Results:
* `compileSkill_eq`, `compileCommand_eq`: what is written for an agent and for a command.
* `Skill.id_append`: the id of a skill is the stem of the agent's file without the tag.
* `text_skillPath`: the path of a skill as a text.
-/
namespace Playbook

/-- The name of a markdown document in a directory. -/
structure Path.NamesDocument (name stem : Text) : Prop where
  eq : name = stem ++ ".md"
  ne_nil : stem ≠ []
  no_slash : '/' ∉ stem

namespace Path.NamesDocument

variable {name stem : Text} (h : NamesDocument name stem)
include h

theorem fileName?_eq : fileName? ⟨name⟩ = some name := by
  have hslash : '/' ∉ name := by
    rw [h.eq, List.mem_append, not_or]
    exact ⟨h.no_slash, by decide⟩
  have hlen : 3 < name.length := by
    have hpos := List.length_pos_iff.2 h.ne_nil
    rw [h.eq, List.length_append, show (".md" : Text).length = 3 from rfl]
    omega
  have hne {t : Text} (ht : t.length ≤ 3) : name ≠ t := by
    rintro rfl
    omega
  exact fileName?_of_no_slash (hne (by decide)) hslash (hne (by decide)) (hne (by decide))

end Path.NamesDocument

/-- The id of a skill is the stem of the agent's file without the tag. -/
theorem Skill.id_append {name stem : Text} (h : Path.NamesDocument name stem) :
    Skill.id name = Text.strip Invocation.agentTag stem := by
  have hfile : (⟨name⟩ : Path).fileName? = some (stem ++ ".md") := by rw [← h.eq, h.fileName?_eq]
  rw [Skill.id, CommandLine.fileStem?_append h.ne_nil hfile, Option.getD_some]

namespace Library

open Disk

/-- The file of a skill. -/
def skillPath (output : Path) (id : Text) : Path :=
  ((output.join (.ofString "skills")).join ⟨id⟩).join (.ofString "SKILL.md")

/-- The file of a workflow. -/
def workflowPath (output : Path) (scope id : Text) : Path :=
  (output.join (.ofString "workflows")).join ⟨Bundle.fileName scope id⟩

/-- An agent is written to the file of its skill. -/
theorem compileSkill_eq (l : Library) {agent : Path} {name : Text}
    (h : agent.fileName? = some name) :
    l.compileSkill agent = (Script.readText agent).bind fun source =>
      (save (skillPath l.output (Skill.id name))
        (encode (Skill.compile name source).document.render)).bind fun _ =>
          .done (Skill.id name) := by
  unfold compileSkill
  rw [h]
  rfl

/-- Every document of a compiled command is written to the file for its id. -/
theorem compileCommand_eq (l : Library) {command : Path} {name : Text}
    (h : command.fileName? = some name) :
    l.compileCommand command = (Script.readText command).bind fun source =>
      let out := Workflow.compile l.settings (commandName name) source
      (Script.each
        (fun a => save (workflowPath l.output l.settings.scope a.id) (encode a.document.render))
        (out.main :: out.satellites)).bind fun _ => .done (Summary.ofBundle out) := by
  unfold compileCommand
  rw [h]
  simp only [writeBundle_eq, Bundle.files, Script.each_map]
  rfl

theorem text_skillPath {output : Path} {id : Text} {c : Char}
    (hlast : output.text.getLast? = some c) (hc : c ≠ '/') (hne : id ≠ []) (hslash : '/' ∉ id) :
    (skillPath output id).text = output.text ++ ("/skills/" ++ (id ++ "/SKILL.md")) := by
  obtain ⟨d, hd⟩ : ∃ d, id.getLast? = some d := ⟨_, List.getLast?_eq_some_getLast hne⟩
  have hdslash : d ≠ '/' := fun h => hslash (h ▸ List.mem_of_getLast? hd)
  have hskills : (output.join (.ofString "skills")).text = output.text ++ "/skills" :=
    Path.text_join hlast hc rfl
  have hid : ((output.join (.ofString "skills")).join ⟨id⟩).text =
      output.text ++ ("/skills/" ++ id) := by
    rw [Path.text_join (c := 's') ?_ (by decide) (Path.not_isAbsolute hslash), hskills,
      List.append_assoc]
    · rfl
    · rw [hskills, List.getLast?_append]
      rfl
  unfold skillPath
  rw [Path.text_join (c := d) ?_ hdslash rfl, hid, List.append_assoc, List.append_assoc]
  · rfl
  · rw [hid, List.getLast?_append, List.getLast?_append, hd]
    rfl

end Library

end Playbook
