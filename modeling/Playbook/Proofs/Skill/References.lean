import Playbook.Proofs.Call.Values
import Playbook.Proofs.Invocation.Blocks
import Playbook.Proofs.Library.Targets
import Playbook.Proofs.Reference.Words
import Playbook.Proofs.Text.Rows

/-!
# References to skills

The file of a skill is named in three ways: where the skill of an agent is written, in the block
for a call of the agent, and where a reference to the agent's file is led. The first two agree for
every name of an agent. The third agrees with them only for names of small letters and dashes;
any other reference is led to the resources, where no agent is.

Results:
* `Invocation.viewedFile?_render`: the file that the block for a call has the host view.
* `Skill.file_agrees`: where the three agree.
-/
namespace Playbook

/-! ## Invocation blocks -/

namespace Invocation

/-- The file that a block of instructions has the host view. Rows of the task above may look
alike, so it is the last one that is named. -/
def viewedFile? (block : Text) : Option Text :=
  (Text.rows block).reverse.findSome? (Text.after? "   View file: ")

section
variable {call : Call} {skill : Text}
  (hskill : Style.standard.skillName (call.handler?.getD []) = skill)
include hskill

theorem exists_render : ∃ front, Style.standard.render call =
    front ++ '\n' :: ("   View file: " ++ Reference.skillFile skill ++
      '\n' :: (Style.standard.closing ++ ['\n'])) := by
  have hrow : Style.standard.fileRow call = "   View file: " ++ Reference.skillFile skill := by
    have htarget : Reference.skillTarget = Style.standard.skillsDir ++ "/" := rfl
    unfold Style.fileRow
    rw [hskill, Reference.skillFile, htarget]
    simp only [List.append_assoc]
  refine ⟨'\n' :: Style.standard.opening call, ?_⟩
  rw [render_eq, Style.inside, hrow]
  simp only [List.append_assoc, List.cons_append]

theorem viewedFile?_render (hrow : '\n' ∉ skill) :
    viewedFile? (Style.standard.render call) = some (Reference.skillFile skill) := by
  obtain ⟨front, hfront⟩ := exists_render hskill
  have hview : '\n' ∉ ("   View file: " ++ Reference.skillFile skill : Text) := by
    unfold Reference.skillFile
    simp only [List.mem_append, not_or]
    exact ⟨by decide, ⟨by decide, hrow⟩, by decide⟩
  have hclosing : (Text.rows (Style.standard.closing ++ ['\n'])).reverse.findSome?
      (Text.after? "   View file: ") = none := by
    decide +kernel
  unfold viewedFile?
  rw [hfront, Text.rows_append_cons, Text.rows_append_cons, Text.rows_of_not_mem hview,
    List.singleton_append, List.reverse_append, List.reverse_cons, List.append_assoc,
    List.findSome?_append, hclosing, Option.none_or, List.singleton_append, List.findSome?_cons,
    Text.after?_eq_some.2 rfl]

end

end Invocation

/-! ## The file of a skill -/

namespace Skill

open Disk

/-- The characters of names of agents: letters and digits of ASCII, underscores and dashes. -/
def isNameChar (c : Char) : Bool := Call.isIdentifierChar c || c = '-'

section
variable {name : Text} (hname : ∀ c ∈ name, isNameChar c = true)
include hname

theorem not_mem_of_isNameChar {c : Char} (hc : isNameChar c = false) : c ∉ name := by
  intro hmem
  rw [hname c hmem] at hc
  cases hc

theorem isBlank_false_of_mem {c : Char} (hc : c ∈ name) : Text.isBlank c = false := by
  have hchar := hname c hc
  rw [isNameChar, Bool.or_eq_true, decide_eq_true_eq] at hchar
  rcases hchar with hchar | rfl
  · exact Call.isBlank_false_of_isIdentifierChar hchar
  · decide

theorem skillName_of_handler {call : Call}
    (hcall : call.arguments.get? Call.handlerKey = some (.text (Invocation.agentTag ++ name))) :
    Invocation.Style.standard.skillName (call.handler?.getD []) = name := by
  have htrim : Text.trim (Invocation.agentTag ++ name) = Invocation.agentTag ++ name := by
    refine Text.trim_of_not_blank fun c hc => ?_
    rcases List.mem_append.1 hc with hc | hc
    · have hany : Invocation.agentTag.any Text.isBlank = false := by decide
      exact Bool.eq_false_iff.2 (List.any_eq_false.1 hany c hc)
    · exact isBlank_false_of_mem hname hc
  have hhandler : call.handler? = some (Invocation.agentTag ++ name) := by
    simp only [Call.handler?, hcall, htrim]
    rfl
  rw [hhandler, Option.getD_some]
  exact Text.strip_append Invocation.agentTag name

end

/-- Below the directory of a project that holds what the host reads, a skill is where references
to it lead. -/
theorem skillPath_dataDir (source : Path) {name : Text} (hne : name ≠ []) (hslash : '/' ∉ name) :
    Library.skillPath (source.join ⟨Host.dataDir⟩) name =
      source.join ⟨Reference.skillFile name⟩ := by
  obtain ⟨lead, hlead⟩ := source.exists_text_join
  have hout : (source.join ⟨Host.dataDir⟩).text = lead ++ Host.dataDir := hlead _ rfl
  have hlast : (source.join ⟨Host.dataDir⟩).text.getLast? = some 't' := by
    rw [hout, List.getLast?_append]
    rfl
  have htext := Library.text_skillPath hlast (by decide) hne hslash
  rw [hout, List.append_assoc, ← List.append_assoc Host.dataDir, ← hlead ⟨_⟩ rfl] at htext
  exact congrArg Path.mk htext

/-- The file of a skill is none of the resources. -/
theorem skillFile_ne_resource {mark : Text} (hmark : mark = [] ∨ mark = "@") (name rest : Text) :
    mark ++ (".agent/resources/" ++ rest) ≠ Reference.skillFile name := by
  intro h
  rcases hmark with rfl | rfl
  · have htake : (".agent/r" : Text) = ".agent/s" := congrArg (List.take 8) h
    exact absurd htake (by decide)
  · have htake : ("@" : Text) = "." := congrArg (List.take 1) h
    exact absurd htake (by decide)

/-- For an agent whose name has letters and digits of ASCII, dashes and underscores, the skill is
written to the file that the block for a call of the agent names. A reference to the agent's file
between blanks is led to that file if the name has small letters and dashes only; any other is led
to the resources. -/
theorem file_agrees {name : Text} (hne : name ≠ []) (hname : ∀ c ∈ name, isNameChar c = true) :
    let agent := Invocation.agentTag ++ name
    let file := Reference.skillFile name
    (∀ source : Path, Library.skillPath (source.join ⟨Host.dataDir⟩) (Skill.id (agent ++ ".md")) =
      source.join ⟨file⟩) ∧
    (∀ (l : Library) (path : Path), path.fileName? = some (agent ++ ".md") →
      l.compileSkill path = (Script.readText path).bind fun source =>
        (save (Library.skillPath l.output (Skill.id (agent ++ ".md")))
          (encode (compile (agent ++ ".md") source).document.render)).bind
            fun _ => .done (Skill.id (agent ++ ".md"))) ∧
    (∀ call : Call, call.arguments.get? Call.handlerKey = some (.text agent) →
      Invocation.viewedFile? (Invocation.Style.standard.render call) = some file) ∧
    ∀ mark pre post : Text, mark = [] ∨ mark = "@" →
      pre.getLast?.all Text.isBlank = true → post.head?.all Text.isBlank = true →
      let text := pre ++ (mark ++ ("~/.claude/agents/" ++ (agent ++ ".md"))) ++ post
      let other := mark ++ (".agent/resources/" ++ ("agents/" ++ (agent ++ ".md")))
      Reference.localize text = Reference.localize pre ++
        (if name.all Reference.isAgentChar then file else other) ++ Reference.localize post ∧
      (Reference.localize text = Reference.localize pre ++ file ++ Reference.localize post ↔
        ∀ c ∈ name, Reference.isAgentChar c = true) := by
  intro agent file
  have hslash : '/' ∉ name := not_mem_of_isNameChar hname (by decide)
  have hdot : '.' ∉ name := not_mem_of_isNameChar hname (by decide)
  have htilde : '~' ∉ name := not_mem_of_isNameChar hname (by decide)
  have hrow : '\n' ∉ name := not_mem_of_isNameChar hname (by decide)
  have hstem : Path.NamesDocument (agent ++ ".md") agent :=
    ⟨rfl, List.cons_ne_nil _ _, fun hmem => (List.mem_append.1 hmem).elim (by decide) hslash⟩
  have hid : Skill.id (agent ++ ".md") = name :=
    (Skill.id_append hstem).trans (Text.strip_append Invocation.agentTag name)
  refine ⟨fun source => ?_, fun l path hpath => Library.compileSkill_eq l hpath,
    fun call hcall => ?_, fun mark pre post hmark hpre hpost => ?_⟩
  · rw [hid]
    exact skillPath_dataDir source hne hslash
  · exact Invocation.viewedFile?_render (skillName_of_handler hname hcall) hrow
  · intro text other
    have hled : Reference.localize text = Reference.localize pre ++
        (if name.all Reference.isAgentChar then file else other) ++ Reference.localize post := by
      have hroot : "~/.claude/agents/" ++ (agent ++ ".md") =
          Reference.agentRoot ++ (name ++ ".md") := rfl
      have hother : other =
          mark ++ (Reference.resourceTarget ++ ("agents/gsd-" ++ (name ++ ".md"))) := rfl
      rw [hother, ← Reference.localize_agent hmark hdot hne htilde, ← hroot]
      exact Reference.localize_between hpre hpost _
    refine ⟨hled, ?_⟩
    rw [hled, List.append_cancel_right_eq, List.append_cancel_left_eq, ← List.all_eq_true]
    refine ⟨fun h => ?_, fun hall => if_pos hall⟩
    cases hall : name.all Reference.isAgentChar with
    | true => rfl
    | false =>
      rw [if_neg (by simp [hall])] at h
      exact absurd h (skillFile_ne_resource hmark name _)

theorem file_agrees_plan_checker :
    let name : Text := "plan-checker"
    let call : Call := ⟨"Task", .ofList [(Call.handlerKey, .text "gsd-plan-checker")]⟩
    let file : Text := ".agent/skills/plan-checker/SKILL.md"
    name ≠ [] ∧ (∀ c ∈ name, isNameChar c = true) ∧
    call.arguments.get? Call.handlerKey = some (.text (Invocation.agentTag ++ name)) ∧
    Library.skillPath (.ofString "./.agent") (Skill.id "gsd-plan-checker.md") =
      (Path.ofString ".").join ⟨file⟩ ∧
    Invocation.viewedFile? (Invocation.Style.standard.render call) = some file ∧
    Reference.localize "See @~/.claude/agents/gsd-plan-checker.md now" =
      "See " ++ file ++ " now" := by
  intro name call file
  have hne : name ≠ [] := by decide
  have hname : ∀ c ∈ name, isNameChar c = true := List.all_eq_true.1 (by decide)
  have hcall : call.arguments.get? Call.handlerKey =
      some (.text (Invocation.agentTag ++ name)) := rfl
  obtain ⟨hwritten, -, hviewed, hled⟩ := file_agrees hne hname
  refine ⟨hne, hname, hcall, hwritten (.ofString "."), hviewed call hcall, ?_⟩
  exact (hled "@" "See " " now" (Or.inr rfl) rfl rfl).1

/-- A digit in the name of an agent leads to a file that is not written. -/
theorem file_missed_digit :
    let call : Call := ⟨"Task", .ofList [(Call.handlerKey, .text "gsd-planner2")]⟩
    let file : Text := ".agent/skills/planner2/SKILL.md"
    Library.skillPath (.ofString "./.agent") (Skill.id "gsd-planner2.md") =
      (Path.ofString ".").join ⟨file⟩ ∧
    Invocation.viewedFile? (Invocation.Style.standard.render call) = some file ∧
    Reference.localize "See @~/.claude/agents/gsd-planner2.md now" =
      "See @.agent/resources/agents/gsd-planner2.md now" ∧
    Reference.localize "See @~/.claude/agents/gsd-planner2.md now" ≠ "See " ++ file ++ " now" := by
  intro call file
  have hwritten : Library.skillPath (.ofString "./.agent") (Skill.id "gsd-planner2.md") =
      (Path.ofString ".").join ⟨file⟩ := by decide +kernel
  have hled : Reference.localize "See @~/.claude/agents/gsd-planner2.md now" =
      "See @.agent/resources/agents/gsd-planner2.md now" := by decide +kernel
  have hskill : Invocation.Style.standard.skillName (call.handler?.getD []) = "planner2" := rfl
  refine ⟨hwritten, Invocation.viewedFile?_render hskill (by decide), hled, ?_⟩
  rw [hled]
  decide

end Skill

end Playbook
