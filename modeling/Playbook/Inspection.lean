import Playbook.Disk.Script
import Playbook.Workflow

/-!
# Inspection

What compiling one command would do: its size, its sections, and which of them would move out.

Results:
* `inspect_fits_iff`: inspection says that a command fits exactly if its workflow is within the
  budget.
-/
namespace Playbook

inductive Inspection.Verdict
  /-- Within the budget. -/
  | fits
  /-- Over the budget, without sections. -/
  | whole
  /-- Over the budget: the characters kept and the ids of the satellites. -/
  | split (kept : Nat) (satellites : List Text)
  deriving Repr, DecidableEq

structure Inspection where
  name : Text
  size : Nat
  sections : List Section
  verdict : Inspection.Verdict
  deriving Repr, DecidableEq

namespace Inspection

/-- What becomes of a document. -/
def judge (budget : Budget) (scope name : Text) (d : Document) : Verdict :=
  if budget.exceeds d.size then
    match Plan.ofBody? budget d.overhead d.body with
    | none => .whole
    | some plan =>
      let bundle := Bundle.assemble scope name d.frontmatter plan.retained plan.overflow
      .split plan.retained.length (bundle.satellites.map Artifact.id)
  else .fits

def inspect (budget : Budget) (scope name source : Text) : Inspection :=
  let d := Workflow.document .standard name source
  ⟨name, d.size, Section.index d.body, judge budget scope name d⟩

theorem inspect_fits_iff (budget : Budget) (scope name source : Text) :
    (inspect budget scope name source).verdict = .fits ↔
      (Workflow.document .standard name source).size ≤ budget.limit := by
  rw [← Budget.exceeds_eq_false]
  cases h : budget.exceeds (Workflow.document .standard name source).size with
  | false => simp [inspect, judge, h]
  | true =>
    simp only [inspect, judge, h, if_true]
    split <;> simp

/-! ## Report -/

def padRight (width : Nat) (t : Text) : Text := t ++ List.replicate (width - t.length) ' '

def padLeft (width : Nat) (t : Text) : Text := List.replicate (width - t.length) ' ' ++ t

def sectionLine (s : Section) : Text :=
  "  Phase " ++ padRight 6 s.heading.ordinal ++ " " ++ padLeft 7 (Text.ofNat s.size) ++
    " chars  " ++ s.heading.title ++ "\n"

def verdictText (scope : Text) : Verdict → Text
  | .fits => "Within budget, no split needed\n"
  | .whole => "Over budget with no phase sections, emitted unsplit\n"
  | .split kept satellites =>
    let targets : Text := satellites.flatMap fun id =>
      "  → " ++ Bundle.qualified scope id ++ "\n"
    "Split plan: " ++ Text.ofNat kept ++ " chars retained, " ++
      Text.ofNat satellites.length ++ " phases extracted\n" ++ targets

def sectionsText (sections : List Section) : Text :=
  if sections.isEmpty then "  No phase sections\n" else sections.flatMap sectionLine

def render (i : Inspection) (budget : Budget) (scope : Text) : Text :=
  "Inspecting " ++ i.name ++ " (" ++ Text.ofNat i.size ++ " chars, limit " ++
    Text.ofNat budget.limit ++ ", cutoff " ++ Double.wholeText budget.cutoff ++ ")\n" ++
  sectionsText i.sections ++ "\n" ++ verdictText scope i.verdict

end Inspection

end Playbook
