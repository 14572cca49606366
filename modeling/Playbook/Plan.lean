import Playbook.Budget
import Playbook.Bundle

/-!
# Split plans

A document over its budget is split along its sections. The first section that would bring the
document over the cutoff moves out, and all behind it do, even small ones. A document within
its budget stays whole; one without sections cannot be split.

Results:
* `keep_append`: the sections kept and those moved out are all sections, in order.
* `text_plan`: what a plan keeps and what it moves out make up the text.
-/
namespace Playbook

structure Plan where
  preamble : Text
  kept : List Section
  overflow : List Section

namespace Plan

/-- The text that stays in the main document. -/
def retained (p : Plan) : Text := p.preamble ++ p.kept.flatMap Section.content

def hasOverflow (p : Plan) : Bool := !p.overflow.isEmpty

/-- The sections up to the first that goes over the cutoff, and the others, where `size`
characters are already used. -/
def keep (budget : Budget) : (size : Nat) → List Section → List Section × List Section
  | _, [] => ([], [])
  | size, s :: rest =>
    if budget.overCutoff (size + s.size) then ([], s :: rest)
    else
      let (kept, overflow) := keep budget (size + s.size) rest
      (s :: kept, overflow)

/-- The plan for a body whose document takes `overhead` characters besides it. -/
def ofBody? (budget : Budget) (overhead : Nat) (body : Text) : Option Plan :=
  match Section.index body with
  | [] => none
  | sections =>
    let preamble := (Outline.ofText body).preamble
    let (kept, overflow) := keep budget (overhead + preamble.length) sections
    some ⟨preamble, kept, overflow⟩

theorem keep_append (budget : Budget) (size : Nat) (sections : List Section) :
    (keep budget size sections).1 ++ (keep budget size sections).2 = sections := by
  induction sections generalizing size with
  | nil => rfl
  | cons s rest ih =>
    simp only [keep]
    split
    · rfl
    · simp [ih]

theorem flatMap_content_placed (start : Nat) (parts : List (Heading × Text)) :
    (Section.placed start parts).flatMap Section.content = parts.flatMap (·.2) := by
  induction parts generalizing start with
  | nil => rfl
  | cons part parts ih => simp [Section.placed, ih]

theorem text_plan {budget : Budget} {overhead : Nat} {body : Text} {p : Plan}
    (h : ofBody? budget overhead body = some p) :
    p.retained ++ p.overflow.flatMap Section.content = body := by
  simp only [ofBody?] at h
  split at h
  · simp at h
  · simp only [Option.some.injEq] at h
    subst h
    rw [retained, List.append_assoc, ← List.flatMap_append, keep_append, Section.index,
      flatMap_content_placed]
    exact Outline.text_outline body

end Plan

/-- A document within its budget on its own; one over it split by the plan for its body; nothing
if it has no sections. -/
def Bundle.ofDocument? (budget : Budget) (scope name : Text) (d : Document) : Option Bundle :=
  if budget.exceeds d.size then
    (Plan.ofBody? budget d.overhead d.body).map fun plan =>
      Bundle.assemble scope name d.frontmatter plan.retained plan.overflow
  else some (.single name d)

end Playbook
