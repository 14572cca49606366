import Playbook.Document
import Playbook.Section

/-!
# Bundles

A compiled workflow is a main document with satellites, one for each phase that was moved out
of it. Stub and satellite refer to each other by file name: a file is named by the scope that
all workflows share and the id of its document.

Results:
* `append_mem_iff`: which variants of an id are taken can be told from the endings in use.
* `length_assignIds`: every section gets an id.
-/
namespace Playbook

/-- A document with the id under which it is found. -/
structure Artifact where
  id : Text
  document : Document
  deriving Repr, DecidableEq

structure Bundle where
  main : Artifact
  satellites : List Artifact
  deriving Repr, DecidableEq

namespace Bundle

/-- A document on its own. -/
def single (name : Text) (document : Document) : Bundle := ⟨⟨name, document⟩, []⟩

def isSplit (b : Bundle) : Bool := !b.satellites.isEmpty

theorem isSplit_iff {b : Bundle} : b.isSplit = true ↔ b.satellites ≠ [] := by
  simp [isSplit]

/-! ## Ids -/

/-- The scope of workflow ids. -/
def defaultScope : Text := "gsd:"

/-- How documents refer to a workflow. -/
def qualified (scope id : Text) : Text := scope ++ id

/-- The entry of a satellite that names its main document. -/
def parentKey : Text := "parent"

/-- What numbered variants of an id end in: nothing, `-2`, `-3` up to `-(n+1)`. -/
def endings (n : Nat) : List Text :=
  [] :: (List.range n).map fun i => '-' :: Text.ofNat (i + 2)

/-- The first of `base`, `base-2`, `base-3`, ... that is not taken. There are more endings to
choose from than ids taken. -/
def freshId (taken : List Text) (base : Text) : Text :=
  let used := taken.filterMap (Text.after? base)
  base ++ ((endings used.length).find? fun ending => !used.contains ending).getD []

theorem append_mem_iff {taken : List Text} {base ending : Text} :
    base ++ ending ∈ taken ↔ ending ∈ taken.filterMap (Text.after? base) := by
  simp [List.mem_filterMap, Text.after?_eq_some]

/-- The id of the satellite for a section, if it were the only one with its ordinal. -/
def satelliteId (name : Text) (s : Section) : Text := name ++ "-phase-" ++ s.slug

/-- The sections with the ids of their satellites, all different. -/
def assignIds (name : Text) : (taken : List Text) → List Section → List (Text × Section)
  | _, [] => []
  | taken, s :: rest =>
    let id := freshId taken (satelliteId name s)
    (id, s) :: assignIds name (id :: taken) rest

theorem length_assignIds (name : Text) (taken : List Text) (sections : List Section) :
    (assignIds name taken sections).length = sections.length := by
  induction sections generalizing taken with
  | nil => rfl
  | cons s rest ih => simp [assignIds, ih]

/-! ## Stubs and satellites -/

/-- What stays in the main document where a section was. Its heading opens no section. -/
def stub (target : Text) (heading : Heading) : Text :=
  "## [Extracted] Phase " ++ heading.ordinal ++ ": " ++ heading.title ++ "\n\n" ++
  "> [!NOTE]\n" ++
  "> This phase has been extracted to a separate workflow for size management.\n\n" ++
  "**To continue this phase:**\n" ++
  "\x60\x60\x60\n" ++
  "@" ++ target ++ ".md\n" ++
  "\x60\x60\x60\n\n" ++
  "After completing Phase " ++ heading.ordinal ++ ", return here to proceed.\n\n"

/-- The end of the satellite at place `position` of `total`. -/
def footer (parent : Text) (position total : Nat) (heading : Heading) : Text :=
  "---\n\n" ++
  "> [!NOTE]\n" ++
  "> **Phase " ++ heading.ordinal ++ " complete** (" ++ Text.ofNat position ++ " of " ++
    Text.ofNat total ++ " extracted phases)\n" ++
  ">\n" ++
  "> Return to the main workflow to continue: \x60@" ++ parent ++ ".md\x60\n"

def satellite (scope name : Text) (position total : Nat) (id : Text) (s : Section) : Artifact where
  id := id
  document :=
    { frontmatter := .ofList [
        (Frontmatter.descriptionKey,
          name ++ " - Phase " ++ s.heading.ordinal ++ ": " ++ s.heading.title),
        (parentKey, qualified scope name)]
      body := Text.trim s.content ++ "\n\n" ++
        footer (qualified scope name) position total s.heading }

/-- The text, with a line feed added if its last line lacks one. -/
def endLine (t : Text) : Text := if t.isEmpty || Text.endsLine t then t else t ++ "\n"

/-- A main document that keeps `retained`, with a stub for every section moved out, and the
satellites that these become. -/
def assemble (scope name : Text) (frontmatter : Frontmatter) (retained : Text)
    (overflow : List Section) : Bundle :=
  let named := assignIds name [] overflow
  { main := ⟨name, frontmatter, endLine retained ++
      named.flatMap fun (id, s) => stub (qualified scope id) s.heading⟩
    satellites := named.mapIdx fun i (id, s) =>
      satellite scope name (i + 1) overflow.length id s }

end Bundle

end Playbook
