import Playbook.Text.Rule

/-!
# References to installed files

Documents refer to files under `~/.claude/`, where the library is installed for one assistant.
Each reference becomes one to the file's place in a project of the host: resource directories
and everything else below `.agent/resources/`, an agent's file as its skill.

Results:
* `localize_of_plain`: a text without such references stays as it is.
-/
namespace Playbook.Reference

def installRoot : Text := "~/.claude/"

def packageRoot : Text := "~/.claude/get-shit-done/"

def agentRoot : Text := "~/.claude/agents/gsd-"

def resourceTarget : Text := ".agent/resources/"

def skillTarget : Text := ".agent/skills/"

/-- The resource directories, in the order in which they are copied. -/
def resourceDirs : List Text := ["templates", "references", "workflows"]

/-- Replace what stands before `remaining` by `text`. -/
def replaceTo (rest remaining text : Text) : Edit := ⟨rest.length - remaining.length, text⟩

/-- A resource directory, with an `@` right before it. -/
def resourceRule : Rule := fun _ rest =>
  match Text.after? packageRoot (Text.strip "@" rest) with
  | none => none
  | some path => resourceDirs.findSome? fun dir =>
      (Text.after? (dir ++ "/") path).map fun remaining =>
        replaceTo rest remaining (resourceTarget ++ dir ++ "/")

def isAgentChar (c : Char) : Bool := ('a' ≤ c && c ≤ 'z') || c = '-'

/-- The file of an agent, with an `@` right before it. -/
def agentRule : Rule := fun _ rest =>
  match Text.after? agentRoot (Text.strip "@" rest) with
  | none => none
  | some path =>
    let name := path.takeWhile isAgentChar
    if name.isEmpty then none
    else (Text.after? ".md" (path.dropWhile isAgentChar)).map fun remaining =>
      replaceTo rest remaining (skillTarget ++ name ++ "/SKILL.md")

/-- The rules, in the order of their application. -/
def rules : List Rule :=
  [resourceRule, agentRule, .replacing packageRoot resourceTarget,
    .replacing installRoot resourceTarget]

/-- The text with its references to installed files led to the project. -/
def localize (t : Text) : Text := rules.foldl (fun t rule => rule.apply t) t

/-! ## Texts without references -/

/-- Rules that act only where a reference to an installed file begins, or at an `@` before. -/
def ActsAtReference (rule : Rule) : Prop :=
  ∀ before rest edit, rule before rest = some edit →
    ∃ lead path, rest = lead ++ installRoot ++ path

theorem eq_of_after?_strip {lead root rest path : Text} (inner : Text)
    (hroot : root = installRoot ++ inner)
    (h : Text.after? root (Text.strip lead rest) = some path) :
    ∃ lead path, rest = lead ++ installRoot ++ path := by
  have hp := Text.after?_eq_some.1 h
  cases hs : Text.after? lead rest with
  | none => exact ⟨[], inner ++ path, by simpa [Text.strip, hs, hroot] using hp⟩
  | some r =>
    refine ⟨lead, inner ++ path, ?_⟩
    rw [Text.after?_eq_some.1 hs]
    simpa [Text.strip, hs, hroot] using hp

theorem actsAtReference_of_mem {rule : Rule} (h : rule ∈ rules) : ActsAtReference rule := by
  intro before rest edit he
  simp only [rules, List.mem_cons, List.not_mem_nil, or_false] at h
  rcases h with rfl | rfl | rfl | rfl
  · simp only [resourceRule] at he
    split at he
    · simp at he
    · rename_i path hp
      exact eq_of_after?_strip "get-shit-done/" rfl hp
  · simp only [agentRule] at he
    split at he
    · simp at he
    · rename_i path hp
      exact eq_of_after?_strip "agents/gsd-" rfl hp
  · obtain ⟨path, hp⟩ := Rule.eq_of_replacing he
    exact ⟨[], "get-shit-done/" ++ path, hp⟩
  · obtain ⟨path, hp⟩ := Rule.eq_of_replacing he
    exact ⟨[], path, hp⟩

theorem localize_of_plain {t : Text} (h : Text.occursIn installRoot t = false) :
    localize t = t := by
  have hi (rule : Rule) (hr : rule ∈ rules) : rule.apply t = t := by
    refine Rule.apply_of_inert fun u v huv _ => ?_
    cases he : rule u.reverse v with
    | none => rfl
    | some edit =>
      obtain ⟨lead, path, rfl⟩ := actsAtReference_of_mem hr _ _ _ he
      have := Text.occursIn_append (u ++ lead) installRoot path
      simp [huv, ← List.append_assoc, this] at h
  have hf (l : List Rule) (hl : ∀ r ∈ l, r.apply t = t) :
      l.foldl (fun t rule => rule.apply t) t = t := by
    induction l with
    | nil => rfl
    | cons r l ih =>
      rw [List.foldl_cons, hl r (by simp), ih fun r hr => hl r (by simp [hr])]
  exact hf rules hi

end Playbook.Reference
