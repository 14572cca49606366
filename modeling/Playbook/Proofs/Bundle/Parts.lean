import Playbook.Proofs.Plan.Accounting

/-!
# The parts of a split bundle

A bundle is put together from the text that a plan keeps and the sections that it moves out. The
main document adds nothing to what it keeps but the stubs: the line feed that is put behind a
retained text without one is never needed behind whole sections.

Results:
* `endLine_upTo_start`: the text before a section needs no line feed.
* `assemble_splits`: how the parts of a split bundle follow from what moves out.
* `ofDocument?_cases`: a document stays whole, cannot be split, or is split at a section.
-/
namespace Playbook

namespace Bundle

/-- `out` keeps `retained` in its main document, with a stub for every section moved out, and
has for each the satellite with its content, trimmed, and its footer. -/
structure Splits (scope name : Text) (out : Bundle) (retained : Text) (moved : List Section) :
    Prop where
  main_body : out.main.document.body =
    retained ++ ((out.satellites.map Artifact.id).zip moved).flatMap fun (id, s) =>
      stub (qualified scope id) s.heading
  count : out.satellites.length = moved.length
  satellite_body : ∀ (j : Nat) (a : Artifact) (s : Section),
    out.satellites[j]? = some a → moved[j]? = some s →
    a.document.body = Text.trim s.content ++ "\n\n" ++
      footer (qualified scope name) (j + 1) moved.length s.heading

theorem map_snd_assignIds (name : Text) (taken : List Text) (sections : List Section) :
    (assignIds name taken sections).map Prod.snd = sections := by
  induction sections generalizing taken with
  | nil => rfl
  | cons s rest ih => rw [assignIds, List.map_cons, ih]

theorem getElem?_assignIds (name : Text) (taken : List Text) (sections : List Section) (k : Nat) :
    (assignIds name taken sections)[k]?.map Prod.snd = sections[k]? := by
  rw [← List.getElem?_map, map_snd_assignIds]

theorem zip_assignIds (name : Text) (taken : List Text) (sections : List Section) :
    ((assignIds name taken sections).map Prod.fst).zip sections =
      assignIds name taken sections := by
  induction sections generalizing taken with
  | nil => rfl
  | cons s rest ih => rw [assignIds, List.map_cons, List.zip_cons_cons, ih]

theorem endLine_eq_self {t : Text} (h : t = [] ∨ Text.endsLine t = true) : endLine t = t := by
  unfold endLine
  rw [if_pos]
  rcases h with h | h
  · rw [h]
    rfl
  · rw [h, Bool.or_true]

theorem endLine_upTo_start {t : Text} {before after : List Section} {s : Section}
    (h : Section.index t = before ++ s :: after) :
    endLine (Text.upTo s.start t) = Text.upTo s.start t :=
  endLine_eq_self (Section.endsLine_upTo_start h)

section
variable (scope name : Text) (frontmatter : Frontmatter) (retained : Text)
  (overflow : List Section)

theorem getElem?_satellites (j : Nat) :
    (assemble scope name frontmatter retained overflow).satellites[j]? =
      (assignIds name [] overflow)[j]?.map fun (id, s) =>
        satellite scope name (j + 1) overflow.length id s := by
  rw [assemble, List.getElem?_mapIdx]

theorem map_id_satellites :
    (assemble scope name frontmatter retained overflow).satellites.map Artifact.id =
      (assignIds name [] overflow).map Prod.fst := by
  refine List.ext_getElem? fun j => ?_
  rw [List.getElem?_map, List.getElem?_map, getElem?_satellites, Option.map_map]
  rfl

/-- How the parts of a split bundle follow from what moves out. -/
theorem assemble_splits (h : endLine retained = retained) :
    Splits scope name (assemble scope name frontmatter retained overflow) retained overflow where
  main_body := by
    rw [map_id_satellites, zip_assignIds]
    show endLine retained ++ _ = _
    rw [h]
  count := length_satellites scope name frontmatter retained overflow
  satellite_body := by
    intro j a s ha hs
    rw [getElem?_satellites] at ha
    obtain ⟨⟨id, t⟩, hnamed, hat⟩ := Option.map_eq_some_iff.1 ha
    rw [← getElem?_assignIds name [] overflow, hnamed, Option.map_some, Option.some.injEq] at hs
    subst hs hat
    rfl

end

section
variable {b : Budget}

/-- A document that is not within its budget and not without sections is split at one. -/
theorem ofDocument?_cases (hv : b.Valid) (hl : b.limit < 2 ^ 53) (scope name : Text)
    (d : Document) :
    ofDocument? b scope name d = some (.single name d) ∨ ofDocument? b scope name d = none ∨
    ∃ kept s moved, Section.index d.body = kept ++ s :: moved ∧
      ofDocument? b scope name d =
        some (assemble scope name d.frontmatter (Text.upTo s.start d.body) (s :: moved)) := by
  rcases Nat.lt_or_ge b.limit d.size with hlt | hle
  · rw [ofDocument?_of_lt hlt]
    cases hp : Plan.ofBody? b d.overhead d.body with
    | none => exact Or.inr (Or.inl rfl)
    | some plan =>
      obtain ⟨s, moved, hcons, hi, hretained⟩ := exists_moved hv hl hlt hp
      refine Or.inr (Or.inr ⟨plan.kept, s, moved, hi, ?_⟩)
      rw [Option.map_some, hcons, hretained]
  · exact Or.inl (ofDocument?_of_le hle scope name)

theorem getD_ofDocument? (hv : b.Valid) (hl : b.limit < 2 ^ 53) (scope name : Text)
    (d : Document) {out : Bundle} (ho : (ofDocument? b scope name d).getD (.single name d) = out) :
    (out.main.document.body = d.body ∧ out.satellites = []) ∨
    ∃ kept s moved, Section.index d.body = kept ++ s :: moved ∧
      out.Splits scope name (Text.upTo s.start d.body) (s :: moved) := by
  rcases ofDocument?_cases hv hl scope name d with h | h | ⟨kept, s, moved, hi, h⟩
  · rw [h, Option.getD_some] at ho
    subst ho
    exact Or.inl ⟨rfl, rfl⟩
  · rw [h, Option.getD_none] at ho
    subst ho
    exact Or.inl ⟨rfl, rfl⟩
  · rw [h, Option.getD_some] at ho
    subst ho
    exact Or.inr ⟨kept, s, moved, hi, assemble_splits _ _ _ _ _ (endLine_upTo_start hi)⟩

end

end Bundle

end Playbook
