import Playbook.Disk.FileTree

/-!
# Where paths lead

Without links, where a path leads depends on its text alone: the names in it are walked from the
root, a dot stays where it is, two dots go up. Different texts may lead to one place.

Results:
* `place_of_steps`: a walk that meets no link leads there.
* `names_join`: the names of a path below another.
* `resolve_append`: names are walked one run after the other.
* `Path.fileName?_of_no_slash`: a name on its own is the last name of its path.
-/
namespace Playbook

namespace Path

theorem not_isAbsolute {t : Text} (h : '/' ∉ t) : (⟨t⟩ : Path).isAbsolute = false := by
  cases t with
  | nil => rfl
  | cons c t =>
    have hc : c ≠ '/' := fun hc => h (hc ▸ List.mem_cons_self)
    simp [isAbsolute, hc]

theorem text_join {p q : Path} {c : Char} (hlast : p.text.getLast? = some c) (hc : c ≠ '/')
    (hq : q.isAbsolute = false) : (p.join q).text = p.text ++ '/' :: q.text := by
  have hne : p.isEmpty = false := by
    unfold isEmpty
    cases ht : p.text with
    | nil => rw [ht] at hlast; cases hlast
    | cons d t => rfl
  unfold join
  rw [hq, hne, hlast]
  simp [hc]

/-- All that is below a path has the same text in front. -/
theorem exists_text_join (p : Path) :
    ∃ lead, ∀ q : Path, q.isAbsolute = false → (p.join q).text = lead ++ q.text := by
  cases h : p.isEmpty || p.text.getLast? = some '/' with
  | true =>
    refine ⟨p.text, fun q hq => ?_⟩
    simp only [join, hq, h, Bool.false_eq_true, if_false, if_true]
  | false =>
    refine ⟨p.text ++ ['/'], fun q hq => ?_⟩
    simp only [join, hq, h, Bool.false_eq_true, if_false, List.append_assoc, List.singleton_append]

theorem fileName?_of_no_slash {name : Text} (hne : name ≠ []) (hslash : '/' ∉ name)
    (hdot : name ≠ ".") (hdots : name ≠ "..") : fileName? ⟨name⟩ = some name := by
  have hcounts : counts true name = true := by
    rw [counts, if_neg hdot]
    simpa using hne
  have hbackward : backward ⟨name⟩ = [name] := by
    simp only [backward, Text.fields_of_not_mem hslash, List.reverse_singleton, dropIdle,
      List.isEmpty_nil, hcounts, if_true]
  simp only [fileName?, hbackward, decide_eq_false hdot, decide_eq_false hdots]
  rfl

end Path

namespace Disk.FileTree

/-! ## Names -/

theorem names_of_no_slash {name : Text} (hslash : '/' ∉ name) :
    names ⟨name⟩ = if name = [] then [] else [name] := by
  unfold names
  rw [Text.fields_of_not_mem hslash]
  cases name with
  | nil => rfl
  | cons c name => rfl

theorem names_append_slash (t u : Text) : names ⟨t ++ '/' :: u⟩ = names ⟨t⟩ ++ names ⟨u⟩ := by
  unfold names
  rw [Text.fields_separator, List.filter_append]

theorem names_join {p q : Path} (hq : q.isAbsolute = false) :
    names (p.join q) = names p ++ names q := by
  unfold Path.join
  rw [hq]
  simp only [Bool.false_eq_true, if_false]
  split
  · rename_i h
    obtain ⟨t⟩ := p
    rcases List.eq_nil_or_concat t with rfl | ⟨front, c, rfl⟩
    · rfl
    · -- the path ends with a slash, which parts the names
      have hc : c = '/' := by simpa [Path.isEmpty] using h
      subst hc
      simp only [List.concat_eq_append, List.append_assoc, List.singleton_append]
      rw [names_append_slash, names_append_slash, show names ⟨[]⟩ = [] from rfl, List.append_nil]
  · exact names_append_slash p.text q.text

/-! ## Places -/

/-- Where names lead from a place if there are no links. -/
def resolve (place : Location) : List Text → Location
  | [] => place
  | name :: rest =>
    if name = "." then resolve place rest
    else if name = ".." then resolve place.dropLast rest
    else resolve (place ++ [name]) rest

/-- Where a path leads if there are no links. -/
def placeOf (p : Path) : Location := resolve [] (names p)

theorem resolve_append (place : Location) (a b : List Text) :
    resolve place (a ++ b) = resolve (resolve place a) b := by
  induction a generalizing place with
  | nil => rfl
  | cons name a ih =>
    simp only [List.cons_append, resolve, ih]
    split
    · rfl
    · split <;> rfl

theorem resolve_name {name : Text} (hdot : name ≠ ".") (hdots : name ≠ "..") (place : Location) :
    resolve place [name] = place ++ [name] := by
  rw [resolve, if_neg hdot, if_neg hdots, resolve]

/-- A walk that meets no link leads where the names alone lead. -/
theorem place_of_steps {root : FileTree} {trail found : Trail} {walked : List Text}
    (h : steps root trail walked = .ok (.arrived found)) :
    found.place = resolve trail.place walked := by
  induction walked generalizing trail with
  | nil =>
    cases h
    rfl
  | cons name rest ih =>
    unfold steps at h
    unfold resolve
    split at h
    · split at h
      · rename_i hdot
        rw [if_pos hdot]
        exact ih h
      · rename_i hdot
        rw [if_neg hdot]
        split at h
        · rename_i hdots
          rw [if_pos hdots, ih h]
          simp [Trail.place, List.map_tail, List.dropLast_reverse]
        · rename_i hdots
          rw [if_neg hdots]
          split at h
          · cases h
          · split at h
            · cases h
            · cases h
            · rw [ih h]
              simp [Trail.place]
    · cases h

end Disk.FileTree

end Playbook
