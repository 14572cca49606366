import Playbook.Text.Basic

/-!
# Paths

A path is the text in which it was given: names separated by slashes. Empty segments mean
nothing, and neither does `.` except as the first segment of a relative path. Operations on
paths keep the text of what they do not remove.

Results:
* `extension?_eq_some`: a name with an extension is its stem, a dot and the extension.
* `splitName_append`: a stem, a dot and an extension without one are read back.
-/
namespace Playbook

structure Path where
  text : Text
  deriving Repr, DecidableEq

namespace Path

def ofString (s : String) : Path := ⟨s.toList⟩

def isEmpty (p : Path) : Bool := p.text.isEmpty

def isAbsolute (p : Path) : Bool := p.text.head? = some '/'

/-- `q` below `p`; an absolute `q` stays as it is. -/
def join (p q : Path) : Path :=
  if q.isAbsolute then q
  else if p.isEmpty || p.text.getLast? = some '/' then ⟨p.text ++ q.text⟩
  else ⟨p.text ++ '/' :: q.text⟩

/-! ## Segments -/

/-- Whether a segment counts, where `first` says that nothing stands before it. -/
def counts (first : Bool) (segment : Text) : Bool :=
  if segment = "." then first else !segment.isEmpty

/-- Segments from the last to the first, without those at the end that do not count. -/
def dropIdle : List Text → List Text
  | [] => []
  | segment :: before =>
    if counts before.isEmpty segment then segment :: before else dropIdle before

/-- The segments from the last to the first, starting with the last one that counts. -/
def backward (p : Path) : List Text := dropIdle (Text.fields '/' p.text).reverse

/-- The last name of the path; none if the path ends in `..` or names nothing. -/
def fileName? (p : Path) : Option Text :=
  match p.backward with
  | [] => none
  | segment :: _ => if segment = "." || segment = ".." then none else some segment

/-- The path without its last segment that counts. -/
def parent? (p : Path) : Option Path :=
  match p.backward with
  | [] => none
  | _ :: before =>
    match dropIdle before with
    | [] => some (if p.isAbsolute then ⟨['/']⟩ else ⟨[]⟩)
    | rest => some ⟨(['/'] : Text).intercalate rest.reverse⟩

/-! ## Stem and extension -/

/-- Stem and extension of a name: what stands before and behind its last dot. A name without a
dot, with nothing but a leading one, and `..` have no extension. -/
def splitName (name : Text) : Text × Option Text :=
  if name = ".." then (name, none)
  else
    let extension := (name.reverse.takeWhile (· ≠ '.')).reverse
    match name.reverse.dropWhile (· ≠ '.') with
    | [] => (name, none)
    | _ :: stem => if stem.isEmpty then (name, none) else (stem.reverse, some extension)

def fileStem? (p : Path) : Option Text := p.fileName?.map fun name => (splitName name).1

def extension? (p : Path) : Option Text := p.fileName?.bind fun name => (splitName name).2

def markdownExtension : Text := "md"

/-- Whether the path names a markdown document. -/
def isMarkdown (p : Path) : Bool := p.extension? = some markdownExtension

theorem extension?_eq_some {name stem extension : Text}
    (h : splitName name = (stem, some extension)) : name = stem ++ '.' :: extension := by
  simp only [splitName] at h
  split at h
  · simp at h
  · split at h
    · simp at h
    · rename_i dot rest hd
      split at h
      · simp at h
      · simp only [Prod.mk.injEq, Option.some.injEq] at h
        obtain ⟨rfl, rfl⟩ := h
        have hdot : dot = '.' := by
          have hn := List.head?_dropWhile_not (fun c : Char => decide (c ≠ '.')) name.reverse
          rw [hd] at hn
          simpa using hn
        have ht := List.takeWhile_append_dropWhile (p := (· ≠ '.')) (l := name.reverse)
        rw [hd, hdot] at ht
        have := congrArg List.reverse ht
        simpa using this.symm

/-- A stem, a dot and an extension without one are read back. -/
theorem splitName_append {stem extension : Text} (hs : stem ≠ []) (he : extension ≠ [])
    (hdot : '.' ∉ extension) : splitName (stem ++ '.' :: extension) = (stem, some extension) := by
  have hname : stem ++ '.' :: extension ≠ ".." := by
    intro h
    have hlen : (stem ++ '.' :: extension).length = 2 := congrArg List.length h
    have hstem := List.length_pos_iff.2 hs
    have hextension := List.length_pos_iff.2 he
    rw [List.length_append, List.length_cons] at hlen
    omega
  have hbehind : ∀ c ∈ extension.reverse, decide (c ≠ '.') = true := by
    intro c hc
    rw [decide_eq_true_eq]
    rintro rfl
    exact hdot (List.mem_reverse.1 hc)
  have hreverse :
      (stem ++ '.' :: extension).reverse = extension.reverse ++ '.' :: stem.reverse := by
    simp
  have hstem : stem.reverse.isEmpty = false := by simpa using hs
  simp only [splitName]
  rw [if_neg hname, hreverse, List.takeWhile_append_of_pos hbehind,
    List.dropWhile_append_of_pos hbehind]
  simp [hstem]

end Path

end Playbook
