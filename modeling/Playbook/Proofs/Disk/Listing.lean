import Playbook.Disk.FileTree
import Playbook.Disk.Walk

/-!
# Entries in the order of their names

Texts are ordered as lists of characters, which is a linear order. The entries of a directory, each
with the tree that it holds, can be put in that order; a listing in the order of names shows them
so.

Results:
* `Text.le_antisymm`, `Text.le_trans`, `Text.le_total`: the order of names.
* `exists_sortByName`: the entries of a directory behind its sorted listing.
-/
namespace Playbook

namespace Text

theorem le_iff {s t : Text} : le s t = true ↔ List.le s t := by
  rw [le, Bool.not_eq_true']
  exact List.lex_eq_false_iff_ge

theorem le_antisymm {s t : Text} (h : le s t = true) (h' : le t s = true) : s = t :=
  List.le_antisymm (le_iff.1 h) (le_iff.1 h')

theorem le_trans {s t u : Text} (h : le s t = true) (h' : le t u = true) : le s u = true :=
  le_iff.2 (List.le_trans (le_iff.1 h) (le_iff.1 h'))

theorem le_total (s t : Text) : (le s t || le t s) = true := by
  rw [Bool.or_eq_true, le_iff, le_iff]
  exact List.le_total s t

end Text

namespace Disk

/-- What a listing shows of an entry. -/
def FileTree.shown (e : Text × FileTree) : Text × Kind := (e.1, e.2.kind)

open FileTree (shown)

theorem sortByName_of_sorted {entries : List (Text × Kind)}
    (h : entries.Pairwise fun a b => Text.le a.1 b.1 = true) : sortByName entries = entries :=
  List.mergeSort_of_pairwise h

/-- The entries behind a sorted listing. -/
theorem exists_sortByName (entries : List (Text × FileTree)) :
    ∃ sorted : List (Text × FileTree), sorted.Perm entries ∧
      sorted.map shown = sortByName (entries.map shown) ∧
      sorted.Pairwise fun a b => Text.le a.1 b.1 = true := by
  refine ⟨entries.mergeSort fun a b => Text.le a.1 b.1, List.mergeSort_perm _ _, ?_, ?_⟩
  · exact List.map_mergeSort fun _ _ _ _ => rfl
  · refine List.pairwise_mergeSort ?_ ?_ entries
    · exact fun _ _ _ => Text.le_trans
    · exact fun a b => Text.le_total a.1 b.1

end Disk

end Playbook
