import Mathlib.Data.Finset.Card
import Playbook.Proofs.OrderedMap.Entries

/-!
# What a map tells of its insertions

A map is made by insertions one after the other: the arguments of a call are, and so is the
frontmatter of a document. It tells each key once, in the order in which the keys first came, with
the value that came last. Lookup takes the first entry with a key, and the size counts entries:
both are right because no insertion ever makes a second entry for a key.

Results:
* `lastInserted_concat`: what another insertion makes of the values that came last.
* `Records.insert`: a map that tells of some insertions tells of one more once it is made.
* `ofList_faithful`: a map tells of all insertions that made it.
-/
namespace Playbook.OrderedMap

variable {κ β : Type} [DecidableEq κ]

/-- The last insertion of `key` came with `value`. -/
def LastInserted (inserted : List (κ × β)) (key : κ) (value : β) : Prop :=
  ∃ before behind, inserted = before ++ (key, value) :: behind ∧ key ∉ behind.map Prod.fst

/-- What a map tells of insertions made one after the other. -/
structure Records (inserted : List (κ × β)) (m : OrderedMap κ β) : Prop where
  nodup : m.keys.Nodup
  mem_iff : ∀ key, key ∈ m.keys ↔ key ∈ inserted.map Prod.fst
  ordered : m.keys.Pairwise fun first second =>
    (inserted.map Prod.fst).idxOf first < (inserted.map Prod.fst).idxOf second
  get?_iff : ∀ key value, m.get? key = some value ↔ LastInserted inserted key value

section
variable {inserted : List (κ × β)} {m : OrderedMap κ β} {key k : κ} {value v : β}

theorem mem_keys_insert : k ∈ (m.insert key value).keys ↔ k ∈ m.keys ∨ k = key := by
  rw [keys_insert]
  split
  · rename_i hkey
    exact ⟨Or.inl, fun h => h.elim id fun heq => heq ▸ hkey⟩
  · rw [List.mem_append, List.mem_singleton]

/-! ## One more insertion -/

theorem lastInserted_concat :
    LastInserted (inserted ++ [(key, value)]) k v ↔
      if k = key then value = v else LastInserted inserted k v := by
  constructor
  · rintro ⟨before, behind, hsplit, hlast⟩
    obtain rfl | ⟨rest, last, rfl⟩ := List.eq_nil_or_concat behind
    · obtain ⟨-, heq⟩ := List.append_inj' hsplit rfl
      rw [List.cons.injEq, Prod.mk.injEq] at heq
      rw [if_pos heq.1.1.symm]
      exact heq.1.2
    · rw [List.concat_eq_append, ← List.cons_append, ← List.append_assoc] at hsplit
      obtain ⟨hfront, heq⟩ := List.append_inj' hsplit rfl
      rw [List.concat_eq_append, List.map_append, List.mem_append, not_or] at hlast
      rw [List.cons.injEq] at heq
      have hne : k ≠ key := by
        rintro rfl
        exact hlast.2 (by rw [← heq.1]; exact List.mem_cons_self)
      rw [if_neg hne]
      exact ⟨before, rest, hfront, hlast.1⟩
  · intro h
    split at h
    · rename_i hkey
      subst hkey h
      exact ⟨inserted, [], rfl, List.not_mem_nil⟩
    · rename_i hkey
      obtain ⟨before, behind, rfl, hlast⟩ := h
      refine ⟨before, behind ++ [(key, value)], by simp, ?_⟩
      rw [List.map_append, List.mem_append, not_or]
      exact ⟨hlast, fun hmem => hkey (List.mem_singleton.1 hmem)⟩

/-- A key that was inserted before keeps its place among all keys inserted. -/
theorem idxOf_concat (h : k ∈ inserted.map Prod.fst) :
    ((inserted ++ [(key, value)]).map Prod.fst).idxOf k = (inserted.map Prod.fst).idxOf k := by
  rw [List.map_append, List.idxOf_append_of_mem h]

/-- A new key comes behind all keys inserted before. -/
theorem idxOf_lt_concat (h : k ∈ inserted.map Prod.fst) (hkey : key ∉ inserted.map Prod.fst) :
    ((inserted ++ [(key, value)]).map Prod.fst).idxOf k <
      ((inserted ++ [(key, value)]).map Prod.fst).idxOf key := by
  rw [idxOf_concat h, List.map_append, List.idxOf_append_of_notMem hkey]
  exact Nat.lt_of_lt_of_le (List.idxOf_lt_length_of_mem h) (Nat.le_add_right _ _)

theorem Records.ordered_insert (h : Records inserted m) (key : κ) (value : β) :
    (m.insert key value).keys.Pairwise fun first second =>
      ((inserted ++ [(key, value)]).map Prod.fst).idxOf first <
        ((inserted ++ [(key, value)]).map Prod.fst).idxOf second := by
  have hknown : m.keys.Pairwise fun first second =>
      ((inserted ++ [(key, value)]).map Prod.fst).idxOf first <
        ((inserted ++ [(key, value)]).map Prod.fst).idxOf second := by
    refine h.ordered.imp_of_mem fun hfirst hsecond hlt => ?_
    rwa [idxOf_concat ((h.mem_iff _).1 hfirst), idxOf_concat ((h.mem_iff _).1 hsecond)]
  rw [keys_insert]
  split
  · exact hknown
  · rename_i hkey
    refine List.pairwise_append.2 ⟨hknown, List.pairwise_singleton _ _, ?_⟩
    intro first hfirst second hsecond
    rw [List.mem_singleton.1 hsecond]
    exact idxOf_lt_concat ((h.mem_iff _).1 hfirst) (mt (h.mem_iff key).2 hkey)

/-- A map that tells of some insertions tells of one more once it is made. -/
theorem Records.insert (h : Records inserted m) (key : κ) (value : β) :
    Records (inserted ++ [(key, value)]) (m.insert key value) where
  nodup := nodup_keys_insert h.nodup key value
  mem_iff k := by
    rw [mem_keys_insert, h.mem_iff, List.map_append, List.mem_append, List.map_singleton,
      List.mem_singleton]
  ordered := h.ordered_insert key value
  get?_iff k v := by
    rw [get?_insert, lastInserted_concat]
    split
    · exact Option.some_inj
    · exact h.get?_iff k v

/-! ## All insertions -/

theorem records_empty : Records ([] : List (κ × β)) empty where
  nodup := List.nodup_nil
  mem_iff _ := Iff.rfl
  ordered := List.Pairwise.nil
  get?_iff _ _ := by
    constructor
    · intro h
      cases h
    · rintro ⟨before, behind, hsplit, -⟩
      exact absurd hsplit.symm (List.append_ne_nil_of_right_ne_nil _ (List.cons_ne_nil _ _))

theorem records_ofList (inserted : List (κ × β)) : Records inserted (ofList inserted) := by
  induction inserted using List.reverseRecOn with
  | nil => exact records_empty
  | append_singleton inserted last ih =>
    rw [ofList_concat]
    exact ih.insert last.1 last.2

theorem Records.get?_eq_none_iff (h : Records inserted m) :
    m.get? key = none ↔ key ∉ inserted.map Prod.fst := by
  rw [← h.mem_iff]
  exact find_eq_none_iff

theorem Records.size_eq (h : Records inserted m) :
    m.size = (inserted.map Prod.fst).toFinset.card := by
  have hkeys : m.keys.toFinset = (inserted.map Prod.fst).toFinset := by
    ext key
    rw [List.mem_toFinset, List.mem_toFinset, h.mem_iff]
  calc m.size = m.keys.length := (List.length_map _).symm
    _ = m.keys.toFinset.card := (List.toFinset_card_of_nodup h.nodup).symm
    _ = (inserted.map Prod.fst).toFinset.card := by rw [hkeys]

end

/-- A map made by insertions one after the other, from nothing, has the keys that were inserted,
each once and in the order in which they first came, and finds for each the value that came last
and nothing for any other key. Its size is the number of different keys. To insert a known key
again changes its value and nothing else. -/
theorem ofList_faithful (inserted : List (κ × β)) :
    Records inserted (ofList inserted) ∧
    (∀ key, (ofList inserted).get? key = none ↔ key ∉ inserted.map Prod.fst) ∧
    (ofList inserted).size = (inserted.map Prod.fst).toFinset.card ∧
    ∀ key ∈ (ofList inserted).keys, ∃ front old back,
      (ofList inserted).entries = front ++ (key, old) :: back ∧
      ∀ value, ((ofList inserted).insert key value).entries = front ++ (key, value) :: back := by
  have h := records_ofList inserted
  exact ⟨h, fun _ => h.get?_eq_none_iff, h.size_eq, fun _ hkey => exists_put_of_mem hkey⟩

/-- The key `1` keeps its place and takes its new value. -/
example : (ofList [(1, 'a'), (2, 'b'), (1, 'c')]).entries = [(1, 'c'), (2, 'b')] := by
  decide

end Playbook.OrderedMap
