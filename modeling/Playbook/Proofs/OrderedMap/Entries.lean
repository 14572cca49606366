import Mathlib.Data.List.Induction
import Playbook.OrderedMap

/-!
# Maps made of entries

A map is made by inserting entries one after the other. It holds each key once, and nothing but
entries that were inserted.

Results:
* `mem_of_mem_ofList`: what a map holds was inserted.
* `nodup_keys_ofList`: no key is held twice.
* `find_of_mem`, `find_perm`: looking up a key among entries with different keys.
* `entries_ofList`: entries with different keys are held as they are.
* `ofList_entries`: a map made of entries is made again of those it holds.
-/
namespace Playbook.OrderedMap

variable {κ β : Type} [DecidableEq κ]

/-! ## One insertion -/

section
variable {key : κ} {value : β} {entries : List (κ × β)}

theorem put_of_not_mem (h : key ∉ entries.map Prod.fst) (value : β) :
    put key value entries = entries ++ [(key, value)] := by
  induction entries with
  | nil => rfl
  | cons e rest ih =>
    rw [List.map_cons, List.mem_cons, not_or] at h
    rw [put, if_neg (Ne.symm h.1), ih h.2, List.cons_append]

theorem mem_put {e : κ × β} (h : e ∈ put key value entries) : e ∈ entries ∨ e = (key, value) := by
  induction entries with
  | nil => exact Or.inr (List.mem_singleton.1 h)
  | cons first rest ih =>
    rw [put] at h
    split at h
    · rename_i hkey
      rcases List.mem_cons.1 h with rfl | h
      · exact Or.inr (by rw [hkey])
      · exact Or.inl (List.mem_cons_of_mem _ h)
    · rcases List.mem_cons.1 h with rfl | h
      · exact Or.inl List.mem_cons_self
      · exact (ih h).imp_left (List.mem_cons_of_mem _)

/-- A known key keeps its place, and the entries around it stay as they are. -/
theorem exists_put_of_mem (h : key ∈ entries.map Prod.fst) :
    ∃ front old back, entries = front ++ (key, old) :: back ∧
      ∀ value : β, put key value entries = front ++ (key, value) :: back := by
  induction entries with
  | nil => cases h
  | cons e rest ih =>
    obtain ⟨k, v⟩ := e
    by_cases hkey : k = key
    · subst hkey
      exact ⟨[], v, rest, rfl, fun value => by rw [put, if_pos rfl, List.nil_append]⟩
    · rw [List.map_cons, List.mem_cons] at h
      obtain ⟨front, old, back, hrest, hput⟩ := ih (h.resolve_left (Ne.symm hkey))
      refine ⟨(k, v) :: front, old, back, by rw [hrest, List.cons_append], fun value => ?_⟩
      rw [put, if_neg hkey, hput, List.cons_append]

theorem nodup_keys_insert {m : OrderedMap κ β} (h : m.keys.Nodup) (key : κ) (value : β) :
    (m.insert key value).keys.Nodup := by
  rw [keys_insert]
  split
  · exact h
  · rename_i hkey
    refine List.nodup_append.2 ⟨h, List.pairwise_singleton _ _, ?_⟩
    intro k hmem other hlast heq
    rw [heq, List.mem_singleton.1 hlast] at hmem
    exact hkey hmem

theorem put_ne_nil (key : κ) (value : β) (entries : List (κ × β)) : put key value entries ≠ [] := by
  cases entries with
  | nil => exact List.cons_ne_nil _ _
  | cons first rest =>
    rw [put]
    split <;> exact List.cons_ne_nil _ _

theorem mem_of_find (h : find key entries = some value) : (key, value) ∈ entries := by
  induction entries with
  | nil => cases h
  | cons first rest ih =>
    rw [find] at h
    split at h
    · rename_i hkey
      rw [Option.some.injEq] at h
      rw [← hkey, ← h]
      exact List.mem_cons_self
    · exact List.mem_cons_of_mem _ (ih h)

end

/-! ## Looking up -/

section
variable {entries others : List (κ × β)} {key : κ} {value : β}

theorem find_eq_none_iff : find key entries = none ↔ key ∉ entries.map Prod.fst := by
  induction entries with
  | nil => simp [find]
  | cons e entries ih =>
    rw [find]
    split
    · rename_i hk
      simp [hk]
    · rename_i hk
      rw [ih, List.map_cons, List.mem_cons, not_or]
      exact ⟨fun h => ⟨Ne.symm hk, h⟩, And.right⟩

theorem find_concat (entries : List (κ × β)) (key k : κ) (value : β) :
    find k (entries ++ [(key, value)]) =
      (find k entries).or (if key = k then some value else none) := by
  induction entries with
  | nil => rfl
  | cons e entries ih =>
    rw [List.cons_append, find, ih, find]
    split <;> rfl

theorem find_of_mem (hnodup : (entries.map Prod.fst).Nodup) (h : (key, value) ∈ entries) :
    find key entries = some value := by
  induction entries with
  | nil => cases h
  | cons e entries ih =>
    rw [List.map_cons, List.nodup_cons] at hnodup
    rw [find]
    split
    · rename_i hk
      rw [List.mem_cons] at h
      rcases h with rfl | h
      · rfl
      · rw [hk] at hnodup
        exact absurd (List.mem_map_of_mem h) hnodup.1
    · rename_i hk
      rw [List.mem_cons] at h
      rcases h with rfl | h
      · exact absurd rfl hk
      · exact ih hnodup.2 h

/-- The order of entries with different keys makes no difference. -/
theorem find_perm (h : entries.Perm others) (hnodup : (entries.map Prod.fst).Nodup) (key : κ) :
    find key entries = find key others := by
  have hothers : (others.map Prod.fst).Nodup := (h.map Prod.fst).nodup_iff.1 hnodup
  refine Option.ext fun value => ⟨fun hfind => ?_, fun hfind => ?_⟩
  · exact find_of_mem hothers (h.mem_iff.1 (mem_of_find hfind))
  · exact find_of_mem hnodup (h.mem_iff.2 (mem_of_find hfind))

end

/-! ## All insertions -/

section
variable {entries : List (κ × β)}

theorem ofList_concat (entries : List (κ × β)) (e : κ × β) :
    ofList (entries ++ [e]) = (ofList entries).insert e.1 e.2 := by
  rw [ofList, List.foldl_append]
  rfl

theorem mem_of_mem_ofList {e : κ × β} (h : e ∈ (ofList entries).entries) : e ∈ entries := by
  induction entries using List.reverseRecOn with
  | nil => exact h
  | append_singleton entries last ih =>
    rw [ofList_concat] at h
    rw [List.mem_append, List.mem_singleton]
    exact (mem_put h).imp_left ih

theorem nodup_keys_ofList (entries : List (κ × β)) : (ofList entries).keys.Nodup := by
  induction entries using List.reverseRecOn with
  | nil => exact List.nodup_nil
  | append_singleton entries last ih =>
    rw [ofList_concat]
    exact nodup_keys_insert ih _ _

/-- Entries with different keys are held as they are. -/
theorem entries_ofList (h : (entries.map Prod.fst).Nodup) : (ofList entries).entries = entries := by
  induction entries using List.reverseRecOn with
  | nil => rfl
  | append_singleton entries last ih =>
    rw [List.map_append, List.nodup_append] at h
    obtain ⟨hentries, -, hlast⟩ := h
    have hnew : last.1 ∉ (ofList entries).entries.map Prod.fst := by
      rw [ih hentries]
      intro hmem
      exact hlast _ hmem _ List.mem_cons_self rfl
    rw [ofList_concat]
    show put last.1 last.2 (ofList entries).entries = _
    rw [put_of_not_mem hnew, ih hentries]

/-- A map made of entries is made again of those it holds. -/
theorem ofList_entries (entries : List (κ × β)) :
    ofList (ofList entries).entries = ofList entries := by
  have hkeys : ((ofList entries).entries.map Prod.fst).Nodup := nodup_keys_ofList entries
  exact congrArg OrderedMap.mk (entries_ofList hkeys)

theorem entries_ofList_ne_nil (h : entries ≠ []) : (ofList entries).entries ≠ [] := by
  obtain ⟨front, last, rfl⟩ := (List.eq_nil_or_concat entries).resolve_left h
  rw [List.concat_eq_append, ofList_concat]
  exact put_ne_nil _ _ _

end

end Playbook.OrderedMap
