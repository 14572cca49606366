/-!
# Ordered maps

A map that keeps its keys in the order of their first insertion. Inserting a key again replaces
its value in place.

Results:
* `get?_insert`: an insertion is seen under its own key and nowhere else.
* `keys_insert`: a new key comes last, a known one stays where it is.
* `find_remove`: a removed key is gone, the others stay.
-/
namespace Playbook

structure OrderedMap (κ β : Type) where
  entries : List (κ × β)
  deriving Repr, DecidableEq

namespace OrderedMap

variable {κ β : Type} [DecidableEq κ]

def empty : OrderedMap κ β := ⟨[]⟩

instance : Inhabited (OrderedMap κ β) := ⟨empty⟩

/-- Entries with the value of `key` replaced, or with a new entry at the end. -/
def put (key : κ) (value : β) : List (κ × β) → List (κ × β)
  | [] => [(key, value)]
  | (k, v) :: rest => if k = key then (k, value) :: rest else (k, v) :: put key value rest

def insert (m : OrderedMap κ β) (key : κ) (value : β) : OrderedMap κ β := ⟨put key value m.entries⟩

def ofList (entries : List (κ × β)) : OrderedMap κ β :=
  entries.foldl (fun m (key, value) => m.insert key value) empty

/-- The first value under `key`. -/
def find (key : κ) : List (κ × β) → Option β
  | [] => none
  | (k, v) :: rest => if k = key then some v else find key rest

def get? (m : OrderedMap κ β) (key : κ) : Option β := find key m.entries

def keys (m : OrderedMap κ β) : List κ := m.entries.map Prod.fst

def size (m : OrderedMap κ β) : Nat := m.entries.length

def isEmpty (m : OrderedMap κ β) : Bool := m.entries.isEmpty

theorem find_put (key k : κ) (value : β) (entries : List (κ × β)) :
    find k (put key value entries) = if k = key then some value else find k entries := by
  induction entries with
  | nil => simp [put, find, eq_comm]
  | cons e rest ih =>
    obtain ⟨a, v⟩ := e
    by_cases ha : a = key
    · by_cases hk : k = key <;> simp_all [put, find, eq_comm]
    · by_cases hk : a = k <;> simp_all [put, find]

theorem get?_insert (m : OrderedMap κ β) (key k : κ) (value : β) :
    (m.insert key value).get? k = if k = key then some value else m.get? k :=
  find_put key k value m.entries

theorem map_fst_put (key : κ) (value : β) (entries : List (κ × β)) :
    (put key value entries).map Prod.fst =
      if key ∈ entries.map Prod.fst then entries.map Prod.fst
      else entries.map Prod.fst ++ [key] := by
  induction entries with
  | nil => simp [put]
  | cons e rest ih =>
    obtain ⟨a, v⟩ := e
    by_cases ha : a = key
    · simp [put, ha]
    · by_cases hm : key ∈ rest.map Prod.fst <;> simp_all [put, eq_comm]

theorem keys_insert (m : OrderedMap κ β) (key : κ) (value : β) :
    (m.insert key value).keys = if key ∈ m.keys then m.keys else m.keys ++ [key] :=
  map_fst_put key value m.entries

/-- Entries without those of `key`. -/
def remove (key : κ) (entries : List (κ × β)) : List (κ × β) := entries.filter (·.1 ≠ key)

theorem find_remove (key k : κ) (entries : List (κ × β)) :
    find k (remove key entries) = if k = key then none else find k entries := by
  induction entries with
  | nil => simp [remove, find]
  | cons e rest ih =>
    obtain ⟨a, v⟩ := e
    simp only [remove] at ih
    by_cases ha : a = key
    · by_cases hk : k = key <;> simp_all [remove, find, eq_comm]
    · by_cases hk : a = k <;> simp_all [remove, find]

end OrderedMap

end Playbook
