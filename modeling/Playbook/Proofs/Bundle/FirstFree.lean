import Mathlib.Data.Finset.Card
import Playbook.Proofs.Bundle.Ids
import Playbook.Proofs.Bundle.Parts

/-!
# The search for a free id

A fresh id is found by trying: the base first, then the base with a number behind it, as long as
what is tried is taken. Nothing in this loop counts down. It stops because the numbered ids are all
different, so that each round uses up another one of the ids taken.

Results:
* `variant_injective`: the ids that are tried are all different.
* `IsFirstFree.le_card`: there are no more rounds than ids taken.
* `Search.stops_iff`: the one way in which the loop stops, with the fresh id.
* `getElem?_freshIds`: of ids given one after the other, each is fresh for those given before.
* `freshIds_first_free`: ids given one after the other differ, and each is the first that is free.
-/
namespace Playbook.Bundle

/-! ## Variants of an id -/

/-- The id that is tried after so many others: `base`, then `base-2`, `base-3`, ... -/
def variant (base : Text) (k : Nat) : Text := base ++ endingAt k

theorem variant_zero (base : Text) : variant base 0 = base := List.append_nil base

theorem variant_injective (base : Text) : Function.Injective (variant base) :=
  fun _ _ h => endingAt_injective (List.append_cancel_left h)

theorem variant_eq (base : Text) (k : Nat) :
    variant base k = base ∨ ∃ n ≥ 2, variant base k = base ++ '-' :: Text.ofNat n := by
  cases k with
  | zero => exact Or.inl (variant_zero base)
  | succ k => exact Or.inr ⟨k + 2, Nat.le_add_left 2 k, rfl⟩

/-! ## The first free one -/

/-- So many variants of an id are taken, and the next one is free. -/
structure IsFirstFree (taken : List Text) (base : Text) (k : Nat) : Prop where
  before : ∀ j < k, variant base j ∈ taken
  free : variant base k ∉ taken

section
variable {taken other : List Text} {base : Text} {j k : Nat}

theorem IsFirstFree.unique (hj : IsFirstFree taken base j) (hk : IsFirstFree taken base k) :
    j = k := by
  rcases Nat.lt_trichotomy j k with h | h | h
  · exact absurd (hk.before j h) hj.free
  · exact h
  · exact absurd (hj.before k h) hk.free

/-- There are no more variants before the first free one than ids taken: they are all different. -/
theorem IsFirstFree.le_card (h : IsFirstFree taken base k) : k ≤ taken.toFinset.card := by
  have htried : (Finset.range k).image (variant base) ⊆ taken.toFinset := by
    intro id hid
    obtain ⟨j, hj, rfl⟩ := Finset.mem_image.1 hid
    exact List.mem_toFinset.2 (h.before j (Finset.mem_range.1 hj))
  calc k = (Finset.range k).card := (Finset.card_range k).symm
    _ = ((Finset.range k).image (variant base)).card :=
      (Finset.card_image_of_injective _ (variant_injective base)).symm
    _ ≤ taken.toFinset.card := Finset.card_le_card htried

theorem IsFirstFree.congr (h : IsFirstFree taken base k) (hids : ∀ id, id ∈ taken ↔ id ∈ other) :
    IsFirstFree other base k :=
  ⟨fun j hj => (hids _).1 (h.before j hj), fun hmem => h.free ((hids _).2 hmem)⟩

end

theorem exists_isFirstFree (taken : List Text) (base : Text) :
    ∃ k, IsFirstFree taken base k ∧ freshId taken base = variant base k := by
  obtain ⟨found, hf, hfree⟩ := exists_ending (taken.filterMap (Text.after? base))
  have hid := freshId_eq hf
  rw [endings_eq_map] at hf
  obtain ⟨-, k, hk, hat, hbefore⟩ := List.find?_eq_some_iff_getElem.1 hf
  rw [List.getElem_map, List.getElem_range] at hat
  subst hat
  refine ⟨k, ⟨fun j hj => ?_, fun htaken => hfree (append_mem_iff.1 htaken)⟩, hid⟩
  have hused := hbefore j hj
  rw [List.getElem_map, List.getElem_range, Bool.not_not, List.contains_iff_mem] at hused
  exact append_mem_iff.2 hused

theorem freshId_congr {taken other : List Text} (h : ∀ id, id ∈ taken ↔ id ∈ other) (base : Text) :
    freshId taken base = freshId other base := by
  obtain ⟨j, hj, htaken⟩ := exists_isFirstFree taken base
  obtain ⟨k, hk, hother⟩ := exists_isFirstFree other base
  rw [htaken, hother, (hj.congr h).unique hk]

/-! ## The loop -/

/-- What the loop holds: the id to try, and the number for the one after it. -/
structure Search where
  id : Text
  next : Nat

namespace Search

def start (base : Text) : Search := ⟨base, 2⟩

/-- One round. -/
def advance (base : Text) (s : Search) : Search := ⟨base ++ '-' :: Text.ofNat s.next, s.next + 1⟩

/-- From `s` the loop goes through so many rounds, each because an id is taken, and stops
in `out`. -/
inductive Stops (taken : List Text) (base : Text) : (s : Search) → Nat → (out : Search) → Prop
  | free {s : Search} (h : s.id ∉ taken) : Stops taken base s 0 s
  | again {s out : Search} {rounds : Nat} (h : s.id ∈ taken)
      (rest : Stops taken base (s.advance base) rounds out) : Stops taken base s (rounds + 1) out

/-- The state after so many rounds. -/
def after (base : Text) (k : Nat) : Search := ⟨variant base k, k + 2⟩

theorem after_zero (base : Text) : after base 0 = start base := by
  rw [after, variant_zero, start]

theorem advance_after (base : Text) (k : Nat) : (after base k).advance base = after base (k + 1) :=
  rfl

section
variable {taken : List Text} {base : Text} {s out other : Search} {j k m n : Nat}

theorem Stops.unique (hm : Stops taken base s m out) (hn : Stops taken base s n other) :
    m = n ∧ out = other := by
  induction hm generalizing n with
  | free hfree =>
    cases hn with
    | free => exact ⟨rfl, rfl⟩
    | again htaken => exact absurd htaken hfree
  | again htaken _ ih =>
    cases hn with
    | free hfree => exact absurd htaken hfree
    | again _ hrest => exact ⟨congrArg Nat.succ (ih hrest).1, (ih hrest).2⟩

/-- With so many rounds to go, the loop stops at the first free variant. -/
theorem stops_after (h : IsFirstFree taken base k) (hk : j + n = k) :
    Stops taken base (after base j) n (after base k) := by
  induction n generalizing j with
  | zero =>
    rw [Nat.add_zero] at hk
    subst hk
    exact .free h.free
  | succ n ih =>
    have htaken : variant base j ∈ taken := h.before j (by omega)
    have hrest := ih (j := j + 1) (by omega)
    exact .again htaken (by rwa [advance_after])

theorem stops_iff (h : IsFirstFree taken base k) :
    Stops taken base (start base) n out ↔ n = k ∧ out = after base k := by
  have hstops := stops_after h (Nat.zero_add k)
  rw [after_zero] at hstops
  constructor
  · exact fun hn => hn.unique hstops
  · rintro ⟨rfl, rfl⟩
    exact hstops

end

end Search

/-! ## Ids one after the other -/

/-- Each id is the fresh one when those before it are taken as well. -/
theorem getElem?_freshIds (taken bases : List Text) (k : Nat) :
    (freshIds taken bases)[k]? =
      bases[k]?.map (freshId ((freshIds taken bases).take k ++ taken)) := by
  induction bases generalizing taken k with
  | nil => rfl
  | cons base rest ih =>
    rw [freshIds]
    cases k with
    | zero => rfl
    | succ k =>
      rw [List.getElem?_cons_succ, List.getElem?_cons_succ, ih, List.take_succ_cons]
      -- The id given first stands on either side of the others: as a set the two are the same.
      refine congrArg (rest[k]?.map ·) (funext fun b => freshId_congr (fun id => ?_) b)
      simp only [List.mem_append, List.mem_cons]
      tauto

/-- The loop for a fresh id always stops, after as many rounds as variants of the base are taken in
a row, which is no more than there are ids taken, and with the first variant that is free. The
number that it holds is never more than two above the number of ids taken: a signed counter of 32
bits is enough unless more than 2147483645 ids are taken. In a row of calls each id is taken as soon
as it is given, and nothing else is. From nothing taken, the ids are all different, and each is its
base or the base with a number from two on; the satellites of a document get theirs in this way. -/
theorem freshIds_first_free :
    (∀ (taken : List Text) (base : Text), ∃ rounds,
      (∀ (n : Nat) (out : Search), Search.Stops taken base (.start base) n out ↔
        n = rounds ∧ out = ⟨freshId taken base, rounds + 2⟩) ∧
      rounds ≤ taken.toFinset.card ∧
      IsFirstFree taken base rounds ∧ freshId taken base = variant base rounds) ∧
    (∀ (taken bases : List Text) (k : Nat), (freshIds taken bases)[k]? =
      bases[k]?.map (freshId ((freshIds taken bases).take k ++ taken))) ∧
    (∀ bases : List Text, (freshIds [] bases).Nodup ∧
      ∀ (k : Nat) (base id : Text), bases[k]? = some base → (freshIds [] bases)[k]? = some id →
        id = base ∨ ∃ n ≥ 2, id = base ++ '-' :: Text.ofNat n) ∧
    ∀ (scope name : Text) (frontmatter : Frontmatter) (retained : Text) (overflow : List Section),
      (assemble scope name frontmatter retained overflow).satellites.map Artifact.id =
        freshIds [] (overflow.map (satelliteId name)) := by
  refine ⟨fun taken base => ?_, getElem?_freshIds,
    fun bases => ⟨nodup_freshIds [] bases, fun k base id hbase hid => ?_⟩,
    fun scope name frontmatter retained overflow => ?_⟩
  · obtain ⟨rounds, hfirst, hid⟩ := exists_isFirstFree taken base
    refine ⟨rounds, fun n out => ?_, hfirst.le_card, hfirst, hid⟩
    rw [hid]
    exact Search.stops_iff hfirst
  · rw [getElem?_freshIds, hbase, Option.map_some, Option.some.injEq] at hid
    obtain ⟨rounds, -, hfresh⟩ :=
      exists_isFirstFree ((freshIds [] bases).take k ++ []) base
    rw [← hid, hfresh]
    exact variant_eq base rounds
  · rw [map_id_satellites, map_fst_assignIds]

/-- The number given to the second base makes the third one, which gets a number in its turn. -/
example : freshIds [] (["plan", "plan", "plan-2", "plan"].map String.toList) =
    ["plan", "plan-2", "plan-2-2", "plan-3"].map String.toList := by
  decide +kernel

end Playbook.Bundle
