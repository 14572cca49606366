import Playbook.Proofs.Text.Bytes
import Playbook.Text.Blank
import Playbook.Text.Digit
import Playbook.Text.Upper

/-!
# What upper case changes

Upper case leaves a character as it is or finds it in its tables. Both the characters in the tables
and what becomes of them lie in a few stretches of code points, which hold no digits, no blanks and
no signs. So what is a digit, a blank or a sign after upper case was the same before.

Results:
* `upper_eq`: the characters that change are those in the tables.
* `upper_cases`: a character stays as it is, or it is a cased one and so is what becomes of it.
* `not_isCased_of_isDigit`, `not_isCased_of_isBlank`: digits and blanks stay as they are.
-/
namespace Playbook.Text

/-! ## Cased characters -/

/-- Stretches of code points that hold all letters with an upper or a lower case. -/
def caseZones : List (Nat × Nat) :=
  [(0x41, 0x7A), (0xB5, 0x587), (0x10A0, 0x13FD), (0x1C80, 0x1FFC), (0x2132, 0x2D2D),
   (0xA640, 0xA7F6), (0xAB53, 0xABBF), (0xFB00, 0xFB17), (0xFF21, 0x1044F), (0x104B0, 0x10CF2),
   (0x10D50, 0x10D85), (0x118A0, 0x118DF), (0x16E40, 0x16ED3), (0x1E900, 0x1E943)]

def InZone (n : Nat) : Prop := ∃ zone ∈ caseZones, zone.1 ≤ n ∧ n ≤ zone.2

instance (n : Nat) : Decidable (InZone n) :=
  inferInstanceAs (Decidable (∃ zone ∈ caseZones, zone.1 ≤ n ∧ n ≤ zone.2))

/-- A character among the letters that have an upper or a lower case. -/
def IsCased (c : Char) : Prop := InZone c.toNat

instance (c : Char) : Decidable (IsCased c) := inferInstanceAs (Decidable (InZone c.toNat))

theorem not_isCased_of_isDigit {c : Char} (h : isDigit c = true) : ¬ IsCased c := by
  have hapart : ∀ first ∈ digitZeros, ∀ zone ∈ caseZones,
      first + 9 < zone.1 ∨ zone.2 < first := by
    decide +kernel
  rintro ⟨zone, hzone, hlo, hhi⟩
  obtain ⟨first, hfirst, hrange⟩ := List.any_eq_true.1 h
  rw [Bool.and_eq_true, decide_eq_true_eq, decide_eq_true_eq] at hrange
  have hdisjoint := hapart first hfirst zone hzone
  omega

theorem not_isCased_of_isBlank {c : Char} (h : isBlank c = true) : ¬ IsCased c := by
  simp only [isBlank, Bool.or_eq_true, Bool.and_eq_true, decide_eq_true_eq] at h
  simp only [IsCased, InZone, caseZones, List.mem_cons, List.not_mem_nil, or_false,
    exists_eq_or_imp, exists_eq_left]
  omega

theorem toNat_ofNat_of_inZone {n : Nat} (h : InZone n) : (Char.ofNat n).toNat = n := by
  have hvalid : ∀ zone ∈ caseZones, zone.2 < 0xD800 ∨ 0xDFFF < zone.1 ∧ zone.2 < 0x110000 := by
    decide
  obtain ⟨zone, hzone, hlo, hhi⟩ := h
  have hbounds := hvalid zone hzone
  refine toNat_ofNat ?_
  unfold Nat.isValidChar
  omega

theorem isCased_ofNat {n : Nat} (h : InZone n) : IsCased (Char.ofNat n) := by
  rwa [IsCased, toNat_ofNat_of_inZone h]

/-! ## The tables -/

/-- The one-to-one mappings, with those of ASCII. -/
def allRuns : List CaseRun := ⟨0x61, 0x7A, 1, -32⟩ :: caseRuns

theorem exists_moved_of_run {r : CaseRun} (hr : r ∈ allRuns) {n : Nat} (hfirst : r.first ≤ n)
    (hlast : n ≤ r.last) : InZone n ∧ ∃ m : Nat, (m : Int) = n + r.shift ∧ InZone m := by
  have hruns : ∀ r ∈ allRuns, (∃ zone ∈ caseZones, zone.1 ≤ r.first ∧ r.last ≤ zone.2) ∧
      ∃ zone ∈ caseZones, zone.1 ≤ r.first + r.shift ∧ r.last + r.shift ≤ zone.2 := by
    decide +kernel
  obtain ⟨⟨zone, hzone, hlo, hhi⟩, ⟨zone', hzone', hlo', hhi'⟩⟩ := hruns r hr
  exact ⟨⟨zone, hzone, by omega, by omega⟩, (n + r.shift).toNat, by omega, zone', hzone',
    by omega, by omega⟩

/-- The characters that change are those in the tables. -/
theorem upper_eq (c : Char) : upper c = [c] ∨
    (∃ r ∈ allRuns, ∃ d, r.first ≤ c.toNat ∧ c.toNat ≤ r.last ∧
      (d.toNat : Int) = c.toNat + r.shift ∧ upper c = [d]) ∨
    ∃ codes, (c.toNat, codes) ∈ caseExpansions ∧ upper c = codes.map Char.ofNat := by
  have hmoved {r : CaseRun} (hr : r ∈ allRuns) (hfirst : r.first ≤ c.toNat)
      (hlast : c.toNat ≤ r.last) :
      ((Char.ofNat (c.toNat + r.shift).toNat).toNat : Int) = c.toNat + r.shift := by
    obtain ⟨-, m, hm, hzone⟩ := exists_moved_of_run hr hfirst hlast
    rw [← hm, Int.toNat_natCast, toNat_ofNat_of_inZone hzone]
  rw [upper]
  split
  · rename_i hlower
    rw [Bool.and_eq_true, decide_eq_true_eq, decide_eq_true_eq] at hlower
    have ha : 0x61 ≤ c.toNat := hlower.1
    have hz : c.toNat ≤ 0x7A := hlower.2
    have hdown : (c.toNat + (-32 : Int)).toNat = c.toNat - 32 := by omega
    refine Or.inr (Or.inl ⟨_, List.mem_cons_self, _, ha, hz, hmoved List.mem_cons_self ha hz, ?_⟩)
    rw [hdown]
  · split
    · exact Or.inl rfl
    · cases hfind : caseExpansions.find? (·.1 = c.toNat) with
      | some entry =>
        obtain ⟨n, codes⟩ := entry
        have hn : n = c.toNat := by simpa using List.find?_some hfind
        refine Or.inr (Or.inr ⟨codes, ?_, rfl⟩)
        rw [← hn]
        exact List.mem_of_find?_eq_some hfind
      | none =>
        cases hrun : caseRuns.findSome? (·.map? c.toNat) with
        | none => exact Or.inl rfl
        | some code =>
          obtain ⟨r, hr, hcode⟩ := List.exists_of_findSome?_eq_some hrun
          have hr : r ∈ allRuns := List.mem_cons_of_mem _ hr
          rw [CaseRun.map?] at hcode
          split at hcode
          · rename_i hrange
            simp only [Bool.and_eq_true, decide_eq_true_eq] at hrange
            obtain ⟨⟨hfirst, hlast⟩, -⟩ := hrange
            refine Or.inr (Or.inl ⟨r, hr, _, hfirst, hlast, hmoved hr hfirst hlast, ?_⟩)
            rw [Option.some.inj hcode]
          · cases hcode

/-- A character stays as it is, or it is a cased one and so is what becomes of it. -/
theorem upper_cases (c : Char) :
    upper c = [c] ∨ IsCased c ∧ upper c ≠ [] ∧ ∀ d ∈ upper c, IsCased d := by
  have hexpansions : ∀ p ∈ caseExpansions, InZone p.1 ∧ p.2 ≠ [] ∧ ∀ code ∈ p.2, InZone code := by
    decide +kernel
  rcases upper_eq c with h | ⟨r, hr, d, hfirst, hlast, hd, h⟩ | ⟨codes, hmem, h⟩
  · exact Or.inl h
  · obtain ⟨hc, m, hm, hzone⟩ := exists_moved_of_run hr hfirst hlast
    rw [h]
    refine Or.inr ⟨hc, List.cons_ne_nil _ _, fun e he => ?_⟩
    rw [List.mem_singleton.1 he, IsCased, show d.toNat = m by omega]
    exact hzone
  · obtain ⟨hc, hne, hcodes⟩ := hexpansions _ hmem
    rw [h]
    refine Or.inr ⟨hc, fun hnil => hne (List.map_eq_nil_iff.1 hnil), fun d hd => ?_⟩
    obtain ⟨code, hcode, rfl⟩ := List.mem_map.1 hd
    exact isCased_ofNat (hcodes code hcode)

theorem upper_ne_nil (c : Char) : upper c ≠ [] := by
  rcases upper_cases c with h | ⟨-, hne, -⟩
  · rw [h]
    exact List.cons_ne_nil c []
  · exact hne

theorem upper_of_not_isCased {c : Char} (h : ¬ IsCased c) : upper c = [c] :=
  (upper_cases c).resolve_right fun hcased => h hcased.1

theorem upper_eq_P {c : Char} {rest : Text} (h : upper c = 'P' :: rest) :
    (c = 'p' ∨ c = 'P') ∧ rest = [] := by
  have hruns : ∀ r ∈ allRuns, r.shift = -32 ∨ r.last + r.shift < 0x50 ∨
      0x50 < r.first + r.shift := by
    decide +kernel
  have hexpansions : ∀ p ∈ caseExpansions, 'P' ∉ p.2.map Char.ofNat := by
    decide +kernel
  rcases upper_eq c with hc | ⟨r, hr, d, hfirst, hlast, hd, hc⟩ | ⟨codes, hmem, hc⟩
  · rw [hc, List.cons.injEq] at h
    exact ⟨Or.inr h.1, h.2.symm⟩
  · rw [hc, List.cons.injEq] at h
    have hP : d.toNat = 0x50 := congrArg Char.toNat h.1
    have hp : c.toNat = 0x70 := by
      have hshift := hruns r hr
      omega
    refine ⟨Or.inl ?_, h.2.symm⟩
    rw [← Char.ofNat_toNat c, hp]
  · refine absurd ?_ (hexpansions _ hmem)
    rw [← hc, h]
    exact List.mem_cons_self

end Playbook.Text
