import Playbook.Text.Basic

/-!
# Texts as bytes

Offsets count the bytes of the UTF-8 form. `octets` is that form, every byte written as the
character of its number, so that what is said of characters can be said of bytes as well.
`upTo` cuts a text at an offset.

Results:
* `octets_eq_append_cons`: a byte below 128 is always a character of its own, never a part of
  one.
* `upTo_append`: cut at the size of its first part, a text gives that part.
-/
namespace Playbook.Text

/-! ## The bytes of a character -/

def octetsOf (c : Char) : Text := (String.utf8EncodeChar c).map fun b => Char.ofNat b.toNat

/-- The bytes of the UTF-8 form, each as the character of its number. -/
def octets (t : Text) : Text := t.flatMap octetsOf

@[simp] theorem octets_nil : octets [] = [] := rfl

@[simp] theorem octets_cons (c : Char) (t : Text) : octets (c :: t) = octetsOf c ++ octets t := rfl

@[simp] theorem octets_append (s t : Text) : octets (s ++ t) = octets s ++ octets t :=
  List.flatMap_append

theorem toNat_ofNat {n : Nat} (h : n.isValidChar) : (Char.ofNat n).toNat = n := by
  unfold Char.ofNat
  rw [dif_pos h]
  rfl

theorem toNat_ofNat_byte (b : UInt8) : (Char.ofNat b.toNat).toNat = b.toNat := by
  have hb := b.toNat_lt
  exact toNat_ofNat (Or.inl (by omega))

theorem length_octetsOf (c : Char) : (octetsOf c).length = c.utf8Size := by
  simp [octetsOf]

@[simp] theorem length_octets (t : Text) : (octets t).length = byteSize t := by
  induction t with
  | nil => rfl
  | cons c t ih => simp [ih, length_octetsOf, byteSize]

theorem octetsOf_ascii {c : Char} (h : c.toNat < 128) : octetsOf c = [c] := by
  have h7 : c.val.toNat ≤ 0x7f := Nat.le_of_lt_succ h
  have hc : c.val.toNat = c.toNat := rfl
  unfold octetsOf String.utf8EncodeChar
  rw [if_pos h7]
  simp only [List.map_cons, List.map_nil, UInt8.toNat_ofNat', List.cons.injEq, and_true]
  rw [hc, Nat.mod_eq_of_lt (by omega), Char.ofNat_toNat]

theorem le_of_mem_octetsOf {c o : Char} (h : 128 ≤ c.toNat) (ho : o ∈ octetsOf c) :
    128 ≤ o.toNat := by
  have h7 : ¬ c.val.toNat ≤ 0x7f := by
    have : c.val.toNat = c.toNat := rfl
    omega
  unfold octetsOf at ho
  obtain ⟨b, hb, rfl⟩ := List.mem_map.1 ho
  rw [toNat_ofNat_byte]
  unfold String.utf8EncodeChar at hb
  rw [if_neg h7] at hb
  split at hb
  · simp only [List.mem_cons, List.not_mem_nil, or_false] at hb
    rcases hb with rfl | rfl <;> rw [UInt8.toNat_ofNat'] <;> omega
  · split at hb
    · simp only [List.mem_cons, List.not_mem_nil, or_false] at hb
      rcases hb with rfl | rfl | rfl <;> rw [UInt8.toNat_ofNat'] <;> omega
    · simp only [List.mem_cons, List.not_mem_nil, or_false] at hb
      rcases hb with rfl | rfl | rfl | rfl <;> rw [UInt8.toNat_ofNat'] <;> omega

theorem octetsOf_ne_nil (c : Char) : octetsOf c ≠ [] := by
  have hl := length_octetsOf c
  have hp := c.utf8Size_pos
  intro h
  rw [h] at hl
  simp at hl
  omega

theorem octets_eq_nil {t : Text} : octets t = [] ↔ t = [] := by
  cases t with
  | nil => simp
  | cons c t => simp [octetsOf_ne_nil]

/-! ## Bytes below 128 -/

theorem octetsOf_eq_of_mem {c o : Char} (ho : o.toNat < 128) (h : o ∈ octetsOf c) : c = o := by
  rcases Nat.lt_or_ge c.toNat 128 with hc | hc
  · rw [octetsOf_ascii hc, List.mem_singleton] at h
    exact h.symm
  · have := le_of_mem_octetsOf hc h
    omega

/-- A byte below 128 is a character, and it cuts the text where it cuts the bytes. -/
theorem octets_eq_append_cons {t p r : Text} {o : Char} (ho : o.toNat < 128)
    (h : octets t = p ++ o :: r) : ∃ t₁ t₂, t = t₁ ++ o :: t₂ ∧ octets t₁ = p ∧ octets t₂ = r := by
  induction t generalizing p with
  | nil => simp at h
  | cons c t ih =>
    rw [octets_cons] at h
    rcases List.append_eq_append_iff.1 h with ⟨p', rfl, ht⟩ | ⟨q, hc, hq⟩
    · obtain ⟨t₁, t₂, rfl, rfl, rfl⟩ := ih ht
      exact ⟨c :: t₁, t₂, rfl, rfl, rfl⟩
    · cases q with
      | nil =>
        obtain ⟨t₁, t₂, rfl, h₁, rfl⟩ := ih (p := []) hq.symm
        rw [octets_eq_nil] at h₁
        subst h₁
        exact ⟨[c], t₂, rfl, by simpa using hc, rfl⟩
      | cons x q =>
        -- the character holds the byte, so it is the byte
        rw [List.cons_append, List.cons.injEq] at hq
        obtain ⟨rfl, rfl⟩ := hq
        have hco : c = o := octetsOf_eq_of_mem ho (by rw [hc]; simp)
        subst hco
        rw [octetsOf_ascii ho] at hc
        have hl := congrArg List.length hc
        simp only [List.length_cons, List.length_nil, List.length_append] at hl
        have hp : p = [] := List.eq_nil_of_length_eq_zero (by omega)
        have hq : q = [] := List.eq_nil_of_length_eq_zero (by omega)
        subst hp hq
        exact ⟨[], t, rfl, rfl, rfl⟩

/-! ## Runs of a class below 128 -/

section
variable {p : Char → Bool} (hp : ∀ c, p c = true → c.toNat < 128)
include hp

theorem octets_of_all {t : Text} (h : ∀ c ∈ t, p c = true) : octets t = t := by
  induction t with
  | nil => rfl
  | cons c t ih =>
    rw [octets_cons, octetsOf_ascii (hp c (h c (by simp))),
      ih (fun d hd => h d (List.mem_cons_of_mem _ hd))]
    rfl

theorem eq_of_octets_eq {t u : Text} (h : octets t = u) (hu : ∀ c ∈ u, p c = true) : t = u := by
  induction t generalizing u with
  | nil => simpa using h
  | cons c t ih =>
    subst h
    have hc : c.toNat < 128 := by
      obtain ⟨o, l, ho⟩ := List.exists_cons_of_ne_nil (octetsOf_ne_nil c)
      have hm : o ∈ octetsOf c := by rw [ho]; simp
      have hlt := hp o (hu o (by simp [hm]))
      rw [octetsOf_eq_of_mem hlt hm]
      exact hlt
    rw [octets_cons, octetsOf_ascii hc] at hu ⊢
    rw [← ih rfl (fun d hd => hu d (by simp [hd]))]
    rfl

theorem eq_false_of_le {c : Char} (h : 128 ≤ c.toNat) : p c = false := by
  cases hc : p c with
  | false => rfl
  | true =>
    have := hp c hc
    omega

theorem getLast?_octetsOf (c : Char) : (octetsOf c).getLast?.any p = p c := by
  rcases Nat.lt_or_ge c.toNat 128 with hc | hc
  · rw [octetsOf_ascii hc]
    rfl
  · cases ho : (octetsOf c).getLast? with
    | none => exact absurd (List.getLast?_eq_none_iff.1 ho) (octetsOf_ne_nil c)
    | some o =>
      have hm := le_of_mem_octetsOf hc (List.mem_of_getLast? ho)
      rw [Option.any_some, eq_false_of_le hp hc, eq_false_of_le hp hm]

/-- The last byte of a text is in the class exactly if its last character is. -/
theorem getLast?_octets (t : Text) : (octets t).getLast?.any p = t.getLast?.any p := by
  rcases List.eq_nil_or_concat t with rfl | ⟨u, c, rfl⟩
  · rfl
  · have hc := getLast?_octetsOf hp c
    rw [List.concat_eq_append, octets_append, octets_cons, octets_nil, List.append_nil,
      List.getLast?_append,
      List.getLast?_concat, Option.any_some]
    cases ho : (octetsOf c).getLast? with
    | none => exact absurd (List.getLast?_eq_none_iff.1 ho) (octetsOf_ne_nil c)
    | some o =>
      rw [ho] at hc
      exact hc

end

/-! ## Cutting at an offset -/

/-- The characters of a text that lie wholly before byte `n`. -/
def upTo : (n : Nat) → Text → Text
  | _, [] => []
  | n, c :: t => if c.utf8Size ≤ n then c :: upTo (n - c.utf8Size) t else []

theorem upTo_append (s t : Text) : upTo (byteSize s) (s ++ t) = s := by
  induction s with
  | nil =>
    cases t with
    | nil => rfl
    | cons c t =>
      have hc := c.utf8Size_pos
      rw [List.nil_append, byteSize, upTo, if_neg (by omega)]
  | cons c s ih =>
    rw [List.cons_append, byteSize, upTo, if_pos (by omega), Nat.add_sub_cancel_left, ih]

end Playbook.Text
