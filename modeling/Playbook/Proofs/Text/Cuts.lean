import Playbook.Proofs.Text.Slices

/-!
# Cutting bytes

A text is stored as the bytes of its UTF-8 form, and it is cut at byte offsets. A cut is refused
if the offset lies behind the end or inside a character: `cut?` and `slice?` say which cuts can be
made, and what they give.

Results:
* `octets_eq_map`: the octets are the bytes, written as characters.
* `cut?_eq_some_iff`: an offset can be cut at exactly if it is the size of a leading part.
* `slice?_eq_some_iff`: a slice is refused exactly if it is not valid.
-/
namespace Playbook.Text

/-! ## Bytes -/

/-- The bytes of the UTF-8 form. -/
def bytes (t : Text) : List UInt8 := t.flatMap String.utf8EncodeChar

/-- The byte of a character below 256. -/
def byte (c : Char) : UInt8 := UInt8.ofNat c.toNat

/-- A byte as the character of its number. -/
def byteChar (b : UInt8) : Char := Char.ofNat b.toNat

@[simp] theorem bytes_nil : bytes [] = [] := rfl

@[simp] theorem bytes_cons (c : Char) (t : Text) :
    bytes (c :: t) = String.utf8EncodeChar c ++ bytes t := rfl

@[simp] theorem bytes_append (s t : Text) : bytes (s ++ t) = bytes s ++ bytes t :=
  List.flatMap_append

theorem octets_eq_map (t : Text) : octets t = (bytes t).map byteChar :=
  (List.map_flatMap ..).symm

@[simp] theorem length_bytes (t : Text) : (bytes t).length = byteSize t := by
  rw [← length_octets, octets_eq_map, List.length_map]

theorem byteChar_eq_iff {b : UInt8} {c : Char} (h : c.toNat < 128) :
    byteChar b = c ↔ b = byte c := by
  constructor
  · intro hc
    rw [← hc, byte, byteChar, toNat_ofNat_byte, UInt8.ofNat_toNat]
  · intro hb
    rw [hb, byteChar, byte, UInt8.toNat_ofNat', Nat.mod_eq_of_lt (by omega), Char.ofNat_toNat]

theorem toNat_byteChar (b : UInt8) : (byteChar b).toNat = b.toNat := toNat_ofNat_byte b

theorem byteChar_injective {a b : UInt8} (h : byteChar a = byteChar b) : a = b := by
  rw [← UInt8.toNat_inj, ← toNat_byteChar, h, toNat_byteChar]

theorem utf8EncodeChar_ascii {c : Char} (h : c.toNat < 128) :
    String.utf8EncodeChar c = [byte c] := by
  have hmap : (String.utf8EncodeChar c).map byteChar = [byteChar (byte c)] := by
    rw [(byteChar_eq_iff h).2 rfl]
    exact octetsOf_ascii h
  exact (List.map_inj_right fun _ _ => byteChar_injective).1 hmap

theorem le_of_mem_utf8EncodeChar {c : Char} {b : UInt8} (h : 128 ≤ c.toNat)
    (hb : b ∈ String.utf8EncodeChar c) : 128 ≤ b.toNat := by
  rw [← toNat_byteChar]
  exact le_of_mem_octetsOf h (List.mem_map_of_mem hb)

theorem exists_utf8EncodeChar (c : Char) :
    ∃ first trailing, String.utf8EncodeChar c = first :: trailing := by
  refine List.exists_cons_of_ne_nil fun h => octetsOf_ne_nil c ?_
  rw [octetsOf, h, List.map_nil]

/-! ## Cuts -/

/-- The text before and behind byte `n`; none if no character starts or ends there. -/
def cut? : (n : Nat) → Text → Option (Text × Text)
  | 0, t => some ([], t)
  | _ + 1, [] => none
  | n + 1, c :: t =>
    if c.utf8Size ≤ n + 1 then
      (cut? (n + 1 - c.utf8Size) t).map fun (front, back) => (c :: front, back)
    else none

/-- What the text has from byte `start` up to byte `stop`; none if one of them cuts a character,
or if they are out of order or out of range. -/
def slice? (start stop : Nat) (t : Text) : Option Text :=
  (cut? stop t).bind fun parts => (cut? start parts.1).map Prod.snd

/-- An offset can be cut at exactly if it is the size of a leading part. -/
theorem cut?_eq_some_iff {n : Nat} {t front back : Text} :
    cut? n t = some (front, back) ↔ t = front ++ back ∧ byteSize front = n := by
  constructor
  · intro h
    induction t generalizing n front with
    | nil =>
      cases n with
      | zero =>
        cases h
        exact ⟨rfl, rfl⟩
      | succ n => cases h
    | cons c t ih =>
      cases n with
      | zero =>
        cases h
        exact ⟨rfl, rfl⟩
      | succ n =>
        rw [cut?] at h
        split at h
        · rename_i hle
          obtain ⟨⟨front, back⟩, hcut, he⟩ := Option.map_eq_some_iff.1 h
          cases he
          obtain ⟨rfl, hsize⟩ := ih hcut
          refine ⟨rfl, ?_⟩
          rw [byteSize, hsize]
          omega
        · cases h
  · intro h
    obtain ⟨rfl, rfl⟩ := h
    induction front with
    | nil => cases back <;> rfl
    | cons c front ih =>
      have hpos := c.utf8Size_pos
      obtain ⟨n, hn⟩ : ∃ n, byteSize (c :: front) = n + 1 :=
        Nat.exists_eq_succ_of_ne_zero (by rw [byteSize]; omega)
      have hrest : n + 1 - c.utf8Size = byteSize front := by
        rw [← hn, byteSize, Nat.add_sub_cancel_left]
      rw [hn, List.cons_append, cut?, if_pos (by rw [← hn, byteSize]; omega), hrest, ih]
      rfl

theorem slice?_of_eq {t front middle back : Text} (h : t = front ++ middle ++ back) :
    slice? (byteSize front) (byteSize (front ++ middle)) t = some middle := by
  rw [slice?, cut?_eq_some_iff.2 ⟨h, rfl⟩, Option.bind_some, cut?_eq_some_iff.2 ⟨rfl, rfl⟩]
  rfl

/-- What a slice can be cut from. -/
theorem exists_of_slice? {start stop : Nat} {t middle : Text}
    (h : slice? start stop t = some middle) : ∃ front back, t = front ++ middle ++ back ∧
      byteSize front = start ∧ byteSize (front ++ middle) = stop := by
  obtain ⟨⟨part, back⟩, hstop, hstart⟩ := Option.bind_eq_some_iff.1 h
  obtain ⟨⟨front, rest⟩, hcut, rfl⟩ := Option.map_eq_some_iff.1 hstart
  obtain ⟨rfl, rfl⟩ := cut?_eq_some_iff.1 hstop
  obtain ⟨rfl, rfl⟩ := cut?_eq_some_iff.1 hcut
  exact ⟨front, back, rfl, rfl, rfl⟩

/-- A slice is refused exactly if it is not valid. -/
theorem slice?_eq_some_iff {start stop : Nat} {t middle : Text} :
    slice? start stop t = some middle ↔ ValidSlice start stop t ∧ slice start stop t = middle := by
  constructor
  · intro h
    obtain ⟨front, back, ht, rfl, rfl⟩ := exists_of_slice? h
    exact slice_of_eq ht
  · intro h
    obtain ⟨⟨hle, ⟨front, rest, ht, rfl⟩, ⟨part, back, ht', rfl⟩⟩, rfl⟩ := h
    -- the longer of two leading parts starts with the shorter
    obtain ⟨middle, rfl⟩ : front <+: part := by
      have hfront : front <+: t := ⟨rest, ht.symm⟩
      have hpart : part <+: t := ⟨back, ht'.symm⟩
      rcases List.prefix_or_prefix_of_prefix hfront hpart with h | ⟨more, rfl⟩
      · exact h
      · cases more with
        | nil => exact ⟨[], by simp⟩
        | cons c more =>
          have hpos := c.utf8Size_pos
          rw [byteSize_append, byteSize] at hle
          omega
    rw [slice?_of_eq ht', (slice_of_eq ht').2]

end Playbook.Text
