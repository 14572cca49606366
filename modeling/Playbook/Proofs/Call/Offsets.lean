import Playbook.Proofs.Call.Decoding
import Playbook.Proofs.Call.Scanner

/-!
# Arguments read by their bytes

What stands in parentheses is read among bytes. Each place that is found is an offset, and what is
taken from the text is cut out between two offsets. Here every such cut is made by `slice?`, which
refuses to cut a character, so a reading that ever cut one would come to nothing. None does: what
the readers of bytes stop at is a character of one byte.

Results:
* `closing_bytes`, `find_bytes`, `splitFrom_bytes`, `closesAtEnd_bytes`: each reader of bytes stops
  where the reader of characters does.
* `split?_eq`, `value?_eq`, `fragment?_eq`, `arguments?_eq`: every cut can be made, and gives what
  the reader of characters gives.
-/
namespace Playbook.Call

open Text (bytes byte byteChar byteSize slice?)

namespace Scanner

/-! ## Readers of bytes -/

/-- The bytes from an offset on, which must not lie behind the end. -/
def from? (start : Nat) (bs : List UInt8) : Option (List UInt8) :=
  if start ≤ bs.length then some (bs.drop start) else none

/-- The offset of the bracket that brings the depth to zero, where the bytes start at offset `i`.
It must be a `)`. -/
def closing : Scanner → (i : Nat) → List UInt8 → Option Nat
  | _, _, [] => none
  | s, i, b :: rest =>
    if s.role b = .closer && (s.step b).depth = 0 then if b = byte ')' then some i else none
    else closing (s.step b) (i + 1) rest

/-- The end of a call whose parentheses open right before byte `start`. -/
def closing? (start : Nat) (bs : List UInt8) : Option (Option Nat) :=
  (from? start bs).map (closing (nested 1) start)

/-- The offset of the first `mark` at top level. -/
def find (mark : UInt8) : Scanner → (i : Nat) → List UInt8 → Option Nat
  | _, _, [] => none
  | s, i, b :: rest =>
    if b = mark && s.atTop then some i else find mark (s.step b) (i + 1) rest

/-- The parts of the text between the separators at top level, where the part that is read starts
at byte `start` and the next byte is byte `i`. -/
def splitFrom (t : Text) (separator : UInt8) :
    Scanner → (start i : Nat) → List UInt8 → Option (List Text)
  | _, start, _, [] => (slice? start (byteSize t) t).map ([·])
  | s, start, i, b :: rest =>
    if b = separator && s.atTop then
      (slice? start i t).bind fun part =>
        (splitFrom t separator s (i + 1) (i + 1) rest).map (part :: ·)
    else splitFrom t separator (s.step b) start (i + 1) rest

def split? (separator : UInt8) (t : Text) : Option (List Text) :=
  splitFrom t separator top 0 0 (bytes t)

/-- Whether the first quote to close does so at the last byte. -/
def closesAtEnd : Scanner → List UInt8 → Bool
  | _, [] => false
  | s, b :: rest => if s.role b = .quoteClose then rest.isEmpty else closesAtEnd (s.step b) rest

/-- The quote around the bytes, if they are exactly one string literal. -/
def enclosing? (bs : List UInt8) : Option Quote :=
  (bs.head?.bind Quote.ofByte?).filter fun _ => 2 ≤ bs.length && closesAtEnd top bs

def value? (raw : Text) : Option Value :=
  let t := Text.trim raw
  match enclosing? (bytes t) with
  | some q => (slice? 1 (byteSize t - 1) t).map fun inner => .text (unescape q.char inner)
  | none => some (if isIdentifierPath t then .identifier t else .expression t)

/-- What a fragment says, if it says anything. -/
def fragment? (fragment : Text) : Option (Option (Text × Value)) :=
  match find (byte '=') top 0 (bytes fragment) with
  | none => some none
  | some i =>
    (slice? 0 i fragment).bind fun before =>
      if isIdentifier (Text.trim before) then
        (slice? (i + 1) (byteSize fragment) fragment).bind fun rest =>
          (value? rest).map fun value => some (Text.trim before, value)
      else some none

def arguments? (inner : Text) : Option Arguments :=
  (split? (byte ',') inner).bind fun fragments =>
    (fragments.mapM fragment?).map fun found => OrderedMap.ofList (found.filterMap id)

/-! ## Byte by byte, character by character -/

theorem byte_injective {c d : Char} (hc : c.toNat < 128) (hd : d.toNat < 128)
    (h : byte c = byte d) : c = d := by
  rw [← (Text.byteChar_eq_iff hc).2 h.symm, (Text.byteChar_eq_iff hd).2 rfl]

section
variable {c : Char} (s : Scanner)

theorem role_byte (h : c.toNat < 128) : s.role (byte c) = s.nesting.role c :=
  role_first (Text.utf8EncodeChar_ascii h)

theorem nesting_step_byte (h : c.toNat < 128) : (s.step (byte c)).nesting = s.nesting.step c := by
  rw [← (s.feed_byteChar (byte c)).2, (Text.byteChar_eq_iff h).2 rfl]

theorem nesting_run_char (c : Char) :
    (s.run (String.utf8EncodeChar c)).nesting = s.nesting.step c := by
  have h := s.nesting_run_bytes [c]
  rwa [Text.bytes_cons, Text.bytes_nil, List.append_nil] at h

end

/-- Induction along the bytes of a text: a character is one byte below 128, or bytes from 128 on. -/
theorem bytes_induction {motive : Scanner → Text → Prop} (nil : ∀ s, motive s [])
    (ascii : ∀ s c t, c.toNat < 128 → motive (s.step (byte c)) t → motive s t → motive s (c :: t))
    (long : ∀ s c t, 128 ≤ c.toNat → (∀ b ∈ String.utf8EncodeChar c, 128 ≤ b.toNat) →
      motive (s.run (String.utf8EncodeChar c)) t → motive s (c :: t)) (s : Scanner) (t : Text) :
    motive s t := by
  induction t generalizing s with
  | nil => exact nil s
  | cons c t ih =>
    rcases Nat.lt_or_ge c.toNat 128 with hc | hc
    · exact ascii s c t hc (ih _) (ih _)
    · exact long s c t hc (fun b => Text.le_of_mem_utf8EncodeChar hc) (ih _)

theorem bytes_cons_ascii {c : Char} (h : c.toNat < 128) (t : Text) :
    bytes (c :: t) = byte c :: bytes t := by
  rw [Text.bytes_cons, Text.utf8EncodeChar_ascii h]
  rfl

theorem utf8Size_ascii {c : Char} (h : c.toNat < 128) : c.utf8Size = 1 := by
  rw [← String.length_utf8EncodeChar, Text.utf8EncodeChar_ascii h]
  rfl

/-! ### The closing bracket -/

theorem closing_append {bs : List UInt8} (h : ∀ b ∈ bs, 128 ≤ b.toNat) (s : Scanner) (i : Nat)
    (rest : List UInt8) : closing s i (bs ++ rest) = closing (s.run bs) (i + bs.length) rest := by
  induction bs generalizing s i with
  | nil => rfl
  | cons b bs ih =>
    rw [List.forall_mem_cons] at h
    have hrole : s.role b ≠ .closer := by
      intro hb
      have hinert := inert_of_le (s := s) h.1
      rw [hb] at hinert
      cases hinert
    rw [List.cons_append, closing, if_neg (by simp [hrole]), ih h.2, List.length_cons, run_cons,
      Nat.add_right_comm, Nat.add_assoc]

theorem closing_bytes (s : Scanner) (i : Nat) (t : Text) : closing s i (bytes t) =
    (breakClose s.nesting t).map fun (inner, _) => i + byteSize inner := by
  induction s, t using bytes_induction generalizing i with
  | nil s => rfl
  | ascii s c t hc ih _ =>
    have hdepth : (s.step (byte c)).depth = (s.nesting.step c).depth := by
      rw [← nesting_step_byte s hc]
      rfl
    have hbyte : byte c = byte ')' ↔ c = ')' :=
      ⟨byte_injective hc (by decide), fun h => h ▸ rfl⟩
    rw [bytes_cons_ascii hc, closing, breakClose, role_byte s hc, hdepth]
    split
    · simp only [hbyte]
      split <;> rfl
    · rw [ih, nesting_step_byte s hc, Option.map_map]
      congr 1
      funext x
      simp [byteSize, utf8Size_ascii hc, Nat.add_assoc]
  | long s c t hc hm ih =>
    have hcloses : closes s.nesting c = false :=
      closes_eq_false (by simp [(isPlain_iff.1 (Nesting.isPlain_of_le hc)).2.2.2])
    rw [closes] at hcloses
    rw [Text.bytes_cons, closing_append hm, ih, nesting_run_char, breakClose,
      if_neg (by rw [hcloses]; decide), Option.map_map]
    congr 1
    funext x
    simp [byteSize, Nat.add_assoc]

/-! ### Marks at top level -/

theorem find_append {mark : Char} (hmark : mark.toNat < 128) {bs : List UInt8}
    (h : ∀ b ∈ bs, 128 ≤ b.toNat) (s : Scanner) (i : Nat) (rest : List UInt8) :
    find (byte mark) s i (bs ++ rest) = find (byte mark) (s.run bs) (i + bs.length) rest := by
  induction bs generalizing s i with
  | nil => rfl
  | cons b bs ih =>
    rw [List.forall_mem_cons] at h
    have hne := ne_byte_of_le hmark h.1
    rw [List.cons_append, find, if_neg (by simp [hne]), ih h.2, List.length_cons, run_cons,
      Nat.add_right_comm, Nat.add_assoc]

theorem find_bytes {mark : Char} (hmark : mark.toNat < 128) (s : Scanner) (i : Nat) (t : Text) :
    find (byte mark) s i (bytes t) =
      (breakTop mark s.nesting t).map fun (before, _) => i + byteSize before := by
  induction s, t using bytes_induction generalizing i with
  | nil s => rfl
  | ascii s c t hc ih _ =>
    have hbyte : byte c = byte mark ↔ c = mark :=
      ⟨byte_injective hc hmark, fun h => h ▸ rfl⟩
    rw [bytes_cons_ascii hc, find, breakTop, atTop_nesting]
    simp only [hbyte]
    split
    · rfl
    · rw [ih, nesting_step_byte s hc, Option.map_map]
      congr 1
      funext x
      simp [byteSize, utf8Size_ascii hc, Nat.add_assoc]
  | long s c t hc hm ih =>
    have hne : c ≠ mark := by
      rintro rfl
      omega
    rw [Text.bytes_cons, find_append hmark hm, ih, nesting_run_char, breakTop,
      if_neg (by simp [hne]), Option.map_map]
    congr 1
    funext x
    simp [byteSize, Nat.add_assoc]

theorem splitFrom_append {separator : Char} (hsep : separator.toNat < 128) {bs : List UInt8}
    (h : ∀ b ∈ bs, 128 ≤ b.toNat) (t : Text) (s : Scanner) (start i : Nat) (rest : List UInt8) :
    splitFrom t (byte separator) s start i (bs ++ rest) =
      splitFrom t (byte separator) (s.run bs) start (i + bs.length) rest := by
  induction bs generalizing s i with
  | nil => rfl
  | cons b bs ih =>
    rw [List.forall_mem_cons] at h
    have hne := ne_byte_of_le hsep h.1
    rw [List.cons_append, splitFrom, if_neg (by simp [hne]), ih h.2, List.length_cons, run_cons,
      Nat.add_right_comm, Nat.add_assoc]

/-- The cursor is behind `front` and `part`, and `part` is read since the last separator. -/
theorem splitFrom_bytes {separator : Char} (hsep : separator.toNat < 128) {t : Text}
    (s : Scanner) (front part rest : Text) (ht : t = front ++ part ++ rest) :
    splitFrom t (byte separator) s (byteSize front) (byteSize (front ++ part)) (bytes rest) =
      some ((splitTop separator s.nesting rest).modifyHead (part ++ ·)) := by
  induction s, rest using bytes_induction generalizing front part with
  | nil s =>
    have hslice := Text.slice?_of_eq ht
    rw [List.append_nil] at ht
    rw [← ht] at hslice
    rw [Text.bytes_nil, splitFrom, hslice]
    simp [splitTop]
  | ascii s c rest hc ihstep ihstay =>
    have hbyte : byte c = byte separator ↔ c = separator :=
      ⟨byte_injective hc hsep, fun h => h ▸ rfl⟩
    have hone : byteSize [c] = 1 := utf8Size_ascii hc
    rw [bytes_cons_ascii hc, splitFrom, splitTop, atTop_nesting]
    simp only [hbyte]
    split
    · have hrest := ihstay (front ++ part ++ [c]) [] (by rw [ht]; simp)
      rw [List.append_nil, Text.byteSize_append _ [c], hone] at hrest
      rw [Text.slice?_of_eq ht, Option.bind_some, hrest]
      cases splitTop separator s.nesting rest <;> simp
    · have hrest := ihstep front (part ++ [c]) (by rw [ht]; simp)
      rw [← List.append_assoc, Text.byteSize_append _ [c], hone] at hrest
      rw [hrest, nesting_step_byte s hc]
      cases hp : splitTop separator (s.nesting.step c) rest with
      | nil => exact absurd hp (splitTop_ne_nil _ _ _)
      | cons first parts => simp
  | long s c rest hc hm ih =>
    have hne : c ≠ separator := by
      rintro rfl
      omega
    have hrest := ih front (part ++ [c]) (by rw [ht]; simp)
    rw [← List.append_assoc, Text.byteSize_append _ [c], nesting_run_char] at hrest
    have hlen : byteSize [c] = (String.utf8EncodeChar c).length := by simp [byteSize]
    rw [Text.bytes_cons, splitFrom_append hsep hm, ← hlen, hrest, splitTop,
      if_neg (by simp [hne])]
    cases hp : splitTop separator (s.nesting.step c) rest with
    | nil => exact absurd hp (splitTop_ne_nil _ _ _)
    | cons first parts => simp

theorem split?_eq {separator : Char} (hsep : separator.toNat < 128) (t : Text) :
    split? (byte separator) t = some (splitTop separator .top t) := by
  have h : splitFrom t (byte separator) top 0 0 (bytes t) =
      some ((splitTop separator .top t).modifyHead ([] ++ ·)) :=
    splitFrom_bytes hsep top [] [] t rfl
  rw [split?, h]
  cases splitTop separator .top t <;> rfl

/-! ### Literals -/

theorem closesAtEnd_append {bs : List UInt8} (h : ∀ b ∈ bs, 128 ≤ b.toNat) (s : Scanner)
    (rest : List UInt8) : closesAtEnd s (bs ++ rest) = closesAtEnd (s.run bs) rest := by
  induction bs generalizing s with
  | nil => rfl
  | cons b bs ih =>
    rw [List.forall_mem_cons] at h
    have hrole : s.role b ≠ .quoteClose := by
      intro hb
      have hinert := inert_of_le (s := s) h.1
      rw [hb] at hinert
      cases hinert
    rw [List.cons_append, closesAtEnd, if_neg hrole, ih h.2, run_cons]

theorem closesAtEnd_bytes (s : Scanner) (t : Text) :
    closesAtEnd s (bytes t) = Call.closesAtEnd s.nesting t := by
  induction s, t using bytes_induction with
  | nil s => rfl
  | ascii s c t hc ih _ =>
    have hempty : (bytes t).isEmpty = t.isEmpty := by
      cases t with
      | nil => rfl
      | cons d t =>
        obtain ⟨b, bs, hd⟩ := Text.exists_utf8EncodeChar d
        rw [Text.bytes_cons, hd]
        rfl
    rw [bytes_cons_ascii hc, closesAtEnd, Call.closesAtEnd, role_byte s hc, hempty, ih,
      nesting_step_byte s hc]
  | long s c t hc hm ih =>
    rw [Text.bytes_cons, closesAtEnd_append hm, ih, nesting_run_char, Call.closesAtEnd,
      if_neg (role_ne_quoteClose s.quoteBelow_nesting hc)]

theorem isQuote_of_ascii {c : Char} (h : c.toNat < 128) :
    isQuote c = (Quote.ofByte? (byte c)).isSome := by
  rw [← isQuote_byteChar, (Text.byteChar_eq_iff h).2 rfl]

theorem enclosing?_of_le {b : UInt8} (h : 128 ≤ b.toNat) (bs : List UInt8) :
    enclosing? (b :: bs) = none := by
  have hquote : Quote.ofByte? b = none := by
    cases hq : Quote.ofByte? b with
    | none => rfl
    | some q => exact absurd (Quote.ofByte?_eq_some hq) (ne_byte_of_le q.toNat_char h)
  rw [enclosing?, List.head?_cons, Option.bind_some, hquote]
  rfl

theorem enclosing?_quote (q : Quote) (bs : List UInt8) : enclosing? (byte q.char :: bs) =
    if closesAtEnd (top.step (byte q.char)) bs then some q else none := by
  have hopens : top.role (byte q.char) ≠ .quoteClose := by cases q <;> decide
  rw [enclosing?, List.head?_cons, Option.bind_some, Quote.ofByte?_byte, closesAtEnd,
    if_neg hopens]
  cases bs with
  | nil => rfl
  | cons b bs => simp [Option.filter]

/-- The bytes of a text are a literal exactly if the text is. -/
theorem map_char_enclosing? (t : Text) :
    (enclosing? (bytes t)).map Quote.char = (literal? t).map Prod.fst := by
  cases t with
  | nil => rfl
  | cons c t =>
    rcases Nat.lt_or_ge c.toNat 128 with hc | hc
    · have hquote := isQuote_of_ascii hc
      rw [bytes_cons_ascii hc, literal?, hquote]
      cases hq : Quote.ofByte? (byte c) with
      | none =>
        rw [enclosing?, List.head?_cons, Option.bind_some, hq]
        rfl
      | some q =>
        obtain rfl := byte_injective hc q.toNat_char (Quote.ofByte?_eq_some hq)
        have htop : Nesting.top.step q.char = (top.step (byte q.char)).nesting :=
          (nesting_step_byte top hc).symm
        rw [enclosing?_quote, closesAtEnd_bytes, htop]
        simp only [Option.isSome_some, Bool.true_and]
        split <;> rfl
    · obtain ⟨b, bs, hb⟩ := Text.exists_utf8EncodeChar c
      have hle := Text.le_of_mem_utf8EncodeChar hc (hb ▸ List.mem_cons_self)
      rw [Text.bytes_cons, hb, List.cons_append, enclosing?_of_le hle, literal?,
        (isPlain_iff.1 (Nesting.isPlain_of_le hc)).2.1]
      rfl

theorem value?_eq (raw : Text) : value? raw = some (Value.parse raw) := by
  have hchar := map_char_enclosing? (Text.trim raw)
  unfold value? Value.parse
  cases hl : literal? (Text.trim raw) with
  | none =>
    rw [hl, Option.map_none, Option.map_eq_none_iff] at hchar
    simp only [hchar, hl]
  | some found =>
    obtain ⟨c, inner⟩ := found
    obtain ⟨hq, -, hv⟩ := literal?_eq_some_iff.1 hl
    rw [hl, Option.map_some, Option.map_eq_some_iff] at hchar
    obtain ⟨q, hq', hc⟩ := hchar
    have hslice := Text.slice?_eq_some_iff.2 (slice_literal hq hv)
    simp only [hq', hl, hslice, Option.map_some, hc]

/-! ### Arguments -/

/-- At the first mark the text can be cut before and behind it. -/
theorem slices_of_breakTop {mark : Char} (hmark : mark.toNat < 128) {s : Nesting}
    {t before rest : Text} (h : breakTop mark s t = some (before, rest)) :
    slice? 0 (byteSize before) t = some before ∧
      slice? (byteSize before + 1) (byteSize t) t = some rest := by
  have ht := (breakTop_eq_some h).1
  have hone : byteSize [mark] = 1 := utf8Size_ascii hmark
  have hfront : t = [] ++ before ++ mark :: rest := ht
  have hback : t = before ++ [mark] ++ rest ++ [] := by rw [ht]; simp
  have hbehind := Text.slice?_of_eq hback
  rw [Text.byteSize_append before, hone] at hbehind
  rw [List.append_nil] at hback
  rw [← hback] at hbehind
  exact ⟨Text.slice?_of_eq hfront, hbehind⟩

theorem fragment?_eq (fragment : Text) : fragment? fragment = some (Call.argument? fragment) := by
  have hfind := find_bytes (by decide : '='.toNat < 128) top 0 fragment
  unfold fragment? Call.argument?
  rw [hfind, nesting_top]
  cases hb : breakTop '=' .top fragment with
  | none => rfl
  | some found =>
    obtain ⟨before, rest⟩ := found
    obtain ⟨hbefore, hrest⟩ := slices_of_breakTop (by decide) hb
    simp only [Option.map_some, Nat.zero_add, hbefore, Option.bind_some, hrest, value?_eq]
    split <;> rfl

theorem arguments?_eq (inner : Text) : arguments? inner = some (Arguments.parse inner) := by
  have hmap : fragment? = fun fragment => pure (Call.argument? fragment) :=
    funext fragment?_eq
  rw [arguments?, split?_eq (by decide), Option.bind_some, hmap, List.mapM_pure]
  simp [Arguments.parse, List.filterMap_map]

end Scanner

end Playbook.Call
