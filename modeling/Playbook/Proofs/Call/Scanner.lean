import Playbook.Proofs.Call.Octets
import Playbook.Proofs.Text.Cuts

/-!
# A scanner of bytes

The scanner reads nested text byte by byte, by the rules that `Nesting` has for characters. A
character of more than one byte means nothing to it: after a backslash its first byte is taken as
the escaped one, and its other bytes pass without effect. So between two characters both machines
are in the same state, whatever state they started in.

Results:
* `exists_run`: every state of the scanner is one that bytes lead to.
* `nesting_run_bytes`: between characters the scanner is where the reader of characters is.
* `role_first`, `inert_of_trailing`: the first byte of a character plays its part, and the others
  open, close and escape nothing.
-/
namespace Playbook.Call

open Text (bytes byte byteChar octets)

/-! ## The machine -/

/-- A quote that opens and closes strings. -/
inductive Quote
  | double
  | single
  | back
  deriving Repr, DecidableEq

namespace Quote

def char : Quote → Char
  | double => '"'
  | single => '\''
  | back => '\x60'

def ofByte? (b : UInt8) : Option Quote :=
  if b = byte '"' then some double
  else if b = byte '\'' then some single
  else if b = byte '\x60' then some back
  else none

end Quote

def isOpenerByte (b : UInt8) : Bool := b = byte '(' || b = byte '\x7b' || b = byte '['

def isCloserByte (b : UInt8) : Bool := b = byte ')' || b = byte '\x7d' || b = byte ']'

/-- How many brackets are open, which quote is, and whether the next byte is escaped. -/
structure Scanner where
  depth : Nat
  quote : Option Quote
  escaped : Bool
  deriving Repr, DecidableEq

namespace Scanner

/-- Behind `depth` opening brackets. -/
def nested (depth : Nat) : Scanner := ⟨depth, none, false⟩

/-- Outside every bracket and string. -/
def top : Scanner := nested 0

def atTop (s : Scanner) : Bool := s.depth = 0 && s.quote.isNone && !s.escaped

/-- The part that the next byte plays, and the state behind it. -/
def feed (s : Scanner) (b : UInt8) : Role × Scanner :=
  if s.escaped then (.escaped, { s with escaped := false })
  else if b = byte '\\' then (.escape, { s with escaped := true })
  else match s.quote with
    | some q => if b = byte q.char then (.quoteClose, { s with quote := none }) else (.quoted, s)
    | none =>
      match Quote.ofByte? b with
      | some q => (.quoteOpen, { s with quote := some q })
      | none =>
        if isOpenerByte b then (.opener, { s with depth := s.depth + 1 })
        else if isCloserByte b then (.closer, { s with depth := s.depth - 1 })
        else (.plain, s)

def role (s : Scanner) (b : UInt8) : Role := (s.feed b).1

def step (s : Scanner) (b : UInt8) : Scanner := (s.feed b).2

def run (s : Scanner) (bs : List UInt8) : Scanner := bs.foldl step s

@[simp] theorem run_nil (s : Scanner) : s.run [] = s := rfl

@[simp] theorem run_cons (s : Scanner) (b : UInt8) (bs : List UInt8) :
    s.run (b :: bs) = (s.step b).run bs := rfl

theorem run_append (s : Scanner) (as bs : List UInt8) : s.run (as ++ bs) = (s.run as).run bs :=
  List.foldl_append

theorem atTop_iff {s : Scanner} : s.atTop = true ↔ s = top := by
  obtain ⟨depth, quote, escaped⟩ := s
  simp [atTop, top, nested, and_assoc]

/-- Every state is one that bytes lead to: a quote opens a string, and a backslash behind it
escapes. -/
theorem exists_run (s : Scanner) : ∃ bs, (nested s.depth).run bs = s := by
  obtain ⟨depth, quote, escaped⟩ := s
  have hquote : ∃ bs, (nested depth).run bs = ⟨depth, quote, false⟩ := by
    cases quote with
    | none => exact ⟨[], rfl⟩
    | some q =>
      refine ⟨[byte q.char], ?_⟩
      cases q <;> rfl
  obtain ⟨bs, hbs⟩ := hquote
  cases escaped with
  | false => exact ⟨bs, hbs⟩
  | true =>
    refine ⟨bs ++ [byte '\\'], ?_⟩
    rw [run_append, hbs]
    cases quote <;> rfl

/-! ## The same rules for bytes and characters -/

/-- The state of a reader of characters that the scanner's state stands for. -/
def nesting (s : Scanner) : Nesting := ⟨s.depth, s.quote.map Quote.char, s.escaped⟩

end Scanner

theorem Quote.toNat_char (q : Quote) : q.char.toNat < 128 := by
  cases q <;> decide

theorem Quote.ofByte?_eq_some {b : UInt8} {q : Quote} (h : ofByte? b = some q) :
    b = byte q.char := by
  unfold ofByte? at h
  split at h
  · cases h
    assumption
  · split at h
    · cases h
      assumption
    · split at h
      · cases h
        assumption
      · cases h

theorem Quote.ofByte?_byte (q : Quote) : ofByte? (byte q.char) = some q := by
  cases q <;> rfl

theorem isQuote_byteChar (b : UInt8) : isQuote (byteChar b) = (Quote.ofByte? b).isSome := by
  have hdouble := Text.byteChar_eq_iff (b := b) (c := '"') (by decide)
  have hsingle := Text.byteChar_eq_iff (b := b) (c := '\'') (by decide)
  have hback := Text.byteChar_eq_iff (b := b) (c := '\x60') (by decide)
  simp only [isQuote, hdouble, hsingle, hback, Quote.ofByte?]
  repeat' split
  all_goals simp_all

theorem isOpener_byteChar (b : UInt8) : isOpener (byteChar b) = isOpenerByte b := by
  have hround := Text.byteChar_eq_iff (b := b) (c := '(') (by decide)
  have hcurly := Text.byteChar_eq_iff (b := b) (c := '\x7b') (by decide)
  have hsquare := Text.byteChar_eq_iff (b := b) (c := '[') (by decide)
  simp only [isOpener, isOpenerByte, hround, hcurly, hsquare]

theorem isCloser_byteChar (b : UInt8) : isCloser (byteChar b) = isCloserByte b := by
  have hround := Text.byteChar_eq_iff (b := b) (c := ')') (by decide)
  have hcurly := Text.byteChar_eq_iff (b := b) (c := '\x7d') (by decide)
  have hsquare := Text.byteChar_eq_iff (b := b) (c := ']') (by decide)
  simp only [isCloser, isCloserByte, hround, hcurly, hsquare]

namespace Scanner

variable (s : Scanner)

@[simp] theorem nesting_nested (depth : Nat) : (nested depth).nesting = .inside depth := rfl

@[simp] theorem nesting_top : top.nesting = .top := rfl

theorem nesting_injective {s s' : Scanner} (h : s.nesting = s'.nesting) : s = s' := by
  obtain ⟨depth, quote, escaped⟩ := s
  obtain ⟨depth', quote', escaped'⟩ := s'
  simp only [nesting, Nesting.mk.injEq] at h
  obtain ⟨rfl, hquote, rfl⟩ := h
  have hinj : Function.Injective Quote.char := by
    intro q q' hq
    cases q <;> cases q' <;> first | rfl | exact absurd hq (by decide)
  rw [Option.map_injective hinj hquote]

theorem quoteBelow_nesting : s.nesting.QuoteBelow := by
  intro c hc
  obtain ⟨q, -, rfl⟩ := Option.map_eq_some_iff.1 hc
  exact q.toNat_char

theorem atTop_nesting : s.nesting.atTop = s.atTop := by
  obtain ⟨depth, quote, escaped⟩ := s
  cases quote <;> rfl

/-- A byte plays the part that a character of its number would, and leads to the same state. -/
theorem feed_byteChar (b : UInt8) : s.nesting.role (byteChar b) = s.role b ∧
    s.nesting.step (byteChar b) = (s.step b).nesting := by
  obtain ⟨depth, quote, escaped⟩ := s
  have hescape := Text.byteChar_eq_iff (b := b) (c := '\\') (by decide)
  cases escaped with
  | true => simp [role, step, feed, nesting, Nesting.step, Nesting.role]
  | false =>
    by_cases hb : b = byte '\\'
    · subst hb
      exact ⟨rfl, rfl⟩
    · cases quote with
      | some q =>
        by_cases hq : b = byte q.char
        · subst hq
          cases q <;> exact ⟨rfl, rfl⟩
        · have hquote := Text.byteChar_eq_iff (b := b) q.toNat_char
          simp [role, step, feed, nesting, Nesting.step, Nesting.role, hescape, hb, hquote, hq]
      | none =>
        cases hq : Quote.ofByte? b with
        | some q =>
          obtain rfl := Quote.ofByte?_eq_some hq
          cases q <;> exact ⟨rfl, rfl⟩
        | none =>
          cases ho : isOpenerByte b <;> cases hc : isCloserByte b <;>
            simp [role, step, feed, nesting, Nesting.step, Nesting.role, hescape, hb, hq,
              isQuote_byteChar, isOpener_byteChar, isCloser_byteChar, ho, hc]

theorem nesting_run (bs : List UInt8) :
    (s.run bs).nesting = s.nesting.run (bs.map byteChar) := by
  induction bs generalizing s with
  | nil => rfl
  | cons b bs ih => rw [run_cons, ih, List.map_cons, Nesting.run_cons, (s.feed_byteChar b).2]

/-- Between characters the scanner is where the reader of characters is. -/
theorem nesting_run_bytes (t : Text) : (s.run (bytes t)).nesting = s.nesting.run t := by
  rw [nesting_run, ← Text.octets_eq_map, Nesting.run_octets s.quoteBelow_nesting]

end Scanner

/-! ## Bytes of longer characters -/

/-- Parts that neither open nor close anything, and escape nothing. -/
def Role.inert : Role → Bool
  | .escaped | .quoted | .plain => true
  | .escape | .quoteOpen | .quoteClose | .opener | .closer => false

namespace Scanner

variable {s : Scanner} {b : UInt8}

theorem ne_byte_of_le {c : Char} (hc : c.toNat < 128) (h : 128 ≤ b.toNat) : b ≠ byte c := by
  rintro rfl
  rw [byte, UInt8.toNat_ofNat', Nat.mod_eq_of_lt (by omega)] at h
  omega

/-- A byte of a longer character opens, closes and escapes nothing. -/
theorem inert_of_le (h : 128 ≤ b.toNat) : (s.role b).inert = true := by
  have hne {c : Char} (hc : c.toNat < 128) : b ≠ byte c := ne_byte_of_le hc h
  obtain ⟨depth, quote, escaped⟩ := s
  cases escaped with
  | true => rfl
  | false =>
    have hescape : b ≠ byte '\\' := hne (by decide)
    cases quote with
    | some q => simp [role, feed, hescape, hne q.toNat_char, Role.inert]
    | none =>
      have hquote : Quote.ofByte? b = none := by
        cases hq : Quote.ofByte? b with
        | none => rfl
        | some q => exact absurd (Quote.ofByte?_eq_some hq) (hne q.toNat_char)
      have hopener : isOpenerByte b = false := by
        simp [isOpenerByte, hne (c := '(') (by decide), hne (c := '\x7b') (by decide),
          hne (c := '[') (by decide)]
      have hcloser : isCloserByte b = false := by
        simp [isCloserByte, hne (c := ')') (by decide), hne (c := '\x7d') (by decide),
          hne (c := ']') (by decide)]
      simp [role, feed, hescape, hquote, hopener, hcloser, Role.inert]

theorem role_of_le {c : Char} (h : 128 ≤ b.toNat) (hc : 128 ≤ c.toNat) :
    s.role b = s.nesting.role c := by
  have hplain {d : Char} (hd : 128 ≤ d.toNat) : s.nesting.role d =
      if s.escaped then .escaped else if s.quote.isSome then .quoted else .plain := by
    obtain ⟨hescape, hquote, hopener, hcloser⟩ := isPlain_iff.1 (Nesting.isPlain_of_le hd)
    obtain ⟨depth, quote, escaped⟩ := s
    cases quote with
    | none => simp [Nesting.role, nesting, hescape, hquote, hopener, hcloser]
    | some q =>
      have hne : d ≠ q.char := by
        intro he
        have hq := q.toNat_char
        rw [← he] at hq
        omega
      simp [Nesting.role, nesting, hescape, hne]
  rw [← (s.feed_byteChar b).1, hplain (by rwa [Text.toNat_byteChar]), hplain hc]

/-- The first byte of a character plays the character's part. -/
theorem role_first {c : Char} {first : UInt8} {trailing : List UInt8}
    (h : String.utf8EncodeChar c = first :: trailing) : s.role first = s.nesting.role c := by
  rcases Nat.lt_or_ge c.toNat 128 with hc | hc
  · rw [Text.utf8EncodeChar_ascii hc, List.cons.injEq] at h
    rw [← h.1, ← (s.feed_byteChar _).1, (Text.byteChar_eq_iff hc).2 rfl]
  · exact role_of_le (Text.le_of_mem_utf8EncodeChar hc (h ▸ List.mem_cons_self)) hc

/-- The other bytes of a character open, close and escape nothing, in whatever state they are
read. -/
theorem inert_of_trailing {c : Char} {first : UInt8} {trailing : List UInt8}
    (h : String.utf8EncodeChar c = first :: trailing) (hb : b ∈ trailing) :
    (s.role b).inert = true := by
  rcases Nat.lt_or_ge c.toNat 128 with hc | hc
  · rw [Text.utf8EncodeChar_ascii hc, List.cons.injEq] at h
    rw [← h.2] at hb
    cases hb
  · exact inert_of_le (Text.le_of_mem_utf8EncodeChar hc (h ▸ List.mem_cons_of_mem _ hb))

end Scanner

end Playbook.Call
