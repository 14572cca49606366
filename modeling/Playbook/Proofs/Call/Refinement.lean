import Playbook.Proofs.Call.Offsets
import Playbook.Proofs.Call.Printing

/-!
# Calls found by their bytes

The scan runs over bytes: it looks for the byte that starts a word, passes the bytes of the word,
and takes what stands between the parentheses by its offsets. Every byte it stops at is a character,
so it goes from one boundary of the text to another and finds the calls of the text.

Results:
* `scanFrom_call`, `scanFrom_word`, `scanFrom_char`: what one turn of the scan passes.
* `scan?_eq`: every cut of the scan can be made, and it reports the calls of the text.
* `scanner_refines`: the machine, and all that is built on it, for every text.
-/
namespace Playbook.Call

open Text (bytes byte byteChar byteSize slice?)

/-! ## Words -/

theorem piecesFrom_inWord {names : Names} {name : Text} (h : ∀ c ∈ name, isIdentifierChar c = true)
    (rest : Text) : piecesFrom names true 0 (name ++ rest) =
      name.map .char ++ piecesFrom names true 0 rest := by
  induction name with
  | nil => rfl
  | cons c name ih =>
    rw [List.forall_mem_cons] at h
    rw [List.cons_append, piecesFrom_char (fun _ _ _ hw _ => absurd hw (by decide)), h.1, ih h.2]
    rfl

/-- A word that no call starts with is cut into its characters. -/
theorem piecesFrom_word {names : Names} {pre name tail : Text} (hne : name ≠ [])
    (h : ∀ c ∈ name, isIdentifierChar c = true) (hno : ¬ CallAt names pre (name ++ tail)) :
    piecesFrom names (pre.getLast?.any isIdentifierChar) 0 (name ++ tail) =
      name.map .char ++ piecesFrom names true 0 tail := by
  obtain ⟨c, name, rfl⟩ := List.exists_cons_of_ne_nil hne
  rw [List.forall_mem_cons] at h
  rw [List.cons_append] at hno ⊢
  have hchar := @piecesFrom_char names _ c (name ++ tail) fun _ _ _ hw hp ht =>
    hno ⟨hw, _, _, _, hp, ht⟩
  rw [hchar, h.1, piecesFrom_inWord h.2]
  rfl

namespace Scanner


theorem any_head?_bytes {p : Char → Bool} (hp : ∀ c, p c = true → c.toNat < 128) (t : Text) :
    (bytes t).head?.any (fun b => p (byteChar b)) = t.head?.any p := by
  cases t with
  | nil => rfl
  | cons c t =>
    rcases Nat.lt_or_ge c.toNat 128 with hc | hc
    · rw [bytes_cons_ascii hc, List.head?_cons, Option.any_some,
        (Text.byteChar_eq_iff hc).2 rfl]
      rfl
    · obtain ⟨b, bs, hb⟩ := Text.exists_utf8EncodeChar c
      have hle := Text.le_of_mem_utf8EncodeChar hc (hb ▸ List.mem_cons_self)
      rw [← Text.toNat_byteChar] at hle
      rw [Text.bytes_cons, hb, List.cons_append, List.head?_cons, Option.any_some,
        List.head?_cons, Option.any_some, Text.eq_false_of_le hp hle, Text.eq_false_of_le hp hc]

theorem any_getLast?_bytes {p : Char → Bool} (hp : ∀ c, p c = true → c.toNat < 128) (t : Text) :
    (bytes t).getLast?.any (fun b => p (byteChar b)) = t.getLast?.any p := by
  rw [← Text.getLast?_octets hp, Text.octets_eq_map, List.getLast?_map, Option.any_map]

theorem length_takeWhile_bytes {p : Char → Bool} (hp : ∀ c, p c = true → c.toNat < 128)
    (t : Text) : ((bytes t).takeWhile fun b => p (byteChar b)).length =
      byteSize (t.takeWhile p) := by
  induction t with
  | nil => rfl
  | cons c t ih =>
    rcases Nat.lt_or_ge c.toNat 128 with hc | hc
    · rw [bytes_cons_ascii hc, List.takeWhile_cons, (Text.byteChar_eq_iff hc).2 rfl,
        List.takeWhile_cons]
      split
      · rw [List.length_cons, ih, byteSize, utf8Size_ascii hc, Nat.add_comm]
      · rfl
    · obtain ⟨b, bs, hb⟩ := Text.exists_utf8EncodeChar c
      have hle := Text.le_of_mem_utf8EncodeChar hc (hb ▸ List.mem_cons_self)
      rw [← Text.toNat_byteChar] at hle
      rw [Text.bytes_cons, hb, List.cons_append, List.takeWhile_cons, List.takeWhile_cons,
        Text.eq_false_of_le hp hle, Text.eq_false_of_le hp hc]
      rfl

/-! ## The scan -/

/-- Whether an identifier starts at an offset. -/
def startsAt (bs : List UInt8) (i : Nat) : Bool :=
  !(bs.take i).getLast?.any (fun b => isIdentifierChar (byteChar b)) &&
    (bs.drop i).head?.any fun b => isIdentifierStart (byteChar b)

/-- The offset behind the identifier bytes from byte `i` on. -/
def wordEnd (bs : List UInt8) (i : Nat) : Nat :=
  i + ((bs.drop i).takeWhile fun b => isIdentifierChar (byteChar b)).length

theorem le_of_closing {s : Scanner} {i close : Nat} {bs : List UInt8}
    (h : closing s i bs = some close) : i ≤ close := by
  induction bs generalizing s i with
  | nil => cases h
  | cons b bs ih =>
    rw [closing] at h
    split at h
    · split at h
      · cases h
        exact Nat.le_refl _
      · cases h
    · exact Nat.le_of_succ_le (ih h)

theorem le_of_closing? {start close : Nat} {bs : List UInt8}
    (h : closing? start bs = some (some close)) : start ≤ close := by
  obtain ⟨rest, -, hclose⟩ := Option.map_eq_some_iff.1 h
  exact le_of_closing hclose

theorem lt_wordEnd {bs : List UInt8} {i : Nat} (h : startsAt bs i = true) : i < wordEnd bs i := by
  obtain ⟨-, hstart⟩ := Bool.and_eq_true_iff.1 h
  unfold wordEnd
  cases hdrop : bs.drop i with
  | nil =>
    rw [hdrop] at hstart
    cases hstart
  | cons b rest =>
    rw [hdrop, List.head?_cons, Option.any_some] at hstart
    have hchar := isIdentifierChar_of_start hstart
    simp [hchar]

/-- The calls that start at or behind byte `i`. Behind a candidate that is no call the scan goes on
at the end of its name. -/
def scanFrom (names : Names) (t : Text) (i : Nat) : Option (List Occurrence) :=
  if hi : i < byteSize t then
    if hs : startsAt (bytes t) i = true then
      have : i < wordEnd (bytes t) i := lt_wordEnd hs
      (slice? i (wordEnd (bytes t) i) t).bind fun name =>
        if (bytes t)[wordEnd (bytes t) i]? = some (byte '(') ∧ names.accepts name then
          match hc : closing? (wordEnd (bytes t) i + 1) (bytes t) with
          | none => none
          | some none => scanFrom names t (wordEnd (bytes t) i)
          | some (some close) =>
            have : wordEnd (bytes t) i + 1 ≤ close := le_of_closing? hc
            (slice? (wordEnd (bytes t) i + 1) close t).bind fun inner =>
              (arguments? inner).bind fun arguments =>
                (scanFrom names t (close + 1)).map fun rest =>
                  ⟨i, close + 1, ⟨name, arguments⟩⟩ :: rest
        else scanFrom names t (wordEnd (bytes t) i)
    else scanFrom names t (i + 1)
  else some []
termination_by byteSize t - i

def scan? (names : Names) (t : Text) : Option (List Occurrence) := scanFrom names t 0

variable {names : Names} {t : Text} {i : Nat}

theorem take_bytes (pre rest : Text) :
    (bytes (pre ++ rest)).take (byteSize pre) = bytes pre := by
  rw [Text.bytes_append, List.take_left' (Text.length_bytes pre)]

theorem drop_bytes (pre rest : Text) :
    (bytes (pre ++ rest)).drop (byteSize pre) = bytes rest := by
  rw [Text.bytes_append, List.drop_left' (Text.length_bytes pre)]

theorem startsAt_bytes (pre rest : Text) : startsAt (bytes (pre ++ rest)) (byteSize pre) =
    (!pre.getLast?.any isIdentifierChar && rest.head?.any isIdentifierStart) := by
  have hchar := fun c h => (toNat_of_isIdentifierChar (c := c) h).2
  have hstart := fun c h => hchar c (isIdentifierChar_of_start (c := c) h)
  rw [startsAt, take_bytes, drop_bytes, any_getLast?_bytes hchar, any_head?_bytes hstart]

theorem wordEnd_bytes (pre rest : Text) : wordEnd (bytes (pre ++ rest)) (byteSize pre) =
    byteSize (pre ++ rest.takeWhile isIdentifierChar) := by
  have hchar := fun c h => (toNat_of_isIdentifierChar (c := c) h).2
  rw [wordEnd, drop_bytes, length_takeWhile_bytes hchar, Text.byteSize_append]

theorem getElem?_bytes_eq_iff {mark : Char} (hmark : mark.toNat < 128) (pre rest : Text) :
    (bytes (pre ++ rest))[byteSize pre]? = some (byte mark) ↔ ∃ tail, rest = mark :: tail := by
  have hhead : (bytes (pre ++ rest))[byteSize pre]? = (bytes rest).head? := by
    rw [← drop_bytes pre rest, List.head?_drop]
  rw [hhead]
  cases rest with
  | nil => simp
  | cons c rest =>
    rcases Nat.lt_or_ge c.toNat 128 with hc | hc
    · rw [bytes_cons_ascii hc, List.head?_cons, Option.some_inj]
      constructor
      · intro h
        exact ⟨rest, by rw [byte_injective hc hmark h]⟩
      · intro h
        obtain ⟨tail, htail⟩ := h
        rw [(List.cons.inj htail).1]
    · obtain ⟨b, bs, hb⟩ := Text.exists_utf8EncodeChar c
      have hle := Text.le_of_mem_utf8EncodeChar hc (hb ▸ List.mem_cons_self)
      rw [Text.bytes_cons, hb, List.cons_append, List.head?_cons, Option.some_inj]
      constructor
      · intro h
        exact absurd h (ne_byte_of_le hmark hle)
      · intro h
        obtain ⟨tail, htail⟩ := h
        rw [(List.cons.inj htail).1] at hc
        omega

theorem closing?_bytes (pre rest : Text) : closing? (byteSize pre) (bytes (pre ++ rest)) =
    some ((breakClose (.inside 1) rest).map fun (inner, _) => byteSize (pre ++ inner)) := by
  have hle : byteSize pre ≤ (bytes (pre ++ rest)).length := by
    rw [Text.length_bytes, Text.byteSize_append]
    exact Nat.le_add_right _ _
  rw [closing?, from?, if_pos hle, drop_bytes, Option.map_some, closing_bytes, nesting_nested]
  simp only [Text.byteSize_append]

/-! ### Where no call is found -/

theorem scanFrom_of_start (h : startsAt (bytes t) i = true) (hi : i < byteSize t) :
    scanFrom names t i = (slice? i (wordEnd (bytes t) i) t).bind fun name =>
      if (bytes t)[wordEnd (bytes t) i]? = some (byte '(') ∧ names.accepts name then
        match closing? (wordEnd (bytes t) i + 1) (bytes t) with
        | none => none
        | some none => scanFrom names t (wordEnd (bytes t) i)
        | some (some close) =>
          (slice? (wordEnd (bytes t) i + 1) close t).bind fun inner =>
            (arguments? inner).bind fun arguments =>
              (scanFrom names t (close + 1)).map fun rest =>
                ⟨i, close + 1, ⟨name, arguments⟩⟩ :: rest
      else scanFrom names t (wordEnd (bytes t) i) := by
  rw [scanFrom, dif_pos hi, dif_pos h]
  congr 1
  funext name
  split
  · split <;> rename_i hclose <;> simp only [hclose]
  · rfl

theorem scanFrom_of_not_start (h : startsAt (bytes t) i = false) (hi : i < byteSize t) :
    scanFrom names t i = scanFrom names t (i + 1) := by
  rw [scanFrom, dif_pos hi, dif_neg (by rw [h]; decide)]

/-- The bytes of a longer character are passed one by one. -/
theorem scanFrom_long {front bs back : List UInt8} (ht : bytes t = front ++ bs ++ back)
    (hbs : ∀ b ∈ bs, 128 ≤ b.toNat) :
    scanFrom names t front.length = scanFrom names t (front.length + bs.length) := by
  induction bs generalizing front with
  | nil => rfl
  | cons b bs ih =>
    rw [List.forall_mem_cons] at hbs
    have hlen := congrArg List.length ht
    simp only [Text.length_bytes, List.length_append, List.length_cons] at hlen
    have hnot : startsAt (bytes t) front.length = false := by
      have hb : isIdentifierStart (byteChar b) = false := by
        have hle := hbs.1
        rw [← Text.toNat_byteChar] at hle
        exact Text.eq_false_of_le
          (fun c h => (toNat_of_isIdentifierChar (isIdentifierChar_of_start h)).2) hle
      rw [startsAt, ht, List.append_assoc, List.drop_left, List.cons_append, List.head?_cons,
        Option.any_some, hb, Bool.and_false]
    have hrest := @ih (front ++ [b]) (by rw [ht]; simp) hbs.2
    rw [List.length_append, List.length_singleton] at hrest
    rw [scanFrom_of_not_start hnot (by omega), hrest, List.length_cons, Nat.add_assoc,
      Nat.add_comm 1]

theorem scanFrom_char {pre rest : Text} {c : Char}
    (h : startsAt (bytes (pre ++ c :: rest)) (byteSize pre) = false) :
    scanFrom names (pre ++ c :: rest) (byteSize pre) =
      scanFrom names (pre ++ c :: rest) (byteSize (pre ++ [c])) := by
  have hsize : byteSize (pre ++ [c]) = byteSize pre + c.utf8Size := by simp [byteSize]
  have hpos := c.utf8Size_pos
  rcases Nat.lt_or_ge c.toNat 128 with hc | hc
  · rw [scanFrom_of_not_start h (by rw [Text.byteSize_append, byteSize]; omega), hsize,
      utf8Size_ascii hc]
  · have hbytes : bytes (pre ++ c :: rest) =
        bytes pre ++ String.utf8EncodeChar c ++ bytes rest := by simp
    have hlong := @scanFrom_long names _ _ _ _ hbytes
      (fun b => Text.le_of_mem_utf8EncodeChar hc)
    rw [Text.length_bytes, String.length_utf8EncodeChar] at hlong
    rw [hlong, hsize]

/-! ### Where a call is found -/

theorem getLast?_word {name : Text} (hne : name ≠ []) (h : ∀ c ∈ name, isIdentifierChar c = true)
    (pre : Text) : (pre ++ name).getLast?.any isIdentifierChar = true := by
  rw [List.getLast?_append, List.getLast?_eq_some_getLast hne, Option.some_or, Option.any_some]
  exact h _ (List.getLast_mem hne)

/-- A call is reported with its bytes, and the scan goes on behind it. -/
theorem scanFrom_call {pre name inner : Text} (hp : Parts names name inner)
    (hw : pre.getLast?.any isIdentifierChar = false) (rest : Text) :
    scanFrom names (pre ++ (name ++ '(' :: (inner ++ ')' :: rest))) (byteSize pre) =
      (scanFrom names (pre ++ (name ++ '(' :: (inner ++ ')' :: rest)))
        (byteSize (pre ++ (name ++ '(' :: (inner ++ [')']))))).map
        (⟨byteSize pre, byteSize (pre ++ (name ++ '(' :: (inner ++ [')']))),
          ⟨name, Arguments.parse inner⟩⟩ :: ·) := by
  obtain ⟨t, ht⟩ : ∃ t, t = pre ++ (name ++ '(' :: (inner ++ ')' :: rest)) := ⟨_, rfl⟩
  rw [← ht]
  have hopen : byteSize (pre ++ name ++ ['(']) = byteSize (pre ++ name) + 1 :=
    Text.byteSize_append _ _
  have hstop : byteSize (pre ++ (name ++ '(' :: (inner ++ [')']))) =
      byteSize (pre ++ name ++ ['('] ++ inner) + 1 := by
    rw [show pre ++ (name ++ '(' :: (inner ++ [')'])) = pre ++ name ++ ['('] ++ inner ++ [')'] by
      simp, Text.byteSize_append _ [')']]
    rfl
  have hstart : startsAt (bytes t) (byteSize pre) = true := by
    rw [ht, startsAt_bytes, hw, head?_append_of_parts hp, hp.start]
    rfl
  have hend : wordEnd (bytes t) (byteSize pre) = byteSize (pre ++ name) := by
    rw [ht, wordEnd_bytes, takeWhile_word hp.word]
  have hlt : byteSize pre < byteSize t := by
    have hnext := lt_wordEnd hstart
    rw [hend] at hnext
    rw [ht, ← List.append_assoc, Text.byteSize_append (pre ++ name)]
    omega
  have hname : slice? (byteSize pre) (byteSize (pre ++ name)) t = some name := by
    rw [← List.append_assoc] at ht
    exact Text.slice?_of_eq ht
  have hparen : (bytes t)[byteSize (pre ++ name)]? = some (byte '(') := by
    rw [ht, ← List.append_assoc]
    exact (getElem?_bytes_eq_iff (by decide) _ _).2 ⟨_, rfl⟩
  have hclose : closing? (byteSize (pre ++ name ++ ['('])) (bytes t) =
      some (some (byteSize (pre ++ name ++ ['('] ++ inner))) := by
    have hsplit : t = pre ++ name ++ ['('] ++ (inner ++ ')' :: rest) := by rw [ht]; simp
    rw [hsplit, closing?_bytes, breakClose_body hp.body, Option.map_some]
  have hinner : slice? (byteSize (pre ++ name ++ ['('])) (byteSize (pre ++ name ++ ['('] ++ inner))
      t = some inner := by
    have hback : t = pre ++ name ++ ['('] ++ inner ++ ')' :: rest := by rw [ht]; simp
    exact Text.slice?_of_eq hback
  rw [scanFrom_of_start hstart hlt, hend, hname, Option.bind_some, if_pos ⟨hparen, hp.accepted⟩,
    ← hopen, hclose]
  simp only [hinner, Option.bind_some, arguments?_eq, hstop]

theorem scanFrom_word {pre rest name tail : Text} (hno : ¬ CallAt names pre rest)
    (hstart : startsAt (bytes (pre ++ rest)) (byteSize pre) = true)
    (hn : rest.takeWhile isIdentifierChar = name) (hsplit : name ++ tail = rest) :
    scanFrom names (pre ++ rest) (byteSize pre) =
      scanFrom names (pre ++ rest) (byteSize (pre ++ name)) := by
  have hend := wordEnd_bytes pre rest
  rw [hn] at hend
  have hlt : byteSize pre < byteSize (pre ++ rest) := by
    have hnext := lt_wordEnd hstart
    rw [hend, Text.byteSize_append] at hnext
    rw [← hsplit, Text.byteSize_append, Text.byteSize_append]
    omega
  have hname : slice? (byteSize pre) (byteSize (pre ++ name)) (pre ++ rest) = some name := by
    rw [← hsplit, ← List.append_assoc]
    exact Text.slice?_of_eq rfl
  rw [scanFrom_of_start hstart hlt, hend, hname, Option.bind_some]
  split
  · rename_i hcall
    obtain ⟨hparen, haccepts⟩ := hcall
    have hassoc : pre ++ rest = pre ++ name ++ tail := by rw [← hsplit, List.append_assoc]
    rw [hassoc] at hparen
    obtain ⟨more, hmore⟩ := (getElem?_bytes_eq_iff (by decide) _ _).1 hparen
    have hopen : byteSize (pre ++ name ++ ['(']) = byteSize (pre ++ name) + 1 :=
      Text.byteSize_append _ _
    have hbehind : pre ++ rest = pre ++ name ++ ['('] ++ more := by rw [hassoc, hmore]; simp
    have hclose := closing?_bytes (pre ++ name ++ ['(']) more
    rw [← hbehind] at hclose
    -- a name that is accepted starts a call as soon as its bracket closes
    have hnever : breakClose (.inside 1) more = none := by
      cases hb : breakClose (.inside 1) more with
      | none => rfl
      | some found =>
        obtain ⟨inner, back⟩ := found
        obtain ⟨hbody, hinner⟩ := breakClose_eq_some_iff.1 hb
        rw [startsAt_bytes, Bool.and_eq_true, Bool.not_eq_true'] at hstart
        have hhead : name.head?.any isIdentifierStart = true := hn ▸ head?_takeWhile hstart.2
        have hword : ∀ c ∈ name, isIdentifierChar c = true :=
          hn ▸ List.all_eq_true.1 List.all_takeWhile
        exact absurd ⟨hstart.1, name, inner, back, ⟨hhead, hword, haccepts, hbody⟩,
          by rw [← hsplit, hmore, hinner]⟩ hno
    rw [← hopen, hclose, hnever]
    rfl
  · rfl

/-- The scan of the bytes from a boundary on is the scan of the characters there. -/
theorem scanFrom_eq (names : Names) (pre rest : Text) :
    scanFrom names (pre ++ rest) (byteSize pre) = some (occurrences (byteSize pre)
      (piecesFrom names (pre.getLast?.any isIdentifierChar) 0 rest)) := by
  induction hlen : rest.length using Nat.strongRecOn generalizing pre rest with
  | ind n ih =>
    by_cases hcall : CallAt names pre rest
    · obtain ⟨hw, name, inner, back, hp, ht⟩ := hcall
      subst ht
      have hbehind := ih back.length (by rw [← hlen]; simp; omega)
        (pre ++ (name ++ '(' :: (inner ++ [')']))) back rfl
      have hassoc : pre ++ (name ++ '(' :: (inner ++ [')'])) ++ back =
          pre ++ (name ++ '(' :: (inner ++ ')' :: back)) := by simp
      rw [hassoc, last_source] at hbehind
      rw [scanFrom_call hp hw, hbehind, Option.map_some, hw, piecesFrom_parts hp, occurrences,
        Text.byteSize_append pre]
    · cases hstart : startsAt (bytes (pre ++ rest)) (byteSize pre) with
      | true =>
        obtain ⟨name, hn⟩ : ∃ name, rest.takeWhile isIdentifierChar = name := ⟨_, rfl⟩
        obtain ⟨tail, ht⟩ : ∃ tail, rest.dropWhile isIdentifierChar = tail := ⟨_, rfl⟩
        have hsplit : name ++ tail = rest := by rw [← hn, ← ht, List.takeWhile_append_dropWhile]
        have hword : ∀ c ∈ name, isIdentifierChar c = true :=
          hn ▸ List.all_eq_true.1 List.all_takeWhile
        have hpass := scanFrom_word hcall hstart hn hsplit
        rw [startsAt_bytes, Bool.and_eq_true, Bool.not_eq_true'] at hstart
        have hne : name ≠ [] := by
          intro h
          have hhead := head?_takeWhile hstart.2
          rw [hn, h] at hhead
          cases hhead
        have hbehind := ih tail.length (by
          have hpos := List.length_pos_iff.2 hne
          rw [← hlen, ← hsplit, List.length_append]
          omega) (pre ++ name) tail rfl
        rw [List.append_assoc, hsplit, getLast?_word hne hword] at hbehind
        rw [← hsplit] at hcall
        rw [hpass, hbehind, ← hsplit, piecesFrom_word hne hword hcall, occurrences_plain,
          Text.byteSize_append pre]
      | false =>
        cases rest with
        | nil =>
          rw [List.append_nil, scanFrom, dif_neg (Nat.lt_irrefl _)]
          rfl
        | cons c rest =>
          have hbehind := ih rest.length (by rw [← hlen, List.length_cons]; omega)
            (pre ++ [c]) rest rfl
          rw [List.append_assoc, List.singleton_append, List.getLast?_concat,
            Option.any_some] at hbehind
          have hchar := @piecesFrom_char names _ c rest fun _ _ _ hw hp ht =>
            hcall ⟨hw, _, _, _, hp, ht⟩
          rw [scanFrom_char hstart, hbehind, hchar, occurrences]
          simp [byteSize]

/-- Every cut of the scan can be made, and the scan gives the calls of the text. -/
theorem scan?_eq (names : Names) (t : Text) : scan? names t = some (scan names t) :=
  scanFrom_eq names [] t

/-! ## The refinement -/

/-- From any state, the bytes of every leading part of a text lead where its characters do. The
first byte of each character plays the character's part, and its other bytes open, close and escape
nothing. Every offset that the readers of bytes cut at is therefore a boundary in range: all that
they read can be read, and is what the readers of characters read. -/
theorem scanner_refines (names : Names) (t : Text) :
    (∀ (s : Scanner) (front back : Text), t = front ++ back →
      (s.run (bytes front)).nesting = s.nesting.run front) ∧
    (∀ (s : Scanner) (front : Text) (c : Char) (back : Text), t = front ++ c :: back →
      ∃ first trailing, String.utf8EncodeChar c = first :: trailing ∧
        (s.run (bytes front)).role first = (s.nesting.run front).role c ∧
        ∀ u b v, trailing = u ++ b :: v →
          ((s.run (bytes front ++ first :: u)).role b).inert = true) ∧
    (∀ front back : Text, t = front ++ back → closing? (byteSize front) (bytes t) =
      some ((breakClose (.inside 1) back).map fun (inner, _) => byteSize (front ++ inner))) ∧
    (∀ separator : Char, separator.toNat < 128 →
      split? (byte separator) t = some (splitTop separator .top t)) ∧
    (∀ mark : Char, mark.toNat < 128 →
      find (byte mark) top 0 (bytes t) =
        (breakTop mark .top t).map (fun (before, _) => byteSize before) ∧
      ∀ before rest, breakTop mark .top t = some (before, rest) →
        slice? 0 (byteSize before) t = some before ∧
        slice? (byteSize before + 1) (byteSize t) t = some rest) ∧
    value? t = some (Value.parse t) ∧
    arguments? t = some (Arguments.parse t) ∧
    scan? names t = some (scan names t) := by
  refine ⟨fun s front _ _ => s.nesting_run_bytes front, fun s front c _ _ => ?_,
    fun front back ht => ?_, fun separator hsep => split?_eq hsep t, fun mark hmark => ⟨?_, ?_⟩,
    value?_eq t, arguments?_eq t, scan?_eq names t⟩
  · obtain ⟨first, trailing, hbytes⟩ := Text.exists_utf8EncodeChar c
    refine ⟨first, trailing, hbytes, ?_, fun u b v htrail => ?_⟩
    · rw [role_first hbytes, nesting_run_bytes]
    · exact inert_of_trailing hbytes (by rw [htrail]; simp)
  · rw [ht, closing?_bytes]
  · rw [find_bytes hmark, nesting_top]
    simp only [Nat.zero_add]
  · exact fun before rest h => slices_of_breakTop hmark h

end Scanner
end Playbook.Call
