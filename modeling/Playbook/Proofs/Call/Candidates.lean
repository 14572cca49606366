import Playbook.Proofs.Call.Octets

/-!
# The calls of a text

A candidate is a place of a text where a call stands: an accepted identifier at a word start,
`(`, a body and `)`. Places are bytes. Candidates may lie inside one another; `Leftmost` takes
the first one at or behind a cursor and goes on behind it.

Results:
* `atStart?_eq_some_iff`: what is found at the very start of a text.
* `candidate_octets_iff`: a candidate among the bytes is a piece of the text.
* `piecesFrom_induction`: induction along the pieces of a text.
* `scan_leftmost`: scanning reports exactly the leftmost candidates, one after the other.
-/
namespace Playbook.Call

open Text (octets byteSize)

/-- Bytes `start` to `close` of `b` are a call of `name`. -/
structure Candidate (names : Names) (b : Text) (start close : Nat) (name : Text) : Prop where
  begins : ∃ c, b[start]? = some c ∧ isIdentifierStart c = true
  boundary : ∀ i c, i + 1 = start → b[i]? = some c → isIdentifierChar c = false
  run : (b.drop start).takeWhile isIdentifierChar = name
  accepted : names.accepts name = true
  opened : b[start + name.length]? = some '('
  after : start + name.length < close
  body : Body ((b.take close).drop (start + name.length + 1))
  closed : b[close]? = some ')'

/-- From `cursor` on, the calls are taken in this way: the candidate that starts first, up to
the byte behind its `)`, and so on from there. -/
inductive Leftmost (names : Names) (b : Text) : (cursor : Nat) → List (Nat × Nat × Text) → Prop
  | done {cursor : Nat} :
      (∀ start close name, cursor ≤ start → ¬ Candidate names b start close name) →
      Leftmost names b cursor []
  | next {cursor start close : Nat} {name : Text} {rest : List (Nat × Nat × Text)} :
      cursor ≤ start → Candidate names b start close name →
      (∀ i c n, cursor ≤ i → i < start → ¬ Candidate names b i c n) →
      Leftmost names b (close + 1) rest →
      Leftmost names b cursor ((start, close + 1, name) :: rest)

/-! ## The parts of a call -/

/-- What a call consists of, around its parentheses. -/
structure Parts (names : Names) (name inner : Text) : Prop where
  start : name.head?.any isIdentifierStart = true
  word : ∀ c ∈ name, isIdentifierChar c = true
  accepted : names.accepts name = true
  body : Body inner

theorem takeWhile_word {name rest : Text} (h : ∀ c ∈ name, isIdentifierChar c = true) :
    (name ++ '(' :: rest).takeWhile isIdentifierChar = name := by
  rw [List.takeWhile_append_of_pos h, List.takeWhile_cons_of_neg (by decide), List.append_nil]

theorem dropWhile_word {name rest : Text} (h : ∀ c ∈ name, isIdentifierChar c = true) :
    (name ++ '(' :: rest).dropWhile isIdentifierChar = '(' :: rest := by
  rw [List.dropWhile_append_of_pos h, List.dropWhile_cons_of_neg (by decide)]

theorem Parts.ne_nil {names : Names} {name inner : Text} (h : Parts names name inner) :
    name ≠ [] := by
  intro hnil
  have hstart := h.start
  rw [hnil] at hstart
  exact absurd hstart (by decide)

theorem head?_append_of_parts {names : Names} {name inner rest : Text}
    (h : Parts names name inner) : (name ++ rest).head? = name.head? := by
  cases name with
  | nil => exact absurd rfl h.ne_nil
  | cons c name => rfl

theorem head?_takeWhile {t : Text} (h : t.head?.any isIdentifierStart = true) :
    (t.takeWhile isIdentifierChar).head?.any isIdentifierStart = true := by
  cases t with
  | nil => cases h
  | cons c t =>
    rw [List.head?_cons, Option.any_some] at h
    rw [List.takeWhile_cons_of_pos (isIdentifierChar_of_start h)]
    exact h

theorem atStart?_of_parts {names : Names} {name inner : Text} (hp : Parts names name inner)
    (rest : Text) : atStart? names (name ++ '(' :: (inner ++ ')' :: rest)) =
      some (name ++ '(' :: (inner ++ [')']), ⟨name, Arguments.parse inner⟩) := by
  have hclose : breakClose (.inside 1) (inner ++ ')' :: rest) = some (inner, rest) :=
    breakClose_body hp.body rest
  unfold atStart?
  rw [head?_append_of_parts hp, if_pos hp.start, takeWhile_word hp.word,
    dropWhile_word hp.word]
  simp only [hp.accepted, if_true, hclose]
  simp

/-- What is found at the very start of a text. -/
theorem atStart?_eq_some_iff {names : Names} {t source : Text} {call : Call} :
    atStart? names t = some (source, call) ↔
      ∃ name inner rest, Parts names name inner ∧ t = name ++ '(' :: (inner ++ ')' :: rest) ∧
        source = name ++ '(' :: (inner ++ [')']) ∧ call = ⟨name, Arguments.parse inner⟩ := by
  constructor
  · intro h
    have hsplit := List.takeWhile_append_dropWhile (p := isIdentifierChar) (l := t)
    have hword := List.all_takeWhile (p := isIdentifierChar) (l := t)
    simp only [atStart?] at h
    split at h
    · rename_i hs
      split at h
      · rename_i rest hd
        split at h
        · rename_i ha
          split at h
          · rename_i inner r hb
            cases h
            obtain ⟨hbody, hrest⟩ := breakClose_eq_some_iff.1 hb
            have hp : Parts names (t.takeWhile isIdentifierChar) inner :=
              ⟨head?_takeWhile hs, List.all_eq_true.1 hword, ha, hbody⟩
            rw [hd, hrest] at hsplit
            exact ⟨_, inner, r, hp, hsplit.symm, by simp, rfl⟩
          · cases h
        · cases h
      · cases h
    · cases h
  · intro h
    obtain ⟨name, inner, rest, hp, ht, hsource, hcall⟩ := h
    rw [ht, hsource, hcall]
    exact atStart?_of_parts hp rest

/-! ## Candidates as pieces of the text -/

theorem drop_eq_cons {b : Text} {i : Nat} {c : Char} (h : b[i]? = some c) :
    b.drop i = c :: b.drop (i + 1) := by
  obtain ⟨hi, rfl⟩ := List.getElem?_eq_some_iff.1 h
  exact List.drop_eq_getElem_cons hi

section
variable {names : Names} {b name : Text} {start close : Nat}

theorem Candidate.head?_name (h : Candidate names b start close name) :
    name.head?.any isIdentifierStart = true := by
  obtain ⟨c, hc, hs⟩ := h.begins
  rw [← h.run]
  refine head?_takeWhile ?_
  rw [drop_eq_cons hc]
  exact hs

theorem Candidate.getLast?_take (h : Candidate names b start close name) :
    (b.take start).getLast?.any isIdentifierChar = false := by
  cases start with
  | zero => rfl
  | succ i =>
    obtain ⟨c, hc, -⟩ := h.begins
    have hi : i < b.length := by
      have := (List.getElem?_eq_some_iff.1 hc).1
      omega
    have hb := h.boundary i b[i] rfl (List.getElem?_eq_getElem hi)
    rw [List.getLast?_take, if_neg (by omega), Nat.add_sub_cancel, List.getElem?_eq_getElem hi]
    simpa using hb

/-- From its start on, the text is the name, `(`, the body, `)` and a rest. -/
theorem Candidate.drop_start (h : Candidate names b start close name) :
    b.drop start = name ++ '(' ::
      ((b.take close).drop (start + name.length + 1) ++ ')' :: b.drop (close + 1)) := by
  have hsplit := List.takeWhile_append_dropWhile (p := isIdentifierChar) (l := b.drop start)
  rw [h.run] at hsplit
  have hname : (b.drop start).dropWhile isIdentifierChar = b.drop (start + name.length) := by
    have := congrArg (List.drop name.length) hsplit
    rw [List.drop_left, List.drop_drop] at this
    exact this
  have hlen := (List.getElem?_eq_some_iff.1 h.closed).1
  have hle : start + name.length + 1 ≤ (b.take close).length := by
    have := h.after
    rw [List.length_take]
    omega
  rw [hname, drop_eq_cons h.opened] at hsplit
  rw [← drop_eq_cons h.closed, ← List.drop_append_of_le_length hle, List.take_append_drop]
  exact hsplit.symm

theorem Candidate.parts (h : Candidate names b start close name) :
    Parts names name ((b.take close).drop (start + name.length + 1)) := by
  refine ⟨h.head?_name, ?_, h.accepted, h.body⟩
  have hword := List.all_takeWhile (p := isIdentifierChar) (l := b.drop start)
  rw [h.run] at hword
  exact List.all_eq_true.1 hword

theorem candidate_of_parts {pre inner rest : Text} (hp : Parts names name inner)
    (hl : pre.getLast?.any isIdentifierChar = false) :
    Candidate names (pre ++ (name ++ '(' :: (inner ++ ')' :: rest))) pre.length
      (pre.length + name.length + 1 + inner.length) name := by
  have hassoc : pre ++ (name ++ '(' :: (inner ++ ')' :: rest)) =
      (pre ++ (name ++ '(' :: inner)) ++ ')' :: rest := by simp
  have hlen : (pre ++ (name ++ '(' :: inner)).length =
      pre.length + name.length + 1 + inner.length := by
    simp
    omega
  refine ⟨?_, ?_, ?_, hp.accepted, ?_, by omega, ?_, ?_⟩
  · obtain ⟨c, name, rfl⟩ := List.exists_cons_of_ne_nil hp.ne_nil
    exact ⟨c, by simp, by simpa using hp.start⟩
  · intro i c hi hc
    rcases List.eq_nil_or_concat pre with rfl | ⟨u, x, rfl⟩
    · simp at hi
    · simp only [List.concat_eq_append, List.length_append, List.length_singleton,
        Nat.add_right_cancel_iff, List.getLast?_concat, Option.any_some] at hi hl
      subst hi
      simp at hc
      subst hc
      exact hl
  · rw [List.drop_left, takeWhile_word hp.word]
  · simp
  · rw [hassoc, List.take_left' hlen, show pre ++ (name ++ '(' :: inner) =
      (pre ++ (name ++ ['('])) ++ inner by simp, List.drop_left' (by simp; omega)]
    exact hp.body
  · rw [hassoc, ← hlen, List.getElem?_append_right (Nat.le_refl _), Nat.sub_self]
    rfl

theorem candidate_iff : Candidate names b start close name ↔
    ∃ pre inner rest, Parts names name inner ∧ pre.getLast?.any isIdentifierChar = false ∧
      b = pre ++ (name ++ '(' :: (inner ++ ')' :: rest)) ∧ pre.length = start ∧
      close = start + name.length + 1 + inner.length := by
  constructor
  · intro h
    have hlen := (List.getElem?_eq_some_iff.1 h.closed).1
    have hlt := h.after
    refine ⟨b.take start, _, b.drop (close + 1), h.parts, h.getLast?_take, ?_, ?_, ?_⟩
    · rw [← h.drop_start, List.take_append_drop]
    · rw [List.length_take]
      omega
    · rw [List.length_drop, List.length_take]
      omega
  · intro h
    obtain ⟨pre, inner, rest, hp, hl, hb, hs, hc⟩ := h
    subst hb hs hc
    exact candidate_of_parts hp hl

end

/-- Behind one start there is one end: the reader of nested text finds it. -/
theorem Candidate.unique {names : Names} {b n₁ n₂ : Text} {start c₁ c₂ : Nat}
    (h₁ : Candidate names b start c₁ n₁) (h₂ : Candidate names b start c₂ n₂) :
    c₁ = c₂ ∧ n₁ = n₂ := by
  obtain ⟨p₁, i₁, r₁, hp₁, -, rfl, rfl, rfl⟩ := candidate_iff.1 h₁
  obtain ⟨p₂, i₂, r₂, hp₂, -, hb, hl, rfl⟩ := candidate_iff.1 h₂
  obtain ⟨rfl, ht⟩ := List.append_inj hb hl.symm
  have hn := congrArg (List.takeWhile isIdentifierChar) ht
  rw [takeWhile_word hp₁.word, takeWhile_word hp₂.word] at hn
  subst hn
  have hi := (List.cons_inj_right _).1 (List.append_cancel_left ht)
  have hc := breakClose_body hp₁.body r₁
  rw [hi, breakClose_body hp₂.body r₂] at hc
  cases hc
  exact ⟨rfl, rfl⟩

/-- A candidate among the bytes of a text is a piece of the text. -/
theorem candidate_octets_iff {names : Names} {t name : Text} {start close : Nat} :
    Candidate names (octets t) start close name ↔
      ∃ pre inner rest, Parts names name inner ∧ pre.getLast?.any isIdentifierChar = false ∧
        t = pre ++ (name ++ '(' :: (inner ++ ')' :: rest)) ∧ byteSize pre = start ∧
        close = start + name.length + 1 + byteSize inner := by
  have hlow := fun c => fun h => (toNat_of_isIdentifierChar (c := c) h).2
  rw [candidate_iff]
  constructor
  · intro h
    obtain ⟨pre, inner, rest, hp, hl, hb, hs, hc⟩ := h
    subst hs hc
    -- `(`, `)` and the first byte of the name are characters of the text
    rw [← List.append_assoc] at hb
    obtain ⟨t₁, t₂, rfl, h₁, h₂⟩ := Text.octets_eq_append_cons (by decide) hb
    obtain ⟨inner', rest', rfl, rfl, rfl⟩ := Text.octets_eq_append_cons (by decide) h₂
    obtain ⟨c, name, rfl⟩ := List.exists_cons_of_ne_nil hp.ne_nil
    obtain ⟨pre', u, rfl, rfl, hu⟩ :=
      Text.octets_eq_append_cons (hlow c (hp.word c (by simp))) h₁
    obtain rfl := Text.eq_of_octets_eq hlow hu fun d hd => hp.word d (by simp [hd])
    rw [Text.getLast?_octets hlow] at hl
    refine ⟨pre', inner', rest', ⟨hp.start, hp.word, hp.accepted, body_octets_iff.1 hp.body⟩, hl,
      by simp, by simp, by simp⟩
  · intro h
    obtain ⟨pre, inner, rest, hp, hl, ht, hs, hc⟩ := h
    subst ht hs hc
    refine ⟨octets pre, octets inner, octets rest,
      ⟨hp.start, hp.word, hp.accepted, body_octets_iff.2 hp.body⟩, ?_, ?_, by simp, by simp⟩
    · rw [Text.getLast?_octets hlow]
      exact hl
    · simp [Text.octets_of_all hlow hp.word, Text.octetsOf_ascii]

/-! ## Scanning -/

theorem Leftmost.unique {names : Names} {b : Text} {cursor : Nat}
    {xs ys : List (Nat × Nat × Text)} (hx : Leftmost names b cursor xs)
    (hy : Leftmost names b cursor ys) : xs = ys := by
  induction hx generalizing ys with
  | done hno =>
    cases hy with
    | done _ => rfl
    | next hle hc _ _ => exact absurd hc (hno _ _ _ hle)
  | @next cursor s₁ c₁ n₁ rest hle hc hno _ ih =>
    cases hy with
    | done hno' => exact absurd hc (hno' _ _ _ hle)
    | @next _ s₂ c₂ n₂ rest' hle' hc' hno' hrest =>
      have hs : s₁ = s₂ := by
        rcases Nat.lt_trichotomy s₁ s₂ with h | h | h
        · exact absurd hc (hno' _ _ _ hle h)
        · exact h
        · exact absurd hc' (hno _ _ _ hle' h)
      subst hs
      obtain ⟨rfl, rfl⟩ := hc.unique hc'
      rw [ih hrest]

theorem Leftmost.of_later {names : Names} {b : Text} {cursor cursor' : Nat}
    {xs : List (Nat × Nat × Text)} (h : Leftmost names b cursor' xs) (hle : cursor ≤ cursor')
    (hno : ∀ i c n, cursor ≤ i → i < cursor' → ¬ Candidate names b i c n) :
    Leftmost names b cursor xs := by
  have hskip (i c : Nat) (n : Text) (hi : cursor ≤ i) (hc : Candidate names b i c n) :
      cursor' ≤ i := by
    rcases Nat.lt_or_ge i cursor' with h | h
    · exact absurd hc (hno i c n hi h)
    · exact h
  cases h with
  | done hd => exact .done fun i c n hi hc => hd i c n (hskip i c n hi hc) hc
  | next hs hc hn hrest =>
    refine .next (Nat.le_trans hle hs) hc ?_ hrest
    intro i c n hi hlt hcand
    exact hn i c n (hskip i c n hi hcand) hlt hcand

/-! ### Pieces -/

/-- Where the pieces are cut does not depend on how the skipped characters were read. -/
theorem piecesFrom_skip (names : Names) (inWord : Bool) (s t : Text) :
    piecesFrom names inWord s.length (s ++ t) =
      piecesFrom names (s.foldl (fun _ c => isIdentifierChar c) inWord) 0 t := by
  induction s generalizing inWord with
  | nil => rfl
  | cons c s ih => rw [List.length_cons, List.cons_append, piecesFrom, ih, List.foldl_cons]

/-- A call that stands at a word start is a piece. -/
theorem piecesFrom_parts {names : Names} {name inner : Text} (hp : Parts names name inner)
    (rest : Text) : piecesFrom names false 0 (name ++ '(' :: (inner ++ ')' :: rest)) =
      .call (name ++ '(' :: (inner ++ [')'])) ⟨name, Arguments.parse inner⟩ ::
        piecesFrom names false 0 rest := by
  obtain ⟨c, name, rfl⟩ := List.exists_cons_of_ne_nil hp.ne_nil
  have hstart := atStart?_of_parts hp rest
  have hskip := piecesFrom_skip names (isIdentifierChar c) (name ++ '(' :: (inner ++ [')'])) rest
  rw [List.foldl_append, List.foldl_cons, List.foldl_append, List.foldl_cons, List.foldl_nil,
    show (name ++ '(' :: (inner ++ [')'])) ++ rest = name ++ '(' :: (inner ++ ')' :: rest) by simp]
    at hskip
  rw [List.cons_append] at hstart ⊢
  rw [piecesFrom, if_neg (by decide), hstart]
  simp only [List.cons_append, List.length_cons, Nat.add_sub_cancel, hskip]
  rfl

theorem piecesFrom_char {names : Names} {inWord : Bool} {c : Char} {t : Text}
    (h : ∀ name inner rest, inWord = false → Parts names name inner →
      c :: t ≠ name ++ '(' :: (inner ++ ')' :: rest)) :
    piecesFrom names inWord 0 (c :: t) = .char c :: piecesFrom names (isIdentifierChar c) 0 t := by
  rw [piecesFrom]
  split
  · rename_i source call ha
    split at ha
    · cases ha
    · rename_i hw
      obtain ⟨name, inner, rest, hp, ht, -, -⟩ := atStart?_eq_some_iff.1 ha
      exact absurd ht (h name inner rest (by simpa using hw) hp)
  · rfl

/-- Where pieces are cut: at a call at a word start, or at any other character. -/
theorem piecesFrom_induction (names : Names) {motive : Bool → Text → Prop}
    (nil : ∀ inWord, motive inWord [])
    (call : ∀ name inner rest, Parts names name inner → motive false rest →
      motive false (name ++ '(' :: (inner ++ ')' :: rest)))
    (char : ∀ inWord c t, piecesFrom names inWord 0 (c :: t) =
      .char c :: piecesFrom names (isIdentifierChar c) 0 t →
      motive (isIdentifierChar c) t → motive inWord (c :: t)) (inWord : Bool) (t : Text) :
    motive inWord t := by
  induction hn : t.length using Nat.strongRecOn generalizing inWord t with
  | ind n ih =>
    cases t with
    | nil => exact nil inWord
    | cons c t =>
      rcases Classical.em (∃ name inner rest, inWord = false ∧ Parts names name inner ∧
        c :: t = name ++ '(' :: (inner ++ ')' :: rest)) with hcall | hno
      · obtain ⟨name, inner, rest, rfl, hp, ht⟩ := hcall
        rw [ht, List.length_append, List.length_cons, List.length_append, List.length_cons] at hn
        rw [ht]
        exact call name inner rest hp (ih rest.length (by omega) false rest rfl)
      · rw [List.length_cons] at hn
        refine char inWord c t (piecesFrom_char fun name inner rest hw hp ht => ?_)
          (ih t.length (by omega) _ t rfl)
        exact hno ⟨name, inner, rest, hw, hp, ht⟩

/-! ### The reported spans -/

theorem eq_of_byteSize_le {p q t u : Text} {c : Char} (h : p ++ c :: t = q ++ u)
    (hle : byteSize p ≤ byteSize q) (hlt : byteSize q < byteSize p + c.utf8Size) : p = q := by
  have hnil {v : Text} (hv : byteSize v = 0) : v = [] := by
    cases v with
    | nil => rfl
    | cons d v =>
      have := d.utf8Size_pos
      rw [byteSize] at hv
      omega
  rcases List.append_eq_append_iff.1 h with ⟨v, rfl, hv⟩ | ⟨v, rfl, hv⟩
  · cases v with
    | nil => simp
    | cons d v =>
      rw [List.cons_append, List.cons.injEq] at hv
      obtain ⟨rfl, -⟩ := hv
      rw [Text.byteSize_append, byteSize] at hlt
      omega
  · rw [Text.byteSize_append] at hle
    rw [hnil (v := v) (by omega), List.append_nil]

theorem byteSize_word {name : Text} (h : ∀ c ∈ name, isIdentifierChar c = true) :
    byteSize name = name.length := by
  rw [← Text.length_octets, Text.octets_of_all (fun _ h => (toNat_of_isIdentifierChar h).2) h]

def Occurrence.span (o : Occurrence) : Nat × Nat × Text := (o.start, o.stop, o.call.name)

theorem byteSize_call {names : Names} {name inner : Text} (hp : Parts names name inner) :
    byteSize (name ++ '(' :: (inner ++ [')'])) = name.length + 1 + byteSize inner + 1 := by
  have h₁ : '('.utf8Size = 1 := rfl
  have h₂ : ')'.utf8Size = 1 := rfl
  simp only [Text.byteSize_append, byteSize, byteSize_word hp.word, h₁, h₂]
  omega

/-- What the scan reports from `t` on, behind the characters `pre`. -/
def spansFrom (names : Names) (pre t : Text) : List (Nat × Nat × Text) :=
  (occurrences (byteSize pre)
    (piecesFrom names (pre.getLast?.any isIdentifierChar) 0 t)).map Occurrence.span

/-- `t` starts with a call, at a word start behind `pre`. -/
def CallAt (names : Names) (pre t : Text) : Prop :=
  pre.getLast?.any isIdentifierChar = false ∧ ∃ name inner rest,
    Parts names name inner ∧ t = name ++ '(' :: (inner ++ ')' :: rest)

/-- Behind a call no word goes on. -/
theorem last_source (pre name inner : Text) :
    (pre ++ (name ++ '(' :: (inner ++ [')']))).getLast?.any isIdentifierChar = false := by
  rw [← List.cons_append, ← List.append_assoc, ← List.append_assoc, List.getLast?_concat]
  rfl

/-- A call is the next candidate, and the scan goes on behind it. -/
theorem leftmost_call {names : Names} {pre name inner rest : Text} (hp : Parts names name inner)
    (hw : pre.getLast?.any isIdentifierChar = false)
    (h : Leftmost names (octets (pre ++ (name ++ '(' :: (inner ++ [')'])) ++ rest))
      (byteSize (pre ++ (name ++ '(' :: (inner ++ [')']))))
      (spansFrom names (pre ++ (name ++ '(' :: (inner ++ [')']))) rest)) :
    Leftmost names (octets (pre ++ (name ++ '(' :: (inner ++ ')' :: rest)))) (byteSize pre)
      (spansFrom names pre (name ++ '(' :: (inner ++ ')' :: rest))) := by
  have hsize := byteSize_call hp
  have hclose : byteSize pre + (name.length + 1 + byteSize inner + 1) =
      byteSize pre + name.length + 1 + byteSize inner + 1 := by omega
  have hc := candidate_octets_iff.2 ⟨pre, inner, rest, hp, hw, rfl, rfl, rfl⟩
  have htext : pre ++ (name ++ '(' :: (inner ++ [')'])) ++ rest =
      pre ++ (name ++ '(' :: (inner ++ ')' :: rest)) := by simp
  unfold spansFrom at *
  rw [htext, Text.byteSize_append, hsize, last_source, hclose] at h
  rw [hw, piecesFrom_parts hp, occurrences, hsize, List.map_cons, hclose]
  exact .next (Nat.le_refl _) hc (fun _ _ _ hle hlt _ => Nat.not_lt.2 hle hlt) h

theorem leftmost_char {names : Names} {pre t : Text} {c : Char}
    (hno : ¬ CallAt names pre (c :: t))
    (h : Leftmost names (octets (pre ++ [c] ++ t)) (byteSize (pre ++ [c]))
      (spansFrom names (pre ++ [c]) t)) :
    Leftmost names (octets (pre ++ c :: t)) (byteSize pre) (spansFrom names pre (c :: t)) := by
  have hcons : byteSize (pre ++ [c]) = byteSize pre + c.utf8Size := by simp [byteSize]
  unfold spansFrom at *
  rw [List.append_assoc, List.singleton_append, hcons, List.getLast?_concat,
    Option.any_some] at h
  rw [piecesFrom_char fun name inner rest hw hp ht => hno ⟨hw, name, inner, rest, hp, ht⟩]
  refine h.of_later (by omega) ?_
  intro i close name hle hlt hc
  obtain ⟨pre', inner, rest, hp, hl, ht, rfl, -⟩ := candidate_octets_iff.1 hc
  obtain rfl := eq_of_byteSize_le ht hle hlt
  exact hno ⟨hl, name, inner, rest, hp, List.append_cancel_left ht⟩

theorem leftmost_end (names : Names) (pre : Text) :
    Leftmost names (octets (pre ++ [])) (byteSize pre) (spansFrom names pre []) := by
  refine .done fun i c n hi hc => ?_
  obtain ⟨pre', inner, rest, -, -, ht, rfl, -⟩ := candidate_octets_iff.1 hc
  have hsize := congrArg byteSize ht
  simp [byteSize, Char.utf8Size] at hsize
  omega

/-- Wherever the scan stands, it goes on to take the leftmost candidates. The invariant: the
cursor is behind the characters read, and the scan knows whether they end in a word. -/
theorem leftmost_spansFrom (names : Names) (pre t : Text) :
    Leftmost names (octets (pre ++ t)) (byteSize pre) (spansFrom names pre t) := by
  induction hn : t.length using Nat.strongRecOn generalizing pre t with
  | ind n ih =>
    by_cases hcall : CallAt names pre t
    · obtain ⟨hw, name, inner, rest, hp, ht⟩ := hcall
      subst ht
      simp only [List.length_append, List.length_cons] at hn
      exact leftmost_call hp hw (ih rest.length (by omega) _ rest rfl)
    · cases t with
      | nil => exact leftmost_end names pre
      | cons c t =>
        rw [List.length_cons] at hn
        exact leftmost_char hcall (ih t.length (by omega) _ t rfl)

/-- Scanning reports exactly the leftmost candidates, one after the other. -/
theorem scan_leftmost (names : Names) (t : Text) :
    (∀ start c₁ c₂ n₁ n₂, Candidate names (octets t) start c₁ n₁ →
      Candidate names (octets t) start c₂ n₂ → c₁ = c₂ ∧ n₁ = n₂) ∧
    ∀ spans, Leftmost names (octets t) 0 spans ↔ spans = (scan names t).map Occurrence.span := by
  have hscan : Leftmost names (octets t) 0 ((scan names t).map Occurrence.span) :=
    leftmost_spansFrom names [] t
  refine ⟨fun _ _ _ _ _ h₁ h₂ => h₁.unique h₂, fun spans => ⟨fun h => h.unique hscan, ?_⟩⟩
  intro h
  rw [h]
  exact hscan

end Playbook.Call
