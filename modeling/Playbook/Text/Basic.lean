/-!
# Texts

A text is the list of its characters. Sizes count characters; offsets count the bytes of the
UTF-8 form, so every offset that these functions give lies between two characters.

Results:
* `utf8ByteSize_ofList`: the byte size of a text is that of its string.
* `after?_eq_some`: a text starts with `lead` exactly if it is `lead` and what follows it.
* `breakOn_eq_some`: what is broken off, the pattern and the remainder make up the text.
* `breakOn_append`: what does not hold the first character of the pattern is broken off.
* `occursIn_append`: a text that contains the pattern is seen to contain it.
* `flatten_fields`: the fields of a text, each but the last closed by the separator, make up
  the text.
* `fields_separator`: a separator anywhere parts the fields.
* `fields_intercalate`: parts without the separator are the fields of the text they make up.
* `flatten_lines`: the lines of a text, with their ends, make up the text.
* `endsLine_lines`: only the last line may lack its line feed.
-/
namespace Playbook

abbrev Text := List Char

instance : Coe String Text := ⟨String.toList⟩

namespace Text

/-- The number of bytes of the UTF-8 form. -/
def byteSize : Text → Nat
  | [] => 0
  | c :: t => c.utf8Size + byteSize t

@[simp] theorem byteSize_append (s t : Text) : byteSize (s ++ t) = byteSize s + byteSize t := by
  induction s with
  | nil => simp [byteSize]
  | cons c s ih => simp [byteSize, ih, Nat.add_assoc]

theorem utf8ByteSize_ofList (t : Text) : (String.ofList t).utf8ByteSize = byteSize t := by
  induction t with
  | nil => rfl
  | cons c t ih =>
    have h : String.ofList (c :: t) = String.singleton c ++ String.ofList t := by
      rw [String.singleton_eq_ofList, ← String.ofList_append]
      rfl
    rw [h, String.utf8ByteSize_append, String.utf8ByteSize_singleton, ih, byteSize]

/-- The decimal digits of a number. -/
def ofNat (n : Nat) : Text := Nat.toDigits 10 n

theorem ofNat_injective {m n : Nat} (h : ofNat m = ofNat n) : m = n := by
  have hvalue := congrArg (fun digits => Nat.ofDigitChars 10 digits 0) h
  simpa only [ofNat, Nat.ofDigitChars_toDigits (b := 10) (by decide) (by decide)] using hvalue

theorem isDigit_of_mem_ofNat {n : Nat} {c : Char} (h : c ∈ ofNat n) : c.isDigit = true :=
  Nat.isDigit_of_mem_toDigits (by decide) (by decide) h

/-- The order of texts by code point, which is the order of their bytes. -/
def le (s t : Text) : Bool := !t.lex s

/-! ## Leading parts -/

/-- What follows `lead`, if the text starts with it. -/
def after? (lead t : Text) : Option Text := lead.isPrefixOf? t

@[simp] theorem after?_nil (t : Text) : after? [] t = some t := rfl

@[simp] theorem after?_cons_nil (a : Char) (lead : Text) : after? (a :: lead) [] = none := rfl

theorem after?_cons (a : Char) (lead : Text) (c : Char) (t : Text) :
    after? (a :: lead) (c :: t) = if a = c then after? lead t else none := by
  show (if a == c then after? lead t else none) = _
  simp only [beq_iff_eq]

theorem after?_eq_some {lead t rest : Text} : after? lead t = some rest ↔ t = lead ++ rest := by
  induction lead generalizing t with
  | nil => simp
  | cons a lead ih =>
    cases t with
    | nil => simp
    | cons c t => by_cases h : a = c <;> simp [after?_cons, h, ih, eq_comm]

def startsWith (lead t : Text) : Bool := lead.isPrefixOf t

theorem startsWith_iff {lead t : Text} : startsWith lead t = true ↔ ∃ rest, t = lead ++ rest :=
  List.isPrefixOf_iff_prefix.trans (exists_congr fun _ => eq_comm)

theorem startsWith_eq (lead t : Text) : startsWith lead t = (after? lead t).isSome := by
  rw [Bool.eq_iff_iff, startsWith_iff, Option.isSome_iff_exists]
  exact exists_congr fun _ => after?_eq_some.symm

/-- The text without `lead`, if it starts with it. -/
def strip (lead t : Text) : Text := (after? lead t).getD t

/-! ## Breaking a text -/

/-- The text before and after the first occurrence of `pattern`. -/
def breakOn (pattern : Text) : Text → Option (Text × Text)
  | [] => (after? pattern []).map ([], ·)
  | c :: t =>
    match after? pattern (c :: t) with
    | some rest => some ([], rest)
    | none => (breakOn pattern t).map fun (before, rest) => (c :: before, rest)

theorem breakOn_eq_some {pattern t before rest : Text}
    (h : breakOn pattern t = some (before, rest)) : t = before ++ pattern ++ rest := by
  induction t generalizing before with
  | nil =>
    simp only [breakOn, Option.map_eq_some_iff, Prod.mk.injEq] at h
    obtain ⟨r, hr, rfl, rfl⟩ := h
    simpa using after?_eq_some.1 hr
  | cons c t ih =>
    simp only [breakOn] at h
    split at h
    · rename_i r hr
      simp only [Option.some.injEq, Prod.mk.injEq] at h
      obtain ⟨rfl, rfl⟩ := h
      simpa using after?_eq_some.1 hr
    · simp only [Option.map_eq_some_iff, Prod.mk.injEq] at h
      obtain ⟨⟨b, a⟩, hb, rfl, rfl⟩ := h
      simp [ih hb]

theorem breakOn_of_after? {pattern t rest : Text} (h : after? pattern t = some rest) :
    breakOn pattern t = some ([], rest) := by
  cases t with
  | nil => rw [breakOn, h, Option.map_some]
  | cons c t => rw [breakOn, h]

theorem breakOn_cons_of_none {pattern t : Text} {c : Char} (h : after? pattern (c :: t) = none) :
    breakOn pattern (c :: t) =
      (breakOn pattern t).map fun (before, rest) => (c :: before, rest) := by
  rw [breakOn, h]

/-- What does not hold the first character of the pattern is broken off. -/
theorem breakOn_append {a : Char} {front pattern t before rest : Text} (h : a ∉ front)
    (ht : breakOn (a :: pattern) t = some (before, rest)) :
    breakOn (a :: pattern) (front ++ t) = some (front ++ before, rest) := by
  induction front with
  | nil => exact ht
  | cons c front ih =>
    rw [List.mem_cons, not_or] at h
    rw [List.cons_append, breakOn_cons_of_none (by rw [after?_cons, if_neg h.1]), ih h.2,
      Option.map_some]
    rfl

theorem not_mem_of_breakOn {a : Char} {t before rest : Text}
    (h : breakOn [a] t = some (before, rest)) : a ∉ before := by
  induction t generalizing before with
  | nil => cases h
  | cons c t ih =>
    rcases Classical.em (a = c) with hc | hc
    · have hafter : after? [a] (c :: t) = some t := by rw [after?_cons, if_pos hc, after?_nil]
      rw [breakOn_of_after? hafter] at h
      cases h
      exact List.not_mem_nil
    · rw [breakOn_cons_of_none (by rw [after?_cons, if_neg hc]), Option.map_eq_some_iff] at h
      obtain ⟨⟨b, r⟩, hb, hcons⟩ := h
      cases hcons
      rw [List.mem_cons, not_or]
      exact ⟨hc, ih hb⟩

/-- Whether `pattern` occurs in the text. -/
def occursIn (pattern t : Text) : Bool := (breakOn pattern t).isSome

theorem occursIn_append (before pattern rest : Text) :
    occursIn pattern (before ++ pattern ++ rest) = true := by
  induction before with
  | nil =>
    cases pattern with
    | nil => cases rest <;> simp [occursIn, breakOn]
    | cons a pattern =>
      have h : after? (a :: pattern) (a :: (pattern ++ rest)) = some rest :=
        after?_eq_some.2 (by simp)
      simp [occursIn, breakOn, h]
  | cons c before ih =>
    simp only [occursIn, Option.isSome_iff_exists, List.cons_append, breakOn] at ih ⊢
    obtain ⟨r, hr⟩ := ih
    split
    · exact ⟨_, rfl⟩
    · exact ⟨_, by rw [hr]; rfl⟩

/-- The parts of a text between the separators: always one more than there are separators. -/
def fields (separator : Char) : Text → List Text
  | [] => [[]]
  | c :: t =>
    if c = separator then [] :: fields separator t
    else match fields separator t with
      | [] => [[c]]
      | part :: parts => (c :: part) :: parts

theorem fields_ne_nil (separator : Char) (t : Text) : fields separator t ≠ [] := by
  cases t with
  | nil => simp [fields]
  | cons c t =>
    simp only [fields]
    split
    · simp
    · split <;> simp

theorem flatten_fields (separator : Char) (t : Text) :
    ([separator] : Text).intercalate (fields separator t) = t := by
  induction t with
  | nil => simp [fields, List.intercalate]
  | cons c t ih =>
    simp only [fields]
    split
    · rename_i hc
      cases hf : fields separator t with
      | nil => exact absurd hf (fields_ne_nil separator t)
      | cons part parts =>
        rw [hf] at ih
        simp [List.intercalate, List.intersperse, ← ih, hc]
    · cases hf : fields separator t with
      | nil => exact absurd hf (fields_ne_nil separator t)
      | cons part parts =>
        rw [hf] at ih
        cases parts <;> simp_all [List.intercalate, List.intersperse]

theorem fields_of_not_mem {separator : Char} {t : Text} (h : separator ∉ t) :
    fields separator t = [t] := by
  induction t with
  | nil => rfl
  | cons c t ih =>
    simp only [List.mem_cons, not_or] at h
    rw [fields, if_neg (Ne.symm h.1), ih h.2]

theorem fields_separator (separator : Char) (t u : Text) :
    fields separator (t ++ separator :: u) = fields separator t ++ fields separator u := by
  induction t with
  | nil => exact if_pos rfl
  | cons c t ih =>
    simp only [List.cons_append, fields, ih]
    split
    · rfl
    · cases hf : fields separator t with
      | nil => exact absurd hf (fields_ne_nil separator t)
      | cons part parts => rfl

theorem fields_append_cons {separator : Char} {t : Text} (h : separator ∉ t) (u : Text) :
    fields separator (t ++ separator :: u) = t :: fields separator u := by
  rw [fields_separator, fields_of_not_mem h, List.singleton_append]

/-- Texts are cut alike at the first place of a character. -/
theorem append_cons_inj {a b s t : Text} {c : Char} (h : a ++ c :: s = b ++ c :: t) (ha : c ∉ a)
    (hb : c ∉ b) : a = b ∧ s = t := by
  have hfields := congrArg (fields c) h
  rw [fields_append_cons ha, fields_append_cons hb, List.cons.injEq] at hfields
  have htext := congrArg ([c] : Text).intercalate hfields.2
  rw [flatten_fields, flatten_fields] at htext
  exact ⟨hfields.1, htext⟩

theorem fields_intercalate {separator : Char} {parts : List Text} (hne : parts ≠ [])
    (h : ∀ part ∈ parts, separator ∉ part) :
    fields separator (([separator] : Text).intercalate parts) = parts := by
  induction parts with
  | nil => exact absurd rfl hne
  | cons part parts ih =>
    have hpart := h part (by simp)
    cases parts with
    | nil => rw [List.intercalate_singleton, fields_of_not_mem hpart]
    | cons next parts =>
      rw [List.intercalate_cons_cons, List.append_assoc, List.singleton_append,
        fields_append_cons hpart, ih (by simp) fun p hp => h p (by simp [hp])]

theorem mem_intercalate {separator c : Char} {parts : List Text}
    (h : c ∈ ([separator] : Text).intercalate parts) :
    c = separator ∨ ∃ part ∈ parts, c ∈ part := by
  induction parts with
  | nil => cases h
  | cons part parts ih =>
    cases parts with
    | nil =>
      rw [List.intercalate_singleton] at h
      exact Or.inr ⟨part, List.mem_cons_self, h⟩
    | cons next parts =>
      rw [List.intercalate_cons_cons, List.append_assoc, List.mem_append, List.mem_append,
        List.mem_singleton] at h
      rcases h with h | h | h
      · exact Or.inr ⟨part, List.mem_cons_self, h⟩
      · exact Or.inl h
      · rcases ih h with h | ⟨p, hp, hc⟩
        · exact Or.inl h
        · exact Or.inr ⟨p, List.mem_cons_of_mem _ hp, hc⟩

/-- The lines of a text, each with the line feed that ends it; only the last may lack one. -/
def lines : Text → List Text
  | [] => []
  | c :: t =>
    if c = '\n' then [c] :: lines t
    else match lines t with
      | [] => [[c]]
      | line :: rest => (c :: line) :: rest

theorem flatten_lines (t : Text) : (lines t).flatten = t := by
  induction t with
  | nil => rfl
  | cons c t ih =>
    simp only [lines]
    split
    · simp [ih]
    · cases hl : lines t <;> simp_all

/-- A line without its line feed. -/
def chomp (line : Text) : Text := line.takeWhile (· ≠ '\n')

/-- Whether the last character is a line feed. -/
def endsLine (t : Text) : Bool := t.getLast? = some '\n'

theorem endsLine_append (t : Text) {u : Text} (h : endsLine u = true) :
    endsLine (t ++ u) = true := by
  unfold endsLine at *
  rw [decide_eq_true_eq] at *
  rw [List.getLast?_append, h, Option.some_or]

theorem endsLine_lines {t : Text} {front back : List Text} (h : lines t = front ++ back)
    (hb : back ≠ []) : ∀ line ∈ front, endsLine line = true := by
  induction t generalizing front with
  | nil =>
    rw [lines] at h
    have hback := (List.append_eq_nil_iff.1 h.symm).2
    exact absurd hback hb
  | cons c t ih =>
    cases front with
    | nil => intro line hl; cases hl
    | cons first front =>
      unfold lines at h
      split at h
      · rename_i hc
        rw [List.cons_append, List.cons.injEq] at h
        obtain ⟨rfl, h⟩ := h
        intro line hl
        rcases List.mem_cons.1 hl with rfl | hl
        · simp [endsLine, hc]
        · exact ih h line hl
      · -- the character goes in front of the next line, which stays closed
        split at h
        · rw [List.cons_append, List.cons.injEq] at h
          exact absurd (List.append_eq_nil_iff.1 h.2.symm).2 hb
        · rename_i next rest hn
          rw [List.cons_append, List.cons.injEq] at h
          obtain ⟨rfl, rfl⟩ := h
          intro line hl
          have hall : ∀ line ∈ next :: front, endsLine line = true := ih hn
          rcases List.mem_cons.1 hl with rfl | hl
          · exact endsLine_append [c] (hall next (by simp))
          · exact hall line (by simp [hl])

end Text

end Playbook
