import Playbook.Proofs.Call.Candidates

/-!
# Where the reported calls lie

The pieces of a text give the places of its calls: the span of a call is where its piece lies, and
a character that is a piece lies in no span. Every call that stands in the text starts in a span,
its own or that of a call around it.

Results:
* `CallAt.covered`: a call starts in a span that is reported.
* `exists_of_mem_occurrences`: what a call that is reported stands for.
* `not_covered_char`: a character that is a piece lies in no span.
* `piecesFrom_chars`: a text in which no call starts is cut into its characters.
-/
namespace Playbook.Call

open Text (byteSize octets)

variable {names : Names}

/-! ## Spans around a call -/

/-- A candidate at or behind the cursor starts in a span that is taken. -/
theorem Leftmost.covers {b : Text} {cursor : Nat} {spans : List (Nat × Nat × Text)}
    (h : Leftmost names b cursor spans) {start close : Nat} {name : Text} (hle : cursor ≤ start)
    (hc : Candidate names b start close name) : ∃ s ∈ spans, s.1 ≤ start ∧ start < s.2.1 := by
  induction h with
  | done hno => exact absurd hc (hno _ _ _ hle)
  | @next cursor first stop _ rest _ _ hno _ ih =>
    rcases Nat.lt_or_ge start first with hbefore | hfrom
    · exact absurd hc (hno _ _ _ hle hbefore)
    · rcases Nat.lt_or_ge start (stop + 1) with hin | hbehind
      · exact ⟨_, List.mem_cons_self, hfrom, hin⟩
      · obtain ⟨span, hmem, hspan⟩ := ih hbehind
        exact ⟨span, List.mem_cons_of_mem _ hmem, hspan⟩

/-- A call starts in a span that is reported. -/
theorem CallAt.covered {before after : Text} (h : CallAt names before after) :
    ∃ o ∈ scan names (before ++ after), o.start ≤ byteSize before ∧ byteSize before < o.stop := by
  obtain ⟨hword, name, inner, rest, hp, hafter⟩ := h
  have hc : Candidate names (octets (before ++ after)) (byteSize before) _ name :=
    candidate_octets_iff.2 ⟨before, inner, rest, hp, hword, by rw [hafter], rfl, rfl⟩
  have hscan := leftmost_spansFrom names [] (before ++ after)
  obtain ⟨span, hspan, hcover⟩ := hscan.covers (Nat.zero_le _) hc
  obtain ⟨o, ho, rfl⟩ := List.mem_map.1 hspan
  exact ⟨o, ho, hcover⟩

/-! ## Spans of pieces -/

theorem occurrences_append (start : Nat) (ps qs : List Piece) :
    occurrences start (ps ++ qs) =
      occurrences start ps ++ occurrences (start + byteSize (ps.flatMap Piece.source)) qs := by
  induction ps generalizing start with
  | nil => rfl
  | cons p ps ih =>
    cases p with
    | char c =>
      rw [List.cons_append, occurrences, ih, occurrences, List.flatMap_cons, Text.byteSize_append,
        Nat.add_assoc]
      rfl
    | call source call =>
      rw [List.cons_append, occurrences, ih, occurrences, List.flatMap_cons, Text.byteSize_append,
        ← Nat.add_assoc]
      rfl

theorem bounds_of_mem_occurrences {start : Nat} {ps : List Piece} {o : Occurrence}
    (h : o ∈ occurrences start ps) :
    start ≤ o.start ∧ o.stop ≤ start + byteSize (ps.flatMap Piece.source) := by
  induction ps generalizing start with
  | nil => cases h
  | cons p ps ih =>
    rw [List.flatMap_cons, Text.byteSize_append, ← Nat.add_assoc]
    cases p with
    | char c =>
      obtain ⟨hstart, hstop⟩ := ih h
      exact ⟨Nat.le_trans (Nat.le_add_right _ _) hstart, hstop⟩
    | call source call =>
      rw [occurrences, List.mem_cons] at h
      rcases h with rfl | h
      · exact ⟨Nat.le_refl _, Nat.le_add_right _ _⟩
      · obtain ⟨hstart, hstop⟩ := ih h
        exact ⟨Nat.le_trans (Nat.le_add_right _ _) hstart, hstop⟩

/-- What a call that is reported stands for: its parts are in the text, at its bytes. -/
theorem exists_of_mem_occurrences (before : Text) {t : Text} {inWord : Bool} {o : Occurrence}
    (h : o ∈ occurrences (byteSize before) (piecesFrom names inWord 0 t)) :
    ∃ front inner back, Parts names o.call.name inner ∧
      t = front ++ (o.call.name ++ '(' :: (inner ++ ')' :: back)) ∧
      o.start = byteSize (before ++ front) ∧
      o.stop = byteSize (before ++ front ++ (o.call.name ++ '(' :: (inner ++ [')']))) ∧
      o.call.arguments = Arguments.parse inner := by
  induction inWord, t using piecesFrom_induction names generalizing before with
  | nil inWord => cases h
  | call name inner rest hp ih =>
    rw [piecesFrom_parts hp, occurrences, ← Text.byteSize_append, List.mem_cons] at h
    rcases h with rfl | h
    · exact ⟨[], inner, rest, hp, rfl, by rw [List.append_nil], by rw [List.append_nil], rfl⟩
    · obtain ⟨front, inner', back, hp', ht, hstart, hstop, hargs⟩ := ih _ h
      rw [List.append_assoc before] at hstart hstop
      refine ⟨name ++ '(' :: (inner ++ [')']) ++ front, inner', back, hp', ?_, hstart, hstop, hargs⟩
      rw [ht]
      simp
  | char inWord c t hpieces ih =>
    have hone : byteSize before + c.utf8Size = byteSize (before ++ [c]) := by simp [byteSize]
    rw [hpieces, occurrences, hone] at h
    obtain ⟨front, inner, back, hp, ht, hstart, hstop, hargs⟩ := ih _ h
    rw [List.append_assoc before] at hstart hstop
    exact ⟨c :: front, inner, back, hp, by rw [ht]; rfl, hstart, hstop, hargs⟩

/-- A character that is a piece lies in no span. -/
theorem not_covered_char {ps qs : List Piece} {c : Char} {o : Occurrence}
    (h : o ∈ occurrences 0 (ps ++ .char c :: qs)) :
    ¬ (o.start ≤ byteSize (ps.flatMap Piece.source) ∧
      byteSize (ps.flatMap Piece.source) < o.stop) := by
  rw [occurrences_append, List.mem_append, Nat.zero_add] at h
  have hc := c.utf8Size_pos
  rcases h with h | h
  · have hstop := (bounds_of_mem_occurrences h).2
    omega
  · rw [occurrences] at h
    have hstart := (bounds_of_mem_occurrences h).1
    omega

/-! ## Texts without calls -/

theorem piecesFrom_chars (before : Text) {t rest : Text}
    (h : ∀ u v, t = u ++ v → v ≠ [] → ¬ CallAt names (before ++ u) (v ++ rest)) :
    piecesFrom names (before.getLast?.any isIdentifierChar) 0 (t ++ rest) = t.map .char ++
      piecesFrom names ((before ++ t).getLast?.any isIdentifierChar) 0 rest := by
  induction t generalizing before with
  | nil => rw [List.append_nil, List.nil_append, List.map_nil, List.nil_append]
  | cons c t ih =>
    have hhere : ¬ CallAt names before (c :: (t ++ rest)) := by
      have hno := h [] (c :: t) rfl (List.cons_ne_nil c t)
      rwa [List.append_nil] at hno
    have hbehind := ih (before ++ [c]) fun u v huv hv => by
      rw [List.append_assoc]
      exact h (c :: u) v (by rw [huv]; rfl) hv
    rw [List.getLast?_concat, Option.any_some, List.append_assoc] at hbehind
    have hchar := piecesFrom_char fun name inner tail hword hp ht =>
      hhere ⟨hword, name, inner, tail, hp, ht⟩
    rw [List.cons_append, hchar, hbehind]
    rfl

end Playbook.Call
