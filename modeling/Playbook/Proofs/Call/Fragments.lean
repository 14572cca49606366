import Playbook.Proofs.Call.Refinement
import Playbook.Proofs.Call.Spans

/-!
# The fragments of a call

The same machine runs three times over what stands in the parentheses of a call: from depth one, to
find the bracket that closes the call; from top level, to find the commas; and once more from top
level in every fragment between two commas. The depth never falls below zero on the way, which would
hide a bracket too much. So the three runs tell every byte apart in the same way: a run from depth
one is everywhere one deeper than a run from top level, and at a comma at top level the machine is
where it starts.

Results:
* `split_splitTop`: a text is cut at the separators at top level, and nowhere else.
* `Split.join`, `Split.length`: the parts make up the text, and there is one more of them than there
  are separators.
* `counts_body`, `run_deeper`: between parentheses no bracket is lost, so the depth that a run
  starts with only shifts it.
* `fragments_agree`: the runs over a call, its arguments and its fragments.
-/
namespace Playbook.Call

open Text (bytes byte byteChar byteSize octets slice?)

/-! ## Splitting -/

theorem Nesting.eq_top {s : Nesting} (h : s.atTop = true) : s = .top := by
  obtain ⟨depth, quote, escaped⟩ := s
  simpa [atTop, top, and_assoc] using h

/-- A text cut at the separators that stand at top level, and nowhere else. -/
inductive Split (separator : Char) : Text → List Text → Prop
  | last {t : Text} : breakTop separator .top t = none → Split separator t [t]
  | next {part rest : Text} {parts : List Text} : breakTop separator .top part = none →
      Nesting.top.run part = .top → Split separator rest parts →
      Split separator (part ++ separator :: rest) (part :: parts)

/-- A text is cut at the separators that stand at top level, and nowhere else. -/
theorem split_splitTop (separator : Char) (t : Text) :
    Split separator t (splitTop separator .top t) := by
  induction hlen : t.length using Nat.strongRecOn generalizing t with
  | ind n ih =>
    cases hb : breakTop separator .top t with
    | none =>
      have hsplit := splitTop_append (breakTop_eq_none_iff.1 hb) []
      rw [List.append_nil, splitTop, List.modifyHead_cons, List.append_nil] at hsplit
      rw [hsplit]
      exact .last hb
    | some found =>
      obtain ⟨before, rest⟩ := found
      obtain ⟨ht, hquiet, htop⟩ := breakTop_eq_some hb
      rw [ht, List.length_append, List.length_cons] at hlen
      have hrest := ih rest.length (by omega) rest rfl
      have hcut : splitTop separator .top (separator :: rest) =
          [] :: splitTop separator .top rest := by simp [splitTop, Nesting.atTop, Nesting.top]
      rw [ht, splitTop_append hquiet, Nesting.eq_top htop, hcut,
        List.modifyHead_cons, List.append_nil]
      exact .next (breakTop_eq_none_iff.2 hquiet) (Nesting.eq_top htop) hrest

namespace Split

variable {separator : Char} {t : Text} {parts : List Text}

theorem ne_nil (h : Split separator t parts) : parts ≠ [] := by
  cases h <;> exact List.cons_ne_nil _ _

theorem join (h : Split separator t parts) : [separator].intercalate parts = t := by
  induction h with
  | last => exact List.intercalate_singleton
  | next _ _ hrest ih =>
    obtain ⟨part, parts, rfl⟩ := List.exists_cons_of_ne_nil hrest.ne_nil
    rw [List.intercalate_cons_cons, ih, List.append_assoc]
    rfl

theorem breakTop_part (h : Split separator t parts) :
    ∀ part ∈ parts, breakTop separator .top part = none := by
  induction h with
  | last hnone =>
    rw [List.forall_mem_singleton]
    exact hnone
  | next hnone _ _ ih =>
    rw [List.forall_mem_cons]
    exact ⟨hnone, ih⟩

section
variable (hp : isPlain separator = true)
include hp

/-- If the text leads back to top level, every part does. -/
theorem run_part (h : Split separator t parts) (htop : Nesting.top.run t = .top) :
    ∀ part ∈ parts, Nesting.top.run part = .top := by
  induction h with
  | last =>
    rw [List.forall_mem_singleton]
    exact htop
  | next _ hpart _ ih =>
    rw [Nesting.run_append, hpart, Nesting.run_cons, show Nesting.top = .inside 0 from rfl,
      Nesting.step_inside_plain 0 hp] at htop
    rw [List.forall_mem_cons]
    exact ⟨hpart, ih htop⟩

/-- A part stands behind the parts before it and their separators, where the reader is at top
level. -/
theorem cut {front back : List Text} {part : Text} (h : Split separator t (front ++ part :: back)) :
    ∃ rest, t = front.flatMap (· ++ [separator]) ++ (part ++ rest) ∧
      Nesting.top.run (front.flatMap (· ++ [separator])) = .top := by
  induction front generalizing t with
  | nil =>
    cases h with
    | last => exact ⟨[], (List.append_nil part).symm, rfl⟩
    | next => exact ⟨_, rfl, rfl⟩
  | cons first front ih =>
    generalize hparts : first :: front ++ part :: back = parts at h
    cases h with
    | last =>
      rw [List.cons_append, List.cons.injEq] at hparts
      exact absurd hparts.2 (by simp)
    | next _ hfirst hrest =>
      rw [List.cons_append, List.cons.injEq] at hparts
      obtain ⟨rfl, rfl⟩ := hparts
      obtain ⟨rest, rfl, htop⟩ := ih hrest
      refine ⟨rest, by simp, ?_⟩
      rw [List.flatMap_cons, Nesting.run_append, Nesting.run_append, hfirst, Nesting.run_cons,
        Nesting.run_nil, show Nesting.top = .inside 0 from rfl, Nesting.step_inside_plain 0 hp]
      exact htop

end

end Split

/-! ## Counting separators -/

namespace Scanner

/-- How often a byte stands at top level. -/
def topMarks (mark : UInt8) (s : Scanner) (bs : List UInt8) : Nat :=
  (List.range bs.length).countP fun i => bs[i]? = some mark && (s.run (bs.take i)).atTop

theorem topMarks_cons (mark : UInt8) (s : Scanner) (b : UInt8) (bs : List UInt8) :
    topMarks mark s (b :: bs) =
      (if b = mark && s.atTop then 1 else 0) + topMarks mark (s.step b) bs := by
  rw [topMarks, List.length_cons, List.range_succ_eq_map, List.countP_cons, List.countP_map,
    Nat.add_comm]
  simp [topMarks, Function.comp_def]

theorem topMarks_append (mark : UInt8) (s : Scanner) (as bs : List UInt8) :
    topMarks mark s (as ++ bs) = topMarks mark s as + topMarks mark (s.run as) bs := by
  induction as generalizing s with
  | nil => simp [topMarks]
  | cons a as ih => rw [List.cons_append, topMarks_cons, ih, topMarks_cons, run_cons, Nat.add_assoc]

theorem topMarks_of_find {mark : UInt8} {s : Scanner} {i : Nat} {bs : List UInt8}
    (h : find mark s i bs = none) : topMarks mark s bs = 0 := by
  induction bs generalizing s i with
  | nil => rfl
  | cons b bs ih =>
    rw [find] at h
    split at h
    · cases h
    · rename_i hb
      rw [topMarks_cons, if_neg hb, ih h]

theorem find_eq_none {mark : Char} (hmark : mark.toNat < 128) {part : Text}
    (h : breakTop mark .top part = none) : find (byte mark) top 0 (bytes part) = none := by
  rw [find_bytes hmark, nesting_top, h]
  rfl

theorem step_plain {separator : Char} (hp : isPlain separator = true)
    (hsep : separator.toNat < 128) : top.step (byte separator) = top := by
  refine nesting_injective ?_
  rw [nesting_step_byte top hsep]
  exact Nesting.step_inside_plain 0 hp

theorem run_bytes_eq_top {t : Text} (h : Nesting.top.run t = .top) : top.run (bytes t) = top := by
  refine nesting_injective ?_
  rw [nesting_run_bytes]
  exact h

end Scanner

open Scanner (topMarks top)

/-- There is one more part than there are separators at top level. -/
theorem Split.length {separator : Char} (hp : isPlain separator = true)
    (hsep : separator.toNat < 128) {t : Text} {parts : List Text} (h : Split separator t parts) :
    parts.length = topMarks (byte separator) top (bytes t) + 1 := by
  induction h with
  | last hnone => rw [Scanner.topMarks_of_find (Scanner.find_eq_none hsep hnone)]; rfl
  | next hnone hpart _ ih =>
    rw [Text.bytes_append, Scanner.topMarks_append,
      Scanner.topMarks_of_find (Scanner.find_eq_none hsep hnone), Scanner.run_bytes_eq_top hpart,
      Scanner.bytes_cons_ascii hsep, Scanner.topMarks_cons, Scanner.step_plain hp hsep,
      if_pos (by simp [Scanner.atTop_iff]), List.length_cons, ih]
    omega

/-! ## Depth -/

namespace Scanner

/-- Where a bracket closes, one is open: the depth never stays at zero. -/
def Counts (s : Scanner) (bs : List UInt8) : Prop :=
  ∀ u b v, bs = u ++ b :: v → (s.run u).role b = .closer → 0 < (s.run u).depth

theorem Counts.left {s : Scanner} {as bs : List UInt8} (h : s.Counts (as ++ bs)) : s.Counts as :=
  fun u b v hu => h u b (v ++ bs) (by rw [hu]; simp)

/-- One bracket deeper. -/
def deeper (s : Scanner) : Scanner := { s with depth := s.depth + 1 }

theorem role_deeper (s : Scanner) (b : UInt8) : s.deeper.role b = s.role b := by
  unfold role feed deeper
  repeat' split
  all_goals first | rfl | simp_all

theorem step_deeper {s : Scanner} {b : UInt8} (h : s.role b = .closer → 0 < s.depth) :
    s.deeper.step b = (s.step b).deeper := by
  obtain ⟨depth, quote, escaped⟩ := s
  cases escaped with
  | true => rfl
  | false =>
    by_cases hb : b = byte '\\'
    · subst hb
      rfl
    · cases quote with
      | some q =>
        by_cases hq : b = byte q.char
        · subst hq
          cases q <;> rfl
        · simp [step, feed, deeper, hb, hq]
      | none =>
        cases hq : Quote.ofByte? b with
        | some q => simp [step, feed, deeper, hb, hq]
        | none =>
          cases ho : isOpenerByte b with
          | true => simp [step, feed, deeper, hb, hq, ho]
          | false =>
            cases hc : isCloserByte b with
            | false => simp [step, feed, deeper, hb, hq, ho, hc]
            | true =>
              -- only a closing bracket looks at the depth
              have hopen : 0 < depth := h (by simp [role, feed, hb, hq, ho, hc])
              simp [step, feed, deeper, hb, hq, ho, hc, Nat.sub_add_cancel hopen]

theorem run_deeper {s : Scanner} {bs : List UInt8} (h : s.Counts bs) :
    s.deeper.run bs = (s.run bs).deeper := by
  induction bs generalizing s with
  | nil => rfl
  | cons b bs ih =>
    have hfirst : s.role b = .closer → 0 < s.depth := h [] b bs rfl
    have hrest : (s.step b).Counts bs := fun u b' v hu => h (b :: u) b' v (by rw [hu]; rfl)
    rw [run_cons, run_cons, step_deeper hfirst, ih hrest]

end Scanner

/-- A closing bracket where none is open. -/
def saturates (s : Nesting) (c : Char) : Bool := s.role c = .closer && s.depth = 0

theorem stopsAt_saturates : StopsAt 0 [] saturates := by
  intro s c _ hs
  obtain ⟨depth, quote, escaped⟩ := s
  simp only [saturates, Bool.and_eq_true, decide_eq_true_eq] at hs
  obtain ⟨hrole, rfl⟩ := hs
  obtain ⟨rfl, rfl, hc⟩ := role_closer hrole
  exact ⟨rfl, Or.inl hc⟩

/-- Between parentheses the depth never stays at zero, and the machine ends where it started. -/
theorem counts_body {inner : Text} (h : Body inner) :
    top.Counts (bytes inner) ∧ top.run (bytes inner) = top := by
  obtain ⟨hquiet, hrun⟩ := BodyWithout.quiet (body_octets_iff.2 h) stopsAt_saturates
  have hback := (BodyWithout.quiet h stopsAt_saturates).2
  refine ⟨fun u b v hu hrole => ?_, Scanner.run_bytes_eq_top hback⟩
  rw [Text.octets_eq_map, hu, List.map_append, List.map_cons, quiet_append] at hquiet
  have hnot := hquiet.2.1
  rw [show Nesting.inside 0 = top.nesting from rfl, ← Scanner.nesting_run, saturates,
    (Scanner.feed_byteChar _ b).1, hrole] at hnot
  exact Nat.pos_of_ne_zero fun hdepth => by simp [Scanner.nesting, hdepth] at hnot

/-! ## The runs over a call -/

/-- What stands in the parentheses of a call, in the bytes of the text. -/
theorem exists_inner {names : Names} {t : Text} {o : Occurrence} (h : o ∈ scan names t) :
    ∃ inner, Body inner ∧
      slice? (o.start + byteSize o.call.name + 1) (o.stop - 1) t = some inner ∧
      o.call.arguments = Arguments.parse inner := by
  obtain ⟨front, inner, back, hp, ht, hstart, hstop, hargs⟩ :=
    exists_of_mem_occurrences [] h
  have hsplit : t = front ++ o.call.name ++ ['('] ++ inner ++ (')' :: back) := by rw [ht]; simp
  have hsource : [] ++ front ++ (o.call.name ++ '(' :: (inner ++ [')'])) =
      front ++ o.call.name ++ ['('] ++ inner ++ [')'] := by simp
  have hslice := Text.slice?_of_eq hsplit
  have hopen : byteSize ['('] = 1 := rfl
  have hclose : byteSize [')'] = 1 := rfl
  rw [hsource, Text.byteSize_append _ [')'], hclose] at hstop
  rw [Text.byteSize_append _ ['('], Text.byteSize_append, hopen] at hslice
  refine ⟨inner, hp.body, ?_, hargs⟩
  rw [hstart, hstop, Nat.add_sub_cancel, List.nil_append]
  exact hslice

/-- A text is put together again from its parts, of which there is one more than there are
separators at top level, and none has one. In the parentheses of a call that is reported no bracket
closes at depth zero, and the machine comes back to top level there and in each fragment. At every
byte of a fragment the runs over the call, over its arguments and over the fragment alone agree,
the first of them one bracket deeper. -/
theorem fragments_agree :
    (∀ (separator : Char) (t : Text), isPlain separator = true → separator.toNat < 128 →
      ∃ parts, Scanner.split? (byte separator) t = some parts ∧
        parts = splitTop separator .top t ∧
        [separator].intercalate parts = t ∧
        (∀ part ∈ parts, breakTop separator .top part = none ∧
          Scanner.find (byte separator) top 0 (bytes part) = none) ∧
        parts.length = topMarks (byte separator) top (bytes t) + 1) ∧
    (∀ (names : Names) (t : Text) (o : Occurrence), o ∈ scan names t →
      ∃ inner, slice? (o.start + byteSize o.call.name + 1) (o.stop - 1) t = some inner ∧
        o.call.arguments = Arguments.parse inner ∧
        top.Counts (bytes inner) ∧
        top.run (bytes inner) = top ∧
        (∀ part ∈ splitTop ',' .top inner, top.run (bytes part) = top) ∧
        ∀ front part back u b v, splitTop ',' .top inner = front ++ part :: back →
          bytes part = u ++ b :: v →
          let before := bytes (front.flatMap (· ++ [','])) ++ u
          (∃ rest, bytes inner = before ++ b :: rest) ∧
          top.run before = top.run u ∧
          (Scanner.nested 1).run before = (top.run u).deeper ∧
          ((Scanner.nested 1).run before).role b = (top.run u).role b) := by
  constructor
  · intro separator t hp hsep
    have h := split_splitTop separator t
    exact ⟨_, Scanner.split?_eq hsep t, rfl, h.join,
      fun part hpart => ⟨h.breakTop_part part hpart,
        Scanner.find_eq_none hsep (h.breakTop_part part hpart)⟩, h.length hp hsep⟩
  · intro names t o ho
    obtain ⟨inner, hbody, hslice, hargs⟩ := exists_inner ho
    obtain ⟨hcounts, hback⟩ := counts_body hbody
    have hsplit := split_splitTop ',' inner
    have htop : Nesting.top.run inner = .top := by
      rw [← Scanner.nesting_top, ← Scanner.nesting_run_bytes, hback]
    refine ⟨inner, hslice, hargs, hcounts, hback, fun part hpart =>
      Scanner.run_bytes_eq_top (hsplit.run_part (by decide) htop part hpart), ?_⟩
    intro front part back u b v hparts hpart before
    rw [hparts] at hsplit
    obtain ⟨rest, hinner, hfront⟩ := hsplit.cut (by decide)
    have hbytes : bytes inner = before ++ b :: (v ++ bytes rest) := by
      rw [hinner, Text.bytes_append, Text.bytes_append, hpart]
      simp [before]
    have hrun : top.run before = top.run u := by
      rw [Scanner.run_append, Scanner.run_bytes_eq_top hfront]
    have hdeeper : (Scanner.nested 1).run before = (top.run u).deeper := by
      rw [hbytes] at hcounts
      rw [← hrun, ← Scanner.run_deeper hcounts.left]
      rfl
    exact ⟨⟨_, hbytes⟩, hrun, hdeeper, by rw [hdeeper, Scanner.role_deeper]⟩

end Playbook.Call
