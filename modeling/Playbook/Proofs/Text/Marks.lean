import Playbook.Proofs.Text.Rules
import Playbook.Text.Word

/-!
# Marks in an edited text

A mark is something to look for in a text: a run of characters of given classes, perhaps between
word boundaries. Where parts of a text are replaced, a mark may arise that was not there: inside
what is written, across one of its ends, or because a word boundary moves. An edit that rules this
out leaves a text without the mark.

Results:
* `Edited.absent`: an edited text does not have the mark.
* `Spares.swap`: what can be told of the replaced and the written text alone.
* `absent_foldl`: what rules applied in turn do to a mark.
* `absent_separator`: a character that no mark holds parts the places where marks are.
* `not_foundAt_block`: a block between such characters has only the marks inside it.
-/
namespace Playbook

/-- A mark starts with a character of the class `first`. -/
structure Mark where
  first : Char → Bool
  others : List (Char → Bool)
  /-- Whether no word character may stand next to it. -/
  whole : Bool

namespace Mark

def shape (m : Mark) : List (Char → Bool) := m.first :: m.others

/-- What follows characters of the given classes. -/
def after? : List (Char → Bool) → Text → Option Text
  | [], t => some t
  | _ :: _, [] => none
  | a :: shape, c :: t => if a c then after? shape t else none

theorem after?_append {q : List (Char → Bool)} {w : Text} (h : after? q w = some [])
    (p : List (Char → Bool)) (t : Text) : after? (q ++ p) (w ++ t) = after? p t := by
  induction q generalizing w with
  | nil =>
    cases h
    rfl
  | cons a q ih =>
    cases w with
    | nil => cases h
    | cons c w =>
      rw [after?] at h
      split at h
      · rename_i hc
        rw [List.cons_append, List.cons_append, after?, if_pos hc]
        exact ih h
      · cases h

theorem after?_separator {shape : List (Char → Bool)} {c : Char} (hc : ∀ a ∈ shape, a c = false)
    (v t : Text) : after? shape (v ++ c :: t) = (after? shape v).map (· ++ c :: t) := by
  induction shape generalizing v with
  | nil => rfl
  | cons a shape ih =>
    cases v with
    | nil => exact if_neg (by simp [hc a List.mem_cons_self])
    | cons d v =>
      rw [List.cons_append, after?, after?]
      split
      · exact ih (fun b hb => hc b (List.mem_cons_of_mem a hb)) v
      · rfl

section
variable (m : Mark)

/-- The mark stands at the start of `rest`, behind `before`, whose characters are given from the
last to the first. -/
def FoundAt (before rest : Text) : Prop :=
  ∃ remaining, after? m.shape rest = some remaining ∧
    (m.whole = true → Text.isWordAt before.head? = false ∧ Text.isWordAt remaining.head? = false)

/-- The mark is nowhere in `t`, which stands behind `before`. -/
def AbsentFrom (before t : Text) : Prop :=
  ∀ u v, t = u ++ v → ¬ m.FoundAt (u.reverse ++ before) v

def Absent (t : Text) : Prop := m.AbsentFrom [] t

/-- The characters before a position are of the classes `q`. -/
def Ends (q : List (Char → Bool)) (before : Text) : Prop :=
  ∃ w rest, before = w.reverse ++ rest ∧ after? q w = some []

variable {m}

theorem not_foundAt_nil (before : Text) : ¬ m.FoundAt before [] := by
  rintro ⟨remaining, h, -⟩
  cases h

theorem AbsentFrom.cons {before t : Text} {c : Char} (h : m.AbsentFrom before (c :: t)) :
    ¬ m.FoundAt before (c :: t) ∧ m.AbsentFrom (c :: before) t := by
  refine ⟨h [] (c :: t) rfl, fun u v huv => ?_⟩
  have hfound := h (c :: u) v (by rw [huv, List.cons_append])
  rwa [List.reverse_cons, List.append_assoc, List.singleton_append] at hfound

theorem AbsentFrom.append {before t : Text} (w : Text) (h : m.AbsentFrom before (w ++ t)) :
    m.AbsentFrom (w.reverse ++ before) t := by
  intro u v huv
  have hfound := h (w ++ u) v (by rw [huv, List.append_assoc])
  rwa [List.reverse_append, List.append_assoc] at hfound

theorem Ends.concat {q : List (Char → Bool)} {a : Char → Bool} {before : Text} {c : Char}
    (h : Ends q before) (hc : a c = true) : Ends (q ++ [a]) (c :: before) := by
  obtain ⟨w, rest, rfl, hw⟩ := h
  refine ⟨w ++ [c], rest, by simp, ?_⟩
  rw [after?_append hw, after?, if_pos hc, after?]

theorem after?_concat {q : List (Char → Bool)} {a : Char → Bool} {w : Text}
    (h : after? (q ++ [a]) w = some []) :
    ∃ u c, w = u ++ [c] ∧ a c = true ∧ after? q u = some [] := by
  induction q generalizing w with
  | nil =>
    cases w with
    | nil => cases h
    | cons c w =>
      rw [List.nil_append, after?] at h
      split at h
      · rename_i hc
        cases h
        exact ⟨[], c, rfl, hc, rfl⟩
      · cases h
  | cons b q ih =>
    cases w with
    | nil => cases h
    | cons c w =>
      rw [List.cons_append, after?] at h
      split at h
      · rename_i hc
        obtain ⟨u, d, rfl, hd, hu⟩ := ih h
        exact ⟨c :: u, d, rfl, hd, by rw [after?, if_pos hc, hu]⟩
      · cases h

theorem Ends.of_concat {q : List (Char → Bool)} {a : Char → Bool} {before : Text}
    (h : Ends (q ++ [a]) before) : ∃ c rest, before = c :: rest ∧ a c = true ∧ Ends q rest := by
  obtain ⟨w, rest, rfl, hw⟩ := h
  obtain ⟨u, c, rfl, hc, hu⟩ := after?_concat hw
  exact ⟨c, u.reverse ++ rest, by simp, hc, u, rest, rfl, hu⟩

theorem ends_singleton {a : Char → Bool} {before : Text} {c : Char} (hc : a c = true) :
    Ends [a] (c :: before) :=
  ⟨[c], before, rfl, by rw [after?, if_pos hc, after?]⟩

/-! ## Edited texts -/

/-- `t'` behind `before'` comes from `t` behind `before` by replacing parts, so that no mark
arises: it is not where a character is kept, no replaced part brings one along, and none that has
begun runs into a replaced part or ends right before one where a word went on. -/
inductive Edited (m : Mark) : (before before' t t' : Text) → Prop
  | done (before before' : Text) : Edited m before before' [] []
  | keep {before before' t t' : Text} (c : Char) (hnot : ¬ m.FoundAt before (c :: t))
      (hedge : m.whole = true → m.first c = true →
        Text.isWordAt before.head? = Text.isWordAt before'.head?)
      (behind : Edited m (c :: before) (c :: before') t t') :
      Edited m before before' (c :: t) (c :: t')
  | swap {before before' t t' : Text} (old new : Text)
      (hquiet : ∀ u v, new = u ++ v → v ≠ [] → ¬ m.FoundAt (u.reverse ++ before') (v ++ t'))
      (hopen : ∀ q p, m.shape = q ++ p → q ≠ [] → Ends q before' →
        (p ≠ [] → after? p (new ++ t') = none) ∧
        (p = [] → m.whole = true →
          Text.isWordAt (new ++ t').head? = Text.isWordAt (old ++ t).head?))
      (behind : Edited m (old.reverse ++ before) (new.reverse ++ before') t t') :
      Edited m before before' (old ++ t) (new ++ t')

/-- A mark that has begun goes on in the text before the edit, too. -/
theorem Edited.goes_on {before before' t t' : Text} (h : Edited m before before' t t')
    {q p : List (Char → Bool)} (hshape : m.shape = q ++ p) (hq : q ≠ []) (hends : Ends q before')
    {remaining' : Text} (hp : after? p t' = some remaining') :
    ∃ remaining, after? p t = some remaining ∧
      (m.whole = true → Text.isWordAt remaining.head? = Text.isWordAt remaining'.head?) := by
  induction h generalizing q p with
  | done before before' =>
    cases p with
    | nil =>
      cases hp
      exact ⟨[], rfl, fun _ => rfl⟩
    | cons a p => cases hp
  | @keep before before' t t' c hnot hedge behind ih =>
    cases p with
    | nil =>
      cases hp
      exact ⟨c :: t, rfl, fun _ => rfl⟩
    | cons a p =>
      rw [after?] at hp
      split at hp
      · rename_i hc
        rw [after?, if_pos hc]
        exact ih (by rw [hshape, List.append_assoc, List.singleton_append]) (by simp)
          (hends.concat hc) hp
      · cases hp
  | @swap before before' t t' old new hquiet hopen behind ih =>
    obtain ⟨hinto, hbefore⟩ := hopen q p hshape hq hends
    cases p with
    | nil =>
      cases hp
      exact ⟨old ++ t, rfl, fun hwhole => (hbefore rfl hwhole).symm⟩
    | cons a p =>
      rw [hinto (List.cons_ne_nil a p)] at hp
      cases hp

theorem Edited.absent {before before' t t' : Text} (h : Edited m before before' t t') :
    m.AbsentFrom before' t' := by
  induction h with
  | done before before' =>
    intro u v huv
    obtain ⟨rfl, rfl⟩ := List.append_eq_nil_iff.1 huv.symm
    exact not_foundAt_nil _
  | @keep before before' t t' c hnot hedge behind ih =>
    intro u v huv
    cases u with
    | nil =>
      subst huv
      rintro ⟨remaining', hafter, hwords⟩
      rw [shape, after?] at hafter
      split at hafter
      · rename_i hc
        obtain ⟨remaining, hrest, hword⟩ :=
          behind.goes_on (q := [m.first]) rfl (List.cons_ne_nil _ _) (ends_singleton hc) hafter
        refine hnot ⟨remaining, by rw [shape, after?, if_pos hc, hrest], fun hwhole => ?_⟩
        obtain ⟨hleft, hright⟩ := hwords hwhole
        rw [hedge hwhole hc, hword hwhole]
        exact ⟨hleft, hright⟩
      · cases hafter
    | cons d u =>
      rw [List.cons_append, List.cons.injEq] at huv
      obtain ⟨rfl, huv⟩ := huv
      rw [List.reverse_cons, List.append_assoc, List.singleton_append]
      exact ih u v huv
  | @swap before before' t t' old new hquiet hopen behind ih =>
    intro u v huv
    rcases List.append_eq_append_iff.1 huv with ⟨w, rfl, ht⟩ | ⟨w, hnew, rfl⟩
    · rw [List.reverse_append, List.append_assoc]
      exact ih w v ht
    · cases w with
      | nil =>
        rw [List.append_nil] at hnew
        subst hnew
        exact ih [] t' rfl
      | cons d w => exact hquiet u (d :: w) hnew (List.cons_ne_nil d w)

theorem Edited.keep_all {w before before' t t' : Text} (habsent : m.AbsentFrom before (w ++ t))
    (hedge : Text.isWordAt before.head? = Text.isWordAt before'.head?)
    (behind : m.Edited (w.reverse ++ before) (w.reverse ++ before') t t') :
    m.Edited before before' (w ++ t) (w ++ t') := by
  induction w generalizing before before' with
  | nil => exact behind
  | cons c w ih =>
    obtain ⟨hnot, hbehind⟩ := habsent.cons
    refine .keep c hnot (fun _ _ => hedge) (ih hbehind rfl ?_)
    rwa [List.reverse_cons, List.append_assoc, List.append_assoc] at behind

/-! ## What is written -/

/-- The text has a character at which it cannot be of the given classes. -/
def clashes : List (Char → Bool) → Text → Bool
  | a :: p, c :: w => !a c || clashes p w
  | _, _ => false

theorem after?_of_clashes {p : List (Char → Bool)} {w : Text} (h : clashes p w = true) (t : Text) :
    after? p (w ++ t) = none := by
  induction p generalizing w with
  | nil => cases h
  | cons a p ih =>
    cases w with
    | nil => cases h
    | cons c w =>
      rw [List.cons_append, after?]
      split
      · rename_i hc
        rw [clashes, hc, Bool.not_true, Bool.false_or] at h
        exact ih h
      · rfl

/-- Whether `f` holds of the list from each of its places on. -/
def allTails {α : Type} (f : List α → Bool) : List α → Bool
  | [] => true
  | x :: l => f (x :: l) && allTails f l

theorem of_allTails {α : Type} {f : List α → Bool} {u v : List α} (h : allTails f (u ++ v) = true)
    (hv : v ≠ []) : f v = true := by
  induction u with
  | nil =>
    cases v with
    | nil => exact absurd rfl hv
    | cons x v => exact (Bool.and_eq_true_iff.1 h).1
  | cons x u ih => exact ih (Bool.and_eq_true_iff.1 h).2

theorem allTails_of_forall {α : Type} {f : List α → Bool} {l : List α}
    (h : ∀ x ∈ l, ∀ tail, f (x :: tail) = true) : allTails f l = true := by
  induction l with
  | nil => rfl
  | cons x l ih =>
    rw [allTails, h x List.mem_cons_self l, Bool.true_and]
    exact ih fun y hy => h y (List.mem_cons_of_mem x hy)

theorem clashes_of_head {a : Char → Bool} {c : Char} (h : a c = false) (p : List (Char → Bool))
    (w : Text) : clashes (a :: p) (c :: w) = true := by
  rw [clashes, h, Bool.not_false, Bool.true_or]

/-- Where the text is written, the mark neither starts in it nor runs into it. -/
def apart (m : Mark) (w : Text) : Bool :=
  allTails (fun p => clashes p w) m.others && allTails (fun v => clashes m.shape v) w

/-- A mark keeps away from a text of which its first class has no character, while its other
classes do not have the first one of the text. -/
theorem apart_of_outside {m : Mark} {c : Char} {w : Text} (hothers : ∀ a ∈ m.others, a c = false)
    (hfirst : ∀ d ∈ c :: w, m.first d = false) : m.apart (c :: w) = true := by
  rw [apart, Bool.and_eq_true]
  exact ⟨allTails_of_forall fun a ha p => clashes_of_head (hothers a ha) p w,
    allTails_of_forall fun d hd v => clashes_of_head (hfirst d hd) m.others v⟩

theorem absent_of_apart {w : Text} (h : m.apart w = true) : m.Absent w := by
  rintro u v rfl ⟨remaining, hafter, -⟩
  cases v with
  | nil => cases hafter
  | cons c v =>
    have hclash := of_allTails (Bool.and_eq_true_iff.1 h).2 (List.cons_ne_nil c v)
    have hnone := after?_of_clashes hclash []
    rw [List.append_nil, hafter] at hnone
    cases hnone

/-- Replacing `old` by `new` brings no mark along and moves no word boundary. -/
structure Spares (m : Mark) (old new : Text) : Prop where
  apart : m.apart new = true
  old_ne : old ≠ []
  new_ne : new ≠ []
  head : Text.isWordAt new.head? = Text.isWordAt old.head?
  last : Text.isWordAt new.getLast? = Text.isWordAt old.getLast?

theorem head?_append {w : Text} (hw : w ≠ []) (t : Text) : (w ++ t).head? = w.head? := by
  cases w with
  | nil => exact absurd rfl hw
  | cons c w => rfl

theorem head?_reverse_append {w : Text} (hw : w ≠ []) (before : Text) :
    (w.reverse ++ before).head? = w.getLast? := by
  rw [head?_append (by simpa using hw), List.head?_reverse]

theorem Spares.swap {before before' t t' old new : Text} (h : m.Spares old new)
    (behind : m.Edited (old.reverse ++ before) (new.reverse ++ before') t t') :
    m.Edited before before' (old ++ t) (new ++ t') := by
  obtain ⟨hinto, hwithin⟩ := Bool.and_eq_true_iff.1 h.apart
  refine .swap old new ?_ ?_ behind
  · rintro u v rfl hv ⟨remaining, hafter, -⟩
    rw [after?_of_clashes (of_allTails hwithin hv)] at hafter
    cases hafter
  · intro q p hshape hq hends
    refine ⟨fun hp => ?_, fun _ _ => ?_⟩
    · cases q with
      | nil => exact absurd rfl hq
      | cons a q =>
        rw [shape, List.cons_append, List.cons.injEq] at hshape
        rw [hshape.2] at hinto
        have hclash := of_allTails hinto hp
        exact after?_of_clashes hclash t'
    · rw [head?_append h.new_ne, head?_append h.old_ne, h.head]

/-! ## Applying a rule -/

/-- Every edit of the rule replaces a text that is related to what is written. -/
def Replaces (rule : Rule) (related : Text → Text → Prop) : Prop :=
  ∀ before rest edit, rule before rest = some edit →
    ∃ old behind, rest = old ++ behind ∧ edit.width = old.length ∧ related old edit.text

theorem Replaces.fits {rule : Rule} (h : Replaces rule m.Spares) : rule.Fits := by
  intro before rest edit hr
  obtain ⟨old, behind, hrest, hwidth, hspares⟩ := h before rest edit hr
  exact ⟨old, behind, hrest, hspares.old_ne, hwidth⟩

/-- Edits that spare the mark bring none along, where none is at the characters that are kept. -/
theorem edited_applyFrom {rule : Rule} (hrule : Replaces rule m.Spares) {before before' t : Text}
    (hword : Text.isWordAt before.head? = Text.isWordAt before'.head?)
    (hkeep : ∀ u c v, t = u ++ c :: v → rule (u.reverse ++ before) (c :: v) = none →
      ¬ m.FoundAt (u.reverse ++ before) (c :: v)) :
    m.Edited before before' t (rule.applyFrom 0 before t) := by
  refine hrule.fits.applyFrom_induction (motive := fun before t t' => ∀ before',
    Text.isWordAt before.head? = Text.isWordAt before'.head? →
    (∀ u c v, t = u ++ c :: v → rule (u.reverse ++ before) (c :: v) = none →
      ¬ m.FoundAt (u.reverse ++ before) (c :: v)) → m.Edited before before' t t')
    ?_ ?_ ?_ before t before' hword hkeep
  · exact fun before before' _ _ => .done before before'
  · intro before c t t' hnone ih before' hword hkeep
    refine .keep c (hkeep [] c t rfl hnone) (fun _ _ => hword) (ih _ rfl fun u d v huv hd => ?_)
    have hfound := hkeep (c :: u) d v (by rw [huv, List.cons_append])
    rw [List.reverse_cons, List.append_assoc, List.singleton_append] at hfound
    exact hfound hd
  · intro before found written t t' hedit hne ih before' hword hkeep
    obtain ⟨old, behind, hrest, hwidth, hspares⟩ := hrule before (found ++ t) _ hedit
    obtain ⟨rfl, rfl⟩ := List.append_inj hrest hwidth
    refine hspares.swap (ih _ ?_ fun u d v huv hd => ?_)
    · rw [head?_reverse_append hspares.old_ne, head?_reverse_append hspares.new_ne, hspares.last]
    · have hfound := hkeep (found ++ u) d v (by rw [huv, List.append_assoc])
      rw [List.reverse_append, List.append_assoc] at hfound
      exact hfound hd

/-- A rule keeps a mark out of a text. -/
theorem Absent.apply {rule : Rule} (hrule : Replaces rule m.Spares) {t : Text} (h : m.Absent t) :
    m.Absent (rule.apply t) :=
  (edited_applyFrom hrule rfl fun u c v huv _ => h u (c :: v) huv).absent

/-- A rule that acts wherever the mark is removes it. -/
theorem absent_apply {rule : Rule} (hrule : Replaces rule m.Spares)
    (hacts : ∀ before rest, rule before rest = none → ¬ m.FoundAt before rest) (t : Text) :
    m.Absent (rule.apply t) :=
  (edited_applyFrom hrule rfl fun _ _ _ _ hnone => hacts _ _ hnone).absent

/-- Rules applied in turn keep a mark out of a text, or remove it if one of them acts wherever the
mark is. -/
theorem absent_foldl {rules : List Rule} (hrules : ∀ rule ∈ rules, Replaces rule m.Spares)
    {t : Text} (h : m.Absent t ∨ ∃ rule ∈ rules, ∀ before rest, rule before rest = none →
      ¬ m.FoundAt before rest) : m.Absent (rules.foldl (fun t rule => rule.apply t) t) := by
  induction rules generalizing t with
  | nil =>
    rcases h with h | ⟨rule, hrule, -⟩
    · exact h
    · cases hrule
  | cons rule rules ih =>
    rw [List.forall_mem_cons] at hrules
    refine ih hrules.2 ?_
    rcases h with h | ⟨other, hother, hacts⟩
    · exact Or.inl (h.apply hrules.1)
    · rcases List.mem_cons.1 hother with rfl | hother
      · exact Or.inl (absent_apply hrules.1 hacts t)
      · exact Or.inr ⟨other, hother, hacts⟩

/-! ## Separators -/

/-- No mark goes over the character, and it ends every word. -/
def Parts (m : Mark) (c : Char) : Prop := (∀ a ∈ m.shape, a c = false) ∧ Text.isWord c = false

theorem isWordAt_separator {m : Mark} {c : Char} (hc : m.Parts c) (v b : Text) :
    Text.isWordAt (v ++ c :: b).head? = Text.isWordAt v.head? := by
  cases v with
  | nil => exact hc.2
  | cons d v => rfl

theorem foundAt_congr {before before' : Text}
    (h : Text.isWordAt before.head? = Text.isWordAt before'.head?) (v : Text) :
    m.FoundAt before v ↔ m.FoundAt before' v := by
  unfold FoundAt
  rw [h]

/-- What is behind a separator does not matter for a mark in front of it. -/
theorem foundAt_separator {c : Char} (hc : m.Parts c) (before v b : Text) :
    m.FoundAt before (v ++ c :: b) ↔ m.FoundAt before v := by
  unfold FoundAt
  rw [after?_separator hc.1]
  cases after? m.shape v with
  | none => simp
  | some remaining =>
    simp only [Option.map_some, Option.some.injEq, exists_eq_left', isWordAt_separator hc]

theorem foundAt_behind {c : Char} (hc : m.Parts c) (a u v : Text) :
    m.FoundAt ((a ++ c :: u).reverse ++ []) v ↔ m.FoundAt (u.reverse ++ []) v := by
  refine foundAt_congr ?_ v
  rw [List.append_nil, List.append_nil, List.reverse_append, List.reverse_cons, List.append_assoc,
    List.singleton_append, isWordAt_separator hc]

theorem not_foundAt_separator {c : Char} (hc : m.Parts c) (before t : Text) :
    ¬ m.FoundAt before (c :: t) := by
  rintro ⟨remaining, hafter, -⟩
  rw [shape, after?, hc.1 m.first List.mem_cons_self] at hafter
  cases hafter

/-- A separator parts the places where a mark is. -/
theorem absent_separator {c : Char} (hc : m.Parts c) (a b : Text) :
    m.Absent (a ++ c :: b) ↔ m.Absent a ∧ m.Absent b := by
  constructor
  · intro h
    refine ⟨fun u v huv => ?_, fun u v huv => ?_⟩
    · have hfound := h u (v ++ c :: b) (by rw [huv, List.append_assoc])
      rwa [foundAt_separator hc] at hfound
    · have hfound := h (a ++ c :: u) v (by rw [huv, List.append_assoc, List.cons_append])
      rwa [foundAt_behind hc] at hfound
  · rintro ⟨ha, hb⟩ u v huv
    rcases List.append_eq_append_iff.1 huv with ⟨w, rfl, hcons⟩ | ⟨w, rfl, rfl⟩
    · cases w with
      | nil =>
        rw [List.nil_append] at hcons
        subst hcons
        exact not_foundAt_separator hc _ _
      | cons d w =>
        rw [List.cons_append, List.cons.injEq] at hcons
        obtain ⟨rfl, rfl⟩ := hcons
        rw [foundAt_behind hc]
        exact hb w v rfl
    · rw [foundAt_separator hc]
      exact ha u w rfl

theorem absent_nil : m.Absent [] := by
  intro u v huv
  obtain ⟨rfl, rfl⟩ := List.append_eq_nil_iff.1 huv.symm
  exact not_foundAt_nil _

/-- A block that starts and ends with a separator has the marks that are inside it. -/
theorem absent_block {c : Char} (hc : m.Parts c) (inner : Text) :
    m.Absent (c :: (inner ++ [c])) ↔ m.Absent inner := by
  have hblock : c :: (inner ++ [c]) = [] ++ c :: (inner ++ c :: []) := rfl
  rw [hblock, absent_separator hc, absent_separator hc]
  exact ⟨fun h => h.2.1, fun h => ⟨absent_nil, h, absent_nil⟩⟩

/-- Where such a block is written, it brings no mark along but those inside it. -/
theorem not_foundAt_block {c : Char} (hc : m.Parts c) {inner : Text} (h : m.Absent inner)
    {u v : Text} (huv : c :: (inner ++ [c]) = u ++ v) (hv : v ≠ []) (before t : Text) :
    ¬ m.FoundAt (u.reverse ++ before) (v ++ t) := by
  rcases List.eq_nil_or_concat v with rfl | ⟨w, d, rfl⟩
  · exact absurd rfl hv
  · rw [List.concat_eq_append, ← List.append_assoc, ← List.cons_append] at huv
    obtain ⟨hfront, hlast⟩ := List.append_inj' huv rfl
    obtain rfl := List.singleton_inj.1 hlast
    rw [List.concat_eq_append, List.append_assoc, List.singleton_append, foundAt_separator hc]
    cases u with
    | nil =>
      rw [List.nil_append] at hfront
      subst hfront
      exact not_foundAt_separator hc _ _
    | cons d u =>
      rw [List.cons_append, List.cons.injEq] at hfront
      obtain ⟨rfl, rfl⟩ := hfront
      have hword : Text.isWordAt ((c :: u).reverse ++ before).head? =
          Text.isWordAt (u.reverse ++ []).head? := by
        rw [List.reverse_cons, List.append_assoc, List.singleton_append, isWordAt_separator hc,
          List.append_nil]
      rw [foundAt_congr hword]
      exact h u w rfl

end

end Mark

end Playbook
