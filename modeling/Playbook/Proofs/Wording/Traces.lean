import Playbook.Proofs.Text.Marks
import Playbook.Proofs.Wording.Passes
import Playbook.Reference

/-!
# Traces of the other assistant

What names the other assistant in a text is found by the rules for its names, or is a path below
its directory. When references are localized and the wording is led over to the host, no trace is
left: each pass removes some, and none of the later passes brings one along.

Results:
* `traceless_iff`: a text has no trace if certain marks are absent.
* `absent_strikeModels`: striking blocks joins no two parts of a path.
* `traceless_forHost`: a localized text led over to the host has no trace.
-/
namespace Playbook

/-- The mark for a text, where `same` says which characters count as those of the text. -/
def Mark.ofText (same : Char → Char → Bool) (a : Char) (t : Text) (whole : Bool) : Mark :=
  ⟨same a, t.map same, whole⟩

namespace Wording

/-! ## Marks of the assistant -/

def sameChar (a c : Char) : Bool := a = c

/-- Whether `c` is the letter `a`, which is in lower case, in any case. -/
def sameLetter (a c : Char) : Bool := a = c.toLower

/-- The names of the assistant's programs. -/
def productMarks : List Mark :=
  [.ofText sameLetter 'c' "laude code" true, .ofText sameLetter 'c' "laude.ai" true]

/-- The name of the assistant, as it is written otherwise. -/
def titleMark : Mark := .ofText sameChar 'C' "laude" true

def upperMark : Mark := .ofText sameChar 'C' "LAUDE" true

/-- The beginning of a path below the assistant's directory. -/
def pathMark : Mark := .ofText sameChar '~' "/.claude/" false

def marks : List Mark := productMarks ++ [titleMark, upperMark, pathMark]

theorem mem_marks {m : Mark} (h : m ∈ marks) :
    m ∈ productMarks ∨ m = titleMark ∨ m = upperMark ∨ m = pathMark := by
  simpa only [marks, List.mem_append, List.mem_cons, List.not_mem_nil, or_false] using h

theorem eq_pathMark {m : Mark} (hm : m ∈ marks) (hwhole : m.whole = false) : m = pathMark := by
  have hproducts : ∀ m ∈ productMarks, m.whole = true := by decide
  rcases mem_marks hm with hproduct | rfl | rfl | rfl
  · rw [hproducts m hproduct] at hwhole
    cases hwhole
  · cases hwhole
  · cases hwhole
  · rfl

theorem after?_sameChar (lead t : Text) :
    Mark.after? (lead.map sameChar) t = Text.after? lead t := by
  induction lead generalizing t with
  | nil => rfl
  | cons a lead ih =>
    cases t with
    | nil => rfl
    | cons c t =>
      rw [List.map_cons, Mark.after?, Text.after?_cons, ih]
      simp [sameChar]

theorem foundAt_ofText {a : Char} {w before rest : Text} :
    ¬ (Mark.ofText sameChar a w false).FoundAt before rest ↔ Text.after? (a :: w) rest = none := by
  have hafter : Mark.after? (Mark.ofText sameChar a w false).shape rest =
      Text.after? (a :: w) rest := after?_sameChar (a :: w) rest
  unfold Mark.FoundAt
  rw [hafter, Option.eq_none_iff_forall_ne_some]
  constructor
  · intro h remaining hremaining
    exact h ⟨remaining, hremaining, fun hwhole => by cases hwhole⟩
  · rintro h ⟨remaining, hremaining, -⟩
    exact h remaining hremaining

theorem after?_sameLetter (lead t : Text) :
    Mark.after? (lead.map sameLetter) t = afterAnyCase? lead t := by
  induction lead generalizing t with
  | nil => rfl
  | cons a lead ih =>
    cases t with
    | nil => rfl
    | cons c t =>
      rw [List.map_cons, Mark.after?, afterAnyCase?, ih]
      simp [sameLetter]

/-- A name between word boundaries is one that would be replaced. -/
theorem wordEdit_eq_none {before remaining : Text} {width : Nat} {written : Text} :
    wordEdit before remaining width written = none ↔
      ¬ (Text.isWordAt before.head? = false ∧ Text.isWordAt remaining.head? = false) := by
  unfold wordEdit
  cases Text.isWordAt before.head? <;> cases Text.isWordAt remaining.head? <;> simp

theorem foundAt_iff {m : Mark} (hm : m.whole = true) {before rest : Text} {width : Nat}
    {written : Text} : ((Mark.after? m.shape rest).bind fun remaining =>
      wordEdit before remaining width written) = none ↔ ¬ m.FoundAt before rest := by
  rw [Option.bind_eq_none_iff]
  constructor
  · rintro h ⟨remaining, hafter, hwords⟩
    exact wordEdit_eq_none.1 (h remaining hafter) (hwords hm)
  · intro h remaining hafter
    exact wordEdit_eq_none.2 fun hwords => h ⟨remaining, hafter, fun _ => hwords⟩

theorem wordRule_eq_none {a : Char} {t written before rest : Text} :
    wordRule (a :: t) written before rest = none ↔
      ¬ (Mark.ofText sameChar a t true).FoundAt before rest := by
  rw [wordRule, ← after?_sameChar]
  exact foundAt_iff (m := Mark.ofText sameChar a t true) rfl

theorem productRule_eq_none {before rest : Text} :
    productRule before rest = none ↔ ∀ m ∈ productMarks, ¬ m.FoundAt before rest := by
  unfold productRule
  rw [List.findSome?_eq_none_iff]
  simp only [products, productMarks, List.forall_mem_cons, List.not_mem_nil, false_implies,
    implies_true, and_true, ← after?_sameLetter]
  exact and_congr (foundAt_iff (m := Mark.ofText sameLetter 'c' "laude code" true) rfl)
    (foundAt_iff (m := Mark.ofText sameLetter 'c' "laude.ai" true) rfl)

theorem isAsciiWord_of_toLower {c : Char} (h : Text.isAsciiWord c.toLower = true) :
    Text.isAsciiWord c = true := by
  unfold Char.toLower at h
  split at h
  · rename_i hupper
    have hA : 'A' ≤ c := hupper.1
    have hZ : c ≤ 'Z' := hupper.2
    simp [Text.isAsciiWord, hA, hZ]
  · exact h

theorem isAsciiWord_of_ends {m : Mark} (hm : m ∈ marks) (hwhole : m.whole = true) {before : Text}
    (h : Mark.Ends m.shape before) : before.head?.any Text.isAsciiWord = true := by
  have hchar {a : Char} (ha : Text.isAsciiWord a = true) (c : Char) (hc : sameChar a c = true) :
      Text.isAsciiWord c = true := by
    obtain rfl := of_decide_eq_true hc
    exact ha
  have hletter {a : Char} (ha : Text.isAsciiWord a = true) (c : Char)
      (hc : sameLetter a c = true) : Text.isAsciiWord c = true := by
    rw [of_decide_eq_true hc] at ha
    exact isAsciiWord_of_toLower ha
  have hlast : ∃ q a, m.shape = q ++ [a] ∧ ∀ c, a c = true → Text.isAsciiWord c = true := by
    simp only [marks, productMarks, List.cons_append, List.nil_append, List.mem_cons,
      List.not_mem_nil, or_false] at hm
    rcases hm with rfl | rfl | rfl | rfl | rfl
    · exact ⟨("claude cod" : Text).map sameLetter, sameLetter 'e', rfl, hletter (by decide)⟩
    · exact ⟨("claude.a" : Text).map sameLetter, sameLetter 'i', rfl, hletter (by decide)⟩
    · exact ⟨("Claud" : Text).map sameChar, sameChar 'e', rfl, hchar (by decide)⟩
    · exact ⟨("CLAUD" : Text).map sameChar, sameChar 'E', rfl, hchar (by decide)⟩
    · cases hwhole
  obtain ⟨q, a, hshape, ha⟩ := hlast
  rw [hshape] at h
  obtain ⟨c, rest, rfl, hc, -⟩ := h.of_concat
  exact ha c hc

/-! ## Names -/

/-- What is written for the host in place of a name. -/
def hostTexts : List Text := [Host.name, Host.rulesFile, Host.nameUpper]

/-- The text starts and ends with a word character. -/
structure WordEnds (t : Text) : Prop where
  ne_nil : t ≠ []
  head : Text.isWordAt t.head? = true
  last : Text.isWordAt t.getLast? = true

theorem wordEnds_of_mem {t : Text} (h : t ∈ hostTexts) : WordEnds t := by
  simp only [hostTexts, List.mem_cons, List.not_mem_nil, or_false] at h
  rcases h with rfl | rfl | rfl
  all_goals exact ⟨by decide, by decide, by decide⟩

theorem isWordAt_of_toLower {c : Option Char}
    (h : (c.map Char.toLower).any Text.isAsciiWord = true) : Text.isWordAt c = true := by
  cases c with
  | none => cases h
  | some c =>
    have hc : Text.isAsciiWord c = true := isAsciiWord_of_toLower h
    rw [Text.isWordAt, Option.any_some, Text.isWord, hc, Bool.true_or]

theorem wordEnds_of_product {w : Text} (h : w.map Char.toLower ∈ products) : WordEnds w := by
  have hends : ∀ product ∈ products, product ≠ [] ∧
      product.head?.any Text.isAsciiWord = true ∧
      product.getLast?.any Text.isAsciiWord = true := by decide
  obtain ⟨hne, hhead, hlast⟩ := hends _ h
  rw [List.head?_map] at hhead
  rw [List.getLast?_map] at hlast
  exact ⟨fun hw => hne (by rw [hw, List.map_nil]), isWordAt_of_toLower hhead,
    isWordAt_of_toLower hlast⟩

theorem apart_of_mem : ∀ m ∈ marks, ∀ t ∈ hostTexts, m.apart t = true := by
  decide

theorem spares_hostText {m : Mark} (hm : ∀ t ∈ hostTexts, m.apart t = true) {old new : Text}
    (hold : WordEnds old) (hnew : new ∈ hostTexts) : m.Spares old new where
  apart := hm new hnew
  old_ne := hold.ne_nil
  new_ne := (wordEnds_of_mem hnew).ne_nil
  head := by rw [(wordEnds_of_mem hnew).head, hold.head]
  last := by rw [(wordEnds_of_mem hnew).last, hold.last]

theorem afterAnyCase?_eq_some {lead t rest : Text} (h : afterAnyCase? lead t = some rest) :
    ∃ w, t = w ++ rest ∧ w.map Char.toLower = lead := by
  induction lead generalizing t with
  | nil =>
    cases h
    exact ⟨[], rfl, rfl⟩
  | cons a lead ih =>
    cases t with
    | nil => cases h
    | cons c t =>
      rw [afterAnyCase?] at h
      split at h
      · rename_i hc
        obtain ⟨w, rfl, hw⟩ := ih h
        exact ⟨c :: w, rfl, by rw [List.map_cons, hw, hc]⟩
      · cases h

theorem replaces_wordRule {found written : Text} (hfound : WordEnds found)
    (hwritten : written ∈ hostTexts) :
    Mark.Replaces (wordRule found written) fun old new => WordEnds old ∧ new ∈ hostTexts := by
  intro before rest edit h
  obtain ⟨remaining, hafter, hedit⟩ := Option.bind_eq_some_iff.1 h
  unfold wordEdit at hedit
  split at hedit
  · cases hedit
  · cases hedit
    exact ⟨found, remaining, Text.after?_eq_some.1 hafter, rfl, hfound, hwritten⟩

theorem replaces_productRule :
    Mark.Replaces productRule fun old new => WordEnds old ∧ new ∈ hostTexts := by
  intro before rest edit h
  obtain ⟨product, hproduct, h⟩ := List.exists_of_findSome?_eq_some h
  obtain ⟨remaining, hafter, hedit⟩ := Option.bind_eq_some_iff.1 h
  obtain ⟨w, rfl, hw⟩ := afterAnyCase?_eq_some hafter
  unfold wordEdit at hedit
  split at hedit
  · cases hedit
  · cases hedit
    refine ⟨w, remaining, rfl, ?_, wordEnds_of_product ?_, List.mem_cons_self⟩
    · rw [← hw, List.length_map]
    · rw [hw]
      exact hproduct

/-- The names of the assistant and of its rules file, as they are written. -/
def assistantNames : List Text := ["Claude", "CLAUDE.md", "CLAUDE"]

theorem wordEnds_of_assistant {w : Text} (h : w ∈ assistantNames) : WordEnds w := by
  simp only [assistantNames, List.mem_cons, List.not_mem_nil, or_false] at h
  rcases h with rfl | rfl | rfl
  all_goals exact ⟨by decide, by decide, by decide⟩

theorem eq_of_mem_nameRules {rule : Rule} (h : rule ∈ nameRules) : rule = productRule ∨
    ∃ w ∈ assistantNames, ∃ written ∈ hostTexts, rule = wordRule w written := by
  simp only [nameRules, List.mem_cons, List.not_mem_nil, or_false] at h
  rcases h with rfl | rfl | rfl | rfl
  · exact Or.inl rfl
  · exact Or.inr ⟨"Claude", by decide, Host.name, by decide, rfl⟩
  · exact Or.inr ⟨"CLAUDE.md", by decide, Host.rulesFile, by decide, rfl⟩
  · exact Or.inr ⟨"CLAUDE", by decide, Host.nameUpper, by decide, rfl⟩

theorem exists_nameRule {w : Text} (h : w ∈ assistantNames) :
    ∃ written, wordRule w written ∈ nameRules := by
  simp only [assistantNames, List.mem_cons, List.not_mem_nil, or_false] at h
  rcases h with rfl | rfl | rfl
  · exact ⟨Host.name, by simp [nameRules]⟩
  · exact ⟨Host.rulesFile, by simp [nameRules]⟩
  · exact ⟨Host.nameUpper, by simp [nameRules]⟩

theorem replaces_nameRule {rule : Rule} (h : rule ∈ nameRules) {m : Mark}
    (hm : ∀ t ∈ hostTexts, m.apart t = true) : Mark.Replaces rule m.Spares := by
  have hends : Mark.Replaces rule fun old new => WordEnds old ∧ new ∈ hostTexts := by
    rcases eq_of_mem_nameRules h with rfl | ⟨w, hw, written, hwritten, rfl⟩
    · exact replaces_productRule
    · exact replaces_wordRule (wordEnds_of_assistant hw) hwritten
  intro before rest edit hr
  obtain ⟨old, behind, hrest, hwidth, hold, hnew⟩ := hends before rest edit hr
  exact ⟨old, behind, hrest, hwidth, spares_hostText hm hold hnew⟩

/-- Renaming removes every name of the assistant and brings no mark along. -/
theorem absent_rename {m : Mark} (hm : m ∈ marks) {t : Text} (h : m = pathMark → m.Absent t) :
    m.Absent (rename t) := by
  refine Mark.absent_foldl (fun rule hrule => replaces_nameRule hrule (apart_of_mem m hm)) ?_
  rcases mem_marks hm with hproduct | rfl | rfl | rfl
  · exact Or.inr ⟨productRule, by simp [nameRules],
      fun _ _ hnone => productRule_eq_none.1 hnone m hproduct⟩
  · exact Or.inr ⟨wordRule "Claude" Host.name, by simp [nameRules],
      fun _ _ hnone => wordRule_eq_none.1 hnone⟩
  · exact Or.inr ⟨wordRule "CLAUDE" Host.nameUpper, by simp [nameRules],
      fun _ _ hnone => wordRule_eq_none.1 hnone⟩
  · exact Or.inl (h rfl)

/-! ## Blocks to strike -/

section
variable {block : Block} (hblock : block.Sound)
include hblock

/-- A mark that may stand in a word and does not run into a heading comes with no struck block. -/
theorem edited_strikeFrom {m : Mark} (hwhole : m.whole = false)
    (hinto : Mark.allTails (Mark.clashes · anyHeading) m.others = true) {skip : Nat}
    {inBlock : Bool} (hskip : skip ≠ 0 → inBlock = true) {before before' t : Text}
    (hkeep : ∀ u c v, t = u ++ c :: v → block.start (c :: v) = none →
      ¬ m.FoundAt (u.reverse ++ before) (c :: v)) :
    m.Edited before before' t (strikeFrom block.start block.stop skip inBlock t) := by
  -- what is struck comes right before the next heading, and no mark runs into one
  have hstrike (width : Nat) (c : Char) {before before' t : Text} (behind : m.Edited (c :: before)
      before' t (strikeFrom block.start block.stop width true t)) :
      m.Edited before before' (c :: t) (strikeFrom block.start block.stop width true t) := by
    refine .swap [c] [] ?_ ?_ behind
    · intro u v huv hv
      exact absurd (List.append_eq_nil_iff.1 huv.symm).2 hv
    · intro q p hshape hq _
      refine ⟨fun hp => ?_, fun _ hw => by rw [hwhole] at hw; cases hw⟩
      obtain ⟨a, q, rfl⟩ := List.exists_cons_of_ne_nil hq
      have hothers : m.others = q ++ p := (List.cons.inj hshape).2
      rw [hothers] at hinto
      rw [List.nil_append]
      rcases strikeFrom_open hblock width t with hnil | ⟨rest, hrest⟩
      · obtain ⟨b, p, rfl⟩ := List.exists_cons_of_ne_nil hp
        rw [hnil, Mark.after?]
      · rw [hrest]
        have hclash := Mark.of_allTails (f := fun p => Mark.clashes p anyHeading) hinto hp
        exact Mark.after?_of_clashes hclash rest
  have htail {before t : Text} {c : Char} (hkeep : ∀ u d v, c :: t = u ++ d :: v →
      block.start (d :: v) = none → ¬ m.FoundAt (u.reverse ++ before) (d :: v)) :
      ∀ u d v, t = u ++ d :: v → block.start (d :: v) = none →
        ¬ m.FoundAt (u.reverse ++ (c :: before)) (d :: v) := by
    intro u d v huv hnone
    have hfound := hkeep (c :: u) d v (by rw [huv, List.cons_append]) hnone
    rwa [List.reverse_cons, List.append_assoc, List.singleton_append] at hfound
  induction t generalizing skip inBlock before before' with
  | nil =>
    rw [strikeFrom]
    exact .done before before'
  | cons c t ih =>
    cases skip with
    | succ skip =>
      obtain rfl := hskip (Nat.succ_ne_zero skip)
      exact hstrike skip c (ih (fun _ => rfl) (htail hkeep))
    | zero =>
      rw [strikeFrom]
      split
      · exact hstrike 0 c (ih (fun _ => rfl) (htail hkeep))
      · split
        · exact hstrike _ c (ih (fun _ => rfl) (htail hkeep))
        · rename_i hnone
          refine .keep c (hkeep [] c t rfl hnone) (fun hw => by rw [hwhole] at hw; cases hw) ?_
          exact ih (fun h => absurd rfl h) (htail hkeep)

/-- Striking blocks keeps such a mark out of a text, or removes it if it is where they start. -/
theorem absent_strike {m : Mark} (hwhole : m.whole = false)
    (hinto : Mark.allTails (Mark.clashes · anyHeading) m.others = true) {t : Text}
    (h : m.Absent t ∨ ∀ before rest, block.start rest = none → ¬ m.FoundAt before rest) :
    m.Absent (block.strike t) := by
  have hedited : m.Edited [] [] t (block.strike t) := by
    refine edited_strikeFrom hblock hwhole hinto (fun hne => absurd rfl hne) ?_
    intro u c v huv hnone
    rcases h with h | h
    · exact h u (c :: v) huv
    · exact h _ _ hnone
  exact hedited.absent

end

/-- Blocks struck in turn keep such a mark out of a text, or remove it if it is where one of them
starts. -/
theorem absent_strikeModels {m : Mark} (hwhole : m.whole = false)
    (hinto : Mark.allTails (Mark.clashes · anyHeading) m.others = true) {t : Text}
    (h : m.Absent t ∨ ∃ block ∈ modelBlocks, ∀ before rest, block.start rest = none →
      ¬ m.FoundAt before rest) : m.Absent (strikeModels t) := by
  have hfold (blocks : List Block) (hsound : ∀ block ∈ blocks, block.Sound) (t : Text)
      (h : m.Absent t ∨ ∃ block ∈ blocks, ∀ before rest, block.start rest = none →
        ¬ m.FoundAt before rest) :
      m.Absent (blocks.foldl (fun t block => block.strike t) t) := by
    induction blocks generalizing t with
    | nil =>
      rcases h with h | ⟨block, hblock, -⟩
      · exact h
      · cases hblock
    | cons block blocks ih =>
      obtain ⟨hblock, hothers⟩ := List.forall_mem_cons.1 hsound
      refine ih hothers _ ?_
      rcases h with h | ⟨other, hother, hstarts⟩
      · exact Or.inl (absent_strike hblock hwhole hinto (Or.inl h))
      · rcases List.mem_cons.1 hother with rfl | hother
        · exact Or.inl (absent_strike hblock hwhole hinto (Or.inr hstarts))
        · exact Or.inr ⟨other, hother, hstarts⟩
  exact hfold modelBlocks (fun _ => sound_of_mem) t h

/-! ## The host's text -/

theorem apart_notice_of_mem : ∀ m ∈ marks, m.apart (processTag ++ notice) = true := by
  decide +kernel

theorem spares_notice {m : Mark} (hm : m.apart (processTag ++ notice) = true) :
    m.Spares processTag (processTag ++ notice) where
  apart := hm
  old_ne := by decide
  new_ne := by decide +kernel
  head := by decide +kernel
  last := by decide +kernel

theorem replaces_replacing {m : Mark} {found written : Text} (h : m.Spares found written) :
    Mark.Replaces (.replacing found written) m.Spares := by
  intro before rest edit hedit
  obtain ⟨rfl, behind, hrest⟩ := Rule.replacing_eq_some.1 hedit
  exact ⟨found, behind, hrest, rfl, h⟩

theorem absent_addNotice {m : Mark} (hm : m.apart (processTag ++ notice) = true) {t : Text}
    (h : m.Absent t) : m.Absent (addNotice t) := by
  unfold addNotice
  split
  · exact h
  · exact h.apply (replaces_replacing (spares_notice hm))

/-- The last rule for references leaves no path below the assistant's directory. -/
theorem absent_localize (t : Text) : pathMark.Absent (Reference.localize t) := by
  have hspares : pathMark.Spares Reference.installRoot Reference.resourceTarget :=
    ⟨by decide, by decide, by decide, by decide, by decide⟩
  refine Mark.absent_apply (replaces_replacing hspares) (fun before rest hnone => ?_) _
  exact foundAt_ofText.2 (Rule.replacing_eq_none.1 hnone)

theorem absent_forHost {m : Mark} (hm : m ∈ marks) (t : Text) :
    m.Absent (forHost (Reference.localize t)) := by
  refine absent_addNotice (apart_notice_of_mem m hm) (absent_rename hm ?_)
  rintro rfl
  exact absent_strikeModels rfl (by decide) (Or.inl (absent_localize t))

/-! ## Traces -/

/-- No rule for names finds the assistant in the text, and it has no path below the assistant's
directory. -/
def Traceless (t : Text) : Prop :=
  (∀ rule ∈ nameRules, ∀ u v, t = u ++ v → rule u.reverse v = none) ∧
    Text.occursIn Reference.installRoot t = false

/-- Where the rules file is named, the assistant is. -/
theorem rulesFile_eq_none {written before rest : Text}
    (h : ¬ upperMark.FoundAt before rest) : wordRule "CLAUDE.md" written before rest = none := by
  rw [wordRule, Option.bind_eq_none_iff]
  intro remaining hafter
  refine wordEdit_eq_none.2 fun hwords => h ⟨".md" ++ remaining, ?_, fun _ => ⟨hwords.1, rfl⟩⟩
  have hrest : rest = "CLAUDE" ++ (".md" ++ remaining) :=
    (Text.after?_eq_some.1 hafter).trans (List.append_assoc "CLAUDE" ".md" remaining)
  rw [hrest]
  exact (after?_sameChar "CLAUDE" _).trans (Text.after?_eq_some.2 rfl)

theorem absent_iff {m : Mark} {t : Text} :
    m.Absent t ↔ ∀ u v, t = u ++ v → ¬ m.FoundAt u.reverse v := by
  unfold Mark.Absent Mark.AbsentFrom
  simp only [List.append_nil]

theorem absent_ofText {a : Char} {w t : Text} :
    (Mark.ofText sameChar a w false).Absent t ↔ Text.occursIn (a :: w) t = false := by
  rw [Text.occursIn_eq_false, absent_iff]
  exact forall₂_congr fun u v => imp_congr_right fun _ => foundAt_ofText

theorem absent_word {a : Char} {name written t : Text} :
    (Mark.ofText sameChar a name true).Absent t ↔
      ∀ u v, t = u ++ v → wordRule (a :: name) written u.reverse v = none := by
  rw [absent_iff]
  exact forall₂_congr fun u v => imp_congr_right fun _ => wordRule_eq_none.symm

theorem inert_of_absent {t : Text} (h : ∀ m ∈ marks, m ≠ pathMark → m.Absent t) :
    ∀ rule ∈ nameRules, ∀ u v, t = u ++ v → rule u.reverse v = none := by
  have hname {m : Mark} (hm : m ∈ marks) (hwhole : m.whole = true) : m.Absent t := by
    refine h m hm ?_
    rintro rfl
    cases hwhole
  have hupper : upperMark.Absent t := hname (by simp [marks]) rfl
  intro rule hrule
  simp only [nameRules, List.mem_cons, List.not_mem_nil, or_false] at hrule
  rcases hrule with rfl | rfl | rfl | rfl
  · have hproducts : ∀ m ∈ productMarks, m.whole = true := by decide
    exact fun u v huv => productRule_eq_none.2 fun m hm =>
      absent_iff.1 (hname (List.mem_append_left _ hm) (hproducts m hm)) u v huv
  · exact absent_word.1 (hname (m := titleMark) (by simp [marks]) rfl)
  · exact fun u v huv => rulesFile_eq_none (absent_iff.1 hupper u v huv)
  · exact absent_word.1 hupper

/-- A text has no trace exactly if none of the marks is in it. -/
theorem traceless_iff {t : Text} : Traceless t ↔ ∀ m ∈ marks, m.Absent t := by
  constructor
  · rintro ⟨hrules, hroot⟩ m hm
    rcases mem_marks hm with hproduct | rfl | rfl | rfl
    · rw [absent_iff]
      exact fun u v huv => productRule_eq_none.1 (hrules productRule (by simp [nameRules]) u v huv)
        m hproduct
    · exact absent_word.2 (hrules (wordRule "Claude" Host.name) (by simp [nameRules]))
    · exact absent_word.2 (hrules (wordRule "CLAUDE" Host.nameUpper) (by simp [nameRules]))
    · exact absent_ofText.2 hroot
  · exact fun h =>
      ⟨inert_of_absent fun m hm _ => h m hm, absent_ofText.1 (h pathMark (by simp [marks]))⟩

/-- A localized text that is led over to the host has no trace of the other assistant. -/
theorem traceless_forHost (t : Text) : Traceless (forHost (Reference.localize t)) :=
  traceless_iff.2 fun _ hm => absent_forHost hm t

end Wording

end Playbook
