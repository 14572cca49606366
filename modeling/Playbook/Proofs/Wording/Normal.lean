import Playbook.Proofs.Wording.Traces

/-!
# Normal texts

A text is normal if it has nothing that leading it over to the host would strike, rename or add.
Leading a text over takes eight passes, one after the other. A cut joins two parts of the text and
a new name changes what stands next to a word, but no pass brings back what an earlier one removed,
so one round of them makes every text normal.

Results:
* `named_iff`, `named_product_iff`: the rules for names act on the names between word boundaries.
* `lacks_forHost`: what starts a block is not in a text that is led over.
* `normal_forHost`: a text that is led over is normal.
* `forHost_of_normal`: a normal text stays as it is.
* `forHost_eq_self_iff`: the texts that stay as they are are the normal ones.
* `forHost_settled`: one round is enough.
-/
namespace Playbook.Wording

/-! ## Normal texts -/

/-- Of the two characters where `u` and `v` meet, exactly one is a word character. -/
def WordEdge (u v : Text) : Prop := Text.isWordAt u.getLast? ≠ Text.isWordAt v.head?

/-- The text has `w` somewhere between word boundaries. -/
def Named (w t : Text) : Prop :=
  ∃ u v, t = u ++ (w ++ v) ∧ WordEdge u (w ++ v) ∧ WordEdge (u ++ w) v

/-- The heading of a step that chooses a model. -/
def stepHeading (digits : Text) : Text := anyHeading ++ (digits ++ (". " ++ modelTitle))

/-- No block that chooses a model starts in the text, nothing in it goes by a name of the other
assistant, and where it has a process, it also tells the directory to work in. -/
structure Normal (t : Text) : Prop where
  step : ∀ digits, digits ≠ [] → digits.all Text.isDigit = true →
    Text.occursIn (stepHeading digits) t = false
  heading : Text.occursIn (anyHeading ++ modelTitle) t = false
  table : Text.occursIn lookupTitle t = false
  product : ∀ w, w.map Char.toLower ∈ products → ¬ Named w t
  name : ∀ w ∈ assistantNames, ¬ Named w t
  directory : Text.occursIn processTag t = true → Text.occursIn Host.directoryMark t = true

/-! ## Names -/

/-- The rule acts nowhere in the text. -/
def Inert (rule : Rule) (t : Text) : Prop := ∀ u v, t = u ++ v → rule u.reverse v = none

/-- A text that starts and ends with a word character stands between word boundaries exactly if no
word character is next to it. -/
theorem WordEnds.wordEdge_iff {w : Text} (hw : WordEnds w) {u v : Text} :
    WordEdge u (w ++ v) ∧ WordEdge (u ++ w) v ↔
      Text.isWordAt u.getLast? = false ∧ Text.isWordAt v.head? = false := by
  have hhead : (w ++ v).head? = w.head? := Mark.head?_append hw.ne_nil v
  have hlast : (u ++ w).getLast? = w.getLast? := by
    rw [List.getLast?_append, Option.or_of_isSome]
    simpa using hw.ne_nil
  rw [WordEdge, WordEdge, hhead, hlast, hw.head, hw.last]
  exact and_congr (by simp) (by simp)

theorem wordEdit_behind {u v : Text} {width : Nat} {written : Text} :
    wordEdit u.reverse v width written = none ↔
      ¬ (Text.isWordAt u.getLast? = false ∧ Text.isWordAt v.head? = false) := by
  rw [wordEdit_eq_none, List.head?_reverse]

theorem named_iff {w : Text} (hw : WordEnds w) (written : Text) {t : Text} :
    ¬ Named w t ↔ Inert (wordRule w written) t := by
  constructor
  · intro h u rest ht
    rw [wordRule, Option.bind_eq_none_iff]
    intro v hafter
    rw [wordEdit_behind, ← hw.wordEdge_iff]
    exact fun hedges => h ⟨u, v, by rw [ht, Text.after?_eq_some.1 hafter], hedges⟩
  · rintro h ⟨u, v, ht, hedges⟩
    have hnone := h u (w ++ v) ht
    rw [wordRule, Text.after?_eq_some.2 rfl, Option.bind_some, wordEdit_behind] at hnone
    exact hnone (hw.wordEdge_iff.1 hedges)

theorem afterAnyCase?_append (w v : Text) :
    afterAnyCase? (w.map Char.toLower) (w ++ v) = some v := by
  induction w with
  | nil => rfl
  | cons c w ih => rw [List.map_cons, List.cons_append, afterAnyCase?, if_pos rfl, ih]

/-- The rule for programs acts where one of their names, in any case, stands between word
boundaries. -/
theorem named_product_iff {t : Text} :
    (∀ w, w.map Char.toLower ∈ products → ¬ Named w t) ↔ Inert productRule t := by
  constructor
  · intro h u rest ht
    rw [productRule, List.findSome?_eq_none_iff]
    intro product hproduct
    rw [Option.bind_eq_none_iff]
    intro v hafter
    obtain ⟨w, hrest, hw⟩ := afterAnyCase?_eq_some hafter
    rw [← hw] at hproduct
    rw [wordEdit_behind, ← (wordEnds_of_product hproduct).wordEdge_iff]
    exact fun hedges => h w hproduct ⟨u, v, by rw [ht, hrest], hedges⟩
  · rintro h w hproduct ⟨u, v, ht, hedges⟩
    have hnone := List.findSome?_eq_none_iff.1 (h u (w ++ v) ht) _ hproduct
    rw [afterAnyCase?_append, Option.bind_some, wordEdit_behind] at hnone
    exact hnone ((wordEnds_of_product hproduct).wordEdge_iff.1 hedges)

/-- No rule for names acts in a text that is led over to the host. -/
theorem inert_forHost (t : Text) : ∀ rule ∈ nameRules, Inert rule (forHost t) :=
  inert_of_absent fun m hm hpath =>
    absent_addNotice (apart_notice_of_mem m hm) (absent_rename hm fun h => absurd h hpath)

/-! ## What blocks start with -/

/-- A text that blocks start with, and that neither runs into a heading nor into what is written
for the host, is not in a text that is led over. -/
theorem lacks_forHost {a : Char} {w : Text}
    (hstart : ∃ block ∈ modelBlocks, ∀ rest, block.start rest = none →
      Text.after? (a :: w) rest = none)
    (hinto : Mark.allTails (Mark.clashes · anyHeading) (w.map sameChar) = true)
    (happart : ∀ t ∈ (processTag ++ notice) :: hostTexts,
      (Mark.ofText sameChar a w false).apart t = true) (t : Text) :
    Text.occursIn (a :: w) (forHost t) = false := by
  obtain ⟨hnotice, hhost⟩ := List.forall_mem_cons.1 happart
  obtain ⟨block, hblock, hnone⟩ := hstart
  refine absent_ofText.1 (absent_addNotice hnotice ?_)
  refine Mark.absent_foldl (fun rule hrule => replaces_nameRule hrule hhost) (Or.inl ?_)
  exact absent_strikeModels rfl hinto
    (Or.inr ⟨block, hblock, fun _ rest h => foundAt_ofText.2 (hnone rest h)⟩)

theorem lacks_literal {a : Char} {w : Text} {stop : Pattern}
    (hblock : ⟨literal (a :: w), stop⟩ ∈ modelBlocks)
    (hinto : Mark.allTails (Mark.clashes · anyHeading) (w.map sameChar) = true)
    (happart : ∀ t ∈ (processTag ++ notice) :: hostTexts,
      (Mark.ofText sameChar a w false).apart t = true) (t : Text) :
    Text.occursIn (a :: w) (forHost t) = false :=
  lacks_forHost ⟨_, hblock, fun _ => literal_eq_none.1⟩ hinto happart t

/-- What is written for the host has no mark of a heading, and does not begin as the rest of one
would go on. -/
theorem off_heading : ∀ t ∈ (processTag ++ notice) :: hostTexts, '#' ∉ t ∧
    t.head?.any (fun c => !Text.isDigit c && !("# " ++ (". " ++ modelTitle) : Text).contains c) =
      true := by
  decide +kernel

/-- The heading of a step that chooses a model is not in a text that is led over. -/
theorem lacks_stepHeading {digits : Text} (hne : digits ≠ [])
    (hall : digits.all Text.isDigit = true) (t : Text) :
    Text.occursIn (stepHeading digits) (forHost t) = false := by
  -- whatever the digits are, they are not what is neither a digit nor in the title
  have houtside {c : Char} (lead : Text)
      (hc : (!Text.isDigit c && !(lead ++ (". " ++ modelTitle) : Text).contains c) = true) :
      ∀ a ∈ (lead ++ (digits ++ (". " ++ modelTitle))).map sameChar, a c = false := by
    obtain ⟨hdigit, htitle⟩ := Bool.and_eq_true_iff.1 hc
    rw [Bool.not_eq_true', ← Bool.not_eq_true, List.contains_iff_mem] at htitle
    rw [List.forall_mem_map]
    rintro d hd
    refine decide_eq_false ?_
    rintro rfl
    rw [List.mem_append, List.mem_append] at hd
    rcases hd with hd | hd | hd
    · exact htitle (List.mem_append_left _ hd)
    · rw [List.all_eq_true.1 hall d hd] at hdigit
      cases hdigit
    · exact htitle (List.mem_append_right _ hd)
  refine lacks_forHost (a := '#') (w := "# " ++ (digits ++ (". " ++ modelTitle))) ?_ ?_ ?_ t
  · refine ⟨_, List.mem_cons_self, fun rest hnone => ?_⟩
    rw [Option.eq_none_iff_forall_ne_some] at hnone ⊢
    intro behind hbehind
    refine hnone _ (numbered_eq_some_iff.2 ⟨digits, behind, hne, hall, ?_, rfl⟩)
    exact Text.after?_eq_some.1 hbehind
  · have hinto : Mark.allTails (Mark.clashes · anyHeading)
        ((digits ++ (". " ++ modelTitle)).map sameChar) = true :=
      Mark.allTails_of_forall fun a ha p => Mark.clashes_of_head
        (houtside [] (by decide) a ha) p _
    rw [List.map_append]
    exact hinto
  · intro x hx
    obtain ⟨hmark, hhead⟩ := off_heading x hx
    obtain ⟨c, hfirst, hc⟩ := (Option.any_eq_true _ _).1 hhead
    obtain ⟨w, rfl⟩ := List.head?_eq_some_iff.1 hfirst
    refine Mark.apart_of_outside (houtside "# " hc) fun d hd => ?_
    refine decide_eq_false ?_
    rintro rfl
    exact hmark hd

/-! ## Notice -/

theorem addNotice_of_no_tag {t : Text} (h : Text.occursIn processTag t = false) :
    addNotice t = t := by
  unfold addNotice
  split
  · rfl
  · exact Rule.apply_of_inert fun u v ht _ =>
      Rule.replacing_eq_none.2 (Text.occursIn_eq_false.1 h u v ht)

theorem directoryMark_in_notice :
    Text.occursIn Host.directoryMark (processTag ++ notice) = true := by
  decide +kernel

/-- Behind the notice, the directory is told wherever there is a process. -/
theorem directory_addNotice {t : Text} (h : Text.occursIn processTag (addNotice t) = true) :
    Text.occursIn Host.directoryMark (addNotice t) = true := by
  cases htag : Text.occursIn processTag t with
  | false =>
    rw [addNotice_of_no_tag htag, htag] at h
    cases h
  | true =>
    unfold addNotice
    split
    · assumption
    · exact Text.occursIn_trans directoryMark_in_notice
        (Rule.occursIn_apply_replacing (by decide) htag)

theorem addNotice_of_normal {t : Text} (h : Normal t) : addNotice t = t := by
  cases htag : Text.occursIn processTag t with
  | false => exact addNotice_of_no_tag htag
  | true => rw [addNotice, if_pos (h.directory htag)]

/-! ## One round -/

/-- A text that is led over to the host is normal. -/
theorem normal_forHost (t : Text) : Normal (forHost t) where
  step _ hne hall := lacks_stepHeading hne hall t
  heading := lacks_literal (List.mem_cons_of_mem _ List.mem_cons_self) (by decide)
    (by decide +kernel) t
  table := lacks_literal (List.mem_cons_of_mem _ (List.mem_cons_of_mem _ List.mem_cons_self))
    (by decide) (by decide +kernel) t
  product := named_product_iff.2 (inert_forHost t _ (by simp [nameRules]))
  name w hw := by
    obtain ⟨written, hrule⟩ := exists_nameRule hw
    exact (named_iff (wordEnds_of_assistant hw) written).2 (inert_forHost t _ hrule)
  directory := directory_addNotice

theorem start_of_normal {t : Text} (h : Normal t) {block : Block} (hblock : block ∈ modelBlocks)
    {u v : Text} (ht : t = u ++ v) : block.start v = none := by
  simp only [modelBlocks, List.mem_cons, List.not_mem_nil, or_false] at hblock
  rcases hblock with rfl | rfl | rfl
  · rw [Option.eq_none_iff_forall_ne_some]
    intro width hwidth
    obtain ⟨digits, rest, hne, hall, hv, -⟩ := numbered_eq_some_iff.1 hwidth
    have hnone := Text.occursIn_eq_false.1 (h.step digits hne hall) u v ht
    rw [hv] at hnone
    exact absurd (Text.after?_eq_some.2 rfl) (Option.eq_none_iff_forall_ne_some.1 hnone rest)
  · exact literal_eq_none.2 (Text.occursIn_eq_false.1 h.heading u v ht)
  · exact literal_eq_none.2 (Text.occursIn_eq_false.1 h.table u v ht)

theorem inert_of_normal {t : Text} (h : Normal t) {rule : Rule} (hrule : rule ∈ nameRules) :
    Inert rule t := by
  rcases eq_of_mem_nameRules hrule with rfl | ⟨w, hw, written, -, rfl⟩
  · exact named_product_iff.1 h.product
  · exact (named_iff (wordEnds_of_assistant hw) written).1 (h.name w hw)

/-- What each of the passes leaves as it is, all of them in turn leave as it is. -/
theorem foldl_fixed {α β : Type} {f : β → α → β} {l : List α} {b : β} (h : ∀ a ∈ l, f b a = b) :
    l.foldl f b = b := by
  induction l with
  | nil => rfl
  | cons a l ih =>
    obtain ⟨ha, hl⟩ := List.forall_mem_cons.1 h
    rw [List.foldl_cons, ha]
    exact ih hl

/-- A normal text stays as it is. -/
theorem forHost_of_normal {t : Text} (h : Normal t) : forHost t = t := by
  have hstrike : strikeModels t = t := by
    rw [strikeModels_eq]
    exact foldl_fixed fun block hblock =>
      strike_of_absent fun u v ht _ => start_of_normal h hblock ht
  have hrename : rename t = t :=
    foldl_fixed fun rule hrule => Rule.apply_of_inert fun u v ht _ =>
      inert_of_normal h hrule u v ht
  rw [forHost, hstrike, hrename, addNotice_of_normal h]

theorem forHost_eq_self_iff {t : Text} : forHost t = t ↔ Normal t := by
  constructor
  · intro h
    rw [← h]
    exact normal_forHost t
  · exact forHost_of_normal

/-- One round makes every text normal, and a second changes nothing. -/
theorem forHost_settled (t : Text) : Normal (forHost t) ∧ forHost (forHost t) = forHost t :=
  ⟨normal_forHost t, forHost_of_normal (normal_forHost t)⟩

end Playbook.Wording
