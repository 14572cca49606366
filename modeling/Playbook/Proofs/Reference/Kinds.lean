import Playbook.Proofs.Reference.Words

/-!
# Kinds of references

The rules for references are applied to the whole text one after the other, each to what the one
before has left. All the same every reference is led to its place as if it stood alone: what counts
is the first kind that fits what stands behind `~/.claude/`. What is written for a reference makes
no other one and joins none, and a rule finds in the edited text what it would have found in the
text as it was.

Results:
* `Follows.apply_reference`: a rule leads the references of its kind to their places.
* `Follows.apply_other`: it leaves the others to the rules to come.
* `Follows.apply_written`: it does not touch what is written for a reference.
* `Follows.isPrefix_of_apply`: behind the root, an edited text reads as it did before.
* `follows_of_mem`: each of the rules for references does this for its kind.
-/
namespace Playbook

namespace Text

theorem after?_append_left (lead tail t : Text) :
    after? (lead ++ tail) (lead ++ t) = after? tail t := by
  induction lead with
  | nil => rfl
  | cons a lead ih => exact (after?_cons ..).trans ((if_pos rfl).trans ih)

end Text

namespace Rule

section
variable {rule : Rule} (h : InWord rule)
include h

theorem InWord.apply_append {w t : Text}
    (hidle : ∀ u v, w = u ++ v → v ≠ [] → rule [] (v ++ t) = none) :
    rule.apply (w ++ t) = w ++ rule.apply t := by
  have hkeep (before : Text) : applyFrom rule 0 before (w ++ t) = w ++ rule.apply t := by
    induction w generalizing before with
    | nil => exact h.applyFrom_before 0 before t
    | cons c w ih =>
      have hnone : rule before (c :: (w ++ t)) = none := by
        rw [h.forgets]
        exact hidle [] (c :: w) rfl (List.cons_ne_nil c w)
      simp only [List.cons_append, applyFrom, hnone]
      rw [ih fun u v hw => hidle (c :: u) v (by rw [hw, List.cons_append])]
  exact hkeep []

theorem InWord.apply_edit {found t written : Text} (hne : found ≠ [])
    (hedit : rule [] (found ++ t) = some ⟨found.length, written⟩) :
    rule.apply (found ++ t) = written ++ rule.apply t := by
  rw [apply, applyFrom_of_edit hne hedit, h.applyFrom_before]
  rfl

end

end Rule

namespace Reference

/-- A kind of reference, told by what stands behind `~/.claude/`. -/
structure Kind where
  /-- Whether one `@` right before the reference belongs to it. -/
  mention : Bool
  /-- What belongs to the reference behind the root, and what is written for all of it. -/
  reads : (found written : Text) → Prop

def resourceKind : Kind where
  mention := true
  reads found written := ∃ dir ∈ resourceDirs,
    found = "get-shit-done/" ++ (dir ++ "/") ∧ written = resourceTarget ++ dir ++ "/"

def agentKind : Kind where
  mention := true
  reads found written := ∃ name, name ≠ [] ∧ name.all isAgentChar = true ∧
    found = "agents/gsd-" ++ (name ++ ".md") ∧ written = skillFile name

def packageKind : Kind where
  mention := false
  reads found written := found = "get-shit-done/" ∧ written = resourceTarget

def rootKind : Kind where
  mention := false
  reads found written := found = [] ∧ written = resourceTarget

/-- The kinds in the order in which they are tried. -/
def kinds : List Kind := [resourceKind, agentKind, packageKind, rootKind]

def Kind.Fits (kind : Kind) (path : Text) : Prop :=
  ∃ found written, kind.reads found written ∧ found <+: path

def dropMention (front : Text) : Text :=
  if front.getLast? = some '@' then front.dropLast else front

/-- What stays of the text in front of a reference. -/
def Kind.kept (kind : Kind) (front : Text) : Text :=
  if kind.mention then dropMention front else front

/-! ## Where no reference begins -/

/-- The text does not start as what is written for a reference. -/
def differs (t : Text) : Bool := (Text.after? ['.'] t).all fun rest => rest.head?.any (· ≠ 'a')

/-- Nowhere does the text start as what is written for a reference. -/
def Differs (t : Text) : Prop := ∀ u v, t = u ++ v → differs v = true

theorem differs_nil : Differs [] := by
  intro u v h
  obtain ⟨-, rfl⟩ := List.append_eq_nil_iff.1 h.symm
  rfl

theorem Differs.cons {c : Char} {t : Text} (h : Differs t) (hc : differs (c :: t) = true) :
    Differs (c :: t) := by
  intro u v huv
  cases u with
  | nil =>
    rw [List.nil_append] at huv
    rwa [← huv]
  | cons d u => exact h u v (List.cons.inj huv).2

theorem Differs.append {w t : Text} (hw : '.' ∉ w) (h : Differs t) : Differs (w ++ t) := by
  induction w with
  | nil => exact h
  | cons c w ih =>
    rw [List.mem_cons, not_or] at hw
    refine (ih hw.2).cons ?_
    rw [differs, Text.after?_cons, if_neg hw.1, Option.all_none]

theorem Differs.clash {t : Text} (h : Differs t) (hne : t ≠ []) (rest : Text) :
    Text.after? t ('.' :: 'a' :: rest) = none := by
  have hstart := h [] t rfl
  cases t with
  | nil => exact absurd rfl hne
  | cons c t =>
    rw [Text.after?_cons]
    split
    · rename_i hc
      rw [hc, differs, Text.after?_cons, if_pos rfl, Text.after?_nil, Option.all_some] at hstart
      cases t with
      | nil => cases hstart
      | cons d t => exact (Text.after?_cons ..).trans (if_neg (by simpa using hstart))
    · rfl

/-- Behind the root there is a dot in the name of a file only, where no path goes on with it. -/
theorem differs_installRoot : Differs installRoot :=
  Differs.append (w := ['~', '/']) (by decide)
    ((Differs.append (w := "claude/") (by decide) differs_nil).cons rfl)

/-- No reference begins before `t` and goes on in it. -/
def Closed (t : Text) : Prop :=
  ∀ a b, installRoot = a ++ b → a ≠ [] → b ≠ [] → Text.after? b t = none

theorem closed_cons {c : Char} (hc : c ∉ installRoot.tail) (t : Text) : Closed (c :: t) := by
  intro a b hroot ha hb
  obtain ⟨d, a, rfl⟩ := List.exists_cons_of_ne_nil ha
  obtain ⟨e, b, rfl⟩ := List.exists_cons_of_ne_nil hb
  refine (Text.after?_cons ..).trans (if_neg fun he => hc ?_)
  rw [hroot, List.cons_append, List.tail_cons, ← he]
  exact List.mem_append_right a List.mem_cons_self

theorem closed_installRoot (path : Text) : Closed (installRoot ++ path) :=
  closed_cons (c := '~') (by decide) _

theorem closed_target (t : Text) : Closed ('.' :: 'a' :: t) := by
  intro a b hroot _ hb
  refine Differs.clash (fun u v hv => ?_) hb t
  exact differs_installRoot (a ++ u) v (by rw [hroot, hv, List.append_assoc])

/-! ## Rules for a kind -/

/-- A mention, or nothing. -/
def IsMark (mark : Text) : Prop := mark = [] ∨ mark = ['@']

/-- The rule acts on references of the kind and nowhere else, and writes what is to be written. -/
structure Follows (rule : Rule) (kind : Kind) : Prop where
  inWord : Rule.InWord rule
  starts : ∀ rest edit, rule [] rest = some edit →
    ∃ mark path, IsMark mark ∧ rest = mark ++ (installRoot ++ path)
  acts : ∀ mark found written rest, mark = [] ∨ (mark = ['@'] ∧ kind.mention = true) →
    kind.reads found written → rule [] (mark ++ (installRoot ++ (found ++ rest))) =
      some ⟨(mark ++ (installRoot ++ found)).length, written⟩
  idle : ∀ mark path, IsMark mark → (mark = ['@'] ∧ kind.mention = false) ∨ ¬ kind.Fits path →
    rule [] (mark ++ (installRoot ++ path)) = none
  quiet : ∀ found written, kind.reads found written → ∀ c ∈ found ++ written, c ≠ '~' ∧ c ≠ '@'
  differs : ∀ found written, kind.reads found written → Differs found
  target : ∀ found written, kind.reads found written → ∃ rest, written = '.' :: 'a' :: rest

/-- The characters neither begin a reference nor mention one. -/
def quietChar (c : Char) : Bool := c ≠ '~' && c ≠ '@'

theorem ne_of_all {t : Text} (h : t.all quietChar = true) (c : Char) (hc : c ∈ t) :
    c ≠ '~' ∧ c ≠ '@' := by
  have hquiet := List.all_eq_true.1 h c hc
  rw [quietChar, Bool.and_eq_true, decide_eq_true_eq, decide_eq_true_eq] at hquiet
  exact hquiet

section
variable {rule : Rule} {kind : Kind} (h : Follows rule kind)
include h

/-- The rule acts at a tilde or an `@` with a tilde behind it only. -/
theorem Follows.idle_of_ne {c : Char} {t : Text} (hroot : c ≠ '~')
    (hmention : c = '@' → t.head? ≠ some '~') : rule [] (c :: t) = none := by
  rw [Option.eq_none_iff_forall_ne_some]
  intro edit hedit
  obtain ⟨mark, path, rfl | rfl, hrest⟩ := h.starts _ edit hedit
  · exact hroot (List.cons.inj hrest).1
  · obtain ⟨hc, ht⟩ := List.cons.inj hrest
    exact hmention hc (by rw [ht]; rfl)

theorem Follows.apply_quiet {w : Text} (hw : ∀ c ∈ w, c ≠ '~' ∧ c ≠ '@') (t : Text) :
    rule.apply (w ++ t) = w ++ rule.apply t := by
  refine h.inWord.apply_append fun u v huv hv => ?_
  obtain ⟨c, v, rfl⟩ := List.exists_cons_of_ne_nil hv
  obtain ⟨hroot, hmention⟩ := hw c (by rw [huv]; simp)
  exact h.idle_of_ne hroot fun hc => absurd hc hmention

theorem Follows.apply_front {front t : Text} (hfront : Text.occursIn installRoot front = false)
    (ht : Closed t) (hmention : front.getLast? = some '@' → rule [] ('@' :: t) = none) :
    rule.apply (front ++ t) = front ++ rule.apply t := by
  have hnone (path u v : Text) (huv : front = u ++ v) (hv : v ≠ []) :
      v ++ t ≠ installRoot ++ path := by
    intro hroot
    have hafter := Text.after?_across hfront ht huv hv
    rw [hroot, Text.after?_eq_some.2 rfl] at hafter
    cases hafter
  refine h.inWord.apply_append fun u v huv hv => ?_
  rw [Option.eq_none_iff_forall_ne_some]
  intro edit hedit
  obtain ⟨mark, path, rfl | rfl, hrest⟩ := h.starts _ edit hedit
  · exact hnone path u v huv hv hrest
  · obtain ⟨c, v, rfl⟩ := List.exists_cons_of_ne_nil hv
    obtain ⟨rfl, hbehind⟩ := List.cons.inj hrest
    cases v with
    | nil =>
      rw [List.singleton_append, hmention (by rw [huv, List.getLast?_concat])] at hedit
      cases hedit
    | cons d v =>
      exact hnone path (u ++ ['@']) (d :: v) (by rw [huv, List.append_assoc, List.singleton_append])
        (List.cons_ne_nil d v) hbehind

/-- What is written for a reference is kept with the text in front of it. -/
theorem Follows.apply_written {front found written : Text} {other : Kind} {rule' : Rule}
    (h' : Follows rule' other) (hreads : other.reads found written)
    (hfront : Text.occursIn installRoot front = false) (t : Text) :
    rule.apply (front ++ (written ++ t)) = front ++ (written ++ rule.apply t) := by
  have hquiet := h.apply_quiet (fun c hc =>
    h'.quiet found written hreads c (List.mem_append_right found hc)) t
  obtain ⟨rest, hwritten⟩ := h'.target found written hreads
  rw [h.apply_front hfront, hquiet]
  · rw [hwritten]
    exact closed_target _
  · intro _
    refine h.idle_of_ne (by decide) fun _ => ?_
    rw [hwritten]
    exact fun hhead => by cases hhead

/-- A reference of another kind is left to the other rules. -/
theorem Follows.apply_other {front path : Text} (hfront : Text.occursIn installRoot front = false)
    (hpath : ¬ kind.Fits path) :
    rule.apply (front ++ (installRoot ++ path)) = front ++ (installRoot ++ rule.apply path) := by
  have hroot : rule.apply (installRoot ++ path) = installRoot ++ rule.apply path := by
    have htail : rule.apply ("/.claude/" ++ path) = "/.claude/" ++ rule.apply path :=
      h.apply_quiet (ne_of_all (by decide)) path
    rw [show installRoot = ['~'] ++ "/.claude/" from rfl, List.append_assoc, List.append_assoc,
      ← htail]
    refine h.inWord.apply_append fun u v huv hv => ?_
    rcases List.append_eq_singleton_iff.1 huv.symm with ⟨rfl, rfl⟩ | ⟨rfl, rfl⟩
    · exact h.idle [] path (Or.inl rfl) (Or.inr hpath)
    · exact absurd rfl hv
  rw [h.apply_front hfront (closed_installRoot path), hroot]
  exact fun _ => h.idle ['@'] path (Or.inr rfl) (Or.inr hpath)

/-- A reference of the kind gives way to what is written for it. -/
theorem Follows.apply_reference {front found written : Text}
    (hfront : Text.occursIn installRoot front = false) (hreads : kind.reads found written)
    (rest : Text) : rule.apply (front ++ (installRoot ++ (found ++ rest))) =
      kind.kept front ++ (written ++ rule.apply rest) := by
  have hedit {mark : Text} (hmark : mark = [] ∨ (mark = ['@'] ∧ kind.mention = true)) :
      rule.apply (mark ++ (installRoot ++ (found ++ rest))) = written ++ rule.apply rest := by
    have hact := h.acts mark found written rest hmark hreads
    rw [← List.append_assoc installRoot, ← List.append_assoc mark] at hact ⊢
    exact h.inWord.apply_edit (List.append_ne_nil_of_right_ne_nil _
      (List.append_ne_nil_of_left_ne_nil (by decide) _)) hact
  by_cases hmention : kind.mention = true ∧ front.getLast? = some '@'
  · obtain ⟨hkind, hlast⟩ := hmention
    obtain ⟨w, rfl⟩ := List.getLast?_eq_some_iff.1 hlast
    have hkept : kind.kept (w ++ ['@']) = w := by
      rw [Kind.kept, if_pos hkind, dropMention, if_pos hlast, List.dropLast_concat]
    rw [List.append_assoc, h.apply_front (Text.occursIn_left hfront), hedit (Or.inr ⟨rfl, hkind⟩),
      hkept]
    · exact closed_cons (by decide) _
    · intro _
      exact h.idle_of_ne (by decide) fun _ hhead => by cases hhead
  · have hkept : kind.kept front = front := by
      unfold Kind.kept dropMention
      split
      · rename_i hkind
        exact if_neg fun hlast => hmention ⟨hkind, hlast⟩
      · rfl
    have hroot := hedit (Or.inl rfl)
    rw [List.nil_append] at hroot
    rw [h.apply_front hfront (closed_installRoot _), hroot, hkept]
    intro hlast
    refine h.idle ['@'] _ (Or.inr rfl) (Or.inl ⟨rfl, ?_⟩)
    exact Bool.eq_false_iff.2 fun hkind => hmention ⟨hkind, hlast⟩

/-- What is written where a rule acts starts as a target does. -/
theorem Follows.text_of_edit {rest : Text} {edit : Edit} (hedit : rule [] rest = some edit) :
    ∃ t, edit.text = '.' :: 'a' :: t := by
  obtain ⟨mark, path, hmark, rfl⟩ := h.starts rest edit hedit
  have hacts : ¬ ((mark = ['@'] ∧ kind.mention = false) ∨ ¬ kind.Fits path) := by
    intro hidle
    rw [h.idle mark path hmark hidle] at hedit
    cases hedit
  rw [not_or, Classical.not_not] at hacts
  obtain ⟨hmention, found, written, hreads, behind, rfl⟩ := hacts
  have hkind : mark = [] ∨ (mark = ['@'] ∧ kind.mention = true) := by
    rcases hmark with hmark | hmark
    · exact Or.inl hmark
    · refine Or.inr ⟨hmark, ?_⟩
      exact Bool.of_not_eq_false fun hfalse => hmention ⟨hmark, hfalse⟩
  rw [h.acts mark found written behind hkind hreads] at hedit
  cases hedit
  exact h.target found written hreads

theorem Follows.isPrefix_of_apply {found t : Text} (hfound : Differs found)
    (hlead : found <+: rule.apply t) : found <+: t := by
  induction found generalizing t with
  | nil => exact List.nil_prefix
  | cons c found ih =>
    cases t with
    | nil => exact hlead
    | cons d t =>
      cases hedit : rule [] (d :: t) with
      | some edit =>
        obtain ⟨text, htext⟩ := h.text_of_edit hedit
        obtain ⟨rest, hrest⟩ := hlead
        rw [Rule.apply, Rule.applyFrom, hedit] at hrest
        simp only [htext, List.cons_append] at hrest
        have hclash := hfound.clash (List.cons_ne_nil c found)
          (text ++ Rule.applyFrom rule (edit.width - 1) [d] t)
        rw [← hrest, ← List.cons_append, Text.after?_eq_some.2 rfl] at hclash
        cases hclash
      | none =>
        have hkeep : rule.apply (d :: t) = d :: rule.apply t :=
          h.inWord.apply_append (w := [d]) fun u v huv hv => by
            rcases List.append_eq_singleton_iff.1 huv.symm with ⟨rfl, rfl⟩ | ⟨rfl, rfl⟩
            · exact hedit
            · exact absurd rfl hv
        rw [hkeep, List.cons_prefix_cons] at hlead
        rw [List.cons_prefix_cons]
        refine ⟨hlead.1, ih (fun u v huv => ?_) hlead.2⟩
        exact hfound (c :: u) v (by rw [huv, List.cons_append])

end

/-! ## The rules and their kinds -/

theorem exists_mark {root rest path : Text}
    (h : Text.after? root (Text.strip "@" rest) = some path) :
    ∃ mark, IsMark mark ∧ rest = mark ++ (root ++ path) := by
  have hstrip := Text.after?_eq_some.1 h
  unfold Text.strip at hstrip
  cases hafter : Text.after? "@" rest with
  | none =>
    rw [hafter, Option.getD_none] at hstrip
    exact ⟨[], Or.inl rfl, hstrip⟩
  | some behind =>
    rw [hafter, Option.getD_some] at hstrip
    exact ⟨['@'], Or.inr rfl, by rw [Text.after?_eq_some.1 hafter, hstrip]; rfl⟩

/-- The path behind the root decides what a rule finds, with a mention or without. -/
theorem after?_strip_mark {mark : Text} (hmark : IsMark mark) (inner path : Text) :
    Text.after? (installRoot ++ inner) (Text.strip "@" (mark ++ (installRoot ++ path))) =
      Text.after? inner path := by
  have hstrip : Text.strip "@" (mark ++ (installRoot ++ path)) = installRoot ++ path := by
    rcases hmark with rfl | rfl <;> rfl
  rw [hstrip, Text.after?_append_left]

theorem replaceTo_append_left (found rest text : Text) :
    replaceTo (found ++ rest) rest text = ⟨found.length, text⟩ := by
  rw [replaceTo, List.length_append, Nat.add_sub_cancel]

theorem follows_resource : Follows resourceRule resourceKind where
  inWord := inWord_resourceRule
  starts rest edit hedit := by
    unfold resourceRule at hedit
    split at hedit
    · cases hedit
    · rename_i path hpath
      obtain ⟨mark, hmark, hrest⟩ := exists_mark hpath
      exact ⟨mark, "get-shit-done/" ++ path, hmark, hrest⟩
  acts mark found written rest hmark hreads := by
    obtain ⟨dir, hdir, rfl, rfl⟩ := hreads
    have hpackage := after?_strip_mark (hmark.imp_right And.left) "get-shit-done/"
      ("get-shit-done/" ++ (dir ++ "/") ++ rest)
    rw [List.append_assoc "get-shit-done/".toList, Text.after?_eq_some.2 rfl] at hpackage
    have hroot : packageRoot = installRoot ++ "get-shit-done/" := rfl
    rw [resourceRule, hroot, List.append_assoc "get-shit-done/".toList, hpackage]
    rw [← List.append_assoc "get-shit-done/".toList, ← List.append_assoc installRoot,
      ← List.append_assoc mark]
    simp only [resourceDirs, List.mem_cons, List.not_mem_nil, or_false] at hdir
    -- the names of the directories do not start each other
    rcases hdir with rfl | rfl | rfl
    all_goals exact congrArg some (replaceTo_append_left _ rest _)
  idle mark path hmark hpath := by
    rcases hpath with ⟨-, hmention⟩ | hpath
    · cases hmention
    · have hpackage := after?_strip_mark hmark "get-shit-done/" path
      have hroot : packageRoot = installRoot ++ "get-shit-done/" := rfl
      rw [resourceRule, hroot, hpackage]
      cases hinner : Text.after? "get-shit-done/" path with
      | none => rfl
      | some inner =>
        simp only
        rw [List.findSome?_eq_none_iff]
        intro dir hdir
        rw [Option.map_eq_none_iff, Option.eq_none_iff_forall_ne_some]
        intro rest hrest
        refine hpath ⟨_, _, ⟨dir, hdir, rfl, rfl⟩, rest, ?_⟩
        rw [Text.after?_eq_some.1 hinner, Text.after?_eq_some.1 hrest, List.append_assoc]
  quiet found written hreads := by
    obtain ⟨dir, hdir, rfl, rfl⟩ := hreads
    simp only [resourceDirs, List.mem_cons, List.not_mem_nil, or_false] at hdir
    rcases hdir with rfl | rfl | rfl
    all_goals exact ne_of_all (by decide)
  differs found written hreads := by
    obtain ⟨dir, hdir, rfl, rfl⟩ := hreads
    simp only [resourceDirs, List.mem_cons, List.not_mem_nil, or_false] at hdir
    rw [← List.append_nil (_ ++ _)]
    refine Differs.append ?_ differs_nil
    rcases hdir with rfl | rfl | rfl
    all_goals decide
  target found written hreads := by
    obtain ⟨dir, hdir, rfl, rfl⟩ := hreads
    exact ⟨"gent/resources/" ++ dir ++ "/", rfl⟩

theorem quietChar_of_isAgentChar {c : Char} (h : isAgentChar c = true) : quietChar c = true := by
  have hne {d : Char} (hd : isAgentChar d = false) : c ≠ d := by
    rintro rfl
    rw [h] at hd
    cases hd
  rw [quietChar, Bool.and_eq_true, decide_eq_true_eq, decide_eq_true_eq]
  exact ⟨hne (by decide), hne (by decide)⟩

theorem follows_agent : Follows agentRule agentKind where
  inWord := inWord_agentRule
  starts rest edit hedit := by
    unfold agentRule at hedit
    split at hedit
    · cases hedit
    · rename_i path hpath
      obtain ⟨mark, hmark, hrest⟩ := exists_mark hpath
      exact ⟨mark, "agents/gsd-" ++ path, hmark, hrest⟩
  acts mark found written rest hmark hreads := by
    obtain ⟨name, hne, hall, rfl, rfl⟩ := hreads
    have hagent := after?_strip_mark (hmark.imp_right And.left) "agents/gsd-"
      ("agents/gsd-" ++ (name ++ ".md") ++ rest)
    rw [List.append_assoc "agents/gsd-".toList, Text.after?_eq_some.2 rfl] at hagent
    have hroot : agentRoot = installRoot ++ "agents/gsd-" := rfl
    -- the name ends right before the dot
    have htake : (name ++ ".md" ++ rest).takeWhile isAgentChar = name := by
      rw [List.append_assoc, List.takeWhile_append_of_pos (List.all_eq_true.1 hall)]
      exact List.append_nil name
    have hdrop : (name ++ ".md" ++ rest).dropWhile isAgentChar = ".md" ++ rest := by
      rw [List.append_assoc, List.dropWhile_append_of_pos (List.all_eq_true.1 hall)]
      rfl
    rw [agentRule, hroot, List.append_assoc "agents/gsd-".toList, hagent]
    simp only [htake, hdrop]
    rw [if_neg (by simpa using hne), Text.after?_eq_some.2 rfl,
      ← List.append_assoc "agents/gsd-".toList, ← List.append_assoc installRoot,
      ← List.append_assoc mark]
    exact congrArg some (replaceTo_append_left _ rest _)
  idle mark path hmark hpath := by
    rcases hpath with ⟨-, hmention⟩ | hpath
    · cases hmention
    · have hagent := after?_strip_mark hmark "agents/gsd-" path
      have hroot : agentRoot = installRoot ++ "agents/gsd-" := rfl
      rw [agentRule, hroot, hagent]
      cases hinner : Text.after? "agents/gsd-" path with
      | none => rfl
      | some inner =>
        simp only
        split
        · rfl
        · rename_i hempty
          rw [Option.map_eq_none_iff, Option.eq_none_iff_forall_ne_some]
          intro rest hrest
          refine hpath ⟨_, _, ⟨inner.takeWhile isAgentChar, by simpa using hempty,
            List.all_takeWhile, rfl, rfl⟩, rest, ?_⟩
          rw [Text.after?_eq_some.1 hinner, List.append_assoc, List.append_assoc,
            ← Text.after?_eq_some.1 hrest, List.takeWhile_append_dropWhile]
  quiet found written hreads := by
    obtain ⟨name, hne, hall, rfl, rfl⟩ := hreads
    have hname : name.all quietChar = true := List.all_eq_true.2 fun c hc =>
      quietChar_of_isAgentChar (List.all_eq_true.1 hall c hc)
    refine ne_of_all ?_
    simp only [skillFile, List.all_append, hname, Bool.true_and, Bool.and_true]
    decide
  differs found written hreads := by
    obtain ⟨name, hne, hall, rfl, rfl⟩ := hreads
    have hname : '.' ∉ name := fun hmem => by cases List.all_eq_true.1 hall _ hmem
    have hmd : Differs ".md" :=
      (Differs.append (w := ['m', 'd']) (by decide) differs_nil).cons rfl
    exact .append (by decide) (.append hname hmd)
  target found written hreads := by
    obtain ⟨name, -, -, rfl, rfl⟩ := hreads
    exact ⟨"gent/skills/" ++ name ++ "/SKILL.md", rfl⟩

theorem follows_replacing (inner : Text) (hquiet : inner.all quietChar = true)
    (hblank : inner.any Text.isBlank = false) (hdot : '.' ∉ inner) :
    Follows (.replacing (installRoot ++ inner) resourceTarget)
      ⟨false, fun found written => found = inner ∧ written = resourceTarget⟩ where
  inWord := Rule.inWord_replacing (List.append_ne_nil_of_left_ne_nil (by decide) inner)
    (by rw [List.any_append, hblank]; decide) _
  starts rest edit hedit := by
    obtain ⟨path, hpath⟩ := Rule.eq_of_replacing hedit
    exact ⟨[], inner ++ path, Or.inl rfl, hpath.trans (List.append_assoc _ _ _)⟩
  acts mark found written rest hmark hreads := by
    obtain ⟨rfl, rfl⟩ := hreads
    rcases hmark with rfl | ⟨-, hmention⟩
    · rw [List.nil_append, List.nil_append, ← List.append_assoc installRoot]
      exact Rule.replacing_eq_some.2 ⟨rfl, rest, rfl⟩
    · cases hmention
  idle mark path hmark hpath := by
    rw [Rule.replacing_eq_none, Option.eq_none_iff_forall_ne_some]
    intro rest hrest
    have hlead := Text.after?_eq_some.1 hrest
    rcases hmark with rfl | rfl
    · rcases hpath with ⟨hmark, -⟩ | hpath
      · cases hmark
      · rw [List.nil_append, List.append_assoc, List.append_cancel_left_eq] at hlead
        exact hpath ⟨inner, resourceTarget, ⟨rfl, rfl⟩, rest, hlead.symm⟩
    · cases hlead
  quiet found written hreads := by
    obtain ⟨rfl, rfl⟩ := hreads
    refine ne_of_all ?_
    rw [List.all_append, hquiet]
    decide
  differs found written hreads := by
    obtain ⟨rfl, -⟩ := hreads
    rw [← List.append_nil found]
    exact .append hdot differs_nil
  target found written hreads := ⟨"gent/resources/", hreads.2⟩

/-- The rules for references, each with its kind. -/
def passes : List (Rule × Kind) :=
  [(resourceRule, resourceKind), (agentRule, agentKind),
    (.replacing packageRoot resourceTarget, packageKind),
    (.replacing installRoot resourceTarget, rootKind)]

theorem follows_of_mem {pass : Rule × Kind} (h : pass ∈ passes) : Follows pass.1 pass.2 := by
  simp only [passes, List.mem_cons, List.not_mem_nil, or_false] at h
  rcases h with rfl | rfl | rfl | rfl
  · exact follows_resource
  · exact follows_agent
  · exact follows_replacing "get-shit-done/" (by decide) (by decide) (by decide)
  · exact follows_replacing [] rfl rfl List.not_mem_nil

end Reference

end Playbook
