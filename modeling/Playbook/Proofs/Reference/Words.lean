import Playbook.Proofs.Text.Rules
import Playbook.Reference

/-!
# References word by word

No rule for references looks across a blank. So a blank parts a text into two that are led to the
project apart, and what becomes of a reference between blanks does not depend on the rest of the
text.

Results:
* `inWord_of_mem`: the rules for references stay within words.
* `localize_between`: what stands between blanks is localized on its own.
* `localize_agent`: an agent's file leads to a skill only if its name has no characters but small
  letters and dashes.
-/
namespace Playbook

namespace Reference

theorem replaceTo_append (rest remaining tail text : Text) :
    replaceTo (rest ++ tail) (remaining ++ tail) text = replaceTo rest remaining text := by
  unfold replaceTo
  rw [List.length_append, List.length_append, Nat.add_sub_add_right]

theorem replaceTo_width_le (rest remaining text : Text) :
    (replaceTo rest remaining text).width ≤ rest.length :=
  Nat.sub_le _ _

theorem not_mem_of_isBlank {c : Char} (hc : Text.isBlank c = true) {t : Text}
    (h : t.all (!Text.isBlank ·) = true) : c ∉ t := by
  intro hmem
  have hno := List.all_eq_true.1 h c hmem
  rw [hc] at hno
  cases hno

theorem isBlank_false_of_isAgentChar {c : Char} (h : isAgentChar c = true) :
    Text.isBlank c = false := by
  simp only [isAgentChar, Bool.or_eq_true, Bool.and_eq_true, decide_eq_true_eq] at h
  rcases h with ⟨hlo, hhi⟩ | rfl
  · have hlow : 97 ≤ c.toNat := hlo
    have hhigh : c.toNat ≤ 122 := hhi
    simp only [Text.isBlank, Bool.or_eq_false_iff, Bool.and_eq_false_iff, decide_eq_false_iff_not]
    omega
  · decide

theorem findSome?_congr {α β : Type} {f g : α → Option β} {l : List α}
    (h : ∀ a ∈ l, f a = g a) : l.findSome? f = l.findSome? g := by
  induction l with
  | nil => rfl
  | cons a l ih =>
    rw [List.findSome?_cons, List.findSome?_cons, h a List.mem_cons_self,
      ih fun b hb => h b (List.mem_cons_of_mem a hb)]

theorem inWord_resourceRule : Rule.InWord resourceRule where
  forgets _ _ := rfl
  idle := rfl
  stops u v c hc := by
    unfold resourceRule
    rw [Text.strip_append_cons (not_mem_of_isBlank hc (by decide)),
      Text.after?_append_cons (not_mem_of_isBlank hc (by decide))]
    cases Text.after? packageRoot (Text.strip "@" u) with
    | none => rfl
    | some path =>
      have hdir (dir : Text) (hdir : dir ∈ resourceDirs) :
          (Text.after? (dir ++ "/") (path ++ c :: v)).map (fun remaining =>
            replaceTo (u ++ c :: v) remaining (resourceTarget ++ dir ++ "/")) =
          (Text.after? (dir ++ "/") path).map fun remaining =>
            replaceTo u remaining (resourceTarget ++ dir ++ "/") := by
        have hall : ∀ dir ∈ resourceDirs, (dir ++ "/").all (!Text.isBlank ·) = true := by decide
        rw [Text.after?_append_cons (not_mem_of_isBlank hc (hall dir hdir)), Option.map_map]
        congr 1
        funext remaining
        exact replaceTo_append u remaining (c :: v) _
      exact findSome?_congr hdir
  width_le rest edit he := by
    unfold resourceRule at he
    split at he
    · cases he
    · obtain ⟨dir, -, hdir⟩ := List.exists_of_findSome?_eq_some he
      obtain ⟨remaining, -, rfl⟩ := Option.map_eq_some_iff.1 hdir
      exact replaceTo_width_le _ _ _

theorem inWord_agentRule : Rule.InWord agentRule where
  forgets _ _ := rfl
  idle := rfl
  stops u v c hc := by
    have hclass : isAgentChar c = false := by
      cases h : isAgentChar c with
      | false => rfl
      | true =>
        rw [isBlank_false_of_isAgentChar h] at hc
        cases hc
    unfold agentRule
    rw [Text.strip_append_cons (not_mem_of_isBlank hc (by decide)),
      Text.after?_append_cons (not_mem_of_isBlank hc (by decide))]
    cases Text.after? agentRoot (Text.strip "@" u) with
    | none => rfl
    | some path =>
      obtain ⟨htake, hdrop⟩ := Text.span_append_cons hclass path v
      simp only [Option.map_some, htake, hdrop]
      split
      · rfl
      · rw [Text.after?_append_cons (not_mem_of_isBlank hc (by decide)), Option.map_map]
        congr 1
        funext remaining
        exact replaceTo_append u remaining (c :: v) _
  width_le rest edit he := by
    unfold agentRule at he
    split at he
    · cases he
    · simp only at he
      split at he
      · cases he
      · obtain ⟨remaining, -, rfl⟩ := Option.map_eq_some_iff.1 he
        exact replaceTo_width_le _ _ _

theorem inWord_of_mem {rule : Rule} (h : rule ∈ rules) : Rule.InWord rule := by
  simp only [rules, List.mem_cons, List.not_mem_nil, or_false] at h
  rcases h with rfl | rfl | rfl | rfl
  · exact inWord_resourceRule
  · exact inWord_agentRule
  · exact Rule.inWord_replacing (by decide) (by decide) _
  · exact Rule.inWord_replacing (by decide) (by decide) _

/-- A blank parts a text into two that are localized apart. -/
theorem localize_blank {c : Char} (hc : Text.isBlank c = true) (u v : Text) :
    localize (u ++ c :: v) = localize u ++ c :: localize v := by
  have hfold (l : List Rule) (hl : ∀ rule ∈ l, Rule.InWord rule) (u v : Text) :
      l.foldl (fun t rule => rule.apply t) (u ++ c :: v) =
        l.foldl (fun t rule => rule.apply t) u ++ c :: l.foldl (fun t rule => rule.apply t) v := by
    induction l generalizing u v with
    | nil => rfl
    | cons rule l ih =>
      rw [List.foldl_cons, (hl rule List.mem_cons_self).apply_blank hc]
      exact ih (fun r hr => hl r (List.mem_cons_of_mem rule hr)) _ _
  exact hfold rules (fun _ => inWord_of_mem) u v

/-- What stands between blanks, or between a blank and an end of the text, is localized on its
own. -/
theorem localize_between {pre post : Text} (hpre : pre.getLast?.all Text.isBlank = true)
    (hpost : post.head?.all Text.isBlank = true) (t : Text) :
    localize (pre ++ t ++ post) = localize pre ++ localize t ++ localize post := by
  have hnil : localize [] = [] := rfl
  have hbehind : localize (t ++ post) = localize t ++ localize post := by
    cases post with
    | nil => rw [hnil, List.append_nil, List.append_nil]
    | cons c post =>
      rw [localize_blank hpost, ← List.nil_append (c :: post), localize_blank hpost, hnil]
      rfl
  rcases List.eq_nil_or_concat pre with rfl | ⟨front, c, rfl⟩
  · rw [hnil, List.nil_append, List.nil_append, hbehind]
  · rw [List.concat_eq_append] at hpre ⊢
    rw [List.getLast?_concat] at hpre
    rw [List.append_assoc, List.append_assoc, List.singleton_append, localize_blank hpre,
      localize_blank hpre, hbehind, hnil]
    simp

/-! ## References to agents -/

/-- The path at which a skill is found. -/
def skillFile (name : Text) : Text := skillTarget ++ name ++ "/SKILL.md"

section
variable {rule : Rule} (hr : ActsAtReference rule)
include hr

theorem applyFrom_of_no_tilde {t : Text} (h : '~' ∉ t) (before : Text) :
    rule.applyFrom 0 before t = t := by
  induction t generalizing before with
  | nil => rfl
  | cons c t ih =>
    have hnone : rule before (c :: t) = none := by
      cases he : rule before (c :: t) with
      | none => rfl
      | some edit =>
        obtain ⟨lead, path, hlead⟩ := hr _ _ _ he
        refine absurd ?_ h
        rw [hlead]
        exact List.mem_append_left _ (List.mem_append_right _ List.mem_cons_self)
    simp only [Rule.applyFrom, hnone]
    rw [ih fun hmem => h (List.mem_cons_of_mem c hmem)]

/-- A rule that does not act at a tilde nor at the mark before it leaves all of the text. -/
theorem apply_of_none {mark t : Text} (hmark : mark = [] ∨ mark = "@") (ht : '~' ∉ t)
    (hat : ∀ before, rule before (mark ++ '~' :: t) = none)
    (htilde : ∀ before, rule before ('~' :: t) = none) :
    rule.apply (mark ++ '~' :: t) = mark ++ '~' :: t := by
  have hrest (before : Text) : rule.applyFrom 0 before ('~' :: t) = '~' :: t := by
    simp only [Rule.applyFrom, htilde, applyFrom_of_no_tilde hr ht]
  rcases hmark with rfl | rfl
  · exact hrest []
  · have hfirst : rule [] ('@' :: '~' :: t) = none := hat []
    show rule.applyFrom 0 [] ('@' :: '~' :: t) = '@' :: '~' :: t
    unfold Rule.applyFrom
    rw [hfirst]
    exact congrArg ('@' :: ·) (hrest ['@'])

end

section
variable {mark name : Text} (hmark : mark = [] ∨ mark = "@") (hdot : '.' ∉ name)
include hmark hdot

theorem agentRule_eq (hne : name ≠ []) (before : Text) :
    agentRule before (mark ++ (agentRoot ++ (name ++ ".md"))) =
      if name.all isAgentChar then
        some ⟨(mark ++ (agentRoot ++ (name ++ ".md"))).length, skillFile name⟩
      else none := by
  have hstrip : Text.strip "@" (mark ++ (agentRoot ++ (name ++ ".md"))) =
      agentRoot ++ (name ++ ".md") := by
    rcases hmark with rfl | rfl <;> rfl
  have hafter : Text.after? agentRoot (agentRoot ++ (name ++ ".md")) = some (name ++ ".md") :=
    Text.after?_eq_some.2 rfl
  obtain ⟨htake, hdrop⟩ :=
    Text.span_append_cons (show isAgentChar '.' = false by decide) name "md"
  simp only [agentRule, hstrip, hafter]
  rw [show (name ++ ".md" : Text) = name ++ '.' :: "md" from rfl, htake, hdrop]
  cases hd : name.dropWhile isAgentChar with
  | nil =>
    have hsplit := List.takeWhile_append_dropWhile (p := isAgentChar) (l := name)
    have hall := List.all_takeWhile (p := isAgentChar) (l := name)
    rw [hd, List.append_nil] at hsplit
    rw [hsplit] at hall ⊢
    rw [if_pos hall, if_neg (by simpa using hne)]
    rfl
  | cons d rest =>
    -- the class ends within the name, at another character than the dot
    have hmem : d ∈ name := (List.dropWhile_sublist isAgentChar).subset (hd ▸ List.mem_cons_self)
    have hfirst := List.head?_dropWhile_not isAgentChar name
    rw [hd] at hfirst
    have hall : ¬ name.all isAgentChar = true := fun hall => by
      rw [List.head?_cons] at hfirst
      simp only at hfirst
      rw [List.all_eq_true.1 hall d hmem] at hfirst
      cases hfirst
    have hne : ¬ '.' = d := fun h => hdot (h ▸ hmem)
    have hnone : Text.after? ".md" (d :: rest ++ '.' :: "md") = none :=
      (Text.after?_cons ..).trans (if_neg hne)
    rw [hnone, if_neg hall]
    split <;> rfl

/-- What becomes of a reference to the file of an agent: a reference to the skill if the name has
no other characters than small letters and dashes, and one among the resources otherwise. -/
theorem localize_agent (hne : name ≠ []) (htilde : '~' ∉ name) :
    localize (mark ++ (agentRoot ++ (name ++ ".md"))) =
      if name.all isAgentChar then skillFile name
      else mark ++ (resourceTarget ++ ("agents/gsd-" ++ (name ++ ".md"))) := by
  have hagent := agentRule_eq hmark hdot hne
  have htail : '~' ∉ ("/.claude/agents/gsd-" ++ (name ++ ".md") : Text) := by
    rw [List.mem_append, List.mem_append, not_or, not_or]
    exact ⟨by decide, htilde, by decide⟩
  have hactsResource : ActsAtReference resourceRule := actsAtReference_of_mem (.head _)
  have hactsAgent : ActsAtReference agentRule := actsAtReference_of_mem (.tail _ (.head _))
  have hactsPackage : ActsAtReference (.replacing packageRoot resourceTarget) :=
    actsAtReference_of_mem (.tail _ (.tail _ (.head _)))
  have hactsInstall : ActsAtReference (.replacing installRoot resourceTarget) :=
    actsAtReference_of_mem (.tail _ (.tail _ (.tail _ (.head _))))
  have hresource :
      resourceRule.apply (mark ++ (agentRoot ++ (name ++ ".md"))) =
        mark ++ (agentRoot ++ (name ++ ".md")) := by
    refine apply_of_none hactsResource hmark htail (fun before => ?_) fun before => rfl
    rcases hmark with rfl | rfl <;> rfl
  have hpackage :
      (Rule.replacing packageRoot resourceTarget).apply (mark ++ (agentRoot ++ (name ++ ".md"))) =
        mark ++ (agentRoot ++ (name ++ ".md")) := by
    refine apply_of_none hactsPackage hmark htail (fun before => ?_) fun before => rfl
    rcases hmark with rfl | rfl <;> rfl
  unfold localize rules
  simp only [List.foldl_cons, List.foldl_nil]
  rw [hresource]
  split
  · rename_i hall
    -- the skill's file holds no tilde, so nothing acts on it
    have hwhole := hagent []
    rw [if_pos hall] at hwhole
    have hskill : '~' ∉ skillFile name := by
      unfold skillFile
      rw [List.mem_append, List.mem_append, not_or, not_or]
      exact ⟨⟨by decide, htilde⟩, by decide⟩
    have hreplaced : agentRule.apply (mark ++ (agentRoot ++ (name ++ ".md"))) = skillFile name :=
      Rule.apply_of_edit (List.append_ne_nil_of_right_ne_nil _
        (List.append_ne_nil_of_right_ne_nil _ (List.append_ne_nil_of_left_ne_nil hne _))) hwhole
    rw [hreplaced]
    unfold Rule.apply
    rw [applyFrom_of_no_tilde hactsPackage hskill,
      applyFrom_of_no_tilde hactsInstall hskill]
  · rename_i hall
    have hsame :
        agentRule.apply (mark ++ (agentRoot ++ (name ++ ".md"))) =
          mark ++ (agentRoot ++ (name ++ ".md")) := by
      refine apply_of_none hactsAgent hmark htail (fun before => ?_) fun before => ?_
      · exact (hagent before).trans (if_neg hall)
      · exact (agentRule_eq (Or.inl rfl) hdot hne before).trans (if_neg hall)
    have hrest : '~' ∉ ("agents/gsd-" ++ (name ++ ".md") : Text) := by
      rw [List.mem_append, List.mem_append, not_or, not_or]
      exact ⟨by decide, htilde, by decide⟩
    have hinstall (before : Text) :
        (Rule.replacing installRoot resourceTarget).applyFrom 0 before
          (installRoot ++ ("agents/gsd-" ++ (name ++ ".md"))) =
            resourceTarget ++ ("agents/gsd-" ++ (name ++ ".md")) := by
      rw [Rule.applyFrom_of_edit (by decide) rfl,
        applyFrom_of_no_tilde hactsInstall hrest]
    have hroot : agentRoot = installRoot ++ "agents/gsd-" := rfl
    rw [hsame, hpackage, hroot, List.append_assoc]
    rcases hmark with rfl | rfl
    · exact hinstall []
    · exact congrArg ('@' :: ·) (hinstall ['@'])

end

end Reference

end Playbook
