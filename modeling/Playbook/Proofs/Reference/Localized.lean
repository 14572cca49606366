import Playbook.Proofs.Reference.Kinds

/-!
# Localized texts

A text is localized reference by reference, each as if it stood alone: of the kinds of references
the first counts that fits what stands behind `~/.claude/`. That the rules go over the whole text
one after the other makes no difference.

Results:
* `run_reference`: what the rules do, one after the other, to the first reference of a text.
* `Localized.eq`: a text is localized in one way.
* `localize_settled`: localizing a text leads each of its references to its place, keeps the rest,
  and leaves no reference.
-/
namespace Playbook

namespace Reference

/-- Each reference gives way to what is written for the first kind that fits, and the text around
the references is kept. -/
inductive Localized : (t t' : Text) → Prop
  | plain {t : Text} (h : Text.occursIn installRoot t = false) : Localized t t
  | reference {front found written rest rest' : Text} {kind : Kind} {earlier later : List Kind}
      (hfront : Text.occursIn installRoot front = false)
      (hkinds : kinds = earlier ++ kind :: later)
      (hearlier : ∀ other ∈ earlier, ¬ other.Fits (found ++ rest))
      (hreads : kind.reads found written) (behind : Localized rest rest') :
      Localized (front ++ (installRoot ++ (found ++ rest))) (kind.kept front ++ (written ++ rest'))

/-! ## Rules in turn -/

theorem occursIn_kept {front : Text} (kind : Kind) (h : Text.occursIn installRoot front = false) :
    Text.occursIn installRoot (kind.kept front) = false := by
  unfold Kind.kept dropMention
  split
  · split
    · obtain ⟨w, rfl⟩ := List.getLast?_eq_some_iff.1 ‹_›
      rw [List.dropLast_concat]
      exact Text.occursIn_left h
    · exact h
  · exact h

/-- What rules do to a text, one after the other. -/
def run (ps : List (Rule × Kind)) (t : Text) : Text :=
  ps.foldl (fun t pass => pass.1.apply t) t

section
variable {ps : List (Rule × Kind)} (hps : ∀ pass ∈ ps, Follows pass.1 pass.2)
include hps

theorem follows_of_mem_map (kind : Kind) (h : kind ∈ ps.map Prod.snd) :
    ∃ rule, Follows rule kind := by
  obtain ⟨pass, hpass, rfl⟩ := List.mem_map.1 h
  exact ⟨pass.1, hps pass hpass⟩

theorem run_written {rule : Rule} {kind : Kind} (h : Follows rule kind) {front found written : Text}
    (hreads : kind.reads found written) (hfront : Text.occursIn installRoot front = false)
    (t : Text) : run ps (front ++ (written ++ t)) = front ++ (written ++ run ps t) := by
  induction ps generalizing t with
  | nil => rfl
  | cons pass ps ih =>
    obtain ⟨hpass, hrest⟩ := List.forall_mem_cons.1 hps
    have hstep := hpass.apply_written h hreads hfront t
    exact (congrArg (run ps) hstep).trans (ih hrest _)

/-- Rules applied in turn lead the first reference to its place by the first kind that fits, and go
on behind it. -/
theorem run_reference {earlier later : List Kind} {kind : Kind}
    (hkinds : ps.map Prod.snd = earlier ++ kind :: later) {front found written rest : Text}
    (hfront : Text.occursIn installRoot front = false)
    (hearlier : ∀ other ∈ earlier, ¬ other.Fits (found ++ rest))
    (hreads : kind.reads found written) :
    run ps (front ++ (installRoot ++ (found ++ rest))) =
      kind.kept front ++ (written ++ run ps rest) := by
  induction ps generalizing earlier rest with
  | nil => cases earlier <;> cases hkinds
  | cons pass ps ih =>
    obtain ⟨hpass, hrest⟩ := List.forall_mem_cons.1 hps
    cases earlier with
    | nil =>
      obtain ⟨rfl, -⟩ := List.cons.inj hkinds
      exact (congrArg (run ps) (hpass.apply_reference hfront hreads rest)).trans
        (run_written hrest hpass hreads (occursIn_kept pass.2 hfront) _)
    | cons first earlier =>
      obtain ⟨rfl, htail⟩ := List.cons.inj hkinds
      obtain ⟨hfirst, hothers⟩ := List.forall_mem_cons.1 hearlier
      obtain ⟨rule, hkind⟩ := follows_of_mem_map hrest kind (by simp [htail])
      have hquiet : pass.1.apply (found ++ rest) = found ++ pass.1.apply rest :=
        hpass.apply_quiet (fun c hc =>
          hkind.quiet found written hreads c (List.mem_append_left written hc)) rest
      have hstep := hpass.apply_other hfront hfirst
      rw [hquiet] at hstep
      refine (congrArg (run ps) hstep).trans (ih hrest htail fun other hother hfits => ?_)
      -- a kind that fits behind the step did so before
      obtain ⟨found', written', hreads', hlead⟩ := hfits
      obtain ⟨rule', hother'⟩ := follows_of_mem_map hrest other (by simp [htail, hother])
      rw [← hquiet] at hlead
      exact hothers other hother ⟨found', written', hreads',
        hpass.isPrefix_of_apply (hother'.differs found' written' hreads') hlead⟩

end

/-! ## References in turn -/

theorem Localized.eq {t t' : Text} (h : Localized t t') : localize t = t' := by
  induction h with
  | plain h => exact localize_of_plain h
  | reference hfront hkinds hearlier hreads behind ih =>
    exact (run_reference (fun _ => follows_of_mem) hkinds hfront hearlier hreads).trans
      (congrArg _ (congrArg _ ih))

theorem exists_first {α : Type} {p : α → Prop} {l : List α} (h : ∃ a ∈ l, p a) :
    ∃ earlier a later, l = earlier ++ a :: later ∧ p a ∧ ∀ b ∈ earlier, ¬ p b := by
  induction l with
  | nil =>
    obtain ⟨a, ha, -⟩ := h
    cases ha
  | cons b l ih =>
    by_cases hb : p b
    · exact ⟨[], b, l, rfl, hb, fun _ hmem => by cases hmem⟩
    · obtain ⟨a, ha, hp⟩ := h
      rcases List.mem_cons.1 ha with rfl | ha
      · exact absurd hp hb
      · obtain ⟨earlier, a, later, rfl, hfirst, hnone⟩ := ih ⟨a, ha, hp⟩
        exact ⟨b :: earlier, a, later, rfl, hfirst, List.forall_mem_cons.2 ⟨hb, hnone⟩⟩

/-- Every reference is of some kind, as the last fits anywhere. -/
theorem exists_localized (t : Text) : ∃ t', Localized t t' := by
  induction hn : t.length using Nat.strongRecOn generalizing t with
  | ind n ih =>
    cases hbreak : Text.breakOn installRoot t with
    | none => exact ⟨t, .plain (by rw [Text.occursIn, hbreak, Option.isSome_none])⟩
    | some parts =>
      obtain ⟨front, path⟩ := parts
      have hroot : rootKind.Fits path := ⟨[], resourceTarget, ⟨rfl, rfl⟩, List.nil_prefix⟩
      obtain ⟨earlier, kind, later, hkinds, ⟨found, written, hreads, rest, rfl⟩, hearlier⟩ :=
        exists_first (l := kinds) (p := fun kind => kind.Fits path)
          ⟨rootKind, by simp [kinds], hroot⟩
      have ht := Text.breakOn_eq_some hbreak
      rw [List.append_assoc] at ht
      have hlength : rest.length < n := by
        have hpos : 0 < installRoot.length := by decide
        rw [← hn, ht]
        simp only [List.length_append]
        omega
      obtain ⟨rest', hrest⟩ := ih rest.length hlength rest rfl
      rw [ht]
      exact ⟨_, .reference (Text.occursIn_of_breakOn (by decide) hbreak) hkinds hearlier hreads
        hrest⟩

theorem localized_iff {t t' : Text} : Localized t t' ↔ t' = localize t := by
  constructor
  · exact fun h => h.eq.symm
  · rintro rfl
    obtain ⟨t', h⟩ := exists_localized t
    rwa [h.eq]

/-- What is written for a reference neither is a reference nor makes one of the text around it. -/
theorem Localized.occursIn {t t' : Text} (h : Localized t t') :
    Text.occursIn installRoot t' = false := by
  induction h with
  | plain h => exact h
  | @reference front found written rest rest' kind earlier later hfront hkinds _ hreads _ ih =>
    have hmem : kind ∈ passes.map Prod.snd := by
      rw [show passes.map Prod.snd = earlier ++ kind :: later from hkinds]
      exact List.mem_append_right earlier List.mem_cons_self
    obtain ⟨rule, hkind⟩ := follows_of_mem_map (fun _ => follows_of_mem) kind hmem
    have hquiet : '~' ∉ written := fun htilde =>
      (hkind.quiet found written hreads '~' (List.mem_append_right found htilde)).1 rfl
    obtain ⟨tail, htarget⟩ := hkind.target found written hreads
    refine Text.occursIn_across (occursIn_kept kind hfront) ?_
      (Text.occursIn_append_of_not_mem hquiet ih)
    rw [htarget]
    exact closed_target _

/-- Localizing leads each reference of a text to its place by the first kind that fits and keeps the
text around them. It leaves no reference, and changes no text without one. -/
theorem localize_settled (t : Text) :
    Text.occursIn installRoot (localize t) = false ∧
    localize (localize t) = localize t ∧
    (localize t = t ↔ Text.occursIn installRoot t = false) ∧
    ∀ t', Localized t t' ↔ t' = localize t := by
  have hnone : Text.occursIn installRoot (localize t) = false := (localized_iff.2 rfl).occursIn
  refine ⟨hnone, localize_of_plain hnone, ⟨fun h => ?_, localize_of_plain⟩, fun _ => localized_iff⟩
  rwa [h] at hnone

end Reference

end Playbook
