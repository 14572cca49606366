import Playbook.Proofs.Invocation.Blocks
import Playbook.Proofs.Text.Slices
import Playbook.Proofs.Text.Trimmed

/-!
# Blocks in the places of calls

A text is rewritten piece by piece. Seen from outside, it is cut at the spans of the calls that
name an agent: each of these spans gives way to the block of its call, and what stands before,
between and behind them is copied, calls that name no agent and calls that never close included.

Results:
* `handler?_isSome_iff`: which calls name an agent.
* `splice_occurrences`: the pieces of a text, written one by one, are the text with blocks in the
  places of its calls.
* `expand_eq_self_iff`: a text stays as it is exactly if none of its calls names an agent.
* `expand_splice`: rewriting changes the spans of calls that name an agent, and nothing else.
-/
namespace Playbook

namespace Call

theorem handler?_isSome_iff {call : Call} : call.handler?.isSome = true ↔ ∃ name : Text,
    (call.arguments.get? handlerKey = some (.text name) ∨
      call.arguments.get? handlerKey = some (.identifier name)) ∧
    ∃ c ∈ name, Text.isBlank c = false := by
  have hname (name : Text) :
      (if (Text.trim name).isEmpty then none else some (Text.trim name)).isSome = true ↔
        ∃ c ∈ name, Text.isBlank c = false := by
    have htrim := Text.trim_eq_nil_iff (t := name)
    split
    · rename_i hempty
      rw [List.isEmpty_iff, htrim] at hempty
      constructor
      · intro h
        cases h
      · intro h
        obtain ⟨c, hc, hnot⟩ := h
        rw [hempty c hc] at hnot
        cases hnot
    · rename_i hne
      rw [List.isEmpty_iff, htrim] at hne
      simpa using hne
  unfold handler?
  split
  · rename_i hvalue
    rw [hvalue, hname]
    simp
  · rename_i hvalue
    rw [hvalue, hname]
    simp
  · rename_i htext hidentifier
    constructor
    · intro h
      cases h
    · intro h
      obtain ⟨name, h | h, -⟩ := h
      · exact absurd h (htext name)
      · exact absurd h (hidentifier name)

theorem start_of_mem_piecesFrom {names : Names} {inWord : Bool} {t source : Text} {call : Call}
    (h : .call source call ∈ piecesFrom names inWord 0 t) :
    source.head?.any isIdentifierStart = true := by
  induction inWord, t using piecesFrom_induction names with
  | nil inWord => cases h
  | call name inner rest hp ih =>
    rw [piecesFrom_parts hp, List.mem_cons] at h
    rcases h with h | h
    · cases h
      rw [head?_append_of_parts hp]
      exact hp.start
    · exact ih h
  | char inWord c t hpieces ih =>
    rw [hpieces, List.mem_cons] at h
    rcases h with h | h
    · cases h
    · exact ih h

end Call

namespace Invocation

open Text (byteSize slice ValidSlice)

/-! ## Splicing -/

/-- The calls of a text that name an agent, in order. -/
def handled (names : Call.Names) (t : Text) : List Call.Occurrence :=
  (Call.scan names t).filter (·.call.handler?.isSome)

/-- The calls with an agent among pieces that start at byte `start`. -/
def handledFrom (start : Nat) (ps : List Call.Piece) : List Call.Occurrence :=
  (Call.occurrences start ps).filter (·.call.handler?.isSome)

/-- The text from byte `cursor` on, with blocks in the places of the calls. -/
def Style.splice (style : Style) (t : Text) : (cursor : Nat) → List Call.Occurrence → Text
  | cursor, [] => slice cursor (byteSize t) t
  | cursor, o :: rest =>
    slice cursor o.start t ++ style.render o.call ++ style.splice t o.stop rest

/-- From byte `cursor` on the text can be cut before and behind each of the calls, in order. -/
def Cuts (t : Text) : (cursor : Nat) → List Call.Occurrence → Prop
  | cursor, [] => ValidSlice cursor (byteSize t) t
  | cursor, o :: rest =>
    ValidSlice cursor o.start t ∧ ValidSlice o.start o.stop t ∧ Cuts t o.stop rest

/-- A piece that is no call with an agent. -/
def IsCopied (p : Call.Piece) : Prop :=
  ∀ source call, p = .call source call → call.handler?.isSome = false

section
variable {p : Call.Piece} (h : IsCopied p)
include h

theorem expandPiece_of_isCopied (style : Style) : style.expandPiece p = p.source := by
  cases p with
  | char c => rfl
  | call source call =>
    rw [Style.expandPiece, if_neg (by rw [h source call rfl]; exact Bool.false_ne_true)]
    rfl

theorem handledFrom_of_isCopied (start : Nat) (ps : List Call.Piece) :
    handledFrom start (p :: ps) = handledFrom (start + byteSize p.source) ps := by
  cases p with
  | char c => rfl
  | call source call =>
    have hnot : ¬ call.handler?.isSome = true := by
      rw [h source call rfl]
      exact Bool.false_ne_true
    exact List.filter_cons_of_neg hnot

end

theorem handledFrom_call {source : Text} {call : Call} (h : call.handler?.isSome = true)
    (start : Nat) (ps : List Call.Piece) : handledFrom start (.call source call :: ps) =
      ⟨start, start + byteSize source, call⟩ :: handledFrom (start + byteSize source) ps :=
  List.filter_cons_of_pos h

theorem isCopied_or_handled (p : Call.Piece) :
    IsCopied p ∨ ∃ source call, p = .call source call ∧ call.handler?.isSome = true := by
  cases p with
  | char c => exact Or.inl fun _ _ h => by cases h
  | call source call =>
    cases hc : call.handler?.isSome with
    | true => exact Or.inr ⟨source, call, rfl, hc⟩
    | false =>
      refine Or.inl fun _ _ h => ?_
      cases h
      exact hc

/-- The pieces of a text, written one by one, are the text with blocks in the places of its calls.
The cursor is behind `front`, and `between` is copied up to the next call. -/
theorem splice_occurrences (style : Style) {t : Text} (front between : Text)
    {ps : List Call.Piece} (ht : t = front ++ between ++ (ps.map Call.Piece.source).flatten) :
    Cuts t (byteSize front) (handledFrom (byteSize (front ++ between)) ps) ∧
      style.splice t (byteSize front) (handledFrom (byteSize (front ++ between)) ps) =
        between ++ ps.flatMap style.expandPiece := by
  induction ps generalizing front between with
  | nil =>
    obtain ⟨hvalid, hslice⟩ := Text.slice_of_eq ht
    rw [List.map_nil, List.flatten_nil, List.append_nil] at ht
    rw [← ht] at hvalid hslice
    exact ⟨hvalid, hslice.trans (List.append_nil between).symm⟩
  | cons p ps ih =>
    obtain ⟨hbetween, hcopy⟩ := Text.slice_of_eq ht
    rw [List.map_cons, List.flatten_cons] at ht
    rw [List.flatMap_cons]
    obtain hcopied | ⟨source, call, rfl, hhandled⟩ := isCopied_or_handled p
    · -- the piece joins what is copied up to the next call
      rw [handledFrom_of_isCopied hcopied, expandPiece_of_isCopied hcopied,
        ← Text.byteSize_append, List.append_assoc front, ← List.append_assoc between]
      refine ih front (between ++ p.source) ?_
      rw [ht]
      simp only [List.append_assoc]
    · -- the cursor moves behind the call
      rw [← List.append_assoc] at ht
      obtain ⟨hspan, -⟩ := Text.slice_of_eq ht
      have hbehind := ih (front ++ between ++ source) [] (by rw [ht, List.append_nil]; rfl)
      rw [List.append_nil, List.nil_append] at hbehind
      obtain ⟨hcuts, hrest⟩ := hbehind
      rw [Text.byteSize_append (front ++ between)] at hspan hcuts hrest
      rw [handledFrom_call hhandled]
      refine ⟨⟨hbetween, hspan, hcuts⟩, ?_⟩
      rw [Style.splice, hcopy, hrest, Style.expandPiece, if_pos hhandled, List.append_assoc]

/-- A block starts with a line feed and a call does not, so pieces are written as they stand only
if none of them is a call with an agent. -/
theorem flatMap_expandPiece_iff (style : Style) (start : Nat) {ps : List Call.Piece}
    (hcalls : ∀ source call, .call source call ∈ ps →
      source.head?.any Call.isIdentifierStart = true) :
    ps.flatMap style.expandPiece = (ps.map Call.Piece.source).flatten ↔
      handledFrom start ps = [] := by
  induction ps generalizing start with
  | nil => exact ⟨fun _ => rfl, fun _ => rfl⟩
  | cons p ps ih =>
    have hrest := fun source call h => hcalls source call (List.mem_cons_of_mem p h)
    rw [List.flatMap_cons, List.map_cons, List.flatten_cons]
    obtain hcopied | ⟨source, call, rfl, hhandled⟩ := isCopied_or_handled p
    · rw [handledFrom_of_isCopied hcopied, expandPiece_of_isCopied hcopied, List.append_right_inj]
      exact ih _ hrest
    · rw [handledFrom_call hhandled, Style.expandPiece, if_pos hhandled, render_eq]
      have hstart := hcalls source call List.mem_cons_self
      refine ⟨fun h => ?_, fun h => by cases h⟩
      cases source with
      | nil => cases hstart
      | cons c source =>
        obtain ⟨hc, -⟩ := List.cons_eq_cons.1 h
        rw [← hc, List.head?_cons, Option.any_some] at hstart
        exact absurd hstart (by decide)

/-- A text stays as it is exactly if none of its calls names an agent. -/
theorem expand_eq_self_iff {style : Style} {names : Call.Names} {t : Text} :
    style.expand names t = t ↔ handled names t = [] := by
  have hcalls : ∀ source call, .call source call ∈ Call.pieces names t →
      source.head?.any Call.isIdentifierStart = true :=
    fun _ _ => Call.start_of_mem_piecesFrom
  have h := flatMap_expandPiece_iff style 0 hcalls
  rwa [Call.flatten_pieces] at h

/-- Rewriting cuts a text at the spans of the calls that name an agent and puts their blocks in
these places. Nothing else is changed, so a text stays as it is exactly if it has no such call. -/
theorem expand_splice (style : Style) (names : Call.Names) (t : Text) :
    (∀ o, o ∈ handled names t ↔ o ∈ Call.scan names t ∧ ∃ name : Text,
      (o.call.arguments.get? Call.handlerKey = some (.text name) ∨
        o.call.arguments.get? Call.handlerKey = some (.identifier name)) ∧
      ∃ c ∈ name, Text.isBlank c = false) ∧
    (handled names t).Sublist (Call.scan names t) ∧
    Cuts t 0 (handled names t) ∧
    style.expand names t = style.splice t 0 (handled names t) ∧
    (style.expand names t = t ↔ handled names t = []) := by
  obtain ⟨hcuts, hexpand⟩ := splice_occurrences style [] [] (Call.flatten_pieces names t).symm
  refine ⟨fun o => ?_, List.filter_sublist, hcuts, hexpand.symm, expand_eq_self_iff⟩
  rw [handled, List.mem_filter, Call.handler?_isSome_iff]

end Invocation

end Playbook
