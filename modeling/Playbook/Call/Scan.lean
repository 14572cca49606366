import Playbook.Call.Argument

/-!
# Calls in a text

A call `Name(key=value, ...)` starts with an identifier at a word start, directly followed by
`(`, and ends at the `)` that balances it. Scanning cuts a text into calls and single
characters, from the left; a candidate that never closes, or closes with another bracket, is
ordinary text, and calls inside a call are part of it.

Results:
* `flatten_pieces`: the pieces of a text, in order, make up the text.
-/
namespace Playbook

/-- A call: its name and its arguments. -/
structure Call where
  name : Text
  arguments : Call.Arguments
  deriving Repr, DecidableEq

namespace Call

/-- The argument that carries the prompt. -/
def promptKey : Text := "prompt"

/-- The argument that names the agent to run. -/
def handlerKey : Text := "subagent_type"

def prompt? (call : Call) : Option Value := call.arguments.get? promptKey

/-- The agent that the call names. Only a string or an identifier that is not blank names one;
the blanks around it do not count. -/
def handler? (call : Call) : Option Text :=
  match call.arguments.get? handlerKey with
  | some (.text t) | some (.identifier t) =>
    let name := Text.trim t
    if name.isEmpty then none else some name
  | _ => none

/-- Which names count as calls. -/
inductive Names
  | any
  | only (names : List Text)

def Names.accepts : Names → Text → Bool
  | any, _ => true
  | only names, name => names.contains name

/-! ## Pieces -/

inductive Piece
  | char (c : Char)
  | call (source : Text) (call : Call)

/-- The characters of a piece. -/
def Piece.source : Piece → Text
  | char c => [c]
  | call source _ => source

/-- The call at the very start of a text, with its source. -/
def atStart? (names : Names) (t : Text) : Option (Text × Call) :=
  if t.head?.any isIdentifierStart then
    let name := t.takeWhile isIdentifierChar
    match t.dropWhile isIdentifierChar with
    | '(' :: rest =>
      if names.accepts name then
        match breakClose (.inside 1) rest with
        | some (inner, _) => some (name ++ '(' :: inner ++ [')'], ⟨name, Arguments.parse inner⟩)
        | none => none
      else none
    | _ => none
  else none

/-- The pieces of a text behind a character of an identifier (`inWord`) or another, where the
first `skip` characters belong to a call already cut out. -/
def piecesFrom (names : Names) : (inWord : Bool) → (skip : Nat) → Text → List Piece
  | _, _, [] => []
  | _, skip + 1, c :: t => piecesFrom names (isIdentifierChar c) skip t
  | inWord, 0, c :: t =>
    match if inWord then none else atStart? names (c :: t) with
    | some (source, call) =>
      .call source call :: piecesFrom names (isIdentifierChar c) (source.length - 1) t
    | none => .char c :: piecesFrom names (isIdentifierChar c) 0 t

def pieces (names : Names) (t : Text) : List Piece := piecesFrom names false 0 t

theorem breakClose_eq {s : Nesting} {t inner rest : Text}
    (h : breakClose s t = some (inner, rest)) : t = inner ++ ')' :: rest := by
  induction t generalizing s inner with
  | nil => simp [breakClose] at h
  | cons c t ih =>
    simp only [breakClose] at h
    split at h
    · split at h <;> simp_all
    · simp only [Option.map_eq_some_iff, Prod.mk.injEq] at h
      obtain ⟨⟨i, r⟩, hi, rfl, rfl⟩ := h
      simp [ih hi]

theorem atStart?_eq {names : Names} {t source : Text} {call : Call}
    (h : atStart? names t = some (source, call)) : source ≠ [] ∧ ∃ rest, t = source ++ rest := by
  simp only [atStart?] at h
  split at h
  · split at h
    · rename_i rest hd
      split at h
      · split at h
        · rename_i inner r hb
          simp only [Option.some.injEq, Prod.mk.injEq] at h
          obtain ⟨rfl, -⟩ := h
          refine ⟨by simp, r, ?_⟩
          have ht := List.takeWhile_append_dropWhile (p := isIdentifierChar) (l := t)
          rw [hd, breakClose_eq hb] at ht
          simpa using ht.symm
        · simp at h
      · simp at h
    · simp at h
  · simp at h

theorem flatten_piecesFrom (names : Names) (inWord : Bool) (skip : Nat) (t : Text) :
    ((piecesFrom names inWord skip t).map Piece.source).flatten = t.drop skip := by
  induction t generalizing inWord skip with
  | nil => cases skip <;> simp [piecesFrom]
  | cons c t ih =>
    cases skip with
    | succ k => simp [piecesFrom, ih]
    | zero =>
      simp only [piecesFrom]
      split
      · rename_i source call h
        split at h
        · simp at h
        · obtain ⟨hne, rest, hrest⟩ := atStart?_eq h
          cases source with
          | nil => exact absurd rfl hne
          | cons d source =>
            simp only [List.cons_append, List.cons.injEq] at hrest
            obtain ⟨rfl, rfl⟩ := hrest
            simp [Piece.source, ih]
      · simp [Piece.source, ih]

theorem flatten_pieces (names : Names) (t : Text) :
    ((pieces names t).map Piece.source).flatten = t := by
  simp [pieces, flatten_piecesFrom]

/-! ## Occurrences -/

/-- A call with the bytes `start` to `stop` that it takes. -/
structure Occurrence where
  start : Nat
  stop : Nat
  call : Call
  deriving Repr, DecidableEq

/-- The calls among pieces that start at byte `start`. -/
def occurrences : (start : Nat) → List Piece → List Occurrence
  | _, [] => []
  | start, .char c :: pieces => occurrences (start + c.utf8Size) pieces
  | start, .call source call :: pieces =>
    let stop := start + Text.byteSize source
    ⟨start, stop, call⟩ :: occurrences stop pieces

/-- The calls of a text, in order. -/
def scan (names : Names) (t : Text) : List Occurrence := occurrences 0 (pieces names t)

end Call

end Playbook
