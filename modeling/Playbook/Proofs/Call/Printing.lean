import Playbook.Proofs.Call.Candidates
import Playbook.Proofs.Call.Values

/-!
# Printing calls

A call is printed as its name and, in parentheses, its arguments `key=value` with a comma and a
space between them. Wherever it stands in a text, scanning finds it with the arguments that
were printed.

Results:
* `parse_printArguments`: the arguments are read back.
* `scan_print`: the printed call is reported, with nothing in front of it and what follows read
  as if it stood alone.
-/
namespace Playbook.Call

open Text (byteSize)

/-! ## Arguments -/

def printArgument (a : Text × Spelling) : Text := a.1 ++ '=' :: a.2.print

def printArguments (args : List (Text × Spelling)) : Text :=
  ([',', ' '] : Text).intercalate (args.map printArgument)

def printCall (name : Text) (args : List (Text × Spelling)) : Text :=
  name ++ '(' :: (printArguments args ++ [')'])

/-- The arguments that were printed: a repeated key keeps its first place and its last value. -/
def readArguments (args : List (Text × Spelling)) : Arguments :=
  OrderedMap.ofList (args.map fun a => (a.1, a.2.value))

/-- The key is an identifier and the value is one of its kind. -/
def ArgumentValid (a : Text × Spelling) : Prop := isIdentifier a.1 = true ∧ a.2.Valid

theorem bodyWithout_word {s name : Text} (hn : ∀ c ∈ name, isIdentifierChar c = true)
    (hs : s.any isIdentifierChar = false) : BodyWithout s name := by
  refine bodyWithout_of_plain fun c hc => ⟨isPlain_of_isIdentifierChar (hn c hc), ?_⟩
  intro hm
  exact List.any_eq_false.1 hs c hm (hn c hc)

theorem bodyWithout_printArgument {a : Text × Spelling} (h : ArgumentValid a) :
    BodyWithout [','] (printArgument a) := by
  have hkey := bodyWithout_word (s := [',']) (isIdentifier_iff.1 h.1).2 (by decide)
  exact hkey.append (.char (by decide) (by decide) (bodyWithout_print h.2))

theorem argument?_printArgument {a : Text × Spelling} (h : ArgumentValid a) :
    argument? (printArgument a) = some (a.1, a.2.value) ∧
      argument? (' ' :: printArgument a) = some (a.1, a.2.value) := by
  obtain ⟨key, s⟩ := a
  have hw := (isIdentifier_iff.1 h.1).2
  have hkey := bodyWithout_word (s := ['=']) hw (by decide)
  have hbreak := breakTop_body (by decide) hkey s.print
  have hbreak' := breakTop_body (by decide) (.char (c := ' ') (by decide) (by decide) hkey) s.print
  have htrim : Text.trim key = key :=
    Text.trim_of_not_blank fun c hc => isBlank_false_of_isIdentifierChar (hw c hc)
  have htrim' : Text.trim (' ' :: key) = key := by rw [Text.trim_cons (by decide), htrim]
  rw [List.cons_append] at hbreak'
  constructor
  · simp only [argument?, printArgument, hbreak, htrim]
    rw [if_pos h.1, parse_print h.2]
  · simp only [argument?, printArgument, hbreak', htrim']
    rw [if_pos h.1, parse_print h.2]

/-- A comma between parts without one cuts there; every part but the first keeps its space. -/
theorem splitTop_intercalate {part : Text} {parts : List Text} (hp : BodyWithout [','] part)
    (h : ∀ p ∈ parts, BodyWithout [','] p) :
    splitTop ',' .top (([',', ' '] : Text).intercalate (part :: parts)) =
      part :: parts.map (' ' :: ·) := by
  induction parts generalizing part with
  | nil =>
    rw [List.intercalate_singleton]
    exact splitTop_body (by decide) hp
  | cons next parts ih =>
    -- the space after the comma begins the next part
    have hn : BodyWithout [','] (' ' :: next) := .char (by decide) (by decide) (h next (by simp))
    have hrest := ih hn fun p hp => h p (by simp [hp])
    rw [List.intercalate_cons_cons_left] at hrest
    rw [List.intercalate_cons_cons, List.append_assoc, List.cons_append, List.singleton_append,
      splitTop_body_cons (by decide) hp, hrest]
    rfl

theorem filterMap_argument? {args : List (Text × Spelling)} (h : ∀ a ∈ args, ArgumentValid a) :
    ((args.map printArgument).map (' ' :: ·)).filterMap argument? =
      args.map fun a => (a.1, a.2.value) := by
  induction args with
  | nil => rfl
  | cons a args ih =>
    have ha := (argument?_printArgument (h a (by simp))).2
    rw [List.map_cons, List.map_cons, List.filterMap_cons_some ha,
      ih fun b hb => h b (by simp [hb]), List.map_cons]

theorem parse_printArguments {args : List (Text × Spelling)} (h : ∀ a ∈ args, ArgumentValid a) :
    Arguments.parse (printArguments args) = readArguments args := by
  unfold Arguments.parse readArguments printArguments
  cases args with
  | nil => rfl
  | cons a args =>
    have ha := h a (by simp)
    have hbody : ∀ p ∈ args.map printArgument, BodyWithout [','] p := by
      intro p hp
      obtain ⟨b, hb, rfl⟩ := List.mem_map.1 hp
      exact bodyWithout_printArgument (h b (by simp [hb]))
    rw [List.map_cons, splitTop_intercalate (bodyWithout_printArgument ha) hbody,
      List.filterMap_cons_some (argument?_printArgument ha).1,
      filterMap_argument? fun b hb => h b (by simp [hb]), List.map_cons]

theorem body_printArguments {args : List (Text × Spelling)} (h : ∀ a ∈ args, ArgumentValid a) :
    Body (printArguments args) := by
  induction args with
  | nil => exact .nil
  | cons a args ih =>
    have ha := (bodyWithout_printArgument (h a (by simp))).body
    cases args with
    | nil => rwa [printArguments, List.map_singleton, List.intercalate_singleton]
    | cons b args =>
      have hrest := ih fun c hc => h c (by simp [hc])
      rw [printArguments, List.map_cons, List.map_cons, List.intercalate_cons_cons,
        List.append_assoc]
      exact ha.append (.char (by decide) (by decide) (.char (by decide) (by decide) hrest))

/-! ## Calls in a context -/

theorem exists_not_word {t : Text} (hne : t ≠ [])
    (h : t.getLast?.any isIdentifierChar = false) : ∃ x ∈ t, isIdentifierChar x = false := by
  rw [List.getLast?_eq_some_getLast hne, Option.any_some] at h
  exact ⟨_, List.getLast_mem hne, h⟩

theorem foldl_last (t : Text) :
    t.foldl (fun _ c => isIdentifierChar c) false = t.getLast?.any isIdentifierChar := by
  rcases List.eq_nil_or_concat t with rfl | ⟨u, c, rfl⟩
  · rfl
  · rw [List.concat_eq_append, List.foldl_append, List.getLast?_concat]
    rfl

/-- Without `(` and with no word at its end, a text has no call, whatever follows. -/
theorem ne_call {names : Names} {pre rest name inner tail : Text} (hne : pre ≠ [])
    (hparen : '(' ∉ pre) (hlast : pre.getLast?.any isIdentifierChar = false)
    (hp : Parts names name inner) : pre ++ rest ≠ name ++ '(' :: (inner ++ ')' :: tail) := by
  intro ht
  obtain ⟨x, hx, hn⟩ := exists_not_word hne hlast
  have hword (h : x ∈ name) : False := by
    rw [hp.word x h] at hn
    cases hn
  rcases List.append_eq_append_iff.1 ht with ⟨u, hname, -⟩ | ⟨u, hpre, hu⟩
  · exact hword (by rw [hname]; simp [hx])
  · cases u with
    | nil =>
      rw [List.append_nil] at hpre
      exact hword (by rwa [← hpre])
    | cons y u =>
      rw [List.cons_append, List.cons.injEq] at hu
      exact hparen (by rw [hpre, hu.1]; simp)

theorem piecesFrom_plain {names : Names} {pre : Text} (hparen : '(' ∉ pre)
    (hlast : pre.getLast?.any isIdentifierChar = false) (inWord : Bool) (rest : Text) :
    piecesFrom names inWord 0 (pre ++ rest) = pre.map .char ++
      piecesFrom names (pre.foldl (fun _ c => isIdentifierChar c) inWord) 0 rest := by
  induction pre generalizing inWord with
  | nil => rfl
  | cons c pre ih =>
    have hparen' : '(' ∉ pre := fun h => hparen (by simp [h])
    have hlast' : pre.getLast?.any isIdentifierChar = false := by
      cases pre with
      | nil => rfl
      | cons d pre => rwa [List.getLast?_cons_cons] at hlast
    have hchar : ∀ name inner tail, inWord = false → Parts names name inner →
        c :: (pre ++ rest) ≠ name ++ '(' :: (inner ++ ')' :: tail) :=
      fun _ _ _ _ hp => ne_call (List.cons_ne_nil c pre) hparen hlast hp
    rw [List.cons_append, piecesFrom_char hchar, ih hparen' hlast']
    rfl

theorem occurrences_plain (start : Nat) (pre : Text) (pieces : List Piece) :
    occurrences start (pre.map .char ++ pieces) = occurrences (start + byteSize pre) pieces := by
  induction pre generalizing start with
  | nil => rfl
  | cons c pre ih =>
    rw [List.map_cons, List.cons_append, occurrences, ih, byteSize, Nat.add_assoc]

/-- A call that stands `n` bytes later. -/
def Occurrence.shift (n : Nat) (o : Occurrence) : Occurrence :=
  { o with start := n + o.start, stop := n + o.stop }

theorem occurrences_shift (n start : Nat) (pieces : List Piece) :
    occurrences (n + start) pieces = (occurrences start pieces).map (Occurrence.shift n) := by
  induction pieces generalizing start with
  | nil => rfl
  | cons piece pieces ih =>
    cases piece with
    | char c => rw [occurrences, occurrences, Nat.add_assoc, ih]
    | call source call =>
      rw [occurrences, occurrences, List.map_cons, Nat.add_assoc, ih]
      rfl

/-- A printed call is reported with the arguments that were printed, wherever it stands; nothing
is reported in front of it, and what follows is read as if it stood alone. -/
theorem scan_print {names : Names} {name pre : Text} {args : List (Text × Spelling)}
    (hname : isIdentifier name = true) (haccepts : names.accepts name = true)
    (hargs : ∀ a ∈ args, ArgumentValid a) (hparen : '(' ∉ pre)
    (hlast : pre.getLast?.any isIdentifierChar = false) (post : Text) :
    scan names (pre ++ printCall name args ++ post) =
      ⟨byteSize pre, byteSize (pre ++ printCall name args), ⟨name, readArguments args⟩⟩ ::
        (scan names post).map (Occurrence.shift (byteSize (pre ++ printCall name args))) := by
  obtain ⟨hstart, hword⟩ := isIdentifier_iff.1 hname
  have hp : Parts names name (printArguments args) :=
    ⟨hstart, hword, haccepts, body_printArguments hargs⟩
  have htext : pre ++ printCall name args ++ post =
      pre ++ (name ++ '(' :: (printArguments args ++ ')' :: post)) := by simp [printCall]
  have hstop : byteSize pre + byteSize (name ++ '(' :: (printArguments args ++ [')'])) =
      byteSize (pre ++ printCall name args) := (Text.byteSize_append _ _).symm
  unfold scan pieces
  rw [htext, piecesFrom_plain hparen hlast, occurrences_plain, foldl_last, hlast,
    piecesFrom_parts hp, parse_printArguments hargs, occurrences, Nat.zero_add, hstop,
    ← occurrences_shift]
  rfl

/-- A string with its own quote and a backslash in it, a path, and an expression with a comma in
brackets; the call behind is read on its own. -/
theorem scan_print_task : scan (.only ["Task"])
    ("Run " ++ printCall "Task" [("prompt", .text '"' "say \"a, b)\" \\"),
      ("mode", .identifier ["plan", "mode"]), ("n", .expression "f(x, 1)")] ++ " or Task()") =
    [⟨4, 62, ⟨"Task", .ofList [("prompt", .text "say \"a, b)\" \\"),
      ("mode", .identifier "plan.mode"), ("n", .expression "f(x, 1)")]⟩⟩,
      ⟨66, 72, ⟨"Task", .empty⟩⟩] := by
  have hplain : ∀ c ∈ "x, 1".toList, isPlain c = true := List.all_eq_true.1 (by decide)
  have hinner := bodyWithout_of_plain fun c hc => ⟨hplain c hc, List.not_mem_nil⟩
  have hbody : BodyWithout [','] "f(x, 1)".toList :=
    .char (by decide) (by decide) (.bracket (o := '(') (c := ')') (by decide) hinner
      (by decide) .nil)
  have hlit : ¬ IsLiteral "f(x, 1)".toList := by
    intro h
    obtain ⟨q, inner, h⟩ := h
    have := literal?_eq_some_iff.2 h
    exact absurd this (by simp [literal?, isQuote])
  have hpath : ¬ IsPath "f(x, 1)".toList := by
    rw [← isIdentifierPath_iff]
    decide
  have hargs : ∀ a ∈ ([("prompt", .text '"' "say \"a, b)\" \\"),
      ("mode", .identifier ["plan", "mode"]), ("n", .expression "f(x, 1)")] :
      List (Text × Spelling)), ArgumentValid a := by
    simp only [List.mem_cons, List.not_mem_nil, or_false, forall_eq_or_imp, forall_eq]
    exact ⟨⟨by decide, (by decide : isQuote '"' = true)⟩, ⟨by decide, by simp, by decide⟩,
      by decide, by simp, by decide, by decide, hbody, hlit, hpath⟩
  rw [scan_print (by decide) (by decide) hargs (by decide) (by decide)]
  decide

end Playbook.Call
