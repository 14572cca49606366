import Playbook.Proofs.Call.Printing
import Playbook.Proofs.Call.Spans
import Playbook.Proofs.Invocation.Splice

/-!
# Calls in a rewritten text

Rewriting takes every call that names an agent out of a text, but the result may hold calls again.
A block has the prompt without its quotes and escapes, or as the expression that it is, so a call
in a prompt is a call of the result; and a candidate that was abandoned is copied, where a block
behind it may close it. These are the only ways: the fixed parts of a block open no call, and no
call begins in front of a block and goes on with its name in it.

Results:
* `absent_opening_iff`: the openings in a block are those in the parts that depend on its call.
* `foundAt_char`, `foundAt_block`: where the opening of a call of the result comes from.
* `piecesFrom_expand`: if nothing left over becomes a call, the pieces of a text stay what they
  are, and blocks are characters.
* `exists_leftover_iff`: when something is left over.
* `expandTasks_settled`: which calls the rewritten text has, and when rewriting again changes it.
* `expandTasks_again`: a call whose prompt is a call.
-/
namespace Playbook.Invocation

open Call (Piece CallAt Parts isIdentifierChar pieces piecesFrom scan)

/-! ## Openings -/

/-- What a task call starts with. -/
def taskOpening : Mark where
  first := (· = 'T')
  others := [(· = 'a'), (· = 's'), (· = 'k'), (· = '(')]
  whole := false

theorem parts_taskOpening : taskOpening.Parts '\n' := by
  constructor <;> decide

theorem absent_opening_iff (call : Call) :
    taskOpening.Absent (Style.standard.render call) ↔
      ∀ row ∈ Style.standard.callRows call, taskOpening.Absent row := by
  have hfixed : ∀ row ∈ fixedRows, taskOpening.apart row = true := by
    decide +kernel
  exact absent_rows parts_taskOpening (fun row hrow => Mark.absent_of_apart (hfixed row hrow)) call

/-- A word that ends in front of `(` is not cut by a block. -/
theorem word_of_expand (style : Style) {names : Call.Names} {word rest t : Text}
    (hword : ∀ c ∈ word, isIdentifierChar c = true)
    (h : (piecesFrom names true 0 t).flatMap style.expandPiece = word ++ '(' :: rest) :
    ∃ rest', t = word ++ '(' :: rest' := by
  induction word generalizing t with
  | nil =>
    cases t with
    | nil => cases h
    | cons c t =>
      obtain ⟨hc, -⟩ := List.cons_eq_cons.1 h
      exact ⟨t, by rw [← hc]; rfl⟩
  | cons d word ih =>
    cases t with
    | nil => cases h
    | cons c t =>
      obtain ⟨hc, htail⟩ := List.cons_eq_cons.1 h
      rw [hc, hword d List.mem_cons_self] at htail
      obtain ⟨rest', ht⟩ := ih (fun e he => hword e (List.mem_cons_of_mem d he)) htail
      exact ⟨rest', by rw [hc, ht]; rfl⟩

theorem eq_task_of_parts {name inner : Text} (hp : Parts taskNames name inner) :
    name = "Task" := by
  have haccepted := hp.accepted
  simpa [taskNames, Call.Names.accepts] using haccepted

theorem foundAt_task (front rest : Text) :
    taskOpening.FoundAt front (("Task" : Text) ++ '(' :: rest) :=
  ⟨rest, rfl, fun hwhole => by cases hwhole⟩

/-- No word boundary matters for an opening. -/
theorem foundAt_front {front t : Text} (h : taskOpening.FoundAt front t) (front' : Text) :
    taskOpening.FoundAt front' t := by
  obtain ⟨rest, hrest, -⟩ := h
  exact ⟨rest, hrest, fun hwhole => by cases hwhole⟩

/-- A call of the result that starts at a copied character has its opening from the text. -/
theorem foundAt_char {style : Style} {written t : Text} {c : Char}
    (h : CallAt taskNames written
      (c :: (piecesFrom taskNames (isIdentifierChar c) 0 t).flatMap style.expandPiece)) :
    taskOpening.FoundAt [] (c :: t) := by
  obtain ⟨-, name, inner, rest, hp, ht⟩ := h
  obtain ⟨d, word, rfl⟩ := List.exists_cons_of_ne_nil hp.ne_nil
  obtain ⟨rfl, htail⟩ := List.cons_eq_cons.1 ht
  rw [hp.word c List.mem_cons_self] at htail
  obtain ⟨rest', ht⟩ := word_of_expand style
    (fun e he => hp.word e (List.mem_cons_of_mem c he)) htail
  rw [ht, ← List.cons_append, eq_task_of_parts hp]
  exact foundAt_task [] rest'

/-- A call of the result that starts in a block has its opening from the block, which ends with a
line feed. -/
theorem foundAt_block {style : Style} {call : Call} {before u v rest : Text}
    (huv : style.render call = u ++ v) (hv : v ≠ [])
    (h : CallAt taskNames before (v ++ rest)) : taskOpening.FoundAt [] v := by
  obtain ⟨-, name, inner, tail, hp, ht⟩ := h
  have hfound := foundAt_task [] (inner ++ ')' :: tail)
  rw [← eq_task_of_parts hp, ← ht] at hfound
  rw [render_eq] at huv
  rcases List.eq_nil_or_concat v with rfl | ⟨w, d, rfl⟩
  · exact absurd rfl hv
  · rw [List.concat_eq_append, ← List.append_assoc, ← List.cons_append] at huv
    obtain ⟨-, hlast⟩ := List.append_inj' huv rfl
    obtain rfl := List.singleton_inj.1 hlast
    rw [List.concat_eq_append, List.append_assoc, List.singleton_append,
      Mark.foundAt_separator parts_taskOpening] at hfound
    rw [List.concat_eq_append, Mark.foundAt_separator parts_taskOpening]
    exact hfound

/-! ## What is left over -/

/-- Places of a rewritten text where a `Task(` is left over, with what stands before and after
them. The pieces `ps` are written behind `written`. -/
inductive Leftover (style : Style) (written : Text) (ps : List Piece) :
    (before after : Text) → Prop
  /-- The text has it at a place where no call was found. -/
  | abandoned {front back : List Piece} {c : Char} (hps : ps = front ++ .char c :: back)
      (hopen : taskOpening.FoundAt [] (c :: back.flatMap Piece.source)) :
      Leftover style written ps (written ++ front.flatMap style.expandPiece)
        (c :: back.flatMap style.expandPiece)
  /-- A block has it. -/
  | block {front back : List Piece} {source u v : Text} {call : Call}
      (hps : ps = front ++ .call source call :: back) (hhandled : call.handler?.isSome = true)
      (hblock : style.render call = u ++ v) (hopen : taskOpening.FoundAt [] v) :
      Leftover style written ps (written ++ front.flatMap style.expandPiece ++ u)
        (v ++ back.flatMap style.expandPiece)

/-- A piece of the text as pieces of the result, where nothing left over becomes a call. -/
def Style.settled (style : Style) : Piece → List Piece
  | .char c => [.char c]
  | .call source call =>
    if call.handler?.isSome then (style.render call).map .char else [.call source call]

section
variable {style : Style}

theorem Leftover.cons {p : Piece} {written before after : Text} {ps : List Piece}
    (h : Leftover style (written ++ style.expandPiece p) ps before after) :
    Leftover style written (p :: ps) before after := by
  cases h with
  | @abandoned front back c hps hopen =>
    rw [List.append_assoc, ← List.flatMap_cons]
    exact .abandoned (by rw [hps]; rfl) hopen
  | @block front back source u v call hps hhandled hblock hopen =>
    rw [List.append_assoc written, ← List.flatMap_cons]
    exact .block (by rw [hps]; rfl) hhandled hblock hopen

theorem not_callAt_char {written t : Text} {c : Char}
    (hno : ∀ before after, Leftover style written
      (.char c :: piecesFrom taskNames (isIdentifierChar c) 0 t) before after →
      ¬ CallAt taskNames before after) :
    ¬ CallAt taskNames written
      (c :: (piecesFrom taskNames (isIdentifierChar c) 0 t).flatMap style.expandPiece) := by
  intro hcall
  have hsource : (piecesFrom taskNames (isIdentifierChar c) 0 t).flatMap Piece.source = t := by
    rw [List.flatMap_def, Call.flatten_piecesFrom]
    rfl
  have hleft : Leftover style written
      (.char c :: piecesFrom taskNames (isIdentifierChar c) 0 t)
      (written ++ ([] : List Piece).flatMap style.expandPiece) _ :=
    .abandoned rfl (by rw [hsource]; exact foundAt_char hcall)
  rw [List.flatMap_nil, List.append_nil] at hleft
  exact hno _ _ hleft hcall

theorem not_callAt_block {written source u v : Text} {call : Call} {ps : List Piece}
    (hhandled : call.handler?.isSome = true)
    (hno : ∀ before after, Leftover style written (.call source call :: ps) before after →
      ¬ CallAt taskNames before after) (huv : style.render call = u ++ v) (hv : v ≠ []) :
    ¬ CallAt taskNames (written ++ u) (v ++ ps.flatMap style.expandPiece) := by
  intro hcall
  have hleft : Leftover style written (.call source call :: ps)
      (written ++ ([] : List Piece).flatMap style.expandPiece ++ u) _ :=
    .block rfl hhandled huv (foundAt_block huv hv hcall)
  rw [List.flatMap_nil, List.append_nil] at hleft
  exact hno _ _ hleft hcall

theorem last_render (style : Style) (call : Call) (written : Text) :
    (written ++ style.render call).getLast?.any isIdentifierChar = false := by
  rw [render_eq, ← List.cons_append, ← List.append_assoc, List.getLast?_concat]
  rfl

/-- If nothing left over becomes a call, the pieces of a text stay what they are, and blocks are
characters. -/
theorem piecesFrom_expand (written : Text) {inWord : Bool} {t : Text}
    (hstart : written.getLast?.any isIdentifierChar = inWord)
    (hno : ∀ before after, Leftover style written (piecesFrom taskNames inWord 0 t) before after →
      ¬ CallAt taskNames before after) :
    piecesFrom taskNames inWord 0 ((piecesFrom taskNames inWord 0 t).flatMap style.expandPiece) =
      (piecesFrom taskNames inWord 0 t).flatMap style.settled := by
  induction inWord, t using Call.piecesFrom_induction taskNames generalizing written with
  | nil inWord => rfl
  | call name inner rest hp ih =>
    rw [Call.piecesFrom_parts hp] at hno ⊢
    have hrest := fun before after h => hno before after (Leftover.cons h)
    rw [List.flatMap_cons, List.flatMap_cons]
    by_cases hhandled : (⟨name, Call.Arguments.parse inner⟩ : Call).handler?.isSome = true
    · have hchars := Call.piecesFrom_chars written fun u v => not_callAt_block hhandled hno
      have hend := last_render style ⟨name, Call.Arguments.parse inner⟩ written
      rw [Style.expandPiece, if_pos hhandled] at hrest ⊢
      rw [hstart, hend] at hchars
      rw [Style.settled, if_pos hhandled, hchars, ih _ hend hrest]
    · rw [Style.expandPiece, if_neg hhandled] at hrest ⊢
      rw [Style.settled, if_neg hhandled, ← ih _ (Call.last_source written name inner) hrest]
      have hparts := Call.piecesFrom_parts hp
        ((piecesFrom taskNames false 0 rest).flatMap style.expandPiece)
      rw [List.singleton_append, ← hparts, List.append_assoc, List.cons_append,
        List.append_assoc, List.singleton_append]
  | char inWord c t hpieces ih =>
    rw [hpieces] at hno ⊢
    have hhere := not_callAt_char hno
    have hbehind := ih (written ++ [c]) (by rw [List.getLast?_concat]; rfl)
      fun before after h => hno before after h.cons
    rw [List.flatMap_cons, List.flatMap_cons, ← hbehind]
    exact Call.piecesFrom_char fun name inner rest hword hp ht =>
      hhere ⟨hstart.trans hword, name, inner, rest, hp, ht⟩

/-! ## The calls of the result -/

theorem flatMap_source_chars (t : Text) : (t.map Piece.char).flatMap Piece.source = t := by
  induction t with
  | nil => rfl
  | cons c t ih => rw [List.map_cons, List.flatMap_cons, ih]; rfl

theorem flatMap_settled (ps : List Piece) :
    (ps.flatMap style.settled).flatMap Piece.source = ps.flatMap style.expandPiece := by
  rw [List.flatMap_assoc]
  refine congrArg List.flatten (List.map_congr_left fun p _ => ?_)
  cases p with
  | char c => rfl
  | call source call =>
    rw [Style.settled, Style.expandPiece]
    split
    · exact flatMap_source_chars (style.render call)
    · exact List.append_nil source

theorem Leftover.append_eq {written before after : Text} {ps : List Piece}
    (h : Leftover style written ps before after) :
    before ++ after = written ++ ps.flatMap style.expandPiece := by
  cases h with
  | abandoned hps hopen =>
    rw [hps, List.flatMap_append, List.flatMap_cons, List.append_assoc]
    rfl
  | block hps hhandled hblock hopen =>
    rw [hps, List.flatMap_append, List.flatMap_cons, Style.expandPiece, if_pos hhandled, hblock]
    simp only [List.append_assoc]

/-- What is left over stands at a character of the result. -/
theorem Leftover.settled {written before after : Text} {ps : List Piece}
    (h : Leftover style written ps before after) : ∃ front c back,
      ps.flatMap style.settled = front ++ .char c :: back ∧
        written ++ front.flatMap Piece.source = before := by
  cases h with
  | @abandoned front back c hps hopen =>
    refine ⟨front.flatMap style.settled, c, back.flatMap style.settled, ?_, ?_⟩
    · rw [hps, List.flatMap_append, List.flatMap_cons]
      rfl
    · rw [flatMap_settled]
  | @block front back source u v call hps hhandled hblock hopen =>
    cases v with
    | nil => exact absurd hopen (Mark.not_foundAt_nil [])
    | cons c v =>
      refine ⟨front.flatMap style.settled ++ u.map .char, c,
        v.map .char ++ back.flatMap style.settled, ?_, ?_⟩
      · rw [hps, List.flatMap_append, List.flatMap_cons, Style.settled, if_pos hhandled, hblock,
          List.map_append, List.map_cons]
        simp only [List.append_assoc, List.cons_append]
      · rw [List.flatMap_append, flatMap_settled, flatMap_source_chars, List.append_assoc]

theorem map_call_occurrences (style : Style) (start start' : Nat) (ps : List Piece) :
    (Call.occurrences start (ps.flatMap style.settled)).map (·.call) =
      ((Call.occurrences start' ps).filter (·.call.handler?.isNone)).map (·.call) := by
  induction ps generalizing start start' with
  | nil => rfl
  | cons p ps ih =>
    rw [List.flatMap_cons]
    cases p with
    | char c => exact ih _ _
    | call source call =>
      rw [Style.settled, Call.occurrences]
      split
      · rename_i hhandled
        have hnot : ¬ call.handler?.isNone = true := by
          rw [Option.isNone_iff_eq_none]
          exact Option.isSome_iff_ne_none.1 hhandled
        rw [Call.occurrences_plain, List.filter_cons, if_neg hnot]
        exact ih _ _
      · rename_i hnot
        have hnone : call.handler?.isNone = true := by
          rw [Option.isNone_iff_eq_none]
          exact Option.not_isSome_iff_eq_none.1 hnot
        rw [List.filter_cons, if_pos hnone]
        exact congrArg (call :: ·) (ih _ _)

end

/-- Something is left over only if the text has an opening where no call was found, or a call
with an agent brings one along. -/
theorem exists_leftover_iff {written : Text} {ps : List Piece} :
    (∃ before after, Leftover Style.standard written ps before after) ↔
      (∃ front c back, ps = front ++ .char c :: back ∧
        taskOpening.FoundAt [] (c :: back.flatMap Piece.source)) ∨
      ∃ source call, .call source call ∈ ps ∧ call.handler?.isSome = true ∧
        ∃ row ∈ Style.standard.callRows call, ¬ taskOpening.Absent row := by
  constructor
  · intro h
    obtain ⟨before, after, h⟩ := h
    cases h with
    | @abandoned front back c hps hopen => exact Or.inl ⟨front, c, back, hps, hopen⟩
    | @block front back source u v call hps hhandled hblock hopen =>
      refine Or.inr ⟨source, call, by rw [hps]; simp, hhandled, ?_⟩
      refine Classical.byContradiction fun hnone => ?_
      have hrows : ∀ row ∈ Style.standard.callRows call, taskOpening.Absent row :=
        fun row hrow => Classical.byContradiction fun h => hnone ⟨row, hrow, h⟩
      exact (absent_opening_iff call).2 hrows u v hblock (foundAt_front hopen _)
  · intro h
    rcases h with ⟨front, c, back, hps, hopen⟩ | ⟨source, call, hmem, hhandled, row, hrow, hnot⟩
    · exact ⟨_, _, .abandoned hps hopen⟩
    · obtain ⟨front, back, hps⟩ := List.append_of_mem hmem
      refine Classical.byContradiction fun hnone => hnot ?_
      refine (absent_opening_iff call).1 (fun u v hblock hopen => hnone ?_) row hrow
      exact ⟨_, _, .block hps hhandled hblock (foundAt_front hopen _)⟩

/-- The calls of a text that name no agent, at their places in the rewritten text. -/
def untouched (t : Text) : List Call.Occurrence :=
  Call.occurrences 0 ((pieces taskNames t).flatMap Style.standard.settled)

/-- Scanning the rewritten text gives the calls without an agent exactly if nothing left over
becomes a call. -/
theorem scan_expandTasks_iff (t : Text) :
    scan taskNames (expandTasks t) = untouched t ↔
      ∀ before after, Leftover Style.standard [] (pieces taskNames t) before after →
        ¬ CallAt taskNames before after := by
  constructor
  · intro hscan before after hleft hcall
    obtain ⟨o, ho, hcover⟩ := hcall.covered
    rw [hleft.append_eq] at ho
    have hmem : o ∈ untouched t := by
      rw [← hscan]
      exact ho
    obtain ⟨front, c, back, hpieces, hbefore⟩ := hleft.settled
    rw [untouched, hpieces] at hmem
    rw [← hbefore] at hcover
    exact Call.not_covered_char hmem hcover
  · intro hno
    exact congrArg (Call.occurrences 0) (piecesFrom_expand [] rfl hno)

theorem handled_of_scan {t : Text} (h : scan taskNames (expandTasks t) = untouched t) :
    handled taskNames (expandTasks t) = [] := by
  rw [handled, h, List.filter_eq_nil_iff]
  intro o ho hsome
  have hcall := List.mem_map_of_mem (f := (·.call)) ho
  rw [untouched, map_call_occurrences _ 0 0, List.mem_map] at hcall
  obtain ⟨o', ho', hcall⟩ := hcall
  have hnone := (List.mem_filter.1 ho').2
  rw [hcall, Option.isNone_iff_eq_none] at hnone
  rw [hnone] at hsome
  cases hsome

/-- Scanning a rewritten text gives the calls that name no agent, at their places, exactly if
nothing left over becomes a call: neither a `Task(` that was copied, nor one that a block has from
its call. In that case no call of the result names an agent; and rewriting again changes nothing
exactly if none does. -/
theorem expandTasks_settled (t : Text) :
    (scan taskNames (expandTasks t) = untouched t ↔
      ∀ before after, Leftover Style.standard [] (pieces taskNames t) before after →
        ¬ CallAt taskNames before after) ∧
    ((∃ before after, Leftover Style.standard [] (pieces taskNames t) before after) ↔
      (∃ front c back, pieces taskNames t = front ++ .char c :: back ∧
        taskOpening.FoundAt [] (c :: back.flatMap Piece.source)) ∨
      ∃ source call, .call source call ∈ pieces taskNames t ∧ call.handler?.isSome = true ∧
        ∃ row ∈ Style.standard.callRows call, ¬ taskOpening.Absent row) ∧
    (untouched t).map (·.call) =
      ((scan taskNames t).filter (·.call.handler?.isNone)).map (·.call) ∧
    (scan taskNames (expandTasks t) = untouched t → handled taskNames (expandTasks t) = []) ∧
    (expandTasks (expandTasks t) = expandTasks t ↔ handled taskNames (expandTasks t) = []) :=
  ⟨scan_expandTasks_iff t, exists_leftover_iff, map_call_occurrences _ 0 0 _, handled_of_scan,
    expand_eq_self_iff⟩

/-- A call as the prompt of a call: it is a call of the rewritten text, with an agent. -/
theorem expandTasks_again :
    let t : Text :=
      "Task(subagent_type=\"gsd-planner\", prompt=Task(subagent_type=\"gsd-checker\"))"
    (handled taskNames (expandTasks t)).map (·.call.handler?) =
        [some ("gsd-checker" : Text)] ∧
      expandTasks (expandTasks t) ≠ expandTasks t := by
  intro t
  have hagent : (handled taskNames (expandTasks t)).map (·.call.handler?) =
      [some ("gsd-checker" : Text)] := by
    decide +kernel
  refine ⟨hagent, fun hsame => ?_⟩
  rw [expand_eq_self_iff.1 hsame] at hagent
  cases hagent

/-- An abandoned candidate that is closed by what a block puts behind it. -/
example :
    let t : Text := "Task(subagent_type=\"gsd-a\", x=\" Task(subagent_type=\"b]\", prompt=p) \")"
    (handled taskNames t).map (·.call.handler?) = [some ("b]" : Text)] ∧
      (handled taskNames (expandTasks t)).map (·.call.handler?) = [some ("gsd-a" : Text)] := by
  decide +kernel

end Playbook.Invocation
