import Playbook.Document
import Playbook.Proofs.OrderedMap.Entries
import Playbook.Proofs.Text.Rows
import Playbook.Proofs.Text.Trimmed

/-!
# Reading documents back

A document is written with its entries on rows of their own. If the entries can be told apart
there, reading the document gives them back, and the body with the empty row in front of it:
the row that closes the block is the first `---`, since every row of an entry has a colon, and
what stands behind it is not looked at. Whatever is read from a text is of that kind.

Results:
* `read_row`: the row of a writable entry is read back.
* `breakOn_closer`: the block ends at the first row `---`.
* `parse_render_of_writable`: a document with writable entries is read back.
* `writable_parse`: what is read from a text is writable.
-/
namespace Playbook

namespace Frontmatter

/-- The key can stand in front of a colon. -/
structure KeyWritable (key : Text) : Prop where
  ne_nil : key ≠ []
  trimmed : Text.Trimmed key
  colon : ':' ∉ key
  row : '\n' ∉ key

/-- The value can stand behind a colon. -/
structure ValueWritable (value : Text) : Prop where
  trimmed : Text.Trimmed value
  row : '\n' ∉ value

/-- The entry can stand on a row `key: value` and be told apart there. -/
structure EntryWritable (e : Text × Text) : Prop where
  key : KeyWritable e.1
  value : ValueWritable e.2

/-- All entries can stand on rows of their own. -/
def Writable (frontmatter : Frontmatter) : Prop := ∀ e ∈ frontmatter.entries, EntryWritable e

/-! ## Rows of entries -/

/-- The row on which an entry is written. -/
def row (e : Text × Text) : Text := e.1 ++ ": " ++ e.2

theorem render_eq_ofRows (frontmatter : Frontmatter) :
    frontmatter.render = Text.ofRows (frontmatter.entries.map row) := by
  rw [render, Text.ofRows, List.flatMap_map]
  rfl

theorem row_ne_closer (e : Text × Text) : row e ≠ "---" := by
  intro hrow
  have hcolon : ':' ∈ row e := by simp [row]
  rw [hrow] at hcolon
  exact absurd hcolon (by decide)

section
variable {e : Text × Text} (h : EntryWritable e)
include h

theorem line_feed_not_mem_row : '\n' ∉ row e := by
  simp [row, h.key.row, h.value.row]

theorem read_row : entry? (row e) = some e := by
  have hcolon : Text.breakOn [':'] (':' :: ' ' :: e.2) = some ([], ' ' :: e.2) :=
    Text.breakOn_of_after? rfl
  have hbreak : Text.breakOn ":" (row e) = some (e.1, ' ' :: e.2) := by
    have hrow : row e = e.1 ++ ':' :: ' ' :: e.2 := by simp [row]
    have hfront := Text.breakOn_append h.key.colon hcolon
    rwa [← hrow, List.append_nil] at hfront
  have hkey : e.1.isEmpty = false := List.isEmpty_eq_false_iff.2 h.key.ne_nil
  have hvalue : Text.trim (' ' :: e.2) = e.2 := by
    rw [Text.trim_cons rfl, h.value.trimmed.trim_eq]
  unfold entry?
  simp only [hbreak, h.key.trimmed.trim_eq, hvalue, hkey]
  rfl

end

theorem parse_rows {entries : List (Text × Text)} (hne : entries ≠ [])
    (h : ∀ e ∈ entries, EntryWritable e) :
    parse (([('\n' : Char)] : Text).intercalate (entries.map row)) = OrderedMap.ofList entries := by
  have hrows : ∀ r ∈ entries.map row, '\n' ∉ r := by
    intro r hr
    obtain ⟨e, he, rfl⟩ := List.mem_map.1 hr
    exact line_feed_not_mem_row (h e he)
  have hread : (entries.map row).filterMap entry? = entries := by
    clear hne hrows
    induction entries with
    | nil => rfl
    | cons e entries ih =>
      rw [List.map_cons, List.filterMap_cons_some (read_row (h e List.mem_cons_self)),
        ih fun e he => h e (List.mem_cons_of_mem _ he)]
  rw [parse, Text.fields_intercalate (by simpa using hne) hrows, hread]

/-! ## What is read -/

theorem entryWritable_of_read {line : Text} {e : Text × Text} (hline : '\n' ∉ line)
    (h : entry? line = some e) : EntryWritable e := by
  unfold entry? at h
  split at h
  · cases h
  · rename_i before rest hbreak
    dsimp only at h
    split at h
    · cases h
    · rename_i hkey
      have hsplit := Text.breakOn_eq_some hbreak
      have hcolon : ':' ∉ before := Text.not_mem_of_breakOn hbreak
      simp only [hsplit, List.mem_append, not_or] at hline
      cases h
      refine ⟨⟨by simpa using hkey, Text.trimmed_trim before, ?_, ?_⟩, Text.trimmed_trim rest, ?_⟩
      · exact fun hmem => hcolon (Text.mem_of_mem_trim hmem)
      · exact fun hmem => hline.1.1 (Text.mem_of_mem_trim hmem)
      · exact fun hmem => hline.2 (Text.mem_of_mem_trim hmem)

theorem writable_of_block (block : Text) : (parse block).Writable := by
  intro e he
  obtain ⟨line, hline, hentry⟩ := List.mem_filterMap.1 (OrderedMap.mem_of_mem_ofList he)
  have hrow : line ∈ Text.rows block := hline
  exact entryWritable_of_read (fun hmem => (Text.of_mem_rows hrow hmem).2 rfl) hentry

end Frontmatter

namespace Document

/-- The text begins with the row `---` only if that is its first row. -/
theorem after?_closer {row : Text} (hrow : '\n' ∉ row) (hne : row ≠ "---") (t : Text) :
    Text.after? "---\n" (row ++ '\n' :: t) = none := by
  cases hafter : Text.after? "---\n" (row ++ '\n' :: t) with
  | none => rfl
  | some rest =>
    have hrows := congrArg Text.rows (Text.after?_eq_some.1 hafter)
    have hcloser : ("---\n" : Text) ++ rest = "---" ++ '\n' :: rest := by simp
    have hdashes : Text.rows "---" = [("---" : Text)] := Text.rows_of_not_mem (by decide)
    rw [hcloser, Text.rows_append_cons, Text.rows_append_cons, Text.rows_of_not_mem hrow,
      hdashes] at hrows
    exact absurd (List.cons.inj hrows).1 hne

theorem breakOn_closer {row : Text} {rows : List Text}
    (h : ∀ r ∈ row :: rows, '\n' ∉ r ∧ r ≠ "---") (rest : Text) :
    Text.breakOn "\n---\n" (Text.ofRows (row :: rows) ++ ("---\n" ++ rest)) =
      some (([('\n' : Char)] : Text).intercalate (row :: rows), rest) := by
  have hclose : ("\n---\n" : Text) = '\n' :: "---\n" := by decide
  rw [hclose]
  induction rows generalizing row with
  | nil =>
    have hend : Text.breakOn ('\n' :: "---\n") ('\n' :: ("---\n" ++ rest)) = some ([], rest) :=
      Text.breakOn_of_after? (Text.after?_eq_some.2 rfl)
    have hrow := Text.breakOn_append (h row List.mem_cons_self).1 hend
    rw [List.append_nil] at hrow
    rw [List.intercalate_singleton, ← hrow]
    simp [Text.ofRows]
  | cons next rows ih =>
    have hrest := ih fun r hr => h r (List.mem_cons_of_mem _ hr)
    obtain ⟨hline, hne⟩ := h next (List.mem_cons_of_mem _ List.mem_cons_self)
    have hnext : Text.ofRows (next :: rows) ++ ("---\n" ++ rest) =
        next ++ '\n' :: (Text.ofRows rows ++ ("---\n" ++ rest)) := by simp [Text.ofRows]
    -- the line feed behind the row is not the beginning of the closer
    have hopen : Text.after? ('\n' :: "---\n")
        ('\n' :: (Text.ofRows (next :: rows) ++ ("---\n" ++ rest))) = none := by
      rw [Text.after?_cons, if_pos rfl, hnext, after?_closer hline hne]
    have hskip := Text.breakOn_cons_of_none hopen
    rw [hrest, Option.map_some] at hskip
    have hrow := Text.breakOn_append (h row List.mem_cons_self).1 hskip
    rw [List.intercalate_cons_cons, List.append_assoc, List.singleton_append, ← hrow]
    simp [Text.ofRows]

/-- A document with writable entries is read back, with the empty row that stands in front of
the body. -/
theorem parse_render_of_writable {pairs : List (Text × Text)}
    (hne : (OrderedMap.ofList pairs).entries ≠ [])
    (h : Frontmatter.Writable (OrderedMap.ofList pairs)) (body : Text) :
    parse (render ⟨OrderedMap.ofList pairs, body⟩) = ⟨OrderedMap.ofList pairs, '\n' :: body⟩ := by
  obtain ⟨e, entries, hentries⟩ := List.exists_cons_of_ne_nil hne
  have hrows : ∀ r ∈ Frontmatter.row e :: entries.map Frontmatter.row, '\n' ∉ r ∧ r ≠ "---" := by
    rw [← List.map_cons, ← hentries]
    intro r hr
    obtain ⟨e, he, rfl⟩ := List.mem_map.1 hr
    exact ⟨Frontmatter.line_feed_not_mem_row (h e he), Frontmatter.row_ne_closer e⟩
  have htext : render ⟨OrderedMap.ofList pairs, body⟩ = "---\n" ++
      (Text.ofRows (Frontmatter.row e :: entries.map Frontmatter.row) ++
        ("---\n" ++ '\n' :: body)) := by
    rw [render, header, Frontmatter.render_eq_ofRows, hentries]
    simp
  have hblock : Frontmatter.parse (([('\n' : Char)] : Text).intercalate
      (Frontmatter.row e :: entries.map Frontmatter.row)) = OrderedMap.ofList pairs := by
    rw [← List.map_cons, ← hentries,
      Frontmatter.parse_rows hne h, OrderedMap.ofList_entries]
  have hafter := Text.after?_eq_some.2 htext
  simp only [parse, hafter, breakOn_closer hrows, hblock]

/-- What is read from a text is writable. -/
theorem writable_parse (source : Text) : (parse source).frontmatter.Writable := by
  have hempty : Frontmatter.Writable .empty := fun e he => absurd he List.not_mem_nil
  rw [parse]
  split
  · exact hempty
  · split
    · exact hempty
    · exact Frontmatter.writable_of_block _

theorem exists_ofList_parse (source : Text) :
    ∃ pairs, (parse source).frontmatter = OrderedMap.ofList pairs := by
  rw [parse]
  split
  · exact ⟨[], rfl⟩
  · split
    · exact ⟨[], rfl⟩
    · exact ⟨_, rfl⟩

end Document

end Playbook
