import Mathlib.Data.List.Lattice
import Mathlib.Data.List.Nodup
import Mathlib.Data.List.Pairwise
import Playbook.Proofs.Disk.Parents
import Playbook.Proofs.Library.Targets
import Playbook.Proofs.Section.Headings

/-!
# Files that a library is written to twice

Ids are kept apart within one command only. Over a whole library two agents may have one skill id,
with the tag and without it, and a command may have the name of another one's satellite. Then one
document is written over another. These are the only ways, unless the scope of the workflows leads
to another directory.

Results:
* `Bundle.exists_id`: the ids of a command's satellites tell its name.
* `nodup_workflowIds_iff`: the ids of all workflows differ unless a satellite has a command's name.
* `placeOf_skillPath_inj`: two skills share a file exactly if they share a folder.
* `targets_nodup_iff`: when no file of a library is written twice.
-/
namespace Playbook

/-! ## Ids of satellites -/

namespace Text

theorem exists_mem_fields {separator c : Char} {t : Text} (hc : c ∈ t) (hne : c ≠ separator) :
    ∃ part ∈ fields separator t, c ∈ part := by
  induction t with
  | nil => cases hc
  | cons d t ih =>
    unfold fields
    split
    · rename_i hd
      rcases List.mem_cons.1 hc with rfl | hc
      · exact absurd hd hne
      · obtain ⟨part, hpart, hmem⟩ := ih hc
        exact ⟨part, List.mem_cons_of_mem _ hpart, hmem⟩
    · cases hf : fields separator t with
      | nil => exact absurd hf (fields_ne_nil separator t)
      | cons first rest =>
        rcases List.mem_cons.1 hc with rfl | hc
        · exact ⟨c :: first, List.mem_cons_self, List.mem_cons_self⟩
        · obtain ⟨part, hpart, hmem⟩ := ih hc
          rw [hf] at hpart
          rcases List.mem_cons.1 hpart with rfl | hpart
          · exact ⟨d :: part, List.mem_cons_self, List.mem_cons_of_mem d hmem⟩
          · exact ⟨part, List.mem_cons_of_mem _ hpart, hmem⟩

/-- Texts with the same last place of a character are the same in front of it. -/
theorem eq_of_last_place {a b s t : Text} {c : Char} (h : a ++ c :: s = b ++ c :: t) (hs : c ∉ s)
    (ht : c ∉ t) : a = b := by
  have hreverse := congrArg List.reverse h
  simp only [List.reverse_append, List.reverse_cons, List.append_assoc, List.singleton_append]
    at hreverse
  have hparts := append_cons_inj hreverse (by simpa using hs) (by simpa using ht)
  exact List.reverse_injective hparts.2

end Text

namespace Bundle

/-- A character that is neither a digit nor a dash. -/
def OutsideSuffix (c : Char) : Prop := Text.isDigit c = false ∧ c.isDigit = false ∧ c ≠ '-'

theorem not_mem_of_outsideSuffix {c : Char} (hc : OutsideSuffix c) :
    (∀ s : Section, Heading.isOrdinal s.heading.ordinal = true → c ∉ s.slug) ∧
      ∀ n, ∀ ending ∈ endings n, c ∉ ending := by
  obtain ⟨hdigit, hascii, hdash⟩ := hc
  constructor
  · intro s hs hmem
    obtain ⟨d, hd, hchar⟩ := List.mem_map.1 hmem
    split at hchar
    · exact hdash hchar.symm
    · rename_i hdot
      subst hchar
      obtain ⟨part, hpart, hin⟩ := Text.exists_mem_fields hd hdot
      have hall := List.all_eq_true.1 hs part hpart
      rw [Bool.and_eq_true] at hall
      rw [List.all_eq_true.1 hall.2 d hin] at hdigit
      cases hdigit
  · intro n ending hending hmem
    rcases dash_or_digit_of_mem_endings hending hmem with rfl | hdigits
    · exact hdash rfl
    · rw [hdigits] at hascii
      cases hascii

/-- The ids of all documents of a bundle. -/
def ids (b : Bundle) : List Text := b.main.id :: b.satellites.map Artifact.id

end Bundle

namespace Workflow

section
variable (settings : Settings) (name source : Text)

theorem main_id_compile : (compile settings name source).main.id = name := by
  rcases compile_cases settings name source with h | ⟨retained, overflow, -, h⟩
  · rw [h]
    rfl
  · rw [h]
    rfl

theorem nodup_ids_compile : (compile settings name source).ids.Nodup := by
  rcases compile_cases settings name source with h | ⟨retained, overflow, -, h⟩
  · rw [h]
    exact List.nodup_cons.2 ⟨List.not_mem_nil, List.nodup_nil⟩
  · rw [h]
    exact Bundle.nodup_ids settings.scope name _ retained overflow

/-- The id of a satellite is the name of the command, a fixed text, and digits and dashes. -/
theorem exists_id {s : Artifact} (hs : s ∈ (compile settings name source).satellites) :
    ∃ tail, s.id = name ++ "-phas" ++ 'e' :: tail ∧ ∀ c, Bundle.OutsideSuffix c → c ∉ tail := by
  rcases compile_cases settings name source with h | ⟨retained, overflow, hoverflow, h⟩
  · rw [h] at hs
    cases hs
  · rw [h] at hs
    have hid := List.mem_map_of_mem hs (f := Artifact.id)
    rw [Bundle.map_id_satellites, List.mem_map] at hid
    obtain ⟨⟨id, moved⟩, hp, hid⟩ := hid
    obtain ⟨hmoved, n, ending, hending, heq⟩ := Bundle.exists_of_mem_assignIds hp
    obtain ⟨row, -, hheading⟩ := Section.exists_row (hoverflow moved hmoved)
    obtain ⟨-, -, -, -, hordinal, -⟩ := Heading.exists_of_ofLine? hheading
    refine ⟨'-' :: moved.slug ++ ending, ?_, fun c hc => ?_⟩
    · rw [← hid, heq, Bundle.satelliteId, List.append_assoc, List.append_assoc, List.append_assoc]
      rfl
    · obtain ⟨hslug, hnumber⟩ := Bundle.not_mem_of_outsideSuffix hc
      simp only [List.mem_cons, List.mem_append, not_or]
      exact ⟨⟨hc.2.2, hslug moved hordinal⟩, hnumber n ending hending⟩

end

end Workflow

namespace Library

open Disk

/-! ## Ids of workflows -/

/-- The workflow of a command, which is given by the name and the text of its file. -/
def bundle (l : Library) (command : Text × Text) : Bundle :=
  Workflow.compile l.settings (commandName command.1) command.2

section
variable {l : Library} {commands : List (Text × Text)}

/-- Satellites of commands with different names have different ids. -/
theorem satellites_apart {c d : Text × Text} {s t : Artifact} (hs : s ∈ (l.bundle c).satellites)
    (ht : t ∈ (l.bundle d).satellites) (hid : s.id = t.id) : commandName c.1 = commandName d.1 := by
  obtain ⟨tail, hstail, hsout⟩ := Workflow.exists_id _ _ _ hs
  obtain ⟨other, httail, htout⟩ := Workflow.exists_id _ _ _ ht
  have he : Bundle.OutsideSuffix 'e' := ⟨by decide, by decide, by decide⟩
  rw [hstail, httail] at hid
  exact List.append_cancel_right (Text.eq_of_last_place hid (hsout 'e' he) (htout 'e' he))

/-- The ids of all workflows differ exactly if no satellite has the name of a command. -/
theorem nodup_workflowIds_iff (hnames : (commands.map fun c => commandName c.1).Nodup) :
    (commands.flatMap fun c => (l.bundle c).ids).Nodup ↔
      ∀ c ∈ commands, ∀ s ∈ (l.bundle c).satellites, ∀ d ∈ commands, s.id ≠ commandName d.1 := by
  have hmain (c : Text × Text) : (l.bundle c).main.id = commandName c.1 :=
    Workflow.main_id_compile _ _ _
  have hnodup (c : Text × Text) : (l.bundle c).ids.Nodup := Workflow.nodup_ids_compile _ _ _
  rw [List.nodup_flatMap]
  constructor
  · rintro ⟨-, hpair⟩ c hc s hs d hd hid
    by_cases hcd : c = d
    · subst hcd
      have hnot := (List.nodup_cons.1 (hnodup c)).1
      rw [hmain, ← hid] at hnot
      exact hnot (List.mem_map_of_mem hs)
    · have hsymm : Std.Symm (Function.onFun List.Disjoint fun c => (l.bundle c).ids) :=
        ⟨fun _ _ hdisjoint => List.Disjoint.symm hdisjoint⟩
      have hdisjoint : List.Disjoint (l.bundle c).ids (l.bundle d).ids := hpair.forall hc hd hcd
      refine hdisjoint (List.mem_cons_of_mem _ (List.mem_map_of_mem hs)) ?_
      rw [hid, ← hmain]
      exact List.mem_cons_self
  · intro h
    refine ⟨fun c _ => hnodup c, ?_⟩
    refine (List.pairwise_map.1 hnames).imp_of_mem ?_
    intro c d hc hd hne
    suffices hdisjoint : List.Disjoint (l.bundle c).ids (l.bundle d).ids from hdisjoint
    rw [List.disjoint_left]
    intro id hidc hidd
    unfold Bundle.ids at hidc hidd
    rw [hmain, List.mem_cons, List.mem_map] at hidc hidd
    rcases hidc with rfl | ⟨s, hs, rfl⟩
    · rcases hidd with hidd | ⟨t, ht, hidd⟩
      · exact hne hidd
      · exact h d hd t ht c hc hidd
    · rcases hidd with hidd | ⟨t, ht, hidd⟩
      · exact h c hc s hs d hd hidd
      · exact hne (satellites_apart hs ht hidd.symm)

end

/-! ## Places of skills -/

/-- The folder of a skill below that of all skills. An id that is empty or a dot names none. -/
def folder (id : Text) : Text := if id = "." then [] else id

section
variable (output : Path)

theorem names_skillPath {id : Text} (hslash : '/' ∉ id) :
    FileTree.names (skillPath output id) = FileTree.names output ++
      ([("skills" : Text)] ++ FileTree.names ⟨id⟩ ++ [("SKILL.md" : Text)]) := by
  have hskills : FileTree.names (.ofString "skills") = [("skills" : Text)] := by decide
  have hfile : FileTree.names (.ofString "SKILL.md") = [("SKILL.md" : Text)] := by decide
  rw [skillPath, FileTree.names_join rfl, FileTree.names_join (Path.not_isAbsolute hslash),
    FileTree.names_join rfl, hskills, hfile, List.append_assoc, List.append_assoc,
    List.append_assoc]

theorem placeOf_skillPath {id : Text} (hslash : '/' ∉ id) :
    FileTree.placeOf (skillPath output id) =
      FileTree.resolve (FileTree.placeOf output ++ [("skills" : Text)]) (FileTree.names ⟨id⟩) ++
        [("SKILL.md" : Text)] := by
  rw [FileTree.placeOf, names_skillPath output hslash, FileTree.resolve_append,
    FileTree.resolve_append, FileTree.resolve_append, FileTree.resolve_name (by decide) (by decide),
    FileTree.resolve_name (by decide) (by decide)]
  rfl

/-- Where the folder of a skill is: among all skills, or beside them if it is called `..`. -/
def home (place : FileTree.Location) (folder : Text) : FileTree.Location :=
  if folder = [] then place ++ [("skills" : Text)]
  else if folder = ".." then place
  else place ++ [("skills" : Text), folder]

theorem resolve_id {id : Text} (hslash : '/' ∉ id) (place : FileTree.Location) :
    FileTree.resolve (place ++ [("skills" : Text)]) (FileTree.names ⟨id⟩) =
      home place (folder id) := by
  rw [FileTree.names_of_no_slash hslash]
  by_cases hnil : id = []
  · subst hnil
    rfl
  · rw [if_neg hnil, FileTree.resolve]
    by_cases hdot : id = "."
    · subst hdot
      rfl
    · rw [if_neg hdot, folder, if_neg hdot, home, if_neg hnil]
      by_cases hdots : id = ".."
      · rw [if_pos hdots, if_pos hdots, List.dropLast_concat]
        rfl
      · rw [if_neg hdots, if_neg hdots, List.append_assoc]
        rfl

theorem home_injective {place : FileTree.Location} {f g : Text} (h : home place f = home place g) :
    f = g := by
  unfold home at h
  split at h
  · split at h
    · simp_all
    · split at h <;> simp at h
  · split at h
    · split at h
      · simp at h
      · split at h <;> simp_all
    · split at h
      · simp at h
      · split at h
        · simp at h
        · simpa using h

theorem placeOf_skillPath_eq {id : Text} (hslash : '/' ∉ id) :
    FileTree.placeOf (skillPath output id) =
      home (FileTree.placeOf output) (folder id) ++ [("SKILL.md" : Text)] := by
  rw [placeOf_skillPath output hslash, resolve_id hslash]

/-- Two skills are written to one place exactly if they have one folder. -/
theorem placeOf_skillPath_inj {a b : Text} (ha : '/' ∉ a) (hb : '/' ∉ b) :
    FileTree.placeOf (skillPath output a) = FileTree.placeOf (skillPath output b) ↔
      folder a = folder b := by
  rw [placeOf_skillPath_eq output ha, placeOf_skillPath_eq output hb, List.append_cancel_right_eq]
  exact ⟨home_injective, fun h => by rw [h]⟩

/-! ## Places of workflows -/

theorem isName_document {lead id : Text} (hlead : '/' ∉ lead) (hslash : '/' ∉ id) :
    Path.IsName (lead ++ (id ++ ".md")) := by
  have hne {other : Text} (hother : other.length < 3) : lead ++ (id ++ ".md") ≠ other := by
    rintro rfl
    rw [List.length_append, List.length_append, show (".md" : Text).length = 3 from rfl] at hother
    omega
  refine ⟨hne (by decide), ?_, hne (by decide), hne (by decide)⟩
  simp only [List.mem_append, not_or]
  exact ⟨hlead, hslash, by decide⟩

theorem resolve_document {lead : Text} (hlead : '/' ∉ lead) {id : Text} (hid : '/' ∉ id)
    (place : FileTree.Location) :
    FileTree.resolve place (FileTree.names ⟨lead ++ (id ++ ".md")⟩) =
      place ++ [lead ++ (id ++ ".md")] := by
  have hname := isName_document hlead hid
  rw [FileTree.names_name hname, FileTree.resolve_name hname.dot hname.dots]

/-- All workflows of a library are in one directory, the one for workflows unless the scope has a
slash, under names that start alike. -/
theorem exists_placeOf_workflowPath (scope : Text) :
    ∃ (place : FileTree.Location) (lead : Text),
      (∀ id : Text, '/' ∉ id →
        FileTree.placeOf (workflowPath output scope id) = place ++ [lead ++ (id ++ ".md")]) ∧
      ('/' ∉ scope → place = FileTree.placeOf output ++ [("workflows" : Text)]) := by
  have hworkflows : FileTree.placeOf (output.join (.ofString "workflows")) =
      FileTree.placeOf output ++ [("workflows" : Text)] := FileTree.placeOf_join_name (by decide)
  have hfile (id : Text) : Bundle.fileName scope id = scope ++ (id ++ ".md") :=
    List.append_assoc _ _ _
  by_cases hscope : '/' ∈ scope
  · -- the names in front of the last slash lead to the directory
    obtain ⟨back, front, hreverse, hback⟩ :=
      List.eq_append_cons_of_mem (List.mem_reverse.2 hscope)
    have hsplit : scope = front.reverse ++ '/' :: back.reverse := by
      simpa using congrArg List.reverse hreverse
    have hlead : '/' ∉ back.reverse := fun hmem => hback (List.mem_reverse.1 hmem)
    have htext (id : Text) : Bundle.fileName scope id =
        front.reverse ++ '/' :: (back.reverse ++ (id ++ ".md")) := by
      rw [hfile, hsplit, List.append_assoc, List.cons_append]
    have habsolute (t : Text) : (⟨front.reverse ++ '/' :: t⟩ : Path).isAbsolute =
        (⟨front.reverse ++ ['/']⟩ : Path).isAbsolute := by
      cases front.reverse with
      | nil => rfl
      | cons c rest => rfl
    cases hfront : (⟨front.reverse ++ ['/']⟩ : Path).isAbsolute with
    | true =>
      refine ⟨FileTree.resolve [] (FileTree.names ⟨front.reverse⟩), back.reverse,
        fun id hid => ?_, fun hno => absurd hscope hno⟩
      rw [workflowPath, htext, Path.join, habsolute, hfront, if_pos rfl, FileTree.placeOf,
        FileTree.names_append_slash, FileTree.resolve_append, resolve_document hlead hid]
    | false =>
      refine ⟨FileTree.resolve (FileTree.placeOf (output.join (.ofString "workflows")))
        (FileTree.names ⟨front.reverse⟩), back.reverse, fun id hid => ?_,
        fun hno => absurd hscope hno⟩
      rw [workflowPath, htext, FileTree.placeOf, FileTree.names_join ((habsolute _).trans hfront),
        FileTree.names_append_slash, FileTree.resolve_append, FileTree.resolve_append,
        resolve_document hlead hid]
      rfl
  · refine ⟨FileTree.placeOf (output.join (.ofString "workflows")), scope, fun id hid => ?_,
      fun _ => hworkflows⟩
    rw [workflowPath, hfile, FileTree.placeOf_join_name (isName_document hscope hid)]

end

/-! ## All files of a library -/

/-- The files of the skills of agents, which are given by the names of their files. -/
def skillTargets (l : Library) (agents : List Text) : List Path :=
  agents.map fun agent => skillPath l.output (Skill.id agent)

/-- The files of the workflows of commands. -/
def workflowTargets (l : Library) (commands : List (Text × Text)) : List Path :=
  commands.flatMap fun c => (l.bundle c).ids.map (workflowPath l.output l.settings.scope)

theorem slash_not_mem_skillId {agent stem : Text} (h : Path.NamesDocument agent stem) :
    '/' ∉ Skill.id agent := by
  rw [Skill.id_append h, Text.strip]
  cases hafter : Text.after? Invocation.agentTag stem with
  | none => exact h.no_slash
  | some rest =>
    have hstem := Text.after?_eq_some.1 hafter
    exact fun hmem => h.no_slash (hstem ▸ List.mem_append_right _ hmem)

theorem slash_not_mem_workflowId {l : Library} {c : Text × Text} {stem : Text}
    (h : Path.NamesDocument c.1 stem) : ∀ id ∈ (l.bundle c).ids, '/' ∉ id := by
  have hname : commandName c.1 = stem := by rw [h.eq, commandName_append]
  intro id hid
  rcases List.mem_cons.1 hid with rfl | hid
  · rw [bundle, Workflow.main_id_compile, hname]
    exact h.no_slash
  · obtain ⟨s, hs, rfl⟩ := List.mem_map.1 hid
    obtain ⟨tail, htail, hout⟩ := Workflow.exists_id _ _ _ hs
    rw [htail, hname]
    simp only [List.mem_append, List.mem_cons, not_or]
    exact ⟨⟨h.no_slash, by decide⟩, by decide, hout '/' ⟨by decide, by decide, by decide⟩⟩

section
variable (l : Library) {agents : List Text} {commands : List (Text × Text)}

theorem nodup_skillTargets_iff (hagents : ∀ agent ∈ agents, ∃ stem, Path.NamesDocument agent stem) :
    ((l.skillTargets agents).map FileTree.placeOf).Nodup ↔
      (agents.map fun agent => folder (Skill.id agent)).Nodup := by
  rw [skillTargets, List.map_map, List.Nodup, List.Nodup, List.pairwise_map, List.pairwise_map]
  refine List.Pairwise.iff_of_mem fun {a b} ha hb => not_congr ?_
  obtain ⟨stem, hstem⟩ := hagents a ha
  obtain ⟨other, hother⟩ := hagents b hb
  exact placeOf_skillPath_inj l.output (slash_not_mem_skillId hstem) (slash_not_mem_skillId hother)

theorem nodup_workflowTargets_iff
    (hcommands : ∀ c ∈ commands, ∃ stem, Path.NamesDocument c.1 stem)
    (hnames : (commands.map Prod.fst).Nodup) :
    ((l.workflowTargets commands).map FileTree.placeOf).Nodup ↔
      ∀ c ∈ commands, ∀ s ∈ (l.bundle c).satellites, ∀ d ∈ commands, s.id ≠ commandName d.1 := by
  obtain ⟨place, lead, hplace, -⟩ := exists_placeOf_workflowPath l.output l.settings.scope
  have htargets : (l.workflowTargets commands).map FileTree.placeOf =
      (commands.flatMap fun c => (l.bundle c).ids).map fun id =>
        place ++ [lead ++ (id ++ ".md")] := by
    rw [workflowTargets, List.map_flatMap, List.map_flatMap]
    refine List.flatMap_congr fun c hc => ?_
    obtain ⟨stem, hstem⟩ := hcommands c hc
    rw [List.map_map]
    exact List.map_congr_left fun id hid => hplace id (slash_not_mem_workflowId hstem id hid)
  have hinjective : Function.Injective fun id : Text => place ++ [lead ++ (id ++ ".md")] := by
    intro a b h
    have hlast := List.append_cancel_left h
    rw [List.cons.injEq] at hlast
    exact List.append_cancel_right (List.append_cancel_left hlast.1)
  have hcommandNames : (commands.map fun c => commandName c.1).Nodup := by
    refine List.pairwise_map.2 ((List.pairwise_map.1 hnames).imp_of_mem ?_)
    intro c d hc hd hne hname
    obtain ⟨stem, hstem⟩ := hcommands c hc
    obtain ⟨other, hother⟩ := hcommands d hd
    rw [hstem.eq, hother.eq, commandName_append, commandName_append] at hname
    rw [hstem.eq, hother.eq, hname] at hne
    exact hne rfl
  rw [htargets, List.nodup_map_iff hinjective, nodup_workflowIds_iff hcommandNames]

/-- Workflows and skills are in different directories unless the scope has a slash. -/
theorem placeOf_ne_of_no_slash
    (hagents : ∀ agent ∈ agents, ∃ stem, Path.NamesDocument agent stem)
    (hcommands : ∀ c ∈ commands, ∃ stem, Path.NamesDocument c.1 stem)
    (hscope : '/' ∉ l.settings.scope) :
    ∀ p ∈ l.skillTargets agents, ∀ q ∈ l.workflowTargets commands,
      FileTree.placeOf p ≠ FileTree.placeOf q := by
  intro p hp q hq h
  obtain ⟨place, lead, hplace, hdirectory⟩ := exists_placeOf_workflowPath l.output l.settings.scope
  obtain ⟨agent, hagent, rfl⟩ := List.mem_map.1 hp
  obtain ⟨c, hc, hq⟩ := List.mem_flatMap.1 hq
  obtain ⟨id, hid, rfl⟩ := List.mem_map.1 hq
  obtain ⟨stem, hstem⟩ := hagents agent hagent
  obtain ⟨other, hother⟩ := hcommands c hc
  rw [placeOf_skillPath_eq l.output (slash_not_mem_skillId hstem),
    hplace id (slash_not_mem_workflowId hother id hid), hdirectory hscope] at h
  have hhome := (List.append_inj' h rfl).1
  unfold home at hhome
  split at hhome
  · have hname := List.append_cancel_left hhome
    exact absurd hname (by decide)
  · split at hhome
    · simp at hhome
    · simp at hhome

/-- The files that the skills and workflows of a library are written to are all different exactly
if no two skills have the same folder, no satellite has the name of a command, and no workflow is
written where a skill is, which takes a scope with a slash. -/
theorem targets_nodup_iff
    (hagents : ∀ agent ∈ agents, ∃ stem, Path.NamesDocument agent stem)
    (hcommands : ∀ c ∈ commands, ∃ stem, Path.NamesDocument c.1 stem)
    (hnames : (commands.map Prod.fst).Nodup) :
    (((l.skillTargets agents ++ l.workflowTargets commands).map FileTree.placeOf).Nodup ↔
      (agents.map fun agent => folder (Skill.id agent)).Nodup ∧
      (∀ c ∈ commands, ∀ s ∈ (l.bundle c).satellites, ∀ d ∈ commands, s.id ≠ commandName d.1) ∧
      ∀ p ∈ l.skillTargets agents, ∀ q ∈ l.workflowTargets commands,
        FileTree.placeOf p ≠ FileTree.placeOf q) ∧
    ('/' ∉ l.settings.scope → ∀ p ∈ l.skillTargets agents, ∀ q ∈ l.workflowTargets commands,
      FileTree.placeOf p ≠ FileTree.placeOf q) ∧
    (∀ agent ∈ agents, ∀ path : Path, path.fileName? = some agent →
      l.compileSkill path = (Script.readText path).bind fun source =>
        (save (skillPath l.output (Skill.id agent))
          (encode (Skill.compile agent source).document.render)).bind
            fun _ => .done (Skill.id agent)) ∧
    ∀ c ∈ commands, ∀ path : Path, path.fileName? = some c.1 →
      l.compileCommand path = (Script.readText path).bind fun source =>
        let out := l.bundle (c.1, source)
        (Script.each
          (fun a => save (workflowPath l.output l.settings.scope a.id) (encode a.document.render))
          (out.main :: out.satellites)).bind fun _ => .done (Summary.ofBundle out) := by
  refine ⟨?_, placeOf_ne_of_no_slash l hagents hcommands,
    fun _ _ _ hpath => compileSkill_eq l hpath, fun _ _ _ hpath => compileCommand_eq l hpath⟩
  rw [List.map_append, List.nodup_append, nodup_skillTargets_iff l hagents,
    nodup_workflowTargets_iff l hcommands hnames]
  simp only [List.forall_mem_map, ne_eq]

end

/-- Two agents, and two commands of which one is split. -/
theorem targets_nodup_two_commands :
    let l : Library :=
      ⟨.ofString ".", .ofString "./.agent", .standard, ⟨⟨50, Double.one⟩, "gsd:", .standard⟩⟩
    let agents : List Text := [("gsd-planner.md" : Text), "custom.md"]
    let commands : List (Text × Text) :=
      [("plan.md", "## Phase 1: A\nx\n## Phase 2: B\ny\n"), ("check.md", "z\n")]
    (∀ agent ∈ agents, ∃ stem, Path.NamesDocument agent stem) ∧
    (∀ c ∈ commands, ∃ stem, Path.NamesDocument c.1 stem) ∧
    (commands.map Prod.fst).Nodup ∧ '/' ∉ l.settings.scope ∧
    (l.workflowTargets commands).map Path.text =
      ["./.agent/workflows/gsd:plan.md", "./.agent/workflows/gsd:plan-phase-2.md",
        "./.agent/workflows/gsd:check.md"].map String.toList ∧
    ((l.skillTargets agents ++ l.workflowTargets commands).map FileTree.placeOf).Nodup := by
  intro l agents commands
  have hagents : ∀ agent ∈ agents, ∃ stem, Path.NamesDocument agent stem := by
    refine List.forall_mem_cons.2 ⟨⟨"gsd-planner", rfl, by decide, by decide⟩, ?_⟩
    exact List.forall_mem_singleton.2 ⟨"custom", rfl, by decide, by decide⟩
  have hcommands : ∀ c ∈ commands, ∃ stem, Path.NamesDocument c.1 stem := by
    refine List.forall_mem_cons.2 ⟨⟨"plan", rfl, by decide, by decide⟩, ?_⟩
    exact List.forall_mem_singleton.2 ⟨"check", rfl, by decide, by decide⟩
  have hnames : (commands.map Prod.fst).Nodup := by decide
  have hscope : '/' ∉ l.settings.scope := by decide
  obtain ⟨hiff, hapart, -, -⟩ := targets_nodup_iff l hagents hcommands hnames
  have hfolders : (agents.map fun agent => folder (Skill.id agent)).Nodup := by decide +kernel
  have hsatellites : ∀ c ∈ commands, ∀ s ∈ (l.bundle c).satellites, ∀ d ∈ commands,
      s.id ≠ commandName d.1 := by decide +kernel
  exact ⟨hagents, hcommands, hnames, hscope, by decide +kernel,
    hiff.2 ⟨hfolders, hsatellites, hapart hscope⟩⟩

/-- The tag sets two agents apart that have one skill, and a command has the name of another
one's satellite. -/
theorem targets_collide :
    let l : Library :=
      ⟨.ofString ".", .ofString "./.agent", .standard, ⟨⟨50, Double.one⟩, "gsd:", .standard⟩⟩
    let agents : List Text := [("a.md" : Text), "gsd-a.md"]
    let commands : List (Text × Text) :=
      [("plan-phase-2.md", "z\n"), ("plan.md", "## Phase 1: A\nx\n## Phase 2: B\ny\n")]
    agents.Nodup ∧ (commands.map Prod.fst).Nodup ∧
    (l.skillTargets agents).map Path.text =
      ["./.agent/skills/a/SKILL.md", "./.agent/skills/a/SKILL.md"].map String.toList ∧
    (l.workflowTargets commands).map Path.text =
      ["./.agent/workflows/gsd:plan-phase-2.md", "./.agent/workflows/gsd:plan.md",
        "./.agent/workflows/gsd:plan-phase-2.md"].map String.toList ∧
    ¬ ((l.skillTargets agents).map FileTree.placeOf).Nodup ∧
    ¬ ((l.workflowTargets commands).map FileTree.placeOf).Nodup := by
  decide +kernel

end Library

end Playbook
