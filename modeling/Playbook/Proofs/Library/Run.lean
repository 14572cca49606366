import Playbook.Proofs.Library.Collisions
import Playbook.Proofs.Library.Sources

/-!
# A whole run

A run compiles the agents, then the commands, and copies resources and rules last. All of it is
written below the output directory, so the sources outside of it are read as they were before the
run. The documents have places of their own beside the resources and the rules; only another
document can take the place of one.

Results:
* `below_skillPath`, `below_workflowPath`: documents are saved below the output directory.
* `writes_copyResources`, `copyRules_eq_ok`: what is copied is not written where documents are.
* `compile_all`: what is reported, and what is on the disk after a run.
-/
namespace Playbook

namespace Library

open Disk hiding placeOf
open Disk.FileTree
open Playbook.Path (IsName)

/-! ## Below the output directory -/

/-- A directory that lies outside of the output directory and is not on the way to it. -/
structure Outside (output : Path) (directory : Location) : Prop where
  way : ∀ place, OnWay output place → ¬ directory <+: place
  inside : ¬ placeOf output <+: directory

/-- A file that is saved below the output directory. -/
structure Below (output p : Path) : Prop where
  beside : ∀ place, Beside p place → placeOf output <+: place
  way : ∀ place, OnWay p place → placeOf output <+: place ∨ OnWay output place

section
variable {output p : Path} {directory place : Location} {t u : FileTree}

theorem Outside.not_prefix (h : Outside output directory)
    (hplace : placeOf output <+: place ∨ OnWay output place) : ¬ directory <+: place := by
  intro hprefix
  rcases hplace with hbelow | hway
  · rcases List.prefix_or_prefix_of_prefix hbelow hprefix with hinside | haround
    · exact h.inside hinside
    · exact h.way _ (onWay_placeOf output) haround
  · exact h.way place hway hprefix

theorem outside_of_isName (hnames : ∀ name ∈ names output, IsName name)
    (hbefore : ¬ directory <+: placeOf output) (hbehind : ¬ placeOf output <+: directory) :
    Outside output directory := by
  refine ⟨?_, hbehind⟩
  intro place hway hinside
  obtain ⟨front, hfront, rfl⟩ := hway
  rw [resolve_isName fun name hname => hnames name (hfront.subset hname)] at hinside
  rw [placeOf, resolve_isName hnames] at hbefore
  exact hbefore (hinside.trans hfront)

theorem Below.spares (h : Below output p) (houtside : Outside output directory) :
    Spares directory p := by
  rintro place (hplace | hplace)
  · exact houtside.not_prefix (Or.inl (h.beside place hplace))
  · exact houtside.not_prefix (h.way place hplace)

theorem Outside.get?_eq (h : Outside output directory)
    (hwrites : Writes (placeOf output <+: ·) (OnWay output) t u) :
    u.get? directory = t.get? directory :=
  hwrites.get?_eq fun _ => h.not_prefix

theorem writes_below {documents : List (Path × Text)} (h : Wrote documents t u)
    (hbelow : ∀ d ∈ documents, Below output d.1) :
    Writes (placeOf output <+: ·) (OnWay output) t u := by
  refine h.writes.mono ?_ ?_
  · exact fun place ⟨d, hd, hplace⟩ => (hbelow d hd).beside place hplace
  · exact fun place ⟨d, hd, hplace⟩ => (hbelow d hd).way place hplace

end

theorem lasting_of_getLast? {outer : Location} {name : Text} (h : name.getLast? = some 'd') :
    Lasting (outer ++ [name]) := by
  intro other base heq
  have hname := (List.cons.inj (List.append_inj_right' heq rfl)).1
  rw [hname, temporaryName, List.getLast?_append] at h
  cases h

section
variable (output : Path) {id : Text}

theorem prefix_home (place : Location) (folder : Text) : place <+: home place folder := by
  unfold home
  split
  · exact List.prefix_append _ _
  · split
    · exact List.prefix_rfl
    · exact List.prefix_append _ _

theorem below_skillPath (hslash : '/' ∉ id) : Below output (skillPath output id) := by
  have hplace := placeOf_skillPath_eq output hslash
  have hnames := names_skillPath output hslash
  refine ⟨fun place h => h.prefix hplace (prefix_home _ _), fun place => onWay_of_names hnames ?_⟩
  intro front hfront
  have hhome : resolve (placeOf output) ([("skills" : Text)] ++ names ⟨id⟩) =
      home (placeOf output) (folder id) := by
    rw [resolve_append, resolve_name (by decide) (by decide), resolve_id hslash]
  rw [List.prefix_concat_iff] at hfront
  rcases hfront with rfl | hfront
  · rw [resolve_append, hhome, resolve_name (by decide) (by decide)]
    exact (prefix_home _ _).trans (List.prefix_append _ _)
  · -- the folder, or what is in front of it
    have hname : ∀ name ∈ [("skills" : Text)], IsName name := by decide
    have hskills := prefix_resolve_isName hname (placeOf output) front
    rw [names_of_no_slash hslash] at hfront hhome
    split at hfront
    · exact hskills hfront
    · rename_i hid
      rw [if_neg hid] at hhome
      rw [List.prefix_concat_iff] at hfront
      rcases hfront with rfl | hfront
      · rw [hhome]
        exact prefix_home _ _
      · exact hskills hfront

theorem lasting_skillPath (hslash : '/' ∉ id) : Lasting (placeOf (skillPath output id)) := by
  rw [placeOf_skillPath_eq output hslash]
  exact lasting_of_getLast? rfl

section
variable {scope : Text} (hscope : '/' ∉ scope) (hslash : '/' ∉ id)
include hscope hslash

/-- Workflows are in one directory if the scope leads to no other. -/
theorem placeOf_workflowPath : placeOf (workflowPath output scope id) =
    placeOf output ++ [("workflows" : Text)] ++ [scope ++ (id ++ ".md")] := by
  have hfile : Bundle.fileName scope id = scope ++ (id ++ ".md") := List.append_assoc _ _ _
  rw [workflowPath, hfile, placeOf_join_name (isName_document hscope hslash)]
  exact congrArg (· ++ _) (placeOf_join_name (by decide))

theorem below_workflowPath : Below output (workflowPath output scope id) := by
  have hfile : Bundle.fileName scope id = scope ++ (id ++ ".md") := List.append_assoc _ _ _
  have hname := isName_document hscope hslash
  have hnames : names (workflowPath output scope id) =
      names output ++ [("workflows" : Text), scope ++ (id ++ ".md")] := by
    have hworkflows : names (output.join (.ofString "workflows")) =
        names output ++ [("workflows" : Text)] := names_join_name (by decide)
    rw [workflowPath, hfile, names_join_name hname, hworkflows, List.append_assoc]
    rfl
  refine ⟨fun place h => h.prefix (placeOf_workflowPath output hscope hslash)
    (List.prefix_append _ _), fun place => onWay_of_names hnames (prefix_resolve_isName ?_ _)⟩
  rw [List.forall_mem_cons, List.forall_mem_singleton]
  exact ⟨by decide, hname⟩

theorem lasting_workflowPath : Lasting (placeOf (workflowPath output scope id)) := by
  rw [placeOf_workflowPath output hscope hslash]
  refine lasting_of_getLast? ?_
  rw [← List.append_assoc, List.getLast?_append]
  rfl

end

end

/-! ## Resources and rules -/

theorem run_leadsTo_eq_ok {kind : Kind} {p : Path} {b : Bool} {t u : FileTree}
    (h : run (Script.leadsTo kind p) t = (.ok b, u)) :
    t = u ∧ (b = true → kindOf t p true = .ok kind) := by
  rw [Script.leadsTo, run] at h
  split at h
  · rename_i found hfound
    cases h
    refine ⟨rfl, fun hkind => ?_⟩
    rw [decide_eq_true_eq] at hkind
    rw [← hkind]
    exact hfound
  · cases h
    exact ⟨rfl, fun h => absurd h Bool.false_ne_true⟩

theorem directory_of_kindOf {p : Path} {t : FileTree} (ht : t.Linkless)
    (h : kindOf t p true = .ok .directory) :
    ∃ entries, t.get? (placeOf p) = some (.directory entries) := by
  obtain ⟨node, hnode, hkind⟩ := Option.map_eq_some_iff.1 (kindOf_eq_ok ht h)
  cases node with
  | directory entries => exact ⟨entries, hnode⟩
  | file | link => cases hkind

theorem onWay_join_name {p : Path} {name : Text} (hname : IsName name) {place : Location}
    (h : OnWay (p.join ⟨name⟩) place) : place = placeOf p ++ [name] ∨ OnWay p place := by
  obtain ⟨front, hfront, rfl⟩ := h
  rw [names_join_name hname, List.prefix_concat_iff] at hfront
  rcases hfront with rfl | hfront
  · rw [resolve_append, resolve_name hname.dot hname.dots]
    exact Or.inl rfl
  · exact Or.inr ⟨front, hfront, rfl⟩

theorem onWay_part {output : Path} {part name : Text} (hpart : IsName part) (hname : IsName name)
    {place : Location} (h : OnWay ((output.join ⟨part⟩).join ⟨name⟩) place) :
    placeOf output ++ [part] <+: place ∨ OnWay output place := by
  rcases onWay_join_name hname h with rfl | h
  · rw [placeOf_join_name hpart]
    exact Or.inl (List.prefix_append _ _)
  · rcases onWay_join_name hpart h with rfl | h
    · exact Or.inl List.prefix_rfl
    · exact Or.inr h

section
variable (l : Library) {t u : FileTree}

/-- The file of the rules. -/
def rulesPath : Path := (l.output.join (.ofString "rules")).join ⟨Host.rulesFile⟩

theorem writes_copyResource {name : Text} {files : List (Text × Nat)}
    (hname : IsName name) (ht : t.Plain) (hrun : run (l.copyResource name) t = (.ok files, u)) :
    Writes (placeOf l.output ++ [("resources" : Text)] <+: ·) (OnWay l.output) t u := by
  obtain ⟨there, v, hthere, hrest⟩ := run_bind_eq_ok hrun
  obtain ⟨rfl, hkind⟩ := run_leadsTo_eq_ok hthere
  split at hrest
  · rename_i hsource
    obtain ⟨copied, w, hcopy, hend⟩ := run_bind_eq_ok hrest
    cases hend
    obtain ⟨entries, hentries⟩ := directory_of_kindOf ht.linkless (hkind hsource)
    refine (writes_copyTree ht hentries hcopy).mono (fun place hplace => ?_)
      fun place => onWay_part (by decide) hname
    rw [placeOf_join_name hname] at hplace
    have hpart : placeOf (l.output.join (.ofString "resources")) =
        placeOf l.output ++ [("resources" : Text)] := placeOf_join_name (by decide)
    rw [hpart] at hplace
    exact (List.prefix_append _ _).trans hplace
  · cases hrest
    exact .refl ht

theorem writes_copyResources {files : List (Text × Nat)} (ht : t.Plain)
    (hrun : run l.copyResources t = (.ok files, u)) :
    Writes (placeOf l.output ++ [("resources" : Text)] <+: ·) (OnWay l.output) t u := by
  have hnames : ∀ name ∈ Reference.resourceDirs, IsName name := by decide
  exact writes_gather ht (fun name hname _ _ _ hv hcopy =>
    writes_copyResource l (hnames name hname) hv hcopy) hrun

theorem copyRules_eq_ok {found : Bool} (ht : t.Plain)
    (hrun : run l.copyRules t = (.ok found, u)) :
    Writes (placeOf l.output ++ [("rules" : Text)] <+: ·) (OnWay l.output) t u ∧
      (found = true → ∃ contents,
        t.get? (placeOf (l.source.join l.layout.rules)) = some (.file contents) ∧
        u.item? (placeOf l.rulesPath) = some (.file contents)) := by
  obtain ⟨there, v, hthere, hrest⟩ := run_bind_eq_ok hrun
  obtain ⟨rfl, -⟩ := run_leadsTo_eq_ok hthere
  split at hrest
  · obtain ⟨contents, v, hread, hsave⟩ := run_bind_eq_ok hrest
    obtain ⟨_, w, hsaved, hend⟩ := run_bind_eq_ok hsave
    cases hend
    have hanswer := run_ask_eq_ok .disk hread
    rw [answer, Prod.mk.injEq] at hanswer
    obtain ⟨hcontents, rfl⟩ := hanswer
    have hpart : placeOf (l.output.join (.ofString "rules")) =
        placeOf l.output ++ [("rules" : Text)] := placeOf_join_name (by decide)
    have hfile : placeOf l.rulesPath =
        placeOf l.output ++ [("rules" : Text)] ++ [Host.rulesFile] := by
      rw [rulesPath, placeOf_join_name (by decide), hpart]
    obtain ⟨hwrites, hitem⟩ := writes_save ht hsaved
    refine ⟨hwrites.mono (fun place h => h.prefix hfile List.prefix_rfl)
      fun place => onWay_part (by decide) (by decide), fun _ => ⟨contents, ?_, hitem⟩⟩
    exact read_eq_ok ht.linkless hcontents
  · cases hrest
    exact ⟨.refl ht, fun h => absurd h Bool.false_ne_true⟩

/-! ## Documents -/

/-- The document of an agent, which is given by the name and the text of its file. -/
def skillDocument (agent : Text × Text) : Path × Text :=
  (skillPath l.output (Skill.id agent.1), (Skill.compile agent.1 agent.2).document.render)

/-- The documents of a command. -/
def workflowDocuments (command : Text × Text) : List (Path × Text) :=
  ((l.bundle command).main :: (l.bundle command).satellites).map fun a =>
    (workflowPath l.output l.settings.scope a.id, a.document.render)

/-- All documents of a library with their files, in the order in which they are saved. -/
def documents (agents commands : List (Text × Text)) : List (Path × Text) :=
  agents.flatMap (fun a => [l.skillDocument a]) ++ commands.flatMap l.workflowDocuments

theorem map_fst_documents (agents commands : List (Text × Text)) :
    (l.documents agents commands).map Prod.fst =
      l.skillTargets (agents.map Prod.fst) ++ l.workflowTargets commands := by
  have hworkflows (c : Text × Text) : (l.workflowDocuments c).map Prod.fst =
      (l.bundle c).ids.map (workflowPath l.output l.settings.scope) := by
    rw [workflowDocuments, List.map_map, Bundle.ids, ← List.map_cons, List.map_map]
    rfl
  rw [documents, List.map_append, ← List.map_eq_flatMap, List.map_map, List.map_flatMap,
    skillTargets, List.map_map, workflowTargets]
  simp only [hworkflows]
  rfl

theorem compileSkill_join {directory : Path} {name : Text} (hname : IsName name) :
    l.compileSkill (directory.join ⟨name⟩) =
      (Script.readText (directory.join ⟨name⟩)).bind fun text =>
        (Script.each (fun d => save d.1 (encode d.2)) [l.skillDocument (name, text)]).bind fun _ =>
          .done (Skill.id name) := by
  rw [compileSkill_eq l (Path.fileName?_join_name hname)]
  congr 1
  funext text
  rw [Script.each, Script.each, skillDocument]
  simp only [Bind.bind, Script.bind_assoc, Script.done_bind]
  rfl

theorem compileCommand_join {directory : Path} {name : Text} (hname : IsName name) :
    l.compileCommand (directory.join ⟨name⟩) =
      (Script.readText (directory.join ⟨name⟩)).bind fun text =>
        (Script.each (fun d => save d.1 (encode d.2)) (l.workflowDocuments (name, text))).bind
          fun _ => .done (Summary.ofBundle (l.bundle (name, text))) := by
  rw [compileCommand_eq l (Path.fileName?_join_name hname)]
  simp only [workflowDocuments, Script.each_map]
  rfl

/-- The file of a document: no temporary, and neither among the resources nor the rules. -/
structure HoldsDocument (output p : Path) : Prop where
  below : Below output p
  lasting : Lasting (placeOf p)
  resources : ¬ placeOf output ++ [("resources" : Text)] <+: placeOf p
  rules : ¬ placeOf output ++ [("rules" : Text)] <+: placeOf p

/-- Documents are not below the parts for resources and rules. -/
theorem not_part_prefix {place rest : Location} {part next : Text} (h : part ≠ next) :
    ¬ place ++ [part] <+: place ++ next :: rest := by
  rw [List.prefix_append_right_inj, List.cons_prefix_cons]
  exact fun hprefix => h hprefix.1

theorem exists_placeOf_skillPath {id : Text} (hslash : '/' ∉ id) :
    ∃ next rest, placeOf (skillPath l.output id) = placeOf l.output ++ next :: rest ∧
      next ∈ [("skills" : Text), "SKILL.md"] := by
  rw [placeOf_skillPath_eq l.output hslash, home]
  split_ifs
  · exact ⟨"skills", ["SKILL.md"], List.append_assoc _ _ _, by decide⟩
  · exact ⟨"SKILL.md", [], rfl, by decide⟩
  · exact ⟨"skills", [folder id, "SKILL.md"], List.append_assoc _ _ _, by decide⟩

theorem holdsDocument_skillPath {id : Text} (hslash : '/' ∉ id) :
    HoldsDocument l.output (skillPath l.output id) := by
  obtain ⟨next, rest, hplace, hnext⟩ := exists_placeOf_skillPath l hslash
  have hresources : ∀ next ∈ [("skills" : Text), "SKILL.md"], ("resources" : Text) ≠ next := by
    decide
  have hrules : ∀ next ∈ [("skills" : Text), "SKILL.md"], ("rules" : Text) ≠ next := by decide
  refine ⟨below_skillPath l.output hslash, lasting_skillPath l.output hslash, ?_, ?_⟩
  · rw [hplace]
    exact not_part_prefix (hresources next hnext)
  · rw [hplace]
    exact not_part_prefix (hrules next hnext)

theorem holdsDocument_workflowPath {scope id : Text} (hscope : '/' ∉ scope) (hslash : '/' ∉ id) :
    HoldsDocument l.output (workflowPath l.output scope id) := by
  have hplace := placeOf_workflowPath l.output hscope hslash
  rw [List.append_assoc] at hplace
  refine ⟨below_workflowPath l.output hscope hslash, lasting_workflowPath l.output hscope hslash,
    ?_, ?_⟩
  · rw [hplace]
    exact not_part_prefix (by decide)
  · rw [hplace]
    exact not_part_prefix (by decide)

theorem holdsDocument_skill {a : Text × Text} {stem : Text} (h : Path.NamesDocument a.1 stem) :
    ∀ d ∈ [l.skillDocument a], HoldsDocument l.output d.1 :=
  List.forall_mem_singleton.2 (holdsDocument_skillPath l (slash_not_mem_skillId h))

theorem holdsDocument_workflow (hscope : '/' ∉ l.settings.scope) {c : Text × Text} {stem : Text}
    (h : Path.NamesDocument c.1 stem) :
    ∀ d ∈ l.workflowDocuments c, HoldsDocument l.output d.1 := by
  intro d hd
  obtain ⟨a, ha, rfl⟩ := List.mem_map.1 hd
  have hid : a.id ∈ (l.bundle c).ids := by
    rw [Bundle.ids, ← List.map_cons]
    exact List.mem_map_of_mem ha
  exact holdsDocument_workflowPath l hscope (slash_not_mem_workflowId h a.id hid)

/-! ## A run -/

theorem sourceDirectory_eq_ok {part path : Path}
    (hrun : run (l.sourceDirectory part) t = (.ok path, u)) :
    t = u ∧ path = l.source.join part ∧ kindOf t path true = .ok .directory := by
  obtain ⟨there, v, hthere, hend⟩ := run_bind_eq_ok hrun
  obtain ⟨rfl, hkind⟩ := run_leadsTo_eq_ok hthere
  split at hend
  · rename_i hdirectory
    cases hend
    exact ⟨rfl, rfl, hkind hdirectory⟩
  · cases hend

/-- What a run reports and leaves on the disk, for the agents and commands that it found. -/
structure Compiled (root t : FileTree) (report : Report) (agents commands : List (Text × Text)) :
    Prop where
  agentsFound : Documents root (placeOf (l.source.join l.layout.agents)) agents
  commandsFound : Documents root (placeOf (l.source.join l.layout.commands)) commands
  skills : report.skills = agents.map fun a => Skill.id a.1
  workflows : report.workflows = commands.map fun c => Summary.ofBundle (l.bundle c)
  latest : Latest (l.documents agents commands) t
  rules : report.rules = true → Outside l.output (placeOf (l.source.join l.layout.rules)) →
    ∃ contents, root.get? (placeOf (l.source.join l.layout.rules)) = some (.file contents) ∧
      t.item? (placeOf l.rulesPath) = some (.file contents)
  outside : ∀ place, ¬ placeOf l.output <+: place → root.item? place ≠ none →
    t.item? place = root.item? place

theorem holdsDocument {agents commands : List (Text × Text)} (hscope : '/' ∉ l.settings.scope)
    (hagents : ∀ a ∈ agents, ∃ stem, Path.NamesDocument a.1 stem)
    (hcommands : ∀ c ∈ commands, ∃ stem, Path.NamesDocument c.1 stem) :
    ∀ d ∈ l.documents agents commands, HoldsDocument l.output d.1 := by
  rw [documents, List.forall_mem_append, List.forall_mem_flatMap, List.forall_mem_flatMap]
  refine ⟨fun a ha => ?_, fun c hc => ?_⟩
  · obtain ⟨stem, hstem⟩ := hagents a ha
    exact l.holdsDocument_skill hstem
  · obtain ⟨stem, hstem⟩ := hcommands c hc
    exact l.holdsDocument_workflow hscope hstem

/-- Agents and commands are compiled; the commands were not touched by what was saved before. -/
theorem compile_documents {agentFiles commandFiles : List Path} {skills : List Text}
    {workflows : List Summary} {t u v w x : FileTree} (ht : t.Plain) (hproper : t.Proper)
    (hscope : '/' ∉ l.settings.scope)
    (hagents : Outside l.output (placeOf (l.source.join l.layout.agents)))
    (hcommands : Outside l.output (placeOf (l.source.join l.layout.commands)))
    (hfirst : kindOf t (l.source.join l.layout.agents) true = .ok .directory)
    (hsecond : kindOf t (l.source.join l.layout.commands) true = .ok .directory)
    (hagentFiles : run (markdownFiles (l.source.join l.layout.agents)) t = (.ok agentFiles, u))
    (hskills : run (Script.each l.compileSkill agentFiles) u = (.ok skills, v))
    (hcommandFiles : run (markdownFiles (l.source.join l.layout.commands)) v =
      (.ok commandFiles, w))
    (hworkflows : run (Script.each l.compileCommand commandFiles) w = (.ok workflows, x)) :
    ∃ agents commands, Documents t (placeOf (l.source.join l.layout.agents)) agents ∧
      Documents t (placeOf (l.source.join l.layout.commands)) commands ∧
      (skills = agents.map fun a => Skill.id a.1) ∧
      (workflows = commands.map fun c => Summary.ofBundle (l.bundle c)) ∧
      Wrote (l.documents agents commands) t x := by
  obtain ⟨entries, hentries⟩ := directory_of_kindOf ht.linkless hfirst
  obtain ⟨agents, hagentsFound, rfl, hwrote⟩ := documents_eq_ok (fun a => Skill.id a.1)
    (fun a => [l.skillDocument a]) (fun _ => l.compileSkill_join)
    (fun a stem h d hd => ⟨(l.holdsDocument_skill h d hd).lasting,
      (l.holdsDocument_skill h d hd).below.spares hagents⟩)
    ht hentries (hproper _ _ hentries).1 (hproper _ _ hentries).2 hagentFiles hskills
  -- the commands are still there
  have hstems := hagentsFound.exists_stem ht
  have hbelow : ∀ d ∈ agents.flatMap fun a => [l.skillDocument a], Below l.output d.1 := by
    rw [List.forall_mem_flatMap]
    intro a ha d hd
    obtain ⟨stem, hstem⟩ := hstems a ha
    exact (l.holdsDocument_skill hstem d hd).below
  have hget := hcommands.get?_eq (writes_below hwrote hbelow)
  obtain ⟨others, hothers⟩ := directory_of_kindOf ht.linkless hsecond
  obtain ⟨commands, hcommandsFound, rfl, hwroteLater⟩ := documents_eq_ok
    (fun c => Summary.ofBundle (l.bundle c)) l.workflowDocuments (fun _ => l.compileCommand_join)
    (fun c stem h d hd => ⟨(l.holdsDocument_workflow hscope h d hd).lasting,
      (l.holdsDocument_workflow hscope h d hd).below.spares hcommands⟩)
    hwrote.writes.plain (hget.trans hothers) (hproper _ _ hothers).1 (hproper _ _ hothers).2
    hcommandFiles hworkflows
  exact ⟨agents, commands, hagentsFound, hcommandsFound.congr hget, rfl, rfl,
    hwrote.append hwroteLater⟩

/-- As many workflow files are reported as there are files of workflows. -/
theorem Compiled.workflowFiles_eq {report : Report} {agents commands : List (Text × Text)}
    (h : l.Compiled t u report agents commands) :
    report.workflowFiles = (l.workflowTargets commands).length := by
  have hsummaries : report.workflows = (commands.map l.bundle).map Summary.ofBundle := by
    rw [h.workflows, List.map_map]
    rfl
  rw [Library.workflowFiles_eq report _ hsummaries, workflowTargets, List.length_flatMap,
    List.length_flatMap, List.map_map]
  refine congrArg List.sum (List.map_congr_left fun c _ => ?_)
  rw [List.length_map, Bundle.ids, ← List.map_cons, List.length_map]
  rfl

theorem run_each_singleton {α β : Type} {f : α → Script β} {a : α} {b : β} {t u : FileTree}
    (h : run (f a) t = (.ok b, u)) : run (Script.each f [a]) t = (.ok [b], u) := by
  rw [Script.each, run_bind_of_ok h]
  rfl

/-- A run that ends well has compiled all agents and commands that were there before. Each of their
documents is on the disk unless a later one has its place, so all of them are if their places
differ. What is outside of the output directory stays. -/
theorem compile_all {report : Report} (ht : t.Linkless) (hproper : t.Proper)
    (hscope : '/' ∉ l.settings.scope)
    (hagents : Outside l.output (placeOf (l.source.join l.layout.agents)))
    (hcommands : Outside l.output (placeOf (l.source.join l.layout.commands)))
    (hrun : run l.compile t = (.ok report, u)) :
    ∃ agents commands, l.Compiled t u report agents commands ∧
      (((l.skillTargets (agents.map Prod.fst) ++ l.workflowTargets commands).map placeOf).Nodup →
        ∀ d ∈ l.documents agents commands, u.item? (placeOf d.1) = some (.file (encode d.2))) := by
  have hplain := hproper.plain ht
  obtain ⟨agentPath, v, hsource, hrun⟩ := run_bind_eq_ok hrun
  obtain ⟨rfl, rfl, hfirst⟩ := l.sourceDirectory_eq_ok hsource
  obtain ⟨commandPath, v, hother, hrun⟩ := run_bind_eq_ok hrun
  obtain ⟨rfl, rfl, hsecond⟩ := l.sourceDirectory_eq_ok hother
  obtain ⟨agentFiles, v, hagentFiles, hrun⟩ := run_bind_eq_ok hrun
  obtain ⟨skills, w, hskills, hrun⟩ := run_bind_eq_ok hrun
  obtain ⟨commandFiles, x, hcommandFiles, hrun⟩ := run_bind_eq_ok hrun
  obtain ⟨workflows, y, hworkflows, hrun⟩ := run_bind_eq_ok hrun
  obtain ⟨agents, commands, hagentsFound, hcommandsFound, hids, hsummaries, hwrote⟩ :=
    l.compile_documents hplain hproper hscope hagents hcommands hfirst hsecond hagentFiles hskills
      hcommandFiles hworkflows
  have hholds := l.holdsDocument hscope (hagentsFound.exists_stem hplain)
    (hcommandsFound.exists_stem hplain)
  -- resources and rules are copied beside the documents
  obtain ⟨resources, z, hresources, hrun⟩ := run_bind_eq_ok hrun
  obtain ⟨rules, last, hrules, hend⟩ := run_bind_eq_ok hrun
  cases hend
  have hcopied := l.writes_copyResources hwrote.writes.plain hresources
  obtain ⟨hruled, hfile⟩ := l.copyRules_eq_ok hcopied.plain hrules
  have hlatest : Latest (l.documents agents commands) u := by
    refine hwrote.latest.mono fun d hd hthere => ?_
    have hkept := hcopied.item?_eq (hholds d hd).resources hthere
    rw [hruled.item?_eq (hholds d hd).rules (by rwa [hkept]), hkept]
  have hbelow {part : Text} : ∀ place, placeOf l.output ++ [part] <+: place →
      placeOf l.output <+: place := fun place hplace => (List.prefix_append _ _).trans hplace
  have hbefore := (writes_below hwrote fun d hd => (hholds d hd).below).trans
    (hcopied.mono hbelow fun _ => Or.inr)
  have hall := hbefore.trans (hruled.mono hbelow fun _ => Or.inr)
  refine ⟨agents, commands, ⟨hagentsFound, hcommandsFound, hids, hsummaries, hlatest,
    fun hfound houtside => ?_, fun place => hall.item?_eq⟩, fun hnodup => hlatest.item?_eq ?_⟩
  · rw [← houtside.get?_eq hbefore]
    exact hfile hfound
  · rw [← map_fst_documents, List.map_map] at hnodup
    exact hnodup

end

/-! ## A library with an agent and a command -/

def small : Library :=
  ⟨.ofString "lib", .ofString "out", .standard, ⟨⟨50, Double.one⟩, "gsd:", .standard⟩⟩

/-- A disk with the small library, and other entries beside it. -/
def smallDisk (others : List (Text × FileTree)) : FileTree :=
  .directory (("lib", .directory
    [("agents", .directory [("gsd-a.md", .file (encode "x"))]),
      ("commands", .directory [("gsd", .directory [("b.md", .file (encode "y"))])])]) :: others)

/-- What the small library is compiled to: first the skill, and then the workflow beside it. -/
def smallOutput (workflows : List (Text × FileTree)) : Text × FileTree :=
  ("out", .directory (("skills", .directory [("a", .directory
    [("SKILL.md", .file (encode (small.skillDocument ("gsd-a.md", "x")).2))])]) :: workflows))

theorem run_compileSkill_small :
    run (small.compileSkill ((small.source.join small.layout.agents).join ⟨"gsd-a.md"⟩))
      (smallDisk []) = (.ok "a", smallDisk [smallOutput []]) := by
  rw [compileSkill_join small (by decide)]
  refine (run_bind_of_ok (run_readText rfl)).trans ?_
  rfl

def smallWorkflows : Text × FileTree :=
  ("workflows", .directory
    [("gsd:b.md", .file (encode (small.bundle ("b.md", "y")).main.document.render))])

theorem run_compileCommand_small :
    run (small.compileCommand ((small.source.join small.layout.commands).join ⟨"b.md"⟩))
      (smallDisk [smallOutput []]) =
      (.ok (Summary.ofBundle (small.bundle ("b.md", "y"))),
        smallDisk [smallOutput [smallWorkflows]]) := by
  rw [compileCommand_join small (by decide)]
  refine (run_bind_of_ok (run_readText rfl)).trans ?_
  rfl

theorem run_compile_small : run small.compile (smallDisk []) =
    (.ok ⟨["a"], [Summary.ofBundle (small.bundle ("b.md", "y"))], [], false⟩,
      smallDisk [smallOutput [smallWorkflows]]) := by
  have hagents : run (small.sourceDirectory small.layout.agents) (smallDisk []) =
    (.ok (small.source.join small.layout.agents), smallDisk []) := rfl
  have hcommands : run (small.sourceDirectory small.layout.commands) (smallDisk []) =
    (.ok (small.source.join small.layout.commands), smallDisk []) := rfl
  rw [compile, run_bind_of_ok hagents, run_bind_of_ok hcommands]
  rw [run_bind_of_ok (run_markdownFiles rfl rfl (by decide))]
  refine (run_bind_of_ok (run_each_singleton run_compileSkill_small)).trans ?_
  rw [run_bind_of_ok (run_markdownFiles rfl rfl (by decide))]
  refine (run_bind_of_ok (run_each_singleton run_compileCommand_small)).trans ?_
  rfl

theorem linkless_smallDisk : (smallDisk []).Linkless := by
  refine linkless_directory (List.forall_mem_singleton.2 (linkless_directory ?_))
  rw [List.forall_mem_cons, List.forall_mem_singleton]
  have hfile {name contents} : (FileTree.directory [(name, file contents)]).Linkless :=
    linkless_directory (List.forall_mem_singleton.2 (linkless_file _))
  exact ⟨hfile, linkless_directory (List.forall_mem_singleton.2 hfile)⟩

theorem proper_smallDisk : (smallDisk []).Proper := by
  have hsingle {name : Text} {t : FileTree} (hname : IsName name) (ht : t.Proper) :
      (FileTree.directory [(name, t)]).Proper :=
    proper_directory (List.nodup_singleton _) (List.forall_mem_singleton.2 ⟨hname, ht⟩)
  refine hsingle (by decide) (proper_directory (by decide) ?_)
  rw [List.forall_mem_cons, List.forall_mem_singleton]
  exact ⟨⟨by decide, hsingle (by decide) (proper_file _)⟩, by decide,
    hsingle (by decide) (hsingle (by decide) (proper_file _))⟩

theorem compile_all_small : ∃ agents commands,
    small.Compiled (smallDisk []) (smallDisk [smallOutput [smallWorkflows]])
      ⟨["a"], [Summary.ofBundle (small.bundle ("b.md", "y"))], [], false⟩ agents commands := by
  have hnames : ∀ name ∈ names small.output, IsName name := by decide
  obtain ⟨agents, commands, hcompiled, -⟩ :=
    small.compile_all linkless_smallDisk proper_smallDisk (by decide)
      (outside_of_isName hnames (by decide) (by decide))
      (outside_of_isName hnames (by decide) (by decide)) run_compile_small
  exact ⟨agents, commands, hcompiled⟩

end Library

end Playbook
