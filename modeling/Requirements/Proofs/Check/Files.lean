import Requirements.Proofs.Check.Owners
import Requirements.Proofs.Resolution.Drawn

/-! Owners by files. An action goes to the only module that stands beside it with its file. Among
the authored elements that is the only module of the file; of a repository's file the project has
only the modules that were drawn into it. -/
namespace Requirements

/-- The modules declared in files of the name: by the authors, or in the documents that were read,
depending on where the place is. -/
def Resolution.modulesIn (state : Resolution) (file : String) : Place → List Element
  | .authored _ => (state.project.authored.ofKind .module).filter (·.file == file)
  | .dependency _ =>
    (state.parsed.filter fun (path, _) => Disk.fileText path.text == file).flatMap fun (_, document) =>
      document.ofKind .module

namespace Ownership

/-- When modules have got what they claim, the action at the place has no owner, and the pass over
files gives it this one. -/
structure GivesByFile (project : Project) (place : Place) (owner : QualifiedName) : Prop where
  free : ∀ action, (ofModules project).project.element? place = some action → action.owner = none
  given : ∃ action, (ofFiles project).project.element? place = some action ∧ action.owner = some owner

variable {project : Project} {place : Place} {action : Element} {owner : QualifiedName}

/-- Who gets an owner from the files gets the only home. -/
theorem homes_of_decideByFile {contended : Bool} {filed : Element} (unowned : action.owner = none)
    (decided : (decideByFile project place (some action, contended)).1 = some filed)
    (owned : filed.owner = some owner) : project.homes place action = [owner] := by
  have changed : some action ≠ some filed := by
    rintro ⟨⟩
    cases unowned.symm.trans owned
  cases contended with
  | true => exact absurd decided changed
  | false =>
    cases homes : project.homes place action with
    | nil => exact absurd (by simpa [decideByFile, homes] using decided) changed
    | cons home more =>
      cases more with
      | nil =>
        simp only [decideByFile, homes, Option.some.injEq] at decided
        obtain rfl := decided
        rw [Option.some.inj owned]
      | cons => exact absurd (by simpa [decideByFile, homes] using decided) changed

theorem homes_of_givesByFile (gives : GivesByFile project place owner)
    (stands : project.element? place = some action) : project.homes place action = [owner] := by
  obtain ⟨filed, standsFiled, owned⟩ := gives.given
  have before := at?_ofModules project stands
  have unowned : (project.claimed place action).owner = none := gives.free _ (congrArg Prod.fst before :)
  have decided : ((ofFiles project).at? place).1 = some filed := standsFiled
  rw [at?_ofFiles, before] at decided
  split at decided
  next =>
    have homes : project.homes place (project.claimed place action) = [owner] :=
      homes_of_decideByFile unowned decided owned
    exact homes
  next =>
    obtain rfl := Option.some.inj decided
    cases unowned.symm.trans owned

/-- An error of this code is about an action beside which several modules of its file stand. -/
theorem ambiguous_of_mem_errors {report : Report} (member : report ∈ Report.errors (settle project).reports)
    {name : QualifiedName} {candidates : List QualifiedName}
    (coded : report.code = some (Finding.ownerAmbiguous name candidates).code) :
    ∃ place action, project.element? place = some action ∧ action.kind = .action ∧
      report ∈ project.ambiguities place action := by
  rcases List.mem_append.mp ((errors_settle project).mem_iff.mp member) with unknown | complained
  · obtain ⟨⟨binder, binding⟩, -, reported⟩ := List.mem_filterMap.mp unknown
    dsimp only at reported
    split at reported
    · obtain rfl := Option.some.inj reported
      simp [Finding.code] at coded
    · cases reported
  · obtain ⟨⟨place, action⟩, isPlaced, complaint⟩ := List.mem_flatMap.mp complained
    have stands := Project.mem_placed.mp isPlaced
    dsimp only at complaint
    split at complaint
    next isAction =>
      rw [Project.complaints] at complaint
      split at complaint
      next =>
        obtain ⟨other, -, rfl⟩ := List.mem_map.mp complaint
        rw [Claims.lateClaim] at coded
        split at coded <;> simp [Finding.code] at coded
      next =>
        split at complaint
        · exact ⟨place, action, stands, isAction, complaint⟩
        · cases complaint
    next => cases complaint

end Ownership

namespace Project

variable {project : Project} {place : Place} {action : Element}

theorem several_of_ambiguities {report : Report} (member : report ∈ project.ambiguities place action) :
    2 ≤ (project.beside place action).length ∧ ∃ candidates,
      report = (Finding.ownerAmbiguous action.name candidates).reportOn action.name action.file := by
  rw [ambiguities] at member
  split at member
  next home other more homes =>
    rw [Project.homes] at homes
    split at homes
    next => cases homes
    next =>
      have length := congrArg List.length homes
      rw [List.length_map] at length
      refine ⟨by simp [length], _, List.mem_singleton.mp member⟩
  next => cases member

end Project

open Resolution

namespace Resolution

variable {settings : Settings} {final : Resolution} {place : Place} {action : Element}

/-- A module that stands beside an action is declared in a file of its name. -/
theorem Supplied.identity_mem_modulesIn (supplied : final.Supplied settings) {module : Element}
    (member : module ∈ final.project.beside place action) :
    module.identity ∈ (final.modulesIn action.file place).map Element.identity := by
  rw [Project.beside_eq] at member
  cases place with
  | authored => exact List.mem_map_of_mem member
  | dependency =>
    have ⟨inDocument, sameFile⟩ := List.mem_filter.mp member
    obtain ⟨isDependency, isModule⟩ := List.mem_filter.mp inDocument
    simp only [beq_iff_eq] at sameFile isModule
    rcases supplied.origin isDependency with empty | ⟨path, document, declared, read, inside, same, file⟩
    · have isAction : module.kind = .action := (congrArg Element.kind empty :)
      cases isModule.symm.trans isAction
    · have sameIdentity : declared.identity = module.identity := (congrArg Element.identity same :)
      have sameKind : declared.kind = module.kind := (congrArg Element.kind same :)
      rw [← sameIdentity]
      apply List.mem_map_of_mem
      refine List.mem_flatMap.mpr ⟨(path, document), List.mem_filter.mpr ⟨read, ?_⟩, ?_⟩
      · simpa using file.symm.trans sameFile
      · exact List.mem_filter.mpr ⟨inside, by simpa using sameKind.trans isModule⟩

/-- So many modules at least are declared there. -/
theorem Supplied.length_beside_le (supplied : final.Supplied settings) (place : Place) (action : Element) :
    (final.project.beside place action).length ≤ (final.modulesIn action.file place).length := by
  cases place with
  | authored =>
    rw [Project.beside_eq]
    exact Nat.le_refl _
  | dependency index =>
    let beside := final.project.beside (.dependency index) action
    have distinct : (beside.map Element.identity).Nodup := by
      apply List.Nodup.sublist _ supplied.distinct
      exact List.filter_sublist.map _
    have included : beside.map Element.identity ⊆
        (final.modulesIn action.file (.dependency index)).map Element.identity := by
      intro identity member
      obtain ⟨module, isBeside, rfl⟩ := List.mem_map.mp member
      exact supplied.identity_mem_modulesIn isBeside
    simpa [beside] using (distinct.subperm included).length_le

end Resolution

/-- The file of an action is no guess: if the action gets its owner by its file, and as many modules
of the file stand beside it as are declared there, then the owner is the only module that is
declared there. Beside an authored action there always are as many. And an action is reported as
ambiguous only if several modules are declared in its file. -/
theorem owner_of_file {settings : Settings} {authored : Document} {workspace : Workspace} {final : Resolution}
    (inOrder : workspace.InOrder settings) (ran : authored.resolved settings workspace = .ok () final) :
    (∀ place action owner, final.project.element? place = some action →
      Ownership.GivesByFile final.project place owner →
      ((∃ index, place = .authored index) ∨ (Ownership.neighbours final.project place action).length =
        (final.modulesIn action.file place).length) →
      ∃ module, final.modulesIn action.file place = [module] ∧ module.name = owner) ∧
    ∀ report ∈ Report.errors (Ownership.settle final.project).reports,
      (∃ name candidates, report.code = some (Finding.ownerAmbiguous name candidates).code) →
      ∃ place action candidates, final.project.element? place = some action ∧
        report = (Finding.ownerAmbiguous action.name candidates).reportOn action.name action.file ∧
        2 ≤ (final.modulesIn action.file place).length := by
  have supplied := supplied_of_resolved inOrder ran
  constructor
  · intro place action owner stands gives drawn
    have homes := Ownership.homes_of_givesByFile gives stands
    have one : Ownership.neighbours final.project place action = [owner] := by
      rw [Project.homes] at homes
      split at homes
      · cases homes
      · exact (Project.neighbours_eq ..).trans homes
    have asMany : (Ownership.neighbours final.project place action).length =
        (final.modulesIn action.file place).length := by
      rcases drawn with ⟨index, rfl⟩ | asMany
      · rw [Project.neighbours_eq, Project.beside_eq]
        exact List.length_map _
      · exact asMany
    rw [one, List.length_singleton] at asMany
    obtain ⟨module, only⟩ := List.length_eq_one_iff.mp asMany.symm
    obtain ⟨neighbour, isBeside, named⟩ := List.map_eq_singleton_iff.mp ((Project.neighbours_eq ..).symm.trans one)
    have declared : neighbour.identity ∈ (final.modulesIn action.file place).map Element.identity :=
      supplied.identity_mem_modulesIn (isBeside ▸ List.mem_singleton_self neighbour)
    rw [only, List.map_singleton, List.mem_singleton] at declared
    exact ⟨module, only, (congrArg Prod.snd declared.symm).trans named⟩
  · rintro report member ⟨name, candidates, coded⟩
    obtain ⟨place, action, stands, -, ambiguous⟩ := Ownership.ambiguous_of_mem_errors member coded
    obtain ⟨several, among, rfl⟩ := Project.several_of_ambiguities ambiguous
    exact ⟨place, action, among, stands, rfl, several.trans (supplied.length_beside_le place action)⟩

def opening : Document :=
  { elements :=
    [{ kind := .module, name := ⟨"Front", some "acme"⟩, ancestor := some ⟨"Base", some "lib"⟩ },
     { kind := .application, name := ⟨"Shop", some "acme"⟩
       properties := [{ key := "events", attributes := [{ key := "onOpen", value := some "lib.Save" }] }] }] }

def Ownership.givesSave (final : Resolution) : Bool :=
  ((ofModules final.project).project.element? (.dependency 1)).map Element.owner == some none &&
  ((ofFiles final.project).project.element? (.dependency 1)).map Element.owner == some (some ⟨"Base", some "lib"⟩)

theorem Ownership.givesByFile_of_givesSave {final : Resolution} (gives : givesSave final) :
    GivesByFile final.project (.dependency 1) ⟨"Base", some "lib"⟩ := by
  simp only [givesSave, Bool.and_eq_true, beq_iff_eq] at gives
  constructor
  · intro action stands
    rw [stands, Option.map_some] at gives
    exact Option.some.inj gives.1
  · obtain ⟨action, stands, owned⟩ := Option.map_eq_some_iff.mp gives.2
    exact ⟨action, stands, owned⟩

theorem owner_of_file_opening :
    ∃ final action, (Workspace.withLibrary "domain lib; module Base; action Save;").InOrder {} ∧
      opening.resolved {} (.withLibrary "domain lib; module Base; action Save;") = .ok () final ∧
      final.project.element? (.dependency 1) = some action ∧
      Ownership.GivesByFile final.project (.dependency 1) ⟨"Base", some "lib"⟩ ∧
      ∃ module, final.modulesIn action.file (.dependency 1) = [module] ∧ module.name = ⟨"Base", some "lib"⟩ := by
  have ends : ends (fun _ final => Ownership.givesSave final &&
      (final.project.element? (.dependency 1)).any fun action =>
        (Ownership.neighbours final.project (.dependency 1) action).length ==
          (final.modulesIn action.file (.dependency 1)).length)
      (opening.resolved {} (.withLibrary "domain lib; module Base; action Save;")) := by decide +kernel
  obtain ⟨_, final, ran, meets⟩ := ok_of_ends ends
  simp only [Bool.and_eq_true, Option.any_eq_true, beq_iff_eq] at meets
  obtain ⟨givesSave, action, stands, asMany⟩ := meets
  have gives := Ownership.givesByFile_of_givesSave givesSave
  have inOrder := Workspace.inOrder_withLibrary {} "domain lib; module Base; action Save;"
  have only := (owner_of_file inOrder ran).1 (.dependency 1) action _ stands gives (.inr asMany)
  exact ⟨final, action, inOrder, ran, stands, gives, only⟩

/-- Where the file declares two modules and one of them was drawn into the project, that one gets
the action. -/
theorem guessed_opening :
    ∃ final action, opening.resolved {} (.withLibrary "domain lib; module Base; module Other; action Save;") =
        .ok () final ∧
      final.project.element? (.dependency 1) = some action ∧
      Ownership.GivesByFile final.project (.dependency 1) ⟨"Base", some "lib"⟩ ∧
      (final.modulesIn action.file (.dependency 1)).length = 2 := by
  have ends : ends (fun _ final => Ownership.givesSave final &&
      (final.project.element? (.dependency 1)).any fun action =>
        (final.modulesIn action.file (.dependency 1)).length == 2)
      (opening.resolved {} (.withLibrary "domain lib; module Base; module Other; action Save;")) := by decide +kernel
  obtain ⟨_, final, ran, meets⟩ := ok_of_ends ends
  simp only [Bool.and_eq_true, Option.any_eq_true, beq_iff_eq] at meets
  obtain ⟨givesSave, action, stands, two⟩ := meets
  exact ⟨final, action, ran, stands, Ownership.givesByFile_of_givesSave givesSave, two⟩

end Requirements
