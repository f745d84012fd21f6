import Requirements.Proofs.Check.Lineage
import Requirements.Proofs.Repository.Standing
import Requirements.Proofs.Resolution.StandIns
import Requirements.Proofs.Resolution.Turns

/-! What is drawn into a project. No two dependencies are of one kind and name, each of them was
used, and each is a placeholder or was declared in a document of a repository. -/
namespace Requirements

/-- What no two dependencies have in common. -/
def Element.identity (element : Element) : ElementKind × QualifiedName := (element.kind, element.name)

theorem Element.one_le_uses_used (element : Element) : 1 ≤ element.used.uses := by
  change 1 ≤ if element.uses < maxUses then element.uses + 1 else element.uses
  split
  · omega
  · have large : 1 ≤ maxUses := by decide
    omega

theorem Element.uses_le_used (element : Element) : element.uses ≤ element.used.uses :=
  (preserved_used element).uses

theorem Element.isDesignated_of_identity {a b : Element} (same : a.identity = b.identity)
    (kinds : List ElementKind) (reference : QualifiedName) :
    a.isDesignated kinds reference = b.isDesignated kinds reference := by
  obtain ⟨kind, name⟩ := Prod.mk.inj same
  rw [isDesignated, isDesignated, kind, name]

namespace Resolution

variable {settings : Settings} {start final : Resolution}

/-! ### Kinds and names -/

def Distinct (state : Resolution) : Prop := (state.project.dependencies.elements.map Element.identity).Nodup

theorem Distinct.push {state : Resolution} (distinct : state.Distinct) {added : Element}
    (fresh : ∀ index element, state.project.element? (.dependency index) = some element →
      element.identity ≠ added.identity) : (state.push added).Distinct := by
  change ((state.project.dependencies.elements ++ [added]).map Element.identity).Nodup
  rw [List.map_append]
  refine List.nodup_append.mpr ⟨distinct, by simp, fun identity old other new => ?_⟩
  obtain ⟨element, member, rfl⟩ := List.mem_map.mp old
  obtain ⟨index, stands⟩ := List.mem_iff_getElem?.mp member
  obtain rfl : other = added.identity := by simpa using new
  exact fresh index element stands

theorem Distinct.used {state : Resolution} (distinct : state.Distinct) (place : Place) :
    Distinct { state with project := state.project.modify Element.used place } := by
  cases place with
  | authored => exact distinct
  | dependency index =>
    have keeps : ∀ element : Element, element.used.identity = element.identity := fun _ => rfl
    have same := Resolving.map_modify_of_same keeps state.project.dependencies.elements index
    exact (congrArg List.Nodup same).mpr distinct

/-- What a search adds is not there yet: a dependency of its kind and name would be known, or it
would be the one that asks, which is not answered with its like. -/
theorem Turn.distinct (turn : Turn settings start final) (distinct : start.Distinct) : final.Distinct := by
  cases turn with
  | reported | gained => exact distinct
  | resolved ran apart =>
    rcases Resolving.resolve_cases ran with ⟨place, element, -, -, rfl⟩ | ⟨unknown, found, middle, searched, ended⟩
    · exact distinct.used place
    · obtain ⟨searches, declared⟩ := Resolving.findInRepositories_ok searched
      have distinctThen : middle.Distinct := by
        rw [Distinct, searches.project]
        exact distinct
      rcases ended with ⟨-, -, rfl⟩ | ⟨element, rfl, rfl, rfl⟩
      · exact distinctThen
      · refine distinctThen.push fun index other stands same => ?_
        rw [searches.project] at stands
        have designated : other.isDesignated _ _ :=
          (Element.isDesignated_of_identity same _ _).trans (declared element rfl).1
        have asks : some (Place.dependency index) = _ :=
          not_not.mp fun differ => known?_none.mp unknown _ other stands differ designated
        obtain ⟨kind, name⟩ := Prod.mk.inj same
        apply apart index other _ element.used asks.symm stands rfl
        rw [Element.key, Element.key, kind, name]
  | stoodIn unknown =>
    refine distinct.push fun index other stands same => ?_
    refine known?_none.mp unknown _ other stands (by simp) ?_
    rw [Element.isDesignated_of_identity same]
    simp [Element.isDesignated, Element.used, Element.emptyAction]

/-! ### Uses -/

def AllUsed (state : Resolution) : Prop :=
  ∀ index element, state.project.element? (.dependency index) = some element → 1 ≤ element.uses

theorem AllUsed.push {state : Resolution} (allUsed : state.AllUsed) (element : Element) :
    (state.push element.used).AllUsed := by
  intro index other stands
  rcases dependency_push stands with stood | ⟨-, rfl⟩
  · exact allUsed index other stood
  · exact element.one_le_uses_used

theorem AllUsed.used {state : Resolution} (allUsed : state.AllUsed) (place : Place) :
    AllUsed { state with project := state.project.modify Element.used place } := by
  intro index element stands
  change (state.project.modify Element.used place).element? _ = _ at stands
  rw [Project.element?_modify] at stands
  split at stands
  · obtain ⟨former, stood, rfl⟩ := Option.map_eq_some_iff.mp stands
    exact (allUsed index former stood).trans former.uses_le_used
  · exact allUsed index element stands

theorem Turn.allUsed (turn : Turn settings start final) (allUsed : start.AllUsed) : final.AllUsed := by
  cases turn with
  | reported | gained => exact allUsed
  | stoodIn => exact allUsed.push _
  | resolved ran apart =>
    rcases Resolving.resolve_cases ran with ⟨place, element, -, -, rfl⟩ | ⟨-, found, middle, searched, ended⟩
    · exact allUsed.used place
    · have same := (Resolving.findInRepositories_ok searched).1.project
      have allUsedThen : middle.AllUsed := by
        rw [AllUsed, same]
        exact allUsed
      rcases ended with ⟨-, -, rfl⟩ | ⟨element, -, -, rfl⟩
      · exact allUsedThen
      · exact allUsedThen.push element

/-! ### Documents -/

/-- The workspace is in order, and what was read are documents of its repositories, each as it is
on the disk and under its path. -/
structure Sourced (settings : Settings) (state : Resolution) : Prop where
  inOrder : state.workspace.InOrder settings
  read : ∀ path document, (path, document) ∈ state.parsed → state.workspace.IsLoaded ∧
    state.workspace.Holds settings path ∧
    state.workspace.disk.parse path (Disk.fileText path.text) = .ok document

theorem Sourced.search (sourced : start.Sourced settings) {kind : ReferenceKind} {id : String}
    {domain : Option String} {hits : List Hit}
    (ran : Resolving.search (Workspace.find settings kind id domain) start = .ok hits final) :
    final.Sourced settings ∧ final.workspace.IsLoaded ∧
      ∀ hit ∈ hits, hit.repository ≠ .project → final.workspace.Holds settings hit.path := by
  obtain ⟨workspace, found, rfl⟩ := Resolving.search_ok.mp ran
  have inOrder := sourced.inOrder.find found
  obtain ⟨loaded, rfl⟩ := Workspace.find_ok found
  refine ⟨⟨inOrder, fun path document member => ?_⟩, loaded, fun hit member => inOrder.holds_of_hit member⟩
  obtain ⟨wasLoaded, holds, parses⟩ := sourced.read path document member
  rw [Workspace.find_of_loaded wasLoaded] at found
  obtain ⟨-, rfl⟩ := EStateM.Result.ok.inj found
  exact ⟨wasLoaded, holds, parses⟩

theorem Sourced.documentOf (sourced : start.Sourced settings) (loaded : start.workspace.IsLoaded) {hit : Hit}
    (holds : start.workspace.Holds settings hit.path) {document : Document}
    (ran : Resolving.documentOf hit start = .ok document final) : final.Sourced settings := by
  rw [Resolving.documentOf] at ran
  split at ran
  next =>
    obtain ⟨-, rfl⟩ := EStateM.Result.ok.inj ran
    exact sourced
  next =>
    split at ran
    next parsed =>
      obtain ⟨rfl, rfl⟩ := EStateM.Result.ok.inj ran
      refine ⟨sourced.inOrder, fun path other member => ?_⟩
      rcases List.mem_append.mp member with old | new
      · exact sourced.read path other old
      · obtain ⟨rfl, rfl⟩ := Prod.mk.inj (List.mem_singleton.mp new)
        exact ⟨loaded, holds, parsed⟩
    next => cases ran

theorem Sourced.firstDeclared (sourced : start.Sourced settings) (loaded : start.workspace.IsLoaded)
    {kind : ElementKind} {reference : QualifiedName} {hits : List Hit}
    (holds : ∀ hit ∈ hits, hit.repository ≠ .project → start.workspace.Holds settings hit.path)
    {answer : Option Element} (ran : Resolving.firstDeclared kind reference hits start = .ok answer final) :
    final.Sourced settings := by
  induction hits generalizing start with
  | nil =>
    obtain ⟨-, rfl⟩ := pure_ok.mp ran
    exact sourced
  | cons hit rest ih =>
    have holdsRest : ∀ other ∈ rest, other.repository ≠ .project → start.workspace.Holds settings other.path :=
      fun other member => holds other (by simp [member])
    rw [Resolving.firstDeclared] at ran
    split at ran
    next => exact ih sourced loaded holdsRest ran
    next outside =>
      obtain ⟨document, middle, opened, ran⟩ := bind_ok.mp ran
      have same := Resolving.workspace_documentOf opened
      have sourcedThen := sourced.documentOf loaded (holds hit (by simp) outside) opened
      cases found : document.elements.find? (·.isDesignated [kind] reference) with
      | some element =>
        rw [found] at ran
        obtain ⟨-, rfl⟩ := pure_ok.mp ran
        exact sourcedThen
      | none =>
        rw [found] at ran
        exact ih sourcedThen (same ▸ loaded) (same ▸ holdsRest) ran

theorem Sourced.findInRepositories (sourced : start.Sourced settings) {reference : QualifiedName}
    {kinds : List ElementKind} {answer : Option Element}
    (ran : Resolving.findInRepositories settings reference kinds start = .ok answer final) :
    final.Sourced settings := by
  induction kinds generalizing start with
  | nil =>
    obtain ⟨-, rfl⟩ := pure_ok.mp ran
    exact sourced
  | cons kind rest ih =>
    rw [Resolving.findInRepositories] at ran
    obtain ⟨hits, searched, sought, ran⟩ := bind_ok.mp ran
    obtain ⟨sourcedThen, loaded, holds⟩ := sourced.search sought
    obtain ⟨first, middle, looked, ran⟩ := bind_ok.mp ran
    have sourcedNext := sourcedThen.firstDeclared loaded holds looked
    cases first with
    | some =>
      obtain ⟨-, rfl⟩ := pure_ok.mp ran
      exact sourcedNext
    | none => exact ih sourcedNext ran

theorem Turn.sourced (turn : Turn settings start final) (sourced : start.Sourced settings) :
    final.Sourced settings := by
  cases turn with
  | reported | gained | stoodIn => exact ⟨sourced.inOrder, sourced.read⟩
  | resolved ran apart =>
    rcases Resolving.resolve_cases ran with ⟨place, element, -, -, rfl⟩ | ⟨-, found, middle, searched, ended⟩
    · exact ⟨sourced.inOrder, sourced.read⟩
    · have sourcedThen := sourced.findInRepositories searched
      rcases ended with ⟨-, -, rfl⟩ | ⟨element, -, -, rfl⟩
      · exact sourcedThen
      · exact ⟨sourcedThen.inOrder, sourcedThen.read⟩

/-- What each turn keeps, a run keeps that comes to its end. -/
theorem Turns.keep {holds : Resolution → Prop} (each : ∀ {s t}, Turn settings s t → holds s → holds t)
    (turns : Turns settings start final) (held : holds start) : holds final := by
  induction turns with
  | refl => exact held
  | tail _ turn ih => exact each turn ih

structure Supplied (settings : Settings) (state : Resolution) : Prop where
  distinct : state.Distinct
  allUsed : state.AllUsed
  sourced : state.Sourced settings
  accounted : state.Accounted

theorem supplied_of_resolved {authored : Document} {workspace : Workspace} (inOrder : workspace.InOrder settings)
    (ran : authored.resolved settings workspace = .ok () final) : final.Supplied settings := by
  let start : Resolution := { project := { authored }, workspace }
  have none : ∀ index element, start.project.element? (.dependency index) ≠ some element := by
    simp [start, Project.element?]
  have turns : Turns settings start final := Resolving.turns_all ran
  have changes : Changes settings start (stateAfter (authored.resolved settings workspace)) := Resolving.changes_all _
  rw [ran] at changes
  exact {
    distinct := turns.keep Turn.distinct List.nodup_nil
    allUsed := turns.keep Turn.allUsed fun index element stands => absurd stands (none index element)
    sourced := turns.keep Turn.sourced ⟨inOrder, by simp [start]⟩
    accounted := changes.accounted fun index element stands => absurd stands (none index element) }

/-- A dependency stands in for an action, or it is declared in a document that was read. -/
theorem Supplied.origin (supplied : final.Supplied settings) {element : Element}
    (member : element ∈ final.project.dependencies.elements) :
    element.uncounted = Element.emptyAction element.name ∨ ∃ path document declared,
      (path, document) ∈ final.parsed ∧ declared ∈ document.elements ∧
      declared.uncounted = element.uncounted ∧ element.file = Disk.fileText path.text := by
  obtain ⟨index, stands⟩ := List.mem_iff_getElem?.mp member
  rcases supplied.accounted index element stands with
    (⟨_, isAuthored⟩ | ⟨declared, ⟨path, document, read, inside⟩, same⟩) | ⟨missing, standsIn⟩
  · cases isAuthored
  · obtain ⟨-, -, parses⟩ := supplied.sourced.read path document read
    obtain ⟨text, -, parsed⟩ := Disk.parse_ok.mp parses
    have file := (Document.wellFormed_parse parsed declared inside).file
    have sameFile : declared.file = element.file := (congrArg Element.file same :)
    exact .inr ⟨path, document, declared, read, inside, same, sameFile.symm.trans file⟩
  · have named : element.name = missing := (congrArg Element.name standsIn.empty :)
    exact .inl (named.symm ▸ standsIn.empty)

end Resolution

open Resolution

/-- The dependencies of a resolved project differ in kind or name, each was used, and each is an
empty action or, but for its uses, what a document of a repository declares. It remembers the path
of that document, with slashes for backslashes. -/
theorem dependencies_of_resolved {settings : Settings} {authored : Document} {workspace : Workspace}
    {final : Resolution} (inOrder : workspace.InOrder settings)
    (ran : authored.resolved settings workspace = .ok () final) :
    (final.project.dependencies.elements.map fun element => (element.kind, element.name)).Nodup ∧
    ∀ element ∈ final.project.dependencies.elements, 1 ≤ element.uses ∧
      (element.uncounted = Element.emptyAction element.name ∨
        ∃ path document declared, final.workspace.Holds settings path ∧
          final.workspace.disk.parse path (Disk.fileText path.text) = .ok document ∧
          declared ∈ document.elements ∧ element.uncounted = declared.uncounted ∧
          element.file = Disk.fileText path.text) := by
  have supplied := supplied_of_resolved inOrder ran
  refine ⟨supplied.distinct, fun element member => ?_⟩
  obtain ⟨index, stands⟩ := List.mem_iff_getElem?.mp member
  refine ⟨supplied.allUsed index element stands, ?_⟩
  rcases supplied.origin member with empty | ⟨path, document, declared, read, inside, same, file⟩
  · exact .inl empty
  · obtain ⟨-, holds, parses⟩ := supplied.sourced.read path document read
    exact .inr ⟨path, document, declared, holds, parses, inside, same.symm, file⟩

theorem Workspace.inOrder_withLibrary (settings : Settings) (text : String) :
    (Workspace.withLibrary text).InOrder settings := by
  refine inOrder_of_unloaded ?_ (by simp [withLibrary]) (by simp [withLibrary])
  have file : ∀ held ∈ [Entry.file "base.reqm" (.text text) 0], held.Sound := by
    intro held member
    obtain rfl := List.mem_singleton.mp member
    exact Entry.sound_file _ _ _
  have proper : ∀ name ∈ ["base.reqm", "lib"], IsProper name := by decide
  have library : (Entry.folder "lib" [.file "base.reqm" (.text text) 0]).Sound :=
    Entry.sound_folder (by simp) (by simpa [Entry.name] using proper "base.reqm" (by simp)) file
  exact Entry.sound_folder (by simp) (by simpa [Entry.name] using proper "lib" (by simp)) (by simpa using library)

def shop : Document :=
  { elements :=
    [{ kind := .application, name := ⟨"Shop", some "acme"⟩, ancestor := some ⟨"Base", some "lib"⟩
       properties := [{ key := "events", attributes := [{ key := "onOpen", value := some "acme.Open" }] }] }] }

theorem dependencies_of_resolved_shop :
    ∃ final, (Workspace.withLibrary "domain lib; application Base;").InOrder {} ∧
      shop.resolved {} (.withLibrary "domain lib; application Base;") = .ok () final ∧
      final.project.dependencies.elements.length = 2 ∧
      (final.project.dependencies.elements.map fun element => (element.kind, element.name)).Nodup ∧
      ∀ element ∈ final.project.dependencies.elements, 1 ≤ element.uses := by
  have ends : ends (fun _ final => final.project.dependencies.elements.length == 2)
      (shop.resolved {} (.withLibrary "domain lib; application Base;")) := by decide +kernel
  obtain ⟨_, final, ran, two⟩ := ok_of_ends ends
  have inOrder := Workspace.inOrder_withLibrary {} "domain lib; application Base;"
  obtain ⟨distinct, drawn⟩ := dependencies_of_resolved inOrder ran
  exact ⟨final, inOrder, ran, by simpa using two, distinct, fun element member => (drawn element member).1⟩

def backslashed : Workspace :=
  { catalogue := (Workspace.withLibrary "").catalogue
    disk := ⟨.folder "" [.folder "lib" [.file "a\\b.reqm" (.text "domain lib; application Base;") 0]], 0⟩ }

/-- What is drawn from it remembers a path that no document has. -/
theorem file_of_backslashed :
    ∃ final, shop.resolved {} backslashed = .ok () final ∧ ∃ element ∈ final.project.dependencies.elements,
      element.uncounted ≠ Element.emptyAction element.name ∧
      ∀ path, final.workspace.Holds {} path → element.file ≠ path.text := by
  have ends : ends (fun _ final => final.project.dependencies.elements.any fun element =>
      element.kind != .action &&
      final.workspace.catalogue.repositories.all fun repository =>
        (final.workspace.disk.repositoryFolders {} repository.root).all fun folder =>
          (final.workspace.disk.documents {} folder).all fun path => element.file != path.text)
      (shop.resolved {} backslashed) := by decide +kernel
  obtain ⟨_, final, ran, meets⟩ := ok_of_ends ends
  simp only [List.any_eq_true, Bool.and_eq_true, bne_iff_ne, List.all_eq_true] at meets
  obtain ⟨element, member, notAction, elsewhere⟩ := meets
  refine ⟨final, ran, element, member, fun same => notAction (congrArg Element.kind same :), ?_⟩
  rintro path ⟨repository, isRepository, folder, isFolder, isDocument⟩
  exact elsewhere repository isRepository folder isFolder path isDocument

end Requirements
