import Requirements.Proofs.Repository.Retrying
import Requirements.Proofs.Repository.Search
import Requirements.Proofs.Repository.Writing

/-! Where searches look, whatever was done before with a workspace: in what the project declares, then
in the standard library and the user's cache of the last connection, then in what was added. Connecting
again replaces the first two and keeps the rest; searches load roots and neither add nor move any. -/
namespace Requirements

namespace Workspace

inductive Act
  | connect (settings : Settings) (applicationHome userHome : Path)
  | add (root : Path)
  | declare (settings : Settings) (document : Document)
  | find (settings : Settings) (kind : ReferenceKind) (id : String) (domain : Option String)
  /-- Others change the disk. -/
  | meanwhile (disk : Disk)

def perform (workspace : Workspace) : Act → Workspace
  | .connect settings applicationHome userHome => stateAfter (connect settings applicationHome userHome workspace)
  | .add root => { workspace with catalogue := workspace.catalogue.add root }
  | .declare settings document => { workspace with catalogue := workspace.catalogue.addProject settings document }
  | .find settings kind id domain => stateAfter (find settings kind id domain workspace)
  | .meanwhile disk => { workspace with disk }

def performAll (acts : List Act) (workspace : Workspace) : Workspace := acts.foldl perform workspace

namespace Act

def added? : Act → Option Path
  | add root => some root
  | connect .. | declare .. | find .. | meanwhile _ => none

def declared? : Act → Option (Settings × Document)
  | declare settings document => some (settings, document)
  | connect .. | add _ | find .. | meanwhile _ => none

/-- The standard library that the act connects with, if it does and succeeds, and the user's cache, if
that is there or can be made. -/
def connected? (workspace : Workspace) : Act → Option (Path × Option Path)
  | connect settings applicationHome userHome =>
    match Workspace.connect settings applicationHome userHome workspace with
    | .ok _ _ =>
      let cache := userHome.join (.ofText settings.cacheFolder)
      some (applicationHome.join (.ofText settings.libraryFolder),
        if (workspace.disk.makeFolder cache).2 then some cache else none)
    | .error _ _ => none
  | add _ | declare .. | find .. | meanwhile _ => none

/-- What the last act connects with that connects and succeeds. -/
def lastConnected? : List Act → Workspace → Option (Path × Option Path)
  | [], _ => none
  | act :: rest, workspace => (lastConnected? rest (workspace.perform act)).or (act.connected? workspace)

end Act
end Workspace

namespace Repository

variable {settings : Settings} {start final : Disk}

def unloaded (repository : Repository) : Repository := { repository with folders := none }

/-- What is loaded are the folders below the root, as they were at some time. -/
def FromRoot (repository : Repository) : Prop :=
  ∀ indices ∈ repository.folders, ∃ settings start final,
    loadFolders settings (start.repositoryFolders settings repository.root) start = .ok indices final

theorem unloaded_of_load {repository loaded : Repository} (ran : repository.load settings start = .ok loaded final) :
    loaded.unloaded = repository.unloaded := by
  rcases load_ok ran with ⟨rfl, -, -⟩ | ⟨-, indices, -, rfl⟩
  · rfl
  · rfl

theorem FromRoot.load {repository loaded : Repository} (fromRoot : repository.FromRoot)
    (ran : repository.load settings start = .ok loaded final) : loaded.FromRoot := by
  rcases load_ok ran with ⟨rfl, -, -⟩ | ⟨-, indices, loads, rfl⟩
  · exact fromRoot
  · intro others isLoaded
    obtain rfl := Option.mem_some.mp isLoaded
    exact ⟨settings, start, final, loads⟩

/-- Loading moves no repository. -/
theorem map_unloaded_loadEach (repositories : List Repository) (disk : Disk) :
    (loadEach settings repositories disk).1.map unloaded = repositories.map unloaded := by
  induction repositories generalizing disk with
  | nil => rfl
  | cons repository rest ih =>
    rw [loadEach]
    split
    next => rfl
    next loaded after isLoaded => rw [List.map_cons, List.map_cons, unloaded_of_load isLoaded, ih after]

theorem fromRoot_of_mem_loadEach {repositories : List Repository}
    (fromRoot : ∀ repository ∈ repositories, repository.FromRoot) (disk : Disk) :
    ∀ repository ∈ (loadEach settings repositories disk).1, repository.FromRoot := by
  induction repositories generalizing disk with
  | nil => simp [loadEach]
  | cons repository rest ih =>
    obtain ⟨here, behind⟩ := List.forall_mem_cons.mp fromRoot
    rw [loadEach]
    split
    next => exact fromRoot
    next loaded after isLoaded => exact List.forall_mem_cons.mpr ⟨here.load isLoaded, ih behind after⟩

end Repository

namespace Catalogue

/-- The repositories are the registered ones, in their order, and what is loaded of them is their own. -/
structure Lists (catalogue : Catalogue) (standard : Option (Path × Option Path)) (extras : List Path) : Prop where
  roots : catalogue.repositories.map Repository.unloaded = registered standard extras
  fromRoot : ∀ repository ∈ catalogue.repositories, repository.FromRoot

variable {standard : Option (Path × Option Path)} {extras : List Path} {catalogue : Catalogue}

theorem Lists.add (lists : catalogue.Lists standard extras) (root : Path) :
    (catalogue.add root).Lists standard (extras ++ [root]) where
  roots := by
    rw [Catalogue.add, List.map_append, lists.roots]
    simp [registered, Repository.unloaded]
  fromRoot repository member := by
    rcases List.mem_append.mp member with old | new
    · exact lists.fromRoot repository old
    · obtain rfl := List.mem_singleton.mp new
      exact fun _ isLoaded => (by cases isLoaded)

/-- Of the roots that were there only those stay that were added. -/
theorem Lists.connected (lists : catalogue.Lists standard extras) (library : Path) (cache : Option Path) :
    (catalogue.connected library cache).Lists (some (library, cache)) extras where
  roots := by
    have added : (catalogue.repositories.filter fun repository => !repository.isStandard).map Repository.unloaded =
        registered none extras := by
      rw [← filter_registered standard extras, ← lists.roots, List.filter_map]
      rfl
    rw [Catalogue.connected, List.map_cons, List.map_append, added]
    simp [registered, Repository.unloaded, Function.comp_def]
  fromRoot repository member := by
    rcases List.mem_cons.mp member with rfl | member
    · exact fun _ isLoaded => (by cases isLoaded)
    rcases List.mem_append.mp member with isCache | added
    · obtain ⟨_, -, rfl⟩ := List.mem_map.mp isCache
      exact fun _ isLoaded => (by cases isLoaded)
    · exact lists.fromRoot repository (List.mem_of_mem_filter added)

theorem Lists.loaded (lists : catalogue.Lists standard extras) (settings : Settings) (disk : Disk) :
    Lists { catalogue with repositories := (Repository.loadEach settings catalogue.repositories disk).1 }
      standard extras :=
  ⟨(Repository.map_unloaded_loadEach _ disk).trans lists.roots,
    Repository.fromRoot_of_mem_loadEach lists.fromRoot disk⟩

end Catalogue

namespace Workspace

variable {settings : Settings} {start final : Workspace}

/-! ### One act -/

/-- A search leaves what loading leaves, and without a connection everything as it is. -/
theorem stateAfter_find (kind : ReferenceKind) (id : String) (domain : Option String) :
    stateAfter (find settings kind id domain start) =
      if start.catalogue.isConnected then
        let loads := Repository.loadEach settings start.catalogue.repositories start.disk
        start.after loads.1 loads.2.1
      else start := by
  split
  next isConnected =>
    cases loads : Repository.loadEach settings start.catalogue.repositories start.disk with
    | mk repositories state =>
    obtain ⟨disk, failed⟩ := state
    cases failed with
    | none => rw [find_eq_ok.mpr ⟨isConnected, _, _, loads, rfl, rfl⟩, stateAfter]
    | some => rw [find_of_load_fails isConnected loads, stateAfter]
  next apart => rw [find_of_not_connected apart, stateAfter]

/-- Loading fails for a file or a folder. So a search says that nothing is connected only if so it is. -/
theorem find_notConnected_iff (kind : ReferenceKind) (id : String) (domain : Option String) :
    (∃ after, find settings kind id domain start = .error .notConnected after) ↔ ¬start.catalogue.isConnected := by
  constructor
  · rintro ⟨after, fails⟩ isConnected
    cases loads : Repository.loadEach settings start.catalogue.repositories start.disk with
    | mk repositories state =>
    obtain ⟨disk, failed⟩ := state
    cases failed with
    | none => cases (find_eq_ok.mpr ⟨isConnected, _, _, loads, rfl, rfl⟩).symm.trans fails
    | some failure =>
      have onDisk : ∀ failure ∈ (Repository.loadEach settings start.catalogue.repositories start.disk).2.2,
          failure.isOnDisk := (Repository.adds_loadEach _ (.refl start.disk)).2
      rw [loads] at onDisk
      have ended := (find_of_load_fails isConnected loads kind id domain).symm.trans fails
      obtain rfl := (EStateM.Result.error.inj ended).1
      cases onDisk _ rfl
  · exact fun apart => ⟨start, find_of_not_connected apart kind id domain⟩

def projectIndex (declared : List (Settings × Document)) : FolderIndex :=
  declared.foldl (fun index entry => index.insertDocument entry.1 entry.2) (.empty ⟨["."]⟩)

/-- What the acts so far came to: the roots that are registered, and what the project declares. -/
structure Registers (standard : Option (Path × Option Path)) (extras : List Path)
    (declared : List (Settings × Document)) (workspace : Workspace) : Prop where
  lists : workspace.catalogue.Lists standard extras
  isConnected : workspace.catalogue.isConnected = standard.isSome
  project : workspace.catalogue.project = projectIndex declared

variable {standard : Option (Path × Option Path)} {extras : List Path} {declared : List (Settings × Document)}

theorem registers_new (disk : Disk) : Registers none [] [] ⟨{}, disk⟩ where
  lists := ⟨rfl, by simp⟩
  isConnected := rfl
  project := rfl

theorem Registers.connect (registers : start.Registers standard extras declared) (settings : Settings)
    (applicationHome userHome : Path) :
    (start.perform (.connect settings applicationHome userHome)).Registers
      ((Act.connected? start (.connect settings applicationHome userHome)).or standard) extras declared := by
  unfold perform Act.connected?
  dsimp only
  cases ran : Workspace.connect settings applicationHome userHome start with
  | error failure after =>
    obtain rfl := connect_error ran
    exact registers
  | ok _ after =>
    obtain ⟨-, rfl⟩ := connect_ok.mp ran
    exact ⟨registers.lists.connected _ _, rfl, registers.project⟩

theorem Registers.add (registers : start.Registers standard extras declared) (root : Path) :
    (start.perform (.add root)).Registers standard (extras ++ [root]) declared :=
  ⟨registers.lists.add root, registers.isConnected, registers.project⟩

theorem Registers.declare (registers : start.Registers standard extras declared) (settings : Settings)
    (document : Document) :
    (start.perform (.declare settings document)).Registers standard extras (declared ++ [(settings, document)]) where
  lists := ⟨registers.lists.roots, registers.lists.fromRoot⟩
  isConnected := registers.isConnected
  project := by
    rw [projectIndex, List.foldl_append, ← projectIndex, ← registers.project]
    rfl

theorem Registers.find (registers : start.Registers standard extras declared) (settings : Settings)
    (kind : ReferenceKind) (id : String) (domain : Option String) :
    (start.perform (.find settings kind id domain)).Registers standard extras declared := by
  unfold perform
  dsimp only
  rw [stateAfter_find]
  split
  · exact ⟨registers.lists.loaded settings start.disk, registers.isConnected, registers.project⟩
  · exact registers

/-- An act adds what it adds, and if it connects the standard roots are those of this connection. -/
theorem Registers.perform (registers : start.Registers standard extras declared) (act : Act) :
    (start.perform act).Registers ((act.connected? start).or standard) (extras ++ act.added?.toList)
      (declared ++ act.declared?.toList) := by
  have nothing {α : Type} (items : List α) : items ++ (none : Option α).toList = items := List.append_nil items
  cases act with
  | connect settings applicationHome userHome =>
    rw [Act.added?, Act.declared?, nothing, nothing]
    exact registers.connect settings applicationHome userHome
  | add root =>
    rw [Act.declared?, nothing]
    exact registers.add root
  | declare settings document =>
    rw [Act.added?, nothing]
    exact registers.declare settings document
  | find settings kind id domain =>
    rw [Act.added?, Act.declared?, nothing, nothing]
    exact registers.find settings kind id domain
  | meanwhile disk =>
    rw [Act.added?, Act.declared?, nothing, nothing]
    exact ⟨registers.lists, registers.isConnected, registers.project⟩

/-! ### Histories of acts -/

theorem Registers.performAll (registers : start.Registers standard extras declared) (acts : List Act) :
    (start.performAll acts).Registers ((Act.lastConnected? acts start).or standard)
      (extras ++ acts.filterMap Act.added?) (declared ++ acts.filterMap Act.declared?) := by
  induction acts generalizing start standard extras declared with
  | nil =>
    rw [List.filterMap_nil, List.filterMap_nil, List.append_nil, List.append_nil]
    exact registers
  | cons act rest ih =>
    have split {β : Type} (f : Act → Option β) :
        (act :: rest).filterMap f = (f act).toList ++ rest.filterMap f := by
      rw [List.filterMap_cons]
      cases f act <;> rfl
    have behind := ih (registers.perform act)
    rw [← Option.or_assoc, List.append_assoc, List.append_assoc, ← split, ← split] at behind
    exact behind

/-- Whatever was done before, with failures or without, the roots are those of the last connection that
succeeded and then those that were added, as often and in the order in which they were. A search looks
for what is sought in the project and then root by root, and says that nothing is connected as long as
no connection has succeeded. A connection that fails leaves everything as it is. -/
theorem roots_of_performed (acts : List Act) (disk : Disk) :
    let now := performAll acts ⟨{}, disk⟩
    let standard := Act.lastConnected? acts ⟨{}, disk⟩
    let Registered := Registers standard (acts.filterMap Act.added?) (acts.filterMap Act.declared?)
    Registered now ∧
      (∀ settings kind id domain hits after, find settings kind id domain now = .ok hits after →
        Registered after ∧ (∀ repository ∈ after.catalogue.repositories, repository.folders.isSome) ∧
          hits = Repository.hitsIn .project kind (soughtName id domain) after.catalogue.project ++
            after.catalogue.repositories.flatMap (Repository.hits kind (soughtName id domain))) ∧
      (∀ settings kind id domain,
        (∃ after, find settings kind id domain now = .error .notConnected after) ↔ standard = none) ∧
      ∀ settings applicationHome userHome failure after,
        connect settings applicationHome userHome now = .error failure after → after = now := by
  intro now standard Registered
  have registers : Registered now := by
    have performed := (registers_new disk).performAll acts
    rwa [Option.or_none, List.nil_append, List.nil_append] at performed
  refine ⟨registers, ?_, ?_, fun _ _ _ _ _ => connect_error⟩
  · intro settings kind id domain hits after ran
    have left := registers.find settings kind id domain
    rw [Workspace.perform, ran, stateAfter] at left
    obtain ⟨-, repositories, final, loads, rfl, rfl⟩ := find_eq_ok.mp ran
    exact ⟨left, Repository.folders_of_loadEach loads, rfl⟩
  · intro settings kind id domain
    rw [find_notConnected_iff, registers.isConnected]
    simp

/-- A library, a file where a home would be, and another repository. -/
def houses : Disk where
  root := .folder ""
    [.folder "app" [.folder "stdlib" [.file "base.reqm" (.text "class Base;") 1]],
      .file "house" (.text "") 1,
      .folder "extra" [.file "more.reqm" (.text "class Base;") 1]]
  now := 5

def connecting : List Act :=
  [.find {} (.element .classType) "Base" none, .add ⟨["extra"]⟩, .connect {} ⟨["nowhere"]⟩ ⟨["home"]⟩,
    .connect {} ⟨["app"]⟩ ⟨["house"]⟩, .find {} (.element .classType) "Base" none, .add ⟨["extra"]⟩,
    .connect {} ⟨["app"]⟩ ⟨["home"]⟩, .connect {} ⟨["nowhere"]⟩ ⟨["house"]⟩]

/-- The connection that fails at last changes nothing; before the first that succeeds no search does. -/
theorem roots_of_connecting :
    (∃ hits after,
      find {} (.element .classType) "Base" none (performAll connecting ⟨{}, houses⟩) = .ok hits after ∧
      hits.map Hit.path = [⟨["app", "stdlib", "base.reqm"]⟩, ⟨["extra", "more.reqm"]⟩, ⟨["extra", "more.reqm"]⟩] ∧
      after.Registers (some (⟨["app", "stdlib"]⟩, some ⟨["home", ".reqm", "cache"]⟩)) [⟨["extra"]⟩, ⟨["extra"]⟩]
        []) ∧
    ∃ after, find {} (.element .classType) "Base" none (performAll (connecting.take 3) ⟨{}, houses⟩) =
      .error .notConnected after := by
  have finds : ends (fun hits _ => hits.map Hit.path ==
        [⟨["app", "stdlib", "base.reqm"]⟩, ⟨["extra", "more.reqm"]⟩, ⟨["extra", "more.reqm"]⟩])
      (find {} (.element .classType) "Base" none (performAll connecting ⟨{}, houses⟩)) := by
    decide +kernel
  have standard : Act.lastConnected? connecting ⟨{}, houses⟩ =
      some (⟨["app", "stdlib"]⟩, some ⟨["home", ".reqm", "cache"]⟩) := by
    decide +kernel
  have unconnected : Act.lastConnected? (connecting.take 3) ⟨{}, houses⟩ = none := by
    decide +kernel
  obtain ⟨hits, after, ran, paths⟩ := ok_of_ends finds
  obtain ⟨-, searches, -, -⟩ := roots_of_performed connecting houses
  obtain ⟨registers, -, -⟩ := searches _ _ _ _ _ _ ran
  obtain ⟨-, -, apart, -⟩ := roots_of_performed (connecting.take 3) houses
  rw [standard] at registers
  exact ⟨⟨hits, after, ran, eq_of_beq paths, registers⟩,
    (apart {} (.element .classType) "Base" none).mpr unconnected⟩

end Workspace
end Requirements
