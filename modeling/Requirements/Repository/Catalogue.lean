import Requirements.Repository.FolderIndex

/-! Finding declarations. The authored project comes first, then the standard library,
then the user's cache, then further repositories as they were added. A repository's
folders are indexed when a search first needs them. -/
namespace Requirements

inductive RepositoryKind
  | project | standardLibrary | userCache | extra
  deriving DecidableEq, Inhabited

structure Repository where
  kind : RepositoryKind
  root : Path
  /-- The indices of its folders, once loaded. -/
  folders : Option (List FolderIndex) := none

structure Catalogue where
  /-- What the project's authors declare; it is never written to a file. -/
  project : FolderIndex := .empty ⟨["."]⟩
  repositories : List Repository := []
  isConnected : Bool := false

structure Hit where
  repository : RepositoryKind
  folder : Path
  record : Record
  deriving DecidableEq

def Hit.path (hit : Hit) : Path := hit.folder.join (.ofText hit.record.file)

structure Workspace where
  catalogue : Catalogue := {}
  disk : Disk

namespace Repository

/-- The roots that connecting replaces. -/
def isStandard (repository : Repository) : Bool :=
  repository.kind == .standardLibrary || repository.kind == .userCache

def loadFolders (settings : Settings) : List Path → EStateM Failure Disk (List FolderIndex)
  | [] => return []
  | folder :: rest => do
    let index ← FolderIndex.load settings folder
    let indices ← loadFolders settings rest
    return index :: indices

def load (settings : Settings) (repository : Repository) : EStateM Failure Disk Repository :=
  match repository.folders with
  | some _ => return repository
  | none => do
    let folders := (← get).repositoryFolders settings repository.root
    let indices ← loadFolders settings folders
    return { repository with folders := some indices }

/-- Loads repositories up to the first that fails, which stays as it was. -/
def loadEach (settings : Settings) : List Repository → Disk →
    List Repository × Disk × Option Failure
  | [], disk => ([], disk, none)
  | repository :: rest, disk =>
    match repository.load settings disk with
    | .error failure disk => (repository :: rest, disk, some failure)
    | .ok repository disk =>
      let (rest, disk, failure) := loadEach settings rest disk
      (repository :: rest, disk, failure)

def hitsIn (repository : RepositoryKind) (kind : ReferenceKind) (reference : QualifiedName)
    (index : FolderIndex) : List Hit :=
  (index.declared kind reference).map fun record => ⟨repository, index.folder, record⟩

def hits (kind : ReferenceKind) (reference : QualifiedName) (repository : Repository) : List Hit :=
  (repository.folders.getD []).flatMap (hitsIn repository.kind kind reference)

end Repository

namespace Catalogue

def add (catalogue : Catalogue) (root : Path) : Catalogue :=
  { catalogue with repositories := catalogue.repositories ++ [{ kind := .extra, root }] }

def addProject (catalogue : Catalogue) (settings : Settings) (document : Document) : Catalogue :=
  { catalogue with project := catalogue.project.insertDocument settings document }

/-- Puts the standard library, and the user's cache if there is one, before the
repositories added so far. -/
def connected (catalogue : Catalogue) (library : Path) (cache : Option Path) : Catalogue :=
  let added := catalogue.repositories.filter fun repository => !repository.isStandard
  let caches := cache.toList.map fun root => { kind := .userCache, root }
  { catalogue with
    repositories := { kind := .standardLibrary, root := library } :: (caches ++ added)
    isConnected := true }

/-- What the loaded indices say, in order of precedence. -/
def hits (catalogue : Catalogue) (kind : ReferenceKind) (reference : QualifiedName) : List Hit :=
  Repository.hitsIn .project kind reference catalogue.project ++
    catalogue.repositories.flatMap (Repository.hits kind reference)

end Catalogue

namespace Workspace

/-- Registers the standard library, which must be there, and the user's cache, which is
made if it is not and left out if it cannot be made. -/
def connect (settings : Settings) (applicationHome userHome : Path) :
    EStateM Failure Workspace Unit := fun workspace =>
  let library := applicationHome.join (.ofText settings.libraryFolder)
  let cache := userHome.join (.ofText settings.cacheFolder)
  if workspace.disk.isFolder library then
    let (disk, made) := workspace.disk.makeFolder cache
    .ok () ⟨workspace.catalogue.connected library (if made then some cache else none), disk⟩
  else .error (.libraryMissing library) workspace

/-- Loads every repository. What was loaded before a failure stays loaded. -/
def loadAll (settings : Settings) : EStateM Failure Workspace Unit := fun workspace =>
  let (repositories, disk, failure) :=
    Repository.loadEach settings workspace.catalogue.repositories workspace.disk
  let loaded : Workspace := ⟨{ workspace.catalogue with repositories }, disk⟩
  match failure with
  | some failure => .error failure loaded
  | none => .ok () loaded

/-- What a search for an id asks for. Without a domain the id is read as the text of a
name. -/
def soughtName (id : String) (domain : Option String) : QualifiedName :=
  match domain with
  | some domain => ⟨id, some domain⟩
  | none => QualifiedName.parse id

/-- The declarations of that id in the domain. -/
def find (settings : Settings) (kind : ReferenceKind) (id : String) (domain : Option String) :
    EStateM Failure Workspace (List Hit) := do
  if (← get).catalogue.isConnected then
    loadAll settings
    return (← get).catalogue.hits kind (soughtName id domain)
  else throw .notConnected

end Workspace
end Requirements
