import Mathlib.Logic.Relation
import Requirements.Proofs.Repository.Unindexed
import Requirements.Proofs.Resolution.Searches

/-! What a search finds in repositories that nothing was indexed in before: root by root and folder
by folder, each name that a document declares and the reference designates, with the first
document that declares it. -/
namespace Requirements

namespace Catalogue

/-- How a catalogue comes about before it is searched: the roots that it was connected with last,
if it was, and the roots that were added, in their order. -/
inductive Prepared (settings : Settings) : Option (Path × Option Path) → List Path → Catalogue → Prop
  | new : Prepared settings none [] {}
  | added {standard extras catalogue} (root : Path) (prepared : Prepared settings standard extras catalogue) :
    Prepared settings standard (extras ++ [root]) (catalogue.add root)
  | declared {standard extras catalogue} (document : Document)
      (prepared : Prepared settings standard extras catalogue) :
    Prepared settings standard extras (catalogue.addProject settings document)
  | connected {standard extras catalogue} (library : Path) (cache : Option Path)
      (prepared : Prepared settings standard extras catalogue) :
    Prepared settings (some (library, cache)) extras (catalogue.connected library cache)

def registered (standard : Option (Path × Option Path)) (extras : List Path) : List Repository :=
  standard.toList.flatMap (fun roots => { kind := .standardLibrary, root := roots.1 } ::
    roots.2.toList.map fun root => { kind := .userCache, root }) ++ extras.map fun root => { kind := .extra, root }

theorem filter_registered (standard : Option (Path × Option Path)) (extras : List Path) :
    (registered standard extras).filter (fun repository => !repository.isStandard) = registered none extras := by
  have standards : (standard.toList.flatMap fun roots =>
      ({ kind := .standardLibrary, root := roots.1 } : Repository) ::
        roots.2.toList.map fun root => { kind := .userCache, root }).filter
          (fun repository => !repository.isStandard) = [] := by
    rw [List.filter_eq_nil_iff]
    intro repository member
    obtain ⟨roots, -, member⟩ := List.mem_flatMap.mp member
    rcases List.mem_cons.mp member with rfl | member
    · simp [Repository.isStandard]
    · obtain ⟨_, -, rfl⟩ := List.mem_map.mp member
      simp [Repository.isStandard]
  have others : (extras.map fun root => ({ kind := .extra, root } : Repository)).filter
      (fun repository => !repository.isStandard) = extras.map fun root => { kind := .extra, root } := by
    rw [List.filter_eq_self]
    intro repository member
    obtain ⟨_, -, rfl⟩ := List.mem_map.mp member
    rfl
  rw [registered, registered, List.filter_append, standards, others]
  rfl

theorem Prepared.form {settings : Settings} {standard : Option (Path × Option Path)} {extras : List Path}
    {catalogue : Catalogue} (prepared : Prepared settings standard extras catalogue) :
    catalogue.repositories = registered standard extras ∧ catalogue.isConnected = standard.isSome := by
  induction prepared with
  | new => exact ⟨rfl, rfl⟩
  | added root _ ih =>
    refine ⟨?_, ih.2⟩
    rw [add, ih.1]
    simp [registered]
  | declared document _ ih => exact ih
  | connected library cache _ ih =>
    refine ⟨?_, rfl⟩
    rw [Catalogue.connected, ih.1, filter_registered]
    simp [registered]

/-- No repository is the project, and none is loaded yet. -/
theorem kind_of_mem_registered {standard : Option (Path × Option Path)} {extras : List Path}
    {repository : Repository} (member : repository ∈ registered standard extras) :
    repository.kind ≠ .project ∧ repository.folders = none := by
  rcases List.mem_append.mp member with member | member
  · obtain ⟨roots, -, member⟩ := List.mem_flatMap.mp member
    rcases List.mem_cons.mp member with rfl | member
    · exact ⟨by simp, rfl⟩
    · obtain ⟨_, -, rfl⟩ := List.mem_map.mp member
      exact ⟨by simp, rfl⟩
  · obtain ⟨_, -, rfl⟩ := List.mem_map.mp member
    exact ⟨by simp, rfl⟩

/-- Besides the project's own hits there are those in the repositories. -/
theorem filter_hits {catalogue : Catalogue}
    (others : ∀ repository ∈ catalogue.repositories, repository.kind ≠ .project) {kind : ReferenceKind}
    {reference : QualifiedName} :
    (catalogue.hits kind reference).filter (·.repository ≠ .project) =
      catalogue.repositories.flatMap (Repository.hits kind reference) := by
  have source {repository : RepositoryKind} {index : FolderIndex} {hit : Hit}
      (member : hit ∈ Repository.hitsIn repository kind reference index) : hit.repository = repository := by
    obtain ⟨_, -, rfl⟩ := List.mem_map.mp member
    rfl
  rw [hits, List.filter_append]
  rw [List.filter_eq_nil_iff.mpr fun hit member => by simp [source member], List.nil_append]
  refine List.filter_eq_self.mpr fun hit member => ?_
  obtain ⟨repository, isRepository, member⟩ := List.mem_flatMap.mp member
  obtain ⟨index, -, isIn⟩ := List.mem_flatMap.mp member
  simpa [source isIn] using others repository isRepository

end Catalogue

/-- What a search is to find in repositories on a disk, and still to find there afterwards. -/
structure Found (settings : Settings) (disk final : Disk) (repositories : List Repository) (kind : ElementKind)
    (reference : QualifiedName) (hits : List Hit) : Prop where
  /-- Root by root and folder by folder, the hits answer for the folder's documents. -/
  answers : ∃ answer : Repository → Path → List Hit,
    hits = repositories.flatMap (fun repository =>
      (disk.repositoryFolders settings repository.root).flatMap (answer repository)) ∧
    ∀ repository ∈ repositories, ∀ folder ∈ disk.repositoryFolders settings repository.root,
      ∃ paths, disk.documentPaths settings folder = .ok paths ∧ paths.Pairwise (fun a b => ¬b.before a) ∧
        Answers disk paths repository.kind folder kind reference (answer repository folder)
  ordered : ∀ repository ∈ repositories,
    (disk.repositoryFolders settings repository.root).Pairwise fun a b => a.before b
  /-- The folders are those of the documents below the root. -/
  folders : ∀ repository ∈ repositories, ∀ folder, folder ∈ disk.repositoryFolders settings repository.root ↔
    ∃ names, .file names ∈ disk.visits repository.root ∧ settings.isDocument (repository.root.descend names) ∧
      (repository.root.descend names).parent? = some folder
  declared : ∀ hit ∈ hits, final.Declares hit.path kind hit.record.qualifiedName ∧
    reference.designates hit.record.qualifiedName
  any : hits ≠ [] ↔ ∃ repository ∈ repositories, ∃ names, .file names ∈ disk.visits repository.root ∧
    settings.isDocument (repository.root.descend names) ∧
      ∃ name, reference.designates name ∧ disk.Declares (repository.root.descend names) kind name

namespace Repository

variable {settings : Settings} {disk final : Disk} {repositories : List Repository}

theorem hits_indexed (kind : ReferenceKind) (reference : QualifiedName) (repository : Repository) :
    (repository.indexed settings disk).hits kind reference =
      (disk.repositoryFolders settings repository.root).flatMap fun folder =>
        hitsIn repository.kind kind reference (FolderIndex.ofDocuments disk settings folder) := by
  rw [hits, indexed, Option.getD_some, List.flatMap_map]

def hitsAmong (settings : Settings) (disk : Disk) (repositories : List Repository) (kind : ElementKind)
    (reference : QualifiedName) : List Hit :=
  repositories.flatMap fun repository => (disk.repositoryFolders settings repository.root).flatMap fun folder =>
    hitsIn repository.kind (.element kind) reference (FolderIndex.ofDocuments disk settings folder)

variable {kind : ElementKind} {reference : QualifiedName}

theorem mem_hitsAmong {hit : Hit} : hit ∈ hitsAmong settings disk repositories kind reference ↔
    ∃ repository ∈ repositories, ∃ folder ∈ disk.repositoryFolders settings repository.root,
      hit ∈ hitsIn repository.kind (.element kind) reference (FolderIndex.ofDocuments disk settings folder) := by
  rw [hitsAmong, List.mem_flatMap]
  exact exists_congr fun repository => and_congr_right fun _ => List.mem_flatMap

section

variable (unindexed : disk.Unindexed settings (repositories.map Repository.root))
include unindexed

theorem answers_of_mem {repository : Repository} (isRepository : repository ∈ repositories) {folder : Path}
    (member : folder ∈ disk.repositoryFolders settings repository.root) :
    disk.documentPaths settings folder = .ok (sortedBy Path.before (disk.documents settings folder)) ∧
      (sortedBy Path.before (disk.documents settings folder)).Pairwise (fun a b => ¬b.before a) ∧
      Answers disk (sortedBy Path.before (disk.documents settings folder)) repository.kind folder kind reference
        (hitsIn repository.kind (.element kind) reference (FolderIndex.ofDocuments disk settings folder)) := by
  obtain ⟨_, _, -, ready⟩ := unindexed.ready_of_mem (List.mem_map_of_mem isRepository) member
  refine ⟨by rw [Disk.documentPaths_eq, if_pos ready.listed], ?_, FolderIndex.answers_hitsIn ?_ _ _⟩
  · exact (pairwise_sortedBy Path.before_iff _).imp fun least less => least.not_gt ((Path.before_iff _ _).mp less)
  · intro path isDocument
    obtain ⟨other, isProper, isChild, -⟩ := ready.documents path isDocument
    exact ⟨other, isProper, isChild⟩

/-- The document of a hit declares what is sought, also after index files were written. -/
theorem declares_of_mem_hitsAmong {written : List String → Prop} (indexed : Disk.Indexed written disk final)
    {hit : Hit} (member : hit ∈ hitsAmong settings disk repositories kind reference) :
    final.Declares hit.path kind hit.record.qualifiedName ∧ reference.designates hit.record.qualifiedName := by
  obtain ⟨repository, isRepository, folder, inside, isIn⟩ := mem_hitsAmong.mp member
  obtain ⟨-, -, answers⟩ := answers_of_mem unindexed isRepository inside
  obtain ⟨before, after, split, declares, -⟩ := answers.first hit isIn
  have isDocument : hit.path ∈ sortedBy Path.before (disk.documents settings folder) := by
    rw [split]
    simp
  obtain ⟨_, _, -, ready⟩ := unindexed.ready_of_mem (List.mem_map_of_mem isRepository) inside
  have isFile := FolderIndex.isSome_file?_of_parses (ready.parses (mem_sortedBy.mp isDocument))
  refine ⟨?_, ((answers.names hit.record.qualifiedName).mp ⟨hit, isIn, rfl⟩).1⟩
  exact (Disk.declares_congr (indexed.file? isFile) rfl).mpr declares

/-- Something is found exactly if some document declares what is sought. -/
theorem hitsAmong_ne_nil : hitsAmong settings disk repositories kind reference ≠ [] ↔
    ∃ repository ∈ repositories, ∃ names, .file names ∈ disk.visits repository.root ∧
      settings.isDocument (repository.root.descend names) ∧
        ∃ name, reference.designates name ∧ disk.Declares (repository.root.descend names) kind name := by
  constructor
  · intro notNil
    obtain ⟨hit, member⟩ := List.exists_mem_of_ne_nil _ notNil
    obtain ⟨repository, isRepository, folder, inside, isIn⟩ := mem_hitsAmong.mp member
    have isRoot := List.mem_map_of_mem (f := Repository.root) isRepository
    obtain ⟨-, -, answers⟩ := answers_of_mem unindexed isRepository inside
    obtain ⟨designates, path, isDocument, declares⟩ := (answers.names _).mp ⟨hit, isIn, rfl⟩
    obtain ⟨place, rooted, names, name, visited, -, rfl⟩ := (unindexed.mem_repositoryFolders isRoot).mp inside
    obtain ⟨other, rfl, visitedToo, isDocument⟩ :=
      rooted.visits_of_mem_documents unindexed.sound visited (mem_sortedBy.mp isDocument)
    obtain ⟨-, same⟩ := unindexed.document_of_visits isRoot rooted visitedToo isDocument
    exact ⟨repository, isRepository, _, visitedToo, isDocument, _, designates, (same kind _).mp declares⟩
  · rintro ⟨repository, isRepository, _, visited, isDocument, name, designates, declares⟩
    have isRoot := List.mem_map_of_mem (f := Repository.root) isRepository
    obtain ⟨place, names, own, rooted, rfl⟩ := unindexed.split_of_visits isRoot visited
    have inside := (unindexed.mem_repositoryFolders isRoot).mpr
      ⟨place, rooted, names, own, visited, isDocument, rfl⟩
    obtain ⟨-, -, answers⟩ := answers_of_mem unindexed isRepository inside
    obtain ⟨member, same⟩ := unindexed.document_of_visits isRoot rooted visited isDocument
    obtain ⟨hit, isIn, -⟩ := (answers.names name).mpr
      ⟨designates, _, mem_sortedBy.mpr member, (same kind name).mpr declares⟩
    exact List.ne_nil_of_mem (mem_hitsAmong.mpr ⟨repository, isRepository, _, inside, isIn⟩)

theorem found_hitsAmong {written : List String → Prop} (indexed : Disk.Indexed written disk final) :
    Found settings disk final repositories kind reference
      (hitsAmong settings disk repositories kind reference) where
  answers := ⟨_, rfl, fun _ isRepository _ member => ⟨_, answers_of_mem unindexed isRepository member⟩⟩
  ordered repository _ := Disk.pairwise_repositoryFolders disk settings repository.root
  folders _ isRepository _ := unindexed.mem_repositoryFolders_iff_parent? (List.mem_map_of_mem isRepository)
  declared _ := declares_of_mem_hitsAmong unindexed indexed
  any := hitsAmong_ne_nil unindexed

end

end Repository

namespace Workspace

variable {settings : Settings}

/-- One search follows another. -/
def Searches (settings : Settings) (before after : Workspace) : Prop :=
  ∃ kind id domain hits, find settings kind id domain before = .ok hits after

theorem soughtName_of_dotless {name : QualifiedName} (dotless : name.Dotless) :
    soughtName name.id name.domain = name := by
  obtain ⟨id, domain⟩ := name
  cases domain with
  | some => rfl
  | none => rw [soughtName, QualifiedName.parse, splitAtLast_eq_none.mpr dotless]

/-- The first search loads everything, and from then on nothing changes. -/
theorem find_of_loadEach {start : Workspace} (loaded : Workspace) (isConnected : start.catalogue.isConnected)
    (loads : Repository.loadEach settings start.catalogue.repositories start.disk =
      (loaded.catalogue.repositories, loaded.disk, none))
    (same : loaded.catalogue = { start.catalogue with repositories := loaded.catalogue.repositories })
    {now : Workspace} (searched : Relation.ReflTransGen (Searches settings) start now) (kind : ReferenceKind)
    (id : String) (domain : Option String) : find settings kind id domain now =
      .ok (loaded.catalogue.hits kind (soughtName id domain)) loaded := by
  have isLoaded : loaded.IsLoaded := ⟨by rw [same]; exact isConnected, Repository.folders_of_loadEach loads⟩
  have first (kind : ReferenceKind) (id : String) (domain : Option String) :
      find settings kind id domain start = .ok (loaded.catalogue.hits kind (soughtName id domain)) loaded :=
    find_eq_ok.mpr ⟨isConnected, _, _, loads, congrArg (Workspace.mk · loaded.disk) same, rfl⟩
  have now_cases : now = start ∨ now = loaded := by
    induction searched with
    | refl => exact .inl rfl
    | tail _ search ih =>
      obtain ⟨kind, id, domain, hits, ran⟩ := search
      rcases ih with rfl | rfl
      · rw [first] at ran
        exact .inr (EStateM.Result.ok.inj ran).2.symm
      · rw [find_of_loaded isLoaded] at ran
        exact .inr (EStateM.Result.ok.inj ran).2.symm
  rcases now_cases with rfl | rfl
  · exact first kind id domain
  · exact find_of_loaded isLoaded kind id domain

/-- Where nothing was indexed before, and each index file is told by one name or lies in its folder
or below and is no document, every search in a connected catalogue comes to its end. What it finds
besides the project's own declarations is, in the order of the roots, exactly what the documents of
the repositories declare. -/
theorem find_in_unindexed {start now : Workspace} {library : Path} {cache : Option Path} {extras : List Path}
    (prepared : Catalogue.Prepared settings (some (library, cache)) extras start.catalogue)
    (inside : settings.IndexInside)
    (unindexed : start.disk.Unindexed settings (library :: (cache.toList ++ extras)))
    (searched : Relation.ReflTransGen (Searches settings) start now) (kind : ElementKind) (text : String) :
    ∃ hits final, find settings (.element kind) (QualifiedName.parse text).id (QualifiedName.parse text).domain now =
        .ok hits final ∧
      Found settings start.disk final.disk (Catalogue.registered (some (library, cache)) extras) kind
        (QualifiedName.parse text) (hits.filter (·.repository ≠ .project)) := by
  obtain ⟨repositories, isConnected⟩ := prepared.form
  have roots : start.catalogue.repositories.map Repository.root = library :: (cache.toList ++ extras) := by
    rw [repositories, Catalogue.registered]
    simp [Function.comp_def]
  have fresh : ∀ repository ∈ start.catalogue.repositories,
      repository.kind ≠ .project ∧ repository.folders = none := by
    rw [repositories]
    exact fun repository => Catalogue.kind_of_mem_registered
  rw [← roots] at unindexed
  obtain ⟨disk, loads, written, indexed⟩ := Repository.loadEach_of_unindexed unindexed inside
    (fun repository member => (fresh repository member).2) (.refl start.disk) fun _ _ _ _ _ none => none.elim
  obtain ⟨loaded, isLoaded⟩ :
      ∃ loaded, loaded = start.catalogue.repositories.map (Repository.indexed settings start.disk) := ⟨_, rfl⟩
  rw [← isLoaded] at loads
  have finds := find_of_loadEach ⟨{ start.catalogue with repositories := loaded }, disk⟩ isConnected loads rfl
    searched (.element kind) (QualifiedName.parse text).id (QualifiedName.parse text).domain
  rw [soughtName_of_dotless (QualifiedName.dotless_parse text)] at finds
  refine ⟨_, _, finds, ?_⟩
  have kinds : ∀ repository ∈ loaded, repository.kind ≠ .project := by
    intro repository member
    rw [isLoaded] at member
    obtain ⟨own, isOwn, rfl⟩ := List.mem_map.mp member
    exact (fresh own isOwn).1
  rw [Catalogue.filter_hits kinds, isLoaded, List.flatMap_map, ← repositories]
  simp only [Repository.hits_indexed]
  exact Repository.found_hitsAmong unindexed indexed

/-- What a walk meets can be looked at, file by file. -/
theorem unindexed_of_walked {disk : Disk} {roots : List Path} (sound : disk.root.Sound)
    (written : ∀ root ∈ roots, root.parts ≠ []) (noFile : ∀ root ∈ roots, ¬disk.isFile root)
    (apart : roots.Pairwise disk.Apart)
    (noCache : ∀ root ∈ roots, ∀ folder ∈ disk.repositoryFolders settings root,
      ¬disk.isFile (settings.indexPath folder))
    (walked : ∀ root ∈ roots, ∀ visit ∈ disk.visits root, visit.file?.bind List.getLast? ≠ some settings.indexFile ∧
      ∀ names ∈ visit.file?,
        (disk.parse (root.descend names) ((root.descend names).fileName?.getD "")).isOk) :
    disk.Unindexed settings roots where
  sound := sound
  written := written
  noFile := noFile
  apart := apart
  noIndex root isRoot names visited := (walked root isRoot _ visited).1 (by simp [Visit.file?])
  noCache := noCache
  parses root isRoot names visited _ := by
    have isOk := (walked root isRoot _ visited).2 names rfl
    cases parsed : disk.parse (root.descend names) ((root.descend names).fileName?.getD "") with
    | ok document => exact ⟨document, parsed⟩
    | error => simp [parsed, Except.isOk, Except.toBool] at isOk

def shelves : Disk where
  root := .folder ""
    [.folder "lib"
      [.file "a.reqm" (.text "domain std; class Base;") 1,
        .folder "more" [.file "b.reqm" (.text "class Base; class Other;") 1]],
      .folder "extra" [.file "c.reqm" (.text "class Base;") 1]]
  now := 5

theorem sound_shelves : shelves.root.Sound := by
  have more : Entry.Sound (.folder "more" [.file "b.reqm" (.text "class Base; class Other;") 1]) :=
    Entry.sound_folder (by decide) (by decide) (by simp [Entry.sound_file])
  have lib : Entry.Sound (.folder "lib" [.file "a.reqm" (.text "domain std; class Base;") 1,
      .folder "more" [.file "b.reqm" (.text "class Base; class Other;") 1]]) :=
    Entry.sound_folder (by decide) (by decide) (by simpa [Entry.sound_file] using more)
  have extra : Entry.Sound (.folder "extra" [.file "c.reqm" (.text "class Base;") 1]) :=
    Entry.sound_folder (by decide) (by decide) (by simp [Entry.sound_file])
  exact Entry.sound_folder (by decide) (by decide) (by simpa using ⟨lib, extra⟩)

/-- The index files are to lie in folders named `more` below the folders that they are for. -/
theorem unindexed_shelves : shelves.Unindexed { indexFile := "more/index" } [⟨["lib"]⟩, ⟨["extra"]⟩] := by
  refine unindexed_of_walked sound_shelves (by decide) (by decide +kernel) ?_ (by decide +kernel) (by decide +kernel)
  have first : shelves.location? ⟨["lib"]⟩ = some (.within ["lib"]) := by decide +kernel
  have second : shelves.location? ⟨["extra"]⟩ = some (.within ["extra"]) := by decide +kernel
  refine List.pairwise_pair.mpr fun x y isFirst isSecond => ?_
  obtain rfl := Location.within.inj (Option.some.inj (first.symm.trans isFirst))
  obtain rfl := Location.within.inj (Option.some.inj (second.symm.trans isSecond))
  decide

/-- A second search, in a catalogue that was connected after a root was added. -/
theorem find_in_shelves :
    ∃ others now hits final,
      find { indexFile := "more/index" } (.element .classType) "Other" none
        ⟨((Catalogue.add {} ⟨["extra"]⟩).connected ⟨["lib"]⟩ none), shelves⟩ = .ok others now ∧
      find { indexFile := "more/index" } (.element .classType) "Base" none now = .ok hits final ∧
      Found { indexFile := "more/index" } shelves final.disk
        (Catalogue.registered (some (⟨["lib"]⟩, none)) [⟨["extra"]⟩]) .classType ⟨"Base", none⟩
        (hits.filter (·.repository ≠ .project)) := by
  let start : Workspace := ⟨(Catalogue.add {} ⟨["extra"]⟩).connected ⟨["lib"]⟩ none, shelves⟩
  have prepared : Catalogue.Prepared { indexFile := "more/index" } (some (⟨["lib"]⟩, none)) [⟨["extra"]⟩]
      start.catalogue := .connected ⟨["lib"]⟩ none (.added ⟨["extra"]⟩ .new)
  have inside : Settings.IndexInside { indexFile := "more/index" } := .inr ⟨by decide, by decide, by decide⟩
  obtain ⟨others, now, ran, -⟩ := find_in_unindexed prepared inside unindexed_shelves .refl .classType "Other"
  obtain ⟨hits, final, ranToo, found⟩ := find_in_unindexed prepared inside unindexed_shelves
    (.single ⟨_, _, _, _, ran⟩) .classType "Base"
  exact ⟨others, now, hits, final, ran, ranToo, found⟩

def wings : Disk where
  root := .folder ""
    [.folder "lib"
      [.folder "a" [.file "x.reqm" (.text "class A;") 1], .folder "b" [.file "x.reqm" (.text "class B;") 1]]]
  now := 5

theorem unindexed_wings : wings.Unindexed { indexFile := "../index" } [⟨["lib"]⟩] := by
  have first : Entry.Sound (.folder "a" [.file "x.reqm" (.text "class A;") 1]) :=
    Entry.sound_folder (by decide) (by decide) (by simp [Entry.sound_file])
  have second : Entry.Sound (.folder "b" [.file "x.reqm" (.text "class B;") 1]) :=
    Entry.sound_folder (by decide) (by decide) (by simp [Entry.sound_file])
  have lib : Entry.Sound (.folder "lib"
      [.folder "a" [.file "x.reqm" (.text "class A;") 1], .folder "b" [.file "x.reqm" (.text "class B;") 1]]) :=
    Entry.sound_folder (by decide) (by decide) (by simpa using ⟨first, second⟩)
  exact unindexed_of_walked (Entry.sound_folder (by decide) (by decide) (by simpa using lib)) (by decide)
    (by decide +kernel) (List.pairwise_singleton ..) (by decide +kernel) (by decide +kernel)

/-- Where the folders share one index file, the second has the first one's index, and what its own
document declares is not found. -/
theorem missed_wings :
    wings.Unindexed { indexFile := "../index" } [⟨["lib"]⟩] ∧ ∃ hits final,
      find { indexFile := "../index" } (.element .classType) "B" none
        ⟨Catalogue.connected {} ⟨["lib"]⟩ none, wings⟩ = .ok hits final ∧
      ¬Found { indexFile := "../index" } wings final.disk
        (Catalogue.registered (some (⟨["lib"]⟩, none)) []) .classType ⟨"B", none⟩
        (hits.filter (·.repository ≠ .project)) := by
  refine ⟨unindexed_wings, ?_⟩
  have ends : ends (fun hits _ => hits.filter (·.repository ≠ .project) == [])
      (find { indexFile := "../index" } (.element .classType) "B" none
        ⟨Catalogue.connected {} ⟨["lib"]⟩ none, wings⟩) := by decide +kernel
  obtain ⟨hits, final, ran, nothing⟩ := ok_of_ends ends
  refine ⟨hits, final, ran, fun found => found.any.mpr ?_ (eq_of_beq nothing)⟩
  have declares : (wings.parse ⟨["lib", "b", "x.reqm"]⟩ "x.reqm").toOption.any fun document =>
      document.elements.any fun element => element.kind = .classType ∧ element.name = ⟨"B", none⟩ := by decide +kernel
  refine ⟨_, List.mem_singleton_self _, ["b", "x.reqm"], by decide +kernel, by decide +kernel, ⟨"B", none⟩,
    by decide, ?_⟩
  obtain ⟨document, parsed, holds⟩ := except_ok_of_any declares
  obtain ⟨element, member, same⟩ := List.any_eq_true.mp holds
  exact ⟨document, parsed, element, member, of_decide_eq_true same⟩

end Workspace
end Requirements
