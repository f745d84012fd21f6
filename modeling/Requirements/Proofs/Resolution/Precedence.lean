import Requirements.Proofs.Document.Weight
import Requirements.Proofs.Repository.Search
import Requirements.Proofs.Resolution.Drawn

/-! Which root answers a reference. Where the indices agree with the documents, it is the first root
that declares an element of the first kind that any root declares. The kinds are gone through before
the roots, so that this need not be the first root that declares anything the reference designates. -/
namespace Requirements

inductive FirstAnswer {α β : Type} (answers : α → β → Prop) : List α → Option β → Prop
  | none : FirstAnswer answers [] none
  | here {item : α} {rest : List α} {b : β} (given : answers item b) : FirstAnswer answers (item :: rest) (some b)
  | behind {item : α} {rest : List α} {answer : Option β} (silent : ∀ b, ¬answers item b)
      (first : FirstAnswer answers rest answer) : FirstAnswer answers (item :: rest) answer

namespace FirstAnswer

variable {α β γ : Type} {answers : α → β → Prop}

theorem silent {items : List α} (first : FirstAnswer answers items .none) : ∀ item ∈ items, ∀ b, ¬answers item b := by
  generalize isNone : (Option.none : Option β) = answer at first
  induction first with
  | none => simp
  | here => cases isNone
  | behind silent _ ih => exact List.forall_mem_cons.mpr ⟨silent, ih isNone⟩

theorem split {items : List α} {b : β} (first : FirstAnswer answers items (some b)) :
    ∃ before item after, items = before ++ item :: after ∧ answers item b ∧
      ∀ other ∈ before, ∀ c, ¬answers other c := by
  generalize isSome : some b = answer at first
  induction first with
  | none => cases isSome
  | @here item rest c given =>
    obtain rfl := Option.some.inj isSome
    exact ⟨[], item, rest, rfl, given, by simp⟩
  | @behind item _ _ silent _ ih =>
    obtain ⟨before, found, after, rfl, given, earlier⟩ := ih isSome
    exact ⟨item :: before, found, after, rfl, given, List.forall_mem_cons.mpr ⟨silent, earlier⟩⟩

theorem exists_of_mem {items : List α} {item : α} {b : β} (member : item ∈ items) (given : answers item b) :
    ∃ c, FirstAnswer answers items (some c) := by
  induction items with
  | nil => cases member
  | cons head rest ih =>
    by_cases silent : ∀ c, ¬answers head c
    · rcases List.mem_cons.mp member with rfl | behind
      · exact absurd given (silent b)
      · obtain ⟨c, first⟩ := ih behind
        exact ⟨c, .behind silent first⟩
    · obtain ⟨c, givenHere⟩ := not_forall_not.mp silent
      exact ⟨c, .here givenHere⟩

/-- It matters what an item answers, and whether it answers at all. -/
theorem imp {other : α → β → Prop} {items : List α} {answer : Option β} (first : FirstAnswer answers items answer)
    (given : ∀ item ∈ items, ∀ b, answers item b → other item b)
    (silent : ∀ item ∈ items, (∀ b, ¬answers item b) → ∀ b, ¬other item b) : FirstAnswer other items answer := by
  induction first with
  | none => exact .none
  | @here item _ b gives => exact .here (given item (by simp) b gives)
  | @behind item _ _ isSilent _ ih =>
    refine .behind (silent item (by simp) isSilent) (ih (fun next member => ?_) fun next member => ?_)
    · exact given next (by simp [member])
    · exact silent next (by simp [member])

theorem append {front back : List α} {answer : Option β} (first : FirstAnswer answers (front ++ back) answer) :
    (∃ b, answer = some b ∧ FirstAnswer answers front (some b)) ∨
      FirstAnswer answers front .none ∧ FirstAnswer answers back answer := by
  induction front with
  | nil => exact .inr ⟨.none, first⟩
  | cons item rest ih =>
    cases first with
    | here given => exact .inl ⟨_, rfl, .here given⟩
    | behind silent first =>
      rcases ih first with ⟨b, rfl, inFront⟩ | ⟨inFront, inBack⟩
      · exact .inl ⟨b, rfl, .behind silent inFront⟩
      · exact .inr ⟨.behind silent inFront, inBack⟩

/-- Groups of items answer one after the other, each with what one of its items answers. -/
theorem flatMap {groups : List γ} {items : γ → List α} {answer : Option β}
    (first : FirstAnswer answers (groups.flatMap items) answer) :
    FirstAnswer (fun group b => ∃ item ∈ items group, answers item b) groups answer := by
  induction groups with
  | nil =>
    cases first
    exact .none
  | cons group rest ih =>
    rw [List.flatMap_cons] at first
    rcases first.append with ⟨b, rfl, inGroup⟩ | ⟨inGroup, inRest⟩
    · obtain ⟨before, item, after, same, given, -⟩ := inGroup.split
      exact .here ⟨item, by simp [same], given⟩
    · apply behind _ (ih inRest)
      rintro b ⟨item, member, given⟩
      exact inGroup.silent item member b given

theorem map {f : γ → α} {items : List γ} {answer : Option β}
    (first : FirstAnswer (fun item => answers (f item)) items answer) : FirstAnswer answers (items.map f) answer := by
  induction first with
  | none => exact .none
  | here given => exact .here given
  | behind silent _ ih => exact .behind silent ih

end FirstAnswer

namespace Disk

variable {settings : Settings} {disk : Disk} {root path : Path} {reference : QualifiedName} {element : Element}

/-- A document in a folder of the root declares the element, whatever name the file is known by. -/
def Supplies (settings : Settings) (disk : Disk) (root : Path) (element : Element) : Prop :=
  ∃ folder ∈ disk.repositoryFolders settings root, ∃ path ∈ disk.documents settings folder,
    ∃ file document, disk.parse path file = .ok document ∧ element ∈ document.elements

def Offers (settings : Settings) (disk : Disk) (root : Path) (kinds : List ElementKind)
    (reference : QualifiedName) : Prop :=
  ∃ element, disk.Supplies settings root element ∧ element.isDesignated kinds reference

theorem Offers.single {kinds : List ElementKind} (offers : disk.Offers settings root kinds reference) :
    ∃ kind ∈ kinds, disk.Offers settings root [kind] reference := by
  obtain ⟨element, supplies, designated⟩ := offers
  simp only [Element.isDesignated, Bool.and_eq_true, List.contains_iff_mem] at designated
  exact ⟨element.kind, designated.1, element, supplies, by simp [Element.isDesignated, designated.2]⟩

theorem exists_firstAnswer {roots : List Path} {kind : ElementKind} (member : root ∈ roots)
    (offers : disk.Offers settings root [kind] reference) :
    ∃ element, FirstAnswer (fun root element =>
      disk.Supplies settings root element ∧ element.isDesignated [kind] reference) roots (some element) := by
  obtain ⟨element, given⟩ := offers
  exact FirstAnswer.exists_of_mem member given

theorem offers_pair {first second : ElementKind} : disk.Offers settings root [first, second] reference ↔
    disk.Offers settings root [first] reference ∨ disk.Offers settings root [second] reference := by
  rw [Offers, Offers, Offers, ← exists_or]
  refine exists_congr fun element => ?_
  rw [← and_or_left]
  simp [Element.isDesignated, or_and_right]

/-- What a document declares does not depend on the name that its file is known by. -/
theorem declares_iff {file : String} {document : Document} (parsed : disk.parse path file = .ok document)
    {kind : ElementKind} {name : QualifiedName} :
    disk.Declares path kind name ↔ ∃ element ∈ document.elements, element.kind = kind ∧ element.name = name := by
  obtain ⟨text, read, parsed⟩ := parse_ok.mp parsed
  obtain ⟨renamed, parsedSo, same⟩ := Document.parse_file parsed (path.fileName?.getD "")
  obtain ⟨_, parsedBack, sameBack⟩ := Document.parse_file parsedSo file
  obtain rfl := Except.ok.inj (parsed.symm.trans parsedBack)
  constructor
  · rintro ⟨other, parsedToo, element, member, rfl, rfl⟩
    obtain rfl := Except.ok.inj ((parse_ok.mpr ⟨text, read, parsedSo⟩).symm.trans parsedToo)
    exact ⟨_, sameBack element member, rfl, rfl⟩
  · rintro ⟨element, member, rfl, rfl⟩
    exact ⟨renamed, parse_ok.mpr ⟨text, read, parsedSo⟩, _, same element member, rfl, rfl⟩

/-- Under another spelling of its path a file reads the same. -/
theorem parse_of_same {other : Path} {file : String} {document : Document} (same : path.same other)
    (parsed : disk.parse path file = .ok document) (isFile : (disk.file? other).isSome) :
    disk.parse other file = .ok document := by
  obtain ⟨text, read, parsed⟩ := parse_ok.mp parsed
  rw [read?_eq] at read
  have isFileToo : (disk.file? path).isSome := Option.isSome_of_isSome_bind (Option.isSome_of_eq_some read)
  rw [file?_of_same same isFileToo isFile, ← read?_eq] at read
  exact parse_ok.mpr ⟨text, read, parsed⟩

end Disk

def Hit.Gives (disk : Disk) (kind : ElementKind) (reference : QualifiedName) (hit : Hit) (element : Element) : Prop :=
  hit.repository ≠ .project ∧
    (∃ file document, disk.parse hit.path file = .ok document ∧ element ∈ document.elements) ∧
      element.isDesignated [kind] reference

namespace Repository

variable {settings : Settings} {disk : Disk} {kind : ElementKind} {reference : QualifiedName}
  {repository : Repository} {hit : Hit}

/-- On a sound disk the index of a folder's documents answers for them. -/
theorem answers_of_sound (sound : disk.root.Sound) (source : RepositoryKind) (folder : Path) :
    Answers disk (sortedBy Path.before (disk.documents settings folder)) source folder kind reference
      (hitsIn source (.element kind) reference (FolderIndex.ofDocuments disk settings folder)) := by
  refine FolderIndex.answers_hitsIn (fun path isDocument => ?_) source reference
  obtain ⟨⟨name, listed, rfl⟩, -, -⟩ := Disk.mem_documents.mp isDocument
  exact ⟨name, Disk.isProper_of_mem_fileNames sound listed, rfl⟩

/-- A hit leads to a document of the repository that declares what the hit says. -/
theorem declares_of_mem_hits (sound : disk.root.Sound)
    (member : hit ∈ (repository.indexed settings disk).hits (.element kind) reference) :
    hit.repository = repository.kind ∧ disk.Declares hit.path kind hit.record.qualifiedName ∧
      ∃ folder ∈ disk.repositoryFolders settings repository.root, hit.path ∈ disk.documents settings folder := by
  rw [hits_indexed] at member
  obtain ⟨folder, isFolder, isIn⟩ := List.mem_flatMap.mp member
  have source := ((answers_of_sound sound repository.kind folder).source hit isIn).1
  obtain ⟨before, after, ordered, declares, -⟩ := (answers_of_sound sound repository.kind folder).first hit isIn
  have inOrder : hit.path ∈ sortedBy Path.before (disk.documents settings folder) := by
    rw [ordered]
    simp
  exact ⟨source, declares, folder, isFolder, mem_sortedBy.mp inOrder⟩

/-- What the hits give is what the root supplies, and they give something if it does. -/
theorem firstAnswer_hits {repositories : List Repository} {answer : Option Element} (sound : disk.root.Sound)
    (outside : ∀ repository ∈ repositories, repository.kind ≠ .project)
    (first : FirstAnswer (Hit.Gives disk kind reference) (repositories.flatMap fun repository =>
      (repository.indexed settings disk).hits (.element kind)
        (Workspace.soughtName reference.id reference.domain)) answer) :
    FirstAnswer (fun (repository : Repository) element =>
      disk.Supplies settings repository.root element ∧ element.isDesignated [kind] reference) repositories answer := by
  refine first.flatMap.imp (fun repository _ element => ?_) fun repository isRepository silent element => ?_
  · rintro ⟨hit, member, -, ⟨file, document, parsed, inside⟩, designated⟩
    obtain ⟨-, -, folder, isFolder, isDocument⟩ := declares_of_mem_hits sound member
    exact ⟨⟨folder, isFolder, hit.path, isDocument, file, document, parsed, inside⟩, designated⟩
  · rintro ⟨⟨folder, isFolder, path, isDocument, file, document, parsed, inside⟩, designated⟩
    have wellFormed := (Disk.wellFormed_parse parsed element inside).name
    have designates : reference.designates element.name := by
      rw [Element.isDesignated, Bool.and_eq_true] at designated
      exact designated.2
    -- A reference with a dot in its id designates nothing, so that this one is sought as it is.
    have dotless : reference.Dotless := by
      rw [QualifiedName.designates, Bool.and_eq_true, beq_iff_eq] at designates
      rw [QualifiedName.Dotless, designates.1]
      exact wellFormed.dotless
    have isKind := Element.kind_of_designated designated
    have declares : disk.Declares path kind element.name :=
      (Disk.declares_iff parsed).mpr ⟨element, inside, isKind, rfl⟩
    obtain ⟨hit, isIn, named⟩ := ((answers_of_sound sound repository.kind folder).names element.name).mpr
      ⟨designates, path, mem_sortedBy.mpr isDocument, declares⟩
    have member : hit ∈ (repository.indexed settings disk).hits (.element kind) reference := by
      rw [hits_indexed]
      exact List.mem_flatMap.mpr ⟨folder, isFolder, isIn⟩
    obtain ⟨source, ⟨read, parsedThere, other, isThere, isKind, isNamed⟩, -⟩ := declares_of_mem_hits sound member
    refine silent other ⟨hit, ?_, ?_, ⟨_, read, parsedThere, isThere⟩, ?_⟩
    · rwa [Workspace.soughtName_of_dotless dotless]
    · rw [source]
      exact outside repository isRepository
    · simp [Element.isDesignated, isKind, isNamed, named, designates]

end Repository

/-- The catalogue is connected, with the standard library first, then the user's cache if there is one,
and then what was added. -/
structure Catalogue.Connected (catalogue : Catalogue) (library : Path) (cache : Option Path)
    (extras : List Path) : Prop where
  isConnected : catalogue.isConnected
  ordered : catalogue.repositories.map (fun repository => (repository.kind, repository.root)) =
    (.standardLibrary, library) :: (cache.toList.map (Prod.mk .userCache) ++ extras.map (Prod.mk .extra))

theorem Catalogue.Prepared.connected_roots {settings : Settings} {library : Path} {cache : Option Path}
    {extras : List Path} {catalogue : Catalogue}
    (prepared : Prepared settings (some (library, cache)) extras catalogue) :
    catalogue.Connected library cache extras := by
  obtain ⟨repositories, isConnected⟩ := prepared.form
  refine ⟨isConnected, ?_⟩
  rw [repositories, registered]
  simp [Function.comp_def]

namespace Workspace

variable {settings : Settings} {workspace : Workspace} {roots : List Path} {disk : Disk}

/-- The workspace is connected with the roots, and loading gives each of their folders the index of
its documents, whether it was loaded before, is read from a file or is built. -/
structure UpToDate (settings : Settings) (workspace : Workspace) (roots : List Path) (disk : Disk) : Prop where
  connected : workspace.catalogue.isConnected
  outside : ∀ repository ∈ workspace.catalogue.repositories, repository.kind ≠ .project
  ordered : workspace.catalogue.repositories.map Repository.root = roots
  loads : Repository.loadEach settings workspace.catalogue.repositories workspace.disk =
    (workspace.catalogue.repositories.map (Repository.indexed settings disk), disk, none)

/-- A search loads the indices, and they are up to date from then on. -/
theorem UpToDate.find (upToDate : workspace.UpToDate settings roots disk) (kind : ReferenceKind) (id : String)
    (domain : Option String) : ∃ loaded : Workspace, loaded.UpToDate settings roots disk ∧ loaded.disk = disk ∧
      loaded.catalogue.repositories = workspace.catalogue.repositories.map (Repository.indexed settings disk) ∧
      find settings kind id domain workspace = .ok (loaded.catalogue.hits kind (soughtName id domain)) loaded := by
  let repositories := workspace.catalogue.repositories.map (Repository.indexed settings disk)
  let loaded : Workspace := ⟨{ workspace.catalogue with repositories }, disk⟩
  have same : repositories.map (Repository.indexed settings disk) = repositories := List.map_map ..
  have again : Repository.loadEach settings repositories disk =
      (repositories.map (Repository.indexed settings disk), disk, none) := by
    rw [same]
    exact Repository.loadEach_of_folders (Repository.folders_of_loadEach upToDate.loads) disk
  refine ⟨loaded, ⟨upToDate.connected, ?_, ?_, again⟩, rfl, rfl, ?_⟩
  · intro repository member
    obtain ⟨own, isOwn, rfl⟩ := List.mem_map.mp member
    exact upToDate.outside own isOwn
  · rw [← upToDate.ordered]
    exact List.map_map ..
  · exact find_of_loadEach loaded upToDate.connected upToDate.loads rfl .refl kind id domain

theorem upToDate_of_connected {library : Path} {cache : Option Path} {extras : List Path}
    (connected : workspace.catalogue.Connected library cache extras)
    (loads : Repository.loadEach settings workspace.catalogue.repositories workspace.disk =
      (workspace.catalogue.repositories.map (Repository.indexed settings disk), disk, none)) :
    workspace.UpToDate settings (library :: (cache.toList ++ extras)) disk := by
  refine ⟨connected.isConnected, fun repository member => ?_, ?_, loads⟩
  · have among := List.mem_map_of_mem (f := fun repository => (repository.kind, repository.root)) member
    rw [connected.ordered] at among
    rintro isProject
    simp [isProject] at among
  · have roots := congrArg (List.map Prod.snd) connected.ordered
    simpa [Function.comp_def] using roots

end Workspace

namespace Resolving

variable {settings : Settings} {start : Resolution} {kind : ElementKind} {reference : QualifiedName}

/-- The document of a hit is opened if it declares anything. -/
theorem documentOf_of_declares (sourced : start.Sourced settings) {hit : Hit} {name : QualifiedName}
    (declares : start.workspace.disk.Declares hit.path kind name) : ∃ file document final,
      documentOf hit start = .ok document final ∧ start.workspace.disk.parse hit.path file = .ok document := by
  obtain ⟨document, parsed, -⟩ := declares
  cases found : start.parsed.find? fun read => read.1.same hit.path with
  | some read =>
    obtain ⟨path, there⟩ := read
    obtain ⟨-, -, parsedThere⟩ := sourced.read path there (List.mem_of_find?_eq_some found)
    have same : path.same hit.path := (List.find?_eq_some_iff_append.mp found).1
    have isFile := FolderIndex.isSome_file?_of_parses ⟨document, parsed⟩
    refine ⟨_, there, start, ?_, Disk.parse_of_same same parsedThere isFile⟩
    rw [documentOf, found]
  | none =>
    obtain ⟨text, read, parsed⟩ := Disk.parse_ok.mp parsed
    obtain ⟨renamed, parsedSo, -⟩ := Document.parse_file parsed (Disk.fileText hit.path.text)
    have opened := Disk.parse_ok.mpr ⟨text, read, parsedSo⟩
    refine ⟨_, renamed, { start with parsed := start.parsed ++ [(hit.path, renamed)] }, ?_, opened⟩
    simp only [documentOf, found, opened]

/-- Hits whose documents declare anything are gone through up to the first that gives an answer. -/
theorem firstAnswer_firstDeclared {hits : List Hit} (sourced : start.Sourced settings)
    (loaded : start.workspace.IsLoaded) (declared : ∀ hit ∈ hits, hit.repository ≠ .project →
      start.workspace.Holds settings hit.path ∧ ∃ name, start.workspace.disk.Declares hit.path kind name) :
    ∃ answer final, firstDeclared kind reference hits start = .ok answer final ∧
      final.workspace = start.workspace ∧
      FirstAnswer (Hit.Gives start.workspace.disk kind reference) hits answer := by
  induction hits generalizing start with
  | nil => exact ⟨none, start, rfl, rfl, .none⟩
  | cons hit rest ih =>
    have ⟨inHit, inRest⟩ := List.forall_mem_cons.mp declared
    rw [firstDeclared]
    by_cases inside : hit.repository = .project
    · obtain ⟨answer, final, ran, same, first⟩ := ih sourced loaded inRest
      refine ⟨answer, final, by rw [if_pos inside, ran], same, .behind (fun element gives => ?_) first⟩
      exact gives.1 inside
    · obtain ⟨holds, name, declares⟩ := inHit inside
      obtain ⟨file, document, middle, opened, parsed⟩ := documentOf_of_declares sourced declares
      have same := workspace_documentOf opened
      have sourcedThen := sourced.documentOf loaded holds opened
      rw [if_neg inside]
      cases found : document.elements.find? (·.isDesignated [kind] reference) with
      | some element =>
        refine ⟨some element, middle, bind_ok.mpr ⟨document, middle, opened, ?_⟩, same, .here ?_⟩
        · rw [found]
          rfl
        · exact ⟨inside, ⟨file, document, parsed, List.mem_of_find?_eq_some found⟩, List.find?_some found⟩
      | none =>
        obtain ⟨answer, final, ran, sameThen, first⟩ := ih sourcedThen (same ▸ loaded) (same ▸ inRest)
        rw [same] at sameThen first
        refine ⟨answer, final, bind_ok.mpr ⟨document, middle, opened, ?_⟩, sameThen, .behind ?_ first⟩
        · rw [found]
          exact ran
        · rintro element ⟨-, ⟨other, read, parsedToo, isThere⟩, designated⟩
          have isKind := Element.kind_of_designated designated
          obtain ⟨here, isHere, sameKind, sameName⟩ :=
            (Disk.declares_iff parsed).mp ((Disk.declares_iff parsedToo).mpr ⟨element, isThere, isKind, rfl⟩)
          have alike : here.identity = element.identity := Prod.ext (sameKind.trans isKind.symm) sameName
          exact List.find?_eq_none.mp found here isHere
            ((Element.isDesignated_of_identity alike [kind] reference).trans designated)

/-- One kind is looked for in the roots, one after the other. -/
theorem firstAnswer_search {roots : List Path} {disk : Disk} (sourced : start.Sourced settings)
    (upToDate : start.workspace.UpToDate settings roots disk) (kind : ElementKind) (reference : QualifiedName) :
    ∃ hits searched answer final,
      search (Workspace.find settings (.element kind) reference.id reference.domain) start = .ok hits searched ∧
      firstDeclared kind reference hits searched = .ok answer final ∧
      final.Sourced settings ∧ final.workspace.UpToDate settings roots disk ∧
      FirstAnswer (fun root element => disk.Supplies settings root element ∧ element.isDesignated [kind] reference)
        roots answer := by
  obtain ⟨loaded, upToDateThen, rfl, repositories, found⟩ :=
    upToDate.find (.element kind) reference.id reference.domain
  let sought := Workspace.soughtName reference.id reference.domain
  have searched : search (Workspace.find settings (.element kind) reference.id reference.domain) start =
      .ok (loaded.catalogue.hits (.element kind) sought) { start with workspace := loaded } :=
    search_ok.mpr ⟨loaded, found, rfl⟩
  obtain ⟨sourcedThen, isLoaded, holds⟩ := sourced.search searched
  have sound := sourcedThen.inOrder.sound
  have hits : loaded.catalogue.hits (.element kind) sought =
      Repository.hitsIn .project (.element kind) sought loaded.catalogue.project ++
        start.workspace.catalogue.repositories.flatMap fun repository =>
          (repository.indexed settings loaded.disk).hits (.element kind) sought := by
    rw [Catalogue.hits, repositories, List.flatMap_map]
  have ofProject : ∀ hit ∈ Repository.hitsIn .project (.element kind) sought loaded.catalogue.project,
      hit.repository = .project := by
    intro hit member
    obtain ⟨record, -, rfl⟩ := List.mem_map.mp member
    rfl
  have declared : ∀ hit ∈ loaded.catalogue.hits (.element kind) sought, hit.repository ≠ .project →
      loaded.Holds settings hit.path ∧ ∃ name, loaded.disk.Declares hit.path kind name := by
    intro hit member outside
    refine ⟨holds hit member outside, ?_⟩
    rw [hits] at member
    rcases List.mem_append.mp member with inProject | among
    · exact absurd (ofProject hit inProject) outside
    · obtain ⟨repository, -, isIn⟩ := List.mem_flatMap.mp among
      obtain ⟨-, declares, -⟩ := Repository.declares_of_mem_hits sound isIn
      exact ⟨_, declares⟩
  obtain ⟨answer, final, looked, same, first⟩ := firstAnswer_firstDeclared sourcedThen isLoaded declared
  have sourcedNow := sourcedThen.firstDeclared isLoaded holds looked
  refine ⟨_, _, answer, final, searched, looked, sourcedNow, same ▸ upToDateThen, ?_⟩
  rw [hits] at first
  rcases first.append with ⟨element, -, inProject⟩ | ⟨-, elsewhere⟩
  · obtain ⟨before, hit, after, split, gives, -⟩ := inProject.split
    exact absurd (ofProject hit (by simp [split])) gives.1
  · rw [← upToDate.ordered]
    exact (Repository.firstAnswer_hits sound upToDate.outside elsewhere).map

/-- The kinds are looked for one after the other, each in all roots. -/
theorem firstAnswer_findInRepositories {roots : List Path} {disk : Disk} (sourced : start.Sourced settings)
    (upToDate : start.workspace.UpToDate settings roots disk) (kinds : List ElementKind) (reference : QualifiedName) :
    ∃ answer final, findInRepositories settings reference kinds start = .ok answer final ∧
      FirstAnswer (fun kind element => FirstAnswer (fun root element =>
        disk.Supplies settings root element ∧ element.isDesignated [kind] reference) roots (some element))
        kinds answer := by
  induction kinds generalizing start with
  | nil => exact ⟨none, start, rfl, .none⟩
  | cons kind rest ih =>
    obtain ⟨hits, searched, answer, middle, ran, looked, sourcedThen, upToDateThen, first⟩ :=
      firstAnswer_search sourced upToDate kind reference
    cases answer with
    | some element =>
      refine ⟨some element, middle, ?_, .here first⟩
      exact bind_ok.mpr ⟨hits, searched, ran, bind_ok.mpr ⟨some element, middle, looked, rfl⟩⟩
    | none =>
      obtain ⟨answer, final, others, firstThen⟩ := ih sourcedThen upToDateThen
      refine ⟨answer, final, ?_, .behind (fun element answered => ?_) firstThen⟩
      · exact bind_ok.mpr ⟨hits, searched, ran, bind_ok.mpr ⟨none, middle, looked, others⟩⟩
      · obtain ⟨before, root, after, rfl, given, -⟩ := answered.split
        exact first.silent root (by simp) element given

end Resolving

/-- Before a root that declares a class which the reference designates, there is none that declares
only an entity. -/
def Disk.ClassesFirst (settings : Settings) (disk : Disk) (roots : List Path) (reference : QualifiedName) : Prop :=
  ∀ before root after, roots = before ++ root :: after → disk.Offers settings root [.classType] reference →
    (∃ other ∈ before, disk.Offers settings other [.entityType] reference) →
    ∃ other ∈ before, disk.Offers settings other [.classType] reference

theorem ElementKind.related_cases (kind : ElementKind) :
    kind.related = [kind] ∧ ¬kind.declaresType ∨ kind.related = [.classType, .entityType] ∧ kind.declaresType := by
  cases kind <;> simp [related, declaresType]

theorem Element.isDesignated_of_mem {kinds : List ElementKind} {kind : ElementKind} {reference : QualifiedName}
    {element : Element} (member : kind ∈ kinds) (designated : element.isDesignated [kind] reference) :
    element.isDesignated kinds reference := by
  have isKind := kind_of_designated designated
  simp only [isDesignated, Bool.and_eq_true] at designated ⊢
  exact ⟨by simpa [isKind] using member, designated.2⟩

/-- The element is of the first kind that any root declares, and declared in the first root that
declares that kind. -/
structure Disk.Foremost (settings : Settings) (disk : Disk) (roots : List Path) (kinds : List ElementKind)
    (reference : QualifiedName) (declared : Element) (before : List Path) (root : Path) : Prop where
  listed : ∃ after, roots = before ++ root :: after
  supplied : disk.Supplies settings root declared
  designated : declared.isDesignated kinds reference
  first : ∀ other ∈ before, ¬disk.Offers settings other [declared.kind] reference
  kinds : ∃ earlier later, kinds = earlier ++ declared.kind :: later ∧
    ∀ kind ∈ earlier, ∀ other ∈ roots, ¬disk.Offers settings other [kind] reference

namespace Disk.Foremost

variable {settings : Settings} {disk : Disk} {roots before : List Path} {root : Path} {kinds : List ElementKind}
  {reference : QualifiedName} {declared : Element}

theorem of_firstAnswer (answered : FirstAnswer (fun kind element => FirstAnswer (fun root element =>
      disk.Supplies settings root element ∧ element.isDesignated [kind] reference) roots (some element))
    kinds (some declared)) : ∃ before root, Foremost settings disk roots kinds reference declared before root := by
  obtain ⟨earlier, kind, later, rfl, inRoots, silentKinds⟩ := answered.split
  obtain ⟨before, root, after, rfl, ⟨supplies, designated⟩, silentRoots⟩ := inRoots.split
  obtain rfl := Element.kind_of_designated designated
  refine ⟨before, root, ⟨after, rfl⟩, supplies, Element.isDesignated_of_mem (by simp) designated, ?_,
    earlier, later, rfl, ?_⟩
  · rintro other member ⟨element, suppliesToo, designatedToo⟩
    exact silentRoots other member element ⟨suppliesToo, designatedToo⟩
  · intro kind isEarlier other member offers
    obtain ⟨found, isFirst⟩ := exists_firstAnswer member offers
    exact silentKinds kind isEarlier found isFirst

theorem offers (foremost : Foremost settings disk roots kinds reference declared before root) :
    root ∈ roots ∧ disk.Offers settings root kinds reference := by
  obtain ⟨after, rfl⟩ := foremost.listed
  exact ⟨by simp, declared, foremost.supplied, foremost.designated⟩

variable {kind : ElementKind} (foremost : Foremost settings disk roots kind.related reference declared before root)
include foremost

/-- An entity stands for a class only where there is none. -/
theorem no_class (isEntity : declared.kind = .entityType) (isType : kind.declaresType) :
    ∀ other ∈ roots, ¬disk.Offers settings other [.classType] reference := by
  obtain ⟨earlier, later, split, unoffered⟩ := foremost.kinds
  rcases kind.related_cases with ⟨-, notType⟩ | ⟨related, -⟩
  · exact absurd isType notType
  · rw [related] at split
    apply unoffered
    cases earlier with
    | nil => cases (List.cons.inj split).1.trans isEntity
    | cons head tail => simp [← (List.cons.inj split).1]

/-- No root before offers anything, unless one of them offers an entity and a later one a class. -/
theorem none_before (classesFirst : kind.declaresType → disk.ClassesFirst settings roots reference) :
    ∀ other ∈ before, ¬disk.Offers settings other kind.related reference := by
  intro other member offers
  obtain ⟨after, listed⟩ := foremost.listed
  have isRoot : other ∈ roots := by simp [listed, member]
  have designated := foremost.designated
  simp only [Element.isDesignated, Bool.and_eq_true, List.contains_iff_mem] at designated
  rcases kind.related_cases with ⟨related, -⟩ | ⟨related, isType⟩
  · rw [related] at offers designated
    obtain rfl := List.mem_singleton.mp designated.1
    exact foremost.first other member offers
  · rw [related] at offers designated
    have kinds : declared.kind = .classType ∨ declared.kind = .entityType := by simpa using designated.1
    rcases kinds with isClass | isEntity
    · have first := foremost.first
      rw [isClass] at first
      rcases offers_pair.mp offers with offersClass | offersEntity
      · exact first other member offersClass
      · have here : disk.Offers settings root [.classType] reference :=
          ⟨declared, foremost.supplied, by simp [Element.isDesignated, isClass, designated.2]⟩
        obtain ⟨above, isAbove, offersClass⟩ :=
          classesFirst isType before root after listed here ⟨other, member, offersEntity⟩
        exact first above isAbove offersClass
    · rcases offers_pair.mp offers with offersClass | offersEntity
      · exact foremost.no_class isEntity isType other isRoot offersClass
      · exact foremost.first other member (isEntity ▸ offersEntity)

end Disk.Foremost

open Resolving in
/-- Where the indices of the roots are up to date, a reference to something that is not known yet is
resolved. It leads nowhere only if no root declares an element that it designates, and otherwise to
one of the first root that declares any of that kind; an entity is taken only if no root declares a
class. Unless a class is declared behind an entity, this is the first root that declares any element
that is designated. -/
theorem resolve_by_precedence {settings : Settings} {start : Resolution} {library : Path} {cache : Option Path}
    {extras : List Path} {disk : Disk} {kind : ElementKind} {reference : QualifiedName} {asker : Option Place}
    (connected : start.workspace.catalogue.Connected library cache extras)
    (upToDate : Repository.loadEach settings start.workspace.catalogue.repositories start.workspace.disk =
      (start.workspace.catalogue.repositories.map (Repository.indexed settings disk), disk, none))
    (sourced : start.Sourced settings) (unknown : start.known? kind.related reference asker = none) :
    ∃ answer final, resolve settings kind.related reference asker start = .ok answer final ∧
      (answer = none ↔
        ∀ root ∈ library :: (cache.toList ++ extras), ¬disk.Offers settings root kind.related reference) ∧
      ∀ place element, answer = some (place, element) → ∃ before root after declared,
        library :: (cache.toList ++ extras) = before ++ root :: after ∧ disk.Supplies settings root declared ∧
        declared.isDesignated kind.related reference ∧ element = declared.used ∧
        (∀ other ∈ before, ¬disk.Offers settings other [element.kind] reference) ∧
        (element.kind = .entityType → kind.declaresType →
          ∀ other ∈ library :: (cache.toList ++ extras), ¬disk.Offers settings other [.classType] reference) ∧
        ((kind.declaresType → disk.ClassesFirst settings (library :: (cache.toList ++ extras)) reference) →
          ∀ other ∈ before, ¬disk.Offers settings other kind.related reference) := by
  have current := Workspace.upToDate_of_connected connected upToDate
  obtain ⟨found, middle, ran, answered⟩ :=
    firstAnswer_findInRepositories sourced current kind.related reference
  cases found with
  | none =>
    refine ⟨none, middle, ?_, iff_of_true rfl fun root isRoot offers => ?_, by simp⟩
    · refine bind_ok.mpr ⟨start, start, rfl, ?_⟩
      rw [unknown]
      exact bind_ok.mpr ⟨none, middle, ran, rfl⟩
    · obtain ⟨sought, isSought, offersOne⟩ := offers.single
      obtain ⟨element, isFirst⟩ := Disk.exists_firstAnswer isRoot offersOne
      exact answered.silent sought isSought element isFirst
  | some declared =>
    obtain ⟨before, root, foremost⟩ := Disk.Foremost.of_firstAnswer answered
    have ⟨isRoot, offers⟩ := foremost.offers
    obtain ⟨after, listed⟩ := foremost.listed
    let place : Place := .dependency middle.project.dependencies.elements.length
    refine ⟨some (place, declared.used), middle.push declared.used, ?_,
      iff_of_false (by simp) fun none => none root isRoot offers, ?_⟩
    · refine bind_ok.mpr ⟨start, start, rfl, ?_⟩
      rw [unknown]
      exact bind_ok.mpr ⟨some declared, middle, ran, bind_ok.mpr ⟨_, _, rfl, rfl⟩⟩
    · rintro _ _ ⟨⟩
      exact ⟨before, root, after, declared, listed, foremost.supplied, foremost.designated, rfl, foremost.first,
        foremost.no_class, foremost.none_before⟩

deriving instance DecidableEq for Repository

def Workspace.shelved (library cache : String) : Workspace :=
  { catalogue := Catalogue.connected {} ⟨["lib"]⟩ (some ⟨["cache"]⟩)
    disk := ⟨.folder "" [.folder "lib" [.file "base.reqm" (.text library) 0],
      .folder "cache" [.file "base.reqm" (.text cache) 0]], 0⟩ }

theorem Workspace.inOrder_shelved (library cache : String) : (shelved library cache).InOrder {} := by
  refine inOrder_of_unloaded ?_ (by simp [shelved, Catalogue.connected]) (by simp [shelved, Catalogue.connected])
  have folder (name text : String) (isName : name ≠ "") (proper : IsProper name) :
      (Entry.folder name [.file "base.reqm" (.text text) 0]).Sound := by
    refine Entry.sound_folder (by simp) ?_ (by simp [Entry.sound_file])
    simpa [Entry.name] using (by decide : IsProper "base.reqm")
  refine Entry.sound_folder (by simp [Entry.name]) ?_ ?_
  · simpa [Entry.name] using (by decide : IsProper "lib" ∧ IsProper "cache")
  · simpa using ⟨folder "lib" library (by decide) (by decide), folder "cache" cache (by decide) (by decide)⟩

def Workspace.loadedDisk (workspace : Workspace) : Disk :=
  (Repository.loadEach {} workspace.catalogue.repositories workspace.disk).2.1

theorem Workspace.loads_iff {workspace : Workspace} :
    Repository.loadEach {} workspace.catalogue.repositories workspace.disk =
        (workspace.catalogue.repositories.map (Repository.indexed {} workspace.loadedDisk),
          workspace.loadedDisk, none) ↔
      (Repository.loadEach {} workspace.catalogue.repositories workspace.disk).1 =
        workspace.catalogue.repositories.map (Repository.indexed {} workspace.loadedDisk) ∧
      (Repository.loadEach {} workspace.catalogue.repositories workspace.disk).2.2 = none := by
  rw [loadedDisk]
  generalize Repository.loadEach {} workspace.catalogue.repositories workspace.disk = loaded
  obtain ⟨repositories, disk, failure⟩ := loaded
  simp

theorem Disk.offers_of_any {settings : Settings} {disk : Disk} {root folder path : Path} {kinds : List ElementKind}
    {reference : QualifiedName} (found : folder ∈ disk.repositoryFolders settings root)
    (isDocument : path ∈ disk.documents settings folder)
    (declares : (disk.parse path "").toOption.any fun document =>
      document.elements.any (·.isDesignated kinds reference)) : disk.Offers settings root kinds reference := by
  obtain ⟨document, parsed, holds⟩ := except_ok_of_any declares
  obtain ⟨element, member, designated⟩ := List.any_eq_true.mp holds
  exact ⟨element, ⟨folder, found, path, isDocument, "", document, parsed, member⟩, designated⟩

def classShelved : Workspace := .shelved "domain lib; class Base;" "domain lib; entity Base;"

theorem resolve_by_precedence_classShelved :
    Repository.loadEach {} classShelved.catalogue.repositories classShelved.disk =
        (classShelved.catalogue.repositories.map (Repository.indexed {} classShelved.loadedDisk),
          classShelved.loadedDisk, none) ∧
      classShelved.loadedDisk.ClassesFirst {} [⟨["lib"]⟩, ⟨["cache"]⟩] ⟨"Base", some "lib"⟩ ∧
      ∃ answer final, Resolving.resolve {} ElementKind.entityType.related ⟨"Base", some "lib"⟩ none
          { project := {}, workspace := classShelved } = .ok answer final ∧
        (answer = none ↔ ∀ root ∈ [⟨["lib"]⟩, ⟨["cache"]⟩],
          ¬classShelved.loadedDisk.Offers {} root ElementKind.entityType.related ⟨"Base", some "lib"⟩) ∧
        ∃ place element, answer = some (place, element) ∧ ∃ before root after declared,
          [⟨["lib"]⟩, ⟨["cache"]⟩] = before ++ root :: after ∧ classShelved.loadedDisk.Supplies {} root declared ∧
          declared.isDesignated ElementKind.entityType.related ⟨"Base", some "lib"⟩ ∧ element = declared.used ∧
          ∀ other ∈ before,
            ¬classShelved.loadedDisk.Offers {} other ElementKind.entityType.related ⟨"Base", some "lib"⟩ := by
  have upToDate := Workspace.loads_iff.mpr (by decide +kernel :
    (Repository.loadEach {} classShelved.catalogue.repositories classShelved.disk).1 =
      classShelved.catalogue.repositories.map (Repository.indexed {} classShelved.loadedDisk) ∧
    (Repository.loadEach {} classShelved.catalogue.repositories classShelved.disk).2.2 = none)
  let start : Resolution := { project := {}, workspace := classShelved }
  have prepared : Catalogue.Prepared {} (some (⟨["lib"]⟩, some ⟨["cache"]⟩)) [] start.workspace.catalogue :=
    .connected ⟨["lib"]⟩ (some ⟨["cache"]⟩) .new
  have sourced : start.Sourced {} := ⟨Workspace.inOrder_shelved _ _, fun _ _ member => nomatch member⟩
  have unknown : start.known? ElementKind.entityType.related ⟨"Base", some "lib"⟩ none = none := rfl
  have found : (⟨["lib"]⟩ : Path) ∈ classShelved.loadedDisk.repositoryFolders {} ⟨["lib"]⟩ := by decide +kernel
  have isDocument : (⟨["lib", "base.reqm"]⟩ : Path) ∈ classShelved.loadedDisk.documents {} ⟨["lib"]⟩ := by
    decide +kernel
  have ofClass : classShelved.loadedDisk.Offers {} ⟨["lib"]⟩ [.classType] ⟨"Base", some "lib"⟩ :=
    Disk.offers_of_any found isDocument (by decide +kernel)
  have classesFirst : classShelved.loadedDisk.ClassesFirst {} [⟨["lib"]⟩, ⟨["cache"]⟩] ⟨"Base", some "lib"⟩ := by
    intro before root after listed _ ofEntity
    cases before with
    | nil => simp at ofEntity
    | cons first rest => exact ⟨⟨["lib"]⟩, by simp [← (List.cons.inj listed).1], ofClass⟩
  obtain ⟨answer, final, ran, isNone, leads⟩ :=
    resolve_by_precedence prepared.connected_roots upToDate sourced unknown
  have offers : classShelved.loadedDisk.Offers {} ⟨["lib"]⟩ ElementKind.entityType.related ⟨"Base", some "lib"⟩ :=
    Disk.offers_pair.mpr (.inl ofClass)
  obtain ⟨⟨place, element⟩, rfl⟩ := Option.ne_none_iff_exists'.mp fun none => isNone.mp none _ (by simp) offers
  obtain ⟨before, root, after, declared, listed, supplied, designated, same, -, -, first⟩ := leads place element rfl
  exact ⟨upToDate, classesFirst, _, final, ran, isNone, place, element, rfl, before, root, after, declared, listed,
    supplied, designated, same, first fun _ => classesFirst⟩

def entityShelved : Workspace := .shelved "domain lib; entity Base;" "domain lib; class Base;"

/-- A reference to either kind leads to the class in the cache, although the library comes first and
declares an entity that it designates. -/
theorem cache_before_library_entityShelved :
    Repository.loadEach {} entityShelved.catalogue.repositories entityShelved.disk =
        (entityShelved.catalogue.repositories.map (Repository.indexed {} entityShelved.loadedDisk),
          entityShelved.loadedDisk, none) ∧
      entityShelved.loadedDisk.Offers {} ⟨["lib"]⟩ ElementKind.entityType.related ⟨"Base", some "lib"⟩ ∧
      ∃ place element final, Resolving.resolve {} ElementKind.entityType.related ⟨"Base", some "lib"⟩ none
          { project := {}, workspace := entityShelved } = .ok (some (place, element)) final ∧
        element.kind = .classType ∧ element.file = "cache/base.reqm" := by
  refine ⟨Workspace.loads_iff.mpr (by decide +kernel), ?_, ?_⟩
  · have found : (⟨["lib"]⟩ : Path) ∈ entityShelved.loadedDisk.repositoryFolders {} ⟨["lib"]⟩ := by decide +kernel
    have isDocument : (⟨["lib", "base.reqm"]⟩ : Path) ∈ entityShelved.loadedDisk.documents {} ⟨["lib"]⟩ := by
      decide +kernel
    exact Disk.offers_of_any found isDocument (by decide +kernel)
  · have ends : ends (fun answer _ => answer.any fun found =>
        found.2.kind == .classType && found.2.file == "cache/base.reqm")
        (Resolving.resolve {} ElementKind.entityType.related ⟨"Base", some "lib"⟩ none
          { project := {}, workspace := entityShelved }) := by decide +kernel
    obtain ⟨answer, final, ran, meets⟩ := ok_of_ends ends
    simp only [Option.any_eq_true, Bool.and_eq_true, beq_iff_eq] at meets
    obtain ⟨⟨place, element⟩, rfl, found⟩ := meets
    exact ⟨place, element, final, ran, found⟩

end Requirements
