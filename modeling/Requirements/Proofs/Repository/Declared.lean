import Requirements.Proofs.Disk.Walk
import Requirements.Proofs.Repository.Loading
import Requirements.Repository.Catalogue

/-! What the index of a folder's documents answers: each name that a document declares once, with
the first document in path order that declares it. -/
namespace Requirements

def Disk.Declares (disk : Disk) (path : Path) (kind : ElementKind) (name : QualifiedName) : Prop :=
  ∃ document, disk.parse path (path.fileName?.getD "") = .ok document ∧
    ∃ element ∈ document.elements, element.kind = kind ∧ element.name = name

theorem Disk.Declares.wellFormed {disk : Disk} {path : Path} {kind : ElementKind} {name : QualifiedName}
    (declares : disk.Declares path kind name) : name.WellFormed := by
  obtain ⟨_, parsed, element, member, -, rfl⟩ := declares
  exact (wellFormed_parse parsed element member).name

/-- One hit for each name that the reference designates and a document among the paths declares,
with the first of these documents. -/
structure Answers (disk : Disk) (paths : List Path) (repository : RepositoryKind) (folder : Path)
    (kind : ElementKind) (reference : QualifiedName) (hits : List Hit) : Prop where
  distinct : (hits.map fun hit => hit.record.qualifiedName).Nodup
  names : ∀ name, (∃ hit ∈ hits, hit.record.qualifiedName = name) ↔
    reference.designates name ∧ ∃ path ∈ paths, disk.Declares path kind name
  first : ∀ hit ∈ hits, ∃ before after, paths = before ++ hit.path :: after ∧
    disk.Declares hit.path kind hit.record.qualifiedName ∧
      ∀ path ∈ before, ¬disk.Declares path kind hit.record.qualifiedName
  source : ∀ hit ∈ hits, hit.repository = repository ∧ hit.folder = folder ∧ hit.record.role = .declares ∧
    hit.record.kind = .element kind

namespace FolderIndex

variable {disk : Disk} {settings : Settings} {folder path : Path} {kind : ElementKind}

def ofDocuments (disk : Disk) (settings : Settings) (folder : Path) : FolderIndex :=
  ((sortedBy Path.before (disk.documents settings folder)).flatMap (recordsAt disk settings)).foldl insert
    (empty folder)

/-- A declaration among a document's records is of an element that the document declares. -/
theorem declares_mem_recordsAt {name file : String} :
    ⟨.declares, .element kind, name, file⟩ ∈ recordsAt disk settings path ↔
      file = path.fileName?.getD "" ∧ ∃ declared, declared.text = name ∧ disk.Declares path kind declared := by
  rw [recordsAt]
  cases parsed : disk.parse path (path.fileName?.getD "") with
  | error => simp [Disk.Declares, parsed]
  | ok document =>
    have wellFormed := Disk.wellFormed_parse parsed
    have depends : ⟨.declares, .element kind, name, file⟩ ∉
        (document.references (KnownTypes.ofDocument document) settings).dependencies.map Record.ofDependency := by
      intro member
      obtain ⟨_, -, same⟩ := List.mem_map.mp member
      cases same
    dsimp only
    rw [Document.records, References.records, List.mem_append, or_iff_left depends, Document.declarations_references,
      List.map_map, List.mem_map]
    simp only [Disk.Declares, parsed, Except.ok.injEq, exists_eq_left']
    constructor
    · rintro ⟨element, member, same⟩
      obtain ⟨-, sameKind, sameName, sameFile⟩ := Record.mk.inj same
      have file := sameFile.symm.trans (wellFormed element member).file
      exact ⟨file, element.name, sameName, element, member, ReferenceKind.element.inj sameKind, rfl⟩
    · rintro ⟨rfl, _, rfl, element, member, rfl, rfl⟩
      refine ⟨element, member, ?_⟩
      simp [Record.ofDeclaration, (wellFormed element member).file]

/-- Records under a declared name's text are declarations of that name. -/
theorem eq_of_key {name : QualifiedName} (wellFormed : name.WellFormed) {record : Record}
    (member : record ∈ recordsAt disk settings path)
    (sameKey : record.key = (RecordRole.declares, ReferenceKind.element kind, name.text)) :
    disk.Declares path kind name ∧ record = ⟨.declares, .element kind, name.text, path.fileName?.getD ""⟩ := by
  obtain ⟨role, recordKind, text, file⟩ := record
  simp only [Record.key, Prod.mk.injEq] at sameKey
  obtain ⟨rfl, rfl, rfl⟩ := sameKey
  obtain ⟨rfl, declared, sameText, declares⟩ := declares_mem_recordsAt.mp member
  have same := QualifiedName.eq_of_text declares.wellFormed.dotless wellFormed.dotless sameText
  exact ⟨same ▸ declares, rfl⟩

theorem find?_recordsAt_eq_none {name : QualifiedName} (wellFormed : name.WellFormed) :
    (recordsAt disk settings path).find? (fun other =>
        other.key = (RecordRole.declares, ReferenceKind.element kind, name.text)) = none ↔
      ¬disk.Declares path kind name := by
  simp only [List.find?_eq_none, decide_eq_true_eq]
  constructor
  · exact fun absent declares => absent _ (declares_mem_recordsAt.mpr ⟨rfl, name, rfl, declares⟩) rfl
  · exact fun undeclared record member sameKey => undeclared (eq_of_key wellFormed member sameKey).1

theorem find?_recordsAt_eq_some {name : QualifiedName} (wellFormed : name.WellFormed) {record : Record} :
    (recordsAt disk settings path).find? (fun other =>
        other.key = (RecordRole.declares, ReferenceKind.element kind, name.text)) = some record ↔
      disk.Declares path kind name ∧ record = ⟨.declares, .element kind, name.text, path.fileName?.getD ""⟩ := by
  have unique {found : Record} (isFound : (recordsAt disk settings path).find? (fun other =>
      other.key = (RecordRole.declares, ReferenceKind.element kind, name.text)) = some found) :
      disk.Declares path kind name ∧ found = ⟨.declares, .element kind, name.text, path.fileName?.getD ""⟩ :=
    eq_of_key wellFormed (List.mem_of_find?_eq_some isFound) (by simpa using List.find?_some isFound)
  refine ⟨unique, ?_⟩
  rintro ⟨declares, rfl⟩
  obtain ⟨found, isFound⟩ := Option.ne_none_iff_exists'.mp fun absent =>
    (find?_recordsAt_eq_none wellFormed).mp absent declares
  rw [isFound, (unique isFound).2]

/-- A declaration is recorded for the first document that has it. -/
theorem declares_mem_ofDocuments {name : QualifiedName} (wellFormed : name.WellFormed) {file : String} :
    ⟨.declares, .element kind, name.text, file⟩ ∈ (ofDocuments disk settings folder).records ↔
      ∃ before path after, sortedBy Path.before (disk.documents settings folder) = before ++ path :: after ∧
        (disk.Declares path kind name ∧ file = path.fileName?.getD "") ∧
        ∀ earlier ∈ before, ¬disk.Declares earlier kind name := by
  have isNew : ¬(empty folder).hasKey (Record.key ⟨.declares, .element kind, name.text, file⟩) := by
    simp [hasKey, empty]
  have isOld : ⟨.declares, .element kind, name.text, file⟩ ∉ (empty folder).records := by simp [empty]
  have keyed : Record.key ⟨.declares, .element kind, name.text, file⟩ = (.declares, .element kind, name.text) := rfl
  rw [ofDocuments, mem_foldl_insert, or_iff_right isOld, and_iff_right isNew, List.find?_flatMap,
    List.findSome?_eq_some_iff, keyed]
  simp only [find?_recordsAt_eq_some wellFormed, find?_recordsAt_eq_none wellFormed, Record.mk.injEq, true_and]

/-- The records of the index are named as documents name things. -/
theorem isName_of_mem_ofDocuments {record : Record} (member : record ∈ (ofDocuments disk settings folder).records) :
    IsName record.name := by
  obtain old | ⟨-, found⟩ := mem_foldl_insert.mp member
  · simp [empty] at old
  · obtain ⟨path, -, given⟩ := List.mem_flatMap.mp (List.mem_of_find?_eq_some found)
    exact (mem_recordsAt given).1

theorem declares_of_mem_ofDocuments {record : Record} (member : record ∈ (ofDocuments disk settings folder).records)
    (role : record.role = .declares) (isKind : record.kind = .element kind) :
    record = ⟨.declares, .element kind, record.qualifiedName.text, record.file⟩ := by
  rw [Record.qualifiedName, QualifiedName.text_parse (isName_of_mem_ofDocuments member), ← role, ← isKind]

@[simp]
theorem folder_ofDocuments (disk : Disk) (settings : Settings) (folder : Path) :
    (ofDocuments disk settings folder).folder = folder := by
  simp [ofDocuments, empty]

section Hits

variable {repository : RepositoryKind} {reference : QualifiedName}

theorem mem_hitsIn_ofDocuments {hit : Hit} :
    hit ∈ Repository.hitsIn repository (.element kind) reference (ofDocuments disk settings folder) ↔
      ∃ record ∈ (ofDocuments disk settings folder).records, record.role = .declares ∧
        record.kind = .element kind ∧ reference.designates record.qualifiedName ∧
          hit = ⟨repository, folder, record⟩ := by
  simp only [Repository.hitsIn, declared, List.mem_map, List.mem_filter, Bool.and_eq_true, beq_iff_eq,
    folder_ofDocuments]
  constructor
  · rintro ⟨record, ⟨member, ⟨role, isKind⟩, designates⟩, rfl⟩
    exact ⟨record, member, role, isKind, designates, rfl⟩
  · rintro ⟨record, member, role, isKind, designates, rfl⟩
    exact ⟨record, ⟨member, ⟨role, isKind⟩, designates⟩, rfl⟩

/-- An index has one declaration of each name, so that no name is hit twice. -/
theorem nodup_hitsIn_ofDocuments (disk : Disk) (settings : Settings) (folder : Path) :
    ((Repository.hitsIn repository (.element kind) reference (ofDocuments disk settings folder)).map
      fun hit => hit.record.qualifiedName).Nodup := by
  rw [Repository.hitsIn, List.map_map]
  have distinct := (ofDocuments disk settings folder).distinct
  have fewer : (declared (ofDocuments disk settings folder) (.element kind) reference).Sublist
    (ofDocuments disk settings folder).records := List.filter_sublist
  refine (List.Nodup.of_map _ (distinct.sublist (fewer.map _))).map_on ?_
  intro first isFirst second isSecond same
  have ⟨firstMember, firstDeclares⟩ := List.mem_filter.mp isFirst
  have ⟨secondMember, secondDeclares⟩ := List.mem_filter.mp isSecond
  simp only [Bool.and_eq_true, beq_iff_eq] at firstDeclares secondDeclares
  have sameName : first.name = second.name := by
    rw [← QualifiedName.text_parse (isName_of_mem_ofDocuments firstMember),
      ← QualifiedName.text_parse (isName_of_mem_ofDocuments secondMember)]
    exact congrArg QualifiedName.text same
  refine List.inj_on_of_nodup_map distinct firstMember secondMember ?_
  simp [Record.key, firstDeclares.1, secondDeclares.1, sameName]

/-- A hit is of the first document that declares its name. -/
theorem first_of_mem_hitsIn {hit : Hit}
    (member : hit ∈ Repository.hitsIn repository (.element kind) reference (ofDocuments disk settings folder)) :
    ∃ before path after, sortedBy Path.before (disk.documents settings folder) = before ++ path :: after ∧
      (disk.Declares path kind hit.record.qualifiedName ∧ hit.record.file = path.fileName?.getD "") ∧
        ∀ earlier ∈ before, ¬disk.Declares earlier kind hit.record.qualifiedName := by
  obtain ⟨record, inIndex, role, isKind, -, rfl⟩ := mem_hitsIn_ofDocuments.mp member
  have wellFormed := QualifiedName.wellFormed_parse (isName_of_mem_ofDocuments inIndex)
  rw [declares_of_mem_ofDocuments inIndex role isKind] at inIndex
  exact (declares_mem_ofDocuments wellFormed).mp inIndex

theorem exists_mem_hitsIn {name : QualifiedName} (designates : reference.designates name)
    (isDocument : path ∈ sortedBy Path.before (disk.documents settings folder))
    (declares : disk.Declares path kind name) :
    ∃ hit ∈ Repository.hitsIn repository (.element kind) reference (ofDocuments disk settings folder),
      hit.record.qualifiedName = name := by
  classical
  obtain ⟨first, found⟩ : ∃ first, (sortedBy Path.before (disk.documents settings folder)).find?
      (fun path => disk.Declares path kind name) = some first := by
    rw [← Option.isSome_iff_exists, List.find?_isSome]
    exact ⟨path, isDocument, by simpa using declares⟩
  obtain ⟨isFirst, before, after, split, earlier⟩ := List.find?_eq_some_iff_append.mp found
  have inIndex : ⟨.declares, .element kind, name.text, first.fileName?.getD ""⟩ ∈
      (ofDocuments disk settings folder).records :=
    (declares_mem_ofDocuments declares.wellFormed).mpr
      ⟨before, first, after, split, ⟨by simpa using isFirst, rfl⟩, by simpa using earlier⟩
  refine ⟨⟨repository, folder, _⟩, mem_hitsIn_ofDocuments.mpr ⟨_, inIndex, rfl, rfl, ?_, rfl⟩, ?_⟩
  all_goals simp only [Record.qualifiedName, QualifiedName.parse_text declares.wellFormed]
  exact designates

end Hits

/-- The hits in an index of documents are what the documents declare. -/
theorem answers_hitsIn
    (named : ∀ path ∈ disk.documents settings folder, ∃ name, IsProper name ∧ folder.child name = path)
    (repository : RepositoryKind) (reference : QualifiedName) :
    Answers disk (sortedBy Path.before (disk.documents settings folder)) repository folder kind reference
      (Repository.hitsIn repository (.element kind) reference (ofDocuments disk settings folder)) := by
  refine ⟨nodup_hitsIn_ofDocuments disk settings folder, fun name => ⟨?_, ?_⟩, fun hit member => ?_,
    fun hit member => ?_⟩
  · rintro ⟨hit, member, rfl⟩
    obtain ⟨before, path, after, split, ⟨declares, -⟩, -⟩ := first_of_mem_hitsIn member
    obtain ⟨record, -, -, -, designates, rfl⟩ := mem_hitsIn_ofDocuments.mp member
    exact ⟨designates, path, by simp [split], declares⟩
  · rintro ⟨designates, path, isDocument, declares⟩
    exact exists_mem_hitsIn designates isDocument declares
  · obtain ⟨before, path, after, split, ⟨declares, file⟩, earlier⟩ := first_of_mem_hitsIn member
    obtain ⟨record, -, -, -, -, rfl⟩ := mem_hitsIn_ofDocuments.mp member
    have same : Hit.path ⟨repository, folder, record⟩ = path := by
      have inside : path ∈ sortedBy Path.before (disk.documents settings folder) := by rw [split]; simp
      obtain ⟨name, isProper, rfl⟩ := named path (mem_sortedBy.mp inside)
      rw [Hit.path, file, Path.fileName?_child folder isProper.1, Option.getD_some,
        Path.ofText_of_name isProper.2]
      rfl
    exact ⟨before, after, by rw [same, split], by rw [same]; exact declares, earlier⟩
  · obtain ⟨record, -, role, isKind, -, rfl⟩ := mem_hitsIn_ofDocuments.mp member
    exact ⟨rfl, rfl, role, isKind⟩

end FolderIndex
end Requirements
