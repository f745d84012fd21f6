import Requirements.Proofs.Document.Names
import Requirements.Proofs.Repository.Lines

/-! What an index of documents holds: for each key the first record of it that a document gives,
the documents taken in their order. Records that did not get in leave no trace. -/
namespace Requirements

def References.records (references : References) : List Record :=
  references.declarations.map Record.ofDeclaration ++ references.dependencies.map Record.ofDependency

def Document.records (settings : Settings) (document : Document) : List Record :=
  (document.references (KnownTypes.ofDocument document) settings).records

namespace Document

variable {known : KnownTypes} {settings : Settings} {document : Document}

theorem references_eq (known : KnownTypes) (settings : Settings) (document : Document) :
    document.references known settings =
      ⟨document.elements.flatMap fun element => (element.references known settings).declarations,
        document.elements.flatMap fun element => (element.references known settings).edges,
        document.elements.flatMap fun element => (element.references known settings).types⟩ := by
  have gathered (elements : List Element) (start : References) :
      elements.foldl (fun gathered element => gathered.append (element.references known settings)) start =
        start.append ⟨elements.flatMap fun element => (element.references known settings).declarations,
          elements.flatMap fun element => (element.references known settings).edges,
          elements.flatMap fun element => (element.references known settings).types⟩ := by
    induction elements generalizing start with
    | nil => simp [References.append]
    | cons element rest ih =>
      rw [List.foldl_cons, ih]
      simp [References.append]
  rw [references, gathered]
  simp [References.append]

theorem declarations_references (known : KnownTypes) (settings : Settings) (document : Document) :
    (document.references known settings).declarations =
      document.elements.map fun element => ⟨.element element.kind, element.name, none, element.file⟩ := by
  rw [references_eq, List.map_eq_flatMap]
  rfl

/-- A dependency leads from an element to a well-formed name. -/
theorem mem_dependencies {file : String} (wellFormed : ∀ element ∈ document.elements, element.WellFormed file)
    {reference : Reference} (member : reference ∈ (document.references known settings).dependencies) :
    reference.file = file ∧ ∃ name, reference.referred = some name ∧ name.WellFormed := by
  rw [references_eq, References.dependencies] at member
  simp only [List.mem_append, List.mem_flatMap] at member
  rcases member with ⟨element, isElement, member⟩ | ⟨element, isElement, member⟩
  all_goals have formed := wellFormed element isElement
  · simp only [Element.references, List.mem_append, List.mem_map, List.mem_filter] at member
    rcases member with ((⟨name, ⟨isAncestor, -⟩, rfl⟩ | member) | member) | ⟨name, isFeature, rfl⟩
    · exact ⟨formed.file, name, rfl, formed.ancestor name (by simpa using isAncestor)⟩
    · split at member
      · obtain ⟨name, isParent, rfl⟩ := List.mem_map.mp member
        exact ⟨formed.file, name, rfl, formed.parent name (by simpa using (List.mem_filter.mp isParent).1)⟩
      · simp at member
    · split at member
      · obtain ⟨name, isCall, rfl⟩ := List.mem_map.mp member
        exact ⟨formed.file, name, rfl, formed.calls name isCall⟩
      · simp at member
    · exact ⟨formed.file, name, rfl, formed.features name isFeature⟩
  · simp only [Element.references, List.mem_map, List.mem_filter] at member
    obtain ⟨_, ⟨⟨typeName, ⟨named, -⟩, rfl⟩, -⟩, rfl⟩ := member
    refine ⟨formed.file, _, rfl, QualifiedName.wellFormed_parse ?_⟩
    obtain ⟨property, isProperty, inside⟩ := Property.mem_typeNamesOf.mp named
    exact formed.properties property (List.mem_filter.mp isProperty).1 typeName inside

/-- The records of a document that was read bear names and the document's file. -/
theorem isName_of_mem_records {file : String} (wellFormed : ∀ element ∈ document.elements, element.WellFormed file)
    {record : Record} (member : record ∈ document.records settings) : IsName record.name ∧ record.file = file := by
  rw [records, References.records, declarations_references] at member
  rcases List.mem_append.mp member with declared | depends
  · obtain ⟨_, inner, rfl⟩ := List.mem_map.mp declared
    obtain ⟨element, isElement, rfl⟩ := List.mem_map.mp inner
    exact ⟨(wellFormed element isElement).name.isName, (wellFormed element isElement).file⟩
  · obtain ⟨reference, isDependency, rfl⟩ := List.mem_map.mp depends
    obtain ⟨sameFile, name, referred, named⟩ := mem_dependencies wellFormed isDependency
    refine ⟨?_, sameFile⟩
    simpa [Record.ofDependency, referred] using named.isName

end Document

theorem Record.fitsField_of_isName {text : String} (isName : IsName text) : fitsField text := by
  refine fitsField_iff.mpr ⟨fun inside => ?_, fun inside => ?_⟩
  all_goals exact absurd (isName.mem inside) (by decide)

namespace FolderIndex

theorem insert_of_hasKey {index : FolderIndex} {record : Record} (present : index.hasKey record.key) :
    index.insert record = index := by
  rw [insert, dif_pos present]

theorem records_prefix_insert (index : FolderIndex) (record : Record) :
    index.records <+: (index.insert record).records := by
  by_cases present : index.hasKey record.key
  · rw [records_insert_of_hasKey present]
  · rw [records_insert_of_not_hasKey present]
    exact List.prefix_append _ _

/-- What is in the index stays. -/
theorem records_prefix_foldl_insert (index : FolderIndex) (records : List Record) :
    index.records <+: (records.foldl insert index).records := by
  induction records generalizing index with
  | nil => exact List.prefix_rfl
  | cons record rest ih => exact (index.records_prefix_insert record).trans (ih _)

/-- A record gets in if its key is new and no record of the key comes before it. -/
theorem mem_foldl_insert {records : List Record} {index : FolderIndex} {record : Record} :
    record ∈ (records.foldl insert index).records ↔ record ∈ index.records ∨
      ¬index.hasKey record.key ∧ records.find? (fun other => other.key = record.key) = some record := by
  induction records generalizing index with
  | nil => simp
  | cons first rest ih =>
    rw [List.foldl_cons, ih]
    by_cases present : index.hasKey first.key
    · rw [insert_of_hasKey present]
      by_cases same : first.key = record.key
      · rw [same] at present
        simp [present]
      · simp [same]
    · have held : (index.insert first).hasKey record.key ↔ index.hasKey record.key ∨ first.key = record.key := by
        simp only [hasKey_iff, records_insert_of_not_hasKey present, List.mem_append, List.mem_singleton,
          or_and_right, exists_or, exists_eq_left]
      rw [held, records_insert_of_not_hasKey present, List.mem_append, List.mem_singleton]
      by_cases same : first.key = record.key
      · have absent : ¬index.hasKey record.key := same ▸ present
        simp [same, absent, eq_comm]
      · have differ : record ≠ first := fun isFirst => same (isFirst ▸ rfl)
        simp [same, differ]

/-- Leaving out records that would not get in changes nothing. -/
theorem foldl_insert_filter {keep : Record → Bool} {records : List Record} {index : FolderIndex}
    (kept : ∀ record ∈ (records.foldl insert index).records, keep record) :
    (records.filter keep).foldl insert index = records.foldl insert index := by
  induction records generalizing index with
  | nil => rfl
  | cons record rest ih =>
    rw [List.foldl_cons] at kept ⊢
    by_cases isKept : keep record
    · rw [List.filter_cons_of_pos isKept, List.foldl_cons, ih kept]
    · rw [List.filter_cons_of_neg isKept]
      have present : index.hasKey record.key := by
        by_contra absent
        have inserted : record ∈ (index.insert record).records := by
          simp [records_insert_of_not_hasKey absent]
        exact isKept (kept record ((records_prefix_foldl_insert _ _).subset inserted))
      rw [insert_of_hasKey present] at kept ⊢
      exact ih kept

def recordsAt (disk : Disk) (settings : Settings) (path : Path) : List Record :=
  match disk.parse path (path.fileName?.getD "") with
  | .ok document => document.records settings
  | .error _ => []

def Parses (disk : Disk) (path : Path) : Prop :=
  ∃ document, disk.parse path (path.fileName?.getD "") = .ok document

theorem isSome_file?_of_parses {disk : Disk} {path : Path} (parses : Parses disk path) : (disk.file? path).isSome := by
  obtain ⟨document, parsed⟩ := parses
  obtain ⟨text, held, -⟩ := Disk.parse_ok.mp parsed
  rw [Disk.read?_eq] at held
  obtain ⟨file, found, -⟩ := Option.bind_eq_some_iff.mp held
  simp [found]

theorem insertFiles_ok {disk : Disk} {settings : Settings} {paths : List Path} {index built : FolderIndex} :
    insertFiles disk settings index paths = .ok built ↔
      (∀ path ∈ paths, Parses disk path) ∧ built = (paths.flatMap (recordsAt disk settings)).foldl insert index := by
  induction paths generalizing index with
  | nil => simp [insertFiles, eq_comm]
  | cons path rest ih =>
    rw [insertFiles, List.flatMap_cons, List.foldl_append, recordsAt]
    cases parsed : disk.parse path (path.fileName?.getD "") with
    | error => simp [Parses, parsed]
    | ok document =>
      have here : Parses disk path := ⟨document, parsed⟩
      simp only [ih, List.forall_mem_cons, here, true_and]
      rfl

end FolderIndex
end Requirements
