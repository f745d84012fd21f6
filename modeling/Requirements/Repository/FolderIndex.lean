import Requirements.Disk.Documents
import Requirements.Repository.Record
import Requirements.Text.Line

/-! The index of a folder: which of its documents declares or uses what. It is kept in a
file beside the documents, which is read again as long as no document is newer and every
document it names is there; otherwise the index is built from the documents. -/
namespace Requirements

structure FolderIndex where
  folder : Path
  records : List Record := []
  /-- A key has one record. -/
  distinct : (records.map Record.key).Nodup := by simp
  deriving DecidableEq

namespace FolderIndex

def empty (folder : Path) : FolderIndex := { folder }

def hasKey (index : FolderIndex) (key : Record.Key) : Bool :=
  (index.records.map Record.key).contains key

/-- The first record of a key stays. -/
def insert (index : FolderIndex) (record : Record) : FolderIndex :=
  if present : index.hasKey record.key then index
  else
    { index with
      records := index.records ++ [record]
      distinct := by
        rw [List.map_append, List.nodup_append]
        refine ⟨index.distinct, by simp, fun a old b new => ?_⟩
        simp only [List.map_cons, List.map_nil, List.mem_singleton] at new
        rintro rfl
        exact present (by simpa [hasKey, new] using old) }

theorem records_insert_of_hasKey {index : FolderIndex} {record : Record}
    (present : index.hasKey record.key) : (index.insert record).records = index.records := by
  rw [insert, dif_pos present]

theorem records_insert_of_not_hasKey {index : FolderIndex} {record : Record}
    (absent : ¬index.hasKey record.key) :
    (index.insert record).records = index.records ++ [record] := by
  rw [insert, dif_neg absent]

@[simp] theorem folder_insert (index : FolderIndex) (record : Record) :
    (index.insert record).folder = index.folder := by
  rw [insert]; split <;> rfl

def insertReferences (index : FolderIndex) (references : References) : FolderIndex :=
  (references.declarations.map Record.ofDeclaration ++
    references.dependencies.map Record.ofDependency).foldl insert index

def insertDocument (settings : Settings) (index : FolderIndex) (document : Document) :
    FolderIndex :=
  index.insertReferences (document.references (KnownTypes.ofDocument document) settings)

def declared (index : FolderIndex) (kind : ReferenceKind) (reference : QualifiedName) :
    List Record :=
  index.records.filter fun record =>
    record.role == .declares && record.kind == kind && reference.designates record.qualifiedName

/-- The index file's text. Records that do not fit a line are left out. -/
def text (index : FolderIndex) : String :=
  String.join ((index.records.filter (·.fitsLine)).map fun record => record.line ++ "\n")

def insertLines (path : Path) (number : Nat) (index : FolderIndex) :
    List String → Except Failure FolderIndex
  | [] => .ok index
  | line :: rest =>
    if isBlankText line then insertLines path (number + 1) index rest
    else
      match Record.ofLine line with
      | .error fault => .error (.record path number fault)
      | .ok record => insertLines path (number + 1) (index.insert record) rest

def ofText (folder path : Path) (text : String) : Except Failure FolderIndex :=
  insertLines path 1 { folder } (lines text)

def read (disk : Disk) (folder path : Path) : Except Failure FolderIndex :=
  match disk.read path with
  | .ok text => ofText folder path text
  | .error failure => .error failure

def write (disk : Disk) (index : FolderIndex) (path : Path) : Except Failure Disk :=
  match disk.write? path index.text with
  | some disk => .ok disk
  | none => .error (.disk path)

def insertFiles (disk : Disk) (settings : Settings) (index : FolderIndex) :
    List Path → Except Failure FolderIndex
  | [] => .ok index
  | path :: rest =>
    match disk.parse path (path.fileName?.getD "") with
    | .ok document => insertFiles disk settings (index.insertDocument settings document) rest
    | .error failure => .error failure

def build (disk : Disk) (settings : Settings) (folder : Path) : Except Failure FolderIndex :=
  match disk.documentPaths settings folder with
  | .ok paths => insertFiles disk settings { folder } paths
  | .error failure => .error failure

/-- No document is newer than the index file, and each record names a document that is
there. -/
def isCurrent (disk : Disk) (settings : Settings) (index : FolderIndex) (path : Path) : Bool :=
  match disk.modified? path, disk.documentPaths settings index.folder with
  | some written, .ok documents =>
    (documents.all fun document => (disk.modified? document).any (· ≤ written)) &&
      index.records.all fun record =>
        documents.any fun document => document.fileName? == some record.file
  | _, _ => false

/-- The index in the folder's file, if that can be read and is current. -/
def cached? (disk : Disk) (settings : Settings) (folder path : Path) : Option FolderIndex :=
  match read disk folder path with
  | .ok index => if index.isCurrent disk settings path then some index else none
  | .error _ => none

/-- The index from its file, or built and written to it. That the file cannot be written
is no failure. -/
def load (settings : Settings) (folder : Path) : EStateM Failure Disk FolderIndex := fun disk =>
  let path := folder.join (.ofText settings.indexFile)
  match cached? disk settings folder path with
  | some index => .ok index disk
  | none =>
    match build disk settings folder with
    | .ok index => .ok index ((disk.write? path index.text).getD disk)
    | .error failure => .error failure disk

end FolderIndex
end Requirements
