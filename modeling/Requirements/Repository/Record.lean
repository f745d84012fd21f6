import Requirements.Failure
import Requirements.Reference

/-! The records of an index, and how they are written in its file: a line of four
fields with semicolons between,

    content;cls;std.Base;base.reqm
    dependency;src;std.Root;base.reqm
-/
namespace Requirements

inductive RecordRole
  | declares | uses
  deriving DecidableEq, Inhabited

namespace RecordRole

def code : RecordRole → String
  | declares => "content"
  | uses => "dependency"

def ofCode? (code : String) : Option RecordRole := [declares, uses].find? (·.code == code)

end RecordRole

structure Record where
  role : RecordRole
  kind : ReferenceKind
  /-- The text of the element's name. -/
  name : String
  file : String
  deriving DecidableEq, Inhabited

namespace Record

abbrev Key := RecordRole × ReferenceKind × String

def key (record : Record) : Key := (record.role, record.kind, record.name)

def qualifiedName (record : Record) : QualifiedName := QualifiedName.parse record.name

def ofDeclaration (reference : Reference) : Record :=
  ⟨.declares, reference.kind, reference.owner.text, reference.file⟩

def ofDependency (reference : Reference) : Record :=
  ⟨.uses, reference.kind, (reference.referred.getD reference.owner).text, reference.file⟩

def fitsField (text : String) : Bool := text.toList.all fun c => c != ';' && c != '\n'

def fitsLine (record : Record) : Bool := fitsField record.name && fitsField record.file

def line (record : Record) : String :=
  record.role.code ++ ";" ++ record.kind.code ++ ";" ++ record.name ++ ";" ++ record.file

/-- Of several faults the first field's is told. -/
def ofLine (line : String) : Except RecordFault Record :=
  match pieces ';' line with
  | [role, kind, name, file] =>
    match RecordRole.ofCode? role, ReferenceKind.ofCode? kind with
    | none, _ => .error (.unknownRole role)
    | some _, none => .error (.unknownKind kind)
    | some role, some kind =>
      if name.isEmpty then .error .emptyName else .ok ⟨role, kind, name, file⟩
  | fields => .error (.fieldCount fields.length)

end Record
end Requirements
