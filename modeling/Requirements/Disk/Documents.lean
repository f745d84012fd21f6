import Requirements.Disk
import Requirements.Failure
import Requirements.Settings

/-! Finding and reading the documents on a disk. -/
namespace Requirements

def Settings.isDocument (settings : Settings) (path : Path) : Bool :=
  path.extension? == some settings.extension

namespace Disk

def read (disk : Disk) (path : Path) : Except Failure String :=
  match disk.read? path with
  | some text => .ok text
  | none => .error (.disk path)

/-- The documents right in the folder, in path order, but for those whose paths are of
no use. -/
def documentPaths (disk : Disk) (settings : Settings) (folder : Path) :
    Except Failure (List Path) :=
  match disk.entry? folder with
  | some (.folder _ entries) =>
    let files := entries.filter fun entry => !entry.isFolder
    let paths := (files.map fun file => folder.child file.name).filter Path.isUsable
    .ok (sortedBy Path.before (paths.filter settings.isDocument))
  | _ => .error (.disk folder)

def visits (disk : Disk) (root : Path) : List Visit :=
  match disk.entry? root with
  | some entry => entry.visits root
  | none => []

/-- Every folder at or below the root that holds a document or an index file, in path
order. -/
def repositoryFolders (disk : Disk) (settings : Settings) (root : Path) : List Path :=
  let paths := ((disk.visits root).filterMap Visit.file?).map root.descend
  let held := paths.filter fun path =>
    settings.isDocument path || path.fileName? == some settings.indexFile
  dropRepeats Path.same (sortedBy Path.before (held.filterMap Path.parent?))

def parse (disk : Disk) (path : Path) (file : String) : Except Failure Document :=
  match disk.read path with
  | .error failure => .error failure
  | .ok text => (Document.parse text file).mapError (.document path)

def fileText (name : String) : String := replaceChar '\\' '/' name

def parseVisits (disk : Disk) (settings : Settings) (folder : Path) :
    List Visit → Except Failure (List Document)
  | [] => .ok []
  | .unreadable names :: _ => .error (.disk (folder.descend names))
  | .file names :: rest =>
    if settings.isDocument (folder.descend names) then do
      let document ← disk.parse (folder.descend names) (fileText ("/".intercalate names))
      let documents ← parseVisits disk settings folder rest
      .ok (document :: documents)
    else parseVisits disk settings folder rest

def parseFolder (disk : Disk) (settings : Settings) (folder : Path) : Except Failure Document :=
  if disk.isFolder folder then
    (disk.parseVisits settings folder (disk.visits folder)).map (·.foldl Document.append {})
  else .error (.disk folder)

end Disk
end Requirements
