import Requirements.Disk.Path
import Requirements.Sorted

/-! Files and folders as a value. Folders of the disk hold entries of distinct names;
file contents are text, or bytes that are no text. A path is followed part by part, and
each part, also an empty one, asks for a folder to start from. Paths may leave the disk
upwards: there are folders above its root, of which nothing else is known. -/
namespace Requirements

/-- Paths have at most 4095 bytes and hold no NUL. -/
def Path.isUsable (path : Path) : Bool :=
  path.text.utf8ByteSize ≤ 4095 && !path.text.toList.contains '\x00'

inductive Content
  | text (text : String)
  | binary
  deriving DecidableEq, Inhabited

inductive Entry
  /-- `modified` counts seconds. -/
  | file (name : String) (content : Content) (modified : Nat)
  | folder (name : String) (entries : List Entry)
  deriving Inhabited

namespace Entry

def name : Entry → String
  | file name _ _ => name
  | folder name _ => name

def isFolder : Entry → Bool
  | folder .. => true
  | file .. => false

def fitsName (name : String) : Bool := name.utf8ByteSize ≤ 255

def at? : List String → Entry → Option Entry
  | [], entry => some entry
  | name :: names, folder _ entries => (entries.find? (·.name == name)).bind (at? names)
  | _ :: _, file .. => none

theorem at?_append (names more : List String) (entry : Entry) :
    at? (names ++ more) entry = (at? names entry).bind (at? more) := by
  induction names generalizing entry with
  | nil => simp [at?]
  | cons name names ih =>
    cases entry with
    | file => simp [at?]
    | folder _ entries =>
      cases h : entries.find? (·.name == name) <;> simp [at?, h, ih]

def alter (change : List Entry → List Entry) : List String → Entry → Entry
  | _, file name content modified => file name content modified
  | [], folder own entries => folder own (change entries)
  | name :: names, folder own entries =>
    folder own (entries.map fun entry =>
      if entry.name = name then alter change names entry else entry)

def put (entry : Entry) (entries : List Entry) : List Entry :=
  if entries.any (·.name == entry.name) then
    entries.map fun old => if old.name = entry.name then entry else old
  else entries ++ [entry]

mutual

def textSize : Entry → Nat
  | file _ (.text text) _ => text.utf8ByteSize
  | file _ .binary _ => 0
  | folder _ entries => textSizes entries

def textSizes : List Entry → Nat
  | [] => 0
  | entry :: rest => textSize entry + textSizes rest

end

end Entry

/-- What a walk through a folder meets, by the names that lead there. -/
inductive Visit
  | file (names : List String)
  /-- A folder whose path is of no use. -/
  | unreadable (names : List String)
  deriving DecidableEq

namespace Visit

def below (name : String) : Visit → Visit
  | file names => file (name :: names)
  | unreadable names => unreadable (name :: names)

def file? : Visit → Option (List String)
  | file names => some names
  | unreadable _ => none

end Visit

namespace Entry

mutual

/-- The walk through the entry at the path, a folder's visits where its name stands among
its siblings. -/
def visits (path : Path) : Entry → List Visit
  | file .. => [.file []]
  | folder _ entries =>
    if path.isUsable then
      (sortedBy (fun a b => a.1 < b.1) (visitsByName path entries)).flatMap
        fun (name, visits) => visits.map (·.below name)
    else [.unreadable []]

def visitsByName (path : Path) : List Entry → List (String × List Visit)
  | [] => []
  | entry :: rest =>
    (entry.name, visits (path.child entry.name) entry) :: visitsByName path rest

end

end Entry

inductive Location
  /-- The names lead there from the root of the disk. -/
  | within (names : List String)
  | above
  deriving DecidableEq

structure Disk where
  root : Entry := .folder "" []
  /-- The time that files get when they are written. -/
  now : Nat

namespace Disk

/-- Where the parts lead from a folder. The last name need not exist. -/
def follow (root : Entry) : Location → List String → Option Location
  | location, [] => some location
  | .above, part :: rest =>
    match Path.stepOf? part with
    | some (.into _) => none
    | _ => follow root .above rest
  | .within names, part :: rest =>
    match root.at? names, Path.stepOf? part with
    | some (.folder ..), none => follow root (.within names) rest
    | some (.folder ..), some (.into name) => follow root (.within (names ++ [name])) rest
    | some (.folder ..), some .up =>
      follow root (if names = [] then .above else .within names.dropLast) rest
    | _, _ => none

def start (path : Path) : Location := if path.isAbsolute then .above else .within []

/-- The empty path leads nowhere. -/
def location? (disk : Disk) (path : Path) : Option Location :=
  if path.isUsable && path.parts != [""] then follow disk.root (start path) path.parts else none

def entry? (disk : Disk) (path : Path) : Option Entry :=
  match disk.location? path with
  | some (.within names) => disk.root.at? names
  | some .above => some (.folder "" [])
  | none => none

def isFolder (disk : Disk) (path : Path) : Bool := (disk.entry? path).any Entry.isFolder

def isFile (disk : Disk) (path : Path) : Bool := (disk.entry? path).any fun e => !e.isFolder

def modified? (disk : Disk) (path : Path) : Option Nat :=
  match disk.entry? path with
  | some (.file _ _ modified) => some modified
  | _ => none

def read? (disk : Disk) (path : Path) : Option String :=
  match disk.entry? path with
  | some (.file _ (.text text) _) => some text
  | _ => none

/-- The names of a path's folder, which is on the disk, and the name it ends in. -/
def place? (disk : Disk) (path : Path) : Option (List String × String) :=
  match path.parts.getLast?.bind Path.stepOf?,
      follow disk.root (start path) path.parts.dropLast with
  | some (.into name), some (.within names) =>
    let isAllowed := path.isUsable && Entry.fitsName name
    if isAllowed && (disk.root.at? names).any Entry.isFolder then some (names, name) else none
  | _, _ => none

/-- Writes a file into a folder that exists, in place of a file of that name. -/
def store? (disk : Disk) (path : Path) (content : Content) (modified : Nat) : Option Disk := do
  let (names, name) ← disk.place? path
  if disk.isFolder path then none
  else some { disk with
    root := disk.root.alter (Entry.put (.file name content modified)) names }

def write? (disk : Disk) (path : Path) (text : String) : Option Disk :=
  disk.store? path (.text text) disk.now

/-- Nothing follows but `.`, which asks for a folder that is there already. -/
def asksForFolder (parts : List String) : Bool :=
  parts.contains "." && parts.all fun part => (Path.stepOf? part).isNone

/-- Makes the folders that the parts lead through from a folder, but for those that
exist, up to the first that cannot be made; also whether all of them are there now.
None are made above the root. -/
def makeFolders (root : Entry) : Location → List String → Entry × Bool
  | _, [] => (root, true)
  | .above, part :: rest =>
    match Path.stepOf? part with
    | some (.into _) => (root, false)
    | _ => makeFolders root .above rest
  | .within names, part :: rest =>
    match Path.stepOf? part with
    | some (.into name) =>
      match root.at? (names ++ [name]) with
      | some (.folder ..) => makeFolders root (.within (names ++ [name])) rest
      | some (.file ..) => (root, false)
      | none =>
        if Entry.fitsName name && !asksForFolder rest then
          makeFolders (root.alter (Entry.put (.folder name [])) names)
            (.within (names ++ [name])) rest
        else (root, false)
    | some .up => makeFolders root (if names = [] then .above else .within names.dropLast) rest
    | _ => makeFolders root (.within names) rest

/-- Makes a folder and those it lies in. Folders that were made stay when others cannot
be. -/
def makeFolder (disk : Disk) (path : Path) : Disk × Bool :=
  if path.isUsable then
    let (root, made) := makeFolders disk.root (start path) path.parts
    ({ disk with root }, made)
  else (disk, false)

def place (disk : Disk) (path : Path) (content : Content) (modified : Nat) : Disk :=
  let (made, _) := disk.makeFolder (path.parent?.getD path)
  (made.store? path content modified).getD made

def touch (disk : Disk) (path : Path) (modified : Nat) : Disk :=
  match disk.entry? path with
  | some (.file _ content _) => (disk.store? path content modified).getD disk
  | _ => disk

def remove (disk : Disk) (path : Path) : Disk :=
  match disk.location? path with
  | some (.within names) =>
    let name := names.getLastD ""
    { disk with root := disk.root.alter (·.filter (·.name != name)) names.dropLast }
  | _ => disk

end Disk
end Requirements
