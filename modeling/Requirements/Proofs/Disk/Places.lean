import Mathlib.Data.List.Basic
import Mathlib.Data.List.Infix
import Requirements.Disk.Documents

/-! Where paths lead, and what a change of one file leaves as it is: no folder comes or goes, so
every path leads where it led, and every other file and every other folder's list of files are
the same. -/
namespace Requirements
namespace Entry

def file? : Entry → Option (Content × Nat)
  | file _ content modified => some (content, modified)
  | folder .. => none

def fileNames? : Entry → Option (List String)
  | file .. => none
  | folder _ entries => some ((entries.filter fun entry => !entry.isFolder).map name)

variable {change : List Entry → List Entry}

@[simp] theorem name_alter (names : List String) (entry : Entry) :
    (entry.alter change names).name = entry.name := by
  cases entry <;> cases names <;> simp [alter, name]

@[simp] theorem isFolder_alter (names : List String) (entry : Entry) :
    (entry.alter change names).isFolder = entry.isFolder := by
  cases entry <;> cases names <;> simp [alter, isFolder]

@[simp] theorem file?_alter (names : List String) (entry : Entry) :
    (entry.alter change names).file? = entry.file? := by
  cases entry <;> cases names <;> simp [alter, file?]

/-- What is altered below a folder leaves the list of its own files. -/
@[simp] theorem fileNames?_alter_cons (first : String) (names : List String) (entry : Entry) :
    (entry.alter change (first :: names)).fileNames? = entry.fileNames? := by
  cases entry with
  | file => simp [alter]
  | folder own entries =>
    rw [alter, fileNames?, fileNames?, List.filter_map, List.map_map]
    congr 1
    refine (List.map_congr_left fun entry _ => ?_).trans (congrArg _ (List.filter_congr fun entry _ => ?_))
    all_goals dsimp only [Function.comp]; split <;> simp

theorem find?_map_alter (first : String) (names : List String) (wanted : String)
    (entries : List Entry) :
    (entries.map fun entry => if entry.name = first then entry.alter change names else entry).find?
        (·.name == wanted) =
      (entries.find? (·.name == wanted)).map fun entry =>
        if wanted = first then entry.alter change names else entry := by
  rw [List.find?_map]
  have same : ((fun entry => entry.name == wanted) ∘ fun entry : Entry =>
      if entry.name = first then entry.alter change names else entry) = (·.name == wanted) := by
    funext entry
    dsimp only [Function.comp]
    split <;> simp
  rw [same]
  cases found : entries.find? (·.name == wanted) with
  | none => rfl
  | some entry =>
    obtain rfl : entry.name = wanted := by simpa using List.find?_some found
    rfl

/-- What stands on the way to the change is altered, what is not on the way stays. -/
theorem at?_alter_append (names more : List String) (root : Entry) :
    (root.alter change (names ++ more)).at? names = (root.at? names).map (alter change more) := by
  induction names generalizing root with
  | nil => simp [at?]
  | cons first names ih =>
    cases root with
    | file => simp [alter, at?]
    | folder own entries =>
      rw [List.cons_append, alter, at?, at?, find?_map_alter]
      cases entries.find? (·.name == first) with
      | none => rfl
      | some entry => simpa using ih entry

/-- Only entries of the name are changed, and no other takes their place. -/
def ChangesOnly (change : List Entry → List Entry) (name : String) : Prop :=
  ∀ entries, (change entries).filter (·.name != name) = entries.filter (·.name != name)

theorem ChangesOnly.find? {name other : String} (only : ChangesOnly change name) (differ : other ≠ name)
    (entries : List Entry) :
    (change entries).find? (·.name == other) = entries.find? (·.name == other) := by
  have passed (list : List Entry) :
      (list.filter (·.name != name)).find? (·.name == other) = list.find? (·.name == other) := by
    rw [List.find?_filter]
    congr 1
    funext entry
    by_cases same : entry.name = other <;> simp [same, differ]
  rw [← passed, only entries, passed]

theorem at?_alter_of_ne {name : String} (only : ChangesOnly change name) {names other : List String}
    (root : Entry) (notAbove : ¬other <+: names) (notBelow : ¬names ++ [name] <+: other) :
    (root.alter change names).at? other = root.at? other := by
  induction names generalizing root other with
  | nil =>
    cases other with
    | nil => exact absurd List.prefix_rfl notAbove
    | cons first rest =>
      have differ : first ≠ name := by
        rintro rfl
        exact notBelow (by simp)
      cases root with
      | file => simp [alter]
      | folder own entries => simp [alter, at?, only.find? differ entries]
  | cons first names ih =>
    cases other with
    | nil => exact absurd List.nil_prefix notAbove
    | cons second rest =>
      cases root with
      | file => simp [alter]
      | folder own entries =>
        rw [alter, at?, at?, find?_map_alter]
        by_cases same : second = first
        · subst same
          rw [List.cons_prefix_cons] at notAbove
          rw [List.cons_append, List.cons_prefix_cons] at notBelow
          cases entries.find? (·.name == second) with
          | none => rfl
          | some entry =>
            simpa using ih entry (fun above => notAbove ⟨rfl, above⟩) fun below => notBelow ⟨rfl, below⟩
        · simp [same]

theorem changesOnly_put (entry : Entry) : ChangesOnly (put entry) entry.name := by
  intro entries
  rw [put]
  split
  · have same : ((fun old : Entry => old.name != entry.name) ∘ fun old =>
        if old.name = entry.name then entry else old) = (·.name != entry.name) := by
      funext old
      dsimp only [Function.comp]
      split <;> simp_all
    rw [List.filter_map, same]
    exact (List.map_congr_left fun old kept => if_neg (by simpa using (List.mem_filter.mp kept).2)).trans
      (List.map_id' _)
  · simp

theorem changesOnly_filter (name : String) : ChangesOnly (·.filter (·.name != name)) name :=
  fun entries => by simp

theorem find?_put_self (entry : Entry) (entries : List Entry) :
    (put entry entries).find? (·.name == entry.name) = some entry := by
  rw [put]
  split
  next present =>
    have same : ((fun old : Entry => old.name == entry.name) ∘ fun old =>
        if old.name = entry.name then entry else old) = (·.name == entry.name) := by
      funext old
      dsimp only [Function.comp]
      split <;> simp_all
    rw [List.find?_map, same]
    obtain ⟨old, found⟩ : ∃ old, entries.find? (·.name == entry.name) = some old := by
      rw [← Option.isSome_iff_exists, List.find?_isSome]
      simpa using present
    have named : old.name = entry.name := by simpa using List.find?_some found
    simp [found, named]
  next absent =>
    rw [List.find?_append, List.find?_eq_none.mpr fun old member isOld =>
      absent (List.any_eq_true.mpr ⟨old, member, isOld⟩)]
    simp

/-- Names other than the one that only is changed stay on the list of files, in their order. -/
theorem ChangesOnly.fileNames {name : String} (only : ChangesOnly change name) (own : String)
    (entries : List Entry) :
    (fileNames? (folder own (change entries))).map (·.filter (· != name)) =
      (fileNames? (folder own entries)).map (·.filter (· != name)) := by
  have commuted (list : List Entry) :
      ((list.filter fun entry => !entry.isFolder).map Entry.name).filter (· != name) =
        ((list.filter (·.name != name)).filter fun entry => !entry.isFolder).map Entry.name := by
    rw [List.filter_map, List.filter_filter, List.filter_filter]
    congr 1
    exact List.filter_congr fun entry _ => Bool.and_comm ..
  simp only [fileNames?, Option.map_some, commuted, only entries]

theorem at?_of_not_folder {root : Entry} {names : List String}
    (notFolder : ¬(root.at? names).any isFolder) (first : String) (more : List String) :
    root.at? (names ++ first :: more) = none := by
  rw [at?_append]
  cases found : root.at? names with
  | none => rfl
  | some entry =>
    cases entry with
    | file => rfl
    | folder => simp [found, isFolder] at notFolder

theorem fileNames?_of_not_folder {entry : Option Entry} (notFolder : ¬entry.any isFolder) :
    entry.bind fileNames? = none := by
  cases entry with
  | none => rfl
  | some entry => cases entry <;> simp_all [isFolder, fileNames?]

/-- Where there was no folder and is none, a place is on the way to the change, or it is the
changed one, or nothing is changed there. -/
theorem at?_alter_cases {name : String} (only : ChangesOnly change name) {root : Entry}
    {names : List String} (noFolder : ¬(root.at? (names ++ [name])).any isFolder)
    (stillNone : ¬((root.alter change names).at? (names ++ [name])).any isFolder)
    (other : List String) :
    (∃ more, names = other ++ more ∧
      (root.alter change names).at? other = (root.at? other).map (alter change more)) ∨
    other = names ++ [name] ∨ (root.alter change names).at? other = root.at? other := by
  by_cases above : other <+: names
  · obtain ⟨more, rfl⟩ := above
    exact .inl ⟨more, rfl, at?_alter_append other more root⟩
  · by_cases below : names ++ [name] <+: other
    · obtain ⟨more, rfl⟩ := below
      cases more with
      | nil => exact .inr (.inl (by simp))
      | cons first more =>
        rw [at?_of_not_folder noFolder, at?_of_not_folder stillNone]
        exact .inr (.inr rfl)
    · exact .inr (.inr (at?_alter_of_ne only root above below))

end Entry

def Content.text? : Content → Option String
  | text held => some held
  | binary => none

namespace Disk

/-- The disks differ at most in one file of a folder, which may have come or gone. -/
structure FileChanged (start final : Disk) (names : List String) (name : String) : Prop where
  folders : ∀ other, (final.root.at? other).any Entry.isFolder = (start.root.at? other).any Entry.isFolder
  entries : ∀ other, ¬other <+: names → ¬names ++ [name] <+: other →
    final.root.at? other = start.root.at? other
  files : ∀ other, other ≠ names ++ [name] →
    (final.root.at? other).bind Entry.file? = (start.root.at? other).bind Entry.file?
  listings : ∀ other, other ≠ names →
    (final.root.at? other).bind Entry.fileNames? = (start.root.at? other).bind Entry.fileNames?
  listing : ((final.root.at? names).bind Entry.fileNames?).map (·.filter (· != name)) =
    ((start.root.at? names).bind Entry.fileNames?).map (·.filter (· != name))

theorem fileChanged_alter {change : List Entry → List Entry} {name : String}
    (only : Entry.ChangesOnly change name) {start : Disk} {names : List String}
    (noFolder : ¬(start.root.at? (names ++ [name])).any Entry.isFolder)
    (stillNone : ¬((start.root.alter change names).at? (names ++ [name])).any Entry.isFolder) :
    FileChanged start { start with root := start.root.alter change names } names name where
  folders other := by
    obtain ⟨more, -, altered⟩ | rfl | same := Entry.at?_alter_cases only noFolder stillNone other
    · cases found : start.root.at? other <;> simp [altered, found]
    · simp only [Bool.not_eq_true] at noFolder stillNone
      rw [noFolder, stillNone]
    · rw [same]
  entries other notAbove notBelow := Entry.at?_alter_of_ne only start.root notAbove notBelow
  files other differ := by
    obtain ⟨more, -, altered⟩ | same | same := Entry.at?_alter_cases only noFolder stillNone other
    · cases found : start.root.at? other <;> simp [altered, found]
    · exact absurd same differ
    · rw [same]
  listings other differ := by
    obtain ⟨more, split, altered⟩ | rfl | same := Entry.at?_alter_cases only noFolder stillNone other
    · cases more with
      | nil => exact absurd (by simpa using split.symm) differ
      | cons first more => cases found : start.root.at? other <;> simp [altered, found]
    · rw [Entry.fileNames?_of_not_folder stillNone, Entry.fileNames?_of_not_folder noFolder]
    · rw [same]
  listing := by
    have altered := @Entry.at?_alter_append change names [] start.root
    rw [List.append_nil] at altered
    rw [altered]
    cases found : start.root.at? names with
    | none => rfl
    | some entry =>
      cases entry with
      | file => rfl
      | folder own entries => simpa [Entry.alter] using only.fileNames own entries

/-! ### Following paths -/

theorem follow_within (root : Entry) (names : List String) (part : String) (rest : List String) :
    follow root (.within names) (part :: rest) =
      if (root.at? names).any Entry.isFolder then
        match Path.stepOf? part with
        | none => follow root (.within names) rest
        | some (.into name) => follow root (.within (names ++ [name])) rest
        | some .up => follow root (if names = [] then .above else .within names.dropLast) rest
        | some _ => none
      else none := by
  rw [follow]
  cases found : root.at? names with
  | none => rfl
  | some entry =>
    cases entry with
    | file => rfl
    | folder => cases Path.stepOf? part with
      | none => rfl
      | some step => cases step <;> rfl

theorem follow_append (root : Entry) (location : Location) (parts more : List String) :
    follow root location (parts ++ more) =
      (follow root location parts).bind fun reached => follow root reached more := by
  induction parts generalizing location with
  | nil => simp [follow]
  | cons part rest ih =>
    cases location with
    | above =>
      rw [List.cons_append, follow, follow]
      split <;> simp_all
    | within names =>
      rw [List.cons_append, follow, follow]
      split <;> simp_all

theorem follow_congr {first second : Entry}
    (folders : ∀ names, (first.at? names).any Entry.isFolder = (second.at? names).any Entry.isFolder)
    (location : Location) (parts : List String) :
    follow first location parts = follow second location parts := by
  induction parts generalizing location with
  | nil => simp [follow]
  | cons part rest ih =>
    cases location with
    | above =>
      rw [follow, follow]
      split <;> simp_all
    | within names => simp only [follow_within, folders, ih]

def file? (disk : Disk) (path : Path) : Option (Content × Nat) :=
  (disk.entry? path).bind Entry.file?

def fileNames? (disk : Disk) (folder : Path) : Option (List String) :=
  (disk.entry? folder).bind Entry.fileNames?

theorem read?_eq (disk : Disk) (path : Path) : disk.read? path = (disk.file? path).bind (·.1.text?) := by
  rw [read?, file?]
  cases disk.entry? path with
  | none => rfl
  | some entry =>
    cases entry with
    | folder => rfl
    | file _ content _ => cases content <;> rfl

theorem modified?_eq (disk : Disk) (path : Path) : disk.modified? path = (disk.file? path).map (·.2) := by
  rw [modified?, file?]
  cases disk.entry? path with
  | none => rfl
  | some entry => cases entry <;> rfl

def documents (disk : Disk) (settings : Settings) (folder : Path) : List Path :=
  (((disk.fileNames? folder).getD []).map folder.child).filter fun path =>
    path.isUsable && settings.isDocument path

theorem documentPaths_eq (disk : Disk) (settings : Settings) (folder : Path) :
    disk.documentPaths settings folder =
      if (disk.fileNames? folder).isSome then .ok (sortedBy Path.before (disk.documents settings folder))
      else .error (.disk folder) := by
  rw [documentPaths, documents, fileNames?]
  cases disk.entry? folder with
  | none => rfl
  | some entry =>
    cases entry with
    | file => rfl
    | folder own entries =>
      simp only [Option.bind_some, Entry.fileNames?, Option.isSome_some, if_true, Option.getD_some,
        List.map_map]
      congr 2
      rw [List.filter_filter]
      exact List.filter_congr fun path _ => Bool.and_comm ..

/-! ### Changes as paths see them -/

namespace FileChanged

variable {start final : Disk} {names : List String} {name : String}

theorem location? (changed : FileChanged start final names name) (path : Path) :
    final.location? path = start.location? path := by
  rw [Disk.location?, Disk.location?, follow_congr changed.folders]

theorem isFolder (changed : FileChanged start final names name) (path : Path) :
    final.isFolder path = start.isFolder path := by
  rw [Disk.isFolder, Disk.isFolder, entry?, entry?, changed.location?]
  cases start.location? path with
  | none => rfl
  | some location =>
    cases location with
    | above => rfl
    | within other => exact changed.folders other

theorem file? (changed : FileChanged start final names name) {path : Path}
    (differ : start.location? path ≠ some (.within (names ++ [name]))) :
    final.file? path = start.file? path := by
  rw [Disk.file?, Disk.file?, entry?, entry?, changed.location?]
  cases found : start.location? path with
  | none => rfl
  | some location =>
    cases location with
    | above => rfl
    | within other => exact changed.files other fun same => differ (by rw [found, same])

theorem fileNames? (changed : FileChanged start final names name) {folder : Path}
    (differ : start.location? folder ≠ some (.within names)) :
    final.fileNames? folder = start.fileNames? folder := by
  rw [Disk.fileNames?, Disk.fileNames?, entry?, entry?, changed.location?]
  cases found : start.location? folder with
  | none => rfl
  | some location =>
    cases location with
    | above => rfl
    | within other => exact changed.listings other fun same => differ (by rw [found, same])

/-- Only the changed name may come on or off the list of a folder's files. -/
theorem filter_fileNames? (changed : FileChanged start final names name) (folder : Path) :
    (final.fileNames? folder).map (·.filter (· != name)) =
      (start.fileNames? folder).map (·.filter (· != name)) := by
  by_cases same : start.location? folder = some (.within names)
  · rw [Disk.fileNames?, Disk.fileNames?, entry?, entry?, changed.location?, same]
    exact changed.listing
  · rw [changed.fileNames? same]

end FileChanged

/-- What a place is: where the path leads, and a folder to hold it. -/
theorem place?_some {disk : Disk} {path : Path} {names : List String} {name : String}
    (placed : disk.place? path = some (names, name)) :
    disk.location? path = some (.within (names ++ [name])) ∧
      path.parts.getLast?.bind Path.stepOf? = some (.into name) ∧
      (disk.root.at? names).any Entry.isFolder := by
  rw [place?] at placed
  split at placed
  next step front last leads =>
    dsimp only at placed
    split at placed
    next allowed =>
      obtain ⟨rfl, rfl⟩ := Prod.mk.inj (Option.some.inj placed)
      simp only [Bool.and_eq_true] at allowed
      obtain ⟨⟨usable, -⟩, isFolder⟩ := allowed
      obtain ⟨part, isLast, steps⟩ := Option.bind_eq_some_iff.mp last
      have split := List.dropLast_append_getLast? part isLast
      refine ⟨?_, last, isFolder⟩
      have notEmpty : path.parts ≠ [""] := by
        intro empty
        rw [empty] at isLast
        obtain rfl := Option.some.inj isLast
        cases steps
      have follows : follow disk.root (start path) path.parts = some (.within (front ++ [step])) := by
        rw [← split, follow_append, leads, Option.bind_some, follow_within, isFolder, steps]
        simp [follow]
      simp [location?, usable, notEmpty, follows]
    next => cases placed
  next => cases placed

/-- A file that is stored is read again, and nothing else is changed. -/
theorem store?_ok {start final : Disk} {path : Path} {content : Content} {modified : Nat}
    (stored : start.store? path content modified = some final) :
    final.file? path = some (content, modified) ∧ final.now = start.now ∧ ∃ names name,
      start.location? path = some (.within (names ++ [name])) ∧
      path.parts.getLast?.bind Path.stepOf? = some (.into name) ∧
      (start.root.at? names).any Entry.isFolder ∧
      ¬(start.root.at? (names ++ [name])).any Entry.isFolder ∧ FileChanged start final names name := by
  obtain ⟨⟨names, name⟩, placed, stored⟩ := Option.bind_eq_some_iff.mp stored
  obtain ⟨leads, last, isFolder⟩ := place?_some placed
  dsimp only at stored
  split at stored
  next => cases stored
  next noFolder =>
    obtain rfl := Option.some.inj stored
    rw [Disk.isFolder, entry?, leads] at noFolder
    have self : (start.root.alter (Entry.put (.file name content modified)) names).at? (names ++ [name]) =
        some (.file name content modified) := by
      have altered := @Entry.at?_alter_append (Entry.put (.file name content modified)) names [] start.root
      rw [List.append_nil] at altered
      rw [Entry.at?_append, altered]
      cases found : start.root.at? names with
      | none => simp [found] at isFolder
      | some entry =>
        cases entry with
        | file => simp [found, Entry.isFolder] at isFolder
        | folder own entries =>
          have put : (Entry.put (.file name content modified) entries).find? (·.name == name) = _ :=
            Entry.find?_put_self (.file name content modified) entries
          simp [Entry.alter, Entry.at?, put]
    have changed := fileChanged_alter (Entry.changesOnly_put (.file name content modified))
      noFolder (by simp [Entry.name, self, Entry.isFolder])
    refine ⟨?_, rfl, names, name, leads, last, isFolder, noFolder, changed⟩
    rw [Disk.file?, entry?, changed.location?, leads]
    simp [self, Entry.file?]

/-- A file that is removed is gone, and nothing else is changed. -/
theorem remove_ok {start : Disk} {path : Path} {names : List String} {name : String}
    (leads : start.location? path = some (.within (names ++ [name])))
    (noFolder : ¬(start.root.at? (names ++ [name])).any Entry.isFolder) :
    (start.remove path).file? path = none ∧ (start.remove path).now = start.now ∧
      FileChanged start (start.remove path) names name := by
  have removed : start.remove path =
      { start with root := start.root.alter (·.filter (·.name != name)) names } := by
    rw [remove, leads]
    simp
  have altered := @Entry.at?_alter_append (·.filter (·.name != name)) names [] start.root
  rw [List.append_nil] at altered
  have gone : (start.root.alter (·.filter (·.name != name)) names).at? (names ++ [name]) = none := by
    rw [Entry.at?_append, altered]
    cases start.root.at? names with
    | none => rfl
    | some entry => cases entry <;> simp [Entry.alter, Entry.at?, List.find?_filter]
  have changed := fileChanged_alter (Entry.changesOnly_filter name) noFolder (by simp [gone])
  rw [removed]
  refine ⟨?_, rfl, changed⟩
  rw [Disk.file?, entry?, changed.location?, leads]
  simp [gone]

end Disk

/-! ### The last name of a path -/

theorem Path.getLast?_steps {path : Path} {name : String} (named : path.fileName? = some name) :
    (path.parts.filterMap stepOf?).getLast? = some (.into name) := by
  rw [fileName?] at named
  split at named
  next step last =>
    obtain rfl := Option.some.inj named
    rw [steps] at last
    cases behind : (path.parts.filterMap stepOf?).getLast? with
    | some step =>
      rw [List.getLast?_append, behind] at last
      simpa using last
    | none =>
      rw [List.getLast?_append, behind] at last
      split at last <;> simp at last
  next => cases named

namespace Disk

/-- A path that ends in a name leads, if anywhere on the disk, to something of that name. -/
theorem getLast_of_follow {root : Entry} {location : Location} {parts names : List String}
    {name : String} (leads : follow root location parts = some (.within names))
    (last : (parts.filterMap Path.stepOf?).getLast? = some (.into name)) :
    ∃ front, names = front ++ [name] := by
  induction parts using List.reverseRecOn generalizing names with
  | nil => simp at last
  | append_singleton parts part ih =>
    rw [follow_append] at leads
    obtain ⟨reached, led, leads⟩ := Option.bind_eq_some_iff.mp leads
    cases reached with
    | above =>
      rw [follow] at leads
      split at leads
      next => cases leads
      next => simp [follow] at leads
    | within front =>
      rw [follow_within] at leads
      split at leads
      next =>
        cases step : Path.stepOf? part with
        | none =>
          rw [step] at leads
          obtain rfl := Location.within.inj (Option.some.inj leads)
          exact ih led (by simpa [step] using last)
        | some step' =>
          obtain rfl : step' = .into name := by simpa [step] using last
          rw [step] at leads
          exact ⟨front, (Location.within.inj (Option.some.inj leads)).symm⟩
      next => cases leads

theorem getLast_of_location? {disk : Disk} {path : Path} {names : List String} {name : String}
    (named : path.fileName? = some name) (leads : disk.location? path = some (.within names)) :
    ∃ front, names = front ++ [name] := by
  rw [location?] at leads
  split at leads
  next => exact getLast_of_follow leads (Path.getLast?_steps named)
  next => cases leads

end Disk

/-! ### Files right in a folder -/

namespace Path

/-- The parts of a folder's path that the paths of what it holds begin with. -/
def base (folder : Path) : List String :=
  if folder.parts.getLastD "" = "" then folder.parts.dropLast else folder.parts

theorem parts_join (folder : Path) {path : Path} (relative : ¬path.isAbsolute) :
    (folder.join path).parts = folder.base ++ path.parts := by
  rw [join, if_neg relative, base]
  split <;> rfl

theorem parts_child (folder : Path) (name : String) : (folder.child name).parts = folder.base ++ [name] :=
  parts_join folder (by simp [isAbsolute])

theorem child_injective {folder : Path} {first second : String}
    (same : folder.child first = folder.child second) : first = second := by
  have same := congrArg parts same
  rw [parts_child, parts_child] at same
  simpa using same

theorem fileName?_child (folder : Path) {name : String} (step : stepOf? name = some (.into name)) :
    (folder.child name).fileName? = some name := by
  have last : (folder.child name).steps.getLast? = some (.into name) := by
    rw [steps, parts_child, List.filterMap_append]
    simp [step]
  rw [fileName?, last]

end Path

namespace Disk

/-- What stands for the folder itself is no file in it. -/
theorem file?_child_of_no_step (disk : Disk) (folder : Path) {name : String}
    (noStep : Path.stepOf? name = none) : disk.file? (folder.child name) = none := by
  rw [file?, entry?]
  cases leads : disk.location? (folder.child name) with
  | none => rfl
  | some location =>
    cases location with
    | above => rfl
    | within names =>
      rw [location?] at leads
      split at leads
      next =>
        rw [Path.parts_child, follow_append] at leads
        obtain ⟨reached, -, leads⟩ := Option.bind_eq_some_iff.mp leads
        cases reached with
        | above => simp [follow, noStep] at leads
        | within front =>
          rw [follow_within] at leads
          split at leads
          next isFolder =>
            rw [noStep] at leads
            obtain rfl := Location.within.inj (Option.some.inj leads)
            dsimp only
            cases found : disk.root.at? front with
            | none => rfl
            | some entry => cases entry <;> simp_all [Entry.isFolder, Entry.file?]
          next => cases leads
      next => cases leads

end Disk
end Requirements
