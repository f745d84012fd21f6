import Requirements.Proofs.Disk.PathOrder
import Requirements.Proofs.Disk.Roots

/-! The folders of a repository. Each folder that holds a document is found once, the folders come
in path order, and the documents in a folder are those that a walk meets there. -/
namespace Requirements
namespace Disk
namespace Rooted

variable {disk : Disk} {root : Path} {place : List String}

theorem mem_visits (rooted : Rooted disk root place) (sound : disk.root.Sound) {names : List String} :
    .file names ∈ disk.visits root ↔ (disk.root.at? (place ++ names)).any (fun found => !found.isFolder) ∧
      ∀ front back, names = front ++ back → back ≠ [] → (root.descend front).isUsable := by
  rw [visits, entry?, rooted.leads]
  dsimp only
  rw [Entry.at?_append]
  cases found : disk.root.at? place with
  | none => simp
  | some entry => exact Entry.mem_visits (sound.at? found)

structure Holds (disk : Disk) (root : Path) (place names : List String) (name : String) : Prop where
  isFolder : (disk.root.at? (place ++ names)).any Entry.isFolder
  proper : ∀ name ∈ names, IsProper name
  isProper : IsProper name
  usable : (root.descend names).isUsable

theorem holds_of_visits (rooted : Rooted disk root place) (sound : disk.root.Sound) {names : List String}
    {name : String} (visited : .file (names ++ [name]) ∈ disk.visits root) : Holds disk root place names name := by
  obtain ⟨isFile, usable⟩ := (rooted.mem_visits sound).mp visited
  have proper := sound.proper_of_at? (Option.isSome_of_any isFile)
  refine ⟨?_, fun other member => proper other (by simp [member]), proper name (by simp),
    usable names [name] rfl (by simp)⟩
  by_contra notFolder
  rw [← List.append_assoc, Entry.at?_of_not_folder notFolder] at isFile
  cases isFile

theorem ne_nil_of_visits (rooted : Rooted disk root place) (sound : disk.root.Sound) (noFile : ¬disk.isFile root)
    {names : List String} (visited : .file names ∈ disk.visits root) : names ≠ [] := by
  rintro rfl
  have isFile := ((rooted.mem_visits sound).mp visited).1
  rw [List.append_nil] at isFile
  rw [Disk.isFile, entry?, rooted.leads] at noFile
  exact noFile isFile

/-- A walk that meets one file of a folder meets all of them. -/
theorem visits_sibling (rooted : Rooted disk root place) (sound : disk.root.Sound) {names : List String}
    {name other : String} (visited : .file (names ++ [name]) ∈ disk.visits root)
    (isFile : (disk.root.at? (place ++ (names ++ [other]))).any fun found => !found.isFolder) :
    .file (names ++ [other]) ∈ disk.visits root := by
  refine (rooted.mem_visits sound).mpr ⟨isFile, fun front back split notLast => ?_⟩
  obtain ⟨behind, last, rfl⟩ : ∃ behind last, back = behind ++ [last] :=
    ⟨back.dropLast, back.getLast notLast, (List.dropLast_append_getLast notLast).symm⟩
  rw [← List.append_assoc] at split
  obtain ⟨rfl, -⟩ := List.append_singleton_inj.mp split
  exact ((rooted.mem_visits sound).mp visited).2 front (behind ++ [name]) (List.append_assoc ..) (by simp)

/-- A folder has one path among those found. -/
theorem holder_injective (rooted : Rooted disk root place) {names others : List String}
    (proper : ∀ name ∈ names, IsProper name) (othersProper : ∀ name ∈ others, IsProper name)
    (same : (root.holder names).key = (root.holder others).key) : names = others := by
  have sameSteps := List.map_injective_iff.mpr Path.Step.code_injective same
  rw [rooted.steps_holder proper, rooted.steps_holder othersProper, List.append_cancel_left_eq] at sameSteps
  exact List.map_injective_iff.mpr (fun _ _ => Path.Step.into.inj) sameSteps

end Rooted

/-- Where a root leads nowhere on the disk, nothing is met. -/
theorem files_of_not_within {disk : Disk} {root : Path}
    (away : ∀ place, disk.location? root ≠ some (.within place)) :
    (disk.visits root).filterMap Visit.file? = [] := by
  rw [visits, entry?]
  cases leads : disk.location? root with
  | none => rfl
  | some location =>
    cases location with
    | within place => exact absurd leads (away place)
    | above =>
      dsimp only
      rw [Entry.visits]
      split <;> rfl

variable {settings : Settings}

theorem repositoryFolders_of_not_within {disk : Disk} {root : Path}
    (away : ∀ place, disk.location? root ≠ some (.within place)) : disk.repositoryFolders settings root = [] := by
  rw [repositoryFolders, files_of_not_within away]
  rfl

theorem pairwise_repositoryFolders (disk : Disk) (settings : Settings) (root : Path) :
    (disk.repositoryFolders settings root).Pairwise fun a b => a.before b := by
  refine (pairwise_dropRepeats Path.same_iff (pairwise_sortedBy Path.before_iff _)).imp fun less => ?_
  exact (Path.before_iff _ _).mpr less

theorem mem_files_visits {disk : Disk} {root : Path} {names : List String} :
    names ∈ (disk.visits root).filterMap Visit.file? ↔ .file names ∈ disk.visits root := by
  rw [List.mem_filterMap]
  constructor
  · rintro ⟨visit, visited, isFile⟩
    cases visit with
    | unreadable => cases isFile
    | file => exact Option.some.inj isFile ▸ visited
  · exact fun visited => ⟨_, visited, rfl⟩

variable {disk : Disk} {root : Path} {place : List String}

/-- The parents of the documents and the index files that a walk meets, in the walk's order. -/
theorem mem_parents (rooted : Rooted disk root place) (sound : disk.root.Sound) (noFile : ¬disk.isFile root)
    {folder : Path} :
    folder ∈ ((((disk.visits root).filterMap Visit.file?).map root.descend).filter fun path =>
      settings.isDocument path || path.fileName? == some settings.indexFile).filterMap Path.parent? ↔
    ∃ names name, .file (names ++ [name]) ∈ disk.visits root ∧
      (settings.isDocument (root.descend (names ++ [name])) ∨ name = settings.indexFile) ∧
        folder = root.holder names := by
  constructor
  · intro member
    obtain ⟨path, isHeld, isParent⟩ := List.mem_filterMap.mp member
    obtain ⟨isPath, held⟩ := List.mem_filter.mp isHeld
    obtain ⟨all, isVisited, rfl⟩ := List.mem_map.mp isPath
    have visited := mem_files_visits.mp isVisited
    have notNil := rooted.ne_nil_of_visits sound noFile visited
    obtain ⟨names, name, rfl⟩ : ∃ names name, all = names ++ [name] :=
      ⟨_, _, (List.dropLast_append_getLast notNil).symm⟩
    have holds := rooted.holds_of_visits sound visited
    rw [rooted.parent?_descend holds.proper holds.isProper] at isParent
    refine ⟨names, name, visited, ?_, (Option.some.inj isParent).symm⟩
    rw [Path.descend_append, Path.fileName?_child _ holds.isProper.1, ← Path.descend_append] at held
    simpa using held
  · rintro ⟨names, name, visited, held, rfl⟩
    have holds := rooted.holds_of_visits sound visited
    refine List.mem_filterMap.mpr ⟨root.descend (names ++ [name]), List.mem_filter.mpr ⟨?_, ?_⟩,
      rooted.parent?_descend holds.proper holds.isProper⟩
    · exact List.mem_map_of_mem (mem_files_visits.mpr visited)
    · rw [Path.descend_append, Path.fileName?_child _ holds.isProper.1, ← Path.descend_append]
      simpa using held

theorem mem_repositoryFolders (rooted : Rooted disk root place) (sound : disk.root.Sound)
    (noFile : ¬disk.isFile root) {folder : Path} :
    folder ∈ disk.repositoryFolders settings root ↔ ∃ names name, .file (names ++ [name]) ∈ disk.visits root ∧
      (settings.isDocument (root.descend (names ++ [name])) ∨ name = settings.indexFile) ∧
        folder = root.holder names := by
  rw [repositoryFolders]
  rw [mem_dropRepeats Path.same_iff (pairwise_sortedBy Path.before_iff _), mem_sortedBy]
  · exact mem_parents rooted sound noFile
  · intro first isFirst second isSecond same
    obtain ⟨names, _, visited, -, rfl⟩ := (mem_parents rooted sound noFile).mp (mem_sortedBy.mp isFirst)
    obtain ⟨others, _, othersVisited, -, rfl⟩ := (mem_parents rooted sound noFile).mp (mem_sortedBy.mp isSecond)
    rw [rooted.holder_injective (rooted.holds_of_visits sound visited).proper
      (rooted.holds_of_visits sound othersVisited).proper same]

namespace Rooted

variable {names : List String} {name : String}

/-- The folder of a file that a walk meets is found. -/
theorem location?_of_holds (rooted : Rooted disk root place) (holds : Holds disk root place names name) :
    disk.location? (root.holder names) = some (.within (place ++ names)) := by
  have fewer := root.holder_sublist_descend fun name member => (holds.proper name member).ne_empty
  exact rooted.location?_holder (Option.isSome_of_any holds.isFolder) holds.proper
    (Path.isUsable_of_sublist fewer holds.usable)

/-- From a folder a text leads to a folder, or it is a name and leads to what has it there. -/
theorem isFolder_or_eq_of_location?_child (rooted : Rooted disk root place)
    (holds : Holds disk root place names name) {last : String} {reached : List String}
    (leads : disk.location? ((root.holder names).child last) = some (.within reached)) :
    (disk.root.at? reached).any Entry.isFolder ∨
      Path.stepOf? last = some (.into last) ∧ reached = place ++ names ++ [last] := by
  obtain ⟨first, rest, begins, named⟩ := rooted.parts_holder names
  have parts := rooted.parts_child_holder names last
  rw [location?, start, if_neg (Path.relative_of_parts parts begins named), parts, follow_append,
    rooted.follow_holder (Option.isSome_of_any holds.isFolder) holds.proper, Option.bind_some, follow_within,
    if_pos holds.isFolder] at leads
  split at leads
  next =>
    cases step : Path.stepOf? last with
    | none =>
      rw [step] at leads
      obtain rfl := Location.within.inj (Option.some.inj leads)
      exact .inl holds.isFolder
    | some step' =>
      rw [step] at leads
      cases step' with
      | root => cases leads
      | here => cases leads
      | up =>
        dsimp only at leads
        split at leads
        next => cases leads
        next notTop =>
          obtain rfl := Location.within.inj (Option.some.inj leads)
          refine .inl (by_contra fun notFolder => ?_)
          have isFolder := holds.isFolder
          rw [← List.dropLast_append_getLast notTop, Entry.at?_of_not_folder notFolder] at isFolder
          cases isFolder
      | into other =>
        obtain rfl := Path.eq_of_stepOf? step
        exact .inr ⟨rfl, (Location.within.inj (Option.some.inj leads)).symm⟩
  next => cases leads

/-- The walk's path of a file and the one by its folder's path lead to one place. -/
theorem file?_child_holder (rooted : Rooted disk root place) (holds : Holds disk root place names name)
    (usable : (root.descend (names ++ [name])).isUsable) (childUsable : ((root.holder names).child name).isUsable) :
    disk.file? ((root.holder names).child name) = disk.file? (root.descend (names ++ [name])) := by
  rw [file?, file?, entry?, entry?,
    rooted.location?_child_holder holds.isFolder holds.proper holds.isProper childUsable,
    rooted.location?_descend holds.isFolder holds.proper holds.isProper usable]

theorem fileName?_descend (holds : Holds disk root place names name) :
    (root.descend (names ++ [name])).fileName? = some name := by
  rw [Path.descend_append, Path.fileName?_child _ holds.isProper.1]

theorem isDocument_descend (holds : Holds disk root place names name) :
    settings.isDocument (root.descend (names ++ [name])) = settings.isDocument ((root.holder names).child name) := by
  rw [Settings.isDocument, Settings.isDocument, Path.extension?, Path.extension?, fileName?_descend holds,
    Path.fileName?_child _ holds.isProper.1]

theorem fileNames?_holder (rooted : Rooted disk root place) (holds : Holds disk root place names name) :
    ∃ own entries, disk.root.at? (place ++ names) = some (.folder own entries) ∧
      disk.fileNames? (root.holder names) = some ((entries.filter fun entry => !entry.isFolder).map Entry.name) := by
  rw [fileNames?, entry?, rooted.location?_of_holds holds]
  dsimp only
  have isFolder := holds.isFolder
  cases found : disk.root.at? (place ++ names) with
  | none => simp [found] at isFolder
  | some entry =>
    cases entry with
    | file => simp [found, Entry.isFolder] at isFolder
    | folder own entries => exact ⟨own, entries, rfl, rfl⟩

/-- The documents in a folder are those that a walk meets there. -/
theorem visits_of_mem_documents (rooted : Rooted disk root place) (sound : disk.root.Sound)
    (visited : .file (names ++ [name]) ∈ disk.visits root) {path : Path}
    (member : path ∈ disk.documents settings (root.holder names)) :
    ∃ other, (root.holder names).child other = path ∧ .file (names ++ [other]) ∈ disk.visits root ∧
      settings.isDocument (root.descend (names ++ [other])) := by
  have holds := rooted.holds_of_visits sound visited
  obtain ⟨⟨other, listed, rfl⟩, -, isDocument⟩ := mem_documents.mp member
  obtain ⟨own, entries, found, listing⟩ := rooted.fileNames?_holder holds
  rw [listing] at listed
  obtain ⟨entry, held, rfl⟩ := List.mem_map.mp listed
  have ⟨isEntry, isFile⟩ := List.mem_filter.mp held
  have leads : disk.root.at? (place ++ (names ++ [entry.name])) = some entry := by
    rw [← List.append_assoc, Entry.at?_append, found, Option.bind_some, Entry.at?]
    rw [((sound.at? found).held isEntry).1]
    rfl
  have visitedToo : .file (names ++ [entry.name]) ∈ disk.visits root := by
    refine rooted.visits_sibling sound visited ?_
    rw [leads]
    exact isFile
  refine ⟨entry.name, rfl, visitedToo, ?_⟩
  rw [isDocument_descend (rooted.holds_of_visits sound visitedToo)]
  exact isDocument

theorem mem_documents_of_visits (rooted : Rooted disk root place) (sound : disk.root.Sound)
    (visited : .file (names ++ [name]) ∈ disk.visits root)
    (isDocument : settings.isDocument (root.descend (names ++ [name])))
    (usable : (root.descend (names ++ [name])).isUsable) :
    (root.holder names).child name ∈ disk.documents settings (root.holder names) := by
  have holds := rooted.holds_of_visits sound visited
  obtain ⟨own, entries, found, listing⟩ := rooted.fileNames?_holder holds
  have isFile := ((rooted.mem_visits sound).mp visited).1
  rw [← List.append_assoc, Entry.at?_append, found, Option.bind_some] at isFile
  obtain ⟨entry, isEntry, rfl, same⟩ := Entry.exists_held_of_at? (Option.isSome_of_any isFile)
  rw [same] at isFile
  refine mem_documents.mpr ⟨⟨entry.name, ?_, rfl⟩, ?_, isDocument_descend holds ▸ isDocument⟩
  · rw [listing, Option.getD_some]
    exact List.mem_map_of_mem (List.mem_filter.mpr ⟨isEntry, isFile⟩)
  · refine Path.isUsable_of_sublist ?_ usable
    rw [rooted.parts_child_holder, root.parts_descend fun other member => (holds.proper other member).ne_empty]
    exact (Path.trimEnd_sublist _).append_right _

end Rooted
end Disk
end Requirements
