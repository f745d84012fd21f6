import Requirements.Proofs.Disk.Storing
import Requirements.Proofs.Repository.Loading

/-! What writing the index file of a folder means for the other folders. Where the file lies in its
folder or below it, each folder has an index file of its own, no folder comes or goes by the write,
and the other folders' documents and index files stay as they are. -/
namespace Requirements

namespace Settings

/-- The index file lies in its folder or below it, wherever the folder is, and it is no document. -/
structure IndexBelow (settings : Settings) : Prop where
  relative : ¬(Path.ofText settings.indexFile).isAbsolute
  onward : ".." ∉ (Path.ofText settings.indexFile).parts
  noDocument : ¬settings.isDocument (Path.ofText settings.indexFile)

def indexNames (settings : Settings) : List String :=
  (Path.ofText settings.indexFile).parts.filter fun part => (Path.stepOf? part).isSome

theorem IndexBelow.steps {settings : Settings} (below : settings.IndexBelow) :
    (Path.ofText settings.indexFile).parts.filterMap Path.stepOf? = settings.indexNames.map .into := by
  have onward := below.onward
  rw [indexNames]
  generalize (Path.ofText settings.indexFile).parts = parts at onward ⊢
  induction parts with
  | nil => rfl
  | cons part rest ih =>
    have ⟨notUp, behind⟩ := List.ne_and_not_mem_of_not_mem_cons onward
    have onlyInto : Path.stepOf? part = none ∨ Path.stepOf? part = some (.into part) := by
      unfold Path.stepOf?
      split
      next => exact .inl rfl
      next => exact .inl rfl
      next => exact absurd rfl notUp
      next => exact .inr rfl
    rw [List.filterMap_cons, List.filter_cons, ih behind]
    rcases onlyInto with noStep | into
    · simp [noStep]
    · simp [into]

theorem indexNames_of_isName {settings : Settings} (isName : '/' ∉ settings.indexFile.toList)
    (step : Path.stepOf? settings.indexFile = some (.into settings.indexFile)) :
    settings.indexNames = [settings.indexFile] := by
  rw [indexNames, Path.ofText_of_name isName]
  simp [step]

/-- The index file is told by one name, or it lies in its folder or below and is no document. -/
def IndexInside (settings : Settings) : Prop := '/' ∉ settings.indexFile.toList ∨ settings.IndexBelow

/-- So it is named as a document only if it is to lie right in the folder. -/
theorem IndexInside.eq_nil_of_isDocument {settings : Settings} (inside : settings.IndexInside) {folder : Path}
    {front : List String} {last : String} (split : settings.indexNames = front ++ [last])
    (isDocument : settings.isDocument (folder.child last)) : front = [] := by
  rcases inside with isName | below
  · have few : settings.indexNames.length ≤ 1 := by
      rw [indexNames, Path.ofText_of_name isName]
      exact List.length_filter_le ..
    rw [split, List.length_append, List.length_singleton] at few
    exact List.length_eq_zero_iff.mp (by omega)
  · have steps := below.steps
    rw [split, List.map_append] at steps
    have named : (Path.ofText settings.indexFile).fileName? = some last := by
      rw [Path.fileName?, Path.steps, steps, List.map_singleton, ← List.append_assoc, List.getLast?_append]
      rfl
    obtain ⟨own, isOwn, naming⟩ := isDocument_iff.mp isDocument
    refine absurd (isDocument_iff.mpr ⟨last, named, ?_⟩) below.noDocument
    have isStep : (Path.stepOf? last).isSome := by
      have member : last ∈ settings.indexNames := by simp [split]
      exact (List.mem_filter.mp member).2
    rcases Path.step_of_fileName?_child isOwn with noStep | ⟨-, rfl⟩
    · simp [noStep] at isStep
    · exact naming

end Settings

theorem Location.foldl_after_into (place names : List String) :
    (names.map Path.Step.into).foldl Location.after (.within place) = .within (place ++ names) := by
  induction names generalizing place with
  | nil => simp
  | cons name rest ih =>
    rw [List.map_cons, List.foldl_cons]
    exact (ih (place ++ [name])).trans (by simp)

namespace Disk

variable {settings : Settings} {start final disk : Disk} {root folder : Path}

theorem Rooted.location?_indexPath {place names : List String} {name : String} {reached : Location}
    (rooted : Rooted disk root place) (holds : Rooted.Holds disk root place names name) (below : settings.IndexBelow)
    (leads : disk.location? (settings.indexPath (root.holder names)) = some reached) :
    reached = .within (place ++ names ++ settings.indexNames) := by
  obtain ⟨first, rest, begins, named⟩ := rooted.parts_holder names
  obtain ⟨_, _, rootBegins, rootNamed⟩ := rooted.base_eq_cons
  have parts : (settings.indexPath (root.holder names)).parts =
      (root.holder names).parts ++ (Path.ofText settings.indexFile).parts := by
    rw [Settings.indexPath, Path.parts_join _ below.relative, Path.base_holder rootBegins rootNamed]
  have relative : ¬(settings.indexPath (root.holder names)).isAbsolute := by
    rw [Path.isAbsolute, parts, begins, List.cons_append]
    split
    next same => exact absurd (List.cons.inj same).1 named
    next => simp
  rw [location?, start, if_neg relative, parts, follow_append,
    rooted.follow_holder (Option.isSome_of_any holds.isFolder) holds.proper, Option.bind_some] at leads
  split at leads
  next =>
    rw [eq_of_follow leads, below.steps]
    exact Location.foldl_after_into ..
  next => cases leads

/-- The index files of the folders lie at different places. -/
def IndexApart (settings : Settings) (disk : Disk) (first second : Path) : Prop :=
  ∀ place, disk.location? (settings.indexPath first) = some (.within place) →
    disk.location? (settings.indexPath second) ≠ some (.within place)

/-- A root that is a file has one folder at most. -/
theorem length_repositoryFolders_of_file (settings : Settings) (isFile : disk.isFile root) :
    (disk.repositoryFolders settings root).length ≤ 1 := by
  have single : ∀ parents : List Path, parents.length ≤ 1 →
      (dropRepeats Path.same (sortedBy Path.before parents)).length ≤ 1
    | [], _ => Nat.zero_le 1
    | [_], _ => Nat.le_refl 1
  rw [repositoryFolders, Stored.visits_of_file isFile]
  exact single _ ((List.length_filterMap_le ..).trans (List.length_filter_le ..))

theorem pairwise_indexApart (below : settings.IndexBelow) (sound : disk.root.Sound) (written : root.parts ≠ []) :
    (disk.repositoryFolders settings root).Pairwise (IndexApart settings disk) := by
  by_cases isFile : disk.isFile root
  · have few := length_repositoryFolders_of_file settings isFile
    generalize disk.repositoryFolders settings root = folders at few ⊢
    match folders with
    | [] => exact .nil
    | [folder] => exact List.pairwise_singleton _ folder
    | _ :: _ :: _ => simp at few
  · by_cases onDisk : ∃ place, disk.location? root = some (.within place)
    · obtain ⟨place, leads⟩ := onDisk
      have rooted : Rooted disk root place := ⟨written, leads⟩
      refine (pairwise_repositoryFolders disk settings root).imp_of_mem fun {first second} isFirst isSecond less => ?_
      obtain ⟨names, name, visited, -, rfl⟩ := (mem_repositoryFolders rooted sound isFile).mp isFirst
      obtain ⟨others, other, visitedToo, -, rfl⟩ := (mem_repositoryFolders rooted sound isFile).mp isSecond
      intro reached leadsFirst leadsSecond
      have first := rooted.location?_indexPath (rooted.holds_of_visits sound visited) below leadsFirst
      have second := rooted.location?_indexPath (rooted.holds_of_visits sound visitedToo) below leadsSecond
      have same := Location.within.inj (first.symm.trans second)
      obtain rfl := List.append_cancel_left (List.append_cancel_right same)
      exact lt_irrefl _ ((Path.before_iff _ _).mp less)
    · rw [repositoryFolders_of_not_within fun place leads => onDisk ⟨place, leads⟩]
      exact .nil

structure IndexWritten (settings : Settings) (folder : Path) (start final : Disk) (names : List String)
    (name : String) : Prop where
  leads : start.location? (settings.indexPath folder) = some (.within (names ++ [name]))
  last : (Path.ofText settings.indexFile).parts.getLast?.bind Path.stepOf? = some (.into name)
  noDocument : ¬settings.NamesDocument name
  stored : Stored start final names name
  documents : ∀ other, SameDocuments settings other start final

theorem indexWritten_of_write? (below : settings.IndexBelow) {text : String}
    (written : start.write? (settings.indexPath folder) text = some final) :
    ∃ names name, IndexWritten settings folder start final names name := by
  obtain ⟨names, name, leads, last, stored⟩ := stored_of_store? written fun _ => Path.not_mem_getLast?_join
  have lastOfText := last
  rw [Settings.indexPath, Path.getLast?_join folder (Path.parts_ofText_ne_nil settings.indexFile)] at lastOfText
  have named := Path.fileName?_of_last last
  have namedByText := Path.fileName?_of_last lastOfText
  have noName : ¬settings.NamesDocument name := fun names =>
    below.noDocument (Settings.isDocument_iff.mpr ⟨name, namedByText, names⟩)
  refine ⟨names, name, leads, lastOfText, noName, stored, sameDocuments_of_store? ?_ written⟩
  intro isDocument
  obtain ⟨own, isOwn, names⟩ := Settings.isDocument_iff.mp isDocument
  exact noName (Option.some.inj (isOwn.symm.trans named) ▸ names)

namespace IndexWritten

variable {names : List String} {name : String}

theorem file?_indexPath (indexed : IndexWritten settings folder start final names name) {other : Path}
    (apart : IndexApart settings start folder other) :
    final.file? (settings.indexPath other) = start.file? (settings.indexPath other) :=
  indexed.stored.changed.file? (apart _ indexed.leads)

/-- If a folder is found for the index file, it is the file's own folder. -/
theorem holder_eq (indexed : IndexWritten settings folder start final names name) (below : settings.IndexBelow)
    {place inner others : List String} {last other : String} (rooted : Rooted start root place)
    (holds : Rooted.Holds start root place inner last) (isFolder : folder = root.holder inner)
    (proper : IsProper other)
    (held : settings.isDocument (root.descend (others ++ [other])) ∨ other = settings.indexFile)
    (same : place ++ (others ++ [other]) = names ++ [name]) : others = inner := by
  rw [← List.append_assoc] at same
  obtain ⟨rfl, rfl⟩ := List.append_singleton_inj.mp same
  rcases held with isDocument | rfl
  · obtain ⟨own, isOwn, isNamed⟩ := Settings.isDocument_iff.mp isDocument
    rw [Path.descend_append, Path.fileName?_child _ proper.1] at isOwn
    exact absurd (Option.some.inj isOwn ▸ isNamed) indexed.noDocument
  · have leads := indexed.leads
    rw [isFolder] at leads
    have reached := Location.within.inj (rooted.location?_indexPath holds below leads)
    rw [Settings.indexNames_of_isName proper.2 proper.1] at reached
    exact List.append_cancel_left (List.append_singleton_inj.mp reached).1

/-- No folder comes or goes when the index file of one of them is written. -/
theorem repositoryFolders (indexed : IndexWritten settings folder start final names name)
    (below : settings.IndexBelow) (sound : start.root.Sound) (written : root.parts ≠ [])
    (found : folder ∈ start.repositoryFolders settings root) :
    final.repositoryFolders settings root = start.repositoryFolders settings root := by
  have stored := indexed.stored
  by_cases isFile : start.isFile root
  · rw [Disk.repositoryFolders, Disk.repositoryFolders, Stored.visits_of_file (stored.isFile_root isFile),
      Stored.visits_of_file isFile]
  · by_cases onDisk : ∃ place, start.location? root = some (.within place)
    · obtain ⟨place, leads⟩ := onDisk
      have rooted : Rooted start root place := ⟨written, leads⟩
      have rootedThen := stored.rooted rooted
      obtain ⟨inner, last, visited, held, isHolder⟩ := (mem_repositoryFolders rooted sound isFile).mp found
      have stillNone := stored.not_isFile_root sound rooted visited
      refine Path.eq_of_pairwise_before (pairwise_repositoryFolders ..) (pairwise_repositoryFolders ..) fun path => ?_
      refine ⟨fun isNew => ?_, stored.repositoryFolders_subset sound written⟩
      obtain ⟨others, other, visitedNow, heldNow, rfl⟩ :=
        (mem_repositoryFolders rootedThen (stored.sound sound) stillNone).mp isNew
      rcases (stored.mem_visits sound rooted).mp visitedNow with visitedBefore | ⟨same, -⟩
      · exact (mem_repositoryFolders rooted sound isFile).mpr ⟨others, other, visitedBefore, heldNow, rfl⟩
      · have proper := (rootedThen.holds_of_visits (stored.sound sound) visitedNow).isProper
        rw [indexed.holder_eq below rooted (rooted.holds_of_visits sound visited) isHolder proper heldNow same]
        exact isHolder ▸ found
    · rw [repositoryFolders_of_not_within fun place leads => onDisk ⟨place, leads⟩] at found
      cases found

end IndexWritten

end Disk
end Requirements
