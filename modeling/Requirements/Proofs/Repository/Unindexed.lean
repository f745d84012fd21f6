import Requirements.Proofs.Repository.Indexed
import Requirements.Proofs.Repository.Rewriting

/-! Loading repositories in which nothing was indexed before. Their roots lie apart, so that what
is written for one repository changes nothing for the others. -/
namespace Requirements

namespace Disk

variable {settings : Settings} {disk : Disk}

/-- No root lies in the other. -/
def Apart (disk : Disk) (first second : Path) : Prop := ∀ x y, disk.location? first = some (.within x) →
  disk.location? second = some (.within y) → ¬x <+: y ∧ ¬y <+: x

/-- What lies below one of two roots that lie apart is neither below nor above the other. -/
theorem Apart.away {first second : Path} (apart : disk.Apart first second) {place other names : List String}
    (leads : disk.location? first = some (.within place)) (leadsToo : disk.location? second = some (.within other))
    (below : place <+: names) : ¬other <+: names ∧ ¬names <+: other := by
  have ⟨notBelow, notAbove⟩ := apart place other leads leadsToo
  refine ⟨fun belowToo => ?_, fun above => notBelow (below.trans above)⟩
  exact (List.prefix_or_prefix_of_prefix below belowToo).elim notBelow notAbove

/-- Roots of repositories before the first search: they lie apart, no file is named as index files
are and no folder has one, and every document can be read. -/
structure Unindexed (settings : Settings) (disk : Disk) (roots : List Path) : Prop where
  sound : disk.root.Sound
  written : ∀ root ∈ roots, root.parts ≠ []
  noFile : ∀ root ∈ roots, ¬disk.isFile root
  apart : roots.Pairwise disk.Apart
  noIndex : ∀ root ∈ roots, ∀ names, .file (names ++ [settings.indexFile]) ∉ disk.visits root
  noCache : ∀ root ∈ roots, ∀ folder ∈ disk.repositoryFolders settings root,
    ¬disk.isFile (settings.indexPath folder)
  parses : ∀ root ∈ roots, ∀ names, .file names ∈ disk.visits root → settings.isDocument (root.descend names) →
    FolderIndex.Parses disk (root.descend names)

theorem Unindexed.tail {first : Path} {rest : List Path} (unindexed : Unindexed settings disk (first :: rest)) :
    Unindexed settings disk rest where
  sound := unindexed.sound
  written root member := unindexed.written root (by simp [member])
  noFile root member := unindexed.noFile root (by simp [member])
  apart := (List.pairwise_cons.mp unindexed.apart).2
  noIndex root member := unindexed.noIndex root (by simp [member])
  noCache root member := unindexed.noCache root (by simp [member])
  parses root member := unindexed.parses root (by simp [member])

theorem isUsable_of_parses {path : Path} (parses : FolderIndex.Parses disk path) : path.isUsable := by
  obtain ⟨file, isFile⟩ := Option.isSome_iff_exists.mp (FolderIndex.isSome_file?_of_parses parses)
  rw [file?, entry?] at isFile
  cases leads : disk.location? path with
  | none => simp [leads] at isFile
  | some => exact isUsable_of_location? leads

theorem declares_congr {other : Disk} {first second : Path} (file : other.file? second = disk.file? first)
    (name : second.fileName? = first.fileName?) {kind : ElementKind} {declared : QualifiedName} :
    other.Declares second kind declared ↔ disk.Declares first kind declared := by
  simp only [Declares, parse_ok, read?_eq, file, name]

namespace Unindexed

variable {roots : List Path} {root : Path} {place names : List String} {name : String}

/-- A walk meets things only below roots on the disk, and only behind names. -/
theorem split_of_visits (unindexed : Unindexed settings disk roots) (isRoot : root ∈ roots) {all : List String}
    (visited : .file all ∈ disk.visits root) :
    ∃ place names name, Rooted disk root place ∧ all = names ++ [name] := by
  obtain ⟨place, leads⟩ : ∃ place, disk.location? root = some (.within place) := by
    by_contra away
    have none := files_of_not_within fun place leads => away ⟨place, leads⟩
    have member := mem_files_visits.mpr visited
    rw [none] at member
    cases member
  have rooted : Rooted disk root place := ⟨unindexed.written root isRoot, leads⟩
  have notNil := rooted.ne_nil_of_visits unindexed.sound (unindexed.noFile root isRoot) visited
  exact ⟨place, _, _, rooted, (List.dropLast_append_getLast notNil).symm⟩

/-- A document that a walk meets is among the documents of its folder, where it declares the same. -/
theorem document_of_visits (unindexed : Unindexed settings disk roots) (isRoot : root ∈ roots)
    (rooted : Rooted disk root place) (visited : .file (names ++ [name]) ∈ disk.visits root)
    (isDocument : settings.isDocument (root.descend (names ++ [name]))) :
    (root.holder names).child name ∈ disk.documents settings (root.holder names) ∧ ∀ kind declared,
      disk.Declares ((root.holder names).child name) kind declared ↔
        disk.Declares (root.descend (names ++ [name])) kind declared := by
  have holds := rooted.holds_of_visits unindexed.sound visited
  have usable := isUsable_of_parses (unindexed.parses root isRoot _ visited isDocument)
  have member := rooted.mem_documents_of_visits unindexed.sound visited isDocument usable
  refine ⟨member, fun kind declared => declares_congr ?_ ?_⟩
  · exact rooted.file?_child_holder holds usable (mem_documents.mp member).2.1
  · rw [Path.fileName?_child _ holds.isProper.1, Rooted.fileName?_descend holds]

/-- The folders of a root are those of the documents that a walk meets. -/
theorem mem_repositoryFolders (unindexed : Unindexed settings disk roots) (isRoot : root ∈ roots) {folder : Path} :
    folder ∈ disk.repositoryFolders settings root ↔ ∃ place, Rooted disk root place ∧ ∃ names name,
      .file (names ++ [name]) ∈ disk.visits root ∧ settings.isDocument (root.descend (names ++ [name])) ∧
        folder = root.holder names := by
  by_cases within : ∃ place, disk.location? root = some (.within place)
  · obtain ⟨place, leads⟩ := within
    have rooted : Rooted disk root place := ⟨unindexed.written root isRoot, leads⟩
    rw [Disk.mem_repositoryFolders rooted unindexed.sound (unindexed.noFile root isRoot)]
    constructor
    · rintro ⟨names, name, visited, isDocument | rfl, found⟩
      · exact ⟨place, rooted, names, name, visited, isDocument, found⟩
      · exact absurd visited (unindexed.noIndex root isRoot names)
    · rintro ⟨_, _, names, name, visited, isDocument, found⟩
      exact ⟨names, name, visited, .inl isDocument, found⟩
  · rw [repositoryFolders_of_not_within fun place leads => within ⟨place, leads⟩]
    refine ⟨fun member => (by cases member), ?_⟩
    rintro ⟨place, rooted, -⟩
    exact absurd ⟨place, rooted.leads⟩ within

theorem mem_repositoryFolders_iff_parent? (unindexed : Unindexed settings disk roots) (isRoot : root ∈ roots)
    {folder : Path} : folder ∈ disk.repositoryFolders settings root ↔ ∃ names, .file names ∈ disk.visits root ∧
      settings.isDocument (root.descend names) ∧ (root.descend names).parent? = some folder := by
  rw [unindexed.mem_repositoryFolders isRoot]
  constructor
  · rintro ⟨place, rooted, names, name, visited, isDocument, rfl⟩
    have holds := rooted.holds_of_visits unindexed.sound visited
    exact ⟨_, visited, isDocument, rooted.parent?_descend holds.proper holds.isProper⟩
  · rintro ⟨_, visited, isDocument, isParent⟩
    obtain ⟨place, names, name, rooted, rfl⟩ := unindexed.split_of_visits isRoot visited
    have holds := rooted.holds_of_visits unindexed.sound visited
    rw [rooted.parent?_descend holds.proper holds.isProper] at isParent
    exact ⟨place, rooted, names, name, visited, isDocument, (Option.some.inj isParent).symm⟩

/-- Each folder of a root is ready to be loaded, and it lies below the root. -/
theorem ready (unindexed : Unindexed settings disk roots) (isRoot : root ∈ roots) (rooted : Rooted disk root place)
    (visited : .file (names ++ [name]) ∈ disk.visits root)
    (member : root.holder names ∈ disk.repositoryFolders settings root) :
    FolderIndex.Ready settings disk (root.holder names) (place ++ names) := by
  have sound := unindexed.sound
  have holds := rooted.holds_of_visits sound visited
  refine ⟨rooted.location?_of_holds holds, holds.isFolder, fun path inside => ?_, fun reached indexAt => ?_⟩
  · obtain ⟨other, rfl, visitedToo, isDocument⟩ := rooted.visits_of_mem_documents sound visited inside
    have holdsToo := rooted.holds_of_visits sound visitedToo
    have parses := unindexed.parses root isRoot _ visitedToo isDocument
    have usable := (mem_documents.mp inside).2.1
    have same := rooted.file?_child_holder holdsToo (isUsable_of_parses parses) usable
    refine ⟨other, holdsToo.isProper, rfl, ?_⟩
    obtain ⟨document, parsed⟩ := parses
    refine ⟨document, ?_⟩
    rw [parse_ok, read?_eq] at parsed ⊢
    rwa [same, Path.fileName?_child _ holdsToo.isProper.1, ← Rooted.fileName?_descend holdsToo]
  · have noFile := unindexed.noCache root isRoot _ member
    rw [isFile, entry?, indexAt.1] at noFile
    have noFolder := indexAt.2
    cases found : disk.root.at? reached with
    | none => rfl
    | some entry => cases entry <;> simp_all [Entry.isFolder]

theorem ready_of_mem (unindexed : Unindexed settings disk roots) (isRoot : root ∈ roots) {folder : Path}
    (member : folder ∈ disk.repositoryFolders settings root) :
    ∃ place names, disk.location? root = some (.within place) ∧
      FolderIndex.Ready settings disk folder (place ++ names) := by
  obtain ⟨place, rooted, names, name, visited, -, rfl⟩ := (unindexed.mem_repositoryFolders isRoot).mp member
  exact ⟨place, names, rooted.leads, unindexed.ready isRoot rooted visited member⟩

theorem below_of_mem (unindexed : Unindexed settings disk roots) (isRoot : root ∈ roots) {folder : Path}
    (member : folder ∈ disk.repositoryFolders settings root)
    (leads : disk.location? folder = some (.within names)) :
    ∃ place, disk.location? root = some (.within place) ∧ place <+: names := by
  obtain ⟨place, more, rootLeads, ready⟩ := unindexed.ready_of_mem isRoot member
  obtain rfl := Location.within.inj (Option.some.inj (ready.leads.symm.trans leads))
  exact ⟨place, rootLeads, List.prefix_append ..⟩

/-- The index file of a folder lies behind the folder's place. -/
theorem place_of_indexAt (unindexed : Unindexed settings disk roots) (inside : settings.IndexInside)
    (isRoot : root ∈ roots) {folder : Path} (member : folder ∈ disk.repositoryFolders settings root)
    {reached : List String} (indexAt : IndexAt settings disk folder reached) :
    ∃ held, disk.location? folder = some (.within held) ∧ reached = held ++ settings.indexNames := by
  obtain ⟨place, rooted, names, name, visited, -, rfl⟩ := (unindexed.mem_repositoryFolders isRoot).mp member
  have holds := rooted.holds_of_visits unindexed.sound visited
  refine ⟨place ++ names, rooted.location?_of_holds holds, ?_⟩
  rcases inside with isName | below
  · have leads := indexAt.1
    rw [Settings.indexPath, Path.ofText_of_name isName, ← Path.child] at leads
    obtain isFolder | ⟨step, same⟩ := rooted.isFolder_or_eq_of_location?_child holds leads
    · exact absurd isFolder indexAt.2
    · rw [same, Settings.indexNames_of_isName isName step]
  · exact Location.within.inj (rooted.location?_indexPath holds below indexAt.1)

/-- Of two folders of a root neither has its index file in the way of the other. -/
theorem pairwise_spared (unindexed : Unindexed settings disk roots) (inside : settings.IndexInside)
    (isRoot : root ∈ roots) : (disk.repositoryFolders settings root).Pairwise fun a b =>
      Spared settings (IndexAt settings disk a) disk b := by
  refine (pairwise_repositoryFolders disk settings root).imp_of_mem fun {first second} isFirst isSecond less => ?_
  have differ : disk.location? first ≠ disk.location? second := by
    intro same
    obtain ⟨place, rooted, names, name, visited, -, rfl⟩ := (unindexed.mem_repositoryFolders isRoot).mp isFirst
    obtain ⟨_, _, others, other, visitedToo, -, rfl⟩ := (unindexed.mem_repositoryFolders isRoot).mp isSecond
    rw [rooted.location?_of_holds (rooted.holds_of_visits unindexed.sound visited),
      rooted.location?_of_holds (rooted.holds_of_visits unindexed.sound visitedToo)] at same
    obtain rfl := List.append_cancel_left (Location.within.inj (Option.some.inj same))
    exact lt_irrefl _ ((Path.before_iff _ _).mp less)
  constructor
  · intro place name leads indexAt isDocument
    obtain ⟨held, firstLeads, reached⟩ := unindexed.place_of_indexAt inside isRoot isFirst indexAt
    rcases List.eq_nil_or_concat' settings.indexNames with none | ⟨front, last, split⟩
    · rw [none, List.append_nil] at reached
      obtain ⟨_, _, -, ready⟩ := unindexed.ready_of_mem isRoot isFirst
      obtain rfl := Location.within.inj (Option.some.inj (ready.leads.symm.trans firstLeads))
      exact indexAt.2 (reached ▸ ready.isFolder)
    · rw [split, ← List.append_assoc] at reached
      obtain ⟨rfl, rfl⟩ := List.append_singleton_inj.mp reached
      rw [inside.eq_nil_of_isDocument split isDocument, List.append_nil] at leads
      exact differ (firstLeads.trans leads.symm)
  · intro reached indexAt indexAtToo
    obtain ⟨held, firstLeads, rfl⟩ := unindexed.place_of_indexAt inside isRoot isFirst indexAt
    obtain ⟨heldToo, leads, same⟩ := unindexed.place_of_indexAt inside isRoot isSecond indexAtToo
    obtain rfl := List.append_cancel_right same
    exact differ (firstLeads.trans leads.symm)

/-- What lies apart from a root spares its folders. -/
theorem spared_of_apart (unindexed : Unindexed settings disk roots) (inside : settings.IndexInside)
    (isRoot : root ∈ roots) {written : List String → Prop}
    (apart : ∀ place, disk.location? root = some (.within place) → ∀ names, written names →
      ¬place <+: names ∧ ¬names <+: place) {folder : Path}
    (member : folder ∈ disk.repositoryFolders settings root) : Spared settings written disk folder := by
  constructor
  · intro held name leads isWritten
    obtain ⟨place, rootLeads, isBelow⟩ := unindexed.below_of_mem isRoot member leads
    exact absurd (isBelow.trans (List.prefix_append ..)) (apart place rootLeads _ isWritten).1
  · intro reached isWritten indexAt
    obtain ⟨held, leads, rfl⟩ := unindexed.place_of_indexAt inside isRoot member indexAt
    obtain ⟨place, rootLeads, isBelow⟩ := unindexed.below_of_mem isRoot member leads
    exact (apart place rootLeads _ isWritten).1 (isBelow.trans (List.prefix_append ..))

end Unindexed

/-- A root below which nothing changed has the folders that it had. -/
theorem repositoryFolders_congr {start final : Disk} {root : Path}
    (locations : final.location? root = start.location? root)
    (entries : ∀ place, start.location? root = some (.within place) → final.root.at? place = start.root.at? place) :
    final.repositoryFolders settings root = start.repositoryFolders settings root := by
  have sameVisits : final.visits root = start.visits root := by
    rw [visits, visits, entry?, entry?, locations]
    cases leads : start.location? root with
    | none => rfl
    | some location =>
      cases location with
      | above => rfl
      | within place => simp only [entries place leads]
  rw [Disk.repositoryFolders, Disk.repositoryFolders, sameVisits]

end Disk

namespace Repository

variable {settings : Settings} {written : List String → Prop} {start disk : Disk}

def indexed (settings : Settings) (disk : Disk) (repository : Repository) : Repository :=
  { repository with
    folders := some ((disk.repositoryFolders settings repository.root).map (FolderIndex.ofDocuments disk settings)) }

def IndexAt (settings : Settings) (disk : Disk) (repository : Repository) (names : List String) : Prop :=
  ∃ folder ∈ disk.repositoryFolders settings repository.root, Disk.IndexAt settings disk folder names

theorem load_of_unindexed {roots : List Path} (unindexed : Disk.Unindexed settings start roots)
    (inside : settings.IndexInside) {repository : Repository} (isRoot : repository.root ∈ roots)
    (unloaded : repository.folders = none) (indexed : Disk.Indexed written start disk)
    (apart : ∀ place, start.location? repository.root = some (.within place) → ∀ names, written names →
      ¬place <+: names ∧ ¬names <+: place) :
    ∃ final, repository.load settings disk = .ok (repository.indexed settings start) final ∧
      Disk.Indexed (fun names => written names ∨ repository.IndexAt settings start names) start final := by
  have ready : ∀ folder ∈ start.repositoryFolders settings repository.root, ∃ place,
      FolderIndex.Ready settings start folder place := by
    intro folder member
    obtain ⟨place, names, -, ready⟩ := unindexed.ready_of_mem isRoot member
    exact ⟨place ++ names, ready⟩
  obtain ⟨final, loaded, indexed'⟩ := FolderIndex.loadFolders_of_ready ready
    (unindexed.pairwise_spared inside isRoot) indexed fun _ => unindexed.spared_of_apart inside isRoot apart
  refine ⟨final, ?_, indexed'⟩
  rw [Repository.load, unloaded]
  refine bind_ok.mpr ⟨disk, disk, rfl, bind_ok.mpr ⟨_, final, ?_, rfl⟩⟩
  rw [Disk.repositoryFolders_congr (indexed.location? _) fun place leads => indexed.entries place (apart place leads)]
  exact loaded

/-- All repositories are loaded, each as if it were the only one. -/
theorem loadEach_of_unindexed {repositories : List Repository}
    (unindexed : Disk.Unindexed settings start (repositories.map Repository.root)) (inside : settings.IndexInside)
    (unloaded : ∀ repository ∈ repositories, repository.folders = none)
    (indexed : Disk.Indexed written start disk)
    (apart : ∀ repository ∈ repositories, ∀ place, start.location? repository.root = some (.within place) →
      ∀ names, written names → ¬place <+: names ∧ ¬names <+: place) :
    ∃ final, loadEach settings repositories disk =
        (repositories.map (Repository.indexed settings start), final, none) ∧
      ∃ written, Disk.Indexed written start final := by
  induction repositories generalizing disk written with
  | nil => exact ⟨disk, rfl, written, indexed⟩
  | cons first rest ih =>
    have ⟨rootsApart, _⟩ := List.pairwise_cons.mp unindexed.apart
    obtain ⟨middle, loaded, indexed⟩ := load_of_unindexed unindexed inside (by simp) (unloaded first (by simp))
      indexed (apart first (by simp))
    have stillApart : ∀ repository ∈ rest, ∀ place, start.location? repository.root = some (.within place) →
        ∀ names, (written names ∨ first.IndexAt settings start names) → ¬place <+: names ∧ ¬names <+: place := by
      rintro repository member place leads names (old | ⟨folder, isFolder, indexAt⟩)
      · exact apart repository (by simp [member]) place leads names old
      · obtain ⟨held, folderLeads, rfl⟩ := unindexed.place_of_indexAt inside (by simp) isFolder indexAt
        obtain ⟨firstPlace, firstLeads, isBelow⟩ := unindexed.below_of_mem (by simp) isFolder folderLeads
        have below : firstPlace <+: held ++ settings.indexNames := isBelow.trans (List.prefix_append ..)
        have isRoot := List.mem_map_of_mem (f := Repository.root) member
        exact (rootsApart repository.root isRoot).away firstLeads leads below
    obtain ⟨final, others, result⟩ := ih unindexed.tail
      (fun repository member => unloaded repository (by simp [member])) indexed stillApart
    refine ⟨final, ?_, result⟩
    rw [loadEach, loaded]
    simp only [others, List.map_cons]

end Repository
end Requirements
