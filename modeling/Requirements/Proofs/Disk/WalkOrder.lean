import Requirements.Proofs.Disk.Folders

/-! The order of a walk. Siblings are met by their names, and what a folder holds where the folder stands
among its siblings. That is the order of whole paths, step by step: what is below `a` comes before
`a.reqm`. -/
namespace Requirements

/-! ### The order of a walk -/

def Visit.names : Visit → List String
  | file names => names
  | unreadable names => names

theorem Visit.names_of_file? {visit : Visit} {names : List String} (isFile : visit.file? = some names) :
    visit.names = names := by
  cases visit with
  | file => exact Option.some.inj isFile
  | unreadable => cases isFile

@[simp] theorem Visit.names_below (name : String) (visit : Visit) :
    (visit.below name).names = name :: visit.names := by
  cases visit <;> rfl

namespace Entry

/-- Siblings come in the order of their names. -/
theorem pairwise_sorted_visitsByName {own : String} {entries : List Entry} (sound : Sound (.folder own entries))
    (path : Path) : (sortedBy (fun a b => a.1 < b.1) (visitsByName path entries)).Pairwise fun a b => a.1 < b.1 := by
  have sorted : (sortedBy (fun a b => a.1 < b.1) (visitsByName path entries)).Pairwise fun a b => a.1 ≤ b.1 :=
    pairwise_sortedBy (fun _ _ => decide_eq_true_iff) _
  have distinct : ((sortedBy (fun a b => a.1 < b.1) (visitsByName path entries)).map (·.1)).Nodup := by
    refine ((sortedBy_perm _ _).map _).nodup_iff.mpr ?_
    rw [visitsByName_eq, List.map_map]
    exact (sound [] own entries rfl).1
  exact (sorted.and (List.pairwise_map.mp distinct)).imp fun both => lt_of_le_of_ne both.1 both.2

mutual

/-- A walk meets what it meets in the order of the names that lead there. -/
theorem pairwise_visits (path : Path) : ∀ entry : Entry, entry.Sound →
    (entry.visits path).Pairwise fun a b => a.names < b.names
  | file .., _ => List.pairwise_singleton _ _
  | folder own entries, sound => by
    rw [visits]
    split
    next =>
      refine List.pairwise_flatMap.mpr ⟨fun pair member => ?_, (pairwise_sorted_visitsByName sound path).imp ?_⟩
      · have within := pairwise_visitsByName path entries (fun held isHeld => (sound.held isHeld).2) pair
          (mem_sortedBy.mp member)
        exact List.pairwise_map.mpr (within.imp fun less => by simpa using less)
      · intro first second less visit isFirst other isSecond
        obtain ⟨_, -, rfl⟩ := List.mem_map.mp isFirst
        obtain ⟨_, -, rfl⟩ := List.mem_map.mp isSecond
        simpa using List.cons_lt_cons_iff.mpr (.inl less)
    next => exact List.pairwise_singleton _ _

theorem pairwise_visitsByName (path : Path) : ∀ entries : List Entry, (∀ held ∈ entries, held.Sound) →
    ∀ pair ∈ visitsByName path entries, pair.2.Pairwise fun a b => a.names < b.names
  | [], _ => by simp [visitsByName]
  | entry :: rest, sound => by
    obtain ⟨here, behind⟩ := List.forall_mem_cons.mp sound
    rw [visitsByName]
    exact List.forall_mem_cons.mpr ⟨pairwise_visits _ entry here, pairwise_visitsByName path rest behind⟩

end

variable {entry found : Entry} {path : Path} {names : List String}

/-- A folder that a walk does not enter has a path that is of no use. -/
theorem closed_of_unreadable (sound : entry.Sound) (visited : .unreadable names ∈ entry.visits path) :
    (entry.at? names).any isFolder ∧ ¬(path.descend names).isUsable := by
  induction names generalizing entry path with
  | nil =>
    cases entry with
    | file => simp [visits] at visited
    | folder own entries =>
      rcases mem_visits_folder_iff.mp visited with ⟨useless, -⟩ | ⟨-, held, -, behind, -, same⟩
      · exact ⟨rfl, useless⟩
      · cases behind <;> cases same
  | cons first rest ih =>
    cases entry with
    | file => simp [visits] at visited
    | folder own entries =>
      rcases mem_visits_folder_iff.mp visited with ⟨-, same⟩ | ⟨-, held, member, behind, within, same⟩
      · cases same
      cases behind with
      | file => cases same
      | unreadable others =>
        obtain ⟨rfl, rfl⟩ := List.cons.inj (Visit.unreadable.inj same)
        obtain ⟨isHeld, soundHeld⟩ := sound.held member
        obtain ⟨isFolder, useless⟩ := ih soundHeld within
        exact ⟨by rw [at?, isHeld]; exact isFolder, useless⟩

/-- What lies below is met by a walk, or it is a folder that is entered, unless a folder on the way is not. -/
theorem visited_or_closed (sound : entry.Sound) (leads : entry.at? names = some found) :
    (∃ front, front <+: names ∧ .unreadable front ∈ entry.visits path) ∨
      found.isFolder ∧ (path.descend names).isUsable ∨ ¬found.isFolder ∧ .file names ∈ entry.visits path := by
  induction names generalizing entry path with
  | nil =>
    obtain rfl := Option.some.inj leads
    cases entry with
    | file => exact .inr (.inr ⟨by simp [isFolder], by simp [visits]⟩)
    | folder own entries =>
      by_cases usable : path.isUsable
      · exact .inr (.inl ⟨rfl, usable⟩)
      · exact .inl ⟨[], List.prefix_rfl, mem_visits_folder_iff.mpr (.inl ⟨usable, rfl⟩)⟩
  | cons first rest ih =>
    cases entry with
    | file => cases leads
    | folder own entries =>
      by_cases usable : path.isUsable
      · obtain ⟨held, member, rfl, same⟩ := exists_held_of_at? (Option.isSome_of_eq_some leads)
        have enters {behind : Visit} (visited : behind ∈ held.visits (path.child held.name)) :
            behind.below held.name ∈ visits path (.folder own entries) :=
          mem_visits_folder_iff.mpr (.inr ⟨usable, held, member, behind, visited, rfl⟩)
        rcases ih (sound.held member).2 (same.symm.trans leads) with
          ⟨front, begins, visited⟩ | entered | ⟨isFile, visited⟩
        · exact .inl ⟨held.name :: front, List.cons_prefix_cons.mpr ⟨rfl, begins⟩, enters visited⟩
        · exact .inr (.inl entered)
        · exact .inr (.inr ⟨isFile, enters visited⟩)
      · exact .inl ⟨[], List.nil_prefix, mem_visits_folder_iff.mpr (.inl ⟨usable, rfl⟩)⟩

end Entry

/-! ### The order of paths -/

theorem append_lt_append_left_iff {α : Type} [LinearOrder α] (front first second : List α) :
    front ++ first < front ++ second ↔ first < second := by
  induction front with
  | nil => rfl
  | cons item rest ih => simpa using ih

theorem le_of_prefix {α : Type} [LinearOrder α] {front whole : List α} (begins : front <+: whole) :
    front ≤ whole := by
  obtain ⟨back, rfl⟩ := begins
  refine le_of_not_gt fun less => List.not_lt_nil back ?_
  exact (append_lt_append_left_iff front back []).mp (by simpa using less)

theorem map_lt_map_iff {α β : Type} [LinearOrder α] [LinearOrder β] {f : α → β} (strict : StrictMono f)
    (first second : List α) : first.map f < second.map f ↔ first < second := by
  induction first generalizing second with
  | nil => cases second <;> simp
  | cons item rest ih =>
    cases second with
    | nil => simp
    | cons other others =>
      rw [List.map_cons, List.map_cons, List.cons_lt_cons_iff, List.cons_lt_cons_iff, strict.lt_iff_lt,
        strict.injective.eq_iff, ih]

namespace Disk

variable {disk : Disk} {folder : Path} {place : List String}

namespace Rooted

/-- A path that ends in a name has no parts to drop at its end. -/
theorem descend_eq_holder (rooted : Rooted disk folder place) {names : List String}
    (proper : ∀ name ∈ names, IsProper name) (notRoot : names ≠ []) :
    folder.descend names = folder.holder names := by
  obtain ⟨first, rest, begins, -⟩ := rooted.base_eq_cons
  obtain ⟨front, last, rfl⟩ : ∃ front last, names = front ++ [last] :=
    ⟨_, _, (List.dropLast_append_getLast notRoot).symm⟩
  have isStep := (proper last (by simp)).1
  have named : ∀ name ∈ front, name ≠ "" := fun name member => (proper name (by simp [member])).ne_empty
  have whole : Path.trimEnd (folder.base ++ (front ++ [last])) = folder.base ++ (front ++ [last]) := by
    rw [begins, List.cons_append, Path.trimEnd]
    simp [isStep]
  rw [Path.holder, whole, ← List.append_assoc, ← folder.parts_descend named last]

/-- Below a folder paths come in the order of the names that lead there. -/
theorem descend_before_iff (rooted : Rooted disk folder place) {first second : List String}
    (proper : ∀ name ∈ first, IsProper name) (properToo : ∀ name ∈ second, IsProper name)
    (notRoot : first ≠ []) (notRootToo : second ≠ []) :
    (folder.descend first).before (folder.descend second) ↔ first < second := by
  have strict : StrictMono fun name => (Path.Step.into name).code := by
    intro a b less
    simpa [Path.Step.code, Prod.Lex.toLex_lt_toLex] using less
  rw [Path.before_iff, Path.key, Path.key, rooted.descend_eq_holder proper notRoot,
    rooted.descend_eq_holder properToo notRootToo, rooted.steps_holder proper, rooted.steps_holder properToo,
    List.map_append, List.map_append, List.map_map, List.map_map, append_lt_append_left_iff]
  exact map_lt_map_iff strict first second

end Rooted

def below? (disk : Disk) (folder : Path) (names : List String) : Option Entry :=
  (disk.entry? folder).bind (Entry.at? names)

section

variable {entry : Entry} (leads : disk.entry? folder = some entry)
include leads

theorem below?_of_leads (names : List String) : disk.below? folder names = entry.at? names := by
  rw [below?, leads, Option.bind_some]

theorem visits_of_leads : disk.visits folder = entry.visits folder := by rw [visits, leads]

end

/-- A folder is one on the disk, or one above it that holds nothing. -/
theorem exists_of_isFolder (sound : disk.root.Sound) (isFolder : disk.isFolder folder) : ∃ own entries,
    disk.entry? folder = some (.folder own entries) ∧ Entry.Sound (.folder own entries) ∧ folder.isUsable := by
  rw [Disk.isFolder] at isFolder
  cases leads : disk.entry? folder with
  | none => simp [leads] at isFolder
  | some entry =>
    rw [leads] at isFolder
    cases entry with
    | file => cases isFolder
    | folder own entries =>
      unfold entry? at leads
      cases located : disk.location? folder with
      | none => simp [located] at leads
      | some location =>
        have usable := isUsable_of_location? located
        rw [located] at leads
        cases location with
        | within place => exact ⟨own, entries, rfl, sound.at? leads, usable⟩
        | above =>
          cases leads
          exact ⟨"", [], rfl, Entry.sound_folder (by simp) (by simp) (by simp), usable⟩

/-- The order of names is that of whole paths. -/
theorem descend_before_iff (sound : disk.root.Sound) (written : folder.parts ≠ []) {first second : List String}
    (there : (disk.below? folder first).isSome) (thereToo : (disk.below? folder second).isSome)
    (notRoot : first ≠ []) (notRootToo : second ≠ []) :
    (folder.descend first).before (folder.descend second) ↔ first < second := by
  rw [below?, entry?] at there thereToo
  cases located : disk.location? folder with
  | none => simp [located] at there
  | some location =>
    rw [located] at there thereToo
    cases location with
    | above =>
      cases first with
      | nil => exact absurd rfl notRoot
      | cons => simp [Entry.at?] at there
    | within place =>
      have proper {names : List String} (there : (((disk.root.at? place).bind (Entry.at? names))).isSome) :
          ∀ name ∈ names, IsProper name := by
        rw [← Entry.at?_append] at there
        exact fun name member => sound.proper_of_at? there name (by simp [member])
      have rooted : Rooted disk folder place := ⟨written, located⟩
      exact rooted.descend_before_iff (proper there) (proper thereToo) notRoot notRootToo

end Disk
end Requirements
