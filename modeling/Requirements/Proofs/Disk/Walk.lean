import Mathlib.Data.List.Nodup
import Requirements.Proofs.Disk.Documents

/-! What a walk through a folder meets on a disk whose names can stand in paths: every file, as
long as the paths of the folders on the way to it are of use. -/
namespace Requirements

def IsProper (name : String) : Prop := Path.stepOf? name = some (.into name) ∧ '/' ∉ name.toList

instance (name : String) : Decidable (IsProper name) := inferInstanceAs (Decidable (_ ∧ _))

theorem IsProper.ne_empty {name : String} (isProper : IsProper name) : name ≠ "" := by
  rintro rfl
  cases isProper.1

theorem Path.ofText_of_name {name : String} (noSlash : '/' ∉ name.toList) : ofText name = ⟨[name]⟩ := by
  rw [ofText, pieces, splitAtEach_of_not_mem noSlash]
  simp

namespace Entry

/-- What lies in a folder lies in something that the folder holds. -/
theorem exists_held_of_at? {own first : String} {entries : List Entry} {rest : List String}
    (there : ((folder own entries).at? (first :: rest)).isSome) :
    ∃ held ∈ entries, held.name = first ∧ (folder own entries).at? (first :: rest) = held.at? rest := by
  rw [at?] at there ⊢
  cases found : entries.find? (·.name == first) with
  | none => simp [found] at there
  | some held => exact ⟨held, List.mem_of_find?_eq_some found, by simpa using List.find?_some found, rfl⟩

/-- Folders hold entries of distinct names that can stand in a path. -/
def Sound (entry : Entry) : Prop := ∀ names own entries, entry.at? names = some (.folder own entries) →
  (entries.map name).Nodup ∧ ∀ held ∈ entries, IsProper held.name

theorem sound_file (own : String) (content : Content) (modified : Nat) : Sound (.file own content modified) := by
  intro names _ _ leads
  cases names <;> cases leads

theorem sound_folder {own : String} {entries : List Entry} (distinct : (entries.map name).Nodup)
    (isProper : ∀ held ∈ entries, IsProper held.name) (sound : ∀ held ∈ entries, Sound held) :
    Sound (.folder own entries) := by
  intro names _ _ leads
  cases names with
  | nil =>
    cases leads
    exact ⟨distinct, isProper⟩
  | cons first rest =>
    obtain ⟨held, member, -, same⟩ := exists_held_of_at? (Option.isSome_of_eq_some leads)
    exact sound held member rest _ _ (same.symm.trans leads)

variable {own : String} {entries : List Entry}

theorem Sound.held (sound : Sound (.folder own entries)) {held : Entry} (member : held ∈ entries) :
    entries.find? (·.name == held.name) = some held ∧ held.Sound := by
  have distinct := (sound [] own entries rfl).1
  have found : entries.find? (·.name == held.name) = some held := by
    cases search : entries.find? (·.name == held.name) with
    | none => exact absurd (beq_self_eq_true _) (List.find?_eq_none.mp search held member)
    | some other =>
      have same : other.name = held.name := by simpa using List.find?_some search
      rw [List.inj_on_of_nodup_map distinct (List.mem_of_find?_eq_some search) member same]
  refine ⟨found, fun names inner others leads => sound (held.name :: names) inner others ?_⟩
  rw [at?, found]
  exact leads

theorem visitsByName_eq (path : Path) (entries : List Entry) :
    visitsByName path entries = entries.map fun entry => (entry.name, entry.visits (path.child entry.name)) := by
  induction entries with
  | nil => rfl
  | cons entry rest ih => rw [visitsByName, ih, List.map_cons]

/-- What a walk through a folder meets. -/
theorem mem_visits_folder_iff {path : Path} {visit : Visit} :
    visit ∈ visits path (.folder own entries) ↔
      ¬path.isUsable ∧ visit = .unreadable [] ∨
      path.isUsable ∧ ∃ held ∈ entries, ∃ behind ∈ held.visits (path.child held.name),
        visit = behind.below held.name := by
  rw [visits]
  split
  next usable =>
    simp only [usable, not_true, false_and, false_or, true_and, List.mem_flatMap, mem_sortedBy, visitsByName_eq,
      List.mem_map]
    constructor
    · rintro ⟨_, ⟨held, member, rfl⟩, behind, visited, rfl⟩
      exact ⟨held, member, behind, visited, rfl⟩
    · rintro ⟨held, member, behind, visited, rfl⟩
      exact ⟨_, ⟨held, member, rfl⟩, behind, visited, rfl⟩
  next useless => simp [useless]

theorem mem_visits_folder {path : Path} {names : List String} : .file names ∈ visits path (.folder own entries) ↔
    path.isUsable ∧ ∃ held ∈ entries, ∃ rest, names = held.name :: rest ∧
      .file rest ∈ held.visits (path.child held.name) := by
  rw [mem_visits_folder_iff]
  constructor
  · rintro (⟨-, same⟩ | ⟨usable, held, member, behind, visited, same⟩)
    · cases same
    · cases behind with
      | file rest => exact ⟨usable, held, member, rest, Visit.file.inj same, visited⟩
      | unreadable => cases same
  · rintro ⟨usable, held, member, rest, rfl, visited⟩
    exact .inr ⟨usable, held, member, .file rest, visited, rfl⟩

/-- A walk meets exactly the files that lie behind folders whose paths are of use. -/
theorem mem_visits {entry : Entry} (sound : entry.Sound) {path : Path} {names : List String} :
    .file names ∈ entry.visits path ↔ (entry.at? names).any (fun found => !found.isFolder) ∧
      ∀ front back, names = front ++ back → back ≠ [] → (path.descend front).isUsable := by
  induction names generalizing entry path with
  | nil =>
    cases entry with
    | file => simp [visits, at?, isFolder]
    | folder own entries => simp [mem_visits_folder, at?, isFolder]
  | cons first rest ih =>
    cases entry with
    | file => simp [visits, at?]
    | folder own entries =>
      rw [mem_visits_folder]
      constructor
      · rintro ⟨usable, held, member, _, same, visited⟩
        obtain ⟨rfl, rfl⟩ := List.cons.inj same
        obtain ⟨found, sound⟩ := sound.held member
        obtain ⟨isFile, behind⟩ := (ih sound).mp visited
        refine ⟨by rw [at?, found]; exact isFile, fun front back split notLast => ?_⟩
        cases front with
        | nil => exact usable
        | cons second front =>
          obtain ⟨rfl, rest⟩ := List.cons.inj split
          exact behind front back rest notLast
      · rintro ⟨isFile, usable⟩
        obtain ⟨held, member, rfl, same⟩ := exists_held_of_at? (Option.isSome_of_any isFile)
        rw [same] at isFile
        have visited := (ih (sound.held member).2).mpr ⟨isFile, fun front back split notLast =>
          usable (held.name :: front) back (by rw [split]; rfl) notLast⟩
        exact ⟨usable [] _ rfl (by simp), held, member, rest, rfl, visited⟩

/-- Every name on the way to something can stand in a path. -/
theorem Sound.proper_of_at? {root : Entry} (sound : root.Sound) {names : List String}
    (there : (root.at? names).isSome) : ∀ name ∈ names, IsProper name := by
  induction names generalizing root with
  | nil => simp
  | cons first rest ih =>
    cases root with
    | file => cases there
    | folder own entries =>
      obtain ⟨held, member, rfl, same⟩ := exists_held_of_at? there
      rw [same] at there
      intro name inside
      rcases List.mem_cons.mp inside with rfl | behind
      · exact (sound [] own entries rfl).2 held member
      · exact ih (sound.held member).2 there name behind

theorem Sound.at? {root entry : Entry} (sound : root.Sound) {names : List String}
    (leads : root.at? names = some entry) : entry.Sound := by
  intro more own entries behind
  exact sound (names ++ more) own entries (by rw [at?_append, leads]; exact behind)

end Entry
end Requirements
