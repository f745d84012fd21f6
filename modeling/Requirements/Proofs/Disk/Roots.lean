import Mathlib.Data.List.TakeWhile
import Requirements.Proofs.Disk.Walk

/-! Paths below a root, and where they lead. The path of a folder, as it is found from what the
folder holds, leaves out parts that are no steps; it leads to the same folder. -/
namespace Requirements
namespace Path

/-! ### Paths below a root -/

/-- A text of some of the parts is part of the text of all. -/
theorem intercalate_sublist {first second : List String} (kept : first.Sublist second) :
    ("/".intercalate first).utf8ByteSize ≤ ("/".intercalate second).utf8ByteSize ∧
      ("/".intercalate first).toList.Sublist ("/".intercalate second).toList := by
  induction kept with
  | slnil => exact ⟨le_rfl, List.Sublist.refl _⟩
  | @cons first second part kept ih =>
    cases second with
    | nil =>
      obtain rfl := List.sublist_nil.mp kept
      simp
    | cons next others =>
      rw [String.intercalate_cons_cons, String.utf8ByteSize_append, String.toList_append]
      exact ⟨ih.1.trans (Nat.le_add_left ..), ih.2.trans (List.sublist_append_right ..)⟩
  | @cons_cons first second part kept ih =>
    cases second with
    | nil =>
      obtain rfl := List.sublist_nil.mp kept
      simp
    | cons next others =>
      rw [String.intercalate_cons_cons, String.utf8ByteSize_append, String.toList_append]
      cases first with
      | nil =>
        rw [String.intercalate_singleton, String.utf8ByteSize_append, String.toList_append, List.append_assoc]
        exact ⟨by omega, List.sublist_append_left ..⟩
      | cons other rest =>
        rw [String.intercalate_cons_cons, String.utf8ByteSize_append, String.toList_append]
        exact ⟨Nat.add_le_add_left ih.1 _, ih.2.append_left _⟩

theorem isUsable_of_sublist {first second : Path} (kept : first.parts.Sublist second.parts)
    (usable : second.isUsable) : first.isUsable := by
  obtain ⟨size, characters⟩ := intercalate_sublist kept
  rw [isUsable, Bool.and_eq_true, decide_eq_true_iff, Bool.not_eq_true', List.contains_eq_mem,
    decide_eq_false_iff_not] at usable ⊢
  exact ⟨size.trans usable.1, fun inside => usable.2 (characters.subset inside)⟩

theorem descend_append (root : Path) (names : List String) (name : String) :
    root.descend (names ++ [name]) = (root.descend names).child name := by
  rw [descend, List.foldl_append]
  rfl

theorem base_of_append {path : Path} {front : List String} {name : String} (parts : path.parts = front ++ [name])
    (named : name ≠ "") : path.base = path.parts := by
  rw [base, if_neg]
  simpa [parts] using named

theorem parts_descend (root : Path) {names : List String} (named : ∀ name ∈ names, name ≠ "") (name : String) :
    (root.descend (names ++ [name])).parts = root.base ++ names ++ [name] := by
  induction names using List.reverseRecOn generalizing name with
  | nil => simp [descend, parts_child]
  | append_singleton names last ih =>
    have before := ih (fun other member => named other (by simp [member])) last
    rw [descend_append, parts_child, base_of_append before (named last (by simp)), before]
    simp

theorem base_eq_cons {root : Path} (relative : ¬root.isAbsolute) (written : root.parts ≠ [])
    (notEmpty : root.parts ≠ [""]) :
    ∃ first rest, root.base = first :: rest ∧ first ≠ "" := by
  obtain ⟨parts⟩ := root
  cases parts with
  | nil => exact absurd rfl written
  | cons first rest =>
    cases rest with
    | nil =>
      have named : first ≠ "" := fun empty => notEmpty (by rw [empty])
      exact ⟨first, [], by simp [base, named], named⟩
    | cons second rest =>
      have named : first ≠ "" := by
        rintro rfl
        exact relative rfl
      rw [base]
      split
      · exact ⟨first, _, List.dropLast_cons_of_ne_nil (by simp), named⟩
      · exact ⟨first, _, rfl, named⟩

/-- Only parts that are no steps are dropped. -/
theorem exists_append_trimEnd (parts : List String) :
    ∃ dropped, parts = trimEnd parts ++ dropped ∧ ∀ part ∈ dropped, stepOf? part = none := by
  cases parts with
  | nil => exact ⟨[], rfl, by simp⟩
  | cons first rest =>
    refine ⟨(rest.reverse.takeWhile fun part => (stepOf? part).isNone).reverse, ?_, fun part member => ?_⟩
    · rw [trimEnd, List.cons_append, ← List.reverse_append, List.takeWhile_append_dropWhile, List.reverse_reverse]
    · simpa using List.mem_takeWhile_imp (List.mem_reverse.mp member)

theorem trimEnd_sublist (parts : List String) : (trimEnd parts).Sublist parts := by
  obtain ⟨dropped, split, -⟩ := exists_append_trimEnd parts
  conv_rhs => rw [split]
  exact List.sublist_append_left ..

theorem partsBeforeLast_append {name : String} (step : (stepOf? name).isSome) (front : List String) :
    partsBeforeLast (front ++ [name]) = some front := by
  induction front with
  | nil => simp [partsBeforeLast, step]
  | cons part rest ih => rw [List.cons_append, partsBeforeLast, ih]

/-- A folder below a root, by the path that is found from what it holds. -/
def holder (root : Path) (names : List String) : Path := ⟨trimEnd (root.base ++ names)⟩

theorem holder_sublist_descend (root : Path) {names : List String} (named : ∀ name ∈ names, name ≠ "") :
    (root.holder names).parts.Sublist (root.descend names).parts := by
  refine (trimEnd_sublist _).trans ?_
  induction names using List.reverseRecOn with
  | nil =>
    rw [List.append_nil, descend, List.foldl_nil, base]
    split
    · exact List.dropLast_sublist _
    · exact List.Sublist.refl _
  | append_singleton front last _ =>
    rw [root.parts_descend (fun other member => named other (by simp [member])) last, List.append_assoc]

/-- The last part that is left is a step, or it is the first. -/
theorem base_holder {root : Path} {first : String} {rest names : List String} (begins : root.base = first :: rest)
    (named : first ≠ "") : (root.holder names).base = (root.holder names).parts := by
  rw [base, if_neg]
  rw [holder, begins, List.cons_append, trimEnd]
  cases ends : ((rest ++ names).reverse.dropWhile fun part => (stepOf? part).isNone) with
  | nil => simpa using named
  | cons last front =>
    have isStep := List.head_dropWhile_not (fun part => (stepOf? part).isNone) (l := (rest ++ names).reverse)
      (ends ▸ List.cons_ne_nil last front)
    simp only [ends, List.head_cons] at isStep
    rintro empty
    rw [List.reverse_cons, ← List.cons_append, List.getLastD_concat] at empty
    rw [empty] at isStep
    cases isStep

theorem steps_of_cons {path : Path} {first : String} {rest : List String} (parts : path.parts = first :: rest)
    (named : first ≠ "") : path.steps = (if first = "." then [.here] else []) ++ path.parts.filterMap stepOf? := by
  rw [steps, parts]
  split
  next same => exact absurd (List.cons.inj same).1 named
  next same => simp [(List.cons.inj same).1]
  next notHere =>
    have differ : first ≠ "." := by
      rintro rfl
      exact notHere rest rfl
    rw [if_neg differ]

theorem parent?_of_parts {path : Path} {front : List String} {name first : String} {rest : List String}
    (parts : path.parts = front ++ [name]) (step : stepOf? name = some (.into name)) (begins : front = first :: rest)
    (named : first ≠ "") : path.parent? = some ⟨trimEnd front⟩ := by
  have last : path.steps.getLast? = some (.into name) := by
    rw [steps, parts, List.filterMap_append]
    simp [step]
  rw [parent?, last]
  dsimp only
  rw [parts, partsBeforeLast_append (by simp [step]), Option.getD_some, begins, trimEnd]
  split
  next empty => cases empty
  next empty => exact absurd (List.cons.inj empty).1 named
  next => rfl

theorem relative_of_parts {path : Path} {front : List String} {name first : String} {rest : List String}
    (parts : path.parts = front ++ [name]) (begins : front = first :: rest) (named : first ≠ "") :
    ¬path.isAbsolute := by
  rw [isAbsolute, parts, begins, List.cons_append]
  split
  next same => exact absurd (List.cons.inj same).1 named
  next => simp

/-- The steps of a path but for where it starts from. -/
theorem filterMap_stepOf? (path : Path) :
    path.parts.filterMap stepOf? = path.steps.filter fun step => step != .root && step != .here := by
  have onward : ∀ step ∈ path.parts.filterMap stepOf?, step != .root && step != .here := by
    intro step member
    obtain ⟨part, -, isStep⟩ := List.mem_filterMap.mp member
    rw [stepOf?.eq_def] at isStep
    split at isStep
    all_goals cases isStep
    all_goals rfl
  rw [steps, List.filter_append, List.filter_eq_self.mpr onward]
  split <;> simp

theorem isAbsolute_iff (path : Path) : path.isAbsolute ↔ .root ∈ path.steps := by
  have onward : Step.root ∉ path.parts.filterMap stepOf? := by
    rw [filterMap_stepOf?]
    simp
  rw [isAbsolute, steps, List.mem_append, or_iff_left onward]
  split <;> split <;> simp_all

end Path

def Location.after : Location → Path.Step → Location
  | .within names, .into name => .within (names ++ [name])
  | .within names, .up => if names = [] then .above else .within names.dropLast
  | location, _ => location

namespace Disk

theorem follow_above (root : Entry) (parts : List String) {names : List String} :
    follow root .above parts ≠ some (.within names) := by
  induction parts with
  | nil => simp [follow]
  | cons part rest ih =>
    rw [follow]
    split
    · simp
    · exact ih

/-- Parts that are no steps lead nowhere else. -/
theorem follow_of_no_steps {root : Entry} {location reached : Location} {parts : List String}
    (none : ∀ part ∈ parts, Path.stepOf? part = none) (leads : follow root location parts = some reached) :
    location = reached := by
  induction parts with
  | nil => simpa [follow] using leads
  | cons part rest ih =>
    have step := none part (by simp)
    have behind := ih fun other member => none other (by simp [member])
    cases location with
    | above =>
      rw [follow, step] at leads
      exact behind leads
    | within names =>
      rw [follow_within, step] at leads
      split at leads
      · exact behind leads
      · cases leads

/-- Where parts lead depends on the steps among them. -/
theorem eq_of_follow {root : Entry} {location reached : Location} {parts : List String}
    (leads : follow root location parts = some reached) :
    reached = (parts.filterMap Path.stepOf?).foldl Location.after location := by
  induction parts generalizing location with
  | nil => exact (Option.some.inj leads).symm
  | cons part rest ih =>
    rw [List.filterMap_cons]
    cases location with
    | above =>
      rw [follow] at leads
      cases step : Path.stepOf? part with
      | none =>
        rw [step] at leads
        exact ih leads
      | some way =>
        cases way with
        | into => simp [step] at leads
        | root | here | up =>
          rw [step] at leads
          exact ih leads
    | within names =>
      rw [follow_within] at leads
      split at leads
      next =>
        cases step : Path.stepOf? part with
        | none =>
          rw [step] at leads
          exact ih leads
        | some way =>
          rw [step] at leads
          cases way with
          | into | up => exact ih leads
          | root | here => cases leads
      next => cases leads

/-- Paths of the same steps that lead somewhere lead to the same place. -/
theorem location?_of_same {disk : Disk} {first second : Path} (same : first.same second) {here there : Location}
    (leads : disk.location? first = some here) (leadsToo : disk.location? second = some there) : here = there := by
  have steps : first.steps = second.steps := by simpa [Path.same] using same
  have starts : start first = start second := by
    have absolute := (first.isAbsolute_iff.trans (by rw [steps])).trans second.isAbsolute_iff.symm
    rw [start, start, Bool.eq_iff_iff.mpr absolute]
  rw [location?] at leads leadsToo
  split at leads
  next =>
    split at leadsToo
    next =>
      rw [eq_of_follow leads, eq_of_follow leadsToo, starts, Path.filterMap_stepOf?, Path.filterMap_stepOf?, steps]
    next => cases leadsToo
  next => cases leads

theorem file?_of_same {disk : Disk} {first second : Path} (same : first.same second)
    (isFile : (disk.file? first).isSome) (isFileToo : (disk.file? second).isSome) :
    disk.file? first = disk.file? second := by
  rw [file?, entry?] at isFile isFileToo ⊢
  rw [file?, entry?]
  cases leads : disk.location? first with
  | none => simp [leads] at isFile
  | some here =>
    cases leadsToo : disk.location? second with
    | none => simp [leadsToo] at isFileToo
    | some there => rw [location?_of_same same leads leadsToo]

/-- Names that something stands behind are followed. -/
theorem follow_names {root : Entry} {front names : List String} (there : (root.at? (front ++ names)).isSome)
    (proper : ∀ name ∈ names, IsProper name) :
    follow root (.within front) names = some (.within (front ++ names)) := by
  induction names generalizing front with
  | nil => simp [follow]
  | cons name rest ih =>
    have isFolder : (root.at? front).any Entry.isFolder := by
      by_contra notFolder
      rw [Entry.at?_of_not_folder notFolder] at there
      cases there
    rw [follow_within, if_pos isFolder, (proper name (by simp)).1]
    dsimp only
    rw [ih (by simpa using there) fun other member => proper other (by simp [member])]
    simp

theorem isUsable_of_location? {disk : Disk} {path : Path} {location : Location}
    (leads : disk.location? path = some location) : path.isUsable := by
  rw [location?] at leads
  split at leads
  next allowed => exact (Bool.and_eq_true_iff.mp allowed).1
  next => cases leads

structure Rooted (disk : Disk) (root : Path) (place : List String) : Prop where
  written : root.parts ≠ []
  leads : disk.location? root = some (.within place)

namespace Rooted

variable {disk : Disk} {root : Path} {place : List String}

theorem relative (rooted : Rooted disk root place) : ¬root.isAbsolute := by
  intro absolute
  have leads := rooted.leads
  rw [location?, start, if_pos absolute] at leads
  split at leads
  · exact follow_above _ _ leads
  · cases leads

theorem base_eq_cons (rooted : Rooted disk root place) :
    ∃ first rest, root.base = first :: rest ∧ first ≠ "" := by
  refine Path.base_eq_cons rooted.relative rooted.written fun empty => ?_
  have leads := rooted.leads
  rw [location?, empty] at leads
  simp at leads

theorem follow_base (rooted : Rooted disk root place) :
    follow disk.root (.within []) root.base = some (.within place) := by
  have leads := rooted.leads
  rw [location?, start, if_neg rooted.relative] at leads
  split at leads
  next =>
    rw [Path.base]
    split
    next last =>
      have split : root.parts = root.parts.dropLast ++ [""] := by
        rw [List.getLastD_eq_getLast?, List.getLast?_eq_some_getLast rooted.written, Option.getD_some] at last
        rw [← last, List.dropLast_append_getLast]
      rw [split, follow_append] at leads
      obtain ⟨reached, led, leads⟩ := Option.bind_eq_some_iff.mp leads
      rw [led, follow_of_no_steps (by simp [Path.stepOf?]) leads]
    next => exact leads
  next => cases leads

theorem follow_holder (rooted : Rooted disk root place) {names : List String}
    (there : (disk.root.at? (place ++ names)).isSome) (proper : ∀ name ∈ names, IsProper name) :
    follow disk.root (.within []) (root.holder names).parts = some (.within (place ++ names)) := by
  have whole : follow disk.root (.within []) (root.base ++ names) = some (.within (place ++ names)) := by
    rw [follow_append, rooted.follow_base, Option.bind_some, follow_names there proper]
  obtain ⟨dropped, split, none⟩ := Path.exists_append_trimEnd (root.base ++ names)
  rw [split, follow_append] at whole
  obtain ⟨reached, led, leads⟩ := Option.bind_eq_some_iff.mp whole
  rw [Path.holder, led, follow_of_no_steps none leads]

theorem parts_holder (rooted : Rooted disk root place) (names : List String) :
    ∃ first rest, (root.holder names).parts = first :: rest ∧ first ≠ "" := by
  obtain ⟨first, rest, begins, named⟩ := rooted.base_eq_cons
  exact ⟨first, _, by rw [Path.holder, begins, List.cons_append, Path.trimEnd], named⟩

theorem location?_holder (rooted : Rooted disk root place) {names : List String}
    (there : (disk.root.at? (place ++ names)).isSome) (proper : ∀ name ∈ names, IsProper name)
    (usable : (root.holder names).isUsable) :
    disk.location? (root.holder names) = some (.within (place ++ names)) := by
  obtain ⟨first, rest, begins, named⟩ := rooted.parts_holder names
  have notEmpty : (root.holder names).parts != [""] := by
    rw [begins, bne_iff_ne]
    exact fun same => named (List.cons.inj same).1
  have relative : ¬(root.holder names).isAbsolute := by
    rw [Path.isAbsolute, begins]
    split
    next same => exact absurd (List.cons.inj same).1 named
    next => simp
  rw [location?, usable, notEmpty, start, if_neg relative, rooted.follow_holder there proper]
  rfl

end Rooted

/-- A path whose last part is a name leads on by it from where its other parts lead. -/
theorem location?_of_parts {disk : Disk} {path : Path} {front names : List String} {name : String}
    (parts : path.parts = front ++ [name]) (relative : ¬path.isAbsolute) (usable : path.isUsable)
    (led : follow disk.root (.within []) front = some (.within names))
    (isFolder : (disk.root.at? names).any Entry.isFolder) (proper : IsProper name) :
    disk.location? path = some (.within (names ++ [name])) := by
  have notEmpty : path.parts != [""] := by
    rw [bne_iff_ne, parts]
    intro same
    exact proper.ne_empty (List.append_singleton_inj.mp (same.trans (List.nil_append [""]).symm)).2
  rw [location?, usable, notEmpty, start, if_neg relative, parts, follow_append, led, Option.bind_some, follow_within,
    if_pos isFolder, proper.1]
  simp [follow]

namespace Rooted

variable {disk : Disk} {root : Path} {place : List String}

theorem parts_child_holder (rooted : Rooted disk root place) (names : List String) (name : String) :
    ((root.holder names).child name).parts = (root.holder names).parts ++ [name] := by
  obtain ⟨first, rest, begins, named⟩ := rooted.base_eq_cons
  rw [Path.parts_child, Path.base_holder begins named]

/-- What a folder holds is found by the folder's path. -/
theorem location?_child_holder (rooted : Rooted disk root place) {names : List String} {name : String}
    (isFolder : (disk.root.at? (place ++ names)).any Entry.isFolder) (proper : ∀ name ∈ names, IsProper name)
    (isProper : IsProper name) (usable : ((root.holder names).child name).isUsable) :
    disk.location? ((root.holder names).child name) = some (.within (place ++ names ++ [name])) := by
  obtain ⟨first, rest, begins, named⟩ := rooted.parts_holder names
  have parts := rooted.parts_child_holder names name
  exact location?_of_parts parts (Path.relative_of_parts parts begins named) usable
    (rooted.follow_holder (Option.isSome_of_any isFolder) proper) isFolder isProper

/-- The walk's path of a file leads where its folder's path and its name lead. -/
theorem location?_descend (rooted : Rooted disk root place) {names : List String} {name : String}
    (isFolder : (disk.root.at? (place ++ names)).any Entry.isFolder) (proper : ∀ name ∈ names, IsProper name)
    (isProper : IsProper name) (usable : (root.descend (names ++ [name])).isUsable) :
    disk.location? (root.descend (names ++ [name])) = some (.within (place ++ names ++ [name])) := by
  obtain ⟨first, rest, begins, named⟩ := rooted.base_eq_cons
  have parts := root.parts_descend (fun other member => (proper other member).ne_empty) name
  refine location?_of_parts parts (Path.relative_of_parts parts (by rw [begins]; rfl) named) usable ?_ isFolder isProper
  rw [follow_append, rooted.follow_base, Option.bind_some, follow_names (Option.isSome_of_any isFolder) proper]

theorem parent?_descend (rooted : Rooted disk root place) {names : List String} {name : String}
    (proper : ∀ name ∈ names, IsProper name) (isProper : IsProper name) :
    (root.descend (names ++ [name])).parent? = some (root.holder names) := by
  obtain ⟨first, rest, begins, named⟩ := rooted.base_eq_cons
  have parts := root.parts_descend (fun other member => (proper other member).ne_empty) name
  exact Path.parent?_of_parts parts isProper.1 (by rw [begins]; rfl) named

theorem steps_holder (rooted : Rooted disk root place) {names : List String}
    (proper : ∀ name ∈ names, IsProper name) :
    (root.holder names).steps = (root.holder []).steps ++ names.map .into := by
  obtain ⟨first, rest, begins, named⟩ := rooted.base_eq_cons
  have kept (parts : List String) : (Path.trimEnd parts).filterMap Path.stepOf? = parts.filterMap Path.stepOf? := by
    obtain ⟨dropped, split, none⟩ := Path.exists_append_trimEnd parts
    conv_rhs => rw [split, List.filterMap_append, List.filterMap_eq_nil_iff.mpr none, List.append_nil]
  have into : names.filterMap Path.stepOf? = names.map .into := by
    induction names with
    | nil => rfl
    | cons name rest ih =>
      rw [List.filterMap_cons, (proper name (by simp)).1, ih fun other member => proper other (by simp [member])]
      rfl
  have start (names : List String) : ∃ behind, (root.holder names).parts = first :: behind := by
    exact ⟨_, by rw [Path.holder, begins, List.cons_append, Path.trimEnd]⟩
  obtain ⟨_, own⟩ := start names
  obtain ⟨_, top⟩ := start []
  rw [Path.steps_of_cons own named, Path.steps_of_cons top named, Path.holder, Path.holder, kept, kept,
    List.append_nil, List.filterMap_append, into, ← List.append_assoc]

end Rooted
end Disk
end Requirements
