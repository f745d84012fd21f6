import Requirements.Proofs.Disk.Places

/-! The texts on a disk. What is read is one of them, and what is written is the only one that a
write adds. -/
namespace Requirements
namespace Entry

mutual

def texts : Entry → List String
  | file _ (.text text) _ => [text]
  | file _ .binary _ => []
  | folder _ entries => textsOf entries

def textsOf : List Entry → List String
  | [] => []
  | entry :: rest => texts entry ++ textsOf rest

end

def sizeOfTexts : List String → Nat
  | [] => 0
  | text :: rest => text.utf8ByteSize + sizeOfTexts rest

theorem sizeOfTexts_append (first second : List String) :
    sizeOfTexts (first ++ second) = sizeOfTexts first + sizeOfTexts second := by
  induction first with
  | nil => simp [sizeOfTexts]
  | cons text rest ih =>
    rw [List.cons_append, sizeOfTexts, sizeOfTexts, ih, Nat.add_assoc]

mutual

theorem textSize_eq : ∀ entry : Entry, entry.textSize = sizeOfTexts entry.texts
  | file _ (.text text) _ => by simp [textSize, texts, sizeOfTexts]
  | file _ .binary _ => by simp [textSize, texts, sizeOfTexts]
  | folder _ entries => by rw [textSize, texts, textSizes_eq entries]

theorem textSizes_eq : ∀ entries : List Entry, textSizes entries = sizeOfTexts (textsOf entries)
  | [] => by simp [textSizes, textsOf, sizeOfTexts]
  | entry :: rest => by
    rw [textSizes, textsOf, sizeOfTexts_append, textSize_eq entry, textSizes_eq rest]

end

theorem mem_textsOf {text : String} {entries : List Entry} :
    text ∈ textsOf entries ↔ ∃ entry ∈ entries, text ∈ entry.texts := by
  induction entries with
  | nil => simp [textsOf]
  | cons entry rest ih => simp [textsOf, ih]

theorem texts_at? {names : List String} {root entry : Entry} (found : root.at? names = some entry) {text : String}
    (held : text ∈ entry.texts) : text ∈ root.texts := by
  induction names generalizing root with
  | nil =>
    obtain rfl := Option.some.inj found
    exact held
  | cons name names ih =>
    cases root with
    | file => cases found
    | folder own entries =>
      obtain ⟨child, isChild, below⟩ := Option.bind_eq_some_iff.mp found
      rw [texts]
      exact mem_textsOf.mpr ⟨child, List.mem_of_find?_eq_some isChild, ih below⟩

/-- If the change of a folder adds no other texts, neither does the change of the whole. -/
theorem texts_alter {change : List Entry → List Entry} (added : String → Prop)
    (adds : ∀ entries, ∀ text ∈ textsOf (change entries), text ∈ textsOf entries ∨ added text)
    {names : List String} {root : Entry} {text : String} (held : text ∈ (root.alter change names).texts) :
    text ∈ root.texts ∨ added text := by
  induction names generalizing root with
  | nil =>
    cases root with
    | file =>
      rw [alter] at held
      exact .inl held
    | folder own entries =>
      rw [alter, texts] at held
      rw [texts]
      exact adds entries text held
  | cons name names ih =>
    cases root with
    | file =>
      rw [alter] at held
      exact .inl held
    | folder own entries =>
      rw [alter, texts] at held
      obtain ⟨_, changed, held⟩ := mem_textsOf.mp held
      obtain ⟨child, isChild, rfl⟩ := List.mem_map.mp changed
      rw [texts]
      have inside : text ∈ child.texts ∨ added text := by
        split at held
        · exact ih held
        · exact .inl held
      exact inside.imp_left fun old => mem_textsOf.mpr ⟨child, isChild, old⟩

theorem texts_put {entry : Entry} {entries : List Entry} {text : String} (held : text ∈ textsOf (put entry entries)) :
    text ∈ textsOf entries ∨ text ∈ entry.texts := by
  obtain ⟨holder, isHolder, held⟩ := mem_textsOf.mp held
  rw [put] at isHolder
  split at isHolder
  · obtain ⟨old, isOld, rfl⟩ := List.mem_map.mp isHolder
    split at held
    · exact .inr held
    · exact .inl (mem_textsOf.mpr ⟨old, isOld, held⟩)
  · rcases List.mem_append.mp isHolder with isOld | isNew
    · exact .inl (mem_textsOf.mpr ⟨holder, isOld, held⟩)
    · exact .inr (List.mem_singleton.mp isNew ▸ held)

end Entry

namespace Disk

theorem mem_texts_of_read? {disk : Disk} {path : Path} {text : String} (reads : disk.read? path = some text) :
    text ∈ disk.root.texts := by
  rw [read?] at reads
  split at reads
  next name own modified found =>
    obtain rfl := Option.some.inj reads
    unfold Disk.entry? at found
    split at found
    next names _ => exact Entry.texts_at? found (by simp [Entry.texts])
    next => cases found
    next => cases found
  next => cases reads

theorem texts_write? {disk after : Disk} {path : Path} {written : String}
    (wrote : disk.write? path written = some after) {text : String} (held : text ∈ after.root.texts) :
    text ∈ disk.root.texts ∨ text = written := by
  rw [write?, store?] at wrote
  obtain ⟨⟨names, name⟩, -, stored⟩ := Option.bind_eq_some_iff.mp wrote
  dsimp only at stored
  split at stored
  next => cases stored
  next =>
    obtain rfl := Option.some.inj stored
    refine Entry.texts_alter (· = written) (fun entries other inside => ?_) held
    exact (Entry.texts_put inside).imp_right fun new => by simpa [Entry.texts] using new

end Disk
end Requirements
