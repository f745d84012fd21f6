import Requirements.Proofs.Document.Weight
import Requirements.Proofs.Repository.Writing
import Requirements.Proofs.Resolution.Runs

/-! What there is to meet. Whatever a resolution comes to read was on the disk before, so every
element that it meets has the key and the calls of one in a stock that can be told beforehand. The
stock weighs less than the bound of the state. -/
namespace Requirements

def Familiar (stock : List Element) (element : Element) : Prop :=
  ∃ known ∈ stock, known.key = element.key ∧ known.calls = element.calls

theorem weightBut_cons_le (key : Element.Key) (met : List Element.Key) (stock : List Element) :
    weightBut (key :: met) stock ≤ weightBut met stock := by
  induction stock with
  | nil => exact Nat.le_refl 0
  | cons element rest ih =>
    rw [weightBut, weightBut]
    by_cases seen : element.key ∈ met
    · rw [if_pos seen, if_pos (List.mem_cons_of_mem key seen)]
      omega
    · rw [if_neg seen]
      split <;> omega

/-- Whoever is met first takes itself and its calls out of what is left. -/
theorem weightBut_cons_add_le {met : List Element.Key} {stock : List Element} {element : Element}
    (familiar : Familiar stock element) (fresh : element.key ∉ met) :
    weightBut (element.key :: met) stock + (1 + element.calls.length) ≤ weightBut met stock := by
  obtain ⟨known, member, key, calls⟩ := familiar
  induction stock with
  | nil => cases member
  | cons first rest ih =>
    rw [weightBut, weightBut]
    rcases List.mem_cons.mp member with rfl | behind
    · have less := weightBut_cons_le element.key met rest
      rw [if_pos (by simp [key]), if_neg (key ▸ fresh), calls]
      omega
    · have less := ih behind
      by_cases seen : first.key ∈ met
      · rw [if_pos seen, if_pos (List.mem_cons_of_mem _ seen)]
        omega
      · rw [if_neg seen]
        split <;> omega

theorem weightBut_congr {met others : List Element.Key} (same : ∀ key, key ∈ met ↔ key ∈ others)
    (stock : List Element) : weightBut met stock = weightBut others stock := by
  induction stock with
  | nil => rfl
  | cons element rest ih => simp only [weightBut, ih, same]

def declaredIn (text : String) : List Element :=
  match Document.parse text "" with
  | .ok document => document.elements
  | .error _ => []

theorem weightBut_declaredIn_le (text : String) : weightBut [] (declaredIn text) ≤ text.utf8ByteSize := by
  rw [declaredIn]
  split
  next document parsed => exact document.weight_eq ▸ Document.weight_parse_le parsed
  next => exact Nat.zero_le _

namespace Resolution

/-- Every element that stands in the project, was read or can be read is like this. -/
structure Throughout (alike : Element → Prop) (state : Resolution) : Prop where
  placed : ∀ place element, state.project.element? place = some element → alike element
  read : ∀ element, state.Read element → alike element
  readable : ∀ text ∈ state.workspace.disk.root.texts, ∀ file document,
    Document.parse text file = .ok document → ∀ element ∈ document.elements, alike element

section

variable {settings : Settings} {alike : Element → Prop} {start final : Resolution}

theorem Throughout.imp {other : Element → Prop} (throughout : start.Throughout alike)
    (implies : ∀ element, alike element → other element) : start.Throughout other where
  placed place element stands := implies element (throughout.placed place element stands)
  read element read := implies element (throughout.read element read)
  readable text held file document parsed element declared :=
    implies element (throughout.readable text held file document parsed element declared)

theorem Throughout.report (throughout : start.Throughout alike) (entry : Report) :
    (start.report entry).Throughout alike :=
  ⟨throughout.placed, throughout.read, throughout.readable⟩

theorem Throughout.push (throughout : start.Throughout alike) {added : Element} (isAlike : alike added) :
    (start.push added).Throughout alike where
  placed place element stands := by
    cases place with
    | authored index => exact throughout.placed (.authored index) element stands
    | dependency index =>
      rcases dependency_push stands with stood | ⟨-, rfl⟩
      · exact throughout.placed _ _ stood
      · exact isAlike
  read := throughout.read
  readable := throughout.readable

theorem Throughout.following (outlined : ∀ {a b : Element}, a.outline = b.outline → alike a → alike b)
    (throughout : start.Throughout alike) (step : Following settings start final) : final.Throughout alike := by
  cases step with
  | loaded kind id domain =>
    refine ⟨throughout.placed, throughout.read, fun text held file document parsed element declared => ?_⟩
    have outcome : Outcome _ _ (Workspace.find settings kind id domain start.workspace) :=
      Workspace.outcome_find kind id domain start.workspace
    have adds : start.workspace.disk.AddsIndices
        (stateAfter (Workspace.find settings kind id domain start.workspace)).disk := by
      cases found : Workspace.find settings kind id domain start.workspace with
      | ok => exact (found ▸ outcome :)
      | error => exact (found ▸ outcome :).2
    rcases adds text held with old | ⟨index, rfl⟩
    · exact throughout.readable text old file document parsed element declared
    · rw [FolderIndex.elements_of_parse_text parsed] at declared
      cases declared
  | opened reads =>
    refine ⟨throughout.placed, fun element ⟨path, document, member, declared⟩ => ?_, throughout.readable⟩
    rcases List.mem_append.mp member with old | new
    · exact throughout.read element ⟨path, document, old, declared⟩
    · obtain ⟨text, found, parsed⟩ := Disk.parse_ok.mp reads
      obtain ⟨rfl, rfl⟩ := Prod.mk.inj (List.mem_singleton.mp new)
      exact throughout.readable text (Disk.mem_texts_of_read? found) _ _ parsed element declared
  | used place =>
    refine ⟨fun other element stands => ?_, throughout.read, throughout.readable⟩
    rw [Project.element?_modify] at stands
    split at stands
    · obtain ⟨former, stood, rfl⟩ := Option.map_eq_some_iff.mp stands
      exact outlined (a := former) rfl (throughout.placed _ former stood)
    · exact throughout.placed _ _ stands
  | @drawn element read => exact throughout.push (outlined (a := element) rfl (throughout.read element read))
  | reported entry => exact throughout.report entry

theorem Throughout.follows (outlined : ∀ {a b : Element}, a.outline = b.outline → alike a → alike b)
    (throughout : start.Throughout alike) (follows : Follows settings start final) : final.Throughout alike := by
  induction follows with
  | refl => exact throughout
  | tail _ step ih => exact ih.following outlined step

end

theorem familiar_of_outline {stock : List Element} {a b : Element} (alike : a.outline = b.outline)
    (familiar : Familiar stock a) : Familiar stock b := by
  obtain ⟨known, member, key, calls⟩ := familiar
  exact ⟨known, member, key.trans (Element.key_eq alike), calls.trans (congrArg Element.calls alike :)⟩

/-- The elements of the project, of the documents read, and of the texts on the disk. -/
def stock (state : Resolution) : List Element :=
  state.project.authored.elements ++ (state.project.dependencies.elements ++
    (state.parsed.flatMap (·.2.elements) ++ state.workspace.disk.root.texts.flatMap declaredIn))

theorem throughout_stock (state : Resolution) : state.Throughout (Familiar state.stock) where
  placed place element stands := by
    refine ⟨element, ?_, rfl, rfl⟩
    cases place with
    | authored index => exact List.mem_append_left _ (List.mem_of_getElem? stands)
    | dependency index =>
      exact List.mem_append_right _ (List.mem_append_left _ (List.mem_of_getElem? stands))
  read element read := by
    obtain ⟨path, document, member, declared⟩ := read
    refine ⟨element, ?_, rfl, rfl⟩
    refine List.mem_append_right _ (List.mem_append_right _ (List.mem_append_left _ ?_))
    exact List.mem_flatMap.mpr ⟨(path, document), member, declared⟩
  readable text held file document parsed element declared := by
    obtain ⟨renamed, parsedSo, same⟩ := Document.parse_file parsed ""
    refine ⟨{ element with file := "" }, ?_, rfl, rfl⟩
    refine List.mem_append_right _ (List.mem_append_right _ (List.mem_append_right _ ?_))
    refine List.mem_flatMap.mpr ⟨text, held, ?_⟩
    rw [declaredIn, parsedSo]
    exact same element declared

/-- The stock weighs less than the bound. -/
theorem foldl_weight (parsed : List (Path × Document)) (weight : Nat) :
    parsed.foldl (fun weight file => weight + file.2.weight) weight =
      weight + weightBut [] (parsed.flatMap (·.2.elements)) := by
  induction parsed generalizing weight with
  | nil => simp [weightBut]
  | cons first rest ih =>
    rw [List.foldl_cons, ih, List.flatMap_cons, weightBut_append, ← Document.weight_eq, Nat.add_assoc]

theorem weightBut_texts_le (texts : List String) :
    weightBut [] (texts.flatMap declaredIn) ≤ Entry.sizeOfTexts texts := by
  induction texts with
  | nil => exact Nat.le_refl 0
  | cons text rest ih =>
    have one := weightBut_declaredIn_le text
    rw [List.flatMap_cons, weightBut_append, Entry.sizeOfTexts]
    omega

theorem weight_stock_lt (state : Resolution) : weightBut [] state.stock < state.bound := by
  have texts := weightBut_texts_le state.workspace.disk.root.texts
  have read := foldl_weight state.parsed 0
  have bounds : state.bound = state.project.authored.weight + state.project.dependencies.weight +
      state.parsed.foldl (fun weight file => weight + file.2.weight) 0 + state.workspace.disk.root.textSize + 1 := rfl
  rw [bounds, read, stock, weightBut_append, weightBut_append, weightBut_append, Document.weight_eq,
    Document.weight_eq, Entry.textSize_eq]
  omega

end Resolution
end Requirements
