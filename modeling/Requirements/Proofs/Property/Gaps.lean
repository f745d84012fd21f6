import Requirements.Proofs.Property.Layers

/-! What inheriting comes to, also where siblings repeat a key. Of a layer, a property takes all
entries of its key up to the first that has a type. Only the first property of a key takes
anything, and a new key is appended once: its first entry, filled from the others. -/
namespace Requirements.Property

def ofKey (key : String) (properties : List Property) : List Property :=
  properties.filter (·.key == key)

def upToTyped : List Property → List Property
  | [] => []
  | p :: rest => if p.typeName.isSome then [p] else p :: upToTyped rest

/-- What of all that is offered fills the gap of a property. One that has a type has no gap. -/
def fillers (own : Property) (offered : List Property) : List Property :=
  if own.typeName.isSome then [] else upToTyped offered

/-- Where type and list mark come from: the filler that has a type, which only the last may have. -/
def typedBy (own : Property) (offered : List Property) : Property :=
  ((fillers own offered).find? (·.typeName.isSome)).getD own

/-- The property filled from all that is offered. Its key and its values stay. -/
def filledWith (own : Property) (offered : List Property) : Property :=
  { own with
    typeName := (typedBy own offered).typeName
    listOf := (typedBy own offered).listOf
    presence := (own :: fillers own offered).findSome? presence
    attributes := inherit own.attributes ((fillers own offered).flatMap attributes) }

def firstsBut (seen : List String) : List Property → List Property
  | [] => []
  | p :: rest => if p.key ∈ seen then firstsBut seen rest else p :: firstsBut (p.key :: seen) rest

theorem filledWith_of_no_fillers {own : Property} {offered : List Property} (closed : fillers own offered = []) :
    filledWith own offered = own := by
  cases own with
  | mk key typeName presence value listOf values attributes =>
    cases presence <;> simp [filledWith, typedBy, closed]

theorem filledWith_of_typed {own : Property} (typed : own.typeName.isSome) (offered : List Property) :
    filledWith own offered = own :=
  filledWith_of_no_fillers (if_pos typed)

@[simp] theorem filledWith_nil (own : Property) : filledWith own [] = own := by
  apply filledWith_of_no_fillers
  rw [fillers]
  split <;> rfl

/-- What is offered fills the gap one by one. -/
theorem filledWith_cons (own p : Property) (offered : List Property) :
    filledWith own (p :: offered) = filledWith (filledFrom own p) offered := by
  by_cases typed : own.typeName.isSome
  · rw [filledFrom_of_typed typed, filledWith_of_typed typed, filledWith_of_typed typed]
  have typeless : own.typeName = none := by simpa using typed
  by_cases closes : p.typeName.isSome
  · have filled : (filledFrom own p).typeName.isSome := by
      rwa [filledFrom_of_typeless typeless]
    have last : fillers own (p :: offered) = [p] := by
      rw [fillers, if_neg typed, upToTyped, if_pos closes]
    rw [filledWith_of_typed filled, filledFrom_of_typeless typeless, filledWith, typedBy, last]
    cases given : own.presence <;> cases more : p.presence <;> simp [closes, given, more]
  · have gap : p.typeName = none := by simpa using closes
    have stays : (filledFrom own p).typeName = none := by rwa [filledFrom_of_typeless typeless]
    have here : fillers own (p :: offered) = p :: upToTyped offered := by
      rw [fillers, if_neg typed, upToTyped, if_neg closes]
    have behind : fillers (filledFrom own p) offered = upToTyped offered := by
      rw [fillers, if_neg (by simp [stays])]
    have skipped : (p :: upToTyped offered).find? (·.typeName.isSome) =
        (upToTyped offered).find? (·.typeName.isSome) := by simp [gap]
    rw [filledWith, typedBy, here, filledWith, typedBy, behind, filledFrom_of_typeless typeless, skipped]
    cases given : own.presence <;> cases (upToTyped offered).find? (·.typeName.isSome) <;>
      simp [given, gap, typeless, List.findSome?_cons, inherit_append]

@[simp] theorem ofKey_nil (key : String) : ofKey key [] = [] := rfl

@[simp] theorem ofKey_cons_self (p : Property) (rest : List Property) :
    ofKey p.key (p :: rest) = p :: ofKey p.key rest := by simp [ofKey]

theorem ofKey_cons_of_ne {key : String} {p : Property} (other : p.key ≠ key) (rest : List Property) :
    ofKey key (p :: rest) = ofKey key rest := by simp [ofKey, other]

theorem mem_ofKey {key : String} {properties : List Property} {p : Property} :
    p ∈ ofKey key properties ↔ p ∈ properties ∧ p.key = key := by simp [ofKey]

@[simp] theorem ofKey_without_self (key : String) (properties : List Property) :
    ofKey key (without key properties) = [] := by
  simp [ofKey, without, List.filter_filter]

theorem ofKey_without_of_ne {key other : String} (differ : key ≠ other) (properties : List Property) :
    ofKey key (without other properties) = ofKey key properties := by
  rw [ofKey, without, List.filter_filter]
  refine List.filter_congr fun p _ => ?_
  by_cases same : p.key = key <;> simp [same, differ]

/-- The first property takes the entries of its key, and the others take the rest. -/
theorem inherit_cons_left (p : Property) (own layer : List Property) :
    inherit (p :: own) layer = filledWith p (ofKey p.key layer) :: inherit own (without p.key layer) := by
  induction layer generalizing p own with
  | nil => simp
  | cons q rest ih =>
    rw [inherit_cons]
    by_cases same : p.key = q.key
    · rw [upsert, if_pos same, ih, filledFrom_key, same, ofKey_cons_self, without_cons_self, filledWith_cons]
    · have differ : q.key ≠ p.key := Ne.symm same
      rw [upsert, if_neg same, ih, ofKey_cons_of_ne differ, without_cons_of_ne differ, inherit_cons]

/-- A new key is appended with its first entry, which takes the others. -/
theorem inherit_nil_cons (p : Property) (rest : List Property) :
    inherit [] (p :: rest) = filledWith p (ofKey p.key rest) :: inherit [] (without p.key rest) := by
  rw [inherit_cons, upsert, inherit_cons_left]

theorem firstsBut_congr {seen others : List String} (same : ∀ key, key ∈ seen ↔ key ∈ others)
    (properties : List Property) : firstsBut seen properties = firstsBut others properties := by
  induction properties generalizing seen others with
  | nil => rfl
  | cons p rest ih =>
    have behind : firstsBut (p.key :: seen) rest = firstsBut (p.key :: others) rest :=
      ih fun key => by simp [same]
    simp only [firstsBut, same, ih same, behind]

/-- A seen key is one that might as well be missing. -/
theorem firstsBut_cons (key : String) (seen : List String) (properties : List Property) :
    firstsBut (key :: seen) properties = firstsBut seen (without key properties) := by
  induction properties generalizing seen with
  | nil => rfl
  | cons p rest ih =>
    by_cases same : p.key = key
    · subst same
      rw [firstsBut, if_pos List.mem_cons_self, without_cons_self, ih]
    · have swap : firstsBut (p.key :: key :: seen) rest = firstsBut (key :: p.key :: seen) rest :=
        firstsBut_congr (fun other => by simp [or_left_comm]) rest
      rw [without_cons_of_ne same, firstsBut, firstsBut, swap, ih, ih]
      simp [same]

theorem mem_firstsBut {seen : List String} {properties : List Property} {p : Property}
    (member : p ∈ firstsBut seen properties) : p ∈ properties ∧ p.key ∉ seen := by
  induction properties generalizing seen with
  | nil => cases member
  | cons q rest ih =>
    rw [firstsBut] at member
    split at member
    next => exact ⟨List.mem_cons_of_mem q (ih member).1, (ih member).2⟩
    next unseen =>
      rcases List.mem_cons.mp member with rfl | behind
      · exact ⟨List.mem_cons_self, unseen⟩
      · obtain ⟨inRest, fresh⟩ := ih behind
        exact ⟨List.mem_cons_of_mem q inRest, fun known => fresh (List.mem_cons_of_mem _ known)⟩

/-- What new properties come to does not depend on the entries of other keys. -/
theorem map_firstsBut_without (key : String) (seen : List String) (layer : List Property) :
    (firstsBut seen (without key layer)).map (fun p => filledWith p (ofKey p.key (without key layer)).tail) =
      (firstsBut (key :: seen) layer).map fun p => filledWith p (ofKey p.key layer).tail := by
  rw [firstsBut_cons]
  refine List.map_congr_left fun p member => ?_
  have differs := (mem_without.mp (mem_firstsBut member).1).2
  rw [ofKey_without_of_ne differs]

theorem inherit_nil_left : ∀ layer : List Property,
    inherit [] layer = (firstsBut [] layer).map fun p => filledWith p (ofKey p.key layer).tail
  | [] => by simp [firstsBut]
  | p :: rest => by
    have shorter : (without p.key rest).length ≤ rest.length := List.length_filter_le _ _
    have behind := map_firstsBut_without p.key [] (p :: rest)
    rw [without_cons_self] at behind
    have start : firstsBut [p.key] (p :: rest) = firstsBut [p.key] rest := by simp [firstsBut]
    rw [inherit_nil_cons, inherit_nil_left (without p.key rest), behind, start]
    simp [firstsBut]
  termination_by layer => layer.length

/-- The law of inheriting. Every property stays where it is, and only the first of its key changes:
it is filled from the entries of the layer that have the key. Behind them stands, in the order of the
layer, the first entry of each key that was missing, filled from the later ones. -/
theorem inherit_eq_filledWith (own layer : List Property) :
    inherit own layer =
      (own.mapIdx fun i p =>
        if p.key ∈ (own.take i).map key then p else filledWith p (ofKey p.key layer)) ++
      (firstsBut (own.map key) layer).map fun p => filledWith p (ofKey p.key layer).tail := by
  induction own generalizing layer with
  | nil => exact inherit_nil_left layer
  | cons p own ih =>
    rw [inherit_cons_left, ih, map_firstsBut_without, List.mapIdx_cons, List.map_cons, List.cons_append]
    congr 2
    refine List.mapIdx_eq_mapIdx_iff.mpr fun i inBounds => ?_
    rw [List.take_succ_cons, List.map_cons]
    by_cases same : own[i].key = p.key
    · simp [same]
    · simp [same, ofKey_without_of_ne same]

end Requirements.Property
