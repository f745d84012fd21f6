import Mathlib.Data.List.Forall2
import Requirements.Check.Completeness
import Requirements.Proofs.Resolution.Growth

/-! What completing a project comes to. Each leaf that stands open below a property that may name
types is given the assumed type and reported once, in the order in which a reader meets them. -/
namespace Requirements
namespace Property

/-- Keys from the top-level property down with dots between, where empty keys in front are
left out. -/
def dotted (keys : List String) : String := ".".intercalate (keys.dropWhile String.isEmpty)

mutual

/-- The property and then everything below it, each with the keys that lead to it. -/
def listing (above : List String) : Property → List (List String × Property)
  | ⟨key, typeName, presence, value, listOf, values, attributes⟩ =>
    (above ++ [key], ⟨key, typeName, presence, value, listOf, values, attributes⟩) ::
      listingOf (above ++ [key]) attributes

def listingOf (above : List String) : List Property → List (List String × Property)
  | [] => []
  | p :: rest => listing above p ++ listingOf above rest

end

/-- Nothing but a type can be said of the property, and no type is. -/
def isOpen (p : Property) : Bool := p.attributes.isEmpty && p.isTypeless

/-- The second tree is the first where open leaves have the type. -/
inductive Filled (typeName : String) : Property → Property → Prop
  | leaf {p : Property} : p.attributes = [] →
      Filled typeName p { p with typeName := p.typeName <|> some typeName }
  | compound {p : Property} {filled : List Property} : p.attributes ≠ [] →
      List.Forall₂ (Filled typeName) p.attributes filled →
      Filled typeName p { p with attributes := filled }

theorem dropWhile_isEmpty_eq_nil {keys : List String} (empty : dotted keys = "") :
    keys.dropWhile String.isEmpty = [] := by
  match split : keys.dropWhile String.isEmpty with
  | [] => rfl
  | first :: rest =>
    have head : first.isEmpty = false := by
      have kept := List.head_dropWhile_not String.isEmpty (l := keys) (by simp [split])
      simpa [split] using kept
    rw [dotted, split] at empty
    cases rest with
    | nil => simp_all
    | cons second rest => simp_all [String.append_eq_empty_iff]

/-- Paths are built key by key. -/
theorem pathBelow_dotted (keys : List String) (key : String) :
    pathBelow (dotted keys) key = dotted (keys ++ [key]) := by
  by_cases empty : dotted keys = ""
  · have none : keys.dropWhile String.isEmpty = [] := dropWhile_isEmpty_eq_nil empty
    have last : dotted (keys ++ [key]) = key := by
      rw [dotted, List.dropWhile_append, none]
      by_cases blank : key = "" <;> simp [blank]
    rw [last, empty]
    rfl
  · have some : keys.dropWhile String.isEmpty ≠ [] := by
      intro none
      exact empty (by rw [dotted, none, String.intercalate_nil])
    rw [pathBelow, if_neg (by simpa using empty), dotted, dotted, List.dropWhile_append,
      if_neg (by simpa using some), String.intercalate_append_of_ne_nil some (by simp),
      String.intercalate_singleton]

mutual

theorem filled_assumeTypes (typeName above : String) (p : Property) :
    Filled typeName p (assumeTypes typeName above p).1 := by
  match p with
  | ⟨key, own, presence, value, listOf, values, []⟩ => exact .leaf rfl
  | ⟨key, own, presence, value, listOf, values, first :: rest⟩ =>
    have below := filled_assumeTypesOf typeName (pathBelow above key) (first :: rest)
    exact .compound (by simp) below

theorem filled_assumeTypesOf (typeName above : String) (properties : List Property) :
    List.Forall₂ (Filled typeName) properties (assumeTypesOf typeName above properties).1 := by
  cases properties with
  | nil => exact .nil
  | cons p rest =>
    exact .cons (filled_assumeTypes typeName above p) (filled_assumeTypesOf typeName above rest)

end

mutual

/-- The paths are those of the open leaves, as they are listed. -/
theorem paths_assumeTypes (typeName : String) (above : List String) (p : Property) :
    (assumeTypes typeName (dotted above) p).2 =
      ((listing above p).filter (·.2.isOpen)).map (dotted ·.1) := by
  match p with
  | ⟨key, none, presence, value, listOf, values, []⟩ =>
    simp [assumeTypes, listing, listingOf, isOpen, isTypeless, pathBelow_dotted]
  | ⟨key, some own, presence, value, listOf, values, []⟩ =>
    simp [assumeTypes, listing, listingOf, isOpen, isTypeless]
  | ⟨key, own, presence, value, listOf, values, first :: rest⟩ =>
    have below := paths_assumeTypesOf typeName (above ++ [key]) (first :: rest)
    have closed : isOpen ⟨key, own, presence, value, listOf, values, first :: rest⟩ = false := by
      simp [isOpen]
    rw [listing, List.filter_cons, if_neg (by simp [closed]), ← below, ← pathBelow_dotted]
    rfl

theorem paths_assumeTypesOf (typeName : String) (above : List String) (properties : List Property) :
    (assumeTypesOf typeName (dotted above) properties).2 =
      ((listingOf above properties).filter (·.2.isOpen)).map (dotted ·.1) := by
  cases properties with
  | nil => rfl
  | cons p rest =>
    have first := paths_assumeTypes typeName above p
    have others := paths_assumeTypesOf typeName above rest
    rw [listingOf, List.filter_append, List.map_append, ← first, ← others]
    rfl

end

theorem key_assumeTypes (typeName above : String) (p : Property) :
    (assumeTypes typeName above p).1.key = p.key := by
  match p with
  | ⟨key, own, presence, value, listOf, values, []⟩ => rfl
  | ⟨key, own, presence, value, listOf, values, first :: rest⟩ => rfl

mutual

theorem assumeTypes_again (typeName other above below : String) (p : Property) :
    assumeTypes other below (assumeTypes typeName above p).1 =
      ((assumeTypes typeName above p).1, []) := by
  match p with
  | ⟨key, own, presence, value, listOf, values, []⟩ => cases own <;> rfl
  | ⟨key, own, presence, value, listOf, values, first :: rest⟩ =>
    have again := assumeTypesOf_again typeName other (pathBelow above key) (pathBelow below key)
      (first :: rest)
    simp only [assumeTypesOf, Prod.mk.injEq, List.cons.injEq, List.append_eq_nil_iff] at again
    simp [assumeTypes, again]

theorem assumeTypesOf_again (typeName other above below : String) (properties : List Property) :
    assumeTypesOf other below (assumeTypesOf typeName above properties).1 =
      ((assumeTypesOf typeName above properties).1, []) := by
  cases properties with
  | nil => rfl
  | cons p rest =>
    have first := assumeTypes_again typeName other above below p
    have others := assumeTypesOf_again typeName other above below rest
    simp [assumeTypesOf, first, others]

end

end Property

namespace Element

def typable (element : Element) : List (List String × Property) :=
  Property.listingOf [] (element.properties.filter (!·.namesNoTypes))

def assumptions (typeName : String) (element : Element) : List Report :=
  (element.typable.filter (·.2.isOpen)).map fun (keys, _) =>
    (Finding.typeAssumed (Property.dotted keys) element.name typeName).reportOn element.name
      element.file

/-- Only properties differ, and of these only open leaves that may name a type. -/
structure Filled (typeName : String) (before after : Element) : Prop where
  rest : { after with properties := before.properties } = before
  properties : List.Forall₂ (fun p filled =>
    if p.namesNoTypes then filled = p else p.Filled typeName filled) before.properties after.properties

def isOrphan (element : Element) : Bool := element.kind == .action && element.owner.isNone

theorem filled_assumeTypes (typeName : String) (element : Element) :
    element.Filled typeName (element.assumeTypes typeName).1 := by
  refine ⟨rfl, ?_⟩
  simp only [assumeTypes, List.map_map, List.forall₂_map_right_iff, List.forall₂_same]
  intro p _
  by_cases apart : p.namesNoTypes
  · simp [apart]
  · simp [apart, Property.filled_assumeTypes]

theorem reports_assumeTypes (typeName : String) (element : Element) :
    (element.assumeTypes typeName).2 = element.assumptions typeName := by
  have paths : ∀ properties : List Property,
      (properties.flatMap fun p =>
        (if p.namesNoTypes then (p, []) else p.assumeTypes typeName "").2) =
      ((Property.listingOf [] (properties.filter (!·.namesNoTypes))).filter (·.2.isOpen)).map
        (Property.dotted ·.1) := by
    intro properties
    induction properties with
    | nil => rfl
    | cons p rest ih =>
      have first := Property.paths_assumeTypes typeName [] p
      by_cases apart : p.namesNoTypes
      · simpa [apart] using ih
      · have start : Property.dotted [] = "" := rfl
        rw [start] at first
        simp [apart, ih, first, Property.listingOf]
  rw [assumeTypes, assumptions, typable]
  simp only [List.flatMap_map, paths, List.map_map, Function.comp_def]

theorem assumeTypes_again (typeName other : String) (element : Element) :
    (element.assumeTypes typeName).1.assumeTypes other = ((element.assumeTypes typeName).1, []) := by
  have again : ∀ p : Property,
      let once := (if p.namesNoTypes then (p, []) else p.assumeTypes typeName "").1
      (if once.namesNoTypes then (once, []) else once.assumeTypes other "") = (once, []) := by
    intro p
    by_cases apart : p.namesNoTypes
    · simp [apart]
    · have same : (p.assumeTypes typeName "").1.namesNoTypes = p.namesNoTypes := by
        rw [Property.namesNoTypes, Property.namesNoTypes, Property.key_assumeTypes]
      simp [apart, same, Property.assumeTypes_again]
  simp [assumeTypes, Function.comp_def, again]

/-- No leaf of a completed element is open. -/
theorem typed_of_assumeTypes {typeName : String} {element : Element} {keys : List String}
    {p : Property} (listed : (keys, p) ∈ (element.assumeTypes typeName).1.typable)
    (leaf : p.attributes = []) : p.typeName.isSome := by
  have reports := (element.assumeTypes typeName).1.reports_assumeTypes typeName
  rw [assumeTypes_again, assumptions] at reports
  have closed : p.isOpen = false := by
    have none := List.map_eq_nil_iff.mp reports.symm
    simpa using List.filter_eq_nil_iff.mp none _ listed
  simpa [Property.isOpen, Property.isTypeless, leaf, ← Option.not_isSome] using closed

end Element

namespace Document

/-- Element by element, only open leaves differ. -/
structure Filled (typeName : String) (before after : Document) : Prop where
  rest : { after with elements := before.elements } = before
  elements : List.Forall₂ (Element.Filled typeName) before.elements after.elements

theorem filled_assumeTypes (typeName : String) (document : Document) :
    document.Filled typeName (document.assumeTypes typeName).1 := by
  refine ⟨rfl, ?_⟩
  simp only [assumeTypes, List.map_map, List.forall₂_map_right_iff, List.forall₂_same]
  exact fun element _ => element.filled_assumeTypes typeName

theorem reports_assumeTypes (typeName : String) (document : Document) :
    (document.assumeTypes typeName).2 = document.elements.flatMap (·.assumptions typeName) := by
  simp only [assumeTypes, List.flatMap_map, Element.reports_assumeTypes]

theorem assumeTypes_again (typeName other : String) (document : Document) :
    (document.assumeTypes typeName).1.assumeTypes other =
      ((document.assumeTypes typeName).1, []) := by
  simp [assumeTypes, Function.comp_def, Element.assumeTypes_again]

theorem typed_of_assumeTypes {typeName : String} {document : Document} {element : Element}
    (member : element ∈ (document.assumeTypes typeName).1.elements) {keys : List String}
    {p : Property} (listed : (keys, p) ∈ element.typable) (leaf : p.attributes = []) :
    p.typeName.isSome := by
  simp only [assumeTypes, List.map_map, List.mem_map, Function.comp_apply] at member
  obtain ⟨before, _, rfl⟩ := member
  exact Element.typed_of_assumeTypes listed leaf

end Document

namespace Project

def orphanages (project : Project) : List Report :=
  ((project.authored.elements ++ project.dependencies.elements).filter (·.isOrphan)).map fun action =>
    (Finding.ownerMissing action.name).reportOn action.name action.file

/-- What completing makes of a project, and what it reports. -/
structure Completes (settings : Settings) (before after : Project) (reports : List Report) : Prop where
  authored : before.authored.Filled settings.propertyType after.authored
  dependencies : before.dependencies.Filled settings.propertyType after.dependencies
  typed : ∀ element ∈ after.authored.elements ++ after.dependencies.elements,
    ∀ keys p, (keys, p) ∈ element.typable → p.attributes = [] → p.typeName.isSome
  reports : reports =
    (before.authored.elements ++ before.dependencies.elements).flatMap
      (·.assumptions settings.propertyType) ++ before.orphanages

theorem map_placed (project : Project) :
    project.placed.map (·.2) = project.authored.elements ++ project.dependencies.elements := by
  simp [placed, List.mapIdx_eq_zipIdx_map, Function.comp_def]

theorem filterMap_ownerless (project : Project) :
    project.ownerless.filterMap project.element? =
      (project.authored.elements ++ project.dependencies.elements).filter (·.isOrphan) := by
  have there : ∀ placed ∈ project.placed.filter (·.2.isOrphan),
      project.element? placed.1 = some placed.2 := by
    intro placed member
    exact mem_placed.mp (List.mem_of_mem_filter member)
  calc project.ownerless.filterMap project.element?
      = (project.placed.filter (·.2.isOrphan)).filterMap fun placed => project.element? placed.1 := by
        rw [ownerless, List.filterMap_map]; rfl
    _ = (project.placed.filter (·.2.isOrphan)).filterMap fun placed => some placed.2 :=
        List.filterMap_congr there
    _ = (project.placed.map (·.2)).filter (·.isOrphan) := by
        rw [List.filterMap_eq_map', List.filter_map]; rfl
    _ = _ := by rw [map_placed]

/-- Types are no matter of owners. -/
theorem orphanages_assumeTypes (typeName : String) (project : Project) :
    orphanages ⟨(project.authored.assumeTypes typeName).1, (project.dependencies.assumeTypes typeName).1⟩ =
      project.orphanages := by
  have same : ∀ document : Document,
      ((document.assumeTypes typeName).1.elements.filter (·.isOrphan)).map
        (fun action => (Finding.ownerMissing action.name).reportOn action.name action.file) =
      (document.elements.filter (·.isOrphan)).map
        fun action => (Finding.ownerMissing action.name).reportOn action.name action.file := by
    intro document
    simp only [Document.assumeTypes, List.map_map, List.filter_map]
    rfl
  simp only [orphanages, List.filter_append, List.map_append, same]

theorem reports_completed (settings : Settings) (project : Project) :
    (project.completed settings).2 =
      (project.authored.elements ++ project.dependencies.elements).flatMap
        (·.assumptions settings.propertyType) ++ project.orphanages := by
  have orphans := orphanages_assumeTypes settings.propertyType project
  rw [orphanages, ← filterMap_ownerless] at orphans
  rw [List.flatMap_append, ← Document.reports_assumeTypes, ← Document.reports_assumeTypes, ← orphans]
  rfl

/-- Completing warns and never fails. -/
theorem hasErrors_completed (settings : Settings) (project : Project) :
    Report.hasErrors (project.completed settings).2 = false := by
  rw [reports_completed, Report.hasErrors, List.any_eq_false]
  intro report member
  rcases List.mem_append.mp member with assumed | orphaned
  · obtain ⟨element, _, assumed⟩ := List.mem_flatMap.mp assumed
    obtain ⟨_, _, rfl⟩ := List.mem_map.mp assumed
    simp [Finding.severity]
  · obtain ⟨action, _, rfl⟩ := List.mem_map.mp orphaned
    simp [Finding.severity]

/-- Completing gives every open leaf its type and reports each once, after that the actions without
an owner; it adds no error, and a second time it assumes nothing. -/
theorem completed_completes (settings : Settings) (project : Project) (earlier : List Report) :
    project.Completes settings (project.completed settings).1 (project.completed settings).2 ∧
    Report.hasErrors (earlier ++ (project.completed settings).2) = Report.hasErrors earlier ∧
    (project.completed settings).1.completed settings =
      ((project.completed settings).1, project.orphanages) := by
  refine ⟨⟨project.authored.filled_assumeTypes _, project.dependencies.filled_assumeTypes _, ?_,
    reports_completed settings project⟩, ?_, ?_⟩
  · intro element member keys p listed leaf
    rcases List.mem_append.mp member with authored | dependency
    · exact Document.typed_of_assumeTypes authored listed leaf
    · exact Document.typed_of_assumeTypes dependency listed leaf
  · have quiet := hasErrors_completed settings project
    rw [Report.hasErrors] at quiet
    simp [Report.hasErrors, quiet]
  · have project_again : (project.completed settings).1.completed settings =
        ((project.completed settings).1, (project.completed settings).1.orphanages) := by
      have orphans := filterMap_ownerless (project.completed settings).1
      simp only [completed, Document.assumeTypes_again, List.nil_append] at orphans ⊢
      rw [orphans]
      rfl
    rw [project_again, completed, orphanages_assumeTypes]

def blankKeyed : Element where
  kind := .classType
  name := ⟨"A", none⟩
  properties := [{ key := "", attributes := [{ key := "a" }] }]

/-- An empty key in front leaves no trace in the path of a report. -/
theorem completed_below_empty_key :
    blankKeyed.typable.map (·.1) = [[""], ["", "a"]] ∧
    (completed {} { authored := { elements := [blankKeyed] } }).2.map (·.message) =
      ["Property 'a' of 'A' has no type, using String"] ∧
    ".".intercalate ["", "a"] = ".a" := by
  decide

end Project
end Requirements
