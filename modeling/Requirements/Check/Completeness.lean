import Requirements.Finding
import Requirements.Project
import Requirements.Settings

/-! Nothing is left open in a resolved project: a property without attributes has a type,
and actions without an owner are reported. -/
namespace Requirements
namespace Property

def pathBelow (above key : String) : String := if above.isEmpty then key else above ++ "." ++ key

mutual

/-- Gives leaves without a type the given one; also the paths of those leaves. -/
def assumeTypes (typeName above : String) : Property → Property × List String
  | ⟨key, own, presence, value, listOf, values, attributes⟩ =>
    let path := pathBelow above key
    match attributes with
    | [] =>
      (⟨key, own <|> some typeName, presence, value, listOf, values, []⟩,
        if own.isNone then [path] else [])
    | first :: rest =>
      let (first, firstPaths) := assumeTypes typeName path first
      let (rest, restPaths) := assumeTypesOf typeName path rest
      (⟨key, own, presence, value, listOf, values, first :: rest⟩, firstPaths ++ restPaths)

def assumeTypesOf (typeName above : String) : List Property → List Property × List String
  | [] => ([], [])
  | p :: rest =>
    let (p, paths) := assumeTypes typeName above p
    let (rest, restPaths) := assumeTypesOf typeName above rest
    (p :: rest, paths ++ restPaths)

end

end Property

/-- Every property but events and layouts gets its types. -/
def Element.assumeTypes (typeName : String) (element : Element) : Element × List Report :=
  let outcomes := element.properties.map fun p =>
    if p.namesNoTypes then (p, []) else p.assumeTypes typeName ""
  ({ element with properties := outcomes.map (·.1) },
    (outcomes.flatMap (·.2)).map fun path =>
      (Finding.typeAssumed path element.name typeName).reportOn element.name element.file)

def Document.assumeTypes (typeName : String) (document : Document) : Document × List Report :=
  let outcomes := document.elements.map (·.assumeTypes typeName)
  ({ document with elements := outcomes.map (·.1) }, outcomes.flatMap (·.2))

/-- Assumes types, authored elements first, then reports actions without an owner. -/
def Project.completed (settings : Settings) (project : Project) : Project × List Report :=
  let (authored, authoredReports) := project.authored.assumeTypes settings.propertyType
  let (dependencies, dependencyReports) := project.dependencies.assumeTypes settings.propertyType
  let completed : Project := ⟨authored, dependencies⟩
  let orphans := completed.ownerless.filterMap completed.element?
  (completed, authoredReports ++ dependencyReports ++ orphans.map fun action =>
    (Finding.ownerMissing action.name).reportOn action.name action.file)

end Requirements
