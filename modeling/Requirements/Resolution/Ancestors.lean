import Requirements.Property.Inherit
import Requirements.Resolution.State

/-! Ancestors, parents, features and types. An element inherits from the chain of its
ancestors, nearest first, then from each feature it uses and that feature's chain.
Parents and types are resolved with their chains, and give nothing. -/
namespace Requirements.Resolving

/-- Follows ancestors from the element at `current`. An ancestor whose key was visited
closes a cycle; one that cannot be resolved ends the chain with a report about the
element the walk began with. -/
def chainFrom (settings : Settings) (origin : Element) :
    Nat → List Element.Key → List String → Place → Element → Resolving (List Place)
  | 0, _, _, _, _ => throw .stepsExhausted
  | steps + 1, visited, names, current, element =>
    match element.ancestor with
    | none => return []
    | some reference => do
      match ← resolve settings element.kind.related reference (some current) with
      | none =>
        report (.ancestorMissing reference origin.name) origin.name origin.file
        return []
      | some (place, ancestor) =>
        let names := names ++ [ancestor.name.text]
        if visited.contains ancestor.key then throw (.cycle .ancestor names)
        else
          let visited := ancestor.key :: visited
          return place :: (← chainFrom settings origin steps visited names place ancestor)

def chain (settings : Settings) (start : Place) (element : Element) :
    Resolving (List Place) := do
  let state ← get
  chainFrom settings element state.bound [element.key] [element.name.text] start element

def inheritProperties (index : Nat) (place : Place) : Resolving Unit :=
  modify fun state =>
    match state.project.element? place with
    | none => state
    | some layer => state.modifyAuthored index fun e =>
      { e with properties := Property.inherit e.properties layer.properties }

def addFeatures (own more : List QualifiedName) : List QualifiedName :=
  more.foldl (fun features feature =>
    if features.contains feature then features else features ++ [feature]) own

def inheritFeatures (index : Nat) (place : Place) : Resolving Unit :=
  modify fun state =>
    match state.project.element? place with
    | none => state
    | some layer => state.modifyAuthored index fun e =>
      { e with features := addFeatures e.features layer.features }

def resolveAncestors (settings : Settings) (index : Nat) (element : Element) : Resolving Unit := do
  let ancestors ← chain settings (.authored index) element
  ancestors.forM fun place => do
    inheritProperties index place
    inheritFeatures index place

def parent? (element : Element) : Option QualifiedName :=
  if element.kind.declaresType then element.parent else none

def resolveParent (settings : Settings) (index : Nat) (element : Element) : Resolving Unit :=
  match parent? element with
  | none => return
  | some parent => do
    match ← resolve settings element.kind.related parent (some (.authored index)) with
    | some (place, found) => discard (chain settings place found)
    | none => report (.parentMissing parent element.name) element.name element.file

def resolveFeature (settings : Settings) (index : Nat) (user : Element)
    (feature : QualifiedName) : Resolving Unit := do
  match ← resolve settings [.feature] feature none with
  | none => report (.featureMissing feature user.name) user.name user.file
  | some (place, found) =>
    let ancestors ← chain settings place found
    (place :: ancestors).forM (inheritProperties index)

/-- Does something with the authored element at the index, as it is by then. -/
def withAuthored (visit : Nat → Element → Resolving Unit) (index : Nat) : Resolving Unit := do
  match (← get).project.authored.elements[index]? with
  | some element => visit index element
  | none => return

def overAuthored (visit : Nat → Element → Resolving Unit) : Resolving Unit := do
  (List.range (← get).project.authored.elements.length).forM (withAuthored visit)

def resolveLineage (settings : Settings) (index : Nat) (element : Element) : Resolving Unit := do
  resolveAncestors settings index element
  resolveParent settings index element

def resolveFeatures (settings : Settings) (index : Nat) (element : Element) : Resolving Unit :=
  element.features.forM (resolveFeature settings index element)

/-- Resolves the class or entity of a type name. Of one from a repository the ancestors
are resolved too; one that is declared nowhere is left alone. -/
def resolveType (settings : Settings) (typeName : String) : Resolving Unit := do
  let reference := QualifiedName.parse typeName
  match ← resolve settings ElementKind.classType.related reference none with
  | some (.dependency index, found) => discard (chain settings (.dependency index) found)
  | _ => return

def namedTypes (settings : Settings) (authored : Document) : List String :=
  let named := authored.elements.flatMap Element.typeNames
  (named.filter fun typeName => !settings.isBuiltin typeName).eraseDups

def resolveTypes (settings : Settings) : Resolving Unit := do
  (namedTypes settings (← get).project.authored).forM (resolveType settings)

end Requirements.Resolving
