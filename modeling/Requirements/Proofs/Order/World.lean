import Requirements.Proofs.Property.Settling
import Requirements.Proofs.Resolution.Inheritance

/-! What declarations determine, in whatever order they stand: the chain of an element, the
features it is given, and the properties it has in the end. All of it is stated of the
elements as they were declared, with no state and no place. -/
namespace Requirements

/-- The elements that may be met while a project is resolved, as they were declared. -/
structure World where
  authored : Element → Prop
  library : Element → Prop

def Element.PointsAt (element other : Element) : Prop :=
  ∃ reference, element.ancestor = some reference ∧ other.isDesignated element.kind.related reference

/-- A property at some depth may name a view by the key. -/
inductive Property.Mentions (key : String) : List Property → Prop
  | here {p : Property} {properties : List Property} (member : p ∈ properties) (names : p.namesView)
      (same : p.key = key) : Mentions key properties
  | inside {p : Property} {properties : List Property} (member : p ∈ properties)
      (mentions : Mentions key p.attributes) : Mentions key properties

theorem Property.namesIn_of_mentions {keys : String → Prop} {properties : List Property}
    (all : ∀ key, Mentions key properties → keys key) : NamesIn keys properties := by
  refine everywhere_iff.mpr fun p member => ⟨fun names => all _ (.here member names rfl), ?_⟩
  have smaller := sizeOf_attributes_of_mem member
  exact namesIn_of_mentions fun key mentions => all key (.inside member mentions)
  termination_by sizeOf properties

namespace World

def Declares (world : World) (element : Element) : Prop :=
  world.authored element ∨ world.library element

/-- The elements that the element inherits from, nearest first. One that is designated by its
own reference has no ancestor, unless the reference designates another as well. -/
inductive ChainOf (world : World) : Element → List Element → Prop
  | last {element : Element}
      (only : ∀ other, world.Declares other → element.PointsAt other → other = element) :
      ChainOf world element []
  | step {element above : Element} {rest : List Element} (declared : world.Declares above)
      (points : element.PointsAt above) (apart : ¬element.PointsAt element)
      (behind : ChainOf world above rest) : ChainOf world element (above :: rest)

def Merged (world : World) (element merged : Element) : Prop :=
  ∃ layers, world.ChainOf element layers ∧ merged = layers.foldl Element.inherit element

def Uses (world : World) (feature : QualifiedName) : Prop :=
  ∃ user layers, world.authored user ∧ world.ChainOf user layers ∧
    ∃ layer ∈ user :: layers, feature ∈ layer.features

/-- The elements that give their properties for a feature. -/
inductive Gives (world : World) (feature : QualifiedName) : List Element → Prop
  | missing (unknown : ∀ element, world.Declares element → ¬element.isDesignated [.feature] feature) :
      Gives world feature []
  | found {element : Element} {above : List Element} (declared : world.Declares element)
      (designated : element.isDesignated [.feature] feature) (chain : world.ChainOf element above) :
      Gives world feature (element :: above)

inductive GivenBy (world : World) : List QualifiedName → List Element → Prop
  | nil : GivenBy world [] []
  | cons {feature : QualifiedName} {rest : List QualifiedName} {first layers : List Element}
      (gives : world.Gives feature first) (others : GivenBy world rest layers) :
      GivenBy world (feature :: rest) (first ++ layers)

def Shows (world : World) (key : String) : Prop :=
  ∃ element, world.Declares element ∧ (element.kind = .view ∨ element.kind = .feature) ∧
    Property.Mentions key element.properties

/-- What may be asked while the project is resolved. -/
inductive Asks (world : World) : List ElementKind → QualifiedName → Prop
  | ancestor {element : Element} {reference : QualifiedName} (declared : world.Declares element)
      (refers : element.ancestor = some reference) : Asks world element.kind.related reference
  | feature {reference : QualifiedName} (uses : world.Uses reference) :
      Asks world [.feature] reference
  | view {key : String} (shows : world.Shows key) : Asks world [.view] (.parse key)

/-- What was reported to lead nowhere. -/
inductive Missed (world : World) (reports : List Report) : List ElementKind → QualifiedName → Prop
  | ancestor {origin : Element} {reference : QualifiedName} (declared : world.Declares origin)
      (reported : (Finding.ancestorMissing reference origin.name).reportOn origin.name origin.file ∈
        reports) : Missed world reports origin.kind.related reference
  | feature {user : Element} {reference : QualifiedName} (declared : world.authored user)
      (reported : (Finding.featureMissing reference user.name).reportOn user.name user.file ∈
        reports) : Missed world reports [.feature] reference
  | view {view : Element} {key : String} (declared : world.authored view)
      (reported : (Finding.viewMissing key view.name).reportOn view.name view.file ∈ reports) :
      Missed world reports [.view] (.parse key)

/-- The declarations leave nothing to the order in which they stand. -/
structure Regular (world : World) (reports : List Report) : Prop where
  /-- What is asked designates one declared element at most. -/
  unambiguous : ∀ {kinds reference}, world.Asks kinds reference → ∀ {first second},
    world.Declares first → world.Declares second → first.isDesignated kinds reference →
      second.isDesignated kinds reference → first = second
  distinct : ∀ {element}, world.Declares element → element.Distinct
  /-- What was reported missing is not in the library either. -/
  served : ∀ {kinds reference}, world.Missed reports kinds reference → ∀ {element},
    world.library element → ¬element.isDesignated kinds reference
  /-- An authored feature that is used, or that a used one derives from, uses none itself. -/
  flat : ∀ {reference}, world.Uses reference → ∀ {layers}, world.Gives reference layers →
    ∀ layer ∈ layers, world.authored layer → ∀ {merged}, world.Merged layer merged →
      merged.features = []
  /-- Below a property of a view or feature, what has a value in a layout has a type. -/
  tame : ∀ {element}, world.Declares element → element.kind = .view ∨ element.kind = .feature →
    Property.TameBelow element.properties

def Featured (world : World) (element featured : Element) : Prop :=
  ∃ merged layers, world.Merged element merged ∧ world.GivenBy merged.features layers ∧
    featured = { merged with
      properties := (layers.map Element.properties).foldl Property.inherit merged.properties }

/-- The properties of the view that a key names, before layouts are expanded. -/
def views (world : World) : Property.Table := fun key properties =>
  world.Shows key ∧ ∃ view, view.isDesignated [.view] (.parse key) ∧
    ((world.authored view ∧ ∃ featured, world.Featured view featured ∧ featured.properties = properties) ∨
      (world.library view ∧ ¬world.authored view ∧ view.properties = properties))

inductive Ends (world : World) (element : Element) : List Property → Prop
  | plain {featured : Element} (gained : world.Featured element featured)
      (unlayed : Resolving.layout? featured = none) : Ends world element featured.properties
  | expanded {featured : Element} {layout : Property} {nodes : List Property}
      (gained : world.Featured element featured)
      (layed : Resolving.layout? featured = some layout)
      (made : Property.Expanded world.views layout.attributes nodes) :
      Ends world element (Property.modifyFirst Property.layoutKey
        (·.holding nodes) featured.properties)

end World
end Requirements
