import Requirements.Proofs.Order.World

/-! Where references are unambiguous, each element has one chain, one form after the ancestors,
one after the features, and one in the end. -/
namespace Requirements

/-- The ancestors of an element have the kinds of its own ancestors' ancestors. -/
theorem ElementKind.related_eq {kind other : ElementKind} (isRelated : kind.related.contains other) :
    other.related = kind.related := by
  revert isRelated
  cases kind <;> cases other <;> decide

theorem Element.PointsAt.related_eq {element above : Element} (points : element.PointsAt above) :
    above.kind.related = element.kind.related := by
  obtain ⟨_, _, designated⟩ := points
  simp only [isDesignated, Bool.and_eq_true] at designated
  exact ElementKind.related_eq designated.1

namespace World

variable {world : World} {reports : List Report}

theorem ChainOf.declared {element : Element} {layers : List Element}
    (chain : world.ChainOf element layers) : ∀ layer ∈ layers, world.Declares layer := by
  induction chain with
  | last => simp
  | step declared _ _ _ ih => simpa using ⟨declared, ih⟩

/-- On a chain of one kind all elements have that kind. -/
theorem ChainOf.kind_eq {element : Element} {layers : List Element} {kind : ElementKind}
    (chain : world.ChainOf element layers) (single : kind.related = [kind])
    (isKind : element.kind = kind) : ∀ layer ∈ layers, layer.kind = kind := by
  induction chain with
  | last => simp
  | @step element above rest _ points _ _ ih =>
    obtain ⟨reference, -, designated⟩ := points
    rw [isKind, single] at designated
    have sameKind := Element.kind_of_designated designated
    simpa using ⟨sameKind, ih sameKind⟩

theorem Regular.points_unique (regular : world.Regular reports) {element first second : Element}
    (declared : world.Declares element) (ofFirst : world.Declares first) (ofSecond : world.Declares second)
    (toFirst : element.PointsAt first) (toSecond : element.PointsAt second) : first = second := by
  obtain ⟨reference, refers, isFirst⟩ := toFirst
  obtain ⟨other, refersOther, isSecond⟩ := toSecond
  obtain rfl := Option.some.inj (refers.symm.trans refersOther)
  exact regular.unambiguous (.ancestor declared refers) ofFirst ofSecond isFirst isSecond

/-- What points at an element of another key does not point at itself. -/
theorem Regular.apart (regular : world.Regular reports) {element above : Element}
    (declared : world.Declares element) (ofAbove : world.Declares above) (points : element.PointsAt above)
    (differs : above.key ≠ element.key) : ¬element.PointsAt element := by
  intro itself
  exact differs (congrArg Element.key (regular.points_unique declared ofAbove declared points itself))

theorem ChainOf.unique (regular : world.Regular reports) {element : Element}
    {first second : List Element} (declared : world.Declares element)
    (one : world.ChainOf element first) (two : world.ChainOf element second) : first = second := by
  induction one generalizing second with
  | last only =>
    cases two with
    | last => rfl
    | step declaredAbove points apart =>
      obtain rfl := only _ declaredAbove points
      exact absurd points apart
  | step declaredAbove points apart _ ih =>
    cases two with
    | last only =>
      obtain rfl := only _ declaredAbove points
      exact absurd points apart
    | step declaredOther pointsOther _ behind =>
      obtain rfl := regular.points_unique declared declaredAbove declaredOther points pointsOther
      rw [ih declaredAbove behind]

theorem Merged.unique (regular : world.Regular reports) {element first second : Element}
    (declared : world.Declares element) (one : world.Merged element first)
    (two : world.Merged element second) : first = second := by
  obtain ⟨layers, chain, rfl⟩ := one
  obtain ⟨others, chainOther, rfl⟩ := two
  rw [chain.unique regular declared chainOther]

theorem mem_features_foldl {own : Element} {layers : List Element} {feature : QualifiedName} :
    feature ∈ (layers.foldl Element.inherit own).features ↔
      ∃ layer ∈ own :: layers, feature ∈ layer.features := by
  induction layers generalizing own with
  | nil => simp
  | cons layer rest ih =>
    have here : feature ∈ (own.inherit layer).features ↔
        feature ∈ own.features ∨ feature ∈ layer.features :=
      Resolving.mem_addFeatures
    rw [List.foldl_cons, ih]
    simp only [List.mem_cons, exists_eq_or_imp, here, or_assoc]

/-- What an authored element uses after the ancestors is used. -/
theorem Merged.uses {element merged : Element} {feature : QualifiedName}
    (gained : world.Merged element merged) (authored : world.authored element)
    (member : feature ∈ merged.features) : world.Uses feature := by
  obtain ⟨layers, chain, rfl⟩ := gained
  exact ⟨element, layers, authored, chain, mem_features_foldl.mp member⟩

theorem Gives.unique (regular : world.Regular reports) {feature : QualifiedName}
    {first second : List Element} (used : world.Uses feature)
    (one : world.Gives feature first) (two : world.Gives feature second) : first = second := by
  cases one with
  | missing unknown =>
    cases two with
    | missing => rfl
    | found declared designated => exact absurd designated (unknown _ declared)
  | found declared designated chain =>
    cases two with
    | missing unknown => exact absurd designated (unknown _ declared)
    | found declaredOther designatedOther chainOther =>
      obtain rfl := regular.unambiguous (.feature used) declared declaredOther designated designatedOther
      rw [chain.unique regular declared chainOther]

theorem GivenBy.unique (regular : world.Regular reports) {features : List QualifiedName}
    {first second : List Element} (used : ∀ feature ∈ features, world.Uses feature)
    (one : world.GivenBy features first) (two : world.GivenBy features second) : first = second := by
  induction one generalizing second with
  | nil => cases two; rfl
  | cons gives _ ih =>
    cases two with
    | cons givesOther others =>
      rw [gives.unique regular (used _ (by simp)) givesOther,
        ih (fun feature member => used feature (by simp [member])) others]

theorem Featured.unique (regular : world.Regular reports) {element first second : Element}
    (authored : world.authored element) (one : world.Featured element first)
    (two : world.Featured element second) : first = second := by
  obtain ⟨merged, layers, gained, given, rfl⟩ := one
  obtain ⟨other, others, gainedOther, givenOther, rfl⟩ := two
  obtain rfl := gained.unique regular (.inl authored) gainedOther
  rw [given.unique regular (fun _ => gained.uses authored) givenOther]

/-- The elements that give their properties for a feature are declared features. -/
theorem Gives.features {feature : QualifiedName} {layers : List Element}
    (gives : world.Gives feature layers) :
    ∀ layer ∈ layers, world.Declares layer ∧ layer.kind = .feature := by
  cases gives with
  | missing => simp
  | @found element above declared designated chain =>
    have isFeature := Element.kind_of_designated designated
    intro layer member
    rcases List.mem_cons.mp member with rfl | member
    · exact ⟨declared, isFeature⟩
    · exact ⟨chain.declared layer member, chain.kind_eq rfl isFeature layer member⟩

theorem GivenBy.features {features : List QualifiedName} {layers : List Element}
    (given : world.GivenBy features layers) :
    ∀ layer ∈ layers, world.Declares layer ∧ layer.kind = .feature := by
  induction given with
  | nil => simp
  | cons gives _ ih =>
    intro layer member
    rcases List.mem_append.mp member with here | there
    · exact gives.features layer here
    · exact ih layer there

/-- A view has the properties of declared views and features taken in, one behind the other. -/
theorem Featured.of_view {view featured : Element} (gained : world.Featured view featured)
    (authored : world.authored view) (isView : view.kind = .view) :
    ∃ layers, featured.properties = (layers.map Element.properties).foldl Property.inherit view.properties ∧
      ∀ layer ∈ view :: layers, world.Declares layer ∧ (layer.kind = .view ∨ layer.kind = .feature) := by
  obtain ⟨merged, given, ⟨layers, chain, rfl⟩, gives, rfl⟩ := gained
  refine ⟨layers ++ given, ?_, fun layer member => ?_⟩
  · rw [List.map_append, List.foldl_append, Resolving.properties_foldl_inherit]
  · rw [List.mem_cons, List.mem_append] at member
    rcases member with rfl | member | member
    · exact ⟨.inl authored, .inl isView⟩
    · exact ⟨chain.declared layer member, .inl (chain.kind_eq rfl isView layer member)⟩
    · exact ⟨(gives.features layer member).1, .inr (gives.features layer member).2⟩

/-- What inheriting keeps and every declared view and feature has, every view has. -/
theorem Featured.holds {P : List Property → Prop} (regular : world.Regular reports)
    (keeps : ∀ own layer, Property.Distinct layer → P own → P layer → P (Property.inherit own layer))
    (all : ∀ element, world.Declares element → element.kind = .view ∨ element.kind = .feature →
      P element.properties) {view featured : Element} (gained : world.Featured view featured)
    (authored : world.authored view) (isView : view.kind = .view) : P featured.properties := by
  obtain ⟨layers, taken, declared⟩ := gained.of_view authored isView
  rw [taken]
  have own := all view (declared view (by simp)).1 (declared view (by simp)).2
  have others : ∀ layer ∈ layers.map Element.properties, Property.Distinct layer ∧ P layer := by
    intro properties member
    obtain ⟨layer, inLayers, rfl⟩ := List.mem_map.mp member
    have ofLayer := declared layer (by simp [inLayers])
    exact ⟨regular.distinct ofLayer.1, all layer ofLayer.1 ofLayer.2⟩
  generalize layers.map Element.properties = taken at others
  generalize view.properties = properties at own
  induction taken generalizing properties with
  | nil => exact own
  | cons layer rest ih =>
    have ofLayer := others layer (by simp)
    exact ih (fun other member => others other (by simp [member])) _
      (keeps _ _ ofLayer.1 own ofLayer.2)

/-- A condition that declared views and features meet and inheriting keeps holds of the views
that keys name. -/
theorem holds_views {P : List Property → Prop} (regular : world.Regular reports)
    (keeps : ∀ own layer, Property.Distinct layer → P own → P layer → P (Property.inherit own layer))
    (all : ∀ element, world.Declares element → element.kind = .view ∨ element.kind = .feature →
      P element.properties) {key : String} {properties : List Property}
    (named : world.views key properties) : P properties := by
  obtain ⟨-, view, designated, ofView⟩ := named
  have isView := Element.kind_of_designated designated
  rcases ofView with ⟨authored, featured, gained, rfl⟩ | ⟨library, -, rfl⟩
  · exact gained.holds regular keeps all authored isView
  · exact all view (.inr library) (.inl isView)

theorem views_sound (regular : world.Regular reports) : world.views.Sound where
  functional := by
    rintro key first second ⟨shows, view, designated, ofView⟩ ⟨-, other, designatedOther, ofOther⟩
    have declares : ∀ {properties : List Property} {view : Element},
        ((world.authored view ∧
            ∃ featured, world.Featured view featured ∧ featured.properties = properties) ∨
          (world.library view ∧ ¬world.authored view ∧ view.properties = properties)) →
        world.Declares view := fun holds => holds.imp And.left And.left
    obtain rfl := regular.unambiguous (.view shows) (declares ofView) (declares ofOther) designated
      designatedOther
    rcases ofView with ⟨authored, featured, gained, rfl⟩ | ⟨-, notAuthored, rfl⟩
    · rcases ofOther with ⟨-, other, gainedOther, rfl⟩ | ⟨-, notAuthored, -⟩
      · rw [gained.unique regular authored gainedOther]
      · exact absurd authored notAuthored
    · rcases ofOther with ⟨authored, -⟩ | ⟨-, -, rfl⟩
      · exact absurd authored notAuthored
      · rfl
  distinct named := holds_views regular (fun _ _ ofLayer ofOwn _ => Property.distinct_inherit ofOwn ofLayer)
    (fun _ declared _ => regular.distinct declared) named
  tame named := holds_views regular
    (fun _ _ ofLayer ofOwn ofTame => Property.tameBelow_inherit ofLayer ofOwn ofTame)
    (fun _ declared isShown => regular.tame declared isShown) named

/-- The end of an authored element depends on nothing but what is declared. -/
theorem Ends.unique (regular : world.Regular reports) {element : Element} {first second : List Property}
    (authored : world.authored element) (one : world.Ends element first)
    (two : world.Ends element second) : first = second := by
  cases one with
  | plain gained unlayed =>
    cases two with
    | plain gainedOther => rw [gained.unique regular authored gainedOther]
    | expanded gainedOther layed =>
      obtain rfl := gained.unique regular authored gainedOther
      rw [unlayed] at layed
      cases layed
  | expanded gained layed made =>
    cases two with
    | plain gainedOther unlayed =>
      obtain rfl := gained.unique regular authored gainedOther
      rw [unlayed] at layed
      cases layed
    | expanded gainedOther layedOther madeOther =>
      obtain rfl := gained.unique regular authored gainedOther
      obtain rfl := Option.some.inj (layed.symm.trans layedOther)
      rw [made.unique (views_sound regular) madeOther]

end World
end Requirements
