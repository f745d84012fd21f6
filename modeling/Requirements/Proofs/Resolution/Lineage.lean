import Requirements.Proofs.Property.Layers
import Requirements.Proofs.Resolution.Climb

/-! What elements inherit from their ancestors. The pass works in place and in order, so it
meets ancestors that have inherited already and others that have not; each element still
ends as its declared form with the declared forms of its chain taken in, nearest first. -/
namespace Requirements

def Element.inherit (own layer : Element) : Element :=
  { own with
    properties := Property.inherit own.properties layer.properties
    features := Resolving.addFeatures own.features layer.features }

namespace Resolving

theorem addFeatures_nil (own : List QualifiedName) : addFeatures own [] = own := rfl

theorem addFeatures_cons (own : List QualifiedName) (feature : QualifiedName)
    (more : List QualifiedName) :
    addFeatures own (feature :: more) = addFeatures (addFeatures own [feature]) more := rfl

theorem addFeatures_singleton (own : List QualifiedName) (feature : QualifiedName) :
    addFeatures own [feature] = if feature ∈ own then own else own ++ [feature] := by
  simp [addFeatures]

theorem addFeatures_append (own first second : List QualifiedName) :
    addFeatures own (first ++ second) = addFeatures (addFeatures own first) second :=
  List.foldl_append

theorem mem_addFeatures {own more : List QualifiedName} {feature : QualifiedName} :
    feature ∈ addFeatures own more ↔ feature ∈ own ∨ feature ∈ more := by
  induction more generalizing own with
  | nil => simp [addFeatures_nil]
  | cons first rest ih =>
    rw [addFeatures_cons, ih, addFeatures_singleton]
    split <;> simp_all [or_assoc]
    grind

theorem addFeatures_of_subset {own more : List QualifiedName} (present : more ⊆ own) :
    addFeatures own more = own := by
  induction more with
  | nil => rfl
  | cons first rest ih =>
    rw [addFeatures_cons, addFeatures_singleton, if_pos (present (by simp))]
    exact ih fun feature member => present (by simp [member])

theorem addFeatures_assoc (own first second : List QualifiedName) :
    addFeatures (addFeatures own first) second = addFeatures own (addFeatures first second) := by
  induction second generalizing first with
  | nil => rfl
  | cons feature rest ih =>
    have one : addFeatures (addFeatures own first) [feature] =
        addFeatures own (addFeatures first [feature]) := by
      rw [addFeatures_singleton first]
      split
      next present =>
        exact addFeatures_of_subset (by simpa [mem_addFeatures] using .inr present)
      next => rw [addFeatures_append]
    rw [addFeatures_cons, one, ih, ← addFeatures_cons]

end Resolving

namespace Element

def Distinct (element : Element) : Prop := Property.Distinct element.properties

instance : DecidablePred Distinct := fun element =>
  inferInstanceAs (Decidable (Property.Distinct element.properties))

theorem layering : Layering Element.inherit Distinct where
  fit ofOwn ofLayer := Property.distinct_inherit ofOwn ofLayer
  assoc {own first second} ofFirst ofSecond := by
    simp only [Element.inherit, Property.inherit_assoc _ ofFirst ofSecond,
      Resolving.addFeatures_assoc]
  once own layer distinct := by
    have covered := Property.layering.once own.properties distinct
    have present : layer.features ⊆ Resolving.addFeatures own.features layer.features :=
      fun feature member => Resolving.mem_addFeatures.mpr (.inr member)
    simp only [Element.inherit, covered, Resolving.addFeatures_of_subset present]
  again own first second ofFirst ofSecond := by
    have covered := Property.layering.again own.properties ofFirst ofSecond
    have present : first.features ⊆ Resolving.addFeatures
        (Resolving.addFeatures own.features first.features) second.features :=
      fun feature member => by simp [Resolving.mem_addFeatures, member]
    simp only [Element.inherit, covered, Resolving.addFeatures_of_subset present]

theorem uncounted_inherit (own layer : Element) :
    (own.inherit layer).uncounted = own.uncounted.inherit layer.uncounted := rfl

theorem uncounted_foldl_inherit (own : Element) (layers : List Element) :
    (layers.foldl Element.inherit own).uncounted =
      (layers.map uncounted).foldl Element.inherit own.uncounted := by
  induction layers generalizing own with
  | nil => rfl
  | cons layer rest ih => rw [List.foldl_cons, ih, uncounted_inherit, List.map_cons, List.foldl_cons]

theorem outline_foldl_inherit (own : Element) (layers : List Element) :
    (layers.foldl Element.inherit own).outline = own.outline := by
  induction layers generalizing own with
  | nil => rfl
  | cons layer rest ih => rw [List.foldl_cons, ih]; rfl

end Element

namespace Resolution

theorem modifyAuthored_id (state : Resolution) (index : Nat) :
    state.modifyAuthored index id = state := by
  simp [modifyAuthored, Project.modify, Document.modify]

theorem modifyAuthored_modifyAuthored (state : Resolution) (index : Nat)
    (first second : Element → Element) :
    (state.modifyAuthored index first).modifyAuthored index second =
      state.modifyAuthored index (second ∘ first) := by
  simp [modifyAuthored, Project.modify, Document.modify, List.modify_modify_eq]

theorem element?_modifyAuthored_of_ne {index : Nat} {place : Place} (other : place ≠ .authored index)
    (state : Resolution) (change : Element → Element) :
    (state.modifyAuthored index change).project.element? place = state.project.element? place := by
  rw [modifyAuthored, Project.element?_modify, if_neg (Ne.symm other)]

theorem getElem?_modifyAuthored_of_ne {index other : Nat} (differs : other ≠ index)
    (state : Resolution) (change : Element → Element) :
    (state.modifyAuthored index change).project.authored.elements[other]? =
      state.project.authored.elements[other]? := by
  have apart : Place.authored other ≠ .authored index := by simpa using differs
  exact element?_modifyAuthored_of_ne apart state change

theorem getElem?_modifyAuthored_self (state : Resolution) (index : Nat) (change : Element → Element) :
    (state.modifyAuthored index change).project.authored.elements[index]? =
      state.project.authored.elements[index]?.map change := by
  change Project.element? _ (.authored index) = _
  rw [modifyAuthored, Project.element?_modify, if_pos rfl]
  rfl

theorem extends_modifyAuthored {change : Element → Element}
    (keeps : ∀ element, (change element).outline = element.outline) (state : Resolution)
    (index : Nat) : Extends state (state.modifyAuthored index change) := by
  refine ⟨?_, List.prefix_rfl, List.prefix_rfl, List.prefix_rfl⟩
  change (state.project.authored.elements.modify index change).map Element.outline = _
  apply List.ext_getElem?
  intro other
  rw [List.getElem?_map, List.getElem?_map, List.getElem?_modify]
  split <;> cases state.project.authored.elements[other]? <;> simp [keeps]

/-- The element at the place as it was declared, an authored one in the given document. -/
def declaredAt? (authored : Document) (state : Resolution) (place : Place) : Option Element :=
  (Project.element? ⟨authored, state.project.dependencies⟩ place).map Element.uncounted

def declaredLayers (authored : Document) (state : Resolution) (places : List Place) :
    List Element :=
  places.filterMap (state.declaredAt? authored)

theorem Climbs.stands {state : Resolution} {place : Place} {places : List Place}
    (climbs : state.Climbs place places) {other : Place} (member : other ∈ places) :
    ∃ element, state.project.element? other = some element := by
  induction places generalizing place with
  | nil => cases member
  | cons above rest ih =>
    rcases List.mem_cons.mp member with rfl | member
    · have leads := climbs.1
      simp only [next?, Option.bind_eq_bind, Option.bind_eq_some_iff] at leads
      obtain ⟨_, _, _, _, ⟨_, element⟩, known, same⟩ := leads
      obtain rfl := Option.some.inj same
      exact ⟨element, (known?_some known).1⟩
    · exact ih climbs.2 member

theorem map_some_filterMap {α β : Type} {f : α → Option β} {items : List α}
    (all : ∀ item ∈ items, ∃ b, f item = some b) : (items.filterMap f).map some = items.map f := by
  induction items with
  | nil => rfl
  | cons item rest ih =>
    obtain ⟨b, holds⟩ := all item (by simp)
    rw [List.filterMap_cons, holds, List.map_cons, List.map_cons, holds,
      ih fun other member => all other (by simp [member])]

theorem Extends.declaredLayers {start final : Resolution} (extended : Extends start final)
    {place : Place} {places : List Place} (climbs : start.Climbs place places)
    (authored : Document) : final.declaredLayers authored places = start.declaredLayers authored places := by
  apply List.filterMap_congr
  intro other member
  cases other with
  | authored index => rfl
  | dependency index =>
    obtain ⟨element, stands⟩ := climbs.stands member
    obtain ⟨later, standsLater, same⟩ := extended.dependency stands
    simp only [declaredAt?, Project.element?] at stands ⊢
    rw [stands, standsLater, Option.map_some, Option.map_some, same]

end Resolution

namespace Resolving

open Resolution

variable {settings : Settings} {start final : Resolution}

theorem inheritFrom_ok {index : Nat} {place : Place} {layer : Element} {u : Unit}
    (stands : start.project.element? place = some layer) (other : place ≠ .authored index)
    (ran : (do inheritProperties index place; inheritFeatures index place) start = .ok u final) :
    final = start.modifyAuthored index (Element.inherit · layer) := by
  obtain ⟨_, middle, first, second⟩ := bind_ok.mp ran
  have gave := modify_ok.mp first
  have used := modify_ok.mp second
  simp only [stands] at gave
  subst gave
  rw [element?_modifyAuthored_of_ne other, stands] at used
  dsimp only at used
  rw [← used, modifyAuthored_modifyAuthored]
  rfl

/-- Layers of other places are taken in as they stand when the first is. -/
theorem takeAll_ok {index : Nat} {take : Element → Element → Element} {visit : Place → Resolving Unit}
    (each : ∀ {place layer s t}, s.project.element? place = some layer → place ≠ .authored index →
      visit place s = .ok () t → t = s.modifyAuthored index (take · layer)) {places : List Place}
    (stand : ∀ place ∈ places, ∃ element, start.project.element? place = some element)
    (others : ∀ place ∈ places, place ≠ .authored index)
    (ran : places.forM visit start = .ok () final) :
    final = start.modifyAuthored index fun own =>
      (places.filterMap start.project.element?).foldl take own := by
  induction places generalizing start with
  | nil =>
    obtain ⟨-, rfl⟩ := pure_ok.mp ran
    exact (modifyAuthored_id start index).symm
  | cons place rest ih =>
    obtain ⟨_, middle, first, others'⟩ := bind_ok.mp ran
    obtain ⟨layer, stands⟩ := stand place (by simp)
    obtain rfl := each stands (others place (by simp)) first
    have same : ∀ other ∈ rest, (start.modifyAuthored index (take · layer)).project.element? other =
        start.project.element? other := fun other member =>
      element?_modifyAuthored_of_ne (others other (by simp [member])) _ _
    rw [ih (fun other member => same other member ▸ stand other (by simp [member]))
      (fun other member => others other (by simp [member])) others', modifyAuthored_modifyAuthored,
      List.filterMap_congr same, List.filterMap_cons, stands]
    rfl

theorem resolveParent_ok {index : Nat} {element : Element} {u : Unit}
    (ran : resolveParent settings index element start = .ok u final)
    (present : (start.project.element? (.authored index)).isSome) : Grows start final := by
  rw [resolveParent] at ran
  cases named : parent? element with
  | none =>
    rw [named] at ran
    obtain ⟨-, rfl⟩ := pure_ok.mp ran
    exact .refl _
  | some parent =>
    rw [named] at ran
    obtain ⟨answer, middle, resolved, ran⟩ := bind_ok.mp ran
    obtain ⟨grows, known⟩ := resolve_ok resolved (by rintro _ ⟨⟩; exact present)
    cases answer with
    | none =>
      obtain rfl := report_ok.mp ran
      exact grows.trans (grows_report _)
    | some found =>
      obtain ⟨places, _, climbed, ran⟩ := bind_ok.mp ran
      obtain ⟨-, rfl⟩ := pure_ok.mp ran
      exact grows.trans (chain_ok climbed (known?_some known).1).1

/-- In its turn an authored element takes in the elements above it as they are by then. -/
theorem resolveLineage_ok {index : Nat} {element : Element} {u : Unit}
    (ran : resolveLineage settings index element start = .ok u final)
    (stands : start.project.element? (.authored index) = some element) :
    ∃ places after, chain settings (.authored index) element start = .ok places after ∧
      Grows (after.modifyAuthored index fun own =>
        (places.filterMap after.project.element?).foldl Element.inherit own) final := by
  obtain ⟨_, middle, inherited, parented⟩ := bind_ok.mp ran
  obtain ⟨places, after, climbed, took⟩ := bind_ok.mp inherited
  obtain ⟨grows, out, keys, keyed⟩ := chain_ok climbed stands
  refine ⟨places, after, climbed, ?_⟩
  have notSelf : ∀ place ∈ places, place ≠ .authored index := by
    rintro _ member rfl
    obtain ⟨later, standsLater, alike⟩ := grows.extends.element? stands
    have keyHere : after.keyAt? (.authored index) = some element.key := by
      rw [Resolution.keyAt?, standsLater, Option.map_some, Element.key_eq alike]
    have inKeys : some element.key ∈ keys.map some :=
      keyed.at? ▸ keyHere ▸ List.mem_map_of_mem member
    obtain ⟨key, inKeys, same⟩ := List.mem_map.mp inKeys
    exact keyed.unvisited key inKeys (by simp [Option.some.inj same])
  obtain rfl := takeAll_ok inheritFrom_ok (fun place member => out.climbs.stands member) notSelf took
  apply resolveParent_ok parented
  obtain ⟨later, standsLater, -⟩ := (grows.extends.trans (extends_modifyAuthored
    (fun own => Element.outline_foldl_inherit own _) after index)).element? stands
  rw [standsLater]
  rfl

theorem extends_resolveLineage {index : Nat} {element : Element} {u : Unit}
    (ran : resolveLineage settings index element start = .ok u final)
    (stands : start.project.element? (.authored index) = some element) : Extends start final := by
  obtain ⟨places, after, climbed, grew⟩ := resolveLineage_ok ran stands
  have took := extends_modifyAuthored
    (fun own => Element.outline_foldl_inherit own (places.filterMap after.project.element?)) after index
  exact (chain_ok climbed stands).1.extends.trans (took.trans grew.extends)

/-- A visit meets the element as it is by then. -/
theorem withAuthored_ok {visit : Nat → Element → Resolving Unit} {index : Nat} {u : Unit} :
    withAuthored visit index start = .ok u final ↔
      (start.project.element? (.authored index) = none ∧ start = final) ∨
        ∃ element, start.project.element? (.authored index) = some element ∧
          visit index element start = .ok u final := by
  rw [withAuthored, bind_ok]
  simp only [get_ok]
  constructor
  · rintro ⟨_, _, ⟨rfl, rfl⟩, ran⟩
    cases present : start.project.authored.elements[index]? with
    | none =>
      rw [present] at ran
      exact .inl ⟨present, (pure_ok.mp ran).2⟩
    | some element =>
      rw [present] at ran
      exact .inr ⟨element, present, ran⟩
  · rintro (⟨absent, rfl⟩ | ⟨element, present, ran⟩)
    · refine ⟨start, start, ⟨rfl, rfl⟩, ?_⟩
      rw [show start.project.authored.elements[index]? = none from absent]
      exact pure_ok.mpr ⟨rfl, rfl⟩
    · refine ⟨start, start, ⟨rfl, rfl⟩, ?_⟩
      rw [show start.project.authored.elements[index]? = some element from present]
      exact ran

theorem overAuthored_ok {visit : Nat → Element → Resolving Unit} {u : Unit} :
    overAuthored visit start = .ok u final ↔
      (List.range start.project.authored.elements.length).forM (withAuthored visit) start =
        .ok u final := by
  rw [overAuthored, bind_ok]
  simp [get_ok]

theorem extends_lineageTurn {index : Nat} {u : Unit}
    (ran : withAuthored (resolveLineage settings) index start = .ok u final) :
    Extends start final := by
  rcases withAuthored_ok.mp ran with ⟨-, rfl⟩ | ⟨element, stands, ran⟩
  · exact .refl _
  · exact extends_resolveLineage ran stands

end Resolving
end Requirements
