import Mathlib.Data.List.Nodup
import Requirements.Proofs.Order.Layouts

/-! Declarations may stand in any order. A resolution that comes to its end gives each authored
element what the declarations determine, so two orders give the same. -/
namespace Requirements

/-- What is declared in a project whose elements were resolved in two orders: what its authors
wrote, and what was read in one order or the other. -/
def World.between (authored : List Element) (first second : Resolution) : World :=
  { authored := fun element => element ∈ authored.map Element.uncounted
    library := fun element => ∃ declared, (first.Read declared ∨ second.Read declared) ∧
      declared.uncounted = element }

namespace Resolving

open Resolution World

variable {settings : Settings} {world : World} {authored : Document} {reports : List Report}
  {start final : Resolution}

/-- Each authored element ends as the declarations have it. -/
theorem ends_of_all (regular : world.Regular reports) (ran : Resolving.all settings start = .ok () final)
    (fits : world.Fits start.project.authored reports final)
    (fresh : start.project.dependencies.elements = []) {index : Nat} {element : Element}
    (stands : start.project.authored.elements[index]? = some element) :
    ∃ merged, final.project.authored.elements[index]? = some merged ∧
      world.Ends element.uncounted merged.properties := by
  obtain ⟨lineaged, featured, typed, acted, lineages, features, types, actions, layouts⟩ := all_ok ran
  have fitsActed := fits.before (resolveLayouts_ok layouts).1
  obtain ⟨keeps, -⟩ := resolveActions_ok actions
  have fitsTyped := fitsActed.before keeps.extended
  have grows := grows_resolveTypes types
  have fitsFeatured := fitsTyped.before grows.extends
  have fitsLineaged := fitsFeatured.before (extends_resolveFeatures features)
  obtain ⟨drawnLineaged, merged⟩ := merged_of_lineages regular lineages fitsLineaged fresh
  obtain ⟨drawnFeatured, gained⟩ := featured_of_features regular drawnLineaged merged features fitsFeatured
  have drawnTyped := drawnFeatured.grows grows fitsTyped
  have formed := (gained.keeps grows.authored).keeps keeps.authored
  have showing : world.Showing acted acted := by
    refine ⟨rfl, fun element member isView => ?_⟩
    rcases keeps.drawn element member (by simp [isView]) with old | ⟨declared, read, same⟩
    · obtain ⟨former, inTyped, same⟩ := List.mem_map.mp old
      exact same ▸ drawnTyped former inTyped
    · exact same ▸ fitsActed.read declared read
  have laidOut := laidOut_turns regular formed showing (overAuthored_ok.mp layouts) fits
  obtain ⟨form, ended, holds⟩ := laidOut.passed.formed formed index element stands
  obtain ⟨merged, standsMerged, rfl⟩ := Option.map_eq_some_iff.mp holds
  exact ⟨merged, standsMerged, ended⟩

theorem fits_between {elements : List Element} {workspace : Workspace}
    {firstFinal secondFinal : Resolution} (ran : authored.resolved settings workspace = .ok () final)
    (permuted : authored.elements.Perm elements) (isOne : final = firstFinal ∨ final = secondFinal) :
    (World.between elements firstFinal secondFinal).Fits authored
      (firstFinal.reports ++ secondFinal.reports) final := by
  obtain ⟨lineaged, lineages, extended⟩ := extends_all ran
  refine ⟨fun element => (permuted.map Element.uncounted).mem_iff.symm,
    ((extends_resolveAncestors lineages).trans extended).authored, fun element read => ?_, ?_⟩
  · rcases isOne with rfl | rfl
    · exact ⟨element, .inl read, rfl⟩
    · exact ⟨element, .inr read, rfl⟩
  · rcases isOne with rfl | rfl <;> simp

/-- Where the declarations are regular, every authored element has the same properties in the
end, in whatever order the elements stand. -/
theorem properties_of_order {first second : Document} {workspace : Workspace}
    {firstFinal secondFinal : Resolution}
    (ranFirst : first.resolved settings workspace = .ok () firstFinal)
    (ranSecond : second.resolved settings workspace = .ok () secondFinal)
    (permuted : second.elements.Perm first.elements)
    (regular : (World.between first.elements firstFinal secondFinal).Regular
      (firstFinal.reports ++ secondFinal.reports)) {index place : Nat} {element : Element}
    (standsFirst : first.elements[index]? = some element)
    (standsSecond : second.elements[place]? = some element) :
    ∃ one two, firstFinal.project.authored.elements[index]? = some one ∧
      secondFinal.project.authored.elements[place]? = some two ∧ one.properties = two.properties := by
  have fitsFirst : (World.between first.elements firstFinal secondFinal).Fits first _ firstFinal :=
    fits_between ranFirst (.refl _) (.inl rfl)
  have fitsSecond : (World.between first.elements firstFinal secondFinal).Fits second _ secondFinal :=
    fits_between ranSecond permuted (.inr rfl)
  obtain ⟨one, standsOne, endsOne⟩ := ends_of_all regular ranFirst fitsFirst rfl standsFirst
  obtain ⟨two, standsTwo, endsTwo⟩ := ends_of_all regular ranSecond fitsSecond rfl standsSecond
  have isAuthored := (fitsFirst.declared element.uncounted).mpr
    (List.mem_map_of_mem (List.mem_of_getElem? standsFirst))
  exact ⟨one, two, standsOne, standsTwo, endsOne.unique regular isAuthored endsTwo⟩

/-- Declarations of different ids are regular where nothing is missing or read from elsewhere,
authored features use none, and what has a value in a layout has a type. -/
theorem regular_of_names {elements : List Element} {first second : Resolution}
    (unread : first.parsed = [] ∧ second.parsed = []) (quiet : first.reports = [] ∧ second.reports = [])
    (names : (elements.map fun element => element.name.id).Nodup)
    (distinct : ∀ element ∈ elements, element.Distinct)
    (flat : ∀ element ∈ elements, element.kind = .feature → element.features = [])
    (tame : ∀ element ∈ elements, ∀ p ∈ element.properties, Property.Tame p.attributes) :
    (World.between elements first second).Regular (first.reports ++ second.reports) := by
  have declared : ∀ {element}, (World.between elements first second).Declares element →
      ∃ former ∈ elements, former.uncounted = element := by
    rintro element (isAuthored | ⟨former, read, -⟩)
    · exact List.mem_map.mp isAuthored
    · rcases read with ⟨path, document, member, -⟩ | ⟨path, document, member, -⟩
      · simp [unread.1] at member
      · simp [unread.2] at member
  have flatDeclared : ∀ {element}, (World.between elements first second).Declares element →
      element.kind = .feature → element.features = [] := by
    intro element declares isFeature
    obtain ⟨former, member, rfl⟩ := declared declares
    exact flat former member isFeature
  have unreported : ∀ report, report ∉ first.reports ++ second.reports := by simp [quiet]
  refine ⟨?_, ?_, ?_, ?_, ?_⟩
  · intro kinds reference _ one other declaresOne declaresOther isOne isOther
    obtain ⟨former, member, rfl⟩ := declared declaresOne
    obtain ⟨otherFormer, otherMember, rfl⟩ := declared declaresOther
    simp only [Element.isDesignated, QualifiedName.designates, Bool.and_eq_true, beq_iff_eq] at isOne isOther
    have sameId : former.name.id = otherFormer.name.id := isOne.2.1.symm.trans isOther.2.1
    rw [List.inj_on_of_nodup_map names member otherMember sameId]
  · intro element declares
    obtain ⟨former, member, rfl⟩ := declared declares
    exact distinct former member
  · intro kinds reference missed
    cases missed with
    | ancestor _ reported => exact absurd reported (unreported _)
    | feature _ reported => exact absurd reported (unreported _)
    | view _ reported => exact absurd reported (unreported _)
  · intro reference _ layers gives layer member _ merged gained
    obtain ⟨behind, chain, rfl⟩ := gained
    obtain ⟨declares, isFeature⟩ := gives.features layer member
    apply List.eq_nil_iff_forall_not_mem.mpr
    intro feature used
    obtain ⟨user, inChain, uses⟩ := mem_features_foldl.mp used
    have ofUser : user.features = [] := by
      rcases List.mem_cons.mp inChain with rfl | inBehind
      · exact flatDeclared declares isFeature
      · exact flatDeclared (chain.declared user inBehind) (chain.kind_eq rfl isFeature user inBehind)
    simp [ofUser] at uses
  · intro element declares _
    obtain ⟨former, member, rfl⟩ := declared declares
    exact tame former member

def page : List Element :=
  [{ kind := .view, name := ⟨"Page", none⟩, ancestor := some ⟨"Frame", none⟩
     properties := [{ key := "layout", attributes := [{ key := "Button" }] }] },
   { kind := .view, name := ⟨"Button", none⟩, features := [⟨"Labelled", none⟩]
     properties := [{ key := "layout", attributes := [{ key := "Frame" }] }] },
   { kind := .view, name := ⟨"Frame", none⟩, features := [⟨"Labelled", none⟩] },
   { kind := .feature, name := ⟨"Labelled", none⟩
     properties := [{ key := "label", typeName := some "Text" }] }]

def isQuiet (final : Resolution) : Bool := final.parsed.isEmpty && final.reports.isEmpty

theorem properties_of_order_page :
    ∃ firstFinal secondFinal one two,
      ({ elements := page } : Document).resolved {} { disk := { now := 0 } } = .ok () firstFinal ∧
      ({ elements := page.reverse } : Document).resolved {} { disk := { now := 0 } } = .ok () secondFinal ∧
      page.reverse.Perm page ∧
      (World.between page firstFinal secondFinal).Regular (firstFinal.reports ++ secondFinal.reports) ∧
      firstFinal.project.authored.elements[0]? = some one ∧
      secondFinal.project.authored.elements[3]? = some two ∧ one.properties = two.properties := by
  have endsFirst : ends (fun _ final => isQuiet final)
      (({ elements := page } : Document).resolved {} { disk := { now := 0 } }) := by decide +kernel
  have endsSecond : ends (fun _ final => isQuiet final)
      (({ elements := page.reverse } : Document).resolved {} { disk := { now := 0 } }) := by decide +kernel
  obtain ⟨_, firstFinal, ranFirst, quietFirst⟩ := ok_of_ends endsFirst
  obtain ⟨_, secondFinal, ranSecond, quietSecond⟩ := ok_of_ends endsSecond
  simp only [isQuiet, Bool.and_eq_true, List.isEmpty_iff] at quietFirst quietSecond
  have regular : (World.between page firstFinal secondFinal).Regular
      (firstFinal.reports ++ secondFinal.reports) :=
    regular_of_names ⟨quietFirst.1, quietSecond.1⟩ ⟨quietFirst.2, quietSecond.2⟩ (by decide) (by decide)
      (by decide) (by decide)
  have permuted := List.reverse_perm page
  obtain ⟨one, two, standsOne, standsTwo, same⟩ := properties_of_order ranFirst ranSecond permuted
    regular (show page[0]? = some _ from rfl) (show page.reverse[3]? = some _ from rfl)
  exact ⟨firstFinal, secondFinal, one, two, ranFirst, ranSecond, permuted, regular, standsOne,
    standsTwo, same⟩

/-- Two orders of elements, of which one ends differently in each. No siblings repeat a key, and no
two elements have one id, those included that were read. -/
def OrderMatters (workspace : Workspace) (first second : List Element) : Prop :=
  ∃ firstFinal secondFinal, ∃ index place : Nat, ∃ element one two : Element,
    ({ elements := first } : Document).resolved {} workspace = .ok () firstFinal ∧
    ({ elements := second } : Document).resolved {} workspace = .ok () secondFinal ∧
    second.Perm first ∧ (∀ element ∈ first, element.Distinct) ∧
    (∀ final, final = firstFinal ∨ final = secondFinal →
      ((first ++ final.parsed.flatMap (·.2.elements)).map fun element => element.name.id).Nodup) ∧
    first[index]? = some element ∧ second[place]? = some element ∧
    firstFinal.project.authored.elements[index]? = some one ∧
    secondFinal.project.authored.elements[place]? = some two ∧ one.properties ≠ two.properties

def givesTypes (authored : List Element) (index : Nat) (types : List String) (final : Resolution) : Bool :=
  ((authored ++ final.parsed.flatMap (·.2.elements)).map fun element => element.name.id).Nodup &&
    final.project.authored.elements[index]?.any fun element =>
      Property.typeNamesOf element.properties = types

theorem orderMatters_of_ends {workspace : Workspace} {first second : List Element} (index place : Nat)
    {types others : List String} (differ : types ≠ others) {element : Element}
    (standsFirst : first[index]? = some element) (standsSecond : second[place]? = some element)
    (permuted : second.Perm first) (distinct : ∀ element ∈ first, element.Distinct)
    (endsFirst : ends (fun _ final => givesTypes first index types final)
      (({ elements := first } : Document).resolved {} workspace))
    (endsSecond : ends (fun _ final => givesTypes first place others final)
      (({ elements := second } : Document).resolved {} workspace)) :
    OrderMatters workspace first second := by
  obtain ⟨_, firstFinal, ranFirst, gives⟩ := ok_of_ends endsFirst
  obtain ⟨_, secondFinal, ranSecond, givesOther⟩ := ok_of_ends endsSecond
  simp only [givesTypes, Bool.and_eq_true, decide_eq_true_eq, Option.any_eq_true] at gives givesOther
  obtain ⟨names, one, standsOne, ofOne⟩ := gives
  obtain ⟨namesOther, two, standsTwo, ofTwo⟩ := givesOther
  refine ⟨firstFinal, secondFinal, index, place, element, one, two, ranFirst, ranSecond, permuted,
    distinct, ?_, standsFirst, standsSecond, standsOne, standsTwo, fun same => ?_⟩
  · rintro final (rfl | rfl)
    · exact names
    · exact namesOther
  · rw [same, ofTwo] at ofOne
    exact differ ofOne.symm

def nestedFeatures : List Element :=
  [{ kind := .classType, name := ⟨"Device", none⟩, features := [⟨"Measured", none⟩] },
   { kind := .feature, name := ⟨"Measured", none⟩, features := [⟨"Scaled", none⟩] },
   { kind := .feature, name := ⟨"Scaled", none⟩
     properties := [{ key := "scale", typeName := some "Integer" }] }]

/-- What a feature uses reaches those behind it only. -/
theorem order_matters_nestedFeatures :
    OrderMatters { disk := { now := 0 } } nestedFeatures nestedFeatures.reverse :=
  orderMatters_of_ends 0 2 (show [] ≠ ["Integer"] by decide) rfl rfl (List.reverse_perm _) (by decide)
    (by decide +kernel) (by decide +kernel)

def valuedLayout : List Element :=
  [{ kind := .view, name := ⟨"Outer", none⟩
     properties := [{ key := "layout", attributes := [{ key := "Inner", attributes :=
       [{ key := "layout", attributes := [{ key := "Label", value := some "short" }] }] }] }] },
   { kind := .view, name := ⟨"Inner", none⟩
     properties := [{ key := "layout", attributes := [{ key := "Label" }] }] },
   { kind := .view, name := ⟨"Label", none⟩
     properties := [{ key := "title", typeName := some "Text" }] }]

/-- A node with a value is not expanded, and takes in what is expanded already. -/
theorem order_matters_valuedLayout :
    OrderMatters { disk := { now := 0 } } valuedLayout valuedLayout.reverse :=
  orderMatters_of_ends 0 2 (show [] ≠ ["Text"] by decide) rfl rfl (List.reverse_perm _) (by decide)
    (by decide +kernel) (by decide +kernel)

/-- A library whose index does not know that the document is of another domain by now. -/
def staleLibrary : Workspace :=
  { catalogue :=
      { repositories := [{ kind := .standardLibrary, root := ⟨["lib"]⟩ }], isConnected := true }
    disk := ⟨.folder "" [.folder "lib"
      [.file "base.reqm" (.text "domain unit; feature Scaled \x7b scale: Integer; \x7d") 0,
       .file "index" (.text "content;ftr;lib.Scaled;base.reqm") 0]], 0⟩ }

/-- Two classes that use the feature, one with its domain and one without. -/
def twoUsers : List Element :=
  [{ kind := .classType, name := ⟨"Gauge", none⟩, features := [⟨"Scaled", some "unit"⟩] },
   { kind := .classType, name := ⟨"Device", none⟩, features := [⟨"Scaled", none⟩] }]

/-- What no search finds is known once another reference has led there. -/
theorem order_matters_twoUsers : OrderMatters staleLibrary twoUsers twoUsers.reverse :=
  orderMatters_of_ends 0 1 (show [] ≠ ["Integer"] by decide) rfl rfl (List.reverse_perm _) (by decide)
    (by decide +kernel) (by decide +kernel)

end Resolving
end Requirements
