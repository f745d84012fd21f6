import Requirements.Proofs.Outcome
import Requirements.Proofs.Resolution.Passes
import Requirements.Proofs.Resolution.Runs

/-! Laws of the passes. What holds of following one reference and one chain, and is kept by reports
and by inheriting, holds of the passes over ancestors, features and types, with the failures that
following may end in. Chains begin only at authored elements and where those refer to. -/
namespace Requirements

open Resolving (parent? namedTypes)

namespace Resolution

/-- Where the passes begin to follow ancestors: at the authored elements, at their parents, at the
features that they use, and at the types from elsewhere that their properties name. -/
inductive Begins (settings : Settings) (state : Resolution) : Place → Prop
  | authored {index : Nat} {element : Element}
      (stands : state.project.element? (.authored index) = some element) : Begins settings state (.authored index)
  | parent {index : Nat} {element found : Element} {parent : QualifiedName} {place : Place}
      (stands : state.project.element? (.authored index) = some element) (has : parent? element = some parent)
      (leads : state.known? element.kind.related parent (some (.authored index)) = some (place, found)) :
      Begins settings state place
  | feature {index : Nat} {element found : Element} {feature : QualifiedName} {place : Place}
      (stands : state.project.element? (.authored index) = some element) (uses : feature ∈ element.features)
      (leads : state.known? [.feature] feature none = some (place, found)) : Begins settings state place
  | type {typeName : String} {index : Nat} {found : Element}
      (named : typeName ∈ namedTypes settings state.project.authored)
      (leads : state.known? ElementKind.classType.related (QualifiedName.parse typeName) none =
        some (.dependency index, found)) : Begins settings state (.dependency index)

variable {settings : Settings} {start final : Resolution}

theorem Begins.element? {place : Place} (begins : start.Begins settings place) :
    ∃ element, start.project.element? place = some element := by
  cases begins with
  | authored stands => exact ⟨_, stands⟩
  | parent _ _ leads | feature _ _ leads | type _ leads => exact ⟨_, (known?_some leads).1⟩

theorem Grows.namedTypes (grows : Grows start final) :
    namedTypes settings final.project.authored = namedTypes settings start.project.authored := by
  have same : final.project.authored.elements.flatMap Element.typeNames =
      start.project.authored.elements.flatMap Element.typeNames := by
    have named := congrArg (List.flatMap Element.typeNames) grows.authored
    rwa [List.flatMap_map, List.flatMap_map] at named
  rw [Resolving.namedTypes, same, Resolving.namedTypes]

theorem Begins.grows {place : Place} (begins : start.Begins settings place) (grows : Grows start final) :
    final.Begins settings place := by
  have extended := grows.extends
  cases begins with
  | authored stands =>
    obtain ⟨_, standsLater, -⟩ := extended.element? stands
    exact .authored standsLater
  | parent stands has leads =>
    obtain ⟨later, standsLater, alike⟩ := extended.element? stands
    obtain ⟨_, leadsLater, -⟩ := extended.known? leads
    have hasLater := (congrArg parent? alike :).trans has
    exact .parent standsLater hasLater (Element.kind_eq alike ▸ leadsLater)
  | feature stands uses leads =>
    obtain ⟨later, standsLater, same⟩ := grows.element? stands
    obtain ⟨_, leadsLater, -⟩ := extended.known? leads
    exact .feature standsLater ((congrArg Element.features same :) ▸ uses) leadsLater
  | type named leads =>
    obtain ⟨_, leadsLater, -⟩ := extended.known? leads
    exact .type (grows.namedTypes ▸ named) leadsLater

end Resolution

namespace Resolving

open Relation (ReflTransGen)
open Resolution

variable {settings : Settings} {holds : Resolution → Prop} {bad : Failure → Resolution → Prop}

/-- In turns that are made of single steps, each turn may count on what came before it. -/
theorem outcome_forM_behind {α : Type} {R : Resolution → Resolution → Prop} {visit : α → Resolving Unit}
    {items : List α} {start : Resolution} (steps : ∀ item s, ReflTransGen R s (stateAfter (visit item s)))
    (each : ∀ item ∈ items, ∀ state, ReflTransGen R start state → holds state →
      Outcome (fun _ => holds) bad (visit item state)) (held : holds start) :
    Outcome (fun _ => holds) bad (items.forM visit start) := by
  have both : Outcome (fun _ state => ReflTransGen R start state ∧ holds state) bad (items.forM visit start) := by
    refine outcome_forM (fun item member state reached => ?_) ⟨.refl, held⟩
    refine (each item member state reached.1 reached.2).mono fun _ final ran heldThen => ⟨?_, heldThen⟩
    have turn := steps item state
    rw [ran] at turn
    exact reached.1.trans turn
  exact both.mono fun _ _ _ reached => reached.2

theorem outcome_overAuthored {visit : Nat → Element → Resolving Unit}
    (each : ∀ index element state, state.project.element? (.authored index) = some element → holds state →
      Outcome (fun _ => holds) bad (visit index element state)) {start : Resolution} (held : holds start) :
    Outcome (fun _ => holds) bad (overAuthored visit start) := by
  refine outcome_get (outcome_forM (fun index _ state heldThen => ?_) held)
  refine outcome_get ?_
  cases stands : state.project.authored.elements[index]? with
  | none => exact heldThen
  | some element => exact each index element state stands heldThen

/-- What following one reference and following a chain come to, and what keeps the law besides. -/
structure Law (settings : Settings) (holds : Resolution → Prop) (bad : Failure → Resolution → Prop) : Prop where
  resolves : ∀ kinds reference asker state, holds state →
    Outcome (fun _ => holds) bad (resolve settings kinds reference asker state)
  climbs : ∀ place element state, state.project.element? place = some element →
    state.Begins settings place → holds state → Outcome (fun _ => holds) bad (chain settings place element state)
  reports : ∀ (finding : Finding) subject file state, (∀ child view, finding ≠ .viewMissing child view) →
    holds state → holds (state.report (finding.reportOn subject file))
  gains : ∀ index (change : Element → Element) state, (∀ own, (change own).outline = own.outline) →
    holds state → holds (state.modifyAuthored index change)

namespace Law

variable (law : Law settings holds bad)
include law

theorem inheritProperties (index : Nat) (place : Place) (state : Resolution) (held : holds state) :
    Outcome (fun _ => holds) bad (inheritProperties index place state) := by
  rw [Resolving.inheritProperties, outcome_modify]
  cases state.project.element? place with
  | none => exact held
  | some => exact law.gains _ _ _ (fun _ => rfl) held

theorem inheritFeatures (index : Nat) (place : Place) (state : Resolution) (held : holds state) :
    Outcome (fun _ => holds) bad (inheritFeatures index place state) := by
  rw [Resolving.inheritFeatures, outcome_modify]
  cases state.project.element? place with
  | none => exact held
  | some => exact law.gains _ _ _ (fun _ => rfl) held

theorem resolveAncestors {index : Nat} {element : Element} {state : Resolution}
    (stands : state.project.element? (.authored index) = some element) (held : holds state) :
    Outcome (fun _ => holds) bad (resolveAncestors settings index element state) := by
  refine outcome_bind (law.climbs _ element state stands (.authored stands) held) fun places middle _ heldThen => ?_
  refine outcome_forM (fun place _ s heldThere => ?_) heldThen
  exact outcome_bind (law.inheritProperties index place s heldThere) fun _ later _ heldNext =>
    law.inheritFeatures index place later heldNext

theorem resolveLineage {index : Nat} {element : Element} {state : Resolution}
    (stands : state.project.element? (.authored index) = some element) (held : holds state) :
    Outcome (fun _ => holds) bad (resolveLineage settings index element state) := by
  refine outcome_bind (law.resolveAncestors stands held) fun _ middle inherited heldThen => ?_
  rw [resolveParent]
  cases has : parent? element with
  | none => exact heldThen
  | some parent =>
    have changes : Changes settings state (stateAfter (Resolving.resolveAncestors settings index element state)) :=
      changes_resolveAncestors index element state
    rw [inherited, stateAfter] at changes
    obtain ⟨later, standsLater, alikeLater⟩ := changes.extends.element? stands
    refine outcome_bind (law.resolves _ parent _ middle heldThen) fun answer after resolved heldAfter => ?_
    cases answer with
    | none => exact law.reports _ _ _ _ (by simp) heldAfter
    | some found =>
      obtain ⟨grows, known⟩ := resolve_ok resolved (by simp [standsLater])
      obtain ⟨last, standsLast, alikeLast⟩ := grows.extends.element? standsLater
      have alike := alikeLast.trans alikeLater
      have begins : after.Begins settings found.1 :=
        .parent standsLast ((congrArg parent? alike :).trans has) (Element.kind_eq alike ▸ known)
      exact outcome_bind (law.climbs _ found.2 after (known?_some known).1 begins heldAfter)
        fun _ _ _ heldLast => heldLast

theorem resolveFeatures {index : Nat} {element : Element} {start : Resolution}
    (stands : start.project.element? (.authored index) = some element) (held : holds start) :
    Outcome (fun _ => holds) bad (resolveFeatures settings index element start) := by
  have turns : ∀ feature s, Changes settings s (stateAfter (resolveFeature settings index element feature s)) :=
    changes_resolveFeature index element
  refine outcome_forM_behind turns (fun feature used s changed heldThere => ?_) held
  refine outcome_bind (law.resolves _ feature none s heldThere) fun answer middle resolved heldThen => ?_
  cases answer with
  | none => exact law.reports _ _ _ _ (by simp) heldThen
  | some found =>
    obtain ⟨grows, known⟩ := resolve_ok resolved (by simp)
    have changes : Changes settings start s := changed
    obtain ⟨user, standsThere, preserved⟩ := changes.preserves.element index element stands
    obtain ⟨later, standsLater, same⟩ := grows.element? standsThere
    have begins : middle.Begins settings found.1 :=
      .feature standsLater ((congrArg Element.features same :) ▸ preserved.features.subset used) known
    refine outcome_bind (law.climbs _ found.2 middle (known?_some known).1 begins heldThen)
      fun places after _ heldAfter => ?_
    exact outcome_forM (fun place _ => law.inheritProperties index place) heldAfter

theorem resolveTypes {start : Resolution} (held : holds start) :
    Outcome (fun _ => holds) bad (resolveTypes settings start) := by
  refine outcome_get (outcome_forM_behind follows_resolveType (fun typeName named s followed heldThere => ?_) held)
  refine outcome_bind (law.resolves _ _ none s heldThere) fun answer middle resolved heldThen => ?_
  obtain ⟨grows, known⟩ := resolve_ok resolved (by simp)
  have follows : Follows settings start s := followed
  split
  next index found =>
    have begins : middle.Begins settings (.dependency index) :=
      .type ((follows.grows.trans grows).namedTypes ▸ named) known
    exact outcome_bind (law.climbs _ _ middle (known?_some known).1 begins heldThen) fun _ _ _ heldLast => heldLast
  next => exact heldThen

theorem beforeLayouts {later : Resolution → Prop}
    (actions : ∀ state, holds state → Outcome (fun _ => later) bad (resolveActions settings state))
    {start : Resolution} (held : holds start) :
    Outcome (fun _ => later) bad (beforeLayouts settings start) := by
  have lineages : Outcome (fun _ => holds) bad (overAuthored (Resolving.resolveLineage settings) start) :=
    outcome_overAuthored (fun _ _ _ stands => law.resolveLineage stands) held
  refine outcome_bind lineages fun _ afterLineages _ heldThen => ?_
  have features : Outcome (fun _ => holds) bad (overAuthored (Resolving.resolveFeatures settings) afterLineages) :=
    outcome_overAuthored (fun _ _ _ stands => law.resolveFeatures stands) heldThen
  refine outcome_bind features fun _ afterFeatures _ heldNext => ?_
  exact outcome_bind (law.resolveTypes heldNext) fun _ afterTypes _ heldLater => actions afterTypes heldLater

/-- With the passes over actions and layouts the law is one of the whole run. -/
theorem all {later : Resolution → Prop} {good : Unit → Resolution → Prop}
    (actions : ∀ state, holds state → Outcome (fun _ => later) bad (resolveActions settings state))
    (layouts : ∀ state, later state → Outcome good bad (overAuthored (resolveLayout settings) state))
    {start : Resolution} (held : holds start) : Outcome good bad (Resolving.all settings start) := by
  rw [all_eq]
  exact outcome_bind (law.beforeLayouts actions held) fun _ middle _ heldThen => layouts middle heldThen

end Law
end Resolving
end Requirements
