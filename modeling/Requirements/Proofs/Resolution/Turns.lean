import Requirements.Proofs.Resolution.Runs

/-! Runs that come to their end, reference by reference. A dependency that asks for its ancestor
never gets an element of its own kind and name, since that would close a cycle and end the run. -/
namespace Requirements
namespace Resolution

def AnswersApart (start : Resolution) (asker : Option Place) (answer : Option (Place × Element)) : Prop :=
  ∀ index asking above found, asker = some (.dependency index) →
    start.project.element? (.dependency index) = some asking → answer = some (above, found) →
    found.key ≠ asking.key

/-- What a run does that comes to its end: it follows a reference, reports, gives something to an
authored element, or lets a placeholder stand in for an action that is not known. -/
inductive Turn (settings : Settings) : Resolution → Resolution → Prop
  | resolved {start final : Resolution} {kinds : List ElementKind} {reference : QualifiedName}
      {asker : Option Place} {answer : Option (Place × Element)}
      (ran : Resolving.resolve settings kinds reference asker start = .ok answer final)
      (apart : start.AnswersApart asker answer) : Turn settings start final
  | reported (state : Resolution) (entry : Report) : Turn settings state (state.report entry)
  | gained (state : Resolution) (index : Nat) {change : Element → Element}
      (keeps : ∀ own, (change own).outline = own.outline) :
      Turn settings state (state.modifyAuthored index change)
  | stoodIn (state : Resolution) {reference : QualifiedName}
      (unknown : state.known? [.action] reference none = none) :
      Turn settings state (state.push (Element.emptyAction reference).used)

abbrev Turns (settings : Settings) : Resolution → Resolution → Prop := Relation.ReflTransGen (Turn settings)

end Resolution

namespace Resolving

open Resolution

variable {settings : Settings} {start final : Resolution}

/-- A reference leads to what is known, or else to what a search finds, if it finds anything. -/
theorem resolve_cases {kinds : List ElementKind} {reference : QualifiedName} {asker : Option Place}
    {answer : Option (Place × Element)} (ran : resolve settings kinds reference asker start = .ok answer final) :
    (∃ place element, start.known? kinds reference asker = some (place, element) ∧
      answer = some (place, element.used) ∧
      final = { start with project := start.project.modify Element.used place }) ∨
    start.known? kinds reference asker = none ∧ ∃ found middle,
      findInRepositories settings reference kinds start = .ok found middle ∧
      (found = none ∧ answer = none ∧ final = middle ∨ ∃ element, found = some element ∧
        answer = some (.dependency middle.project.dependencies.elements.length, element.used) ∧
        final = middle.push element.used) := by
  rw [resolve] at ran
  obtain ⟨_, _, got, ran⟩ := bind_ok.mp ran
  obtain ⟨rfl, rfl⟩ := get_ok.mp got
  cases known : start.known? kinds reference asker with
  | some found =>
    rw [known] at ran
    obtain ⟨_, _, modified, ran⟩ := bind_ok.mp ran
    obtain ⟨rfl, rfl⟩ := pure_ok.mp ran
    obtain rfl := modify_ok.mp modified
    exact .inl ⟨found.1, found.2, rfl, rfl, rfl⟩
  | none =>
    rw [known] at ran
    obtain ⟨found, middle, searched, ran⟩ := bind_ok.mp ran
    apply Or.inr
    refine ⟨rfl, found, middle, searched, ?_⟩
    cases found with
    | none =>
      obtain ⟨rfl, rfl⟩ := pure_ok.mp ran
      exact .inl ⟨rfl, rfl, rfl⟩
    | some element =>
      obtain ⟨_, _, depended, ran⟩ := bind_ok.mp ran
      obtain ⟨rfl, rfl⟩ := pure_ok.mp ran
      obtain ⟨rfl, rfl⟩ := depend_ok.mp depended
      exact .inr ⟨element, rfl, rfl, rfl⟩

theorem turn_resolve_none {kinds : List ElementKind} {reference : QualifiedName}
    {answer : Option (Place × Element)} (ran : resolve settings kinds reference none start = .ok answer final) :
    Turn settings start final :=
  .resolved ran fun _ _ _ _ asks => nomatch asks

theorem turn_resolve_authored {kinds : List ElementKind} {reference : QualifiedName} {index : Nat}
    {answer : Option (Place × Element)}
    (ran : resolve settings kinds reference (some (.authored index)) start = .ok answer final) :
    Turn settings start final :=
  .resolved ran fun _ _ _ _ asks => nomatch asks

theorem turn_report {finding : Finding} {subject : QualifiedName} {file : String} {u : Unit}
    (ran : report finding subject file start = .ok u final) : Turn settings start final :=
  report_ok.mp ran ▸ .reported start _

/-- The keys that a climb has visited are those of its elements, also of the one that asks. -/
theorem turns_chainFrom {origin : Element} {steps : Nat} {visited : List Element.Key} {names : List String}
    {current : Place} {element : Element} {places : List Place}
    (ran : chainFrom settings origin steps visited names current element start = .ok places final)
    (stands : start.project.element? current = some element) (seen : element.key ∈ visited) :
    Turns settings start final := by
  induction steps generalizing visited names current element start places with
  | zero => exact absurd ran throw_ok
  | succ steps ih =>
    rw [chainFrom] at ran
    cases refers : element.ancestor with
    | none =>
      simp only [refers] at ran
      obtain ⟨-, rfl⟩ := pure_ok.mp ran
      exact .refl
    | some reference =>
      simp only [refers] at ran
      obtain ⟨answer, middle, resolved, ran⟩ := bind_ok.mp ran
      have known := (resolve_ok resolved (by simp [stands])).2
      cases answer with
      | none =>
        have turn : Turn settings start middle := .resolved resolved fun _ _ _ _ _ _ none => by cases none
        obtain ⟨_, later, reported, ran⟩ := bind_ok.mp ran
        obtain ⟨-, rfl⟩ := pure_ok.mp ran
        exact (Relation.ReflTransGen.single turn).tail (turn_report reported)
      | some answer =>
        obtain ⟨place, ancestor⟩ := answer
        dsimp only at ran
        split at ran
        next => exact absurd ran throw_ok
        next fresh =>
          have unseen : ancestor.key ∉ visited := by simpa using fresh
          have apart : start.AnswersApart (some current) (some (place, ancestor)) := by
            rintro index asking _ _ asks standsThere ⟨⟩ same
            obtain rfl := Option.some.inj asks
            obtain rfl := Option.some.inj (stands.symm.trans standsThere)
            exact unseen (same ▸ seen)
          have turn : Turn settings start middle := .resolved resolved apart
          obtain ⟨_, _, climbed, ran⟩ := bind_ok.mp ran
          obtain ⟨-, rfl⟩ := pure_ok.mp ran
          have behind := ih climbed (known?_some known).1 List.mem_cons_self
          exact Relation.ReflTransGen.head turn behind

theorem turns_chain {place : Place} {element : Element} {places : List Place}
    (ran : chain settings place element start = .ok places final)
    (stands : start.project.element? place = some element) : Turns settings start final := by
  rw [chain] at ran
  obtain ⟨_, _, got, ran⟩ := bind_ok.mp ran
  obtain ⟨rfl, rfl⟩ := get_ok.mp got
  exact turns_chainFrom ran stands List.mem_cons_self

theorem turns_inheritProperties {index : Nat} {place : Place} {u : Unit}
    (ran : inheritProperties index place start = .ok u final) : Turns settings start final := by
  have gave := modify_ok.mp ran
  split at gave
  next => exact gave ▸ .refl
  next => exact gave ▸ .single (.gained start index fun _ => rfl)

theorem turns_inheritFeatures {index : Nat} {place : Place} {u : Unit}
    (ran : inheritFeatures index place start = .ok u final) : Turns settings start final := by
  have gave := modify_ok.mp ran
  split at gave
  next => exact gave ▸ .refl
  next => exact gave ▸ .single (.gained start index fun _ => rfl)

theorem turns_resolveAncestors {index : Nat} {element : Element} {u : Unit}
    (ran : resolveAncestors settings index element start = .ok u final)
    (stands : start.project.element? (.authored index) = some element) : Turns settings start final := by
  rw [resolveAncestors] at ran
  obtain ⟨places, middle, climbed, ran⟩ := bind_ok.mp ran
  have gains : Turns settings middle final := by
    refine forM_ok (R := Turns settings) (fun _ => .refl) .trans (fun place _ s t gave => ?_) ran
    obtain ⟨_, between, properties, features⟩ := bind_ok.mp gave
    exact (turns_inheritProperties properties).trans (turns_inheritFeatures features)
  exact (turns_chain climbed stands).trans gains

theorem turns_resolveParent {index : Nat} {element : Element} {u : Unit}
    (ran : resolveParent settings index element start = .ok u final)
    (stands : (start.project.element? (.authored index)).isSome) : Turns settings start final := by
  rw [resolveParent] at ran
  cases has : parent? element with
  | none =>
    rw [has] at ran
    obtain ⟨-, rfl⟩ := pure_ok.mp ran
    exact .refl
  | some parent =>
    rw [has] at ran
    obtain ⟨answer, middle, resolved, ran⟩ := bind_ok.mp ran
    have turn : Turn settings start middle := turn_resolve_authored resolved
    cases answer with
    | none => exact (Relation.ReflTransGen.single turn).tail (turn_report ran)
    | some found =>
      have known := (resolve_ok resolved fun _ asks => Option.some.inj asks ▸ stands).2
      obtain ⟨places, _, climbed, ran⟩ := bind_ok.mp ran
      obtain ⟨-, rfl⟩ := pure_ok.mp ran
      exact .head turn (turns_chain climbed (known?_some known).1)

theorem turns_resolveLineage {index : Nat} {element : Element} {u : Unit}
    (ran : resolveLineage settings index element start = .ok u final)
    (stands : start.project.element? (.authored index) = some element) : Turns settings start final := by
  rw [resolveLineage] at ran
  obtain ⟨_, middle, ancestors, parent⟩ := bind_ok.mp ran
  have changes : Changes settings start _ := changes_resolveAncestors index element start
  rw [ancestors] at changes
  obtain ⟨later, standsLater, -⟩ := changes.extends.element? stands
  exact (turns_resolveAncestors ancestors stands).trans
    (turns_resolveParent parent (Option.isSome_of_eq_some standsLater))

theorem turns_resolveFeature {index : Nat} {user : Element} {feature : QualifiedName} {u : Unit}
    (ran : resolveFeature settings index user feature start = .ok u final) : Turns settings start final := by
  rw [resolveFeature] at ran
  obtain ⟨answer, middle, resolved, ran⟩ := bind_ok.mp ran
  have turn : Turn settings start middle := turn_resolve_none resolved
  cases answer with
  | none => exact (Relation.ReflTransGen.single turn).tail (turn_report ran)
  | some found =>
    have known := (resolve_ok resolved (by simp)).2
    obtain ⟨places, later, climbed, gave⟩ := bind_ok.mp ran
    have gains : Turns settings later final :=
      forM_ok (R := Turns settings) (fun _ => .refl) .trans (fun _ _ _ _ => turns_inheritProperties) gave
    exact .head turn ((turns_chain climbed (known?_some known).1).trans gains)

theorem turns_resolveType {typeName : String} {u : Unit}
    (ran : resolveType settings typeName start = .ok u final) : Turns settings start final := by
  rw [resolveType] at ran
  obtain ⟨answer, middle, resolved, ran⟩ := bind_ok.mp ran
  have turn : Turn settings start middle := turn_resolve_none resolved
  have known := (resolve_ok resolved (by simp)).2
  split at ran
  next =>
    obtain ⟨_, _, climbed, ran⟩ := bind_ok.mp ran
    obtain ⟨-, rfl⟩ := pure_ok.mp ran
    exact .head turn (turns_chain climbed (known?_some known).1)
  next =>
    obtain ⟨-, rfl⟩ := pure_ok.mp ran
    exact .single turn

theorem turns_resolveTypes (ran : resolveTypes settings start = .ok () final) : Turns settings start final := by
  rw [resolveTypes] at ran
  obtain ⟨_, _, got, ran⟩ := bind_ok.mp ran
  obtain ⟨rfl, rfl⟩ := get_ok.mp got
  exact forM_ok (R := Turns settings) (fun _ => .refl) .trans (fun _ _ _ _ => turns_resolveType) ran

theorem turns_resolveAction {request : Request} {action : Element}
    (ran : resolveAction settings request start = .ok action final) : Turns settings start final := by
  obtain ⟨reference, requester⟩ := request
  rw [resolveAction] at ran
  obtain ⟨answer, middle, resolved, ran⟩ := bind_ok.mp ran
  have turn : Turn settings start middle := turn_resolve_none resolved
  cases answer with
  | some found =>
    obtain ⟨-, rfl⟩ := pure_ok.mp ran
    exact .single turn
  | none =>
    have unknown : middle.known? [.action] reference none = none := (resolve_ok resolved (by simp)).2
    obtain ⟨_, later, reported, ran⟩ := bind_ok.mp ran
    obtain rfl := report_ok.mp reported
    obtain ⟨_, _, depended, ran⟩ := bind_ok.mp ran
    obtain ⟨-, rfl⟩ := depend_ok.mp depended
    obtain ⟨-, rfl⟩ := pure_ok.mp ran
    let missing := (Finding.actionMissing reference requester).reportOn reference ""
    have reports : Turn settings middle (middle.report missing) := .reported middle missing
    exact ((Relation.ReflTransGen.single turn).tail reports).tail (.stoodIn _ unknown)

theorem turns_resolveRequests {steps : Nat} {met : List Element.Key} {requests : List Request}
    (ran : resolveRequests settings steps met requests start = .ok () final) : Turns settings start final := by
  induction steps generalizing met requests start with
  | zero =>
    cases requests with
    | nil =>
      obtain ⟨-, rfl⟩ := pure_ok.mp ran
      exact .refl
    | cons => exact absurd ran throw_ok
  | succ steps ih =>
    cases requests with
    | nil =>
      obtain ⟨-, rfl⟩ := pure_ok.mp ran
      exact .refl
    | cons request rest =>
      rw [resolveRequests] at ran
      obtain ⟨action, middle, resolved, ran⟩ := bind_ok.mp ran
      have onward : Turns settings middle final := by
        split at ran
        next => exact ih ran
        next => exact ih ran
      exact (turns_resolveAction resolved).trans onward

theorem turns_resolveActions (ran : resolveActions settings start = .ok () final) : Turns settings start final := by
  rw [resolveActions] at ran
  obtain ⟨_, _, got, ran⟩ := bind_ok.mp ran
  obtain ⟨rfl, rfl⟩ := get_ok.mp got
  exact turns_resolveRequests ran

theorem respects_turns : Respects settings (Turns settings) where
  refl _ := .refl
  trans := .trans
  resolves ran := .single (turn_resolve_none ran)
  reports state entry := .single (.reported state entry)

theorem turns_resolveLayout {index : Nat} {element : Element} {u : Unit}
    (ran : resolveLayout settings index element start = .ok u final) : Turns settings start final := by
  rcases resolveLayout_cases ran with ⟨-, rfl⟩ | ⟨layout, _, -, rfl, done, rfl⟩
  · exact .refl
  · exact (respects_expand respects_turns done).tail (.gained _ index fun _ => rfl)

/-- A whole run that comes to its end is a sequence of turns. -/
theorem turns_all (ran : Resolving.all settings start = .ok () final) : Turns settings start final := by
  obtain ⟨lineaged, featured, typed, bound, lineages, features, types, actions, layouts⟩ := all_ok ran
  have toLineaged : Turns settings start lineaged :=
    respects_overAuthored (fun _ => .refl) .trans
      (fun _ _ _ _ stands visited => turns_resolveLineage visited stands) lineages
  have toFeatured : Turns settings lineaged featured := by
    refine respects_overAuthored (fun _ => .refl) .trans (fun _ _ _ _ _ visited => ?_) features
    exact forM_ok (R := Turns settings) (fun _ => .refl) .trans (fun _ _ _ _ => turns_resolveFeature) visited
  have toBound : Turns settings featured bound := (turns_resolveTypes types).trans (turns_resolveActions actions)
  have toFinal : Turns settings bound final :=
    respects_overAuthored (fun _ => .refl) .trans (fun _ _ _ _ _ visited => turns_resolveLayout visited) layouts
  exact ((toLineaged.trans toFeatured).trans toBound).trans toFinal

end Resolving
end Requirements
