import Mathlib.Logic.Relation
import Requirements.Proofs.Property.Kept
import Requirements.Proofs.Resolution.Passes
import Requirements.Proofs.Resolution.Searches

/-! What may happen to a resolution, one thing at a time. Following references changes no
declaration; only inheriting, placeholders and layouts change more than counts of uses. A law
that every single change keeps is a law of all runs, also of those that fail. -/
namespace Requirements

/-- The state that a step leaves, also when it fails. -/
def stateAfter {ε σ α : Type} : EStateM.Result ε σ α → σ
  | .ok _ state => state
  | .error _ state => state

/-- References that the bindings of authored elements lead to, by way of calls. -/
inductive Project.Reached (project : Project) : QualifiedName → Prop
  | handler {element : Element} {binding : Binding} (authored : element ∈ project.authored.elements)
      (bound : binding ∈ element.bindings) : Reached project binding.handler
  | call {reference target : QualifiedName} {place : Place} {action : Element}
      (reached : Reached project reference) (leads : project.action? reference = some (place, action))
      (calls : target ∈ action.calls) : Reached project target

namespace Resolution

def push (element : Element) (state : Resolution) : Resolution :=
  { state with project :=
    { state.project with dependencies := state.project.dependencies.push element } }

variable (settings : Settings)

/-- What following a reference may do: repositories are loaded, a document is read, an element
is used once more or drawn from a document, and something is reported that is no error. -/
inductive Following : Resolution → Resolution → Prop
  | loaded (state : Resolution) (kind : ReferenceKind) (id : String) (domain : Option String) :
      Following state
        { state with workspace := stateAfter (Workspace.find settings kind id domain state.workspace) }
  | opened (state : Resolution) {path : Path} {file : String} {document : Document}
      (reads : state.workspace.disk.parse path file = .ok document) :
      Following state { state with parsed := state.parsed ++ [(path, document)] }
  | used (state : Resolution) (place : Place) :
      Following state { state with project := state.project.modify Element.used place }
  | drawn (state : Resolution) {element : Element} (read : state.Read element) :
      Following state (state.push element.used)
  | reported (state : Resolution) (entry : Report) (warns : ¬entry.isError) :
      Following state (state.report entry)

/-- What a resolution may do. A placeholder stands in only for an action that is reached, not
known and not found; a layout only gets nodes that keep those it has. -/
inductive Change : Resolution → Resolution → Prop
  | followed {start final : Resolution} (step : Following settings start final) : Change start final
  | inherited (state : Resolution) (index : Nat) (layer : Element) :
      Change state (state.modifyAuthored index fun own =>
        { own with properties := Property.inherit own.properties layer.properties })
  | mixedIn (state : Resolution) (index : Nat) (layer : Element) :
      Change state (state.modifyAuthored index fun own =>
        { own with features := Resolving.addFeatures own.features layer.features })
  | stoodIn (state : Resolution) {reference : QualifiedName}
      (reached : state.project.Reached reference)
      (unknown : state.known? [.action] reference none = none)
      (searched : state.Searched .action reference) :
      Change state (state.push (Element.emptyAction reference).used)
  | laidOut (state : Resolution) (index : Nat) (nodes : List Property)
      (kept : ∀ view layout, state.project.element? (.authored index) = some view →
        Property.find? Property.layoutKey view.properties = some layout →
        Property.Kept layout.attributes nodes) :
      Change state (state.modifyAuthored index fun own =>
        { own with properties :=
          Property.modifyFirst Property.layoutKey ({ · with attributes := nodes }) own.properties })

abbrev Follows : Resolution → Resolution → Prop := Relation.ReflTransGen (Following settings)

abbrev Changes : Resolution → Resolution → Prop := Relation.ReflTransGen (Change settings)

end Resolution

/-- What was written stays: only properties are added, or filled where they have gaps, features
are added behind, and uses are counted. -/
structure Element.Preserved (old new : Element) : Prop where
  outline : new.outline = old.outline
  uses : old.uses ≤ new.uses
  features : old.features <+: new.features
  properties : Property.Kept old.properties new.properties

theorem Element.Preserved.refl (element : Element) : element.Preserved element :=
  ⟨rfl, Nat.le_refl _, List.prefix_rfl, .refl _⟩

theorem Element.Preserved.trans {a b c : Element} (first : a.Preserved b) (second : b.Preserved c) :
    a.Preserved c :=
  ⟨second.outline.trans first.outline, Nat.le_trans first.uses second.uses,
    first.features.trans second.features, first.properties.trans second.properties⟩

theorem Element.preserved_used (element : Element) : element.Preserved element.used := by
  refine ⟨rfl, ?_, List.prefix_rfl, .refl _⟩
  change element.uses ≤ if element.uses < maxUses then element.uses + 1 else element.uses
  split <;> omega

theorem Resolving.prefix_addFeatures (own more : List QualifiedName) :
    own <+: Resolving.addFeatures own more := by
  induction more generalizing own with
  | nil => exact List.prefix_rfl
  | cons feature rest ih =>
    rw [addFeatures_cons, addFeatures_singleton]
    split
    · exact ih own
    · exact (List.prefix_append own [feature]).trans (ih _)

namespace Resolution

structure Preserves (start final : Resolution) : Prop where
  length : final.project.authored.elements.length = start.project.authored.elements.length
  element : ∀ index old, start.project.element? (.authored index) = some old →
    ∃ new, final.project.element? (.authored index) = some new ∧ old.Preserved new

variable {settings : Settings} {start final : Resolution}

theorem Preserves.refl (state : Resolution) : Preserves state state :=
  ⟨rfl, fun _ old stands => ⟨old, stands, .refl old⟩⟩

theorem Preserves.trans {a b c : Resolution} (first : Preserves a b) (second : Preserves b c) :
    Preserves a c := by
  refine ⟨second.length.trans first.length, fun index old stands => ?_⟩
  obtain ⟨middle, standsThen, kept⟩ := first.element index old stands
  obtain ⟨new, standsNow, keptOn⟩ := second.element index middle standsThen
  exact ⟨new, standsNow, kept.trans keptOn⟩

theorem preserves_of_eq (same : final.project.authored = start.project.authored) :
    Preserves start final := by
  refine ⟨by rw [same], fun index old stands => ⟨old, ?_, .refl old⟩⟩
  rw [← stands]
  exact congrArg (·.elements[index]?) same

theorem preserves_modifyAuthored {change : Element → Element} {index : Nat}
    (keeps : ∀ own, start.project.element? (.authored index) = some own → own.Preserved (change own)) :
    Preserves start (start.modifyAuthored index change) := by
  refine ⟨Document.length_modify _ _ _, fun other old stands => ?_⟩
  rw [modifyAuthored, Project.element?_modify, stands]
  split
  next same =>
    obtain rfl := Place.authored.inj same
    exact ⟨change old, rfl, keeps old stands⟩
  next => exact ⟨old, rfl, .refl old⟩

theorem Following.preserves (step : Following settings start final) : Preserves start final := by
  cases step with
  | used place =>
    cases place with
    | authored index => exact preserves_modifyAuthored fun own _ => own.preserved_used
    | dependency index => exact preserves_of_eq rfl
  | _ => exact preserves_of_eq rfl

theorem Change.preserves (change : Change settings start final) : Preserves start final := by
  cases change with
  | followed step => exact step.preserves
  | inherited index layer =>
    exact preserves_modifyAuthored fun own _ =>
      ⟨rfl, Nat.le_refl _, List.prefix_rfl, Property.kept_inherit layer.properties own.properties⟩
  | mixedIn index layer =>
    exact preserves_modifyAuthored fun own _ =>
      ⟨rfl, Nat.le_refl _, Resolving.prefix_addFeatures own.features layer.features, .refl _⟩
  | stoodIn => exact preserves_of_eq rfl
  | laidOut index nodes kept =>
    refine preserves_modifyAuthored fun own stands => ⟨rfl, Nat.le_refl _, List.prefix_rfl, ?_⟩
    refine Property.kept_modifyFirst fun layout found => ⟨?_, kept own layout stands found⟩
    have isLayout := Property.key_of_find? found
    exact ⟨rfl, rfl, rfl, fun _ => rfl, fun _ => ⟨rfl, rfl, rfl⟩, fun _ other => absurd isLayout other⟩

theorem extends_push (element : Element) (state : Resolution) : Extends state (state.push element) := by
  refine ⟨rfl, ?_, List.prefix_rfl, List.prefix_rfl⟩
  change _ <+: (state.project.dependencies.elements ++ [element]).map _
  rw [List.map_append]
  exact List.prefix_append _ _

theorem Following.grows (step : Following settings start final) : Grows start final := by
  cases step with
  | loaded => exact ⟨rfl, List.prefix_rfl, List.prefix_rfl, List.prefix_rfl,
      fun _ member => .inl (List.mem_map_of_mem member)⟩
  | opened => exact ⟨rfl, List.prefix_rfl, List.prefix_append _ _, List.prefix_rfl,
      fun _ member => .inl (List.mem_map_of_mem member)⟩
  | used place => exact Resolving.grows_used start place
  | drawn read => exact Resolving.grows_depend rfl ⟨_, read, rfl⟩
  | reported entry => exact Resolving.grows_report entry

theorem Change.extends (change : Change settings start final) : Extends start final := by
  cases change with
  | followed step => exact step.grows.extends
  | stoodIn => exact extends_push _ start
  | inherited | mixedIn | laidOut => exact extends_modifyAuthored (by simp [Element.outline]) start _

theorem dependency_push {state : Resolution} {added element : Element} {index : Nat}
    (stands : (state.push added).project.element? (.dependency index) = some element) :
    state.project.element? (.dependency index) = some element ∨
      index = state.project.dependencies.elements.length ∧ element = added := by
  change (state.project.dependencies.elements ++ [added])[index]? = some element at stands
  rw [List.getElem?_append] at stands
  split at stands
  · exact .inl stands
  · obtain ⟨offset, same⟩ := List.getElem?_eq_some_iff.mp stands
    rw [List.length_singleton] at offset
    exact .inr ⟨by omega, by simpa using same.symm⟩

theorem dependency_used {state : Resolution} {place : Place} {element : Element} {index : Nat}
    (stands : (state.project.modify Element.used place).element? (.dependency index) = some element) :
    ∃ former, state.project.element? (.dependency index) = some former ∧
      former.uncounted = element.uncounted := by
  rw [Project.element?_modify] at stands
  split at stands
  · obtain ⟨former, stood, rfl⟩ := Option.map_eq_some_iff.mp stands
    exact ⟨former, stood, rfl⟩
  · exact ⟨element, stands, rfl⟩

/-- A dependency stood there before, or it was read from a document, or it stands in for an
action that is reached and was searched for in vain. -/
theorem Change.origin (change : Change settings start final) {index : Nat} {element : Element}
    (stands : final.project.element? (.dependency index) = some element) :
    (∃ former, start.project.element? (.dependency index) = some former ∧
        former.uncounted = element.uncounted) ∨
      (∃ declared, final.Read declared ∧ declared.uncounted = element.uncounted) ∨
      ∃ reference, element = (Element.emptyAction reference).used ∧
        start.project.Reached reference ∧ final.Searched .action reference ∧
        final.known? [.action] reference none = some (.dependency index, element) := by
  cases change with
  | followed step =>
    cases step with
    | used place => exact .inl (dependency_used stands)
    | drawn read =>
      rcases dependency_push stands with stood | ⟨-, rfl⟩
      · exact .inl ⟨element, stood, rfl⟩
      · exact .inr (.inl ⟨_, read, rfl⟩)
    | loaded | opened | reported => exact .inl ⟨element, stands, rfl⟩
  | stoodIn reached unknown searched =>
    rename_i reference
    rcases dependency_push stands with stood | ⟨rfl, rfl⟩
    · exact .inl ⟨element, stood, rfl⟩
    · refine .inr (.inr ⟨reference, rfl, reached, searched.later rfl List.prefix_rfl, ?_⟩)
      refine Resolving.known?_depend unknown (Resolving.depend_ok.mpr ⟨rfl, rfl⟩) (by simp) ?_
      simp [Element.isDesignated, Element.used, Element.emptyAction]
  | inherited | mixedIn | laidOut => exact .inl ⟨element, stands, rfl⟩

/-- A relation that each change respects is respected by all changes together. -/
theorem Changes.respect {R : Resolution → Resolution → Prop} (refl : ∀ s, R s s)
    (trans : ∀ {a b c}, R a b → R b c → R a c)
    (each : ∀ {s t}, Change settings s t → R s t) (changes : Changes settings start final) :
    R start final := by
  induction changes with
  | refl => exact refl start
  | tail _ change ih => exact trans ih (each change)

theorem Changes.preserves (changes : Changes settings start final) : Preserves start final :=
  changes.respect .refl .trans Change.preserves

theorem Changes.extends (changes : Changes settings start final) : Extends start final :=
  changes.respect .refl .trans Change.extends

theorem Follows.changes (follows : Follows settings start final) : Changes settings start final :=
  Relation.ReflTransGen.mono (fun _ _ => Change.followed) _ _ follows

theorem Follows.grows (follows : Follows settings start final) : Grows start final := by
  induction follows with
  | refl => exact .refl start
  | tail _ step ih => exact ih.trans step.grows

theorem Extends.action? (extended : Extends start final) {reference : QualifiedName} {place : Place}
    {action : Element} (leads : start.project.action? reference = some (place, action)) :
    ∃ later, final.project.action? reference = some (place, later) ∧ later.outline = action.outline := by
  rw [← known?_eq_action?] at leads ⊢
  exact extended.known? leads

/-- What was reached stays in reach. -/
theorem Changes.reached (changes : Changes settings start final) {reference : QualifiedName}
    (reached : start.project.Reached reference) : final.project.Reached reference := by
  induction reached with
  | handler authored bound =>
    obtain ⟨index, at?⟩ := List.mem_iff_getElem?.mp authored
    obtain ⟨new, stands, kept⟩ := changes.preserves.element index _ at?
    exact .handler (List.mem_of_getElem? stands) (Element.mem_bindings_of_kept kept.properties bound)
  | call _ leads calls ih =>
    obtain ⟨later, leadsLater, alike⟩ := changes.extends.action? leads
    have sameCalls := congrArg Element.calls alike
    exact .call ih leadsLater (sameCalls ▸ calls)

end Resolution
end Requirements
