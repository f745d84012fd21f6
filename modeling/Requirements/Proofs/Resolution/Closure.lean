import Requirements.Proofs.Check.Lineage
import Requirements.Proofs.Document.Names
import Requirements.Proofs.Resolution.Runs

/-! Actions that are reached. Working off requests settles references together with the calls
of the actions they lead to, so all that is reached from bindings leads to an action. An action
of a key that was met needs no second look: names that were read make it the same action. -/
namespace Requirements

namespace Element

theorem dotless_of_outline {a b : Element} (alike : a.outline = b.outline) (dotless : a.Dotless) :
    b.Dotless := by
  have sameName : a.name = b.name := (congrArg Element.name alike :)
  have sameCalls : a.calls = b.calls := (congrArg Element.calls alike :)
  exact ⟨sameName ▸ dotless.name, sameCalls ▸ dotless.calls⟩

theorem dotless_handler {element : Element} {binding : Binding} (bound : binding ∈ element.bindings) :
    binding.handler.Dotless := by
  rw [bindings] at bound
  split at bound
  next =>
    obtain ⟨entry, -, binds⟩ := List.mem_filterMap.mp bound
    obtain ⟨handler, -, rfl⟩ := Option.map_eq_some_iff.mp binds
    exact QualifiedName.dotless_parse handler
  next => cases bound

end Element

/-- Two searches that could each have stopped where the other did stop at the same place. -/
theorem eq_of_find? {α : Type} {p q : α → Bool} {items : List α} {x y : α}
    (foundX : items.find? p = some x) (foundY : items.find? q = some y) (meetsY : p y) (meetsX : q x) :
    x = y := by
  induction items with
  | nil => cases foundX
  | cons item rest ih =>
    rw [List.find?_cons] at foundX foundY
    split at foundX
    next =>
      obtain rfl := Option.some.inj foundX
      simpa [meetsX] using foundY
    next unmet =>
      split at foundY
      next =>
        obtain rfl := Option.some.inj foundY
        simp [meetsY] at unmet
      next => exact ih foundX foundY

namespace Resolution

variable {settings : Settings} {start final : Resolution}

/-- References that lead to actions of one name lead to one place. -/
theorem known?_of_name {state : Resolution} {a b : QualifiedName} {placeA placeB : Place}
    {actionA actionB : Element} (knownA : state.known? [.action] a none = some (placeA, actionA))
    (knownB : state.known? [.action] b none = some (placeB, actionB))
    (same : actionA.name = actionB.name) : (placeA, actionA) = (placeB, actionB) := by
  obtain ⟨-, -, designatedA⟩ := known?_some knownA
  obtain ⟨-, -, designatedB⟩ := known?_some knownB
  have sameKind : actionA.kind = actionB.kind :=
    (Element.kind_of_designated designatedA).trans (Element.kind_of_designated designatedB).symm
  refine eq_of_find? knownA knownB ?_ ?_
  · simpa [Element.isDesignated, same, sameKind] using designatedA
  · simpa [Element.isDesignated, same, sameKind] using designatedB

/-- No element of the project, nor of a document that was read, has or calls an id with a dot. -/
structure Dotless (state : Resolution) : Prop where
  placed : ∀ place element, state.project.element? place = some element → element.Dotless
  read : ∀ element, state.Read element → element.Dotless

theorem Dotless.reached {state : Resolution} (dotless : state.Dotless) {reference : QualifiedName}
    (reached : state.project.Reached reference) : reference.Dotless := by
  cases reached with
  | handler _ bound => exact Element.dotless_handler bound
  | call _ leads calls =>
    rw [← known?_eq_action?] at leads
    exact (dotless.placed _ _ (known?_some leads).1).calls _ calls

theorem Following.dotless_read (step : Following settings start final)
    (dotless : ∀ element, start.Read element → element.Dotless) :
    ∀ element, final.Read element → element.Dotless := by
  intro element read
  cases step with
  | opened reads =>
    obtain ⟨path, document, member, declared⟩ := read
    rcases List.mem_append.mp member with before | last
    · exact dotless element ⟨path, document, before, declared⟩
    · obtain ⟨rfl, rfl⟩ := Prod.mk.inj (List.mem_singleton.mp last)
      exact Disk.dotless_parse reads element declared
  | loaded | used | drawn | reported => exact dotless element read

theorem Change.dotless (change : Change settings start final) (dotless : start.Dotless) :
    final.Dotless := by
  have read : ∀ element, final.Read element → element.Dotless := by
    cases change with
    | followed step => exact step.dotless_read dotless.read
    | inherited | mixedIn | stoodIn | laidOut => exact dotless.read
  refine ⟨fun place element stands => ?_, read⟩
  cases place with
  | authored index =>
    obtain ⟨former, stood, alike⟩ := change.extends.former stands
    exact Element.dotless_of_outline alike (dotless.placed (.authored index) former stood)
  | dependency index =>
    rcases change.origin stands with ⟨former, stood, same⟩ | ⟨declared, wasRead, same⟩ | ⟨_, rfl, reached, -⟩
    · exact Element.dotless_of_outline (Element.outline_of_uncounted same) (dotless.placed _ former stood)
    · exact Element.dotless_of_outline (Element.outline_of_uncounted same) (read declared wasRead)
    · exact ⟨dotless.reached reached, by simp [Element.used, Element.emptyAction]⟩

theorem Changes.dotless (changes : Changes settings start final) (dotless : start.Dotless) :
    final.Dotless := by
  induction changes with
  | refl => exact dotless
  | tail _ change ih => exact change.dotless ih

theorem Dotless.former (dotless : final.Dotless) (extended : Extends start final) : start.Dotless := by
  refine ⟨fun place element stands => ?_, fun element read => dotless.read element (read.later extended.parsed)⟩
  obtain ⟨later, standsLater, alike⟩ := extended.element? stands
  exact Element.dotless_of_outline alike (dotless.placed place later standsLater)

/-- The references lead to actions, and to what these call, but for what was met before. -/
def Settles (state : Resolution) (met : List Element.Key) (settled : List QualifiedName) : Prop :=
  ∀ reference ∈ settled, ∃ place action, state.known? [.action] reference none = some (place, action) ∧
    (action.key ∈ met ∨ action.calls ⊆ settled)

section Settles

variable {state : Resolution} {met : List Element.Key} {settled : List QualifiedName}
  {reference : QualifiedName} {place : Place} {action : Element}

theorem Settles.cons (settles : state.Settles met settled)
    (known : state.known? [.action] reference none = some (place, action))
    (covered : action.key ∈ met ∨ action.calls ⊆ settled) : state.Settles met (reference :: settled) := by
  intro other member
  rcases List.mem_cons.mp member with rfl | behind
  · exact ⟨place, action, known, covered.imp_right (List.subset_cons_of_subset _)⟩
  · obtain ⟨placed, found, leads, foundCovered⟩ := settles other behind
    exact ⟨placed, found, leads, foundCovered.imp_right (List.subset_cons_of_subset _)⟩

/-- An action whose calls are settled need not have been met: what has its key is this action. -/
theorem Settles.forget (settles : state.Settles (action.key :: met) settled) (dotless : state.Dotless)
    (known : state.known? [.action] reference none = some (place, action))
    (called : action.calls ⊆ settled) : state.Settles met settled := by
  intro other member
  obtain ⟨placed, found, leads, covered⟩ := settles other member
  refine ⟨placed, found, leads, ?_⟩
  rcases covered with isMet | callsSettled
  · rcases List.mem_cons.mp isMet with same | before
    · have sameName := Element.name_of_key (dotless.placed _ _ (known?_some leads).1)
        (dotless.placed _ _ (known?_some known).1) same
      obtain ⟨-, rfl⟩ := Prod.mk.inj (known?_of_name leads known sameName)
      exact .inr called
    · exact .inl before
  · exact .inr callsSettled

end Settles

end Resolution

namespace Resolving

open Resolution

variable {settings : Settings} {start final : Resolution}

/-- What is requested gets settled. The calls of an action follow when it is met first. -/
theorem settles_resolveRequests {steps : Nat} {met : List Element.Key} {requests : List Request}
    (ran : resolveRequests settings steps met requests start = .ok () final) (dotless : final.Dotless) :
    ∃ settled, (∀ request ∈ requests, request.1 ∈ settled) ∧ final.Settles met settled := by
  induction steps generalizing met requests start with
  | zero =>
    cases requests with
    | nil => exact ⟨[], by simp, by simp [Settles]⟩
    | cons request rest => exact absurd ran throw_ok
  | succ steps ih =>
    cases requests with
    | nil => exact ⟨[], by simp, by simp [Settles]⟩
    | cons request rest =>
      rw [resolveRequests] at ran
      obtain ⟨action, middle, resolved, ran⟩ := bind_ok.mp ran
      obtain ⟨-, place, known⟩ := resolveAction_ok resolved
      split at ran
      next metBefore =>
        obtain ⟨later, knownLater, alike⟩ := (resolveRequests_ok ran).1.extended.known? known
        obtain ⟨settled, requested, settles⟩ := ih ran
        have isMet : later.key ∈ met := Element.key_eq alike ▸ by simpa using metBefore
        refine ⟨request.1 :: settled, fun other member => ?_, settles.cons knownLater (.inl isMet)⟩
        rcases List.mem_cons.mp member with rfl | behind
        · exact List.mem_cons_self
        · exact List.mem_cons_of_mem _ (requested other behind)
      next =>
        obtain ⟨later, knownLater, alike⟩ := (resolveRequests_ok ran).1.extended.known? known
        obtain ⟨settled, requested, settles⟩ := ih ran
        have sameCalls : later.calls = action.calls := (congrArg Element.calls alike :)
        have called : later.calls ⊆ settled := by
          intro target calls
          refine requested (target, action.name) (List.mem_append_right _ ?_)
          exact List.mem_map_of_mem (sameCalls ▸ calls)
        rw [← Element.key_eq alike] at settles
        refine ⟨request.1 :: settled, fun other member => ?_,
          (settles.forget dotless knownLater called).cons knownLater (.inr called)⟩
        rcases List.mem_cons.mp member with rfl | behind
        · exact List.mem_cons_self
        · exact List.mem_cons_of_mem _ (requested other (List.mem_append_left _ behind))

theorem settles_resolveActions (ran : resolveActions settings start = .ok () final)
    (dotless : final.Dotless) : ∃ settled, final.Settles [] settled ∧
      ∀ element ∈ start.project.authored.elements, ∀ binding ∈ element.bindings,
        binding.handler ∈ settled := by
  rw [resolveActions] at ran
  obtain ⟨_, _, got, ran⟩ := bind_ok.mp ran
  obtain ⟨rfl, rfl⟩ := get_ok.mp got
  obtain ⟨settled, requested, settles⟩ := settles_resolveRequests ran dotless
  refine ⟨settled, settles, fun element member binding bound => ?_⟩
  refine requested (binding.handler, element.name) (List.mem_flatMap.mpr ⟨element, member, ?_⟩)
  exact List.mem_map_of_mem bound

/-- All that is reached in the end was settled with the actions. -/
theorem settled_of_reached (ran : Resolving.all settings start = .ok () final) (dotless : final.Dotless)
    {reference : QualifiedName} (reached : final.project.Reached reference) :
    ∃ place action, final.known? [.action] reference none = some (place, action) := by
  obtain ⟨_, _, typed, bound, -, -, -, actions, layouts⟩ := all_ok ran
  obtain ⟨extended, sameBindings⟩ := resolveLayouts_ok layouts
  have kept := congrArg (List.map Element.bindings) (resolveActions_ok actions).1.authored
  rw [List.map_map, List.map_map] at kept
  obtain ⟨settled, settles, handlers⟩ := settles_resolveActions actions (dotless.former extended)
  have member : reference ∈ settled := by
    induction reached with
    | handler authored binds =>
      rename_i element binding
      have inTyped : element.bindings ∈ typed.project.authored.elements.map Element.bindings :=
        kept ▸ sameBindings ▸ List.mem_map_of_mem authored
      obtain ⟨former, inFormer, same⟩ := List.mem_map.mp inTyped
      exact handlers former inFormer binding (same ▸ binds)
    | call _ leads calls ih =>
      obtain ⟨place, action, known, covered⟩ := settles _ ih
      obtain ⟨later, knownLater, alike⟩ := extended.known? known
      rw [known?_eq_action?, leads] at knownLater
      obtain ⟨-, rfl⟩ := Prod.mk.inj (Option.some.inj knownLater)
      have sameCalls := congrArg Element.calls alike
      exact covered.resolve_left (by simp) (sameCalls ▸ calls)
  obtain ⟨place, action, known, -⟩ := settles reference member
  obtain ⟨later, knownLater, -⟩ := extended.known? known
  exact ⟨place, later, knownLater⟩

end Resolving

open Resolution Resolving

theorem dotless_of_resolved {settings : Settings} {authored : Document} {workspace : Workspace}
    {final : Resolution} (dotless : ∀ element ∈ authored.elements, element.Dotless)
    (ran : authored.resolved settings workspace = .ok () final) : final.Dotless := by
  let start : Resolution := { project := { authored }, workspace }
  have changes : Changes settings start (stateAfter (authored.resolved settings workspace)) :=
    changes_all start
  rw [ran] at changes
  refine Changes.dotless changes ⟨fun place element stands => ?_, fun element read => ?_⟩
  · cases place with
    | authored index => exact dotless element (List.mem_of_getElem? stands)
    | dependency index => simp [start, Project.element?] at stands
  · obtain ⟨_, _, member, -⟩ := read
    simp [start] at member

/-- After a resolution nothing dangles: whatever the bindings of authored elements reach by way
of calls, however these lead around in circles, leads to an action. -/
theorem action_of_reached {settings : Settings} {authored : Document} {workspace : Workspace}
    {final : Resolution} (dotless : ∀ element ∈ authored.elements, element.Dotless)
    (ran : authored.resolved settings workspace = .ok () final) {reference : QualifiedName}
    (reached : final.project.Reached reference) :
    ∃ place action, final.project.action? reference = some (place, action) := by
  obtain ⟨place, action, known⟩ := settled_of_reached ran (dotless_of_resolved dotless ran) reached
  exact ⟨place, action, known?_eq_action? final reference ▸ known⟩

/-- An application that binds an action of the library, where it is called in turn by what it calls. -/
def savingOnOpen : Document :=
  { elements :=
    [{ kind := .application, name := ⟨"Shop", some "acme"⟩
       properties :=
         [{ key := "events", attributes := [{ key := "onOpen", value := some "lib.Save" }] }] }] }

def savingLibrary : Workspace :=
  .withLibrary "domain lib; action Save \x7b call Load; \x7d action Load \x7b call Save; call Tell; \x7d"

theorem action_of_reached_circle :
    ∃ final, savingOnOpen.resolved {} savingLibrary = .ok () final ∧
      final.project.Reached ⟨"Tell", none⟩ ∧
      ∃ place action, final.project.action? ⟨"Tell", none⟩ = some (place, action) := by
  have ends : ends (fun _ final =>
      (final.project.authored.elements.any fun element =>
        element.bindings.contains ⟨"onOpen", ⟨"Save", some "lib"⟩⟩) &&
      ((final.project.action? ⟨"Save", some "lib"⟩).any (·.2.calls.contains ⟨"Load", none⟩)) &&
      (final.project.action? ⟨"Load", none⟩).any (·.2.calls.contains ⟨"Tell", none⟩))
      (savingOnOpen.resolved {} savingLibrary) := by decide +kernel
  obtain ⟨_, final, ran, meets⟩ := ok_of_ends ends
  simp only [Bool.and_eq_true, List.any_eq_true, Option.any_eq_true, List.contains_iff_mem] at meets
  obtain ⟨⟨⟨element, authored, bound⟩, ⟨_, save⟩, saves, callsLoad⟩, ⟨_, load⟩, loads, callsTell⟩ := meets
  have reached : final.project.Reached ⟨"Tell", none⟩ :=
    .call (.call (.handler authored bound) saves callsLoad) loads callsTell
  have dotless : ∀ element ∈ savingOnOpen.elements, element.Dotless := by
    intro element member
    obtain rfl := List.mem_singleton.mp member
    exact ⟨by simp [QualifiedName.Dotless], by simp⟩
  exact ⟨final, ran, reached, action_of_reached dotless ran reached⟩

end Requirements
