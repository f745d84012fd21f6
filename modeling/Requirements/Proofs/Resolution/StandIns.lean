import Requirements.Proofs.Resolution.Closure

/-! Placeholders. One stands in for an action only where a search found none. But a reference
without a domain may lead to the placeholder of a name with one, and then an action that is
declared under its id is passed over. -/
namespace Requirements

/-- A reference designates another name than itself only for want of a domain. -/
theorem QualifiedName.domain_of_designates {reference target : QualifiedName}
    (designated : reference.designates target) (differ : reference ≠ target) :
    reference.domain = none ∧ target.id = reference.id ∧ target.domain.isSome := by
  obtain ⟨id, domain⟩ := reference
  obtain ⟨targetId, targetDomain⟩ := target
  simp only [designates, Bool.and_eq_true, beq_iff_eq] at designated
  obtain ⟨rfl, sameDomain⟩ := designated
  cases domain with
  | none =>
    refine ⟨rfl, rfl, Option.isSome_iff_ne_none.mpr fun absent => differ ?_⟩
    exact congrArg (QualifiedName.mk id) absent.symm
  | some domain =>
    obtain rfl : some domain = targetDomain := by simpa using sameDomain
    exact absurd rfl differ

namespace Resolution

/-- A search for the reference finds a document that declares an element of the kind, outside the
project. -/
def provides (settings : Settings) (state : Resolution) (kind : ElementKind) (reference : QualifiedName) : Bool :=
  ends (fun hits searched => hits.any fun hit => hit.repository != .project &&
      ends (fun document _ => document.elements.any (·.isDesignated [kind] reference))
        (Resolving.documentOf hit searched))
    (Resolving.search (Workspace.find settings (.element kind) reference.id reference.domain) state)

def offers (settings : Settings) (state : Resolution) (reference : QualifiedName) : Bool :=
  state.provides settings .action reference

def Declares (state : Resolution) (place : Place) (element : Element) : Prop :=
  (∃ index, place = .authored index) ∨
    ∃ declared, state.Read declared ∧ declared.uncounted = element.uncounted

/-- The element is the empty action for a name that is reached and was searched for in vain. -/
structure StandsIn (state : Resolution) (place : Place) (element : Element) (missing : QualifiedName) :
    Prop where
  empty : element.uncounted = Element.emptyAction missing
  reached : state.project.Reached missing
  leads : state.known? [.action] missing none = some (place, element)
  searched : state.Searched .action missing

def Accounted (state : Resolution) : Prop :=
  ∀ index element, state.project.element? (.dependency index) = some element →
    state.Declares (.dependency index) element ∨ ∃ missing, state.StandsIn (.dependency index) element missing

variable {settings : Settings} {start final : Resolution}

theorem Searched.followed {kind : ElementKind} {reference : QualifiedName}
    (searched : start.Searched kind reference) (step : Following settings start final) :
    final.Searched kind reference := by
  refine searched.later ?_ step.grows.parsed
  cases step with
  | loaded kind id domain =>
    change stateAfter (Workspace.find settings kind id domain start.workspace) = start.workspace
    rw [Workspace.find_of_loaded searched.loaded, stateAfter]
  | opened | used | drawn | reported => rfl

theorem Searched.changed {kind : ElementKind} {reference : QualifiedName}
    (searched : start.Searched kind reference) (change : Change settings start final) :
    final.Searched kind reference := by
  cases change with
  | followed step => exact searched.followed step
  | inherited | mixedIn | stoodIn | laidOut => exact searched.later rfl List.prefix_rfl

theorem Changes.searched {kind : ElementKind} {reference : QualifiedName} (changes : Changes settings start final)
    (searched : start.Searched kind reference) : final.Searched kind reference := by
  induction changes with
  | refl => exact searched
  | tail _ change ih => exact ih.changed change

/-- What was searched for in vain is not provided. -/
theorem Searched.not_provides {state : Resolution} {kind : ElementKind} {reference : QualifiedName}
    (searched : state.Searched kind reference) : ¬state.provides settings kind reference := by
  intro provided
  rw [provides, Resolving.search, Workspace.find_of_loaded searched.loaded] at provided
  obtain ⟨hit, member, opens⟩ := List.any_eq_true.mp provided
  simp only [Bool.and_eq_true, bne_iff_ne] at opens
  obtain ⟨path, document, read, nothing⟩ := searched.nothing hit member opens.1
  have declared := opens.2
  rw [Resolving.documentOf, read] at declared
  obtain ⟨element, inDocument, designated⟩ := List.any_eq_true.mp declared
  exact nothing element inDocument designated

theorem Searched.not_offers {state : Resolution} {reference : QualifiedName}
    (searched : state.Searched .action reference) : ¬state.offers settings reference :=
  searched.not_provides

theorem StandsIn.changed {place : Place} {former element : Element} {missing : QualifiedName}
    (standsIn : start.StandsIn place former missing) (change : Change settings start final)
    (stands : final.project.element? place = some element) (alike : former.uncounted = element.uncounted) :
    final.StandsIn place element missing := by
  obtain ⟨later, leads, -⟩ := change.extends.known? standsIn.leads
  obtain rfl := Option.some.inj ((known?_some leads).1.symm.trans stands)
  have changes : Changes settings start final := .single change
  exact ⟨alike ▸ standsIn.empty, changes.reached standsIn.reached, leads, standsIn.searched.changed change⟩

theorem Change.accounted (change : Change settings start final) (accounted : start.Accounted) :
    final.Accounted := by
  intro index element stands
  rcases change.origin stands with ⟨former, stood, alike⟩ | read | ⟨missing, rfl, reached, searched, leads⟩
  · rcases accounted index former stood with (⟨_, other⟩ | ⟨declared, read, same⟩) | ⟨missing, standsIn⟩
    · cases other
    · exact .inl (.inr ⟨declared, read.later change.extends.parsed, same.trans alike⟩)
    · exact .inr ⟨missing, standsIn.changed change stands alike⟩
  · exact .inl (.inr read)
  · have changes : Changes settings start final := .single change
    exact .inr ⟨missing, rfl, changes.reached reached, leads, searched⟩

theorem Changes.accounted (changes : Changes settings start final) (accounted : start.Accounted) :
    final.Accounted := by
  induction changes with
  | refl => exact accounted
  | tail _ change ih => exact change.accounted ih

end Resolution

open Resolution Resolving

/-- An action that the authors wrote or that a repository offers is passed over only for a
placeholder of its id, which stands in for a name with a domain that is reached and exists
nowhere, where the reference has no domain. -/
theorem declared_or_shadowed {settings : Settings} {authored : Document} {workspace : Workspace}
    {final : Resolution} (ran : authored.resolved settings workspace = .ok () final)
    {reference : QualifiedName} {place : Place} {action : Element}
    (leads : final.project.action? reference = some (place, action))
    (somewhere : (∃ written ∈ final.project.authored.elements, written.isDesignated [.action] reference) ∨
      final.offers settings reference) :
    final.Declares place action ∨
      reference.domain = none ∧ ∃ missing, missing.id = reference.id ∧ missing.domain.isSome ∧
        final.project.Reached missing ∧
        (∀ written ∈ final.project.authored.elements, ¬written.isDesignated [.action] missing) ∧
        ¬final.offers settings missing ∧
        final.project.action? missing = some (place, action) ∧
        action.uncounted = Element.emptyAction missing := by
  have changes : Changes settings { project := { authored }, workspace }
      (stateAfter (authored.resolved settings workspace)) := changes_all _
  rw [ran] at changes
  have accounted := changes.accounted fun index element stands => by simp [Project.element?] at stands
  rw [← known?_eq_action?] at leads
  obtain ⟨stands, -, designated⟩ := known?_some leads
  cases place with
  | authored index => exact .inl (.inl ⟨index, rfl⟩)
  | dependency index =>
    rcases accounted index action stands with declares | ⟨missing, standsIn⟩
    · exact .inl declares
    · have notOffered : ¬final.offers settings missing := standsIn.searched.not_offers
      have named : action.name = missing := (congrArg Element.name standsIn.empty :)
      have offered : final.offers settings reference := by
        refine somewhere.resolve_left ?_
        rintro ⟨written, member, isWritten⟩
        exact known?_dependency leads written member isWritten
      -- the placeholder is not that of the reference, which is offered
      have differ : reference ≠ missing := fun same => notOffered (same ▸ offered)
      have designates : reference.designates missing := by
        simp only [Element.isDesignated, Bool.and_eq_true] at designated
        exact named ▸ designated.2
      obtain ⟨undomained, sameId, domained⟩ := QualifiedName.domain_of_designates designates differ
      exact .inr ⟨undomained, missing, sameId, domained, standsIn.reached,
        known?_dependency standsIn.leads, notOffered, known?_eq_action? final missing ▸ standsIn.leads,
        standsIn.empty⟩

theorem declared_or_shadowed_saving :
    ∃ final, savingOnOpen.resolved {} savingLibrary = .ok () final ∧
      final.offers {} ⟨"Save", some "lib"⟩ ∧
      ∃ place action, final.project.action? ⟨"Save", some "lib"⟩ = some (place, action) ∧
        final.Declares place action := by
  have ends : ends (fun _ final => final.offers {} ⟨"Save", some "lib"⟩ &&
      (final.project.action? ⟨"Save", some "lib"⟩).isSome)
      (savingOnOpen.resolved {} savingLibrary) := by decide +kernel
  obtain ⟨_, final, ran, meets⟩ := ok_of_ends ends
  simp only [Bool.and_eq_true] at meets
  obtain ⟨⟨place, action⟩, leads⟩ := Option.isSome_iff_exists.mp meets.2
  refine ⟨final, ran, meets.1, place, action, leads, ?_⟩
  exact (declared_or_shadowed ran leads (.inr meets.1)).resolve_right fun shadowed => by cases shadowed.1

/-- An application that binds an action of its own domain, which exists nowhere, and then one of
the same id that the library has. -/
def savingTwice : Document :=
  { elements :=
    [{ kind := .application, name := ⟨"Shop", some "acme"⟩
       properties :=
         [{ key := "events"
            attributes :=
              [{ key := "onOpen", value := some "acme.Save" }, { key := "onClose", value := some "Save" }] }] }] }

/-- The second handler gets the placeholder of the first, though the library offers an action. -/
theorem shadowed_savingTwice :
    ∃ final, savingTwice.resolved {} savingLibrary = .ok () final ∧
      final.project.Reached ⟨"Save", none⟩ ∧ final.offers {} ⟨"Save", none⟩ ∧
      ∃ place action, final.project.action? ⟨"Save", none⟩ = some (place, action) ∧
        ¬final.Declares place action := by
  have ends : ends (fun _ final =>
      (final.project.authored.elements.any fun element =>
        element.bindings.contains ⟨"onClose", ⟨"Save", none⟩⟩) &&
      final.offers {} ⟨"Save", none⟩ &&
      ((final.project.action? ⟨"Save", none⟩).any (·.1 = .dependency 0)) &&
      final.parsed.isEmpty)
      (savingTwice.resolved {} savingLibrary) := by decide +kernel
  obtain ⟨_, final, ran, meets⟩ := ok_of_ends ends
  simp only [Bool.and_eq_true, List.any_eq_true, Option.any_eq_true, List.contains_iff_mem,
    decide_eq_true_eq, List.isEmpty_iff] at meets
  obtain ⟨⟨⟨⟨element, authored, bound⟩, offered⟩, ⟨place, action⟩, leads, isDependency⟩, unread⟩ := meets
  refine ⟨final, ran, .handler authored bound, offered, place, action, leads, ?_⟩
  rintro (⟨_, isAuthored⟩ | ⟨_, ⟨_, _, member, -⟩, -⟩)
  · cases isDependency.symm.trans isAuthored
  · simp [unread] at member

end Requirements
