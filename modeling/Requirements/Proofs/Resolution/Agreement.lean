import Requirements.Proofs.Repository.Retrying
import Requirements.Proofs.Resolution.Termination

/-! Two runs of the same steps on the same project, in workspaces in which loading comes to the same.
They answer the same, report the same and fail alike, whatever was loaded before either of them. The
disks may differ in size, and with them the bounds on steps; a walk that takes its last step is said
to agree with any other, and there is no such walk. -/
namespace Requirements

structure Resolution.Paired (related : Workspace → Workspace → Prop) (first second : Resolution) : Prop where
  project : first.project = second.project
  parsed : first.parsed = second.parsed
  reports : first.reports = second.reports
  workspace : related first.workspace second.workspace

theorem Resolution.Paired.imp {related others : Workspace → Workspace → Prop} {first second : Resolution}
    (paired : Paired related first second) (implies : ∀ v w, related v w → others v w) : Paired others first second :=
  { paired with workspace := implies _ _ paired.workspace }

theorem Resolution.Paired.modifyAuthored {related : Workspace → Workspace → Prop} {first second : Resolution}
    (paired : Paired related first second) (index : Nat) (change : Element → Element) :
    Paired related (first.modifyAuthored index change) (second.modifyAuthored index change) :=
  { paired with project := congrArg (·.modify change (.authored index)) paired.project }

theorem Resolution.Paired.report {related : Workspace → Workspace → Prop} {first second : Resolution}
    (paired : Paired related first second) (entry : Report) :
    Paired related (first.report entry) (second.report entry) :=
  { paired with reports := congrArg (· ++ [entry]) paired.reports }

/-- Two runs came to the same, unless one of them took its last step. -/
inductive Agrees {α : Type} (related : Workspace → Workspace → Prop) :
    EStateM.Result Failure Resolution α → EStateM.Result Failure Resolution α → Prop
  | ok {a : α} {first second : Resolution} (paired : Resolution.Paired related first second) :
      Agrees related (.ok a first) (.ok a second)
  | error {failure : Failure} {first second : Resolution} :
      Agrees related (.error failure first) (.error failure second)
  | exhausted {first : Resolution} {second : EStateM.Result Failure Resolution α} :
      Agrees related (.error .stepsExhausted first) second
  | exhaustedToo {first : EStateM.Result Failure Resolution α} {second : Resolution} :
      Agrees related first (.error .stepsExhausted second)

theorem Agrees.imp {α : Type} {related others : Workspace → Workspace → Prop}
    {first second : EStateM.Result Failure Resolution α} (agrees : Agrees related first second)
    (implies : ∀ v w, related v w → others v w) : Agrees others first second := by
  cases agrees with
  | ok paired => exact .ok (paired.imp implies)
  | error => exact .error
  | exhausted => exact .exhausted
  | exhaustedToo => exact .exhaustedToo

inductive Expansion.Agree {α : Type} (related : Workspace → Workspace → Prop) : Expansion α → Expansion α → Prop
  | ok {a : α} {first second : Resolution} (paired : Resolution.Paired related first second) :
      Agree related ⟨a, none, first⟩ ⟨a, none, second⟩
  | error {a b : α} {failure : Failure} {first second : Resolution} :
      Agree related ⟨a, some failure, first⟩ ⟨b, some failure, second⟩
  | exhausted {a : α} {first : Resolution} {second : Expansion α} :
      Agree related ⟨a, some .stepsExhausted, first⟩ second
  | exhaustedToo {b : α} {first : Expansion α} {second : Resolution} :
      Agree related first ⟨b, some .stepsExhausted, second⟩

theorem Expansion.Agree.map {α β : Type} {related : Workspace → Workspace → Prop} {first second : Expansion α}
    (agree : Agree related first second) (f : α → β) : Agree related (first.map f) (second.map f) := by
  cases agree with
  | ok paired => exact .ok paired
  | error => exact .error
  | exhausted => exact .exhausted
  | exhaustedToo => exact .exhaustedToo

namespace Resolving

open Resolution (Paired)

variable {α β : Type} {related : Workspace → Workspace → Prop}

def Agree (related : Workspace → Workspace → Prop) (x y : Resolving α) : Prop :=
  ∀ first second, Paired related first second → Agrees related (x first) (y second)

/-! ### Rules -/

theorem agree_pure (a : α) : Agree related (pure a) (pure a) := fun _ _ => .ok

theorem agree_throw (failure : Failure) : Agree related (throw failure : Resolving α) (throw failure) :=
  fun _ _ _ => .error

theorem agrees_bind {x y : Resolving α} {f g : α → Resolving β} {first second : Resolution}
    (here : Agrees related (x first) (y second)) (behind : ∀ a, Agree related (f a) (g a)) :
    Agrees related ((x >>= f) first) ((y >>= g) second) := by
  change Agrees related (EStateM.bind x f first) (EStateM.bind y g second)
  rw [EStateM.bind, EStateM.bind]
  generalize x first = one at here
  generalize y second = two at here
  cases here with
  | ok paired => exact behind _ _ _ paired
  | error => exact .error
  | exhausted => exact .exhausted
  | exhaustedToo => exact .exhaustedToo

theorem agree_bind {x y : Resolving α} {f g : α → Resolving β} (here : Agree related x y)
    (behind : ∀ a, Agree related (f a) (g a)) : Agree related (x >>= f) (y >>= g) :=
  fun first second paired => agrees_bind (here first second paired) behind

theorem agree_get {f g : Resolution → Resolving β}
    (behind : ∀ first second, Paired related first second → Agree related (f first) (g second)) :
    Agree related (get >>= f) (get >>= g) :=
  fun first second paired => behind first second paired first second paired

theorem agree_modify {change : Resolution → Resolution}
    (keeps : ∀ first second, Paired related first second → Paired related (change first) (change second)) :
    Agree related (modify change : Resolving Unit) (modify change) :=
  fun first second paired => .ok (keeps first second paired)

theorem agree_forM {visit : α → Resolving Unit} (each : ∀ item, Agree related (visit item) (visit item))
    (items : List α) : Agree related (items.forM visit) (items.forM visit) := by
  induction items with
  | nil => exact agree_pure ()
  | cons item rest ih => exact agree_bind (each item) fun _ => ih

/-! ### Following a reference -/

theorem agree_report (finding : Finding) (subject : QualifiedName) (file : String) :
    Agree related (report finding subject file) (report finding subject file) :=
  agree_modify fun _ _ paired => paired.report _

theorem agree_documentOf (hit : Hit) : Agree Workspace.Together (documentOf hit) (documentOf hit) := by
  intro first second paired
  rw [documentOf, documentOf, paired.parsed, paired.workspace.disk]
  split
  next => exact .ok paired
  next =>
    split
    next => exact .ok { paired with parsed := rfl }
    next => exact .error

theorem agree_firstDeclared (kind : ElementKind) (reference : QualifiedName) (hits : List Hit) :
    Agree Workspace.Together (firstDeclared kind reference hits) (firstDeclared kind reference hits) := by
  induction hits with
  | nil => exact agree_pure none
  | cons hit rest ih =>
    rw [firstDeclared]
    split
    · exact ih
    · refine agree_bind (agree_documentOf hit) fun document => ?_
      cases document.elements.find? (·.isDesignated [kind] reference) with
      | some element => exact agree_pure (some element)
      | none => exact ih

/-- The project's own hits make no difference. -/
theorem firstDeclared_filter (kind : ElementKind) (reference : QualifiedName) (hits : List Hit) :
    firstDeclared kind reference hits = firstDeclared kind reference (hits.filter (·.repository ≠ .project)) := by
  induction hits with
  | nil => rfl
  | cons hit rest ih =>
    rw [firstDeclared]
    split
    next inside => rw [List.filter_cons_of_neg (by simpa using inside), ih]
    next outside => rw [List.filter_cons_of_pos (by simpa using outside), firstDeclared, if_neg outside, ih]

variable {settings : Settings}

theorem agree_findInRepositories (reference : QualifiedName) (kinds : List ElementKind) :
    Agree (Workspace.Alike settings) (findInRepositories settings reference kinds)
      (findInRepositories settings reference kinds) := by
  induction kinds with
  | nil => exact agree_pure none
  | cons kind rest ih =>
    intro first second paired
    rw [findInRepositories]
    change Agrees _ (EStateM.bind _ _ first) (EStateM.bind _ _ second)
    rw [EStateM.bind, EStateM.bind, search, search]
    rcases paired.workspace.find (.element kind) reference.id reference.domain with
      ⟨failure, one, two, fails, failsToo⟩ | ⟨hits, others, one, two, found, foundToo, together, same⟩
    · rw [fails, failsToo]
      exact .error
    · rw [found, foundToo]
      dsimp only
      rw [firstDeclared_filter kind reference hits, same, ← firstDeclared_filter kind reference others]
      have pairedThen : Paired Workspace.Together { first with workspace := one } { second with workspace := two } :=
        { paired with workspace := together }
      have agrees := agree_firstDeclared kind reference others _ _ pairedThen
      refine agrees_bind (agrees.imp fun _ _ => Workspace.Together.alike) fun answer => ?_
      cases answer with
      | some element => exact agree_pure (some element)
      | none => exact ih

theorem agree_depend (element : Element) : Agree related (depend element) (depend element) := by
  intro first second paired
  rw [depend, depend, paired.project]
  exact .ok { paired with project := rfl }

theorem agree_resolve (kinds : List ElementKind) (reference : QualifiedName) (asker : Option Place) :
    Agree (Workspace.Alike settings) (resolve settings kinds reference asker)
      (resolve settings kinds reference asker) := by
  refine agree_get fun first second paired => ?_
  rw [Resolution.known?, Resolution.known?, paired.project]
  split
  next place element _ =>
    refine agree_bind (agree_modify fun one two pairedThen => ?_) fun _ => agree_pure _
    exact { pairedThen with project := congrArg (·.modify Element.used place) pairedThen.project }
  next =>
    refine agree_bind (agree_findInRepositories reference kinds) fun found => ?_
    cases found with
    | none => exact agree_pure none
    | some element => exact agree_bind (agree_depend element.used) fun drawn => agree_pure (some drawn)

/-! ### The passes -/

/-- Chains agree even if they are given different numbers of steps. -/
theorem agree_chainFrom (origin : Element) (steps others : Nat) (visited : List Element.Key) (names : List String)
    (current : Place) (element : Element) :
    Agree (Workspace.Alike settings) (chainFrom settings origin steps visited names current element)
      (chainFrom settings origin others visited names current element) := by
  induction steps generalizing others visited names current element with
  | zero => exact fun _ _ _ => .exhausted
  | succ steps ih =>
    cases others with
    | zero => exact fun _ _ _ => .exhaustedToo
    | succ others =>
      rw [chainFrom, chainFrom]
      cases element.ancestor with
      | none => exact agree_pure []
      | some reference =>
        refine agree_bind (agree_resolve _ _ _) fun found => ?_
        cases found with
        | none => exact agree_bind (agree_report _ _ _) fun _ => agree_pure []
        | some found =>
          obtain ⟨place, ancestor⟩ := found
          dsimp only
          split
          next => exact agree_throw _
          next => exact agree_bind (ih _ _ _ _ _) fun above => agree_pure _

theorem agree_chain (start : Place) (element : Element) :
    Agree (Workspace.Alike settings) (chain settings start element) (chain settings start element) :=
  agree_get fun _ _ _ => agree_chainFrom _ _ _ _ _ _ _

/-- An authored element gains from the same element on both sides, if there is one at the place. -/
theorem agree_gain {change : Resolution → Resolution} {index : Nat} {place : Place} {gain : Element → Element → Element}
    (absent : ∀ state, state.project.element? place = none → change state = state)
    (present : ∀ state layer, state.project.element? place = some layer →
      change state = state.modifyAuthored index (gain layer)) :
    Agree related (modify change : Resolving Unit) (modify change) := by
  refine agree_modify fun first second paired => ?_
  cases stands : second.project.element? place with
  | none => rwa [absent first (paired.project ▸ stands), absent second stands]
  | some layer =>
    rw [present first layer (paired.project ▸ stands), present second layer stands]
    exact paired.modifyAuthored index (gain layer)

theorem agree_inheritProperties (index : Nat) (place : Place) :
    Agree related (inheritProperties index place) (inheritProperties index place) :=
  agree_gain (fun state none => by rw [none]) fun state layer some => by rw [some]

theorem agree_inheritFeatures (index : Nat) (place : Place) :
    Agree related (inheritFeatures index place) (inheritFeatures index place) :=
  agree_gain (fun state none => by rw [none]) fun state layer some => by rw [some]

theorem agree_withAuthored {visit : Nat → Element → Resolving Unit}
    (each : ∀ index element, Agree related (visit index element) (visit index element)) (index : Nat) :
    Agree related (withAuthored visit index) (withAuthored visit index) := by
  refine agree_get fun first second paired => ?_
  rw [paired.project]
  split
  next element _ => exact each index element
  next => exact agree_pure ()

theorem agree_overAuthored {visit : Nat → Element → Resolving Unit}
    (each : ∀ index element, Agree related (visit index element) (visit index element)) :
    Agree related (overAuthored visit) (overAuthored visit) := by
  refine agree_get fun first second paired => ?_
  rw [paired.project]
  exact agree_forM (agree_withAuthored each) _

theorem agree_resolveLineage (index : Nat) (element : Element) : Agree (Workspace.Alike settings)
    (resolveLineage settings index element) (resolveLineage settings index element) := by
  have ancestors : Agree (Workspace.Alike settings) (resolveAncestors settings index element)
      (resolveAncestors settings index element) := by
    refine agree_bind (agree_chain _ element) fun places => agree_forM (fun place => ?_) places
    exact agree_bind (agree_inheritProperties index place) fun _ => agree_inheritFeatures index place
  refine agree_bind ancestors fun _ => ?_
  rw [resolveParent]
  cases parent? element with
  | none => exact agree_pure ()
  | some parent =>
    refine agree_bind (agree_resolve _ parent _) fun found => ?_
    cases found with
    | none => exact agree_report _ _ _
    | some found => exact agree_bind (agree_chain found.1 found.2) fun _ => agree_pure ()

theorem agree_resolveFeatures (index : Nat) (element : Element) : Agree (Workspace.Alike settings)
    (resolveFeatures settings index element) (resolveFeatures settings index element) := by
  refine agree_forM (fun feature => ?_) _
  refine agree_bind (agree_resolve _ feature _) fun found => ?_
  cases found with
  | none => exact agree_report _ _ _
  | some found =>
    exact agree_bind (agree_chain found.1 found.2) fun above => agree_forM (agree_inheritProperties index) _

theorem agree_resolveTypes :
    Agree (Workspace.Alike settings) (resolveTypes settings) (resolveTypes settings) := by
  refine agree_get fun first second paired => ?_
  rw [paired.project]
  refine agree_forM (fun typeName => agree_bind (agree_resolve _ _ _) fun found => ?_) _
  split
  next index found => exact agree_bind (agree_chain _ found) fun _ => agree_pure ()
  next => exact agree_pure ()

theorem agree_resolveAction (request : Request) : Agree (Workspace.Alike settings)
    (resolveAction settings request) (resolveAction settings request) := by
  obtain ⟨reference, requester⟩ := request
  refine agree_bind (agree_resolve _ reference _) fun found => ?_
  cases found with
  | some found => exact agree_pure found.2
  | none =>
    refine agree_bind (agree_report _ _ _) fun _ => agree_bind (agree_depend _) fun drawn => agree_pure drawn.2

theorem agree_resolveRequests (steps others : Nat) (met : List Element.Key) (requests : List Request) :
    Agree (Workspace.Alike settings) (resolveRequests settings steps met requests)
      (resolveRequests settings others met requests) := by
  induction steps generalizing others met requests with
  | zero =>
    cases requests with
    | nil => cases others <;> exact agree_pure ()
    | cons => exact fun _ _ _ => .exhausted
  | succ steps ih =>
    cases requests with
    | nil => cases others <;> exact agree_pure ()
    | cons request rest =>
      cases others with
      | zero => exact fun _ _ _ => .exhaustedToo
      | succ others =>
        rw [resolveRequests, resolveRequests]
        refine agree_bind (agree_resolveAction request) fun action => ?_
        split
        next => exact ih _ _ _
        next => exact ih _ _ _

theorem agree_resolveActions :
    Agree (Workspace.Alike settings) (resolveActions settings) (resolveActions settings) := by
  refine agree_get fun first second paired => ?_
  rw [paired.project]
  exact agree_resolveRequests _ _ _ _

/-! ### Layouts -/

section

variable {view : Element} {deeper others : List Element.Key → List Property → Resolution → Expansion (List Property)}

mutual

theorem agree_expandNode (below : ∀ path nodes first second, Paired (Workspace.Alike settings) first second →
      (deeper path nodes first).Agree (Workspace.Alike settings) (others path nodes second))
    (path : List Element.Key) : ∀ (node : Property) {first second : Resolution},
      Paired (Workspace.Alike settings) first second → (expandNode settings view deeper path node first).Agree
        (Workspace.Alike settings) (expandNode settings view others path node second)
  | ⟨key, typeName, presence, value, listOf, values, attributes⟩, first, second => by
    intro paired
    rw [expandNode, expandNode]
    split
    next => exact (agree_expandNodes below path attributes paired).map _
    next =>
      split
      next => exact .ok paired
      next =>
        have resolves := agree_resolve [.view] (QualifiedName.parse key) none first second paired
        generalize resolve settings [.view] (QualifiedName.parse key) none first = one at resolves
        generalize resolve settings [.view] (QualifiedName.parse key) none second = two at resolves
        cases resolves with
        | error => exact .error
        | exhausted => exact .exhausted
        | exhaustedToo => exact .exhaustedToo
        | @ok found _ _ pairedThen =>
          cases found with
          | none => exact (agree_expandNodes below path attributes (pairedThen.report _)).map _
          | some found =>
            dsimp only
            split
            next => exact .error
            next => exact (below _ _ _ _ pairedThen).map _

theorem agree_expandNodes (below : ∀ path nodes first second, Paired (Workspace.Alike settings) first second →
      (deeper path nodes first).Agree (Workspace.Alike settings) (others path nodes second))
    (path : List Element.Key) : ∀ (nodes : List Property) {first second : Resolution},
      Paired (Workspace.Alike settings) first second → (expandNodes settings view deeper path nodes first).Agree
        (Workspace.Alike settings) (expandNodes settings view others path nodes second)
  | [], first, second => by
    intro paired
    exact .ok paired
  | node :: rest, first, second => by
    intro paired
    have here := agree_expandNode below path node paired
    rw [expandNodes, expandNodes]
    generalize expandNode settings view deeper path node first = one at here
    generalize expandNode settings view others path node second = two at here
    cases here with
    | ok pairedThen => exact (agree_expandNodes below path rest pairedThen).map _
    | error => exact .error
    | exhausted => exact .exhausted
    | exhaustedToo => exact .exhaustedToo

end

end

/-- Expansions agree even if they are given different numbers of steps. -/
theorem agree_expand (view : Element) (steps others : Nat) (path : List Element.Key) (nodes : List Property)
    (first second : Resolution) (paired : Paired (Workspace.Alike settings) first second) :
    (expand settings view steps path nodes first).Agree (Workspace.Alike settings)
      (expand settings view others path nodes second) := by
  induction steps generalizing others path nodes first second with
  | zero => exact .exhausted
  | succ steps ih =>
    cases others with
    | zero => exact .exhaustedToo
    | succ others =>
      have below : ∀ path nodes first second, Paired (Workspace.Alike settings) first second →
          (expand settings view steps path nodes first).Agree (Workspace.Alike settings)
            (expand settings view others path nodes second) := fun path nodes => ih others path nodes
      exact agree_expandNodes below path nodes paired

theorem agree_resolveLayout (index : Nat) (element : Element) : Agree (Workspace.Alike settings)
    (resolveLayout settings index element) (resolveLayout settings index element) := by
  rw [resolveLayout]
  cases layout? element with
  | none => exact agree_pure ()
  | some layout =>
    intro first second paired
    have expands := agree_expand element first.bound second.bound [element.key] layout.attributes first second paired
    dsimp only [expandLayout]
    generalize expand settings element first.bound [element.key] layout.attributes first = one at expands
    generalize expand settings element second.bound [element.key] layout.attributes second = two at expands
    cases expands with
    | ok pairedThen => exact .ok (pairedThen.modifyAuthored index _)
    | error => exact .error
    | exhausted => exact .exhausted
    | exhaustedToo => exact .exhaustedToo

/-- Two resolutions of a project agree in workspaces that are alike. -/
theorem agree_all : Agree (Workspace.Alike settings) (all settings) (all settings) := by
  refine agree_bind (agree_overAuthored agree_resolveLineage) fun _ => ?_
  refine agree_bind (agree_overAuthored agree_resolveFeatures) fun _ => ?_
  refine agree_bind agree_resolveTypes fun _ => ?_
  exact agree_bind agree_resolveActions fun _ => agree_overAuthored agree_resolveLayout

/-- Two resolutions come to the same states but for their workspaces, or fail alike. -/
theorem all_alike {first second : Resolution} (paired : Paired (Workspace.Alike settings) first second) :
    (∃ one two, all settings first = .ok () one ∧ all settings second = .ok () two ∧
        Paired (Workspace.Alike settings) one two) ∨
      ∃ failure one two, all settings first = .error failure one ∧ all settings second = .error failure two := by
  have agrees := agree_all first second paired
  have finishes : Outcome _ _ (all settings first) := outcome_all first
  have finishesToo : Outcome _ _ (all settings second) := outcome_all second
  generalize all settings first = one at agrees finishes
  generalize all settings second = two at agrees finishesToo
  cases agrees with
  | ok pairedThen => exact .inl ⟨_, _, rfl, rfl, pairedThen⟩
  | error => exact .inr ⟨_, _, _, rfl, rfl⟩
  | exhausted => exact absurd rfl finishes
  | exhaustedToo => exact absurd rfl finishesToo

end Resolving
end Requirements
