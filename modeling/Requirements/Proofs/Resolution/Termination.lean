import Requirements.Proofs.Resolution.Laws
import Requirements.Proofs.Resolution.Stock

/-! Every run comes to an end. Chains and layouts meet no key of the stock twice, and requests
are as many as the calls of the actions met. So no walk takes the last of its steps, whatever
cycles the references of the project and of its libraries form. -/
namespace Requirements
namespace Resolving

open Resolution

variable {settings : Settings} {stock : List Element}

/-! ### Failures of searches -/

theorem outcome_firstDeclared (kind : ElementKind) (reference : QualifiedName) (hits : List Hit)
    (start : Resolution) : Outcome (fun _ _ => True) (fun failure _ => failure.isOutside)
      (firstDeclared kind reference hits start) := by
  induction hits generalizing start with
  | nil => trivial
  | cons hit rest ih =>
    rw [firstDeclared]
    split
    · exact ih start
    · have opens : Outcome (fun _ _ => True) (fun failure _ => failure.isOutside) (documentOf hit start) := by
        rw [documentOf]
        split
        next => trivial
        next =>
          split
          next => trivial
          next failed => exact Failure.isOutside_of_isOnDisk (Disk.isOnDisk_of_parse failed)
      refine outcome_bind opens fun document middle _ _ => ?_
      cases document.elements.find? (·.isDesignated [kind] reference) with
      | some => trivial
      | none => exact ih middle

theorem outcome_search (kind : ReferenceKind) (id : String) (domain : Option String) (start : Resolution) :
    Outcome (fun _ _ => True) (fun failure _ => failure.isOutside)
      (search (Workspace.find settings kind id domain) start) := by
  have outcome : Outcome _ _ (Workspace.find settings kind id domain start.workspace) :=
    Workspace.outcome_find kind id domain start.workspace
  rw [search]
  cases found : Workspace.find settings kind id domain start.workspace with
  | ok => trivial
  | error => exact (found ▸ outcome :).1

theorem outcome_findInRepositories (reference : QualifiedName) (kinds : List ElementKind) (start : Resolution) :
    Outcome (fun _ _ => True) (fun failure _ => failure.isOutside)
      (findInRepositories settings reference kinds start) := by
  induction kinds generalizing start with
  | nil => trivial
  | cons kind rest ih =>
    rw [findInRepositories]
    refine outcome_bind (outcome_search _ _ _ start) fun hits middle _ _ => ?_
    refine outcome_bind (outcome_firstDeclared kind reference hits middle) fun found later _ _ => ?_
    cases found with
    | some => trivial
    | none => exact ih later

/-- Following one reference fails only for what lies outside of the project. -/
theorem outcome_resolve (kinds : List ElementKind) (reference : QualifiedName) (asker : Option Place)
    (start : Resolution) : Outcome (fun _ _ => True) (fun failure _ => failure.isOutside)
      (resolve settings kinds reference asker start) := by
  rw [resolve]
  refine outcome_get ?_
  cases start.known? kinds reference asker with
  | some => trivial
  | none =>
    refine outcome_bind (outcome_findInRepositories reference kinds start) fun found _ _ _ => ?_
    cases found <;> trivial

theorem ne_stepsExhausted_of_isOutside {failure : Failure} (outside : failure.isOutside) :
    failure ≠ .stepsExhausted := by
  rintro rfl
  cases outside

/-- What ends a walk before its end: something outside of the project, or a cycle of the kind. -/
def EndsWalk (kind : CycleKind) (failure : Failure) : Prop :=
  failure.isOutside ∨ ∃ chain, failure = .cycle kind chain

theorem EndsWalk.ne_stepsExhausted {kind : CycleKind} {failure : Failure} (ends : EndsWalk kind failure) :
    failure ≠ .stepsExhausted := by
  rcases ends with outside | ⟨_, rfl⟩
  · exact ne_stepsExhausted_of_isOutside outside
  · exact Failure.noConfusion

/-- Errors of checks do not end a walk. -/
theorem EndsWalk.ne_invalid {kind : CycleKind} {failure : Failure} (ends : EndsWalk kind failure)
    (errors : List Report) : failure ≠ .invalid errors := by
  rintro rfl
  rcases ends with outside | ⟨_, isCycle⟩
  · cases outside
  · cases isCycle

theorem EndsWalk.ne_cycle {kind other : CycleKind} {failure : Failure} (ends : EndsWalk kind failure)
    (differ : kind ≠ other) (chain : List String) : failure ≠ .cycle other chain := by
  rintro rfl
  rcases ends with outside | ⟨_, isCycle⟩
  · cases outside
  · exact differ (Failure.cycle.inj isCycle).1.symm

/-! ### Chains -/

theorem outcome_chainFrom {origin : Element} {steps : Nat} {visited : List Element.Key} {names : List String}
    {current : Place} {element : Element} {start : Resolution} (throughout : start.Throughout (Familiar stock))
    (stands : start.project.element? current = some element) (enough : weightBut visited stock < steps) :
    Outcome (fun _ _ => True) (fun failure _ => EndsWalk .ancestor failure)
      (chainFrom settings origin steps visited names current element start) := by
  induction steps generalizing visited names current element start with
  | zero => exact absurd enough (Nat.not_lt_zero _)
  | succ steps ih =>
    rw [chainFrom]
    cases element.ancestor with
    | none => trivial
    | some reference =>
      have resolves : Outcome (fun _ _ => True) (fun failure _ => EndsWalk .ancestor failure)
          (resolve settings element.kind.related reference (some current) start) :=
        (outcome_resolve _ _ _ _).failure fun _ _ => .inl
      refine outcome_bind resolves fun answer middle resolved _ => ?_
      cases answer with
      | none => trivial
      | some found =>
        obtain ⟨place, ancestor⟩ := found
        dsimp only
        split
        next => exact .inr ⟨_, rfl⟩
        next fresh =>
          have follows : Follows settings start _ := follows_resolve element.kind.related reference (some current) start
          rw [resolved] at follows
          have throughoutThen : middle.Throughout (Familiar stock) :=
            throughout.follows familiar_of_outline follows
          have standsThen := (known?_some (resolve_ok resolved (by simp [stands])).2).1
          have less := weightBut_cons_add_le (throughoutThen.placed place ancestor standsThen) (by simpa using fresh)
          exact outcome_bind (ih throughoutThen standsThen (by omega)) fun _ _ _ _ => trivial

theorem outcome_chain {place : Place} {element : Element} {start : Resolution}
    (stands : start.project.element? place = some element) :
    Outcome (fun _ _ => True) (fun failure _ => EndsWalk .ancestor failure)
      (chain settings place element start) := by
  refine outcome_get (outcome_chainFrom start.throughout_stock stands ?_)
  exact Nat.lt_of_le_of_lt (weightBut_cons_le _ _ _) start.weight_stock_lt

/-! ### Requests -/

def CallsFamiliar (stock : List Element) (element : Element) : Prop :=
  element.calls = [] ∨ Familiar stock element

theorem callsFamiliar_of_outline {a b : Element} (alike : a.outline = b.outline)
    (familiar : CallsFamiliar stock a) : CallsFamiliar stock b :=
  familiar.imp (fun none => (congrArg Element.calls alike :).symm.trans none) (familiar_of_outline alike)

/-- What an action was resolved to, the stock still covers, and so it does all others. -/
theorem outcome_resolveAction {request : Request} {start : Resolution}
    (throughout : start.Throughout (CallsFamiliar stock)) :
    Outcome (fun action final => CallsFamiliar stock action ∧ final.Throughout (CallsFamiliar stock))
      (fun failure _ => failure.isOutside) (resolveAction settings request start) := by
  obtain ⟨reference, requester⟩ := request
  refine outcome_bind (outcome_resolve [.action] reference none start) fun answer middle resolved _ => ?_
  have follows : Follows settings start _ := follows_resolve [.action] reference none start
  rw [resolved] at follows
  have throughoutThen : middle.Throughout (CallsFamiliar stock) :=
    throughout.follows callsFamiliar_of_outline follows
  cases answer with
  | some found =>
    exact ⟨throughoutThen.placed _ _ (known?_some (resolve_ok resolved (by simp)).2).1, throughoutThen⟩
  | none =>
    have noCalls : CallsFamiliar stock (Element.emptyAction reference).used := .inl rfl
    exact ⟨noCalls, (throughoutThen.report _).push noCalls⟩

theorem outcome_resolveRequests {steps : Nat} {met : List Element.Key} {requests : List Request}
    {start : Resolution} (throughout : start.Throughout (CallsFamiliar stock))
    (enough : requests.length + weightBut met stock ≤ steps) :
    Outcome (fun _ _ => True) (fun failure _ => failure.isOutside)
      (resolveRequests settings steps met requests start) := by
  induction steps generalizing met requests start with
  | zero =>
    cases requests with
    | nil => trivial
    | cons => exact absurd enough (by simp)
  | succ steps ih =>
    cases requests with
    | nil => trivial
    | cons request rest =>
      rw [List.length_cons] at enough
      rw [resolveRequests]
      refine outcome_bind (outcome_resolveAction throughout) fun action middle _ calls => ?_
      obtain ⟨familiar, throughoutThen⟩ := calls
      split
      next => exact ih throughoutThen (by omega)
      next fresh =>
        refine ih throughoutThen ?_
        rw [List.length_append, callsOf, List.length_map]
        rcases familiar with noCalls | familiar
        · have less := weightBut_cons_le action.key met stock
          rw [noCalls, List.length_nil]
          omega
        · have less := weightBut_cons_add_le familiar (by simpa using fresh)
          omega

theorem outcome_resolveActions (start : Resolution) :
    Outcome (fun _ _ => True) (fun failure _ => failure.isOutside) (resolveActions settings start) := by
  have covered : start.Throughout (CallsFamiliar start.stock) := start.throughout_stock.imp fun _ => .inr
  have enough := Nat.le_of_lt start.weight_stock_lt
  exact outcome_get (outcome_resolveRequests covered (Nat.add_le_add_left enough _))

/-! ### Layouts -/

section

variable {view : Element}
  {deeper : List Element.Key → List Property → Resolution → Expansion (List Property)}
  {steps : Nat}

mutual

theorem endsWalk_expandNode
    (below : ∀ {path nodes state failure}, state.Throughout (Familiar stock) → weightBut path stock < steps →
      (deeper path nodes state).failure = some failure → EndsWalk .layout failure)
    (expands : ∀ path nodes state, Expands settings state nodes (deeper path nodes state))
    {path : List Element.Key} (enough : weightBut path stock ≤ steps) :
    ∀ (node : Property) {state : Resolution} {failure : Failure}, state.Throughout (Familiar stock) →
      (expandNode settings view deeper path node state).failure = some failure → EndsWalk .layout failure
  | ⟨key, typeName, presence, value, listOf, values, attributes⟩, state, failure => by
    intro throughout failed
    rw [expandNode] at failed
    split at failed
    next => exact endsWalk_expandNodes below expands enough attributes throughout failed
    next =>
      split at failed
      next => cases failed
      next =>
        have outcome : Outcome _ _ (resolve settings [.view] (QualifiedName.parse key) none state) :=
          outcome_resolve [.view] (QualifiedName.parse key) none state
        have follows : Follows settings state _ := follows_resolve [.view] (QualifiedName.parse key) none state
        cases answered : resolve settings [.view] (QualifiedName.parse key) none state with
        | error other middle =>
          rw [answered] at failed outcome
          obtain rfl := Option.some.inj failed
          exact .inl outcome
        | ok answer middle =>
          simp only [answered] at failed
          rw [answered] at follows
          have throughoutThen : middle.Throughout (Familiar stock) :=
            throughout.follows familiar_of_outline follows
          cases answer with
          | none =>
            exact endsWalk_expandNodes below expands enough attributes
              (throughoutThen.report _) failed
          | some found =>
            dsimp only at failed
            split at failed
            next =>
              obtain rfl := Option.some.inj failed
              exact .inr ⟨_, rfl⟩
            next fresh =>
              have standsThen := (known?_some (resolve_ok answered (by simp)).2).1
              have less := weightBut_cons_add_le (throughoutThen.placed _ _ standsThen) (by simpa using fresh)
              have same : weightBut (path ++ [found.2.key]) stock = weightBut (found.2.key :: path) stock :=
                weightBut_congr (by simp [or_comm]) stock
              exact below throughoutThen (by omega) failed

theorem endsWalk_expandNodes
    (below : ∀ {path nodes state failure}, state.Throughout (Familiar stock) → weightBut path stock < steps →
      (deeper path nodes state).failure = some failure → EndsWalk .layout failure)
    (expands : ∀ path nodes state, Expands settings state nodes (deeper path nodes state))
    {path : List Element.Key} (enough : weightBut path stock ≤ steps) :
    ∀ (nodes : List Property) {state : Resolution} {failure : Failure}, state.Throughout (Familiar stock) →
      (expandNodes settings view deeper path nodes state).failure = some failure → EndsWalk .layout failure
  | [], state, failure => by
    intro _ failed
    cases failed
  | node :: rest, state, failure => by
    intro throughout failed
    have first : ∀ {failure}, (expandNode settings view deeper path node state).failure = some failure →
        EndsWalk .layout failure := endsWalk_expandNode below expands enough node throughout
    have follows : Follows settings state (expandNode settings view deeper path node state).state :=
      (expands_expandNode expands path node state).follows
    rw [expandNodes] at failed
    cases expanded : expandNode settings view deeper path node state with
    | mk result done middle =>
      rw [expanded] at failed first follows
      cases done with
      | some => exact first failed
      | none =>
        exact endsWalk_expandNodes below expands enough rest
          (throughout.follows familiar_of_outline follows) failed

end

end

theorem endsWalk_expand {view : Element} {steps : Nat} {path : List Element.Key} {nodes : List Property}
    {start : Resolution} {failure : Failure} (throughout : start.Throughout (Familiar stock))
    (enough : weightBut path stock < steps)
    (failed : (expand settings view steps path nodes start).failure = some failure) :
    EndsWalk .layout failure := by
  induction steps generalizing path nodes start failure with
  | zero => exact absurd enough (Nat.not_lt_zero _)
  | succ steps ih =>
    exact endsWalk_expandNodes ih (expands_expand view steps) (Nat.le_of_lt_succ enough) nodes throughout failed

theorem outcome_resolveLayout (index : Nat) (element : Element) (start : Resolution) :
    Outcome (fun _ _ => True) (fun failure _ => EndsWalk .layout failure)
      (resolveLayout settings index element start) := by
  rw [resolveLayout]
  cases layout? element with
  | none => trivial
  | some layout =>
    have enough := Nat.lt_of_le_of_lt (weightBut_cons_le element.key [] start.stock) start.weight_stock_lt
    have finished : ∀ {failure}, (expand settings element start.bound [element.key] layout.attributes
        start).failure = some failure → EndsWalk .layout failure := endsWalk_expand start.throughout_stock enough
    dsimp only [expandLayout]
    split
    next failed => exact finished failed
    next => trivial

theorem outcome_resolveLayouts (start : Resolution) :
    Outcome (fun _ _ => True) (fun failure _ => EndsWalk .layout failure)
      (overAuthored (resolveLayout settings) start) :=
  outcome_overAuthored (fun index element state _ _ => outcome_resolveLayout index element state) trivial

/-- What ends a run before its end is what ends one of its walks. -/
theorem law_endsWalk : Law settings (fun _ => True) (fun failure _ => ∃ kind, EndsWalk kind failure) where
  resolves _ _ _ _ _ := (outcome_resolve ..).failure fun _ _ outside => ⟨.ancestor, .inl outside⟩
  climbs _ _ _ stands _ _ := (outcome_chain stands).failure fun _ _ ends => ⟨.ancestor, ends⟩
  reports _ _ _ _ _ _ := trivial
  gains _ _ _ _ _ := trivial

theorem endsWalk_all (start : Resolution) :
    Outcome (fun _ _ => True) (fun failure _ => ∃ kind, EndsWalk kind failure) (all settings start) :=
  law_endsWalk.all
    (fun middle _ => (outcome_resolveActions middle).failure fun _ _ outside => ⟨.ancestor, .inl outside⟩)
    (fun last _ => (outcome_resolveLayouts last).failure fun _ _ ends => ⟨.layout, ends⟩) trivial

/-- No run takes the last of its steps. -/
theorem outcome_all (start : Resolution) :
    Outcome (fun _ _ => True) (fun failure _ => failure ≠ .stepsExhausted) (all settings start) :=
  (endsWalk_all start).failure fun _ _ ⟨_, ends⟩ => ends.ne_stepsExhausted

end Resolving

/-- Resolving a document comes to its result or to a failure of its own, whatever the project, the
repositories and the settings are. -/
theorem Document.resolved_ne_stepsExhausted (settings : Settings) (authored : Document) (workspace : Workspace)
    (state : Resolution) : authored.resolved settings workspace ≠ .error .stepsExhausted state := by
  have outcome : Outcome (fun _ _ => True) (fun failure _ => failure ≠ .stepsExhausted)
      (authored.resolved settings workspace) := Resolving.outcome_all _
  intro exhausted
  rw [exhausted] at outcome
  exact outcome rfl

end Requirements
