import Requirements.Proofs.Property.Everywhere
import Requirements.Proofs.Resolution.Changes

/-! Runs as sequences of changes. Whatever a step of a resolution does, and wherever it fails,
the state it leaves came about by single changes. What each of these keeps, a whole run keeps. -/
namespace Requirements

open Relation (ReflTransGen)

section

variable {ε σ α β : Type} {R : σ → σ → Prop}

theorem reflTransGen_bind {x : EStateM ε σ α} {f : α → EStateM ε σ β} {start : σ}
    (first : ReflTransGen R start (stateAfter (x start)))
    (behind : ∀ a middle, x start = .ok a middle → ReflTransGen R middle (stateAfter (f a middle))) :
    ReflTransGen R start (stateAfter ((x >>= f) start)) := by
  change ReflTransGen R start (stateAfter (EStateM.bind x f start))
  rw [EStateM.bind]
  cases ran : x start with
  | ok a middle =>
    rw [ran] at first
    exact first.trans (behind a middle ran)
  | error =>
    rw [ran] at first
    exact first

theorem stateAfter_modify (f : σ → σ) (start : σ) :
    stateAfter ((modify f : EStateM ε σ PUnit) start) = f start := rfl

theorem reflTransGen_forM {visit : α → EStateM ε σ Unit} {items : List α}
    (each : ∀ item s, ReflTransGen R s (stateAfter (visit item s))) (start : σ) :
    ReflTransGen R start (stateAfter (items.forM visit start)) := by
  induction items generalizing start with
  | nil => exact .refl
  | cons item rest ih => exact reflTransGen_bind (each item start) fun _ middle _ => ih middle

end

namespace Resolving

open Resolution

variable {settings : Settings}

theorem follows_search (kind : ReferenceKind) (id : String) (domain : Option String)
    (start : Resolution) :
    Follows settings start (stateAfter (search (Workspace.find settings kind id domain) start)) := by
  have step : Following settings start _ := .loaded start kind id domain
  rw [search]
  cases found : Workspace.find settings kind id domain start.workspace <;>
    exact .single (by simpa [found, stateAfter] using step)

theorem follows_documentOf (hit : Hit) (start : Resolution) :
    Follows settings start (stateAfter (documentOf hit start)) := by
  rw [documentOf]
  split
  next => exact .refl
  next =>
    split
    next reads => exact .single (.opened start reads)
    next => exact .refl

theorem follows_firstDeclared (kind : ElementKind) (reference : QualifiedName) (hits : List Hit)
    (start : Resolution) :
    Follows settings start (stateAfter (firstDeclared kind reference hits start)) := by
  induction hits generalizing start with
  | nil => exact .refl
  | cons hit rest ih =>
    rw [firstDeclared]
    split
    · exact ih start
    · refine reflTransGen_bind (follows_documentOf hit start) fun document middle _ => ?_
      cases document.elements.find? (·.isDesignated [kind] reference) with
      | some => exact .refl
      | none => exact ih middle

theorem follows_findInRepositories (reference : QualifiedName) (kinds : List ElementKind)
    (start : Resolution) :
    Follows settings start (stateAfter (findInRepositories settings reference kinds start)) := by
  induction kinds generalizing start with
  | nil => exact .refl
  | cons kind rest ih =>
    rw [findInRepositories]
    refine reflTransGen_bind (follows_search _ _ _ start) fun hits middle _ => ?_
    refine reflTransGen_bind (follows_firstDeclared kind reference hits middle) fun found later _ => ?_
    cases found with
    | some => exact .refl
    | none => exact ih later

/-- A reference is followed in single steps, to whatever end. -/
theorem follows_resolve (kinds : List ElementKind) (reference : QualifiedName) (asker : Option Place)
    (start : Resolution) :
    Follows settings start (stateAfter (resolve settings kinds reference asker start)) := by
  rw [resolve]
  refine reflTransGen_bind .refl fun state _ got => ?_
  obtain ⟨rfl, rfl⟩ := get_ok.mp got
  cases start.known? kinds reference asker with
  | some found => exact .single (.used start found.1)
  | none =>
    refine reflTransGen_bind (follows_findInRepositories reference kinds start) fun found middle ran => ?_
    cases found with
    | none => exact .refl
    | some element => exact .single (.drawn middle ((findInRepositories_ok ran).2 element rfl).2)

theorem follows_report {finding : Finding} (warns : finding.severity = .warning) (subject : QualifiedName)
    (file : String) (start : Resolution) :
    Follows settings start (stateAfter (report finding subject file start)) :=
  .single (.reported start _ (by simp [warns]))

theorem follows_chainFrom (origin : Element) (steps : Nat) (visited : List Element.Key)
    (names : List String) (current : Place) (element : Element) (start : Resolution) :
    Follows settings start
      (stateAfter (chainFrom settings origin steps visited names current element start)) := by
  induction steps generalizing visited names current element start with
  | zero => exact .refl
  | succ steps ih =>
    rw [chainFrom]
    cases element.ancestor with
    | none => exact .refl
    | some reference =>
      refine reflTransGen_bind (follows_resolve _ reference _ start) fun answer middle _ => ?_
      cases answer with
      | none => exact reflTransGen_bind (follows_report rfl _ _ middle) fun _ _ _ => .refl
      | some found =>
        dsimp only
        split
        · exact .refl
        · exact reflTransGen_bind (ih _ _ _ _ middle) fun _ _ _ => .refl

theorem follows_chain (place : Place) (element : Element) (start : Resolution) :
    Follows settings start (stateAfter (chain settings place element start)) :=
  reflTransGen_bind .refl fun _ _ got => by
    obtain ⟨rfl, rfl⟩ := get_ok.mp got
    exact follows_chainFrom _ _ _ _ _ _ start

theorem follows_resolveParent (index : Nat) (element : Element) (start : Resolution) :
    Follows settings start (stateAfter (resolveParent settings index element start)) := by
  rw [resolveParent]
  cases parent? element with
  | none => exact .refl
  | some parent =>
    refine reflTransGen_bind (follows_resolve _ parent _ start) fun answer middle _ => ?_
    cases answer with
    | none => exact follows_report rfl _ _ middle
    | some found => exact reflTransGen_bind (follows_chain found.1 found.2 middle) fun _ _ _ => .refl

theorem follows_resolveType (typeName : String) (start : Resolution) :
    Follows settings start (stateAfter (resolveType settings typeName start)) := by
  rw [resolveType]
  refine reflTransGen_bind (follows_resolve _ _ none start) fun answer middle _ => ?_
  split
  · exact reflTransGen_bind (follows_chain _ _ middle) fun _ _ _ => .refl
  · exact .refl

theorem follows_resolveTypes (start : Resolution) :
    Follows settings start (stateAfter (resolveTypes settings start)) :=
  reflTransGen_bind .refl fun _ _ got => by
    obtain ⟨rfl, rfl⟩ := get_ok.mp got
    exact reflTransGen_forM follows_resolveType start

structure Expands (settings : Settings) (start : Resolution) (nodes : List Property)
    (expansion : Expansion (List Property)) : Prop where
  follows : Follows settings start expansion.state
  kept : Property.Kept nodes expansion.result

section

variable {view : Element}
  {deeper : List Element.Key → List Property → Resolution → Expansion (List Property)}

mutual

theorem expands_expandNode
    (below : ∀ path nodes state, Expands settings state nodes (deeper path nodes state))
    (path : List Element.Key) : ∀ (node : Property) (state : Resolution),
      Expands settings state [node] ((expandNode settings view deeper path node state).map ([·]))
  | ⟨key, typeName, presence, value, listOf, values, attributes⟩, state => by
    rw [expandNode]
    by_cases isLayout : key = Property.layoutKey
    · obtain ⟨follows, kept⟩ := expands_expandNodes below path attributes state
      rw [if_pos isLayout]
      exact ⟨follows, .cons (Property.stays_holding (.inl isLayout) _) kept (.nil _)⟩
    · rw [if_neg isLayout]
      split
      next => exact ⟨.refl, .refl _⟩
      next names =>
        have typeless : typeName = none := (Property.namesView_iff.mp (by simpa using names)).1
        have hold : ∀ nodes, Property.Stays ⟨key, typeName, presence, value, listOf, values, attributes⟩
            ⟨key, typeName, presence, value, listOf, values, nodes⟩ :=
          fun nodes => Property.stays_holding (.inr typeless) nodes
        have resolved : Follows settings state _ :=
          follows_resolve [.view] (QualifiedName.parse key) none state
        cases answered : resolve settings [.view] (QualifiedName.parse key) none state with
        | error failure middle =>
          rw [answered] at resolved
          exact ⟨resolved, .refl _⟩
        | ok answer middle =>
          rw [answered] at resolved
          cases answer with
          | none =>
            let missing := (Finding.viewMissing key view.name).reportOn view.name view.file
            obtain ⟨follows, kept⟩ := expands_expandNodes below path attributes (middle.report missing)
            have reported : Following settings middle (middle.report missing) :=
              .reported middle missing (by simp [missing, Finding.severity])
            exact ⟨(resolved.tail reported).trans follows, .cons (hold _) kept (.nil _)⟩
          | some found =>
            dsimp only
            split
            next => exact ⟨resolved, .refl _⟩
            next =>
              obtain ⟨follows, kept⟩ := below (path ++ [found.2.key])
                (Property.inherit attributes found.2.properties) middle
              exact ⟨resolved.trans follows,
                .cons (hold _) ((Property.kept_inherit _ attributes).trans kept) (.nil _)⟩

theorem expands_expandNodes
    (below : ∀ path nodes state, Expands settings state nodes (deeper path nodes state))
    (path : List Element.Key) : ∀ (nodes : List Property) (state : Resolution),
      Expands settings state nodes (expandNodes settings view deeper path nodes state)
  | [], state => by
    rw [expandNodes]
    exact ⟨.refl, .nil _⟩
  | node :: rest, state => by
    obtain ⟨follows, kept⟩ := expands_expandNode below path node state
    rw [expandNodes]
    cases expanded : expandNode settings view deeper path node state with
    | mk result failure middle =>
      rw [expanded] at follows kept
      cases kept with
      | cons stays attributes =>
      cases failure with
      | some => exact ⟨follows, .cons stays attributes (.refl rest)⟩
      | none =>
        obtain ⟨followsRest, keptRest⟩ := expands_expandNodes below path rest middle
        exact ⟨follows.trans followsRest, .cons stays attributes keptRest⟩

end

end

theorem expands_expand (view : Element) (steps : Nat) (path : List Element.Key) (nodes : List Property)
    (start : Resolution) : Expands settings start nodes (expand settings view steps path nodes start) := by
  induction steps generalizing path nodes start with
  | zero => exact ⟨.refl, .refl nodes⟩
  | succ steps ih => exact expands_expandNodes ih path nodes start

/-- Expanding a layout leaves what stands in the authored elements, until it is put in place. -/
theorem changes_resolveLayout (index : Nat) (element : Element) (start : Resolution)
    (stands : start.project.element? (.authored index) = some element) :
    Changes settings start (stateAfter (resolveLayout settings index element start)) := by
  rw [resolveLayout]
  cases layed : layout? element with
  | none => exact .refl
  | some layout =>
    have found : Property.find? Property.layoutKey element.properties = some layout := by
      rw [layout?] at layed
      split at layed
      · exact layed
      · cases layed
    let expansion := expand settings element start.bound [element.key] layout.attributes start
    obtain ⟨follows, kept⟩ : Expands settings start layout.attributes expansion :=
      expands_expand element start.bound [element.key] layout.attributes start
    have keeps : ∀ view own, expansion.state.project.element? (.authored index) = some view →
        Property.find? Property.layoutKey view.properties = some own →
        Property.Kept own.attributes expansion.result := by
      intro view own standsThen foundThen
      obtain ⟨later, standsLater, alike⟩ := follows.grows.later stands
      obtain rfl := Option.some.inj (standsLater.symm.trans standsThen)
      have sameProperties : later.properties = element.properties := (congrArg Element.properties alike :)
      rw [sameProperties, found] at foundThen
      obtain rfl := Option.some.inj foundThen
      exact kept
    have put := follows.changes.tail (.laidOut expansion.state index expansion.result keeps)
    dsimp only [expandLayout]
    split <;> exact put

theorem changes_inheritProperties (index : Nat) (place : Place) (start : Resolution) :
    Changes settings start (stateAfter (inheritProperties index place start)) := by
  rw [inheritProperties, stateAfter_modify]
  cases start.project.element? place with
  | none => exact .refl
  | some layer => exact .single (.inherited start index layer)

theorem changes_inheritFeatures (index : Nat) (place : Place) (start : Resolution) :
    Changes settings start (stateAfter (inheritFeatures index place start)) := by
  rw [inheritFeatures, stateAfter_modify]
  cases start.project.element? place with
  | none => exact .refl
  | some layer => exact .single (.mixedIn start index layer)

theorem changes_resolveAncestors (index : Nat) (element : Element) (start : Resolution) :
    Changes settings start (stateAfter (resolveAncestors settings index element start)) := by
  refine reflTransGen_bind (follows_chain _ _ start).changes fun ancestors middle _ => ?_
  refine reflTransGen_forM (fun place state => ?_) middle
  exact reflTransGen_bind (changes_inheritProperties index place state) fun _ later _ =>
    changes_inheritFeatures index place later

theorem changes_resolveLineage (index : Nat) (element : Element) (start : Resolution) :
    Changes settings start (stateAfter (resolveLineage settings index element start)) :=
  reflTransGen_bind (changes_resolveAncestors index element start) fun _ later _ =>
    (follows_resolveParent index element later).changes

theorem changes_resolveFeature (index : Nat) (user : Element) (feature : QualifiedName) (start : Resolution) :
    Changes settings start (stateAfter (resolveFeature settings index user feature start)) := by
  refine reflTransGen_bind (follows_resolve _ feature none start).changes fun answer middle _ => ?_
  cases answer with
  | none => exact (follows_report rfl _ _ middle).changes
  | some found =>
    refine reflTransGen_bind (follows_chain found.1 found.2 middle).changes fun ancestors later _ => ?_
    exact reflTransGen_forM (changes_inheritProperties index) later

theorem changes_resolveFeatures (index : Nat) (element : Element) (start : Resolution) :
    Changes settings start (stateAfter (resolveFeatures settings index element start)) :=
  reflTransGen_forM (changes_resolveFeature index element) start

theorem changes_overAuthored {visit : Nat → Element → Resolving Unit}
    (each : ∀ index element state, state.project.element? (.authored index) = some element →
      Changes settings state (stateAfter (visit index element state))) (start : Resolution) :
    Changes settings start (stateAfter (overAuthored visit start)) := by
  refine reflTransGen_bind .refl fun _ _ got => ?_
  obtain ⟨rfl, rfl⟩ := get_ok.mp got
  refine reflTransGen_forM (fun index state => ?_) start
  refine reflTransGen_bind .refl fun _ _ got => ?_
  obtain ⟨rfl, rfl⟩ := get_ok.mp got
  cases stands : state.project.authored.elements[index]? with
  | none => exact .refl
  | some element => exact each index element state stands

/-- What is requested is reached, and so is what the resolved action calls. -/
theorem changes_resolveAction (request : Request) (start : Resolution)
    (reached : start.project.Reached request.1) :
    Changes settings start (stateAfter (resolveAction settings request start)) := by
  obtain ⟨reference, requester⟩ := request
  have follows : Follows settings start _ := follows_resolve [.action] reference none start
  refine reflTransGen_bind follows.changes fun answer middle ran => ?_
  cases answer with
  | some found => exact .refl
  | none =>
    rw [ran] at follows
    refine reflTransGen_bind (follows_report rfl _ _ middle).changes fun _ later reported => ?_
    obtain rfl := report_ok.mp reported
    let entry := (Finding.actionMissing reference requester).reportOn reference ""
    have onward : Changes settings start (middle.report entry) :=
      follows.changes.tail (.followed (.reported middle entry (by simp [entry, Finding.severity])))
    have unknown : middle.known? [.action] reference none = none := (resolve_ok ran (by simp)).2
    have searched : (middle.report entry).Searched .action reference :=
      (searched_of_resolve ran).later rfl List.prefix_rfl
    exact .single (.stoodIn _ (onward.reached reached) unknown searched)

theorem changes_resolveRequests (steps : Nat) (met : List Element.Key) (requests : List Request)
    (start : Resolution) (reached : ∀ request ∈ requests, start.project.Reached request.1) :
    Changes settings start (stateAfter (resolveRequests settings steps met requests start)) := by
  induction steps generalizing met requests start with
  | zero => cases requests <;> exact .refl
  | succ steps ih =>
    cases requests with
    | nil => exact .refl
    | cons request rest =>
      have first : Changes settings start _ :=
        changes_resolveAction request start (reached request (by simp))
      rw [resolveRequests]
      refine reflTransGen_bind first fun action middle ran => ?_
      rw [ran] at first
      have restReached : ∀ other ∈ rest, middle.project.Reached other.1 :=
        fun other member => first.reached (reached other (by simp [member]))
      split
      · exact ih _ rest middle restReached
      · refine ih _ _ middle fun other member => ?_
        rcases List.mem_append.mp member with inRest | called
        · exact restReached other inRest
        · obtain ⟨target, calls, rfl⟩ := List.mem_map.mp called
          obtain ⟨-, place, known⟩ := resolveAction_ok ran
          rw [known?_eq_action?] at known
          exact .call (first.reached (reached request (by simp))) known calls

theorem reached_of_handlerRequests {project : Project} {request : Request}
    (member : request ∈ handlerRequests project.authored) : project.Reached request.1 := by
  obtain ⟨element, authored, requested⟩ := List.mem_flatMap.mp member
  obtain ⟨binding, bound, rfl⟩ := List.mem_map.mp requested
  exact .handler authored bound

theorem changes_resolveActions (start : Resolution) :
    Changes settings start (stateAfter (resolveActions settings start)) := by
  refine reflTransGen_bind .refl fun _ _ got => ?_
  obtain ⟨rfl, rfl⟩ := get_ok.mp got
  exact changes_resolveRequests _ _ _ start fun _ member => reached_of_handlerRequests member

def beforeLayouts (settings : Settings) : Resolving Unit := do
  overAuthored (resolveLineage settings)
  overAuthored (resolveFeatures settings)
  resolveTypes settings
  resolveActions settings

theorem all_eq (settings : Settings) :
    Resolving.all settings = (do beforeLayouts settings; overAuthored (resolveLayout settings)) := by
  simp [Resolving.all, beforeLayouts, bind_assoc]

/-- Once the passes before it are through, a run is the pass over the layouts. -/
theorem all_of_before {start before : Resolution} (ran : beforeLayouts settings start = .ok () before) :
    Resolving.all settings start = overAuthored (resolveLayout settings) before := by
  rw [all_eq]
  change EStateM.bind _ _ start = _
  rw [EStateM.bind, ran]

theorem changes_beforeLayouts (start : Resolution) :
    Changes settings start (stateAfter (beforeLayouts settings start)) := by
  refine reflTransGen_bind ?_ fun _ featuresFrom _ => ?_
  · exact changes_overAuthored (fun index element state _ => changes_resolveLineage index element state) start
  refine reflTransGen_bind ?_ fun _ typesFrom _ => ?_
  · exact changes_overAuthored (fun index element state _ => changes_resolveFeatures index element state) _
  exact reflTransGen_bind (follows_resolveTypes typesFrom).changes fun _ actionsFrom _ =>
    changes_resolveActions actionsFrom

/-- A whole run is a sequence of changes, wherever it ends. -/
theorem changes_all (start : Resolution) :
    Changes settings start (stateAfter (Resolving.all settings start)) := by
  rw [all_eq]
  exact reflTransGen_bind (changes_beforeLayouts start) fun _ layoutsFrom _ =>
    changes_overAuthored changes_resolveLayout layoutsFrom

end Resolving

/-- A resolution loses nothing that was written, whether it succeeds or fails, and wherever. -/
theorem preserved_of_resolved (settings : Settings) (authored : Document) (workspace : Workspace) :
    Resolution.Preserves { project := { authored }, workspace }
      (stateAfter (authored.resolved settings workspace)) :=
  (Resolving.changes_all _).preserves

end Requirements
