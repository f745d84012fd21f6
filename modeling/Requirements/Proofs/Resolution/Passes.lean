import Requirements.Resolution
import Requirements.Proofs.Resolution.Inheritance

/-! The passes behind the ancestors. Types and actions leave the authored elements as they
are, features and layouts change nothing but properties, and no pass takes away what was
resolved before. -/
namespace Requirements
namespace Resolution

/-- The authored elements stay as they are but for the count of their uses. New dependencies
were read from documents, or are actions. -/
structure Keeps (start final : Resolution) : Prop where
  extended : Extends start final
  authored : final.project.authored.elements.map Element.uncounted =
    start.project.authored.elements.map Element.uncounted
  drawn : ∀ element ∈ final.project.dependencies.elements, element.kind ≠ .action →
    element.uncounted ∈ start.project.dependencies.elements.map Element.uncounted ∨
      ∃ declared, final.Read declared ∧ declared.uncounted = element.uncounted

theorem Grows.keeps {start final : Resolution} (grows : Grows start final) : Keeps start final :=
  ⟨grows.extends, grows.authored, fun element member _ => grows.declared element member⟩

theorem Keeps.refl (state : Resolution) : Keeps state state := (Grows.refl state).keeps

theorem Keeps.trans {a b c : Resolution} (first : Keeps a b) (second : Keeps b c) : Keeps a c := by
  refine ⟨first.extended.trans second.extended, second.authored.trans first.authored,
    fun element member other => ?_⟩
  rcases second.drawn element member other with old | new
  · obtain ⟨former, inMiddle, same⟩ := List.mem_map.mp old
    have sameKind : former.kind = element.kind := (congrArg Element.kind same :)
    rcases first.drawn former inMiddle (sameKind ▸ other) with older | ⟨declared, read, alike⟩
    · exact .inl (same ▸ older)
    · exact .inr ⟨declared, read.later second.extended.parsed, alike.trans same⟩
  · exact .inr new

end Resolution

namespace Resolving

open Resolution

variable {settings : Settings} {start final : Resolution}

/-- A pass respects a relation that each of its turns respects. -/
theorem respects_overAuthored {R : Resolution → Resolution → Prop} (refl : ∀ s, R s s)
    (trans : ∀ {a b c}, R a b → R b c → R a c) {visit : Nat → Element → Resolving Unit}
    (respects : ∀ index element s t, s.project.element? (.authored index) = some element →
      visit index element s = .ok () t → R s t)
    (ran : overAuthored visit start = .ok () final) : R start final := by
  refine forM_ok refl trans (fun index _ s t turn => ?_) (overAuthored_ok.mp ran)
  rcases withAuthored_ok.mp turn with ⟨-, rfl⟩ | ⟨element, stands, visited⟩
  · exact refl _
  · exact respects index element s t stands visited

theorem extends_resolveAncestors (ran : overAuthored (resolveLineage settings) start = .ok () final) :
    Extends start final :=
  respects_overAuthored .refl .trans (fun _ _ _ _ stands visited => extends_resolveLineage visited stands) ran

theorem extends_inheritProperties {index : Nat} {place : Place} {u : Unit}
    (ran : inheritProperties index place start = .ok u final) : Extends start final := by
  have gave := modify_ok.mp ran
  split at gave
  · exact gave ▸ .refl _
  · rw [← gave]
    exact extends_modifyAuthored (by simp [Element.outline]) start index

theorem extends_resolveFeature {index : Nat} {user : Element} {feature : QualifiedName} {u : Unit}
    (ran : resolveFeature settings index user feature start = .ok u final) : Extends start final := by
  rw [resolveFeature] at ran
  obtain ⟨answer, middle, resolved, ran⟩ := bind_ok.mp ran
  obtain ⟨grows, known⟩ := resolve_ok resolved (by simp)
  cases answer with
  | none =>
    obtain rfl := report_ok.mp ran
    exact (grows.trans (grows_report _)).extends
  | some found =>
    obtain ⟨ancestors, after, climbed, took⟩ := bind_ok.mp ran
    have onward := (chain_ok climbed (known?_some known).1).1
    have given : Extends after final :=
      forM_ok (R := Extends) .refl .trans (fun _ _ _ _ gave => extends_inheritProperties gave) took
    exact (grows.trans onward).extends.trans given

theorem extends_featuresTurn {index : Nat} {u : Unit}
    (ran : withAuthored (resolveFeatures settings) index start = .ok u final) : Extends start final := by
  rcases withAuthored_ok.mp ran with ⟨-, rfl⟩ | ⟨element, stands, ran⟩
  · exact .refl _
  · exact forM_ok (R := Extends) .refl .trans (fun _ _ _ _ used => extends_resolveFeature used) ran

theorem extends_resolveFeatures (ran : overAuthored (resolveFeatures settings) start = .ok () final) :
    Extends start final :=
  forM_ok (R := Extends) .refl .trans (fun _ _ _ _ turn => extends_featuresTurn turn) (overAuthored_ok.mp ran)

theorem grows_resolveType {typeName : String} {u : Unit}
    (ran : resolveType settings typeName start = .ok u final) : Grows start final := by
  rw [resolveType] at ran
  obtain ⟨answer, middle, resolved, ran⟩ := bind_ok.mp ran
  obtain ⟨grows, known⟩ := resolve_ok resolved (by simp)
  split at ran
  next =>
    obtain ⟨_, _, climbed, ran⟩ := bind_ok.mp ran
    obtain ⟨-, rfl⟩ := pure_ok.mp ran
    exact grows.trans (chain_ok climbed (known?_some known).1).1
  next =>
    obtain ⟨-, rfl⟩ := pure_ok.mp ran
    exact grows

theorem grows_resolveTypes (ran : resolveTypes settings start = .ok () final) :
    Grows start final := by
  rw [resolveTypes] at ran
  obtain ⟨_, _, got, ran⟩ := bind_ok.mp ran
  obtain ⟨rfl, rfl⟩ := get_ok.mp got
  exact forM_ok (R := Grows) .refl .trans (fun _ _ _ _ resolved => grows_resolveType resolved) ran

theorem keeps_depend {element : Element} {answer : Place × Element} (isAction : element.kind = .action)
    (ran : depend element start = .ok answer final) : Keeps start final := by
  obtain ⟨-, rfl⟩ := depend_ok.mp ran
  refine ⟨⟨rfl, ?_, List.prefix_rfl, List.prefix_rfl⟩, rfl, fun other member notAction => ?_⟩
  · change _ <+: (start.project.dependencies.elements ++ [_]).map _
    rw [List.map_append]
    exact List.prefix_append _ _
  · rcases List.mem_append.mp member with old | new
    · exact .inl (List.mem_map_of_mem old)
    · obtain rfl := List.mem_singleton.mp new
      exact absurd isAction notAction

/-- The reference of a request leads to the action from then on. -/
theorem resolveAction_ok {request : Request} {action : Element}
    (ran : resolveAction settings request start = .ok action final) :
    Keeps start final ∧ ∃ place, final.known? [.action] request.1 none = some (place, action) := by
  obtain ⟨reference, requester⟩ := request
  rw [resolveAction] at ran
  obtain ⟨answer, middle, resolved, ran⟩ := bind_ok.mp ran
  obtain ⟨grows, known⟩ := resolve_ok resolved (by simp)
  cases answer with
  | some found =>
    obtain ⟨rfl, rfl⟩ := pure_ok.mp ran
    exact ⟨grows.keeps, found.1, known⟩
  | none =>
    obtain ⟨_, _, reported, ran⟩ := bind_ok.mp ran
    obtain rfl := report_ok.mp reported
    obtain ⟨placed, _, depended, ran⟩ := bind_ok.mp ran
    obtain ⟨rfl, rfl⟩ := pure_ok.mp ran
    let reported := middle.report ((Finding.actionMissing reference requester).reportOn reference "")
    have unknown : reported.known? [.action] reference none = none := known
    have placeholder := known?_depend unknown depended (by simp)
      (by simp [Element.isDesignated, Element.used, Element.emptyAction])
    exact ⟨(grows.trans (grows_report _)).keeps.trans (keeps_depend rfl depended), placed.1, placeholder⟩

theorem resolveRequests_ok {steps : Nat} {met : List Element.Key} {requests : List Request}
    (ran : resolveRequests settings steps met requests start = .ok () final) :
    Keeps start final ∧ ∀ request ∈ requests, (final.known? [.action] request.1 none).isSome := by
  induction steps generalizing met requests start with
  | zero =>
    cases requests with
    | nil =>
      obtain ⟨-, rfl⟩ := pure_ok.mp ran
      exact ⟨.refl _, by simp⟩
    | cons request rest => exact absurd ran throw_ok
  | succ steps ih =>
    cases requests with
    | nil =>
      obtain ⟨-, rfl⟩ := pure_ok.mp ran
      exact ⟨.refl _, by simp⟩
    | cons request rest =>
      rw [resolveRequests] at ran
      obtain ⟨action, middle, resolved, ran⟩ := bind_ok.mp ran
      obtain ⟨keeps, place, known⟩ := resolveAction_ok resolved
      have onward : Keeps middle final ∧
          ∀ other ∈ rest, (final.known? [.action] other.1 none).isSome := by
        split at ran
        next => exact ih ran
        next =>
          obtain ⟨keepsRest, allKnown⟩ := ih ran
          exact ⟨keepsRest, fun other member => allKnown other (by simp [member])⟩
      refine ⟨keeps.trans onward.1, fun other member => ?_⟩
      rcases List.mem_cons.mp member with rfl | member
      · obtain ⟨later, knownLater, -⟩ := onward.1.extended.known? known
        simp [knownLater]
      · exact onward.2 other member

/-- Every action that an authored element binds is known in the end. -/
theorem resolveActions_ok (ran : resolveActions settings start = .ok () final) :
    Keeps start final ∧ ∀ element ∈ start.project.authored.elements, ∀ binding ∈ element.bindings,
      (final.known? [.action] binding.handler none).isSome := by
  rw [resolveActions] at ran
  obtain ⟨_, _, got, ran⟩ := bind_ok.mp ran
  obtain ⟨rfl, rfl⟩ := get_ok.mp got
  obtain ⟨keeps, known⟩ := resolveRequests_ok ran
  refine ⟨keeps, fun element member binding bound => ?_⟩
  refine known (binding.handler, element.name) (List.mem_flatMap.mpr ⟨element, member, ?_⟩)
  exact List.mem_map_of_mem bound

structure Respects (settings : Settings) (R : Resolution → Resolution → Prop) : Prop where
  refl : ∀ state, R state state
  trans : ∀ {a b c}, R a b → R b c → R a c
  resolves : ∀ {kinds reference state answer later},
    resolve settings kinds reference none state = .ok answer later → R state later
  reports : ∀ state entry, R state (state.report entry)

section

variable {R : Resolution → Resolution → Prop} {view : Element}
  {deeper : List Element.Key → List Property → Resolution → Expansion (List Property)}

mutual

theorem respects_expandNode (respects : Respects settings R)
    (below : ∀ path nodes state, (deeper path nodes state).failure = none →
      R state (deeper path nodes state).state) (path : List Element.Key) :
    ∀ (node : Property) (state : Resolution),
      (expandNode settings view deeper path node state).failure = none →
        R state (expandNode settings view deeper path node state).state
  | ⟨key, typeName, presence, value, listOf, values, attributes⟩, state => by
    intro done
    rw [expandNode] at done ⊢
    split at done
    · rw [if_pos ‹_›]
      exact respects_expandNodes respects below path attributes state done
    · rw [if_neg ‹_›]
      split at done
      · rw [if_pos ‹_›]
        exact respects.refl _
      · rw [if_neg ‹_›]
        cases resolved : resolve settings [.view] (QualifiedName.parse key) none state with
        | error => simp [resolved] at done
        | ok answer middle =>
          simp only [resolved] at done ⊢
          have first : R state middle := respects.resolves resolved
          cases answer with
          | none =>
            have onward := respects_expandNodes respects below path attributes _ done
            exact respects.trans (respects.trans first (respects.reports middle _)) onward
          | some found =>
            dsimp only at done ⊢
            split at done
            · cases done
            · rw [if_neg ‹_›]
              exact respects.trans first (below _ _ _ done)

theorem respects_expandNodes (respects : Respects settings R)
    (below : ∀ path nodes state, (deeper path nodes state).failure = none →
      R state (deeper path nodes state).state) (path : List Element.Key) :
    ∀ (nodes : List Property) (state : Resolution),
      (expandNodes settings view deeper path nodes state).failure = none →
        R state (expandNodes settings view deeper path nodes state).state
  | [], state => fun _ => by
    rw [expandNodes]
    exact respects.refl _
  | node :: rest, state => by
    intro done
    have first := respects_expandNode respects below path node state
    rw [expandNodes] at done ⊢
    cases expanded : expandNode settings view deeper path node state with
    | mk result failure middle =>
      rw [expanded] at done first
      cases failure with
      | some => cases done
      | none => exact respects.trans (first rfl) (respects_expandNodes respects below path rest middle done)

end

end

theorem respects_expand {R : Resolution → Resolution → Prop} (respects : Respects settings R) {view : Element}
    {steps : Nat} {path : List Element.Key} {nodes : List Property}
    (done : (expand settings view steps path nodes start).failure = none) :
    R start (expand settings view steps path nodes start).state := by
  induction steps generalizing path nodes start with
  | zero => cases done
  | succ steps ih => exact respects_expandNodes respects (fun _ _ _ => ih) path nodes start done

theorem respects_grows : Respects settings Grows where
  refl := .refl
  trans := .trans
  resolves ran := (resolve_ok ran (by simp)).1
  reports _ := grows_report

theorem grows_expand {view : Element} {steps : Nat} {path : List Element.Key} {nodes : List Property}
    (done : (expand settings view steps path nodes start).failure = none) :
    Grows start (expand settings view steps path nodes start).state :=
  respects_expand respects_grows done

theorem find?_modifyFirst {key other : String} (differ : key ≠ other) {change : Property → Property}
    (keeps : ∀ p, (change p).key = p.key) (properties : List Property) :
    Property.find? key (Property.modifyFirst other change properties) =
      Property.find? key properties := by
  induction properties with
  | nil => rfl
  | cons p rest ih =>
    rw [Property.modifyFirst]
    split
    next same => simp [Property.find?, keeps, same, Ne.symm differ]
    next =>
      by_cases found : p.key = key
      · simp [Property.find?, found]
      · simpa [Property.find?, found] using ih

/-- A view with a layout gets what the layout expands to. -/
theorem resolveLayout_cases {index : Nat} {element : Element} {u : Unit}
    (ran : resolveLayout settings index element start = .ok u final) :
    (layout? element = none ∧ start = final) ∨ ∃ layout expansion, layout? element = some layout ∧
      expansion = expand settings element start.bound [element.key] layout.attributes start ∧
      expansion.failure = none ∧ final = expansion.state.modifyAuthored index fun own =>
        { own with
          properties := Property.modifyFirst Property.layoutKey
            ({ · with attributes := expansion.result }) own.properties } := by
  rw [resolveLayout] at ran
  cases layed : layout? element with
  | none =>
    rw [layed] at ran
    exact .inl ⟨rfl, (pure_ok.mp ran).2⟩
  | some layout =>
    rw [layed] at ran
    simp only [expandLayout] at ran
    split at ran
    next => cases ran
    next done =>
      obtain ⟨-, rfl⟩ := EStateM.Result.ok.inj ran
      exact .inr ⟨layout, _, rfl, rfl, done, rfl⟩

/-- What an expansion of a layout does to its view. -/
theorem resolveLayout_ok {index : Nat} {element : Element} {u : Unit}
    (ran : resolveLayout settings index element start = .ok u final) :
    ∃ middle change, Grows start middle ∧ (∀ p : Property, (change p).key = p.key) ∧
      final = middle.modifyAuthored index fun own =>
        { own with properties := Property.modifyFirst Property.layoutKey change own.properties } := by
  rcases resolveLayout_cases ran with ⟨-, rfl⟩ | ⟨layout, _, -, rfl, done, rfl⟩
  · refine ⟨start, id, .refl _, fun _ => rfl, ?_⟩
    have same : ∀ properties, Property.modifyFirst Property.layoutKey id properties = properties := by
      intro properties
      induction properties <;> simp_all [Property.modifyFirst]
    simp only [same]
    exact (modifyAuthored_id start index).symm
  · refine ⟨_, _, grows_expand done, ?_, rfl⟩
    intro p
    rfl

theorem extends_layoutTurn {index : Nat} {u : Unit}
    (ran : withAuthored (resolveLayout settings) index start = .ok u final) : Extends start final := by
  rcases withAuthored_ok.mp ran with ⟨-, rfl⟩ | ⟨element, -, ran⟩
  · exact .refl _
  · obtain ⟨middle, change, grows, -, rfl⟩ := resolveLayout_ok ran
    exact grows.extends.trans (extends_modifyAuthored (by simp [Element.outline]) middle index)

/-- Bindings stay as they are when layouts are expanded. -/
theorem resolveLayouts_ok (ran : overAuthored (resolveLayout settings) start = .ok () final) :
    Extends start final ∧
      final.project.authored.elements.map Element.bindings =
        start.project.authored.elements.map Element.bindings := by
  refine respects_overAuthored (R := fun start final => Extends start final ∧
      final.project.authored.elements.map Element.bindings =
        start.project.authored.elements.map Element.bindings)
    (fun _ => ⟨.refl _, rfl⟩) (fun first second => ⟨first.1.trans second.1, second.2.trans first.2⟩)
    (fun index element s t _ visited => ?_) ran
  obtain ⟨middle, change, grows, keeps, rfl⟩ := resolveLayout_ok visited
  refine ⟨grows.extends.trans (extends_modifyAuthored (by simp [Element.outline]) middle index), ?_⟩
  have bound : ∀ own : Element, Element.bindings { own with
      properties := Property.modifyFirst Property.layoutKey change own.properties } = own.bindings := by
    intro own
    rw [Element.bindings, find?_modifyFirst (by decide) keeps, Element.bindings]
  have grown := congrArg (List.map Element.bindings) grows.authored
  rw [List.map_map, List.map_map] at grown
  refine Eq.trans ?_ grown
  apply List.ext_getElem?
  intro other
  change ((middle.project.authored.elements.modify index _).map _)[other]? = _
  rw [List.getElem?_map, List.getElem?_modify, List.getElem?_map]
  split <;> cases middle.project.authored.elements[other]? <;> simp [bound] <;> rfl

/-- The passes of a resolution that came to its end. -/
theorem all_ok (ran : Resolving.all settings start = .ok () final) :
    ∃ lineaged featured typed bound,
      overAuthored (resolveLineage settings) start = .ok () lineaged ∧
      overAuthored (resolveFeatures settings) lineaged = .ok () featured ∧
      resolveTypes settings featured = .ok () typed ∧
      resolveActions settings typed = .ok () bound ∧
      overAuthored (resolveLayout settings) bound = .ok () final := by
  rw [Resolving.all] at ran
  obtain ⟨_, lineaged, lineages, ran⟩ := bind_ok.mp ran
  obtain ⟨_, featured, features, ran⟩ := bind_ok.mp ran
  obtain ⟨_, typed, types, ran⟩ := bind_ok.mp ran
  obtain ⟨_, bound, actions, ran⟩ := bind_ok.mp ran
  exact ⟨lineaged, featured, typed, bound, lineages, features, types, actions, ran⟩

/-- In the end all passes have only extended what there was after the ancestors. -/
theorem extends_all (ran : Resolving.all settings start = .ok () final) :
    ∃ lineaged, overAuthored (resolveLineage settings) start = .ok () lineaged ∧
      Extends lineaged final := by
  obtain ⟨lineaged, featured, typed, bound, lineages, features, types, actions, layouts⟩ := all_ok ran
  refine ⟨lineaged, lineages, ?_⟩
  have toTyped := (extends_resolveFeatures features).trans (grows_resolveTypes types).extends
  exact (toTyped.trans (resolveActions_ok actions).1.extended).trans (resolveLayouts_ok layouts).1

/-- In the end every action that an authored element binds is known. -/
theorem known?_of_binding (ran : Resolving.all settings start = .ok () final) {element : Element}
    (member : element ∈ final.project.authored.elements) {binding : Binding}
    (bound : binding ∈ element.bindings) :
    (final.known? [.action] binding.handler none).isSome := by
  obtain ⟨_, _, typed, acted, -, -, -, actions, layouts⟩ := all_ok ran
  obtain ⟨keeps, known⟩ := resolveActions_ok actions
  obtain ⟨extended, sameBindings⟩ := resolveLayouts_ok layouts
  have kept := congrArg (List.map Element.bindings) keeps.authored
  rw [List.map_map, List.map_map] at kept
  have inTyped : element.bindings ∈ typed.project.authored.elements.map Element.bindings :=
    kept ▸ sameBindings ▸ List.mem_map_of_mem member
  obtain ⟨former, inFormer, same⟩ := List.mem_map.mp inTyped
  obtain ⟨found, isKnown⟩ := Option.isSome_iff_exists.mp (known former inFormer binding (same ▸ bound))
  obtain ⟨later, knownLater, -⟩ := extended.known? isKnown
  simp [knownLater]

end Resolving
end Requirements
