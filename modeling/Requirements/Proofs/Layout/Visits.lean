import Requirements.Proofs.Layout.Laying
import Requirements.Proofs.Resolution.Stability

/-! Expanded layouts as they stand in the end. Whoever goes down from the layout of a view meets only
nodes that have what the views they name have, no view inside itself, and no unknown name that was
not reported. The trees grow while they are walked, so this is shown node by node against the state
in which the run ends: what a node was found to name when it was expanded is what it names then. -/
namespace Requirements

open Property (layoutKey)

namespace Resolution

/-- The view that a key names: the first among the authored elements, or else among the dependencies. -/
def view? (state : Resolution) (key : String) : Option Element :=
  (state.known? [.view] (.parse key) none).map (·.2)

def shownBy (state : Resolution) (node : Property) : List Element.Key :=
  if node.key ≠ layoutKey ∧ node.namesView then (state.view? node.key).toList.map Element.key else []

/-- The nodes reached below the first layout of a view, each with the keys of the views named on the
way, the node's own last. The way goes on below layouts and below nodes that may name views. -/
inductive Visits (state : Resolution) (view : Element) : List Element.Key → Property → Prop
  | top {layout node : Property} (has : Resolving.layout? view = some layout) (member : node ∈ layout.attributes) :
      Visits state view (view.key :: state.shownBy node) node
  | within {path : List Element.Key} {node inner : Property} (visited : Visits state view path node)
      (goes : node.key = layoutKey ∨ node.namesView) (member : inner ∈ node.attributes) :
      Visits state view (path ++ state.shownBy inner) inner

/-- A node that may name a view has what the named one has, or was reported. -/
def Settled (state : Resolution) (view : Element) (node : Property) : Prop :=
  match state.view? node.key with
  | some shown => ∀ p ∈ shown.properties, ∃ own ∈ node.attributes, own.key = p.key
  | none => (Finding.viewMissing node.key view.name).reportOn view.name view.file ∈ state.reports

/-- The nodes as an expansion inside the views of the path leaves them. -/
inductive Completed (state : Resolution) (view : Element) : List Element.Key → List Property → Prop
  | nil {path : List Element.Key} : Completed state view path []
  | layout {path : List Element.Key} {node : Property} {rest : List Property} (isLayout : node.key = layoutKey)
      (below : Completed state view path node.attributes) (others : Completed state view path rest) :
      Completed state view path (node :: rest)
  | plain {path : List Element.Key} {node : Property} {rest : List Property} (inner : node.key ≠ layoutKey)
      (plain : ¬node.namesView) (others : Completed state view path rest) :
      Completed state view path (node :: rest)
  | names {path : List Element.Key} {node : Property} {rest : List Property} (inner : node.key ≠ layoutKey)
      (names : node.namesView) (settled : state.Settled view node)
      (fresh : ∀ key ∈ state.shownBy node, key ∉ path)
      (below : Completed state view (path ++ state.shownBy node) node.attributes)
      (others : Completed state view path rest) : Completed state view path (node :: rest)

variable {state : Resolution} {view : Element} {path : List Element.Key} {node : Property} {nodes : List Property}

theorem Completed.cons (first : state.Completed view path [node]) (others : state.Completed view path nodes) :
    state.Completed view path (node :: nodes) := by
  cases first with
  | layout isLayout below => exact .layout isLayout below others
  | plain inner plain => exact .plain inner plain others
  | names inner names settled fresh below => exact .names inner names settled fresh below others

theorem Completed.of_mem (completed : state.Completed view path nodes) (member : node ∈ nodes) :
    state.Completed view path [node] := by
  induction completed with
  | nil => cases member
  | layout isLayout below _ _ ih =>
    rcases List.mem_cons.mp member with rfl | behind
    · exact .layout isLayout below .nil
    · exact ih behind
  | plain inner plain _ ih =>
    rcases List.mem_cons.mp member with rfl | behind
    · exact .plain inner plain .nil
    · exact ih behind
  | names inner names settled fresh below _ _ ih =>
    rcases List.mem_cons.mp member with rfl | behind
    · exact .names inner names settled fresh below .nil
    · exact ih behind

theorem shownBy_of_layout (isLayout : node.key = layoutKey) : state.shownBy node = [] :=
  if_neg fun names => names.1 isLayout

theorem shownBy_of_plain (plain : ¬node.namesView) : state.shownBy node = [] :=
  if_neg fun names => plain names.2

theorem nodup_shownBy (state : Resolution) (node : Property) : (state.shownBy node).Nodup := by
  rw [shownBy]
  split
  · cases state.view? node.key <;> simp
  · exact List.nodup_nil

/-- The inside of a node is complete where the way goes on. -/
theorem Completed.inside (completed : state.Completed view path [node])
    (goes : node.key = layoutKey ∨ node.namesView) :
    state.Completed view (path ++ state.shownBy node) node.attributes := by
  cases completed with
  | layout isLayout below =>
    rw [shownBy_of_layout isLayout, List.append_nil]
    exact below
  | plain inner plain => exact absurd (goes.resolve_left inner) plain
  | names _ _ _ _ below => exact below

theorem Completed.nodup (completed : state.Completed view path [node]) (distinct : path.Nodup) :
    (path ++ state.shownBy node).Nodup := by
  cases completed with
  | layout isLayout => rwa [shownBy_of_layout isLayout, List.append_nil]
  | plain _ plain => rwa [shownBy_of_plain plain, List.append_nil]
  | names _ _ _ fresh =>
    refine List.nodup_append.mpr ⟨distinct, nodup_shownBy state node, fun key old other new same => ?_⟩
    exact fresh other new (same ▸ old)

/-- Where the layout of a view is complete, so is every node that is visited, and no view is inside
itself. -/
theorem Visits.completed (visited : state.Visits view path node)
    (complete : ∀ layout, Resolving.layout? view = some layout → state.Completed view [view.key] layout.attributes) :
    path.Nodup ∧ ∃ above, path = above ++ state.shownBy node ∧ state.Completed view above [node] := by
  induction visited with
  | top has member =>
    have here := (complete _ has).of_mem member
    exact ⟨here.nodup (List.nodup_singleton _), [view.key], rfl, here⟩
  | within _ goes member ih =>
    obtain ⟨distinct, above, rfl, outer⟩ := ih
    have here := (outer.inside goes).of_mem member
    exact ⟨here.nodup distinct, _, rfl, here⟩

theorem Completed.settled (completed : state.Completed view path [node]) (inner : node.key ≠ layoutKey)
    (names : node.namesView) : state.Settled view node := by
  cases completed with
  | layout isLayout => exact absurd isLayout inner
  | plain _ plain => exact absurd names plain
  | names _ _ settled => exact settled

theorem Settled.alike {later : Element} (same : later.outline = view.outline) (settled : state.Settled view node) :
    state.Settled later node := by
  have sameName : later.name = view.name := (congrArg Element.name same :)
  have sameFile : later.file = view.file := (congrArg Element.file same :)
  rwa [Settled, sameName, sameFile]

theorem Completed.alike {later : Element} (same : later.outline = view.outline)
    (completed : state.Completed view path nodes) : state.Completed later path nodes := by
  induction completed with
  | nil => exact .nil
  | layout isLayout _ _ below others => exact .layout isLayout below others
  | plain inner plain _ others => exact .plain inner plain others
  | names inner names settled fresh _ _ below others =>
    exact .names inner names (settled.alike same) fresh below others

variable {settings : Settings} {start middle final : Resolution}

/-- What happens while layouts are expanded: turns that leave to each element the keys of its properties. -/
structure Onward (settings : Settings) (start final : Resolution) : Prop where
  turns : Turns settings start final
  keys : ∀ place element, start.project.element? place = some element → ∃ later,
    final.project.element? place = some later ∧ later.properties.map Property.key = element.properties.map Property.key

theorem Onward.refl (state : Resolution) : Onward settings state state :=
  ⟨.refl, fun _ element stands => ⟨element, stands, rfl⟩⟩

theorem Onward.trans (first : Onward settings start middle) (second : Onward settings middle final) :
    Onward settings start final := by
  refine ⟨first.turns.trans second.turns, fun place element stands => ?_⟩
  obtain ⟨later, standsLater, same⟩ := first.keys place element stands
  obtain ⟨last, standsLast, sameLast⟩ := second.keys place later standsLater
  exact ⟨last, standsLast, sameLast.trans same⟩

theorem onward_of_grows (turn : Turn settings start final) (grows : Grows start final) :
    Onward settings start final := by
  refine ⟨.single turn, fun place element stands => ?_⟩
  obtain ⟨later, standsLater, alike⟩ := grows.element? stands
  have same : later.properties = element.properties := (congrArg Element.properties alike :)
  exact ⟨later, standsLater, congrArg _ same⟩

theorem respects_onward : Resolving.Respects settings (Onward settings) where
  refl := .refl
  trans := .trans
  resolves ran := onward_of_grows (Resolving.turn_resolve_none ran) (Resolving.resolve_ok ran (by simp)).1
  reports state entry := onward_of_grows (.reported state entry) (Resolving.grows_report entry)

/-- A key names in the end the view that it named before. -/
theorem Onward.view? (onward : Onward settings start final) {key : String} {place : Place} {shown : Element}
    (known : start.known? [.view] (.parse key) none = some (place, shown)) :
    ∃ later, final.view? key = some later ∧ later.key = shown.key ∧
      later.properties.map Property.key = shown.properties.map Property.key := by
  obtain ⟨later, knownLater, alike⟩ := (Turns.extends onward.turns).known? known
  obtain ⟨same, stands, keys⟩ := onward.keys place shown (known?_some known).1
  obtain rfl := Option.some.inj (stands.symm.trans (known?_some knownLater).1)
  exact ⟨same, by rw [Resolution.view?, knownLater]; rfl, Element.key_eq alike, keys⟩

/-- A key that named no view when it was looked up names none in the end: what is drawn in later is no
view of that name, and placeholders are actions. -/
theorem Grounded.no_view (grounded : final.Grounded settings) {key : String}
    (asked : Resolving.resolve settings [.view] (.parse key) none start = .ok none middle)
    (onward : Turns settings middle final) : final.view? key = none := by
  rcases (Resolving.unknown_or_empty grounded asked onward).2 with unknown | ⟨_, element, -, -, empty, designated⟩
  · rw [view?, unknown]
    rfl
  · have isView : element.kind = .view := Element.kind_of_designated designated
    have isAction : element.kind = .action := (congrArg Element.kind empty :)
    cases isView.symm.trans isAction

end Resolution

namespace Property

theorem key_mem_of_kept {olds news : List Property} (kept : Kept olds news) {key : String}
    (member : key ∈ olds.map Property.key) : key ∈ news.map Property.key := by
  induction kept with
  | nil => cases member
  | cons stays _ _ _ ih =>
    rw [List.map_cons] at member ⊢
    rcases List.mem_cons.mp member with rfl | behind
    · simp [stays.key]
    · exact List.mem_cons_of_mem _ (ih behind)

/-- What is inherited is there under its key. -/
theorem key_mem_inherit {own layer : List Property} {key : String} (member : key ∈ layer.map Property.key) :
    key ∈ (inherit own layer).map Property.key := by
  induction layer generalizing own with
  | nil => cases member
  | cons p rest ih =>
    rw [inherit_cons]
    rcases List.mem_cons.mp member with rfl | behind
    · refine key_mem_of_kept (kept_inherit rest _) ?_
      induction own with
      | nil => simp [upsert]
      | cons q others ih =>
        rw [upsert]
        split
        next same => simp [same]
        next => simpa using .inr (by simpa using ih)
    · exact ih behind

theorem map_key_modifyFirst {key : String} {change : Property → Property} (keeps : ∀ p, (change p).key = p.key)
    (properties : List Property) :
    (modifyFirst key change properties).map Property.key = properties.map Property.key := by
  induction properties with
  | nil => rfl
  | cons p rest ih =>
    rw [modifyFirst]
    split
    · simp [keeps]
    · simp [ih]

end Property

namespace Resolving

open Resolution

variable {settings : Settings} {view : Element} {final : Resolution}

section

variable {deeper : List Element.Key → List Property → Resolution → Expansion (List Property)}

mutual

/-- A node is complete once it is expanded, as the state has it in which everything ends. -/
theorem completed_expandNode (grounded : final.Grounded settings)
    (grows : ∀ path nodes state, (deeper path nodes state).failure = none →
      Onward settings state (deeper path nodes state).state)
    (kept : ∀ path nodes state, Property.Kept nodes (deeper path nodes state).result)
    (below : ∀ path nodes state, (deeper path nodes state).failure = none →
      Onward settings (deeper path nodes state).state final →
        final.Completed view path (deeper path nodes state).result)
    (path : List Element.Key) :
    ∀ (node : Property) (state : Resolution), (expandNode settings view deeper path node state).failure = none →
      Onward settings (expandNode settings view deeper path node state).state final →
        final.Completed view path [(expandNode settings view deeper path node state).result]
  | ⟨key, typeName, presence, value, listOf, values, attributes⟩, state => by
    intro done onward
    rw [expandNode] at done onward ⊢
    split at done
    next isLayout =>
      rw [if_pos isLayout] at onward ⊢
      have inside := completed_expandNodes grounded grows kept below path attributes state done onward
      exact .layout isLayout inside .nil
    next inner =>
      rw [if_neg inner] at onward ⊢
      split at done
      next plain =>
        rw [if_pos plain] at onward ⊢
        exact .plain inner (by simpa using plain) .nil
      next goes =>
        rw [if_neg goes] at onward ⊢
        have names : Property.namesView ⟨key, typeName, presence, value, listOf, values, attributes⟩ := by
          simpa using goes
        cases resolved : resolve settings [.view] (QualifiedName.parse key) none state with
        | error => simp [resolved] at done
        | ok answer middle =>
          simp only [resolved] at done onward ⊢
          have known := (resolve_ok resolved (by simp)).2
          cases answer with
          | none =>
            dsimp only at done onward ⊢
            let missing := (Finding.viewMissing key view.name).reportOn view.name view.file
            have inside := completed_expandNodes grounded grows kept below path attributes _ done onward
            have further := respects_expandNodes respects_onward grows path attributes (middle.report missing) done
            have toFinal := further.trans onward
            have unnamed : final.view? key = none :=
              grounded.no_view resolved (.head (.reported middle missing) toFinal.turns)
            have told : missing ∈ final.reports :=
              (Turns.extends toFinal.turns).reports.subset (List.mem_append_right _ (List.mem_singleton_self _))
            have notShown : ∀ nodes : List Property,
                final.shownBy ⟨key, typeName, presence, value, listOf, values, nodes⟩ = [] := by
              intro nodes
              simp [shownBy, unnamed]
            simp only [Expansion.map]
            refine .names inner names ?_ (by simp [notShown]) ?_ .nil
            · simpa [Settled, unnamed] using told
            · rwa [notShown, List.append_nil]
          | some found =>
            obtain ⟨place, child⟩ := found
            dsimp only at done onward ⊢
            split at done
            next => cases done
            next fresh =>
              rw [if_neg fresh] at onward ⊢
              have inside := below _ _ _ done onward
              obtain ⟨shown, named, sameKey, keys⟩ := ((grows _ _ _ done).trans onward).view? known
              have isShown : ∀ nodes : List Property,
                  final.shownBy ⟨key, typeName, presence, value, listOf, values, nodes⟩ = [child.key] := by
                intro nodes
                rw [shownBy, if_pos ⟨inner, names⟩, named, ← sameKey]
                rfl
              have has : ∀ p ∈ shown.properties,
                  p.key ∈ (Property.inherit attributes child.properties).map Property.key := fun p member =>
                Property.key_mem_inherit (keys ▸ List.mem_map_of_mem member)
              simp only [Expansion.map]
              refine .names inner names ?_ ?_ ?_ .nil
              · rw [Settled, named]
                intro p member
                exact List.mem_map.mp (Property.key_mem_of_kept (kept _ _ _) (has p member))
              · rw [isShown]
                simpa using fresh
              · rw [isShown]
                exact inside

theorem completed_expandNodes (grounded : final.Grounded settings)
    (grows : ∀ path nodes state, (deeper path nodes state).failure = none →
      Onward settings state (deeper path nodes state).state)
    (kept : ∀ path nodes state, Property.Kept nodes (deeper path nodes state).result)
    (below : ∀ path nodes state, (deeper path nodes state).failure = none →
      Onward settings (deeper path nodes state).state final →
        final.Completed view path (deeper path nodes state).result)
    (path : List Element.Key) :
    ∀ (nodes : List Property) (state : Resolution),
      (expandNodes settings view deeper path nodes state).failure = none →
      Onward settings (expandNodes settings view deeper path nodes state).state final →
        final.Completed view path (expandNodes settings view deeper path nodes state).result
  | [], state => fun _ _ => by
    rw [expandNodes]
    exact .nil
  | node :: rest, state => by
    intro done onward
    have first := completed_expandNode grounded grows kept below path node state
    rw [expandNodes] at done onward ⊢
    cases expanded : expandNode settings view deeper path node state with
    | mk result failure middle =>
      rw [expanded] at done onward first
      cases failure with
      | some => cases done
      | none =>
        have further := respects_expandNodes respects_onward grows path rest middle done
        have others := completed_expandNodes grounded grows kept below path rest middle done onward
        exact (first rfl (further.trans onward)).cons others

end

end

theorem completed_expand (grounded : final.Grounded settings) {steps : Nat} {path : List Element.Key}
    {nodes : List Property} {state : Resolution} (done : (expand settings view steps path nodes state).failure = none)
    (onward : Onward settings (expand settings view steps path nodes state).state final) :
    final.Completed view path (expand settings view steps path nodes state).result := by
  induction steps generalizing path nodes state with
  | zero => cases done
  | succ steps ih =>
    have expands : ∀ path nodes state, Expands settings state nodes (expand settings view steps path nodes state) :=
      expands_expand view steps
    exact completed_expandNodes grounded (fun _ _ _ => respects_expand respects_onward)
      (fun path nodes state => (expands path nodes state).kept) (fun _ _ _ => ih) path nodes state done onward

theorem onward_laidOut (state : Resolution) (index : Nat) (nodes : List Property) :
    Onward settings state (state.modifyAuthored index fun own =>
      { own with properties := Property.modifyFirst layoutKey ({ · with attributes := nodes }) own.properties }) := by
  refine ⟨.single (.gained state index fun _ => rfl), fun place own stands => ?_⟩
  by_cases here : place = .authored index
  · obtain rfl := here
    refine ⟨_, (getElem?_modifyAuthored_self ..).trans (congrArg _ stands), ?_⟩
    exact Property.map_key_modifyFirst (by exact fun _ => rfl) own.properties
  · exact ⟨own, (element?_modifyAuthored_of_ne here ..).trans stands, rfl⟩

theorem onward_resolveLayout {index : Nat} {element : Element} {u : Unit}
    (ran : resolveLayout settings index element start = .ok u final) : Onward settings start final := by
  rcases resolveLayout_cases ran with ⟨-, rfl⟩ | ⟨layout, expansion, -, rfl, done, rfl⟩
  · exact .refl _
  · exact (respects_expand respects_onward done).trans (onward_laidOut _ index _)

theorem onward_layoutTurn {index : Nat} {u : Unit}
    (ran : withAuthored (resolveLayout settings) index start = .ok u final) : Onward settings start final := by
  rcases withAuthored_ok.mp ran with ⟨-, rfl⟩ | ⟨element, -, visited⟩
  · exact .refl _
  · exact onward_resolveLayout visited

/-- The turn of an element leaves the others as they are, but for the count of their uses. -/
theorem uncounted_layoutTurn {index other : Nat} (differs : other ≠ index) {u : Unit}
    (ran : withAuthored (resolveLayout settings) index start = .ok u final) :
    final.project.authored.elements[other]?.map Element.uncounted =
      start.project.authored.elements[other]?.map Element.uncounted := by
  rcases withAuthored_ok.mp ran with ⟨-, rfl⟩ | ⟨element, -, visited⟩
  · rfl
  · rcases resolveLayout_cases visited with ⟨-, rfl⟩ | ⟨layout, expansion, -, rfl, done, rfl⟩
    · rfl
    · rw [getElem?_modifyAuthored_of_ne differs]
      exact getElem?_map_uncounted (grows_expand done).authored other

/-- From the turn of a view on its layout is complete, as the state has it in which everything ends. -/
theorem completed_layoutTurn (grounded : final.Grounded settings) {index : Nat} {own : Element} {u : Unit}
    (ran : resolveLayout settings index own start = .ok u middle)
    (stood : start.project.authored.elements[index]? = some own) (onward : Onward settings middle final)
    (stands : middle.project.authored.elements[index]? = some view) {layout : Property}
    (has : layout? view = some layout) : final.Completed view [view.key] layout.attributes := by
  have turns : Onward settings start middle := onward_resolveLayout ran
  have alike : view.outline = own.outline := by
    obtain ⟨later, standsLater, same⟩ := (Turns.extends turns.turns).later stood
    exact Option.some.inj (standsLater.symm.trans stands) ▸ same
  rcases resolveLayout_cases ran with ⟨unlayed, rfl⟩ | ⟨former, expansion, -, rfl, done, rfl⟩
  · obtain rfl := Option.some.inj (stood.symm.trans stands)
    cases unlayed.symm.trans has
  · rw [getElem?_modifyAuthored_self] at stands
    obtain ⟨later, -, rfl⟩ := Option.map_eq_some_iff.mp stands
    have isResult : layout.attributes = (expand settings own start.bound [own.key] former.attributes start).result := by
      rw [layout?] at has
      split at has
      next => exact World.attributes_modifyFirst has
      next => cases has
    rw [isResult, Element.key_eq alike]
    exact (completed_expand grounded done ((onward_laidOut _ index _).trans onward)).alike alike

/-- In the end the layout of every authored view is complete. -/
theorem completed_layouts (grounded : final.Grounded settings)
    (ran : overAuthored (resolveLayout settings) start = .ok () final)
    (member : view ∈ final.project.authored.elements) {layout : Property} (has : layout? view = some layout) :
    final.Completed view [view.key] layout.attributes := by
  obtain ⟨index, stands⟩ := List.mem_iff_getElem?.mp member
  have toFinal : Onward settings start final :=
    respects_overAuthored .refl .trans (fun _ _ _ _ _ visited => onward_resolveLayout visited) ran
  obtain ⟨own, stood, -⟩ := (Turns.extends toFinal.turns).former stands
  have inside : index < start.project.authored.elements.length := (List.getElem?_eq_some_iff.mp stood).1
  obtain ⟨before, next, rest, -, turn, others, behind⟩ := reached_turn (overAuthored_ok.mp ran) inside
  have later : Onward settings next final := by
    refine forM_ok (R := Onward settings) .refl .trans (fun other _ s t visited => ?_) others
    exact onward_layoutTurn visited
  have same : final.project.authored.elements[index]?.map Element.uncounted =
      next.project.authored.elements[index]?.map Element.uncounted := by
    refine forM_ok (R := fun s t : Resolution => t.project.authored.elements[index]?.map Element.uncounted =
      s.project.authored.elements[index]?.map Element.uncounted) (fun _ => rfl)
        (fun first second => second.trans first) (fun other member s t visited => ?_) others
    exact uncounted_layoutTurn (Nat.ne_of_lt (behind other member)) visited
  rw [stands] at same
  obtain ⟨standing, standsNext, alike⟩ := Option.map_eq_some_iff.mp same.symm
  have hasToo : layout? standing = some layout := by
    have sameLayout : layout? standing.uncounted = layout? view.uncounted := congrArg layout? alike
    exact sameLayout.trans has
  rcases withAuthored_ok.mp turn with ⟨absent, rfl⟩ | ⟨element, present, visited⟩
  · cases absent.symm.trans standsNext
  · have complete := completed_layoutTurn grounded visited present later standsNext hasToo
    have outlined := Element.outline_of_uncounted alike
    rw [Element.key_eq outlined] at complete
    exact complete.alike outlined.symm

end Resolving

open Resolution Resolving

/-- Layouts are complete in the end. Nobody who goes down from the layout of an authored view meets a view
inside itself, and each node on the way that may name a view has a property for every one of the view
that it names, or it names none and was reported. -/
theorem layouts_complete {settings : Settings} {authored : Document} {workspace : Workspace} {final : Resolution}
    (faithful : workspace.Faithful settings) (ran : authored.resolved settings workspace = .ok () final)
    {view : Element} (isAuthored : view ∈ final.project.authored.elements) {path : List Element.Key}
    {node : Property} (visited : final.Visits view path node) :
    path.Nodup ∧ (node.key ≠ layoutKey → node.namesView → final.Settled view node) := by
  have grounded : final.Grounded settings := grounded_of_turns faithful (turns_all ran)
  obtain ⟨_, _, _, bound, -, -, -, -, layouts⟩ := all_ok ran
  obtain ⟨distinct, above, -, complete⟩ := visited.completed fun _ => completed_layouts grounded layouts isAuthored
  exact ⟨distinct, complete.settled⟩

/-- The layout of the first view shows the second, whose title is taken for a view. -/
theorem layouts_complete_homePage :
    classShelved.Faithful {} ∧ ∃ final view path header title,
      (homePage none).resolved {} classShelved = .ok () final ∧ view ∈ final.project.authored.elements ∧
        final.Visits view path header ∧ final.Visits view (path ++ final.shownBy title) title ∧
        (header.key ≠ layoutKey ∧ header.namesView ∧ final.Settled view header) ∧
        title.key ≠ layoutKey ∧ title.namesView ∧ final.Settled view title ∧ (path ++ final.shownBy title).Nodup := by
  have shows : ends (fun _ final => decide (∃ view ∈ final.project.authored.elements, ∃ layout ∈ layout? view,
      ∃ header ∈ layout.attributes, (header.key ≠ layoutKey ∧ header.namesView) ∧
        ∃ title ∈ header.attributes, title.key ≠ layoutKey ∧ title.namesView))
      ((homePage none).resolved {} classShelved) := by decide +kernel
  obtain ⟨_, final, ran, found⟩ := ok_of_ends shows
  obtain ⟨view, isAuthored, layout, has, header, below, ⟨inner, names⟩, title, inside, innerToo, namesToo⟩ :=
    of_decide_eq_true found
  have visited : final.Visits view _ header := .top has below
  have visitedToo : final.Visits view _ title := visited.within (.inr names) inside
  have complete := layouts_complete Workspace.faithful_classShelved ran isAuthored visited
  have completeToo := layouts_complete Workspace.faithful_classShelved ran isAuthored visitedToo
  exact ⟨Workspace.faithful_classShelved, final, view, _, header, title, ran, isAuthored, visited, visitedToo,
    ⟨inner, names, complete.2 inner names⟩, innerToo, namesToo, completeToo.2 innerToo namesToo, completeToo.1⟩

end Requirements
