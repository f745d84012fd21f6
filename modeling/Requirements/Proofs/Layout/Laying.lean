import Requirements.Proofs.Layout.Walk

/-! The pass over the layouts, and the passes before it. Where the nodes that are laid out name one view
each and no view contains itself, no resolution ends in a cycle of layouts, and none reports a node. -/
namespace Requirements

open Property (layoutKey)
open Relation (ReflTransGen)
open Resolution World

namespace World

variable {world : World} {offered : QualifiedName → Prop} {settings : Settings} {start final state : Resolution}

theorem Served.of_same (served : world.Served offered final) (workspace : final.workspace = start.workspace)
    (parsed : final.parsed = start.parsed) : world.Served offered start :=
  ⟨fun element read => served.read element (read.later (parsed ▸ List.prefix_rfl)),
    fun reference isOffered searched =>
      served.found reference isOffered (searched.later workspace (parsed ▸ List.prefix_rfl))⟩

/-- A view whose layout gets sound nodes stands as one of the world does. -/
theorem Standing.laidOut (standing : world.Standing state) {index : Nat} {now : Element}
    (stands : state.project.authored.elements[index]? = some now) {nodes : List Property}
    (sound : world.Sound now.key nodes) :
    world.Standing (state.modifyAuthored index fun own =>
      { own with properties := Property.modifyFirst layoutKey ({ · with attributes := nodes }) own.properties }) where
  authored other later standsLater := by
    by_cases same : other = index
    · obtain rfl := same
      rw [getElem?_modifyAuthored_self, stands] at standsLater
      obtain rfl := Option.some.inj standsLater
      obtain ⟨view, isAuthored, alike, -, inside⟩ := standing.authored other now stands
      have soundHere : world.Sound view.key nodes := Element.key_eq alike ▸ sound
      refine ⟨view, isAuthored, alike, fun layout layed => ?_, fun laid => sound_modifyFirst (inside laid) soundHere⟩
      rw [Resolving.layout?] at layed
      split at layed
      next => rwa [attributes_modifyFirst layed]
      next => cases layed
    · rw [getElem?_modifyAuthored_of_ne same] at standsLater
      exact standing.authored other later standsLater
  present view isAuthored := by
    obtain ⟨former, member, alike⟩ := standing.present view isAuthored
    obtain ⟨other, stood⟩ := List.mem_iff_getElem?.mp member
    have extended : Extends state (state.modifyAuthored index fun own =>
        { own with
          properties := Property.modifyFirst layoutKey ({ · with attributes := nodes }) own.properties }) :=
      extends_modifyAuthored (by simp [Element.outline]) state index
    obtain ⟨later, standsLater, same⟩ := extended.later stood
    exact ⟨later, List.mem_of_getElem? standsLater, same.trans alike⟩
  drawn := standing.drawn
  quiet := standing.quiet

end World

namespace Resolving

variable {world : World} {offered : QualifiedName → Prop} {settings : Settings} {start : Resolution}

theorem walked_expand (clear : world.Clear offered) {view : Element} {steps : Nat} {path : List Element.Key}
    {key : Element.Key} {nodes : List Property} (reaches : ∀ passed ∈ path, ReflTransGen world.Contains passed key)
    (served : world.Served offered (expand settings view steps path nodes start).state)
    (standing : world.Standing start) (sound : world.Sound key nodes) :
    world.Walked (world.Sound key) (expand settings view steps path nodes start) := by
  induction steps generalizing path key nodes start with
  | zero => exact ⟨by simp [expand], fun ended => by cases ended⟩
  | succ steps ih =>
    exact walked_expandNodes clear (expands_expand view steps) ih reaches nodes start served standing sound

/-- What holds of a state that belongs to the world also at the end of the turn of one view. -/
theorem outcome_layoutTurn (clear : world.Clear offered) {index : Nat} {now : Element}
    (stands : start.project.element? (.authored index) = some now)
    (held : world.Served offered start → world.Standing start) :
    Outcome (fun _ final => world.Served offered final → world.Standing final)
      (fun failure final => world.Served offered final → ∀ told, failure ≠ .cycle .layout told)
      (resolveLayout settings index now start) := by
  rw [resolveLayout]
  cases layed : layout? now with
  | none => exact held
  | some layout =>
    have expands : Expands settings start layout.attributes
        (expand settings now start.bound [now.key] layout.attributes start) := expands_expand ..
    have walks : world.Served offered (expand settings now start.bound [now.key] layout.attributes start).state →
        world.Walked (world.Sound now.key) (expand settings now start.bound [now.key] layout.attributes start) := by
      intro served
      have standing := held (served.before expands.follows.changes)
      obtain ⟨view, isAuthored, alike, ofLayout, -⟩ := standing.authored index now stands
      have sound := ofLayout layout layed
      rw [← Element.key_eq alike] at sound
      exact walked_expand clear (by simpa using .refl) served standing sound
    dsimp only [expandLayout]
    split
    next failure failed =>
      intro served told same
      exact (walks (served.of_same rfl rfl)).straight told (same ▸ failed)
    next ended =>
      intro served
      obtain ⟨standing, sound⟩ := (walks (served.of_same rfl rfl)).done ended
      obtain ⟨later, standsLater, same⟩ := expands.follows.grows.later stands
      exact standing.laidOut standsLater (Element.key_eq (Element.outline_of_uncounted same) ▸ sound)

theorem outcome_layouts (clear : world.Clear offered) (standing : world.Standing start) :
    Outcome (fun _ final => world.Served offered final → world.Standing final)
      (fun failure final => world.Served offered final → ∀ told, failure ≠ .cycle .layout told)
      (overAuthored (resolveLayout settings) start) :=
  outcome_overAuthored (fun _ _ _ stands held => outcome_layoutTurn clear stands held) fun _ => standing

/-! ### The passes before -/

theorem quiet_report {finding : Finding} (other : ∀ child view, finding ≠ .viewMissing child view)
    (subject : QualifiedName) (file : String) (quiet : start.Quiet) :
    (start.report (finding.reportOn subject file)).Quiet := by
  intro entry member child view
  rcases List.mem_append.mp member with old | new
  · exact quiet entry old child view
  · obtain rfl := List.mem_singleton.mp new
    rw [Finding.code_reportOn]
    cases finding <;> simp [Finding.code] at other ⊢

def NoLayoutCycle (failure : Failure) : Prop := ∀ told, failure ≠ .cycle .layout told

theorem EndsWalk.noLayoutCycle {failure : Failure} (ends : EndsWalk .ancestor failure) : NoLayoutCycle failure :=
  ends.ne_cycle (by decide)

theorem quiet_resolve (kinds : List ElementKind) (reference : QualifiedName) (asker : Option Place)
    (quiet : start.Quiet) : Outcome (fun _ => Quiet) (fun failure _ => failure.isOutside)
      (resolve settings kinds reference asker start) :=
  (outcome_resolve kinds reference asker start).mono fun _ final ran _ => by
    rw [Quiet, reports_resolve ran]
    exact quiet

theorem quiet_chainFrom {origin : Element} {steps : Nat} {visited : List Element.Key} {names : List String}
    {current : Place} {element : Element} (quiet : start.Quiet) :
    Outcome (fun _ => Quiet) (fun failure _ => NoLayoutCycle failure)
      (chainFrom settings origin steps visited names current element start) := by
  induction steps generalizing visited names current element start with
  | zero => exact fun _ => Failure.noConfusion
  | succ steps ih =>
    rw [chainFrom]
    cases element.ancestor with
    | none => exact quiet
    | some reference =>
      have resolves : Outcome (fun _ => Quiet) (fun failure _ => NoLayoutCycle failure)
          (resolve settings element.kind.related reference (some current) start) :=
        (quiet_resolve _ _ _ quiet).failure fun _ _ outside => EndsWalk.noLayoutCycle (.inl outside)
      refine outcome_bind resolves fun answer middle _ quietThen => ?_
      cases answer with
      | none => exact quiet_report (by simp) _ _ quietThen
      | some found =>
        dsimp only
        split
        next => exact EndsWalk.noLayoutCycle (.inr ⟨_, rfl⟩)
        next => exact outcome_bind (ih quietThen) fun _ _ _ quietLast => quietLast

theorem law_quiet : Law settings Quiet (fun failure _ => NoLayoutCycle failure) where
  resolves _ _ _ _ quiet := (quiet_resolve _ _ _ quiet).failure fun _ _ outside =>
    EndsWalk.noLayoutCycle (.inl outside)
  climbs _ _ _ _ _ quiet := outcome_get (quiet_chainFrom quiet)
  reports _ _ _ _ other quiet := quiet_report other _ _ quiet
  gains _ _ _ _ quiet := quiet

theorem quiet_resolveRequests {steps : Nat} {met : List Element.Key} {requests : List Request}
    (quiet : start.Quiet) : Outcome (fun _ => Quiet) (fun failure _ => NoLayoutCycle failure)
      (resolveRequests settings steps met requests start) := by
  induction steps generalizing met requests start with
  | zero =>
    cases requests with
    | nil => exact quiet
    | cons => exact fun _ => Failure.noConfusion
  | succ steps ih =>
    cases requests with
    | nil => exact quiet
    | cons request rest =>
      obtain ⟨reference, requester⟩ := request
      have acts : Outcome (fun _ => Quiet) (fun failure _ => NoLayoutCycle failure)
          (resolveAction settings (reference, requester) start) := by
        have resolves := (quiet_resolve [.action] reference none quiet : Outcome _ _ (resolve settings _ _ _ _))
        refine outcome_bind (resolves.failure fun _ _ outside => EndsWalk.noLayoutCycle (.inl outside))
          fun answer middle _ quietThen => ?_
        cases answer with
        | some => exact quietThen
        | none => exact quiet_report (by simp) _ _ quietThen
      rw [resolveRequests]
      refine outcome_bind acts fun action middle _ quietThen => ?_
      split
      · exact ih quietThen
      · exact ih quietThen

end Resolving

/-- The elements of a run: the authored ones as they are before layouts are expanded, with what they
inherited, and those of documents that were read. -/
def World.ofRun (before final : Resolution) : World := ⟨(· ∈ before.project.authored.elements), final.Read⟩

theorem World.standing_ofRun {before final : Resolution} (accounted : before.Accounted) (quiet : before.Quiet) :
    (World.ofRun before final).Standing before where
  authored index now stands := by
    have isAuthored : (World.ofRun before final).authored now := List.mem_of_getElem? stands
    exact ⟨now, isAuthored, rfl, fun layout layed => .of_laid (.layout isAuthored layed), .of_laid⟩
  present view isAuthored := ⟨view, isAuthored, rfl⟩
  drawn element member isView := by
    obtain ⟨index, stands⟩ := List.mem_iff_getElem?.mp member
    rcases accounted index element stands with (⟨_, isAuthored⟩ | read) | ⟨missing, standsIn⟩
    · cases isAuthored
    · exact read
    · have isAction : element.kind = .action := (congrArg Element.kind standsIn.empty :)
      rw [isView] at isAction
      cases isAction
  quiet := quiet

open Resolving

/-- Where all that is laid out in views names one view each, written or offered, and no view contains
itself, a resolution reports no node and does not fail for a cycle of layouts. -/
theorem Document.quiet_of_clear {settings : Settings} {authored : Document} {workspace : Workspace}
    (clear : ∀ before, beforeLayouts settings { project := { authored }, workspace } = .ok () before →
      (World.ofRun before (stateAfter (authored.resolved settings workspace))).Clear fun reference =>
        (stateAfter (authored.resolved settings workspace)).provides settings .view reference) :
    (∀ told final, authored.resolved settings workspace ≠ .error (.cycle .layout told) final) ∧
      ∀ final, authored.resolved settings workspace = .ok () final → final.Quiet := by
  let start : Resolution := { project := { authored }, workspace }
  have first : Outcome (fun _ => Quiet) (fun failure _ => NoLayoutCycle failure) (beforeLayouts settings start) := by
    refine law_quiet.beforeLayouts (fun state quiet => outcome_get (quiet_resolveRequests quiet)) ?_
    intro report member
    cases member
  have changes : Changes settings start (stateAfter (beforeLayouts settings start)) := changes_beforeLayouts start
  have outcome : Outcome (fun _ => Quiet) (fun failure _ => NoLayoutCycle failure)
      (authored.resolved settings workspace) := by
    rw [Document.resolved, all_eq]
    refine outcome_bind first fun _ before ran quiet => ?_
    have isClear := clear before ran
    rw [Document.resolved, all_of_before ran] at isClear
    rw [ran] at changes
    have accounted := changes.accounted fun index element stands => by simp [start, Project.element?] at stands
    let last := stateAfter (overAuthored (resolveLayout settings) before)
    have served : (World.ofRun before last).Served (fun reference => last.provides settings .view reference) last :=
      ⟨fun _ read => read, fun _ provided searched => searched.not_provides provided⟩
    have layouts : Outcome _ _ (overAuthored (resolveLayout settings) before) :=
      outcome_layouts isClear (standing_ofRun accounted quiet)
    refine (layouts.mono fun _ final done held => ?_).failure_at fun failure final failed held => ?_
    · have isLast : last = final := congrArg stateAfter done
      exact (held (isLast ▸ served)).quiet
    · have isLast : last = final := congrArg stateAfter failed
      exact held (isLast ▸ served)
  constructor
  · intro told final failed
    rw [failed] at outcome
    exact outcome told rfl
  · intro final ran
    rw [ran] at outcome
    exact outcome

/-- What begins and ends apart does not come back. -/
theorem not_transGen_self {α : Type} {R : α → α → Prop} (first last : α → Prop)
    (leads : ∀ {a b}, R a b → first a ∧ last b) (apart : ∀ a, first a → ¬last a) (a : α) :
    ¬Relation.TransGen R a a := by
  intro back
  obtain ⟨_, step, -⟩ := Relation.TransGen.head'_iff.mp back
  obtain ⟨_, -, step'⟩ := Relation.TransGen.tail'_iff.mp back
  exact apart a (leads step).1 (leads step').2

def homeView : Element :=
  { kind := .view, name := ⟨"Home", some "acme"⟩
    properties := [{ key := "layout", attributes := [{ key := "Header" }] }] }

def headerView (typeName : Option String) : Element :=
  { kind := .view, name := ⟨"Header", some "acme"⟩, properties := [{ key := "title", typeName }] }

def homePage (typeName : Option String) : Document := { elements := [homeView, headerView typeName] }

def noLibrary : Workspace := .withLibrary "domain lib;"

theorem clear_homePage {world : World}
    (authored : ∀ view, world.authored view ↔ view ∈ (homePage (some "String")).elements)
    (unread : ∀ view, ¬world.library view) (offered : QualifiedName → Prop) : world.Clear offered := by
  have declares : ∀ {view}, world.Declares view → view = homeView ∨ view = headerView (some "String") := by
    rintro view (isAuthored | isRead)
    · exact List.mem_pair.mp ((authored view).mp isAuthored)
    · exact absurd isRead (unread view)
  have shows : ∀ {view}, world.Declares view → view.isDesignated [.view] (.parse "Header") →
      view = headerView (some "String") := fun declared designated =>
    (declares declared).resolve_left fun isHome => absurd (isHome ▸ designated) (by decide)
  have laid : ∀ {key nodes}, world.Laid key nodes → (key = homeView.key ∧ nodes = [{ key := "Header" }]) ∨
      nodes = [{ key := "title", typeName := some "String" }] ∨ nodes = [] := by
    intro key nodes laid
    induction laid with
    | layout isAuthored has =>
      rcases declares (.inl isAuthored) with rfl | rfl
      · obtain rfl := Option.some.inj has
        exact .inl ⟨rfl, rfl⟩
      · cases has
    | inner _ member isLayout ih =>
      rcases ih with ⟨-, rfl⟩ | rfl | rfl
      · exact absurd (List.mem_singleton.mp member ▸ isLayout) (by decide)
      · exact absurd (List.mem_singleton.mp member ▸ isLayout) (by decide)
      · cases member
    | view _ member _ names declared designated ih =>
      rcases ih with ⟨-, rfl⟩ | rfl | rfl
      · obtain rfl := List.mem_singleton.mp member
        obtain rfl := shows declared designated
        exact .inr (.inl rfl)
      · exact absurd (List.mem_singleton.mp member ▸ names) (by decide)
      · cases member
    | nested _ member _ typeless _ _ ih =>
      rcases ih with ⟨-, rfl⟩ | rfl | rfl
      · obtain rfl := List.mem_singleton.mp member
        exact .inr (.inr rfl)
      · exact absurd (List.mem_singleton.mp member ▸ typeless) (by decide)
      · cases member
  have inserts : ∀ {key name}, world.Inserts key name → key = homeView.key ∧ name = "Header" := by
    rintro key name ⟨nodes, isLaid, node, member, -, names, rfl⟩
    rcases laid isLaid with ⟨rfl, rfl⟩ | rfl | rfl
    · exact ⟨rfl, congrArg Property.key (List.mem_singleton.mp member)⟩
    · exact absurd (List.mem_singleton.mp member ▸ names) (by decide)
    · cases member
  refine ⟨fun isInserted => ?_, fun isInserted _ _ first second designated also => ?_, ?_⟩
  · obtain ⟨-, rfl⟩ := inserts isInserted
    exact .inl ⟨headerView (some "String"), (authored _).mpr (by simp [homePage]), by decide⟩
  · obtain ⟨-, rfl⟩ := inserts isInserted
    exact (shows first designated).trans (shows second also).symm
  · refine not_transGen_self (· = homeView.key) (· = (headerView (some "String")).key) ?_
      (fun key isHome isHeader => ?_)
    · rintro outer inner ⟨name, view, isInserted, declared, designated, rfl⟩
      obtain ⟨isHome, rfl⟩ := inserts isInserted
      exact ⟨isHome, congrArg Element.key (shows declared designated)⟩
    · exact absurd (isHome.symm.trans isHeader) (by decide)

theorem Document.quiet_of_clear_homePage :
    (∀ before, beforeLayouts {} { project := { authored := homePage (some "String") }, workspace := noLibrary } =
        .ok () before →
      (World.ofRun before (stateAfter ((homePage (some "String")).resolved {} noLibrary))).Clear fun reference =>
        (stateAfter ((homePage (some "String")).resolved {} noLibrary)).provides {} .view reference) ∧
      (∀ told final, (homePage (some "String")).resolved {} noLibrary ≠ .error (.cycle .layout told) final) ∧
      ∀ final, (homePage (some "String")).resolved {} noLibrary = .ok () final → final.Quiet := by
  have clear : ∀ before,
      beforeLayouts {} { project := { authored := homePage (some "String") }, workspace := noLibrary } =
        .ok () before →
      (World.ofRun before (stateAfter ((homePage (some "String")).resolved {} noLibrary))).Clear fun reference =>
        (stateAfter ((homePage (some "String")).resolved {} noLibrary)).provides {} .view reference := by
    intro before ran
    obtain rfl : { project := { authored := homePage (some "String") }, workspace := noLibrary } = before :=
      (EStateM.Result.ok.inj ran).2
    have nothing : (stateAfter ((homePage (some "String")).resolved {} noLibrary)).parsed = [] := rfl
    have unread : ∀ view, ¬(stateAfter ((homePage (some "String")).resolved {} noLibrary)).Read view := by
      rintro view ⟨path, document, member, -⟩
      rw [nothing] at member
      cases member
    exact clear_homePage (fun view => .rfl) unread _
  exact ⟨clear, Document.quiet_of_clear clear⟩

def Element.LaysOut (view : Element) (name : String) : Prop :=
  ∃ layout, layout? view = some layout ∧ name ≠ layoutKey ∧ Property.Mentions name layout.attributes

/-- The view that is shown has a title without a type. That is no node, but it is reported as one, though
every node below a layout names one view and no view is shown inside itself. -/
theorem nodeReported_homePage :
    (∀ view ∈ (homePage none).elements, ∀ name, view.LaysOut name →
      ∃ shown ∈ (homePage none).elements, shown.isDesignated [.view] (.parse name) ∧
        ∀ other ∈ (homePage none).elements, other.isDesignated [.view] (.parse name) → other = shown) ∧
      (∀ view, ¬Relation.TransGen (fun outer inner => outer ∈ (homePage none).elements ∧
        inner ∈ (homePage none).elements ∧
          ∃ name, outer.LaysOut name ∧ inner.isDesignated [.view] (.parse name)) view view) ∧
      ∃ final, (homePage none).resolved {} noLibrary = .ok () final ∧ ¬final.Quiet := by
  have lays : ∀ view ∈ (homePage none).elements, ∀ name, view.LaysOut name →
      view = homeView ∧ name = "Header" := by
    rintro view member name ⟨layout, layed, -, mentions⟩
    rcases List.mem_pair.mp member with rfl | rfl
    · obtain rfl := Option.some.inj layed
      refine ⟨rfl, ?_⟩
      cases mentions with
      | here inside _ same => exact (congrArg Property.key (List.mem_singleton.mp inside) ▸ same).symm
      | inside inside below =>
        obtain rfl := List.mem_singleton.mp inside
        cases below <;> contradiction
    · cases layed
  have shows : ∀ view ∈ (homePage none).elements, view.isDesignated [.view] (.parse "Header") →
      view = headerView none := by
    intro view member designated
    rcases List.mem_pair.mp member with rfl | rfl
    · exact absurd designated (by decide)
    · rfl
  have reported : ends (fun _ final => final.reports.any (·.code == some "W0103"))
      ((homePage none).resolved {} noLibrary) := by decide +kernel
  refine ⟨fun view member name laysOut => ?_,
    not_transGen_self (· = homeView) (· = headerView none) (fun ⟨isOuter, isInner, name, laysOut, designated⟩ => ?_)
      (fun view isHome isHeader => ?_), ?_⟩
  · obtain ⟨-, rfl⟩ := lays view member name laysOut
    exact ⟨headerView none, by simp [homePage], by decide, fun other => shows other⟩
  · obtain ⟨isHome, rfl⟩ := lays _ isOuter name laysOut
    exact ⟨isHome, shows _ isInner designated⟩
  · have sameName := congrArg Element.name (isHome.symm.trans isHeader)
    exact absurd sameName (by decide)
  · obtain ⟨_, final, ran, meets⟩ := ok_of_ends reported
    obtain ⟨entry, member, coded⟩ := List.any_eq_true.mp meets
    exact ⟨final, ran, fun quiet => quiet entry member "" ⟨"", none⟩ (by simpa [Finding.code] using coded)⟩

end Requirements
