import Requirements.Proofs.Order.Features

/-! The pass over the layouts. It meets views whose layouts are expanded and others whose layouts
are not, and both give the same expansion. -/
namespace Requirements

theorem Property.Expanded.cons {table : Property.Table} {node made : Property} {rest more : List Property}
    (expanded : Property.Expanded table [node] [made]) (others : Property.Expanded table rest more) :
    Property.Expanded table (node :: rest) (made :: more) := by
  cases expanded with
  | closed inner plain => exact .closed inner plain others
  | opened opens below => exact .opened opens below others

namespace World

open Resolution

/-- The properties of the view that a key names, as the state has them. -/
def viewsNow (world : World) (state : Resolution) : Property.Table := fun key properties =>
  world.Shows key ∧
    ((∃ index : Nat, ∃ standing, state.project.authored.elements[index]? = some standing ∧
        standing.isDesignated [.view] (.parse key) ∧ standing.properties = properties) ∨
      ∃ view, view.isDesignated [.view] (.parse key) ∧ world.library view ∧ ¬world.authored view ∧
        view.properties = properties)

structure Showing (world : World) (now state : Resolution) : Prop where
  same : state.project.authored.elements.map Element.uncounted =
    now.project.authored.elements.map Element.uncounted
  drawn : ∀ element ∈ state.project.dependencies.elements, element.kind = .view →
    world.library element.uncounted

variable {world : World} {authored : Document} {reports : List Report} {now start final state : Resolution}

theorem Showing.grows (showing : world.Showing now start) (grows : Grows start final)
    (fits : world.Fits authored reports final) : world.Showing now final := by
  refine ⟨grows.authored.trans showing.same, fun element member isView => ?_⟩
  rcases grows.declared element member with old | ⟨declared, read, same⟩
  · obtain ⟨former, inStart, same⟩ := List.mem_map.mp old
    have sameKind : former.kind = element.kind := (congrArg Element.kind same :)
    exact same ▸ showing.drawn former inStart (sameKind.trans isView)
  · exact same ▸ fits.read declared read

/-- At its end an element is as the features left it, but that its layout may be expanded. -/
theorem Ends.shown {element : Element} {properties : List Property} (ended : world.Ends element properties) :
    ∃ featured, world.Featured element featured ∧
      Property.Shown world.views featured.properties properties := by
  cases ended with
  | plain gained => exact ⟨_, gained, Property.Shown.refl _ _⟩
  | expanded gained layed made =>
    rw [Resolving.layout?] at layed
    split at layed
    next => exact ⟨_, gained, Property.shown_modifyFirst layed made⟩
    next => cases layed

/-- A view that is known by a key is the view that the key names by now. -/
theorem Showing.named (showing : world.Showing now state) (fits : world.Fits authored reports state)
    {key : String} (shows : world.Shows key) {place : Place} {view : Element}
    (known : state.known? [.view] (.parse key) none = some (place, view)) :
    world.viewsNow now key view.properties := by
  obtain ⟨stands, -, designated⟩ := known?_some known
  refine ⟨shows, ?_⟩
  cases place with
  | authored index =>
    have same := Resolving.getElem?_map_uncounted showing.same index
    change state.project.authored.elements[index]? = some view at stands
    rw [stands] at same
    obtain ⟨standing, standsNow, alike⟩ := Option.map_eq_some_iff.mp same.symm
    have properties : standing.properties = view.properties := (congrArg Element.properties alike :)
    refine .inl ⟨index, standing, standsNow, ?_, properties⟩
    rwa [Element.isDesignated_of_outline (Element.outline_of_uncounted alike)]
  | dependency index =>
    have isView := Element.kind_of_designated designated
    refine .inr ⟨view.uncounted, designated, showing.drawn view (List.mem_of_getElem? stands) isView, ?_, rfl⟩
    intro isAuthored
    obtain ⟨index, standing, standsAuthored, -, alike⟩ := fits.stands isAuthored
    refine known?_dependency known standing (List.mem_of_getElem? standsAuthored) ?_
    rwa [Element.isDesignated_of_outline alike]

/-- A key that leads nowhere names no view by now. -/
theorem Showing.unnamed (regular : world.Regular reports) (showing : world.Showing now state)
    {key : String} (unknown : state.known? [.view] (.parse key) none = none)
    (missed : world.Missed reports [.view] (.parse key)) (properties : List Property) :
    ¬world.viewsNow now key properties := by
  rintro ⟨-, ⟨index, standing, stands, designated, -⟩ | ⟨view, designated, library, -⟩⟩
  · have same := Resolving.getElem?_map_uncounted showing.same index
    rw [stands] at same
    obtain ⟨later, standsLater, alike⟩ := Option.map_eq_some_iff.mp same
    refine known?_none.mp unknown (.authored index) later standsLater (by simp) ?_
    rwa [Element.isDesignated_of_outline (Element.outline_of_uncounted alike)]
  · exact regular.served missed library designated

def NamesShown (world : World) (state : Resolution) : Prop :=
  ∀ element ∈ state.project.authored.elements, element.kind = .view →
    Property.NamesIn world.Shows element.properties

theorem namesIn_declared {element : Element} (declared : world.Declares element)
    (isShown : element.kind = .view ∨ element.kind = .feature) :
    Property.NamesIn world.Shows element.properties :=
  Property.namesIn_of_mentions fun _ mentions => ⟨element, declared, isShown, mentions⟩

theorem NamesShown.viewsNow (named : world.NamesShown now) {key : String} {properties : List Property}
    (isNow : world.viewsNow now key properties) : Property.NamesIn world.Shows properties := by
  obtain ⟨-, ⟨index, standing, stands, designated, rfl⟩ | ⟨view, designated, library, -, rfl⟩⟩ := isNow
  · exact named standing (List.mem_of_getElem? stands) (Element.kind_of_designated designated)
  · exact namesIn_declared (.inr library) (.inl (Element.kind_of_designated designated))

end World

namespace Resolving

open Resolution World

variable {settings : Settings} {world : World} {authored : Document} {reports : List Report}
  {now start final : Resolution} {view : Element}

section

variable {deeper : List Element.Key → List Property → Resolution → Expansion (List Property)}

mutual

theorem expanded_expandNode (regular : world.Regular reports) {source : Element}
    (isAuthored : world.authored source) (alike : source.outline = view.outline)
    (named : world.NamesShown now)
    (grows : ∀ path nodes state, (deeper path nodes state).failure = none →
      Grows state (deeper path nodes state).state)
    (below : ∀ path nodes state, (deeper path nodes state).failure = none →
      world.Fits authored reports (deeper path nodes state).state → world.Showing now state →
        Property.NamesIn world.Shows nodes →
          Property.Expanded (world.viewsNow now) nodes (deeper path nodes state).result)
    (path : List Element.Key) :
    ∀ (node : Property) (state : Resolution),
      (expandNode settings view deeper path node state).failure = none →
      world.Fits authored reports (expandNode settings view deeper path node state).state →
      world.Showing now state → (node.namesView → world.Shows node.key) →
      Property.NamesIn world.Shows node.attributes →
        Property.Expanded (world.viewsNow now) [node]
          [(expandNode settings view deeper path node state).result]
  | ⟨key, typeName, presence, value, listOf, values, attributes⟩, state => by
    intro done fits showing names inside
    rw [expandNode] at done fits ⊢
    split at done
    next isLayout =>
      rw [if_pos isLayout] at fits ⊢
      have nested := expanded_expandNodes regular isAuthored alike named grows below path attributes state
        done fits showing inside
      exact .opened (.layout isLayout) nested .nil
    next inner =>
      rw [if_neg inner] at fits ⊢
      split at done
      next plain =>
        rw [if_pos plain] at fits ⊢
        exact .closed inner (by simpa using plain) .nil
      next goes =>
        rw [if_neg goes] at fits ⊢
        have isName : Property.namesView ⟨key, typeName, presence, value, listOf, values, attributes⟩ := by
          simpa using goes
        cases resolved : resolve settings [.view] (QualifiedName.parse key) none state with
        | error => simp [resolved] at done
        | ok answer middle =>
          simp only [resolved] at done fits ⊢
          obtain ⟨grew, known⟩ := resolve_ok resolved (by simp)
          cases answer with
          | none =>
            dsimp only at done fits ⊢
            have onward := respects_expandNodes respects_grows grows path attributes _ done
            have fitsReported := fits.before onward.extends
            have fitsMiddle := fitsReported.before (grows_report _).extends
            have missed : world.Missed reports [.view] (.parse key) := by
              apply Missed.view isAuthored
              apply fitsReported.reported
              exact mem_report (Finding.viewMissing key) alike middle
            have showingMiddle := showing.grows grew fitsMiddle
            have nested := expanded_expandNodes regular isAuthored alike named grows below path attributes
              _ done fits (showingMiddle.grows (grows_report _) fitsReported) inside
            exact .opened (.unknown inner isName (showingMiddle.unnamed regular known missed)) nested .nil
          | some found =>
            obtain ⟨place, child⟩ := found
            dsimp only at done fits ⊢
            split at done
            next => cases done
            next fresh =>
              rw [if_neg fresh] at fits ⊢
              have fitsMiddle := fits.before (grows _ _ _ done).extends
              have showingMiddle := showing.grows grew fitsMiddle
              have isNow := showingMiddle.named fitsMiddle (names isName) known
              have nested := below _ _ _ done fits showingMiddle
                (Property.namesIn_inherit inside (named.viewsNow isNow))
              exact .opened (.view inner isName isNow) nested .nil

theorem expanded_expandNodes (regular : world.Regular reports) {source : Element}
    (isAuthored : world.authored source) (alike : source.outline = view.outline)
    (named : world.NamesShown now)
    (grows : ∀ path nodes state, (deeper path nodes state).failure = none →
      Grows state (deeper path nodes state).state)
    (below : ∀ path nodes state, (deeper path nodes state).failure = none →
      world.Fits authored reports (deeper path nodes state).state → world.Showing now state →
        Property.NamesIn world.Shows nodes →
          Property.Expanded (world.viewsNow now) nodes (deeper path nodes state).result)
    (path : List Element.Key) :
    ∀ (nodes : List Property) (state : Resolution),
      (expandNodes settings view deeper path nodes state).failure = none →
      world.Fits authored reports (expandNodes settings view deeper path nodes state).state →
      world.Showing now state → Property.NamesIn world.Shows nodes →
        Property.Expanded (world.viewsNow now) nodes
          (expandNodes settings view deeper path nodes state).result
  | [], state => fun _ _ _ _ => by
    rw [expandNodes]
    exact .nil
  | node :: rest, state => by
    intro done fits showing names
    obtain ⟨here, inside, others⟩ := Property.everywhere_cons.mp names
    have first := expanded_expandNode regular isAuthored alike named grows below path node state
    have grew : (expandNode settings view deeper path node state).failure = none →
      Grows state (expandNode settings view deeper path node state).state :=
        respects_expandNode respects_grows grows path node state
    rw [expandNodes] at done fits ⊢
    cases expanded : expandNode settings view deeper path node state with
    | mk result failure middle =>
      rw [expanded] at done fits first grew
      cases failure with
      | some => cases done
      | none =>
        have onward := respects_expandNodes respects_grows grows path rest middle done
        have fitsMiddle := fits.before onward.extends
        have behind := expanded_expandNodes regular isAuthored alike named grows below path rest middle
          done fits (showing.grows (grew rfl) fitsMiddle) others
        exact (first rfl fitsMiddle showing here inside).cons behind

end

end

/-- What a run expands is expanded by the views as they stand. -/
theorem expanded_expand (regular : world.Regular reports) {source : Element}
    (isAuthored : world.authored source) (alike : source.outline = view.outline)
    (named : world.NamesShown now) {steps : Nat} {path : List Element.Key} {nodes : List Property}
    (done : (expand settings view steps path nodes start).failure = none)
    (fits : world.Fits authored reports (expand settings view steps path nodes start).state)
    (showing : world.Showing now start) (names : Property.NamesIn world.Shows nodes) :
    Property.Expanded (world.viewsNow now) nodes (expand settings view steps path nodes start).result := by
  induction steps generalizing path nodes start with
  | zero => cases done
  | succ steps ih =>
    exact expanded_expandNodes regular isAuthored alike named (fun _ _ _ => grows_expand)
      (fun _ _ _ => ih) path nodes start done fits showing names

structure LaidOut (world : World) (authored : Document) (start : Resolution) (count : Nat)
    (state : Resolution) : Prop where
  showing : world.Showing state state
  passed : Passed (fun element form => world.Ends element form.properties) authored start count state

variable {state next : Resolution} {count : Nat}

/-- An authored view is as the features left it, but that its layout may be expanded. -/
theorem LaidOut.shown (featured : Formed world.Featured authored start)
    (laidOut : LaidOut world authored start count state) {index : Nat} {element standing : Element}
    (stood : authored.elements[index]? = some element)
    (stands : state.project.authored.elements[index]? = some standing) :
    ∃ featured, world.Featured element.uncounted featured ∧
      Property.Shown world.views featured.properties standing.properties := by
  rcases Nat.lt_or_ge index count with earlier | later
  · obtain ⟨form, ended, holds⟩ := laidOut.passed.behind index earlier element stood
    rw [stands, Option.map_some] at holds
    obtain rfl := Option.some.inj holds
    exact ended.shown
  · obtain ⟨own, present, gained⟩ := laidOut.passed.present featured later stood
    obtain rfl := Option.some.inj (present.symm.trans stands)
    exact ⟨_, gained, Property.Shown.refl _ _⟩

theorem LaidOut.advances (fits : world.Fits authored reports state)
    (featured : Formed world.Featured authored start) (laidOut : LaidOut world authored start count state) :
    world.views.Advances (world.viewsNow state) where
  shows := by
    rintro key properties ⟨shows,
      ⟨index, standing, stands, designated, rfl⟩ | ⟨view, designated, library, notAuthored, rfl⟩⟩
    · obtain ⟨element, stood, isAuthored, alike⟩ := fits.authored_at stands
      obtain ⟨featured, gained, shown⟩ := laidOut.shown featured stood stands
      rw [← Element.isDesignated_of_outline alike] at designated
      exact ⟨_, ⟨shows, element.uncounted, designated, .inl ⟨isAuthored, featured, gained, rfl⟩⟩, shown⟩
    · exact ⟨_, ⟨shows, view, designated, .inr ⟨library, notAuthored, rfl⟩⟩, Property.Shown.refl _ _⟩
  names := by
    rintro key properties ⟨shows, view, designated, ⟨isAuthored, -⟩ | ⟨library, notAuthored, rfl⟩⟩
    · obtain ⟨index, standing, stands, -, alike⟩ := fits.stands isAuthored
      rw [← Element.isDesignated_of_outline alike] at designated
      exact ⟨_, shows, .inl ⟨index, standing, stands, designated, rfl⟩⟩
    · exact ⟨_, shows, .inr ⟨view, designated, library, notAuthored, rfl⟩⟩

theorem LaidOut.namesShown (regular : world.Regular reports) (fits : world.Fits authored reports state)
    (featured : Formed world.Featured authored start) (laidOut : LaidOut world authored start count state) :
    world.NamesShown state := by
  intro standing member isView
  obtain ⟨index, inside, rfl⟩ := List.mem_iff_getElem.mp member
  have stands := List.getElem?_eq_getElem inside
  obtain ⟨element, stood, isAuthored, alike⟩ := fits.authored_at stands
  obtain ⟨featured, gained, shown⟩ := laidOut.shown featured stood stands
  have keeps : ∀ own layer, Property.Distinct layer → Property.NamesIn world.Shows own →
      Property.NamesIn world.Shows layer → Property.NamesIn world.Shows (Property.inherit own layer) :=
    fun _ _ _ => Property.namesIn_inherit
  have all : ∀ element, world.Declares element → element.kind = .view ∨ element.kind = .feature →
      Property.NamesIn world.Shows element.properties := fun _ => namesIn_declared
  have names := gained.holds regular keeps all isAuthored ((Element.kind_eq alike).trans isView)
  exact shown.namesIn names fun named => holds_views regular keeps all named

/-- The layout of a view is expanded as the declarations have it. -/
theorem LaidOut.expanded (regular : world.Regular reports) (featured : Formed world.Featured authored start)
    (laidOut : LaidOut world authored start count state) {element own : Element}
    (stood : authored.elements[count]? = some element)
    (stands : state.project.authored.elements[count]? = some own)
    (gained : world.Featured element.uncounted own.uncounted)
    {layout : Property} (layed : layout? own = some layout)
    (done : (expand settings own state.bound [own.key] layout.attributes state).failure = none)
    (fits : world.Fits authored reports
      (expand settings own state.bound [own.key] layout.attributes state).state) :
    Property.Expanded world.views layout.attributes
      (expand settings own state.bound [own.key] layout.attributes state).result := by
  have fitsState := fits.before (grows_expand done).extends
  have named := laidOut.namesShown regular fitsState featured
  have isAuthored : world.authored element.uncounted :=
    (fits.declared _).mpr (List.mem_map_of_mem (List.mem_of_getElem? stood))
  obtain ⟨former, stoodFormer, -, alike⟩ := fitsState.authored_at stands
  obtain rfl := Option.some.inj (stood.symm.trans stoodFormer)
  rw [layout?] at layed
  split at layed
  next isView =>
    have inOwn := Property.mem_of_find? layed
    have ofElement : element.uncounted.kind = .view := (Element.kind_eq alike).trans isView
    have distinct := gained.holds regular
      (fun _ _ ofLayer ofOwn _ => Property.distinct_inherit ofOwn ofLayer)
      (fun _ declared _ => regular.distinct declared) isAuthored ofElement
    have tame := gained.holds regular
      (fun _ _ ofLayer ofOwn ofTame => Property.tameBelow_inherit ofLayer ofOwn ofTame)
      (fun _ declared isShown => regular.tame declared isShown) isAuthored ofElement
    have names := named own (List.mem_of_getElem? stands) isView
    have made := expanded_expand regular isAuthored alike named done fits laidOut.showing
      (names.attributes inOwn)
    exact made.settled (views_sound regular) (laidOut.advances fitsState featured)
      (Property.distinct_attributes distinct inOwn) (tame layout inOwn).below
  next => cases layed

/-- The turn of an authored element that has a layout. -/
theorem LaidOut.turn_layed (regular : world.Regular reports)
    (featured : Formed world.Featured authored start) (laidOut : LaidOut world authored start count state)
    {element own : Element} (stood : authored.elements[count]? = some element)
    (stands : state.project.authored.elements[count]? = some own)
    (gained : world.Featured element.uncounted own.uncounted) {layout : Property}
    (layed : layout? own = some layout) {expansion : Expansion (List Property)}
    (ran : expansion = expand settings own state.bound [own.key] layout.attributes state)
    (done : expansion.failure = none) (fits : world.Fits authored reports expansion.state) :
    LaidOut world authored start (count + 1) (expansion.state.modifyAuthored count fun own =>
      { own with
        properties := Property.modifyFirst Property.layoutKey (·.holding expansion.result) own.properties }) := by
  subst ran
  have grows := grows_expand done
  have showing := laidOut.showing.grows grows fits
  have made := laidOut.expanded regular featured stood stands gained layed done fits
  refine ⟨⟨rfl, showing.drawn⟩, laidOut.passed.turn (fun index differs => ?_) fun element' stood' => ?_⟩
  · rw [getElem?_modifyAuthored_of_ne differs, getElem?_map_uncounted showing.same]
  · obtain rfl := Option.some.inj (stood.symm.trans stood')
    obtain ⟨later, standsLater, same⟩ := grows.later stands
    have properties : later.properties = own.properties := (congrArg Element.properties same :)
    refine ⟨_, ?_, by rw [getElem?_modifyAuthored_self, standsLater, Option.map_some, Option.map_some]⟩
    change world.Ends _ (Property.modifyFirst _ _ later.properties)
    rw [properties]
    have ended := Ends.expanded gained layed made
    exact ended

/-- The turn of one authored element. -/
theorem LaidOut.turn (regular : world.Regular reports) (featured : Formed world.Featured authored start)
    (laidOut : LaidOut world authored start count state)
    (ran : withAuthored (resolveLayout settings) count state = .ok () next)
    (fits : world.Fits authored reports next) : LaidOut world authored start (count + 1) next := by
  have fitsState := fits.before (extends_layoutTurn ran)
  rcases withAuthored_ok.mp ran with ⟨absent, rfl⟩ | ⟨own, present, ran⟩
  · refine ⟨laidOut.showing, laidOut.passed.turn (fun _ _ => rfl) fun element stood => ?_⟩
    obtain ⟨standing, stands, -⟩ := laidOut.passed.present featured (Nat.le_refl count) stood
    exact absurd (absent.symm.trans stands) (by simp)
  · obtain ⟨element, stood, -, alike⟩ := fitsState.authored_at present
    obtain ⟨standing, stands, gained⟩ := laidOut.passed.present featured (Nat.le_refl count) stood
    obtain rfl := Option.some.inj (present.symm.trans stands)
    rcases resolveLayout_cases ran with ⟨unlayed, rfl⟩ | ⟨layout, expansion, layed, made, done, rfl⟩
    · refine ⟨laidOut.showing, laidOut.passed.turn (fun _ _ => rfl) fun element' stood' => ?_⟩
      obtain rfl := Option.some.inj (stood.symm.trans stood')
      exact ⟨_, .plain gained unlayed, by rw [stands, Option.map_some]⟩
    · have fitsMade := fits.before (extends_modifyAuthored (by simp [Element.outline]) _ count)
      exact laidOut.turn_layed regular featured stood stands gained layed made done fitsMade

/-- The turns of the first authored elements, one after the other. -/
theorem laidOut_turns (regular : world.Regular reports) (featured : Formed world.Featured authored start)
    (showing : world.Showing start start)
    (ran : (List.range count).forM (withAuthored (resolveLayout settings)) start = .ok () state)
    (fits : world.Fits authored reports state) : LaidOut world authored start count state := by
  induction count generalizing state with
  | zero =>
    obtain ⟨-, rfl⟩ := pure_ok.mp ran
    exact ⟨showing, passed_start⟩
  | succ count ih =>
    rw [List.range_succ, forM_append_ok] at ran
    obtain ⟨middle, first, last⟩ := ran
    obtain ⟨_, _, ran, done⟩ := bind_ok.mp last
    obtain ⟨-, rfl⟩ := pure_ok.mp done
    exact (ih first (fits.before (extends_layoutTurn ran))).turn regular featured ran fits

end Resolving
end Requirements
