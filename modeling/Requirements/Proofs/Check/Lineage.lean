import Requirements.Check.Ownership
import Requirements.Proofs.Resolution.Passes
import Mathlib.Data.List.Perm.Subperm

/-! The ancestors that the check walks. It looks among the dependencies before the authored
elements, and also at the element that asks, while resolving looks among the authored
elements first and passes over the one that asks. The walk is the resolved chain as long
as no reference of the chain meets an element that only the check would take. -/
namespace Requirements

/-- Where the check looks first. -/
def Place.SearchedBefore : Place → Place → Prop
  | .dependency first, .dependency second => first < second
  | .dependency _, .authored _ => True
  | .authored _, .dependency _ => False
  | .authored first, .authored second => first < second

/-- Where resolving looks first. -/
def Place.PlacedBefore : Place → Place → Prop
  | .authored first, .authored second => first < second
  | .authored _, .dependency _ => True
  | .dependency _, .authored _ => False
  | .dependency first, .dependency second => first < second

theorem Place.SearchedBefore.asymm {first second : Place} (before : first.SearchedBefore second) :
    ¬second.SearchedBefore first := by
  cases first <;> cases second <;> simp_all [SearchedBefore]
  all_goals omega

theorem Place.PlacedBefore.asymm {first second : Place} (before : first.PlacedBefore second) :
    ¬second.PlacedBefore first := by
  cases first <;> cases second <;> simp_all [PlacedBefore]
  all_goals omega

/-- In an ordered list the first that meets a condition has none before it that does. -/
theorem find?_eq_some_of_pairwise {α : Type} {R : α → α → Prop} (asymm : ∀ a b, R a b → ¬R b a)
    {items : List α} (ordered : items.Pairwise R) (p : α → Bool) (found : α) :
    items.find? p = some found ↔
      found ∈ items ∧ p found ∧ ∀ other ∈ items, R other found → ¬p other := by
  induction items with
  | nil => simp
  | cons item rest ih =>
    obtain ⟨ahead, orderedRest⟩ := List.pairwise_cons.mp ordered
    have irrefl : ∀ a, ¬R a a := fun a self => asymm a a self self
    cases meets : p item with
    | true =>
      rw [List.find?_cons_of_pos meets]
      constructor
      · rintro ⟨⟩
        refine ⟨by simp, meets, fun other member before => ?_⟩
        rcases List.mem_cons.mp member with rfl | member
        · exact absurd before (irrefl _)
        · exact absurd before (asymm _ _ (ahead other member))
      · rintro ⟨member, -, none⟩
        rcases List.mem_cons.mp member with rfl | member
        · rfl
        · exact absurd meets (none item (by simp) (ahead found member))
    | false =>
      rw [List.find?_cons_of_neg (by simp [meets]), ih orderedRest]
      constructor
      · rintro ⟨member, met, none⟩
        refine ⟨by simp [member], met, fun other inItems before => ?_⟩
        rcases List.mem_cons.mp inItems with rfl | inItems
        · simp [meets]
        · exact none other inItems before
      · rintro ⟨member, met, none⟩
        refine ⟨?_, met, fun other inRest => none other (by simp [inRest])⟩
        rcases List.mem_cons.mp member with rfl | member
        · simp [meets] at met
        · exact member

theorem pairwise_mapIdx {α β : Type} {R : β → β → Prop} {f : Nat → α → β}
    (ordered : ∀ i j a b, i < j → R (f i a) (f j b)) (items : List α) :
    (items.mapIdx f).Pairwise R := by
  rw [List.pairwise_iff_getElem]
  intro i j _ _ before
  rw [List.getElem_mapIdx, List.getElem_mapIdx]
  exact ordered i j _ _ before

theorem map_mapIdx_snd {α β : Type} (f : Nat → β) (items : List α) :
    (items.mapIdx fun index item => (f index, item)).map (·.2) = items := by
  apply List.ext_getElem?
  intro index
  cases at? : items[index]? <;> simp [at?]

namespace Project

def searched (project : Project) : List (Place × Element) :=
  (project.dependencies.elements.mapIdx fun index element => (.dependency index, element)) ++
    project.authored.elements.mapIdx fun index element => (.authored index, element)

theorem mem_searched {project : Project} {place : Place} {element : Element} :
    (place, element) ∈ project.searched ↔ project.element? place = some element := by
  rw [searched, List.mem_append, or_comm, ← List.mem_append]
  exact mem_placed

theorem pairwise_searched (project : Project) :
    project.searched.Pairwise fun first second => first.1.SearchedBefore second.1 := by
  refine List.pairwise_append.mpr ⟨pairwise_mapIdx ?_ _, pairwise_mapIdx ?_ _, ?_⟩
  · exact fun _ _ _ _ before => before
  · exact fun _ _ _ _ before => before
  · intro first inFirst second inSecond
    obtain ⟨_, _, rfl⟩ := List.mem_mapIdx.mp inFirst
    obtain ⟨_, _, rfl⟩ := List.mem_mapIdx.mp inSecond
    trivial

theorem pairwise_placed (project : Project) :
    project.placed.Pairwise fun first second => first.1.PlacedBefore second.1 := by
  refine List.pairwise_append.mpr ⟨pairwise_mapIdx ?_ _, pairwise_mapIdx ?_ _, ?_⟩
  · exact fun _ _ _ _ before => before
  · exact fun _ _ _ _ before => before
  · intro first inFirst second inSecond
    obtain ⟨_, _, rfl⟩ := List.mem_mapIdx.mp inFirst
    obtain ⟨_, _, rfl⟩ := List.mem_mapIdx.mp inSecond
    trivial

def ancestorPlace? (project : Project) (place : Place) : Option Place := do
  let element ← project.element? place
  let reference ← element.ancestor
  let (above, _) ← project.searched.find? fun (_, e) => e.isDesignated [element.kind] reference
  return above

def lineagePlaces (project : Project) : Nat → List Element.Key → Place → List Place
  | 0, _, _ => []
  | steps + 1, visited, place =>
    match project.ancestorPlace? place with
    | none => []
    | some above =>
      match project.element? above with
      | none => []
      | some ancestor =>
        if visited.contains ancestor.key then []
        else above :: lineagePlaces project steps (ancestor.key :: visited) above

theorem ancestor?_eq {project : Project} {place : Place} {element : Element}
    (stands : project.element? place = some element) :
    project.ancestor? element = (project.ancestorPlace? place).bind project.element? := by
  simp only [ancestor?, ancestorPlace?, stands, Option.bind_eq_bind, Option.bind_some]
  cases element.ancestor with
  | none => rfl
  | some reference =>
    have elements : project.searched.map (·.2) =
        project.dependencies.elements ++ project.authored.elements := by
      rw [searched, List.map_append, map_mapIdx_snd, map_mapIdx_snd]
    have sought : (project.dependencies.elements ++ project.authored.elements).find?
          (·.isDesignated [element.kind] reference) =
        (project.searched.find? fun (_, e) => e.isDesignated [element.kind] reference).map (·.2) := by
      rw [← elements]
      exact List.find?_map ..
    simp only [Option.bind_some, sought]
    cases found : project.searched.find? fun (_, e) => e.isDesignated [element.kind] reference with
    | none => rfl
    | some pair => exact (mem_searched.mp (List.mem_of_find?_eq_some found)).symm

/-- A lineage is what stands at its places. -/
theorem map_lineagePlaces {project : Project} {place : Place} {element : Element}
    (stands : project.element? place = some element) (steps : Nat) (visited : List Element.Key) :
    (project.lineagePlaces steps visited place).map project.element? =
      (project.lineage steps visited element).map some := by
  induction steps generalizing visited place element with
  | zero => rfl
  | succ steps ih =>
    rw [lineagePlaces, lineage, ancestor?_eq stands]
    cases project.ancestorPlace? place with
    | none => rfl
    | some above =>
      rw [Option.bind_some]
      cases standsAbove : project.element? above with
      | none => simp [standsAbove]
      | some ancestor =>
        by_cases seen : ancestor.key ∈ visited
        · simp [standsAbove, seen]
        · simp [standsAbove, seen, ih standsAbove]

/-- Of the elements that a reference designates the check alone takes these instead of the
one that was resolved: a dependency instead of an authored element, and the element that
asks instead of one behind it. -/
inductive Overtakes : (asker resolved other : Place) → Prop
  | dependency (asker : Place) (index other : Nat) :
      Overtakes asker (.authored index) (.dependency other)
  | authoredAsker {asker index : Nat} (ahead : asker < index) :
      Overtakes (.authored asker) (.authored index) (.authored asker)
  | dependencyAsker {asker index : Nat} (ahead : asker < index) :
      Overtakes (.dependency asker) (.dependency index) (.dependency asker)

/-- Where the resolution went on from the place, the check goes elsewhere. -/
def Overtaken (project : Project) (place above : Place) : Prop :=
  ∃ element reference other found, project.element? place = some element ∧
    element.ancestor = some reference ∧ project.element? other = some found ∧
    found.isDesignated [element.kind] reference ∧ Overtakes place above other

theorem Overtakes.searchedBefore {asker resolved other : Place}
    (overtakes : Overtakes asker resolved other) : other.SearchedBefore resolved := by
  cases overtakes with
  | dependency => trivial
  | authoredAsker ahead => exact ahead
  | dependencyAsker ahead => exact ahead

theorem overtakes_of_searchedBefore {asker resolved other : Place}
    (before : other.SearchedBefore resolved)
    (passed : other ≠ asker → ¬other.PlacedBefore resolved) : Overtakes asker resolved other := by
  by_cases same : other = asker
  · subst same
    cases other <;> cases resolved
    · exact .authoredAsker before
    · exact before.elim
    · exact .dependency _ _ _
    · exact .dependencyAsker before
  · have passed := passed same
    cases other <;> cases resolved
    · exact absurd before passed
    · exact before.elim
    · exact .dependency _ _ _
    · exact absurd before passed

/-- The check goes where the resolution went unless it is overtaken. -/
theorem ancestorPlace?_eq_iff {state : Resolution} {place above : Place} {element ancestor : Element}
    {reference : QualifiedName} (stands : state.project.element? place = some element)
    (refers : element.ancestor = some reference)
    (known : state.known? [element.kind] reference (some place) = some (above, ancestor)) :
    state.project.ancestorPlace? place = some above ↔ ¬state.project.Overtaken place above := by
  have searchedFirst := fun found => find?_eq_some_of_pairwise
    (fun _ _ => Place.SearchedBefore.asymm) state.project.pairwise_searched
    (fun (_, e) => e.isDesignated [element.kind] reference) (above, found)
  have placedFirst := (find?_eq_some_of_pairwise (fun _ _ => Place.PlacedBefore.asymm)
    state.project.pairwise_placed _ _).mp known
  obtain ⟨standsAbove, -, designated⟩ := Resolution.known?_some known
  simp only [ancestorPlace?, stands, refers, Option.bind_eq_bind, Option.bind_some]
  constructor
  · rintro leads ⟨_, _, other, found, stands', refers', standsOther, meets, overtakes⟩
    obtain rfl := Option.some.inj (stands.symm.trans stands')
    obtain rfl := Option.some.inj (refers.symm.trans refers')
    obtain ⟨⟨_, first⟩, search, same⟩ := Option.bind_eq_some_iff.mp leads
    obtain rfl := Option.some.inj same
    exact ((searchedFirst first).mp search).2.2 (other, found) (mem_searched.mpr standsOther)
      overtakes.searchedBefore meets
  · intro free
    have search := (searchedFirst ancestor).mpr ⟨mem_searched.mpr standsAbove, designated, ?_⟩
    · simp [search]
    · rintro ⟨other, found⟩ member before meets
      have standsOther := mem_searched.mp member
      refine free ⟨element, reference, other, found, stands, refers, standsOther, meets, ?_⟩
      apply overtakes_of_searchedBefore before
      intro differs placedBefore
      apply placedFirst.2.2 (other, found) (mem_placed.mpr standsOther) placedBefore
      simpa [differs] using meets

/-- The check is overtaken at no place of the chain, and behind the last it finds no element
that it has not visited. -/
def Followed (project : Project) : List Element.Key → Place → List Place → Prop
  | visited, place, [] =>
    ∀ above ancestor, project.ancestorPlace? place = some above →
      project.element? above = some ancestor → ancestor.key ∈ visited
  | visited, place, above :: rest =>
    ¬project.Overtaken place above ∧
      ∀ ancestor, project.element? above = some ancestor →
        project.Followed (ancestor.key :: visited) above rest

/-- The check walks the places of a climb exactly if it is not led off them. -/
theorem lineagePlaces_eq_iff {state : Resolution} {place : Place} {element : Element}
    {visited : List Element.Key} {places : List Place} {keys : List Element.Key} {steps : Nat}
    (stands : state.project.element? place = some element)
    (plain : element.kind.related = [element.kind]) (climbs : state.Climbs place places)
    (keyed : state.Keyed visited places keys) (enough : places.length < steps) :
    state.project.lineagePlaces steps visited place = places ↔
      state.project.Followed visited place places := by
  induction places generalizing place element visited keys steps with
  | nil =>
    obtain ⟨steps, rfl⟩ := Nat.exists_eq_succ_of_ne_zero (Nat.ne_of_gt enough)
    rw [lineagePlaces, Followed]
    constructor
    · intro ended above ancestor leads standsAbove
      simpa [leads, standsAbove] using ended
    · intro stays
      cases leads : state.project.ancestorPlace? place with
      | none => rfl
      | some above =>
        cases standsAbove : state.project.element? above with
        | none => simp [standsAbove]
        | some ancestor => simp [standsAbove, stays above ancestor leads standsAbove]
  | cons above rest ih =>
    obtain ⟨steps, rfl⟩ := Nat.exists_eq_succ_of_ne_zero (Nat.ne_of_gt (Nat.zero_lt_of_lt enough))
    obtain ⟨reference, ancestor, refers, known⟩ := climbs.known? stands
    rw [plain] at known
    obtain ⟨standsAbove, -, designated⟩ := Resolution.known?_some known
    have sameKind : ancestor.kind = element.kind := by
      simp [Element.isDesignated] at designated
      exact designated.1
    obtain ⟨key, keys, rfl, keyHere, keyedRest⟩ := keyed.cons
    have isKey : ancestor.key = key := by
      rw [Resolution.keyAt?, standsAbove] at keyHere
      exact Option.some.inj keyHere
    subst isKey
    have fresh : ancestor.key ∉ visited := keyed.unvisited _ (by simp)
    have behind := ih standsAbove (by rw [sameKind, plain]) climbs.2 keyedRest
      (Nat.lt_of_succ_lt_succ enough)
    have leads := ancestorPlace?_eq_iff stands refers known
    rw [lineagePlaces, Followed, ← leads]
    constructor
    · intro walked
      cases found : state.project.ancestorPlace? place with
      | none => simp [found] at walked
      | some first =>
        cases standsFirst : state.project.element? first with
        | none => simp [found, standsFirst] at walked
        | some other =>
          by_cases seen : other.key ∈ visited
          · simp [found, standsFirst, seen] at walked
          · simp [found, standsFirst, seen] at walked
            obtain ⟨rfl, walked⟩ := walked
            obtain rfl := Option.some.inj (standsAbove.symm.trans standsFirst)
            refine ⟨rfl, fun again standsAgain => ?_⟩
            obtain rfl := Option.some.inj (standsAbove.symm.trans standsAgain)
            exact behind.mp walked
    · rintro ⟨goes, follows⟩
      simp [goes, standsAbove, fresh, behind.mpr (follows ancestor standsAbove)]

/-- There are more elements than places above one of them. -/
theorem length_lt_placed {state : Resolution} {place : Place} {element : Element}
    {places : List Place} {keys : List Element.Key}
    (stands : state.project.element? place = some element)
    (keyed : state.Keyed [element.key] places keys) :
    places.length < state.project.placed.length := by
  have distinct : (element.key :: keys).Nodup :=
    List.nodup_cons.mpr ⟨fun member => keyed.unvisited _ member (by simp), keyed.distinct⟩
  have within : element.key :: keys ⊆ state.project.placed.map fun (_, e) => e.key := by
    intro key member
    rcases List.mem_cons.mp member with rfl | member
    · exact List.mem_map.mpr ⟨(place, element), mem_placed.mpr stands, rfl⟩
    · have inPlaces : some key ∈ places.map state.keyAt? :=
        keyed.at? ▸ List.mem_map_of_mem member
      obtain ⟨other, -, holds⟩ := List.mem_map.mp inPlaces
      obtain ⟨found, standsThere, rfl⟩ := Option.map_eq_some_iff.mp holds
      exact List.mem_map.mpr ⟨(other, found), mem_placed.mpr standsThere, rfl⟩
  have counted := (distinct.subperm within).length_le
  have lengths := congrArg List.length keyed.at?
  simp only [List.length_map, List.length_cons] at counted lengths
  omega

end Project

open Resolution Resolving

theorem related_of_binder {kind : ElementKind} (binds : kind = .application ∨ kind = .module) :
    kind.related = [kind] := by
  rcases binds with rfl | rfl <;> rfl

/-- The ancestors that the check walks from an authored application or module are those of
its chain, and its bindings are theirs, exactly if no reference on the way is overtaken. -/
theorem lineage_of_chain {settings : Settings} {authored : Document} {workspace : Workspace}
    {final : Resolution} (ran : authored.resolved settings workspace = .ok () final) {index : Nat}
    {binder : Element} (stands : final.project.element? (.authored index) = some binder)
    (binds : binder.kind = .application ∨ binder.kind = .module) :
    ∃ places, ∃ layers : List Element,
      turnChain? settings { project := { authored }, workspace } index = some places ∧
      places.map final.project.element? = layers.map some ∧
      (final.project.lineagePlaces final.project.placed.length [binder.key] (.authored index)).map
          final.project.element? =
        (final.project.lineage final.project.placed.length [binder.key] binder).map some ∧
      (final.project.lineagePlaces final.project.placed.length [binder.key] (.authored index) =
          places ↔ final.project.Followed [binder.key] (.authored index) places) ∧
      (final.project.Followed [binder.key] (.authored index) places →
        final.project.lineage final.project.placed.length [binder.key] binder = layers ∧
        final.project.bindings binder =
          Project.firstBindings [] ((binder :: layers).flatMap Element.bindings)) := by
  obtain ⟨lineaged, lineages, extended⟩ := extends_all ran
  have whole := (extends_resolveAncestors lineages).trans extended
  obtain ⟨former, standsFormer, alike⟩ := whole.former stands
  have inside : index < authored.elements.length := (List.getElem?_eq_some_iff.mp standsFormer).1
  obtain ⟨places, keys, turn, climbs, keyed⟩ :=
    turnChain_reached (overAuthored_ok.mp lineages) inside standsFormer
  have climbs := extended.climbs climbs
  have keyed := extended.keyed keyed
  rw [Element.key_eq alike] at keyed
  have layersStand : places.map final.project.element? =
      (places.filterMap final.project.element?).map some :=
    (map_some_filterMap fun _ member => climbs.stands member).symm
  have followed := Project.lineagePlaces_eq_iff stands (related_of_binder binds) climbs keyed
    (Project.length_lt_placed stands keyed)
  have walked := Project.map_lineagePlaces stands final.project.placed.length [binder.key]
  refine ⟨places, places.filterMap final.project.element?, turn, layersStand, walked, followed,
    fun follows => ?_⟩
  have same : final.project.lineage final.project.placed.length [binder.key] binder =
      places.filterMap final.project.element? := by
    rw [followed.mpr follows, layersStand] at walked
    exact ((List.map_inj_right fun _ _ => Option.some.inj).mp walked).symm
  exact ⟨same, by rw [Project.bindings, same]⟩

def Workspace.withLibrary (text : String) : Workspace :=
  { catalogue :=
      { repositories := [{ kind := .standardLibrary, root := ⟨["lib"]⟩ }], isConnected := true }
    disk := ⟨.folder "" [.folder "lib" [.file "base.reqm" (.text text) 0]], 0⟩ }

def namesakes : Document :=
  { elements :=
    [{ kind := .module, name := ⟨"Early", some "acme"⟩, ancestor := some ⟨"Base", some "lib"⟩ },
     { kind := .module, name := ⟨"Base", some "acme"⟩ },
     { kind := .module, name := ⟨"Late", some "acme"⟩, ancestor := some ⟨"Base", none⟩ }] }

def stoppingLibrary : Workspace :=
  .withLibrary "domain lib; module Base \x7b events \x7b onStop = halt; \x7d \x7d action halt;"

theorem lineage_of_chain_namesakes :
    ∃ final binder, namesakes.resolved {} stoppingLibrary = .ok () final ∧
      final.project.element? (.authored 0) = some binder ∧
      (binder.kind = .application ∨ binder.kind = .module) ∧
      ∃ places, ∃ layers : List Element,
        turnChain? {} { project := { authored := namesakes }, workspace := stoppingLibrary } 0 =
            some places ∧
          places.map final.project.element? = layers.map some ∧
          (final.project.lineagePlaces final.project.placed.length [binder.key] (.authored 0) =
            places ↔ final.project.Followed [binder.key] (.authored 0) places) := by
  have ends : ends (fun _ final => (final.project.element? (.authored 0)).any (·.kind = .module))
      (namesakes.resolved {} stoppingLibrary) := by decide +kernel
  obtain ⟨_, final, ran, meets⟩ := ok_of_ends ends
  obtain ⟨binder, stands, isModule⟩ := Option.any_eq_true _ _ |>.mp meets
  have binds : binder.kind = .application ∨ binder.kind = .module := .inr (by simpa using isModule)
  obtain ⟨places, layers, turn, stand, -, walked, -⟩ := lineage_of_chain ran stands binds
  exact ⟨final, binder, ran, stands, binds, places, layers, turn, stand, walked⟩

/-- The check leaves the chain: it takes the module of the library, and two modules seem to
bind its action. -/
theorem lineage_off_chain :
    ∃ final binder, namesakes.resolved {} stoppingLibrary = .ok () final ∧
      final.project.element? (.authored 2) = some binder ∧ binder.kind = .module ∧
      turnChain? {} { project := { authored := namesakes }, workspace := stoppingLibrary } 2 =
        some [.authored 1] ∧
      final.project.lineagePlaces final.project.placed.length [binder.key] (.authored 2) =
        [.dependency 0] ∧
      (Ownership.settle final.project).reports.map (·.code) = [some "E0101"] := by
  have ends : ends (fun _ final => (final.project.element? (.authored 2)).any fun binder =>
      binder.kind = .module ∧
      final.project.lineagePlaces final.project.placed.length [binder.key] (.authored 2) =
        [.dependency 0] ∧
      (Ownership.settle final.project).reports.map (·.code) = [some "E0101"])
      (namesakes.resolved {} stoppingLibrary) := by decide +kernel
  obtain ⟨_, final, ran, meets⟩ := ok_of_ends ends
  obtain ⟨binder, stands, holds⟩ := Option.any_eq_true _ _ |>.mp meets
  obtain ⟨isModule, walked, reported⟩ := of_decide_eq_true holds
  exact ⟨final, binder, ran, stands, isModule, by decide +kernel, walked, reported⟩

end Requirements
