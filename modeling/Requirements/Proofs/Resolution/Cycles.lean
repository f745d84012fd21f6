import Mathlib.Data.List.Nodup
import Requirements.Proofs.Resolution.Precedence
import Requirements.Proofs.Resolution.Successors
import Requirements.Proofs.Resolution.Termination

/-! Cycles of ancestors. One is told only where a climb, from a declaration whose ancestors are followed,
comes back to a kind and a name that it passed, or passes an element of the repositories that is
designated by its own reference. -/
namespace Requirements
namespace Resolution

structure Passes (state : Resolution) (place : Place) (places : List Place) (keys : List Element.Key) : Prop where
  climbs : state.Climbs place places
  keyed : (place :: places).map state.keyAt? = keys.map some

def AllRead (state : Resolution) : Prop :=
  ∀ element ∈ state.project.dependencies.elements,
    ∃ declared, state.Read declared ∧ declared.uncounted = element.uncounted

/-- A climb from the place passes a key twice, and these are the names on its way. -/
def Returns (state : Resolution) (place : Place) (names : List String) : Prop :=
  ∃ places keys, state.Passes place places keys ∧ names = keys.map (·.2) ∧ ¬keys.Nodup

variable {state start final : Resolution}

theorem AllRead.grows (read : start.AllRead) (grows : Grows start final) : final.AllRead := by
  intro element member
  rcases grows.declared element member with old | new
  · obtain ⟨former, stood, same⟩ := List.mem_map.mp old
    obtain ⟨declared, isRead, alike⟩ := read former stood
    exact ⟨declared, isRead.later grows.parsed, alike.trans same⟩
  · exact new

theorem keyAt?_eq {place : Place} {element : Element} (stands : state.project.element? place = some element) :
    state.keyAt? place = some element.key := by
  rw [keyAt?, stands, Option.map_some]

theorem Passes.cons {place above : Place} {places : List Place} {key : Element.Key} {keys : List Element.Key}
    (leads : state.next? place = some above) (keyed : state.keyAt? place = some key)
    (passes : state.Passes above places keys) : state.Passes place (above :: places) (key :: keys) := by
  refine ⟨⟨leads, passes.climbs⟩, ?_⟩
  rw [List.map_cons, keyed, passes.keyed, List.map_cons]

theorem Returns.not_nodup {place : Place} {names : List String} (returns : state.Returns place names) :
    ∃ places, state.Climbs place places ∧ ¬((place :: places).map state.keyAt?).Nodup := by
  obtain ⟨places, keys, ⟨climbs, keyed⟩, -, twice⟩ := returns
  refine ⟨places, climbs, fun distinct => twice (List.Nodup.of_map some ?_)⟩
  rwa [← keyed]

end Resolution

namespace Resolving

open Resolution

variable {settings : Settings}

/-- If the failure is a cycle of ancestors, it tells the names so far and those of a climb that passes
one of the keys visited, or a key twice. -/
def Retraces (names : List String) (visited : List Element.Key) (place : Place) (element : Element)
    (failure : Failure) (final : Resolution) : Prop :=
  ∀ told, failure = .cycle .ancestor told →
    ∃ places keys, final.Passes place places (element.key :: keys) ∧ told = names ++ keys.map (·.2) ∧
      ¬(keys.reverse ++ visited).Nodup

/-- The climb behind goes on from the one step to it. -/
theorem Retraces.below {names : List String} {visited : List Element.Key} {place above : Place}
    {element ancestor : Element} {failure : Failure} {middle final : Resolution}
    (retraces : Retraces (names ++ [ancestor.name.text]) (ancestor.key :: visited) above ancestor failure final)
    (extended : Extends middle final) (leads : middle.next? place = some above)
    (keyed : middle.keyAt? place = some element.key) : Retraces names visited place element failure final := by
  intro told same
  obtain ⟨places, keys, passes, isTold, twice⟩ := retraces told same
  refine ⟨above :: places, ancestor.key :: keys, passes.cons (extended.next? leads) (extended.keyAt? keyed), ?_, ?_⟩
  · simpa [Element.key] using isTold
  · simpa using twice

theorem retraces_chainFrom {origin : Element} {steps : Nat} {visited : List Element.Key} {names : List String}
    {current : Place} {element : Element} {start : Resolution}
    (stands : start.project.element? current = some element) :
    Outcome (fun _ _ => True) (Retraces names visited current element)
      (chainFrom settings origin steps visited names current element start) := by
  induction steps generalizing visited names current element start with
  | zero => exact fun _ same => Failure.noConfusion same
  | succ steps ih =>
    rw [chainFrom]
    cases refers : element.ancestor with
    | none => trivial
    | some reference =>
      have resolves : Outcome (fun _ _ => True) (Retraces names visited current element)
          (resolve settings element.kind.related reference (some current) start) := by
        refine (outcome_resolve ..).failure fun failure _ outside told same => ?_
        rw [same] at outside
        cases outside
      refine outcome_bind resolves fun answer middle resolved _ => ?_
      cases answer with
      | none => trivial
      | some found =>
        obtain ⟨place, ancestor⟩ := found
        obtain ⟨grows, known⟩ := resolve_ok resolved (by simp [stands])
        obtain ⟨later, standsThen, alike⟩ := grows.extends.element? stands
        have standsAbove := (known?_some known).1
        have leads : middle.next? current = some place := by
          rw [next?_eq_known? standsThen ((Element.ancestor_eq alike).trans refers), Element.kind_eq alike, known]
          rfl
        have keyed : middle.keyAt? current = some element.key := Element.key_eq alike ▸ keyAt?_eq standsThen
        dsimp only
        split
        next seen =>
          rintro told ⟨⟩
          have passes : middle.Passes place [] [ancestor.key] := ⟨trivial, by simp [keyAt?_eq standsAbove]⟩
          refine ⟨[place], [ancestor.key], passes.cons leads keyed, by simp [Element.key], fun distinct => ?_⟩
          exact (List.nodup_cons.mp distinct).1 (by simpa using seen)
        next =>
          have outward : Outcome (fun _ _ => True) (Retraces names visited current element)
              (chainFrom settings origin steps (ancestor.key :: visited) (names ++ [ancestor.name.text]) place
                ancestor middle) := by
            have behind : Outcome _ _ (chainFrom settings origin steps (ancestor.key :: visited)
              (names ++ [ancestor.name.text]) place ancestor middle) := ih standsAbove
            have follows : Follows settings middle (stateAfter (chainFrom settings origin steps
              (ancestor.key :: visited) (names ++ [ancestor.name.text]) place ancestor middle)) :=
                follows_chainFrom ..
            refine behind.failure_at fun failure final failed retraces => ?_
            rw [failed] at follows
            exact retraces.below follows.grows.extends leads keyed
          exact outcome_bind outward fun _ _ _ _ => trivial

theorem returns_chain {place : Place} {element : Element} {start : Resolution}
    (stands : start.project.element? place = some element) :
    Outcome (fun _ _ => True)
      (fun failure final => ∀ told, failure = .cycle .ancestor told → final.Returns place told)
      (chain settings place element start) := by
  refine outcome_get ((retraces_chainFrom stands).failure fun failure final retraces told same => ?_)
  obtain ⟨places, keys, passes, isTold, twice⟩ := retraces told same
  refine ⟨places, element.key :: keys, passes, isTold, fun distinct => twice ?_⟩
  rw [← List.reverse_cons]
  exact List.nodup_reverse.mpr distinct

/-- A cycle of ancestors is told only of a place where ancestors are followed, and which returns. -/
def TellsReturn (settings : Settings) (failure : Failure) (final : Resolution) : Prop :=
  ∀ told, failure = .cycle .ancestor told →
    final.AllRead ∧ ∃ place, final.Begins settings place ∧ final.Returns place told

theorem EndsWalk.tellsReturn {failure : Failure} (ends : EndsWalk .layout failure) :
    TellsReturn settings failure final :=
  fun told same => absurd same (ends.ne_cycle (by decide) told)

theorem law_returns : Law settings AllRead (TellsReturn settings) where
  resolves kinds reference asker state read := by
    have follows : Follows settings state (stateAfter (resolve settings kinds reference asker state)) :=
      follows_resolve kinds reference asker state
    refine ((outcome_resolve ..).failure fun _ _ outside => EndsWalk.tellsReturn (.inl outside)).mono
      fun _ final ran _ => ?_
    rw [ran] at follows
    exact read.grows follows.grows
  climbs place element state stands begins read := by
    have follows : Follows settings state (stateAfter (chain settings place element state)) :=
      follows_chain place element state
    refine ((returns_chain stands).failure_at fun failure final failed returns told same => ?_).mono
      fun _ final ran _ => ?_
    · rw [failed] at follows
      exact ⟨read.grows follows.grows, place, begins.grows follows.grows, returns told same⟩
    · rw [ran] at follows
      exact read.grows follows.grows
  reports _ _ _ _ _ read := read
  gains _ _ _ _ read := read

end Resolving

open Resolution Resolving

/-- A resolution that fails for a cycle of ancestors tells the names of a climb that comes back to a
kind and a name, as the project then is. -/
theorem Document.returns_of_cycle {settings : Settings} {authored : Document} {workspace : Workspace}
    {told : List String} {final : Resolution}
    (failed : authored.resolved settings workspace = .error (.cycle .ancestor told) final) :
    final.AllRead ∧ ∃ place, final.Begins settings place ∧ final.Returns place told := by
  have outcome : Outcome (fun _ _ => True) (TellsReturn settings) (authored.resolved settings workspace) := by
    have actions : ∀ middle : Resolution, middle.AllRead →
        Outcome (fun _ _ => True) (TellsReturn settings) (resolveActions settings middle) := fun middle _ =>
      (outcome_resolveActions middle).failure fun _ _ outside => EndsWalk.tellsReturn (.inl outside)
    refine law_returns.all actions (fun last _ => ?_) fun element member => nomatch member
    exact (outcome_resolveLayouts last).failure fun _ _ ends => ends.tellsReturn
  rw [failed] at outcome
  exact outcome told rfl

/-- If following ancestors passes no kind and name twice, and no element of the repositories that is
designated by its own reference, then the resolution does not fail for a cycle of ancestors. -/
theorem Document.resolved_ne_ancestorCycle {settings : Settings} {authored : Document} {workspace : Workspace}
    {library : Element → Prop}
    (reads : ∀ element, (stateAfter (authored.resolved settings workspace)).Read element →
      library element.uncounted)
    (straight : ∀ passed, (Sources.mk authored library).Climbs settings
      (stateAfter (authored.resolved settings workspace)).project.authored passed →
        (passed.map (Sources.mk authored library).keyAt?).Nodup)
    (apart : ∀ element passed, (Sources.mk authored library).Climbs settings
      (stateAfter (authored.resolved settings workspace)).project.authored (.library element :: passed) →
        ¬element.PointsAt element)
    (told : List String) (final : Resolution) :
    authored.resolved settings workspace ≠ .error (.cycle .ancestor told) final := by
  intro failed
  obtain ⟨allRead, place, begins, returns⟩ := Document.returns_of_cycle failed
  obtain ⟨places, climbs, twice⟩ := returns.not_nodup
  have changes : Changes settings { project := { authored }, workspace }
      (stateAfter (authored.resolved settings workspace)) := changes_all _
  rw [failed, stateAfter] at reads straight apart changes
  have made : final.MadeOf ⟨authored, library⟩ := by
    refine ⟨changes.extends.authored, fun element member => ?_⟩
    obtain ⟨declared, isRead, alike⟩ := allRead element member
    exact alike ▸ reads declared isRead
  obtain ⟨element, stands⟩ := begins.element?
  obtain ⟨origin, here, followed⟩ := made.followed begins
  obtain ⟨above, whole, keyed⟩ := made.climbs apart climbs here (.begins followed)
  have distinct := straight _ whole
  rw [List.map_append, keyed, List.map_singleton, made.keyAt? stands here, ← List.reverse_cons] at distinct
  exact twice (List.nodup_reverse.mp distinct)

/-- Of a single authored element nothing but a repository's element is an ancestor. -/
theorem Sources.Succeeds.of_single {sources : Sources} {own : Element} (single : sources.authored.elements = [own])
    {origin above : Origin} (declares : sources.Declares origin) (succeeds : sources.Succeeds origin above) :
    (origin = .authored 0 ∧ ∃ base, above = .library base ∧ sources.library base ∧ own.PointsAt base) ∨
      ∃ derived, origin = .library derived ∧ sources.library derived ∧
        (above = .authored 0 ∧ derived.PointsAt own ∨
          ∃ base, above = .library base ∧ sources.library base ∧ base ≠ derived ∧ derived.PointsAt base) := by
  obtain ⟨element, reference, isDeclared, refers, leads⟩ := succeeds
  have alone : ∀ {index element}, sources.authored.elements[index]? = some element → index = 0 ∧ element = own := by
    intro index element stands
    rw [single, List.getElem?_singleton] at stands
    split at stands
    next zero => exact ⟨zero, (Option.some.inj stands).symm⟩
    next => cases stands
  cases origin with
  | authored index =>
    obtain ⟨rfl, rfl⟩ := alone isDeclared
    cases leads with
    | authored writes _ =>
      obtain ⟨other, stands, apart, -⟩ := writes
      obtain ⟨rfl, -⟩ := alone stands
      exact absurd rfl apart
    | library _ isOffered _ designated => exact .inl ⟨rfl, _, rfl, isOffered, reference, refers, designated⟩
  | library derived =>
    obtain rfl := Option.some.inj isDeclared
    refine .inr ⟨_, rfl, declares, ?_⟩
    cases leads with
    | authored writes _ =>
      obtain ⟨other, stands, -, designated⟩ := writes
      obtain ⟨rfl, rfl⟩ := alone stands
      exact .inl ⟨rfl, reference, refers, designated⟩
    | library _ isOffered other designated =>
      refine .inr ⟨_, rfl, isOffered, fun same => other (by rw [same]), reference, refers, designated⟩

def Element.IsHome (element : Element) (domain : String) (ancestor : Option QualifiedName) : Prop :=
  element.kind = .view ∧ element.name = ⟨"Home", some domain⟩ ∧ element.ancestor = ancestor

instance (element : Element) (domain : String) (ancestor : Option QualifiedName) :
    Decidable (element.IsHome domain ancestor) :=
  inferInstanceAs (Decidable (_ ∧ _ ∧ _))

theorem Element.IsHome.pointsAt {element other : Element} {domain : String} {ancestor : Option QualifiedName}
    (isHome : element.IsHome domain ancestor) (points : element.PointsAt other) :
    ∃ reference, ancestor = some reference ∧ other.isDesignated [.view] reference := by
  obtain ⟨reference, refers, designated⟩ := points
  obtain ⟨isView, -, derives⟩ := isHome
  rw [isView] at designated
  exact ⟨reference, derives ▸ refers, designated⟩

theorem Element.IsHome.isDesignated {element : Element} {domain : String} {ancestor : Option QualifiedName}
    (isHome : element.IsHome domain ancestor) (reference : QualifiedName) :
    element.isDesignated [.view] reference = reference.designates ⟨"Home", some domain⟩ := by
  obtain ⟨isView, named, -⟩ := isHome
  simp [Element.isDesignated, isView, named]

theorem Element.IsHome.keyAt? {element : Element} {domain : String} {ancestor : Option QualifiedName}
    (isHome : element.IsHome domain ancestor) (sources : Sources) :
    sources.keyAt? (.library element) = some (.view, QualifiedName.text ⟨"Home", some domain⟩) := by
  obtain ⟨isView, named, -⟩ := isHome
  simp [Sources.keyAt?, Sources.element?, Element.key, isView, named]

def homeFromHome (domain : String) : Document :=
  { elements := [{ kind := .view, name := ⟨"Home", some domain⟩, ancestor := some ⟨"Home", none⟩ }] }

def homeShelved : Workspace := .shelved "domain std; view Home;" "domain cache; view Home from std.Home;"

def homeSources : Sources where
  authored := homeFromHome "acme"
  library element := element.IsHome "std" none ∨ element.IsHome "cache" (some ⟨"Home", some "std"⟩)

def viewRank (names : List String) (key : Option Element.Key) : Nat :=
  (names.map fun name => some (.view, name)).idxOf key

theorem homeSources_rises (origin above : Origin) (declares : homeSources.Declares origin)
    (succeeds : homeSources.Succeeds origin above) :
    viewRank ["acme.Home", "cache.Home", "std.Home"] (homeSources.keyAt? origin) <
      viewRank ["acme.Home", "cache.Home", "std.Home"] (homeSources.keyAt? above) := by
  rcases succeeds.of_single rfl declares with ⟨rfl, base, rfl, isStd | isCache, -⟩ |
    ⟨derived, rfl, isStd | isCache, onward⟩
  · rw [isStd.keyAt?]
    decide
  · rw [isCache.keyAt?]
    decide
  · rcases onward with ⟨-, points⟩ | ⟨base, -, -, -, points⟩
    all_goals
      obtain ⟨reference, refers, -⟩ := isStd.pointsAt points
      cases refers
  · rcases onward with ⟨-, points⟩ | ⟨base, rfl, baseStd | baseCache, -, points⟩
    all_goals obtain ⟨reference, refers, designated⟩ := isCache.pointsAt points
    all_goals obtain rfl := Option.some.inj refers
    · exact absurd designated (by decide)
    · rw [isCache.keyAt?, baseStd.keyAt?]
      decide
    · rw [baseCache.isDesignated] at designated
      exact absurd designated (by decide)

theorem Document.resolved_ne_ancestorCycle_homeFromHome :
    (∀ element, (stateAfter ((homeFromHome "acme").resolved {} homeShelved)).Read element →
      homeSources.library element.uncounted) ∧
    (∀ passed, homeSources.Climbs {}
      (stateAfter ((homeFromHome "acme").resolved {} homeShelved)).project.authored passed →
        (passed.map homeSources.keyAt?).Nodup) ∧
    (∀ element passed, homeSources.Climbs {}
      (stateAfter ((homeFromHome "acme").resolved {} homeShelved)).project.authored (.library element :: passed) →
        ¬element.PointsAt element) ∧
    ∀ told final, (homeFromHome "acme").resolved {} homeShelved ≠ .error (.cycle .ancestor told) final := by
  have reads : ∀ element, (stateAfter ((homeFromHome "acme").resolved {} homeShelved)).Read element →
      homeSources.library element.uncounted := by
    have all : (stateAfter ((homeFromHome "acme").resolved {} homeShelved)).parsed.all fun read =>
        read.2.elements.all fun element =>
          element.IsHome "std" none ∨ element.IsHome "cache" (some ⟨"Home", some "std"⟩) := by decide +kernel
    rintro element ⟨path, document, isParsed, member⟩
    simp only [List.all_eq_true, decide_eq_true_eq] at all
    exact all _ isParsed element member
  have straight : ∀ passed, homeSources.Climbs {}
      (stateAfter ((homeFromHome "acme").resolved {} homeShelved)).project.authored passed →
        (passed.map homeSources.keyAt?).Nodup := fun _ climbs => climbs.nodup_map _ homeSources_rises
  have apart : ∀ element passed, homeSources.Climbs {}
      (stateAfter ((homeFromHome "acme").resolved {} homeShelved)).project.authored (.library element :: passed) →
        ¬element.PointsAt element := by
    intro element passed climbs points
    rcases (climbs.declares : homeSources.library element) with isStd | isCache
    · obtain ⟨reference, refers, -⟩ := isStd.pointsAt points
      cases refers
    · obtain ⟨reference, refers, designated⟩ := isCache.pointsAt points
      obtain rfl := Option.some.inj refers
      rw [isCache.isDesignated] at designated
      exact absurd designated (by decide)
  exact ⟨reads, straight, apart, Document.resolved_ne_ancestorCycle reads straight apart⟩

theorem exists_home {text file domain : String} {ancestor : Option QualifiedName}
    (parses : (Document.parse text file).toOption.any fun document =>
      document.elements.length = 1 ∧ ∀ element ∈ document.elements, element.IsHome domain ancestor) :
    ∃ document element, Document.parse text file = .ok document ∧ document.elements = [element] ∧
      element.IsHome domain ancestor := by
  obtain ⟨document, parsed, holds⟩ := except_ok_of_any parses
  obtain ⟨one, each⟩ := of_decide_eq_true holds
  obtain ⟨element, single⟩ := List.length_eq_one_iff.mp one
  exact ⟨document, element, parsed, single, each element (by simp [single])⟩

def pageFromHome : Document :=
  { elements := [{ kind := .view, name := ⟨"Page", some "acme"⟩, ancestor := some ⟨"Home", some "std"⟩ }] }

/-- The library's view derives from that of the cache, which is designated along with itself. -/
def twoHomes : Workspace := .shelved "domain std; view Home from Home;" "domain cache; view Home;"

/-- Nothing is passed twice, nor a kind and a name, and yet the resolution fails: the library's view
is searched for its own reference, and found there once more. -/
theorem ancestorCycle_pageFromHome :
    ∃ library cache final, Document.parse "domain std; view Home from Home;" "lib/base.reqm" = .ok library ∧
      Document.parse "domain cache; view Home;" "cache/base.reqm" = .ok cache ∧
      (∀ passed, (Sources.mk pageFromHome (· ∈ library.elements ++ cache.elements)).Climbs {}
        final.project.authored passed → passed.Nodup ∧
          (passed.map (Sources.mk pageFromHome (· ∈ library.elements ++ cache.elements)).keyAt?).Nodup) ∧
      pageFromHome.resolved {} twoHomes =
        .error (.cycle .ancestor ["acme.Page", "std.Home", "std.Home"]) final := by
  obtain ⟨final, failed⟩ : ∃ final, pageFromHome.resolved {} twoHomes =
      .error (.cycle .ancestor ["acme.Page", "std.Home", "std.Home"]) final := error_of_fails (by decide +kernel)
  obtain ⟨library, std, parsed, onlyStd, isStd⟩ := exists_home (by decide +kernel :
    (Document.parse "domain std; view Home from Home;" "lib/base.reqm").toOption.any fun document =>
      document.elements.length = 1 ∧ ∀ element ∈ document.elements, element.IsHome "std" (some ⟨"Home", none⟩))
  obtain ⟨cache, cached, parsedCache, onlyCached, isCached⟩ := exists_home (by decide +kernel :
    (Document.parse "domain cache; view Home;" "cache/base.reqm").toOption.any fun document =>
      document.elements.length = 1 ∧ ∀ element ∈ document.elements, element.IsHome "cache" none)
  refine ⟨library, cache, final, parsed, parsedCache, fun passed climbs => ?_, failed⟩
  rw [onlyStd, onlyCached] at climbs ⊢
  suffices distinct : (passed.map (Sources.mk pageFromHome (· ∈ [std] ++ [cached])).keyAt?).Nodup from
    ⟨.of_map _ distinct, distinct⟩
  refine climbs.nodup_map (viewRank ["acme.Page", "std.Home", "cache.Home"]) fun origin above declares succeeds => ?_
  have among : ∀ {element}, element ∈ [std] ++ [cached] → element = std ∨ element = cached := by simp
  have keyed : (Sources.mk pageFromHome (· ∈ [std] ++ [cached])).keyAt? (.authored 0) = some (.view, "acme.Page") := rfl
  rcases succeeds.of_single rfl declares with ⟨rfl, base, rfl, isOffered, -⟩ | ⟨derived, rfl, isOffered, onward⟩
  · rcases among isOffered with rfl | rfl
    · rw [keyed, isStd.keyAt?]
      decide
    · rw [keyed, isCached.keyAt?]
      decide
  · rcases among isOffered with rfl | rfl
    · rcases onward with ⟨-, points⟩ | ⟨base, rfl, isOfferedToo, other, -⟩
      · obtain ⟨reference, refers, designated⟩ := isStd.pointsAt points
        obtain rfl := Option.some.inj refers
        exact absurd designated (by decide)
      · obtain rfl := (among isOfferedToo).resolve_left other
        rw [isStd.keyAt?, isCached.keyAt?]
        decide
    · rcases onward with ⟨-, points⟩ | ⟨_, -, -, -, points⟩
      all_goals
        obtain ⟨_, refers, -⟩ := isCached.pointsAt points
        cases refers

def Origin.shelf : Origin → Nat
  | authored _ => 0
  | library _ => 1

/-- Two declarations of one kind and name are told apart by none but their places, so the resolution
fails, though the authored view derives from another one. -/
theorem ancestorCycle_homeFromHome :
    ∃ library final, Document.parse "domain std; view Home;" "lib/base.reqm" = .ok library ∧
      (∀ passed, (Sources.mk (homeFromHome "std") (· ∈ library.elements)).Climbs {}
        final.project.authored passed → passed.Nodup) ∧
      (homeFromHome "std").resolved {} (.withLibrary "domain std; view Home;") =
        .error (.cycle .ancestor ["std.Home", "std.Home"]) final := by
  obtain ⟨final, failed⟩ : ∃ final, (homeFromHome "std").resolved {} (.withLibrary "domain std; view Home;") =
      .error (.cycle .ancestor ["std.Home", "std.Home"]) final := error_of_fails (by decide +kernel)
  obtain ⟨library, std, parsed, onlyStd, isStd⟩ := exists_home (by decide +kernel :
    (Document.parse "domain std; view Home;" "lib/base.reqm").toOption.any fun document =>
      document.elements.length = 1 ∧ ∀ element ∈ document.elements, element.IsHome "std" none)
  refine ⟨library, final, parsed, fun passed climbs => ?_, failed⟩
  rw [onlyStd] at climbs
  rw [← List.map_id passed]
  refine climbs.nodup_map Origin.shelf fun origin above declares succeeds => ?_
  rcases succeeds.of_single rfl declares with ⟨rfl, base, rfl, -⟩ | ⟨derived, rfl, isOffered, onward⟩
  · exact Nat.zero_lt_one
  · obtain rfl := List.mem_singleton.mp isOffered
    rcases onward with ⟨-, points⟩ | ⟨_, -, -, -, points⟩
    all_goals
      obtain ⟨_, refers, -⟩ := isStd.pointsAt points
      cases refers

def pageFromBase (others : List Element) : Document :=
  { elements := others ++ [{ kind := .view, name := ⟨"Page", some "acme"⟩, ancestor := some ⟨"Base", none⟩ }] }

def twoBases : Workspace := .shelved "domain std; view Base;" "domain cache; view Base from Page;"

/-- A view derives from that of the library, unless another one drew that of the cache before, which
derives from the view itself. -/
theorem ancestorCycle_pageFromBase :
    (∃ final base, (pageFromBase []).resolved {} twoBases = .ok () final ∧
      final.next? (.authored 0) = some (.dependency 0) ∧ final.project.element? (.dependency 0) = some base ∧
      base.file = "lib/base.reqm" ∧ base.ancestor = none) ∧
    ∃ final, (pageFromBase
        [{ kind := .view, name := ⟨"Other", some "acme"⟩, ancestor := some ⟨"Base", some "cache"⟩ }]).resolved
          {} twoBases =
      .error (.cycle .ancestor ["acme.Other", "cache.Base", "acme.Page", "cache.Base"]) final := by
  refine ⟨?_, error_of_fails (by decide +kernel)⟩
  have ends : ends (fun _ final => final.next? (.authored 0) = some (.dependency 0) ∧
      (final.project.element? (.dependency 0)).any fun base => base.file = "lib/base.reqm" ∧ base.ancestor = none)
      ((pageFromBase []).resolved {} twoBases) := by decide +kernel
  obtain ⟨_, final, ran, meets⟩ := ok_of_ends ends
  obtain ⟨leads, draws⟩ := of_decide_eq_true meets
  obtain ⟨base, stands, ofLibrary⟩ := (Option.any_eq_true ..).mp draws
  exact ⟨final, base, ran, leads, stands, of_decide_eq_true ofLibrary⟩

end Requirements
