import Requirements.Resolution.Ancestors
import Requirements.Proofs.Resolution.Lookup

/-! Chains of ancestors as climbs from place to place. A chain that was resolved is a climb
in every later state, and of two climbs from one place the complete one goes on where the
other stopped. -/
namespace Requirements
namespace Resolution

def next? (state : Resolution) (place : Place) : Option Place := do
  let element ← state.project.element? place
  let reference ← element.ancestor
  let (above, _) ← state.known? element.kind.related reference (some place)
  return above

/-- The places stand above the first, each right above the one before. -/
def Climbs (state : Resolution) : Place → List Place → Prop
  | _, [] => True
  | place, above :: rest => state.next? place = some above ∧ state.Climbs above rest

/-- The climb goes on until no reference leads further. -/
def ClimbsOut (state : Resolution) : Place → List Place → Prop
  | place, [] => state.next? place = none
  | place, above :: rest => state.next? place = some above ∧ state.ClimbsOut above rest

theorem ClimbsOut.climbs {state : Resolution} {place : Place} {places : List Place}
    (out : state.ClimbsOut place places) : state.Climbs place places := by
  induction places generalizing place with
  | nil => trivial
  | cons above rest ih => exact ⟨out.1, ih out.2⟩

theorem ClimbsOut.prefix_of_climbs {state : Resolution} {place : Place} {places some : List Place}
    (out : state.ClimbsOut place places) (climbs : state.Climbs place some) : some <+: places := by
  induction some generalizing place places with
  | nil => exact List.nil_prefix
  | cons above rest ih =>
    cases places with
    | nil =>
      have stops : state.next? place = none := out
      rw [climbs.1] at stops
      cases stops
    | cons first others =>
      obtain rfl := Option.some.inj (climbs.1.symm.trans out.1)
      exact List.cons_prefix_cons.mpr ⟨rfl, ih out.2 climbs.2⟩

theorem Extends.next? {start final : Resolution} (extended : Extends start final)
    {place above : Place} (leads : start.next? place = some above) :
    final.next? place = some above := by
  simp only [Resolution.next?, Option.bind_eq_bind, Option.bind_eq_some_iff] at leads ⊢
  obtain ⟨element, stands, reference, refers, ⟨_, found⟩, known, same⟩ := leads
  obtain rfl := Option.some.inj same
  obtain ⟨later, standsLater, alike⟩ := extended.element? stands
  obtain ⟨foundLater, knownLater, -⟩ := extended.known? known
  exact ⟨later, standsLater, reference, (Element.ancestor_eq alike).trans refers, (_, foundLater),
    Element.kind_eq alike ▸ knownLater, rfl⟩

theorem Extends.climbs {start final : Resolution} (extended : Extends start final)
    {place : Place} {places : List Place} (climbs : start.Climbs place places) :
    final.Climbs place places := by
  induction places generalizing place with
  | nil => trivial
  | cons above rest ih => exact ⟨extended.next? climbs.1, ih climbs.2⟩

theorem next?_none_of_ancestor {state : Resolution} {place : Place} {element : Element}
    (stands : state.project.element? place = some element) (root : element.ancestor = none) :
    state.next? place = none := by
  simp [next?, stands, root]

theorem next?_eq_known? {state : Resolution} {place : Place} {element : Element}
    {reference : QualifiedName} (stands : state.project.element? place = some element)
    (refers : element.ancestor = some reference) :
    state.next? place = (state.known? element.kind.related reference (some place)).map (·.1) := by
  simp only [next?, stands, refers, Option.bind_eq_bind, Option.bind_some]
  cases state.known? element.kind.related reference (some place) <;> rfl

theorem next?_stands {state : Resolution} {place above : Place} (leads : state.next? place = some above) :
    ∃ element, state.project.element? above = some element := by
  simp only [next?, Option.bind_eq_bind, Option.bind_eq_some_iff] at leads
  obtain ⟨_, -, _, -, ⟨_, found⟩, known, same⟩ := leads
  obtain rfl := Option.some.inj same
  exact ⟨found, (known?_some known).1⟩

def keyAt? (state : Resolution) (place : Place) : Option Element.Key :=
  (state.project.element? place).map Element.key

theorem Extends.keyAt? {start final : Resolution} (extended : Extends start final) {place : Place}
    {key : Element.Key} (keyed : start.keyAt? place = some key) : final.keyAt? place = some key := by
  obtain ⟨element, stands, rfl⟩ := Option.map_eq_some_iff.mp keyed
  obtain ⟨later, standsLater, alike⟩ := extended.element? stands
  rw [Resolution.keyAt?, standsLater, Option.map_some, Element.key_eq alike]

/-- The elements at the places have these keys, of which none repeats and none is among
those visited. -/
structure Keyed (state : Resolution) (visited : List Element.Key) (places : List Place)
    (keys : List Element.Key) : Prop where
  at? : places.map state.keyAt? = keys.map some
  distinct : keys.Nodup
  unvisited : ∀ key ∈ keys, key ∉ visited

theorem Keyed.cons {state : Resolution} {visited : List Element.Key} {above : Place}
    {rest : List Place} {keys : List Element.Key} (keyed : state.Keyed visited (above :: rest) keys) :
    ∃ key behind, keys = key :: behind ∧ state.keyAt? above = some key ∧
      state.Keyed (key :: visited) rest behind := by
  obtain ⟨at?, distinct, unvisited⟩ := keyed
  cases keys with
  | nil => cases at?
  | cons key behind =>
    obtain ⟨here, there⟩ := List.cons.inj at?
    obtain ⟨absent, distinct⟩ := List.nodup_cons.mp distinct
    refine ⟨key, behind, rfl, here, there, distinct, fun other member seen => ?_⟩
    rcases List.mem_cons.mp seen with rfl | seen
    · exact absent member
    · exact unvisited other (by simp [member]) seen

theorem Extends.keyed {start final : Resolution} (extended : Extends start final)
    {visited : List Element.Key} {places : List Place} {keys : List Element.Key}
    (keyed : start.Keyed visited places keys) : final.Keyed visited places keys := by
  refine ⟨?_, keyed.distinct, keyed.unvisited⟩
  rw [← keyed.at?]
  apply List.map_congr_left
  intro place member
  have here : start.keyAt? place ∈ keys.map some := keyed.at? ▸ List.mem_map_of_mem member
  obtain ⟨key, -, same⟩ := List.mem_map.mp here
  rw [← same, extended.keyAt? same.symm]

/-- On a climb the reference of the first element leads to the one above. -/
theorem Climbs.known? {state : Resolution} {place above : Place} {rest : List Place}
    (climbs : state.Climbs place (above :: rest)) {element : Element}
    (stands : state.project.element? place = some element) :
    ∃ reference ancestor, element.ancestor = some reference ∧
      state.known? element.kind.related reference (some place) = some (above, ancestor) := by
  have leads := climbs.1
  simp only [next?, stands, Option.bind_eq_bind, Option.bind_some, Option.bind_eq_some_iff] at leads
  obtain ⟨reference, refers, ⟨first, ancestor⟩, known, same⟩ := leads
  obtain rfl := Option.some.inj same
  exact ⟨reference, ancestor, refers, known⟩

end Resolution

namespace Resolving

open Resolution

variable {settings : Settings} {start final : Resolution}

theorem grows_report (entry : Report) : Grows start (start.report entry) :=
  ⟨rfl, List.prefix_rfl, List.prefix_rfl, List.prefix_append _ _,
    fun _ member => .inl (List.mem_map_of_mem member)⟩

theorem report_ok {finding : Finding} {subject : QualifiedName} {file : String} {u : Unit} :
    report finding subject file start = .ok u final ↔
      start.report (finding.reportOn subject file) = final := modify_ok

/-- A chain that was resolved is a complete climb, on which no key comes twice. -/
theorem chainFrom_ok {origin : Element} {steps : Nat} {visited : List Element.Key}
    {names : List String} {current : Place} {element : Element} {places : List Place}
    (ran : chainFrom settings origin steps visited names current element start = .ok places final)
    (stands : start.project.element? current = some element) :
    Grows start final ∧ final.ClimbsOut current places ∧
      ∃ keys, final.Keyed visited places keys := by
  induction steps generalizing visited names current element start places with
  | zero => exact absurd ran throw_ok
  | succ steps ih =>
    rw [chainFrom] at ran
    cases refers : element.ancestor with
    | none =>
      simp only [refers] at ran
      obtain ⟨rfl, rfl⟩ := pure_ok.mp ran
      exact ⟨.refl _, next?_none_of_ancestor stands refers, [], ⟨rfl, .nil, by simp⟩⟩
    | some reference =>
      simp only [refers] at ran
      obtain ⟨answer, middle, resolved, ran⟩ := bind_ok.mp ran
      obtain ⟨grows, known⟩ := resolve_ok resolved (by simp [stands])
      obtain ⟨later, standsLater, alike⟩ := grows.extends.element? stands
      have leads := next?_eq_known? standsLater ((Element.ancestor_eq alike).trans refers)
      rw [Element.kind_eq alike, known] at leads
      cases answer with
      | none =>
        obtain ⟨_, _, reported, ran⟩ := bind_ok.mp ran
        obtain rfl := report_ok.mp reported
        obtain ⟨rfl, rfl⟩ := pure_ok.mp ran
        exact ⟨grows.trans (grows_report _), leads, [], ⟨rfl, .nil, by simp⟩⟩
      | some found =>
        obtain ⟨place, ancestor⟩ := found
        dsimp only at ran
        split at ran
        next => exact absurd ran throw_ok
        next fresh =>
          obtain ⟨rest, _, climbed, ran⟩ := bind_ok.mp ran
          obtain ⟨rfl, rfl⟩ := pure_ok.mp ran
          have standsAncestor := (known?_some known).1
          obtain ⟨growsRest, out, keys, keyed⟩ := ih climbed standsAncestor
          have keyHere : middle.keyAt? place = some ancestor.key := by
            rw [Resolution.keyAt?, standsAncestor, Option.map_some]
          refine ⟨grows.trans growsRest, ⟨growsRest.extends.next? leads, out⟩,
            ancestor.key :: keys, ?_, ?_, ?_⟩
          · simp [growsRest.extends.keyAt? keyHere, keyed.at?]
          · exact List.nodup_cons.mpr
              ⟨fun member => keyed.unvisited _ member (by simp), keyed.distinct⟩
          · intro key member
            rcases List.mem_cons.mp member with rfl | member
            · simpa using fresh
            · exact fun seen => keyed.unvisited key member (by simp [seen])

theorem chain_ok {place : Place} {element : Element} {places : List Place}
    (ran : chain settings place element start = .ok places final)
    (stands : start.project.element? place = some element) :
    Grows start final ∧ final.ClimbsOut place places ∧
      ∃ keys, final.Keyed [element.key] places keys := by
  rw [chain] at ran
  obtain ⟨_, _, got, ran⟩ := bind_ok.mp ran
  obtain ⟨rfl, rfl⟩ := get_ok.mp got
  exact chainFrom_ok ran stands

end Resolving
end Requirements
