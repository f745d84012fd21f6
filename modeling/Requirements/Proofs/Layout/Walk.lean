import Requirements.Proofs.Layout.Nodes
import Requirements.Proofs.Order.Forms
import Requirements.Proofs.Resolution.Termination
import Requirements.Proofs.Resolution.StandIns

/-! Walking through layouts. If the nodes that layouts lay out name one view each, and no view contains
itself, then no walk comes back to a view that it is in, and no node is reported. -/
namespace Requirements

open Property (layoutKey)
open Relation (ReflTransGen TransGen)
open Resolution

def Resolution.Quiet (state : Resolution) : Prop :=
  ∀ report ∈ state.reports, ∀ child view, report.code ≠ some (Finding.viewMissing child view).code

namespace World

variable {world : World} {offered : QualifiedName → Prop} {settings : Settings} {start final state : Resolution}

/-- Every node that is laid out names a view that was written or is offered, and no more than one view;
and no view contains itself. -/
structure Clear (world : World) (offered : QualifiedName → Prop) : Prop where
  named : ∀ {key name}, world.Inserts key name →
    (∃ view, world.authored view ∧ view.isDesignated [.view] (.parse name)) ∨ offered (.parse name)
  unique : ∀ {key name}, world.Inserts key name → ∀ {first second}, world.Declares first → world.Declares second →
    first.isDesignated [.view] (.parse name) → second.isDesignated [.view] (.parse name) → first = second
  acyclic : ∀ key, ¬TransGen world.Contains key key

/-- What was read belongs to the library, and what is offered was not searched for in vain. -/
structure Served (world : World) (offered : QualifiedName → Prop) (state : Resolution) : Prop where
  read : ∀ element, state.Read element → world.library element
  found : ∀ reference, offered reference → ¬state.Searched .view reference

/-- The authored elements stand as they are in the world, but for layouts that were expanded; views
from elsewhere were read; and no node was reported. -/
structure Standing (world : World) (state : Resolution) : Prop where
  authored : ∀ (index : Nat) now, state.project.authored.elements[index]? = some now →
    ∃ view, world.authored view ∧ now.outline = view.outline ∧
      (∀ layout, Resolving.layout? now = some layout → world.Sound view.key layout.attributes) ∧
      (world.Laid view.key view.properties → world.Sound view.key now.properties)
  present : ∀ view, world.authored view →
    ∃ now ∈ state.project.authored.elements, now.outline = view.outline
  drawn : ∀ element ∈ state.project.dependencies.elements, element.kind = .view →
    ∃ declared, state.Read declared ∧ declared.uncounted = element.uncounted
  quiet : state.Quiet

theorem Served.before (served : world.Served offered final) (changes : Changes settings start final) :
    world.Served offered start :=
  ⟨fun element read => served.read element (read.later changes.extends.parsed),
    fun reference isOffered searched => served.found reference isOffered (changes.searched searched)⟩

theorem laid_of_inserts {key : Element.Key} {name : String} {view : Element} (inserts : world.Inserts key name)
    (declared : world.Declares view) (designated : view.isDesignated [.view] (.parse name)) :
    world.Laid view.key view.properties := by
  obtain ⟨nodes, laid, node, member, other, names, rfl⟩ := inserts
  exact .view laid member other names declared designated

/-- A name that is inserted leads to a view that stands as one of the world does. -/
theorem Standing.named (served : world.Served offered state) (standing : world.Standing state)
    {key : Element.Key} {name : String} (inserts : world.Inserts key name) {place : Place} {child : Element}
    (known : state.known? [.view] (.parse name) none = some (place, child)) :
    ∃ view, world.Declares view ∧ view.isDesignated [.view] (.parse name) ∧ view.key = child.key ∧
      world.Sound view.key child.properties := by
  obtain ⟨stands, -, designated⟩ := known?_some known
  cases place with
  | authored index =>
    obtain ⟨view, isAuthored, alike, -, inside⟩ := standing.authored index child stands
    have isNamed : view.isDesignated [.view] (.parse name) := by rwa [← Element.isDesignated_of_outline alike]
    exact ⟨view, .inl isAuthored, isNamed, (Element.key_eq alike).symm,
      inside (laid_of_inserts inserts (.inl isAuthored) isNamed)⟩
  | dependency index =>
    obtain ⟨declared, read, same⟩ :=
      standing.drawn child (List.mem_of_getElem? stands) (Element.kind_of_designated designated)
    have alike := Element.outline_of_uncounted same
    have isNamed : declared.isDesignated [.view] (.parse name) := by rwa [Element.isDesignated_of_outline alike]
    have isDeclared : world.Declares declared := .inr (served.read declared read)
    have properties : declared.properties = child.properties := (congrArg Element.properties same :)
    exact ⟨declared, isDeclared, isNamed, Element.key_eq alike,
      properties ▸ .of_laid (laid_of_inserts inserts isDeclared isNamed)⟩

/-- A name that is inserted leads somewhere. -/
theorem Standing.not_missing (clear : world.Clear offered) (served : world.Served offered state)
    (standing : world.Standing state) {key : Element.Key} {name : String} (inserts : world.Inserts key name)
    (unknown : state.known? [.view] (.parse name) none = none) : ¬state.Searched .view (.parse name) := by
  intro searched
  rcases clear.named inserts with ⟨view, isAuthored, designated⟩ | isOffered
  · obtain ⟨now, member, alike⟩ := standing.present view isAuthored
    obtain ⟨index, stands⟩ := List.mem_iff_getElem?.mp member
    refine known?_none.mp unknown (.authored index) now stands (by simp) ?_
    rwa [Element.isDesignated_of_outline alike]
  · exact served.found _ isOffered searched

/-- Following a reference quietly leaves the elements where they stand. -/
theorem Standing.grows (standing : world.Standing start) (grows : Grows start final) (quiet : final.Quiet) :
    world.Standing final where
  authored index now stands := by
    have same := Resolving.getElem?_map_uncounted grows.authored index
    rw [stands] at same
    obtain ⟨former, stood, alike⟩ := Option.map_eq_some_iff.mp same.symm
    obtain ⟨view, isAuthored, outlined, layout, inside⟩ := standing.authored index former stood
    have sameProperties : former.properties = now.properties := (congrArg Element.properties alike :)
    have sameLayout : Resolving.layout? former = Resolving.layout? now := (congrArg Resolving.layout? alike :)
    exact ⟨view, isAuthored, (Element.outline_of_uncounted alike).symm.trans outlined, sameLayout ▸ layout,
      sameProperties ▸ inside⟩
  present view isAuthored := by
    obtain ⟨now, member, alike⟩ := standing.present view isAuthored
    obtain ⟨index, stands⟩ := List.mem_iff_getElem?.mp member
    obtain ⟨later, standsLater, same⟩ := grows.later stands
    exact ⟨later, List.mem_of_getElem? standsLater, (Element.outline_of_uncounted same).trans alike⟩
  drawn element member isView := by
    rcases grows.declared element member with old | new
    · obtain ⟨former, inStart, same⟩ := List.mem_map.mp old
      have sameKind : former.kind = element.kind := (congrArg Element.kind same :)
      obtain ⟨declared, read, alike⟩ := standing.drawn former inStart (sameKind.trans isView)
      exact ⟨declared, read.later grows.parsed, alike.trans same⟩
    · exact new
  quiet := quiet

/-- The walk told no cycle, and if it came to its end, all stands and what it made is good. -/
structure Walked {α : Type} (world : World) (good : α → Prop) (expansion : Expansion α) : Prop where
  straight : ∀ told, expansion.failure ≠ some (.cycle .layout told)
  done : expansion.failure = none → world.Standing expansion.state ∧ good expansion.result

theorem Walked.map {α β : Type} {good : α → Prop} {better : β → Prop} {expansion : Expansion α} {f : α → β}
    (walked : world.Walked good expansion) (keeps : ∀ result, good result → better (f result)) :
    world.Walked better (expansion.map f) :=
  ⟨walked.straight, fun ended => ⟨(walked.done ended).1, keeps _ (walked.done ended).2⟩⟩

end World

namespace Resolving

open World

variable {world : World} {offered : QualifiedName → Prop} {settings : Settings} {start final state : Resolution}

/-- Following a reference reports nothing. -/
theorem reports_resolve {kinds : List ElementKind} {reference : QualifiedName} {asker : Option Place}
    {answer : Option (Place × Element)}
    (ran : resolve settings kinds reference asker start = .ok answer final) : final.reports = start.reports := by
  rw [resolve] at ran
  obtain ⟨_, _, got, ran⟩ := bind_ok.mp ran
  obtain ⟨rfl, rfl⟩ := get_ok.mp got
  cases known : start.known? kinds reference asker with
  | some found =>
    rw [known] at ran
    obtain ⟨_, _, modified, ran⟩ := bind_ok.mp ran
    obtain rfl := modify_ok.mp modified
    obtain ⟨-, rfl⟩ := pure_ok.mp ran
    rfl
  | none =>
    rw [known] at ran
    obtain ⟨found, middle, searched, ran⟩ := bind_ok.mp ran
    obtain ⟨searches, -⟩ := findInRepositories_ok searched
    cases found with
    | none =>
      obtain ⟨-, rfl⟩ := pure_ok.mp ran
      exact searches.reports
    | some element =>
      obtain ⟨placed, _, depended, ran⟩ := bind_ok.mp ran
      obtain ⟨-, rfl⟩ := pure_ok.mp ran
      obtain ⟨-, rfl⟩ := depend_ok.mp depended
      exact searches.reports

section

variable {view : Element}
  {deeper : List Element.Key → List Property → Resolution → Expansion (List Property)}

/-- What the view that the path leads to contains is not on the path, or it would contain itself. -/
theorem not_passed (clear : world.Clear offered) {path : List Element.Key} {key shown : Element.Key}
    (reaches : ∀ passed ∈ path, ReflTransGen world.Contains passed key) (contains : world.Contains key shown) :
    shown ∉ path :=
  fun passed => clear.acyclic shown (TransGen.tail' (reaches shown passed) contains)

theorem reaches_append {path : List Element.Key} {key shown : Element.Key}
    (reaches : ∀ passed ∈ path, ReflTransGen world.Contains passed key) (contains : world.Contains key shown) :
    ∀ passed ∈ path ++ [shown], ReflTransGen world.Contains passed shown := by
  intro passed member
  rcases List.mem_append.mp member with before | last
  · exact (reaches passed before).tail contains
  · obtain rfl := List.mem_singleton.mp last
    exact .refl

def WalksBelow (world : World) (offered : QualifiedName → Prop)
    (deeper : List Element.Key → List Property → Resolution → Expansion (List Property)) : Prop :=
  ∀ {path key nodes state}, (∀ passed ∈ path, ReflTransGen world.Contains passed key) →
    world.Served offered (deeper path nodes state).state → world.Standing state → world.Sound key nodes →
      world.Walked (world.Sound key) (deeper path nodes state)

mutual

theorem walked_expandNode (clear : world.Clear offered)
    (expands : ∀ path nodes state, Expands settings state nodes (deeper path nodes state))
    (below : WalksBelow world offered deeper) {path : List Element.Key} {key : Element.Key}
    (reaches : ∀ passed ∈ path, ReflTransGen world.Contains passed key) :
    ∀ (node : Property) (state : Resolution),
      world.Served offered (expandNode settings view deeper path node state).state → world.Standing state →
      world.Sound key [node] →
        world.Walked (world.Sound key [·]) (expandNode settings view deeper path node state)
  | ⟨name, typeName, presence, value, listOf, values, attributes⟩, state => by
    intro served standing sound
    rw [expandNode] at served ⊢
    cases sound with
    | layout isLayout inside =>
      rw [if_pos isLayout] at served ⊢
      have walked := walked_expandNodes clear expands below reaches attributes state served standing inside
      exact walked.map fun nodes soundNodes => .layout isLayout soundNodes .nil
    | node other inserts nested =>
      rw [if_neg other] at served ⊢
      split
      next => exact ⟨by simp, fun _ => ⟨standing, .node other inserts nested .nil⟩⟩
      next goes =>
        rw [if_neg goes] at served
        have names : Property.namesView ⟨name, typeName, presence, value, listOf, values, attributes⟩ := by
          simpa using goes
        have isNamed := inserts names
        have outcome : Outcome _ _ (resolve settings [.view] (QualifiedName.parse name) none state) :=
          outcome_resolve [.view] (QualifiedName.parse name) none state
        cases answered : resolve settings [.view] (QualifiedName.parse name) none state with
        | error failure middle =>
          rw [answered] at outcome
          refine ⟨fun told same => ?_, fun ended => by cases ended⟩
          obtain rfl := Option.some.inj same
          cases outcome
        | ok answer middle =>
          simp only [answered] at served ⊢
          obtain ⟨grows, known⟩ := resolve_ok answered (by simp)
          have standingThen : world.Standing middle :=
            standing.grows grows (by rw [Quiet, reports_resolve answered]; exact standing.quiet)
          cases answer with
          | none =>
            let missing := (Finding.viewMissing name view.name).reportOn view.name view.file
            have reported : Follows settings middle (middle.report missing) :=
              .single (.reported middle missing (by simp [missing, Finding.severity]))
            have onward : Follows settings (middle.report missing)
                (expandNodes settings view deeper path attributes (middle.report missing)).state :=
              (expands_expandNodes expands path attributes (middle.report missing)).follows
            have servedThen : world.Served offered middle := (served.before onward.changes).before reported.changes
            exact absurd (searched_of_resolve answered) (standingThen.not_missing clear servedThen isNamed known)
          | some found =>
            obtain ⟨place, child⟩ := found
            dsimp only at served ⊢
            have servedThen : world.Served offered middle := by
              split at served
              next => exact served
              next => exact served.before (expands _ _ _).follows.changes
            obtain ⟨shown, declared, designated, sameKey, soundChild⟩ :=
              standingThen.named servedThen isNamed known
            have contains : world.Contains key child.key := ⟨name, shown, isNamed, declared, designated, sameKey⟩
            have fresh : path.contains child.key = false := by simpa using not_passed clear reaches contains
            simp only [fresh, Bool.false_eq_true, if_false] at served ⊢
            have typeless := (Property.namesView_iff.mp names).1
            have inside := sound_inherit (nested typeless shown declared designated) soundChild
            have onPath : ∀ passed ∈ path ++ [child.key], ReflTransGen world.Contains passed shown.key := by
              rw [sameKey]
              exact reaches_append reaches contains
            have walked := below onPath served standingThen inside
            refine walked.map fun nodes soundNodes => .node other inserts ?_ .nil
            -- any view of the name is the one shown
            intro _ another isDeclared isDesignated
            rwa [clear.unique isNamed isDeclared declared isDesignated designated]

theorem walked_expandNodes (clear : world.Clear offered)
    (expands : ∀ path nodes state, Expands settings state nodes (deeper path nodes state))
    (below : WalksBelow world offered deeper) {path : List Element.Key} {key : Element.Key}
    (reaches : ∀ passed ∈ path, ReflTransGen world.Contains passed key) :
    ∀ (nodes : List Property) (state : Resolution),
      world.Served offered (expandNodes settings view deeper path nodes state).state → world.Standing state →
      world.Sound key nodes → world.Walked (world.Sound key) (expandNodes settings view deeper path nodes state)
  | [], state => by
    intro _ standing sound
    rw [expandNodes]
    exact ⟨by simp, fun _ => ⟨standing, sound⟩⟩
  | node :: rest, state => by
    intro served standing sound
    have first := walked_expandNode clear expands below reaches node state
    rw [expandNodes] at served ⊢
    cases expanded : expandNode settings view deeper path node state with
    | mk result failure middle =>
      rw [expanded] at first served
      cases failure with
      | some =>
        obtain ⟨straight, -⟩ := first served standing sound.head
        exact ⟨straight, fun ended => by cases ended⟩
      | none =>
        have onward : Follows settings middle (expandNodes settings view deeper path rest middle).state :=
          (expands_expandNodes expands path rest middle).follows
        obtain ⟨standingThen, soundFirst⟩ := (first (served.before onward.changes) standing sound.head).done rfl
        have walked := walked_expandNodes clear expands below reaches rest middle served standingThen sound.tail
        exact walked.map fun nodes soundNodes => soundFirst.cons soundNodes

end

end

end Resolving
end Requirements
