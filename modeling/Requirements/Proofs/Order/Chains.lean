import Requirements.Proofs.Order.Forms

/-! Chains that a run resolves are the chains that the declarations determine. -/
namespace Requirements
namespace Resolving

open Resolution World

variable {settings : Settings} {world : World} {authored : Document} {reports : List Report}
  {start final : Resolution} {count : Nat}

/-- What a run follows from an element is the element's chain. -/
theorem chainFrom_chainOf (regular : world.Regular reports) {origin : Element} {steps : Nat}
    {visited : List Element.Key} {names : List String} {current : Place} {element declared : Element}
    {places : List Place}
    (ran : chainFrom settings origin steps visited names current element start = .ok places final)
    (fits : world.Fits authored reports final) (drawn : world.Drawn start)
    (stands : start.project.element? current = some element)
    (here : start.declaredAt? authored current = some declared) (isDeclared : world.Declares declared)
    (alike : declared.outline = element.outline) (seen : declared.key ∈ visited)
    {source : Element} (ofSource : world.Declares source) (sameSource : source.outline = origin.outline)
    (sameKinds : source.kind.related = declared.kind.related) :
    world.ChainOf declared (final.declaredLayers authored places) := by
  induction steps generalizing visited names current element declared start places with
  | zero => exact absurd ran throw_ok
  | succ steps ih =>
    rw [chainFrom] at ran
    cases refers : element.ancestor with
    | none =>
      simp only [refers] at ran
      obtain ⟨rfl, rfl⟩ := pure_ok.mp ran
      apply ChainOf.last
      rintro other _ ⟨reference, refersDeclared, -⟩
      rw [Element.ancestor_eq alike, refers] at refersDeclared
      cases refersDeclared
    | some reference =>
      simp only [refers] at ran
      obtain ⟨answer, middle, resolved, ran⟩ := bind_ok.mp ran
      obtain ⟨grows, known⟩ := resolve_ok resolved (by simp [stands])
      have refersDeclared := (Element.ancestor_eq alike).trans refers
      have stillHere := declaredAt?_extends grows.extends stands here
      cases answer with
      | none =>
        obtain ⟨_, _, reported, ran⟩ := bind_ok.mp ran
        obtain rfl := report_ok.mp reported
        obtain ⟨rfl, rfl⟩ := pure_ok.mp ran
        have missed : world.Missed reports declared.kind.related reference := by
          rw [← sameKinds]
          apply Missed.ancestor ofSource
          apply fits.reported
          exact mem_report (Finding.ancestorMissing reference) sameSource middle
        rw [← Element.kind_eq alike] at known
        exact (fits.before (grows_report _).extends).last regular stillHere refersDeclared known missed
      | some found =>
        obtain ⟨place, ancestor⟩ := found
        dsimp only at ran
        split at ran
        next => exact absurd ran throw_ok
        next fresh =>
          obtain ⟨rest, _, climbed, ran⟩ := bind_ok.mp ran
          obtain ⟨rfl, rfl⟩ := pure_ok.mp ran
          obtain ⟨standsAncestor, -, designated⟩ := known?_some known
          have onward := (chainFrom_ok climbed standsAncestor).1
          have fitsMiddle := fits.before onward.extends
          have drawnMiddle := drawn.grows grows fitsMiddle
          obtain ⟨above, thereAbove, alikeAbove⟩ := fitsMiddle.declaredAt? standsAncestor
          have declaredAbove := fitsMiddle.declares drawnMiddle thereAbove
          have points : declared.PointsAt above := by
            refine ⟨reference, refersDeclared, ?_⟩
            rwa [Element.kind_eq alike, Element.isDesignated_of_outline alikeAbove]
          have differs : above.key ≠ declared.key := by
            intro same
            rw [← same, Element.key_eq alikeAbove] at seen
            exact fresh (by simpa using seen)
          have apart := regular.apart isDeclared declaredAbove points differs
          have sameKindsAbove := sameKinds.trans points.related_eq.symm
          have behind := ih climbed drawnMiddle standsAncestor thereAbove declaredAbove alikeAbove
            (by simp [Element.key_eq alikeAbove]) sameKindsAbove
          have thereFinal := declaredAt?_extends onward.extends standsAncestor thereAbove
          rw [declaredLayers, List.filterMap_cons, thereFinal]
          exact .step declaredAbove points apart behind

theorem chain_chainOf (regular : world.Regular reports) {place : Place} {element declared : Element}
    {places : List Place} (ran : chain settings place element start = .ok places final)
    (fits : world.Fits authored reports final) (drawn : world.Drawn start)
    (stands : start.project.element? place = some element)
    (here : start.declaredAt? authored place = some declared) :
    world.Declares declared ∧ world.ChainOf declared (final.declaredLayers authored places) := by
  have grows := (chain_ok ran stands).1
  have fitsStart := fits.before grows.extends
  have isDeclared := fitsStart.declares drawn here
  obtain ⟨other, hereOther, alike⟩ := fitsStart.declaredAt? stands
  obtain rfl := Option.some.inj (here.symm.trans hereOther)
  rw [chain] at ran
  obtain ⟨_, _, got, ran⟩ := bind_ok.mp ran
  obtain ⟨rfl, rfl⟩ := get_ok.mp got
  exact ⟨isDeclared, chainFrom_chainOf regular ran fits drawn stands here isDeclared alike
    (by simp [Element.key_eq alike]) isDeclared alike rfl⟩

/-- In its turn an authored element follows its chain. -/
theorem turn_chainOf (regular : world.Regular reports)
    (ran : (List.range count).forM (withAuthored (resolveLineage settings)) start = .ok () final)
    (fits : world.Fits start.project.authored reports final)
    (fresh : start.project.dependencies.elements = []) {index : Nat} (earlier : index < count)
    {element : Element} (stands : start.project.authored.elements[index]? = some element)
    {places : List Place} (turn : turnChain? settings start index = some places) :
    world.ChainOf element.uncounted (final.declaredLayers start.project.authored places) := by
  obtain ⟨before, next, rest, first, ran, others, -⟩ := reached_turn ran earlier
  have onward : Extends next final :=
    forM_ok (R := Extends) .refl .trans (fun _ _ _ _ turn => extends_lineageTurn turn) others
  have fitsNext := fits.before onward
  have fitsBefore := fitsNext.before (extends_lineageTurn ran)
  have inherited := inherited_turns fresh first (fitsBefore.authoredDistinct regular)
    (fitsBefore.readDistinct regular)
  obtain ⟨own, standsBefore, -⟩ := inherited.extended.later stands
  rcases withAuthored_ok.mp ran with ⟨absent, -⟩ | ⟨own', present, ran⟩
  · change before.project.authored.elements[index]? = none at absent
    rw [standsBefore] at absent
    cases absent
  · obtain ⟨places', after, climbed, grew⟩ := resolveLineage_ok ran present
    obtain rfl := Option.some.inj (turn.symm.trans (turnChain?_eq_some first present climbed))
    have took := extends_modifyAuthored
      (fun own => Element.outline_foldl_inherit own (places.filterMap after.project.element?)) after index
    have fromAfter := (took.trans grew.extends).trans onward
    have drawn : world.Drawn before := by
      intro dependency member
      obtain ⟨declared, read, same⟩ := inherited.declared dependency member
      exact same ▸ fitsBefore.read declared read
    have here : before.declaredAt? start.project.authored (.authored index) = some element.uncounted :=
      congrArg (Option.map Element.uncounted) stands
    have chain := (chain_chainOf regular climbed (fits.before fromAfter) drawn present here).2
    rwa [fromAfter.declaredLayers (chain_ok climbed present).2.1.climbs]

/-- After the ancestors every authored element is what the declarations make of it. -/
theorem merged_of_lineages (regular : world.Regular reports)
    (ran : overAuthored (resolveLineage settings) start = .ok () final)
    (fits : world.Fits start.project.authored reports final)
    (fresh : start.project.dependencies.elements = []) :
    world.Drawn final ∧ Formed world.Merged start.project.authored final := by
  have turns := overAuthored_ok.mp ran
  have inherited := inherited_turns fresh turns (fits.authoredDistinct regular) (fits.readDistinct regular)
  refine ⟨fun dependency member => ?_, fun index element stands => ?_⟩
  · obtain ⟨declared, read, same⟩ := inherited.declared dependency member
    exact same ▸ fits.read declared read
  · have inside := (List.getElem?_eq_some_iff.mp stands).1
    obtain ⟨places, turn, -, holds⟩ := inherited.merged index inside element stands
    have chain := turn_chainOf regular turns fits fresh inside stands turn
    exact ⟨_, ⟨_, chain, rfl⟩, holds⟩

end Resolving
end Requirements
