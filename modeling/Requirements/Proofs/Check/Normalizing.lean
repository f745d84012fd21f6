import Requirements.Check.Normalize
import Requirements.Proofs.Check.Lineage
import Requirements.Proofs.Document.Naming

/-! References to ancestors when the lead application takes its normal form. Its name changes and the
references stay as they are written. So a reference leads to another element afterwards exactly if it
was to the lead application by a lowercase name, or if it meets the new name before what it led to. -/
namespace Requirements

/-! ### Capitals -/

/-- No character of ASCII before the small letters is lowercase. -/
theorem toNat_of_isLowercase {c : Char} (lower : isLowercase c) : 0x61 ≤ c.toNat := by
  have least : ∀ run ∈ lowercaseRuns, 0x61 ≤ run.1 := by decide +kernel
  obtain ⟨run, isRun, inside⟩ := List.any_eq_true.mp lower
  have starts : run.1 ≤ c.toNat := by
    simp only [inRun, Bool.and_eq_true, decide_eq_true_eq] at inside
    exact inside.1.1
  exact (least run isRun).trans starts

theorem uppercase_of_letter {c : Char} (above : 0x61 ≤ c.toNat) (below : c.toNat ≤ 0x7A) :
    uppercase c = [Char.ofNat (c.toNat - 32)] := by
  have beyond : ∀ entry ∈ uppercaseSequences, 0x7A < entry.1 := by decide
  have single : uppercaseSequences.lookup c.toNat = none := by
    refine List.lookup_eq_none_iff.mpr fun entry isEntry => ?_
    have := beyond entry isEntry
    simp only [bne_iff_ne, ne_eq]
    omega
  have found : uppercaseRuns.find? (fun run => inRun c.toNat run.1 run.2.1 run.2.2.1) =
      some (0x61, 0x7A, 1, -32) := by
    rw [uppercaseRuns, List.find?_cons_of_pos]
    simp [inRun, above, below, Nat.mod_one]
  rw [uppercase, single]
  dsimp only
  rw [found]
  dsimp only
  congr 2
  omega

/-- The capital of a word's small letter is no small letter. -/
theorem startsLowercase_withCapital {text : String} (words : ∀ c ∈ text.toList, isWordChar c)
    (lower : startsLowercase text) : ¬startsLowercase (withCapital text) := by
  cases letters : text.toList with
  | nil => simp [startsLowercase, letters] at lower
  | cons c rest =>
    have isLower : isLowercase c := by simpa [startsLowercase, letters] using lower
    have above := toNat_of_isLowercase isLower
    have below : c.toNat ≤ 0x7A := by
      have word := words c (by simp [letters])
      simp only [isWordChar, isWordStart, isDigitChar, Bool.or_eq_true, Bool.and_eq_true, decide_eq_true_eq,
        beq_iff_eq, Char.le_def, UInt32.le_iff_toNat_le] at word
      rcases word with ((word | word) | rfl) | word
      · exact word.2
      · exact word.2.trans (by decide)
      · decide
      · exact word.2.trans (by decide)
    have small : (Char.ofNat (c.toNat - 32)).toNat = c.toNat - 32 := by
      rw [Char.ofNat, dif_pos (.inl (by omega))]
      rfl
    have capital : (withCapital text).toList = Char.ofNat (c.toNat - 32) :: rest := by
      rw [withCapital, letters]
      dsimp only
      rw [uppercase_of_letter above below, String.toList_ofList]
      rfl
    rw [startsLowercase, capital]
    intro lowerStill
    have bound := toNat_of_isLowercase lowerStill
    omega

/-! ### Elements -/

namespace Element

variable {settings : Settings} {element : Element}

/-- The id in a name that was read is a word. -/
theorem IsRead.isWordChar_id (isRead : element.IsRead) : ∀ c ∈ element.name.id.toList, isWordChar c := by
  intro c inside
  obtain ⟨file, wellFormed⟩ := isRead.wellFormed
  have inText : c ∈ element.name.text.toList := by
    rw [QualifiedName.text]
    cases element.name.domain <;> simp [inside]
  rcases wellFormed.name.isName.mem inText with word | rfl
  · exact word
  · exact absurd inside wellFormed.name.dotless

@[simp] theorem kind_normalized : (element.normalized settings).1.kind = element.kind := rfl

theorem ancestor_normalized {reference : QualifiedName} (refers : element.ancestor = some reference) :
    (element.normalized settings).1.ancestor = some reference := by
  rw [normalized, refers]
  rfl

theorem normalized_of_complete (capital : ¬startsLowercase element.name.id) {domain : String}
    (within : element.name.domain = some domain) {reference : QualifiedName}
    (refers : element.ancestor = some reference) : (element.normalized settings).1 = element := by
  obtain ⟨kind, ⟨id, own⟩, ancestor⟩ := element
  cases within
  cases refers
  simp [normalized, capital]

/-- A normal form is its own. -/
theorem normalized_normalized (isRead : element.IsRead) :
    ((element.normalized settings).1.normalized settings).1 = (element.normalized settings).1 := by
  have capital : ¬startsLowercase (element.normalized settings).1.name.id := by
    by_cases lower : startsLowercase element.name.id
    · simpa [normalized, lower] using startsLowercase_withCapital isRead.isWordChar_id lower
    · simp [normalized, lower]
  exact normalized_of_complete capital rfl rfl

/-- A reference that designates the element designates its normal form, unless the name began lowercase. -/
theorem isDesignated_normalized (isRead : element.IsRead) {kinds : List ElementKind} {reference : QualifiedName}
    (designated : element.isDesignated kinds reference) :
    (element.normalized settings).1.isDesignated kinds reference ↔ ¬startsLowercase element.name.id := by
  obtain ⟨ofKind, designates⟩ := Bool.and_eq_true_iff.mp designated
  rw [QualifiedName.designates, Bool.and_eq_true_iff, beq_iff_eq] at designates
  obtain ⟨sameId, within⟩ := designates
  constructor
  · intro still lower
    have sameIdThen : reference.id = withCapital element.name.id := by
      have := (Bool.and_eq_true_iff.mp (Bool.and_eq_true_iff.mp still).2).1
      simpa [normalized, lower] using this
    have capital := startsLowercase_withCapital isRead.isWordChar_id lower
    rw [← sameIdThen, sameId] at capital
    exact capital lower
  · intro capital
    have sameName : reference.designates (element.normalized settings).1.name := by
      rw [normalized]
      dsimp only
      rw [if_neg capital, QualifiedName.designates, sameId, beq_self_eq_true, Bool.true_and]
      cases own : reference.domain with
      | none => rfl
      | some domain =>
        rw [own] at within
        rw [← eq_of_beq within]
        simp
    rw [isDesignated, kind_normalized, ofKind, sameName]
    rfl

end Element

/-! ### Documents -/

namespace Document

variable {settings : Settings} {authored : Document}

/-- The lead application is in normal form, and the other elements are as they were. -/
theorem getElem?_normalized (settings : Settings) (authored : Document) (index : Nat) :
    (authored.normalized settings).1.elements[index]? =
      if authored.leadIndex? = some index then
        authored.elements[index]?.map fun element => (element.normalized settings).1
      else authored.elements[index]? := by
  rw [normalized]
  cases leads : authored.leadIndex? with
  | none => simp
  | some lead =>
    cases stands : authored.elements[lead]? with
    | none =>
      by_cases same : lead = index
      · subst same
        simp [stands]
      · simp [stands, same]
    | some application =>
      by_cases same : lead = index
      · subst same
        simp [stands, getElem?_modify]
      · simp [stands, getElem?_modify, same]

theorem domain_normalized (settings : Settings) (authored : Document) :
    (authored.normalized settings).1.domain = authored.domain := by
  rw [normalized]
  split <;> rfl

/-- The kinds tell which application leads. -/
theorem leadIndex?_congr {first second : Document}
    (same : first.elements.map Element.kind = second.elements.map Element.kind) :
    first.leadIndex? = second.leadIndex? := by
  have form (document : Document) :
      document.leadIndex? = (document.elements.map Element.kind).findIdx? (· == .application) := by
    rw [leadIndex?, List.findIdx?_map]
    rfl
  rw [form, form, same]

theorem leadIndex?_normalized (settings : Settings) (authored : Document) :
    (authored.normalized settings).1.leadIndex? = authored.leadIndex? := by
  refine leadIndex?_congr (List.ext_getElem? fun index => ?_)
  rw [List.getElem?_map, List.getElem?_map, getElem?_normalized]
  split
  · simp [Function.comp_def]
  · rfl

/-- Normalizing again changes nothing. -/
theorem normalized_normalized (isRead : ∀ element ∈ authored.elements, element.IsRead) :
    ((authored.normalized settings).1.normalized settings).1 = (authored.normalized settings).1 := by
  have sameElements : ((authored.normalized settings).1.normalized settings).1.elements =
      (authored.normalized settings).1.elements := by
    refine List.ext_getElem? fun index => ?_
    rw [getElem?_normalized, leadIndex?_normalized, getElem?_normalized]
    split
    next leads =>
      cases stands : authored.elements[index]? with
      | none => rfl
      | some element =>
        exact congrArg some (Element.normalized_normalized (isRead element (List.mem_of_getElem? stands)))
    next => rfl
  have sameDomain := domain_normalized settings (authored.normalized settings).1
  generalize ((authored.normalized settings).1.normalized settings).1 = twice at *
  generalize (authored.normalized settings).1 = once at *
  cases twice
  cases once
  cases sameElements
  cases sameDomain
  rfl

/-- The element refers to an ancestor, and the first other element that this designates is the one found. -/
structure Derives (document : Document) (asker target : Nat) (element found : Element)
    (reference : QualifiedName) : Prop where
  asks : document.elements[asker]? = some element
  refers : element.ancestor = some reference
  stands : document.elements[target]? = some found
  other : target ≠ asker
  designated : found.isDesignated element.kind.related reference
  first : ∀ index < target, index ≠ asker → ∀ before, document.elements[index]? = some before →
    ¬before.isDesignated element.kind.related reference

def ancestorIndex? (document : Document) (asker : Nat) : Option Nat :=
  document.elements[asker]?.bind fun element => element.ancestor.bind fun reference =>
    (List.range document.elements.length).find? fun index =>
      index != asker && (document.elements[index]?).any (·.isDesignated element.kind.related reference)

theorem ancestorIndex?_eq_some {document : Document} {asker target : Nat} :
    document.ancestorIndex? asker = some target ↔
      ∃ element found reference, document.Derives asker target element found reference := by
  simp only [ancestorIndex?, Option.bind_eq_some_iff, List.find?_range_eq_some, Bool.and_eq_true, bne_iff_ne,
    Option.any_eq_true, Bool.not_eq_true', Bool.and_eq_false_iff, bne_eq_false_iff_eq]
  constructor
  · rintro ⟨element, asks, reference, refers, ⟨other, found, stands, designated⟩, -, none⟩
    refine ⟨element, found, reference, asks, refers, stands, other, designated, ?_⟩
    intro index before apart unlike standsBefore designatedToo
    rcases none index before with same | absent
    · exact apart same
    · rw [standsBefore] at absent
      exact absurd designatedToo (by simpa using absent)
  · rintro ⟨element, found, reference, derives⟩
    have inside : target < document.elements.length := (List.getElem?_eq_some_iff.mp derives.stands).1
    refine ⟨element, derives.asks, reference, derives.refers, ⟨derives.other, found, derives.stands,
      derives.designated⟩, List.mem_range.mpr inside, fun index before => ?_⟩
    by_cases apart : index = asker
    · exact .inl apart
    · refine .inr ?_
      cases stands : document.elements[index]? with
      | none => rfl
      | some other => simpa using derives.first index before apart other stands

theorem known?_eq_some_iff {state : Resolution} {asker target : Nat} {element found : Element}
    {reference : QualifiedName} (asks : state.project.authored.elements[asker]? = some element)
    (refers : element.ancestor = some reference) :
    state.known? element.kind.related reference (some (.authored asker)) = some (.authored target, found) ↔
      state.project.authored.Derives asker target element found reference := by
  rw [Resolution.known?, find?_eq_some_of_pairwise (fun _ _ => Place.PlacedBefore.asymm) state.project.pairwise_placed,
    Project.mem_placed]
  simp only [Bool.and_eq_true, bne_iff_ne, ne_eq, Option.some.injEq, Place.authored.injEq, Prod.forall,
    Project.mem_placed]
  constructor
  · rintro ⟨stands, ⟨other, designated⟩, first⟩
    refine ⟨asks, refers, stands, other, designated, fun index before apart unlike standsBefore isDesignated => ?_⟩
    exact first (.authored index) unlike standsBefore before ⟨by simpa using apart, isDesignated⟩
  · intro derives
    refine ⟨derives.stands, ⟨derives.other, derives.designated⟩, ?_⟩
    rintro (index | index) unlike standsBefore before ⟨apart, isDesignated⟩
    · exact derives.first index before (by simpa using apart) unlike standsBefore isDesignated
    · cases before

/-- Where the reference leads within the document is where it is resolved to, whatever else is known. -/
theorem ancestorIndex?_eq_some_iff_known? {state : Resolution} {asker target : Nat} {element : Element}
    {reference : QualifiedName} (asks : state.project.authored.elements[asker]? = some element)
    (refers : element.ancestor = some reference) : state.project.authored.ancestorIndex? asker = some target ↔
      ∃ found, state.known? element.kind.related reference (some (.authored asker)) =
        some (.authored target, found) := by
  rw [ancestorIndex?_eq_some]
  constructor
  · rintro ⟨own, found, written, derives⟩
    obtain rfl := Option.some.inj (asks.symm.trans derives.asks)
    obtain rfl := Option.some.inj (refers.symm.trans derives.refers)
    exact ⟨found, (known?_eq_some_iff asks refers).mpr derives⟩
  · rintro ⟨found, known⟩
    exact ⟨element, found, reference, (known?_eq_some_iff asks refers).mp known⟩

/-- The lead application has lost the lowercase name by which it was designated. -/
def Renamed (authored : Document) (target : Nat) : Prop :=
  ∃ application, authored.leadIndex? = some target ∧ authored.elements[target]? = some application ∧
    startsLowercase application.name.id

/-- The lead application stands before what was designated, and its new name is designated too. -/
def Overtaken (settings : Settings) (authored : Document) (asker target : Nat) : Prop :=
  ∃ lead element application reference, authored.leadIndex? = some lead ∧ lead < target ∧ lead ≠ asker ∧
    authored.elements[asker]? = some element ∧ element.ancestor = some reference ∧
    authored.elements[lead]? = some application ∧
    (application.normalized settings).1.isDesignated element.kind.related reference

/-- In the normal form an element has its kind and refers as before. -/
theorem asks_normalized {asker : Nat} {element : Element} {reference : QualifiedName} (settings : Settings)
    (asks : authored.elements[asker]? = some element) (refers : element.ancestor = some reference) :
    ∃ now, (authored.normalized settings).1.elements[asker]? = some now ∧ now.kind = element.kind ∧
      now.ancestor = some reference := by
  rw [getElem?_normalized, asks]
  split
  · exact ⟨_, rfl, rfl, Element.ancestor_normalized refers⟩
  · exact ⟨_, rfl, rfl, refers⟩

theorem ancestorIndex?_normalized (isRead : ∀ element ∈ authored.elements, element.IsRead) {asker target : Nat}
    (leads : authored.ancestorIndex? asker = some target) :
    (authored.normalized settings).1.ancestorIndex? asker = some target ↔
      ¬authored.Renamed target ∧ ¬authored.Overtaken settings asker target := by
  obtain ⟨element, found, reference, derives⟩ := ancestorIndex?_eq_some.mp leads
  obtain ⟨now, asks, sameKind, refers⟩ := asks_normalized settings derives.asks derives.refers
  have isReadFound : found.IsRead := isRead found (List.mem_of_getElem? derives.stands)
  rw [ancestorIndex?_eq_some]
  constructor
  · rintro ⟨asker', found', reference', derivesNow⟩
    obtain rfl := Option.some.inj (asks.symm.trans derivesNow.asks)
    obtain rfl := Option.some.inj (refers.symm.trans derivesNow.refers)
    have designatedNow := derivesNow.designated
    rw [sameKind] at designatedNow
    refine ⟨?_, ?_⟩
    · rintro ⟨application, isLead, stands, lower⟩
      obtain rfl := Option.some.inj (derives.stands.symm.trans stands)
      have standsNow := derivesNow.stands
      rw [getElem?_normalized, if_pos isLead, stands] at standsNow
      obtain rfl := Option.some.inj standsNow
      exact (Element.isDesignated_normalized isReadFound derives.designated).mp designatedNow lower
    · rintro ⟨lead, own, application, referenceToo, isLead, before, apart, asksToo, refersToo, stands, designated⟩
      obtain rfl := Option.some.inj (derives.asks.symm.trans asksToo)
      obtain rfl := Option.some.inj (derives.refers.symm.trans refersToo)
      refine derivesNow.first lead before apart (application.normalized settings).1 ?_ (sameKind ▸ designated)
      rw [getElem?_normalized, if_pos isLead, stands]
      rfl
  · rintro ⟨notRenamed, notOvertaken⟩
    obtain ⟨foundNow, standsNow, designated⟩ : ∃ foundNow,
        (authored.normalized settings).1.elements[target]? = some foundNow ∧
          foundNow.isDesignated element.kind.related reference := by
      rw [getElem?_normalized, derives.stands]
      split
      next isLead =>
        have capital : ¬startsLowercase found.name.id :=
          fun lower => notRenamed ⟨found, isLead, derives.stands, lower⟩
        exact ⟨_, rfl, (Element.isDesignated_normalized isReadFound derives.designated).mpr capital⟩
      next => exact ⟨_, rfl, derives.designated⟩
    refine ⟨now, foundNow, reference, asks, refers, standsNow, derives.other, sameKind ▸ designated, ?_⟩
    intro index before apart unlike standsBefore designatedToo
    rw [sameKind] at designatedToo
    rw [getElem?_normalized] at standsBefore
    split at standsBefore
    next isLead =>
      obtain ⟨application, stands, rfl⟩ := Option.map_eq_some_iff.mp standsBefore
      exact notOvertaken ⟨index, element, application, reference, isLead, before, apart, derives.asks, derives.refers,
        stands, designatedToo⟩
    next => exact derives.first index before apart unlike standsBefore designatedToo

/-- What a reference to an ancestor leads to among the authored elements is what it leads to when the lead
application is in normal form, unless it was this one, by a lowercase name, or this one stands before it
and is designated by its new name. Normalizing again changes nothing. -/
theorem ancestors_of_normalized (settings : Settings) {authored : Document}
    (isRead : ∀ element ∈ authored.elements, element.IsRead) :
    (∀ asker target, authored.ancestorIndex? asker = some target →
      ((authored.normalized settings).1.ancestorIndex? asker = some target ↔
        ¬authored.Renamed target ∧ ¬authored.Overtaken settings asker target)) ∧
    ((authored.normalized settings).1.normalized settings).1 = (authored.normalized settings).1 :=
  ⟨fun _ _ leads => ancestorIndex?_normalized isRead leads, normalized_normalized isRead⟩

def shopsText : String :=
  "application shop; application Shop; application Web from Shop; application Till from shop; class A; class B from A;"

def shops : Document := ((parse shopsText "shop.reqm").toOption).getD {}

theorem isRead_shops : ∀ element ∈ shops.elements, element.IsRead := by
  have isOk : (parse shopsText "shop.reqm").isOk := by decide +kernel
  intro element member
  rw [shops] at member
  cases parsed : parse shopsText "shop.reqm" with
  | error => simp [parsed, Except.isOk, Except.toBool] at isOk
  | ok document =>
    rw [parsed] at member
    exact isRead_of_parse parsed member

/-- The class keeps its ancestor. The lead application takes the place of another for one reference and loses
the other one. -/
theorem ancestors_of_normalized_shops :
    [2, 3, 5].map shops.ancestorIndex? = [some 1, some 0, some 4] ∧
    [2, 3, 5].map (shops.normalized {}).1.ancestorIndex? = [some 0, none, some 4] ∧
    shops.Overtaken {} 2 1 ∧ shops.Renamed 0 ∧ ¬shops.Renamed 4 ∧ ¬shops.Overtaken {} 5 4 ∧
    ((shops.normalized {}).1.normalized {}).1 = (shops.normalized {}).1 := by
  have ⟨authored, normal, isLead⟩ : [2, 3, 5].map shops.ancestorIndex? = [some 1, some 0, some 4] ∧
      [2, 3, 5].map (shops.normalized {}).1.ancestorIndex? = [some 0, none, some 4] ∧
      shops.leadIndex? = some 0 := by decide +kernel
  obtain ⟨kept, again⟩ := ancestors_of_normalized {} isRead_shops
  simp only [List.map_cons, List.map_nil, List.cons.injEq, and_true] at authored normal
  obtain ⟨web, till, book⟩ := authored
  obtain ⟨webNow, tillNow, bookNow⟩ := normal
  have overtaken : shops.Overtaken {} 2 1 := by
    by_contra notOvertaken
    have same := (kept 2 1 web).mpr ⟨fun renamed => ?_, notOvertaken⟩
    · simp [webNow] at same
    · obtain ⟨_, leads, -⟩ := renamed
      simp [isLead] at leads
  have renamed : shops.Renamed 0 := by
    by_contra notRenamed
    have same := (kept 3 0 till).mpr ⟨notRenamed, fun overtaken => ?_⟩
    · simp [tillNow] at same
    · obtain ⟨lead, _, _, _, -, before, -⟩ := overtaken
      omega
  obtain ⟨notRenamed, notOvertaken⟩ := (kept 5 4 book).mp bookNow
  simp only [List.map_cons, List.map_nil, web, till, book, webNow, tillNow, bookNow, true_and]
  exact ⟨overtaken, renamed, notRenamed, notOvertaken, again⟩

/-- The application loses its ancestor, whose name begins with a capital from then on. -/
theorem ancestor_lost_of_normalized : ∃ authored,
    parse "application shop; application Web from shop;" "shop.reqm" = .ok authored ∧
      authored.ancestorIndex? 1 = some 0 ∧ (authored.normalized {}).1.ancestorIndex? 1 ≠ some 0 :=
  ⟨_, rfl, by decide +kernel, by decide +kernel⟩

end Document

end Requirements
