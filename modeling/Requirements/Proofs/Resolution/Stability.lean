import Requirements.Proofs.Repository.Maintained
import Requirements.Proofs.Resolution.Drawn
import Requirements.Proofs.Resolution.Precedence

/-! Resolving a reference again. A place that a reference led to is where it leads from then on, since
nothing comes to stand before it. What no index told of is in no document either, so that a reference
which led nowhere leads nowhere, until a placeholder stands in for an action of its name. -/
namespace Requirements

/-- What is designated under some kinds is designated under its own. -/
theorem Element.isDesignated_alone {kinds : List ElementKind} {reference : QualifiedName} {element : Element}
    (designated : element.isDesignated kinds reference) :
    element.kind ∈ kinds ∧ element.isDesignated [element.kind] reference := by
  simp only [isDesignated, Bool.and_eq_true, List.contains_iff_mem] at designated ⊢
  exact ⟨designated.1, by simp, designated.2⟩

namespace Workspace

variable {settings : Settings} {start final : Workspace}

/-- What is loaded is what the documents give. -/
theorem Faithful.indexed (faithful : start.Faithful settings) (loaded : start.IsLoaded) :
    start.catalogue.repositories = start.catalogue.repositories.map (Repository.indexed settings start.disk) :=
  faithful.agrees _ _ (Repository.loadEach_of_folders loaded.folders _)

theorem Faithful.find (faithful : start.Faithful settings) {kind : ReferenceKind} {id : String}
    {domain : Option String} {hits : List Hit} (ran : find settings kind id domain start = .ok hits final) :
    final.Faithful settings := by
  have inOrder := faithful.inOrder.find ran
  obtain ⟨isLoaded, -⟩ := find_ok ran
  obtain ⟨-, repositories, disk, loads, rfl, -⟩ := find_eq_ok.mp ran
  have gave := faithful.agrees repositories disk loads
  refine ⟨inOrder, fun repository member => ?_, fun others other again => ?_⟩
  · change repository ∈ repositories at member
    rw [gave] at member
    obtain ⟨own, isOwn, rfl⟩ := List.mem_map.mp member
    exact faithful.outside own isOwn
  · obtain ⟨rfl, ended⟩ := Prod.mk.inj ((Repository.loadEach_of_folders isLoaded.folders disk).symm.trans again)
    obtain ⟨rfl, -⟩ := Prod.mk.inj ended
    change repositories = repositories.map _
    rw [gave, List.map_map]
    rfl

theorem Faithful.searches (faithful : start.Faithful settings)
    (searched : Relation.ReflTransGen (Searches settings) start final) : final.Faithful settings := by
  induction searched with
  | refl => exact faithful
  | tail _ search ih =>
    obtain ⟨_, _, _, _, ran⟩ := search
    exact ih.find ran

/-- What a document of a repository declares is found under every reference that designates it. -/
theorem Faithful.exists_hit (faithful : start.Faithful settings) (loaded : start.IsLoaded) {path : Path}
    (holds : start.Holds settings path) {kind : ElementKind} {name : QualifiedName}
    (declares : start.disk.Declares path kind name) {reference : QualifiedName}
    (designates : reference.designates name) :
    ∃ hit ∈ start.catalogue.hits (.element kind) (soughtName reference.id reference.domain),
      hit.repository ≠ .project ∧ start.disk.Declares hit.path kind name := by
  obtain ⟨repository, isRepository, folder, isFolder, isDocument⟩ := holds
  have sound := faithful.inOrder.sound
  have indexed := faithful.indexed loaded
  rw [indexed] at isRepository
  obtain ⟨own, isOwn, rfl⟩ := List.mem_map.mp isRepository
  obtain ⟨hit, isIn, rfl⟩ := ((Repository.answers_of_sound sound own.kind folder).names name).mpr
    ⟨designates, path, mem_sortedBy.mpr isDocument, declares⟩
  have ofOwn : hit ∈ (own.indexed settings start.disk).hits (.element kind) reference := by
    rw [Repository.hits_indexed]
    exact List.mem_flatMap.mpr ⟨folder, isFolder, isIn⟩
  obtain ⟨source, declaresToo, -⟩ := Repository.declares_of_mem_hits sound ofOwn
  -- A reference with a dot in its id designates nothing, so that this one is sought as it is.
  have dotless : reference.Dotless := by
    rw [QualifiedName.designates, Bool.and_eq_true, beq_iff_eq] at designates
    rw [QualifiedName.Dotless, designates.1]
    exact declares.wellFormed.dotless
  refine ⟨hit, ?_, source ▸ faithful.outside own isOwn, declaresToo⟩
  rw [soughtName_of_dotless dotless]
  refine List.mem_append_right _ (List.mem_flatMap.mpr ⟨_, ?_, ofOwn⟩)
  rw [indexed]
  exact List.mem_map_of_mem isOwn

end Workspace

namespace Resolution

variable {settings : Settings} {start final : Resolution}

theorem Turn.extends (turn : Turn settings start final) : Extends start final := by
  cases turn with
  | reported entry => exact (Resolving.grows_report entry).extends
  | gained index keeps => exact extends_modifyAuthored keeps start index
  | stoodIn => exact extends_push _ start
  | resolved ran =>
    rcases Resolving.resolve_cases ran with ⟨place, element, -, -, rfl⟩ | ⟨-, found, middle, searched, ended⟩
    · exact (Resolving.grows_used start place).extends
    · have searches := (Resolving.findInRepositories_ok searched).1.grows.extends
      rcases ended with ⟨-, -, rfl⟩ | ⟨element, -, -, rfl⟩
      · exact searches
      · exact searches.trans (extends_push _ middle)

theorem Turns.extends (turns : Turns settings start final) : Extends start final := by
  induction turns with
  | refl => exact .refl start
  | tail _ turn ih => exact ih.trans turn.extends

end Resolution

namespace Resolving

open Resolution

variable {settings : Settings} {start final : Resolution} {kinds : List ElementKind} {kind : ElementKind}
  {reference : QualifiedName} {answer : Option Element}

theorem workspace_firstDeclared {hits : List Hit}
    (ran : firstDeclared kind reference hits start = .ok answer final) : final.workspace = start.workspace := by
  induction hits generalizing start with
  | nil =>
    obtain ⟨-, rfl⟩ := pure_ok.mp ran
    rfl
  | cons hit rest ih =>
    rw [firstDeclared] at ran
    split at ran
    next => exact ih ran
    next =>
      obtain ⟨document, middle, opened, ran⟩ := bind_ok.mp ran
      have same := workspace_documentOf opened
      cases found : document.elements.find? (·.isDesignated [kind] reference) with
      | some element =>
        rw [found] at ran
        obtain ⟨-, rfl⟩ := pure_ok.mp ran
        exact same
      | none =>
        rw [found] at ran
        exact (ih ran).trans same

/-- Looking for elements is searching in the workspace. -/
theorem searches_findInRepositories (ran : findInRepositories settings reference kinds start = .ok answer final) :
    Relation.ReflTransGen (Workspace.Searches settings) start.workspace final.workspace := by
  induction kinds generalizing start with
  | nil =>
    obtain ⟨-, rfl⟩ := pure_ok.mp ran
    exact .refl
  | cons kind rest ih =>
    rw [findInRepositories] at ran
    obtain ⟨hits, _, sought, ran⟩ := bind_ok.mp ran
    obtain ⟨workspace, found, rfl⟩ := search_ok.mp sought
    obtain ⟨first, middle, looked, ran⟩ := bind_ok.mp ran
    have same : middle.workspace = workspace := workspace_firstDeclared looked
    have search : Workspace.Searches settings start.workspace middle.workspace := ⟨_, _, _, hits, same ▸ found⟩
    cases first with
    | some =>
      obtain ⟨-, rfl⟩ := pure_ok.mp ran
      exact .single search
    | none => exact .head search (ih ran)

/-- What is not found was searched for under each kind. -/
theorem searched_of_findInRepositories
    (ran : findInRepositories settings reference kinds start = .ok none final) :
    ∀ kind ∈ kinds, final.Searched kind reference := by
  induction kinds generalizing start with
  | nil => simp
  | cons kind rest ih =>
    rw [findInRepositories] at ran
    obtain ⟨hits, found, sought, ran⟩ := bind_ok.mp ran
    obtain ⟨first, middle, looked, ran⟩ := bind_ok.mp ran
    cases first with
    | some => cases (pure_ok.mp ran).1
    | none =>
      have alone : findInRepositories settings reference [kind] start = .ok none middle :=
        bind_ok.mpr ⟨hits, found, sought, bind_ok.mpr ⟨none, middle, looked, rfl⟩⟩
      replace ran : findInRepositories settings reference rest middle = .ok none final := ran
      have onward : Follows settings middle (stateAfter _) := follows_findInRepositories reference rest middle
      rw [ran] at onward
      intro other member
      rcases List.mem_cons.mp member with rfl | behind
      · exact onward.changes.searched (searched_of_none alone)
      · exact ih ran other behind

/-- What was searched for in vain is not found again, and looking for it changes nothing. -/
theorem findInRepositories_of_searched (searched : ∀ kind ∈ kinds, start.Searched kind reference) :
    findInRepositories settings reference kinds start = .ok none start := by
  have looked : ∀ kind, ∀ hits : List Hit, (∀ hit ∈ hits, hit.repository ≠ .project →
      ∃ path document, (start.parsed.find? fun read => read.1.same hit.path) = some (path, document) ∧
        ∀ element ∈ document.elements, ¬element.isDesignated [kind] reference) →
      firstDeclared kind reference hits start = .ok none start := by
    intro kind hits nothing
    induction hits with
    | nil => rfl
    | cons hit rest ih =>
      have behind := ih fun other member => nothing other (by simp [member])
      rw [firstDeclared]
      split
      next => exact behind
      next outside =>
        obtain ⟨path, document, read, none⟩ := nothing hit (by simp) outside
        have opened : documentOf hit start = .ok document start := by
          simp only [documentOf, read]
        refine bind_ok.mpr ⟨document, start, opened, ?_⟩
        rw [List.find?_eq_none.mpr none]
        exact behind
  induction kinds with
  | nil => rfl
  | cons kind rest ih =>
    have here := searched kind (by simp)
    have behind := ih fun other member => searched other (by simp [member])
    have found : Workspace.find settings (.element kind) reference.id reference.domain start.workspace = .ok _ _ :=
      Workspace.find_of_loaded here.loaded ..
    rw [findInRepositories]
    refine bind_ok.mpr ⟨_, start, search_ok.mpr ⟨_, found, rfl⟩, ?_⟩
    exact bind_ok.mpr ⟨none, start, looked kind _ here.nothing, behind⟩

end Resolving

namespace Resolution

variable {settings : Settings} {start final : Resolution} {kind : ElementKind} {reference : QualifiedName}

theorem Turn.faithful (turn : Turn settings start final) (faithful : start.workspace.Faithful settings) :
    final.workspace.Faithful settings := by
  cases turn with
  | reported | gained | stoodIn => exact faithful
  | resolved ran =>
    rcases Resolving.resolve_cases ran with ⟨place, element, -, -, rfl⟩ | ⟨-, found, middle, looked, ended⟩
    · exact faithful
    · have faithfulThen := faithful.searches (Resolving.searches_findInRepositories looked)
      rcases ended with ⟨-, -, rfl⟩ | ⟨element, -, -, rfl⟩
      · exact faithfulThen
      · exact faithfulThen

theorem Turn.searched (turn : Turn settings start final) (searched : start.Searched kind reference) :
    final.Searched kind reference := by
  cases turn with
  | reported | gained | stoodIn => exact searched.later rfl List.prefix_rfl
  | resolved ran =>
    rename_i kinds sought asker answer _
    have follows : Follows settings start (stateAfter _) := Resolving.follows_resolve kinds sought asker start
    rw [ran] at follows
    exact follows.changes.searched searched

/-- Each dependency is an empty action, or it was read from a document. -/
def Originated (state : Resolution) : Prop :=
  ∀ index element, state.project.element? (.dependency index) = some element →
    element.uncounted = Element.emptyAction element.name ∨
      ∃ declared, state.Read declared ∧ declared.uncounted = element.uncounted

theorem Originated.push {state : Resolution} (originated : state.Originated) {added : Element}
    (origin : added.uncounted = Element.emptyAction added.name ∨
      ∃ declared, state.Read declared ∧ declared.uncounted = added.uncounted) : (state.push added).Originated := by
  intro index element stands
  rcases dependency_push stands with stood | ⟨-, rfl⟩
  · exact originated index element stood
  · exact origin

theorem Turn.originated (turn : Turn settings start final) (originated : start.Originated) : final.Originated := by
  cases turn with
  | reported | gained => exact originated
  | stoodIn => exact originated.push (.inl rfl)
  | resolved ran =>
    rcases Resolving.resolve_cases ran with ⟨place, element, -, -, rfl⟩ | ⟨-, found, middle, looked, ended⟩
    · intro index other stands
      obtain ⟨former, stood, same⟩ := dependency_used stands
      have sameName : former.name = other.name := (congrArg Element.name same :)
      have origin := originated index former stood
      rw [same, sameName] at origin
      exact origin
    · obtain ⟨searches, declared⟩ := Resolving.findInRepositories_ok looked
      have originatedThen : middle.Originated := by
        intro index element stands
        rw [searches.project] at stands
        exact (originated index element stands).imp_right fun ⟨declared, read, same⟩ =>
          ⟨declared, read.later searches.parsed, same⟩
      rcases ended with ⟨-, -, rfl⟩ | ⟨element, rfl, -, rfl⟩
      · exact originatedThen
      · exact originatedThen.push (.inr ⟨element, (declared element rfl).2, rfl⟩)

/-- No document that was read declares what was searched for in vain: the index of its folder would
have told of it. -/
theorem Searched.not_read {state : Resolution} (searched : state.Searched kind reference)
    (faithful : state.workspace.Faithful settings) (sourced : state.Sourced settings) {declared : Element}
    (read : state.Read declared) : ¬declared.isDesignated [kind] reference := by
  intro designated
  obtain ⟨path, document, isRead, inside⟩ := read
  obtain ⟨loaded, holds, parsed⟩ := sourced.read path document isRead
  have isKind := Element.kind_of_designated designated
  have designates : reference.designates declared.name := by
    rw [Element.isDesignated, Bool.and_eq_true] at designated
    exact designated.2
  have declares : state.workspace.disk.Declares path kind declared.name :=
    (Disk.declares_iff parsed).mpr ⟨declared, inside, isKind, rfl⟩
  obtain ⟨hit, member, outside, declaresToo⟩ := faithful.exists_hit loaded holds declares designates
  obtain ⟨other, there, found, nothing⟩ := searched.nothing hit member outside
  obtain ⟨-, -, parsedThere⟩ := sourced.read other there (List.mem_of_find?_eq_some found)
  have same : other.same hit.path := (List.find?_eq_some_iff_append.mp found).1
  have isFile : (state.workspace.disk.file? hit.path).isSome := by
    obtain ⟨read, parsedToo, -⟩ := declaresToo
    exact FolderIndex.isSome_file?_of_parses ⟨read, parsedToo⟩
  obtain ⟨element, isThere, sameKind, sameName⟩ :=
    (Disk.declares_iff (Disk.parse_of_same same parsedThere isFile)).mp declaresToo
  have alike : element.identity = declared.identity := Prod.ext (sameKind.trans isKind.symm) sameName
  exact nothing element isThere ((Element.isDesignated_of_identity alike _ _).trans designated)

/-- What holds wherever a run may come to from its start. -/
structure Grounded (settings : Settings) (state : Resolution) : Prop where
  faithful : state.workspace.Faithful settings
  sourced : state.Sourced settings
  originated : state.Originated

theorem grounded_of_turns {authored : Document} {workspace : Workspace} (faithful : workspace.Faithful settings)
    (turns : Turns settings { project := { authored }, workspace } final) : final.Grounded settings where
  faithful := by
    induction turns with
    | refl => exact faithful
    | tail _ turn ih => exact turn.faithful ih
  sourced := Turns.keep Turn.sourced turns ⟨faithful.inOrder, by simp⟩
  originated := Turns.keep Turn.originated turns fun index element stands => by simp [Project.element?] at stands

/-- A dependency that was searched for in vain stands in for an action. -/
theorem Grounded.empty_of_searched {state : Resolution} (grounded : state.Grounded settings)
    {kinds : List ElementKind} (searched : ∀ kind ∈ kinds, state.Searched kind reference) {index : Nat}
    {element : Element} (stands : state.project.element? (.dependency index) = some element)
    (designated : element.isDesignated kinds reference) : element.uncounted = Element.emptyAction element.name := by
  rcases grounded.originated index element stands with empty | ⟨declared, read, alike⟩
  · exact empty
  · have same : declared.identity = element.identity := (congrArg Element.identity alike :)
    rw [← Element.isDesignated_of_identity same] at designated
    obtain ⟨isKind, alone⟩ := Element.isDesignated_alone designated
    exact absurd alone ((searched _ isKind).not_read grounded.faithful grounded.sourced read)

/-- What is known only later is a dependency that was not there before. -/
theorem Extends.new_of_unknown (stays : Extends start final) {kinds : List ElementKind}
    (unknown : start.known? kinds reference none = none) {place : Place} {element : Element}
    (known : final.known? kinds reference none = some (place, element)) :
    ∃ index, place = .dependency index ∧ start.project.dependencies.elements.length ≤ index := by
  obtain ⟨stands, -, designated⟩ := known?_some known
  have none := known?_none.mp unknown
  cases place with
  | authored index =>
    obtain ⟨former, stood, alike⟩ := stays.former stands
    refine absurd ?_ (none (.authored index) former stood (by simp))
    rwa [Element.isDesignated_of_outline alike]
  | dependency index =>
    refine ⟨index, rfl, Nat.le_of_not_lt fun inside => ?_⟩
    have stood : start.project.element? (.dependency index) = some _ := List.getElem?_eq_getElem inside
    obtain ⟨now, standsNow, alike⟩ := stays.dependency stood
    obtain rfl := Option.some.inj (standsNow.symm.trans stands)
    refine none (.dependency index) _ stood (by simp) ?_
    rwa [← Element.isDesignated_of_outline (Element.outline_of_uncounted alike)]

/-- The element at the place has one use more, after one that stood there or that was read and came
behind the others, and nothing else in the project changed. -/
structure Counted (start final : Resolution) (place : Place) (element : Element) : Prop where
  stands : final.project.element? place = some element
  counted : ∃ former, (start.project.element? place = some former ∨
      place = .dependency start.project.dependencies.elements.length ∧ final.Read former) ∧
    element.uncounted = former.uncounted ∧ (former.uses < maxUses → element.uses = former.uses + 1) ∧
    (maxUses ≤ former.uses → element.uses = former.uses)
  others : ∀ other, other ≠ place → final.project.element? other = start.project.element? other
  domain : final.project.authored.domain = start.project.authored.domain
  length : final.project.authored.elements.length = start.project.authored.elements.length

end Resolution

namespace Resolving

open Resolution

variable {settings : Settings} {start final : Resolution} {kinds : List ElementKind} {reference : QualifiedName}
  {asker : Option Place} {place : Place} {element : Element}

theorem resolve_of_known (known : start.known? kinds reference asker = some (place, element)) :
    resolve settings kinds reference asker start = .ok (some (place, element.used))
      { start with project := start.project.modify Element.used place } := by
  refine bind_ok.mpr ⟨start, start, rfl, ?_⟩
  rw [known]
  rfl

theorem resolve_of_searched (unknown : start.known? kinds reference asker = none)
    (searched : ∀ kind ∈ kinds, start.Searched kind reference) :
    resolve settings kinds reference asker start = .ok none start := by
  refine bind_ok.mpr ⟨start, start, rfl, ?_⟩
  rw [unknown]
  exact bind_ok.mpr ⟨none, start, findInRepositories_of_searched searched, rfl⟩

theorem counted_used (former : Element) : former.used.uncounted = former.uncounted ∧
    (former.uses < maxUses → former.used.uses = former.uses + 1) ∧
    (maxUses ≤ former.uses → former.used.uses = former.uses) :=
  ⟨former.used_uncounted, fun room => if_pos room, fun full => if_neg (Nat.not_lt.mpr full)⟩

theorem counted_of_resolve (ran : resolve settings kinds reference asker start = .ok (some (place, element)) final) :
    Counted start final place element := by
  rcases resolve_cases ran with ⟨_, former, known, same, rfl⟩ | ⟨-, found, middle, looked, ended⟩
  · obtain ⟨rfl, rfl⟩ := Prod.mk.inj (Option.some.inj same)
    have stood := (known?_some known).1
    refine ⟨?_, ⟨former, .inl stood, counted_used former⟩, fun other differs => ?_, ?_, ?_⟩
    · rw [Project.element?_modify, if_pos rfl, stood]
      rfl
    · rw [Project.element?_modify, if_neg differs.symm]
    · cases place <;> rfl
    · cases place with
      | authored => exact Document.length_modify ..
      | dependency => rfl
  · obtain ⟨searches, declared⟩ := findInRepositories_ok looked
    rcases ended with ⟨-, none, -⟩ | ⟨former, rfl, same, rfl⟩
    · cases none
    · obtain ⟨rfl, rfl⟩ := Prod.mk.inj (Option.some.inj same)
      have same : (middle.push former.used).project = (start.push former.used).project := by
        rw [push, push, searches.project]
      have behind : Place.dependency middle.project.dependencies.elements.length =
          .dependency start.project.dependencies.elements.length := by rw [searches.project]
      refine ⟨?_, ⟨former, .inr ⟨behind, (declared former rfl).2⟩, counted_used former⟩,
        fun other differs => ?_, by rw [same]; rfl, by rw [same]; rfl⟩
      · rw [same, searches.project]
        exact List.getElem?_concat_length
      · rw [same]
        cases other with
        | authored => rfl
        | dependency index =>
          have elsewhere : index ≠ start.project.dependencies.elements.length := by
            rintro rfl
            exact differs behind.symm
          change (start.project.dependencies.elements ++ [former.used])[index]? = _
          rw [List.getElem?_append]
          split
          · rfl
          · have beyond : start.project.dependencies.elements.length + 1 ≤ index := by omega
            rw [List.getElem?_eq_none (by simpa using by omega), Project.element?, List.getElem?_eq_none (by omega)]

/-- A reference that led nowhere is unknown later, unless an empty action came to stand for it, and
what it designates is still not found. -/
theorem unknown_or_empty {before after later : Resolution} (grounded : later.Grounded settings)
    (asked : resolve settings kinds reference none before = .ok none after) (onward : Turns settings after later) :
    (∀ kind ∈ kinds, later.Searched kind reference) ∧
      (later.known? kinds reference none = none ∨
        ∃ index element, after.project.dependencies.elements.length ≤ index ∧
          later.project.element? (.dependency index) = some element ∧
          element.uncounted = Element.emptyAction element.name ∧ element.isDesignated kinds reference) := by
  have unknown := (resolve_ok asked (by simp)).2
  have searched : ∀ kind ∈ kinds, later.Searched kind reference := by
    rcases resolve_cases asked with ⟨_, _, -, none, -⟩ | ⟨-, found, middle, looked, ended⟩
    · cases none
    · rcases ended with ⟨rfl, -, rfl⟩ | ⟨_, -, none, -⟩
      · exact fun kind member => Turns.keep Turn.searched onward (searched_of_findInRepositories looked kind member)
      · cases none
  refine ⟨searched, ?_⟩
  cases known : later.known? kinds reference none with
  | none => exact .inl rfl
  | some found =>
    obtain ⟨stands, -, designated⟩ := known?_some known
    obtain ⟨index, isNew, behind⟩ := (Turns.extends onward).new_of_unknown unknown known
    rw [isNew] at stands
    exact .inr ⟨index, found.2, behind, stands, grounded.empty_of_searched searched stands designated, designated⟩

end Resolving

open Resolution Resolving

/-- What a reference leads to once is what it leads to from then on, and each time one use more is
counted there and nothing else is changed. One that leads nowhere leads nowhere later, unless an empty
action that it designates has come to stand in for another. -/
theorem resolve_again {settings : Settings} {authored : Document} {workspace : Workspace}
    (faithful : workspace.Faithful settings) {before after later : Resolution} {kinds : List ElementKind}
    {reference : QualifiedName} {answer : Option (Place × Element)}
    (reached : Turns settings { project := { authored }, workspace } before)
    (asked : resolve settings kinds reference none before = .ok answer after) (onward : Turns settings after later) :
    (∀ final, authored.resolved settings workspace = .ok () final →
      Turns settings { project := { authored }, workspace } final) ∧
    (∀ place element, answer = some (place, element) → ∃ again final,
      resolve settings kinds reference none later = .ok (some (place, again)) final) ∧
    (answer = none → (∃ final, resolve settings kinds reference none later = .ok none final) ∨
      ∃ index element, after.project.dependencies.elements.length ≤ index ∧
        later.project.element? (.dependency index) = some element ∧
        element.uncounted = Element.emptyAction element.name ∧ element.isDesignated kinds reference) ∧
    ∀ asker place element final,
      resolve settings kinds reference asker later = .ok (some (place, element)) final →
        Counted later final place element := by
  have stays := Turns.extends onward
  have known := (resolve_ok asked (by simp)).2
  refine ⟨fun final ran => turns_all ran, ?_, ?_, fun _ _ _ _ ran => counted_of_resolve ran⟩
  · rintro place element rfl
    obtain ⟨again, knownLater, -⟩ := stays.known? known
    exact ⟨_, _, resolve_of_known knownLater⟩
  · rintro rfl
    have grounded := grounded_of_turns faithful ((reached.tail (turn_resolve_none asked)).trans onward)
    obtain ⟨searched, unknown | standsIn⟩ := unknown_or_empty grounded asked onward
    · exact .inl ⟨later, resolve_of_searched unknown searched⟩
    · exact .inr standsIn

theorem Workspace.faithful_classShelved : classShelved.Faithful {} := by
  have roots : ∀ repository ∈ classShelved.catalogue.repositories,
      repository.kind ≠ .project ∧ repository.folders = none ∧ repository.root.parts ≠ [] ∧
        ¬classShelved.disk.isFile repository.root ∧
        ∀ folder ∈ classShelved.disk.repositoryFolders {} repository.root,
          classShelved.disk.file? (Settings.indexPath {} folder) = none := by decide +kernel
  have apart : classShelved.catalogue.repositories.Pairwise fun first second =>
      classShelved.disk.Apart first.root second.root := by
    have places : classShelved.disk.location? ⟨["lib"]⟩ = some (.within ["lib"]) ∧
        classShelved.disk.location? ⟨["cache"]⟩ = some (.within ["cache"]) := by decide +kernel
    refine List.pairwise_pair.mpr fun x y leads leadsToo => ?_
    obtain rfl := Location.within.inj (Option.some.inj (places.1.symm.trans leads))
    obtain rfl := Location.within.inj (Option.some.inj (places.2.symm.trans leadsToo))
    decide
  refine faithful_of_maintained ⟨by decide, by decide, by decide⟩ (inOrder_shelved _ _).sound
    (fun repository member => (roots repository member).1) (fun repository member => ?_) apart
  obtain ⟨-, unloaded, written, noFile, absent⟩ := roots repository member
  exact ⟨unloaded, written, noFile, fun folder found => .inl (absent folder found)⟩

/-- After a view that is nowhere the class in the library is asked for, then the entity in the cache. -/
def askThrice : Resolving Bool := do
  let view ← resolve {} [.view] ⟨"Gone", none⟩ none
  let base ← resolve {} [.classType, .entityType] ⟨"Base", some "lib"⟩ none
  let entity ← resolve {} [.entityType] ⟨"Base", none⟩ none
  return view.isNone && base.isSome && entity.isSome

/-- A placeholder is appended, and then the view and the class are asked for again. -/
theorem resolve_again_classShelved :
    classShelved.Faithful {} ∧ ∃ before place element after entity drawn,
      resolve {} [.view] ⟨"Gone", none⟩ none { project := {}, workspace := classShelved } = .ok none before ∧
      resolve {} [.classType, .entityType] ⟨"Base", some "lib"⟩ none before = .ok (some (place, element)) after ∧
      resolve {} [.entityType] ⟨"Base", none⟩ none after = .ok (some entity) drawn ∧
      (∃ again final, resolve {} [.classType, .entityType] ⟨"Base", some "lib"⟩ none
          (drawn.push (Element.emptyAction ⟨"Save", some "acme"⟩).used) = .ok (some (place, again)) final ∧
        Counted (drawn.push (Element.emptyAction ⟨"Save", some "acme"⟩).used) final place again) ∧
      ∃ final, resolve {} [.view] ⟨"Gone", none⟩ none
        (drawn.push (Element.emptyAction ⟨"Save", some "acme"⟩).used) = .ok none final := by
  have asks : ends (fun found state => found && (state.known? [.action] ⟨"Save", some "acme"⟩ none).isNone)
      (askThrice { project := {}, workspace := classShelved }) := by decide +kernel
  obtain ⟨_, drawn, ran, found⟩ := ok_of_ends asks
  obtain ⟨view, before, gone, ran⟩ := bind_ok.mp ran
  obtain ⟨base, after, asked, ran⟩ := bind_ok.mp ran
  obtain ⟨entity, _, drawsEntity, ran⟩ := bind_ok.mp ran
  obtain ⟨rfl, rfl⟩ := pure_ok.mp ran
  simp only [Bool.and_eq_true, Option.isNone_iff_eq_none, Option.isSome_iff_exists] at found
  obtain ⟨⟨⟨rfl, ⟨place, element⟩, rfl⟩, entity, rfl⟩, unknown⟩ := found
  have faithful := Workspace.faithful_classShelved
  have onward : Turns {} after (_ : Resolution) := .tail (.single (turn_resolve_none drawsEntity)) (.stoodIn _ unknown)
  obtain ⟨-, again, -, counts⟩ := resolve_again faithful (.single (turn_resolve_none gone)) asked onward
  obtain ⟨-, -, stillGone, -⟩ := resolve_again faithful .refl gone (.head (turn_resolve_none asked) onward)
  refine ⟨faithful, before, place, element, after, entity, _, gone, asked, drawsEntity, ?_, ?_⟩
  · obtain ⟨again, final, resolves⟩ := again place element rfl
    exact ⟨again, final, resolves, counts none place again final resolves⟩
  · -- the placeholder is an action, and no reference to a view designates it
    refine (stillGone rfl).resolve_right ?_
    rintro ⟨_, standing, -, -, empty, designated⟩
    have isAction : standing.kind = .action := (congrArg Element.kind empty :)
    exact absurd (isAction.symm.trans (Element.kind_of_designated designated)) (by decide)

end Requirements
