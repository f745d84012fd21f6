import Requirements.Composition
import Requirements.Proofs.Repository.Search
import Requirements.Proofs.Resolution.Agreement

/-! Compositions one after the other. What earlier ones loaded, declared and wrote to index files has
no influence on a later one, which comes to what it comes to alone, whether the earlier ones failed or
not. For this the index files must lie in their folders or below them: where two folders share one, an
earlier composition shows in a later one. -/
namespace Requirements

/-- What a run comes to, without the state that it leaves. -/
def answerOf {ε σ α : Type} : EStateM.Result ε σ α → Except ε α
  | .ok a _ => .ok a
  | .error failure _ => .error failure

namespace Workspace

variable {settings : Settings} {first second start : Workspace}

/-- Composes documents one after the other. A failure ends no composition but its own. -/
def composeEach (settings : Settings) : List Document → Workspace → List (Except Failure Composition)
  | [], _ => []
  | document :: rest, workspace =>
    let result := compose settings document workspace
    answerOf result :: composeEach settings rest (stateAfter result)

/-- A workspace with the roots added to a new catalogue, which is not connected yet. -/
def opened (extras : List Path) (disk : Disk) : Workspace := ⟨extras.foldl Catalogue.add {}, disk⟩

/-- What a document comes to when it is all that is composed. -/
def composedAlone (settings : Settings) (applicationHome userHome : Path) (extras : List Path) (disk : Disk)
    (document : Document) : Except Failure Composition :=
  answerOf ((connect settings applicationHome userHome >>= fun _ => compose settings document) (opened extras disk))

/-! ### One composition -/

def indexing (settings : Settings) (document : Document) (workspace : Workspace) : Workspace :=
  { workspace with catalogue := workspace.catalogue.addProject settings (document.normalized settings).1 }

theorem compose_eq (isConnected : start.catalogue.isConnected) (document : Document) :
    compose settings document start =
      match (document.normalized settings).1.resolved settings (start.indexing settings document) with
      | .error failure state => .error failure state.workspace
      | .ok () state =>
        match Composition.ofResolved settings ((document.normalized settings).2 ++ state.reports) state.project with
        | .ok composition => .ok composition state.workspace
        | .error failure => .error failure state.workspace := by
  rw [compose, if_pos isConnected]
  rfl

theorem compose_of_not_connected (apart : ¬start.catalogue.isConnected) (document : Document) :
    compose settings document start = .error .notConnected start := by
  rw [compose, if_neg apart]

/-- Compositions of a document agree in workspaces that are alike. -/
theorem Alike.answerOf_compose (alike : Alike settings first second) (document : Document) :
    answerOf (compose settings document first) = answerOf (compose settings document second) := by
  by_cases isConnected : first.catalogue.isConnected
  · rw [compose_eq isConnected, compose_eq (alike.connected ▸ isConnected), Document.resolved, Document.resolved]
    have paired : Resolution.Paired (Alike settings)
        { project := { authored := (document.normalized settings).1 }
          workspace := first.indexing settings document }
        { project := { authored := (document.normalized settings).1 }
          workspace := second.indexing settings document } :=
      ⟨rfl, rfl, rfl, ⟨alike.connected, alike.offered⟩⟩
    rcases Resolving.all_alike paired with ⟨one, two, ran, ranToo, pairedThen⟩ | ⟨failure, one, two, fails, failsToo⟩
    · rw [ran, ranToo]
      dsimp only
      rw [pairedThen.project, pairedThen.reports]
      split <;> rfl
    · rw [fails, failsToo]
      rfl
  · have apart : ¬second.catalogue.isConnected := alike.connected ▸ isConnected
    rw [compose_of_not_connected isConnected, compose_of_not_connected apart]
    rfl

/-- What a resolution does leaves loading to come to what it came to before. -/
theorem Settled.changes (below : settings.IndexBelow) {before after : Resolution} (settled : before.workspace.Settled)
    (changes : Resolution.Changes settings before after) :
    after.workspace.Settled ∧ Alike settings after.workspace before.workspace := by
  induction changes with
  | refl => exact ⟨settled, .refl settings _⟩
  | tail _ change ih =>
    obtain ⟨settledThen, alikeThen⟩ := ih
    cases change with
    | followed step =>
      cases step with
      | loaded kind id domain =>
        obtain ⟨settledNow, alikeNow⟩ := settledThen.find below kind id domain
        exact ⟨settledNow, alikeNow.trans alikeThen⟩
      | opened | used | drawn | reported => exact ⟨settledThen, alikeThen⟩
    | inherited | mixedIn | stoodIn | laidOut => exact ⟨settledThen, alikeThen⟩

/-- After a composition, whatever came of it, loading comes to what it came to before. -/
theorem Settled.compose (below : settings.IndexBelow) (settled : start.Settled) (document : Document) :
    (stateAfter (compose settings document start)).Settled ∧
      Alike settings (stateAfter (compose settings document start)) start := by
  by_cases isConnected : start.catalogue.isConnected
  · have settledThen : (start.indexing settings document).Settled := ⟨settled.sound, settled.written⟩
    have alikeThen : Alike settings (start.indexing settings document) start := ⟨rfl, rfl⟩
    have changes : Resolution.Changes settings _
        (stateAfter ((document.normalized settings).1.resolved settings (start.indexing settings document))) :=
      Resolving.changes_all _
    obtain ⟨settledNow, alikeNow⟩ := settledThen.changes below changes
    rw [compose_eq isConnected]
    generalize (document.normalized settings).1.resolved settings (start.indexing settings document) = resolved
      at settledNow alikeNow
    cases resolved with
    | error => exact ⟨settledNow, alikeNow.trans alikeThen⟩
    | ok _ state =>
      dsimp only
      split
      all_goals exact ⟨settledNow, alikeNow.trans alikeThen⟩
  · rw [compose_of_not_connected isConnected]
    exact ⟨settled, .refl settings start⟩

/-! ### Histories -/

/-- Each composition comes to what it comes to at the start. -/
theorem composeEach_eq_map (below : settings.IndexBelow) {now : Workspace} (settled : now.Settled)
    (alike : Alike settings now start) (documents : List Document) :
    composeEach settings documents now =
      documents.map fun document => answerOf (compose settings document start) := by
  induction documents generalizing now with
  | nil => rfl
  | cons document rest ih =>
    obtain ⟨settledThen, alikeThen⟩ := settled.compose below document
    rw [composeEach, List.map_cons, alike.answerOf_compose, ih settledThen (alikeThen.trans alike)]

theorem prepared_foldl_add {standard : Option (Path × Option Path)} {extras : List Path} {catalogue : Catalogue}
    (prepared : Catalogue.Prepared settings standard extras catalogue) (more : List Path) :
    Catalogue.Prepared settings standard (extras ++ more) (more.foldl Catalogue.add catalogue) := by
  induction more generalizing extras catalogue with
  | nil => simpa using prepared
  | cons root rest ih => simpa using ih (prepared.added root)

/-- A workspace that was connected is settled. -/
theorem settled_of_connect {disk : Disk} (sound : disk.root.Sound) {applicationHome userHome : String}
    {extras : List String} {standard : Option (Path × Option Path)} {catalogue : Catalogue}
    (prepared : Catalogue.Prepared settings standard (extras.map .ofText) catalogue) {connected : Workspace}
    (connects : connect settings (.ofText applicationHome) (.ofText userHome) ⟨catalogue, disk⟩ = .ok () connected) :
    connected.Settled := by
  obtain ⟨-, rfl⟩ := connect_ok.mp connects
  constructor
  · refine Disk.sound_makeFolder sound fun part member => ?_
    rcases Path.mem_parts_join member with inHome | inFolder
    · exact Path.slashless_ofText inHome
    · exact Path.slashless_ofText inFolder
  · intro repository member
    rw [(prepared.connected _ _).form.1] at member
    have joined (home text : String) : ((Path.ofText home).join (.ofText text)).parts ≠ [] :=
      Path.parts_join_ne_nil _ (Path.parts_ofText_ne_nil text)
    rcases List.mem_append.mp member with standard | added
    · obtain ⟨roots, isRoots, member⟩ := List.mem_flatMap.mp standard
      obtain rfl := Option.mem_some.mp (Option.mem_toList.mp isRoots)
      rcases List.mem_cons.mp member with rfl | member
      · exact joined applicationHome settings.libraryFolder
      · obtain ⟨cache, isCache, rfl⟩ := List.mem_map.mp member
        rw [Option.mem_toList] at isCache
        split at isCache
        next =>
          obtain rfl := Option.mem_some.mp isCache
          exact joined userHome settings.cacheFolder
        next => cases isCache
    · obtain ⟨_, isExtra, rfl⟩ := List.mem_map.mp added
      obtain ⟨text, -, rfl⟩ := List.mem_map.mp isExtra
      exact Path.parts_ofText_ne_nil text

/-- Each of the documents that are composed one after the other, on a workspace that was connected, comes
to what it comes to alone on a workspace of its own, which is connected with the same roots on the disk
as it was at first. -/
theorem composeEach_eq_composedAlone (below : settings.IndexBelow) {disk : Disk} (sound : disk.root.Sound)
    {applicationHome userHome : String} {extras : List String} {standard : Option (Path × Option Path)}
    {catalogue : Catalogue} (prepared : Catalogue.Prepared settings standard (extras.map .ofText) catalogue)
    {connected : Workspace}
    (connects : connect settings (.ofText applicationHome) (.ofText userHome) ⟨catalogue, disk⟩ = .ok () connected)
    (documents : List Document) :
    composeEach settings documents connected = documents.map
      (composedAlone settings (.ofText applicationHome) (.ofText userHome) (extras.map .ofText) disk) := by
  have settled := settled_of_connect sound prepared connects
  obtain ⟨isFolder, isConnected⟩ := connect_ok.mp connects
  have preparedAlone : Catalogue.Prepared settings none (extras.map .ofText)
      (opened (extras.map .ofText) disk).catalogue := prepared_foldl_add .new (extras.map .ofText)
  obtain ⟨alone, connectsAlone⟩ : ∃ alone,
      connect settings (.ofText applicationHome) (.ofText userHome) (opened (extras.map .ofText) disk) = .ok () alone :=
    ⟨_, connect_ok.mpr ⟨isFolder, rfl⟩⟩
  obtain ⟨-, isAlone⟩ := connect_ok.mp connectsAlone
  have together : Together connected alone := by
    rw [isConnected, isAlone]
    refine ⟨rfl, ?_, rfl⟩
    exact (prepared.connected _ _).form.1.trans (preparedAlone.connected _ _).form.1.symm
  rw [composeEach_eq_map below settled together.alike]
  refine List.map_congr_left fun document _ => ?_
  rw [composedAlone]
  change _ = answerOf (EStateM.bind _ _ _)
  rw [EStateM.bind, connectsAlone]

def failure? : Except Failure Composition → Option Failure
  | .ok _ => none
  | .error failure => some failure

def shop : Document := ((Document.parse "domain acme; application Shop from lib.Base;" "app.reqm").toOption).getD {}

def knot : Document := ((Document.parse "class Left from Right; class Right from Left;" "knot.reqm").toOption).getD {}

def oneShelf : Disk where
  root := .folder "" [.folder "app" [.folder "stdlib" [.file "base.reqm" (.text "domain lib; application Base;") 1]]]
  now := 5

theorem sound_oneShelf : oneShelf.root.Sound := by
  have library : (Entry.folder "stdlib" [.file "base.reqm" (.text "domain lib; application Base;") 1]).Sound := by
    refine Entry.sound_folder (by simp) ?_ (by simp [Entry.sound_file])
    simpa [Entry.name] using (by decide : IsProper "base.reqm")
  have application : (Entry.folder "app" [.folder "stdlib"
      [.file "base.reqm" (.text "domain lib; application Base;") 1]]).Sound := by
    refine Entry.sound_folder (by simp) ?_ (by simpa using library)
    simpa [Entry.name] using (by decide : IsProper "stdlib")
  refine Entry.sound_folder (by simp) ?_ (by simpa using application)
  simpa [Entry.name] using (by decide : IsProper "app")

theorem indexBelow_default : Settings.IndexBelow {} := ⟨by decide, by decide, by decide⟩

/-- The composition that fails does not show in those before and behind it. -/
theorem composeEach_oneShelf : ∃ connected,
    connect {} (.ofText "app") (.ofText "home") (opened [] oneShelf) = .ok () connected ∧
    (composeEach {} [shop, knot, shop] connected).map failure? =
      [none, some (.cycle .ancestor ["Left", "Right", "Left"]), none] ∧
    composeEach {} [shop, knot, shop] connected =
      [shop, knot, shop].map (composedAlone {} (.ofText "app") (.ofText "home") [] oneShelf) := by
  have ends : ends (fun _ connected => (composeEach {} [shop, knot, shop] connected).map failure? ==
      [none, some (.cycle .ancestor ["Left", "Right", "Left"]), none])
      (connect {} (.ofText "app") (.ofText "home") (opened [] oneShelf)) := by
    decide +kernel
  obtain ⟨_, connected, connects, failed⟩ := ok_of_ends ends
  have prepared : Catalogue.Prepared {} none ([].map Path.ofText) (opened [] oneShelf).catalogue := .new
  exact ⟨connected, connects, eq_of_beq failed,
    composeEach_eq_composedAlone indexBelow_default sound_oneShelf prepared connects [shop, knot, shop]⟩

/-- Three folders and an index file beside them, which names a document of the first. Only the
document of the second can be read. -/
def threeShelves : Disk where
  root := .folder "" [.folder "app" [.folder "stdlib" [.folder "a" [.file "x.reqm" (.text "class") 1],
    .folder "b" [.file "y.reqm" (.text "class Y;") 1], .folder "c" [.file "z.reqm" (.text "class") 1],
    .file "index" (.text "content;cls;X;x.reqm\n") 2]]]
  now := 5

/-- Where the folders share an index file that is no document, the second composition of a document fails
in another folder than the first, while alone it would fail as the first. -/
theorem composeEach_threeShelves : ¬Settings.isDocument { indexFile := "../index" } (.ofText "../index") ∧
    ∃ connected,
      connect { indexFile := "../index" } (.ofText "app") (.ofText "home") (opened [] threeShelves) = .ok () connected ∧
      composeEach { indexFile := "../index" } [shop, shop] connected ≠ [shop, shop].map
        (composedAlone { indexFile := "../index" } (.ofText "app") (.ofText "home") [] threeShelves) := by
  have ends : ends (fun _ connected => (composeEach { indexFile := "../index" } [shop, shop] connected).map failure? !=
      ([shop, shop].map
        (composedAlone { indexFile := "../index" } (.ofText "app") (.ofText "home") [] threeShelves)).map failure?)
      (connect { indexFile := "../index" } (.ofText "app") (.ofText "home") (opened [] threeShelves)) := by
    decide +kernel
  obtain ⟨_, connected, connects, differ⟩ := ok_of_ends ends
  refine ⟨by decide, connected, connects, fun same => ?_⟩
  rw [same, bne_self_eq_false] at differ
  cases differ

end Workspace
end Requirements
