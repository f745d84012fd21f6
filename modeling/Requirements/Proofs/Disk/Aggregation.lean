import Requirements.Proofs.Disk.Storing
import Requirements.Proofs.Disk.WalkOrder
import Requirements.Proofs.Document.Acceptance

/-! Reading a folder as one document. What is read is what the documents below the folder hold, each
document once and in path order. The first that cannot be read ends it, or a folder that cannot be
entered, if that comes first. -/
namespace Requirements
namespace Disk

variable {disk : Disk} {folder : Path}

/-! ### Documents below a folder -/

structure DocumentBelow (settings : Settings) (disk : Disk) (folder : Path) (names : List String) : Prop where
  isFile : (disk.below? folder names).any fun found => !found.isFolder
  isDocument : settings.isDocument (folder.descend names)

inductive Fault (settings : Settings) (disk : Disk) (folder : Path) : List String → Failure → Prop
  /-- A folder whose path is of no use. -/
  | closed {names : List String} (isFolder : (disk.below? folder names).any Entry.isFolder)
      (useless : ¬(folder.descend names).isUsable) : Fault settings disk folder names (.disk (folder.descend names))
  | unread {names : List String} (document : disk.DocumentBelow settings folder names)
      (unread : disk.read? (folder.descend names) = none) :
      Fault settings disk folder names (.disk (folder.descend names))
  | unparsed {names : List String} {text : String} {error : ParseError}
      (document : disk.DocumentBelow settings folder names) (read : disk.read? (folder.descend names) = some text)
      (unparsed : Document.parse text (fileText ("/".intercalate names)) = .error error) :
      Fault settings disk folder names (.document (folder.descend names) error)

variable {settings : Settings}

def blocked? (disk : Disk) (settings : Settings) (folder : Path) : Visit → Option Failure
  | .unreadable names => some (.disk (folder.descend names))
  | .file names =>
    if settings.isDocument (folder.descend names) then
      match disk.parse (folder.descend names) (fileText ("/".intercalate names)) with
      | .ok _ => none
      | .error failure => some failure
    else none

theorem parse_error {path : Path} {file : String} {failure : Failure} :
    disk.parse path file = .error failure ↔ disk.read? path = none ∧ .disk path = failure ∨
      ∃ text error, disk.read? path = some text ∧ Document.parse text file = .error error ∧
        .document path error = failure := by
  rw [parse, read]
  cases disk.read? path with
  | none => simp
  | some text => simp [mapError_error]

theorem parseVisits_cons_of_blocked {visit : Visit} {failure : Failure}
    (blocked : disk.blocked? settings folder visit = some failure) (rest : List Visit) :
    disk.parseVisits settings folder (visit :: rest) = .error failure := by
  cases visit with
  | unreadable names => exact congrArg Except.error (Option.some.inj blocked)
  | file names =>
    rw [blocked?] at blocked
    split at blocked
    next isDocument =>
      rw [parseVisits, if_pos isDocument]
      split at blocked
      next => cases blocked
      next fails =>
        obtain rfl := Option.some.inj blocked
        rw [fails]
        rfl
    next => cases blocked

/-- A visit that ends nothing is to a file, which is read if it is a document. -/
theorem free_cases {visit : Visit} (free : disk.blocked? settings folder visit = none) : ∃ names,
    visit = .file names ∧
      ((¬settings.isDocument (folder.descend names) ∧
          ∀ rest, disk.parseVisits settings folder (visit :: rest) = disk.parseVisits settings folder rest) ∨
        settings.isDocument (folder.descend names) ∧
          ∃ document, disk.parse (folder.descend names) (fileText ("/".intercalate names)) = .ok document ∧
            ∀ rest, disk.parseVisits settings folder (visit :: rest) =
              (disk.parseVisits settings folder rest).map (document :: ·)) := by
  cases visit with
  | unreadable => cases free
  | file names =>
    rw [blocked?] at free
    refine ⟨names, rfl, ?_⟩
    split at free
    next isDocument =>
      split at free
      next document parsed =>
        refine .inr ⟨isDocument, document, parsed, fun rest => ?_⟩
        rw [parseVisits, if_pos isDocument, parsed]
        cases disk.parseVisits settings folder rest <;> rfl
      next => cases free
    next notDocument => exact .inl ⟨notDocument, fun rest => by rw [parseVisits, if_neg notDocument]⟩

theorem parseVisits_of_blocked {front behind : List Visit} {visit : Visit} {failure : Failure}
    (free : ∀ earlier ∈ front, disk.blocked? settings folder earlier = none)
    (blocked : disk.blocked? settings folder visit = some failure) :
    disk.parseVisits settings folder (front ++ visit :: behind) = .error failure := by
  induction front with
  | nil => exact parseVisits_cons_of_blocked blocked behind
  | cons first rest ih =>
    obtain ⟨freeFirst, freeRest⟩ := List.forall_mem_cons.mp free
    obtain ⟨names, -, ⟨-, passes⟩ | ⟨-, document, -, passes⟩⟩ := free_cases freeFirst
    · rw [List.cons_append, passes, ih freeRest]
    · rw [List.cons_append, passes, ih freeRest]
      rfl

def documentsAmong (settings : Settings) (folder : Path) (visits : List Visit) : List (List String) :=
  (visits.filterMap Visit.file?).filter fun names => settings.isDocument (folder.descend names)

theorem documentsAmong_cons (names : List String) (rest : List Visit) :
    documentsAmong settings folder (.file names :: rest) =
      if settings.isDocument (folder.descend names) then names :: documentsAmong settings folder rest
      else documentsAmong settings folder rest :=
  List.filter_cons

/-- Where nothing ends it, every document that is met is read. -/
theorem parseVisits_of_free {visits : List Visit}
    (free : ∀ visit ∈ visits, disk.blocked? settings folder visit = none) : ∃ documents,
    disk.parseVisits settings folder visits = .ok documents ∧
      List.Forall₂ (fun names document =>
          disk.parse (folder.descend names) (fileText ("/".intercalate names)) = .ok document)
        (documentsAmong settings folder visits) documents := by
  induction visits with
  | nil => exact ⟨[], rfl, .nil⟩
  | cons first rest ih =>
    obtain ⟨freeFirst, freeRest⟩ := List.forall_mem_cons.mp free
    obtain ⟨documents, ran, each⟩ := ih freeRest
    obtain ⟨names, rfl, cases⟩ := free_cases freeFirst
    rcases cases with ⟨notDocument, passes⟩ | ⟨isDocument, document, parsed, passes⟩
    · rw [documentsAmong_cons, if_neg notDocument]
      exact ⟨documents, (passes rest).trans ran, each⟩
    · rw [documentsAmong_cons, if_pos isDocument]
      exact ⟨document :: documents, by rw [passes, ran]; rfl, .cons parsed each⟩

/-! ### What a folder comes to -/

section

variable {own : String} {entries : List Entry}
  (leads : disk.entry? folder = some (.folder own entries)) (sound : Entry.Sound (.folder own entries))
include leads sound

theorem fault_of_blocked {visit : Visit} {failure : Failure} (visited : visit ∈ disk.visits folder)
    (blocked : disk.blocked? settings folder visit = some failure) :
    Fault settings disk folder visit.names failure := by
  rw [visits_of_leads leads] at visited
  cases visit with
  | unreadable names =>
    obtain ⟨isFolder, useless⟩ := Entry.closed_of_unreadable sound visited
    obtain rfl := Option.some.inj blocked
    exact .closed (below?_of_leads leads names ▸ isFolder) useless
  | file names =>
    rw [blocked?] at blocked
    split at blocked
    next isDocument =>
      have document : disk.DocumentBelow settings folder names :=
        ⟨below?_of_leads leads names ▸ ((Entry.mem_visits sound).mp visited).1, isDocument⟩
      split at blocked
      next => cases blocked
      next fails =>
        obtain rfl := Option.some.inj blocked
        rcases parse_error.mp fails with ⟨unread, rfl⟩ | ⟨text, error, reads, unparsed, rfl⟩
        · exact .unread document unread
        · exact .unparsed document reads unparsed
    next => cases blocked

/-- A document below the folder is met, or a folder before it ends the walk. -/
theorem DocumentBelow.visited {names : List String} (document : disk.DocumentBelow settings folder names) :
    .file names ∈ disk.visits folder ∨
      ∃ visit ∈ disk.visits folder, (disk.blocked? settings folder visit).isSome ∧ visit.names ≤ names := by
  have isFile := document.isFile
  rw [below?_of_leads leads] at isFile
  rw [visits_of_leads leads]
  obtain ⟨found, there, isFile⟩ := (Option.any_eq_true _ _).mp isFile
  rcases Entry.visited_or_closed sound there with ⟨front, begins, visited⟩ | ⟨isFolder, -⟩ | ⟨-, visited⟩
  · exact .inr ⟨.unreadable front, visited, rfl, le_of_prefix begins⟩
  · simp [isFolder] at isFile
  · exact .inl visited

/-- A fault ends the reading at the latest where it is. -/
theorem Fault.blocked {names : List String} {failure : Failure} (fault : Fault settings disk folder names failure) :
    ∃ visit ∈ disk.visits folder, (disk.blocked? settings folder visit).isSome ∧ visit.names ≤ names := by
  have ofDocument (document : disk.DocumentBelow settings folder names)
      (fails : disk.parse (folder.descend names) (fileText ("/".intercalate names)) = .error failure) :
      ∃ visit ∈ disk.visits folder, (disk.blocked? settings folder visit).isSome ∧ visit.names ≤ names := by
    rcases document.visited leads sound with visited | blocked
    · exact ⟨.file names, visited, by simp [blocked?, document.isDocument, fails], le_rfl⟩
    · exact blocked
  cases fault with
  | closed isFolder useless =>
    rw [below?_of_leads leads] at isFolder
    rw [visits_of_leads leads]
    obtain ⟨found, there, isFolder⟩ := (Option.any_eq_true _ _).mp isFolder
    -- The walk stops at the outermost folder on the way that it cannot enter, which may be above this one.
    rcases Entry.visited_or_closed sound there with ⟨front, begins, visited⟩ | ⟨-, usable⟩ | ⟨isFile, -⟩
    · exact ⟨.unreadable front, visited, rfl, le_of_prefix begins⟩
    · exact absurd usable useless
    · exact absurd isFolder isFile
  | unread document unread => exact ofDocument document (parse_error.mpr (.inl ⟨unread, rfl⟩))
  | unparsed document reads unparsed =>
    exact ofDocument document (parse_error.mpr (.inr ⟨_, _, reads, unparsed, rfl⟩))

/-- The first fault by the order of names, if there is one. -/
theorem exists_first_fault (faulty : ∃ names failure, Fault settings disk folder names failure) :
    ∃ names failure, Fault settings disk folder names failure ∧
      (∀ other failureToo, Fault settings disk folder other failureToo → names ≤ other) ∧
      disk.parseVisits settings folder (disk.visits folder) = .error failure := by
  obtain ⟨_, _, fault⟩ := faulty
  obtain ⟨late, visited, isBlocked, -⟩ := fault.blocked leads sound
  have ordered : (disk.visits folder).Pairwise fun a b => a.names < b.names := by
    rw [visits_of_leads leads]
    exact Entry.pairwise_visits folder _ sound
  obtain ⟨visit, search⟩ : ∃ visit,
      (disk.visits folder).find? (fun visit => (disk.blocked? settings folder visit).isSome) = some visit :=
    Option.isSome_iff_exists.mp (List.find?_isSome.mpr ⟨late, visited, isBlocked⟩)
  obtain ⟨isBlocked, front, behind, split, free⟩ := List.find?_eq_some_iff_append.mp search
  obtain ⟨failure, blocked⟩ := Option.isSome_iff_exists.mp isBlocked
  have freeFront : ∀ earlier ∈ front, disk.blocked? settings folder earlier = none :=
    fun earlier member => by simpa using free earlier member
  refine ⟨visit.names, failure, fault_of_blocked leads sound (by rw [split]; simp) blocked, ?_, ?_⟩
  · intro other failureToo fault
    obtain ⟨visitToo, visitedToo, isBlockedToo, before⟩ := fault.blocked leads sound
    rw [split] at visitedToo ordered
    obtain ⟨first, -⟩ := List.pairwise_cons.mp (List.pairwise_append.mp ordered).2.1
    rcases List.mem_append.mp visitedToo with earlier | late
    · simp [freeFront visitToo earlier] at isBlockedToo
    · rcases List.mem_cons.mp late with rfl | late
      · exact before
      · exact (first visitToo late).le.trans before
  · rw [split]
    exact parseVisits_of_blocked freeFront blocked

/-- Where there is no fault, the documents that are met are those below the folder, in the order of names. -/
theorem documents_of_faultless (faultless : ∀ names failure, ¬Fault settings disk folder names failure) :
    (∀ visit ∈ disk.visits folder, disk.blocked? settings folder visit = none) ∧
      (∀ names, names ∈ documentsAmong settings folder (disk.visits folder) ↔
        disk.DocumentBelow settings folder names) ∧
      (documentsAmong settings folder (disk.visits folder)).Pairwise fun a b => a < b := by
  have free : ∀ visit ∈ disk.visits folder, disk.blocked? settings folder visit = none := by
    intro visit visited
    cases blocked : disk.blocked? settings folder visit with
    | none => rfl
    | some failure => exact absurd (fault_of_blocked leads sound visited blocked) (faultless _ _)
  refine ⟨free, fun names => ?_, ?_⟩
  · rw [documentsAmong, List.mem_filter, mem_files_visits]
    constructor
    · rintro ⟨visited, isDocument⟩
      rw [visits_of_leads leads] at visited
      exact ⟨below?_of_leads leads names ▸ ((Entry.mem_visits sound).mp visited).1, isDocument⟩
    · intro document
      rcases document.visited leads sound with visited | ⟨visit, visited, isBlocked, -⟩
      · exact ⟨visited, document.isDocument⟩
      · simp [free visit visited] at isBlocked
  · refine List.Pairwise.filter _ (List.pairwise_filterMap.mpr ?_)
    rw [visits_of_leads leads]
    refine (Entry.pairwise_visits folder _ sound).imp fun {first second} less names isFirst others isSecond => ?_
    rwa [Visit.names_of_file? isFirst, Visit.names_of_file? isSecond] at less

end

end Disk

/-- Documents joined in order have the first domain that is declared, and the elements of all. -/
theorem Document.foldl_append (documents : List Document) (start : Document) :
    documents.foldl append start =
      ⟨start.domain <|> documents.findSome? (·.domain), start.elements ++ documents.flatMap (·.elements)⟩ := by
  induction documents generalizing start with
  | nil => cases start with | mk domain elements => cases domain <;> simp
  | cons document rest ih =>
    rw [List.foldl_cons, ih, append]
    cases start.domain <;> cases own : document.domain <;> simp [own]

namespace Disk

variable {disk : Disk} {settings : Settings}

/-- What is read of a document: its elements in the order of their declarations, each with the document's
path from the folder, and with its name completed by the document's own domain. -/
def Contributes (disk : Disk) (folder : Path) (names : List String) (document : Document) : Prop :=
  ∃ (text : String) (tree : Grammar.Source), disk.read? (folder.descend names) = some text ∧
    Document.parse text (fileText ("/".intercalate names)) = .ok document ∧
    tree.terminals = Grammar.terminalsOf (Token.ofText text) ∧
    document.elements =
      tree.declarations.map (Grammar.Declaration.element (fileText ("/".intercalate names)) document.domain) ∧
    document.domain = tree.domain.map Grammar.Name.text

theorem contributes_of_parse {folder : Path} {names : List String} {document : Document}
    (parsed : disk.parse (folder.descend names) (fileText ("/".intercalate names)) = .ok document) :
    disk.Contributes folder names document := by
  obtain ⟨text, reads, parsed⟩ := parse_ok.mp parsed
  obtain ⟨tree, written, rfl⟩ := Grammar.parse_eq_ok.mp parsed
  exact ⟨text, tree, reads, parsed, written, rfl, rfl⟩

theorem DocumentBelow.there {folder : Path} {names : List String}
    (document : disk.DocumentBelow settings folder names) : (disk.below? folder names).isSome :=
  Option.isSome_of_any document.isFile

theorem Fault.there {folder : Path} {names : List String} {failure : Failure}
    (fault : Fault settings disk folder names failure) : (disk.below? folder names).isSome := by
  cases fault with
  | closed isFolder => exact Option.isSome_of_any isFolder
  | unread document | unparsed document => exact document.there

section

variable {folder : Path} {own : String} {entries : List Entry} (leads : disk.entry? folder = some (.folder own entries))
include leads

theorem DocumentBelow.ne_nil {names : List String} (document : disk.DocumentBelow settings folder names) :
    names ≠ [] := by
  rintro rfl
  have isFile := document.isFile
  rw [below?_of_leads leads] at isFile
  cases isFile

theorem Fault.ne_nil (usable : folder.isUsable) {names : List String} {failure : Failure}
    (fault : Fault settings disk folder names failure) : names ≠ [] := by
  cases fault with
  | closed _ useless =>
    rintro rfl
    exact useless usable
  | unread document | unparsed document => exact document.ne_nil leads

end

/-- A folder below which nothing is faulty is read as what its documents hold, each of them once and in path
order. The domain is the first that one of them declares. Otherwise the first fault in path order is
what reading the folder ends with. -/
theorem parseFolder_in_path_order (settings : Settings) {disk : Disk} (sound : disk.root.Sound) (directory : String)
    (isFolder : disk.isFolder (.ofText directory)) :
    ((∀ names failure, ¬Fault settings disk (.ofText directory) names failure) → ∃ below documents,
      (∀ names, names ∈ below ↔ disk.DocumentBelow settings (.ofText directory) names) ∧
      below.Pairwise (fun a b =>
        ((Path.ofText directory).descend a).before ((Path.ofText directory).descend b)) ∧
      List.Forall₂ (disk.Contributes (.ofText directory)) below documents ∧
      disk.parseFolder settings (.ofText directory) =
        .ok ⟨documents.findSome? (·.domain), documents.flatMap (·.elements)⟩) ∧
    ((∃ names failure, Fault settings disk (.ofText directory) names failure) → ∃ names failure,
      Fault settings disk (.ofText directory) names failure ∧
      (∀ other failureToo, Fault settings disk (.ofText directory) other failureToo → other = names ∨
        ((Path.ofText directory).descend names).before ((Path.ofText directory).descend other)) ∧
      disk.parseFolder settings (.ofText directory) = .error failure) := by
  have written : (Path.ofText directory).parts ≠ [] := Path.parts_ofText_ne_nil directory
  obtain ⟨own, entries, leads, soundFolder, usable⟩ := exists_of_isFolder sound isFolder
  rw [parseFolder, if_pos isFolder]
  constructor
  · intro faultless
    obtain ⟨free, below, ordered⟩ := documents_of_faultless leads soundFolder faultless
    obtain ⟨documents, ran, each⟩ := parseVisits_of_free free
    refine ⟨_, documents, below, ?_, each.imp fun names document => contributes_of_parse, ?_⟩
    · refine List.Pairwise.imp_of_mem (fun {first second} isFirst isSecond less => ?_) ordered
      have document := (below first).mp isFirst
      have documentToo := (below second).mp isSecond
      exact (descend_before_iff sound written document.there documentToo.there (document.ne_nil leads)
        (documentToo.ne_nil leads)).mpr less
    · rw [ran]
      exact congrArg Except.ok (Document.foldl_append documents {})
  · intro faulty
    obtain ⟨names, failure, fault, first, ran⟩ := exists_first_fault leads soundFolder faulty
    refine ⟨names, failure, fault, fun other failureToo faultToo => ?_, by rw [ran]; rfl⟩
    rcases (first other failureToo faultToo).eq_or_lt with same | less
    · exact .inl same.symm
    · exact .inr ((descend_before_iff sound written fault.there faultToo.there (fault.ne_nil leads usable)
        (faultToo.ne_nil leads usable)).mpr less)

/-- A document of the outer text, a folder whose name begins like the document's, with one of the inner
text, and a file that is no document. -/
def siblings (outer inner : String) : Disk where
  root := .folder "" [.folder "app" [.file "a.reqm" (.text outer) 1, .folder "a" [.file "x.reqm" (.text inner) 1],
    .file "notes.txt" .binary 1]]
  now := 1

theorem sound_siblings (outer inner : String) : (siblings outer inner).root.Sound := by
  have folder : Entry.Sound (.folder "a" [.file "x.reqm" (.text inner) 1]) :=
    Entry.sound_folder (by simp) (by simpa [Entry.name] using (by decide : IsProper "x.reqm"))
      (by simp [Entry.sound_file])
  have app : Entry.Sound (.folder "app" [.file "a.reqm" (.text outer) 1, .folder "a" [.file "x.reqm" (.text inner) 1],
      .file "notes.txt" .binary 1]) := by
    refine Entry.sound_folder (by simp [Entry.name]) ?_ (by simpa [Entry.sound_file] using folder)
    simpa [Entry.name] using (by decide : IsProper "a.reqm" ∧ IsProper "a" ∧ IsProper "notes.txt")
  refine Entry.sound_folder (by simp) ?_ (by simpa using app)
  simpa [Entry.name] using (by decide : IsProper "app")

/-- The document in the folder comes first, and what is wrong with it is what is told. -/
theorem parseFolder_in_path_order_siblings :
    (∃ below documents, ["a", "x.reqm"] ∈ below ∧ ["a.reqm"] ∈ below ∧
      below.Pairwise (fun a b => ((Path.ofText "app").descend a).before ((Path.ofText "app").descend b)) ∧
      List.Forall₂ ((siblings "class A;" "domain d; class X;").Contributes (.ofText "app")) below documents ∧
      (siblings "class A;" "domain d; class X;").parseFolder {} (.ofText "app") =
        .ok ⟨documents.findSome? (·.domain), documents.flatMap (·.elements)⟩) ∧
    ∃ names failure, Fault {} (siblings "class A" "domain d") (.ofText "app") names failure ∧
      (∀ other ∈ [["a.reqm"], ["a", "x.reqm"]],
        other = names ∨ ((Path.ofText "app").descend names).before ((Path.ofText "app").descend other)) ∧
      (siblings "class A" "domain d").parseFolder {} (.ofText "app") = .error failure := by
  have good := parseFolder_in_path_order {} (sound_siblings "class A;" "domain d; class X;") "app" (by decide +kernel)
  have bad := parseFolder_in_path_order {} (sound_siblings "class A" "domain d") "app" (by decide +kernel)
  constructor
  · have isOk : ((siblings "class A;" "domain d; class X;").parseFolder {} (.ofText "app")).isOk := by
      decide +kernel
    obtain ⟨below, documents, isBelow, ordered, each, ran⟩ := good.1 fun names failure fault => by
      obtain ⟨_, failure, -, -, ran⟩ := good.2 ⟨names, failure, fault⟩
      rw [ran] at isOk
      cases isOk
    refine ⟨below, documents, (isBelow _).mpr ⟨?_, ?_⟩, (isBelow _).mpr ⟨?_, ?_⟩, ordered, each, ran⟩
    all_goals decide +kernel
  · obtain ⟨error, unparsed⟩ : ∃ error,
        Document.parse "class A" (fileText ("/".intercalate ["a.reqm"])) = .error error := ⟨_, rfl⟩
    obtain ⟨errorToo, unparsedToo⟩ : ∃ error,
        Document.parse "domain d" (fileText ("/".intercalate ["a", "x.reqm"])) = .error error := ⟨_, rfl⟩
    have fault : Fault {} (siblings "class A" "domain d") (.ofText "app") ["a.reqm"] _ :=
      .unparsed ⟨by decide +kernel, by decide +kernel⟩ (by decide +kernel) unparsed
    have faultToo : Fault {} (siblings "class A" "domain d") (.ofText "app") ["a", "x.reqm"] _ :=
      .unparsed ⟨by decide +kernel, by decide +kernel⟩ (by decide +kernel) unparsedToo
    obtain ⟨names, failure, isFault, first, ran⟩ := bad.2 ⟨_, _, fault⟩
    exact ⟨names, failure, isFault, by simpa using ⟨first _ _ fault, first _ _ faultToo⟩, ran⟩

def nested : Nat → Entry
  | 0 => .folder "x" []
  | depth + 1 => .folder "x" [nested depth]

@[simp] theorem name_nested (depth : Nat) : (nested depth).name = "x" := by cases depth <;> rfl

theorem sound_nested (depth : Nat) : (nested depth).Sound := by
  induction depth with
  | zero => exact Entry.sound_folder (by simp) (by simp) (by simp)
  | succ depth ih =>
    refine Entry.sound_folder (by simp) ?_ (by simpa using ih)
    simpa using (by decide : IsProper "x")

theorem at?_nested (depth : Nat) : (nested depth).at? (List.replicate depth "x") = some (.folder "x" []) := by
  induction depth with
  | zero => rfl
  | succ depth ih =>
    rw [List.replicate_succ, nested, Entry.at?, List.find?_cons_of_pos (by simp)]
    exact ih

/-- All that is held is folders. -/
theorem isFolder_of_at?_nested {depth : Nat} {names : List String} {found : Entry}
    (leads : (nested depth).at? names = some found) : found.isFolder := by
  induction depth generalizing names with
  | zero =>
    cases names with
    | nil => exact Option.some.inj leads ▸ rfl
    | cons => cases leads
  | succ depth ih =>
    cases names with
    | nil => exact Option.some.inj leads ▸ rfl
    | cons first rest =>
      obtain ⟨held, isHeld, -, same⟩ := Entry.exists_held_of_at? (Option.isSome_of_eq_some leads)
      obtain rfl := List.mem_singleton.mp isHeld
      exact ih (same.symm.trans leads)

theorem size_of_nested (first : String) (depth : Nat) :
    ("/".intercalate (first :: List.replicate depth "x")).utf8ByteSize = first.utf8ByteSize + 2 * depth := by
  induction depth generalizing first with
  | zero => simp
  | succ depth ih =>
    have one : "x".utf8ByteSize = 1 := rfl
    have slash : "/".utf8ByteSize = 1 := rfl
    rw [List.replicate_succ, String.intercalate_cons_cons, String.utf8ByteSize_append, String.utf8ByteSize_append, ih,
      one, slash]
    omega

def odd (depth : Nat) : Disk where
  root := .folder "" [.folder "app" [.file "a\\b.reqm" (.text "class Plain;") 1], .folder "deep" [nested depth]]
  now := 1

theorem leads_odd (depth : Nat) : Disk.entry? (odd depth) (.ofText "deep") = some (.folder "deep" [nested depth]) := rfl

/-- The path of the innermost folder may be too long. -/
theorem fault_of_odd {depth : Nat} (long : 4095 < 2 * depth + 6) :
    ∃ names failure, Fault {} (odd depth) (.ofText "deep") names failure := by
  refine ⟨List.replicate (depth + 1) "x", _, .closed ?_ ?_⟩
  · have inner : (Entry.folder "deep" [nested depth]).at? (List.replicate (depth + 1) "x") =
        some (.folder "x" []) := by
      rw [List.replicate_succ, Entry.at?, List.find?_cons_of_pos (by simp)]
      exact at?_nested depth
    rw [below?_of_leads (leads_odd depth), inner]
    rfl
  · have written : ((Path.ofText "deep").descend (List.replicate (depth + 1) "x")).parts =
        "deep" :: List.replicate (depth + 1) "x" := by
      rw [List.replicate_succ', Path.parts_descend _ (by simp)]
      rfl
    have four : "deep".utf8ByteSize = 4 := rfl
    rw [Path.isUsable, Path.text, written, size_of_nested, four, Bool.and_eq_true, decide_eq_true_iff]
    omega

/-- The document's elements remember another file, and below the other folder there is no file at all, yet
it cannot be read. -/
theorem parseFolder_of_odd :
    ((∀ names, (odd 2046).DocumentBelow {} (.ofText "app") names ↔ names = ["a\\b.reqm"]) ∧
      ∃ document, (odd 2046).parseFolder {} (.ofText "app") = .ok document ∧
        document.elements.map (·.file) = ["a/b.reqm"]) ∧
    (odd 2046).isFolder (.ofText "deep") ∧ (∀ names, ¬(odd 2046).DocumentBelow {} (.ofText "deep") names) ∧
      ∃ failure, (odd 2046).parseFolder {} (.ofText "deep") = .error failure := by
  have isFolder : (odd 2046).isFolder (.ofText "deep") := rfl
  have app : Disk.entry? (odd 2046) (.ofText "app") =
      some (.folder "app" [.file "a\\b.reqm" (.text "class Plain;") 1]) := rfl
  have held {folder : Path} {own : String} {entry : Entry} {names : List String}
      (leads : Disk.entry? (odd 2046) folder = some (.folder own [entry]))
      (document : (odd 2046).DocumentBelow {} folder names) :
      ∃ rest, names = entry.name :: rest ∧ (entry.at? rest).any fun found => !found.isFolder := by
    have isFile := document.isFile
    rw [below?_of_leads leads] at isFile
    cases names with
    | nil => cases isFile
    | cons first rest =>
      obtain ⟨held, isHeld, rfl, same⟩ := Entry.exists_held_of_at? (Option.isSome_of_any isFile)
      obtain rfl := List.mem_singleton.mp isHeld
      exact ⟨rest, rfl, same ▸ isFile⟩
  refine ⟨⟨fun names => ⟨fun document => ?_, ?_⟩, _, rfl, by decide +kernel⟩, isFolder,
    fun names document => ?_, ?_⟩
  · obtain ⟨rest, rfl, isFile⟩ := held app document
    cases rest with
    | nil => rfl
    | cons => cases isFile
  · rintro rfl
    exact ⟨by decide +kernel, by decide +kernel⟩
  · obtain ⟨rest, rfl, isFile⟩ := held (leads_odd 2046) document
    obtain ⟨found, leads, isFile⟩ := (Option.any_eq_true _ _).mp isFile
    simp [isFolder_of_at?_nested leads] at isFile
  · have sound : Entry.Sound (.folder "deep" [nested 2046]) := by
      refine Entry.sound_folder (by simp) ?_ (by simpa using sound_nested 2046)
      simpa using (by decide : IsProper "x")
    obtain ⟨names, failure, -, -, ran⟩ := exists_first_fault (leads_odd 2046) sound (fault_of_odd (by decide))
    exact ⟨failure, by rw [parseFolder, if_pos isFolder, ran]; rfl⟩

end Disk
end Requirements
