import Requirements.Proofs.Document.Acceptance

/-! Where a reader gets stuck, what it took can still be completed: some tree writes the tokens that were
taken, and then terminals of which a few kinds suffice. The tree has what was read, and behind it the
least that the grammar asks for. -/
namespace Requirements
namespace Grammar

/-- Terminals that complete whatever was begun. -/
def fillers : List Terminal :=
  [.identifier ElementKind.view.keyword, .identifier "x", .mark .semicolon, .mark .closeBrace, .mark .closeBracket]

def Name.filler : Name := ⟨"x", []⟩

/-- The tokens before the rest are the first of the terminals, and fillers are the others. -/
def Leads (tokens : List Token) (terminals : List Terminal) (rest : List Token) : Prop :=
  ∃ front more, tokens = front ++ rest ∧ terminals = terminalsOf front ++ more ∧ more ⊆ fillers

variable {tokens middle rest : List Token} {first second terminals : List Terminal}

theorem leads_fillers (filling : terminals ⊆ fillers) : Leads tokens terminals tokens :=
  ⟨[], terminals, rfl, rfl, filling⟩

theorem Takes.leads (taken : Takes tokens first middle) (leads : Leads middle second rest) :
    Leads tokens (first ++ second) rest := by
  obtain ⟨front, rfl, rfl⟩ := taken
  obtain ⟨behind, more, rfl, rfl, filling⟩ := leads
  exact ⟨front ++ behind, more, by rw [List.append_assoc], by simp [terminalsOf], filling⟩

theorem Takes.leads_cons {head : Terminal} (taken : Takes tokens [head] middle) (leads : Leads middle second rest) :
    Leads tokens (head :: second) rest :=
  taken.leads leads

theorem Leads.append (leads : Leads tokens first rest) (filling : second ⊆ fillers) :
    Leads tokens (first ++ second) rest := by
  obtain ⟨front, more, rfl, rfl, fillingMore⟩ := leads
  exact ⟨front, more ++ second, rfl, by rw [List.append_assoc], List.append_subset.mpr ⟨fillingMore, filling⟩⟩

/-- All was taken, and fillers are to come. -/
theorem Takes.leads_fillers (taken : Takes tokens first rest) (filling : second ⊆ fillers) :
    Leads tokens (first ++ second) rest :=
  taken.leads (Grammar.leads_fillers filling)

/-- Behind the key of a property another word can only be that of a presence. -/
theorem Node.begins_behind (node : Node) :
    ∃ key behind, node.terminals = .identifier key :: behind ∧ Begins (.mark .colon :: afterType) behind := by
  have typing : ∀ (tree : Typing) {behind : List Terminal}, Begins afterType behind →
      Begins (.mark .colon :: afterType) (tree.terminals ++ behind) := by
    intro tree behind begins
    cases tree with
    | absent => exact begins.mono (by simp)
    | single | listOf => simp [Typing.terminals]
  have head : ∀ (head : Head) {behind : List Terminal}, Begins afterHead behind →
      ∃ key more, head.terminals ++ behind = .identifier key :: more ∧ Begins (.mark .colon :: afterType) more := by
    intro head behind begins
    refine ⟨head.key,
      head.typing.terminals ++ (presenceTerminals head.presence ++ (head.assignment.terminals ++ behind)), ?_, ?_⟩
    · simp [Head.terminals]
    · exact typing head.typing (begins_presence (begins_assignment begins))
  cases node with
  | plain own =>
    rw [Node.terminals]
    exact head own (by simp [afterHead])
  | compound own attributes =>
    rw [Node.terminals]
    exact head own (by simp [afterHead])

theorem opensDirective_eq_true (opens : opensDirective terminals = true) :
    ∃ word text others, terminals = .identifier word :: .identifier text :: others ∧
      (word == "use" || word == "call") = true := by
  unfold opensDirective at opens
  split at opens
  next word text others => exact ⟨word, text, others, rfl, opens⟩
  next => cases opens

/-- Fillers do not make a directive of a property: neither is among them, the word of a directive or that
of a presence. -/
theorem Leads.plain {node : Node} (leads : Leads tokens node.terminals rest)
    (plain : opensDirective (terminalsOf tokens) = false) : opensDirective node.terminals = false := by
  by_contra directive
  obtain ⟨word, text, others, opens, isWord⟩ := opensDirective_eq_true (Bool.of_not_eq_false directive)
  obtain ⟨key, behind, starts, next, follows, second⟩ := node.begins_behind
  obtain ⟨front, more, rfl, written, filling⟩ := leads
  obtain ⟨-, rfl⟩ := List.cons.inj (opens.symm.trans starts)
  obtain rfl := Option.some.inj second
  have noFiller : .identifier text ∉ fillers ∧ .identifier word ∉ fillers := by
    constructor
    · rcases (by simpa [afterType, afterPresence, afterHead] using follows : text = _ ∨ text = _) with rfl | rfl <;>
        decide
    · rcases (by simpa using isWord : word = "use" ∨ word = "call") with rfl | rfl <;> decide
  rw [opens] at written
  rcases front with _ | ⟨token, _ | ⟨other, front⟩⟩
  · exact noFiller.2 (filling (List.mem_of_mem_head? (congrArg List.head? written.symm)))
  · obtain ⟨-, rfl⟩ := List.cons.inj written
    exact noFiller.1 (filling List.mem_cons_self)
  · obtain ⟨isFirst, behind⟩ := List.cons.inj written
    obtain ⟨isSecond, -⟩ := List.cons.inj behind
    rw [List.cons_append, List.cons_append, terminalsOf, List.map_cons, List.map_cons, ← isFirst, ← isSecond] at plain
    exact Bool.noConfusion (isWord.symm.trans plain)

end Grammar

namespace Read

open Grammar

variable {tokens : List Token} {stuck : Stuck}

theorem rest_of_one {kind : TokenKind} (failed : one kind tokens = .error stuck) : stuck.rest = tokens := by
  cases tokens with
  | nil =>
    cases failed
    rfl
  | cons token behind =>
    rw [one] at failed
    split at failed
    · cases failed
    · cases failed
      rfl

theorem leads_nameTail {start : String} (failed : nameTail start tokens = .error stuck) :
    ∃ words : List String, Leads tokens (words.flatMap Name.furtherTerminals) stuck.rest := by
  fun_induction nameTail start tokens with
  | case1 start dot place word spot behind ih =>
    obtain ⟨words, leads⟩ := ih failed
    have taken : Takes (⟨.dot, dot, place⟩ :: ⟨.identifier, word, spot⟩ :: behind) (Name.furtherTerminals word)
        behind :=
      Takes.cons (takes_one.mpr ⟨rfl, rfl⟩) (takes_one.mpr ⟨rfl, rfl⟩)
    exact ⟨word :: words, taken.leads leads⟩
  | case2 start dot place behind =>
    cases failed
    have taken : Takes (⟨.dot, dot, place⟩ :: behind) [.mark .dot] behind := takes_one.mpr ⟨rfl, rfl⟩
    exact ⟨["x"], taken.leads_fillers (by simp [fillers])⟩
  | case3 => cases failed

theorem leads_name (failed : name tokens = .error stuck) : ∃ tree : Name, Leads tokens tree.terminals stuck.rest := by
  rcases except_bind_error.mp failed with first | ⟨⟨start, behind⟩, first, tail⟩
  · rw [rest_of_one first]
    exact ⟨.filler, leads_fillers (by simp [Name.filler, Name.terminals, fillers])⟩
  · obtain ⟨words, leads⟩ := leads_nameTail tail
    exact ⟨⟨start, words⟩, (one_identifier.mp first).leads_cons leads⟩

theorem leads_qualifiedName (failed : qualifiedName tokens = .error stuck) :
    ∃ tree : Name, Leads tokens tree.terminals stuck.rest := by
  have named := except_bind_failed failed fun _ => ⟨_, rfl⟩
  exact leads_name named

theorem leads_clause {word : String} (failed : clause word tokens = .error stuck) :
    ∃ tree : Option Name, Leads tokens (clauseTerminals word tree) stuck.rest := by
  rw [clause] at failed
  split at failed
  next => cases failed
  next behind skipped =>
    have named := except_bind_failed failed fun _ => ⟨_, rfl⟩
    obtain ⟨tree, leads⟩ := leads_qualifiedName named
    exact ⟨some tree, (skipWord?_eq_some.mp skipped).leads_cons leads⟩

theorem leads_value (failed : value tokens = .error stuck) :
    ∃ tree : Value, Leads tokens tree.terminals stuck.rest := by
  have filled : ∀ tokens, Leads tokens (Value.named .filler).terminals tokens := fun tokens =>
    leads_fillers (by simp [Value.terminals, Name.filler, Name.terminals, fillers])
  cases tokens with
  | nil =>
    cases failed
    exact ⟨_, filled []⟩
  | cons token behind =>
    rw [value] at failed
    split at failed
    next => cases failed
    next => cases failed
    next =>
      obtain ⟨tree, leads⟩ := leads_name failed
      exact ⟨.named tree, leads⟩
    next =>
      cases failed
      exact ⟨_, filled _⟩

theorem leads_moreValues {steps : Nat} (failed : moreValues steps tokens = .error stuck) :
    ∃ trees : List Value, Leads tokens (trees.flatMap Value.furtherTerminals) stuck.rest := by
  induction steps generalizing tokens with
  | zero => cases failed
  | succ steps ih =>
    rw [moreValues] at failed
    split at failed
    next => cases failed
    next behind skipped =>
      have comma := (skip?_eq_some rfl).mp skipped
      rcases except_bind_error.mp failed with first | ⟨⟨_, left⟩, first, failed⟩
      · obtain ⟨tree, leads⟩ := leads_value first
        exact ⟨[tree], (comma.leads_cons leads).append (by simp)⟩
      · obtain ⟨tree, -, taken⟩ := takes_value first
        have others := except_bind_failed failed fun _ => ⟨_, rfl⟩
        obtain ⟨trees, leads⟩ := ih others
        exact ⟨tree :: trees, (comma.cons taken).leads leads⟩

theorem leads_valueList (failed : valueList tokens = .error stuck) :
    ∃ trees : List Value, Leads tokens (Assignment.itemTerminals trees ++ [.mark .closeBracket]) stuck.rest := by
  rw [valueList] at failed
  split at failed
  next => cases failed
  next =>
    rcases except_bind_error.mp failed with first | ⟨⟨_, left⟩, first, failed⟩
    · obtain ⟨tree, leads⟩ := leads_value first
      exact ⟨[tree], (leads.append (by simp)).append (by simp [fillers])⟩
    · obtain ⟨tree, -, taken⟩ := takes_value first
      rcases except_bind_error.mp failed with others | ⟨⟨_, last⟩, others, failed⟩
      · obtain ⟨trees, leads⟩ := leads_moreValues others
        exact ⟨tree :: trees, (taken.leads leads).append (by simp [fillers])⟩
      · obtain ⟨trees, -, further⟩ := takes_moreValues others
        have closed := except_bind_failed failed fun _ => ⟨_, rfl⟩
        rw [rest_of_one closed]
        exact ⟨tree :: trees, (taken.append further).leads_fillers (by simp [fillers])⟩

theorem leads_assigned (failed : assigned tokens = .error stuck) :
    ∃ tree : Assignment, Leads tokens tree.terminals stuck.rest := by
  rw [assigned] at failed
  split at failed
  next => cases failed
  next behind skipped =>
    have equals := (skip?_eq_some rfl).mp skipped
    split at failed
    next left opened =>
      have listed := except_bind_failed failed fun _ => ⟨_, rfl⟩
      obtain ⟨trees, leads⟩ := leads_valueList listed
      exact ⟨.list trees, equals.leads_cons (((skip?_eq_some rfl).mp opened).leads_cons leads)⟩
    next =>
      have single := except_bind_failed failed fun _ => ⟨_, rfl⟩
      obtain ⟨tree, leads⟩ := leads_value single
      exact ⟨.single tree, equals.leads_cons leads⟩

theorem leads_propertyType (failed : propertyType tokens = .error stuck) :
    ∃ tree : Typing, Leads tokens tree.terminals stuck.rest := by
  rw [propertyType] at failed
  split at failed
  next => cases failed
  next behind skipped =>
    have colon := (skip?_eq_some rfl).mp skipped
    have named := except_bind_failed failed fun _ => ⟨_, rfl⟩
    obtain ⟨tree, leads⟩ := leads_name named
    cases marked : skipListMark? behind with
    | none =>
      rw [marked, Option.getD_none] at leads
      exact ⟨.single tree, colon.leads_cons leads⟩
    | some after =>
      rw [marked, Option.getD_some] at leads
      obtain ⟨middle, list, «of»⟩ := Option.bind_eq_some_iff.mp marked
      exact ⟨.listOf tree, colon.leads_cons
        ((skipWord?_eq_some.mp list).leads_cons ((skipWord?_eq_some.mp «of»).leads_cons leads))⟩

theorem leads_propertyHead (failed : propertyHead tokens = .error stuck) :
    ∃ tree : Head, Leads tokens tree.terminals stuck.rest := by
  rcases except_bind_error.mp failed with first | ⟨⟨key, behind⟩, first, failed⟩
  · rw [rest_of_one first]
    exact ⟨⟨"x", .absent, none, .absent⟩, leads_fillers
      (by simp [Head.terminals, Typing.terminals, presenceTerminals, Assignment.terminals, fillers])⟩
  · have key := one_identifier.mp first
    rcases except_bind_error.mp failed with typed | ⟨⟨_, left⟩, typed, failed⟩
    · obtain ⟨typing, leads⟩ := leads_propertyType typed
      exact ⟨⟨_, typing, none, .absent⟩, key.leads_cons
        (leads.append (by simp [presenceTerminals, Assignment.terminals]))⟩
    · obtain ⟨typing, -, takenType⟩ := takes_propertyType typed
      have given := except_bind_failed failed fun _ => ⟨_, rfl⟩
      obtain ⟨assignment, leads⟩ := leads_assigned given
      exact ⟨⟨_, typing, _, assignment⟩, key.leads_cons (takenType.leads (takes_presence.leads leads))⟩

theorem leads_property_attributes (steps : Nat) :
    (∀ {tokens stuck}, property steps tokens = .error stuck →
      ∃ tree : Node, Leads tokens tree.terminals stuck.rest) ∧
    ∀ {tokens stuck}, attributes steps tokens = .error stuck →
      ∃ trees : List Node, Leads tokens (Node.attributesTerminals trees ++ [.mark .closeBrace]) stuck.rest := by
  have filled : ∀ tokens, Leads tokens (Node.attributesTerminals [] ++ [.mark .closeBrace]) tokens := fun tokens =>
    leads_fillers (by simp [Node.attributesTerminals, fillers])
  induction steps with
  | zero =>
    constructor
    · intro tokens stuck failed
      rw [property] at failed
      cases failed
      exact ⟨.plain ⟨"x", .absent, none, .absent⟩, leads_fillers (by simp [Node.terminals, Head.terminals,
        Typing.terminals, presenceTerminals, Assignment.terminals, fillers])⟩
    · intro tokens stuck failed
      rw [attributes] at failed
      cases failed
      exact ⟨[], filled tokens⟩
  | succ steps ih =>
    constructor
    · intro tokens stuck failed
      rw [property] at failed
      rcases except_bind_error.mp failed with headed | ⟨⟨head, behind⟩, headed, failed⟩
      · obtain ⟨tree, leads⟩ := leads_propertyHead headed
        exact ⟨.plain tree, by rw [Node.terminals]; exact leads.append (by simp [fillers])⟩
      · obtain ⟨tree, -, taken⟩ := takes_propertyHead headed
        dsimp only at failed
        split at failed
        next opened =>
          have below := except_bind_failed failed fun _ => ⟨_, rfl⟩
          obtain ⟨trees, leads⟩ := ih.2 below
          refine ⟨.compound tree trees, ?_⟩
          rw [Node.terminals]
          exact taken.leads (((skip?_eq_some rfl).mp opened).leads_cons leads)
        next =>
          have closed := except_bind_failed failed fun _ => ⟨_, rfl⟩
          rw [rest_of_one closed]
          refine ⟨.plain tree, ?_⟩
          rw [Node.terminals]
          exact taken.leads_fillers (by simp [fillers])
    · intro tokens stuck failed
      unfold attributes at failed
      split at failed
      next => cases failed
      next =>
        cases failed
        exact ⟨[], filled []⟩
      next =>
        rcases except_bind_error.mp failed with head | ⟨⟨first, behind⟩, head, failed⟩
        · obtain ⟨tree, leads⟩ := ih.1 head
          refine ⟨[tree], ?_⟩
          rw [Node.attributesTerminals, List.append_assoc]
          exact leads.append (by simp [Node.attributesTerminals, fillers])
        · obtain ⟨tree, -, taken⟩ := (takes_property_attributes steps).1 head
          have tail := except_bind_failed failed fun _ => ⟨_, rfl⟩
          obtain ⟨trees, leads⟩ := ih.2 tail
          refine ⟨tree :: trees, ?_⟩
          rw [Node.attributesTerminals, List.append_assoc]
          exact taken.leads leads

theorem leads_directive (failed : directive tokens = .error stuck) :
    ∃ tree : Name, Leads tokens (tree.terminals ++ [.mark .semicolon]) stuck.rest := by
  rcases except_bind_error.mp failed with named | ⟨⟨_, behind⟩, named, failed⟩
  · obtain ⟨tree, leads⟩ := leads_qualifiedName named
    exact ⟨tree, leads.append (by simp [fillers])⟩
  · obtain ⟨tree, -, taken⟩ := takes_qualifiedName named
    have closed := except_bind_failed failed fun _ => ⟨_, rfl⟩
    rw [rest_of_one closed]
    exact ⟨tree, taken.leads_fillers (by simp [fillers])⟩

theorem leads_member {element : Element} (failed : member element tokens = .error stuck) :
    ∃ tree : Member, Leads tokens tree.terminals stuck.rest := by
  rw [member] at failed
  split at failed
  next skipped =>
    have read := except_bind_failed failed fun _ => ⟨_, rfl⟩
    obtain ⟨tree, leads⟩ := leads_directive read
    exact ⟨.feature tree, (skipDirective?_eq_some.mp skipped).1.leads_cons leads⟩
  next skipped =>
    have read := except_bind_failed failed fun _ => ⟨_, rfl⟩
    obtain ⟨tree, leads⟩ := leads_directive read
    exact ⟨.call tree, (skipDirective?_eq_some.mp skipped).1.leads_cons leads⟩
  next noUse noCall =>
    have read := except_bind_failed failed fun _ => ⟨_, rfl⟩
    obtain ⟨tree, leads⟩ := (leads_property_attributes _).1 read
    exact ⟨.property tree (leads.plain (opensDirective_eq_false noUse noCall)), leads⟩

theorem leads_members {steps : Nat} {element : Element} (failed : members element steps tokens = .error stuck) :
    ∃ trees : List Member, Leads tokens (trees.flatMap Member.terminals ++ [.mark .closeBrace]) stuck.rest := by
  induction steps generalizing element tokens with
  | zero =>
    cases failed
    exact ⟨[], leads_fillers (by simp [fillers])⟩
  | succ steps ih =>
    unfold members at failed
    split at failed
    next => cases failed
    next =>
      cases failed
      exact ⟨[], leads_fillers (by simp [fillers])⟩
    next =>
      rcases except_bind_error.mp failed with added | ⟨⟨extended, behind⟩, added, failed⟩
      · obtain ⟨tree, leads⟩ := leads_member added
        exact ⟨[tree], (leads.append (by simp)).append (by simp [fillers])⟩
      · obtain ⟨tree, -, taken⟩ := takes_member added
        obtain ⟨trees, leads⟩ := ih failed
        refine ⟨tree :: trees, ?_⟩
        rw [List.flatMap_cons, List.append_assoc]
        exact taken.leads leads

variable {file : String} {domain : Option String}

theorem leads_elementHead (failed : elementHead file domain tokens = .error stuck) :
    ∃ tree : Declaration, Leads tokens tree.terminals stuck.rest := by
  have filled : ∀ tokens, Leads tokens (Declaration.terminals ⟨.view, .filler, none, none, none⟩) tokens :=
    fun tokens => leads_fillers (by simp [Declaration.terminals, Name.filler, Name.terminals, clauseTerminals,
      bodyTerminals, fillers])
  cases tokens with
  | nil =>
    cases failed
    exact ⟨_, filled []⟩
  | cons token behind =>
    rw [elementHead] at failed
    split at failed
    next =>
      cases failed
      exact ⟨_, filled _⟩
    next kind known =>
      have keyword : Takes (token :: behind) _ behind := takes_keyword known
      rcases except_bind_error.mp failed with named | ⟨⟨_, left⟩, named, failed⟩
      · obtain ⟨name, leads⟩ := leads_qualifiedName named
        exact ⟨⟨kind, name, none, none, none⟩, keyword.leads_cons
          (leads.append (by simp [clauseTerminals, bodyTerminals, fillers]))⟩
      · obtain ⟨name, -, takenName⟩ := takes_qualifiedName named
        rcases except_bind_error.mp failed with derived | ⟨⟨_, last⟩, derived, failed⟩
        · obtain ⟨ancestor, leads⟩ := leads_clause derived
          exact ⟨⟨kind, name, ancestor, none, none⟩, keyword.leads_cons (takenName.leads
            (leads.append (by simp [clauseTerminals, bodyTerminals, fillers])))⟩
        · obtain ⟨ancestor, -, takenAncestor⟩ := takes_clause derived
          have extending := except_bind_failed failed fun _ => ⟨_, rfl⟩
          obtain ⟨parent, leads⟩ := leads_clause extending
          exact ⟨⟨kind, name, ancestor, parent, none⟩, keyword.leads_cons (takenName.leads
            (takenAncestor.leads (leads.append (by simp [bodyTerminals, fillers]))))⟩

theorem leads_element (failed : element file domain tokens = .error stuck) :
    ∃ tree : Declaration, Leads tokens tree.terminals stuck.rest := by
  rcases except_bind_error.mp failed with headed | ⟨⟨head, behind⟩, headed, failed⟩
  · exact leads_elementHead headed
  · obtain ⟨tree, front, -, taken, whole⟩ := takes_elementHead headed
    have leads : ∀ body {rest : List Token}, Leads behind (bodyTerminals body) rest →
        ∃ tree : Declaration, Leads tokens tree.terminals rest := fun body rest leads =>
      ⟨{ tree with body }, whole body ▸ taken.leads leads⟩
    dsimp only at failed
    split at failed
    next => cases failed
    next =>
      rcases except_bind_error.mp failed with opened | ⟨⟨_, left⟩, opened, failed⟩
      · rw [rest_of_one opened]
        exact leads none (leads_fillers (by simp [bodyTerminals, fillers]))
      · obtain ⟨trees, leadsBody⟩ := leads_members failed
        exact leads (some trees) (((one_mark rfl).mp ⟨_, opened⟩).leads_cons leadsBody)

theorem leads_elements {steps : Nat} (failed : elements file domain steps tokens = .error stuck) :
    ∃ trees : List Declaration, Leads tokens (trees.flatMap Declaration.terminals) stuck.rest := by
  induction steps generalizing tokens with
  | zero =>
    cases tokens with
    | nil => cases failed
    | cons =>
      cases failed
      exact ⟨[], leads_fillers (by simp)⟩
  | succ steps ih =>
    cases tokens with
    | nil => cases failed
    | cons =>
      rcases except_bind_error.mp failed with head | ⟨⟨first, behind⟩, head, failed⟩
      · obtain ⟨tree, leads⟩ := leads_element head
        exact ⟨[tree], leads.append (by simp)⟩
      · obtain ⟨tree, -, taken⟩ := takes_element head
        have tail := except_bind_failed failed fun _ => ⟨_, rfl⟩
        obtain ⟨trees, leads⟩ := ih tail
        exact ⟨tree :: trees, taken.leads leads⟩

theorem leads_domain (failed : Read.domain tokens = .error stuck) :
    ∃ tree : Option Name, Leads tokens (domainTerminals tree) stuck.rest := by
  rw [Read.domain] at failed
  split at failed
  next => cases failed
  next behind skipped =>
    have isDomain := skipWord?_eq_some.mp skipped
    rcases except_bind_error.mp failed with named | ⟨⟨_, left⟩, named, failed⟩
    · obtain ⟨tree, leads⟩ := leads_name named
      exact ⟨some tree, isDomain.leads_cons (leads.append (by simp [fillers]))⟩
    · obtain ⟨tree, -, taken⟩ := takes_name named
      have closed := except_bind_failed failed fun _ => ⟨_, rfl⟩
      rw [rest_of_one closed]
      exact ⟨some tree, isDomain.leads_cons (taken.leads_fillers (by simp [fillers]))⟩

/-- Where reading gets stuck, a text can go on from what was taken. -/
theorem leads_document (failed : document file tokens = .error stuck) :
    ∃ tree : Source, Leads tokens tree.terminals stuck.rest := by
  rcases except_bind_error.mp failed with declared | ⟨⟨_, behind⟩, declared, failed⟩
  · obtain ⟨name, leads⟩ := leads_domain declared
    exact ⟨⟨name, []⟩, leads.append (by simp)⟩
  · obtain ⟨name, -, taken⟩ := takes_domain declared
    have listed := except_bind_failed failed fun _ => ⟨_, rfl⟩
    obtain ⟨trees, leads⟩ := leads_elements listed
    exact ⟨⟨name, trees⟩, taken.leads leads⟩

end Read
end Requirements
