import Requirements.Proofs.Document.Names
import Requirements.Proofs.Document.Unambiguous

/-! Readers and trees. Whatever a reader takes from the front is written by a tree, and it gives
what the tree stands for. In the other direction a reader takes all that a tree writes, if what
comes next cannot belong to the tree. So a text is read exactly if a tree writes it. -/
namespace Requirements
namespace Grammar

/-! ### Tokens that are taken -/

theorem ofToken_mark {token : Token} {kind : TokenKind} (noText : kind.holdsText = false) :
    Terminal.ofToken token = .mark kind ↔ token.kind = kind := by
  obtain ⟨own, text, offset⟩ := token
  constructor
  · intro same
    cases own <;> simp_all [Terminal.ofToken]
  · rintro rfl
    cases own <;> first | rfl | cases noText

theorem ofToken_identifier {token : Token} {text : String} :
    Terminal.ofToken token = .identifier text ↔ token.kind = .identifier ∧ token.text = text := by
  obtain ⟨kind, own, offset⟩ := token
  cases kind <;> simp [Terminal.ofToken]

/-- The tokens are some that read as the terminals, and then the rest. -/
def Takes (tokens : List Token) (terminals : List Terminal) (rest : List Token) : Prop :=
  ∃ front, tokens = front ++ rest ∧ terminalsOf front = terminals

@[simp] theorem takes_nil {tokens rest : List Token} : Takes tokens [] rest ↔ tokens = rest := by
  simp [Takes, terminalsOf]

theorem takes_cons {tokens rest : List Token} {first : Terminal} {others : List Terminal} :
    Takes tokens (first :: others) rest ↔
      ∃ token behind, tokens = token :: behind ∧ Terminal.ofToken token = first ∧
        Takes behind others rest := by
  constructor
  · rintro ⟨front, rfl, reads⟩
    obtain ⟨token, behind, rfl, isFirst, others⟩ := List.map_eq_cons_iff.mp reads
    exact ⟨token, behind ++ rest, rfl, isFirst, behind, rfl, others⟩
  · rintro ⟨token, _, rfl, rfl, front, rfl, rfl⟩
    exact ⟨token :: front, rfl, rfl⟩

theorem takes_append {tokens rest : List Token} {first second : List Terminal} :
    Takes tokens (first ++ second) rest ↔ ∃ middle, Takes tokens first middle ∧ Takes middle second rest := by
  constructor
  · rintro ⟨front, rfl, reads⟩
    obtain ⟨left, right, rfl, inFirst, inSecond⟩ := List.map_eq_append_iff.mp reads
    exact ⟨right ++ rest, ⟨left, by rw [List.append_assoc], inFirst⟩, right, rfl, inSecond⟩
  · rintro ⟨_, ⟨left, rfl, rfl⟩, right, rfl, rfl⟩
    exact ⟨left ++ right, by rw [List.append_assoc], by simp [terminalsOf]⟩

@[simp] theorem takes_one {token : Token} {behind rest : List Token} {first : Terminal} :
    Takes (token :: behind) [first] rest ↔ Terminal.ofToken token = first ∧ behind = rest := by
  simp only [takes_cons, takes_nil, List.cons.injEq]
  constructor
  · rintro ⟨_, _, ⟨rfl, rfl⟩, isFirst, rfl⟩
    exact ⟨isFirst, rfl⟩
  · rintro ⟨isFirst, rfl⟩
    exact ⟨token, behind, ⟨rfl, rfl⟩, isFirst, rfl⟩

theorem not_takes_of_nil {rest : List Token} {first : Terminal} {others : List Terminal} :
    ¬ Takes [] (first :: others) rest := by
  simp [takes_cons]

namespace Takes

variable {tokens middle rest : List Token} {first second terminals : List Terminal}

theorem append (taken : Takes tokens first middle) (then' : Takes middle second rest) :
    Takes tokens (first ++ second) rest :=
  takes_append.mpr ⟨middle, taken, then'⟩

/-- One terminal, and then others. -/
theorem cons {head : Terminal} (taken : Takes tokens [head] middle) (then' : Takes middle second rest) :
    Takes tokens (head :: second) rest :=
  taken.append then'

/-- What is left begins as the terminals that were not taken. -/
theorem terminalsOf_eq (taken : Takes tokens terminals rest) :
    terminalsOf tokens = terminals ++ terminalsOf rest := by
  obtain ⟨front, rfl, rfl⟩ := taken
  simp [terminalsOf]

theorem length (taken : Takes tokens terminals rest) : terminals.length + rest.length = tokens.length := by
  obtain ⟨front, rfl, rfl⟩ := taken
  simp [terminalsOf]

end Takes

theorem takes_all {tokens : List Token} {terminals : List Terminal} :
    Takes tokens terminals [] ↔ terminals = terminalsOf tokens := by
  constructor
  · intro taken
    simpa [terminalsOf] using taken.terminalsOf_eq.symm
  · rintro rfl
    exact ⟨tokens, by simp, rfl⟩

end Grammar

namespace Read

open Grammar

variable {tokens rest : List Token}

theorem skip?_eq_some {kind : TokenKind} (noText : kind.holdsText = false) :
    skip? kind tokens = some rest ↔ Takes tokens [.mark kind] rest := by
  cases tokens with
  | nil => simp [skip?, not_takes_of_nil]
  | cons token behind => by_cases isKind : token.kind = kind <;> simp [skip?, isKind, ofToken_mark noText]

theorem skipWord?_eq_some {word : String} :
    skipWord? word tokens = some rest ↔ Takes tokens [.identifier word] rest := by
  cases tokens with
  | nil => simp [skipWord?, not_takes_of_nil]
  | cons token behind => simp [skipWord?, isWord, ofToken_identifier]

theorem skip?_eq_none {kind : TokenKind} (noText : kind.holdsText = false) {firsts : List Terminal}
    (begins : Begins firsts (terminalsOf tokens)) (absent : .mark kind ∉ firsts) :
    skip? kind tokens = none := by
  cases skipped : skip? kind tokens with
  | none => rfl
  | some behind =>
    rw [((skip?_eq_some noText).mp skipped).terminalsOf_eq] at begins
    exact absurd (begins_cons.mp begins) absent

theorem skip?_eq_none_of_takes {kind : TokenKind} (noText : kind.holdsText = false) {terminals : List Terminal}
    (starts : ∀ behind rest, terminals ++ behind ≠ .mark kind :: rest) (taken : Takes tokens terminals rest) :
    skip? kind tokens = none := by
  cases skipped : skip? kind tokens with
  | none => rfl
  | some behind =>
    have same := taken.terminalsOf_eq.symm.trans ((skip?_eq_some noText).mp skipped).terminalsOf_eq
    exact absurd same (starts _ _)

theorem skipWord?_eq_none {word : String} {firsts : List Terminal}
    (begins : Begins firsts (terminalsOf tokens)) (absent : .identifier word ∉ firsts) :
    skipWord? word tokens = none := by
  cases skipped : skipWord? word tokens with
  | none => rfl
  | some behind =>
    rw [(skipWord?_eq_some.mp skipped).terminalsOf_eq] at begins
    exact absurd (begins_cons.mp begins) absent

theorem one_identifier {text : String} :
    one .identifier tokens = .ok (text, rest) ↔ Takes tokens [.identifier text] rest := by
  cases tokens with
  | nil => simp [one, not_takes_of_nil]
  | cons token behind => by_cases isKind : token.kind = .identifier <;> simp [one, isKind, ofToken_identifier]

theorem one_mark {kind : TokenKind} (noText : kind.holdsText = false) :
    (∃ text, one kind tokens = .ok (text, rest)) ↔ Takes tokens [.mark kind] rest := by
  cases tokens with
  | nil => simp [one, not_takes_of_nil]
  | cons token behind => by_cases isKind : token.kind = kind <;> simp [one, isKind, ofToken_mark noText]

/-! ### What is read is written by a tree -/

theorem takes_nameTail {start text : String} (ran : nameTail start tokens = .ok (text, rest)) :
    ∃ words : List String, text = words.foldl (fun front word => front ++ "." ++ word) start ∧
      Takes tokens (words.flatMap Name.furtherTerminals) rest := by
  fun_induction nameTail start tokens with
  | case1 start _ _ word _ behind ih =>
    obtain ⟨words, rfl, taken⟩ := ih ran
    exact ⟨word :: words, rfl, takes_cons.mpr ⟨_, _, rfl, rfl, takes_cons.mpr ⟨_, _, rfl, rfl, taken⟩⟩⟩
  | case2 => cases ran
  | case3 =>
    obtain ⟨rfl, rfl⟩ := Prod.mk.inj (Except.ok.inj ran)
    exact ⟨[], rfl, takes_nil.mpr rfl⟩

theorem takes_name {text : String} (ran : name tokens = .ok (text, rest)) :
    ∃ tree : Name, text = tree.text ∧ Takes tokens tree.terminals rest := by
  obtain ⟨⟨start, behind⟩, first, ran⟩ := except_bind_ok.mp ran
  obtain ⟨words, rfl, taken⟩ := takes_nameTail ran
  exact ⟨⟨start, words⟩, rfl, (one_identifier.mp first).cons taken⟩

theorem takes_qualifiedName {found : QualifiedName} (ran : qualifiedName tokens = .ok (found, rest)) :
    ∃ tree : Name, found = tree.reference ∧ Takes tokens tree.terminals rest := by
  obtain ⟨⟨text, behind⟩, named, done⟩ := except_bind_ok.mp ran
  obtain ⟨rfl, rfl⟩ := Prod.mk.inj (Except.ok.inj done)
  obtain ⟨tree, rfl, taken⟩ := takes_name named
  exact ⟨tree, rfl, taken⟩

theorem takes_clause {word : String} {found : Option QualifiedName} (ran : clause word tokens = .ok (found, rest)) :
    ∃ tree : Option Name, found = tree.map Name.reference ∧ Takes tokens (clauseTerminals word tree) rest := by
  rw [clause] at ran
  split at ran
  next =>
    obtain ⟨rfl, rfl⟩ := Prod.mk.inj (Except.ok.inj ran)
    exact ⟨none, rfl, takes_nil.mpr rfl⟩
  next behind skipped =>
    obtain ⟨⟨found, left⟩, named, done⟩ := except_bind_ok.mp ran
    obtain ⟨rfl, rfl⟩ := Prod.mk.inj (Except.ok.inj done)
    obtain ⟨tree, rfl, taken⟩ := takes_qualifiedName named
    exact ⟨some tree, rfl, (skipWord?_eq_some.mp skipped).cons taken⟩

theorem takes_value {text : String} (ran : value tokens = .ok (text, rest)) :
    ∃ tree : Value, text = tree.text ∧ Takes tokens tree.terminals rest := by
  cases tokens with
  | nil => cases ran
  | cons token behind =>
    rw [value] at ran
    split at ran
    next isQuoted =>
      obtain ⟨rfl, rfl⟩ := Prod.mk.inj (Except.ok.inj ran)
      exact ⟨.quoted token.text, (stringText_eq _).symm,
        takes_cons.mpr ⟨_, _, rfl, by simp [Terminal.ofToken, isQuoted], by simp⟩⟩
    next isNumber =>
      obtain ⟨rfl, rfl⟩ := Prod.mk.inj (Except.ok.inj ran)
      exact ⟨.number token.text, rfl, takes_cons.mpr ⟨_, _, rfl, by simp [Terminal.ofToken, isNumber], by simp⟩⟩
    next =>
      obtain ⟨tree, rfl, taken⟩ := takes_name ran
      exact ⟨.named tree, rfl, taken⟩
    next => cases ran

theorem takes_moreValues {steps : Nat} {texts : List String} (ran : moreValues steps tokens = .ok (texts, rest)) :
    ∃ trees : List Value, texts = trees.map Value.text ∧
      Takes tokens (trees.flatMap Value.furtherTerminals) rest := by
  induction steps generalizing tokens texts with
  | zero =>
    obtain ⟨rfl, rfl⟩ := Prod.mk.inj (Except.ok.inj ran)
    exact ⟨[], rfl, takes_nil.mpr rfl⟩
  | succ steps ih =>
    rw [moreValues] at ran
    split at ran
    next =>
      obtain ⟨rfl, rfl⟩ := Prod.mk.inj (Except.ok.inj ran)
      exact ⟨[], rfl, takes_nil.mpr rfl⟩
    next behind skipped =>
      obtain ⟨⟨_, left⟩, first, ran⟩ := except_bind_ok.mp ran
      obtain ⟨⟨_, last⟩, others, done⟩ := except_bind_ok.mp ran
      obtain ⟨rfl, rfl⟩ := Prod.mk.inj (Except.ok.inj done)
      obtain ⟨tree, rfl, taken⟩ := takes_value first
      obtain ⟨trees, rfl, further⟩ := ih others
      have comma := (skip?_eq_some rfl).mp skipped
      exact ⟨tree :: trees, rfl, (comma.cons taken).append further⟩

theorem takes_valueList {texts : List String} (ran : valueList tokens = .ok (texts, rest)) :
    ∃ trees : List Value, texts = trees.map Value.text ∧
      Takes tokens (Assignment.itemTerminals trees ++ [.mark .closeBracket]) rest := by
  rw [valueList] at ran
  split at ran
  next skipped =>
    obtain ⟨rfl, rfl⟩ := Prod.mk.inj (Except.ok.inj ran)
    exact ⟨[], rfl, (skip?_eq_some rfl).mp skipped⟩
  next =>
    obtain ⟨⟨_, left⟩, first, ran⟩ := except_bind_ok.mp ran
    obtain ⟨⟨_, last⟩, others, ran⟩ := except_bind_ok.mp ran
    obtain ⟨⟨_, behind⟩, closed, done⟩ := except_bind_ok.mp ran
    obtain ⟨rfl, rfl⟩ := Prod.mk.inj (Except.ok.inj done)
    obtain ⟨tree, rfl, taken⟩ := takes_value first
    obtain ⟨trees, rfl, further⟩ := takes_moreValues others
    exact ⟨tree :: trees, rfl, (taken.append further).append ((one_mark rfl).mp ⟨_, closed⟩)⟩

theorem takes_assigned {given : Option String × List String} (ran : assigned tokens = .ok (given, rest)) :
    ∃ tree : Assignment, given = (tree.value, tree.values) ∧ Takes tokens tree.terminals rest := by
  rw [assigned] at ran
  split at ran
  next =>
    obtain ⟨rfl, rfl⟩ := Prod.mk.inj (Except.ok.inj ran)
    exact ⟨.absent, rfl, takes_nil.mpr rfl⟩
  next behind skipped =>
    have equals := (skip?_eq_some rfl).mp skipped
    split at ran
    next left opened =>
      obtain ⟨⟨_, last⟩, listed, done⟩ := except_bind_ok.mp ran
      obtain ⟨rfl, rfl⟩ := Prod.mk.inj (Except.ok.inj done)
      obtain ⟨trees, rfl, taken⟩ := takes_valueList listed
      exact ⟨.list trees, rfl, equals.cons (((skip?_eq_some rfl).mp opened).cons taken)⟩
    next =>
      obtain ⟨⟨_, last⟩, single, done⟩ := except_bind_ok.mp ran
      obtain ⟨rfl, rfl⟩ := Prod.mk.inj (Except.ok.inj done)
      obtain ⟨tree, rfl, taken⟩ := takes_value single
      exact ⟨.single tree, rfl, equals.cons taken⟩

theorem takes_propertyType {typing : Option String × Bool} (ran : propertyType tokens = .ok (typing, rest)) :
    ∃ tree : Typing, typing = (tree.typeName, tree.isList) ∧ Takes tokens tree.terminals rest := by
  rw [propertyType] at ran
  split at ran
  next =>
    obtain ⟨rfl, rfl⟩ := Prod.mk.inj (Except.ok.inj ran)
    exact ⟨.absent, rfl, takes_nil.mpr rfl⟩
  next behind skipped =>
    have colon := (skip?_eq_some rfl).mp skipped
    obtain ⟨⟨text, left⟩, named, done⟩ := except_bind_ok.mp ran
    obtain ⟨rfl, rfl⟩ := Prod.mk.inj (Except.ok.inj done)
    obtain ⟨tree, rfl, taken⟩ := takes_name named
    cases marked : skipListMark? behind with
    | none =>
      rw [marked, Option.getD_none] at taken
      exact ⟨.single tree, rfl, colon.cons taken⟩
    | some after =>
      rw [marked, Option.getD_some] at taken
      obtain ⟨middle, list, «of»⟩ := Option.bind_eq_some_iff.mp marked
      exact ⟨.listOf tree, rfl,
        colon.cons ((skipWord?_eq_some.mp list).cons ((skipWord?_eq_some.mp «of»).cons taken))⟩

theorem takes_presence : Takes tokens (presenceTerminals (presence tokens).1) (presence tokens).2 := by
  rw [presence]
  split
  next skipped => exact skipWord?_eq_some.mp skipped
  next skipped => exact skipWord?_eq_some.mp skipped
  next => exact takes_nil.mpr rfl

theorem takes_propertyHead {found : Property} (ran : propertyHead tokens = .ok (found, rest)) :
    ∃ tree : Head, found = tree.property ∧ Takes tokens tree.terminals rest := by
  obtain ⟨⟨key, behind⟩, first, ran⟩ := except_bind_ok.mp ran
  obtain ⟨⟨⟨typeName, listOf⟩, left⟩, typed, ran⟩ := except_bind_ok.mp ran
  obtain ⟨⟨⟨single, list⟩, last⟩, given, done⟩ := except_bind_ok.mp ran
  obtain ⟨rfl, rfl⟩ := Prod.mk.inj (Except.ok.inj done)
  obtain ⟨typing, ofType, takenType⟩ := takes_propertyType typed
  obtain ⟨rfl, rfl⟩ := Prod.mk.inj ofType
  obtain ⟨assignment, ofAssignment, takenAssignment⟩ := takes_assigned given
  obtain ⟨rfl, rfl⟩ := Prod.mk.inj ofAssignment
  exact ⟨⟨key, typing, _, assignment⟩, rfl,
    (one_identifier.mp first).cons (takenType.append (takes_presence.append takenAssignment))⟩

theorem takes_property_attributes (steps : Nat) :
    (∀ {tokens rest found}, property steps tokens = .ok (found, rest) →
      ∃ tree : Node, found = tree.property ∧ Takes tokens tree.terminals rest) ∧
    ∀ {tokens rest found}, attributes steps tokens = .ok (found, rest) →
      ∃ trees : List Node, found = Node.properties trees ∧
        Takes tokens (Node.attributesTerminals trees ++ [.mark .closeBrace]) rest := by
  induction steps with
  | zero =>
    constructor
    · intro _ _ _ ran
      rw [property] at ran
      cases ran
    · intro _ _ _ ran
      rw [attributes] at ran
      cases ran
  | succ steps ih =>
    constructor
    · intro tokens rest found ran
      rw [property] at ran
      obtain ⟨⟨head, behind⟩, headed, ran⟩ := except_bind_ok.mp ran
      obtain ⟨tree, rfl, taken⟩ := takes_propertyHead headed
      dsimp only at ran
      split at ran
      next opened =>
        obtain ⟨⟨nested, left⟩, below, done⟩ := except_bind_ok.mp ran
        obtain ⟨rfl, rfl⟩ := Prod.mk.inj (Except.ok.inj done)
        obtain ⟨trees, rfl, takenBelow⟩ := ih.2 below
        exact ⟨.compound tree trees, by rw [Node.property],
          taken.append (((skip?_eq_some rfl).mp opened).cons takenBelow)⟩
      next =>
        obtain ⟨⟨_, left⟩, closed, done⟩ := except_bind_ok.mp ran
        obtain ⟨rfl, rfl⟩ := Prod.mk.inj (Except.ok.inj done)
        exact ⟨.plain tree, by rw [Node.property], taken.append ((one_mark rfl).mp ⟨_, closed⟩)⟩
    · intro tokens rest found ran
      unfold attributes at ran
      split at ran
      next skipped =>
        obtain ⟨rfl, rfl⟩ := Prod.mk.inj (Except.ok.inj ran)
        exact ⟨[], by rw [Node.properties], (skip?_eq_some rfl).mp skipped⟩
      next => cases ran
      next =>
        obtain ⟨⟨first, behind⟩, head, ran⟩ := except_bind_ok.mp ran
        obtain ⟨⟨others, left⟩, tail, done⟩ := except_bind_ok.mp ran
        obtain ⟨rfl, rfl⟩ := Prod.mk.inj (Except.ok.inj done)
        obtain ⟨tree, rfl, taken⟩ := ih.1 head
        obtain ⟨trees, rfl, further⟩ := ih.2 tail
        refine ⟨tree :: trees, by rw [Node.properties], ?_⟩
        rw [Node.attributesTerminals, List.append_assoc]
        exact taken.append further

theorem takes_directive {found : QualifiedName} (ran : directive tokens = .ok (found, rest)) :
    ∃ tree : Name, found = tree.reference ∧ Takes tokens (tree.terminals ++ [.mark .semicolon]) rest := by
  obtain ⟨⟨read, behind⟩, named, ran⟩ := except_bind_ok.mp ran
  obtain ⟨⟨_, left⟩, closed, done⟩ := except_bind_ok.mp ran
  obtain ⟨rfl, rfl⟩ := Prod.mk.inj (Except.ok.inj done)
  obtain ⟨tree, rfl, taken⟩ := takes_qualifiedName named
  exact ⟨tree, rfl, taken.append ((one_mark rfl).mp ⟨_, closed⟩)⟩

/-- The tokens start with the word and one more identifier. -/
theorem skipDirective?_eq_some {word : String} :
    skipDirective? word tokens = some rest ↔
      Takes tokens [.identifier word] rest ∧ ∃ text behind, terminalsOf rest = .identifier text :: behind := by
  rw [skipDirective?, ← skipWord?_eq_some]
  split
  next text offset behind skipped =>
    constructor
    · intro same
      obtain rfl := Option.some.inj same
      exact ⟨skipped, text, terminalsOf behind, rfl⟩
    · rintro ⟨other, -⟩
      exact skipped.symm.trans other
  next noIdentifier =>
    refine ⟨fun same => absurd same (by simp), ?_⟩
    rintro ⟨skipped, text, behind, starts⟩
    obtain ⟨⟨kind, own, offset⟩, others, rfl, isFirst, -⟩ := List.map_eq_cons_iff.mp starts
    obtain ⟨rfl, -⟩ := ofToken_identifier.mp isFirst
    exact absurd skipped (noIdentifier own offset others)

theorem skipDirective?_eq_none {word : String} (isDirective : (word == "use" || word == "call") = true)
    (plain : opensDirective (terminalsOf tokens) = false) : skipDirective? word tokens = none := by
  cases skipped : skipDirective? word tokens with
  | none => rfl
  | some behind =>
    obtain ⟨taken, text, more, starts⟩ := skipDirective?_eq_some.mp skipped
    rw [taken.terminalsOf_eq, starts] at plain
    exact Bool.noConfusion (isDirective.symm.trans plain)

theorem opensDirective_eq_false (noUse : skipDirective? "use" tokens = none)
    (noCall : skipDirective? "call" tokens = none) : opensDirective (terminalsOf tokens) = false := by
  have skips : ∀ {word text : String} {others : List Terminal},
      terminalsOf tokens = .identifier word :: .identifier text :: others → skipDirective? word tokens ≠ none := by
    intro word text others starts
    obtain ⟨token, behind, rfl, isWord, more⟩ := List.map_eq_cons_iff.mp starts
    have skipped : skipDirective? word (token :: behind) = some behind :=
      skipDirective?_eq_some.mpr ⟨takes_cons.mpr ⟨_, _, rfl, isWord, takes_nil.mpr rfl⟩, text, others, more⟩
    rw [skipped]
    exact Option.some_ne_none behind
  unfold opensDirective
  split
  next word text others starts =>
    have notUse : word ≠ "use" := fun same => skips (same ▸ starts) noUse
    have notCall : word ≠ "call" := fun same => skips (same ▸ starts) noCall
    simp [notUse, notCall]
  next => rfl

end Read

namespace Grammar

def extend (element : Element) (members : List Member) : Element :=
  { element with
    properties := element.properties ++ members.filterMap Member.property?
    features := element.features ++ members.filterMap Member.feature?
    calls := element.calls ++ members.filterMap Member.call? }

theorem extend_nil (element : Element) : extend element [] = element := by
  simp [extend]

theorem extend_extend (element : Element) (first : Member) (others : List Member) :
    extend (extend element [first]) others = extend element (first :: others) := by
  have both : ∀ {α : Type} (f : Member → Option α),
      [first].filterMap f ++ others.filterMap f = (first :: others).filterMap f := by
    intro α f
    rw [← List.filterMap_append, List.singleton_append]
  simp only [extend, List.append_assoc, both]

def Declaration.bare (file : String) (domain : Option String) (declaration : Declaration) : Element where
  kind := declaration.kind
  name := completed domain declaration.name.reference
  ancestor := declaration.ancestor.map Name.reference
  parent := declaration.parent.map Name.reference
  file := file

theorem Declaration.element_eq (file : String) (domain : Option String) (declaration : Declaration) :
    declaration.element file domain = extend (declaration.bare file domain) declaration.members := by
  simp [element, bare, extend]

end Grammar

namespace Read

open Grammar

variable {tokens rest : List Token} {file : String}

theorem takes_member {element extended : Element} (ran : member element tokens = .ok (extended, rest)) :
    ∃ tree : Member, extended = extend element [tree] ∧ Takes tokens tree.terminals rest := by
  rw [member] at ran
  split at ran
  next skipped =>
    obtain ⟨⟨found, left⟩, read, done⟩ := except_bind_ok.mp ran
    obtain ⟨rfl, rfl⟩ := Prod.mk.inj (Except.ok.inj done)
    obtain ⟨tree, rfl, taken⟩ := takes_directive read
    exact ⟨.feature tree, by simp [extend, Member.property?, Member.feature?, Member.call?],
      (skipDirective?_eq_some.mp skipped).1.cons taken⟩
  next skipped =>
    obtain ⟨⟨found, left⟩, read, done⟩ := except_bind_ok.mp ran
    obtain ⟨rfl, rfl⟩ := Prod.mk.inj (Except.ok.inj done)
    obtain ⟨tree, rfl, taken⟩ := takes_directive read
    exact ⟨.call tree, by simp [extend, Member.property?, Member.feature?, Member.call?],
      (skipDirective?_eq_some.mp skipped).1.cons taken⟩
  next noUse noCall =>
    obtain ⟨⟨found, left⟩, read, done⟩ := except_bind_ok.mp ran
    obtain ⟨rfl, rfl⟩ := Prod.mk.inj (Except.ok.inj done)
    obtain ⟨tree, rfl, taken⟩ := (takes_property_attributes _).1 read
    have plain := opensDirective_eq_false noUse noCall
    rw [taken.terminalsOf_eq, opensDirective_node] at plain
    exact ⟨.property tree plain, by simp [extend, Member.property?, Member.feature?, Member.call?], taken⟩

theorem takes_members {steps : Nat} {element whole : Element}
    (ran : members element steps tokens = .ok (whole, rest)) :
    ∃ trees : List Member, whole = extend element trees ∧
      Takes tokens (trees.flatMap Member.terminals ++ [.mark .closeBrace]) rest := by
  induction steps generalizing element tokens with
  | zero => cases ran
  | succ steps ih =>
    unfold members at ran
    split at ran
    next skipped =>
      obtain ⟨rfl, rfl⟩ := Prod.mk.inj (Except.ok.inj ran)
      exact ⟨[], (extend_nil _).symm, (skip?_eq_some rfl).mp skipped⟩
    next => cases ran
    next =>
      obtain ⟨⟨extended, behind⟩, added, ran⟩ := except_bind_ok.mp ran
      obtain ⟨tree, rfl, taken⟩ := takes_member added
      obtain ⟨trees, rfl, further⟩ := ih ran
      refine ⟨tree :: trees, extend_extend .., ?_⟩
      rw [List.flatMap_cons, List.append_assoc]
      exact taken.append further

theorem keyword_of_ofKeyword? {text : String} {kind : ElementKind} (found : ElementKind.ofKeyword? text = some kind) :
    kind.keyword = text := by
  simpa using List.find?_some found

theorem ofKeyword?_keyword (kind : ElementKind) : ElementKind.ofKeyword? kind.keyword = some kind := by
  cases kind <;> rfl

theorem takes_keyword {token : Token} {kind : ElementKind}
    (known : (if token.kind = .identifier then ElementKind.ofKeyword? token.text else none) = some kind) :
    Takes (token :: rest) [.identifier kind.keyword] rest := by
  split at known
  next isIdentifier =>
    exact takes_one.mpr ⟨ofToken_identifier.mpr ⟨isIdentifier, (keyword_of_ofKeyword? known).symm⟩, rfl⟩
  next => cases known

theorem takes_elementHead {domain : Option String} {head : Element}
    (ran : elementHead file domain tokens = .ok (head, rest)) :
    ∃ (tree : Declaration) (front : List Terminal), tree.bare file domain = head ∧ Takes tokens front rest ∧
      ∀ body, { tree with body }.terminals = front ++ bodyTerminals body := by
  cases tokens with
  | nil => cases ran
  | cons token behind =>
    rw [elementHead] at ran
    split at ran
    next => cases ran
    next kind known =>
      obtain ⟨⟨_, left⟩, named, ran⟩ := except_bind_ok.mp ran
      obtain ⟨⟨_, more⟩, derived, ran⟩ := except_bind_ok.mp ran
      obtain ⟨⟨_, last⟩, extending, done⟩ := except_bind_ok.mp ran
      obtain ⟨rfl, rfl⟩ := Prod.mk.inj (Except.ok.inj done)
      obtain ⟨name, rfl, takenName⟩ := takes_qualifiedName named
      obtain ⟨ancestor, rfl, takenAncestor⟩ := takes_clause derived
      obtain ⟨parent, rfl, takenParent⟩ := takes_clause extending
      have taken := (takes_keyword known).cons (takenName.append (takenAncestor.append takenParent))
      refine ⟨⟨kind, name, ancestor, parent, none⟩, _, ?_, taken, fun body => by simp [Declaration.terminals]⟩
      rw [Declaration.bare, Declaration.completed_eq]

theorem takes_element {domain : Option String} {whole : Element}
    (ran : element file domain tokens = .ok (whole, rest)) :
    ∃ tree : Declaration, whole = tree.element file domain ∧ Takes tokens tree.terminals rest := by
  obtain ⟨⟨head, behind⟩, headed, ran⟩ := except_bind_ok.mp ran
  obtain ⟨tree, front, rfl, taken, whole⟩ := takes_elementHead headed
  dsimp only at ran
  split at ran
  next skipped =>
    obtain ⟨rfl, rfl⟩ := Prod.mk.inj (Except.ok.inj ran)
    refine ⟨{ tree with body := none }, ?_, ?_⟩
    · rw [Declaration.element_eq]
      exact (extend_nil _).symm
    · rw [whole]
      exact taken.append ((skip?_eq_some rfl).mp skipped)
  next =>
    obtain ⟨⟨_, left⟩, opened, ran⟩ := except_bind_ok.mp ran
    obtain ⟨trees, rfl, takenBody⟩ := takes_members ran
    refine ⟨{ tree with body := some trees }, ?_, ?_⟩
    · rw [Declaration.element_eq]
      rfl
    · rw [whole]
      exact taken.append (((one_mark rfl).mp ⟨_, opened⟩).cons takenBody)

theorem takes_elements {domain : Option String} {steps : Nat} {found : List Element}
    (ran : elements file domain steps tokens = .ok found) :
    ∃ trees : List Declaration, found = trees.map (Declaration.element file domain) ∧
      Takes tokens (trees.flatMap Declaration.terminals) [] := by
  induction steps generalizing tokens found with
  | zero =>
    cases tokens with
    | nil =>
      obtain rfl := Except.ok.inj ran
      exact ⟨[], rfl, takes_nil.mpr rfl⟩
    | cons => cases ran
  | succ steps ih =>
    cases tokens with
    | nil =>
      obtain rfl := Except.ok.inj ran
      exact ⟨[], rfl, takes_nil.mpr rfl⟩
    | cons =>
      obtain ⟨⟨first, behind⟩, head, ran⟩ := except_bind_ok.mp ran
      obtain ⟨others, tail, done⟩ := except_bind_ok.mp ran
      obtain rfl := Except.ok.inj done
      obtain ⟨tree, rfl, taken⟩ := takes_element head
      obtain ⟨trees, rfl, further⟩ := ih tail
      exact ⟨tree :: trees, rfl, taken.append further⟩

theorem takes_domain {found : Option String} (ran : domain tokens = .ok (found, rest)) :
    ∃ tree : Option Name, found = tree.map Name.text ∧ Takes tokens (domainTerminals tree) rest := by
  rw [domain] at ran
  split at ran
  next =>
    obtain ⟨rfl, rfl⟩ := Prod.mk.inj (Except.ok.inj ran)
    exact ⟨none, rfl, takes_nil.mpr rfl⟩
  next behind skipped =>
    obtain ⟨⟨text, left⟩, named, ran⟩ := except_bind_ok.mp ran
    obtain ⟨⟨_, last⟩, closed, done⟩ := except_bind_ok.mp ran
    obtain ⟨rfl, rfl⟩ := Prod.mk.inj (Except.ok.inj done)
    obtain ⟨tree, rfl, taken⟩ := takes_name named
    exact ⟨some tree, rfl, (skipWord?_eq_some.mp skipped).cons (taken.append ((one_mark rfl).mp ⟨_, closed⟩))⟩

theorem takes_document {found : Document} (ran : document file tokens = .ok found) :
    ∃ tree : Source, found = tree.document file ∧ tree.terminals = terminalsOf tokens := by
  obtain ⟨⟨_, behind⟩, declared, read⟩ := except_bind_ok.mp ran
  obtain ⟨_, listed, done⟩ := except_bind_ok.mp read
  obtain rfl := Except.ok.inj done
  obtain ⟨name, rfl, takenDomain⟩ := takes_domain declared
  obtain ⟨trees, rfl, takenElements⟩ := takes_elements listed
  exact ⟨⟨name, trees⟩, rfl, takes_all.mp (takenDomain.append takenElements)⟩

end Read
end Requirements
