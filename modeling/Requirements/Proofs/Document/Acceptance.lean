import Requirements.Proofs.Document.Derivations

/-! What a tree writes is read. Each reader takes all terminals of the tree if the terminal behind
them cannot belong to it, and gives what the tree stands for. With one step of a loop for each
terminal there are steps enough, as every tree in a list writes at least one. -/
namespace Requirements

namespace Grammar

namespace Takes

variable {tokens rest : List Token} {first : Terminal} {front others : List Terminal}

theorem uncons (taken : Takes tokens (first :: others) rest) :
    ∃ middle, Takes tokens [first] middle ∧ Takes middle others rest :=
  takes_append.mp (show Takes tokens ([first] ++ others) rest from taken)

theorem split (taken : Takes tokens (front ++ others) rest) :
    ∃ middle, Takes tokens front middle ∧ Takes middle others rest :=
  takes_append.mp taken

/-- What the tokens begin with, when a known part comes before the rest. -/
theorem begins {firsts : List Terminal} (taken : Takes tokens others rest)
    (starts : Begins firsts (others ++ terminalsOf rest)) : Begins firsts (terminalsOf tokens) :=
  taken.terminalsOf_eq ▸ starts

end Takes

/-- Trees are not more than the terminals they write. -/
theorem length_le_flatMap {α : Type} {write : α → List Terminal} (each : ∀ item, 0 < (write item).length)
    (items : List α) : items.length ≤ (items.flatMap write).length := by
  induction items with
  | nil => simp
  | cons first others ih =>
    have one := each first
    rw [List.flatMap_cons, List.length_append, List.length_cons]
    omega

theorem Value.length_further (value : Value) : 0 < value.furtherTerminals.length := by
  simp [furtherTerminals]

theorem Head.length_pos (head : Head) : 0 < head.terminals.length := by
  simp [terminals]

theorem Node.length_pos (node : Node) : 0 < node.terminals.length := by
  cases node with
  | plain => simp [terminals]
  | compound =>
    rw [terminals, List.length_append, List.length_cons]
    omega

theorem Member.length_pos (member : Member) : 0 < member.terminals.length := by
  cases member with
  | feature | call => simp [terminals, directiveTerminals]
  | property node => exact node.length_pos

theorem Declaration.length_pos (declaration : Declaration) : 0 < declaration.terminals.length := by
  simp [terminals]

end Grammar

namespace Read

open Grammar

variable {tokens rest : List Token} {file : String} {domain : Option String}

theorem nameTail_of_takes {start : String} {words : List String}
    (taken : Takes tokens (words.flatMap Name.furtherTerminals) rest) (noDot : NoDot (terminalsOf rest)) :
    nameTail start tokens = .ok (words.foldl (fun front word => front ++ "." ++ word) start, rest) := by
  induction words generalizing start tokens with
  | nil =>
    obtain rfl := takes_nil.mp taken
    unfold nameTail
    split
    next => exact absurd rfl noDot
    next => exact absurd rfl noDot
    next => rfl
  | cons word words ih =>
    obtain ⟨⟨kind, dot, offset⟩, behind, rfl, isDot, further⟩ := takes_cons.mp taken
    obtain ⟨⟨other, text, place⟩, behind, rfl, isWord, more⟩ := takes_cons.mp further
    obtain rfl : kind = .dot := (ofToken_mark rfl).mp isDot
    obtain ⟨rfl, rfl⟩ := ofToken_identifier.mp isWord
    rw [nameTail]
    exact ih more

theorem name_of_takes {tree : Name} (taken : Takes tokens tree.terminals rest)
    (noDot : NoDot (terminalsOf rest)) : name tokens = .ok (tree.text, rest) := by
  obtain ⟨behind, first, others⟩ := taken.uncons
  exact except_bind_ok.mpr ⟨_, one_identifier.mpr first, nameTail_of_takes others noDot⟩

theorem qualifiedName_of_takes {tree : Name} (taken : Takes tokens tree.terminals rest)
    (noDot : NoDot (terminalsOf rest)) : qualifiedName tokens = .ok (tree.reference, rest) :=
  except_bind_ok.mpr ⟨_, name_of_takes taken noDot, rfl⟩

theorem clause_of_takes {word : String} {tree : Option Name} {firsts : List Terminal}
    (taken : Takes tokens (clauseTerminals word tree) rest) (ends : Begins firsts (terminalsOf rest))
    (noWord : .identifier word ∉ firsts) (noDot : .mark .dot ∉ firsts) :
    clause word tokens = .ok (tree.map Name.reference, rest) := by
  cases tree with
  | none =>
    obtain rfl := takes_nil.mp taken
    rw [clause, skipWord?_eq_none ends noWord]
    rfl
  | some name =>
    obtain ⟨behind, isWord, named⟩ := taken.uncons
    rw [clause, skipWord?_eq_some.mpr isWord]
    exact except_bind_ok.mpr ⟨_, qualifiedName_of_takes named (ends.noDot noDot), rfl⟩

theorem value_of_takes {tree : Value} (taken : Takes tokens tree.terminals rest)
    (noDot : NoDot (terminalsOf rest)) : value tokens = .ok (tree.text, rest) := by
  cases tree with
  | quoted text =>
    obtain ⟨⟨kind, own, offset⟩, _, rfl, isQuoted, taken⟩ := takes_cons.mp taken
    obtain rfl := takes_nil.mp taken
    cases kind <;> simp_all [Terminal.ofToken, value, Value.text, stringText_eq]
  | number text =>
    obtain ⟨⟨kind, own, offset⟩, _, rfl, isNumber, taken⟩ := takes_cons.mp taken
    obtain rfl := takes_nil.mp taken
    cases kind <;> simp_all [Terminal.ofToken, value, Value.text]
  | named tree =>
    have named := name_of_takes taken noDot
    obtain ⟨token, behind, rfl, isFirst, -⟩ := takes_cons.mp taken
    rw [value, (ofToken_identifier.mp isFirst).1]
    exact named

theorem moreValues_of_takes {steps : Nat} {trees : List Value}
    (taken : Takes tokens (trees.flatMap Value.furtherTerminals) rest)
    (ends : Begins [.mark .closeBracket] (terminalsOf rest)) (enough : trees.length ≤ steps) :
    moreValues steps tokens = .ok (trees.map Value.text, rest) := by
  induction trees generalizing tokens steps with
  | nil =>
    obtain rfl := takes_nil.mp taken
    cases steps with
    | zero => rfl
    | succ steps =>
      rw [moreValues, skip?_eq_none rfl ends (by simp)]
      rfl
  | cons first others ih =>
    cases steps with
    | zero => exact absurd enough (by simp)
    | succ steps =>
      rw [List.flatMap_cons] at taken
      obtain ⟨middle, head, further⟩ := taken.split
      obtain ⟨behind, comma, valued⟩ := head.uncons
      have follows : Begins afterItem (terminalsOf middle) := by
        refine further.begins ?_
        cases others with
        | nil => exact ends.mono (by simp [afterItem])
        | cons => simp [Value.furtherTerminals, afterItem]
      rw [moreValues, (skip?_eq_some rfl).mpr comma]
      exact except_bind_ok.mpr ⟨_, value_of_takes valued (follows.noDot (by simp [afterItem])),
        except_bind_ok.mpr ⟨_, ih further (Nat.le_of_succ_le_succ enough), rfl⟩⟩

theorem valueList_of_takes {trees : List Value}
    (taken : Takes tokens (Assignment.itemTerminals trees ++ [.mark .closeBracket]) rest) :
    valueList tokens = .ok (trees.map Value.text, rest) := by
  cases trees with
  | nil =>
    rw [valueList, (skip?_eq_some rfl).mpr taken]
    rfl
  | cons first others =>
    obtain ⟨middle, items, closed⟩ := taken.split
    obtain ⟨behind, valued, further⟩ := items.split
    have ends : Begins [.mark .closeBracket] (terminalsOf middle) := closed.begins (by simp)
    have follows : Begins afterItem (terminalsOf behind) :=
      further.begins (closed.terminalsOf_eq ▸ begins_items)
    have enough : others.length ≤ behind.length := by
      have written := length_le_flatMap Value.length_further others
      have length := further.length
      omega
    obtain ⟨text, isClosed⟩ := (one_mark rfl).mpr closed
    rw [valueList, skip?_eq_none_of_takes rfl first.ne_mark valued]
    exact except_bind_ok.mpr ⟨_, value_of_takes valued (follows.noDot (by simp [afterItem])),
      except_bind_ok.mpr ⟨_, moreValues_of_takes further ends enough, except_bind_ok.mpr ⟨_, isClosed, rfl⟩⟩⟩

theorem assigned_of_takes {tree : Assignment} (taken : Takes tokens tree.terminals rest)
    (ends : Begins afterHead (terminalsOf rest)) :
    assigned tokens = .ok ((tree.value, tree.values), rest) := by
  cases tree with
  | absent =>
    obtain rfl := takes_nil.mp taken
    rw [assigned, skip?_eq_none rfl ends (by simp [afterHead])]
    rfl
  | single value =>
    obtain ⟨behind, equals, valued⟩ := taken.uncons
    rw [assigned, (skip?_eq_some rfl).mpr equals]
    dsimp only
    rw [skip?_eq_none_of_takes rfl value.ne_mark valued]
    exact except_bind_ok.mpr ⟨_, value_of_takes valued (ends.noDot (by simp [afterHead])), rfl⟩
  | list items =>
    obtain ⟨behind, equals, listed⟩ := taken.uncons
    obtain ⟨left, opened, items⟩ := listed.uncons
    rw [assigned, (skip?_eq_some rfl).mpr equals]
    dsimp only
    rw [(skip?_eq_some rfl).mpr opened]
    exact except_bind_ok.mpr ⟨_, valueList_of_takes items, rfl⟩

theorem propertyType_of_takes {tree : Typing} (taken : Takes tokens tree.terminals rest)
    (ends : Begins afterType (terminalsOf rest)) :
    propertyType tokens = .ok ((tree.typeName, tree.isList), rest) := by
  have noDot : NoDot (terminalsOf rest) := ends.noDot (by simp [afterType, afterPresence, afterHead])
  cases tree with
  | absent =>
    obtain rfl := takes_nil.mp taken
    rw [propertyType, skip?_eq_none rfl ends (by simp [afterType, afterPresence, afterHead])]
    rfl
  | single tree =>
    obtain ⟨behind, colon, named⟩ := taken.uncons
    -- A second word `of` would have to be the first terminal behind the type.
    have unmarked : skipListMark? behind = none := by
      cases skipped : skipListMark? behind with
      | none => rfl
      | some after =>
        obtain ⟨middle, list, «of»⟩ := Option.bind_eq_some_iff.mp skipped
        have same := named.terminalsOf_eq.symm.trans
          ((skipWord?_eq_some.mp list).cons (skipWord?_eq_some.mp «of»)).terminalsOf_eq
        exact absurd same (tree.ne_listMark ends)
    rw [propertyType, (skip?_eq_some rfl).mpr colon]
    dsimp only
    rw [unmarked]
    exact except_bind_ok.mpr ⟨_, name_of_takes named noDot, rfl⟩
  | listOf tree =>
    obtain ⟨behind, colon, marked⟩ := taken.uncons
    obtain ⟨left, list, marked⟩ := marked.uncons
    obtain ⟨last, «of», named⟩ := marked.uncons
    have skipped : skipListMark? behind = some last :=
      Option.bind_eq_some_iff.mpr ⟨left, skipWord?_eq_some.mpr list, skipWord?_eq_some.mpr «of»⟩
    rw [propertyType, (skip?_eq_some rfl).mpr colon]
    dsimp only
    rw [skipped]
    exact except_bind_ok.mpr ⟨_, name_of_takes named noDot, rfl⟩

theorem presence_of_takes {given : Option Presence} (taken : Takes tokens (presenceTerminals given) rest)
    (ends : Begins afterPresence (terminalsOf rest)) : presence tokens = (given, rest) := by
  have noWord : ∀ word, .identifier word ∉ afterPresence := by simp [afterPresence, afterHead]
  cases given with
  | none =>
    obtain rfl := takes_nil.mp taken
    rw [presence, skipWord?_eq_none ends (noWord _), skipWord?_eq_none ends (noWord _)]
  | some given =>
    cases given with
    | mandatory =>
      have isMandatory : skipWord? "mandatory" tokens = some rest := skipWord?_eq_some.mpr taken
      rw [presence, isMandatory]
    | optional =>
      have begins : Begins [.identifier "optional"] (terminalsOf tokens) :=
        taken.begins (by simp [presenceTerminals, Presence.keyword])
      have notMandatory : skipWord? "mandatory" tokens = none := skipWord?_eq_none begins (by simp)
      have isOptional : skipWord? "optional" tokens = some rest := skipWord?_eq_some.mpr taken
      rw [presence, notMandatory, isOptional]

theorem propertyHead_of_takes {tree : Head} (taken : Takes tokens tree.terminals rest)
    (ends : Begins afterHead (terminalsOf rest)) : propertyHead tokens = .ok (tree.property, rest) := by
  obtain ⟨behindKey, key, taken⟩ := taken.uncons
  obtain ⟨behindType, typed, taken⟩ := taken.split
  obtain ⟨behindPresence, given, assigning⟩ := taken.split
  have endsPresence := assigning.begins (begins_assignment ends)
  have endsType := given.begins (begins_presence endsPresence)
  have present := presence_of_takes given endsPresence
  refine except_bind_ok.mpr ⟨_, one_identifier.mpr key,
    except_bind_ok.mpr ⟨_, propertyType_of_takes typed endsType, ?_⟩⟩
  dsimp only
  rw [present]
  exact except_bind_ok.mpr ⟨_, assigned_of_takes assigning ends, rfl⟩

mutual

theorem property_of_takes : ∀ (tree : Node) {steps : Nat} {tokens rest : List Token},
    Takes tokens tree.terminals rest → tree.terminals.length ≤ steps →
      property steps tokens = .ok (tree.property, rest)
  | .plain head, steps, tokens, rest, taken, enough => by
    rw [Node.terminals] at taken enough
    obtain ⟨behind, headed, closed⟩ := taken.split
    have ends : Begins afterHead (terminalsOf behind) := closed.begins (by simp [afterHead])
    obtain ⟨text, isClosed⟩ := (one_mark rfl).mpr closed
    obtain ⟨steps, rfl⟩ := Nat.exists_eq_succ_of_ne_zero (n := steps) (by
      rintro rfl
      simp at enough)
    have notOpened : skip? .openBrace behind = none :=
      skip?_eq_none_of_takes rfl (by simp) closed
    rw [property]
    refine except_bind_ok.mpr ⟨_, propertyHead_of_takes headed ends, ?_⟩
    dsimp only
    rw [notOpened, Node.property]
    exact except_bind_ok.mpr ⟨_, isClosed, rfl⟩
  | .compound head trees, steps, tokens, rest, taken, enough => by
    rw [Node.terminals] at taken enough
    obtain ⟨behind, headed, taken⟩ := taken.split
    obtain ⟨left, opened, nested⟩ := taken.uncons
    have ends : Begins afterHead (terminalsOf behind) := opened.begins (by simp [afterHead])
    obtain ⟨steps, rfl⟩ := Nat.exists_eq_succ_of_ne_zero (n := steps) (by
      rintro rfl
      simp at enough)
    have enoughBelow : (Node.attributesTerminals trees).length + 1 ≤ steps := by
      simp only [List.length_append, List.length_cons] at enough
      have one := head.length_pos
      omega
    rw [property]
    refine except_bind_ok.mpr ⟨_, propertyHead_of_takes headed ends, ?_⟩
    dsimp only
    rw [(skip?_eq_some rfl).mpr opened, Node.property]
    exact except_bind_ok.mpr ⟨_, attributes_of_takes trees nested enoughBelow, rfl⟩

theorem attributes_of_takes : ∀ (trees : List Node) {steps : Nat} {tokens rest : List Token},
    Takes tokens (Node.attributesTerminals trees ++ [.mark .closeBrace]) rest →
      (Node.attributesTerminals trees).length + 1 ≤ steps →
      attributes steps tokens = .ok (Node.properties trees, rest)
  | [], steps + 1, tokens, rest, taken, _ => by
    rw [Node.attributesTerminals, List.nil_append] at taken
    unfold attributes
    rw [(skip?_eq_some rfl).mpr taken, Node.properties]
  | first :: others, steps + 1, tokens, rest, taken, enough => by
    rw [Node.attributesTerminals] at taken enough
    rw [List.append_assoc] at taken
    obtain ⟨behind, head, further⟩ := taken.split
    have notClosed := skip?_eq_none_of_takes rfl first.ne_closeBrace head
    have one := first.length_pos
    rw [List.length_append] at enough
    have length := head.length
    obtain ⟨token, more, rfl⟩ := List.exists_cons_of_length_pos (l := tokens) (by omega)
    unfold attributes
    rw [notClosed, Node.properties]
    exact except_bind_ok.mpr ⟨_, property_of_takes first head (by omega),
      except_bind_ok.mpr ⟨_, attributes_of_takes others further (by omega), rfl⟩⟩

end

theorem directive_of_takes {tree : Name} (taken : Takes tokens (tree.terminals ++ [.mark .semicolon]) rest) :
    directive tokens = .ok (tree.reference, rest) := by
  obtain ⟨behind, named, closed⟩ := taken.split
  have ends : Begins [.mark .semicolon] (terminalsOf behind) := closed.begins (by simp)
  obtain ⟨text, isClosed⟩ := (one_mark rfl).mpr closed
  exact except_bind_ok.mpr ⟨_, qualifiedName_of_takes named (ends.noDot (by simp)),
    except_bind_ok.mpr ⟨_, isClosed, rfl⟩⟩

/-- Behind the word of a directive comes the first word of its name. -/
theorem skipDirective?_of_takes {word : String} {tree : Name}
    (taken : Takes tokens (Member.directiveTerminals word tree) rest) :
    ∃ behind, skipDirective? word tokens = some behind ∧
      Takes behind (tree.terminals ++ [.mark .semicolon]) rest := by
  obtain ⟨behind, isWord, directed⟩ := taken.uncons
  exact ⟨behind, skipDirective?_eq_some.mpr ⟨isWord, tree.first, _, directed.terminalsOf_eq⟩, directed⟩

theorem member_of_takes {element : Element} {tree : Member} (taken : Takes tokens tree.terminals rest) :
    member element tokens = .ok (extend element [tree], rest) := by
  cases tree with
  | feature name =>
    obtain ⟨behind, skipped, directed⟩ := skipDirective?_of_takes taken
    rw [member, skipped]
    refine except_bind_ok.mpr ⟨_, directive_of_takes directed, ?_⟩
    simp [extend, Member.property?, Member.feature?, Member.call?]
  | call name =>
    obtain ⟨behind, skipped, directed⟩ := skipDirective?_of_takes taken
    have noFeature : skipDirective? "use" tokens = none := by
      cases feature : skipDirective? "use" tokens with
      | none => rfl
      | some other =>
        have word := (skipDirective?_eq_some.mp feature).1.terminalsOf_eq
        have same := (skipDirective?_eq_some.mp skipped).1.terminalsOf_eq.symm.trans word
        simp at same
    rw [member, noFeature, skipped]
    refine except_bind_ok.mpr ⟨_, directive_of_takes directed, ?_⟩
    simp [extend, Member.property?, Member.feature?, Member.call?]
  | property node plain =>
    have noDirective : opensDirective (terminalsOf tokens) = false := by
      rw [taken.terminalsOf_eq]
      exact (opensDirective_node node _).trans plain
    have enough : node.terminals.length ≤ tokens.length := Nat.le.intro taken.length
    rw [member, skipDirective?_eq_none rfl noDirective, skipDirective?_eq_none rfl noDirective]
    refine except_bind_ok.mpr ⟨_, property_of_takes node taken enough, ?_⟩
    simp [extend, Member.property?, Member.feature?, Member.call?]

theorem members_of_takes {steps : Nat} {element : Element} {trees : List Member}
    (taken : Takes tokens (trees.flatMap Member.terminals ++ [.mark .closeBrace]) rest)
    (enough : trees.length < steps) : members element steps tokens = .ok (extend element trees, rest) := by
  induction trees generalizing element tokens steps with
  | nil =>
    obtain ⟨steps, rfl⟩ := Nat.exists_eq_succ_of_ne_zero (Nat.ne_of_gt enough)
    unfold members
    rw [(skip?_eq_some rfl).mpr taken, extend_nil]
  | cons first others ih =>
    obtain ⟨steps, rfl⟩ := Nat.exists_eq_succ_of_ne_zero (Nat.ne_of_gt (Nat.zero_lt_of_lt enough))
    rw [List.flatMap_cons, List.append_assoc] at taken
    obtain ⟨behind, head, further⟩ := taken.split
    have notClosed := skip?_eq_none_of_takes rfl first.ne_closeBrace head
    have one := first.length_pos
    have length := head.length
    obtain ⟨token, more, rfl⟩ := List.exists_cons_of_length_pos (l := tokens) (by omega)
    unfold members
    rw [notClosed, ← extend_extend]
    exact except_bind_ok.mpr ⟨_, member_of_takes head, ih further (Nat.lt_of_succ_lt_succ enough)⟩

theorem elementHead_of_takes {tree : Declaration} (taken : Takes tokens tree.terminals rest) :
    ∃ behind, elementHead file domain tokens = .ok (tree.bare file domain, behind) ∧
      Takes behind (bodyTerminals tree.body) rest := by
  obtain ⟨token, behindKind, rfl, isKeyword, taken⟩ := takes_cons.mp taken
  obtain ⟨isIdentifier, keyword⟩ := ofToken_identifier.mp isKeyword
  obtain ⟨behindName, named, taken⟩ := taken.split
  obtain ⟨behindAncestor, derived, taken⟩ := taken.split
  obtain ⟨behindParent, extending, bodied⟩ := taken.split
  have endsParent : Begins afterClauses (terminalsOf behindParent) := bodied.begins begins_body
  have endsAncestor : Begins afterAncestor (terminalsOf behindAncestor) :=
    extending.begins (begins_clause endsParent)
  have endsName : Begins afterName (terminalsOf behindName) := derived.begins (begins_clause endsAncestor)
  refine ⟨behindParent, ?_, bodied⟩
  rw [elementHead, if_pos isIdentifier, keyword, ofKeyword?_keyword, Declaration.bare, Declaration.completed_eq]
  exact except_bind_ok.mpr ⟨_, qualifiedName_of_takes named
      (endsName.noDot (by simp [afterName, afterAncestor, afterClauses])),
    except_bind_ok.mpr ⟨_, clause_of_takes derived endsAncestor (by simp [afterAncestor, afterClauses])
        (by simp [afterAncestor, afterClauses]),
      except_bind_ok.mpr ⟨_, clause_of_takes extending endsParent (by simp [afterClauses])
        (by simp [afterClauses]), rfl⟩⟩⟩

theorem element_of_takes {tree : Declaration} (taken : Takes tokens tree.terminals rest) :
    element file domain tokens = .ok (tree.element file domain, rest) := by
  obtain ⟨behind, headed, bodied⟩ := elementHead_of_takes taken
  refine except_bind_ok.mpr ⟨_, headed, ?_⟩
  rw [Declaration.element_eq, Declaration.members]
  dsimp only
  cases body : tree.body with
  | none =>
    rw [body] at bodied
    rw [(skip?_eq_some rfl).mpr bodied]
    simp [extend_nil]
  | some members =>
    rw [body] at bodied
    obtain ⟨left, opened, listed⟩ := bodied.uncons
    obtain ⟨text, isOpened⟩ := (one_mark rfl).mpr opened
    have notEmpty : skip? .semicolon behind = none :=
      skip?_eq_none_of_takes rfl (by simp) opened
    have enough : members.length < left.length.succ := by
      have written := length_le_flatMap Member.length_pos members
      have length := listed.length
      rw [List.length_append] at length
      omega
    rw [notEmpty]
    exact except_bind_ok.mpr ⟨_, isOpened, members_of_takes listed enough⟩

theorem elements_of_takes {steps : Nat} {trees : List Declaration}
    (taken : Takes tokens (trees.flatMap Declaration.terminals) []) (enough : trees.length ≤ steps) :
    elements file domain steps tokens = .ok (trees.map (Declaration.element file domain)) := by
  induction trees generalizing tokens steps with
  | nil =>
    obtain rfl := takes_nil.mp taken
    cases steps <;> rfl
  | cons first others ih =>
    cases steps with
    | zero => exact absurd enough (by simp)
    | succ steps =>
      rw [List.flatMap_cons] at taken
      obtain ⟨behind, head, further⟩ := taken.split
      have one := first.length_pos
      have length := head.length
      obtain ⟨token, more, rfl⟩ := List.exists_cons_of_length_pos (l := tokens) (by omega)
      exact except_bind_ok.mpr ⟨_, element_of_takes head,
        except_bind_ok.mpr ⟨_, ih further (Nat.le_of_succ_le_succ enough), rfl⟩⟩

theorem domain_of_takes {tree : Option Name} {trees : List Declaration}
    (taken : Takes tokens (domainTerminals tree) rest)
    (others : Takes rest (trees.flatMap Declaration.terminals) []) :
    Read.domain tokens = .ok (tree.map Name.text, rest) := by
  cases tree with
  | none =>
    obtain rfl := takes_nil.mp taken
    have noDomain : skipWord? "domain" tokens = none := by
      cases skipped : skipWord? "domain" tokens with
      | none => rfl
      | some behind =>
        have same := others.terminalsOf_eq.symm.trans (skipWord?_eq_some.mp skipped).terminalsOf_eq
        rw [terminalsOf, List.map_nil, List.append_nil] at same
        exact absurd same (ne_domain trees _)
    rw [Read.domain, noDomain]
    rfl
  | some name =>
    obtain ⟨behind, isDomain, taken⟩ := taken.uncons
    obtain ⟨left, named, closed⟩ := taken.split
    have ends : Begins [.mark .semicolon] (terminalsOf left) := closed.begins (by simp)
    obtain ⟨text, isClosed⟩ := (one_mark rfl).mpr closed
    rw [Read.domain, skipWord?_eq_some.mpr isDomain]
    exact except_bind_ok.mpr ⟨_, name_of_takes named (ends.noDot (by simp)),
      except_bind_ok.mpr ⟨_, isClosed, rfl⟩⟩

theorem document_of_terminals {tree : Source} (written : tree.terminals = terminalsOf tokens) :
    document file tokens = .ok (tree.document file) := by
  obtain ⟨behind, declared, listed⟩ := (takes_all.mpr written).split
  have enough : tree.declarations.length ≤ behind.length := by
    have each := length_le_flatMap Declaration.length_pos tree.declarations
    have length := listed.length
    omega
  exact except_bind_ok.mpr ⟨_, domain_of_takes declared listed,
    except_bind_ok.mpr ⟨_, elements_of_takes listed enough, rfl⟩⟩

end Read

namespace Grammar

/-- A text is read as the document of a tree that writes its tokens. -/
theorem parse_eq_ok {text file : String} {document : Document} :
    Document.parse text file = .ok document ↔
      ∃ tree : Source, tree.terminals = terminalsOf (Token.ofText text) ∧ tree.document file = document := by
  rw [Document.parse, mapError_ok]
  constructor
  · intro read
    obtain ⟨tree, rfl, written⟩ := Read.takes_document read
    exact ⟨tree, written, rfl⟩
  · rintro ⟨tree, written, rfl⟩
    exact Read.document_of_terminals written

/-- Reading accepts the texts that the grammar derives and no others. The document that it gives is
that of the derivation, and no text has two. -/
theorem parse_eq_ok_iff_derived (text file : String) :
    (∀ document, Document.parse text file = .ok document ↔
      ∃ tree : Source, tree.terminals = terminalsOf (Token.ofText text) ∧ tree.document file = document) ∧
    ∀ tree other : Source, tree.terminals = terminalsOf (Token.ofText text) →
      other.terminals = terminalsOf (Token.ofText text) → tree = other :=
  ⟨fun _ => parse_eq_ok, fun _ _ first second => Source.unique (first.trans second.symm)⟩

end Grammar
end Requirements
