import Requirements.Proofs.Document.Viable

/-! What a reader does is settled by the tokens that it takes and the one behind them. It is so for every
reader of the grammar, since readers that look so far ahead can be put one after the other and chosen
between by the next token. Only directives and the mark of lists look at a second token, and there the
first is taken whichever way reading goes on. -/
namespace Requirements
namespace Read

open Grammar

variable {α β : Type}

def left : Except Stuck (α × List Token) → List Token
  | .ok (_, rest) => rest
  | .error stuck => stuck.rest

def leaving (rest : List Token) : Except Stuck (α × List Token) → Except Stuck (α × List Token)
  | .ok (found, _) => .ok (found, rest)
  | .error stuck => .error ⟨stuck.expected, rest⟩

theorem left_leaving (rest : List Token) (outcome : Except Stuck (α × List Token)) :
    left (leaving rest outcome) = rest := by
  cases outcome <;> rfl

theorem leaving_left (outcome : Except Stuck (α × List Token)) : leaving (left outcome) outcome = outcome := by
  cases outcome <;> rfl

theorem head?_front {tokens front rest more : List Token} (split : tokens = front ++ rest)
    (same : more.head? = rest.head?) : (front ++ more).head? = tokens.head? := by
  rw [split]
  cases front with
  | nil => exact same
  | cons => rfl

/-- What a reader does is settled by the tokens that it takes, none of them invalid, and the one that it
finds behind them. -/
def Predictive (read : Reader α) : Prop :=
  ∀ tokens, ∃ front, tokens = front ++ left (read tokens) ∧ (∀ token ∈ front, token.kind ≠ .invalid) ∧
    ∀ more, more.head? = (left (read tokens)).head? → read (front ++ more) = leaving more (read tokens)

def andThen (read : Reader α) (further : α → Reader β) : Reader β := fun tokens => do
  let (found, rest) ← read tokens
  further found rest

def ahead (sort : Token → Bool) (taking : Token → Reader α) (otherwise : Reader α) : Reader α
  | token :: rest => if sort token then taking token rest else otherwise (token :: rest)
  | [] => otherwise []

def skipping (kind : TokenKind) (taking otherwise : Reader α) : Reader α := fun tokens =>
  match skip? kind tokens with
  | some rest => taking rest
  | none => otherwise tokens

def skippingWord (word : String) (taking otherwise : Reader α) : Reader α := fun tokens =>
  match skipWord? word tokens with
  | some rest => taking rest
  | none => otherwise tokens

def directing (word : String) (taking otherwise : Reader α) : Reader α := fun tokens =>
  match skipDirective? word tokens with
  | some rest => taking rest
  | none => otherwise tokens

def gives (found : α) : Reader α := fun tokens => .ok (found, tokens)

def expects (expected : Expected) : Reader α := fun tokens => .error ⟨expected, tokens⟩

theorem predictive_gives (found : α) : Predictive (gives found) :=
  fun _ => ⟨[], rfl, by simp, fun _ _ => rfl⟩

theorem predictive_expects (expected : Expected) : Predictive (expects expected : Reader α) :=
  fun _ => ⟨[], rfl, by simp, fun _ _ => rfl⟩

theorem Predictive.andThen {read : Reader α} {further : α → Reader β} (first : Predictive read)
    (second : ∀ found, Predictive (further found)) : Predictive (andThen read further) := by
  intro tokens
  obtain ⟨front, split, valid, again⟩ := first tokens
  cases outcome : read tokens with
  | error stuck =>
    have whole : Read.andThen read further tokens = .error stuck := by
      rw [Read.andThen, outcome]
      rfl
    rw [outcome] at split again
    rw [whole]
    refine ⟨front, split, valid, fun more same => ?_⟩
    rw [Read.andThen, again more same]
    rfl
  | ok found =>
    obtain ⟨found, middle⟩ := found
    have whole : Read.andThen read further tokens = further found middle := by
      rw [Read.andThen, outcome]
      rfl
    rw [outcome] at split again
    obtain ⟨behind, splitMiddle, validBehind, againBehind⟩ := second found middle
    rw [whole]
    refine ⟨front ++ behind, ?_, ?_, fun more same => ?_⟩
    · rw [List.append_assoc, ← splitMiddle]
      exact split
    · intro token member
      exact (List.mem_append.mp member).elim (valid token) (validBehind token)
    · rw [Read.andThen, List.append_assoc, again _ (head?_front splitMiddle same)]
      exact againBehind more same

theorem Predictive.ahead {sort : Token → Bool} {taking : Token → Reader α} {otherwise : Reader α}
    (valid : ∀ token, sort token → token.kind ≠ .invalid) (takes : ∀ token, sort token → Predictive (taking token))
    (passes : Predictive otherwise) : Predictive (ahead sort taking otherwise) := by
  intro tokens
  by_cases isNext : ∃ token rest, tokens = token :: rest ∧ sort token
  · obtain ⟨token, rest, rfl, ofSort⟩ := isNext
    have taken : ∀ rest, Read.ahead sort taking otherwise (token :: rest) = taking token rest := fun _ => if_pos ofSort
    obtain ⟨front, split, validFront, again⟩ := takes token ofSort rest
    rw [taken]
    refine ⟨token :: front, congrArg (token :: ·) split, ?_, fun more same => ?_⟩
    · exact List.forall_mem_cons.mpr ⟨valid token ofSort, validFront⟩
    · rw [List.cons_append, taken, again more same]
  · have passed : ∀ others, others.head? = tokens.head? →
        Read.ahead sort taking otherwise others = otherwise others := by
      intro others same
      cases others with
      | nil => rfl
      | cons token rest =>
        have notSort : ¬sort token := by
          intro ofSort
          cases tokens with
          | nil => cases same
          | cons other rest =>
            obtain rfl := Option.some.inj same
            exact isNext ⟨token, rest, rfl, ofSort⟩
        exact if_neg notSort
    obtain ⟨front, split, validFront, again⟩ := passes tokens
    rw [passed tokens rfl]
    refine ⟨front, split, validFront, fun more same => ?_⟩
    rw [passed _ (head?_front split same), again more same]

theorem Predictive.congr {read other : Reader α} (reads : Predictive other)
    (same : ∀ tokens, read tokens = other tokens) : Predictive read :=
  (funext same : read = other) ▸ reads

theorem Predictive.map {read : Reader α} (reads : Predictive read) (f : α → β) :
    Predictive (Read.andThen read fun found => gives (f found)) :=
  reads.andThen fun found => predictive_gives (f found)

theorem Predictive.skipping {taking otherwise : Reader α} (kind : TokenKind) (valid : kind ≠ .invalid)
    (takes : Predictive taking) (passes : Predictive otherwise) : Predictive (skipping kind taking otherwise) := by
  have ofKind : ∀ token : Token, token.kind = kind → token.kind ≠ .invalid := fun _ same => same ▸ valid
  have parts := Predictive.ahead (by simpa using ofKind : ∀ token : Token, (token.kind = kind : Bool) → _)
    (fun _ _ => takes) passes
  refine parts.congr fun tokens => ?_
  cases tokens with
  | nil => rfl
  | cons token rest => by_cases isKind : token.kind = kind <;> simp [Read.skipping, skip?, Read.ahead, isKind]

theorem kind_of_isWord {word : String} {token : Token} (isWord : isWord word token) : token.kind = .identifier := by
  simp only [Read.isWord, Bool.and_eq_true, beq_iff_eq] at isWord
  exact isWord.1

theorem Predictive.skippingWord {taking otherwise : Reader α} (word : String) (takes : Predictive taking)
    (passes : Predictive otherwise) : Predictive (skippingWord word taking otherwise) := by
  have valid : ∀ token, isWord word token → token.kind ≠ .invalid := fun token isWord => by simp [kind_of_isWord isWord]
  refine (Predictive.ahead valid (fun _ _ => takes) passes).congr fun tokens => ?_
  cases tokens with
  | nil => rfl
  | cons token rest => by_cases isWord : isWord word token <;> simp [Read.skippingWord, skipWord?, Read.ahead, isWord]

/-- At the end of the text there is nothing to take. -/
theorem Predictive.unlessEmpty {read whole : Reader α} (reads : Predictive read) (empty : left (whole []) = [])
    (cons : ∀ token rest, whole (token :: rest) = read (token :: rest)) : Predictive whole := by
  intro tokens
  cases tokens with
  | nil =>
    refine ⟨[], empty.symm, by simp, fun more same => ?_⟩
    rw [empty] at same
    obtain rfl := List.head?_eq_none_iff.mp same
    exact (empty ▸ leaving_left (whole [])).symm
  | cons token rest =>
    obtain ⟨front, split, valid, again⟩ := reads (token :: rest)
    rw [cons]
    refine ⟨front, split, valid, fun more same => ?_⟩
    obtain ⟨others, starts⟩ := List.head?_eq_some_iff.mp (head?_front split same)
    rw [starts, cons, ← starts]
    exact again more same

/-- A reader that takes a token where it stands alone takes it wherever it comes first. -/
theorem Predictive.takes {read : Reader α} (reads : Predictive read) {token : Token} (alone : left (read [token]) = [])
    (rest : List Token) : left (read (token :: rest)) ≠ token :: rest := by
  intro same
  obtain ⟨front, split, -, again⟩ := reads (token :: rest)
  rw [same] at split again
  obtain rfl : front = [] := List.self_eq_append_left.mp split
  have left : left (read [token]) = [token] := (congrArg left (again [token] rfl)).trans (left_leaving _ _)
  cases left.symm.trans alone

/-- With steps enough it makes no difference how many there are. -/
theorem Predictive.enough {read : Nat → Reader α} {extra : Nat} (each : ∀ steps, Predictive (read steps))
    (alike : ∀ {steps enough tokens}, tokens.length + extra ≤ steps → tokens.length + extra ≤ enough →
      read steps tokens = read enough tokens) : Predictive fun tokens => read (tokens.length + extra) tokens := by
  intro tokens
  obtain ⟨front, split, valid, -⟩ := each (tokens.length + extra) tokens
  refine ⟨front, split, valid, fun more same => ?_⟩
  obtain ⟨steps, some, others⟩ : ∃ steps, tokens.length + extra ≤ steps ∧ (front ++ more).length + extra ≤ steps :=
    ⟨_, Nat.le_max_left _ _, Nat.le_max_right _ _⟩
  have here : read (tokens.length + extra) tokens = read steps tokens := alike (Nat.le_refl _) some
  have there : read ((front ++ more).length + extra) (front ++ more) = read steps (front ++ more) :=
    alike (Nat.le_refl _) others
  obtain ⟨other, splitToo, -, again⟩ := each steps tokens
  dsimp only at same split ⊢
  rw [here] at same split ⊢
  rw [there]
  obtain rfl : other = front := List.append_cancel_right (splitToo.symm.trans split)
  exact again more same

/-- Where two tokens settle which way to go, and either way takes the first of them, this is settled once
the first is taken. -/
theorem Predictive.choose {read first second : Reader α} (one : Predictive first) (chosen : List Token → Prop)
    (other : Predictive second) (nonempty : ¬chosen [])
    (looks : ∀ {token front rest more}, more.head? = rest.head? → chosen (token :: (front ++ rest)) →
      chosen (token :: (front ++ more)))
    (alone : ∀ {token rest}, chosen (token :: rest) → left (first [token]) = [] ∧ left (second [token]) = [])
    (taken : ∀ {tokens}, chosen tokens → read tokens = first tokens)
    (passed : ∀ {tokens}, ¬chosen tokens → read tokens = second tokens) : Predictive read := by
  intro tokens
  by_cases isChosen : chosen tokens
  · obtain ⟨front, split, valid, again⟩ := one tokens
    rw [taken isChosen]
    refine ⟨front, split, valid, fun more same => ?_⟩
    cases front with
    | nil =>
      obtain ⟨token, rest, rfl⟩ := List.exists_cons_of_ne_nil fun empty => nonempty (empty ▸ isChosen)
      exact absurd split.symm (one.takes (alone isChosen).1 rest)
    | cons token front =>
      rw [split] at isChosen
      exact (taken (looks same isChosen)).trans (again more same)
  · obtain ⟨front, split, valid, again⟩ := other tokens
    rw [passed isChosen]
    refine ⟨front, split, valid, fun more same => ?_⟩
    rw [← again more same]
    apply passed
    intro chosenMore
    cases front with
    | nil =>
      obtain ⟨token, rest, rfl⟩ := List.exists_cons_of_ne_nil fun empty => nonempty (empty ▸ chosenMore)
      obtain ⟨behind, rfl⟩ := List.head?_eq_some_iff.mp ((head?_front split same).symm)
      exact absurd split.symm (other.takes (alone chosenMore).2 behind)
    | cons token front =>
      rw [split] at isChosen
      exact isChosen (looks same.symm chosenMore)

/-! ### Steps

Every round of a loop takes a token, so a loop has steps enough where it has as many as there are tokens. -/

theorem moreValues_enough {steps enough : Nat} {tokens : List Token} (some : tokens.length ≤ steps)
    (others : tokens.length ≤ enough) : moreValues steps tokens = moreValues enough tokens := by
  induction steps generalizing enough tokens with
  | zero =>
    obtain rfl := List.eq_nil_of_length_eq_zero (Nat.le_zero.mp some)
    cases enough <;> rfl
  | succ steps ih =>
    cases enough with
    | zero =>
      obtain rfl := List.eq_nil_of_length_eq_zero (Nat.le_zero.mp others)
      rfl
    | succ enough =>
      rw [moreValues, moreValues]
      cases skipped : skip? .comma tokens with
      | none => rfl
      | some behind =>
        refine except_bind_congr ?_
        rintro ⟨first, left⟩ valued
        have comma := ((skip?_eq_some rfl).mp skipped).length
        obtain ⟨tree, -, taken⟩ := takes_value valued
        have shorter := taken.length
        simp only [List.length_singleton] at comma
        have same : moreValues steps left = moreValues enough left := ih (by omega) (by omega)
        simp only [same]

theorem property_attributes_enough (steps : Nat) :
    (∀ {enough tokens}, tokens.length ≤ steps → tokens.length ≤ enough →
      property steps tokens = property enough tokens) ∧
    ∀ {enough tokens}, tokens.length + 1 ≤ steps → tokens.length + 1 ≤ enough →
      attributes steps tokens = attributes enough tokens := by
  induction steps with
  | zero =>
    constructor
    · intro enough tokens some others
      obtain rfl := List.eq_nil_of_length_eq_zero (Nat.le_zero.mp some)
      cases enough <;> rfl
    · intro enough tokens some
      exact absurd some (by simp)
  | succ steps ih =>
    constructor
    · intro enough tokens some others
      cases enough with
      | zero =>
        obtain rfl := List.eq_nil_of_length_eq_zero (Nat.le_zero.mp others)
        rfl
      | succ enough =>
        rw [property, property]
        refine except_bind_congr ?_
        rintro ⟨head, left⟩ headed
        obtain ⟨tree, -, taken⟩ := takes_propertyHead headed
        have shorter := taken.length
        have positive := tree.length_pos
        dsimp only
        cases opened : skip? .openBrace left with
        | none => rfl
        | some behind =>
          have brace := ((skip?_eq_some rfl).mp opened).length
          simp only [List.length_singleton] at brace
          have same : attributes steps behind = attributes enough behind := ih.2 (by omega) (by omega)
          simp only [same]
    · intro enough tokens some others
      obtain ⟨enough, rfl⟩ := Nat.exists_eq_add_one_of_ne_zero (Nat.ne_zero_of_lt others)
      unfold attributes
      cases skipped : skip? .closeBrace tokens with
      | some => rfl
      | none =>
        cases tokens with
        | nil => rfl
        | cons token rest =>
          have same : property steps (token :: rest) = property enough (token :: rest) :=
            ih.1 (by simpa using some) (by simpa using others)
          simp only [same]
          refine except_bind_congr ?_
          rintro ⟨first, left⟩ head
          obtain ⟨tree, -, taken⟩ := (takes_property_attributes enough).1 head
          have shorter := taken.length
          have positive := tree.length_pos
          have further : attributes steps left = attributes enough left := ih.2 (by omega) (by omega)
          simp only [further]

theorem members_enough {element : Element} {steps enough : Nat} {tokens : List Token}
    (some : tokens.length + 1 ≤ steps) (others : tokens.length + 1 ≤ enough) :
    members element steps tokens = members element enough tokens := by
  induction steps generalizing element enough tokens with
  | zero => exact absurd some (by simp)
  | succ steps ih =>
    obtain ⟨enough, rfl⟩ := Nat.exists_eq_add_one_of_ne_zero (Nat.ne_zero_of_lt others)
    unfold members
    cases skipped : skip? .closeBrace tokens with
    | some => rfl
    | none =>
      cases tokens with
      | nil => rfl
      | cons token rest =>
        refine except_bind_congr ?_
        rintro ⟨extended, left⟩ added
        obtain ⟨tree, -, taken⟩ := takes_member added
        have shorter := taken.length
        have positive := tree.length_pos
        exact ih (by omega) (by omega)

theorem elements_enough {file : String} {domain : Option String} {steps enough : Nat} {tokens : List Token}
    (some : tokens.length ≤ steps) (others : tokens.length ≤ enough) :
    elements file domain steps tokens = elements file domain enough tokens := by
  induction steps generalizing enough tokens with
  | zero =>
    obtain rfl := List.eq_nil_of_length_eq_zero (Nat.le_zero.mp some)
    cases enough <;> rfl
  | succ steps ih =>
    cases tokens with
    | nil => cases enough <;> rfl
    | cons token rest =>
      obtain ⟨enough, rfl⟩ := Nat.exists_eq_add_one_of_ne_zero (Nat.ne_zero_of_lt others)
      refine except_bind_congr ?_
      rintro ⟨first, left⟩ head
      obtain ⟨tree, -, taken⟩ := takes_element head
      have shorter := taken.length
      have positive := tree.length_pos
      have same : elements file domain steps left = elements file domain enough left := ih (by omega) (by omega)
      simp only [same]

/-! ### The readers -/

theorem predictive_one (kind : TokenKind) (valid : kind ≠ .invalid) : Predictive (one kind) := by
  have ofKind : ∀ token : Token, token.kind = kind → token.kind ≠ .invalid := fun _ same => same ▸ valid
  have parts := Predictive.ahead (by simpa using ofKind : ∀ token : Token, (token.kind = kind : Bool) → _)
    (fun token _ => predictive_gives token.text) (predictive_expects (.token kind))
  refine parts.congr fun tokens => ?_
  cases tokens with
  | nil => rfl
  | cons token rest => by_cases isKind : token.kind = kind <;> simp [one, ahead, gives, expects, isKind]

theorem predictive_nameTail (start : String) : Predictive (nameTail start) := by
  intro tokens
  fun_induction nameTail start tokens with
  | case1 start dot place word spot behind ih =>
    obtain ⟨front, split, valid, again⟩ := ih
    refine ⟨⟨.dot, dot, place⟩ :: ⟨.identifier, word, spot⟩ :: front, by simp [← split], by simpa using valid,
      fun more same => ?_⟩
    rw [List.cons_append, List.cons_append, nameTail]
    exact again more same
  | case2 start dot place behind other =>
    refine ⟨[⟨.dot, dot, place⟩], rfl, by simp, fun more same => ?_⟩
    have otherMore : ∀ word spot rest, more ≠ ⟨.identifier, word, spot⟩ :: rest := by
      rintro word spot rest rfl
      obtain ⟨others, rfl⟩ := List.head?_eq_some_iff.mp same.symm
      exact other word spot others rfl
    rw [List.singleton_append, nameTail]
    · rfl
    · exact otherMore
  | case3 start tokens noName noDot =>
    refine ⟨[], rfl, by simp, fun more same => ?_⟩
    have noDotMore : ∀ dot place rest, more ≠ ⟨.dot, dot, place⟩ :: rest := by
      rintro dot place rest rfl
      obtain ⟨others, rfl⟩ := List.head?_eq_some_iff.mp same.symm
      exact noDot dot place others rfl
    rw [List.nil_append, nameTail]
    · rfl
    · exact fun dot place word spot rest => noDotMore dot place _
    · exact noDotMore

theorem predictive_name : Predictive name := by
  have parts := (predictive_one .identifier (by decide)).andThen predictive_nameTail
  exact parts

theorem predictive_qualifiedName : Predictive qualifiedName := by
  have parts := predictive_name.map QualifiedName.parse
  exact parts

theorem predictive_clause (word : String) : Predictive (clause word) := by
  refine ((predictive_qualifiedName.map some).skippingWord word (predictive_gives none)).congr fun tokens => ?_
  rw [clause, skippingWord]
  cases skipWord? word tokens <;> rfl

theorem predictive_value : Predictive value := by
  have named : Predictive (ahead (·.kind = .identifier) (fun token => nameTail token.text) (expects .value)) :=
    .ahead (by simp +contextual) (fun _ _ => predictive_nameTail _) (predictive_expects _)
  have number : Predictive (ahead (·.kind = .number) (fun token => gives token.text) _) :=
    .ahead (by simp +contextual) (fun _ _ => predictive_gives _) named
  have quoted : Predictive (ahead (·.kind = .quoted) (fun token => gives (quotedText token.text)) _) :=
    .ahead (by simp +contextual) (fun _ _ => predictive_gives _) number
  refine quoted.congr fun tokens => ?_
  cases tokens with
  | nil => rfl
  | cons token rest =>
    obtain ⟨kind, text, offset⟩ := token
    cases kind <;> rfl

theorem predictive_moreValues (steps : Nat) : Predictive (moreValues steps) := by
  induction steps with
  | zero => exact predictive_gives []
  | succ steps ih =>
    have further := predictive_value.andThen fun first => ih.map (first :: ·)
    refine (further.skipping .comma (by decide) (predictive_gives [])).congr fun tokens => ?_
    rw [moreValues, skipping]
    cases skip? .comma tokens <;> rfl

theorem predictive_valueList : Predictive valueList := by
  have rest : Predictive fun tokens => moreValues (tokens.length + 0) tokens :=
    .enough predictive_moreValues moreValues_enough
  have closed := predictive_one .closeBracket (by decide)
  have items := predictive_value.andThen fun first => rest.andThen fun others => closed.map fun _ => first :: others
  refine ((predictive_gives []).skipping .closeBracket (by decide) items).congr fun tokens => ?_
  rw [valueList, skipping]
  cases skip? .closeBracket tokens <;> rfl

theorem predictive_assigned : Predictive assigned := by
  have list := predictive_valueList.map fun items => ((none : Option String), items)
  have single := predictive_value.map fun item => (some item, ([] : List String))
  have given := list.skipping .openBracket (by decide) single
  have parts := given.skipping .equals (by decide) (predictive_gives (none, []))
  refine parts.congr fun tokens => ?_
  rw [assigned, skipping]
  cases skip? .equals tokens with
  | none => rfl
  | some rest =>
    dsimp only
    rw [skipping]
    cases skip? .openBracket rest <;> rfl

theorem predictive_presence : Predictive fun tokens => .ok (presence tokens) := by
  have optional := (predictive_gives (some Presence.optional)).skippingWord "optional" (predictive_gives none)
  have parts := (predictive_gives (some Presence.mandatory)).skippingWord "mandatory" optional
  refine parts.congr fun tokens => ?_
  rw [presence, skippingWord, skippingWord]
  cases skipWord? "mandatory" tokens <;> cases skipWord? "optional" tokens <;> rfl

/-- The word `list` is the first of a name unless the word `of` comes next. -/
theorem predictive_propertyType : Predictive propertyType := by
  have marked := (predictive_name.map fun text => (some text, true)).skippingWord "of"
    ((predictive_nameTail "list").map fun text => (some text, false))
  have typed := marked.skippingWord "list" (predictive_name.map fun text => (some text, false))
  have parts := typed.skipping .colon (by decide) (predictive_gives (none, false))
  refine parts.congr fun tokens => ?_
  rw [propertyType, skipping]
  cases skip? .colon tokens with
  | none => rfl
  | some rest =>
    dsimp only
    rw [skippingWord, skipListMark?]
    cases list : skipWord? "list" rest with
    | none => rfl
    | some behind =>
      dsimp only [Option.bind_eq_bind, Option.bind_some]
      rw [skippingWord]
      cases skipWord? "of" behind with
      | some => rfl
      | none =>
        obtain ⟨token, _, rfl, isWord, same⟩ := takes_cons.mp (skipWord?_eq_some.mp list)
        obtain rfl := takes_nil.mp same
        obtain ⟨kind, text, offset⟩ := token
        obtain ⟨rfl, rfl⟩ := ofToken_identifier.mp isWord
        rfl

theorem predictive_propertyHead : Predictive propertyHead := by
  have parts := (predictive_one .identifier (by decide)).andThen fun key =>
    predictive_propertyType.andThen fun typing => predictive_presence.andThen fun presence =>
      predictive_assigned.map fun given =>
        ({ key, typeName := typing.1, presence, value := given.1, listOf := typing.2, values := given.2 } : Property)
  exact parts

theorem predictive_property_attributes (steps : Nat) : Predictive (property steps) ∧ Predictive (attributes steps) := by
  induction steps with
  | zero => exact ⟨predictive_expects _, predictive_expects _⟩
  | succ steps ih =>
    constructor
    · have closed := predictive_one .semicolon (by decide)
      have parts := predictive_propertyHead.andThen fun head =>
        (ih.2.map fun attributes => { head with attributes }).skipping .openBrace (by decide)
          (closed.map fun _ => head)
      refine parts.congr fun tokens => ?_
      rw [property, andThen]
      refine except_bind_congr ?_
      rintro ⟨head, rest⟩ _
      dsimp only
      rw [skipping]
      cases skip? .openBrace rest <;> rfl
    · have parts := (predictive_gives []).skipping .closeBrace (by decide)
        (ih.1.andThen fun first => ih.2.map (first :: ·))
      refine parts.unlessEmpty rfl fun token rest => ?_
      rw [skipping]
      unfold attributes
      cases skip? .closeBrace (token :: rest) <;> rfl

theorem predictive_directive : Predictive directive := by
  have parts := predictive_qualifiedName.andThen fun found =>
    (predictive_one .semicolon (by decide)).map fun _ => found
  exact parts

theorem skipDirective?_isSome {word : String} {token : Token} {rest : List Token} :
    (skipDirective? word (token :: rest)).isSome ↔
      isWord word token ∧ ∃ other, rest.head? = some other ∧ other.kind = .identifier := by
  by_cases isWord : isWord word token
  · cases rest with
    | nil => simp [skipDirective?, skipWord?, isWord]
    | cons other others =>
      obtain ⟨kind, text, offset⟩ := other
      cases kind <;> simp [skipDirective?, skipWord?, isWord]
  · simp [skipDirective?, skipWord?, isWord]

theorem one_of_skipDirective? {word : String} {tokens rest : List Token}
    (skipped : skipDirective? word tokens = some rest) : ∃ text, one .identifier tokens = .ok (text, rest) :=
  ⟨word, one_identifier.mpr (skipDirective?_eq_some.mp skipped).1⟩

/-- It takes two tokens to tell a directive from a property, and the first is the key of the property. -/
theorem Predictive.directing {taking otherwise : Reader α} (word : String) (takes : Predictive taking)
    (passes : Predictive otherwise) (empty : left (taking []) = [])
    (alone : ∀ token, isWord word token → left (otherwise [token]) = []) :
    Predictive (directing word taking otherwise) := by
  have directs := (predictive_one .identifier (by decide)).andThen fun _ => takes
  refine directs.choose (fun tokens => (skipDirective? word tokens).isSome) passes (by simp [skipDirective?, skipWord?])
    (fun same chosen => ?_) (fun chosen => ?_) (fun chosen => ?_) fun passed => ?_
  · obtain ⟨isWord, other, starts, isIdentifier⟩ := skipDirective?_isSome.mp chosen
    exact skipDirective?_isSome.mpr ⟨isWord, other, (head?_front rfl same).trans starts, isIdentifier⟩
  · have isWord := (skipDirective?_isSome.mp chosen).1
    refine ⟨?_, alone _ isWord⟩
    rw [Read.andThen, one, if_pos (kind_of_isWord isWord)]
    exact empty
  · obtain ⟨rest, skipped⟩ := Option.isSome_iff_exists.mp chosen
    obtain ⟨text, took⟩ := one_of_skipDirective? skipped
    rw [Read.directing, skipped, Read.andThen, took]
    rfl
  · rw [Read.directing, Option.not_isSome_iff_eq_none.mp passed]

theorem predictive_member (element : Element) : Predictive (member element) := by
  have property : Predictive fun tokens => property (tokens.length + 0) tokens :=
    .enough (fun steps => (predictive_property_attributes steps).1) (property_attributes_enough _).1
  have plain := property.map fun property => { element with properties := element.properties ++ [property] }
  have call := predictive_directive.map fun target => { element with calls := element.calls ++ [target] }
  have feature := predictive_directive.map fun feature => { element with features := element.features ++ [feature] }
  have alone : ∀ {word token}, isWord word token → left (andThen
      (fun tokens => Read.property (tokens.length + 0) tokens)
      (fun property => gives { element with properties := element.properties ++ [property] }) [token]) = [] := by
    rintro word ⟨kind, text, offset⟩ isWord
    obtain rfl : kind = .identifier := kind_of_isWord isWord
    rfl
  have noDirective : ∀ token, skipDirective? "call" [token] = none := fun token =>
    Option.not_isSome_iff_eq_none.mp fun isSome => by simp [skipDirective?_isSome] at isSome
  have calls := call.directing "call" plain rfl fun _ => alone
  have parts := feature.directing "use" calls rfl fun token isWord => by
    rw [directing, noDirective]
    exact alone isWord
  refine parts.congr fun tokens => ?_
  rw [member, directing, directing]
  cases skipDirective? "use" tokens <;> cases skipDirective? "call" tokens <;> rfl

theorem predictive_members (element : Element) (steps : Nat) : Predictive (members element steps) := by
  induction steps generalizing element with
  | zero => exact predictive_expects _
  | succ steps ih =>
    have parts := (predictive_gives element).skipping .closeBrace (by decide)
      ((predictive_member element).andThen ih)
    refine parts.unlessEmpty rfl fun token rest => ?_
    rw [skipping]
    unfold members
    cases skip? .closeBrace (token :: rest) <;> rfl

variable {file : String} {domain : Option String}

def opens? (token : Token) : Option ElementKind :=
  if token.kind = .identifier then ElementKind.ofKeyword? token.text else none

theorem predictive_elementHead (file : String) (domain : Option String) : Predictive (elementHead file domain) := by
  have head : ∀ token, (opens? token).isSome → Predictive fun tokens => elementHead file domain (token :: tokens) := by
    intro token isSome
    obtain ⟨kind, known⟩ := Option.isSome_iff_exists.mp isSome
    have parts := predictive_qualifiedName.andThen fun name => (predictive_clause "from").andThen fun ancestor =>
      (predictive_clause "extends").map fun parent =>
        ({ kind, name := name.within domain, ancestor, parent, file } : Element)
    refine parts.congr fun tokens => ?_
    rw [elementHead]
    simp only [opens?] at known
    rw [known]
    rfl
  have valid : ∀ token, (opens? token).isSome → token.kind ≠ .invalid := by
    intro token isSome isInvalid
    simp [opens?, isInvalid] at isSome
  refine (Predictive.ahead valid head (predictive_expects .elementKeyword)).congr fun tokens => ?_
  cases tokens with
  | nil => rfl
  | cons token rest =>
    rw [ahead]
    split
    next => rfl
    next unknown =>
      rw [elementHead]
      simp only [opens?, Bool.not_eq_true, Option.isSome_eq_false_iff, Option.isNone_iff_eq_none] at unknown
      rw [unknown]
      rfl

theorem predictive_element (file : String) (domain : Option String) : Predictive (element file domain) := by
  have body : ∀ head, Predictive fun tokens => members head (tokens.length + 1) tokens := fun head =>
    .enough (predictive_members head) members_enough
  have parts := (predictive_elementHead file domain).andThen fun head =>
    (predictive_gives head).skipping .semicolon (by decide)
      ((predictive_one .openBrace (by decide)).andThen fun _ => body head)
  refine parts.congr fun tokens => ?_
  rw [element, andThen]
  refine except_bind_congr ?_
  rintro ⟨head, rest⟩ _
  dsimp only
  rw [skipping]
  cases skip? .semicolon rest <;> rfl

def toEnd (read : List Token → Except Stuck α) : Reader α := fun tokens => do
  let found ← read tokens
  .ok (found, [])

theorem predictive_elements (file : String) (domain : Option String) (steps : Nat) :
    Predictive (toEnd (elements file domain steps)) := by
  induction steps with
  | zero => exact (predictive_expects .elementKeyword).unlessEmpty rfl fun _ _ => rfl
  | succ steps ih =>
    have parts := (predictive_element file domain).andThen fun first => ih.map (first :: ·)
    refine parts.unlessEmpty rfl fun token rest => ?_
    change Except.bind (Except.bind (element file domain (token :: rest)) _) _ =
      Except.bind (element file domain (token :: rest)) _
    cases element file domain (token :: rest) with
    | error => rfl
    | ok found =>
      change Except.bind (Except.bind (elements file domain steps found.2) _) _ =
        Except.bind (Except.bind (elements file domain steps found.2) _) _
      cases elements file domain steps found.2 <;> rfl

theorem predictive_domain : Predictive Read.domain := by
  have named := predictive_name.andThen fun domain =>
    (predictive_one .semicolon (by decide)).map fun _ => some domain
  refine (named.skippingWord "domain" (predictive_gives none)).congr fun tokens => ?_
  rw [Read.domain, skippingWord]
  cases skipWord? "domain" tokens <;> rfl

theorem predictive_document (file : String) : Predictive (toEnd (document file)) := by
  have body : ∀ domain, Predictive fun tokens => toEnd (elements file domain (tokens.length + 0)) tokens := by
    refine fun domain => .enough (predictive_elements file domain) fun some others => ?_
    rw [toEnd, toEnd, elements_enough some others]
  have parts := predictive_domain.andThen fun domain =>
    (body domain).map fun elements => (⟨domain, elements⟩ : Document)
  refine parts.congr fun tokens => ?_
  change Except.bind (Except.bind (Read.domain tokens) _) _ = Except.bind (Read.domain tokens) _
  cases Read.domain tokens with
  | error => rfl
  | ok found =>
    change Except.bind (Except.bind (elements file found.1 found.2.length found.2) _) _ =
      Except.bind (Except.bind (elements file found.1 found.2.length found.2) _) _
    cases elements file found.1 found.2.length found.2 <;> rfl

/-- Where reading gets stuck, it gets stuck on every text that has the same tokens up to there. -/
theorem document_stuck {file : String} {tokens : List Token} {stuck : Stuck}
    (failed : document file tokens = .error stuck) : ∃ front, tokens = front ++ stuck.rest ∧
      (∀ token ∈ front, token.kind ≠ .invalid) ∧ ∀ more, more.head? = stuck.rest.head? →
        document file (front ++ more) = .error ⟨stuck.expected, more⟩ := by
  obtain ⟨front, split, valid, again⟩ := predictive_document file tokens
  have outcome : toEnd (document file) tokens = .error stuck := by
    rw [toEnd, failed]
    rfl
  rw [outcome] at split again
  refine ⟨front, split, valid, fun more same => ?_⟩
  exact except_bind_failed (again more same) fun _ => ⟨_, rfl⟩

end Read
end Requirements
