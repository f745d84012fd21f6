import Mathlib.Data.List.TakeWhile
import Requirements.Disk.Documents
import Requirements.Document.Parse

/-! Names that are read from texts. They hold words and dots only, start with a word, and no dot
stands in the id. So the text of a name tells where the domain ends, two elements of one key have
one name, and reading a name's text gives the name again. -/
namespace Requirements

/-- The text starts with a word's character and holds nothing but such characters and dots. -/
def IsName (text : String) : Prop :=
  ∃ c rest, text.toList = c :: rest ∧ isWordChar c ∧ ∀ d ∈ rest, isWordChar d ∨ d = '.'

def IsWord (text : String) : Prop := text.toList ≠ [] ∧ ∀ c ∈ text.toList, isWordChar c

theorem IsWord.isName {text : String} (word : IsWord text) : IsName text := by
  obtain ⟨present, all⟩ := word
  cases split : text.toList with
  | nil => exact absurd split present
  | cons c rest =>
    rw [split] at all
    exact ⟨c, rest, split, all c (by simp), fun d inside => .inl (all d (by simp [inside]))⟩

namespace IsName

theorem ne_empty {text : String} (isName : IsName text) : text ≠ "" := by
  rintro rfl
  obtain ⟨_, _, split, -⟩ := isName
  cases split

theorem mem {text : String} (isName : IsName text) {d : Char} (inside : d ∈ text.toList) :
    isWordChar d ∨ d = '.' := by
  obtain ⟨c, rest, split, word, others⟩ := isName
  rw [split] at inside
  rcases List.mem_cons.mp inside with rfl | behind
  · exact .inl word
  · exact others d behind

theorem append {first second : String} (isName : IsName first)
    (all : ∀ d ∈ second.toList, isWordChar d ∨ d = '.') : IsName (first ++ second) := by
  obtain ⟨c, rest, split, word, others⟩ := isName
  refine ⟨c, rest ++ second.toList, by simp [split], word, fun d inside => ?_⟩
  rcases List.mem_append.mp inside with front | back
  · exact others d front
  · exact all d back

/-- Two names with a dot between them are a name. -/
theorem dotted {first second : String} (isName : IsName first) (other : IsName second) :
    IsName (first ++ "." ++ second) :=
  (isName.append (by simp)).append fun _ => other.mem

end IsName

namespace QualifiedName

def Dotless (name : QualifiedName) : Prop := '.' ∉ name.id.toList

theorem dotless_parse (text : String) : (parse text).Dotless := by
  rw [parse]
  split
  next whole => exact splitAtLast_eq_none.mp whole
  next split => simpa [Dotless] using (splitAtLast_eq_some.mp split).2
  next split => simpa [Dotless] using (splitAtLast_eq_some.mp split).2

/-- The text of a name without dots in its id can be cut in its two parts again. -/
theorem splitAtLast_text {name : QualifiedName} (dotless : name.Dotless) :
    splitAtLast '.' name.text.toList = name.domain.map fun domain => (domain.toList, name.id.toList) := by
  obtain ⟨id, domain⟩ := name
  cases domain with
  | none => exact splitAtLast_eq_none.mpr dotless
  | some domain =>
    have marked : (text ⟨id, some domain⟩).toList = domain.toList ++ '.' :: id.toList := by
      simp [text, String.toList_append]
    rw [marked]
    exact splitAtLast_append domain.toList dotless

theorem eq_of_text {a b : QualifiedName} (dotlessA : a.Dotless) (dotlessB : b.Dotless)
    (same : a.text = b.text) : a = b := by
  have halves := (splitAtLast_text dotlessA).symm.trans (same ▸ splitAtLast_text dotlessB)
  obtain ⟨idA, domainA⟩ := a
  obtain ⟨idB, domainB⟩ := b
  cases domainA <;> cases domainB
  · simpa [text] using same
  · cases halves
  · cases halves
  · simpa [String.toList_inj, and_comm] using halves

/-- The text of the name tells its parts: no dot stands in the id, and a domain that is there is not
empty. -/
def Legible (name : QualifiedName) : Prop := name.Dotless ∧ name.domain ≠ some ""

theorem legible_parse (text : String) : (parse text).Legible := by
  refine ⟨dotless_parse text, ?_⟩
  rw [parse]
  split <;> simp_all

/-- A name comes back from its text exactly when it is legible. -/
theorem parse_text_iff {name : QualifiedName} : parse name.text = name ↔ name.Legible := by
  refine ⟨fun same => same ▸ legible_parse name.text, fun ⟨dotless, present⟩ => ?_⟩
  obtain ⟨id, domain⟩ := name
  have halves := splitAtLast_text dotless
  cases domain with
  | none =>
    rw [parse, halves]
    rfl
  | some domain =>
    rw [parse, halves]
    have notEmpty : domain.toList ≠ [] := fun empty =>
      present (congrArg some (String.toList_eq_nil_iff.mp empty))
    cases split : domain.toList with
    | nil => exact absurd split notEmpty
    | cons c rest => simp

/-- A dot that starts a text and is the only one is lost. -/
theorem text_parse_of_leading {id : String} (outside : '.' ∉ id.toList) : (parse ("." ++ id)).text = id := by
  have marked : ("." ++ id).toList = [] ++ '.' :: id.toList := by simp
  rw [parse, marked, splitAtLast_append [] outside]
  simp [text]

/-- Any other text comes back from the name that is read from it. -/
theorem text_parse_of_not_leading {whole : String} (other : ∀ id : String, '.' ∉ id.toList → whole ≠ "." ++ id) :
    (parse whole).text = whole := by
  rw [parse]
  split
  next => rfl
  next id cut =>
    obtain ⟨starts, outside⟩ := splitAtLast_eq_some.mp cut
    refine absurd ?_ (other (String.ofList id) (by simpa using outside))
    rw [← String.toList_inj]
    simp [starts]
  next cut =>
    rw [← String.toList_inj]
    simp [QualifiedName.text, (splitAtLast_eq_some.mp cut).1]

structure WellFormed (name : QualifiedName) : Prop where
  dotless : name.Dotless
  domain : name.domain ≠ some ""
  isName : IsName name.text

theorem WellFormed.legible {name : QualifiedName} (wellFormed : name.WellFormed) : name.Legible :=
  ⟨wellFormed.dotless, wellFormed.domain⟩

theorem parse_text {name : QualifiedName} (wellFormed : name.WellFormed) : parse name.text = name :=
  parse_text_iff.mpr wellFormed.legible

theorem text_parse {text : String} (isName : IsName text) : (parse text).text = text := by
  obtain ⟨c, rest, split, word, -⟩ := isName
  refine text_parse_of_not_leading fun id _ same => ?_
  have starts : c = '.' := by simpa [same] using (congrArg List.head? split).symm
  exact absurd word (by simp [starts, isWordChar, isWordStart, isDigitChar])

theorem wellFormed_parse {text : String} (isName : IsName text) : (parse text).WellFormed :=
  have ⟨dotless, domain⟩ := legible_parse text
  ⟨dotless, domain, (text_parse isName).symm ▸ isName⟩

/-- A name keeps its form when it takes the domain of its document. -/
theorem WellFormed.within {name : QualifiedName} (wellFormed : name.WellFormed) {domain : Option String}
    (named : ∀ text ∈ domain, IsName text) : (name.within domain).WellFormed := by
  obtain ⟨id, own⟩ := name
  cases own with
  | some => exact wellFormed
  | none =>
    cases domain with
    | none => exact wellFormed
    | some domain =>
      have isName := named domain rfl
      exact ⟨wellFormed.dotless, fun empty => isName.ne_empty (Option.some.inj empty),
        isName.dotted wellFormed.isName⟩

end QualifiedName

structure Element.Dotless (element : Element) : Prop where
  name : element.name.Dotless
  calls : ∀ target ∈ element.calls, target.Dotless

theorem Element.name_of_key {a b : Element} (dotlessA : a.Dotless) (dotlessB : b.Dotless)
    (same : a.key = b.key) : a.name = b.name :=
  QualifiedName.eq_of_text dotlessA.name dotlessB.name (congrArg Prod.snd same)

theorem except_bind_ok {ε α β : Type} {x : Except ε α} {f : α → Except ε β} {b : β} :
    (x >>= f) = .ok b ↔ ∃ a, x = .ok a ∧ f a = .ok b := by
  change Except.bind x f = _ ↔ _
  cases x <;> simp [Except.bind]

theorem except_bind_error {ε α β : Type} {x : Except ε α} {f : α → Except ε β} {e : ε} :
    (x >>= f) = .error e ↔ x = .error e ∨ ∃ a, x = .ok a ∧ f a = .error e := by
  change Except.bind x f = _ ↔ _
  cases x <;> simp [Except.bind]

/-- What fails before steps that cannot fail. -/
theorem except_bind_failed {ε α β : Type} {x : Except ε α} {f : α → Except ε β} {e : ε}
    (failed : (x >>= f) = .error e) (done : ∀ a, ∃ b, f a = .ok b) : x = .error e := by
  rcases except_bind_error.mp failed with here | ⟨a, -, later⟩
  · exact here
  · obtain ⟨b, fine⟩ := done a
    cases later.symm.trans fine

theorem except_bind_congr {ε α β : Type} {x : Except ε α} {f g : α → Except ε β}
    (same : ∀ a, x = .ok a → f a = g a) : (x >>= f) = (x >>= g) := by
  cases x with
  | error => rfl
  | ok a => exact same a rfl

theorem except_ok_of_any {ε α : Type} {x : Except ε α} {meets : α → Bool} (holds : x.toOption.any meets) :
    ∃ a, x = .ok a ∧ meets a := by
  cases x with
  | error => cases holds
  | ok a => exact ⟨a, rfl, holds⟩

theorem mapError_ok {ε δ α : Type} {x : Except ε α} {f : ε → δ} {a : α} :
    x.mapError f = .ok a ↔ x = .ok a := by
  cases x <;> simp [Except.mapError]

theorem mapError_error {ε δ α : Type} {x : Except ε α} {f : ε → δ} {d : δ} :
    x.mapError f = .error d ↔ ∃ e, x = .error e ∧ f e = d := by
  cases x <;> simp [Except.mapError]

/-! ### Words among tokens -/

theorem punctuation?_ne_identifier (c : Char) : punctuation? c ≠ some .identifier := by
  unfold punctuation?
  split <;> simp

theorem nextLexeme_identifier {c : Char} {rest : List Char}
    (isIdentifier : (nextLexeme c rest).1 = .token .identifier) :
    isWordStart c ∧ (nextLexeme c rest).2 = (rest.takeWhile isWordChar).length := by
  have notPunctuation := punctuation?_ne_identifier c
  unfold nextLexeme at isIdentifier ⊢
  by_cases blank : isBlankChar c
  · simp [blank] at isIdentifier
  · by_cases start : isWordStart c
    · simp [blank, start]
    · simp only [blank, start, Bool.false_eq_true, if_false] at isIdentifier
      repeat' split at isIdentifier
      all_goals simp_all

theorem isWord_of_nextLexeme {c : Char} {rest : List Char}
    (isIdentifier : (nextLexeme c rest).1 = .token .identifier) :
    IsWord (String.ofList (c :: rest.take (nextLexeme c rest).2)) := by
  obtain ⟨start, length⟩ := nextLexeme_identifier isIdentifier
  have taken : rest.take (nextLexeme c rest).2 = rest.takeWhile isWordChar := by
    rw [length]
    exact (List.prefix_iff_eq_take.mp (List.takeWhile_prefix isWordChar)).symm
  refine ⟨by simp, fun d inside => ?_⟩
  rw [String.toList_ofList, taken] at inside
  rcases List.mem_cons.mp inside with rfl | behind
  · simp [isWordChar, start]
  · exact List.mem_takeWhile_imp behind

def Spelled (tokens : List Token) : Prop := ∀ token ∈ tokens, token.kind = .identifier → IsWord token.text

namespace Spelled

theorem nil : Spelled [] := by simp [Spelled]

theorem tail {token : Token} {rest : List Token} (spelled : Spelled (token :: rest)) : Spelled rest :=
  fun other member => spelled other (by simp [member])

theorem isName {token : Token} {rest : List Token} (spelled : Spelled (token :: rest))
    (isIdentifier : token.kind = .identifier) : IsName token.text :=
  (spelled token (by simp) isIdentifier).isName

end Spelled

theorem spelled_tokensFrom {found : List Lexeme}
    (words : ∀ lexeme ∈ found, lexeme.kind = .token .identifier → IsWord (String.ofList lexeme.characters))
    (offset : Nat) : Spelled (tokensFrom offset found) := by
  induction found generalizing offset with
  | nil => exact .nil
  | cons lexeme rest ih =>
    have behind := ih (fun other member => words other (by simp [member]))
      (offset + utf8Length lexeme.characters)
    rw [tokensFrom]
    split
    next kind isToken =>
      intro token member isIdentifier
      rcases List.mem_cons.mp member with rfl | later
      · exact words lexeme (by simp) (isToken.trans (congrArg _ isIdentifier))
      · exact behind token later isIdentifier
    next => exact behind

theorem spelled_ofText (text : String) : Spelled (Token.ofText text) := by
  refine spelled_tokensFrom ?_ 0
  have words : ∀ taken text, ∀ lexeme ∈ lexemesAfter taken text,
      lexeme.kind = .token .identifier → IsWord (String.ofList lexeme.characters) := by
    intro taken text
    induction text generalizing taken with
    | nil => cases taken <;> simp [lexemesAfter]
    | cons c rest ih =>
      cases taken with
      | succ taken => exact ih taken
      | zero =>
        intro lexeme member
        rcases List.mem_cons.mp member with rfl | behind
        · exact isWord_of_nextLexeme
        · exact ih _ lexeme behind
  exact words 0 text.toList

/-! ### Names that readers give

Each reader takes spelled tokens from the front, makes well-formed names of them and leaves
spelled tokens. -/

theorem Property.mem_typeNamesOf {typeName : String} {properties : List Property} :
    typeName ∈ typeNamesOf properties ↔ ∃ p ∈ properties, typeName ∈ p.typeNames := by
  induction properties with
  | nil => simp [typeNamesOf]
  | cons p rest ih => simp [typeNamesOf, ih]

def Property.TypesNamed (property : Property) : Prop := ∀ typeName ∈ property.typeNames, IsName typeName

structure Element.WellFormed (file : String) (element : Element) : Prop where
  file : element.file = file
  name : element.name.WellFormed
  ancestor : ∀ name ∈ element.ancestor, name.WellFormed
  parent : ∀ name ∈ element.parent, name.WellFormed
  features : ∀ name ∈ element.features, name.WellFormed
  calls : ∀ name ∈ element.calls, name.WellFormed
  properties : ∀ property ∈ element.properties, property.TypesNamed

namespace Read

variable {tokens rest : List Token}

theorem one_ok {kind : TokenKind} {text : String} (spelled : Spelled tokens)
    (ran : one kind tokens = .ok (text, rest)) : (kind = .identifier → IsName text) ∧ Spelled rest := by
  cases tokens with
  | nil => cases ran
  | cons token behind =>
    rw [one] at ran
    split at ran
    next isKind =>
      obtain ⟨rfl, rfl⟩ := Prod.mk.inj (Except.ok.inj ran)
      exact ⟨fun isIdentifier => spelled.isName (isKind.trans isIdentifier), spelled.tail⟩
    next => cases ran

theorem skip?_some {kind : TokenKind} (spelled : Spelled tokens) (ran : skip? kind tokens = some rest) :
    Spelled rest := by
  cases tokens with
  | nil => cases ran
  | cons token behind =>
    rw [skip?] at ran
    split at ran
    next =>
      obtain rfl := Option.some.inj ran
      exact spelled.tail
    next => cases ran

theorem skipWord?_some {word : String} (spelled : Spelled tokens) (ran : skipWord? word tokens = some rest) :
    Spelled rest := by
  cases tokens with
  | nil => cases ran
  | cons token behind =>
    rw [skipWord?] at ran
    split at ran
    next =>
      obtain rfl := Option.some.inj ran
      exact spelled.tail
    next => cases ran

theorem nameTail_ok {start text : String} (spelled : Spelled tokens) (isName : IsName start)
    (ran : nameTail start tokens = .ok (text, rest)) : IsName text ∧ Spelled rest := by
  fun_induction nameTail start tokens with
  | case1 =>
    rename_i ih
    exact ih spelled.tail.tail (isName.dotted (spelled.tail.isName rfl)) ran
  | case2 => cases ran
  | case3 =>
    obtain ⟨rfl, rfl⟩ := Prod.mk.inj (Except.ok.inj ran)
    exact ⟨isName, spelled⟩

theorem name_ok {text : String} (spelled : Spelled tokens) (ran : name tokens = .ok (text, rest)) :
    IsName text ∧ Spelled rest := by
  obtain ⟨⟨start, behind⟩, first, ran⟩ := except_bind_ok.mp ran
  obtain ⟨isName, spelled⟩ := one_ok spelled first
  exact nameTail_ok spelled (isName rfl) ran

theorem qualifiedName_ok {name : QualifiedName} (spelled : Spelled tokens)
    (ran : qualifiedName tokens = .ok (name, rest)) : name.WellFormed ∧ Spelled rest := by
  obtain ⟨⟨text, behind⟩, named, done⟩ := except_bind_ok.mp ran
  obtain ⟨rfl, rfl⟩ := Prod.mk.inj (Except.ok.inj done)
  obtain ⟨isName, spelled⟩ := name_ok spelled named
  exact ⟨QualifiedName.wellFormed_parse isName, spelled⟩

theorem clause_ok {word : String} {found : Option QualifiedName} (spelled : Spelled tokens)
    (ran : clause word tokens = .ok (found, rest)) : (∀ name ∈ found, name.WellFormed) ∧ Spelled rest := by
  rw [clause] at ran
  split at ran
  next =>
    obtain ⟨rfl, rfl⟩ := Prod.mk.inj (Except.ok.inj ran)
    exact ⟨by simp, spelled⟩
  next behind skipped =>
    obtain ⟨⟨name, left⟩, named, done⟩ := except_bind_ok.mp ran
    obtain ⟨rfl, rfl⟩ := Prod.mk.inj (Except.ok.inj done)
    obtain ⟨wellFormed, spelled⟩ := qualifiedName_ok (skipWord?_some spelled skipped) named
    exact ⟨by simpa using wellFormed, spelled⟩

theorem value_ok {text : String} (spelled : Spelled tokens) (ran : value tokens = .ok (text, rest)) :
    Spelled rest := by
  cases tokens with
  | nil => cases ran
  | cons token behind =>
    rw [value] at ran
    split at ran
    next =>
      obtain ⟨-, rfl⟩ := Prod.mk.inj (Except.ok.inj ran)
      exact spelled.tail
    next =>
      obtain ⟨-, rfl⟩ := Prod.mk.inj (Except.ok.inj ran)
      exact spelled.tail
    next => exact (name_ok spelled ran).2
    next => cases ran

theorem moreValues_ok {steps : Nat} {texts : List String} (spelled : Spelled tokens)
    (ran : moreValues steps tokens = .ok (texts, rest)) : Spelled rest := by
  induction steps generalizing tokens texts with
  | zero =>
    obtain ⟨-, rfl⟩ := Prod.mk.inj (Except.ok.inj ran)
    exact spelled
  | succ steps ih =>
    rw [moreValues] at ran
    split at ran
    next =>
      obtain ⟨-, rfl⟩ := Prod.mk.inj (Except.ok.inj ran)
      exact spelled
    next behind skipped =>
      obtain ⟨⟨_, left⟩, first, ran⟩ := except_bind_ok.mp ran
      obtain ⟨⟨_, last⟩, others, done⟩ := except_bind_ok.mp ran
      obtain ⟨-, rfl⟩ := Prod.mk.inj (Except.ok.inj done)
      exact ih (value_ok (skip?_some spelled skipped) first) others

theorem valueList_ok {texts : List String} (spelled : Spelled tokens)
    (ran : valueList tokens = .ok (texts, rest)) : Spelled rest := by
  rw [valueList] at ran
  split at ran
  next skipped =>
    obtain ⟨-, rfl⟩ := Prod.mk.inj (Except.ok.inj ran)
    exact skip?_some spelled skipped
  next =>
    obtain ⟨⟨_, left⟩, first, ran⟩ := except_bind_ok.mp ran
    obtain ⟨⟨_, last⟩, others, ran⟩ := except_bind_ok.mp ran
    obtain ⟨⟨_, behind⟩, closed, done⟩ := except_bind_ok.mp ran
    obtain ⟨-, rfl⟩ := Prod.mk.inj (Except.ok.inj done)
    exact (one_ok (moreValues_ok (value_ok spelled first) others) closed).2

theorem assigned_ok {given : Option String × List String} (spelled : Spelled tokens)
    (ran : assigned tokens = .ok (given, rest)) : Spelled rest := by
  rw [assigned] at ran
  split at ran
  next =>
    obtain ⟨-, rfl⟩ := Prod.mk.inj (Except.ok.inj ran)
    exact spelled
  next behind skipped =>
    have spelled := skip?_some spelled skipped
    split at ran
    next left opened =>
      obtain ⟨⟨_, last⟩, listed, done⟩ := except_bind_ok.mp ran
      obtain ⟨-, rfl⟩ := Prod.mk.inj (Except.ok.inj done)
      exact valueList_ok (skip?_some spelled opened) listed
    next =>
      obtain ⟨⟨_, last⟩, single, done⟩ := except_bind_ok.mp ran
      obtain ⟨-, rfl⟩ := Prod.mk.inj (Except.ok.inj done)
      exact value_ok spelled single

theorem propertyType_ok {typeName : Option String} {listOf : Bool} (spelled : Spelled tokens)
    (ran : propertyType tokens = .ok ((typeName, listOf), rest)) :
    (∀ text ∈ typeName, IsName text) ∧ Spelled rest := by
  rw [propertyType] at ran
  split at ran
  next =>
    obtain ⟨same, rfl⟩ := Prod.mk.inj (Except.ok.inj ran)
    obtain ⟨rfl, -⟩ := Prod.mk.inj same
    exact ⟨by simp, spelled⟩
  next behind skipped =>
    have spelled := skip?_some spelled skipped
    obtain ⟨⟨text, left⟩, named, done⟩ := except_bind_ok.mp ran
    obtain ⟨same, rfl⟩ := Prod.mk.inj (Except.ok.inj done)
    obtain ⟨rfl, -⟩ := Prod.mk.inj same
    have marked : Spelled ((skipListMark? behind).getD behind) := by
      cases mark : skipListMark? behind with
      | none => exact spelled
      | some after =>
        obtain ⟨middle, first, second⟩ := Option.bind_eq_some_iff.mp mark
        exact skipWord?_some (skipWord?_some spelled first) second
    obtain ⟨isName, spelled⟩ := name_ok marked named
    exact ⟨by simpa using isName, spelled⟩

theorem spelled_presence (spelled : Spelled tokens) : Spelled (presence tokens).2 := by
  rw [presence]
  split
  next skipped => exact skipWord?_some spelled skipped
  next skipped => exact skipWord?_some spelled skipped
  next => exact spelled

theorem propertyHead_ok {head : Property} (spelled : Spelled tokens)
    (ran : propertyHead tokens = .ok (head, rest)) :
    (∀ text ∈ head.typeName, IsName text) ∧ head.attributes = [] ∧ Spelled rest := by
  obtain ⟨⟨key, behind⟩, first, ran⟩ := except_bind_ok.mp ran
  obtain ⟨⟨⟨typeName, listOf⟩, left⟩, typed, ran⟩ := except_bind_ok.mp ran
  obtain ⟨⟨given, last⟩, valued, done⟩ := except_bind_ok.mp ran
  obtain ⟨rfl, rfl⟩ := Prod.mk.inj (Except.ok.inj done)
  obtain ⟨isName, spelled⟩ := propertyType_ok (one_ok spelled first).2 typed
  exact ⟨isName, rfl, assigned_ok (spelled_presence spelled) valued⟩

theorem property_ok_of_attributes {steps : Nat}
    (nestedOk : ∀ {tokens rest : List Token} {read : List Property}, Spelled tokens →
      attributes steps tokens = .ok (read, rest) → (∀ p ∈ read, p.TypesNamed) ∧ Spelled rest)
    {read : Property} (spelled : Spelled tokens) (ran : property (steps + 1) tokens = .ok (read, rest)) :
    read.TypesNamed ∧ Spelled rest := by
  rw [property] at ran
  obtain ⟨⟨head, behind⟩, headed, ran⟩ := except_bind_ok.mp ran
  obtain ⟨isName, noAttributes, spelled⟩ := propertyHead_ok spelled headed
  dsimp only at ran
  split at ran
  next opened =>
    obtain ⟨⟨nested, left⟩, below, done⟩ := except_bind_ok.mp ran
    obtain ⟨rfl, rfl⟩ := Prod.mk.inj (Except.ok.inj done)
    obtain ⟨named, spelled⟩ := nestedOk (skip?_some spelled opened) below
    refine ⟨fun typeName member => ?_, spelled⟩
    rw [Property.typeNames] at member
    rcases List.mem_append.mp member with own | inAttributes
    · exact isName typeName (by simpa using own)
    · obtain ⟨p, isNested, inside⟩ := Property.mem_typeNamesOf.mp inAttributes
      exact named p isNested typeName inside
  next =>
    obtain ⟨⟨_, left⟩, closed, done⟩ := except_bind_ok.mp ran
    obtain ⟨rfl, rfl⟩ := Prod.mk.inj (Except.ok.inj done)
    refine ⟨fun typeName member => ?_, (one_ok spelled closed).2⟩
    cases head
    rw [Property.typeNames] at member
    dsimp only at noAttributes isName
    rw [noAttributes] at member
    exact isName typeName (by simpa [Property.typeNamesOf] using member)

theorem property_attributes_ok (steps : Nat) :
    (∀ {tokens rest : List Token} {read : Property}, Spelled tokens →
      property steps tokens = .ok (read, rest) → read.TypesNamed ∧ Spelled rest) ∧
    ∀ {tokens rest : List Token} {read : List Property}, Spelled tokens →
      attributes steps tokens = .ok (read, rest) → (∀ p ∈ read, p.TypesNamed) ∧ Spelled rest := by
  induction steps with
  | zero =>
    constructor
    · intro _ _ _ _ ran
      rw [property] at ran
      cases ran
    · intro _ _ _ _ ran
      rw [attributes] at ran
      cases ran
  | succ steps ih =>
    refine ⟨property_ok_of_attributes ih.2, ?_⟩
    intro tokens rest read spelled ran
    unfold attributes at ran
    split at ran
    next skipped =>
      obtain ⟨rfl, rfl⟩ := Prod.mk.inj (Except.ok.inj ran)
      exact ⟨by simp, skip?_some spelled skipped⟩
    next => cases ran
    next =>
      obtain ⟨⟨first, behind⟩, head, ran⟩ := except_bind_ok.mp ran
      obtain ⟨⟨others, left⟩, tail, done⟩ := except_bind_ok.mp ran
      obtain ⟨rfl, rfl⟩ := Prod.mk.inj (Except.ok.inj done)
      obtain ⟨named, spelled⟩ := ih.1 spelled head
      obtain ⟨othersNamed, spelled⟩ := ih.2 spelled tail
      refine ⟨fun p member => ?_, spelled⟩
      rcases List.mem_cons.mp member with rfl | later
      · exact named
      · exact othersNamed p later

theorem directive_ok {name : QualifiedName} (spelled : Spelled tokens)
    (ran : directive tokens = .ok (name, rest)) : name.WellFormed ∧ Spelled rest := by
  obtain ⟨⟨read, behind⟩, named, ran⟩ := except_bind_ok.mp ran
  obtain ⟨⟨_, left⟩, closed, done⟩ := except_bind_ok.mp ran
  obtain ⟨rfl, rfl⟩ := Prod.mk.inj (Except.ok.inj done)
  obtain ⟨wellFormed, spelled⟩ := qualifiedName_ok spelled named
  exact ⟨wellFormed, (one_ok spelled closed).2⟩

theorem skipDirective?_some {word : String} (spelled : Spelled tokens)
    (ran : skipDirective? word tokens = some rest) : Spelled rest := by
  rw [skipDirective?] at ran
  split at ran
  next skipped =>
    obtain rfl := Option.some.inj ran
    exact skipWord?_some spelled skipped
  next => cases ran

variable {file : String}

theorem member_ok {element extended : Element} (spelled : Spelled tokens)
    (wellFormed : element.WellFormed file) (ran : member element tokens = .ok (extended, rest)) :
    extended.WellFormed file ∧ Spelled rest := by
  rw [member] at ran
  split at ran
  next skipped =>
    obtain ⟨⟨feature, left⟩, read, done⟩ := except_bind_ok.mp ran
    obtain ⟨rfl, rfl⟩ := Prod.mk.inj (Except.ok.inj done)
    obtain ⟨named, spelled⟩ := directive_ok (skipDirective?_some spelled skipped) read
    refine ⟨{ wellFormed with features := fun name isFeature => ?_ }, spelled⟩
    rcases List.mem_append.mp isFeature with before | last
    · exact wellFormed.features name before
    · exact List.mem_singleton.mp last ▸ named
  next skipped =>
    obtain ⟨⟨target, left⟩, read, done⟩ := except_bind_ok.mp ran
    obtain ⟨rfl, rfl⟩ := Prod.mk.inj (Except.ok.inj done)
    obtain ⟨named, spelled⟩ := directive_ok (skipDirective?_some spelled skipped) read
    refine ⟨{ wellFormed with calls := fun name isCall => ?_ }, spelled⟩
    rcases List.mem_append.mp isCall with before | last
    · exact wellFormed.calls name before
    · exact List.mem_singleton.mp last ▸ named
  next =>
    obtain ⟨⟨read, left⟩, isRead, done⟩ := except_bind_ok.mp ran
    obtain ⟨rfl, rfl⟩ := Prod.mk.inj (Except.ok.inj done)
    obtain ⟨named, spelled⟩ := (property_attributes_ok _).1 spelled isRead
    refine ⟨{ wellFormed with properties := fun property isProperty => ?_ }, spelled⟩
    rcases List.mem_append.mp isProperty with before | last
    · exact wellFormed.properties property before
    · exact List.mem_singleton.mp last ▸ named

theorem members_ok {steps : Nat} {element whole : Element} (spelled : Spelled tokens)
    (wellFormed : element.WellFormed file) (ran : members element steps tokens = .ok (whole, rest)) :
    whole.WellFormed file ∧ Spelled rest := by
  induction steps generalizing element tokens with
  | zero => cases ran
  | succ steps ih =>
    unfold members at ran
    split at ran
    next skipped =>
      obtain ⟨rfl, rfl⟩ := Prod.mk.inj (Except.ok.inj ran)
      exact ⟨wellFormed, skip?_some spelled skipped⟩
    next => cases ran
    next =>
      obtain ⟨⟨extended, behind⟩, added, ran⟩ := except_bind_ok.mp ran
      obtain ⟨wellFormed, spelled⟩ := member_ok spelled wellFormed added
      exact ih spelled wellFormed ran

theorem elementHead_ok {domain : Option String} {head : Element} (spelled : Spelled tokens)
    (isDomain : ∀ text ∈ domain, IsName text) (ran : elementHead file domain tokens = .ok (head, rest)) :
    head.WellFormed file ∧ Spelled rest := by
  cases tokens with
  | nil => cases ran
  | cons token behind =>
    rw [elementHead] at ran
    split at ran
    next => cases ran
    next =>
      obtain ⟨⟨name, _⟩, named, ran⟩ := except_bind_ok.mp ran
      obtain ⟨⟨ancestor, _⟩, derived, ran⟩ := except_bind_ok.mp ran
      obtain ⟨⟨parent, _⟩, extending, done⟩ := except_bind_ok.mp ran
      obtain ⟨rfl, rfl⟩ := Prod.mk.inj (Except.ok.inj done)
      obtain ⟨wellFormed, spelled⟩ := qualifiedName_ok spelled.tail named
      obtain ⟨ofAncestor, spelled⟩ := clause_ok spelled derived
      obtain ⟨ofParent, spelled⟩ := clause_ok spelled extending
      exact ⟨⟨rfl, wellFormed.within isDomain, ofAncestor, ofParent, by simp, by simp, by simp⟩, spelled⟩

theorem element_ok {domain : Option String} {whole : Element} (spelled : Spelled tokens)
    (isDomain : ∀ text ∈ domain, IsName text) (ran : element file domain tokens = .ok (whole, rest)) :
    whole.WellFormed file ∧ Spelled rest := by
  obtain ⟨⟨head, behind⟩, headed, ran⟩ := except_bind_ok.mp ran
  obtain ⟨wellFormed, spelled⟩ := elementHead_ok spelled isDomain headed
  dsimp only at ran
  split at ran
  next skipped =>
    obtain ⟨rfl, rfl⟩ := Prod.mk.inj (Except.ok.inj ran)
    exact ⟨wellFormed, skip?_some spelled skipped⟩
  next =>
    obtain ⟨⟨_, left⟩, opened, ran⟩ := except_bind_ok.mp ran
    exact members_ok (one_ok spelled opened).2 wellFormed ran

theorem elements_ok {domain : Option String} {steps : Nat} {read : List Element} (spelled : Spelled tokens)
    (isDomain : ∀ text ∈ domain, IsName text) (ran : elements file domain steps tokens = .ok read) :
    ∀ element ∈ read, element.WellFormed file := by
  induction steps generalizing tokens read with
  | zero =>
    cases tokens with
    | nil =>
      obtain rfl := Except.ok.inj ran
      simp
    | cons => cases ran
  | succ steps ih =>
    cases tokens with
    | nil =>
      obtain rfl := Except.ok.inj ran
      simp
    | cons =>
      obtain ⟨⟨first, behind⟩, head, ran⟩ := except_bind_ok.mp ran
      obtain ⟨others, tail, done⟩ := except_bind_ok.mp ran
      obtain rfl := Except.ok.inj done
      obtain ⟨wellFormed, spelled⟩ := element_ok spelled isDomain head
      intro element member
      rcases List.mem_cons.mp member with rfl | later
      · exact wellFormed
      · exact ih spelled tail element later

theorem domain_ok {found : Option String} (spelled : Spelled tokens) (ran : domain tokens = .ok (found, rest)) :
    (∀ text ∈ found, IsName text) ∧ Spelled rest := by
  rw [domain] at ran
  split at ran
  next =>
    obtain ⟨rfl, rfl⟩ := Prod.mk.inj (Except.ok.inj ran)
    exact ⟨by simp, spelled⟩
  next behind skipped =>
    obtain ⟨⟨text, left⟩, named, ran⟩ := except_bind_ok.mp ran
    obtain ⟨⟨_, last⟩, closed, done⟩ := except_bind_ok.mp ran
    obtain ⟨rfl, rfl⟩ := Prod.mk.inj (Except.ok.inj done)
    obtain ⟨isName, spelled⟩ := name_ok (skipWord?_some spelled skipped) named
    exact ⟨by simpa using isName, (one_ok spelled closed).2⟩

end Read

/-- Every name in a document that was read is well-formed, and every element remembers the
document's file. -/
theorem Document.wellFormed_parse {text file : String} {document : Document}
    (parsed : Document.parse text file = .ok document) :
    ∀ element ∈ document.elements, element.WellFormed file := by
  obtain ⟨⟨domain, behind⟩, declared, read⟩ := except_bind_ok.mp (mapError_ok.mp parsed)
  obtain ⟨_, listed, done⟩ := except_bind_ok.mp read
  obtain rfl := Except.ok.inj done
  obtain ⟨isDomain, spelled⟩ := Read.domain_ok (spelled_ofText text) declared
  exact Read.elements_ok spelled isDomain listed

theorem Disk.parse_ok {disk : Disk} {path : Path} {file : String} {document : Document} :
    disk.parse path file = .ok document ↔
      ∃ text, disk.read? path = some text ∧ Document.parse text file = .ok document := by
  rw [parse, read]
  cases disk.read? path with
  | none => simp
  | some text => simp [mapError_ok]

theorem Disk.wellFormed_parse {disk : Disk} {path : Path} {file : String} {document : Document}
    (parsed : disk.parse path file = .ok document) :
    ∀ element ∈ document.elements, element.WellFormed file := by
  obtain ⟨text, -, parsed⟩ := parse_ok.mp parsed
  exact Document.wellFormed_parse parsed

/-- No element of a document that was read has a dot in its id, nor in an id that it calls. -/
theorem Disk.dotless_parse {disk : Disk} {path : Path} {file : String} {document : Document}
    (parsed : disk.parse path file = .ok document) : ∀ element ∈ document.elements, element.Dotless :=
  fun element member =>
    have wellFormed := wellFormed_parse parsed element member
    ⟨wellFormed.name.dotless, fun target isCall => (wellFormed.calls target isCall).dotless⟩

end Requirements
