import Requirements.Document.Parse

/-! The grammar of documents as derivation trees. A tree knows the terminals it is written with
and the document it stands for.

One place needs a condition. `use` and `call` are words like any other, so `use optional;` could be
a feature or a property of that key; the first reading is the right one. No condition is
needed on `list of`, as nothing that can follow a type is the word `of`. -/
namespace Requirements

def TokenKind.holdsText : TokenKind → Bool
  | identifier | number | quoted => true
  | _ => false

namespace Grammar

inductive Terminal
  | identifier (text : String)
  | number (text : String)
  | quoted (text : String)
  | mark (kind : TokenKind)
  deriving DecidableEq

def Terminal.ofToken (token : Token) : Terminal :=
  match token.kind with
  | .identifier => .identifier token.text
  | .number => .number token.text
  | .quoted => .quoted token.text
  | kind => .mark kind

def terminalsOf (tokens : List Token) : List Terminal := tokens.map .ofToken

/-! ### Trees -/

structure Name where
  first : String
  others : List String

namespace Name

def furtherTerminals (word : String) : List Terminal := [.mark .dot, .identifier word]

def terminals (name : Name) : List Terminal :=
  .identifier name.first :: name.others.flatMap furtherTerminals

def text (name : Name) : String := name.others.foldl (fun front word => front ++ "." ++ word) name.first

def reference (name : Name) : QualifiedName := QualifiedName.parse name.text

end Name

/-! ### Strings -/

def escapedChar (c : Char) : Char := if c = 'n' then '\n' else if c = 't' then '\t' else c

/-- The characters that are spelled by what stands between the quotes. The flag is up behind a backslash that has
not found its character; without one the backslash stands for itself. -/
def spelled : Bool → List Char → List Char
  | false, [] => []
  | true, [] => ['\\']
  | false, c :: rest => if c = '\\' then spelled true rest else c :: spelled false rest
  | true, c :: rest => escapedChar c :: spelled false rest

def stringText (text : String) : String := String.ofList (spelled false text.toList.tail.dropLast)

theorem spelled_eq (inside : List Char) : spelled false inside = Read.unescape inside := by
  fun_induction Read.unescape inside with
  | case1 rest ih | case2 rest ih => exact congrArg _ ih
  | case3 c rest newline tab ih =>
    rw [spelled, if_pos rfl, spelled, escapedChar, if_neg newline, if_neg tab, ih]
  | case4 c rest _ _ noEscape ih =>
    by_cases isBackslash : c = '\\'
    · cases rest with
      | nil => rw [isBackslash]; rfl
      | cons d rest => exact absurd rfl (noEscape d rest isBackslash)
    · rw [spelled, if_neg isBackslash, ih]
  | case5 => rfl

/-- The grammar's strings are those that the reader takes from the tokens. -/
theorem stringText_eq (text : String) : stringText text = Read.quotedText text := by
  rw [stringText, spelled_eq, Read.quotedText, List.drop_one]

/-! ### Values -/

inductive Value
  | quoted (text : String)
  | number (text : String)
  | named (name : Name)

namespace Value

def terminals : Value → List Terminal
  | quoted text => [.quoted text]
  | number text => [.number text]
  | named name => name.terminals

def text : Value → String
  | quoted text => stringText text
  | number text => text
  | named name => name.text

def furtherTerminals (value : Value) : List Terminal := .mark .comma :: value.terminals

end Value

inductive Assignment
  | absent
  | single (value : Value)
  | list (items : List Value)

namespace Assignment

def itemTerminals : List Value → List Terminal
  | [] => []
  | first :: others => first.terminals ++ others.flatMap Value.furtherTerminals

def terminals : Assignment → List Terminal
  | absent => []
  | single value => .mark .equals :: value.terminals
  | list items => .mark .equals :: .mark .openBracket :: (itemTerminals items ++ [.mark .closeBracket])

def value : Assignment → Option String
  | single value => some value.text
  | _ => none

def values : Assignment → List String
  | list items => items.map Value.text
  | _ => []

end Assignment

inductive Typing
  | absent
  | single (name : Name)
  | listOf (name : Name)

namespace Typing

def terminals : Typing → List Terminal
  | absent => []
  | single name => .mark .colon :: name.terminals
  | listOf name => .mark .colon :: .identifier "list" :: .identifier "of" :: name.terminals

def typeName : Typing → Option String
  | absent => none
  | single name | listOf name => some name.text

def isList : Typing → Bool
  | listOf _ => true
  | _ => false

end Typing

def presenceTerminals (presence : Option Presence) : List Terminal :=
  presence.toList.map fun presence => .identifier presence.keyword

structure Head where
  key : String
  typing : Typing
  presence : Option Presence
  assignment : Assignment

namespace Head

def terminals (head : Head) : List Terminal :=
  .identifier head.key ::
    (head.typing.terminals ++ (presenceTerminals head.presence ++ head.assignment.terminals))

def property (head : Head) : Property where
  key := head.key
  typeName := head.typing.typeName
  presence := head.presence
  value := head.assignment.value
  listOf := head.typing.isList
  values := head.assignment.values

end Head

inductive Node
  | plain (head : Head)
  | compound (head : Head) (attributes : List Node)

namespace Node

mutual

def terminals : Node → List Terminal
  | plain head => head.terminals ++ [.mark .semicolon]
  | compound head attributes =>
    head.terminals ++ .mark .openBrace :: (attributesTerminals attributes ++ [.mark .closeBrace])

def attributesTerminals : List Node → List Terminal
  | [] => []
  | first :: others => terminals first ++ attributesTerminals others

end

mutual

def property : Node → Property
  | plain head => head.property
  | compound head attributes => { head.property with attributes := properties attributes }

def properties : List Node → List Property
  | [] => []
  | first :: others => property first :: properties others

end

theorem attributesTerminals_eq (nodes : List Node) :
    attributesTerminals nodes = nodes.flatMap terminals := by
  induction nodes with
  | nil => rw [attributesTerminals, List.flatMap_nil]
  | cons first others ih => rw [attributesTerminals, ih, List.flatMap_cons]

end Node

/-- A word of directives comes first and a word comes next. -/
def opensDirective : List Terminal → Bool
  | .identifier word :: .identifier _ :: _ => word == "use" || word == "call"
  | _ => false

inductive Member
  | feature (name : Name)
  | call (name : Name)
  | property (node : Node) (plain : opensDirective node.terminals = false)

namespace Member

def directiveTerminals (word : String) (name : Name) : List Terminal :=
  .identifier word :: (name.terminals ++ [.mark .semicolon])

def terminals : Member → List Terminal
  | feature name => directiveTerminals "use" name
  | call name => directiveTerminals "call" name
  | property node _ => node.terminals

def feature? : Member → Option QualifiedName
  | feature name => some name.reference
  | _ => none

def call? : Member → Option QualifiedName
  | call name => some name.reference
  | _ => none

def property? : Member → Option Property
  | property node _ => some node.property
  | _ => none

end Member

structure Declaration where
  kind : ElementKind
  name : Name
  ancestor : Option Name
  parent : Option Name
  /-- A semicolon may stand in place of the body. -/
  body : Option (List Member)

def clauseTerminals (word : String) (name : Option Name) : List Terminal :=
  match name with
  | none => []
  | some name => .identifier word :: name.terminals

def bodyTerminals : Option (List Member) → List Terminal
  | none => [.mark .semicolon]
  | some members => .mark .openBrace :: (members.flatMap Member.terminals ++ [.mark .closeBrace])

namespace Declaration

def terminals (declaration : Declaration) : List Terminal :=
  .identifier declaration.kind.keyword :: (declaration.name.terminals ++
    (clauseTerminals "from" declaration.ancestor ++ (clauseTerminals "extends" declaration.parent ++
      bodyTerminals declaration.body)))

def members (declaration : Declaration) : List Member := declaration.body.getD []

/-- A name of its own domain is left as it is, and any other one gets the domain of the document. -/
def completed (domain : Option String) (name : QualifiedName) : QualifiedName :=
  match name.domain with
  | some _ => name
  | none => ⟨name.id, domain⟩

theorem completed_eq (domain : Option String) (name : QualifiedName) : completed domain name = name.within domain := by
  obtain ⟨id, own⟩ := name
  cases own <;> rfl

def element (file : String) (domain : Option String) (declaration : Declaration) : Element where
  kind := declaration.kind
  name := completed domain declaration.name.reference
  ancestor := declaration.ancestor.map Name.reference
  parent := declaration.parent.map Name.reference
  properties := declaration.members.filterMap Member.property?
  features := declaration.members.filterMap Member.feature?
  calls := declaration.members.filterMap Member.call?
  file := file

end Declaration

def domainTerminals (name : Option Name) : List Terminal :=
  match name with
  | none => []
  | some name => .identifier "domain" :: (name.terminals ++ [.mark .semicolon])

structure Source where
  domain : Option Name
  declarations : List Declaration

namespace Source

def terminals (source : Source) : List Terminal :=
  domainTerminals source.domain ++ source.declarations.flatMap Declaration.terminals

def document (file : String) (source : Source) : Document where
  domain := source.domain.map Name.text
  elements := source.declarations.map (Declaration.element file (source.domain.map Name.text))

end Source

end Grammar
end Requirements
