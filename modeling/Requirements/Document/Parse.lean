import Requirements.Document
import Requirements.Text.Position
import Requirements.Token.Scan

/-! Reading a document.

    document := ("domain" name ";")? element*
    element  := KIND name ("from" name)? ("extends" name)? (";" | "{" member* "}")
    member   := "use" name ";" | "call" name ";" | property
    property := key (":" ("list" "of")? name)? ("mandatory" | "optional")?
                ("=" value | "=" "[" (value ("," value)*)? "]")? (";" | "{" property* "}")
    value    := STRING | NUMBER | name
    name     := IDENTIFIER ("." IDENTIFIER)*

A member that starts with `use` or `call` is a directive only if an identifier comes
next, and `list` is the list mark only if `of` comes next. Each reader takes tokens from
the front and gives back the rest, or says what it expected where. -/
namespace Requirements

inductive Expected
  | elementKeyword | value
  | token (kind : TokenKind)
  deriving DecidableEq

def Expected.describe : Expected → String
  | elementKeyword => "element keyword"
  | value => "value"
  | token kind => kind.describe

structure Stuck where
  expected : Expected
  rest : List Token

structure ParseError where
  expected : Expected
  /-- Nothing was found at the end of the text. -/
  found : Option Token
  position : Position
  deriving DecidableEq

namespace ParseError

def complaint (error : ParseError) : String :=
  match error.found with
  | none => "expected " ++ error.expected.describe ++ ", found end of file"
  | some ⟨.invalid, text, _⟩ => "invalid character '" ++ text ++ "'"
  | some ⟨kind, text, _⟩ =>
    "expected " ++ error.expected.describe ++ ", found " ++ kind.describe ++ " '" ++ text ++ "'"

/-- Lines and columns are shown counting from one. -/
def message (error : ParseError) : String :=
  toString (error.position.line + 1) ++ ":" ++ toString (error.position.column + 1) ++ ": " ++
    error.complaint

end ParseError

namespace Read

abbrev Reader (α : Type) := List Token → Except Stuck (α × List Token)

def isWord (word : String) (token : Token) : Bool :=
  token.kind == .identifier && token.text == word

def one (kind : TokenKind) : Reader String
  | [] => .error ⟨.token kind, []⟩
  | token :: rest =>
    if token.kind = kind then .ok (token.text, rest) else .error ⟨.token kind, token :: rest⟩

def skip? (kind : TokenKind) : List Token → Option (List Token)
  | token :: rest => if token.kind = kind then some rest else none
  | [] => none

def skipWord? (word : String) : List Token → Option (List Token)
  | token :: rest => if isWord word token then some rest else none
  | [] => none

def nameTail (start : String) : Reader String
  | ⟨.dot, _, _⟩ :: ⟨.identifier, text, _⟩ :: rest => nameTail (start ++ "." ++ text) rest
  | ⟨.dot, _, _⟩ :: rest => .error ⟨.token .identifier, rest⟩
  | rest => .ok (start, rest)

def name : Reader String := fun tokens => do
  let (start, rest) ← one .identifier tokens
  nameTail start rest

def qualifiedName : Reader QualifiedName := fun tokens => do
  let (text, rest) ← name tokens
  .ok (QualifiedName.parse text, rest)

def clause (word : String) : Reader (Option QualifiedName) := fun tokens =>
  match skipWord? word tokens with
  | none => .ok (none, tokens)
  | some rest => do
    let (name, rest) ← qualifiedName rest
    .ok (some name, rest)

/-- Escapes: `\n` and `\t` name characters, any other character stands for itself. -/
def unescape : List Char → List Char
  | '\\' :: 'n' :: rest => '\n' :: unescape rest
  | '\\' :: 't' :: rest => '\t' :: unescape rest
  | '\\' :: c :: rest => c :: unescape rest
  | c :: rest => c :: unescape rest
  | [] => []

def quotedText (text : String) : String :=
  String.ofList (unescape (text.toList.drop 1).dropLast)

def value : Reader String
  | [] => .error ⟨.value, []⟩
  | token :: rest =>
    match token.kind with
    | .quoted => .ok (quotedText token.text, rest)
    | .number => .ok (token.text, rest)
    | .identifier => name (token :: rest)
    | _ => .error ⟨.value, token :: rest⟩

def moreValues : Nat → Reader (List String)
  | 0, tokens => .ok ([], tokens)
  | steps + 1, tokens =>
    match skip? .comma tokens with
    | none => .ok ([], tokens)
    | some rest => do
      let (first, rest) ← value rest
      let (others, rest) ← moreValues steps rest
      .ok (first :: others, rest)

def valueList : Reader (List String) := fun tokens =>
  match skip? .closeBracket tokens with
  | some rest => .ok ([], rest)
  | none => do
    let (first, rest) ← value tokens
    let (others, rest) ← moreValues rest.length rest
    let (_, rest) ← one .closeBracket rest
    .ok (first :: others, rest)

def assigned : Reader (Option String × List String) := fun tokens =>
  match skip? .equals tokens with
  | none => .ok ((none, []), tokens)
  | some rest =>
    match skip? .openBracket rest with
    | some rest => do
      let (items, rest) ← valueList rest
      .ok ((none, items), rest)
    | none => do
      let (single, rest) ← value rest
      .ok ((some single, []), rest)

def skipListMark? (tokens : List Token) : Option (List Token) := do
  skipWord? "of" (← skipWord? "list" tokens)

def propertyType : Reader (Option String × Bool) := fun tokens =>
  match skip? .colon tokens with
  | none => .ok ((none, false), tokens)
  | some rest => do
    let marked := skipListMark? rest
    let (typeName, rest) ← name (marked.getD rest)
    .ok ((some typeName, marked.isSome), rest)

def presence (tokens : List Token) : Option Presence × List Token :=
  match skipWord? "mandatory" tokens, skipWord? "optional" tokens with
  | some rest, _ => (some .mandatory, rest)
  | none, some rest => (some .optional, rest)
  | none, none => (none, tokens)

def propertyHead : Reader Property := fun tokens => do
  let (key, rest) ← one .identifier tokens
  let ((typeName, listOf), rest) ← propertyType rest
  let (presence, rest) := presence rest
  let ((value, values), rest) ← assigned rest
  .ok ({ key, typeName, presence, value, listOf, values }, rest)

mutual

/-- A property and the opening of its attributes are two steps and at least two tokens,
so as many steps as there are tokens suffice. -/
def property : Nat → Reader Property
  | 0, tokens => .error ⟨.token .identifier, tokens⟩
  | steps + 1, tokens => do
    let (head, rest) ← propertyHead tokens
    match skip? .openBrace rest with
    | some rest => do
      let (attributes, rest) ← attributes steps rest
      .ok ({ head with attributes }, rest)
    | none => do
      let (_, rest) ← one .semicolon rest
      .ok (head, rest)

def attributes : Nat → Reader (List Property)
  | 0, tokens => .error ⟨.token .closeBrace, tokens⟩
  | steps + 1, tokens =>
    match skip? .closeBrace tokens, tokens with
    | some rest, _ => .ok ([], rest)
    | none, [] => .error ⟨.token .closeBrace, []⟩
    | none, _ :: _ => do
      let (first, rest) ← property steps tokens
      let (others, rest) ← attributes steps rest
      .ok (first :: others, rest)

end

def skipDirective? (word : String) (tokens : List Token) : Option (List Token) :=
  match skipWord? word tokens with
  | some (⟨.identifier, text, offset⟩ :: rest) => some (⟨.identifier, text, offset⟩ :: rest)
  | _ => none

def directive : Reader QualifiedName := fun tokens => do
  let (name, rest) ← qualifiedName tokens
  let (_, rest) ← one .semicolon rest
  .ok (name, rest)

def member (element : Element) : Reader Element := fun tokens =>
  match skipDirective? "use" tokens, skipDirective? "call" tokens with
  | some rest, _ => do
    let (feature, rest) ← directive rest
    .ok ({ element with features := element.features ++ [feature] }, rest)
  | none, some rest => do
    let (target, rest) ← directive rest
    .ok ({ element with calls := element.calls ++ [target] }, rest)
  | none, none => do
    let (property, rest) ← property tokens.length tokens
    .ok ({ element with properties := element.properties ++ [property] }, rest)

def members (element : Element) : Nat → Reader Element
  | 0, tokens => .error ⟨.token .closeBrace, tokens⟩
  | steps + 1, tokens =>
    match skip? .closeBrace tokens, tokens with
    | some rest, _ => .ok (element, rest)
    | none, [] => .error ⟨.token .closeBrace, []⟩
    | none, _ :: _ => do
      let (element, rest) ← member element tokens
      members element steps rest

def elementHead (file : String) (domain : Option String) : Reader Element
  | [] => .error ⟨.elementKeyword, []⟩
  | token :: rest =>
    match if token.kind = .identifier then ElementKind.ofKeyword? token.text else none with
    | none => .error ⟨.elementKeyword, token :: rest⟩
    | some kind => do
      let (name, rest) ← qualifiedName rest
      let (ancestor, rest) ← clause "from" rest
      let (parent, rest) ← clause "extends" rest
      .ok ({ kind, name := name.within domain, ancestor, parent, file }, rest)

def element (file : String) (domain : Option String) : Reader Element := fun tokens => do
  let (head, rest) ← elementHead file domain tokens
  match skip? .semicolon rest with
  | some rest => .ok (head, rest)
  | none => do
    let (_, rest) ← one .openBrace rest
    members head rest.length.succ rest

def elements (file : String) (domain : Option String) :
    Nat → List Token → Except Stuck (List Element)
  | _, [] => .ok []
  | 0, token :: rest => .error ⟨.elementKeyword, token :: rest⟩
  | steps + 1, tokens => do
    let (first, rest) ← element file domain tokens
    let others ← elements file domain steps rest
    .ok (first :: others)

def domain : Reader (Option String) := fun tokens =>
  match skipWord? "domain" tokens with
  | none => .ok (none, tokens)
  | some rest => do
    let (domain, rest) ← name rest
    let (_, rest) ← one .semicolon rest
    .ok (some domain, rest)

def document (file : String) (tokens : List Token) : Except Stuck Document := do
  let (domain, rest) ← domain tokens
  let elements ← elements file domain rest.length rest
  .ok ⟨domain, elements⟩

end Read

/-- A complaint points at the first token that cannot follow, or behind the text. -/
def Stuck.toError (text : String) (stuck : Stuck) : ParseError :=
  let offset := match stuck.rest with
    | token :: _ => token.offset
    | [] => utf8Length text.toList
  ⟨stuck.expected, stuck.rest.head?, (LineStarts.ofText text).position offset⟩

def Document.parse (text file : String) : Except ParseError Document :=
  (Read.document file (Token.ofText text)).mapError (Stuck.toError text)

end Requirements
