import Requirements.Token

/-! Cutting a text into lexemes. Each takes the longest stretch its rule allows, and
where no rule allows any, one invalid token is taken: a single character, or what an
unclosed string or comment holds up to the last whole step of its rule. The lexemes
together are the text. -/
namespace Requirements

def isBlankChar (c : Char) : Bool := c == ' ' || c == '\t' || c == '\r' || c == '\n'

/-- The letters and digits of a document's words are ASCII. -/
def isWordStart (c : Char) : Bool :=
  ('a' ≤ c && c ≤ 'z') || ('A' ≤ c && c ≤ 'Z') || c == '_'

def isDigitChar (c : Char) : Bool := '0' ≤ c && c ≤ '9'

def isWordChar (c : Char) : Bool := isWordStart c || isDigitChar c

structure Body where
  closed : Bool
  length : Nat
  deriving DecidableEq

def Body.shift (n : Nat) (body : Body) : Body := ⟨body.closed, body.length + n⟩

/-- A block comment goes on in steps of one character that is no star, or of a star
with the character behind it; it ends at a slash behind the star that starts a step. -/
def commentBody : List Char → Body
  | '*' :: '/' :: _ => ⟨true, 2⟩
  | '*' :: _ :: rest => (commentBody rest).shift 2
  | ['*'] => ⟨false, 0⟩
  | [] => ⟨false, 0⟩
  | _ :: rest => (commentBody rest).shift 1

/-- A string goes on in steps of one plain character, or of a backslash with the
character behind it on the same line. -/
def quotedBody : List Char → Body
  | '"' :: _ => ⟨true, 1⟩
  | '\\' :: c :: rest => if c = '\n' then ⟨false, 0⟩ else (quotedBody rest).shift 2
  | ['\\'] => ⟨false, 0⟩
  | [] => ⟨false, 0⟩
  | _ :: rest => (quotedBody rest).shift 1

def fractionLength : List Char → Nat
  | '.' :: rest =>
    match (rest.takeWhile isDigitChar).length with
    | 0 => 0
    | digits => 1 + digits
  | _ => 0

def numberLength (text : List Char) : Nat :=
  match (text.takeWhile isDigitChar).length with
  | 0 => 0
  | whole => whole + fractionLength (text.drop whole)

def punctuation? : Char → Option TokenKind
  | '{' => some .openBrace
  | '}' => some .closeBrace
  | '[' => some .openBracket
  | ']' => some .closeBracket
  | ':' => some .colon
  | ';' => some .semicolon
  | '=' => some .equals
  | ',' => some .comma
  | '.' => some .dot
  | _ => none

/-- The kind of the lexeme that starts with `c`, and how many characters of `rest`
belong to it. -/
def nextLexeme (c : Char) (rest : List Char) : LexemeKind × Nat :=
  if isBlankChar c then (.blank, (rest.takeWhile isBlankChar).length)
  else if isWordStart c then (.token .identifier, (rest.takeWhile isWordChar).length)
  else if isDigitChar c then (.token .number, numberLength (c :: rest) - 1)
  else if c = '-' then
    match numberLength rest with
    | 0 => (.token .invalid, 0)
    | length => (.token .number, length)
  else if c = '"' then
    let body := quotedBody rest
    (.token (if body.closed then .quoted else .invalid), body.length)
  else if c = '/' then
    match rest with
    | '/' :: line => (.lineComment, 1 + (line.takeWhile (· ≠ '\n')).length)
    | '*' :: text =>
      let body := commentBody text
      (if body.closed then .blockComment else .token .invalid, 1 + body.length)
    | _ => (.token .invalid, 0)
  else
    match punctuation? c with
    | some kind => (.token kind, 0)
    | none => (.token .invalid, 0)

/-- The lexemes of what is left of a text once `taken` more characters are skipped. -/
def lexemesAfter : Nat → List Char → List Lexeme
  | _, [] => []
  | taken + 1, _ :: rest => lexemesAfter taken rest
  | 0, c :: rest =>
    let (kind, length) := nextLexeme c rest
    ⟨kind, c :: rest.take length⟩ :: lexemesAfter length rest

def lexemes (text : List Char) : List Lexeme := lexemesAfter 0 text

theorem lexemesAfter_eq_drop (taken : Nat) (text : List Char) :
    lexemesAfter taken text = lexemes (text.drop taken) := by
  induction text generalizing taken with
  | nil => cases taken <;> rfl
  | cons c rest ih =>
    cases taken with
    | zero => rfl
    | succ taken => exact ih taken

theorem lexemes_cons (c : Char) (rest : List Char) :
    lexemes (c :: rest) =
      ⟨(nextLexeme c rest).1, c :: rest.take (nextLexeme c rest).2⟩ ::
        lexemes (rest.drop (nextLexeme c rest).2) := by
  rw [← lexemesAfter_eq_drop]; rfl

def utf8Length (text : List Char) : Nat := text.foldl (fun length c => length + c.utf8Size) 0

def tokensFrom (offset : Nat) : List Lexeme → List Token
  | [] => []
  | lexeme :: rest =>
    let behind := tokensFrom (offset + utf8Length lexeme.characters) rest
    match lexeme.kind with
    | .token kind => ⟨kind, String.ofList lexeme.characters, offset⟩ :: behind
    | _ => behind

def Token.ofText (text : String) : List Token := tokensFrom 0 (lexemes text.toList)

end Requirements
