/-! The words of a document: what the scanner cuts a text into. -/
namespace Requirements

inductive TokenKind
  | identifier | number | quoted
  | openBrace | closeBrace | openBracket | closeBracket
  | colon | semicolon | equals | comma | dot
  | invalid
  deriving DecidableEq, Inhabited

def TokenKind.describe : TokenKind → String
  | identifier => "identifier"
  | number => "number"
  | quoted => "string"
  | openBrace => "'\x7b'"
  | closeBrace => "'\x7d'"
  | openBracket => "'['"
  | closeBracket => "']'"
  | colon => "':'"
  | semicolon => "';'"
  | equals => "'='"
  | comma => "','"
  | dot => "'.'"
  | invalid => "invalid character"

inductive LexemeKind
  | token (kind : TokenKind)
  | blank | lineComment | blockComment
  deriving DecidableEq, Inhabited

structure Lexeme where
  kind : LexemeKind
  characters : List Char
  deriving DecidableEq, Inhabited

structure Token where
  kind : TokenKind
  text : String
  /-- Of the first byte, counted from the start of the text. -/
  offset : Nat
  deriving DecidableEq, Inhabited

end Requirements
