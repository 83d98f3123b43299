/-!
# Kinds of tokens

The kinds of tokens, their names, and the table of reserved words. Some words are reserved although
no construct of the language uses them.
-/

namespace LoxScript

/-- The kind of a token. -/
inductive TokenKind where
  -- signs of one character that begin no longer sign
  | leftParen | rightParen | leftBrace | rightBrace | comma | dot | minus | plus | semicolon
  | slash | star
  -- signs that an equals sign can follow, and with it
  | bang | bangEqual | equal | equalEqual | greater | greaterEqual | less | lessEqual
  -- tokens with a content of their own
  | identifier | text | number
  -- reserved words
  | andWord | classWord | elseWord | falseWord | funWord | forWord | ifWord | nilWord | orWord
  | printWord | returnWord | superWord | thisWord | trueWord | varWord | whileWord
  -- behind everything else
  | endMark
deriving DecidableEq, Repr, Inhabited

namespace TokenKind

/-- The name of a kind. -/
def name : TokenKind → String
  | leftParen => "LEFT_PAREN"
  | rightParen => "RIGHT_PAREN"
  | leftBrace => "LEFT_BRACE"
  | rightBrace => "RIGHT_BRACE"
  | comma => "COMMA"
  | dot => "DOT"
  | minus => "MINUS"
  | plus => "PLUS"
  | semicolon => "SEMICOLON"
  | slash => "SLASH"
  | star => "STAR"
  | bang => "BANG"
  | bangEqual => "BANG_EQUAL"
  | equal => "EQUAL"
  | equalEqual => "EQUAL_EQUAL"
  | greater => "GREATER"
  | greaterEqual => "GREATER_EQUAL"
  | less => "LESS"
  | lessEqual => "LESS_EQUAL"
  | identifier => "IDENTIFIER"
  | text => "STRING"
  | number => "NUMBER"
  | andWord => "AND"
  | classWord => "CLASS"
  | elseWord => "ELSE"
  | falseWord => "FALSE"
  | funWord => "FUN"
  | forWord => "FOR"
  | ifWord => "IF"
  | nilWord => "NIL"
  | orWord => "OR"
  | printWord => "PRINT"
  | returnWord => "RETURN"
  | superWord => "SUPER"
  | thisWord => "THIS"
  | trueWord => "TRUE"
  | varWord => "VAR"
  | whileWord => "WHILE"
  | endMark => "EOF"

/-- All kinds. -/
def all : List TokenKind :=
  [leftParen, rightParen, leftBrace, rightBrace, comma, dot, minus, plus, semicolon, slash, star,
   bang, bangEqual, equal, equalEqual, greater, greaterEqual, less, lessEqual, identifier, text,
   number, andWord, classWord, elseWord, falseWord, funWord, forWord, ifWord, nilWord, orWord,
   printWord, returnWord, superWord, thisWord, trueWord, varWord, whileWord, endMark]

/-- The kind of a given name. -/
def ofName? (s : String) : Option TokenKind := all.find? (·.name == s)

/-- The reserved words. -/
def words : List (String × TokenKind) :=
  [("and", andWord),
   ("class", classWord),
   ("else", elseWord),
   ("false", falseWord),
   ("fun", funWord),
   ("for", forWord),
   ("if", ifWord),
   ("nil", nilWord),
   ("or", orWord),
   ("print", printWord),
   ("return", returnWord),
   ("super", superWord),
   ("this", thisWord),
   ("true", trueWord),
   ("var", varWord),
   ("while", whileWord)]

/-- The kind that is reserved for a word. -/
def ofWord? (s : String) : Option TokenKind := words.lookup s

end TokenKind

end LoxScript
