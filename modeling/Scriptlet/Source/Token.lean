import Scriptlet.Source.Position
import Scriptlet.Text.Quoted

/-!
# Tokens

The kinds of token of the language, with the number and the name of each, and tokens themselves: a
kind, the text it was read from and its place.
-/

namespace Scriptlet

/-- The kind of a token. Operators of a syntax tree are token kinds too, so a tree built by hand may
hold a number that is no kind of the language (`other`). -/
inductive TokenKind where
  | eof | error
  | number | string | identifier
  | plus | minus | star | slash | percent | caret | tilde
  | equal | unequal | less | lessEqual | greater | greaterEqual | assign
  | leftParen | rightParen
  | ifWord | thenWord | elifWord | elseWord | endWord | whileWord | doWord
  | printWord | printlnWord | trueWord | falseWord | andWord | orWord | xorWord
  | funcWord | retWord | localWord | forWord
  | other (code : Int)
  deriving DecidableEq, Repr, Inhabited

namespace TokenKind

/-- The words of programs. -/
def usable : List TokenKind :=
  [ifWord, thenWord, elifWord, elseWord, endWord, whileWord, doWord, printWord, printlnWord,
    trueWord, falseWord, andWord, orWord, xorWord]

/-- The words kept for features that the language does not have. -/
def unsupported : List TokenKind := [funcWord, retWord, localWord, forWord]

/-- The words that no variable can be named by. -/
def reserved : List TokenKind := usable ++ unsupported

/-- The kinds of the language; a kind's number is its place in the list. -/
def all : List TokenKind :=
  [eof, error, number, string, identifier, plus, minus, star, slash, percent, caret, tilde, equal,
    unequal, less, lessEqual, greater, greaterEqual, assign, leftParen, rightParen] ++ reserved

/-- The kind with the given number. -/
def ofCode (code : Int) : TokenKind :=
  match code with
  | .ofNat n => all.getD n (other code)
  | .negSucc _ => other code

/-- The name of a kind: of operators and words, their spelling. -/
def name : TokenKind → Bytes
  | eof => "EOF"
  | error => "ERROR"
  | number => "NUMBER"
  | string => "STRING"
  | identifier => "IDENTIFIER"
  | plus => "+"
  | minus => "-"
  | star => "*"
  | slash => "/"
  | percent => "%"
  | caret => "^"
  | tilde => "~"
  | equal => "=="
  | unequal => "~="
  | less => "<"
  | lessEqual => "<="
  | greater => ">"
  | greaterEqual => ">="
  | assign => ":="
  | leftParen => "("
  | rightParen => ")"
  | ifWord => "if"
  | thenWord => "then"
  | elifWord => "elif"
  | elseWord => "else"
  | endWord => "end"
  | whileWord => "while"
  | doWord => "do"
  | printWord => "print"
  | printlnWord => "println"
  | trueWord => "true"
  | falseWord => "false"
  | andWord => "and"
  | orWord => "or"
  | xorWord => "xor"
  | funcWord => "func"
  | retWord => "ret"
  | localWord => "local"
  | forWord => "for"
  | other code => "Token(" ++ decimalInt code ++ ")"

/-- The reserved word with the given spelling. -/
def ofWord? (word : Bytes) : Option TokenKind := reserved.find? fun k => k.name == word

/-- The words of programs, spelled out. -/
def keywords : List Bytes := usable.map name

end TokenKind

/-- A token. The literal of a string leaves out its quotes; the literal of an error is its
message. -/
structure Token where
  kind : TokenKind
  literal : Bytes
  start : Position
  stop : Position
  deriving DecidableEq, Repr, Inhabited

namespace Token

/-- The range of a token. -/
def span (t : Token) : Span := ⟨t.start, t.stop⟩

/-- The number of bytes of a literal that `text` shows. -/
def shownBytes : Nat := 20

/-- A token the way a token listing shows it. A long literal is cut. -/
def text (t : Token) : Bytes :=
  match t.kind with
  | .eof => "EOF"
  | .error => "ERROR(" ++ t.literal ++ ")"
  | kind =>
    if t.literal.length ≤ shownBytes then kind.name ++ "(" ++ Quoted.text t.literal ++ ")"
    else kind.name ++ "(" ++ Quoted.text (t.literal.take shownBytes) ++ "...)"

/-- A token the way error messages name it. -/
def describe (t : Token) : Bytes :=
  match t.kind with
  | .eof => "end of file"
  | .number => "NUMBER " ++ t.literal
  | .identifier => "IDENTIFIER " ++ t.literal
  | .string => "string literal"
  | _ => "'" ++ t.literal ++ "'"

end Token

end Scriptlet
