import Scriptlet.Source.Token

/-!
# Syntax errors

Why a source text is refused, and where.
-/

namespace Scriptlet

/-- What is wrong with a source text. -/
inductive SyntaxCause where
  /-- No token could be read. -/
  | lexical (message : Bytes)
  | expected (wanted : TokenKind) (found : Token)
  | expectedExpression (found : Token)
  /-- A word kept for a feature that the language does not have. -/
  | unsupportedWord (word : Bytes)
  /-- A word that starts no statement. -/
  | unexpectedWord (word : Bytes)
  | numberTooLarge (literal : Bytes)
  deriving DecidableEq, Repr

/-- What is wrong, in words. -/
def SyntaxCause.message : SyntaxCause → Bytes
  | lexical message => message
  | expected wanted found => "expected '" ++ wanted.name ++ "', got " ++ found.describe
  | expectedExpression found => "expected expression, got " ++ found.describe
  | unsupportedWord word => "'" ++ word ++ "' is not supported"
  | unexpectedWord word => "unexpected '" ++ word ++ "'"
  | numberTooLarge literal => "invalid number " ++ literal

/-- A fault in a source text. -/
structure SyntaxError where
  span : Span
  cause : SyntaxCause
  deriving DecidableEq, Repr

namespace SyntaxError

/-- What is wrong, in words. -/
def message (e : SyntaxError) : Bytes := e.cause.message

/-- The place and the fault in words. -/
def text (e : SyntaxError) : Bytes :=
  decimal e.span.start.line ++ ":" ++ decimal e.span.start.column ++ ": " ++ e.message

/-- The fault that an error token reports. -/
def ofToken (t : Token) : SyntaxError := ⟨t.span, .lexical t.literal⟩

/-- The first of some faults, and how many more there are. -/
def summary : List SyntaxError → Bytes
  | [] => "no errors"
  | [e] => e.text
  | e :: more => e.text ++ " (and " ++ decimal more.length ++ " more errors)"

/-- The faults in the order of their places. Faults at one place keep their order. -/
def sorted (errors : List SyntaxError) : List SyntaxError :=
  errors.mergeSort fun a b => a.span.start.offset ≤ b.span.start.offset

end SyntaxError

end Scriptlet
