import Scriptlet.Source.Token

/-!
# Syntax trees

Expressions, statements and scripts, each with the range of source it was read from.
-/

namespace Scriptlet

/-- An expression. Its operators are token kinds; only some of them have a meaning, and a tree built
by hand may hold others. -/
inductive Expr where
  | number (span : Span) (value : Float)
  /-- The text between the quotes, as written. -/
  | string (span : Span) (text : Bytes)
  | bool (span : Span) (value : Bool)
  /-- A variable. -/
  | ident (span : Span) (name : Bytes)
  /-- An expression in parentheses. -/
  | group (span : Span) (inner : Expr)
  | unary (span : Span) (op : TokenKind) (operand : Expr)
  | binary (span : Span) (op : TokenKind) (left right : Expr)
  deriving Repr, Inhabited

namespace Expr

/-- The range of an expression. -/
def span : Expr → Span
  | number s _ | string s _ | bool s _ | ident s _ | group s _ | unary s _ _ | binary s _ _ _ => s

/-- The expression inside all parentheses around it. -/
def unparen : Expr → Expr
  | group _ inner => inner.unparen
  | e => e

end Expr

/-- A statement. -/
inductive Stmt where
  | print (span : Span) (newline : Bool) (value : Expr)
  /-- `nameStop` is the end of the name. -/
  | assign (span : Span) (name : Bytes) (nameStop : Position) (value : Expr)
  /-- An expression whose value is dropped. -/
  | expr (span : Span) (value : Expr)
  /-- An `elif` is a conditional that is the only statement of the other branch. -/
  | cond (span : Span) (test : Expr) (yes no : List Stmt)
  | loop (span : Span) (test : Expr) (body : List Stmt)
  deriving Repr, Inhabited

/-- The range of a statement. -/
def Stmt.span : Stmt → Span
  | print s _ _ | assign s _ _ _ | expr s _ | cond s _ _ _ | loop s _ _ => s

/-- A whole source text, read. -/
structure Script where
  span : Span
  statements : List Stmt
  deriving Repr, Inhabited

end Scriptlet
