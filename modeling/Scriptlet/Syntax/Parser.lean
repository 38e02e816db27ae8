import Scriptlet.Number.Numeral
import Scriptlet.Source.Lexer
import Scriptlet.Syntax.Error
import Scriptlet.Syntax.Tree

/-!
# Reading syntax trees

A recursive-descent reader with two tokens in view. A statement with a fault is left out of the
tree, and reading goes on at the next token that can start or end a statement, so that later faults
are found too.

The reader is fueled: every function takes the number of nested calls it may still make. Between two
tokens at most a fixed number of calls are nested, so `Parser.fuelFor` always suffices.
-/

namespace Scriptlet

/-- A token with the faults found between it and the token before it. -/
structure Parser.Item where
  faults : List SyntaxError
  token : Token
  deriving Repr

/-- The tokens without the error tokens, whose faults go to the token after them. -/
def Parser.items (pending : List SyntaxError) : List Token → List Parser.Item
  | [] => []
  | t :: rest =>
    if t.kind = .error then items (pending ++ [.ofToken t]) rest else ⟨pending, t⟩ :: items [] rest

/-- Where the reader stands. -/
structure Parser.State where
  /-- The token to be read. -/
  current : Token
  /-- The tokens after it. -/
  upcoming : List Parser.Item
  /-- The end of the token before the current one. -/
  previousStop : Position
  /-- The faults found so far, those up to the token after the current one included. -/
  errors : List SyntaxError
  deriving Repr

/-- Reads some tokens; there is no result if a fault was found. -/
def Parser (α : Type) := Parser.State → Option α × Parser.State

namespace Parser

instance : Monad Parser where
  pure a := fun s => (some a, s)
  bind p f := fun s =>
    match p s with
    | (some a, s) => f a s
    | (none, s) => (none, s)

namespace State

/-- The faults before the first of some tokens. -/
def headFaults : List Item → List SyntaxError
  | [] => []
  | i :: _ => i.faults

/-- The state before the first token. -/
def ofTokens (tokens : List Token) : State :=
  match items [] tokens with
  | [] => ⟨default, [], default, []⟩
  | i :: rest => ⟨i.token, rest, default, i.faults ++ headFaults rest⟩

/-- The kind of the current token. -/
def kind (s : State) : TokenKind := s.current.kind

/-- The kind of the token after the current one; at the end of the text, of the current one. -/
def nextKind (s : State) : TokenKind :=
  match s.upcoming with
  | [] => s.kind
  | i :: _ => i.token.kind

/-- The state past the current token. Nothing is past the end of the text. -/
def advance (s : State) : State :=
  match s.upcoming with
  | [] => s
  | i :: rest => ⟨i.token, rest, s.current.stop, s.errors ++ headFaults rest⟩

/-- The state with a fault at the given range. -/
def report (s : State) (span : Span) (cause : SyntaxCause) : State :=
  { s with errors := s.errors ++ [⟨span, cause⟩] }

end State

/-- Reads what cannot be missing. -/
def always {α : Type} (f : State → α × State) : Parser α := fun s => (f s).map some id

/-- The current state. -/
def look : Parser State := fun s => (some s, s)

/-- Passes the current token. -/
def advance : Parser Unit := fun s => (some (), s.advance)

/-- Reports a fault at the given range. -/
def failAt {α : Type} (span : Span) (cause : SyntaxCause) : Parser α :=
  fun s => (none, s.report span cause)

/-- Reports a fault at the current token. -/
def fail {α : Type} (cause : SyntaxCause) : Parser α :=
  fun s => (none, s.report s.current.span cause)

/-- Passes a token of the given kind. -/
def expect (wanted : TokenKind) : Parser Unit := do
  let s ← look
  if s.kind = wanted then advance else fail (.expected wanted s.current)

/-- The range from `start` to the end of the last token passed. -/
def spanFrom (start : Position) : Parser Span := do
  let s ← look
  return ⟨start, s.previousStop⟩

/-! ## Expressions -/

/-- The binary operators that group to the left, from the loosest level on. -/
inductive Level where
  | or | and | equality | comparison | addition | multiplication
  deriving DecidableEq, Repr

/-- The operators of a level. -/
def Level.operators : Level → List TokenKind
  | or => [.orWord]
  | and => [.andWord]
  | equality => [.equal, .unequal]
  | comparison => [.less, .lessEqual, .greater, .greaterEqual]
  | addition => [.plus, .minus, .xorWord]
  | multiplication => [.star, .slash, .percent]

/-- The next tighter level; none if only unary operators bind tighter. -/
def Level.tighter? : Level → Option Level
  | or => some .and
  | and => some equality
  | equality => some comparison
  | comparison => some addition
  | addition => some multiplication
  | multiplication => none

/-- The operators before an operand. -/
def unaryOperators : List TokenKind := [.minus, .plus, .tilde]

/-- No result and no fault: the nesting is too deep for the fuel. -/
def exhausted {α : Type} : Parser α := fun s => (none, s)

mutual

/-- An operand of the given level. -/
def operand : (fuel : Nat) → Level → Parser Expr
  | 0, _ => exhausted
  | fuel + 1, level =>
    match level.tighter? with
    | some tighter => binary fuel tighter
    | none => unary fuel

/-- An expression whose loosest operators are of the given level. -/
def binary : (fuel : Nat) → Level → Parser Expr
  | 0, _ => exhausted
  | fuel + 1, level => do
    let left ← operand fuel level
    chain fuel level left

/-- The operators and operands of a level that follow `left`. -/
def chain : (fuel : Nat) → Level → Expr → Parser Expr
  | 0, _, _ => exhausted
  | fuel + 1, level, left => do
    let s ← look
    if s.kind ∈ level.operators then
      advance
      let right ← operand fuel level
      chain fuel level (.binary ⟨left.span.start, right.span.stop⟩ s.kind left right)
    else return left

/-- An expression without a loose binary operator. -/
def unary : (fuel : Nat) → Parser Expr
  | 0 => exhausted
  | fuel + 1 => do
    let s ← look
    if s.kind ∈ unaryOperators then
      advance
      let operand ← unary fuel
      return .unary (← spanFrom s.current.start) s.kind operand
    else power fuel

/-- A primary expression, raised to a power or not. Powers group to the right. -/
def power : (fuel : Nat) → Parser Expr
  | 0 => exhausted
  | fuel + 1 => do
    let base ← primary fuel
    let s ← look
    if s.kind = .caret then
      advance
      let exponent ← unary fuel
      return .binary ⟨base.span.start, exponent.span.stop⟩ .caret base exponent
    else return base

/-- A literal, a variable or an expression in parentheses. -/
def primary : (fuel : Nat) → Parser Expr
  | 0 => exhausted
  | fuel + 1 => do
    let s ← look
    let t := s.current
    match t.kind with
    | .number =>
      advance
      match numberOfLiteral? t.literal with
      | some x => return .number t.span x
      | none => failAt t.span (.numberTooLarge t.literal)
    | .string =>
      advance
      return .string t.span t.literal
    | .trueWord =>
      advance
      return .bool t.span true
    | .falseWord =>
      advance
      return .bool t.span false
    | .identifier =>
      advance
      return .ident t.span t.literal
    | .leftParen =>
      advance
      let inner ← binary fuel .or
      expect .rightParen
      return .group (← spanFrom t.start) inner
    | _ => fail (.expectedExpression t)

end

/-- Any expression. -/
def expression (fuel : Nat) : Parser Expr := binary fuel .or

/-! ## Statements -/

/-- Whether a statement surely starts at the current token. -/
def State.startsStatement (s : State) : Bool :=
  s.kind ∈ [.printWord, .printlnWord, .ifWord, .whileWord] ||
    (s.kind = .identifier && s.nextKind = .assign)

/-- Whether a block ends at the current token. -/
def State.endsBlock (s : State) (terminators : List TokenKind) : Bool :=
  s.kind = .eof || s.kind ∈ terminators

/-- Passes at most `n` tokens, up to one at which a statement starts or the block ends. -/
def skipTokens (terminators : List TokenKind) : (n : Nat) → State → State
  | 0, s => s
  | n + 1, s =>
    if s.endsBlock terminators || s.startsStatement then s
    else skipTokens terminators n s.advance

/-- Passes the rest of a faulty statement that began at `offset`, at least one token of it. -/
def synchronize (offset : Nat) (terminators : List TokenKind) (s : State) : State :=
  let s := if s.current.start.offset = offset ∧ s.kind ≠ .eof then s.advance else s
  skipTokens terminators s.upcoming.length s

/-- A print statement. -/
def printing (fuel : Nat) : Parser Stmt := do
  let s ← look
  advance
  let value ← expression fuel
  return .print (← spanFrom s.current.start) (s.kind = .printlnWord) value

/-- An assignment. -/
def assignment (fuel : Nat) : Parser Stmt := do
  let s ← look
  advance
  advance
  let value ← expression fuel
  return .assign (← spanFrom s.current.start) s.current.literal s.current.stop value

/-- An expression as a statement. -/
def expressionStatement (fuel : Nat) : Parser Stmt := do
  let s ← look
  let value ← expression fuel
  return .expr (← spanFrom s.current.start) value

mutual

/-- The statements up to the end of the text or one of the terminators. -/
def block : (fuel : Nat) → List TokenKind → State → List Stmt × State
  | 0, _, s => ([], s)
  | fuel + 1, terminators, s =>
    if s.endsBlock terminators then ([], s)
    else
      match statement fuel s with
      | (some stmt, s') =>
        if s'.errors.length ≤ s.errors.length then
          let (stmts, s'') := block fuel terminators s'
          (stmt :: stmts, s'')
        else block fuel terminators (synchronize s.current.start.offset terminators s')
      | (none, s') => block fuel terminators (synchronize s.current.start.offset terminators s')

/-- One statement. -/
def statement : (fuel : Nat) → Parser Stmt
  | 0 => exhausted
  | fuel + 1 => do
    let s ← look
    match s.kind with
    | .printWord | .printlnWord => printing fuel
    | .ifWord => conditional fuel
    | .whileWord => looping fuel
    | .identifier => if s.nextKind = .assign then assignment fuel else expressionStatement fuel
    | .funcWord | .retWord | .localWord | .forWord => fail (.unsupportedWord s.current.literal)
    | .endWord | .elseWord | .elifWord | .thenWord | .doWord =>
      fail (.unexpectedWord s.current.literal)
    | _ => expressionStatement fuel

/-- A conditional, from its `if` or `elif` to the `end` that all its branches share. -/
def conditional : (fuel : Nat) → Parser Stmt
  | 0 => exhausted
  | fuel + 1 => do
    let start := (← look).current.start
    advance
    let test ← expression fuel
    expect .thenWord
    let yes ← always (block fuel [.elifWord, .elseWord, .endWord])
    match (← look).kind with
    | .elifWord =>
      let nested ← conditional fuel
      return .cond (← spanFrom start) test yes [nested]
    | .elseWord =>
      advance
      let no ← always (block fuel [.endWord])
      expect .endWord
      return .cond (← spanFrom start) test yes no
    | _ =>
      expect .endWord
      return .cond (← spanFrom start) test yes []

/-- A loop. -/
def looping : (fuel : Nat) → Parser Stmt
  | 0 => exhausted
  | fuel + 1 => do
    let start := (← look).current.start
    advance
    let test ← expression fuel
    expect .doWord
    let body ← always (block fuel [.endWord])
    expect .endWord
    return .loop (← spanFrom start) test body

end

/-- Enough fuel for a text of `n` tokens. -/
def fuelFor (n : Nat) : Nat := 20 * (n + 1)

/-- Reads all statements of some tokens. -/
def script (tokens : List Token) : Script × State :=
  let s := State.ofTokens tokens
  let (statements, s') := block (fuelFor tokens.length) [] s
  (⟨⟨s.current.start, s'.current.stop⟩, statements⟩, s')

end Parser

/-- The tree of a source text, without its faulty statements, and all faults in order. -/
def parsePartial (source : Bytes) : Script × List SyntaxError :=
  let (tree, s) := Parser.script (tokenize source)
  (tree, SyntaxError.sorted s.errors)

/-- The tree of a source text without faults; otherwise its faults in order. -/
def parse (source : Bytes) : Except (List SyntaxError) Script :=
  match parsePartial source with
  | (tree, []) => .ok tree
  | (_, errors) => .error errors

end Scriptlet
