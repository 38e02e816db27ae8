import Scriptlet.Source.Token
import Scriptlet.Text.Letter

/-!
# Reading tokens

`tokenize` cuts a source text into tokens. `Lexeme.read` says which token a text starts with and how
many characters it takes; `scan` walks over the characters, skips blanks and comments, and starts a
token at every other character that no token before it covers.
-/

namespace Scriptlet

/-- The character is `c`. -/
def Glyph.is (g : Glyph) (c : Char) : Bool := g.code == c.toNat

/-- A token without its place: its kind, its literal, and the number of characters it takes. -/
structure Lexeme where
  kind : TokenKind
  literal : Bytes
  width : Nat
  deriving DecidableEq, Repr

namespace Lexeme

/-- The message for a lone equals sign. -/
def loneEqual : Bytes := "unexpected '=' (use '==' to compare or ':=' to assign)"

/-- The message for a string without its closing quote. -/
def unterminated : Bytes := "unterminated string"

/-- The message for a character that starts no token. -/
def unexpected (code : Nat) : Bytes := "unexpected character " ++ Quoted.character code

/-- A character that may start a name. -/
def startsName (g : Glyph) : Bool := isLetter g.code || g.is '_'

/-- A character that may stand inside a name. -/
def continuesName (g : Glyph) : Bool := isLetter g.code || isDigit g.code || g.is '_'

/-- The token of the given kind that takes the first `width` characters. -/
def covering (kind : TokenKind) (width : Nat) (gs : List Glyph) : Lexeme :=
  ⟨kind, Utf8.join (gs.take width), width⟩

/-- The number of digits that the text starts with. -/
def digitRun (gs : List Glyph) : Nat := (gs.takeWhile fun g => isDigit g.code).length

/-- The number of characters of the number that the text starts with: digits, and a point with more
digits if at least one follows it. -/
def numberWidth (gs : List Glyph) : Nat :=
  let whole := digitRun gs
  match gs.drop whole with
  | point :: rest =>
    if point.is '.' && 0 < digitRun rest then whole + 1 + digitRun rest else whole
  | [] => whole

/-- The string that starts with the quote `q`: it runs to the next quote of the same kind. -/
def readString (q : Glyph) (rest : List Glyph) : Lexeme :=
  let body := rest.takeWhile fun g => g.code != q.code
  if body.length < rest.length then ⟨.string, Utf8.join body, body.length + 2⟩
  else ⟨.error, unterminated, body.length + 1⟩

/-- The name or reserved word that the text starts with. -/
def readName (gs : List Glyph) : Lexeme :=
  let word := gs.takeWhile continuesName
  let literal := Utf8.join word
  ⟨(TokenKind.ofWord? literal).getD .identifier, literal, word.length⟩

/-- The token that a text starts with. -/
def read (g : Glyph) (rest : List Glyph) : Lexeme :=
  let beforeEqual := (rest.head?.map (·.is '=')).getD false
  if g.is '(' then covering .leftParen 1 (g :: rest)
  else if g.is ')' then covering .rightParen 1 (g :: rest)
  else if g.is '+' then covering .plus 1 (g :: rest)
  else if g.is '-' then covering .minus 1 (g :: rest)
  else if g.is '*' then covering .star 1 (g :: rest)
  else if g.is '/' then covering .slash 1 (g :: rest)
  else if g.is '%' then covering .percent 1 (g :: rest)
  else if g.is '^' then covering .caret 1 (g :: rest)
  else if g.is '~' then
    if beforeEqual then covering .unequal 2 (g :: rest) else covering .tilde 1 (g :: rest)
  else if g.is '=' then
    if beforeEqual then covering .equal 2 (g :: rest) else ⟨.error, loneEqual, 1⟩
  else if g.is ':' && beforeEqual then covering .assign 2 (g :: rest)
  else if g.is '<' then
    if beforeEqual then covering .lessEqual 2 (g :: rest) else covering .less 1 (g :: rest)
  else if g.is '>' then
    if beforeEqual then covering .greaterEqual 2 (g :: rest) else covering .greater 1 (g :: rest)
  else if g.is '"' || g.is '\'' then readString g rest
  else if isDigit g.code then covering .number (numberWidth (g :: rest)) (g :: rest)
  else if startsName g then readName (g :: rest)
  else ⟨.error, unexpected g.code, 1⟩

end Lexeme

/-- A character between tokens. -/
def Glyph.isLayout (g : Glyph) : Bool := g.is ' ' || g.is '\t' || g.is '\n' || g.is '\r'

/-- Whether a comment starts at `g`: two hyphens. -/
def startsComment (g : Glyph) (rest : List Glyph) : Bool :=
  g.is '-' && (rest.head?.map (·.is '-')).getD false

/-- Where the scanner stands. -/
inductive ScanMode where
  /-- The current token covers `left` more characters. -/
  | token (left : Nat)
  /-- In a comment, which runs to the end of its line. -/
  | comment
  deriving DecidableEq, Repr

/-- The tokens of the characters from `p` on; the last one marks the end of the text. -/
def scan : ScanMode → Position → List Glyph → List Token
  | _, p, [] => [⟨.eof, [], p, p⟩]
  | .token (left + 1), p, g :: rest => scan (.token left) (p.past g) rest
  | .comment, p, g :: rest =>
    scan (if g.is '\n' then .token 0 else .comment) (p.past g) rest
  | .token 0, p, g :: rest =>
    if g.isLayout then scan (.token 0) (p.past g) rest
    else if startsComment g rest then scan .comment (p.past g) rest
    else
      let l := Lexeme.read g rest
      ⟨l.kind, l.literal, p, p.pastAll ((g :: rest).take l.width)⟩ ::
        scan (.token (l.width - 1)) (p.past g) rest

/-- The tokens of a source text, errors included. The last one marks the end of the text. -/
def tokenize (source : Bytes) : List Token :=
  scan (.token 0) Position.start (Utf8.glyphs source)

end Scriptlet
