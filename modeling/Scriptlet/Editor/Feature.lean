import Scriptlet.Editor.Document

/-!
# Language features

What an editor can ask about the name at a place: how it goes on, what it is, where it is assigned
and where it is used.
-/

namespace Scriptlet.Editor

/-- What a proposed word is. -/
inductive CompletionKind where
  | keyword | variableName
  deriving DecidableEq, Repr

/-- A word that may go on from what is written. -/
structure Completion where
  label : Bytes
  kind : CompletionKind
  deriving DecidableEq, Repr

/-- A range of a document. -/
structure Location where
  uri : Bytes
  range : PlaceRange
  deriving DecidableEq, Repr

/-- What a reserved word is for. -/
def keywordText : TokenKind → Bytes
  | .ifWord => "`if cond then ... [elif cond then ...] [else ...] end`"
  | .thenWord => "Starts the body of an `if` or `elif` branch."
  | .elifWord => "`elif cond then ...`: tested when every earlier branch was false."
  | .elseWord => "Runs when every branch of the `if` was false."
  | .endWord => "Closes an `if` or `while` block."
  | .whileWord => "`while cond do ... end`: repeats the body while the condition holds."
  | .doWord => "Starts the body of a `while` loop."
  | .printWord => "`print expr`: writes the value without a trailing newline."
  | .printlnWord => "`println expr`: writes the value followed by a newline."
  | .trueWord | .falseWord => "Boolean literal."
  | .andWord => "Logical AND of bools, bitwise AND of numbers."
  | .orWord => "Logical OR of bools, bitwise OR of numbers."
  | .xorWord => "Logical XOR of bools, bitwise XOR of numbers."
  | _ => "Reserved for future use; not valid in programs."

/-- The elements of a list, each at its first place only. -/
def firstOccurrences : List Nat → List Nat
  | [] => []
  | n :: rest => n :: (firstOccurrences rest).filter (· ≠ n)

/-- Numbers in words, with commas between them. -/
def numberList : List Nat → Bytes
  | [] => []
  | [n] => decimal n
  | n :: m :: rest => decimal n ++ ", " ++ numberList (m :: rest)

/-- The first assignment of a variable. -/
def definitionOf? (a : Analysis) (uri name : Bytes) : Option Location :=
  (Analysis.spansOf name a.assignments).head?.map fun s => ⟨uri, .ofSpan s⟩

/-- Where a variable is read, and with `declarations` also where it is assigned, in the order of the
source. -/
def referencesOf (a : Analysis) (uri name : Bytes) (declarations : Bool) : List Location :=
  let assigned := if declarations then Analysis.spansOf name a.assignments else []
  let spans := assigned ++ Analysis.spansOf name a.references
  (spans.mergeSort fun a b => a.start.offset ≤ b.start.offset).map fun s => ⟨uri, .ofSpan s⟩

namespace Document

/-- The words that go on from the fragment before a place: reserved words, then variables. None
without a fragment. -/
def completions (d : Document) (place : Place) : List Completion :=
  match fragmentAt d.text place with
  | [] => []
  | fragment =>
    (TokenKind.keywords.filter fragment.isPrefixOf).map (⟨·, .keyword⟩) ++
      (d.analysis.globals.filter fragment.isPrefixOf).map (⟨·, .variableName⟩)

/-- What the variable `name` is, where it is assigned and how often it is read. -/
def globalText (a : Analysis) (name : Bytes) (spans : List Span) : Bytes :=
  let lines := firstOccurrences (spans.map fun s => s.start.line)
  let reads := (Analysis.spansOf name a.references).length
  let readText : Bytes := if 0 < reads then "; read " ++ decimal reads ++ " times" else []
  "**" ++ name ++ "** (global)\n\nAssigned on line " ++ numberList lines ++ readText

/-- What the word at a place is; none if it is no word of the language and no variable. -/
def hover? (d : Document) (place : Place) : Option Bytes :=
  let word := wordAt d.text place
  match TokenKind.ofWord? word with
  | some kind => some ("**" ++ word ++ "** (keyword)\n\n" ++ keywordText kind)
  | none =>
    match Analysis.spansOf word d.analysis.assignments with
    | [] => none
    | spans => some (globalText d.analysis word spans)

/-- The first assignment of the variable at a place. -/
def definition? (d : Document) (uri : Bytes) (place : Place) : Option Location :=
  definitionOf? d.analysis uri (wordAt d.text place)

/-- Where the variable at a place is read, and with `declarations` also where it is assigned; none
without a name at the place. -/
def references? (d : Document) (uri : Bytes) (place : Place) (declarations : Bool) :
    Option (List Location) :=
  match wordAt d.text place with
  | [] => none
  | word => some (referencesOf d.analysis uri word declarations)

end Document

end Scriptlet.Editor
