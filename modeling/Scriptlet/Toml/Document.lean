import Scriptlet.Toml.Reader

/-!
# What the lines of a configuration file mean

A document is built line by line. A header opens a table, and the tables that its path leads through
come to be without being written; such a table may be written later, once. Any other key is written
at most once. Beside the values, a document keeps the path of every line and of every pair between
braces, in the order of the text.
-/

namespace Scriptlet.Toml

/-- The value of a key among some entries. -/
def Entries.get? (key : Bytes) : Entries → Option Value
  | [] => none
  | (k, v) :: rest => if k = key then some v else Entries.get? key rest

/-- The entries with `key` bound to `value`. A new key comes last. -/
def Entries.put (key : Bytes) (value : Value) : Entries → Entries
  | [] => [(key, value)]
  | (k, v) :: rest => if k = key then (key, value) :: rest else (k, v) :: Entries.put key value rest

/-- The value at a path. Among the tables under one key, the path goes on in the latest. -/
def Entries.find? (entries : Entries) : KeyPath → Option Value
  | [] => some (.table entries)
  | key :: rest =>
    match Entries.get? key entries with
    | none => none
    | some value =>
      match rest with
      | [] => some value
      | next :: rest =>
        match value with
        | .table inner => Entries.find? inner (next :: rest)
        | .tables elements =>
          match elements.getLast? with
          | some inner => Entries.find? inner (next :: rest)
          | none => none
        | _ => none

/-- The entries with the value at a path set; none if the path does not lead through tables. -/
def Entries.set? (entries : Entries) (value : Value) : KeyPath → Option Entries
  | [] => none
  | [key] => some (entries.put key value)
  | key :: next :: rest =>
    match Entries.get? key entries with
    | some (.table inner) => do
      let inner ← Entries.set? inner value (next :: rest)
      return entries.put key (.table inner)
    | some (.tables elements) => do
      let inner ← Entries.set? (elements.getLast?.getD []) value (next :: rest)
      return entries.put key (.tables (elements.dropLast ++ [inner]))
    | _ => none

/-- A document. -/
structure Document where
  root : Entries := []
  /-- The tables that came to be without being written. -/
  implicit : List KeyPath := []
  /-- The keys whose values are arrays. -/
  arrays : List KeyPath := []
  /-- The paths of the document in the order of the text, the last one first. -/
  written : List KeyPath := []
  deriving Repr, Inhabited

namespace Document

/-- Marks a table as not written. -/
def markImplicit (d : Document) (path : KeyPath) : Document :=
  { d with implicit := path :: d.implicit }

/-- Takes the mark from a table. -/
def unmark (d : Document) (path : KeyPath) : Document :=
  { d with implicit := d.implicit.filter (· ≠ path) }

/-- Notes whether the value at a path is an array. -/
def noteArray (d : Document) (path : KeyPath) (isArray : Bool) : Document :=
  let others := d.arrays.filter (· ≠ path)
  { d with arrays := if isArray then path :: others else others }

/-- The path under which it is noted whether the value of a key is an array. The empty key has no
note of its own and changes the one of the table around it. -/
def notePath (path : KeyPath) : KeyPath :=
  if path.getLast? = some [] ∧ path.dropLast ≠ [] then path.dropLast else path

/-- Notes a path of the text. -/
def note (d : Document) (path : KeyPath) : Document := { d with written := path :: d.written }

/-- Sets the value at a path. -/
def set? (d : Document) (path : KeyPath) (value : Value) : Option Document :=
  (d.root.set? value path).map fun root => { d with root }

/-- Writes the value at a path. A table that came to be without being written keeps its entries, and
an array takes the place of the tables that were read for its items. -/
def define? (d : Document) (path : KeyPath) (value : Value) : Option Document :=
  match d.root.find? path with
  | none => d.set? path value
  | some _ =>
    if path ∉ d.implicit then none
    else if path ∈ d.arrays then (d.unmark path).set? path value
    else some (d.unmark path)

/-- The paths that a path starts with, from the shortest on, without the empty one and itself. -/
def outerPaths (path : KeyPath) : List KeyPath :=
  (List.range (path.length - 1)).map fun n => path.take (n + 1)

/-- Makes a table that a path leads through, unless there is one. -/
def lead? (d : Document) (path : KeyPath) : Option Document :=
  match d.root.find? path with
  | none => (d.markImplicit path).set? path (.table [])
  | some (.table _) | some (.tables _) => some d
  | some _ => none

/-- Opens the table at a path. -/
def openTable? (d : Document) (path : KeyPath) : Option Document := do
  let d ← (outerPaths path).foldlM lead? d
  d.define? path (.table [])

/-- Opens one more table under the key at a path. -/
def openElement? (d : Document) (path : KeyPath) : Option Document := do
  let d ← (outerPaths path).foldlM lead? d
  match d.root.find? path with
  | none => d.set? path (.tables [[]])
  | some (.tables elements) => d.set? path (.tables (elements ++ [[]]))
  | some _ => none

/-- Opens the tables that the keys of a pair lead through, after the path `outer`. -/
def openKeys? (d : Document) (outer : KeyPath) : KeyPath → Option Document
  | [] => some d
  | key :: rest => do
    let d ← (d.markImplicit (outer ++ [key])).openTable? (outer ++ [key])
    d.openKeys? (outer ++ [key]) rest

mutual

/-- The value of a literal at a path. A table between braces is built in the document itself;
`item` says whether it is an item of an array. -/
def value? (d : Document) (path : KeyPath) (item : Bool) : Literal → Option (Document × Value)
  | .string s => some (d, .string s)
  | .integer n => some (d, .integer n)
  | .float literal => some (d, .float literal)
  | .bool b => some (d, .bool b)
  | .dateTime literal => some (d, .dateTime literal)
  | .array items => do
    let (d, values) ← values? (d.noteArray (notePath path) true) path items
    return (d, .array values)
  | .inlineTable pairs => do
    let d := d.markImplicit path
    let d ← if item then d.openElement? path else d.openTable? path
    let d ← addPairs? d path pairs
    match d.root.find? path with
    | some (.tables elements) => return (d, .table (elements.getLast?.getD []))
    | some value => return (d, value)
    | none => none

/-- The values of the items of an array at a path. -/
def values? (d : Document) (path : KeyPath) : List Literal → Option (Document × List Value)
  | [] => some (d, [])
  | l :: rest => do
    let (d, v) ← value? d path true l
    let (d, vs) ← values? d path rest
    return (d, v :: vs)

/-- Adds pairs to the table at a path. -/
def addPairs? (d : Document) (outer : KeyPath) : List (KeyPath × Literal) → Option Document
  | [] => some d
  | (path, literal) :: rest => do
    let d ← d.openKeys? outer path.dropLast
    let d := d.note (outer ++ path)
    let (d, v) ← value? d (outer ++ path) false literal
    let d ← d.define? (outer ++ path) v
    let d := d.noteArray (notePath (outer ++ path)) (v matches .array _)
    addPairs? d outer rest

end

/-- Adds a line to a document, in which the table at `outer` is open; the path of the table that is
open afterwards. -/
def addLine? (d : Document) (outer : KeyPath) : Line → Option (Document × KeyPath)
  | .table path => do
    let d ← d.openTable? path
    return ((d.noteArray path false).note path, path)
  | .element path => do
    let d ← d.openElement? path
    return ((d.noteArray path false).note path, path)
  | .entry path literal => do
    return (← d.addPairs? outer [(path, literal)], outer)

/-- Adds lines to a document. -/
def addLines? (d : Document) (outer : KeyPath) : List Line → Option Document
  | [] => some d
  | line :: rest => do
    let (d, outer) ← d.addLine? outer line
    d.addLines? outer rest

/-- The document that a text holds. -/
def parse? (s : Bytes) : Option Document := do
  Document.addLines? {} [] (← lines? s)

/-- The paths of the document in the order of the text. -/
def paths (d : Document) : List KeyPath := d.written.reverse

end Document

end Scriptlet.Toml
