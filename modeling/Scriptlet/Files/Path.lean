import Scriptlet.Text.Parts

/-!
# Paths

Paths are texts whose parts are separated by slashes. Everything here looks at the text alone and at
no files: a part that names the outer place takes the part before it away.
-/

namespace Scriptlet.Path

/-- The byte between the parts of a path. -/
def slash : UInt8 := 0x2F

/-- The part that stands for the place itself. -/
def here : Bytes := [0x2E]

/-- The part that stands for the outer place. -/
def outer : Bytes := [0x2E, 0x2E]

/-- A path that starts at the root. -/
def isAbsolute (path : Bytes) : Bool := path.head? == some slash

/-- The parts of a path that were passed, the last one first, after one more. The root is its own
outer place. -/
def pass (absolute : Bool) (passed : List Bytes) (part : Bytes) : List Bytes :=
  if part = [] ∨ part = here then passed
  else if part = outer then
    match passed with
    | [] => if absolute then [] else [outer]
    | last :: rest => if last = outer then outer :: last :: rest else rest
  else part :: passed

/-- The parts of a path in its shortest form. -/
def cleanParts (path : Bytes) : List Bytes :=
  ((Bytes.partsAt slash path).foldl (pass (isAbsolute path)) []).reverse

/-- A path in its shortest form. -/
def clean (path : Bytes) : Bytes :=
  let parts := cleanParts path
  if isAbsolute path then slash :: Bytes.joined slash parts
  else if parts = [] then here
  else Bytes.joined slash parts

/-- The path of `name` seen from `dir`; the empty directory is the current one. -/
def join (dir name : Bytes) : Bytes :=
  if dir = [] then clean name else clean (dir ++ slash :: name)

/-- The path as it is seen from the root, if the current directory is `cwd`. -/
def absolute (cwd path : Bytes) : Bytes :=
  if isAbsolute path then clean path else join cwd path

/-- The directory of a path. -/
def parent (path : Bytes) : Bytes := clean (path.reverse.dropWhile (· ≠ slash)).reverse

/-- The last part of a path. -/
def base (path : Bytes) : Bytes :=
  if path = [] then here
  else match path.reverse.dropWhile (· = slash) with
    | [] => [slash]
    | rest => (rest.takeWhile (· ≠ slash)).reverse

/-- The end of the last part of a path from its last dot on, empty if it has none. -/
def extension (path : Bytes) : Bytes :=
  let last := path.reverse.takeWhile (· ≠ slash)
  if 0x2E ∈ last then 0x2E :: (last.takeWhile (· ≠ 0x2E)).reverse else []

/-- The path without its extension. -/
def withoutExtension (path : Bytes) : Bytes := path.take (path.length - (extension path).length)

/-- The last part of a path without its extension. -/
def stem (path : Bytes) : Bytes :=
  let last := base path
  let ext := extension path
  if ext.isSuffixOf last then last.take (last.length - ext.length) else last

/-- An absolute path in its shortest form, and every directory around it up to the root. -/
def ancestors (path : Bytes) : List Bytes :=
  let rec go : List Bytes → List Bytes
    | [] => [[slash]]
    | last :: rest => (slash :: Bytes.joined slash (last :: rest).reverse) :: go rest
  go (cleanParts path).reverse

end Scriptlet.Path
