/-
Folders: the files that can be read, and the place from which paths are seen.

A path is the names on the way to a file, with a slash between them. A path
that starts with a slash starts at the root. A point alone names the place
itself and two points the place above.
-/
import StoryLang.Story.Basic
import StoryLang.Text.Blank

namespace StoryLang.Path

/-- Whether a path starts at the root. -/
def isAbsolute (path : List Char) : Bool := path.head? = some '/'

/-- What stands between the slashes of a path. -/
def steps (path : List Char) : List String := (Text.splitOn '/' path).map String.ofList

/-- Whether a step stays where it is. -/
def isIdle (step : String) : Bool := step.isEmpty || step = "."

/-- The steps of a path that lead somewhere. -/
def names (path : List Char) : List String := (steps path).filter (!isIdle ·)

/-- The path without idle steps in front. -/
def dropIdle : List Char → List Char
  | [] => []
  | ['.'] => []
  | '/' :: cs => dropIdle cs
  | '.' :: '/' :: cs => dropIdle cs
  | c :: cs => c :: cs

/-- The rest of a path from the root on after some names that it starts with. -/
def after? : List String → List Char → Option (List Char)
  | [], path => some (dropIdle path)
  | name :: names, path =>
    let rest := dropIdle path
    if String.ofList (rest.takeWhile (· ≠ '/')) = name then after? names (rest.dropWhile (· ≠ '/'))
    else none

/-- The path one name further. -/
def push (path name : List Char) : List Char :=
  if path.getLast? = some '/' then path ++ name else path ++ '/' :: name

/-- The path of some names from the root. -/
def ofNames (names : List String) : List Char := names.foldl (fun p n => push p n.toList) ['/']

/-- Where an absolute path starts. Exactly two slashes are not the same as one. -/
def rootOf : List Char → List Char
  | '/' :: '/' :: '/' :: _ => ['/']
  | '/' :: '/' :: _ => ['/', '/']
  | _ => ['/']

/-- The path from the root on, seen from a place. Idle steps are left out, save
that a slash at the end stays. No path at all stays as it is. -/
def absolute (place : List String) (path : List Char) : List Char :=
  if path.isEmpty then []
  else
    let start := if isAbsolute path then rootOf path else ofNames place
    let whole := (names path).foldl (fun p n => push p n.toList) start
    if path.getLast? = some '/' then push whole [] else whole

end StoryLang.Path

namespace StoryLang

/-- A place and the files below it. Both are named from the root. -/
structure Folder where
  place : List String
  files : List (List String × ByteArray)

namespace Folder

/-- The contents of a file. Of two files with one name the later counts. -/
def file? (f : Folder) (names : List String) : Option ByteArray :=
  (f.files.reverse.find? (·.1 = names)).map (·.2)

/-- Whether there is a folder of that name: the place, what it is in, and what
files are in. -/
def isFolder (f : Folder) (names : List String) : Bool :=
  names.isPrefixOf f.place || f.files.any fun (file, _) => names.isPrefixOf file && names ≠ file

/-- Where steps lead from a folder. Steps go through folders only. -/
def walk? (f : Folder) (names : List String) : List String → Option (List String)
  | [] => some names
  | step :: rest =>
    if !f.isFolder names then none
    else if Path.isIdle step then walk? f names rest
    else if step = ".." then walk? f names.dropLast rest
    else walk? f (names ++ [step]) rest

/-- The text of a file. Its bytes have to be UTF-8. -/
def read? (f : Folder) (path : String) : Option String := do
  let path := path.toList
  if path.isEmpty then none
  let start := if Path.isAbsolute path then [] else f.place
  let names ← f.walk? start (Path.steps path)
  String.fromUTF8? (← f.file? names)

/-- The name of the story in a file: its path from the place on if the path
leads there from the root, otherwise the path as it is. -/
def storyName (f : Folder) (path : String) : String :=
  if Path.isAbsolute path.toList then
    ((Path.after? f.place path.toList).map String.ofList).getD path
  else path

/-- The story in a file. -/
def story (f : Folder) (path : String) : Except Fault Story :=
  match f.read? path with
  | some text => .ok (.ofText (f.storyName path) text)
  | none => .error (.inFile path (String.ofList (Path.absolute f.place path.toList)))

end Folder

end StoryLang
