import DistantChunks.Records.Failure

/-!
# Trees of texts

The texts that a survey reads, each known by the names on the way to it from the root. A path is
followed name by name, from the root if it starts with a slash and from the working directory
otherwise. An empty name and a single point stay where they are, two points go back by one name,
and nothing lies below a text.
-/

namespace DistantChunks.Survey

inductive PathFault where
  | missing
  | notDirectory
  | isDirectory
  | nameTooLong
  deriving DecidableEq, Repr

namespace PathFault

def all : List PathFault := [missing, notDirectory, isDirectory, nameTooLong]

def number : PathFault → Nat
  | missing => 2
  | notDirectory => 20
  | isDirectory => 21
  | nameTooLong => 36

def ofNumber? (n : Nat) : Option PathFault := all.find? (·.number = n)

theorem ofNumber?_number (f : PathFault) : ofNumber? f.number = some f := by
  cases f <;> rfl

def words : PathFault → String
  | missing => "No such file or directory"
  | notDirectory => "Not a directory"
  | isDirectory => "Is a directory"
  | nameTooLong => "File name too long"

def failure (f : PathFault) : Failure :=
  .io (f.words ++ " (os error " ++ f.number.repr ++ ")")

end PathFault

structure FileTree where
  workingDirectory : List String
  texts : List (List String × String)

namespace FileTree

variable (t : FileTree)

/-- A directory with some texts in it, and nothing else but what is given of the rest. -/
def ofDirectory (directory : List String) (inside rest : List (List String × String)) : FileTree :=
  ⟨directory, inside.map (fun (names, text) => (directory ++ names, text)) ++ rest⟩

def text? (place : List String) : Option String := (t.texts.find? (·.1 == place)).map (·.2)

/-- Whether a place is on the way to the working directory or to a text. -/
def isDirectory (place : List String) : Bool :=
  place.isPrefixOf t.workingDirectory ||
    t.texts.any fun (names, _) => place.isPrefixOf names && place.length < names.length

def nameBytes : Nat := 255

/-- A path must be shorter than this many bytes. -/
def pathBytes : Nat := 4096

def step (place : List String) (name : String) : Except PathFault (List String) :=
  if !t.isDirectory place then .error .notDirectory
  else if name = "" ∨ name = "." then .ok place
  else if name = ".." then .ok place.dropLast
  else if nameBytes < name.utf8ByteSize then .error .nameTooLong
  else
    let next := place ++ [name]
    if t.isDirectory next || (t.text? next).isSome then .ok next else .error .missing

def textAt (place : List String) : Except PathFault String :=
  match t.text? place with
  | some text => .ok text
  | none => .error .isDirectory

def names (path : String) : List String := path.splitOn "/"

def find (path : String) : Except PathFault String :=
  if path = "" then .error .missing
  else if pathBytes ≤ path.utf8ByteSize then .error .nameTooLong
  else
    let start := if path.startsWith "/" then [] else t.workingDirectory
    (names path).foldlM t.step start >>= t.textAt

def read (path : String) : Except Failure String :=
  match t.find path with
  | .ok text => .ok text
  | .error f => .error f.failure

end FileTree

end DistantChunks.Survey
