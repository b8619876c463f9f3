/-!
Files, as far as a command looks at them: a path leads to a text, to something
that is no text, or to nothing at all.  `Directory` is such a file system held
in memory.
-/

namespace SchemaForms.Command

/-- What a path leads to. -/
inductive File where
  | missing
  /-- A directory, a file that cannot be read, or one whose bytes are no
  UTF-8. -/
  | unreadable
  | text (content : String)

namespace File

def ofBytes (bytes : ByteArray) : File :=
  match String.fromUTF8? bytes with
  | some content => text content
  | none => unreadable

def text? : File → Option String
  | text content => some content
  | _ => none

def isThere : File → Bool
  | missing => false
  | _ => true

end File

abbrev Files := String → File

/-- A directory in memory: its files, each with the names on the way to it. -/
structure Directory where
  files : List (List String × File)

namespace Directory

def components (path : String) : List String :=
  path.splitOn "/"

def ofFiles (files : List (String × File)) : Directory :=
  ⟨files.map fun (path, file) =>
    ((components path).filter fun name => name != "" && name != ".", file)⟩

/-- Whether a directory of this place is there: the root is, and every place on
the way to a file. -/
def isDirectory (d : Directory) (place : List String) : Bool :=
  place.isEmpty || d.files.any fun (names, _) =>
    place.isPrefixOf names && place != names

/-- Follows names from a place, which has to be a directory whenever another
name follows. -/
def follow? (d : Directory) : List String → List String → Option (List String)
  | [], place => some place
  | name :: rest, place =>
      if !d.isDirectory place then none
      else if name = "" || name = "." then follow? d rest place
      else if name = ".." then
        if place.isEmpty then none else follow? d rest place.dropLast
      else follow? d rest (place ++ [name])

/-- What a path leads to from the root of the directory.  Nothing outside of it
is there. -/
def file (d : Directory) : Files := fun path =>
  if path.isEmpty || path.startsWith "/" then .missing
  else
    match d.follow? (components path) [] with
    | none => .missing
    | some place =>
        match d.files.lookup place with
        | some file => file
        | none => if d.isDirectory place then .unreadable else .missing

end Directory

end SchemaForms.Command
