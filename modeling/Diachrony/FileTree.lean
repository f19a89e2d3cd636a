/-!
# Files as the library sees them

Reading a file asks one question: what is found at a path.  A `FileTree` answers it for a
working directory whose contents are given, following the rules of paths: components between
slashes, `.` and `..`, and no way through a file.
-/

namespace Diachrony

inductive FileEntry where
  | directory
  /-- A file of the given size, with its bytes at hand when they are asked for. -/
  | file (size : Nat) (contents : Unit → ByteArray)

inductive FileLookup where
  | found (entry : FileEntry)
  | missing
  /-- The look-up itself failed, for the reason given. -/
  | failed (reason : String)

abbrev Files := String → FileLookup

/-- The contents of a working directory, by path from there. -/
structure FileTree where
  entries : List (String × FileEntry)

namespace FileTree

def components (path : String) : List String :=
  (path.splitOn "/").filter (!·.isEmpty)

/-- The entry at a place given by its components.  Every entry makes the places above it
directories. -/
def entryAt? (tree : FileTree) (place : List String) : Option FileEntry :=
  if place.isEmpty then some .directory
  else
    match tree.entries.find? fun entry => components entry.1 == place with
    | some (_, entry) => some entry
    | none =>
        if tree.entries.any fun entry => place.isPrefixOf (components entry.1) then
          some .directory
        else none

def notDirectory : String := "Not a directory (os error 20)"

/-- Why a component longer than 255 bytes fails, and a path of 4096 bytes or more. -/
def nameTooLong : String := "File name too long (os error 36)"

def unexpectedNul : String := "file name contained an unexpected NUL byte"

inductive Place where
  | inside (place : List String)
  /-- A directory outside of the tree.  Nothing is known of what it holds. -/
  | outside

/-- The directory around a place; the one around the outermost directory is itself. -/
def Place.above : Place → Place
  | inside [] => outside
  | inside place => inside place.dropLast
  | outside => outside

def Place.below (name : String) : Place → Option Place
  | inside place => some (inside (place ++ [name]))
  | outside => none

def lookUp (tree : FileTree) : Place → Option FileEntry
  | .inside place => tree.entryAt? place
  | .outside => some .directory

def walk (tree : FileTree) (place : Place) : List String → FileLookup
  | [] => (tree.lookUp place).elim .missing .found
  | name :: rest =>
      match tree.lookUp place with
      | none => .missing
      | some (.file _ _) => .failed notDirectory
      | some .directory =>
          if name == "." then walk tree place rest
          else if name == ".." then walk tree place.above rest
          else if name.utf8ByteSize > 255 then .failed nameTooLong
          else
            match place.below name with
            | some place => walk tree place rest
            | none => .missing

/-- What is found at a path, which starts at the working directory if no slash leads it.  A
path ending in a slash has to be one of a directory.  The length is judged before anything is
looked up. -/
def files (tree : FileTree) : Files := fun path =>
  if path.toList.contains '\x00' then .failed unexpectedNul
  else if path.isEmpty then .missing
  else if path.utf8ByteSize ≥ 4096 then .failed nameTooLong
  else
    let start : Place := if path.startsWith "/" then .outside else .inside []
    tree.walk start (components path ++ if path.endsWith "/" then ["."] else [])

end FileTree

end Diachrony
