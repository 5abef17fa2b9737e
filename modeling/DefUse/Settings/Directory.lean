/-
# `Settings.Directory` — files by path

A directory tree given as a list of files.  A path is followed part by part from
the directory itself.  Of what lies outside, nothing is known but the directories
that lead up to the root.
-/
import DefUse.Settings.Effective

namespace DefUse

/-- The files of a directory tree: their paths and their texts. -/
structure Directory where
  files : List (String × String)
deriving Inhabited

namespace Directory

/-- The text of the file at a place. -/
def file? (directory : Directory) (place : List String) : Option String :=
  (directory.files.find? fun file => file.1.splitOn "/" = place).map Prod.snd

/-- Is there a directory at the place? -/
def isDirectory (directory : Directory) (place : List String) : Bool :=
  directory.files.any fun file => place.isPrefixOf (file.1.splitOn "/")

/-- Does a part of a path lead nowhere else? -/
def staysPut (part : String) : Bool :=
  part = "" || part = "."

/-- The most bytes of a name. -/
def maxName : Nat :=
  255

/-- The most bytes of a path. -/
def maxPath : Nat :=
  4095

/-- Follows the parts of a path from a place in the tree, or from outside of it. -/
def follow (directory : Directory) : Option (List String) → List String → FileState
  | _, [] => .directory
  | none, part :: rest =>
    if staysPut part || part = ".." then directory.follow none rest
    else if maxName < part.utf8ByteSize then .tooLong
    else .missing
  | some place, part :: rest =>
    if staysPut part then directory.follow (some place) rest
    else if part = ".." then
      directory.follow (if place.isEmpty then none else some place.dropLast) rest
    else if maxName < part.utf8ByteSize then .tooLong
    else
      let next := place ++ [part]
      match directory.file? next with
      | some content => if rest.isEmpty then .text content else .notDirectory
      | none => if directory.isDirectory next then directory.follow (some next) rest else .missing

/-- What reading a path gives.  A path that begins with a slash is followed from the
root. -/
def read (directory : Directory) (path : String) : FileState :=
  if path = "" then .missing
  else if path.toList.contains (Char.ofNat 0) then .noPath
  else if maxPath < path.utf8ByteSize then .tooLong
  else
    let parts := path.splitOn "/"
    directory.follow (if parts.head? = some "" then none else some []) parts

end Directory

end DefUse
