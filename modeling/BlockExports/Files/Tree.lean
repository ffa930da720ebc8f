import BlockExports.Files

/-!
Trees of directories and files.

A path is followed part by part. Every part but the last must lead to a directory, also an empty one,
which is why a slash at the end of a path asks for a directory.
-/

namespace BlockExports

inductive FileTree where
  | file (bytes : ByteArray)
  | directory (entries : List (RawText × FileTree))

namespace FileTree

def parts (path : RawText) : List RawText := path.split '/'

/-- Follows the parts of a path from a place, given with the directories above it, the nearest
first. Above the topmost directory there is nothing but itself. -/
def walk : FileTree → List FileTree → List RawText → Except FileFault FileTree
  | here, _, [] => .ok here
  | file _, _, _ :: _ => .error .notDirectory
  | directory entries, above, part :: rest =>
    if part = .text "" || part = .text "." then walk (directory entries) above rest
    else if part = .text ".." then
      match above with
      | [] => walk (directory entries) [] rest
      | parent :: above => walk parent above rest
    else
      match entries.lookup part with
      | none => .error .missing
      | some child => walk child (directory entries :: above) rest

/-- What a path leads to, for a program that works in the directory `home`. -/
def find (root : FileTree) (home : List RawText) (path : RawText) : Except FileFault FileTree :=
  if path = .text "" then .error .missing
  else if path.startsWith '/' then root.walk [] (parts path)
  else root.walk [] (home ++ parts path)

def files (root : FileTree) (home : List RawText) : Files where
  isFile path :=
    match root.find home path with
    | .ok (file _) => true
    | _ => false
  bytes path :=
    match root.find home path with
    | .ok (file bytes) => .ok bytes
    | .ok (directory _) => .error .isDirectory
    | .error fault => .error fault

/-- Puts something at the end of a path. Directories on the way are made where they are missing, and
take the place of files. -/
def insert (node : FileTree) : List RawText → FileTree → FileTree
  | [], _ => node
  | part :: rest, file _ => directory [(part, insert node rest (directory []))]
  | part :: rest, directory entries =>
    let child := (entries.lookup part).getD (directory [])
    directory ((part, insert node rest child) :: entries.filter (·.1 ≠ part))

end FileTree

end BlockExports
