import Lexicon.Bytes

/-!
# Directories

A run of the program sees a directory: files with their contents, and the paths at which a file
can be made.

## Main definitions

* `Directory` — the files.
* `Directory.nameAt?` — what names the file at a path.
* `Directory.read?`, `Directory.write` — the content of a file, and its replacement.
* `Directory.flat` — the directory without folders that holds some files.
-/

namespace Lexicon

/-- Files by path. -/
structure Directory where
  files : List (Bytes × Bytes)
  /-- Whether a file can be made at a path. -/
  canMake : Bytes → Bool

namespace Directory

/-- A path without the references to the directory itself at its head. -/
def localPath : Bytes → Bytes
  | a :: b :: rest =>
    if a = Byte.dot && b = Byte.slash then
      have : (rest.dropWhile (· == Byte.slash)).length < rest.length + 2 :=
        Nat.lt_succ_of_le (Nat.le_succ_of_le (List.dropWhile_sublist _).length_le)
      localPath (rest.dropWhile (· == Byte.slash))
    else a :: b :: rest
  | path => path
termination_by path => path.length

/-- The number of bytes that a path can have. -/
def longestPath : Nat := 4095

/-- What names the file at a path in the directory.  A path that is too long names nothing. -/
def nameAt? (path : Bytes) : Option Bytes :=
  if path.length ≤ longestPath then some (localPath path) else none

/-- The content of the file at a path. -/
def read? (d : Directory) (path : Bytes) : Option Bytes :=
  (nameAt? path).bind fun name => d.files.lookup name

/-- Whether there is a file at a path, or one can be made. -/
def canWrite (d : Directory) (path : Bytes) : Bool :=
  (d.read? path).isSome || (nameAt? path).any d.canMake

/-- Makes the content of the file at a path. -/
def write (d : Directory) (path content : Bytes) : Directory :=
  match nameAt? path with
  | none => d
  | some name =>
    if (d.files.lookup name).isSome then
      { d with files := d.files.map fun f => if f.1 = name then (name, content) else f }
    else { d with files := d.files ++ [(name, content)] }

/-- Adds to the end of the file at a path, which is made if there is none. -/
def append (d : Directory) (path content : Bytes) : Directory :=
  d.write path ((d.read? path).getD [] ++ content)

/-- Whether a path is the name of a file in the directory itself. -/
def isFileName (path : Bytes) : Bool :=
  !path.isEmpty && path.length ≤ 255 && !path.contains Byte.slash && path ≠ [Byte.dot] &&
    path ≠ [Byte.dot, Byte.dot]

/-- The directory that holds some files, and no folders. -/
def flat (files : List (Bytes × Bytes)) : Directory := { files, canMake := isFileName }

end Directory

end Lexicon
