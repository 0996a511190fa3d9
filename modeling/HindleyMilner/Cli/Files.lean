/-!
Finding a file by its path. Empty parts and single dots of a path are dropped; the rest is
followed from directory to directory.
-/

namespace HindleyMilner.Cli

abbrev Bytes := List UInt8

inductive FileError where
  | missing
  | directory
  | notDirectory
  | nameTooLong
  | other (reason : String)
deriving DecidableEq, Repr

def FileError.message : FileError → String
  | missing => "No such file or directory"
  | directory => "Is a directory"
  | notDirectory => "Not a directory"
  | nameTooLong => "File name too long"
  | other reason => reason

/-- Files below one directory, each with the parts of its path. -/
abbrev Files := List (List String × Bytes)

def parts (path : String) : List String :=
  (path.splitOn "/").filter fun part => part ≠ "" ∧ part ≠ "."

def isAbsolute (path : String) : Bool :=
  path.toList.head? = some '/'

/-- What an absolute path starts with. Two slashes stay two; any other number is one. -/
def root (path : String) : String :=
  match (path.toList.takeWhile (· = '/')).length with
  | 0 => ""
  | 2 => "//"
  | _ => "/"

/-- The path without the parts that say nothing. -/
def plainPath (path : String) : String :=
  let plain := root path ++ "/".intercalate (parts path)
  if plain = "" then "." else plain

def longestName : Nat := 255

def longestPath : Nat := 4095

namespace Files

def ofNames (files : List (String × Bytes)) : Files :=
  files.map fun file => (parts file.1, file.2)

/-- One step up. `none` is any place outside the directory, and no step leads back from there. -/
def up : Option (List String) → Option (List String)
  | none | some [] => none
  | some here => some here.dropLast

/-- Follows a path from `here`. -/
def follow (files : Files) (here : Option (List String)) : List String → Except FileError Bytes
  | [] => .error .directory
  | ".." :: rest => follow files (up here) rest
  | part :: rest =>
      if longestName < part.utf8ByteSize then .error .nameTooLong
      else match here with
        | none => .error .missing
        | some here =>
            let next := here ++ [part]
            match files.lookup next with
            | some bytes => if rest.isEmpty then .ok bytes else .error .notDirectory
            | none =>
                if files.any fun file => next.isPrefixOf file.1 then follow files (some next) rest
                else .error .missing

/-- No file is known outside the directory, so an absolute path finds none. -/
def read (files : Files) (path : String) : Except FileError Bytes :=
  if longestPath < (plainPath path).utf8ByteSize then .error .nameTooLong
  else follow files (if isAbsolute path then none else some []) (parts path)

end Files

end HindleyMilner.Cli
