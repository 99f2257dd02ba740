/-! A working folder with files and no further folders, and what a path names in it. What lies
outside counts as empty. -/
namespace TinyCompiler.FileSystem

/-- Why a path gives no bytes. Each fault has the number that the system gives it. -/
inductive Fault where
  | missing
  | denied
  | notDirectory
  | isDirectory
  | nameTooLong
  | other (code : Nat)
  deriving DecidableEq

namespace Fault

def code : Fault → Nat
  | missing => 2
  | denied => 13
  | notDirectory => 20
  | isDirectory => 21
  | nameTooLong => 36
  | other code => code

def reason : Fault → String
  | missing => "No such file or directory"
  | denied => "Permission denied"
  | notDirectory => "Not a directory"
  | isDirectory => "Is a directory"
  | nameTooLong => "File name too long"
  | other code => "Unknown error " ++ code.repr

def message (f : Fault) : String := f.reason ++ " (os error " ++ f.code.repr ++ ")"

def ofCode (code : Nat) : Fault :=
  match code with
  | 2 => missing
  | 13 => denied
  | 20 => notDirectory
  | 21 => isDirectory
  | 36 => nameTooLong
  | code => other code

end Fault

abbrev Folder := List (String × List UInt8)

namespace Folder

/-- Follows the parts of a path. An empty part and a single dot stay in the folder, two dots
leave it. -/
def follow (folder : Folder) : List String → Except Fault (List UInt8)
  | [] => .error .isDirectory
  | part :: rest =>
    if part = "" ∨ part = "." then follow folder rest
    else if part = ".." then follow [] rest
    else if 255 < part.utf8ByteSize then .error .nameTooLong
    else match folder.lookup part with
      | none => .error .missing
      | some bytes => if rest.isEmpty then .ok bytes else .error .notDirectory

/-- The bytes of the file at a path. The whole path is measured before it is followed. -/
def read (folder : Folder) (path : String) : Except Fault (List UInt8) :=
  if path = "" then .error .missing
  else if 4095 < path.utf8ByteSize then .error .nameTooLong
  else follow (if path.startsWith "/" then [] else folder) (path.splitOn "/")

end Folder

end TinyCompiler.FileSystem
