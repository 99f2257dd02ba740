import TinyCompiler.CommandLine.Response

/-! The program: reads its arguments and the file they name, and writes the response. -/
namespace TinyCompiler

/-- The number of a fault, which some calls report negated. -/
def faultOfCode (code : UInt32) : FileSystem.Fault :=
  .ofCode (if code < 0x80000000 then code.toNat else (-code).toNat)

def faultOfError : IO.Error → FileSystem.Fault
  | .noFileOrDirectory _ code _ => faultOfCode code
  | .permissionDenied _ code _ | .inappropriateType _ code _ | .invalidArgument _ code _
  | .resourceExhausted _ code _ => faultOfCode code
  | .otherError code _ | .hardwareFault code _ => faultOfCode code
  | _ => .missing

def readFileBytes (path : String) : IO (Except FileSystem.Fault (List UInt8)) := do
  try return .ok (← IO.FS.readBinFile path).toList
  catch e => return .error (faultOfError e)

def requestedFile : Option CommandLine.Request → IO (Except FileSystem.Fault (List UInt8))
  | some (.run i) => if i.fromFile then readFileBytes i.source else return .error .missing
  | _ => return .error .missing

end TinyCompiler

def main (args : List String) : IO UInt32 := do
  let request := TinyCompiler.CommandLine.Request.ofWords? args
  let bytes ← TinyCompiler.requestedFile request
  let response := TinyCompiler.CommandLine.Response.ofRequest (fun _ => bytes) request
  IO.print response.stdout
  IO.eprint response.stderr
  return response.status.toUInt32
