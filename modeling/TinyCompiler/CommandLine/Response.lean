import TinyCompiler.CommandLine.Arguments
import TinyCompiler.Syntax.Display
import TinyCompiler.Syntax.Encoding
import TinyCompiler.Text.Quoted

/-! Responses of the command line: an exit status and the texts of both output streams. A
source that is no program gives status 65, a file that cannot be read 1, bad usage 2. -/
namespace TinyCompiler.CommandLine

structure Response where
  status : Nat
  stdout : String
  stderr : String
  deriving DecidableEq

namespace Response

def badUsage : Response := ⟨2, "", ""⟩

def version : Response := ⟨0, "tgoc 0.1.0\n", ""⟩

def success (stdout : String) : Response := ⟨0, stdout, ""⟩

def statusOf : Diagnostic → Nat
  | .lexical _ | .grammar _ => 65
  | .lowering _ => 70
  | .reading _ => 1

def failure (d : Diagnostic) : Response := ⟨statusOf d, "", d.message ++ "\n"⟩

def ofResult : Except Diagnostic String → Response
  | .ok stdout => success stdout
  | .error d => failure d

def unreadable (path : String) (e : ReadError) : Response :=
  ⟨statusOf (.reading e), "", "Error: Failed to read file " ++ Quoted.quote path ++
    "\n\nCaused by:\n    " ++ e.message ++ "\n"⟩

/-- Tokens go to the first stream and lexical errors to the second; errors do not stop it. -/
def tokenize (source : String) : Response :=
  let items := scan (Utf8.encode source)
  let shown (item : Item) : String := match item with
    | .ok token => token.render ++ "\n"
    | .error _ => ""
  let reported (item : Item) : String := match item with
    | .ok _ => ""
    | .error e => (Diagnostic.lexical e).message ++ "\n"
  let stderr := String.join (items.map reported)
  ⟨if stderr.isEmpty then 0 else 65, String.join (items.map shown), stderr⟩

def parse (source : String) (limit : Nat) (json : Bool) : Response :=
  ofResult <| (parseSource source limit).map fun program =>
    (if json then program.toJson.pretty else program.display) ++ "\n"

def ofSource (command : Command) (source : String) (limit : Nat) : Response :=
  match command with
  | .tokenize => tokenize source
  | .parse json => parse source limit json
  | .compile entry => ofResult (compile source limit entry)

/-- Runs an invocation. `file` reads the file at a path. -/
def ofInvocation (file : String → Except FileSystem.Fault (List UInt8)) (i : Invocation) :
    Response :=
  if i.fromFile then
    match readSource (file i.source) with
    | .ok source => ofSource i.command source i.limit
    | .error e => unreadable i.source e
  else ofSource i.command i.source i.limit

def ofRequest (file : String → Except FileSystem.Fault (List UInt8)) : Option Request → Response
  | none => badUsage
  | some .version => version
  | some (.run i) => ofInvocation file i

end Response

end TinyCompiler.CommandLine
