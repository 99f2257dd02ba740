import TinyCompiler.Text.Utf8
import TinyCompiler.FileSystem.Folder
import TinyCompiler.Token.Stream
import TinyCompiler.Parsing.Statement
import TinyCompiler.Assembly.Lowering

/-! The stages of the compiler joined: from bytes to text, from text to a program, from a
program to assembly. The whole text is scanned before any of it is parsed. Each way in which a
stage can fail has one text. -/
namespace TinyCompiler

/-- Why a source file gives no text. -/
inductive ReadError where
  | system (fault : FileSystem.Fault)
  | encoding (fault : Utf8.Fault)
  deriving DecidableEq

def ReadError.message : ReadError → String
  | system fault => fault.message
  | encoding fault => fault.message

inductive Diagnostic where
  | lexical (e : LexicalError)
  | grammar (e : SyntaxError)
  | lowering (e : LoweringError)
  | reading (e : ReadError)
  deriving DecidableEq

namespace Diagnostic

def line? : Diagnostic → Option Nat
  | lexical e => some e.line
  | grammar e => some e.line
  | lowering _ | reading _ => none

def located (line : Nat) (reason : String) : String :=
  "[line " ++ line.repr ++ "] Error: " ++ reason

def message : Diagnostic → String
  | lexical e => located e.line e.reason
  | grammar e => located e.line e.reason
  | lowering e => e.message
  | reading e => e.message

end Diagnostic

def defaultLimit : Nat := 256

def defaultEntry : String := "main"

/-- The text of a source file, given what the file system answers. -/
def readSource (file : Except FileSystem.Fault (List UInt8)) : Except ReadError String := do
  (Utf8.decode (← file.mapError .system)).mapError .encoding

def parseSource (source : String) (limit : Nat) : Except Diagnostic Program := do
  let tokens ← (tokenize (Utf8.encode source)).mapError .lexical
  (parse tokens limit).mapError .grammar

def compile (source : String) (limit : Nat) (entry : String) : Except Diagnostic String := do
  let program ← parseSource source limit
  (program.assembly entry).mapError .lowering

end TinyCompiler
