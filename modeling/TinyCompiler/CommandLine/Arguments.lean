import TinyCompiler.Compiler
import TinyCompiler.Decimal

/-! Command-line arguments. The words of a command line are grouped into arguments, and these
are read from left to right; the first one that does not fit makes the whole line bad usage.
Some options may stand before the name of the command, and all of its own behind it. -/
namespace TinyCompiler.CommandLine

inductive Argument where
  | operand (text : String)
  /-- An option written with two dashes, without a value. -/
  | flag (name : String)
  | setting (name value : String)
  /-- Options written with one dash and one letter each. -/
  | letters (text : List Char)
  /-- An option that lacks its value. -/
  | dangling (name : String)
  /-- Two dashes alone: no option follows. -/
  | separator
  deriving DecidableEq

namespace Argument

def takesValue (name : String) : Bool := name == "max-depth" || name == "entry"

/-- A word that begins with a dash and goes on is an option. -/
def isOption (word : String) : Bool :=
  match word.toList with
  | '-' :: _ :: _ => true
  | _ => false

/-- A long option, cut at its first equals sign. -/
def ofLong (text : List Char) : Argument :=
  let name := String.ofList (text.takeWhile (· ≠ '='))
  match text.dropWhile (· ≠ '=') with
  | [] => if takesValue name then dangling name else flag name
  | _ :: value => setting name (String.ofList value)

def ofWord (word : String) : Argument :=
  match word.toList with
  | ['-', '-'] => separator
  | '-' :: '-' :: text => ofLong text
  | '-' :: c :: text => letters (c :: text)
  | _ => operand word

/-- An option that lacks its value takes the next word, unless that is an option too; then
the words behind it do not matter. -/
def ofWords : List String → List Argument
  | [] => []
  | word :: rest =>
    match ofWord word with
    | separator => separator :: rest.map operand
    | dangling name =>
      match rest with
      | [] => [dangling name]
      | value :: more =>
        if isOption value then [dangling name] else setting name value :: ofWords more
    | argument => argument :: ofWords rest

end Argument

inductive CommandName where
  | tokenize | parse | compile
  deriving DecidableEq

def CommandName.ofString? : String → Option CommandName
  | "tokenize" => some tokenize
  | "parse" => some parse
  | "compile" => some compile
  | _ => none

/-- The options given at one level of the command line, each at most once. -/
structure Options where
  file : Bool
  log : Bool
  json : Bool
  limit : Option Nat
  entry : Option String
  deriving DecidableEq

namespace Options

def unset : Options := ⟨false, false, false, none, none⟩

/-- Options that every command has, and that may also stand before its name. -/
def addShared (o : Options) : Argument → Option Options
  | .flag "file" => if o.file then none else some { o with file := true }
  | .flag "log" => if o.log then none else some { o with log := true }
  | .setting "max-depth" value =>
    if o.limit.isSome then none
    else (Decimal.nat64? value).map fun n => { o with limit := some n }
  | _ => none

def addOwn (command : CommandName) (o : Options) (argument : Argument) : Option Options :=
  match command, argument with
  | .parse, .flag "json" => if o.json then none else some { o with json := true }
  | .compile, .setting "entry" value =>
    if o.entry.isSome then none else some { o with entry := some value }
  | _, argument => o.addShared argument

end Options

inductive Command where
  | tokenize
  | parse (json : Bool)
  | compile (entry : String)
  deriving DecidableEq

/-- A command on a source, which is a text or the path of a file. -/
structure Invocation where
  command : Command
  source : String
  fromFile : Bool
  limit : Nat
  deriving DecidableEq

inductive Request where
  | version
  | run (invocation : Invocation)
  deriving DecidableEq

/-- An option behind the command's name overrides the same one before it. -/
def Invocation.of (name : CommandName) (source : String) (before behind : Options) : Invocation :=
  { command := match name with
      | .tokenize => .tokenize
      | .parse => .parse behind.json
      | .compile => .compile (behind.entry.getD defaultEntry)
    source := source
    fromFile := before.file || behind.file
    limit := (behind.limit <|> before.limit).getD defaultLimit }

namespace Request

/-- The arguments behind the name of a command: its options and exactly one source. -/
def ofCommand? (name : CommandName) (before : Options) :
    Options → Option String → List Argument → Option Request
  | behind, source, [] => source.map fun s => run (.of name s before behind)
  | behind, source, .separator :: rest => ofCommand? name before behind source rest
  | behind, none, .operand text :: rest => ofCommand? name before behind (some text) rest
  | _, some _, .operand _ :: _ => none
  | behind, source, argument :: rest => do
    ofCommand? name before (← behind.addOwn name argument) source rest

def ofArguments? : Options → List Argument → Option Request
  | _, [] => none
  | _, .separator :: _ => none
  | _, .flag "version" :: _ => some version
  | _, .letters ('V' :: _) :: _ => some version
  | before, .operand text :: rest => do
    ofCommand? (← CommandName.ofString? text) before .unset none rest
  | before, argument :: rest => do ofArguments? (← before.addShared argument) rest

/-- What a command line asks for; nothing if its usage is bad. -/
def ofWords? (words : List String) : Option Request :=
  ofArguments? .unset (Argument.ofWords words)

end Request

end TinyCompiler.CommandLine
