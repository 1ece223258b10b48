/-!
# Command lines

A command line names a task and a file. Flags may stand before the task and behind it; each is
given at most once on either side, and a value behind the task wins over one before it. Arguments
are judged from left to right.
-/

namespace ActorLang

inductive OutputFormat
  | text
  | json
deriving DecidableEq

inductive Task
  | tokens
  | parse
  | fmt
  | check
  | lint
deriving DecidableEq

def Task.ofName? (name : String) : Option Task :=
  match name with
  | "tokens" => some .tokens
  | "parse" => some .parse
  | "fmt" => some .fmt
  | "check" => some .check
  | "lint" => some .lint
  | _ => none

structure Flags where
  output : Option OutputFormat := none
  /-- Keeps back confirmations and messages. -/
  quiet : Bool := false
  /-- Asks for a log of the run, which changes no result. -/
  verbose : Bool := false
  /-- The settings file. -/
  config : Option String := none
deriving DecidableEq

/-- The flags on both sides together; those of the second win. -/
def Flags.override (before behind : Flags) : Flags where
  output := behind.output <|> before.output
  quiet := before.quiet || behind.quiet
  verbose := before.verbose || behind.verbose
  config := behind.config <|> before.config

structure Invocation where
  task : Task
  file : String
  output : OutputFormat := .text
  quiet : Bool := false
  config : Option String := none
deriving DecidableEq

inductive Request
  | run (invocation : Invocation)
  | version
  | help
  | misuse
deriving DecidableEq

inductive Word
  | quiet
  | verbose
  | output (value : String)
  | config (value : String)
  | version
  | help
  /-- A task or a file. -/
  | plain (arg : String)
  /-- All that stands behind a double hyphen. -/
  | files (args : List String)
  | unknown
deriving DecidableEq

namespace Word

/-- Whether an argument can be a value, a task or a file: it has no hyphen before it, or is one. -/
def isPlain (arg : String) : Bool :=
  arg == "-" || arg.toList.head? != some '-'

def valueOf? (name arg : String) : Option String :=
  let head := (name ++ "=").toList
  if head.isPrefixOf arg.toList then some (String.ofList (arg.toList.drop head.length)) else none

/-- The part that an argument behind a single hyphen is; its first letter decides. -/
def ofLetters (letters : List Char) : Word :=
  match letters with
  | 'V' :: _ => version
  | 'h' :: _ => help
  | _ => unknown

def ofArgument (arg : String) : Word :=
  match arg with
  | "--quiet" => quiet
  | "--verbose" => verbose
  | "--version" => version
  | "--help" => help
  | _ =>
    match valueOf? "--output" arg, valueOf? "--config" arg with
    | some value, _ => output value
    | _, some value => config value
    | _, _ => if isPlain arg then plain arg else ofLetters arg.toList.tail

def ofArguments : List String → List Word
  | [] => []
  | "--" :: rest => [files rest]
  | "--output" :: value :: rest =>
    (if isPlain value then output value else unknown) :: ofArguments rest
  | "--config" :: value :: rest =>
    (if isPlain value then config value else unknown) :: ofArguments rest
  | arg :: rest => ofArgument arg :: ofArguments rest

end Word

/-- The flags with one more; none is given twice, and values are of their kind. -/
def Flags.add? (flags : Flags) (word : Word) : Option Flags :=
  match word with
  | .quiet => if flags.quiet then none else some { flags with quiet := true }
  | .verbose => if flags.verbose then none else some { flags with verbose := true }
  | .output value =>
    match flags.output, value with
    | none, "text" => some { flags with output := some .text }
    | none, "json" => some { flags with output := some .json }
    | _, _ => none
  | .config file =>
    if flags.config.isSome || file.isEmpty then none else some { flags with config := some file }
  | _ => none

namespace Request

/-- The request for a task, which needs exactly one file with a name. -/
def ofTask (task : Task) (flags : Flags) (files : List String) : Request :=
  match files with
  | [file] =>
    if file.isEmpty then misuse
    else run ⟨task, file, flags.output.getD .text, flags.quiet, flags.config⟩
  | _ => misuse

def behindTask (task : Task) (before behind : Flags) (files : List String) :
    List Word → Request
  | [] => ofTask task (before.override behind) files
  | .files others :: _ => ofTask task (before.override behind) (files ++ others)
  | .help :: _ => help
  | .plain arg :: rest =>
    if arg.isEmpty || !files.isEmpty then misuse else behindTask task before behind [arg] rest
  | word :: rest =>
    match behind.add? word with
    | some flags => behindTask task before flags files rest
    | none => misuse

/-- The request for help, which names at most one task, or the request for help itself. -/
def ofHelp (topic : List Word) : Request :=
  match topic with
  | [] => help
  | [.plain name] => if name == "help" || (Task.ofName? name).isSome then help else misuse
  | _ => misuse

def beforeTask (flags : Flags) : List Word → Request
  | [] => misuse
  | .version :: _ => version
  | .help :: _ => help
  | .plain "help" :: rest => ofHelp rest
  | .plain arg :: rest =>
    match Task.ofName? arg with
    | some task => behindTask task flags {} [] rest
    | none => misuse
  | word :: rest =>
    match flags.add? word with
    | some flags => beforeTask flags rest
    | none => misuse

end Request

def Request.ofArguments (args : List String) : Request :=
  beforeTask {} (Word.ofArguments args)

end ActorLang
