import ActorLang.Command.Arguments
import ActorLang.Machine
import ActorLang.Parser.Program
import ActorLang.Settings
import ActorLang.Tree.Json

/-!
# Running a command

A command reads its settings file, if one is named, and its source file. It is a function of their
contents to an outcome: an exit status and the texts of the two output channels. All tasks but
`tokens` parse the source, and fail alike where it does not parse.

How a settings file is decoded, and which texts can be built, is left open here. A command that
would show a text that cannot be built is stopped before it writes anything, and has no outcome.
-/

namespace ActorLang

inductive ReadError
  | notFound
  /-- A part of the path before the last is a file. -/
  | notDirectory
  | isDirectory
  | nameTooLong
  | denied
  | notText
  | other (message : String)
deriving DecidableEq

def ReadError.message : ReadError → String
  | notFound => "No such file or directory (os error 2)"
  | notDirectory => "Not a directory (os error 20)"
  | isDirectory => "Is a directory (os error 21)"
  | nameTooLong => "File name too long (os error 36)"
  | denied => "Permission denied (os error 13)"
  | notText => "stream did not contain valid UTF-8"
  | other message => message

/-- The contents of a file as far as they could be read. -/
abbrev Contents := Except ReadError String

def Contents.ofBytes (bytes : ByteArray) : Contents :=
  match String.fromUTF8? bytes with
  | some text => .ok text
  | none => .error .notText

/-- Reads the text of a settings file; an error is explained in words. -/
abbrev Decoder := String → Except String Settings

structure Outcome where
  code : Nat
  stdout : String := ""
  stderr : String := ""
deriving DecidableEq

inductive Failure
  | unreadable (file : String) (reason : ReadError)
  | badSettings (file reason : String)
  | parse (file : String) (error : ParseError Position)
deriving DecidableEq

namespace Command

def version : String :=
  "coverilang 0.1.0\n"

def usage : String :=
  "usage: coverilang [--output text|json] [--quiet] [--verbose] [--config FILE] " ++
    "tokens|parse|fmt|check|lint FILE\n"

/-- A message that is not about a place in the source. -/
def notice (i : Invocation) (message : String) : String :=
  if i.quiet then ""
  else
    match i.output with
    | .text => message ++ "\n"
    | .json => (Json.obj [("error", .str message)]).compact ++ "\n"

/-- The report of a failure. One of a parse is kept back only as text, because tools rely on it. -/
def report (i : Invocation) : Failure → String
  | .unreadable file reason => notice i ("could not read '" ++ file ++ "': " ++ reason.message)
  | .badSettings file reason => notice i ("could not parse '" ++ file ++ "': " ++ reason)
  | .parse file error =>
    match i.output with
    | .json => (error.toJson (some file)).pretty 0 ++ "\n"
    | .text =>
      if i.quiet then ""
      else
        file ++ ":" ++ error.pos.render ++ ": " ++
          (if error.cause.isInternal then "internal parser error: " else "") ++
          error.cause.message ++ "\n"

def settings (decode : Decoder) (config : Option (String × Contents)) : Except Failure Settings :=
  match config with
  | none => .ok {}
  | some (file, .error reason) => .error (.unreadable file reason)
  | some (file, .ok text) => (decode text).mapError (.badSettings file)

def source (i : Invocation) (contents : Contents) : Except Failure String :=
  contents.mapError (.unreadable i.file)

def program (i : Invocation) (limits : Limits) (contents : Contents) :
    Except Failure (Program Position) := do
  let text ← source i contents
  (Program.parse limits text).mapError (.parse i.file)

def padded (width : Nat) (text : String) : String :=
  text ++ String.ofList (List.replicate (width - text.length) ' ')

def tokenLine (t : Token Position) : String :=
  let place := padded 8 t.pos.render
  if t.kind = .eof then place ++ " " ++ t.kind.tag ++ "\n"
  else place ++ " " ++ padded 24 t.kind.tag ++ " '" ++ t.text ++ "'\n"

def tokensText (i : Invocation) (tokens : List (Token Position)) : String :=
  match i.output with
  | .json => (Json.arr (tokens.map Token.toJson)).pretty 0 ++ "\n"
  | .text => String.join (tokens.map tokenLine)

def parseText? (m : Machine) (i : Invocation) (p : Program Position) : Option String :=
  match i.output with
  | .json => some (p.toJson.pretty 0 ++ "\n")
  | .text => m.outline? p

def checkText (i : Invocation) (p : Program Position) : String :=
  match i.output with
  | .json =>
    (Json.obj [("file", .str i.file), ("functions", .num p.functions.length), ("ok", .bool true),
      ("statements", .num p.body.statements.length)]).pretty 0 ++ "\n"
  | .text => if i.quiet then "" else i.file ++ ": ok\n"

def findingLine (file : String) (f : Finding Position) : String :=
  file ++ ":" ++ f.pos.render ++ ": " ++ f.rule.name ++ ": " ++ f.message ++ "\n"

def lintText (i : Invocation) (p : Program Position) : String :=
  match i.output with
  | .json => (Json.arr (p.findings.map Finding.toJson)).pretty 0 ++ "\n"
  | .text =>
    if p.findings.isEmpty then if i.quiet then "" else i.file ++ ": no lints\n"
    else String.join (p.findings.map (findingLine i.file))

/-- The text that a task leaves on standard output, if it can be built. -/
def result (m : Machine) (i : Invocation) (s : Settings) (contents : Contents) :
    Except Failure (Option String) :=
  match i.task with
  | .tokens => do
    let text ← source i contents
    let tokens ← (tokenize text).mapError (.parse i.file)
    pure (some (tokensText i tokens))
  | .parse => (program i s.limits contents).map (parseText? m i)
  | .fmt => (program i s.limits contents).map (m.print? s.layout)
  | .check => (program i s.limits contents).map fun p => some (checkText i p)
  | .lint => (program i s.limits contents).map fun p => some (lintText i p)

/-- The outcome of an invocation, given the contents of its settings file, if it names one, and of
its source file. -/
def run (m : Machine) (decode : Decoder) (i : Invocation) (config : Option (String × Contents))
    (contents : Contents) : Option Outcome :=
  let answer := do
    let s ← settings decode config
    result m i s contents
  match answer with
  | .ok text => text.map fun shown => { code := 0, stdout := shown }
  | .error failure => some { code := 1, stderr := report i failure }

end Command

/-- The outcome of a request, where `read` gives the contents of each file. -/
def Request.outcome (m : Machine) (decode : Decoder) (read : String → Contents) :
    Request → Option Outcome
  | run i => Command.run m decode i (i.config.map fun file => (file, read file)) (read i.file)
  | version => some { code := 0, stdout := Command.version }
  | help => some { code := 0, stdout := Command.usage }
  | misuse => some { code := 2, stderr := Command.usage }

end ActorLang
