import Scriptlet.Decimal.Digits
import Scriptlet.Session
import Scriptlet.Text.Blank
import Scriptlet.Token.Listing

/-! # The command line

A script is run from a file, or line by line from a prompt. Everything but the reading and writing
itself is decided here.
-/

namespace Scriptlet.CommandLine

/-! ## Arguments -/

structure Options where
  config : Config
  /-- Write the tokens of a script before compiling it. -/
  showTokens : Bool
  /-- The file to run; without one there is a prompt. -/
  script : Option String
deriving DecidableEq, Repr

def Options.default : Options := ⟨.default, false, none⟩

inductive Request where
  | run (options : Options)
  | version
deriving DecidableEq, Repr

def version : String := "hprog 0.1.0\n"

/-- A number of an argument: digits, perhaps after a plus sign, below `2 ^ 64`. -/
def number? (text : String) : Option Nat :=
  let digits :=
    match text.toList with
    | '+' :: digits => digits
    | digits => digits
  let n := Decimal.ofDigits digits
  if !digits.isEmpty && digits.all Char.isDigit && n < UInt64.size then some n else none

def setStackLimit (options : Options) (text : String) : Except String Options :=
  match number? text with
  | some n => .ok { options with config.stackLimit := n }
  | none => .error s!"invalid value '{text}' for '--max-stack'"

def setScript (options : Options) (path : String) : Except String Options :=
  match options.script with
  | none => .ok { options with script := some path }
  | some _ => .error s!"unexpected argument '{path}'"

/-- The request that arguments make, or what is wrong with them. -/
def parseFrom (options : Options) : List String → Except String Request
  | [] => .ok (.run options)
  | "--version" :: _ => .ok .version
  | "-V" :: _ => .ok .version
  | "--dump-tokens" :: rest => parseFrom { options with showTokens := true } rest
  | "--dump-bytecode" :: rest => parseFrom { options with config.listing := true } rest
  | "--recover" :: rest => parseFrom { options with config.recovery := true } rest
  | "--max-stack" :: text :: rest => do parseFrom (← setStackLimit options text) rest
  | "--" :: rest => do return .run (← rest.foldlM setScript options)
  | argument :: rest => do
    if argument.startsWith "--max-stack=" then
      parseFrom (← setStackLimit options (argument.drop 12).toString) rest
    else if argument.startsWith "-" && argument != "-" then
      .error s!"unexpected argument '{argument}'"
    else parseFrom (← setScript options argument) rest

def parse (arguments : List String) : Except String Request :=
  parseFrom .default arguments

/-! ## Scripts from files -/

def exitCompileError : Nat := 65

def exitRuntimeError : Nat := 70

def exitUnreadable : Nat := 74

def exitCode : Status → Nat
  | .ok => 0
  | .compileError => exitCompileError
  | .runtimeError => exitRuntimeError

/-- Why there is no script to run. -/
inductive Unreadable where
  | missing
  | notText
  | other (reason : String)
deriving DecidableEq, Repr

def Unreadable.message : Unreadable → String
  | .missing => "No such file or directory (os error 2)"
  | .notText => "stream did not contain valid UTF-8"
  | .other reason => reason

/-- What is written to the two outputs. -/
structure Output where
  out : ByteArray
  err : String

namespace Output

def empty : Output := ⟨.empty, ""⟩

def ofOut (text : String) : Output := ⟨text.toUTF8, ""⟩

def ofErr (text : String) : Output := ⟨.empty, text⟩

def append (a b : Output) : Output := ⟨a.out ++ b.out, a.err ++ b.err⟩

instance : Append Output := ⟨append⟩

end Output

/-- Runs one script and reports why it failed, if it did. -/
def execute (options : Options) (session : Session) (source : String) :
    Status × Output × Session :=
  let tokens := if options.showTokens then .ofOut (Token.listing source) else .empty
  let (status, session) := session.interpret source
  let (written, session) := session.takeOutput
  let report := (session.lastFailure.map (·.text ++ "\n")).getD ""
  (status, tokens ++ ⟨written, report⟩, session)

def decode (bytes : ByteArray) : Except Unreadable String :=
  match String.fromUTF8? bytes with
  | some text => .ok text
  | none => .error .notText

/-- Runs the script with the given content; the exit code tells how that went. -/
def runScript (options : Options) (path : String) (content : Except Unreadable ByteArray) :
    Nat × Output :=
  match content >>= decode with
  | .error e => (exitUnreadable, .ofErr s!"Error reading '{path}': {e.message}\n")
  | .ok source =>
    let (status, output, _) := execute options (.init options.config none) source
    (exitCode status, output)

/-! ## The prompt -/

def prompt : String := "hprog> "

/-- Takes off the line end: a newline and a carriage return right before it. -/
def chomp (line : List UInt8) : List UInt8 :=
  match line.reverse with
  | 10 :: 13 :: rest => rest.reverse
  | 10 :: rest => rest.reverse
  | _ => line

/-- What follows the prompt once a line has been entered, and the session to go on with, if any. A
line that is not text ends the session. -/
def respond (options : Options) (session : Session) (line : List UInt8) :
    Output × Option Session :=
  match decode ⟨(chomp line).toArray⟩ with
  | .error e => (.ofErr s!"Read error: {e.message}\n", none)
  | .ok source =>
    if Text.isBlankLine source then (.empty, some session)
    else
      let (_, output, session) := execute options session source
      (output, some session)

/-- What follows the prompt at the end of the input. -/
def farewell : Output := .ofOut "\n"

/-- Splits input after each newline; `line` holds the line so far, in reverse. -/
def splitLines (line : List UInt8) : List UInt8 → List (List UInt8)
  | [] => if line.isEmpty then [] else [line.reverse]
  | b :: rest =>
    if b = 10 then (b :: line).reverse :: splitLines [] rest else splitLines (b :: line) rest

/-- Answers a list of lines. -/
def converse (options : Options) (session : Session) (output : Output) :
    List (List UInt8) → Output
  | [] => output ++ .ofOut prompt ++ farewell
  | line :: rest =>
    let (answer, next) := respond options session line
    let output := output ++ .ofOut prompt ++ answer
    match next with
    | some session => converse options session output rest
    | none => output

/-- A whole conversation with the given input. -/
def runPrompt (options : Options) (input : ByteArray) : Output :=
  converse options (.init options.config none) .empty (splitLines [] input.data.toList)

end Scriptlet.CommandLine
