import Scriptlet.Bytecode.Listing
import Scriptlet.Compile
import Scriptlet.Machine.Run

/-! # Sessions

A session runs scripts one after the other on one machine, so that a script sees the globals of
those before it.
-/

namespace Scriptlet

structure Config where
  stackLimit : Nat
  /-- Report every bad statement of a script. -/
  recovery : Bool
  /-- Write a listing of the code before running it. -/
  listing : Bool
deriving DecidableEq, Repr

def Config.default : Config := ⟨Stack.defaultLimit, false, false⟩

/-- Why a script failed. -/
inductive Failure where
  | rejected (rejection : Rejection)
  | faulted (fault : Fault)
deriving DecidableEq, Repr

def Failure.text : Failure → String
  | .rejected rejection => rejection.text
  | .faulted fault => fault.text

inductive Status where
  | ok
  | compileError
  | runtimeError
deriving DecidableEq, Repr

def Failure.status : Failure → Status
  | .rejected _ => .compileError
  | .faulted _ => .runtimeError

structure Session where
  config : Config
  machine : Machine
  /-- Why the last script failed, if it did. -/
  lastFailure : Option Failure

namespace Session

def init (config : Config) (outputLimit : Option Nat) : Session :=
  ⟨config, .init config.stackLimit outputLimit, none⟩

/-- Runs a chunk. -/
def run (session : Session) (chunk : Chunk) : Except Fault Unit × Session :=
  let ⟨config, machine, lastFailure⟩ := session
  let (result, machine) := machine.run chunk
  (result, ⟨config, machine, lastFailure⟩)

/-- Writes the listing of a chunk if the session is to. -/
def announce (session : Session) (chunk : Chunk) : Except Fault Unit × Session :=
  if session.config.listing then
    match Machine.write (chunk.listing "script") session.machine with
    | .ok _ machine => (.ok (), { session with machine })
    | .error e machine => (.error ⟨e, .unknown⟩, { session with machine })
  else (.ok (), session)

/-- Compiles and runs a script. Nothing is run if it is rejected or its listing cannot be
written. -/
def attempt (session : Session) (source : String) : Except Failure Unit × Session :=
  match compile session.config.recovery source with
  | .error rejection => (.error (.rejected rejection), session)
  | .ok chunk =>
    match session.announce chunk with
    | (.error fault, session) => (.error (.faulted fault), session)
    | (.ok _, session) =>
      let (result, session) := session.run chunk
      (result.mapError .faulted, session)

/-- Compiles and runs a script, and keeps the reason if that fails. -/
def interpret (session : Session) (source : String) : Status × Session :=
  match session.attempt source with
  | (.ok _, session) => (.ok, { session with lastFailure := none })
  | (.error failure, session) => (failure.status, { session with lastFailure := some failure })

def global? (session : Session) (name : String) : Option Value :=
  session.machine.globals.get? name

/-- The number of values that the last run left on the stack. -/
def depth (session : Session) : Nat :=
  session.machine.stack.depth

/-- Takes what has been written so far out of the session. -/
def takeOutput (session : Session) : ByteArray × Session :=
  let ⟨config, ⟨stack, globals, ⟨written, limit⟩⟩, lastFailure⟩ := session
  let limit := limit.map (· - written.size)
  (written, ⟨config, ⟨stack, globals, ⟨.empty, limit⟩⟩, lastFailure⟩)

end Session

end Scriptlet
