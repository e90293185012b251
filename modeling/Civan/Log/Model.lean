import Mathlib.Data.List.Basic
import Civan.Lib.Transition
import Civan.ByteArray.WriteToFile

/-!
# The asynchronous logger

`Logger::log` appends the formatted string to `currentBuffer` under `m_mutex`.
The flush thread runs `asyncLogFunc`: it swaps the two buffers under the lock and
hands `bufferToWrite` to every file appender outside of it.  The condition
variable is that of `m_mutex`, so the lock is free while the flush thread waits,
and nothing but the time-out ends the wait.

Every critical section and every statement of the flush thread outside one is a
step.  The level and the list of appenders are fixed, and a file is what was
written to it since the logger was made; the streams do not fail.
-/

namespace Civan
namespace Log

open Transition

/-- `LogLevel::Level`. -/
inductive Level where
  | unknow
  | debug
  | info
  | warn
  | error
  | fatal
deriving DecidableEq, Repr

/-- The values of the enumerators. -/
def Level.toNat : Level → ℕ
  | .unknow => 0
  | .debug => 1
  | .info => 2
  | .warn => 3
  | .error => 4
  | .fatal => 5

/-- Where the flush thread is in `asyncLogFunc`. -/
inductive FlushPc where
  /-- `CIVAN_ASSERT(running_)`. -/
  | assertRunning
  /-- `while (running_)`. -/
  | testRunning
  /-- The critical section, up to the wait or through the swap. -/
  | lock
  /-- `m_cond.waitForSeconds`, and the swap after it. -/
  | waiting
  /-- `bufferToWrite->setPosition(0)`. -/
  | rewind
  /-- `if (bufferToWrite->getReadSize())`. -/
  | testReadSize
  /-- The loop over the appenders, before the one with number `i`. -/
  | append (i : ℕ)
  /-- `bufferToWrite->clear()`. -/
  | clear
  /-- `asyncLogFunc` has returned. -/
  | returned
deriving DecidableEq, Repr

/-- What ends the process. -/
inductive Abort where
  /-- `CIVAN_ASSERT(running_)`. -/
  | assertRunning
  /-- An operation on a buffer throws or goes wrong. -/
  | fault (e : Fault)
deriving DecidableEq, Repr

/-- A logger, its files and its flush thread. -/
structure State where
  level : Level
  currentBuffer : ByteArray
  bufferToWrite : ByteArray
  files : List (List UInt8)
  running : Bool
  pc : FlushPc
  aborted : Option Abort

/-- The constructor of `Logger`; the new buffers hold any bytes. -/
def State.new
    (level : Level) (nodeSize : ℕ) (uninit uninit' : ℕ → UInt8) (appenders : ℕ) : State :=
  { level := level
    currentBuffer := ByteArray.new nodeSize uninit
    bufferToWrite := ByteArray.new nodeSize uninit'
    files := List.replicate appenders []
    running := true
    pc := .assertRunning
    aborted := none }

/-- The steps: the critical section of a call of `log`, `stop()`, and the next step of
the flush thread. -/
inductive Label where
  | log (level : Level) (logString : List UInt8)
  | stop
  | flush
deriving DecidableEq, Repr

namespace State

/-- A buffer operation went wrong. -/
def fail (s : State) (e : Fault) : State :=
  { s with aborted := some (.fault e) }

/-- `Logger::log`, for the formatted string. -/
def log (s : State) (level : Level) (logString : List UInt8) : State :=
  if s.level.toNat ≤ level.toNat then
    -- writeStringWithoutLength
    match ByteArray.write logString s.currentBuffer with
    | .ok _ b => { s with currentBuffer := b }
    | .error e _ => s.fail e
  else
    s

/-- `currentBuffer.swap(bufferToWrite)`. -/
def swap (s : State) : State :=
  { s with
    currentBuffer := s.bufferToWrite
    bufferToWrite := s.currentBuffer
    pc := .rewind }

/-- One step of `asyncLogFunc`. -/
def flush (s : State) : Option State :=
  match s.pc with
  | .assertRunning =>
    if s.running then
      some { s with pc := .testRunning }
    else
      some { s with aborted := some .assertRunning }
  | .testRunning => some { s with pc := if s.running then .lock else .returned }
  | .lock =>
    if s.currentBuffer.getSize = 0 then
      some { s with pc := .waiting }
    else
      some s.swap
  | .waiting => some s.swap
  | .rewind =>
    match ByteArray.setPosition 0 s.bufferToWrite with
    | .ok _ b => some { s with bufferToWrite := b, pc := .testReadSize }
    | .error e _ => some (s.fail e)
  | .testReadSize =>
    some { s with pc := if s.bufferToWrite.getReadSize ≠ 0 then .append 0 else .testRunning }
  | .append i =>
    if i < s.files.length then
      -- FileLogAppender::log
      match s.bufferToWrite.writeToFile with
      | some bytes =>
        some { s with files := s.files.modify i (· ++ bytes), pc := .append (i + 1) }
      | none => some (s.fail .nullDeref)
    else
      some { s with pc := .clear }
  | .clear =>
    match ByteArray.clear s.bufferToWrite with
    | .ok _ b => some { s with bufferToWrite := b, pc := .testRunning }
    | .error e _ => some (s.fail e)
  | .returned => none

/-- One step of the process. -/
def step (s : State) (l : Label) : Option (Unit × State) :=
  if s.aborted.isSome then
    none
  else
    match l with
    | .log level logString => some ((), s.log level logString)
    | .stop => some ((), { s with running := false })
    | .flush => s.flush.map (fun s' => ((), s'))

end State

/-- The logger as a transition system. -/
def system : System State Label Unit where
  step := State.step

/-- The bytes stored in a buffer. -/
def contents (b : ByteArray) : List UInt8 :=
  (ByteArray.flat b.nodes).take b.size

/-- The part of `data` that the appender with number `i` has not got. -/
def FlushPc.left (pc : FlushPc) (i : ℕ) (data : List UInt8) : List UInt8 :=
  match pc with
  | .append j => if i < j then [] else data
  | .clear => []
  | _ => data

/-- The bytes of `bufferToWrite` that the appender with number `i` has not got. -/
def State.unflushed (s : State) (i : ℕ) : List UInt8 :=
  s.pc.left i (contents s.bufferToWrite)

/-- What a call of `log` adds. -/
def Label.formatted (level : Level) : Label → List UInt8
  | .log l logString => if level.toNat ≤ l.toNat then logString else []
  | .stop => []
  | .flush => []

end Log
end Civan
