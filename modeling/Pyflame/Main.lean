import Pyflame.Prober
import Pyflame.PyFrob

/-!
`main` of `pyflame.cc`, after the options have been parsed, and the methods of
`Prober` that it calls.

They are written over the functions that they call, each of which replies
with its result or with the exception it throws. `Call.impl` says which
program of the other modules each one is.
-/

namespace Pyflame

open Interaction

/-- The members of `Prober` after `ParseOpts`. `argv` starts at the command to
trace. -/
structure Settings extends Prober where
  abi : PyABI := .unknown
  dump : Bool := false
  trace : Bool := false
  enable_threads : Bool := false
  output_file : Bytes := []
  trace_target : Bytes := []
  argv : List Bytes := []

/-- `MaxRetries`. -/
def Settings.maxRetries (cfg : Settings) : ℕ := if cfg.trace then 50 else 1

/-- `PTRACE_O_TRACEEXEC`. -/
def PTRACE_O_TRACEEXEC : Word := 0x10

/-! ### The calls -/

inductive Call
  | fork
  | ptraceTraceme
  | execvp (file : Bytes) (argv : List Bytes)
  | waitpid (pid : Pid) (options : ℤ)
  | ptraceSetOptions (pid : Pid) (options : Word)
  | ptraceCont (pid : Pid)
  | ptraceDetach (pid : Pid)
  | ptraceSeize (pid : Pid)
  | ptraceInterrupt (pid : Pid)
  | detectABI (pid : Pid) (enable_threads : Bool) (abi : PyABI)
  | getThreads (pid : Pid) (abi : PyABI) (addrs : PyAddresses) (enable_threads : Bool)
  | ptraceCleanup (pid : Pid)
  | openOutput (path : Bytes)
  | now
  | sleepFor (interval : ℤ)
  | cerr (line : Bytes)
  deriving DecidableEq

abbrev Call.Rep : Call → Type
  | fork => Reply Pid
  | execvp _ _ => Bytes
  | waitpid _ _ => Reply (Pid × Status)
  | ptraceTraceme | ptraceSetOptions _ _ | ptraceCont _ | ptraceDetach _ | ptraceSeize _
  | ptraceInterrupt _ => Except Exception Unit
  | detectABI _ _ _ => Except Exception (Option (PyABI × PyAddresses))
  | getThreads _ _ _ _ => Except Exception (List Thread)
  | openOutput _ => Bool
  | now => Time
  | ptraceCleanup _ | sleepFor _ | cerr _ => Unit

abbrev calls : Signature := ⟨Call, Call.Rep⟩

/-- A function written over the calls. -/
abbrev Driver (α : Type) := Prog calls Exception α

abbrev invoke (c : Call) : Driver c.Rep := Prog.ask (S := calls) c

/-- The result of a call. Its exception is not caught here. -/
def rethrow {α : Type} : Except Exception α → Driver α
  | .ok a => .ret a
  | .error e => .raise e

theorem only_rethrow_bind {P : Call → Prop} {α β : Type} {x : Except Exception α} {f : α → Driver β}
    (hf : ∀ a, (f a).Only P) : ((rethrow x).bind f).Only P := by
  cases x with
  | ok a => exact hf a
  | error e => trivial

/-- The programs that the calls are. `headers` are those of the Python version that
`GetThreads` was compiled for. -/
def Call.impl (headers : PyABI → Headers) (fuel : ℕ) : (c : Call) → Tracer c.Rep
  | .fork => ask .fork
  | .ptraceTraceme => Pyflame.ptraceTraceme.attempt
  | .execvp file argv => ask (.execvp file argv)
  | .waitpid pid options => ask (.waitpid pid options)
  | .ptraceSetOptions pid options => (Pyflame.ptraceSetOptions pid options).attempt
  | .ptraceCont pid => (Pyflame.ptraceCont pid).attempt
  | .ptraceDetach pid => (Pyflame.ptraceDetach pid).attempt
  | .ptraceSeize pid => (Pyflame.ptraceSeize pid).attempt
  | .ptraceInterrupt pid => (Pyflame.ptraceInterrupt fuel pid).attempt
  | .detectABI pid enable_threads abi => (Pyflame.detectABI fuel pid enable_threads abi).attempt
  | .getThreads pid abi addrs enable_threads =>
      (Pyflame.getThreads (headers abi) fuel pid addrs enable_threads).attempt
  | .ptraceCleanup pid => Pyflame.ptraceCleanup fuel pid
  | .openOutput path => ask (.openOutput path)
  | .now => ask .now
  | .sleepFor interval => ask (.sleepFor interval)
  | .cerr line => ask (.cerr line)

/-! ### `InitiatePtrace` -/

/-- One pass of the loop that waits for the child to have called `exec`. It leaves
with the code to return. -/
def awaitExecStep : Unit → Driver (Unit ⊕ ℕ) := fun _ => do
  match ← invoke (.waitpid (-1) 0) with
  | .error e =>
      invoke (.cerr (text "waitpid(): " ++ e ++ text "\n"))
      return .inr 1
  | .ok (_, status) =>
      if WIFEXITED status then
        invoke (.cerr (text "Child process exited with status: " ++
          signedDecimal (WEXITSTATUS status).toInt ++ text "\n"))
        return .inr 1
      else if sawEventExec status then
        return .inr 0
      else
        return .inl ()

/-- The child: it asks to be traced. -/
def becomeTarget (cfg : Settings) : Driver (Option Settings) := do
  rethrow (← invoke .ptraceTraceme)
  let e ← invoke (.execvp cfg.trace_target cfg.argv)
  invoke (.cerr (text "execvp() failed for: " ++ cfg.trace_target ++ text ", err = " ++ e ++ text "\n"))
  return none

/-- The parent: it traces the child until it has called `exec`, and seizes it. -/
def traceChild (fuel : ℕ) (cfg : Settings) : Driver (Option Settings) := do
  match ← invoke (.waitpid 0 0) with
  | .error _ => .abort
  | .ok (child, _) =>
      if child ≠ cfg.pid then
        .abort
      else
        rethrow (← invoke (.ptraceSetOptions cfg.pid PTRACE_O_TRACEEXEC))
        rethrow (← invoke (.ptraceCont cfg.pid))
        if (← Prog.forever awaitExecStep fuel ()) ≠ 0 then
          return none
        else
          rethrow (← invoke (.ptraceDetach cfg.pid))
          rethrow (← invoke (.ptraceSeize cfg.pid))
          rethrow (← invoke (.ptraceInterrupt cfg.pid))
          return some cfg

/-- `InitiatePtrace`, with the members as it leaves them. It returns none where the
source returns 1. -/
def initiatePtrace (fuel : ℕ) (cfg : Settings) : Driver (Option Settings) := do
  if cfg.trace then
    if text "pyflame" <:+ cfg.trace_target then
      invoke (.cerr (text "You tried to pyflame a pyflame, naughty!\n"))
      return none
    else
      match ← invoke .fork with
      | .error e =>
          invoke (.cerr (text "fork(): " ++ e ++ text "\n"))
          return none
      | .ok pid =>
          if pid = 0 then
            becomeTarget { cfg with pid := pid }
          else
            traceChild fuel { cfg with pid := pid }
  else
    match ← invoke (.ptraceSeize cfg.pid) with
    | .error (.ptrace _) =>
        invoke (.cerr (text "Failed to seize PID " ++ signedDecimal cfg.pid ++ text "\n"))
        return none
    | .error e => throw e
    | .ok () =>
        rethrow (← invoke (.ptraceInterrupt cfg.pid))
        return some cfg

/-! ### `FindSymbols` -/

/-- One pass of the loop, on the number of passes before it. -/
def findSymbolsStep (cfg : Settings) :
    ℕ → Driver (ℕ ⊕ Option (PyABI × PyAddresses)) := fun i => do
  match ← rethrow (← invoke (.detectABI cfg.pid cfg.enable_threads cfg.abi)) with
  | some found => return .inr (some found)
  | none =>
      if cfg.maxRetries ≤ i + 1 then
        invoke (.cerr (text "Failed to locate libpython within timeout period.\n"))
        return .inr none
      else
        rethrow (← invoke (.ptraceCont cfg.pid))
        invoke (.sleepFor cfg.interval)
        rethrow (← invoke (.ptraceInterrupt cfg.pid))
        return .inl (i + 1)

/-- The handler. -/
def reportFatal : Exception → Driver (Option (PyABI × PyAddresses))
  | .fatal what | .symbol what => do
      invoke (.cerr (what ++ text "\n"))
      return none
  | e => throw e

/-- `FindSymbols`, with what it leaves in the `PyFrob`. It returns none where the
source returns 1. -/
def findSymbols (fuel : ℕ) (cfg : Settings) : Driver (Option (PyABI × PyAddresses)) :=
  (Prog.forever (findSymbolsStep cfg) fuel 0).handle reportFatal

/-! ### `Run` -/

/-- `operator<<` of `Thread`. -/
def printThread (thread : Thread) : List Bytes :=
  (decimal thread.id.toNat ++ (if thread.is_current then text "*" else []) ++ text ":\n") ::
    thread.frames.map fun frame => printFrame frame ++ text "\n"

/-- `GetThreads` of the `PyFrob`. -/
def frobberThreads (cfg : Settings) (found : PyABI × PyAddresses) :
    Driver (Except Exception (List Thread)) :=
  invoke (.getThreads cfg.pid found.1 found.2 cfg.enable_threads)

def dumpStacks (cfg : Settings) (found : PyABI × PyAddresses) : Driver (Printed × ℕ) := do
  let threads ← rethrow (← frobberThreads cfg found)
  return (⟨((threads.map printThread).intersperse [text "\n"]).flatten, []⟩, 0)

section

variable {S : Signature} (std : StdLib) (fuel : ℕ) (cfg : Prober) (cs : Calls (Prog S Exception))

/-- One pass of the loop of `ProbeLoop`, over any calls. -/
def probeLoopOverStep (finish : Time) : Samples → Prog S Exception (Samples ⊕ (Samples × ℕ)) :=
  fun s => do
    match ← probeIteration cfg cs finish s with
    | (s, .again) => return .inl s
    | (s, .finish return_code) => return .inr (s, return_code)

def probeLoopOver : Prog S Exception (Printed × ℕ) := do
  let finish := endTime cfg (← cs.now)
  let (s, return_code) ← Prog.forever (probeLoopOverStep cfg cs finish) fuel {}
  return (report std cfg s, return_code)

end

/-- Over the system's calls it is `ProbeLoop`. -/
theorem probeLoopOver_systemCalls (std : StdLib) (fuel : ℕ) (cfg : Prober)
    (frobber : Tracer (List Thread)) :
    probeLoopOver std fuel cfg (systemCalls fuel cfg frobber) = probeLoop std fuel cfg frobber :=
  rfl

/-- The calls of `ProbeLoop` among those of `main`. -/
def loopCalls (cfg : Settings) (found : PyABI × PyAddresses) : Calls (Prog calls Exception) where
  now := invoke .now
  getThreads := frobberThreads cfg found
  ptraceCont := invoke (.ptraceCont cfg.pid)
  sleepFor interval := invoke (.sleepFor interval)
  ptraceInterrupt := invoke (.ptraceInterrupt cfg.pid)
  cerr line := invoke (.cerr line)

/-- Is there somewhere to print to: the file that is named, or else `std::cout`. -/
def haveOutput (cfg : Settings) : Driver Bool :=
  if cfg.output_file = [] then .ret true else invoke (.openOutput cfg.output_file)

/-- `Run`, with what it prints. -/
def runProber (std : StdLib) (fuel : ℕ) (cfg : Settings) (found : PyABI × PyAddresses) :
    Driver (Printed × ℕ) := do
  if !(← haveOutput cfg) then
    invoke (.cerr (text "cannot open file \"" ++ cfg.output_file ++ text "\" as output\n"))
    return (⟨[], []⟩, 1)
  else if cfg.dump then
    dumpStacks cfg found
  else
    probeLoopOver std fuel cfg.toProber (loopCalls cfg found)

/-- `main` from `FindSymbols` on. The destructor of `PyFrob` runs on the way out. -/
def profile (std : StdLib) (fuel : ℕ) (cfg : Settings) : Driver (Printed × ℕ) := do
  match ← findSymbols fuel cfg with
  | none =>
      invoke (.ptraceCleanup cfg.pid)
      return (⟨[], []⟩, 1)
  | some found =>
      let result ← runProber std fuel cfg found
      invoke (.ptraceCleanup cfg.pid)
      return result

/-- `main`, with what it prints and the exit status it returns. There is no handler for
an exception that gets here, and no destructor runs for one. -/
def main (std : StdLib) (fuel : ℕ) (cfg : Settings) : Driver (Printed × ℕ) := do
  match ← initiatePtrace fuel cfg with
  | none => return (⟨[], []⟩, 1)
  | some cfg => profile std fuel cfg

end Pyflame
