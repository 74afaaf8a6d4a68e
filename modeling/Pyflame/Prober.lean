import Pyflame.Frob
import Pyflame.Library.Double
import Pyflame.Report
import Mathlib.Data.Rat.Defs

/-!
`ProbeLoop` of `prober.cc`.

The body of the loop is written over the calls it makes. Given the calls
themselves it is the program; given their outcomes in one iteration it is a
function, and a run of the loop is a list of such iterations.
-/

namespace Pyflame

open Interaction

/-- The members of `Prober` that the loop reads. -/
structure Prober where
  pid : Pid := -1
  include_idle : Bool := true
  include_ts : Bool := false
  include_line_number : Bool := true
  seconds : ℚ := 1
  /-- In microseconds. -/
  interval : ℤ := 10000

/-- `ToMicroseconds`, which rounds the product to a `double` and cuts off what is behind the
point. -/
def toMicroseconds (val : ℚ) : ℤ :=
  let us := Double.nearest (val * 1000000)
  us.num.tdiv us.den

/-- Whole seconds come out as they are. -/
theorem toMicroseconds_intCast {n : ℤ} (hn : |n * 1000000| < 2 ^ 53) :
    toMicroseconds n = n * 1000000 := by
  have hus : (n : ℚ) * 1000000 = (n * 1000000 : ℤ) := by push_cast; rfl
  rw [toMicroseconds, hus, Double.nearest_intCast hn, Rat.num_intCast, Rat.den_intCast]
  exact Int.tdiv_one _

/-- The rates 0.3 and 0.000249, which are no doubles: the first product is rounded to a whole
number. -/
example : toMicroseconds (Double.nearest (3 / 10)) = 300000 ∧
    toMicroseconds (Double.nearest (249 / 1000000)) = 248 := by decide +kernel

/-- A duration in microseconds on the scale of the clock. -/
def onClock (us : ℤ) : ℤ := us * 1000

/-- The local variables of the loop that outlive an iteration. -/
structure Samples where
  call_stacks : List FrameTS := []
  idle_count : ℕ := 0
  failed_count : ℕ := 0
  deriving DecidableEq, Repr

/-- How an iteration goes on: to the next one, or to `finish` with a return
code. -/
inductive Next
  | again
  | finish (return_code : ℕ)
  deriving DecidableEq, Repr

/-- The calls an iteration makes, each with the exception it may throw. -/
structure Calls (m : Type → Type) where
  now : m Time
  getThreads : m (Except Exception (List Thread))
  ptraceCont : m (Except Exception Unit)
  sleepFor : ℤ → m Unit
  ptraceInterrupt : m (Except Exception Unit)
  cerr : Bytes → m Unit

section Iteration

variable {m : Type → Type} [Monad m]

/-- Count an idle sample or push the stacks of the threads. -/
def Samples.record (cfg : Prober) (now : Time) (threads : List Thread) (s : Samples) : Samples :=
  let s :=
    if threads.isEmpty && cfg.include_idle then
      { s with
        idle_count := s.idle_count + 1
        call_stacks := if cfg.include_ts then s.call_stacks ++ [⟨now, []⟩] else s.call_stacks }
    else s
  { s with call_stacks := s.call_stacks ++ threads.map fun thread => ⟨now, thread.frames⟩ }

/-- Count a `PtraceException`. -/
def Samples.fail (cfg : Prober) (now : Time) (what : Bytes) (s : Samples) : Samples :=
  { s with
    failed_count := s.failed_count + 1
    call_stacks :=
      if cfg.include_ts then s.call_stacks ++ [⟨now, [⟨text "(failed)", what, 0⟩]⟩]
      else s.call_stacks }

/-- The handlers of the loop. -/
def handleException (cfg : Prober) (calls : Calls m) (now : Time) (s : Samples) :
    Exception → m (Samples × Next)
  | .terminate _ => return (s, .finish 0)
  | .ptrace what => do
      calls.cerr (text "Unexpected ptrace(2) exception: " ++ what ++ text "\n")
      return (s.fail cfg now what, .again)
  | .fatal what | .symbol what | .other what => do
      calls.cerr (text "Unexpected generic exception: " ++ what ++ text "\n")
      return (s, .finish 1)

/-- The test in the middle of the loop: the next iteration would end too
late. -/
def pastEnd (cfg : Prober) (finish now : Time) : Bool :=
  0 ≤ cfg.seconds ∧ finish ≤ now + onClock cfg.interval

def probeIteration (cfg : Prober) (calls : Calls m) (finish : Time) (s : Samples) :
    m (Samples × Next) := do
  let now ← calls.now
  match ← calls.getThreads with
  | .error e => handleException cfg calls now s e
  | .ok threads =>
      let s := s.record cfg now threads
      if pastEnd cfg finish now then
        return (s, .finish 0)
      else
        match ← calls.ptraceCont with
        | .error e => handleException cfg calls now s e
        | .ok () =>
            calls.sleepFor cfg.interval
            match ← calls.ptraceInterrupt with
            | .error e => handleException cfg calls now s e
            | .ok () => return (s, .again)

end Iteration

/-- When the loop should end, from the time it starts. -/
def endTime (cfg : Prober) (start : Time) : Time := start + onClock (toMicroseconds cfg.seconds)

/-- What is printed after the loop. -/
def report (std : StdLib) (cfg : Prober) (s : Samples) : Printed :=
  if s.call_stacks ≠ [] ∨ s.idle_count ≠ 0 ∨ s.failed_count ≠ 0 then
    if cfg.include_ts then
      printFramesTS s.call_stacks cfg.include_line_number
    else
      printFrames std s.call_stacks s.idle_count s.failed_count cfg.include_line_number
  else
    ⟨[], []⟩

/-! ### The program -/

/-- The calls as programs. `frobber` is the bound `GetThreads` method. -/
def systemCalls (fuel : ℕ) (cfg : Prober) (frobber : Tracer (List Thread)) : Calls Tracer where
  now := ask .now
  getThreads := frobber.attempt
  ptraceCont := (ptraceCont cfg.pid).attempt
  sleepFor interval := ask (.sleepFor interval)
  ptraceInterrupt := (ptraceInterrupt fuel cfg.pid).attempt
  cerr line := ask (.cerr line)

/-- One pass of the loop. -/
def probeLoopStep (fuel : ℕ) (cfg : Prober) (frobber : Tracer (List Thread)) (finish : Time) :
    Samples → Tracer (Samples ⊕ (Samples × ℕ)) := fun s => do
  match ← probeIteration cfg (systemCalls fuel cfg frobber) finish s with
  | (s, .again) => return .inl s
  | (s, .finish return_code) => return .inr (s, return_code)

/-- `ProbeLoop`, with what it prints and returns. -/
def probeLoop (std : StdLib) (fuel : ℕ) (cfg : Prober) (frobber : Tracer (List Thread)) :
    Tracer (Printed × ℕ) := do
  let finish := endTime cfg (← ask .now)
  let (s, return_code) ← Prog.forever (probeLoopStep fuel cfg frobber finish) fuel {}
  return (report std cfg s, return_code)

/-! ### Runs -/

/-- What the calls of one iteration do. An outcome is not looked at where the
iteration does not get to the call. -/
structure Iteration where
  now : Time
  threads : Except Exception (List Thread)
  cont : Except Exception Unit
  interrupt : Except Exception Unit

def Iteration.calls (it : Iteration) : Calls Id where
  now := it.now
  getThreads := it.threads
  ptraceCont := it.cont
  sleepFor _ := ()
  ptraceInterrupt := it.interrupt
  cerr _ := ()

def Iteration.probe (it : Iteration) (cfg : Prober) (finish : Time) (s : Samples) :
    Samples × Next :=
  (probeIteration cfg it.calls finish s).run

/-- Where a run of the loop has got to: the iterations that were followed by
another, and the one that ended the loop with its return code. -/
structure Progress where
  samples : Samples := {}
  continued : List Iteration := []
  last : Option (Iteration × ℕ) := none

def Progress.step (cfg : Prober) (finish : Time) (p : Progress) (it : Iteration) : Progress :=
  match p.last with
  | some _ => p
  | none =>
      match it.probe cfg finish p.samples with
      | (s, .again) => { samples := s, continued := p.continued ++ [it], last := none }
      | (s, .finish return_code) =>
          { samples := s, continued := p.continued, last := some (it, return_code) }

/-- The iterations that were started. -/
def Progress.started (p : Progress) : List Iteration := p.continued ++ p.last.toList.map Prod.fst

/-- A run of the loop started at the time `start`, over the iterations to
come. -/
def probeRun (cfg : Prober) (start : Time) (its : List Iteration) : Progress :=
  its.foldl (Progress.step cfg (endTime cfg start)) {}

end Pyflame
