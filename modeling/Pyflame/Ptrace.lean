import Pyflame.Sys

/-!
`ptrace.cc`: the wrappers around `ptrace(2)` and `waitpid(2)`, reading the
target's memory, and calling a function in the target.

A loop without a bound of its own takes the number of passes it is given.
-/

namespace Pyflame

open Interaction

variable (fuel : ℕ) (pid : Pid)

/-! ### Waiting -/

def ptraceCont : Tracer Unit := do
  orThrow (fun e => .ptrace (text "Failed to PTRACE_CONT: " ++ e)) (← ask (.cont pid))

/-- What `DoWait` does about a status: wait again, return it, or throw. -/
def waitStatus (progeny : Pid) (status : Status) : Tracer (Unit ⊕ Status) := do
  if progeny ≠ pid then
    .abort
  else if WIFSTOPPED status then
    if WSTOPSIG status = SIGTRAP then
      return .inr status
    else if WSTOPSIG status = SIGCHLD then do
      ptraceCont pid
      return .inl ()
    else
      throw (.ptrace (text "waitpid() indicated a WIFSTOPPED process, but got unexpected signal " ++
        signedDecimal (WSTOPSIG status).toInt))
  else if WIFEXITED status then
    throw (.terminate (text "Child process " ++ signedDecimal pid ++
      text " exited with status " ++ signedDecimal (WEXITSTATUS status).toInt))
  else
    throw (.ptrace (text "Child process " ++ signedDecimal pid ++
      text " returned an unexpected waitpid() code: " ++ signedDecimal status.toInt))

/-- One pass of the loop of `DoWait`. -/
def doWaitStep (options : ℤ) : Unit → Tracer (Unit ⊕ Status) := fun _ => do
  let (progeny, status) ←
    orThrow (fun e => .ptrace (text "Failed to waitpid(): " ++ e)) (← ask (.waitpid pid options))
  waitStatus pid progeny status

def doWait (options : ℤ) : Tracer Status :=
  Prog.forever (doWaitStep pid options) fuel ()

def sawEventExec (status : Status) : Bool :=
  status.sshiftRight 8 = (SIGTRAP ||| (PTRACE_EVENT_EXEC <<< 8))

/-! ### Requests -/

def ptraceTraceme : Tracer Unit := do
  orThrow (fun _ => .ptrace (text "Failed to PTRACE_TRACEME")) (← ask .traceme)
  ask (.raise SIGSTOP)

def ptraceAttach : Tracer Unit := do
  orThrow (fun e => .ptrace (text "Failed to attach to PID " ++ signedDecimal pid ++ text ": " ++ e))
    (← ask (.attach pid))
  let failed (e : Bytes) : Exception :=
    .ptrace (text "Failed to wait on PID " ++ signedDecimal pid ++ text ": " ++ e)
  let (progeny, status) ← orThrow failed (← ask (.waitpid pid WALL))
  if progeny ≠ pid ∨ ¬ WIFSTOPPED status then
    -- Nothing failed, so errno is whatever an earlier call left there.
    throw (failed (← ask .errno))

def ptraceSeize : Tracer Unit := do
  orThrow (fun e => .ptrace (text "Failed to attach to PID " ++ signedDecimal pid ++ text ": " ++ e))
    (← ask (.seize pid))

def ptraceDetach : Tracer Unit := do
  orThrow (fun e => .ptrace (text "Failed to detach PID " ++ signedDecimal pid ++ text ": " ++ e))
    (← ask (.detach pid))

/-- Like `ptraceDetach`, but ignore errors. -/
def safeDetach : Tracer Unit := do
  let _ ← ask (.detach pid)

def ptraceInterrupt : Tracer Unit := do
  orThrow (fun _ => .ptrace (text "Failed to PTRACE_INTERRUPT")) (← ask (.interrupt pid))
  let _ ← doWait fuel pid 0

def ptraceGetRegs : Tracer UserRegs := do
  orThrow (fun e => .ptrace (text "Failed to PTRACE_GETREGS: " ++ e)) (← ask (.getRegs pid))

def ptraceSetRegs (regs : UserRegs) : Tracer Unit := do
  orThrow (fun e => .ptrace (text "Failed to PTRACE_SETREGS: " ++ e)) (← ask (.setRegs pid regs))

def ptracePoke (addr data : Word) : Tracer Unit := do
  orThrow (fun e => .ptrace (text "Failed to PTRACE_POKEDATA at " ++ pointer addr ++ text ": " ++ e))
    (← ask (.pokeData pid addr data))

def ptracePeek (addr : Word) : Tracer Word := do
  orThrow (fun e => .ptrace (text "Failed to PTRACE_PEEKDATA (pid " ++ signedDecimal pid ++
      text ", addr " ++ pointer addr ++ text "): " ++ e))
    (← ask (.peekData pid addr))

def ptraceSetOptions (options : Word) : Tracer Unit := do
  orThrow (fun _ => .ptrace (text "Failed to PTRACE_SETOPTIONS")) (← ask (.setOptions pid options))

def ptraceSingleStep : Tracer Unit := do
  orThrow (fun e => .ptrace (text "Failed to PTRACE_SINGLESTEP: " ++ e)) (← ask (.singleStep pid))
  let _ ← doWait fuel pid 0

/-! ### Reading memory -/

/-- One pass of the loop of `PtracePeekString`, on the offset and the text
so far. -/
def peekStringStep (addr : Word) : Word × Bytes → Tracer ((Word × Bytes) ⊕ Bytes) :=
  fun (off, dump) => do
    let chunk := wordBytes (← ptracePeek pid (addr + off))
    let dump := dump ++ chunk.takeWhile (· ≠ 0)
    if 0 ∈ chunk then
      return .inr dump
    else
      return .inl (off + 8, dump)

def ptracePeekString (addr : Word) : Tracer Bytes :=
  Prog.forever (peekStringStep pid addr) fuel (0, [])

/-- The loop of `PtracePeekBytes`, with the number of words still to read. -/
def peekWords (addr : Word) : ℕ → Tracer Bytes
  | 0 => return []
  | n + 1 => do
      let val ← ptracePeek pid addr
      let rest ← peekWords (addr + 8) n
      return wordBytes val ++ rest

/-- `PtracePeekBytes`, with the buffer it returns: `nbytes` rounded up to
whole words. -/
def ptracePeekBytes (addr nbytes : Word) : Tracer Bytes := do
  let nbytes := if nbytes.toNat % 8 ≠ 0 then (nbytes / 8 + 1) * 8 else nbytes
  if !(← ask (.alloc nbytes)) then
    throw (.other (text "std::bad_alloc"))
  peekWords pid addr (nbytes.toNat / 8)

/-! ### Calling a function in the target -/

def syscall_x86 : Word := 0x050f

def SYS_mmap : Word := 9
def SYS_munmap : Word := 11

def getpagesize : Word := 4096

/-- `EAGAIN`. -/
def EAGAIN : Word := 11

/-- `MAP_FAILED`, as an address. -/
def MAP_FAILED : Word := -1

/-- The registers under which a system call instruction maps a page that is
readable, writable and executable. -/
def mmapRegs (oldregs : UserRegs) : UserRegs :=
  { oldregs with
    rax := SYS_mmap
    rdi := 0
    rsi := getpagesize
    rdx := 0x7
    r10 := 0x22
    r8 := -1
    r9 := 0 }

def allocPage : Tracer Word := do
  let oldregs ← ptraceGetRegs pid
  let orig_code ← ptracePeek pid oldregs.rip
  ptracePoke pid oldregs.rip syscall_x86
  ptraceSetRegs pid (mmapRegs oldregs)
  ptraceSingleStep fuel pid
  let result := (← ptraceGetRegs pid).rax
  ptraceSetRegs pid oldregs
  ptracePoke pid oldregs.rip orig_code
  return result

/-- One directory entry of `/proc/pid/task`. -/
def listThreadsStep : List Pid → Tracer (List Pid ⊕ List Pid) := fun result => do
  match ← ask .readdir with
  | none => return .inr result
  | some name =>
      if name ≠ text "." ∧ name ≠ text ".." then
        match stoi name with
        | .ok tid => return .inl (result ++ [tid])
        | .error what => throw (.other what)
      else
        return .inl result

def listThreads : Tracer (List Pid) := do
  if !(← ask (.opendir (text "/proc/" ++ signedDecimal pid ++ text "/task"))) then
    throw (.ptrace (text "Failed to list threads"))
  Prog.forever listThreadsStep fuel []

def pauseChildThreads : Tracer Unit := do
  (← listThreads fuel pid).forM fun tid => if tid ≠ pid then ptraceAttach tid else pure ()

def resumeChildThreads : Tracer Unit := do
  (← listThreads fuel pid).forM fun tid => if tid ≠ pid then ptraceDetach tid else pure ()

/-- The bytes `ff d0 cc`: a call through `rax`, and a trap. -/
def trampoline : Word := 0xccd0ff

/-- The part of `PtraceCallFunction` that sets up `probe_`. It says whether
to go on. -/
def setUpProbe : Tracer Bool := do
  if (← ask .probe) = 0 then
    pauseChildThreads fuel pid
    ask (.setProbe (← allocPage fuel pid))
    resumeChildThreads fuel pid
    if (← ask .probe) = MAP_FAILED then
      return false
    ptracePoke pid (← ask .probe) trampoline
  return true

def callRegs (oldregs : UserRegs) (addr probe : Word) : UserRegs :=
  { oldregs with
    rax := addr
    rip := probe }

def ptraceCallFunction (addr : Word) : Tracer Word := do
  if !(← setUpProbe fuel pid) then
    return -1
  let oldregs ← ptraceGetRegs pid
  ptraceSetRegs pid (callRegs oldregs addr (← ask .probe))
  ptraceCont pid
  let _ ← doWait fuel pid 0
  let newregs ← ptraceGetRegs pid
  ptraceSetRegs pid oldregs
  return newregs.rax

def munmapRegs (oldregs : UserRegs) (probe : Word) : UserRegs :=
  { oldregs with
    rax := SYS_munmap
    rdi := probe
    rsi := getpagesize }

/-- From `do_munmap` to the end of the `switch`. -/
def munmapStep (newregs : UserRegs) : Unit → Tracer (Unit ⊕ Unit) := fun _ => do
  ptraceSetRegs pid newregs
  ptraceSingleStep fuel pid
  let rax := (← ptraceGetRegs pid).rax
  if rax = 0 then
    ask (.setProbe 0)
    return .inr ()
  else if rax = EAGAIN then
    return .inl ()
  else
    ask (.cerr (text "Warning: failed to munmap(2) trampoline page, %rax = " ++
      signedDecimal rax.toInt ++ text "\n"))
    return .inr ()

/-- What `PtraceCleanup` does inside its `try`. -/
def unmapProbe : Tracer Unit := do
  let oldregs ← ptraceGetRegs pid
  let orig_code ← ptracePeek pid oldregs.rip
  let newregs := munmapRegs oldregs (← ask .probe)
  pauseChildThreads fuel pid
  ptracePoke pid oldregs.rip syscall_x86
  Prog.forever (munmapStep fuel pid newregs) fuel ()
  ptracePoke pid oldregs.rip orig_code
  ptraceSetRegs pid oldregs
  resumeChildThreads fuel pid

def ptraceCleanup : Tracer Unit := do
  if (← ask .probe) ≠ 0 then
    try
      unmapProbe fuel pid
    catch _ => pure ()
  safeDetach pid

end Pyflame
