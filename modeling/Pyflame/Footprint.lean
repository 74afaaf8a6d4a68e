import Pyflame.Library.Layers
import Pyflame.Stopped

/-!
Which calls a run of `main` can make.

The arguments of a call are members of `Prober`, and no function changes a
member once the options have been parsed, but for the pid that `fork` returns.
So a property of a whole run need only be shown of these calls.
-/

namespace Pyflame

open Interaction

/-- The calls of `Run`, on what `FindSymbols` left in the `PyFrob`. -/
inductive Call.Runs (cfg : Settings) (found : PyABI × PyAddresses) : Call → Prop
  | getThreads : Runs cfg found (.getThreads cfg.pid found.1 found.2 cfg.enable_threads)
  | ptraceCont : Runs cfg found (.ptraceCont cfg.pid)
  | ptraceInterrupt : Runs cfg found (.ptraceInterrupt cfg.pid)
  | openOutput : Runs cfg found (.openOutput cfg.output_file)
  | sleepFor : Runs cfg found (.sleepFor cfg.interval)
  | now : Runs cfg found .now
  | cerr (line : Bytes) : Runs cfg found (.cerr line)

/-- The calls of `FindSymbols`. -/
inductive Call.Finds (cfg : Settings) : Call → Prop
  | detectABI : Finds cfg (.detectABI cfg.pid cfg.enable_threads cfg.abi)
  | ptraceCont : Finds cfg (.ptraceCont cfg.pid)
  | ptraceInterrupt : Finds cfg (.ptraceInterrupt cfg.pid)
  | sleepFor : Finds cfg (.sleepFor cfg.interval)
  | cerr (line : Bytes) : Finds cfg (.cerr line)

/-- The calls that are made once the process of the settings is traced. -/
inductive Call.Profiles (cfg : Settings) : Call → Prop
  | find {c : Call} (h : c.Finds cfg) : Profiles cfg c
  | run {c : Call} (found : PyABI × PyAddresses) (h : c.Runs cfg found) : Profiles cfg c
  | ptraceCleanup : Profiles cfg (.ptraceCleanup cfg.pid)

/-- The calls of `InitiatePtrace` where `fork` returns `pid`, or where it is the process to
attach to. -/
inductive Call.Initiates (cfg : Settings) (pid : Pid) : Call → Prop
  | fork (h : cfg.trace = true) : Initiates cfg pid .fork
  | ptraceTraceme (h : cfg.trace = true) : Initiates cfg pid .ptraceTraceme
  | execvp (h : cfg.trace = true) : Initiates cfg pid (.execvp cfg.trace_target cfg.argv)
  | waitForked (h : cfg.trace = true) : Initiates cfg pid (.waitpid 0 0)
  | waitExec (h : cfg.trace = true) : Initiates cfg pid (.waitpid (-1) 0)
  | ptraceSetOptions (h : cfg.trace = true) :
      Initiates cfg pid (.ptraceSetOptions pid PTRACE_O_TRACEEXEC)
  | ptraceCont (h : cfg.trace = true) : Initiates cfg pid (.ptraceCont pid)
  | ptraceDetach (h : cfg.trace = true) : Initiates cfg pid (.ptraceDetach pid)
  | ptraceSeize : Initiates cfg pid (.ptraceSeize pid)
  | ptraceInterrupt : Initiates cfg pid (.ptraceInterrupt pid)
  | cerr (line : Bytes) : Initiates cfg pid (.cerr line)

section

variable {fuel : ℕ} {cfg : Settings}

/-! ### Of the system -/

section

variable {P : Request → Prop} {pid : Pid}

theorem only_ptraceCont (hcont : P (.cont pid)) : (ptraceCont pid).Only P :=
  ⟨hcont, fun rep => only_orThrow _ rep⟩

theorem only_doWait (hwait : P (.waitpid pid 0)) (hcont : P (.cont pid)) :
    (doWait fuel pid 0).Only P := by
  refine .forever (fun _ => ?_) fuel ()
  refine .bind (.ask hwait) fun rep => .bind (only_orThrow _ rep) fun told => ?_
  refine .ite trivial (.ite (.ite trivial (.ite ?_ trivial)) (.ite trivial trivial))
  exact (only_ptraceCont hcont).bind fun _ => trivial

theorem only_ptraceInterrupt (hinterrupt : P (.interrupt pid)) (hwait : P (.waitpid pid 0))
    (hcont : P (.cont pid)) : (ptraceInterrupt fuel pid).Only P := by
  refine .bind (.ask hinterrupt) fun rep => .bind (only_orThrow _ rep) fun _ => ?_
  exact (only_doWait hwait hcont).bind fun _ => trivial

/-- Without thread support `DetectABI` only reads files. -/
theorem foreign_detectABI (abi : PyABI) : (detectABI fuel pid false abi).Only Request.Foreign := by
  have hin (ns : Namespace) : (setAddrsIn fuel pid false ns).Only Request.Foreign := by
    refine (only_addrs fuel pid ns).attempt.bind fun found => ?_
    cases found with
    | error e =>
        cases e with
        | symbol | terminate | fatal | ptrace | other => trivial
    | ok found =>
        refine .bind ?_ fun _ => trivial
        rw [callInterpHead, if_neg fun h => Bool.false_ne_true h.1]
        trivial
  have hset : (setAddrs fuel pid false).Only Request.Foreign := by
    refine (Namespace.only_ofPid fuel pid).bind fun ns => (hin ns).attempt.bind fun result => ?_
    refine (ns.only_destroy fuel).bind fun _ => ?_
    cases result <;> trivial
  refine hset.bind fun found => ?_
  cases found with
  | none => trivial
  | some found => exact .ite trivial (.ite trivial trivial)

/-- What is asked for of the main thread while it is traced. -/
def Request.OnMain (pid : Pid) : Request → Prop
  | .cont p | .interrupt p | .getRegs p | .setRegs p _ | .peekData p _ | .pokeData p _ _
  | .singleStep p => p = pid
  | .waitpid p options => p = pid ∧ options = 0
  | .probe | .setProbe _ | .alloc _ | .cerr _ => True
  | _ => False

theorem onMain_ptraceCont : (ptraceCont pid).Only (Request.OnMain pid) := only_ptraceCont rfl

theorem onMain_doWait : (doWait fuel pid 0).Only (Request.OnMain pid) := only_doWait ⟨rfl, rfl⟩ rfl

theorem onMain_ptraceInterrupt : (ptraceInterrupt fuel pid).Only (Request.OnMain pid) :=
  only_ptraceInterrupt rfl ⟨rfl, rfl⟩ rfl

theorem onMain_ptraceGetRegs : (ptraceGetRegs pid).Only (Request.OnMain pid) :=
  .bind (.ask rfl) fun rep => only_orThrow _ rep

theorem onMain_ptraceSetRegs (regs : UserRegs) : (ptraceSetRegs pid regs).Only (Request.OnMain pid) :=
  .bind (.ask rfl) fun rep => only_orThrow _ rep

theorem onMain_ptracePeek (addr : Word) : (ptracePeek pid addr).Only (Request.OnMain pid) :=
  .bind (.ask rfl) fun rep => only_orThrow _ rep

theorem onMain_ptracePoke (addr data : Word) : (ptracePoke pid addr data).Only (Request.OnMain pid) :=
  .bind (.ask rfl) fun rep => only_orThrow _ rep

theorem onMain_ptraceSingleStep : (ptraceSingleStep fuel pid).Only (Request.OnMain pid) := by
  refine .bind (.ask rfl) fun rep => .bind (only_orThrow _ rep) fun _ => ?_
  exact onMain_doWait.bind fun _ => trivial

theorem onMain_allocPage : (allocPage fuel pid).Only (Request.OnMain pid) := by
  refine onMain_ptraceGetRegs.bind fun oldregs => (onMain_ptracePeek _).bind fun orig_code => ?_
  refine (onMain_ptracePoke _ _).bind fun _ => (onMain_ptraceSetRegs _).bind fun _ => ?_
  refine onMain_ptraceSingleStep.bind fun _ => onMain_ptraceGetRegs.bind fun regs => ?_
  exact (onMain_ptraceSetRegs _).bind fun _ => (onMain_ptracePoke _ _).bind fun _ => trivial

theorem onMain_munmapStep (newregs : UserRegs) :
    (munmapStep fuel pid newregs ()).Only (Request.OnMain pid) := by
  refine (onMain_ptraceSetRegs _).bind fun _ => onMain_ptraceSingleStep.bind fun _ => ?_
  refine onMain_ptraceGetRegs.bind fun regs => .ite ?_ (.ite trivial ?_)
  · exact .bind (.ask trivial) fun _ => trivial
  · exact .bind (.ask trivial) fun _ => trivial

/-- What `DetectABI` does besides `set_addrs_` is its own. -/
theorem keeps_detectABI_of {σ : Type} {v : Env sys σ} {I : σ → Prop} {enable_threads : Bool}
    (hset : Keeps v I (setAddrs fuel pid enable_threads)) (abi : PyABI) :
    Keeps v I (detectABI fuel pid enable_threads abi) := by
  refine hset.bind fun found => ?_
  cases found with
  | none => exact .ret
  | some found => exact .ite .raise (.ite .raise .ret)

/-- Requests about time and the output. -/
def Request.Aside : Request → Prop
  | .now | .sleepFor _ | .cerr _ | .openOutput _ => True
  | _ => False

/-- An invariant that what is asked for of the main thread keeps, and so do the functions that
stop the other threads and resume them. -/
structure KeepsTraced {σ : Type} (v : Env sys σ) (I : σ → Prop) (fuel : ℕ) (pid : Pid) : Prop where
  onMain {r : Request} : r.OnMain pid → Keeps v I (ask r)
  pause : Keeps v I (pauseChildThreads fuel pid)
  resume : Keeps v I (resumeChildThreads fuel pid)

namespace KeepsTraced

variable {σ : Type} {v : Env sys σ} {I : σ → Prop}

theorem of_onMain (h : KeepsTraced v I fuel pid) {α : Type} {p : Tracer α}
    (hp : p.Only (Request.OnMain pid)) : Keeps v I p :=
  Keeps.of_calls hp fun _ hr => h.onMain hr

theorem keeps_getThreads (h : KeepsTraced v I fuel pid) (H : Headers) (n : ℕ) (addrs : PyAddresses)
    (enable_threads : Bool) : Keeps v I (getThreads H n pid addrs enable_threads) :=
  h.of_onMain (only_getThreads H n pid (fun _ => rfl) (fun _ => trivial) addrs enable_threads)

theorem keeps_probe (h : KeepsTraced v I fuel pid) : Keeps v I (ask .probe) := h.onMain trivial

theorem keeps_setUpProbe (h : KeepsTraced v I fuel pid) : Keeps v I (setUpProbe fuel pid) := by
  refine h.keeps_probe.bind fun probe => .ite ?_ .ret
  refine h.pause.bind fun _ => (h.of_onMain onMain_allocPage).bind fun page => ?_
  refine (h.of_onMain (p := ask (.setProbe page)) (.ask trivial)).bind fun _ => ?_
  refine h.resume.bind fun _ => ?_
  refine h.keeps_probe.bind fun probe => .ite .ret (h.keeps_probe.bind fun probe => ?_)
  exact (h.of_onMain (onMain_ptracePoke _ _)).bind fun _ => .ret

theorem keeps_ptraceCallFunction (h : KeepsTraced v I fuel pid) (addr : Word) :
    Keeps v I (ptraceCallFunction fuel pid addr) := by
  refine h.keeps_setUpProbe.bind fun ready => .ite .ret ?_
  refine h.of_onMain (onMain_ptraceGetRegs.bind fun oldregs => ?_)
  refine .bind (.ask trivial) fun probe => (onMain_ptraceSetRegs _).bind fun _ => ?_
  refine onMain_ptraceCont.bind fun _ => onMain_doWait.bind fun status => ?_
  exact onMain_ptraceGetRegs.bind fun newregs => (onMain_ptraceSetRegs _).bind fun _ => trivial

theorem keeps_unmapProbe (h : KeepsTraced v I fuel pid) : Keeps v I (unmapProbe fuel pid) := by
  refine (h.of_onMain onMain_ptraceGetRegs).bind fun oldregs => ?_
  refine (h.of_onMain (onMain_ptracePeek _)).bind fun orig_code => ?_
  refine h.keeps_probe.bind fun probe => h.pause.bind fun _ => ?_
  refine (h.of_onMain (onMain_ptracePoke _ _)).bind fun _ => ?_
  refine (h.of_onMain (.forever (fun _ => onMain_munmapStep _) fuel ())).bind fun _ => ?_
  refine (h.of_onMain (onMain_ptracePoke _ _)).bind fun _ => ?_
  exact (h.of_onMain (onMain_ptraceSetRegs _)).bind fun _ => h.resume

theorem keeps_callInterpHead (h : KeepsTraced v I fuel pid) (enable_threads : Bool)
    (addrs : PyAddresses) : Keeps v I (callInterpHead fuel pid enable_threads addrs) :=
  .ite ((h.keeps_ptraceCallFunction _).bind fun _ => .ret) .ret

theorem keeps_setAddrsIn (h : KeepsTraced v I fuel pid) {ns : Namespace}
    (haddrs : Keeps v I (addrs fuel pid ns)) (enable_threads : Bool) :
    Keeps v I (setAddrsIn fuel pid enable_threads ns) := by
  refine haddrs.attempt.bind fun found => ?_
  cases found with
  | error e =>
      cases e with
      | symbol => exact .ret
      | terminate | fatal | ptrace | other => exact .raise
  | ok found => exact (h.keeps_callInterpHead _ _).bind fun _ => .ret

theorem keeps_unmapping (h : KeepsTraced v I fuel pid) :
    Keeps v I ((unmapProbe fuel pid).handle fun _ => .ret ()) :=
  h.keeps_unmapProbe.handle fun _ => .ret

/-- Where it only reads files besides. -/
theorem keeps_setAddrs (h : KeepsTraced v I fuel pid)
    (hforeign : ∀ {r : Request}, r.Foreign → Keeps v I (ask r)) (enable_threads : Bool) :
    Keeps v I (setAddrs fuel pid enable_threads) := by
  have hfiles {α : Type} {p : Tracer α} (hp : p.Only Request.Foreign) : Keeps v I p :=
    Keeps.of_calls hp fun _ hr => hforeign hr
  refine (hfiles (Namespace.only_ofPid fuel pid)).bind fun ns => ?_
  have hset := h.keeps_setAddrsIn (hfiles (only_addrs fuel pid ns)) enable_threads
  refine hset.attempt.bind fun result => ?_
  refine (hfiles (ns.only_destroy fuel)).bind fun _ => ?_
  cases result with
  | ok => exact .ret
  | error => exact .raise

end KeepsTraced

end

/-! ### From `FindSymbols` on -/

theorem calls_rethrow_bind {P : Call → Prop} {c : Call} {α β : Type} {x : c.Rep → Except Exception α}
    {f : α → Driver β} (hc : P c) (hf : ∀ a, (f a).Only P) :
    ((invoke c).bind fun rep => (rethrow (x rep)).bind f).Only P :=
  (Prog.Only.ask hc).bind fun _ => only_rethrow_bind hf

section

variable {σ : Type} {v : Env sys σ} {I : σ → Prop} {headers : PyABI → Headers} {n : ℕ} {c : Call}

/-- What the calls of `FindSymbols` keep, apart from `DetectABI`. -/
theorem KeepsTraced.keeps_finds (h : KeepsTraced v I n cfg.pid)
    (haside : ∀ {r : Request}, r.Aside → Keeps v I (ask r))
    (hset : Keeps v I (setAddrs n cfg.pid cfg.enable_threads)) (hc : c.Finds cfg) :
    Keeps v I (c.impl headers n) := by
  cases hc with
  | detectABI => exact (keeps_detectABI_of hset cfg.abi).attempt
  | ptraceCont => exact (h.of_onMain onMain_ptraceCont).attempt
  | ptraceInterrupt => exact (h.of_onMain onMain_ptraceInterrupt).attempt
  | sleepFor | cerr => exact haside trivial

theorem KeepsTraced.keeps_runs (h : KeepsTraced v I n cfg.pid)
    (haside : ∀ {r : Request}, r.Aside → Keeps v I (ask r)) {found : PyABI × PyAddresses}
    (hc : c.Runs cfg found) : Keeps v I (c.impl headers n) := by
  cases hc with
  | getThreads => exact (h.keeps_getThreads _ n _ _).attempt
  | ptraceCont => exact (h.of_onMain onMain_ptraceCont).attempt
  | ptraceInterrupt => exact (h.of_onMain onMain_ptraceInterrupt).attempt
  | openOutput | sleepFor | now | cerr => exact haside trivial

end

theorem calls_findSymbols : (findSymbols fuel cfg).Only (Call.Finds cfg) := by
  refine (Prog.Only.forever (fun i => ?_) fuel 0).handle fun e => ?_
  · refine calls_rethrow_bind .detectABI fun found => ?_
    cases found with
    | some found => trivial
    | none =>
        refine .ite (.bind (.ask (.cerr _)) fun _ => trivial) ?_
        refine calls_rethrow_bind .ptraceCont fun _ => .bind (.ask .sleepFor) fun _ => ?_
        exact calls_rethrow_bind .ptraceInterrupt fun _ => trivial
  · cases e with
    | fatal | symbol => exact .bind (.ask (.cerr _)) fun _ => trivial
    | terminate | ptrace | other => trivial

theorem calls_probeIteration (found : PyABI × PyAddresses) (finish : Time) (s : Samples) :
    (probeIteration cfg.toProber (loopCalls cfg found) finish s).Only (Call.Runs cfg found) := by
  have hhandle (now : Time) (s : Samples) (e : Exception) :
      (handleException cfg.toProber (loopCalls cfg found) now s e).Only (Call.Runs cfg found) := by
    cases e with
    | terminate => trivial
    | ptrace | fatal | symbol | other => exact .bind (.ask (.cerr _)) fun _ => trivial
  refine .bind (.ask .now) fun now => .bind (.ask .getThreads) fun threads => ?_
  cases threads with
  | error e => exact hhandle now s e
  | ok threads =>
      refine .ite trivial (.bind (.ask .ptraceCont) fun cont => ?_)
      cases cont with
      | error e => exact hhandle now _ e
      | ok =>
          refine .bind (.ask .sleepFor) fun _ => .bind (.ask .ptraceInterrupt) fun interrupt => ?_
          cases interrupt with
          | error e => exact hhandle now _ e
          | ok => trivial

theorem calls_runProber (std : StdLib) (found : PyABI × PyAddresses) :
    (runProber std fuel cfg found).Only (Call.Runs cfg found) := by
  have hopen : (haveOutput cfg).Only (Call.Runs cfg found) := .ite trivial (.ask .openOutput)
  refine hopen.bind fun opened => .ite (.bind (.ask (.cerr _)) fun _ => trivial) (.ite ?_ ?_)
  · exact calls_rethrow_bind .getThreads fun _ => trivial
  · refine .bind (.ask .now) fun now => .bind (.forever (fun s => ?_) fuel _) fun _ => trivial
    refine (calls_probeIteration found _ s).bind fun r => ?_
    obtain ⟨s, next⟩ := r
    cases next <;> trivial

theorem calls_profile (std : StdLib) : (profile std fuel cfg).Only (Call.Profiles cfg) := by
  refine (calls_findSymbols.mono fun _ => .find).bind fun found => ?_
  have hcleanup (result : Printed × ℕ) :
      ((invoke (.ptraceCleanup cfg.pid)).bind fun _ => .ret result).Only (Call.Profiles cfg) :=
    .bind (.ask .ptraceCleanup) fun _ => trivial
  cases found with
  | none => exact hcleanup _
  | some found => exact ((calls_runProber std found).mono fun _ => .run found).bind hcleanup

/-! ### `InitiatePtrace` -/

section

variable {pid : Pid}

theorem calls_awaitExecStep (h : cfg.trace = true) :
    (awaitExecStep ()).Only (Call.Initiates cfg pid) := by
  refine .bind (.ask (.waitExec h)) fun rep => ?_
  cases rep with
  | error e => exact .bind (.ask (.cerr _)) fun _ => trivial
  | ok told => exact .ite (.bind (.ask (.cerr _)) fun _ => trivial) (.ite trivial trivial)

theorem calls_traceChild (h : cfg.trace = true) :
    (traceChild fuel { cfg with pid := pid }).Only (Call.Initiates cfg pid) := by
  refine .bind (.ask (.waitForked h)) fun rep => ?_
  cases rep with
  | error e => trivial
  | ok told =>
      refine .ite trivial (calls_rethrow_bind (.ptraceSetOptions h) fun _ => ?_)
      refine calls_rethrow_bind (.ptraceCont h) fun _ => ?_
      refine .bind (.forever (fun _ => calls_awaitExecStep h) fuel ()) fun ret => .ite trivial ?_
      refine calls_rethrow_bind (.ptraceDetach h) fun _ => ?_
      refine calls_rethrow_bind .ptraceSeize fun _ => ?_
      exact calls_rethrow_bind .ptraceInterrupt fun _ => trivial

theorem calls_becomeTarget (h : cfg.trace = true) (pid child : Pid) :
    (becomeTarget { cfg with pid := child }).Only (Call.Initiates cfg pid) := by
  refine calls_rethrow_bind (.ptraceTraceme h) fun _ => ?_
  exact .bind (.ask (.execvp h)) fun _ => .bind (.ask (.cerr _)) fun _ => trivial

theorem calls_attach (h : cfg.trace = false) :
    (initiatePtrace fuel cfg).Only (Call.Initiates cfg cfg.pid) := by
  unfold initiatePtrace
  rw [h]
  refine .bind (.ask .ptraceSeize) fun rep => ?_
  cases rep with
  | error e =>
      cases e with
      | ptrace => exact .bind (.ask (.cerr _)) fun _ => trivial
      | terminate | fatal | symbol | other => trivial
  | ok => exact calls_rethrow_bind .ptraceInterrupt fun _ => trivial

end

/-- The parent goes on with the members that it had. -/
theorem returns_traceChild : Returns (fun r => ∀ cfg', r = some cfg' → cfg' = cfg)
    (traceChild fuel cfg) := by
  refine .bind fun rep => ?_
  cases rep with
  | error e => exact .abort
  | ok told =>
      show Returns _ (if _ then _ else _)
      split_ifs
      · exact .abort
      · refine .bind fun _ => .bind fun _ => .bind fun _ => .bind fun _ => .bind fun ret => ?_
        split_ifs
        · exact .ret nofun
        · refine .bind fun _ => .bind fun _ => .bind fun _ => .bind fun _ => .bind fun _ => ?_
          exact .bind fun _ => .ret fun cfg' h => (Option.some.inj h).symm

/-- The child does not go on. -/
theorem returns_becomeTarget : Returns (· = none) (becomeTarget cfg) :=
  .bind fun _ => .bind fun _ => .bind fun _ => .bind fun _ => .ret rfl

theorem returns_attach (h : cfg.trace = false) :
    Returns (fun r => ∀ cfg', r = some cfg' → cfg' = cfg) (initiatePtrace fuel cfg) := by
  unfold initiatePtrace
  rw [h]
  refine .bind fun rep => ?_
  cases rep with
  | error e =>
      cases e with
      | ptrace => exact .bind fun _ => .ret nofun
      | terminate | fatal | symbol | other => exact .raise
  | ok => exact .bind fun _ => .bind fun _ => .ret fun cfg' h => (Option.some.inj h).symm

/-- The calls of both modes. -/
theorem calls_initiatePtrace :
    (initiatePtrace fuel cfg).Only fun c : Call => ∃ pid, c.Initiates cfg pid := by
  have hsome {α : Type} {p : Driver α} {pid : Pid} (hp : p.Only (Call.Initiates cfg pid)) :
      p.Only fun c : Call => ∃ pid, c.Initiates cfg pid := hp.mono fun _ hc => ⟨pid, hc⟩
  by_cases h : cfg.trace = true
  · unfold initiatePtrace
    rw [if_pos h]
    have hquit (line : Bytes) : ((invoke (.cerr line)).bind fun _ =>
        (.ret none : Driver (Option Settings))).Only fun c : Call => ∃ pid, c.Initiates cfg pid :=
      .bind (.ask ⟨cfg.pid, .cerr line⟩) fun _ => trivial
    refine .ite (hquit _) (.bind (.ask ⟨cfg.pid, .fork h⟩) fun rep => ?_)
    cases rep with
    | error e => exact hquit _
    | ok p => exact .ite (hsome (calls_becomeTarget h p p)) (hsome (calls_traceChild h))
  · exact hsome (calls_attach (Bool.eq_false_iff.mpr h))

/-- The members stay what they were, but for the pid of a child. -/
theorem returns_initiatePtrace :
    Returns (fun r => ∀ cfg', r = some cfg' → cfg' = { cfg with pid := cfg'.pid })
      (initiatePtrace fuel cfg) := by
  by_cases h : cfg.trace = true
  · unfold initiatePtrace
    rw [if_pos h]
    split_ifs
    · exact .bind fun _ => .ret nofun
    · refine .bind fun rep => ?_
      cases rep with
      | error e => exact .bind fun _ => .ret nofun
      | ok p =>
          show Returns _ (if p = 0 then _ else _)
          split_ifs
          · exact returns_becomeTarget.mono fun r hr cfg' hcfg' => by simp [hr] at hcfg'
          · refine returns_traceChild.mono fun r hr cfg' hcfg' => ?_
            rw [hr cfg' hcfg']
  · refine (returns_attach (Bool.eq_false_iff.mpr h)).mono fun r hr cfg' hcfg' => ?_
    rw [hr cfg' hcfg']

/-! ### `main` -/

section

variable {σ : Type} {v : Env calls σ} {I : σ → Prop} {pid : Pid} {s : σ}

/-- What `InitiatePtrace` leaves behind. -/
def GoesOn (I : σ → Prop) (cfg : Settings) (pid : Pid) : Outcome Exception (Option Settings) → σ → Prop
  | .ok (some cfg'), s => cfg' = { cfg with pid := pid } ∧ I s
  | .ok none, s | .error _, s => I s
  | .abort, _ | .cut, _ => True

/-- A part of it that is not the last. -/
theorem goesOn_of_keeps {p : Driver (Option Settings)} (hp : Keeps v I p)
    (hreturns : Returns (fun r => ∀ cfg', r = some cfg' → cfg' = { cfg with pid := pid }) p)
    (hs : I s) :
    wp v (GoesOn I cfg pid) p s := by
  refine wp_mono (fun o s' ho => ?_) (hp.returns hreturns hs)
  cases o with
  | ok r =>
      cases r with
      | some cfg' => exact ⟨ho.2 _ rfl cfg' rfl, ho.1⟩
      | none => exact ho.1
  | error => exact ho.1
  | abort | cut => trivial

/-- Where `fork` makes this process or none, it is this process that is profiled. -/
theorem wp_initiatePtrace_pid (hpid : cfg.trace = false → cfg.pid = pid)
    (hcalls : ∀ c : Call, c.Initiates cfg pid → Keeps v I (invoke c))
    (hfork : ∀ s p s', v.step s .fork (.ok p) s' → p = 0 ∨ p = pid) (hs : I s) :
    wp v (GoesOn I cfg pid) (initiatePtrace fuel cfg) s := by
  have hkeeps {p : Driver (Option Settings)} (hp : p.Only (Call.Initiates cfg pid)) : Keeps v I p :=
    Keeps.of_calls hp hcalls
  by_cases h : cfg.trace = true
  · unfold initiatePtrace
    rw [if_pos h]
    have hquit (line : Bytes) {s : σ} (hs : I s) : wp v (GoesOn I cfg pid)
        ((invoke (.cerr line)).bind fun _ => (.ret none : Driver (Option Settings))) s :=
      goesOn_of_keeps (hkeeps (.bind (.ask (.cerr line)) fun _ => trivial))
        (.bind fun _ => .ret nofun) hs
    by_cases hself : text "pyflame" <:+ cfg.trace_target
    · rw [if_pos hself]
      exact hquit _ hs
    · rw [if_neg hself]
      obtain ⟨hpermits, hstep⟩ := hcalls .fork (.fork h) s hs
      refine ⟨hpermits, fun rep s' hrep => ?_⟩
      have hs' : I s' := hstep rep s' hrep
      cases rep with
      | error e => exact hquit _ hs'
      | ok p =>
          show wp _ _ (if p = 0 then _ else _) s'
          by_cases hzero : p = 0
          · rw [if_pos hzero]
            refine goesOn_of_keeps (hkeeps (calls_becomeTarget h pid p)) ?_ hs'
            exact returns_becomeTarget.mono fun r hr cfg' hcfg' => by simp [hr] at hcfg'
          · rw [if_neg hzero]
            obtain rfl := (hfork s p s' hrep).resolve_left hzero
            exact goesOn_of_keeps (hkeeps (calls_traceChild h)) returns_traceChild hs'
  · have h := Bool.eq_false_iff.mpr h
    obtain rfl := hpid h
    exact goesOn_of_keeps (hkeeps (calls_attach h)) (returns_attach h) hs

theorem targetPid_attach (cfg : Settings) (forked : Pid) (h : cfg.trace = false) :
    cfg.pid = targetPid cfg forked := by simp [targetPid, h]

/-- **The rule of `main`.** What each of its calls keeps, it keeps. -/
theorem keeps_main (std : StdLib) (forked : Pid) (hpid : targetPid cfg forked = pid)
    (hinitiates : ∀ c : Call, c.Initiates cfg pid → Keeps v I (invoke c))
    (hprofiles : ∀ c : Call, c.Profiles { cfg with pid := pid } → Keeps v I (invoke c))
    (hfork : ∀ s p s', v.step s .fork (.ok p) s' → p = 0 ∨ p = pid) :
    Keeps v I (main std fuel cfg) := by
  intro s hs
  have hattach (h : cfg.trace = false) : cfg.pid = pid := (targetPid_attach cfg forked h).trans hpid
  refine wp_bind_of (wp_initiatePtrace_pid hattach hinitiates hfork hs) fun o s' ho => ?_
  cases o with
  | ok r =>
      cases r with
      | none => exact ho
      | some cfg' =>
          obtain ⟨rfl, hs'⟩ := ho
          exact Keeps.of_calls (calls_profile std) hprofiles s' hs'
  | error => exact ho
  | abort | cut => trivial

end

end

end Pyflame
