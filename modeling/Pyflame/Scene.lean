import Pyflame.Exit
import Pyflame.Footprint
import Pyflame.Relocation
import Pyflame.Timeline

/-!
A timeline as the system shows it.

Below the calls of `main` are the system calls. In a scene these are answered by
a target that moves as the timeline says, and by a file system. Where `Addrs`
finds in the files what the timeline says is found, as late as it says, `main`
ends over the system calls as it does over the timeline.
-/

namespace Pyflame

open Interaction

/-- A timeline, and what answers all the other requests: those about files are made. -/
structure Scene (φ : Type) extends Timeline where
  files : Handler sys φ

/-- How far a run has come. All stops are counted, also those before the symbols are found. -/
structure Moment (φ : Type) where
  files : φ
  readings : ℕ := 0
  stops : ℕ := 0
  seized : Bool := false
  exited : Bool := false

namespace Scene

variable {φ : Type} (w : Scene φ)

/-- The stop of the timeline. -/
def stop (m : Moment φ) : ℕ := m.stops - w.late

/-- The target is stopped, or exits. -/
def interrupted (m : Moment φ) : Moment φ :=
  if w.exits = some (w.stop m) then { m with exited := true } else { m with stops := m.stops + 1 }

/-- What is waited for: a child to call `exec`, or after an interrupt a stop by
`PTRACE_EVENT_STOP` or an exit. -/
def status (pid : Pid) (m : Moment φ) : Pid × Status :=
  if m.seized then (pid, if m.exited then 0 else 0x80057f) else (w.child, 0x4057f)

/-- The system calls. -/
def handler : Handler sys (Moment φ)
  | .now, m => (w.clock m.readings, { m with readings := m.readings + 1 })
  | .interrupt _, m => (.ok (), w.interrupted m)
  | .waitpid pid _, m => (.ok (w.status pid m), m)
  | .peekData pid addr, m => (image (w.memory (w.stop m)) (.peekData pid addr), m)
  | .alloc _, m => (true, m)
  | .fork, m => (.ok w.child, m)
  | .seize _, m => (.ok (), { m with seized := true })
  | .setOptions _ _, m | .cont _, m | .detach _, m => (.ok (), m)
  | .probe, m => ((0 : Word), m)
  | .openOutput _, m => (true, m)
  | r, m => ((w.files r m.files).1, { m with files := (w.files r m.files).2 })

/-- `main` over the system calls. -/
def system (headers : PyABI → Headers) (n : ℕ) : Handler calls (Moment φ) :=
  w.handler.via (Call.impl headers n) Call.lost

/-- How `Addrs` ends in these files, between the constructor and the destructor of the
namespace. -/
def Tries (n : ℕ) (pid : Pid) (start : φ) (o : Outcome Exception (PyABI × PyAddresses))
    (closed : φ) : Prop :=
  ∃ ns opened searched, run w.files (Namespace.ofPid n pid) start = (.ok ns, opened) ∧
    run w.files (addrs n pid ns) opened = (o, searched) ∧
    run w.files (ns.destroy n) searched = (.ok (), closed)

/-- What the timeline says is found is in the files, after so many intervals. -/
inductive Finds (n : ℕ) (cfg : Settings) : ℕ → φ → Prop
  | now {start closed : φ} {abi : PyABI} (h : w.Tries n cfg.pid start (.ok (abi, w.found.2)) closed)
      (habi : w.found.1 = if cfg.abi = .unknown then abi else cfg.abi) : Finds n cfg 0 start
  | later {k : ℕ} {start closed : φ} {what : Bytes}
      (h : w.Tries n cfg.pid start (.error (.symbol what)) closed)
      (hnext : Finds n cfg k (w.files (.sleepFor cfg.interval) closed).2) : Finds n cfg (k + 1) start

/-- What the timeline says is found will do, without a call of `PyInterpreterState_Head`. -/
structure Complete (cfg : Settings) : Prop where
  known : w.found.1 ≠ .unknown
  located : w.found.2.empty = false
  head : ¬ (cfg.enable_threads ∧ w.found.2.interp_head_addr = 0 ∧ w.found.2.interp_head_hint = 0 ∧
    w.found.2.interp_head_fn_addr ≠ 0)

/-- The target runs until its symbols are found in its files. -/
structure Shows (n : ℕ) (cfg : Settings) (start : φ) : Prop where
  starts : w.Starts cfg
  runs : w.exits ≠ some 0
  complete : w.Complete cfg
  finds : w.Finds n (w.targeted cfg) w.late start

variable {w} {headers : PyABI → Headers} {n : ℕ} {cfg : Settings}

/-! ### Reading files and memory -/

/-- The file system is all that a program about files meets. -/
theorem simulates_files (m : Moment φ) :
    Simulates w.handler w.files (fun m' f => m' = { m with files := f }) Request.Foreign := by
  rintro r hr _ f rfl
  cases r <;> first | exact hr.elim | exact ⟨rfl, rfl⟩

theorem run_files {α : Type} {p : Tracer α} (hp : p.Only Request.Foreign) {m : Moment φ}
    {o : Outcome Exception α} {f : φ} (h : run w.files p m.files = (o, f)) :
    run w.handler p m = (o, { m with files := f }) := by
  obtain ⟨hout, hend⟩ := (simulates_files m).run hp (show m = { m with files := m.files } from rfl)
  rw [h] at hout hend
  exact Prod.ext hout hend

/-- The target is all that a program meets that reads its memory, and it stays as it is. -/
theorem simulates_memory (m : Moment φ) :
    Simulates w.handler (answer (image (w.memory (w.stop m)))) (fun m' _ => m' = m)
      Request.Reading := by
  rintro r hr _ _ rfl
  cases r <;> first | exact hr.elim | exact ⟨rfl, rfl⟩

theorem run_memory {α : Type} {p : Tracer α} (hp : p.Only Request.Reading) (m : Moment φ) :
    run w.handler p m = ((run (answer (image (w.memory (w.stop m)))) p ()).1, m) := by
  obtain ⟨hout, hend⟩ := (simulates_memory (w := w) m).run hp (t := ()) rfl
  exact Prod.ext hout hend

/-! ### Single calls -/

theorem run_doWaitStep (pid : Pid) {m : Moment φ} (h : m.seized = true) :
    run w.handler (doWaitStep pid 0 ()) m =
      run w.handler (waitStatus pid pid (if m.exited then 0 else 0x80057f)) m := by
  have hwait : run w.handler (ask (.waitpid pid 0)) m =
      (.ok (.ok (pid, if m.exited then 0 else 0x80057f)), m) :=
    congrArg (fun r => (Outcome.ok (Except.ok r), m)) (if_pos h)
  exact (run_bind_ok _ hwait _).trans rfl

/-- `DoWait` returns for a stop. -/
theorem run_doWait_stopped (pid : Pid) {m : Moment φ} (hseized : m.seized = true)
    (h : m.exited = false) : run w.handler (doWait (n + 1) pid 0) m = (.ok 0x80057f, m) := by
  have hstep : run w.handler (doWaitStep pid 0 ()) m = (.ok (.inr 0x80057f), m) := by
    have htrap : WIFSTOPPED 0x80057f = true ∧ WSTOPSIG 0x80057f = SIGTRAP := by decide
    rw [run_doWaitStep pid hseized, h, if_neg Bool.false_ne_true, waitStatus,
      if_neg (not_not.mpr rfl), if_pos htrap.1, if_pos htrap.2]
    rfl
  exact (run_bind_ok _ hstep _).trans rfl

/-- It throws for an exit. -/
theorem run_doWait_exited (pid : Pid) {m : Moment φ} (hseized : m.seized = true)
    (h : m.exited = true) :
    run w.handler (doWait (n + 1) pid 0) m = (.error (Timeline.exitOf pid), m) := by
  have hstep : run w.handler (doWaitStep pid 0 ()) m = (.error (Timeline.exitOf pid), m) := by
    have hexit : ¬ WIFSTOPPED 0 = true ∧ WIFEXITED 0 = true := by decide
    have hline : text " exited with status " ++ signedDecimal (WEXITSTATUS 0).toInt =
        text " exited with status 0" := by decide
    rw [run_doWaitStep pid hseized, h, if_pos rfl, waitStatus, if_neg (not_not.mpr rfl),
      if_neg hexit.1, if_pos hexit.2, List.append_assoc, hline]
    rfl
  exact run_bind_error _ hstep _

theorem system_ptraceInterrupt_stopped (pid : Pid) {m : Moment φ} (hseized : m.seized = true)
    (hexits : w.exits ≠ some (w.stop m)) (h : m.exited = false) :
    w.system headers (n + 1) (.ptraceInterrupt pid) m =
      (.ok (), { m with stops := m.stops + 1 }) := by
  have hinterrupt : run w.handler (ask (.interrupt pid)) m =
      (.ok (.ok ()), { m with stops := m.stops + 1 }) :=
    congrArg (fun m' => (Outcome.ok (Except.ok ()), m')) (if_neg hexits)
  have hrun : run w.handler (ptraceInterrupt (n + 1) pid) m =
      (.ok (), { m with stops := m.stops + 1 }) := by
    refine (run_bind_ok _ hinterrupt _).trans ?_
    exact (run_bind_ok _ (run_doWait_stopped pid (m := { m with stops := m.stops + 1 }) hseized h)
      _).trans rfl
  have hattempt := run_attempt w.handler (ptraceInterrupt (n + 1) pid) m
  rw [hrun] at hattempt
  exact Handler.via_ok hattempt

theorem system_ptraceInterrupt_exits (pid : Pid) {m : Moment φ} (hseized : m.seized = true)
    (hexits : w.exits = some (w.stop m)) :
    w.system headers (n + 1) (.ptraceInterrupt pid) m =
      (.error (Timeline.exitOf pid), { m with exited := true }) := by
  have hinterrupt : run w.handler (ask (.interrupt pid)) m =
      (.ok (.ok ()), { m with exited := true }) :=
    congrArg (fun m' => (Outcome.ok (Except.ok ()), m')) (if_pos hexits)
  have hrun : run w.handler (ptraceInterrupt (n + 1) pid) m =
      (.error (Timeline.exitOf pid), { m with exited := true }) := by
    refine (run_bind_ok _ hinterrupt _).trans ?_
    exact run_bind_error _ (run_doWait_exited pid (m := { m with exited := true }) hseized rfl) _
  have hattempt := run_attempt w.handler (ptraceInterrupt (n + 1) pid) m
  rw [hrun] at hattempt
  exact Handler.via_ok hattempt

/-- `GetThreads` reads what is in memory at the last stop. -/
theorem system_getThreads (pid : Pid) (found : PyABI × PyAddresses) (enable_threads : Bool)
    (m : Moment φ) :
    w.system headers n (.getThreads pid found.1 found.2 enable_threads) m =
      (Timeline.reply (run (answer (image (w.memory (w.stop m))))
        (getThreads (headers found.1) n pid found.2 enable_threads) ()).1, m) := by
  have hrun := run_attempt w.handler (getThreads (headers found.1) n pid found.2 enable_threads) m
  rw [run_memory (reading_getThreads _ _ _ _ _)] at hrun
  generalize (run (answer (image (w.memory (w.stop m))))
    (getThreads (headers found.1) n pid found.2 enable_threads) ()).1 = o at hrun ⊢
  cases o with
  | ok | error => exact Handler.via_ok hrun
  | abort | cut => exact Handler.via_lost hrun nofun

/-! ### The search -/

/-- `set_addrs_` opens the namespace and closes it, around what `setAddrsIn` makes of `Addrs`. -/
theorem Tries.run_setAddrs {pid : Pid} {enable_threads : Bool} {m : Moment φ} {closed : φ}
    {o : Outcome Exception (PyABI × PyAddresses)} {r : Option (PyABI × PyAddresses)}
    (h : w.Tries n pid m.files o closed)
    (hin : ∀ ns m' m'', run w.handler (addrs n pid ns) m' = (o, m'') →
      run w.handler (setAddrsIn n pid enable_threads ns) m' = (.ok r, m'')) :
    run w.handler (setAddrs n pid enable_threads) m = (.ok r, { m with files := closed }) := by
  obtain ⟨ns, opened, searched, hns, haddrs, hdestroy⟩ := h
  have hrun := run_files (only_addrs n pid ns) (m := { m with files := opened }) haddrs
  have hattempt := run_attempt w.handler (setAddrsIn n pid enable_threads ns) { m with files := opened }
  rw [hin ns _ _ hrun] at hattempt
  have hclose := run_files (ns.only_destroy n) (m := { m with files := searched }) hdestroy
  refine (run_bind_ok _ (run_files (Namespace.only_ofPid n pid) hns) _).trans ?_
  exact (run_bind_ok _ hattempt _).trans ((run_bind_ok _ hclose _).trans rfl)

/-- An attempt in vain. -/
theorem Tries.system_detectABI_none {m : Moment φ} {closed : φ} {what : Bytes}
    (h : w.Tries n cfg.pid m.files (.error (.symbol what)) closed) :
    w.system headers n (.detectABI cfg.pid cfg.enable_threads cfg.abi) m =
      (.ok none, { m with files := closed }) := by
  have hset : run w.handler (setAddrs n cfg.pid cfg.enable_threads) m =
      (.ok none, { m with files := closed }) := by
    refine h.run_setAddrs fun ns m' m'' haddrs => ?_
    have hattempt := run_attempt w.handler (addrs n cfg.pid ns) m'
    rw [haddrs] at hattempt
    exact (run_bind_ok _ hattempt _).trans rfl
  have hrun : run w.handler (detectABI n cfg.pid cfg.enable_threads cfg.abi) m =
      (.ok none, { m with files := closed }) := (run_bind_ok _ hset _).trans rfl
  have hattempt := run_attempt w.handler (detectABI n cfg.pid cfg.enable_threads cfg.abi) m
  rw [hrun] at hattempt
  exact Handler.via_ok hattempt

/-- The one that finds the symbols. -/
theorem Tries.system_detectABI_some {m : Moment φ} {closed : φ} {abi : PyABI}
    (h : w.Tries n cfg.pid m.files (.ok (abi, w.found.2)) closed)
    (habi : w.found.1 = if cfg.abi = .unknown then abi else cfg.abi) (hcomplete : w.Complete cfg) :
    w.system headers n (.detectABI cfg.pid cfg.enable_threads cfg.abi) m =
      (.ok (some w.found), { m with files := closed }) := by
  have hset : run w.handler (setAddrs n cfg.pid cfg.enable_threads) m =
      (.ok (some (abi, w.found.2)), { m with files := closed }) := by
    refine h.run_setAddrs fun ns m' m'' haddrs => ?_
    have hattempt := run_attempt w.handler (addrs n cfg.pid ns) m'
    rw [haddrs] at hattempt
    refine (run_bind_ok _ hattempt _).trans ?_
    simp only [callInterpHead, if_neg hcomplete.head]
    rfl
  have hrun : run w.handler (detectABI n cfg.pid cfg.enable_threads cfg.abi) m =
      (.ok (some w.found), { m with files := closed }) := by
    refine (run_bind_ok _ hset _).trans ?_
    simp only [← habi, if_neg hcomplete.known, hcomplete.located, Bool.false_eq_true, if_false]
    rfl
  have hattempt := run_attempt w.handler (detectABI n cfg.pid cfg.enable_threads cfg.abi) m
  rw [hrun] at hattempt
  exact Handler.via_ok hattempt

theorem run_detectABI_scene {m m' : Moment φ} {found : Option (PyABI × PyAddresses)}
    (h : w.system headers n (.detectABI cfg.pid cfg.enable_threads cfg.abi) m = (.ok found, m')) :
    run (w.system headers n) (invoke (.detectABI cfg.pid cfg.enable_threads cfg.abi)) m =
      (.ok (.ok found), m') :=
  congrArg (fun r => (Outcome.ok r.1, r.2)) h

/-- The target is let run for an interval, and stopped again. -/
theorem run_findSymbolsStep_scene {i : ℕ} {start closed : φ} {what : Bytes}
    (h : w.Tries (n + 1) cfg.pid start (.error (.symbol what)) closed) (hi : i < w.late)
    (hmax : w.late < cfg.maxRetries) (hruns : w.exits ≠ some 0) :
    run (w.system headers (n + 1)) (findSymbolsStep cfg i)
      { files := start, stops := i + 1, seized := true } =
        (.ok (.inl (i + 1)),
          { files := (w.files (.sleepFor cfg.interval) closed).2, stops := i + 2,
            seized := true }) := by
  have hdetect : run (w.system headers (n + 1))
      (invoke (.detectABI cfg.pid cfg.enable_threads cfg.abi))
      { files := start, stops := i + 1, seized := true } =
        (.ok (.ok none), { files := closed, stops := i + 1, seized := true }) :=
    run_detectABI_scene h.system_detectABI_none
  have hstop : w.exits ≠ some (i + 1 - w.late) := by
    rwa [Nat.sub_eq_zero_of_le hi]
  have hinterrupt (f : φ) : run (w.system headers (n + 1)) (invoke (.ptraceInterrupt cfg.pid))
      { files := f, stops := i + 1, seized := true } =
        (.ok (.ok ()), { files := f, stops := i + 2, seized := true }) :=
    congrArg (fun r => (Outcome.ok r.1, r.2)) (system_ptraceInterrupt_stopped cfg.pid
      (m := { files := f, stops := i + 1, seized := true }) rfl hstop rfl)
  have hagain : ¬ cfg.maxRetries ≤ i + 1 := by omega
  refine (run_bind_ok _ hdetect _).trans ?_
  show run _ (if cfg.maxRetries ≤ i + 1 then _ else _) _ = _
  rw [if_neg hagain]
  exact (run_bind_ok _ (hinterrupt _) _).trans rfl

/-- `FindSymbols`, after `i` attempts. -/
theorem Finds.run_findSymbols {k i fuel : ℕ} {start : φ} (h : w.Finds (n + 1) cfg k start)
    (hlate : i + k = w.late) (hmax : w.late < cfg.maxRetries) (hfuel : k < fuel)
    (hruns : w.exits ≠ some 0) (hcomplete : w.Complete cfg) :
    ∃ f, run (w.system headers (n + 1)) (Prog.forever (findSymbolsStep cfg) fuel i)
      { files := start, stops := i + 1, seized := true } =
        (.ok (some w.found), { files := f, stops := w.late + 1, seized := true }) := by
  obtain ⟨fuel, rfl⟩ := Nat.exists_eq_succ_of_ne_zero (show fuel ≠ 0 by omega)
  induction h generalizing i fuel with
  | @now start closed abi htries habi =>
      obtain rfl : i = w.late := hlate
      have hdetect : run (w.system headers (n + 1))
          (invoke (.detectABI cfg.pid cfg.enable_threads cfg.abi))
          { files := start, stops := w.late + 1, seized := true } =
            (.ok (.ok (some w.found)), { files := closed, stops := w.late + 1, seized := true }) :=
        run_detectABI_scene (htries.system_detectABI_some habi hcomplete)
      have hstep : run (w.system headers (n + 1)) (findSymbolsStep cfg w.late)
          { files := start, stops := w.late + 1, seized := true } =
            (.ok (.inr (some w.found)), { files := closed, stops := w.late + 1, seized := true }) :=
        (run_bind_ok _ hdetect _).trans rfl
      exact ⟨closed, (run_bind_ok _ hstep _).trans rfl⟩
  | @later k start closed what htries hnext ih =>
      obtain ⟨fuel, rfl⟩ := Nat.exists_eq_succ_of_ne_zero (show fuel ≠ 0 by omega)
      obtain ⟨f, hrest⟩ := ih (i := i + 1) (by omega) fuel (by omega)
      have hi : i < w.late := by omega
      exact ⟨f, (run_bind_ok _ (run_findSymbolsStep_scene htries hi hmax hruns) _).trans hrest⟩

/-! ### What `Run` calls -/

/-- As often read, and as often stopped. What has exited is not stopped again. -/
structure Agrees (w : Scene φ) (m : Moment φ) (c : Course) : Prop where
  course : c = { attempts := w.late + 1, readings := m.readings, stops := w.stop m }
  late : w.late ≤ m.stops
  seized : m.seized = true
  exited : m.exited = true → w.exits = some (w.stop m)

/-- The calls that are made once the symbols are found. -/
def Calls (w : Scene φ) (cfg : Settings) (c : Call) : Prop :=
  c.Runs cfg w.found ∨ c = .ptraceCleanup cfg.pid

/-- What is called once the symbols are found does over the system what it does over the
timeline. `PtraceCleanup` has nothing to clean up but the tracing. -/
theorem simulates_runs :
    Simulates (w.system headers (n + 1)) (w.toTimeline.handler headers (n + 1)) w.Agrees
      (w.Calls cfg) := by
  rintro c hc m _ hagrees
  obtain ⟨rfl, hlate, hseized, hexited⟩ := id hagrees
  obtain hc | rfl := hc
  · cases hc with
    | getThreads =>
        rw [system_getThreads]
        exact ⟨rfl, hagrees⟩
    | ptraceInterrupt =>
        have htimeline : w.toTimeline.handler headers (n + 1) (.ptraceInterrupt cfg.pid)
            { attempts := w.late + 1, readings := m.readings, stops := w.stop m } =
              w.toTimeline.interrupt cfg.pid
                { attempts := w.late + 1, readings := m.readings, stops := w.stop m } := rfl
        rw [htimeline, Timeline.interrupt, if_neg (Nat.not_succ_le_self w.late)]
        by_cases hexits : w.exits = some (w.stop m)
        · rw [system_ptraceInterrupt_exits cfg.pid hseized hexits, if_pos hexits]
          exact ⟨rfl, rfl, hlate, hseized, fun _ => hexits⟩
        · have hrunning : m.exited = false := Bool.eq_false_iff.mpr fun h => hexits (hexited h)
          rw [system_ptraceInterrupt_stopped cfg.pid hseized hexits hrunning, if_neg hexits]
          refine ⟨rfl, ?_, Nat.le_succ_of_le hlate, hseized, fun h => ?_⟩
          · rw [stop, stop, Nat.succ_sub hlate]
          · exact absurd (hrunning.symm.trans h) Bool.false_ne_true
    | now => exact ⟨rfl, rfl, hlate, hseized, hexited⟩
    | ptraceCont | openOutput => exact ⟨rfl, hagrees⟩
    | cerr | sleepFor => exact ⟨rfl, rfl, hlate, hseized, hexited⟩
  · exact ⟨rfl, hagrees⟩

/-! ### Runs of `main` -/

/-- The target is stopped for the first time. -/
theorem run_initiatePtrace_scene {fuel : ℕ} (hstart : w.Starts cfg) (hruns : w.exits ≠ some 0)
    (f : φ) :
    run (w.system headers (n + 1)) (initiatePtrace (fuel + 1) cfg) { files := f } =
      (.ok (some (w.targeted cfg)), { files := f, stops := 1, seized := true }) := by
  have hinterrupt (pid : Pid) : run (w.system headers (n + 1)) (invoke (.ptraceInterrupt pid))
      { files := f, seized := true } = (.ok (.ok ()), { files := f, stops := 1, seized := true }) := by
    have hstop : w.exits ≠ some (0 - w.late) := by rwa [Nat.zero_sub]
    exact congrArg (fun r => (Outcome.ok r.1, r.2))
      (system_ptraceInterrupt_stopped pid (m := { files := f, seized := true }) rfl hstop rfl)
  unfold initiatePtrace Timeline.targeted
  cases htrace : cfg.trace with
  | false =>
      have hseize : run (w.system headers (n + 1)) (invoke (.ptraceSeize cfg.pid)) { files := f } =
          (.ok (.ok ()), { files := f, seized := true }) := rfl
      exact (run_bind_ok _ hseize _).trans ((run_bind_ok _ (hinterrupt cfg.pid) _).trans rfl)
  | true =>
      have hfork : run (w.system headers (n + 1)) (invoke .fork) { files := f } =
          (.ok (.ok w.child), { files := f }) := rfl
      have hwait : run (w.system headers (n + 1)) (invoke (.waitpid 0 0)) { files := f } =
          (.ok (.ok (w.child, 0x4057f)), { files := f }) := rfl
      have hexec : run (w.system headers (n + 1)) (Prog.forever awaitExecStep (fuel + 1) ())
          { files := f } = (.ok 0, { files := f }) := rfl
      have hseize : run (w.system headers (n + 1)) (invoke (.ptraceSeize w.child)) { files := f } =
          (.ok (.ok ()), { files := f, seized := true }) := rfl
      simp only [if_true, hstart.named htrace, if_false]
      refine (run_bind_ok _ hfork _).trans ?_
      simp only [hstart.child htrace, if_false, traceChild]
      refine (run_bind_ok _ hwait _).trans ?_
      simp only [ne_eq, not_true_eq_false, if_false]
      refine (run_bind_ok _ hexec _).trans ((run_bind_ok _ hseize _).trans ?_)
      exact (run_bind_ok _ (hinterrupt w.child) _).trans rfl

/-- **The system as a timeline.** Where the symbols are found in the files of the target, `main`
ends over the system calls as it does over the timeline, whether it is attached to the target or
runs it, and whatever is in memory at the stops. -/
theorem main_scene (w : Scene φ) (headers : PyABI → Headers) (std : StdLib) (fuel n : ℕ)
    (cfg : Settings) (start : φ) (h : w.Shows (n + 1) cfg start) (hfuel : w.late ≤ fuel) :
    (run (w.system headers (n + 1)) (main std (fuel + 1) cfg) { files := start }).1 =
      (run (w.toTimeline.handler headers (n + 1)) (main std (fuel + 1) cfg) {}).1 := by
  have hmax : w.late < (w.targeted cfg).maxRetries := by
    rw [Timeline.maxRetries_targeted]
    exact h.starts.late
  have hcomplete : w.Complete (w.targeted cfg) := by
    refine ⟨h.complete.known, h.complete.located, ?_⟩
    rw [Timeline.enable_threads_targeted]
    exact h.complete.head
  obtain ⟨f, hfind⟩ : ∃ f, run (w.system headers (n + 1)) (findSymbols (fuel + 1) (w.targeted cfg))
      { files := start, stops := 1, seized := true } =
        (.ok (some w.found), { files := f, stops := w.late + 1, seized := true }) := by
    obtain ⟨f, hloop⟩ := h.finds.run_findSymbols (i := 0) (Nat.zero_add _) hmax
      (Nat.lt_succ_of_le hfuel) h.runs hcomplete
    exact ⟨f, run_handle_ok _ hloop _⟩
  have htimeline : run (w.toTimeline.handler headers (n + 1))
      (findSymbols (fuel + 1) (w.targeted cfg)) { stops := 1 } =
        (.ok (some w.found), w.toTimeline.located) :=
    run_handle_ok _ (Timeline.run_findSymbols_timeline hmax (Nat.zero_le _) (by omega)) _
  have hcalls : ((runProber std (fuel + 1) (w.targeted cfg) w.found).bind fun result =>
      (invoke (.ptraceCleanup (w.targeted cfg).pid)).bind fun _ =>
        (.ret result : Driver (Printed × ℕ))).Only (w.Calls (w.targeted cfg)) :=
    ((calls_runProber std w.found).mono fun _ => .inl).bind fun result =>
      .bind (.ask (.inr rfl)) fun _ => trivial
  have hagrees : w.Agrees { files := f, stops := w.late + 1, seized := true } w.toTimeline.located := by
    refine ⟨?_, Nat.le_succ _, rfl, nofun⟩
    rw [Timeline.located, stop, Nat.add_sub_cancel_left]
  unfold main
  rw [Prog.bind_eq, run_bind_ok _ (run_initiatePtrace_scene h.starts h.runs start),
    run_bind_ok _ h.starts.run_initiatePtrace]
  show (run _ (profile std (fuel + 1) (w.targeted cfg)) _).1 =
    (run _ (profile std (fuel + 1) (w.targeted cfg)) _).1
  unfold profile
  rw [Prog.bind_eq, run_bind_ok _ hfind, run_bind_ok _ htimeline]
  exact (simulates_runs.run hcalls hagrees).1

/-- The two threads, in a process that was loaded from `textFirst`. -/
def textFirstScene : Scene (ℤ → Bytes) where
  clock k := 10000000 * k
  memory _ := pokeWord twoThreads 0x555555555234 0x2000
  found := (.py26, { tstate_addr := 0x555555555234, pie := true })
  current _ := 0x2000
  threads := Timeline.steady.threads
  files := (smallDisk 5 6).handler 1

theorem main_scene_textFirst :
    (run (textFirstScene.system (fun _ => py27) 9)
      (main plainLib 1 { pid := 1, abi := .py26, dump := true }) { files := fun _ => [] }).1 =
      .ok (⟨[text "7*:\n", text "a.py:f:3\n", text "a.py:main:9\n"], []⟩, 0) := by
  have haddrs : (run ((smallDisk 5 6).handler 1) (addrs 9 1 {}) fun _ => []).1 =
      .ok (.unknown, { tstate_addr := 0x555555555234, pie := true }) := by decide +kernel
  generalize hrun : run ((smallDisk 5 6).handler 1) (addrs 9 1 {}) (fun _ => []) = r at haddrs
  obtain ⟨_, searched⟩ := r
  obtain rfl := haddrs
  have hfinds : textFirstScene.Finds 9 { pid := 1, abi := .py26, dump := true } 0 fun _ => [] :=
    .now ⟨{}, fun _ => [], searched, by rfl, hrun, rfl⟩ rfl
  have hshows : textFirstScene.Shows 9 { pid := 1, abi := .py26, dump := true } fun _ => [] :=
    ⟨⟨by decide, nofun, nofun⟩, by decide, ⟨by decide, by decide, by decide⟩, hfinds⟩
  refine (main_scene textFirstScene (fun _ => py27) plainLib 0 8 _ _ hshows (Nat.zero_le 0)).trans ?_
  decide +kernel

end Scene

end Pyflame
