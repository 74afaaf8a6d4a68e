import Pyflame.Counts
import Pyflame.Current
import Pyflame.Decode
import Pyflame.Dump
import Mathlib.Data.Set.Finite.List
import Mathlib.Order.Filter.Finite

/-!
From the memory of the target to the report.

A timeline says what the target's memory holds each time it is stopped, what the
clock shows each time it is read, and when the target ends. As long as nothing
fails, what `main` prints is determined by that: the stacks that are in memory at
each of the stops up to the one after which the next would come too late, or does
not come.
-/

namespace Pyflame

open Interaction UnorderedMap Filter

/-- The target over time, from the stop at which its symbols are found. The `k`th stop and the
`k`th reading of the clock belong together; reading 0 is that of the start. -/
structure Timeline where
  clock : ℕ → Time
  memory : ℕ → Memory
  /-- What `DetectABI` finds, and how often it is called before that in vain. -/
  found : PyABI × PyAddresses
  late : ℕ := 0
  /-- The current thread state at a stop, and the thread states that can be walked to. -/
  current : ℕ → Word
  threads : ℕ → List ThreadState
  /-- The last stop of a target that exits. -/
  exits : Option ℕ := none
  /-- The PID of a target that is forked. -/
  child : Pid := 1

/-- How far a run has come: how often `DetectABI` has been called, the clock has been read, and
the target has been stopped. -/
structure Course where
  attempts : ℕ := 0
  readings : ℕ := 0
  stops : ℕ := 0
  deriving DecidableEq

namespace Timeline

variable (T : Timeline) (headers : PyABI → Headers)

/-- What a call replies that is made of a program that is not expected to fail. -/
def reply {α : Type} : Outcome Exception α → Except Exception α
  | .ok a => .ok a
  | .error e => .error e
  | .abort | .cut => .error (.other [])

/-- What is thrown when it has exited. -/
def exitOf (pid : Pid) : Exception :=
  .terminate (text "Child process " ++ signedDecimal pid ++ text " exited with status 0")

/-- A target is stopped, unless its symbols have been found and it exits. -/
def interrupt (pid : Pid) (c : Course) : Except Exception Unit × Course :=
  if c.attempts ≤ T.late then
    (.ok (), { c with stops := 1 })
  else if T.exits = some c.stops then
    (.error (exitOf pid), c)
  else
    (.ok (), { c with stops := c.stops + 1 })

/-- The calls of `main` on this target. A target that is forked calls `exec` at once. -/
def handler (n : ℕ) : Handler calls Course
  | .now, c => (T.clock c.readings, { c with readings := c.readings + 1 })
  | .ptraceInterrupt pid, c => T.interrupt pid c
  | .getThreads pid abi addrs enable_threads, c =>
      (reply (run (answer (image (T.memory c.stops)))
        (Pyflame.getThreads (headers abi) n pid addrs enable_threads) ()).1, c)
  | .detectABI _ _ _, c =>
      (.ok (if c.attempts < T.late then none else some T.found),
        { c with attempts := c.attempts + 1 })
  | .ptraceTraceme, c | .ptraceSetOptions _ _, c | .ptraceCont _, c | .ptraceDetach _, c
  | .ptraceSeize _, c => (.ok (), c)
  | .ptraceCleanup _, c | .sleepFor _, c | .cerr _, c => ((), c)
  | .openOutput _, c => (true, c)
  | .fork, c => (.ok T.child, c)
  | .waitpid _ _, c => (.ok (T.child, 0x4057f), c)
  | .execvp _ _, c => ([], c)

/-- The settings once the target is known. -/
def targeted (cfg : Settings) : Settings := if cfg.trace then { cfg with pid := T.child } else cfg

/-- `main` gets to sample the target: where it is to be forked, it is, and its symbols are found
before `FindSymbols` gives up. -/
structure Starts (cfg : Settings) : Prop where
  late : T.late < cfg.maxRetries
  named : cfg.trace = true → ¬ text "pyflame" <:+ cfg.trace_target
  child : cfg.trace = true → T.child ≠ 0

/-- At each of the first stops the thread list is finite and can be read. -/
def Readable (last : ℕ) : Prop :=
  ∀ k ∈ List.range' 1 last,
    Walked (headers T.found.1) (T.memory k) T.found.2 (T.current k) (T.threads k)

/-- What should be sampled at a stop: every thread that has a frame, or the current one. -/
def sampled (enable_threads : Bool) (k : ℕ) : List Thread :=
  (sampleThreads (T.current k) (T.threads k)).filter fun t => enable_threads || t.is_current

/-- This stop is the last: the next would come too late, or the target exits before it. -/
def Over (cfg : Prober) (k : ℕ) : Prop :=
  pastEnd cfg (endTime cfg (T.clock 0)) (T.clock k) = true ∨ T.exits = some k

instance (cfg : Prober) (k : ℕ) : Decidable (T.Over cfg k) := inferInstanceAs (Decidable (_ ∨ _))

/-- The first of the last stops. -/
structure EndsAt (cfg : Prober) (last : ℕ) : Prop where
  pos : 0 < last
  isOver : T.Over cfg last
  before : ∀ k, 0 < k → k < last → ¬ T.Over cfg k

/-- What the stops contribute. -/
def entries (cfg : Settings) (ks : List ℕ) : List Entry :=
  ks.flatMap fun k => recorded cfg.toProber (T.clock k) (T.sampled cfg.enable_threads k)

/-! ### Samples -/

section

variable {T headers} {cfg : Settings} {pid : Pid} {last n : ℕ}

theorem eventually_getThreads {H : Headers} {m : Memory} {addrs : PyAddresses} {current : Word}
    {ts : List ThreadState} (h : Walked H m addrs current ts) (pid : Pid) (enable_threads : Bool) :
    ∀ᶠ n in atTop, (run (answer (image m)) (Pyflame.getThreads H n pid addrs enable_threads) ()).1 =
      .ok ((sampleThreads current ts).filter fun t => enable_threads || t.is_current) := by
  cases enable_threads with
  | true =>
      obtain ⟨head, hhead, hchain⟩ := h.list
      filter_upwards [yields_walkThreads pid hchain h.threads current,
        eventually_gt_atTop ts.length] with n hwalk hn
      have hrun : Yields m (Pyflame.getThreads H n pid addrs true) (sampleThreads current ts) :=
        (yields_peek h.tstate).bind ((yields_firstThread_enabled hhead).bind (hwalk n [] hn))
      simpa using congrArg Prod.fst hrun
  | false =>
      filter_upwards [yields_unthreaded pid h] with n hrun
      rw [← sampleThreads_filter] at hrun
      simpa using congrArg Prod.fst hrun

/-- With enough passes for each of the stops, `GetThreads` returns what should be sampled. -/
theorem Readable.eventually (h : T.Readable headers last) (pid : Pid) (enable_threads : Bool) :
    ∀ᶠ n in atTop, ∀ k ∈ List.range' 1 last, ∀ c : Course, c.stops = k →
      T.handler headers n (.getThreads pid T.found.1 T.found.2 enable_threads) c =
        (.ok (T.sampled enable_threads k), c) := by
  refine (eventually_all_finite (List.finite_toSet (List.range' 1 last))).mpr fun k hk => ?_
  filter_upwards [eventually_getThreads (h k hk) pid enable_threads] with n hn c hc
  simp only [handler, hc, hn, reply]
  rfl

/-! ### The loop -/

/-- The samples of this stop are the next to be taken. -/
def Takes (T : Timeline) (headers : PyABI → Headers) (cfg : Settings) (n k : ℕ) : Prop :=
  ∀ c : Course, c.stops = k →
    T.handler headers n (.getThreads cfg.pid T.found.1 T.found.2 cfg.enable_threads) c =
      (.ok (T.sampled cfg.enable_threads k), c)

/-- Before the iteration at the `k`th stop. -/
def sampling (T : Timeline) (k : ℕ) : Course := { attempts := T.late + 1, readings := k, stops := k }

/-- After the reading that goes with it. -/
def read (T : Timeline) (k : ℕ) : Course := { T.sampling k with readings := k + 1 }

theorem run_now_sampling {k : ℕ} :
    run (T.handler headers n) (invoke .now) (T.sampling k) = (.ok (T.clock k), T.read k) := rfl

theorem Takes.run_frobberThreads {k : ℕ} (h : Takes T headers cfg n k) :
    run (T.handler headers n) (frobberThreads cfg T.found) (T.read k) =
      (.ok (.ok (T.sampled cfg.enable_threads k)), T.read k) :=
  congrArg (fun r => (Outcome.ok r.1, r.2)) (h (T.read k) rfl)

/-- The symbols have been found. -/
theorem interrupt_read (k : ℕ) : T.interrupt pid (T.read k) =
    if T.exits = some k then (.error (exitOf pid), T.read k)
    else (.ok (), T.sampling (k + 1)) := by
  have hfound : ¬ (T.read k).attempts ≤ T.late := Nat.not_succ_le_self T.late
  rw [interrupt, if_neg hfound]
  rfl

/-- The iteration at the last stop. -/
theorem Over.run_probeIteration {k : ℕ} (hover : T.Over cfg.toProber k)
    (h : Takes T headers cfg n k) (s : Samples) :
    run (T.handler headers n)
      (probeIteration cfg.toProber (loopCalls cfg T.found) (endTime cfg.toProber (T.clock 0)) s)
      (T.sampling k) =
        (.ok (s.record cfg.toProber (T.clock k) (T.sampled cfg.enable_threads k), .finish 0),
          T.read k) := by
  refine (run_bind_ok _ run_now_sampling _).trans ((run_bind_ok _ h.run_frobberThreads _).trans ?_)
  by_cases hpast : pastEnd cfg.toProber (endTime cfg.toProber (T.clock 0)) (T.clock k) = true
  · simp only [hpast, if_true]
    rfl
  · have hinterrupt : run (T.handler headers n) (invoke (.ptraceInterrupt cfg.pid)) (T.read k) =
        (.ok (.error (exitOf cfg.pid)), T.read k) := by
      have hcall : T.interrupt cfg.pid (T.read k) = _ :=
        (interrupt_read k).trans (if_pos (hover.resolve_left hpast))
      exact congrArg (fun r => (Outcome.ok r.1, r.2)) hcall
    simp only [hpast, Bool.false_eq_true, if_false]
    exact (run_bind_ok _ hinterrupt _).trans rfl

/-- The iteration at another stop. -/
theorem run_probeIteration_again {k : ℕ} (hover : ¬ T.Over cfg.toProber k)
    (h : Takes T headers cfg n k) (s : Samples) :
    run (T.handler headers n)
      (probeIteration cfg.toProber (loopCalls cfg T.found) (endTime cfg.toProber (T.clock 0)) s)
      (T.sampling k) =
        (.ok (s.record cfg.toProber (T.clock k) (T.sampled cfg.enable_threads k), .again),
          T.sampling (k + 1)) := by
  obtain ⟨hpast, hexits⟩ := not_or.mp hover
  refine (run_bind_ok _ run_now_sampling _).trans ((run_bind_ok _ h.run_frobberThreads _).trans ?_)
  have hinterrupt : run (T.handler headers n) (invoke (.ptraceInterrupt cfg.pid)) (T.read k) =
      (.ok (.ok ()), T.sampling (k + 1)) :=
    congrArg (fun r => (Outcome.ok r.1, r.2)) ((interrupt_read k).trans (if_neg hexits))
  simp only [hpast, Bool.false_eq_true, if_false]
  exact (run_bind_ok _ hinterrupt _).trans rfl

/-- How the loop goes on after an iteration that took these samples. -/
def after (s : Samples) : Next → Samples ⊕ (Samples × ℕ)
  | .again => .inl s
  | .finish return_code => .inr (s, return_code)

theorem run_probeLoopOverStep {S : Signature} {σ : Type} {h : Handler S σ}
    {cs : Calls (Prog S Exception)} {prober : Prober} {finish : Time} {s s' : Samples} {r r' : σ}
    {next : Next} (hpass : run h (probeIteration prober cs finish s) r = (.ok (s', next), r')) :
    run h (probeLoopOverStep prober cs finish s) r = (.ok (after s' next), r') := by
  refine (run_bind_ok _ hpass _).trans ?_
  cases next <;> rfl

/-- The loop from the `k`th stop on, with the entries before it. -/
theorem run_probeLoop_timeline {k m : ℕ} (hend : T.EndsAt cfg.toProber last)
    (htakes : ∀ k ∈ List.range' 1 last, Takes T headers cfg n k) (hpos : 0 < k) (hk : k ≤ last)
    (hm : last - k < m) (es : List Entry) :
    run (T.handler headers n)
      (Prog.forever (probeLoopOverStep cfg.toProber (loopCalls cfg T.found)
        (endTime cfg.toProber (T.clock 0))) m (samplesOf cfg.include_ts es)) (T.sampling k) =
      (.ok (samplesOf cfg.include_ts (es ++ T.entries cfg (List.range' k (last + 1 - k))), 0),
        T.read last) := by
  induction m generalizing k es with
  | zero => omega
  | succ m ih =>
      have htake := htakes k (List.mem_range'_1.mpr ⟨hpos, by omega⟩)
      have hentries : T.entries cfg (List.range' k (last + 1 - k)) =
          recorded cfg.toProber (T.clock k) (T.sampled cfg.enable_threads k) ++
            T.entries cfg (List.range' (k + 1) (last - k)) := by
        rw [show last + 1 - k = (last - k) + 1 by omega, List.range'_succ, entries, List.flatMap_cons]
        rfl
      by_cases hlast : k = last
      · subst hlast
        have hpass := hend.isOver.run_probeIteration htake (samplesOf cfg.include_ts es)
        rw [Samples.record_samplesOf] at hpass
        refine (run_bind_ok _ (run_probeLoopOverStep hpass) _).trans ?_
        rw [hentries, Nat.sub_self, entries, List.range'_zero, List.flatMap_nil, List.append_nil]
        rfl
      · have hpass := run_probeIteration_again (hend.before k hpos (by omega)) htake
          (samplesOf cfg.include_ts es)
        rw [Samples.record_samplesOf] at hpass
        have hrest := ih (Nat.succ_pos k) (show k + 1 ≤ last by omega) (by omega)
          (es ++ recorded cfg.toProber (T.clock k) (T.sampled cfg.enable_threads k))
        refine (run_bind_ok _ (run_probeLoopOverStep hpass) _).trans ?_
        rw [hentries, ← List.append_assoc, ← Nat.add_sub_add_right last 1 k]
        exact hrest

/-! ### Runs of `main` -/

/-- The target is stopped for the first time. -/
theorem Starts.run_initiatePtrace {fuel : ℕ} (h : T.Starts cfg) :
    run (T.handler headers n) (initiatePtrace (fuel + 1) cfg) {} =
      (.ok (some (T.targeted cfg)), { stops := 1 }) := by
  unfold initiatePtrace targeted
  cases htrace : cfg.trace with
  | false => rfl
  | true =>
      have hfork : run (T.handler headers n) (invoke .fork) {} = (.ok (.ok T.child), {}) := rfl
      have hwait : run (T.handler headers n) (invoke (.waitpid 0 0)) {} =
        (.ok (.ok (T.child, 0x4057f)), {}) := rfl
      simp only [if_true, h.named htrace, if_false]
      refine (run_bind_ok _ hfork _).trans ?_
      simp only [h.child htrace, if_false, traceChild]
      refine (run_bind_ok _ hwait _).trans ?_
      simp only [ne_eq, not_true_eq_false, if_false]
      rfl

/-- The symbols have just been found. -/
def located (T : Timeline) : Course := { attempts := T.late + 1, stops := 1 }

theorem run_detectABI_timeline {i : ℕ} :
    run (T.handler headers n) (invoke (.detectABI cfg.pid cfg.enable_threads cfg.abi))
      { attempts := i, stops := 1 } =
        (.ok (.ok (if i < T.late then none else some T.found)), { attempts := i + 1, stops := 1 }) :=
  rfl

/-- An attempt in vain. -/
theorem run_findSymbolsStep_late {i : ℕ} (hi : i < T.late) (hmax : T.late < cfg.maxRetries) :
    run (T.handler headers n) (findSymbolsStep cfg i) { attempts := i, stops := 1 } =
      (.ok (.inl (i + 1)), { attempts := i + 1, stops := 1 }) := by
  have hstop : run (T.handler headers n) (invoke (.ptraceInterrupt cfg.pid))
      { attempts := i + 1, stops := 1 } = (.ok (.ok ()), { attempts := i + 1, stops := 1 }) := by
    have hcall : T.interrupt cfg.pid { attempts := i + 1, stops := 1 } = _ :=
      if_pos (Nat.succ_le_of_lt hi)
    exact congrArg (fun r => (Outcome.ok r.1, r.2)) hcall
  refine (run_bind_ok _ run_detectABI_timeline _).trans ?_
  rw [if_pos hi]
  have hagain : ¬ cfg.maxRetries ≤ i + 1 := by omega
  show run _ (if cfg.maxRetries ≤ i + 1 then _ else _) _ = _
  rw [if_neg hagain]
  exact (run_bind_ok _ hstop _).trans rfl

/-- The attempts in vain, and the one that finds the symbols. -/
theorem run_findSymbols_timeline {m i : ℕ} (hmax : T.late < cfg.maxRetries) (hi : i ≤ T.late)
    (hm : T.late - i < m) :
    run (T.handler headers n) (Prog.forever (findSymbolsStep cfg) m i)
      { attempts := i, stops := 1 } = (.ok (some T.found), T.located) := by
  induction m generalizing i with
  | zero => omega
  | succ m ih =>
      by_cases hlate : i < T.late
      · refine (run_bind_ok _ (run_findSymbolsStep_late hlate hmax) _).trans ?_
        exact ih hlate (by omega)
      · obtain rfl : i = T.late := by omega
        have hstep : run (T.handler headers n) (findSymbolsStep cfg T.late)
            { attempts := T.late, stops := 1 } = (.ok (.inr (some T.found)), T.located) := by
          refine (run_bind_ok _ run_detectABI_timeline _).trans ?_
          rw [if_neg hlate]
          rfl
        exact (run_bind_ok _ hstep _).trans rfl

theorem run_haveOutput {c : Course} : run (T.handler headers n) (haveOutput cfg) c = (.ok true, c) := by
  unfold haveOutput
  split_ifs <;> rfl

theorem maxRetries_targeted : (T.targeted cfg).maxRetries = cfg.maxRetries := by
  unfold targeted
  split_ifs <;> rfl

/-- What is returned is what `Run` returns. -/
theorem Starts.run_main {fuel : ℕ} (std : StdLib) (hstart : T.Starts cfg) (hfuel : T.late ≤ fuel)
    {result : Printed × ℕ}
    (h : ∃ c, run (T.handler headers n) (runProber std (fuel + 1) (T.targeted cfg) T.found)
      T.located = (.ok result, c)) :
    (run (T.handler headers n) (main std (fuel + 1) cfg) {}).1 = .ok result := by
  have hfind : run (T.handler headers n) (findSymbols (fuel + 1) (T.targeted cfg)) { stops := 1 } =
      (.ok (some T.found), T.located) := by
    refine run_handle_ok _ (run_findSymbols_timeline ?_ (Nat.zero_le _) (by omega)) _
    rw [maxRetries_targeted]
    exact hstart.late
  obtain ⟨c, hrun⟩ := h
  have hprofile : run (T.handler headers n) (profile std (fuel + 1) (T.targeted cfg)) { stops := 1 } =
      (.ok result, c) := by
    unfold profile
    rw [Prog.bind_eq, run_bind_ok _ hfind]
    exact (run_bind_ok _ hrun _).trans rfl
  unfold main
  rw [Prog.bind_eq, run_bind_ok _ hstart.run_initiatePtrace]
  exact congrArg Prod.fst hprofile

/-- `Run` reports what should be sampled. -/
theorem run_runProber_timeline {fuel : ℕ} (std : StdLib) (hdump : cfg.dump = false)
    (hend : T.EndsAt cfg.toProber last) (htakes : ∀ k ∈ List.range' 1 last, Takes T headers cfg n k)
    (hfuel : last < fuel) :
    run (T.handler headers n) (runProber std fuel cfg T.found) T.located =
      (.ok (report std cfg.toProber
        (samplesOf cfg.include_ts (T.entries cfg (List.range' 1 last))), 0), T.read last) := by
  have hnow : run (T.handler headers n) (invoke .now) T.located = (.ok (T.clock 0), T.sampling 1) := rfl
  have hloop := run_probeLoop_timeline (m := fuel) hend htakes Nat.one_pos hend.pos (by omega) []
  unfold runProber
  rw [Prog.bind_eq, run_bind_ok _ run_haveOutput, hdump]
  refine (run_bind_ok _ hnow _).trans ((run_bind_ok _ hloop _).trans ?_)
  rw [List.nil_append, Nat.add_sub_cancel]
  rfl

/-- Which process is the target makes no difference to the rest. -/
theorem EndsAt.targeted (h : T.EndsAt cfg.toProber last) :
    T.EndsAt (T.targeted cfg).toProber last := by
  unfold Timeline.targeted
  split_ifs
  · exact ⟨h.pos, h.isOver, h.before⟩
  · exact h

theorem report_targeted (std : StdLib) (ks : List ℕ) :
    report std (T.targeted cfg).toProber
        (samplesOf (T.targeted cfg).include_ts (T.entries (T.targeted cfg) ks)) =
      report std cfg.toProber (samplesOf cfg.include_ts (T.entries cfg ks)) := by
  unfold targeted
  split_ifs <;> rfl

theorem dump_targeted : (T.targeted cfg).dump = cfg.dump := by
  unfold targeted
  split_ifs <;> rfl

theorem enable_threads_targeted : (T.targeted cfg).enable_threads = cfg.enable_threads := by
  unfold targeted
  split_ifs <;> rfl

/-- What is printed is the report on what should be sampled. -/
theorem run_main_timeline (std : StdLib) (hstart : T.Starts cfg) (hdump : cfg.dump = false)
    (hend : T.EndsAt cfg.toProber last) (hread : T.Readable headers last) :
    ∃ enough, ∀ fuel ≥ enough, ∀ n ≥ enough,
      (run (T.handler headers n) (main std fuel cfg) {}).1 =
        .ok (report std cfg.toProber
          (samplesOf cfg.include_ts (T.entries cfg (List.range' 1 last))), 0) := by
  obtain ⟨enough, htakes⟩ := eventually_atTop.mp
    (hread.eventually (T.targeted cfg).pid (T.targeted cfg).enable_threads)
  refine ⟨enough + last + T.late + 1, fun fuel hfuel n hn => ?_⟩
  obtain ⟨fuel, rfl⟩ := Nat.exists_eq_succ_of_ne_zero (show fuel ≠ 0 by omega)
  have hrun := run_runProber_timeline std (dump_targeted.trans hdump) hend.targeted
    (htakes n (by omega)) (by omega : last < fuel + 1)
  rw [report_targeted] at hrun
  exact hstart.run_main std (by omega) ⟨_, hrun⟩

/-! ### What is printed -/

/-- The stacks that should be sampled at these stops. -/
def callStacks (T : Timeline) (enable_threads : Bool) (ks : List ℕ) : List Frames :=
  ks.flatMap fun k => (T.sampled enable_threads k).map (·.frames)

theorem Readable.frames_ne_nil (h : T.Readable headers last) {enable_threads : Bool} :
    ∀ frames ∈ T.callStacks enable_threads (List.range' 1 last), frames ≠ [] := by
  intro frames hframes
  obtain ⟨k, hk, hframes⟩ := List.mem_flatMap.mp hframes
  obtain ⟨t, ht, rfl⟩ := List.mem_map.mp hframes
  obtain ⟨n, hn⟩ := (eventually_getThreads (h k hk) 0 enable_threads).exists
  exact (getThreads_ne_nil _ n 0 _ enable_threads).of_run _ _ hn t ht

/-- An entry is of the time at which the target was stopped for it. -/
theorem ts_of_mem_entries {ks : List ℕ} {e : Entry} (h : e ∈ T.entries cfg ks) :
    ∃ k ∈ ks, e.callStack.ts = T.clock k := by
  obtain ⟨k, hk, he⟩ := List.mem_flatMap.mp h
  refine ⟨k, hk, ?_⟩
  rcases List.mem_append.mp he with he | he
  · split_ifs at he
    · obtain rfl := List.mem_singleton.mp he
      rfl
    · contradiction
  · obtain ⟨t, -, rfl⟩ := List.mem_map.mp he
    rfl

end

/-- The threads of `twoThreads`, not moving. -/
def steady : Timeline where
  clock k := 10000000 * k
  memory _ := twoThreads
  found := (.py26, { tstate_addr := 0x100 })
  current _ := 0x2000
  threads _ := [⟨0x2000, 7, 0x4000, [(0x4000, ⟨text "a.py", text "f", 3⟩),
    (0x6000, ⟨text "a.py", text "main", 9⟩)]⟩, ⟨0x3000, 8, 0, []⟩]

theorem steady_readable (last : ℕ) : steady.Readable (fun _ => py27) last :=
  fun _ _ => twoThreads_walked

theorem steady_starts {cfg : Settings} (h : cfg.trace = false) : steady.Starts cfg where
  late := by
    rw [Settings.maxRetries, h]
    decide
  named htrace := absurd (h.symm.trans htrace) Bool.false_ne_true
  child _ := by decide

/-- **A dump is what is in memory** at the first stop, and reads back as that if it can be taken
apart. -/
theorem main_dump (T : Timeline) (headers : PyABI → Headers) (std : StdLib) (cfg : Settings)
    (hstart : T.Starts cfg) (hdump : cfg.dump = true) (hread : T.Readable headers 1) :
    ∃ enough, ∀ fuel ≥ enough, ∀ n ≥ enough,
      (run (T.handler headers n) (main std fuel cfg) {}).1 =
        .ok (⟨dumpLines (T.sampled cfg.enable_threads 1), []⟩, 0) ∧
      (readDump (dumpLines (T.sampled cfg.enable_threads 1)).flatten =
          some (T.sampled cfg.enable_threads 1) ↔
        ∀ thread ∈ T.sampled cfg.enable_threads 1, ∀ frame ∈ thread.frames, frame.Dumpable) := by
  obtain ⟨enough, htakes⟩ := eventually_atTop.mp
    (hread.eventually (T.targeted cfg).pid (T.targeted cfg).enable_threads)
  refine ⟨enough + T.late + 1, fun fuel hfuel n hn => ⟨?_, dumpable_of_readDump, readDump_of_dumpable⟩⟩
  obtain ⟨fuel, rfl⟩ := Nat.exists_eq_succ_of_ne_zero (show fuel ≠ 0 by omega)
  refine hstart.run_main std (by omega) ⟨T.located, ?_⟩
  have hthreads : run (T.handler headers n) (frobberThreads (T.targeted cfg) T.found) T.located =
      (.ok (.ok (T.sampled cfg.enable_threads 1)), T.located) := by
    rw [← enable_threads_targeted]
    exact congrArg (fun r => (Outcome.ok r.1, r.2)) (htakes n (by omega) 1 (by simp) T.located rfl)
  unfold runProber
  rw [Prog.bind_eq, run_bind_ok _ run_haveOutput, dump_targeted.trans hdump]
  exact (run_bind_ok _ hthreads _).trans rfl

theorem main_dump_steady :
    ∃ enough, ∀ fuel ≥ enough, ∀ n ≥ enough,
      (run (steady.handler (fun _ => py27) n) (main plainLib fuel { dump := true }) {}).1 =
        .ok (⟨[text "7*:\n", text "a.py:f:3\n", text "a.py:main:9\n"], []⟩, 0) := by
  obtain ⟨enough, h⟩ := main_dump steady (fun _ => py27) plainLib { dump := true }
    (steady_starts rfl) rfl (steady_readable 1)
  refine ⟨enough, fun fuel hfuel n hn => ?_⟩
  rw [(h fuel hfuel n hn).1]
  decide +kernel

/-- **The flame chart shows what is in memory** at each of the stops, as long as every stack is
legible. No stop is in the first microsecond of the clock, whose stamp the script takes for
none. -/
theorem main_flameChart (T : Timeline) (headers : PyABI → Headers) (std : StdLib) (cfg : Settings)
    (last : ℕ) (hstart : T.Starts cfg) (hdump : cfg.dump = false)
    (hts : cfg.include_ts = true) (hend : T.EndsAt cfg.toProber last)
    (hread : T.Readable headers last)
    (hclock : ∀ k ∈ List.range' 1 last, microseconds (T.clock k) ≠ 0) :
    let call_stacks := (T.entries cfg (List.range' 1 last)).map Entry.callStack
    ∃ enough, ∀ fuel ≥ enough, ∀ n ≥ enough, ∃ printed,
      (run (T.handler headers n) (main std fuel cfg) {}).1 = .ok (⟨printed, []⟩, 0) ∧
      ((flameChartJson printed.flatten).bind FCJson.decode =
          some (sampledChart call_stacks cfg.include_line_number) ↔
        ∀ c ∈ call_stacks, c.frames.Legible) := by
  intro call_stacks
  obtain ⟨enough, h⟩ := run_main_timeline std hstart hdump hend hread
  refine ⟨enough, fun fuel hfuel n hn => ?_⟩
  have hrun := h fuel hfuel n hn
  have hsamples : (samplesOf true (T.entries cfg (List.range' 1 last))).call_stacks = call_stacks := by
    simp [samplesOf, call_stacks]
  rw [hts, report_eq, hts, if_pos rfl, hsamples] at hrun
  have hpos : ∀ c ∈ call_stacks, microseconds c.ts ≠ 0 := by
    intro c hc
    obtain ⟨e, he, rfl⟩ := List.mem_map.mp hc
    obtain ⟨k, hk, hclk⟩ := ts_of_mem_entries he
    rw [hclk]
    exact hclock k hk
  exact ⟨_, hrun, legible_of_decode hpos, decode_of_legible hpos⟩

theorem steady_endsAt : steady.EndsAt { include_ts := true, seconds := 3 / 100 } 2 where
  pos := by decide
  isOver := by decide +kernel
  before k hpos hk := by
    obtain rfl : k = 1 := by omega
    decide +kernel

theorem main_flameChart_steady :
    ∃ enough, ∀ fuel ≥ enough, ∀ n ≥ enough, ∃ printed,
      (run (steady.handler (fun _ => py27) n)
        (main plainLib fuel { include_ts := true, seconds := 3 / 100 }) {}).1 =
          .ok (⟨printed, []⟩, 0) ∧
      (flameChartJson printed.flatten).bind FCJson.decode =
        some [(0, [text "a.py:main:9", text "a.py:f:3"]),
          (10000, [text "a.py:main:9", text "a.py:f:3"])] := by
  obtain ⟨enough, h⟩ := main_flameChart steady (fun _ => py27) plainLib
    { include_ts := true, seconds := 3 / 100 } 2 (steady_starts rfl) rfl rfl steady_endsAt
    (steady_readable 2) (by decide +kernel)
  refine ⟨enough, fun fuel hfuel n hn => ?_⟩
  obtain ⟨printed, hrun, hdecode⟩ := h fuel hfuel n hn
  have hstacks : ∀ c ∈ (steady.entries { include_ts := true, seconds := 3 / 100 }
      (List.range' 1 2)).map Entry.callStack,
        c.frames = [⟨text "a.py", text "f", 3⟩, ⟨text "a.py", text "main", 9⟩] := by decide +kernel
  refine ⟨printed, hrun, (hdecode.mpr fun c hc => ?_).trans (by decide +kernel)⟩
  rw [hstacks c hc]
  exact .inr ⟨by unfold Frame.Plain; decide, by decide⟩

end Timeline

end Pyflame
