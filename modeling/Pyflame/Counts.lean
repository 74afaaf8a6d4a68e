import Pyflame.Heap
import Pyflame.ProbeRuns

/-!
What a profile accounts for.

An iteration of `ProbeLoop` contributes entries: a stack for each thread, an
idle one, a failed one. The loop keeps them as two counters and a list of
stacks, in which an idle or failed entry has a place only under
`--flamechart`. Both reports are read off the one list of entries here.
-/

namespace Pyflame

open Interaction

inductive Entry
  | stack (ts : Time) (frames : Frames)
  | idle (ts : Time)
  | failed (ts : Time) (what : Bytes)
  deriving DecidableEq, Repr

namespace Entry

def isStack : Entry → Bool
  | stack _ _ => true
  | _ => false

def isIdle : Entry → Bool
  | idle _ => true
  | _ => false

def isFailed : Entry → Bool
  | failed _ _ => true
  | _ => false

def ts : Entry → Time
  | stack ts _ | idle ts | failed ts _ => ts

/-- The encoding in the list of call stacks. -/
def callStack : Entry → FrameTS
  | stack ts frames => ⟨ts, frames⟩
  | idle ts => ⟨ts, []⟩
  | failed ts what => ⟨ts, [⟨text "(failed)", what, 0⟩]⟩

/-- The two lines of an entry under `--flamechart`. -/
def lines (print_frame : Frame → Bytes) (e : Entry) : List Bytes :=
  [signedDecimal (microseconds e.ts) ++ text "\n",
    match e with
    | stack _ frames => (frames.reverse.flatMap fun frame => print_frame frame ++ text ";") ++ text "\n"
    | idle _ => text "(idle)\n"
    | failed _ _ => text "(failed)\n"]

end Entry

/-- The variables of the loop after these entries. -/
def samplesOf (include_ts : Bool) (es : List Entry) : Samples where
  call_stacks := (es.filter fun e => include_ts || e.isStack).map Entry.callStack
  idle_count := es.countP Entry.isIdle
  failed_count := es.countP Entry.isFailed

/-! ### What an iteration contributes -/

/-- The number of threads `GetThreads` returned, none if it threw. -/
def Iteration.threadCount (it : Iteration) : ℕ :=
  match it.threads with
  | .ok threads => threads.length
  | .error _ => 0

/-- `GetThreads` returned no thread, and that is to be counted. -/
def Iteration.isIdle (it : Iteration) (cfg : Prober) : Bool :=
  match it.threads with
  | .ok threads => threads.isEmpty && cfg.include_idle
  | .error _ => false

/-- A `PtraceException` was caught. -/
def Iteration.isFailed (it : Iteration) (cfg : Prober) (finish : Time) : Bool :=
  match it.raised cfg finish with
  | some (.ptrace _) => true
  | _ => false

/-- What is recorded once `GetThreads` has returned. -/
def recorded (cfg : Prober) (now : Time) (threads : List Thread) : List Entry :=
  (if threads.isEmpty && cfg.include_idle then [.idle now] else []) ++
    threads.map fun t => .stack now t.frames

def Iteration.sampled (it : Iteration) (cfg : Prober) : List Entry :=
  match it.threads with
  | .ok threads => recorded cfg it.now threads
  | .error _ => []

def Iteration.failures (it : Iteration) (cfg : Prober) (finish : Time) : List Entry :=
  match it.raised cfg finish with
  | some (.ptrace what) => [.failed it.now what]
  | _ => []

def Iteration.entries (it : Iteration) (cfg : Prober) (finish : Time) : List Entry :=
  it.sampled cfg ++ it.failures cfg finish

theorem samplesOf_idle (include_ts : Bool) (es : List Entry) (now : Time) :
    samplesOf include_ts (es ++ [.idle now]) =
      { samplesOf include_ts es with
        idle_count := (samplesOf include_ts es).idle_count + 1
        call_stacks :=
          if include_ts then (samplesOf include_ts es).call_stacks ++ [⟨now, []⟩]
          else (samplesOf include_ts es).call_stacks } := by
  cases include_ts <;> simp [samplesOf, Entry.isStack, Entry.isIdle, Entry.isFailed, Entry.callStack]

theorem samplesOf_failed (include_ts : Bool) (es : List Entry) (now : Time) (what : Bytes) :
    samplesOf include_ts (es ++ [.failed now what]) =
      { samplesOf include_ts es with
        failed_count := (samplesOf include_ts es).failed_count + 1
        call_stacks :=
          if include_ts then
            (samplesOf include_ts es).call_stacks ++ [⟨now, [⟨text "(failed)", what, 0⟩]⟩]
          else (samplesOf include_ts es).call_stacks } := by
  cases include_ts <;> simp [samplesOf, Entry.isStack, Entry.isIdle, Entry.isFailed, Entry.callStack]

theorem samplesOf_stacks (include_ts : Bool) (es : List Entry) (now : Time)
    (threads : List Thread) :
    samplesOf include_ts (es ++ threads.map fun t => .stack now t.frames) =
      { samplesOf include_ts es with
        call_stacks := (samplesOf include_ts es).call_stacks ++
          threads.map fun t => ⟨now, t.frames⟩ } := by
  simp [samplesOf, Entry.isIdle, Entry.isFailed, List.filter_map, Function.comp_def,
    Entry.isStack, Entry.callStack]

theorem Samples.record_samplesOf (cfg : Prober) (now : Time) (threads : List Thread)
    (es : List Entry) :
    (samplesOf cfg.include_ts es).record cfg now threads =
      samplesOf cfg.include_ts (es ++ recorded cfg now threads) := by
  rw [recorded, ← List.append_assoc, samplesOf_stacks]
  by_cases hidle : (threads.isEmpty && cfg.include_idle) = true
  · rw [if_pos hidle, samplesOf_idle, record, if_pos hidle]
  · rw [if_neg hidle, List.append_nil, record, if_neg hidle]

theorem Iteration.probe_samplesOf (it : Iteration) (cfg : Prober) (finish : Time)
    (es : List Entry) :
    (it.probe cfg finish (samplesOf cfg.include_ts es)).1 =
      samplesOf cfg.include_ts (es ++ it.entries cfg finish) := by
  have hsample : it.sample cfg (samplesOf cfg.include_ts es) =
      samplesOf cfg.include_ts (es ++ it.sampled cfg) := by
    unfold sample sampled
    cases it.threads with
    | ok threads => exact Samples.record_samplesOf cfg it.now threads es
    | error e => simp
  rw [probe_eq, hsample, entries, ← List.append_assoc]
  unfold failures
  cases it.raised cfg finish with
  | none => simp
  | some e =>
      cases e with
      | ptrace what => exact (samplesOf_failed _ _ _ _).symm
      | terminate | fatal | symbol | other => simp [handled]

theorem Progress.started_step (p : Progress) (cfg : Prober) (finish : Time) (it : Iteration)
    (hlast : p.last = none) : (p.step cfg finish it).started = p.started ++ [it] := by
  rcases p.step_cases cfg finish it hlast with ⟨-, hstep⟩ | ⟨code, -, hstep⟩ <;>
    simp [hstep, started, hlast]

/-- After any run the variables of the loop hold the entries of the
iterations that were started. -/
theorem probeRun_samples (cfg : Prober) (start : Time) (its : List Iteration) :
    (probeRun cfg start its).samples =
      samplesOf cfg.include_ts
        ((probeRun cfg start its).started.flatMap (·.entries cfg (endTime cfg start))) := by
  refine probeRun_invariant (P := fun p => p.samples = samplesOf cfg.include_ts
    (p.started.flatMap (·.entries cfg (endTime cfg start)))) rfl ?_ its
  intro p it hlast hsamples
  have hprobe : (p.step cfg (endTime cfg start) it).samples =
      (it.probe cfg (endTime cfg start) p.samples).1 := by
    rcases p.step_cases cfg (endTime cfg start) it hlast with ⟨-, hstep⟩ | ⟨code, -, hstep⟩ <;>
      rw [hstep]
  rw [p.started_step _ _ _ hlast, hprobe, List.flatMap_append, List.flatMap_singleton, hsamples,
    it.probe_samplesOf]

/-! ### What an iteration counts for -/

theorem countP_recorded (p : Entry → Bool) (cfg : Prober) (now : Time) (threads : List Thread) :
    (recorded cfg now threads).countP p =
      ((threads.isEmpty && cfg.include_idle) && p (.idle now)).toNat +
        threads.countP fun t => p (.stack now t.frames) := by
  rw [recorded, List.countP_append, List.countP_map]
  cases (threads.isEmpty && cfg.include_idle)
  · simp [Function.comp_def]
  · cases hp : p (.idle now) <;> simp [hp, Function.comp_def]

theorem Iteration.countP_failures (it : Iteration) (cfg : Prober) (finish : Time)
    {p : Entry → Bool} {b : Bool} (hp : ∀ what, p (.failed it.now what) = b) :
    (it.failures cfg finish).countP p = (it.isFailed cfg finish && b).toNat := by
  rw [failures, isFailed]
  cases it.raised cfg finish with
  | none => rfl
  | some e => cases e <;> cases b <;> simp [hp]

theorem Iteration.countP_isStack (it : Iteration) (cfg : Prober) (finish : Time) :
    (it.entries cfg finish).countP Entry.isStack = it.threadCount := by
  rw [entries, List.countP_append, it.countP_failures cfg finish fun _ => rfl, sampled, threadCount]
  cases it.threads with
  | ok threads => simp only [countP_recorded, Entry.isStack, Bool.and_false]; simp
  | error e => simp

theorem Iteration.countP_isIdle (it : Iteration) (cfg : Prober) (finish : Time) :
    (it.entries cfg finish).countP Entry.isIdle = (it.isIdle cfg).toNat := by
  rw [entries, List.countP_append, it.countP_failures cfg finish fun _ => rfl, sampled, isIdle]
  cases it.threads with
  | ok threads => simp only [countP_recorded, Entry.isIdle, Bool.and_true]; simp
  | error e => simp

theorem Iteration.countP_isFailed (it : Iteration) (cfg : Prober) (finish : Time) :
    (it.entries cfg finish).countP Entry.isFailed = (it.isFailed cfg finish).toNat := by
  rw [entries, List.countP_append, it.countP_failures cfg finish fun _ => rfl, sampled]
  cases it.threads with
  | ok threads => simp only [countP_recorded, Entry.isFailed, Bool.and_false]; simp
  | error e => simp

/-- Where nothing was sampled, printing it would print nothing. -/
theorem report_eq (std : StdLib) (cfg : Prober) (s : Samples) :
    report std cfg s =
      if cfg.include_ts then printFramesTS s.call_stacks cfg.include_line_number
      else printFrames std s.call_stacks s.idle_count s.failed_count cfg.include_line_number := by
  rw [report]
  split_ifs with hsome hts hts
  · rfl
  · rfl
  · simp only [not_or, not_not] at hsome
    rw [hsome.1]
    rfl
  · simp only [not_or, not_not] at hsome
    rw [hsome.1, hsome.2.1, hsome.2.2, printFrames_eq std 0 0 _ (by simp)]
    have hnil : (buckets std []).entries = [] := (buckets_perm std []).eq_nil
    rw [hnil]
    rfl

/-- A stack as `FollowFrame` leaves it, not to be taken for a failed entry. -/
def Entry.Sound : Entry → Prop
  | .stack _ frames => frames ≠ [] ∧ ∀ f ∈ frames, f.file ≠ text "(failed)"
  | .idle _ | .failed _ _ => True

theorem stack_mem_of_samplesOf {es : List Entry} {c : FrameTS}
    (h : c ∈ (samplesOf false es).call_stacks) : .stack c.ts c.frames ∈ es := by
  obtain ⟨e, he, rfl⟩ := List.mem_map.mp h
  obtain ⟨he, hstack⟩ := List.mem_filter.mp he
  cases e with
  | stack ts frames => exact he
  | idle | failed => simp [Entry.isStack] at hstack

/-- Without, the idle and failed entries are counted, and the stack entries in
the buckets. -/
theorem report_buckets (std : StdLib) {cfg : Prober} (hts : cfg.include_ts = false)
    {es : List Entry} (h : ∀ ts frames, .stack ts frames ∈ es → frames ≠ []) :
    let kvs := (buckets std (samplesOf false es).call_stacks).entries
    report std cfg (samplesOf false es) =
      ⟨countLine (text "(idle)") (es.countP Entry.isIdle) ++
        countLine (text "(failed)") (es.countP Entry.isFailed) ++
        kvs.map fun kv => stackLine (framePrinter cfg.include_line_number) kv.1 kv.2, []⟩ ∧
    (kvs.map Prod.snd).sum = es.countP Entry.isStack := by
  intro kvs
  have hne : ∀ c ∈ (samplesOf false es).call_stacks, c.frames ≠ [] := fun c hc =>
    h _ _ (stack_mem_of_samplesOf hc)
  constructor
  · rw [report_eq, hts, if_neg Bool.false_ne_true, printFrames_eq _ _ _ _ hne]
    rfl
  · rw [buckets_sum, samplesOf, List.length_map, ← List.countP_eq_length_filter]
    rfl

theorem mem_of_mem_started {cfg : Prober} {start : Time} {its : List Iteration} {it : Iteration}
    (h : it ∈ (probeRun cfg start its).started) : it ∈ its := by
  induction its using List.reverseRecOn with
  | nil => contradiction
  | append_singleton its it' ih =>
      rw [probeRun_concat] at h
      generalize probeRun cfg start its = p at ih h
      cases hlast : p.last with
      | some last =>
          simp only [Progress.step, hlast] at h
          exact List.mem_append_left _ (ih h)
      | none =>
          rw [p.started_step _ _ _ hlast, List.mem_append] at h
          exact List.mem_append.mpr (h.imp_left ih)

/-- The threads are what some run of `GetThreads` returned. -/
def Built (H : Headers) (threads : List Thread) : Prop :=
  ∃ (fuel : ℕ) (pid : Pid) (addrs : PyAddresses) (enable_threads : Bool) (σ : Type)
    (h : Handler sys σ) (s : σ),
    (run h (getThreads H fuel pid addrs enable_threads) s).1 = .ok threads

/-- Some run of `GetThreads` without `enable_threads` returned them. -/
def Unthreaded (H : Headers) (threads : List Thread) : Prop :=
  ∃ (fuel : ℕ) (pid : Pid) (addrs : PyAddresses) (σ : Type) (h : Handler sys σ) (s : σ),
    (run h (getThreads H fuel pid addrs false) s).1 = .ok threads

theorem Unthreaded.built {H : Headers} {threads : List Thread} (h : Unthreaded H threads) :
    Built H threads := by
  obtain ⟨fuel, pid, addrs, σ, h, s, hrun⟩ := h
  exact ⟨fuel, pid, addrs, false, σ, h, s, hrun⟩

theorem Unthreaded.length_le {H : Headers} {threads : List Thread} (h : Unthreaded H threads) :
    threads.length ≤ 1 := by
  obtain ⟨fuel, pid, addrs, σ, h, s, hrun⟩ := h
  exact (getThreads_length_le H fuel pid addrs).of_run h s hrun

theorem Built.ne_nil {H : Headers} {threads : List Thread} (h : Built H threads) :
    ∀ t ∈ threads, t.frames ≠ [] := by
  obtain ⟨fuel, pid, addrs, enable_threads, σ, h, s, hrun⟩ := h
  exact (getThreads_ne_nil H fuel pid addrs enable_threads).of_run h s hrun

/-- A stack entry is the stack of a thread that was returned. -/
theorem Iteration.stack_mem_entries {it : Iteration} {cfg : Prober} {finish ts : Time}
    {frames : Frames} (h : .stack ts frames ∈ it.entries cfg finish) :
    ∃ threads, it.threads = .ok threads ∧ ∃ t ∈ threads, t.frames = frames := by
  have hnot : .stack ts frames ∉ it.failures cfg finish := by
    unfold failures
    split <;> simp
  have hsampled := (List.mem_append.mp h).resolve_right hnot
  unfold sampled at hsampled
  cases hthreads : it.threads with
  | error e => simp [hthreads] at hsampled
  | ok threads =>
      simp only [hthreads, recorded, List.mem_append] at hsampled
      refine ⟨threads, rfl, ?_⟩
      rcases hsampled with hidle | hstack
      · split at hidle <;> simp at hidle
      · obtain ⟨t, ht, heq⟩ := List.mem_map.mp hstack
        cases heq
        exact ⟨t, ht, rfl⟩

theorem Iteration.ts_of_mem_entries {it : Iteration} {cfg : Prober} {finish : Time} {e : Entry}
    (h : e ∈ it.entries cfg finish) : e.ts = it.now := by
  rcases List.mem_append.mp h with h | h
  · unfold sampled at h
    split at h
    · rcases List.mem_append.mp h with h | h
      · split at h <;> simp_all [Entry.ts]
      · obtain ⟨t, -, rfl⟩ := List.mem_map.mp h
        rfl
    · contradiction
  · unfold failures at h
    split at h <;> simp_all [Entry.ts]

/-- One thread of two frames, then nobody to sample, then a target that is
gone. -/
def shortRun : List Iteration :=
  [⟨0, .ok [⟨7, true, [⟨text "a.py", text "f", 3⟩, ⟨text "a.py", text "main", 9⟩]⟩], .ok (), .ok ()⟩,
    ⟨11000000, .ok [], .ok (), .ok ()⟩, ⟨22000000, .error (.ptrace (text "e")), .ok (), .ok ()⟩]

end Pyflame
