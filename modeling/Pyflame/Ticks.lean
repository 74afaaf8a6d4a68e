import Pyflame.Counts
import Pyflame.Profile
import Mathlib.Data.List.Chain

/-!
What the ticks of the sampling loop come to.

A tick is an iteration of `ProbeLoop` that `GetThreads` returned in, or threw a
`PtraceException` in. Every record of it has its clock reading, and it counts
in the denominator of the profile.
-/

namespace Pyflame

open Interaction

/-! ### Time order -/

/-- No delta that is made of the input is negative. -/
def TimeOrdered (input : Bytes) : Prop :=
  ∀ prof, flameChartJson input = some prof → ∀ delta ∈ prof.timeDeltas, 0 ≤ delta

/-- There is room between two timestamps for the idle sample that goes there. The script
takes 0 for no timestamp. -/
def Spaced (a b : ℤ) : Prop := a ≠ 0 → a + 1000 ≤ b

instance : DecidableRel Spaced := fun a b => inferInstanceAs (Decidable (a ≠ 0 → a + 1000 ≤ b))

theorem deltasFrom_nonneg_iff (prev_ts : ℤ) (times : List ℤ) :
    (∀ delta ∈ deltasFrom prev_ts times, 0 ≤ delta) ↔ (prev_ts :: times).IsChain Spaced := by
  induction times generalizing prev_ts with
  | nil => simp [deltasFrom]
  | cons ts times ih =>
      have hdelta : 0 ≤ (if prev_ts ≠ 0 then ts - prev_ts - 1000 else 0) ↔ Spaced prev_ts ts := by
        unfold Spaced
        split_ifs with hprev
        · constructor
          · intro h _
            omega
          · intro h
            have := h hprev
            omega
        · exact iff_of_true (by decide) fun h => absurd h hprev
      rw [deltasFrom, List.forall_mem_cons, List.forall_mem_cons, ih ts, hdelta, List.isChain_cons_cons,
        and_iff_right (show (0 : ℤ) ≤ 1000 by decide)]

/-- Whatever the input, in terms of the timestamps that are read from it. -/
theorem timeOrdered_iff (input : Bytes) :
    TimeOrdered input ↔ ∀ chart, readFlameChart input = some chart →
      (chart.map Prod.fst).IsChain Spaced := by
  obtain ⟨endTime, hprof⟩ := flameChartJson_eq input
  unfold TimeOrdered readFlameChart
  rw [hprof]
  cases (fileLines input).foldlM Reader.read {} with
  | none => simp
  | some r =>
      obtain ⟨-, -, -, hdeltas, -⟩ := samples_profileOf r.nodes
      have htimes : (r.nodes.map fun x => (x.1, stackNodes x.2)).map Prod.fst = r.nodes.map Prod.fst := by
        rw [List.map_map]
        rfl
      have hfirst : (0 :: r.nodes.map Prod.fst).IsChain Spaced ↔ (r.nodes.map Prod.fst).IsChain Spaced := by
        rw [List.isChain_cons]
        exact and_iff_right fun ts _ h => absurd rfl h
      have hiff := deltasFrom_nonneg_iff 0 (r.nodes.map Prod.fst)
      rw [hfirst, ← hdeltas, ← htimes] at hiff
      constructor
      · intro h chart hchart
        obtain rfl := Option.some.inj hchart
        exact hiff.mp (h { profileOf r.nodes with endTime := endTime } rfl)
      · intro h prof hprof
        obtain rfl := Option.some.inj hprof
        exact hiff.mpr (h _ rfl)

/-! ### The records of an iteration -/

/-- How many lines of its own an iteration has under `--flamechart`. -/
def Iteration.recordCount (it : Iteration) (cfg : Prober) (finish : Time) : ℕ :=
  it.threadCount + (it.isIdle cfg).toNat + (it.isFailed cfg finish).toNat

theorem length_eq_counts (es : List Entry) :
    es.length = es.countP Entry.isStack + es.countP Entry.isIdle + es.countP Entry.isFailed := by
  induction es with
  | nil => rfl
  | cons e es ih =>
      rw [List.length_cons, ih]
      cases e <;> simp only [List.countP_cons, Entry.isStack, Entry.isIdle, Entry.isFailed,
        Bool.false_eq_true, if_true, if_false] <;> omega

theorem Iteration.length_entries (it : Iteration) (cfg : Prober) (finish : Time) :
    (it.entries cfg finish).length = it.recordCount cfg finish := by
  rw [length_eq_counts, it.countP_isStack, it.countP_isIdle, it.countP_isFailed, recordCount]

theorem Iteration.map_ts_entries (it : Iteration) (cfg : Prober) (finish : Time) :
    (it.entries cfg finish).map (fun e => microseconds e.ts) =
      List.replicate (it.recordCount cfg finish) (microseconds it.now) := by
  rw [List.eq_replicate_iff, List.length_map, it.length_entries]
  refine ⟨rfl, fun ts hts => ?_⟩
  obtain ⟨e, he, rfl⟩ := List.mem_map.mp hts
  rw [Iteration.ts_of_mem_entries he]

/-! ### Neighbours -/

section

variable {α β : Type} {R : β → β → Prop} {n : α → ℕ} {f : α → β}

theorem isChain_replicate_iff {k : ℕ} {b : β} :
    (List.replicate k b).IsChain R ↔ k ≤ 1 ∨ R b b := by
  constructor
  · intro h
    match k with
    | 0 | 1 => exact .inl (by omega)
    | k + 2 => exact .inr (List.isChain_cons_cons.mp h).1
  · rintro (hk | hb)
    · match k with
      | 0 => exact .nil
      | 1 => exact .singleton b
    · exact List.isChain_replicate_of_rel k hb

theorem head?_flatMap_replicate (l : List α) :
    (l.flatMap fun x => List.replicate (n x) (f x)).head? =
      (l.filter fun x => decide (0 < n x)).head?.map f := by
  induction l with
  | nil => rfl
  | cons x l ih =>
      rw [List.flatMap_cons, List.head?_append, ih]
      cases hn : n x with
      | zero => simp [hn]
      | succ k => simp [hn, List.replicate_succ]

/-- Where an element stands for as many copies of its value as it has. -/
theorem isChain_flatMap_replicate_iff (l : List α) :
    (l.flatMap fun x => List.replicate (n x) (f x)).IsChain R ↔
      (∀ x ∈ l, n x ≤ 1 ∨ R (f x) (f x)) ∧
      (l.filter fun x => decide (0 < n x)).IsChain fun a b => R (f a) (f b) := by
  induction l with
  | nil => simp
  | cons x l ih =>
      rw [List.flatMap_cons, List.isChain_append, ih, head?_flatMap_replicate, isChain_replicate_iff,
        List.forall_mem_cons]
      cases hn : n x with
      | zero => simp [hn]
      | succ k =>
          have hlast : (List.replicate (k + 1) (f x)).getLast? = some (f x) := by
            simp [List.getLast?_replicate]
          have hfilter : (x :: l).filter (fun y => decide (0 < n y)) =
              x :: l.filter fun y => decide (0 < n y) := List.filter_cons_of_pos (by simp [hn])
          rw [hlast, hfilter, List.isChain_cons]
          simp only [Option.mem_def, Option.some.injEq, Option.map_eq_some_iff, forall_eq',
            forall_exists_index, and_imp, forall_apply_eq_imp_iff₂]
          tauto

end

/-! ### Runs under `--flamechart` -/

theorem Entry.oneLine_callStack {e : Entry}
    (h : ∀ ts frames, e = .stack ts frames → frames.OneLine) : e.callStack.frames.OneLine := by
  cases e with
  | stack ts frames => exact h ts frames rfl
  | idle ts => exact .inr (by simp [callStack])
  | failed ts what => exact .inl ⟨_, rfl, rfl⟩

/-- The timestamps that are read back from what a run prints. -/
theorem readFlameChart_report (std : StdLib) {cfg : Prober} (hts : cfg.include_ts = true)
    {es : List Entry} (h : ∀ e ∈ es, e.callStack.frames.OneLine) :
    ∃ chart, readFlameChart (report std cfg (samplesOf true es)).out.flatten = some chart ∧
      chart.map Prod.fst = es.map fun e => microseconds e.ts := by
  have hstacks : (samplesOf true es).call_stacks = es.map Entry.callStack := by simp [samplesOf]
  rw [report_eq, if_pos hts, hstacks, readFlameChart_oneLine]
  · refine ⟨_, rfl, ?_⟩
    rw [List.map_map, List.map_map]
    refine List.map_congr_left fun e _ => ?_
    cases e <;> rfl
  · intro c hc
    obtain ⟨e, he, rfl⟩ := List.mem_map.mp hc
    exact h e he

/-- **When the samples are in time order.** Whatever is printed, that is up to the timestamps
that are read from it. Where no name has a line feed, every iteration that records anything
must record once, and 1000 microseconds or more after the one before. -/
theorem probeRun_timeOrdered_iff (std : StdLib) (cfg : Prober) (start : Time)
    (its : List Iteration) :
    let flamechart := { cfg with include_ts := true }
    let output := (report std flamechart (probeRun flamechart start its).samples).out.flatten
    let started := (probeRun flamechart start its).started
    let recordCount := fun it : Iteration => it.recordCount flamechart (endTime flamechart start)
    (TimeOrdered output ↔ ∀ chart, readFlameChart output = some chart →
      (chart.map Prod.fst).IsChain Spaced) ∧
    ((∀ it ∈ started, ∀ threads, it.threads = .ok threads → ∀ t ∈ threads, t.frames.OneLine) →
      (TimeOrdered output ↔
        (∀ it ∈ started, recordCount it ≤ 1 ∨ microseconds it.now = 0) ∧
        (started.filter fun it => decide (0 < recordCount it)).IsChain fun a b =>
          Spaced (microseconds a.now) (microseconds b.now))) := by
  intro flamechart output started recordCount
  have hread := timeOrdered_iff output
  refine ⟨hread, fun honeLine => ?_⟩
  have hes : ∀ e ∈ started.flatMap (·.entries flamechart (endTime flamechart start)),
      e.callStack.frames.OneLine := by
    intro e he
    obtain ⟨it, hit, he⟩ := List.mem_flatMap.mp he
    apply Entry.oneLine_callStack
    rintro ts frames rfl
    obtain ⟨threads, hthreads, t, ht, rfl⟩ := Iteration.stack_mem_entries he
    exact honeLine it hit threads hthreads t ht
  obtain ⟨chart, hchart, htimes⟩ := @readFlameChart_report std flamechart rfl _ hes
  have hsamples : (probeRun flamechart start its).samples =
      samplesOf true (started.flatMap (·.entries flamechart (endTime flamechart start))) :=
    probeRun_samples flamechart start its
  rw [← hsamples] at hchart
  -- An iteration is in the chart as many times as it has entries.
  have hreplicate : chart.map Prod.fst =
      started.flatMap fun it => List.replicate (recordCount it) (microseconds it.now) := by
    rw [htimes, List.map_flatMap]
    exact List.flatMap_congr fun it _ => it.map_ts_entries flamechart (endTime flamechart start)
  have hchain : (chart.map Prod.fst).IsChain Spaced ↔
      (∀ it ∈ started, recordCount it ≤ 1 ∨ Spaced (microseconds it.now) (microseconds it.now)) ∧
      (started.filter fun it => decide (0 < recordCount it)).IsChain fun a b =>
        Spaced (microseconds a.now) (microseconds b.now) := by
    rw [hreplicate]
    exact isChain_flatMap_replicate_iff started
  have hself : ∀ ts : ℤ, Spaced ts ts ↔ ts = 0 := by
    intro ts
    unfold Spaced
    constructor
    · intro h
      by_contra hne
      have := h hne
      omega
    · intro hzero hne
      exact absurd hzero hne
  rw [hread]
  simp only [hself] at hchain
  rw [← hchain]
  constructor
  · intro h
    exact h chart hchart
  · intro h chart' hchart'
    obtain rfl := Option.some.inj (hchart.symm.trans hchart')
    exact h

theorem probeRun_timeOrdered_shortRun :
    TimeOrdered (report plainLib { briefly with include_ts := true }
      (probeRun { briefly with include_ts := true } 0 shortRun).samples).out.flatten := by
  have hnames : ∀ it ∈ shortRun, ∀ threads, it.threads = .ok threads → ∀ t ∈ threads,
      t.frames.OneLine := by
    refine List.forall_mem_cons.mpr ⟨?_, List.forall_mem_cons.mpr ⟨?_, by simp⟩⟩
    · rintro threads ⟨⟩
      exact List.forall_mem_cons.mpr ⟨.inr (by decide), by simp⟩
    · rintro threads ⟨⟩
      simp
  apply ((probeRun_timeOrdered_iff plainLib briefly 0 shortRun).2 fun it hit =>
    hnames it (mem_of_mem_started hit)).mpr
  decide +kernel

/-- Two threads in one iteration, a second after the start. -/
def twoThreadsRun : List Iteration :=
  [⟨1000000000, .ok [⟨7, true, [⟨text "a.py", text "f", 3⟩]⟩, ⟨8, false, [⟨text "a.py", text "g", 5⟩]⟩],
    .ok (), .ok ()⟩]

theorem probeRun_not_timeOrdered :
    (twoThreadsRun.Pairwise fun a b => a.now ≤ b.now) ∧
      ¬ TimeOrdered (report plainLib { briefly with include_ts := true }
        (probeRun { briefly with include_ts := true } 0 twoThreadsRun).samples).out.flatten := by
  refine ⟨List.pairwise_singleton _ _, fun h => ?_⟩
  have hnegative : (flameChartJson (report plainLib { briefly with include_ts := true }
      (probeRun { briefly with include_ts := true } 0 twoThreadsRun).samples).out.flatten).map
        (·.timeDeltas) = some [0, 1000, -1000, 1000] := by decide +kernel
  obtain ⟨prof, hprof, hdeltas⟩ := Option.map_eq_some_iff.mp hnegative
  have := h prof hprof (-1000) (by rw [hdeltas]; decide)
  revert this
  decide

/-! ### Runs without `--threads` and without `-x` -/

/-- `GetThreads` returned, or threw a `PtraceException`. -/
def Iteration.isTick (it : Iteration) : Bool :=
  match it.threads with
  | .ok _ | .error (.ptrace _) => true
  | .error _ => false

/-- A stack or an idle sample was counted. -/
def Iteration.isSampled (it : Iteration) (cfg : Prober) : Bool :=
  0 < it.threadCount || it.isIdle cfg

/-- After `GetThreads` returned, a later call in the `try` block throws a `PtraceException`. -/
def Iteration.ThrowsLate (it : Iteration) (cfg : Prober) (finish : Time) : Prop :=
  (∃ threads, it.threads = .ok threads) ∧ pastEnd cfg finish it.now = false ∧
    ((∃ what, it.cont = .error (.ptrace what)) ∨
      it.cont = .ok () ∧ ∃ what, it.interrupt = .error (.ptrace what))

theorem Iteration.isFailed_iff {it : Iteration} {cfg : Prober} {finish : Time}
    {threads : List Thread} (h : it.threads = .ok threads) :
    it.isFailed cfg finish = true ↔ it.ThrowsLate cfg finish := by
  have hraised : it.isFailed cfg finish = true ↔ ∃ what, it.raised cfg finish = some (.ptrace what) := by
    unfold isFailed
    cases it.raised cfg finish with
    | none => simp
    | some e => cases e <;> simp
  rw [hraised]
  unfold raised ThrowsLate
  rw [h]
  cases hend : pastEnd cfg finish it.now with
  | true => simp
  | false =>
      cases it.cont with
      | error e => simp
      | ok => cases it.interrupt <;> simp

/-- What an iteration counts for, and whether it counts twice. -/
theorem Iteration.recordCount_eq {it : Iteration} {cfg : Prober} {finish : Time}
    (hidle : cfg.include_idle = true)
    (hlen : ∀ threads, it.threads = .ok threads → threads.length ≤ 1) :
    it.recordCount cfg finish =
      it.isTick.toNat + (it.isSampled cfg && it.isFailed cfg finish).toNat := by
  unfold recordCount isTick isSampled threadCount isIdle
  cases hthreads : it.threads with
  | ok threads =>
      have hlen := hlen threads hthreads
      match threads with
      | [] => simp [hidle]
      | [t] => simp
      | t :: t' :: threads => simp at hlen
  | error e =>
      -- Nothing was sampled, so the exception is all there is to count.
      have hraised : it.raised cfg finish = some e := by
        unfold raised
        rw [hthreads]
      unfold isFailed
      rw [hraised]
      cases e <;> rfl

theorem Iteration.sampled_and_failed_iff {it : Iteration} {cfg : Prober} {finish : Time}
    (hidle : cfg.include_idle = true) :
    (it.isSampled cfg && it.isFailed cfg finish) = true ↔ it.ThrowsLate cfg finish := by
  rw [Bool.and_eq_true]
  cases hthreads : it.threads with
  | ok threads =>
      have hsampled : it.isSampled cfg = true := by
        unfold isSampled threadCount isIdle
        rw [hthreads]
        cases threads <;> simp [hidle]
      rw [hsampled, isFailed_iff hthreads]
      exact and_iff_right rfl
  | error e =>
      have hsampled : it.isSampled cfg = false := by
        unfold isSampled threadCount isIdle
        rw [hthreads]
        rfl
      rw [hsampled]
      refine iff_of_false (fun h => Bool.false_ne_true h.1) fun h => ?_
      obtain ⟨threads, hok⟩ := h.1
      rw [hthreads] at hok
      contradiction

theorem sum_map_toNat_add {α : Type} (p q : α → Bool) (l : List α) :
    (l.map fun x => (p x).toNat + (q x).toNat).sum = l.countP p + l.countP q := by
  induction l with
  | nil => rfl
  | cons x l ih =>
      rw [List.map_cons, List.sum_cons, ih, List.countP_cons, List.countP_cons]
      cases p x <;> cases q x <;> simp <;> omega

/-- What is printed without `--flamechart`, and that its numbers add up to the records. -/
theorem probeRun_printed (std : StdLib) {cfg : Prober} (hts : cfg.include_ts = false) (start : Time)
    (its : List Iteration)
    (hframes : ∀ it ∈ (probeRun cfg start its).started, ∀ threads, it.threads = .ok threads →
      ∀ t ∈ threads, t.frames ≠ []) :
    let s := (probeRun cfg start its).samples
    let kvs := (buckets std s.call_stacks).entries
    report std cfg s =
      ⟨countLine (text "(idle)") s.idle_count ++ countLine (text "(failed)") s.failed_count ++
        kvs.map fun kv => stackLine (framePrinter cfg.include_line_number) kv.1 kv.2, []⟩ ∧
    (kvs.map Prod.snd).sum + s.idle_count + s.failed_count =
      ((probeRun cfg start its).started.map fun it => it.recordCount cfg (endTime cfg start)).sum := by
  intro s kvs
  let entries := (probeRun cfg start its).started.flatMap (·.entries cfg (endTime cfg start))
  have hsamples : s = samplesOf false entries := by
    have h := probeRun_samples cfg start its
    rwa [hts] at h
  have hne : ∀ ts frames, .stack ts frames ∈ entries → frames ≠ [] := by
    intro ts frames he
    obtain ⟨it, hit, he⟩ := List.mem_flatMap.mp he
    obtain ⟨threads, hok, t, ht, rfl⟩ := Iteration.stack_mem_entries he
    exact hframes it hit threads hok t ht
  obtain ⟨hreport, hsum⟩ := report_buckets std hts hne
  have hidle_count : entries.countP Entry.isIdle = s.idle_count := by
    rw [hsamples]
    rfl
  have hfailed_count : entries.countP Entry.isFailed = s.failed_count := by
    rw [hsamples]
    rfl
  rw [← hsamples] at hreport hsum
  rw [hidle_count, hfailed_count] at hreport
  refine ⟨hreport, ?_⟩
  have hentries : entries.length =
      ((probeRun cfg start its).started.map fun it => it.recordCount cfg (endTime cfg start)).sum := by
    rw [List.length_flatMap]
    exact congrArg List.sum (List.map_congr_left fun it _ => it.length_entries cfg _)
  rw [← hentries, length_eq_counts, hsum, hidle_count, hfailed_count]

/-- **When every tick is counted once.** The numbers of a profile add up to its ticks, and no
iteration counts as sampled and as failed, exactly if no iteration gets as far as a sample and
then throws a `PtraceException`. -/
theorem probeRun_countedOnce_iff (std : StdLib) (H : Headers) {cfg : Prober}
    (hts : cfg.include_ts = false) (hidle : cfg.include_idle = true) (start : Time)
    (its : List Iteration)
    (hthreads : ∀ it ∈ (probeRun cfg start its).started, ∀ threads, it.threads = .ok threads →
      Unthreaded H threads) :
    let s := (probeRun cfg start its).samples
    let started := (probeRun cfg start its).started
    let finish := endTime cfg start
    let kvs := (buckets std s.call_stacks).entries
    report std cfg s =
      ⟨countLine (text "(idle)") s.idle_count ++ countLine (text "(failed)") s.failed_count ++
        kvs.map fun kv => stackLine (framePrinter cfg.include_line_number) kv.1 kv.2, []⟩ ∧
    ((kvs.map Prod.snd).sum + s.idle_count + s.failed_count = started.countP (·.isTick) ∧
        (∀ it ∈ started, ¬ (it.isSampled cfg = true ∧ it.isFailed cfg finish = true)) ↔
      ∀ it ∈ started, ¬ it.ThrowsLate cfg finish) := by
  intro s started finish kvs
  obtain ⟨hreport, hcounts⟩ := probeRun_printed std hts start its fun it hit threads hok =>
    (hthreads it hit threads hok).built.ne_nil
  -- A tick has one record, and a second one if it is counted twice.
  have htotal : (kvs.map Prod.snd).sum + s.idle_count + s.failed_count =
      started.countP (·.isTick) +
        started.countP fun it => it.isSampled cfg && it.isFailed cfg finish := by
    rw [hcounts, ← sum_map_toNat_add]
    refine congrArg List.sum (List.map_congr_left fun it hit => ?_)
    exact Iteration.recordCount_eq hidle fun threads hok => (hthreads it hit threads hok).length_le
  have htwice : (∀ it ∈ started, ¬ (it.isSampled cfg = true ∧ it.isFailed cfg finish = true)) ↔
      ∀ it ∈ started, ¬ it.ThrowsLate cfg finish := by
    refine forall₂_congr fun it _ => not_congr ?_
    rw [← Bool.and_eq_true, Iteration.sampled_and_failed_iff hidle]
  refine ⟨hreport, ?_⟩
  rw [← htwice]
  refine and_iff_right_of_imp fun honce => ?_
  have hnone : (started.countP fun it => it.isSampled cfg && it.isFailed cfg finish) = 0 := by
    apply List.countP_eq_zero.mpr
    intro it hit
    rw [Bool.and_eq_true]
    exact honce it hit
  rw [htotal, hnone]
  rfl

theorem shortRun_unthreaded : ∀ it ∈ shortRun, ∀ threads, it.threads = .ok threads →
    Unthreaded py27 threads := by
  refine List.forall_mem_cons.mpr ⟨?_, List.forall_mem_cons.mpr ⟨?_, by simp⟩⟩
  · rintro threads ⟨⟩
    exact ⟨9, 1, { tstate_addr := 0x100 }, Unit, answer (image twoThreads), (), by decide +kernel⟩
  · rintro threads ⟨⟩
    exact ⟨9, 1, { tstate_addr := 0x3000 }, Unit, answer (image twoThreads), (), by decide +kernel⟩

theorem probeRun_countedOnce_shortRun :
    let s := (probeRun briefly 0 shortRun).samples
    ((buckets plainLib s.call_stacks).entries.map Prod.snd).sum + s.idle_count + s.failed_count =
      (probeRun briefly 0 shortRun).started.countP (·.isTick) := by
  have hrun := @probeRun_countedOnce_iff plainLib py27 briefly rfl rfl 0 shortRun
    fun it hit => shortRun_unthreaded it (mem_of_mem_started hit)
  have hlate : ∀ it ∈ shortRun, ¬ it.ThrowsLate briefly (endTime briefly 0) := by
    rintro it hit ⟨-, -, hthrows⟩
    revert it
    simp [shortRun]
  exact (hrun.2.mpr fun it hit => hlate it (mem_of_mem_started hit)).1

/-- The target dies while it is waited for at the end of the first iteration. -/
def lateRun : List Iteration :=
  [⟨0, .ok [⟨7, true, [⟨text "a.py", text "f", 3⟩, ⟨text "a.py", text "main", 9⟩]⟩], .ok (),
    .error (.ptrace (text "e"))⟩]

theorem probeRun_countedTwice :
    let s := (probeRun briefly 0 lateRun).samples
    (∀ it ∈ lateRun, ∀ threads, it.threads = .ok threads → Unthreaded py27 threads) ∧
    ((buckets plainLib s.call_stacks).entries.map Prod.snd).sum + s.idle_count + s.failed_count = 2 ∧
    (probeRun briefly 0 lateRun).started.countP (·.isTick) = 1 ∧
    ∃ it ∈ (probeRun briefly 0 lateRun).started,
      it.isSampled briefly = true ∧ it.isFailed briefly (endTime briefly 0) = true := by
  refine ⟨?_, by decide +kernel, by decide +kernel, by decide +kernel⟩
  refine List.forall_mem_singleton.mpr ?_
  rintro threads ⟨⟩
  exact ⟨9, 1, { tstate_addr := 0x100 }, Unit, answer (image twoThreads), (), by decide +kernel⟩

end Pyflame
