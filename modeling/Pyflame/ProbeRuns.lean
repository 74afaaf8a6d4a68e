import Pyflame.Prober
import Pyflame.Wait
import Mathlib.Data.List.Induction

/-!
Runs of `ProbeLoop`: when it stops, and what it prints.
-/

namespace Pyflame

open Interaction

/-! ### One iteration

An iteration records what it sampled and then leaves its `try` block by an
exception, by the `break`, or at its end. -/

/-- The exception that leaves the `try` block. -/
def Iteration.raised (it : Iteration) (cfg : Prober) (finish : Time) : Option Exception :=
  match it.threads with
  | .error e => some e
  | .ok _ =>
      if pastEnd cfg finish it.now then none
      else match it.cont with
        | .error e => some e
        | .ok () =>
            match it.interrupt with
            | .error e => some e
            | .ok () => none

/-- The samples after `GetThreads`. -/
def Iteration.sample (it : Iteration) (cfg : Prober) (s : Samples) : Samples :=
  match it.threads with
  | .ok threads => s.record cfg it.now threads
  | .error _ => s

/-- What the handlers make of an exception. -/
def handled (cfg : Prober) (now : Time) (s : Samples) : Exception → Samples × Next
  | .terminate _ => (s, .finish 0)
  | .ptrace what => (s.fail cfg now what, .again)
  | .fatal _ | .symbol _ | .other _ => (s, .finish 1)

theorem handleException_calls (cfg : Prober) (it : Iteration) (s : Samples) (e : Exception) :
    (handleException cfg it.calls it.now s e).run = handled cfg it.now s e := by
  cases e <;> rfl

/-- The body of the loop, read as a function of the outcomes of its calls. -/
theorem Iteration.probe_unfold (it : Iteration) (cfg : Prober) (finish : Time) (s : Samples) :
    it.probe cfg finish s =
      match it.threads with
      | .error e => handled cfg it.now s e
      | .ok threads =>
          if pastEnd cfg finish it.now then (s.record cfg it.now threads, .finish 0)
          else match it.cont with
            | .error e => handled cfg it.now (s.record cfg it.now threads) e
            | .ok () =>
                match it.interrupt with
                | .error e => handled cfg it.now (s.record cfg it.now threads) e
                | .ok () => (s.record cfg it.now threads, .again) := by
  simp only [← handleException_calls]
  rfl

theorem Iteration.probe_eq (it : Iteration) (cfg : Prober) (finish : Time) (s : Samples) :
    it.probe cfg finish s =
      match it.raised cfg finish with
      | some e => handled cfg it.now (it.sample cfg s) e
      | none => (it.sample cfg s, if pastEnd cfg finish it.now then .finish 0 else .again) := by
  rw [probe_unfold]
  unfold raised sample
  cases it.threads with
  | error e => rfl
  | ok threads =>
      by_cases hend : pastEnd cfg finish it.now
      · simp only [hend, if_true]
      · cases it.cont with
        | error e => simp only [hend, Bool.false_eq_true, if_false]
        | ok => cases it.interrupt <;> simp only [hend, Bool.false_eq_true, if_false]

theorem Iteration.probe_again_iff {it : Iteration} {cfg : Prober} {finish : Time} {s : Samples} :
    (it.probe cfg finish s).2 = .again ↔
      (∃ what, it.raised cfg finish = some (.ptrace what)) ∨
        it.raised cfg finish = none ∧ pastEnd cfg finish it.now = false := by
  rw [probe_eq]
  cases it.raised cfg finish with
  | none => cases pastEnd cfg finish it.now <;> simp
  | some e => cases e <;> simp [handled]

/-- Past the end only `GetThreads` can raise. -/
theorem Iteration.raised_of_pastEnd {it : Iteration} {cfg : Prober} {finish : Time}
    (h : pastEnd cfg finish it.now = true) {e : Exception} :
    it.raised cfg finish = some e ↔ it.threads = .error e := by
  unfold raised
  cases it.threads <;> simp [h]

/-! ### Runs -/

theorem probeRun_concat (cfg : Prober) (start : Time) (its : List Iteration) (it : Iteration) :
    probeRun cfg start (its ++ [it]) =
      (probeRun cfg start its).step cfg (endTime cfg start) it := by
  simp [probeRun]

/-- What holds at the start and is kept by every iteration that is started
holds in every run. -/
theorem probeRun_invariant {cfg : Prober} {start : Time} {P : Progress → Prop} (hinit : P {})
    (hstep : ∀ p it, p.last = none → P p → P (p.step cfg (endTime cfg start) it))
    (its : List Iteration) : P (probeRun cfg start its) := by
  induction its using List.reverseRecOn with
  | nil => exact hinit
  | append_singleton its it ih =>
      rw [probeRun_concat]
      cases hlast : (probeRun cfg start its).last with
      | none => exact hstep _ it hlast ih
      | some last => simpa only [Progress.step, hlast] using ih

theorem Progress.step_again {cfg : Prober} {finish : Time} {p : Progress} {it : Iteration}
    (hlast : p.last = none) (h : (it.probe cfg finish p.samples).2 = .again) :
    p.step cfg finish it =
      ⟨(it.probe cfg finish p.samples).1, p.continued ++ [it], none⟩ := by
  simp only [step, hlast]
  generalize it.probe cfg finish p.samples = r at h ⊢
  obtain ⟨s, next⟩ := r
  subst h
  rfl

theorem Progress.step_finish {cfg : Prober} {finish : Time} {p : Progress} {it : Iteration}
    {code : ℕ} (hlast : p.last = none) (h : (it.probe cfg finish p.samples).2 = .finish code) :
    p.step cfg finish it =
      ⟨(it.probe cfg finish p.samples).1, p.continued, some (it, code)⟩ := by
  simp only [step, hlast]
  generalize it.probe cfg finish p.samples = r at h ⊢
  obtain ⟨s, next⟩ := r
  subst h
  rfl

/-- A started iteration is the one that was appended, whether it ended the
loop or not. -/
theorem Progress.step_cases (cfg : Prober) (finish : Time) {p : Progress} (it : Iteration)
    (hlast : p.last = none) :
    ((it.probe cfg finish p.samples).2 = .again ∧ p.step cfg finish it =
      ⟨(it.probe cfg finish p.samples).1, p.continued ++ [it], none⟩) ∨
    ∃ code, (it.probe cfg finish p.samples).2 = .finish code ∧ p.step cfg finish it =
      ⟨(it.probe cfg finish p.samples).1, p.continued, some (it, code)⟩ := by
  cases h : (it.probe cfg finish p.samples).2 with
  | again => exact .inl ⟨rfl, step_again hlast h⟩
  | finish code => exact .inr ⟨code, rfl, step_finish hlast h⟩

/-! ### The program runs so -/

section

variable {σ : Type} {h : Handler sys σ} {fuel : ℕ} {cfg : Prober} {frobber : Tracer (List Thread)}
  {finish : Time} {st : σ}

theorem run_handleException {now : Time} {s : Samples} {e : Exception} {r : Samples × Next}
    (hrun : (run h (handleException cfg (systemCalls fuel cfg frobber) now s e) st).1 = .ok r) :
    handled cfg now s e = r := by
  cases e <;> exact Outcome.ok.inj hrun

/-- Whatever the system replies, a pass of the loop that ends is an iteration. -/
theorem run_probeIteration {s : Samples} {r : Samples × Next}
    (hrun : (run h (probeIteration cfg (systemCalls fuel cfg frobber) finish s) st).1 = .ok r) :
    ∃ it : Iteration, it.probe cfg finish s = r := by
  simp only [Iteration.probe_unfold]
  obtain ⟨now, st, -, hrun⟩ := run_bind_eq_ok hrun
  obtain ⟨threads, st, -, hrun⟩ := run_bind_eq_ok hrun
  cases threads with
  | error e => exact ⟨⟨now, .error e, .ok (), .ok ()⟩, run_handleException hrun⟩
  | ok threads =>
      by_cases hend : pastEnd cfg finish now
      · refine ⟨⟨now, .ok threads, .ok (), .ok ()⟩, ?_⟩
        simp only [hend] at hrun ⊢
        exact Outcome.ok.inj hrun
      simp only [hend] at hrun
      obtain ⟨cont, st, -, hrun⟩ := run_bind_eq_ok hrun
      cases cont with
      | error e =>
          refine ⟨⟨now, .ok threads, .error e, .ok ()⟩, ?_⟩
          simp only [hend]
          exact run_handleException hrun
      | ok =>
          obtain ⟨-, st, -, hrun⟩ := run_bind_eq_ok hrun
          obtain ⟨interrupt, st, -, hrun⟩ := run_bind_eq_ok hrun
          refine ⟨⟨now, .ok threads, .ok (), interrupt⟩, ?_⟩
          simp only [hend]
          cases interrupt with
          | error e => exact run_handleException hrun
          | ok => exact Outcome.ok.inj hrun

/-- The loop from the variables `p` has got to. -/
theorem run_forever_probeLoopStep (n : ℕ) {p : Progress} (hlast : p.last = none)
    {s : Samples} {code : ℕ}
    (hrun : (run h (Prog.forever (probeLoopStep fuel cfg frobber finish) n p.samples) st).1 =
      .ok (s, code)) :
    ∃ (its : List Iteration) (it : Iteration),
      (its.foldl (Progress.step cfg finish) p).last = some (it, code) ∧
        (its.foldl (Progress.step cfg finish) p).samples = s := by
  -- The samples of the loop are those of `p`, pass by pass.
  induction n generalizing p st with
  | zero => contradiction
  | succ n ih =>
      obtain ⟨next, st, hpass, hrun⟩ := run_bind_eq_ok hrun
      obtain ⟨r, st', hit, hnext⟩ := run_bind_eq_ok (congrArg Prod.fst hpass)
      obtain ⟨it, rfl⟩ := run_probeIteration (congrArg Prod.fst hit)
      rcases p.step_cases cfg finish it hlast with ⟨hagain, hstep⟩ | ⟨code', hfinish, hstep⟩
      · generalize it.probe cfg finish p.samples = r at hagain hstep hnext
        obtain ⟨s', next'⟩ := r
        subst hagain
        cases hnext
        obtain ⟨its, it', hits⟩ := ih (p := p.step cfg finish it) (by rw [hstep])
          (by rw [hstep]; exact hrun)
        exact ⟨it :: its, it', hits⟩
      · generalize it.probe cfg finish p.samples = r at hfinish hstep hnext
        obtain ⟨s', next'⟩ := r
        subst hfinish
        cases hnext
        cases hrun
        exact ⟨[it], it, by simp [hstep]⟩

/-- What `ProbeLoop` prints and returns is what a run over iterations leaves,
whatever the system replies to its requests. -/
theorem run_probeLoop (std : StdLib) {printed : Printed} {code : ℕ}
    (hrun : (run h (probeLoop std fuel cfg frobber) st).1 = .ok (printed, code)) :
    ∃ start its it, (probeRun cfg start its).last = some (it, code) ∧
      printed = report std cfg (probeRun cfg start its).samples := by
  obtain ⟨start, st, -, hrun⟩ := run_bind_eq_ok hrun
  obtain ⟨⟨s, code'⟩, st', hloop, hrun⟩ := run_bind_eq_ok hrun
  cases hrun
  obtain ⟨its, it, hlast, rfl⟩ := run_forever_probeLoopStep fuel (p := {}) rfl
    (congrArg Prod.fst hloop)
  exact ⟨start, its, it, hlast, rfl⟩

end

/-! ### The deadline -/

/-- Which iterations a past deadline lets continue: those whose `GetThreads`
threw a `PtraceException`. -/
theorem probeRun_pastEnd (cfg : Prober) (start : Time) (its : List Iteration) :
    (∀ it ∈ (probeRun cfg start its).continued, pastEnd cfg (endTime cfg start) it.now = true →
      ∃ what, it.threads = .error (.ptrace what)) ∧
    ∀ last ∈ (probeRun cfg start its).last, ∀ what, last.1.threads ≠ .error (.ptrace what) := by
  refine probeRun_invariant (P := fun p =>
    (∀ it ∈ p.continued, pastEnd cfg (endTime cfg start) it.now = true →
      ∃ what, it.threads = .error (.ptrace what)) ∧
    ∀ last ∈ p.last, ∀ what, last.1.threads ≠ .error (.ptrace what)) (by simp) ?_ its
  rintro p it hlast ⟨hcontinued, -⟩
  rcases p.step_cases cfg (endTime cfg start) it hlast with ⟨hagain, hstep⟩ | ⟨code, hfinish, hstep⟩
  · rw [hstep]
    refine ⟨fun x hx => ?_, by simp⟩
    rcases List.mem_append.mp hx with hx | hx
    · exact hcontinued x hx
    · obtain rfl := List.mem_singleton.mp hx
      intro hend
      rcases Iteration.probe_again_iff.mp hagain with ⟨what, hraised⟩ | ⟨-, hnot⟩
      · exact ⟨what, (Iteration.raised_of_pastEnd hend).mp hraised⟩
      · rw [hend] at hnot
        contradiction
  · rw [hstep]
    refine ⟨hcontinued, fun last hmem what hthreads => ?_⟩
    obtain rfl := Option.some.inj hmem
    have hraised : it.raised cfg (endTime cfg start) = some (.ptrace what) := by
      simp only at hthreads
      simp only [Iteration.raised, hthreads]
    have hagain := Iteration.probe_again_iff (s := p.samples).mpr (.inl ⟨what, hraised⟩)
    rw [hfinish] at hagain
    contradiction

/-- An iteration that reads a time from which the next would end too late is
the last, exactly when `GetThreads` throws a `PtraceException` in no such
iteration. -/
theorem probeRun_deadline_iff (cfg : Prober) (hseconds : 0 ≤ cfg.seconds) (start : Time)
    (its : List Iteration) :
    (∀ it ∈ (probeRun cfg start its).continued,
        it.now + onClock cfg.interval < endTime cfg start) ↔
      ∀ it ∈ (probeRun cfg start its).started, endTime cfg start ≤ it.now + onClock cfg.interval →
        ∀ what, it.threads ≠ .error (.ptrace what) := by
  obtain ⟨hcontinued, hlast⟩ := probeRun_pastEnd cfg start its
  constructor
  · intro h it hit hpast
    rcases List.mem_append.mp hit with hit | hit
    · exact absurd (h it hit) (Int.not_lt.mpr hpast)
    · obtain ⟨last, hmem, rfl⟩ := List.mem_map.mp hit
      exact hlast last (by simpa using hmem)
  · intro h it hit
    by_contra hnot
    have hpast := Int.not_lt.mp hnot
    obtain ⟨what, hthreads⟩ := hcontinued it hit (by simp only [pastEnd, hseconds, hpast]; rfl)
    exact h it (List.mem_append_left _ hit) hpast what hthreads

/-- Profile for 100 ms at the default rate. -/
def briefly : Prober := { pid := 1, seconds := 1 / 10 }

theorem probeRun_deadline_briefly :
    (probeRun briefly 0 [⟨1000000, .ok [], .ok (), .error (.ptrace (text "e"))⟩,
        ⟨95000000, .ok [], .ok (), .ok ()⟩]).continued.all
      (fun it => it.now + onClock briefly.interval < endTime briefly 0) = true := by
  have hok : ∀ it ∈ (probeRun briefly 0 [⟨1000000, .ok [], .ok (), .error (.ptrace (text "e"))⟩,
      ⟨95000000, .ok [], .ok (), .ok ()⟩]).started,
      it.threads.isOk = true := by decide +kernel
  have hdeadline := (probeRun_deadline_iff briefly (by decide +kernel) 0
    [⟨1000000, .ok [], .ok (), .error (.ptrace (text "e"))⟩,
      ⟨95000000, .ok [], .ok (), .ok ()⟩]).mpr
  rw [List.all_eq_true]
  intro it hit
  rw [decide_eq_true_eq]
  apply hdeadline _ it hit
  intro it hit _ what hthreads
  have hthrew := hok it hit
  rw [hthreads] at hthrew
  contradiction

/-- The target has been killed: every `GetThreads` throws, and the loop goes
on long after the 100 ms. -/
theorem probeRun_deadline_missed :
    ¬ ∀ it ∈ (probeRun briefly 0
        (List.replicate 3 ⟨60000000000, .error (.ptrace (text "e")), .ok (), .ok ()⟩)).continued,
      it.now + onClock briefly.interval < endTime briefly 0 := by
  decide +kernel

/-! ### The end of the target -/

/-- After the run over `pre`, the loop takes its sample in `it`, ends in that
iteration with code 0 and nothing further recorded, and starts none of
`post`. -/
def StopsWith (cfg : Prober) (start : Time) (pre : List Iteration) (it : Iteration)
    (post : List Iteration) : Prop :=
  probeRun cfg start (pre ++ it :: post) =
    { samples := it.sample cfg (probeRun cfg start pre).samples
      continued := (probeRun cfg start pre).continued
      last := some (it, 0) }

theorem probeRun_append_cons {cfg : Prober} {start : Time} {pre post : List Iteration}
    {it : Iteration} :
    probeRun cfg start (pre ++ it :: post) =
      post.foldl (Progress.step cfg (endTime cfg start))
        ((probeRun cfg start pre).step cfg (endTime cfg start) it) := by
  simp [probeRun]

theorem foldl_step_finished (cfg : Prober) (finish : Time) {p : Progress}
    (h : p.last.isSome) (its : List Iteration) : its.foldl (Progress.step cfg finish) p = p := by
  induction its with
  | nil => rfl
  | cons it its ih =>
      obtain ⟨last, hlast⟩ := Option.isSome_iff_exists.mp h
      rwa [List.foldl_cons, show p.step cfg finish it = p by simp [Progress.step, hlast]]

theorem continued_le_foldl_step (cfg : Prober) (finish : Time) (p : Progress)
    (its : List Iteration) :
    p.continued.length ≤ (its.foldl (Progress.step cfg finish) p).continued.length := by
  induction its generalizing p with
  | nil => exact Nat.le_refl _
  | cons it its ih =>
      refine Nat.le_trans ?_ (ih (p.step cfg finish it))
      cases hlast : p.last with
      | some last => simp [Progress.step, hlast]
      | none =>
          rcases p.step_cases cfg finish it hlast with ⟨-, hstep⟩ | ⟨code, -, hstep⟩ <;> simp [hstep]

/-- Suppose an iteration gets as far as `PtraceInterrupt`, and the wait there
is told that the target has ended. Then nothing more is asked of the system
in that iteration, and the loop stops with what it has sampled and code 0
exactly when the target exited by itself. -/
theorem probeRun_stops_iff (cfg : Prober) (start : Time) (pre : List Iteration) (it : Iteration)
    (post : List Iteration) (hrunning : (probeRun cfg start pre).last = none)
    {threads : List Thread} (hthreads : it.threads = .ok threads)
    (hend : pastEnd cfg (endTime cfg start) it.now = false) (hcont : it.cont = .ok ())
    {σ : Type} (h : Handler sys σ) (fuel : ℕ) (s : σ) {tr tr' : List (Exchange sys σ)}
    {x : Exchange sys σ} {status : Status} (hended : Ended status)
    (htrace : trace h (ptraceInterrupt fuel cfg.pid) s = tr ++ x :: tr')
    (htold : told x = some (cfg.pid, status))
    (hinterrupt : (run h (ptraceInterrupt fuel cfg.pid) s).1 =
      match it.interrupt with
      | .ok () => .ok ()
      | .error e => .error e) :
    tr' = [] ∧ (StopsWith cfg start pre it post ↔ WIFEXITED status = true) := by
  obtain ⟨hnil, hrun⟩ := trace_ptraceInterrupt_ended hended htrace htold
  refine ⟨hnil, ?_⟩
  have hraised : it.raised cfg (endTime cfg start) = some (endException cfg.pid status) := by
    rw [hrun] at hinterrupt
    cases hi : it.interrupt with
    | ok => simp [hi] at hinterrupt
    | error e =>
        rw [hi] at hinterrupt
        simp only [Iteration.raised, hthreads, hend, hcont, hi]
        simpa using hinterrupt.symm
  have hprobe := it.probe_eq cfg (endTime cfg start) (probeRun cfg start pre).samples
  rw [hraised] at hprobe
  constructor
  · intro hstops
    by_contra hexited
    have hagain : (it.probe cfg (endTime cfg start) (probeRun cfg start pre).samples).2 = .again := by
      simp [hprobe, endException, hexited, handled]
    have hlen := continued_le_foldl_step cfg (endTime cfg start)
      ((probeRun cfg start pre).step cfg (endTime cfg start) it) post
    rw [← probeRun_append_cons, hstops, Progress.step_again hrunning hagain] at hlen
    simp only [List.length_append, List.length_singleton] at hlen
    omega
  · intro hexited
    have hfinish : it.probe cfg (endTime cfg start) (probeRun cfg start pre).samples =
        (it.sample cfg (probeRun cfg start pre).samples, .finish 0) := by
      simp [hprobe, endException, hexited, handled]
    rw [StopsWith, probeRun_append_cons,
      Progress.step_finish hrunning (congrArg Prod.snd hfinish), hfinish]
    exact foldl_step_finished cfg _ rfl post

/-- A target that ends with `status` during the wait. -/
def endsWith (status : Status) : Handler sys Unit :=
  answer fun
    | .waitpid pid _ => .ok (pid, status)
    | .interrupt _ => .ok ()
    | r => refuse r

def lastIteration (status : Status) : Iteration :=
  ⟨1000000, .ok [], .ok (), .error (endException 1 status)⟩

/-- Exit status 3. -/
theorem probeRun_stops_on_exit :
    StopsWith briefly 0 [⟨0, .ok [], .ok (), .ok ()⟩] (lastIteration 0x300) [] := by
  have htrace : trace (endsWith 0x300) (ptraceInterrupt 2 1) () =
      [⟨(), .interrupt 1, .ok ()⟩] ++ ⟨(), .waitpid 1 0, .ok (1, 0x300)⟩ :: [] := rfl
  have hended : Ended 0x300 := .inl (by decide)
  have hrunning : (probeRun briefly 0 [⟨0, .ok [], .ok (), .ok ()⟩]).last.isNone := by
    decide +kernel
  exact (probeRun_stops_iff briefly 0 _ (lastIteration 0x300) [] (Option.isNone_iff_eq_none.mp hrunning)
    rfl (by decide +kernel) rfl (endsWith 0x300) 2 () hended htrace rfl (by decide +kernel)).2.mpr
    (by decide)

/-- Killed by signal 9 during the wait, the target counts as a failed sample,
and the loop goes on to the next iteration. -/
theorem probeRun_survives_kill :
    ((run (endsWith 9) (ptraceInterrupt 2 1) ()).1 = .error (endException 1 9) ∧ Ended 9) ∧
      ¬ StopsWith briefly 0 [] (lastIteration 9) [⟨11000000, .error (.ptrace []), .ok (), .ok ()⟩] := by
  refine ⟨⟨by decide +kernel, .inr (by decide)⟩, fun h => ?_⟩
  have := congrArg (·.continued.length) h
  revert this
  decide +kernel

end Pyflame
