import Pyflame.Heap
import Pyflame.Library.Layers
import Pyflame.Prober
import Pyflame.SingleStep

/-!
What becomes of the signals that are sent to the target.

A signal stops a traced process before it is delivered. The stop is reported
by a wait, and the request that resumes the process says which signal it is
to get. pyflame always says none.
-/

namespace Pyflame

open Interaction

/-! ### The mail of the target -/

/-- The signal that a status reports as about to be delivered. A status with an event
in its upper half reports something else, and there is no signal 0. -/
def deliveryStop (status : Status) : Option Status :=
  if WIFSTOPPED status ∧ status >>> 16 = 0 ∧ WSTOPSIG status ≠ 0 then some (WSTOPSIG status)
  else none

/-- The stop the target is in, if it is one for a signal, the signals it got, and those
it did not get. -/
structure Mail where
  stop : Option Status := none
  delivered : List Status := []
  suppressed : List Status := []
  deriving DecidableEq

/-- The target is resumed with this signal number. -/
def Mail.resume (m : Mail) (signum : Status) : Mail :=
  match m.stop with
  | none => m
  | some sent =>
      if sent = signum then { m with stop := none, delivered := m.delivered ++ [sent] }
      else { m with stop := none, suppressed := m.suppressed ++ [sent] }

section

variable (pid : Pid)

/-- The signal number with which a request resumes the target, if it does. The `data`
of all of them is 0. -/
def resumes : (r : Request) → r.Rep → Option Status
  | .cont p, .ok _ | .singleStep p, .ok _ | .detach p, .ok _ => if p = pid then some 0 else none
  | _, _ => none

/-- The status of the target that a wait tells of. -/
def toldOf : (r : Request) → r.Rep → Option Status
  | .waitpid _ _, .ok (progeny, status) => if progeny = pid then some status else none
  | _, _ => none

/-- The signal that a wait reports. -/
def delivery (r : Request) (rep : r.Rep) : Option Status := (toldOf pid r rep).bind deliveryStop

def Mail.exchange (m : Mail) (r : Request) (rep : r.Rep) : Mail :=
  match toldOf pid r rep, resumes pid r rep with
  | some status, _ => { m with stop := deliveryStop status }
  | none, some signum => m.resume signum
  | none, none => m

def mail (log : Log sys) : Mail := log.foldl (fun m x => m.exchange pid x.1 x.2) {}

/-- Every signal that was reported has been passed on. The one for which the target is still
stopped at the end has not, and it will not be: what resumes the target then is a
`PTRACE_DETACH` without a signal. -/
def Transparent (log : Log sys) : Prop :=
  (mail pid log).suppressed = [] ∧ (mail pid log).stop = none

/-- No wait reports a signal. -/
def Unsignalled (log : Log sys) : Prop := ∀ x ∈ log, delivery pid x.1 x.2 = none

/-! ### Logs -/

/-- What holds of the log of a program that waits only for a target that it has
resumed. -/
structure Accounted (log : Log sys) : Prop where
  stop_ne_zero : (mail pid log).stop ≠ some 0
  reported : log.filterMap (fun x => delivery pid x.1 x.2) =
    (mail pid log).suppressed ++ (mail pid log).stop.toList

/-- The same, and the target is not stopped for a signal. -/
def Awaited (log : Log sys) : Prop := Accounted pid log ∧ (mail pid log).stop = none

end

section

variable {pid : Pid} {log : Log sys} {r : Request} {rep : r.Rep}

theorem mail_concat : mail pid (log ++ [⟨r, rep⟩]) = (mail pid log).exchange pid r rep := by
  simp [mail]

theorem deliveryStop_ne_zero (status : Status) : deliveryStop status ≠ some 0 := by
  unfold deliveryStop
  split_ifs with h
  · exact fun heq => h.2.2 (Option.some.inj heq)
  · exact nofun

theorem accounted_nil : Accounted pid [] := ⟨nofun, rfl⟩

/-- A request that neither resumes the target nor tells of it. -/
theorem Accounted.idle (h : Accounted pid log) (htold : toldOf pid r rep = none)
    (hresumes : resumes pid r rep = none) :
    Accounted pid (log ++ [⟨r, rep⟩]) ∧ mail pid (log ++ [⟨r, rep⟩]) = mail pid log := by
  have hmail : mail pid (log ++ [⟨r, rep⟩]) = mail pid log := by
    rw [mail_concat, Mail.exchange, htold, hresumes]
  refine ⟨⟨?_, ?_⟩, hmail⟩
  · rw [hmail]
    exact h.stop_ne_zero
  · rw [hmail, ← h.reported]
    simp [delivery, htold]

/-- A wait that tells of the target. -/
theorem Awaited.told {status : Status} (h : Awaited pid log)
    (htold : toldOf pid r rep = some status) : Accounted pid (log ++ [⟨r, rep⟩]) := by
  obtain ⟨h, hstop⟩ := h
  have hmail : mail pid (log ++ [⟨r, rep⟩]) = { mail pid log with stop := deliveryStop status } := by
    rw [mail_concat, Mail.exchange, htold]
  refine ⟨?_, ?_⟩
  · rw [hmail]
    exact deliveryStop_ne_zero status
  · have hreported := h.reported
    rw [hstop, Option.toList_none, List.append_nil] at hreported
    rw [hmail, List.filterMap_append, hreported]
    cases hdelivery : deliveryStop status <;> simp [delivery, htold, hdelivery]

/-- A request that resumes the target, without a signal. -/
theorem Accounted.resumed (h : Accounted pid log) (htold : toldOf pid r rep = none)
    (hresumes : resumes pid r rep = some 0) : Awaited pid (log ++ [⟨r, rep⟩]) := by
  -- It loses the signal for which the target was stopped.
  have hmail : mail pid (log ++ [⟨r, rep⟩]) =
      ⟨none, (mail pid log).delivered, (mail pid log).suppressed ++ (mail pid log).stop.toList⟩ := by
    rw [mail_concat, Mail.exchange, htold, hresumes]
    have hne := h.stop_ne_zero
    generalize mail pid log = m at hne ⊢
    obtain ⟨stop, delivered, suppressed⟩ := m
    cases stop with
    | none => simp [Mail.resume]
    | some sent =>
        have hsent : sent ≠ 0 := fun heq => hne (congrArg some heq)
        simp only [Mail.resume, if_neg hsent, Option.toList_some]
  refine ⟨⟨?_, ?_⟩, ?_⟩
  · rw [hmail]
    exact nofun
  · rw [hmail, ← h.reported]
    simp [delivery, htold]
  · rw [hmail]

end

/-! ### The loop -/

section

variable {pid : Pid} {log : Log sys}

/-- What has been reported is passed on only if there is nothing. -/
theorem Accounted.transparent_iff (h : Accounted pid log) :
    Transparent pid log ↔ Unsignalled pid log := by
  have hreported := h.reported
  rw [Transparent, Unsignalled, ← List.filterMap_eq_nil_iff, hreported, List.append_eq_nil_iff,
    Option.toList_eq_nil_iff]

/-- Whatever happened, it is accounted for. -/
abbrev Accounts (pid : Pid) {α : Type} (_ : Outcome Exception α) (log : Log sys) : Prop :=
  Accounted pid log

/-- After a call of `PtraceCont` the target waits for nothing, unless it has thrown. -/
def Released (pid : Pid) : Outcome Exception (Except Exception Unit) → Log sys → Prop
  | .ok (.ok _), log => Awaited pid log
  | .ok (.error _), log => Accounted pid log
  | .error _, _ | .abort, _ | .cut, _ => False

theorem wp_ptraceCont_signals (h : Accounted pid log) :
    wp (Env.logging sys) (Released pid) (ptraceCont pid).attempt log := by
  apply And.intro trivial
  intro rep log' hlog
  subst hlog
  cases rep with
  | error e => exact (h.idle rfl rfl).1
  | ok => exact h.resumed rfl (if_pos rfl)

/-- `DoWait` waits only for a target that runs. -/
theorem awaited_wait : WaitRule (Env.logging sys) pid 0 (Awaited pid) (Accounts pid) where
  cut log h := h.1
  permits _ _ := trivial
  failed log e log' h hlog what := by
    subst hlog
    exact (h.1.idle rfl rfl).1
  stranger log progeny status log' h hlog hne := by
    subst hlog
    have htold : toldOf pid (.waitpid pid 0) (.ok (progeny, status)) = none := if_neg hne
    exact (h.1.idle htold rfl).1
  trap log status log' h hlog hstopped htrap := by
    subst hlog
    exact h.told (if_pos rfl)
  child log status log' h hlog hstopped hchild := by
    subst hlog
    have htold : Accounted pid (log ++ [⟨.waitpid pid 0, .ok (pid, status)⟩]) :=
      h.told (if_pos rfl)
    refine ⟨trivial, fun log'' hlog => ?_, fun e log'' hlog what => ?_⟩
    · subst hlog
      exact htold.resumed rfl (if_pos rfl)
    · subst hlog
      exact (htold.idle rfl rfl).1
  signal log status log' h hlog _ _ _ what := by
    subst hlog
    exact h.told (if_pos rfl)
  exited log status log' h hlog _ _ what := by
    subst hlog
    exact h.told (if_pos rfl)
  died log status log' h hlog _ _ what := by
    subst hlog
    exact h.told (if_pos rfl)

theorem wp_ptraceInterrupt_signals {fuel : ℕ} (h : Awaited pid log) :
    wp (Env.logging sys) (Accounts pid) (ptraceInterrupt fuel pid) log := by
  apply And.intro trivial
  intro rep log' hlog
  subst hlog
  have htold : toldOf pid (.interrupt pid) rep = none := rfl
  obtain ⟨hidle, hmail⟩ := h.1.idle htold rfl
  cases rep with
  | error e => exact hidle
  | ok =>
      have hwait : Awaited pid (log ++ [⟨.interrupt pid, .ok ()⟩]) := ⟨hidle, hmail ▸ h.2⟩
      show wp _ _ ((doWait fuel pid 0).bind _) _
      refine wp_bind_of (awaited_wait.wp_doWait fuel hwait) fun o log' ho => ?_
      cases o <;> exact ho

theorem wp_reading_signals {α : Type} {p : Tracer α} (hp : p.Only Request.Reading)
    (h : Accounted pid log) : wp (Env.logging sys) (Accounts pid) p log := by
  refine wp_of_only hp (fun r hr log h => ⟨trivial, fun rep log' hlog => ?_⟩) h
  subst hlog
  cases r <;> first | exact hr.elim | exact (h.idle rfl rfl).1

variable {α β : Type}

theorem wp_attempt_signals {p : Tracer α} (hp : wp (Env.logging sys) (Accounts pid) p log) :
    wp (Env.logging sys) (Accounts pid) p.attempt log := by
  apply wp_attempt.mpr
  refine wp_mono (fun o log' ho => ?_) hp
  cases o <;> exact ho

theorem wp_bind_signals {p : Tracer β} {f : β → Tracer α}
    (hp : wp (Env.logging sys) (Accounts pid) p log)
    (hf : ∀ b log', Accounted pid log' → wp (Env.logging sys) (Accounts pid) (f b) log') :
    wp (Env.logging sys) (Accounts pid) (p.bind f) log := by
  refine wp_bind_of hp fun o log' ho => ?_
  cases o with
  | ok b => exact hf b log' ho
  | error | abort | cut => exact ho

variable {fuel : ℕ} {cfg : Prober} {frobber : Tracer (List Thread)}

theorem wp_handleException_signals {now : Time} {s : Samples} {e : Exception}
    (h : Accounted cfg.pid log) :
    wp (Env.logging sys) (Accounts cfg.pid)
      (handleException cfg (systemCalls fuel cfg frobber) now s e) log := by
  cases e with
  | terminate what => exact h
  | fatal what | symbol what | ptrace what | other what =>
      apply And.intro trivial
      intro rep log' hlog
      subst hlog
      exact (h.idle rfl rfl).1

theorem wp_probeIteration_signals {finish : Time} {s : Samples}
    (hfrobber : frobber.Only Request.Reading) (h : Accounted cfg.pid log) :
    wp (Env.logging sys) (Accounts cfg.pid)
      (probeIteration cfg (systemCalls fuel cfg frobber) finish s) log := by
  apply And.intro trivial
  intro now log' hlog
  subst hlog
  apply wp_bind_signals (wp_attempt_signals (wp_reading_signals hfrobber (h.idle rfl rfl).1))
  intro threads log hlog
  cases threads with
  | error e => exact wp_handleException_signals hlog
  | ok threads =>
      show wp _ _ (if pastEnd cfg finish now = true then _ else _) _
      by_cases hend : pastEnd cfg finish now = true
      · rw [if_pos hend]
        exact hlog
      · rw [if_neg hend]
        show wp _ _ ((ptraceCont cfg.pid).attempt.bind _) log
        apply wp_bind_of (wp_ptraceCont_signals hlog)
        intro o log ho
        cases o with
        | error | abort | cut => exact ho.elim
        | ok resumed =>
            cases resumed with
            | error e => exact wp_handleException_signals ho
            | ok =>
                -- While it sleeps nothing is asked of the target.
                apply And.intro trivial
                intro slept log' hslept
                subst hslept
                have htold : toldOf cfg.pid (.sleepFor cfg.interval) slept = none := rfl
                obtain ⟨hidle, hmail⟩ := ho.1.idle htold rfl
                apply wp_bind_signals (wp_attempt_signals
                  (wp_ptraceInterrupt_signals ⟨hidle, hmail ▸ ho.2⟩))
                intro interrupted log hlog
                cases interrupted with
                | error e => exact wp_handleException_signals hlog
                | ok => exact hlog

/-- In every run of `ProbeLoop`, what has been reported and what has been suppressed are
accounted for. -/
theorem wp_probeLoop_signals (std : StdLib) (fuel : ℕ) (cfg : Prober)
    {frobber : Tracer (List Thread)} (hfrobber : frobber.Only Request.Reading) :
    wp (Env.logging sys) (Accounts cfg.pid) (probeLoop std fuel cfg frobber) [] := by
  apply And.intro trivial
  intro start log hlog
  subst hlog
  refine wp_bind_signals (p := Prog.forever _ fuel _) ?_ fun _ _ hlog => hlog
  apply wp_forever (fun _ log => Accounted cfg.pid log)
  · exact fun _ _ h => h
  · intro s log h
    apply wp_bind_of (wp_probeIteration_signals hfrobber h)
    intro o log ho
    cases o with
    | error | abort | cut => exact ho
    | ok result =>
        obtain ⟨s, next⟩ := result
        cases next <;> exact ho
  · exact (accounted_nil.idle rfl rfl).1

end

/-- **Signals.** A run of `ProbeLoop` passes on every signal that it has seen exactly if
it has seen none. -/
theorem probeLoop_transparent_iff (H : Headers) (std : StdLib) (fuel : ℕ) (cfg : Prober)
    (addrs : PyAddresses) (enable_threads : Bool) {σ : Type} (h : Handler sys σ) (s : σ) :
    let log := logOf (trace h
      (probeLoop std fuel cfg (getThreads H fuel cfg.pid addrs enable_threads)) s)
    Transparent cfg.pid log ↔ Unsignalled cfg.pid log := by
  intro log
  have hfrobber := reading_getThreads H fuel cfg.pid addrs enable_threads
  have haccounted := wp_logging (wp_probeLoop_signals std fuel cfg hfrobber) h s
  rw [List.nil_append] at haccounted
  exact haccounted.transparent_iff

/-! ### A child of the target dies -/

/-- A process without Python threads. The state is the clock and the signals that will
stop it. -/
def signalled : Handler sys (Time × List (BitVec 8)) := fun
  | .now, (clock, signals) => (clock, clock, signals)
  | .sleepFor interval, (clock, signals) => ((), clock + onClock interval, signals)
  | .waitpid pid _, (clock, signum :: signals) => (.ok (pid, stopStatus signum), clock, signals)
  | .waitpid pid _, (clock, []) => (.ok (pid, 0x80057f), clock, [])
  | .cont _, s | .interrupt _, s => (.ok (), s)
  | .peekData _ _, s => (.ok 0, s)
  | r, s => (refuse r, s)

/-- Two samples, with a `SIGCHLD` between them. -/
def signalledRun : Outcome Exception (Printed × ℕ) × Log sys :=
  let p := probeLoop plainLib 2 { pid := 1, seconds := 1 / 50 } (getThreads py27 2 1 {} false)
  ((run signalled p (0, [17])).1, logOf (trace signalled p (0, [17])))

theorem probeLoop_not_transparent : ¬ Transparent 1 signalledRun.2 := by
  have hmail : mail 1 signalledRun.2 = ⟨none, [], [17]⟩ := by
    decide +kernel
  rw [Transparent, hmail]
  exact fun h => absurd h.1 nofun

end Pyflame
