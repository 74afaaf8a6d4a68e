import Pyflame.Footprint
import Pyflame.Heap

/-!
A target that is only looked at.

Without thread support pyflame calls no function in the target, so it has no
page there to clean up either. What is shown is that nothing on the way of a
run writes to the target, whatever fails and whatever is replied: not while the
symbols are looked for, not in a sample, and not on the way out.
-/

namespace Pyflame

open Interaction

section

variable (pid : Pid)

/-- What may be asked of a target that is not to be changed: no write to its memory or to a
register, no step of its own, and nothing of a thread other than the main one. -/
def Request.Watching : Request → Prop
  | .attach _ | .getRegs _ | .setRegs _ _ | .pokeData _ _ _ | .singleStep _ | .opendir _ | .readdir
  | .setProbe _ => False
  | .seize p | .detach p | .interrupt p | .peekData p _ | .setOptions p _ | .cont p => p = pid
  | .waitpid p _ => p = pid ∨ p = 0 ∨ p = -1
  | _ => True

/-- What is known of the replies: `probe_` is what it was set to, and the child has this pid. -/
def watchedStep (probe : Word) (r : Request) : r.Rep → Word → Prop :=
  match r with
  | .probe => fun rep probe' => rep = probe ∧ probe' = probe
  | .setProbe page => fun _ probe' => probe' = page
  | .fork => fun rep probe' => (∀ p, rep = .ok p → p = 0 ∨ p = pid) ∧ probe' = probe
  | _ => fun _ probe' => probe' = probe

def watched : Env sys Word := ⟨watchedStep pid, fun _ r => r.Watching pid⟩

end

section

variable {pid : Pid} {fuel : ℕ} {page : Word}

theorem keeps_watching {α : Type} {p : Tracer α} (hp : p.Only (Request.Watching pid)) :
    Keeps (watched pid) (· = page) p := by
  refine .of_only hp fun r hr probe hprobe => ⟨hr, fun rep probe' h => ?_⟩
  cases r with
  | setProbe => exact hr.elim
  | probe | fork => exact h.2.trans hprobe
  | _ => exact Eq.trans h hprobe

/-! ### What the calls ask for -/

theorem watching_of_foreign (r : Request) (hr : r.Foreign) : r.Watching pid := by
  cases r <;> first | exact hr.elim | trivial

theorem watching_ptraceCont : (ptraceCont pid).Only (Request.Watching pid) := only_ptraceCont rfl

theorem watching_ptraceInterrupt : (ptraceInterrupt fuel pid).Only (Request.Watching pid) :=
  only_ptraceInterrupt rfl (.inl rfl) rfl

theorem watching_detectABI (abi : PyABI) :
    (detectABI fuel pid false abi).Only (Request.Watching pid) :=
  (foreign_detectABI abi).mono watching_of_foreign

/-- `probe_` is zero, so that there is no page to unmap. -/
theorem keeps_watched_ptraceCleanup : Keeps (watched pid) (· = 0) (ptraceCleanup fuel pid) := by
  refine fun probe hprobe => ⟨trivial, fun rep probe' h => ?_⟩
  obtain ⟨rfl, rfl⟩ := h
  obtain rfl := hprobe
  exact keeps_watching (p := safeDetach pid) (.bind (.ask rfl) fun _ => trivial) 0 rfl

/-! ### Runs -/

variable {cfg : Settings} {headers : PyABI → Headers} {n : ℕ}

theorem keeps_runs {c : Call} {found : PyABI × PyAddresses} (hc : c.Runs cfg found) :
    Keeps (watched cfg.pid) (· = page) (c.impl headers n) := by
  cases hc with
  | getThreads =>
      exact keeps_watching
        (only_getThreads _ n cfg.pid (fun _ => rfl) (fun _ => trivial) _ _).attempt
  | ptraceCont => exact keeps_watching watching_ptraceCont.attempt
  | ptraceInterrupt => exact keeps_watching watching_ptraceInterrupt.attempt
  | openOutput | sleepFor | now | cerr => exact keeps_watching (.ask trivial)

theorem keeps_profiles {c : Call} (hc : c.Profiles cfg) (hthreads : cfg.enable_threads = false) :
    Keeps (watched cfg.pid) (· = 0) (c.impl headers n) := by
  cases hc with
  | find hc =>
      cases hc with
      | detectABI =>
          rw [hthreads]
          exact keeps_watching (watching_detectABI _).attempt
      | ptraceCont => exact keeps_watching watching_ptraceCont.attempt
      | ptraceInterrupt => exact keeps_watching watching_ptraceInterrupt.attempt
      | sleepFor | cerr => exact keeps_watching (.ask trivial)
  | run found hc => exact keeps_runs hc
  | ptraceCleanup => exact keeps_watched_ptraceCleanup

theorem keeps_initiates {c : Call} (hc : c.Initiates cfg pid) :
    Keeps (watched pid) (· = page) (c.impl headers n) := by
  cases hc with
  | fork | execvp | cerr => exact keeps_watching (.ask trivial)
  | waitForked => exact keeps_watching (.ask (.inr (.inl rfl)))
  | waitExec => exact keeps_watching (.ask (.inr (.inr rfl)))
  | ptraceTraceme =>
      refine keeps_watching (Prog.Only.attempt (.bind (.ask trivial) fun rep => ?_))
      exact (only_orThrow _ rep).bind fun _ => .ask trivial
  | ptraceSetOptions | ptraceDetach | ptraceSeize =>
      exact keeps_watching (Prog.Only.attempt (.bind (.ask rfl) fun rep => only_orThrow _ rep))
  | ptraceCont => exact keeps_watching watching_ptraceCont.attempt
  | ptraceInterrupt => exact keeps_watching watching_ptraceInterrupt.attempt

end

/-- **Sampling does not touch the target**, with or without thread support: whatever page is
left of a call in the target, `Run` writes nothing to it. -/
theorem runProber_untouched (std : StdLib) (headers : PyABI → Headers) (fuel n : ℕ) (cfg : Settings)
    (found : PyABI × PyAddresses) (page : Word) :
    wp ((watched cfg.pid).via (fun _ _ => True) (Call.impl headers n)) (AtEnd (· = page))
      (runProber std fuel cfg found) page :=
  Keeps.via (calls_runProber std found) (fun _ _ _ _ => trivial) (fun _ hc => keeps_runs hc) page rfl

/-- **Without thread support the target is not touched**: no run of `main`, wherever it fails,
writes to its memory or registers, steps it or traces another of its threads. -/
theorem main_untouched (std : StdLib) (headers : PyABI → Headers) (fuel n : ℕ) (cfg : Settings)
    (forked : Pid) (hthreads : cfg.enable_threads = false) :
    wp ((watched (targetPid cfg forked)).via (fun _ _ => True) (Call.impl headers n)) (AtEnd (· = 0))
      (main std fuel cfg) 0 := by
  refine keeps_main std forked rfl (fun c hc => ?_) (fun c hc => ?_) ?_ 0 rfl
  · exact .via (.ask hc) (fun _ _ _ _ => trivial) fun _ hc => keeps_initiates hc
  · exact .via (.ask hc) (fun _ _ _ _ => trivial) fun _ hc => keeps_profiles hc hthreads
  · rintro s p s' ⟨rep, t, ⟨hrep, -⟩, hret, -⟩
    exact hrep p (Outcome.ok.inj hret).symm

/-- Attached to a process, with the options that are the default. -/
theorem main_untouched_attached :
    wp ((watched 7).via (fun _ _ => True) (Call.impl (fun _ => py27) 9)) (AtEnd (· = 0))
      (main plainLib 9 { pid := 7 }) 0 :=
  main_untouched plainLib (fun _ => py27) 9 9 { pid := 7 } 1 rfl

end Pyflame
