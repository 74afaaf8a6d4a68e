import Pyflame.Library.Layers
import Pyflame.Main
import Pyflame.Wait

/-!
The main thread of the target is stopped wherever the driver counts on it.

Whether it is stopped is nowhere in the program: it has to be carried through
both modes of `InitiatePtrace`, the retries of `FindSymbols` and the handlers of
`ProbeLoop`. Here it is the state of the environment, and what Linux is taken to
promise of a target that is alive is all that the environment says.
-/

namespace Pyflame

open Interaction

/-- The main thread of the target, as far as waits have told of it. -/
inductive Life
  /-- It is not traced, or not yet there. -/
  | untraced
  | running
  /-- It is in a ptrace stop. -/
  | stopped
  | gone
  deriving DecidableEq, Repr

/-- It is stopped as long as it is alive. -/
def Held (t : Life) : Prop := t = .stopped ∨ t = .gone

section

variable (pid : Pid)

/-- What may be replied while the target stays alive, and what becomes of it. An
interrupt of a traced thread succeeds, and so does resuming a stopped one; a
wait for a traced thread that runs is told of its stop. -/
def lives (t : Life) (r : Request) : r.Rep → Life → Prop :=
  match r with
  | .fork => fun
      | .ok p, t' => p = 0 ∧ t' = t ∨ p = pid ∧ t = .untraced ∧ t' = .running
      | .error _, t' => t' = t
  | .seize p => fun
      | .ok _, t' => if p = pid then t = .untraced ∧ t' = .running else t' = t
      | .error _, t' => t' = t
  | .interrupt _ => fun
      | .ok _, t' => t' = t
      | .error _, t' => t = .untraced ∧ t' = t
  | .cont p => fun
      | .ok _, t' => if p = pid then t = .stopped ∧ t' = .running else t' = t
      | .error _, t' => (p = pid → t ≠ .stopped) ∧ t' = t
  | .singleStep p => fun
      | .ok _, t' => if p = pid then t = .stopped ∧ t' = .running else t' = t
      | .error _, t' => t' = t
  | .detach p => fun
      | .ok _, t' => if p = pid then t = .stopped ∧ t' = .untraced else t' = t
      | .error _, t' => t' = t
  | .waitpid p _ => fun
      | .ok (q, status), t' =>
          if q = pid then WIFSTOPPED status = true ∧ t = .running ∧ t' = .stopped
          else p ≠ pid ∧ t' = t
      | .error _, t' => (p = pid ∨ p = 0 ∨ p = -1 → t ≠ .running) ∧ t' = t
  | _ => fun _ t' => t' = t

/-- The target may end at any moment, with whatever reply. -/
def lifeStep (t : Life) (r : Request) (rep : r.Rep) (t' : Life) : Prop :=
  t' = .gone ∨ t ≠ .gone ∧ lives pid t r rep t'

/-- Where `PTRACE_CONT` may be asked for. -/
def resumesHeld (t : Life) : Request → Prop
  | .cont p => p = pid → Held t
  | _ => True

def life : Env sys Life := ⟨lifeStep pid, resumesHeld pid⟩

/-- Where a call may be made. -/
def madeHeld (t : Life) : Call → Prop
  | .detectABI _ _ _ | .getThreads _ _ _ _ | .ptraceCont _ => Held t
  | _ => True

/-- Requests that leave a stopped thread stopped. -/
def Request.Holding : Request → Prop
  | .cont _ | .singleStep _ => False
  | .detach p => p ≠ pid
  | _ => True

end

/-! ### The functions of `ptrace.cc` -/

section

variable {pid : Pid} {fuel : ℕ} {t t' : Life}

theorem held_gone : Held .gone := .inr rfl

theorem lifeStep_holding {r : Request} (hr : r.Holding pid) (ht : Held t) {rep : r.Rep}
    (h : lifeStep pid t r rep t') : Held t' := by
  rcases h with rfl | ⟨hne, h⟩
  · exact held_gone
  -- Alive and held, so it is stopped: what is asked for neither resumes nor detaches it.
  obtain rfl := ht.resolve_right hne
  cases r with
  | cont | singleStep => exact hr.elim
  | detach p =>
      cases rep with
      | ok =>
          change (if p = pid then _ else _) at h
          rw [if_neg hr] at h
          exact .inl h
      | error => exact .inl h
  | fork =>
      cases rep with
      | ok p =>
          rcases h with ⟨-, h⟩ | ⟨-, hcontra, -⟩
          · exact .inl h
          · contradiction
      | error => exact .inl h
  | seize p =>
      cases rep with
      | ok =>
          change (if p = pid then _ else _) at h
          split_ifs at h
          · exact absurd h.1 (by decide)
          · exact .inl h
      | error => exact .inl h
  | interrupt p =>
      cases rep with
      | ok => exact .inl h
      | error => exact .inl h.2
  | waitpid p options =>
      cases rep with
      | ok told =>
          change (if told.1 = pid then _ else _) at h
          split_ifs at h
          · exact absurd h.2.1 (by decide)
          · exact .inl h.2
      | error => exact .inl h.2
  | _ => exact .inl h

theorem keeps_holding {α : Type} {p : Tracer α} (hp : p.Only (Request.Holding pid)) :
    Keeps (life pid) Held p := by
  refine .of_only hp fun r hr t ht => ⟨?_, fun rep t' => lifeStep_holding hr ht⟩
  cases r <;> first | exact hr.elim | trivial

/-- What a wait for the thread tells of it. -/
theorem held_of_told {p : Pid} {status : Status} {options : ℤ}
    (h : lifeStep pid t (.waitpid p options) (.ok (pid, status)) t') : Held t' := by
  rcases h with rfl | ⟨-, h⟩
  · exact held_gone
  · change (if pid = pid then _ else _) at h
    rw [if_pos rfl] at h
    exact .inl h.2.2

theorem held_of_cont_error {e : Bytes} (ht : Held t)
    (h : lifeStep pid t (.cont pid) (.error e) t') : Held t' := by
  rcases h with rfl | ⟨hne, hstopped, -⟩
  · exact held_gone
  · exact absurd (ht.resolve_right hne) (hstopped rfl)

theorem traced_of_cont (h : lifeStep pid t (.cont pid) (.ok ()) t') : t' ≠ .untraced := by
  rcases h with rfl | ⟨-, h⟩
  · decide
  · change (if pid = pid then _ else _) at h
    rw [if_pos rfl] at h
    rw [h.2]
    decide

/-- A wait for a traced thread ends with the thread stopped. -/
theorem held_wait : WaitRule (life pid) pid 0 (· ≠ .untraced) (AtEnd Held) where
  cut _ _ := trivial
  permits _ _ := trivial
  stranger _ _ _ _ _ _ _ := trivial
  failed t e t' ht h _ := by
    rcases h with rfl | ⟨hne, hrunning, rfl⟩
    · exact held_gone
    · have := hrunning (.inl rfl)
      cases t' <;> first | exact .inl rfl | contradiction
  trap t status t' _ h _ _ := held_of_told h
  child t status t' _ h _ _ :=
    ⟨fun _ => held_of_told h, fun t'' hcont => traced_of_cont hcont,
      fun e t'' hcont _ => held_of_cont_error (held_of_told h) hcont⟩
  signal t status t' _ h _ _ _ _ := held_of_told h
  exited t status t' _ h _ _ _ := held_of_told h
  died t status t' _ h _ _ _ := held_of_told h

theorem wp_doWait_held (ht : t ≠ .untraced) :
    wp (life pid) (AtEnd Held) (doWait fuel pid 0) t :=
  held_wait.wp_doWait fuel ht

/-- What follows the wait finds the thread stopped. -/
theorem wp_doWait_bind_held {α : Type} {f : Status → Tracer α} (ht : t ≠ .untraced)
    (hf : ∀ status, Keeps (life pid) Held (f status)) :
    wp (life pid) (AtEnd Held) ((doWait fuel pid 0).bind f) t := by
  refine wp_bind_of (wp_doWait_held ht) fun o t' ho => ?_
  cases o with
  | ok status => exact hf status t' ho
  | error => exact ho
  | abort | cut => trivial

theorem wp_ptraceInterrupt_held (ht : t ≠ .untraced) :
    wp (life pid) (AtEnd Held) (ptraceInterrupt fuel pid) t := by
  refine ⟨trivial, fun rep t' h => ?_⟩
  cases rep with
  | error e =>
      rcases h with rfl | ⟨-, hcontra, -⟩
      · exact held_gone
      · exact absurd hcontra ht
  | ok =>
      have htraced : t' ≠ .untraced := by
        rcases h with rfl | ⟨-, rfl⟩
        · decide
        · exact ht
      show wp (life pid) (AtEnd Held) ((doWait fuel pid 0).bind _) t'
      exact wp_doWait_bind_held htraced fun _ => .ret

/-- The thread has been resumed, or it has not been and is stopped still. -/
def Resumed : Outcome Exception Unit → Life → Prop
  | .ok _, t => t ≠ .untraced
  | .error _, t => Held t
  | .abort, _ | .cut, _ => True

theorem wp_ptraceCont_held (ht : Held t) : wp (life pid) Resumed (ptraceCont pid) t := by
  refine ⟨fun _ => ht, fun rep t' h => ?_⟩
  cases rep with
  | error e => exact held_of_cont_error ht h
  | ok => exact traced_of_cont h

theorem keeps_ptraceSingleStep : Keeps (life pid) Held (ptraceSingleStep fuel pid) := by
  refine fun t ht => ⟨trivial, fun rep t' h => ?_⟩
  cases rep with
  | error e =>
      rcases h with rfl | ⟨-, rfl⟩
      · exact held_gone
      · exact ht
  | ok =>
      have htraced : t' ≠ .untraced := by
        rcases h with rfl | ⟨-, h⟩
        · decide
        · change (if pid = pid then _ else _) at h
          rw [if_pos rfl] at h
          rw [h.2]
          decide
      show wp (life pid) (AtEnd Held) ((doWait fuel pid 0).bind _) t'
      exact wp_doWait_bind_held htraced fun _ => .ret

/-- Asking for something that leaves a stopped thread stopped. -/
theorem keeps_ask {r : Request} (hr : r.Holding pid) : Keeps (life pid) Held (ask r) :=
  keeps_holding ⟨hr, fun _ => trivial⟩

theorem keeps_probe : Keeps (life pid) Held (ask .probe) := keeps_ask trivial

theorem keeps_setProbe (page : Word) : Keeps (life pid) Held (ask (.setProbe page)) :=
  keeps_ask trivial

theorem keeps_ptraceGetRegs : Keeps (life pid) Held (ptraceGetRegs pid) :=
  keeps_holding ⟨trivial, only_orThrow _⟩

theorem keeps_ptraceSetRegs (regs : UserRegs) : Keeps (life pid) Held (ptraceSetRegs pid regs) :=
  keeps_holding ⟨trivial, only_orThrow _⟩

theorem keeps_ptracePeek (addr : Word) : Keeps (life pid) Held (ptracePeek pid addr) :=
  keeps_holding ⟨trivial, only_orThrow _⟩

theorem keeps_ptracePoke (addr data : Word) : Keeps (life pid) Held (ptracePoke pid addr data) :=
  keeps_holding ⟨trivial, only_orThrow _⟩

theorem keeps_allocPage : Keeps (life pid) Held (allocPage fuel pid) := by
  apply keeps_ptraceGetRegs.bind
  intro oldregs
  apply (keeps_ptracePeek _).bind
  intro orig_code
  apply (keeps_ptracePoke _ _).bind
  intro _
  apply (keeps_ptraceSetRegs _).bind
  intro _
  apply keeps_ptraceSingleStep.bind
  intro _
  apply keeps_ptraceGetRegs.bind
  intro regs
  exact (keeps_ptraceSetRegs _).bind fun _ => (keeps_ptracePoke _ _).bind fun _ => .ret

theorem only_listThreads {P : Request → Prop} (hopendir : ∀ path, P (.opendir path)) (hreaddir : P .readdir) :
    (listThreads fuel pid).Only P := by
  refine ⟨hopendir _, fun opened => .ite trivial (.forever (fun result => ?_) fuel [])⟩
  refine ⟨hreaddir, fun entry => ?_⟩
  cases entry with
  | none => trivial
  | some name =>
      refine .ite ?_ trivial
      cases stoi name <;> trivial

theorem holding_listThreads : (listThreads fuel pid).Only (Request.Holding pid) :=
  only_listThreads (fun _ => trivial) trivial

/-- What is done to each of the other threads. -/
theorem keeps_eachThread {f : Pid → Tracer Unit}
    (hf : ∀ tid ≠ pid, (f tid).Only (Request.Holding pid)) :
    Keeps (life pid) Held
      ((listThreads fuel pid).bind fun tids =>
        tids.forM fun tid => if tid ≠ pid then f tid else pure ()) := by
  apply (keeps_holding holding_listThreads).bind
  intro tids
  apply Keeps.forM
  intro tid _
  by_cases hne : tid ≠ pid
  · rw [if_pos hne]
    exact keeps_holding (hf tid hne)
  · rw [if_neg hne]
    exact .ret

theorem keeps_pauseChildThreads : Keeps (life pid) Held (pauseChildThreads fuel pid) := by
  apply keeps_eachThread
  intro tid _
  refine .bind (.ask trivial) fun rep => .bind (only_orThrow _ rep) fun _ => ?_
  refine .bind (.ask trivial) fun rep => .bind (only_orThrow _ rep) fun told => ?_
  exact .ite ⟨trivial, fun _ => trivial⟩ trivial

theorem keeps_resumeChildThreads : Keeps (life pid) Held (resumeChildThreads fuel pid) := by
  apply keeps_eachThread
  exact fun tid hne => ⟨hne, only_orThrow _⟩

theorem keeps_setUpProbe : Keeps (life pid) Held (setUpProbe fuel pid) := by
  apply keeps_probe.bind
  intro probe
  refine .ite ?_ .ret
  apply keeps_pauseChildThreads.bind
  intro _
  apply keeps_allocPage.bind
  intro page
  apply (keeps_setProbe _).bind
  intro _
  apply keeps_resumeChildThreads.bind
  intro _
  apply keeps_probe.bind
  intro probe
  exact .ite .ret (keeps_probe.bind fun probe => (keeps_ptracePoke _ _).bind fun _ => .ret)

theorem keeps_ptraceCallFunction (addr : Word) :
    Keeps (life pid) Held (ptraceCallFunction fuel pid addr) := by
  apply keeps_setUpProbe.bind
  intro ready
  refine .ite .ret (keeps_ptraceGetRegs.bind fun oldregs => keeps_probe.bind fun probe => ?_)
  apply (keeps_ptraceSetRegs _).bind
  intro _ t ht
  -- From here to the end of the wait the thread may run.
  refine wp_bind_of (wp_ptraceCont_held ht) fun o t' ho => ?_
  cases o with
  | error => exact ho
  | abort | cut => trivial
  | ok =>
      apply wp_doWait_bind_held ho
      intro status
      apply keeps_ptraceGetRegs.bind
      intro newregs
      exact (keeps_ptraceSetRegs _).bind fun _ => .ret

theorem keeps_munmapStep (newregs : UserRegs) :
    Keeps (life pid) Held (munmapStep fuel pid newregs ()) := by
  apply (keeps_ptraceSetRegs _).bind
  intro _
  apply keeps_ptraceSingleStep.bind
  intro _
  apply keeps_ptraceGetRegs.bind
  intro regs
  refine .ite ((keeps_setProbe _).bind fun _ => .ret) (.ite .ret ?_)
  exact keeps_holding ⟨trivial, fun _ => trivial⟩

theorem keeps_unmapProbe : Keeps (life pid) Held (unmapProbe fuel pid) := by
  apply keeps_ptraceGetRegs.bind
  intro oldregs
  apply (keeps_ptracePeek _).bind
  intro orig_code
  apply keeps_probe.bind
  intro probe
  apply keeps_pauseChildThreads.bind
  intro _
  apply (keeps_ptracePoke _ _).bind
  intro _
  apply (Keeps.forever (fun _ => keeps_munmapStep _) fuel ()).bind
  intro _
  apply (keeps_ptracePoke _ _).bind
  intro _
  exact (keeps_ptraceSetRegs _).bind fun _ => keeps_resumeChildThreads

theorem wp_safeDetach : wp (life pid) (fun _ _ => True) (safeDetach pid) t :=
  ⟨trivial, fun _ _ _ => trivial⟩

/-- `PtraceCleanup` asks for nothing that it may not. -/
theorem wp_ptraceCleanup_held (ht : Held t) :
    wp (life pid) (fun _ _ => True) (ptraceCleanup fuel pid) t := by
  refine wp_bind_of (keeps_probe t ht) fun o t' ho => ?_
  cases o with
  | error | abort | cut => trivial
  | ok probe =>
      show wp _ _ (if probe ≠ 0 then _ else _) t'
      by_cases hprobe : probe ≠ 0
      · rw [if_pos hprobe]
        refine wp_bind_of (keeps_unmapProbe.handle (fun _ => .ret) t' ho) fun o t'' _ => ?_
        cases o with
        | ok => exact wp_safeDetach
        | error | abort | cut => trivial
      · rw [if_neg hprobe]
        exact wp_safeDetach

/-! ### `DetectABI` and `GetThreads` -/

theorem holding_of_foreign (r : Request) (hr : r.Foreign) : r.Holding pid := by
  cases r <;> first | exact hr.elim | trivial

theorem holding_of_reading (r : Request) (hr : r.Reading) : r.Holding pid := by
  cases r <;> first | exact hr.elim | trivial

theorem keeps_foreign {α : Type} {p : Tracer α} (hp : p.Only Request.Foreign) :
    Keeps (life pid) Held p :=
  keeps_holding (hp.mono holding_of_foreign)

theorem keeps_setAddrsIn (enable_threads : Bool) (ns : Namespace) :
    Keeps (life pid) Held (setAddrsIn fuel pid enable_threads ns) := by
  apply (keeps_foreign (only_addrs fuel pid ns)).attempt.bind
  intro found
  cases found with
  | error e =>
      cases e with
      | symbol => exact .ret
      | terminate | fatal | ptrace | other => exact .raise
  | ok found =>
      refine .bind (.ite ?_ .ret) fun addrs => .ret
      exact (keeps_ptraceCallFunction _).bind fun hint => .ret

theorem keeps_detectABI (enable_threads : Bool) (abi : PyABI) :
    Keeps (life pid) Held (detectABI fuel pid enable_threads abi) := by
  refine .bind ?_ fun found => ?_
  · apply (keeps_foreign (Namespace.only_ofPid fuel pid)).bind
    intro ns
    apply (keeps_setAddrsIn enable_threads ns).attempt.bind
    intro result
    apply (keeps_foreign (ns.only_destroy fuel)).bind
    intro _
    cases result with
    | ok found => exact .ret
    | error e => exact .raise
  · cases found with
    | none => exact .ret
    | some found => exact .ite .raise (.ite .raise .ret)

theorem keeps_getThreads (H : Headers) (addrs : PyAddresses) (enable_threads : Bool) :
    Keeps (life pid) Held (getThreads H fuel pid addrs enable_threads) :=
  keeps_holding ((reading_getThreads H fuel pid addrs enable_threads).mono holding_of_reading)

end

/-! ### The driver -/

section

variable {headers : PyABI → Headers} {fuel : ℕ} {pid : Pid} {t : Life}

/-- The environment of `main`. -/
abbrev driven (headers : PyABI → Headers) (fuel : ℕ) (pid : Pid) : Env calls Life :=
  (life pid).via madeHeld (Call.impl headers fuel)

/-- A call that finds the thread stopped and leaves it so. -/
theorem keeps_invoke {c : Call} (hguard : ∀ t, Held t → madeHeld t c)
    (h : Keeps (life pid) Held (c.impl headers fuel)) :
    Keeps (driven headers fuel pid) Held (invoke c) :=
  fun t ht => wp_via (hguard t ht) (h t ht) fun _ _ ho => ho

theorem keeps_rethrow {α : Type} (x : Except Exception α) :
    Keeps (driven headers fuel pid) Held (rethrow x) := by
  cases x with
  | ok => exact .ret
  | error => exact .raise

theorem keeps_cerr (line : Bytes) : Keeps (driven headers fuel pid) Held (invoke (.cerr line)) :=
  keeps_invoke (fun _ _ => trivial) (keeps_ask (r := .cerr line) trivial)

theorem keeps_frobberThreads {cfg : Settings} (hpid : cfg.pid = pid) (found : PyABI × PyAddresses) :
    Keeps (driven headers fuel pid) Held (frobberThreads cfg found) := by
  subst hpid
  exact keeps_invoke (fun _ ht => ht) (keeps_getThreads _ _ _).attempt

theorem wp_invoke_interrupt (ht : t ≠ .untraced) :
    wp (driven headers fuel pid) (AtEnd Held) (invoke (.ptraceInterrupt pid)) t := by
  apply wp_via (R := AtEnd Held) trivial
  · refine wp_attempt.mpr (wp_mono (fun o t' ho => ?_) (wp_ptraceInterrupt_held ht))
    cases o <;> exact ho
  · exact fun _ _ h => h

/-- The thread runs for the interval and is interrupted: what follows finds it
stopped. -/
theorem wp_sleepFor_interrupt {α : Type} {f : Except Exception Unit → Driver α} (interval : ℤ)
    (ht : t ≠ .untraced) (hf : ∀ x, Keeps (driven headers fuel pid) Held (f x)) :
    wp (driven headers fuel pid) (AtEnd Held)
      ((invoke (.sleepFor interval)).bind fun _ => (invoke (.ptraceInterrupt pid)).bind f) t := by
  apply wp_via (R := fun _ t' => t' ≠ .untraced) trivial
  · refine ⟨trivial, fun rep t' h => ?_⟩
    rcases h with rfl | ⟨-, rfl⟩
    · show Life.gone ≠ .untraced
      decide
    · exact ht
  · intro _ t' ht'
    show wp _ _ ((invoke (.ptraceInterrupt pid)).bind f) t'
    refine wp_bind_of (wp_invoke_interrupt ht') fun o t'' ho => ?_
    cases o with
    | ok x => exact hf x t'' ho
    | error => exact ho
    | abort | cut => trivial

/-- The same after a call of `PtraceCont`, which may have thrown. -/
def Continued : Outcome Exception (Except Exception Unit) → Life → Prop
  | .ok (.ok _), t => t ≠ .untraced
  | .ok (.error _), t => Held t
  | .error _, _ => False
  | .abort, _ | .cut, _ => True

theorem wp_invoke_cont (ht : Held t) :
    wp (driven headers fuel pid) Continued (invoke (.ptraceCont pid)) t := by
  apply wp_via (R := Continued) ht
  · refine wp_attempt.mpr (wp_mono (fun o t' ho => ?_) (wp_ptraceCont_held ht))
    cases o <;> exact ho
  · exact fun _ _ h => h

theorem keeps_handleException (cfg : Settings) {found : PyABI × PyAddresses} (now : Time)
    (s : Samples) (e : Exception) :
    Keeps (driven headers fuel pid) Held (handleException cfg.toProber (loopCalls cfg found) now s e) := by
  cases e with
  | terminate => exact .ret
  | fatal | symbol | ptrace | other => exact (keeps_cerr _).bind fun _ => .ret

/-- An iteration of `ProbeLoop` ends with the thread stopped, whichever of its handlers
it ends in. -/
theorem keeps_probeIteration {cfg : Settings} (hpid : cfg.pid = pid)
    (found : PyABI × PyAddresses) (finish : Time) (s : Samples) :
    Keeps (driven headers fuel pid) Held
      (probeIteration cfg.toProber (loopCalls cfg found) finish s) := by
  have hnow : Keeps (driven headers fuel pid) Held (invoke .now) :=
    keeps_invoke (fun _ _ => trivial) (keeps_ask (r := .now) trivial)
  apply hnow.bind
  intro now
  apply (keeps_frobberThreads hpid found).bind
  intro threads
  cases threads with
  | error e => exact keeps_handleException cfg now s e
  | ok threads =>
      refine .ite .ret fun t ht => ?_
      subst hpid
      refine wp_bind_of (wp_invoke_cont ht) fun o t' ho => ?_
      cases o with
      | error => exact ho.elim
      | abort | cut => trivial
      | ok resumed =>
          cases resumed with
          | error e => exact keeps_handleException cfg now _ e t' ho
          | ok =>
              refine wp_sleepFor_interrupt cfg.interval ho fun x => ?_
              cases x with
              | error e => exact keeps_handleException cfg now _ e
              | ok => exact .ret

theorem keeps_findSymbolsStep {cfg : Settings} (hpid : cfg.pid = pid) (i : ℕ) :
    Keeps (driven headers fuel pid) Held (findSymbolsStep cfg i) := by
  subst hpid
  have hdetect : Keeps (driven headers fuel cfg.pid) Held
      (invoke (.detectABI cfg.pid cfg.enable_threads cfg.abi)) :=
    keeps_invoke (fun _ ht => ht) (keeps_detectABI _ _).attempt
  apply hdetect.bind
  intro x
  apply (keeps_rethrow x).bind
  intro found
  cases found with
  | some found => exact .ret
  | none =>
      refine .ite ((keeps_cerr _).bind fun _ => .ret) fun t ht => ?_
      refine wp_bind_of (wp_invoke_cont ht) fun o t' ho => ?_
      cases o with
      | error => exact ho.elim
      | abort | cut => trivial
      | ok resumed =>
          cases resumed with
          | error e => exact ho
          | ok =>
              refine wp_sleepFor_interrupt cfg.interval ho fun x => ?_
              exact (keeps_rethrow x).bind fun _ => .ret

theorem keeps_findSymbols {cfg : Settings} (hpid : cfg.pid = pid) :
    Keeps (driven headers fuel pid) Held (findSymbols fuel cfg) := by
  refine (Keeps.forever (keeps_findSymbolsStep hpid) fuel 0).handle fun e => ?_
  cases e with
  | fatal | symbol => exact (keeps_cerr _).bind fun _ => .ret
  | terminate | ptrace | other => exact .raise

theorem keeps_runProber {cfg : Settings} (hpid : cfg.pid = pid) (std : StdLib)
    (found : PyABI × PyAddresses) :
    Keeps (driven headers fuel pid) Held (runProber std fuel cfg found) := by
  have houtput : Keeps (driven headers fuel pid) Held (haveOutput cfg) :=
    .ite .ret (keeps_invoke (fun _ _ => trivial)
      (keeps_ask (r := .openOutput cfg.output_file) trivial))
  apply houtput.bind
  intro opened
  refine .ite ((keeps_cerr _).bind fun _ => .ret) (.ite ?_ ?_)
  · apply (keeps_frobberThreads hpid found).bind
    intro threads
    exact (keeps_rethrow threads).bind fun _ => .ret
  · have hnow : Keeps (driven headers fuel pid) Held (invoke .now) :=
      keeps_invoke (fun _ _ => trivial) (keeps_ask (r := .now) trivial)
    apply hnow.bind
    intro start
    refine .bind (.forever (fun s => ?_) fuel _) fun r => .ret
    apply (keeps_probeIteration hpid found _ s).bind
    intro r
    obtain ⟨s, next⟩ := r
    cases next <;> exact .ret

/-! ### `InitiatePtrace` -/

/-- The end of `main`. -/
theorem wp_cleanup (ht : Held t) (result : Printed × ℕ) :
    wp (driven headers fuel pid) (fun _ _ => True)
      ((invoke (.ptraceCleanup pid)).bind fun _ => .ret result) t :=
  wp_via trivial (wp_ptraceCleanup_held ht) fun _ _ _ => trivial

/-- Nothing is forbidden about a target that has ended. -/
theorem wp_gone {α : Type} (p : Tracer α) : wp (life pid) (fun _ t => t = .gone) p .gone := by
  induction p with
  | call r k ih =>
      refine ⟨?_, fun rep t' h => ?_⟩
      · cases r <;> first | exact fun _ => held_gone | trivial
      · obtain rfl : t' = .gone := h.resolve_right fun h => h.1 rfl
        exact ih rep
  | ret | raise | abort | cut => exact rfl

theorem wp_gone_driven {α : Type} (p : Driver α) :
    wp (driven headers fuel pid) (fun _ t => t = .gone) p .gone := by
  induction p with
  | call c k ih =>
      have hguard : madeHeld .gone c := by
        cases c <;> first | exact held_gone | trivial
      refine wp_via hguard (wp_gone _) fun rep t' ht => ?_
      subst ht
      exact ih rep
  | ret | raise | abort | cut => exact rfl

/-- What `InitiatePtrace` leaves: if it goes on, the target stopped. -/
def Initiated (pid : Pid) : Outcome Exception (Option Settings) → Life → Prop
  | .ok (some cfg), t => cfg.pid = pid ∧ Held t ∨ t = .gone
  | _, _ => True

/-- Anything but `PTRACE_CONT`. -/
def Request.Free : Request → Prop
  | .cont _ => False
  | _ => True

theorem wp_free {α : Type} {p : Tracer α} (hp : p.Only Request.Free) :
    wp (life pid) (fun _ _ => True) p t := by
  have hkeeps : Keeps (life pid) (fun _ => True) p := by
    refine .of_only hp fun r hr t _ => ⟨?_, fun _ _ _ => trivial⟩
    cases r <;> first | exact hr.elim | trivial
  exact wp_mono (fun _ _ _ => trivial) (hkeeps t trivial)

/-- A call that may be made at any time. -/
theorem keeps_free {c : Call} (hguard : ∀ t, madeHeld t c)
    (h : (c.impl headers fuel).Only Request.Free) :
    Keeps (driven headers fuel pid) (fun _ => True) (invoke c) :=
  fun t _ => wp_via (hguard t) (wp_free h) fun _ _ _ => trivial

theorem keeps_freeCerr (line : Bytes) :
    Keeps (driven headers fuel pid) (fun _ => True) (invoke (.cerr line)) :=
  keeps_free (fun _ => trivial) ⟨trivial, fun _ => trivial⟩

theorem keeps_awaitExecStep : Keeps (driven headers fuel pid) (fun _ => True) (awaitExecStep ()) := by
  have hwait : Keeps (driven headers fuel pid) (fun _ => True) (invoke (.waitpid (-1) 0)) :=
    keeps_free (fun _ => trivial) ⟨trivial, fun _ => trivial⟩
  apply hwait.bind
  intro rep
  cases rep with
  | error e => exact (keeps_freeCerr _).bind fun _ => .ret
  | ok told => exact .ite ((keeps_freeCerr _).bind fun _ => .ret) (.ite .ret .ret)

/-- The child goes no further than `exec`. -/
theorem wp_becomeTarget (cfg : Settings) :
    wp (driven headers fuel pid) (Initiated pid) (becomeTarget cfg) t := by
  have htraceme : ((Call.impl headers fuel .ptraceTraceme)).Only Request.Free := by
    refine ⟨trivial, fun rep => ?_⟩
    cases rep with
    | error => trivial
    | ok => exact ⟨trivial, fun _ => trivial⟩
  refine wp_via (R := fun _ _ => True) trivial (wp_free htraceme) fun x t' _ => ?_
  cases x with
  | error e => trivial
  | ok =>
      refine wp_via (R := fun _ _ => True) trivial (wp_free ⟨trivial, fun _ => trivial⟩) ?_
      intro e t'' _
      refine wp_via (R := fun _ _ => True) trivial (wp_free ⟨trivial, fun _ => trivial⟩) ?_
      exact fun _ _ _ => trivial

/-- A thread that has been seized is traced. -/
def Seized : Outcome Exception (Except Exception Unit) → Life → Prop
  | .ok (.ok _), t => t ≠ .untraced
  | _, _ => True

theorem wp_invoke_seize {α : Type} {f : Except Exception Unit → Driver α}
    {Q : Outcome Exception α → Life → Prop}
    (herr : ∀ e t, wp (driven headers fuel pid) Q (f (.error e)) t)
    (hok : ∀ t, t ≠ .untraced → wp (driven headers fuel pid) Q (f (.ok ())) t) :
    wp (driven headers fuel pid) Q ((invoke (.ptraceSeize pid)).bind f) t := by
  apply wp_via (R := Seized) trivial
  · refine ⟨trivial, fun rep t' h => ?_⟩
    cases rep with
    | error e => trivial
    | ok =>
        show t' ≠ .untraced
        rcases h with rfl | ⟨-, h⟩
        · decide
        · change (if pid = pid then _ else _) at h
          rw [if_pos rfl] at h
          rw [h.2]
          decide
  · intro x t' ht'
    cases x with
    | error e => exact herr e t'
    | ok => exact hok t' ht'

theorem wp_interrupt_settings {cfg : Settings} (hpid : cfg.pid = pid) (ht : t ≠ .untraced) :
    wp (driven headers fuel pid) (Initiated pid)
      ((invoke (.ptraceInterrupt pid)).bind fun x => (rethrow x).bind fun _ => .ret (some cfg)) t := by
  refine wp_bind_of (wp_invoke_interrupt ht) fun o t' ho => ?_
  cases o with
  | ok x =>
      cases x with
      | error e => trivial
      | ok => exact .inl ⟨hpid, ho⟩
  | error | abort | cut => trivial

/-- After the child has called `exec` it is let go and seized. -/
theorem wp_reattach {cfg : Settings} (hpid : cfg.pid = pid) :
    wp (driven headers fuel pid) (Initiated pid)
      ((invoke (.ptraceDetach pid)).bind fun x => (rethrow x).bind fun _ =>
        (invoke (.ptraceSeize pid)).bind fun x => (rethrow x).bind fun _ =>
        (invoke (.ptraceInterrupt pid)).bind fun x => (rethrow x).bind fun _ => .ret (some cfg)) t := by
  have hdetach : (Call.impl headers fuel (.ptraceDetach pid)).Only Request.Free :=
    ⟨trivial, fun rep => by cases rep <;> trivial⟩
  refine wp_via (R := fun _ _ => True) trivial (wp_free hdetach) fun x t' _ => ?_
  cases x with
  | error e => trivial
  | ok =>
      refine wp_invoke_seize (fun e t => trivial) fun t ht => ?_
      exact wp_interrupt_settings hpid ht

theorem wp_awaitExec {cfg : Settings} (hpid : cfg.pid = pid) :
    wp (driven headers fuel pid) (Initiated pid)
      ((Prog.forever awaitExecStep fuel ()).bind fun ret => if ret ≠ 0 then .ret none else
        (invoke (.ptraceDetach pid)).bind fun x => (rethrow x).bind fun _ =>
        (invoke (.ptraceSeize pid)).bind fun x => (rethrow x).bind fun _ =>
        (invoke (.ptraceInterrupt pid)).bind fun x => (rethrow x).bind fun _ => .ret (some cfg)) t := by
  have hwait : Keeps (driven headers fuel pid) (fun _ => True)
      (Prog.forever awaitExecStep fuel ()) := .forever (fun _ => keeps_awaitExecStep) fuel ()
  refine wp_bind_of (hwait t trivial) fun o t' _ => ?_
  cases o with
  | error | abort | cut => trivial
  | ok ret =>
      by_cases hret : ret ≠ 0
      · show wp _ _ (if ret ≠ 0 then _ else _) t'
        rw [if_pos hret]
        trivial
      · show wp _ _ (if ret ≠ 0 then _ else _) t'
        rw [if_neg hret]
        exact wp_reattach hpid

theorem wp_traceChild {cfg : Settings} (hpid : cfg.pid = pid) :
    wp (driven headers fuel pid) (Initiated pid) (traceChild fuel cfg) t := by
  subst hpid
  apply wp_via (R := fun o t' => ∀ rep, o = .ok rep → lifeStep cfg.pid t (.waitpid 0 0) rep t')
    trivial
  · refine ⟨trivial, fun rep t' h => ?_⟩
    rintro _ ⟨⟩
    exact h
  intro rep t' hstep
  have htold := hstep rep rfl
  cases rep with
  | error e => trivial
  | ok told =>
      obtain ⟨child, status⟩ := told
      show wp _ _ (if child ≠ cfg.pid then _ else _) t'
      by_cases hchild : child ≠ cfg.pid
      · rw [if_pos hchild]
        trivial
      rw [if_neg hchild]
      obtain rfl := not_not.mp hchild
      -- The child has raised SIGSTOP, and is resumed.
      have hoptions : Keeps (driven headers fuel cfg.pid) Held
          (invoke (.ptraceSetOptions cfg.pid PTRACE_O_TRACEEXEC)) :=
        keeps_invoke (fun _ _ => trivial)
          (keeps_holding ⟨trivial, fun rep => by cases rep <;> trivial⟩)
      refine wp_bind_of (hoptions t' (held_of_told htold)) fun o t'' ho => ?_
      cases o with
      | error | abort | cut => trivial
      | ok x =>
          cases x with
          | error e => trivial
          | ok =>
              show wp _ _ ((invoke (.ptraceCont cfg.pid)).bind _) t''
              refine wp_bind_of (wp_invoke_cont ho) fun o t₃ ho => ?_
              cases o with
              | error | abort | cut => trivial
              | ok resumed =>
                  cases resumed with
                  | error e => trivial
                  | ok => exact wp_awaitExec rfl

theorem wp_initiatePtrace (cfg : Settings) (hpid : cfg.trace = false → cfg.pid = pid) :
    wp (driven headers fuel pid) (Initiated pid) (initiatePtrace fuel cfg) .untraced := by
  unfold initiatePtrace
  by_cases htrace : cfg.trace = true
  · rw [if_pos htrace]
    by_cases hself : text "pyflame" <:+ cfg.trace_target
    · rw [if_pos hself]
      refine wp_via (R := fun _ _ => True) trivial (wp_free ⟨trivial, fun _ => trivial⟩) ?_
      exact fun _ _ _ => trivial
    rw [if_neg hself]
    apply wp_via (R := fun o t' => ∀ rep, o = .ok rep → lifeStep pid .untraced .fork rep t') trivial
    · refine ⟨trivial, fun rep t' h => ?_⟩
      rintro _ ⟨⟩
      exact h
    intro rep t' hstep
    cases rep with
    | error e =>
        refine wp_via (R := fun _ _ => True) trivial (wp_free ⟨trivial, fun _ => trivial⟩) ?_
        exact fun _ _ _ => trivial
    | ok p =>
        show wp _ _ (if p = 0 then _ else _) t'
        by_cases hchild : p = 0
        · rw [if_pos hchild]
          exact wp_becomeTarget _
        · rw [if_neg hchild]
          -- The child may be gone at once; otherwise this is its parent, since it is not the
          -- child.
          rcases hstep (.ok p) rfl with rfl | ⟨-, ⟨rfl, -⟩ | ⟨rfl, -, -⟩⟩
          · refine wp_mono (fun o t ht => ?_) (wp_gone_driven _)
            cases o with
            | error | abort | cut => trivial
            | ok cfg' =>
                cases cfg' with
                | none => trivial
                | some => exact .inr ht
          · exact absurd rfl hchild
          · exact wp_traceChild rfl
  · rw [if_neg htrace]
    obtain rfl : cfg.pid = pid := hpid (by simpa using htrace)
    refine wp_invoke_seize (fun e t => ?_) fun t ht => wp_interrupt_settings rfl ht
    cases e with
    -- A `PtraceException` is reported, and the profiler ends.
    | ptrace what =>
        refine wp_via (R := fun _ _ => True) trivial (wp_free ⟨trivial, fun _ => trivial⟩) ?_
        exact fun _ _ _ => trivial
    | terminate | fatal | symbol | other =>
        trivial

end

/-- The pid of the target: the given one, or the one that `fork` returns. -/
def targetPid (cfg : Settings) (forked : Pid) : Pid := if cfg.trace then forked else cfg.pid

/-- In every run, every call of `DetectABI`, `GetThreads` and `PtraceCont` is made while
the target is stopped, as long as it is alive. -/
theorem main_madeHeld (headers : PyABI → Headers) (std : StdLib) (fuel : ℕ) (cfg : Settings)
    (forked : Pid) :
    wp (driven headers fuel (targetPid cfg forked)) (fun _ _ => True) (main std fuel cfg)
      .untraced := by
  have hpid : cfg.trace = false → cfg.pid = targetPid cfg forked := by
    intro h
    simp [targetPid, h]
  refine wp_bind_of (wp_initiatePtrace cfg hpid) fun o t ho => ?_
  cases o with
  | error | abort | cut => trivial
  | ok cfg' =>
      cases cfg' with
      | none => trivial
      | some cfg' =>
          rcases ho with ⟨hpid, ht⟩ | rfl
          swap
          · exact wp_mono (fun _ _ _ => trivial) (wp_gone_driven _)
          rw [← hpid]
          refine wp_bind_of (keeps_findSymbols rfl t ht) fun o t' ho => ?_
          cases o with
          | error | abort | cut => trivial
          | ok found =>
              cases found with
              | none => exact wp_cleanup ho _
              | some found =>
                  refine wp_bind_of (keeps_runProber rfl std found t' ho) fun o t'' ho => ?_
                  cases o with
                  | error | abort | cut => trivial
                  | ok result => exact wp_cleanup ho result

end Pyflame
