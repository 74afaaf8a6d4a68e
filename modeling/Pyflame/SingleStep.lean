import Pyflame.Kernel
import Pyflame.Wait

/-!
How many instructions the target executes while `PtraceSingleStep` waits for
it.

`DoWait` takes a stop for `SIGCHLD` for one of a target that was running and
resumes it as such. The single step has then become a run to whatever trap
comes next.
-/

namespace Pyflame

open Interaction

/-- The status of a thread that a signal stopped. -/
def stopStatus (signum : BitVec 8) : Status := (signum.setWidth 32 <<< 8) ||| 0x7f

@[simp] theorem WIFSTOPPED_stopStatus : ∀ signum, WIFSTOPPED (stopStatus signum) = true := by
  decide +kernel

@[simp] theorem WSTOPSIG_stopStatus :
    ∀ signum, WSTOPSIG (stopStatus signum) = signum.setWidth 32 := by
  decide +kernel

/-- A traced thread, the signals it will be stopped by before the next trap, and the
instructions it has executed. -/
structure Stepper where
  mode : Mode := .stopped
  signals : List (BitVec 8)
  executed : ℕ := 0

namespace Stepper

def resume (t : Stepper) (mode : Mode) : Stepper := { t with mode := mode }

/-- What a wait reports. A signal stops a thread that is stepped before its next
instruction; a thread that runs has executed any number of them. -/
inductive Reports : Stepper → Status → Stepper → Prop
  | signal (signum signals n) :
      Reports ⟨.stepping, signum :: signals, n⟩ (stopStatus signum) ⟨.stopped, signals, n⟩
  | trap (n) : Reports ⟨.stepping, [], n⟩ trapped ⟨.stopped, [], n + 1⟩
  | freeSignal (signum signals n m) :
      Reports ⟨.running, signum :: signals, n⟩ (stopStatus signum) ⟨.stopped, signals, n + m⟩
  | freeTrap (n m) : Reports ⟨.running, [], n⟩ trapped ⟨.stopped, [], n + m⟩
  | ended (status signals n) (mode : Mode) (hmode : mode = .stepping ∨ mode = .running)
      (hended : Ended status) : Reports ⟨mode, signals, n⟩ status ⟨.gone, signals, n⟩

end Stepper

/-- What a call may reply that is granted or refused; refused, it changes
nothing. -/
def grantedOr {σ α : Type} (s s' : σ) (granted : α → Prop) : Reply α → Prop
  | .ok a => granted a
  | .error _ => s' = s

def stepperStep (t : Stepper) (r : Request) : r.Rep → Stepper → Prop :=
  match r with
  | .singleStep _ => fun rep t' => grantedOr t t' (fun _ => t' = t.resume .stepping) rep
  | .cont _ => fun rep t' => grantedOr t t' (fun _ => t' = t.resume .running) rep
  | .waitpid pid _ => fun rep t' =>
      grantedOr t t' (fun told => told.1 = pid ∧ t.Reports told.2 t') rep
  | _ => fun _ t' => t' = t

def stepper : Env sys Stepper := ⟨stepperStep, fun _ _ => True⟩

/-- Where a program returns normally the thread has executed exactly one
instruction. -/
def OneExecuted {α : Type} (o : Outcome Exception α) (t : Stepper) : Prop :=
  ∀ a, o = .ok a → t.executed = 1

/-- The program has the thread execute one instruction, whatever number of passes its
loops are given. -/
def ExecutesOne {α : Type} (signals : List (BitVec 8)) (p : ℕ → Tracer α) : Prop :=
  ∀ fuel, wp stepper OneExecuted (p fuel) { signals := signals }

/-- `DoWait` skips no signal, or it gives up over one. -/
def UndisturbedStep (signals : List (BitVec 8)) : Prop :=
  signals = [] ∨
    ∃ signum, signals.find? (·.setWidth 32 ≠ SIGCHLD) = some signum ∧ signum.setWidth 32 ≠ SIGTRAP

section

variable {fuel : ℕ} {pid : Pid} {signals : List (BitVec 8)}

/-- Where no instruction too many is executed: a thread that is stepped and has no
signals, or one whose signals make `DoWait` throw. -/
def Expected (t : Stepper) : Prop :=
  t.mode = .stepping ∧ t.signals = [] ∧ t.executed = 0 ∨
    ∃ signum, t.signals.find? (·.setWidth 32 ≠ SIGCHLD) = some signum ∧
      signum.setWidth 32 ≠ SIGTRAP

/-- A signal of such a thread is not `SIGTRAP`, and if it is `SIGCHLD` the others
will make `DoWait` throw. -/
theorem expected_cons {signum : BitVec 8} {mode : Mode} {n : ℕ}
    (h : Expected ⟨mode, signum :: signals, n⟩) :
    signum.setWidth 32 ≠ SIGTRAP ∧
      (signum.setWidth 32 = SIGCHLD → ∀ mode n, Expected ⟨mode, signals, n⟩) := by
  rcases h with ⟨-, hnil, -⟩ | ⟨first, hfirst, hne⟩
  · contradiction
  by_cases hchild : signum.setWidth 32 = SIGCHLD
  · constructor
    · rw [hchild]
      decide
    · rw [List.find?_cons_of_neg (by simpa using hchild)] at hfirst
      exact fun _ mode n => .inr ⟨first, hfirst, hne⟩
  · constructor
    · rw [List.find?_cons_of_pos (by simpa using hchild)] at hfirst
      obtain rfl := Option.some.inj hfirst
      exact hne
    · exact fun h => absurd h hchild

/-- A stop of such a thread: after a trap it has executed one instruction, and
after `SIGCHLD` it may be resumed. -/
theorem expected_reports {t t' : Stepper} {status : Status} (hI : Expected t)
    (h : t.Reports status t') (hstopped : WIFSTOPPED status = true) :
    (WSTOPSIG status = SIGTRAP → t'.executed = 1) ∧
      (WSTOPSIG status = SIGCHLD → Expected (t'.resume .running)) := by
  cases h with
  | signal signum signals n | freeSignal signum signals n =>
      obtain ⟨htrap, hchild⟩ := expected_cons hI
      rw [WSTOPSIG_stopStatus]
      exact ⟨fun h => absurd h htrap, fun h => hchild h _ _⟩
  | trap n =>
      have hn : n = 0 := by simpa [Expected] using hI
      refine ⟨fun _ => ?_, fun h => absurd h (by decide)⟩
      simp [hn]
  | freeTrap n => simp [Expected] at hI
  | ended status signals n mode hmode hended =>
      rw [hended.not_stopped] at hstopped
      contradiction

theorem expected_wait :
    WaitRule stepper pid 0 Expected OneExecuted where
  cut _ _ := nofun
  permits _ _ := trivial
  failed _ _ _ _ _ _ := nofun
  stranger s progeny status s' _ htold hne := absurd htold.1 hne
  trap s status s' hI htold hstopped htrap := by
    intro _ _
    exact (expected_reports hI htold.2 hstopped).1 htrap
  child s status s' hI htold hstopped hchild := by
    refine ⟨trivial, fun s'' hcont => ?_, fun _ _ _ _ => nofun⟩
    obtain rfl : s'' = s'.resume .running := hcont
    exact (expected_reports hI htold.2 hstopped).2 hchild
  signal _ _ _ _ _ _ _ _ _ := nofun
  exited _ _ _ _ _ _ _ _ := nofun
  died _ _ _ _ _ _ _ _ := nofun

/-- A thread whose signals leave the step alone. -/
theorem UndisturbedStep.expected (h : UndisturbedStep signals) : Expected ⟨.stepping, signals, 0⟩ :=
  h.imp_left fun hnil => ⟨rfl, hnil, rfl⟩

/-- Requests that neither resume the thread nor wait for it. -/
def Request.AtRest : Request → Prop
  | .singleStep _ | .cont _ | .waitpid _ _ => False
  | _ => True

theorem stepper_atRest (r : Request) (hr : r.AtRest) (t : Stepper) :
    stepper.permits t r ∧ ∀ x t', stepper.step t r x t' → t' = t := by
  cases r <;> first | exact hr.elim | exact ⟨trivial, fun _ _ h => h⟩

/-- What is done with the thread at rest leaves it alone. -/
theorem wp_atRest {α : Type} {t : Stepper} {p : Tracer α} (hp : p.Only Request.AtRest) :
    wp stepper (fun _ t' => t' = t) p t :=
  wp_mono (fun _ _ h => h.1)
    (wp_only (P := fun _ => True) stepper_atRest hp (Ensures.anything (fun _ _ => trivial) p) t)

theorem wp_atRest_bind {α β : Type} {t : Stepper} {p : Tracer β} {f : β → Tracer α}
    (hp : p.Only Request.AtRest) (hf : ∀ b, wp stepper OneExecuted (f b) t) :
    wp stepper OneExecuted (p.bind f) t := by
  refine wp_bind_of (wp_atRest hp) fun o t' ht => ?_
  subst ht
  cases o with
  | ok b => exact hf b
  | error | abort | cut => exact nofun

theorem atRest_ptraceGetRegs : (ptraceGetRegs pid).Only Request.AtRest :=
  ⟨trivial, only_orThrow _⟩

theorem atRest_ptraceSetRegs (regs : UserRegs) : (ptraceSetRegs pid regs).Only Request.AtRest :=
  ⟨trivial, only_orThrow _⟩

theorem atRest_ptracePeek (addr : Word) : (ptracePeek pid addr).Only Request.AtRest :=
  ⟨trivial, only_orThrow _⟩

theorem atRest_ptracePoke (addr data : Word) : (ptracePoke pid addr data).Only Request.AtRest :=
  ⟨trivial, only_orThrow _⟩

theorem UndisturbedStep.wp_ptraceSingleStep (h : UndisturbedStep signals) :
    wp stepper OneExecuted (ptraceSingleStep fuel pid) { signals := signals } := by
  refine ⟨trivial, fun rep s hstep => ?_⟩
  cases rep with
  | error e => exact nofun
  | ok =>
      obtain rfl : s = _ := hstep
      show wp stepper _ ((doWait fuel pid 0).bind _) _
      refine wp_bind_of (expected_wait.wp_doWait fuel h.expected) fun o t ho => ?_
      cases o with
      | ok status => exact fun _ _ => ho status rfl
      | error | abort | cut => exact nofun

/-- The step, and what follows it with the thread at rest. -/
theorem UndisturbedStep.wp_step_bind {α : Type} (h : UndisturbedStep signals) {f : Unit → Tracer α}
    (hf : (f ()).Only Request.AtRest) :
    wp stepper OneExecuted ((ptraceSingleStep fuel pid).bind f) { signals := signals } := by
  refine wp_bind_of h.wp_ptraceSingleStep fun o t ho => ?_
  cases o with
  | ok =>
      refine wp_mono (fun _ t' ht' _ _ => ?_) (wp_atRest hf)
      rw [ht']
      exact ho () rfl
  | error | abort | cut => exact nofun

theorem UndisturbedStep.wp_allocPage (h : UndisturbedStep signals) :
    wp stepper OneExecuted (allocPage fuel pid) { signals := signals } := by
  apply wp_atRest_bind atRest_ptraceGetRegs
  intro oldregs
  apply wp_atRest_bind (atRest_ptracePeek _)
  intro orig_code
  apply wp_atRest_bind (atRest_ptracePoke _ _)
  intro _
  apply wp_atRest_bind (atRest_ptraceSetRegs _)
  intro _
  apply h.wp_step_bind
  refine .bind atRest_ptraceGetRegs fun regs => ?_
  exact .bind (atRest_ptraceSetRegs _) fun _ => .bind (atRest_ptracePoke _ _) fun _ => trivial

theorem UndisturbedStep.wp_munmapStep (h : UndisturbedStep signals) (newregs : UserRegs) :
    wp stepper OneExecuted (munmapStep fuel pid newregs ()) { signals := signals } := by
  apply wp_atRest_bind (atRest_ptraceSetRegs _)
  intro _
  apply h.wp_step_bind
  refine .bind atRest_ptraceGetRegs fun regs => ?_
  exact .ite ⟨trivial, fun _ => trivial⟩ (.ite trivial ⟨trivial, fun _ => trivial⟩)

/-! ### The run that shows it -/

/-- A kernel that grants everything. A thread that runs freely gets two instructions
further before it traps. -/
def grantAll : Handler sys Stepper := fun r t =>
  match r with
  | .singleStep _ => (.ok (), t.resume .stepping)
  | .cont _ => (.ok (), t.resume .running)
  | .waitpid pid _ =>
      match t.mode, t.signals with
      | .stepping, signum :: signals | .running, signum :: signals =>
          (.ok (pid, stopStatus signum), ⟨.stopped, signals, t.executed⟩)
      | .stepping, [] => (.ok (pid, trapped), ⟨.stopped, [], t.executed + 1⟩)
      | .running, [] => (.ok (pid, trapped), ⟨.stopped, [], t.executed + 2⟩)
      | .stopped, _ | .gone, _ => (.error [], t)
  | .getRegs _ => (.ok atWork.regs, t)
  | .peekData _ _ => (.ok 0, t)
  | .setRegs _ _ | .pokeData _ _ _ => (.ok (), t)
  | r => (refuse r, t)

theorem grantAll_step (t : Stepper) (r : Request) :
    stepper.step t r (grantAll r t).1 (grantAll r t).2 := by
  obtain ⟨mode, signals, n⟩ := t
  cases r with
  | waitpid pid options =>
      cases mode with
      | stepping =>
          cases signals with
          | nil => exact ⟨rfl, .trap n⟩
          | cons signum signals => exact ⟨rfl, .signal signum signals n⟩
      | running =>
          cases signals with
          | nil => exact ⟨rfl, .freeTrap n 2⟩
          | cons signum signals => exact ⟨rfl, .freeSignal signum signals n 0⟩
      | stopped | gone => exact rfl
  | _ => exact rfl

theorem waitStatus_trap {status : Status} (hstopped : WIFSTOPPED status = true)
    (htrap : WSTOPSIG status = SIGTRAP) : waitStatus pid pid status = .ret (.inr status) := by
  simp [waitStatus, hstopped, htrap]

theorem waitStatus_child {status : Status} (hstopped : WIFSTOPPED status = true)
    (hchild : WSTOPSIG status = SIGCHLD) :
    waitStatus pid pid status = (ptraceCont pid).bind fun _ => .ret (.inl ()) := by
  have hne : SIGCHLD ≠ SIGTRAP := by decide
  simp [waitStatus, hstopped, hchild, hne]

/-- Where `DoWait` skips a signal, or takes one for the trap, it returns and the thread
has not executed one instruction. -/
theorem run_doWait_disturbed (pid : Pid) {mode : Mode}
    (hmode : mode = .running ∨ mode = .stepping ∧ signals ≠ [])
    (h : ∀ signum, signals.find? (·.setWidth 32 ≠ SIGCHLD) = some signum →
      signum.setWidth 32 = SIGTRAP) :
    ∃ status t, run grantAll (doWait (signals.length + 1) pid 0) ⟨mode, signals, 0⟩ =
      (.ok status, t) ∧ t.executed ≠ 1 := by
  induction signals generalizing mode with
  | nil =>
      obtain rfl : mode = .running := by simpa using hmode
      have hreply : grantAll (.waitpid pid 0) ⟨.running, [], 0⟩ =
          (.ok (pid, trapped), ⟨.stopped, [], 2⟩) := rfl
      have hrun := (doWait_told 0 hreply).2
      rw [waitStatus_trap (by decide) (by decide)] at hrun
      exact ⟨_, _, hrun, by simp⟩
  | cons signum signals ih =>
      have hreply : grantAll (.waitpid pid 0) ⟨mode, signum :: signals, 0⟩ =
          (.ok (pid, stopStatus signum), ⟨.stopped, signals, 0⟩) := by
        rcases hmode with rfl | ⟨rfl, -⟩ <;> rfl
      have hrun := (doWait_told (signals.length + 1) hreply).2
      have hstopped := WIFSTOPPED_stopStatus signum
      have hsig := WSTOPSIG_stopStatus signum
      by_cases hchild : signum.setWidth 32 = SIGCHLD
      · -- The thread is resumed, and runs.
        rw [waitStatus_child hstopped (hsig.trans hchild)] at hrun
        rw [List.find?_cons_of_neg (by simpa using hchild)] at h
        obtain ⟨status, t, hrest, hne⟩ := ih (.inl rfl) h
        exact ⟨status, t, hrun.trans hrest, hne⟩
      · -- A signal that passes for the trap.
        rw [List.find?_cons_of_pos (by simpa using hchild)] at h
        have htrap := h signum rfl
        rw [waitStatus_trap hstopped (hsig.trans htrap)] at hrun
        exact ⟨_, _, hrun, by simp⟩

/-- The same of the step. -/
theorem run_ptraceSingleStep_disturbed (pid : Pid) (h : ¬ UndisturbedStep signals) :
    ∃ t, run grantAll (ptraceSingleStep (signals.length + 1) pid) { signals := signals } =
      (.ok (), t) ∧ t.executed ≠ 1 := by
  obtain ⟨hsignals, hfirst⟩ := not_or.mp h
  have htrap : ∀ signum, signals.find? (·.setWidth 32 ≠ SIGCHLD) = some signum →
      signum.setWidth 32 = SIGTRAP := fun signum hsome =>
    by_contra fun hne => hfirst ⟨signum, hsome, hne⟩
  obtain ⟨status, t, hrun, hne⟩ := run_doWait_disturbed pid (.inr ⟨rfl, hsignals⟩) htrap
  refine ⟨t, ?_, hne⟩
  show run grantAll ((doWait (signals.length + 1) pid 0).bind _) ⟨.stepping, signals, 0⟩ = _
  rw [run_bind_ok grantAll hrun]
  rfl

theorem undisturbedStep_of_executesOne (pid : Pid) {α : Type} {p : ℕ → Tracer α}
    (h : ExecutesOne signals p)
    (hrun : ∀ fuel t, run grantAll (ptraceSingleStep fuel pid) { signals := signals } = (.ok (), t) →
      ∃ a, run grantAll (p fuel) { signals := signals } = (.ok a, t)) : UndisturbedStep signals := by
  by_contra hdisturbed
  obtain ⟨t, hstep, hne⟩ := run_ptraceSingleStep_disturbed pid hdisturbed
  obtain ⟨a, hp⟩ := hrun _ _ hstep
  have hone := wp_run grantAll_step (h (signals.length + 1))
  rw [hp] at hone
  exact hne (hone a rfl)

/-- `PtraceSingleStep` has the target execute one instruction, and so do the steps of
`AllocPage` and `PtraceCleanup`, exactly if `DoWait` skips no signal and takes none
for the trap. -/
theorem singleStep_executesOne_iff (pid : Pid) (signals : List (BitVec 8)) (newregs : UserRegs) :
    (ExecutesOne signals (fun fuel => ptraceSingleStep fuel pid) ↔ UndisturbedStep signals) ∧
      (ExecutesOne signals (fun fuel => allocPage fuel pid) ↔ UndisturbedStep signals) ∧
      (ExecutesOne signals (fun fuel => munmapStep fuel pid newregs ()) ↔
        UndisturbedStep signals) := by
  constructor
  · exact ⟨fun h => undisturbedStep_of_executesOne pid h fun _ _ hstep => ⟨(), hstep⟩,
      fun h _ => h.wp_ptraceSingleStep⟩
  constructor
  · refine ⟨fun h => undisturbedStep_of_executesOne pid h fun fuel t hstep => ?_,
      fun h _ => h.wp_allocPage⟩
    apply Exists.intro atWork.regs.rax
    show run grantAll ((ptraceSingleStep fuel pid).bind _) { signals := signals } = _
    rw [run_bind_ok grantAll hstep]
    rfl
  · refine ⟨fun h => undisturbedStep_of_executesOne pid h fun fuel t hstep => ?_,
      fun h _ => h.wp_munmapStep newregs⟩
    apply Exists.intro (.inr ())
    show run grantAll ((ptraceSingleStep fuel pid).bind _) { signals := signals } = _
    rw [run_bind_ok grantAll hstep]
    rfl

/-- A child of the target has died. -/
theorem singleStep_runs_on :
    ¬ ExecutesOne [17] (fun fuel => ptraceSingleStep fuel 1) := by
  intro h
  have hone := wp_run grantAll_step (h 2)
  have hrun : (run grantAll (ptraceSingleStep 2 1) { signals := [17] }).2.executed = 2 := by
    decide
  rw [hone () (by decide)] at hrun
  contradiction

end

end Pyflame
