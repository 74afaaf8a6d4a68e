import Pyflame.Exit

/-!
The loop of `InitiatePtrace` that waits for the child to have called `exec`.

A child that is traced stops for every signal, and stays so until it is
resumed. The loop waits again all the same.
-/

namespace Pyflame

open Interaction

/-! ### What the parent is told, and what it does about it -/

/-- Is there something to be done for the child before the next wait, after this call? A
wait tells of a status for which something is `due`. What does it is to resume or to
release the child. -/
def Call.pending (due : Status → Bool) (pid : Pid) (pending : Bool) : (c : Call) → c.Rep → Bool
  | .waitpid _ _ => fun
      | .ok (progeny, status) => if progeny = pid then due status else pending
      | .error _ => pending
  | .ptraceCont p | .ptraceDetach p => fun
      | .ok () => if p = pid then false else pending
      | .error _ => pending
  | _ => fun _ => pending

/-- A wait for a process, by itself or as part of `PtraceInterrupt`. -/
def Call.isWait : Call → Bool
  | .waitpid _ _ | .ptraceInterrupt _ => true
  | _ => false

/-- Whenever the parent waits there is nothing left to be done. -/
def Prompt (due : Status → Bool) (pid : Pid) : Bool → Log calls → Prop
  | _, [] => True
  | pending, ⟨c, x⟩ :: log =>
      (c.isWait = true → pending = false) ∧ Prompt due pid (c.pending due pid pending x) log

instance Prompt.decidable (due : Status → Bool) (pid : Pid) :
    ∀ pending log, Decidable (Prompt due pid pending log)
  | _, [] => .isTrue trivial
  | pending, ⟨c, x⟩ :: log =>
      have := Prompt.decidable due pid (c.pending due pid pending x) log
      inferInstanceAs (Decidable ((c.isWait = true → pending = false) ∧ _))

/-- The parent never waits for the child while the last it was told of it is that it has
stopped. -/
def NeverWaitsForStopped (pid : Pid) (log : Log calls) : Prop :=
  Prompt (fun status => WIFSTOPPED status) pid false log

/-- Whatever it was told, the parent resumes the child or does not wait any more. -/
def ResumesOrLeaves (pid : Pid) (log : Log calls) : Prop := Prompt (fun _ => true) pid false log

def Call.isCont : Call → Bool
  | .ptraceCont _ => true
  | _ => false

instance (pid : Pid) (log : Log calls) : Decidable (NeverWaitsForStopped pid log) :=
  Prompt.decidable _ _ _ _

instance (pid : Pid) (log : Log calls) : Decidable (ResumesOrLeaves pid log) :=
  Prompt.decidable _ _ _ _

/-- From the first `PtraceCont` on. -/
def afterCont (log : Log calls) : Log calls := log.dropWhile fun x => !x.1.isCont

/-- The status of the child that a wait has told of. -/
def Call.status (pid : Pid) : (c : Call) → c.Rep → Option Status
  | .waitpid _ _ => fun
      | .ok (progeny, status) => if progeny = pid then some status else none
      | .error _ => none
  | _ => fun _ => none

def statuses (pid : Pid) (log : Log calls) : List Status :=
  log.filterMap fun x => x.1.status pid x.2

/-! ### Logs -/

section

variable {due : Status → Bool} {pid : Pid} {pending : Bool} {log rest : Log calls}

/-- Nothing is waited for. -/
def Idle (log : Log calls) : Prop := ∀ x ∈ log, x.1.isWait = false

theorem idle_nil : Idle [] := nofun

theorem Idle.prompt (h : Idle log) : Prompt due pid pending log := by
  induction log generalizing pending with
  | nil => trivial
  | cons x log ih =>
      obtain ⟨hx, hlog⟩ := List.forall_mem_cons.mp h
      exact ⟨fun hwait => absurd (hx.symm.trans hwait) Bool.false_ne_true, ih hlog⟩

theorem Idle.statuses (h : Idle log) : statuses pid log = [] := by
  refine List.filterMap_eq_nil_iff.mpr fun x hx => ?_
  obtain ⟨c, x⟩ := x
  have hc := h _ hx
  cases c with
  | waitpid => contradiction
  | _ => rfl

/-- Nothing is told, and whatever is to be done is done before the next wait. -/
def Harmless (pid : Pid) (log : Log calls) : Prop :=
  (∀ due pending, Prompt due pid pending log) ∧ statuses pid log = []

theorem Idle.harmless (h : Idle log) : Harmless pid log := ⟨fun _ _ => h.prompt, h.statuses⟩

theorem prompt_append_harmless (h : Harmless pid rest) :
    Prompt due pid pending (log ++ rest) ↔ Prompt due pid pending log := by
  induction log generalizing pending with
  | nil => exact iff_of_true (h.1 due pending) trivial
  | cons x log ih => exact and_congr_right fun _ => ih

theorem statuses_cons (c : Call) (x : c.Rep) :
    statuses pid (⟨c, x⟩ :: log) = (c.status pid x).toList ++ statuses pid log := by
  rw [statuses, List.filterMap_cons]
  cases c.status pid x <;> rfl

/-- After a wait something is left to be done if it is due for the status that was told. -/
theorem pending_waitpid (p : Pid) (options : ℤ) (x : Reply (Pid × Status)) :
    (Call.waitpid p options).pending due pid false x =
      (((Call.waitpid p options).status pid x).map due).getD false := by
  rcases x with e | ⟨progeny, status⟩
  · rfl
  · by_cases hpid : progeny = pid
    · simp [Call.pending, Call.status, hpid]
    · simp [Call.pending, Call.status, hpid]

theorem statuses_append (log log' : Log calls) :
    statuses pid (log ++ log') = statuses pid log ++ statuses pid log' := List.filterMap_append

theorem statuses_append_harmless (h : Harmless pid rest) :
    statuses pid (log ++ rest) = statuses pid log := by
  rw [statuses_append, h.2, List.append_nil]

end

/-! ### The loop -/

section

variable {σ : Type} (h : Handler calls σ)

def loopLog (fuel : ℕ) (s : σ) : Log calls := logOf (trace h (Prog.forever awaitExecStep fuel ()) s)

/-- The reply to a wait with which the loop is left. -/
def LeavesLoop : Reply (Pid × Status) → Prop
  | .error _ => True
  | .ok (_, status) => WIFEXITED status = true ∨ sawEventExec status = true

/-- What a pass does with a reply. -/
theorem awaitExecStep_eq : ∃ k : Reply (Pid × Status) → Driver (Unit ⊕ ℕ),
    awaitExecStep () = (invoke (.waitpid (-1) 0)).bind k ∧
      (∀ x, LeavesLoop x → k x = .ret (.inr 0) ∨
        ∃ line, k x = (invoke (.cerr line)).bind fun _ => .ret (.inr 1)) ∧
      ∀ x, ¬ LeavesLoop x → k x = .ret (.inl ()) := by
  refine ⟨_, rfl, fun x hx => ?_, fun x hx => ?_⟩
  · rcases x with e | ⟨progeny, status⟩
    · exact .inr ⟨_, rfl⟩
    · by_cases hexited : WIFEXITED status = true
      · exact .inr ⟨_, if_pos hexited⟩
      · have hexec := hx.resolve_left hexited
        exact .inl ((if_neg hexited).trans (if_pos hexec))
  · rcases x with e | ⟨progeny, status⟩
    · exact absurd trivial hx
    · obtain ⟨hexited, hexec⟩ := not_or.mp hx
      exact (if_neg hexited).trans (if_neg hexec)

/-- One pass: it leaves the loop without another wait, or goes round again. -/
theorem loopLog_succ (s : σ) (fuel : ℕ) :
    let x := (h (.waitpid (-1) 0) s).1
    (LeavesLoop x → ∃ rest, Idle rest ∧ loopLog h (fuel + 1) s = ⟨.waitpid (-1) 0, x⟩ :: rest) ∧
    (¬ LeavesLoop x → loopLog h (fuel + 1) s =
      ⟨.waitpid (-1) 0, x⟩ :: loopLog h fuel (h (.waitpid (-1) 0) s).2) := by
  intro x
  obtain ⟨k, hstep, hleaves, hagain⟩ := awaitExecStep_eq
  obtain ⟨f, hforever, hinl, hinr⟩ : ∃ f : Unit ⊕ ℕ → Driver ℕ,
      Prog.forever awaitExecStep (fuel + 1) () = (awaitExecStep ()).bind f ∧
        f (.inl ()) = Prog.forever awaitExecStep fuel () ∧ ∀ code, f (.inr code) = .ret code :=
    ⟨_, rfl, rfl, fun _ => rfl⟩
  have hpass : loopLog h (fuel + 1) s =
      ⟨.waitpid (-1) 0, x⟩ :: logOf (trace h ((k x).bind f) (h (.waitpid (-1) 0) s).2) := by
    rw [loopLog, hforever, hstep]
    rfl
  rw [hpass]
  constructor
  · intro hx
    refine ⟨_, ?_, rfl⟩
    rcases hleaves x hx with hk | ⟨line, hk⟩
    · rw [hk, Prog.ret_bind, hinr]
      exact idle_nil
    · rw [hk, Prog.bind_assoc]
      intro y hy
      obtain rfl : y = ⟨.cerr line, (h (.cerr line) (h (.waitpid (-1) 0) s).2).1⟩ := by
        rw [Prog.ask_bind] at hy
        simpa [trace, logOf, hinr] using hy
      rfl
  · intro hx
    rw [hagain x hx, Prog.ret_bind, hinl]
    rfl

/-- Everything of one kind that the child tells leaves the loop. -/
def DueLeaves (due : Status → Bool) (pid : Pid) (log : Log calls) : Prop :=
  ∀ status ∈ statuses pid log, due status = true → WIFEXITED status = true ∨ sawEventExec status = true

/-- The status that a reply tells of the child. -/
theorem leavesLoop_of_status {pid p : Pid} {options : ℤ} {x : Reply (Pid × Status)} {status : Status}
    (hx : (Call.waitpid p options).status pid x = some status) :
    LeavesLoop x ↔ WIFEXITED status = true ∨ sawEventExec status = true := by
  rcases x with e | ⟨progeny, status'⟩
  · contradiction
  · by_cases hpid : progeny = pid
    · obtain rfl : status' = status := by simpa [Call.status, hpid] using hx
      rfl
    · simp [Call.status, hpid] at hx

variable {h}

/-- Where the loop goes round again nothing is pending, since it waits. -/
theorem pending_of_prompt {due : Status → Bool} {pid : Pid} {s : σ}
    (hprompt : ∀ fuel, Prompt due pid false (loopLog h fuel s))
    (hx : ¬ LeavesLoop (h (.waitpid (-1) 0) s).1) :
    (Call.waitpid (-1) 0).pending due pid false (h (.waitpid (-1) 0) s).1 = false := by
  have htwo := hprompt 2
  rw [(loopLog_succ h s 1).2 hx] at htwo
  -- The next pass starts with a wait.
  by_cases hnext : LeavesLoop (h (.waitpid (-1) 0) (h (.waitpid (-1) 0) s).2).1
  · obtain ⟨rest, -, hlog⟩ := (loopLog_succ h (h (.waitpid (-1) 0) s).2 0).1 hnext
    rw [hlog] at htwo
    exact htwo.2.1 rfl
  · rw [(loopLog_succ h (h (.waitpid (-1) 0) s).2 0).2 hnext] at htwo
    exact htwo.2.1 rfl

theorem dueLeaves_of_prompt {due : Status → Bool} {pid : Pid} (fuel : ℕ) {s : σ}
    (hprompt : ∀ fuel, Prompt due pid false (loopLog h fuel s)) :
    DueLeaves due pid (loopLog h fuel s) := by
  induction fuel generalizing s with
  | zero => exact nofun
  | succ fuel ih =>
      intro status hstatus hdue
      by_cases hx : LeavesLoop (h (.waitpid (-1) 0) s).1
      · obtain ⟨rest, hidle, hlog⟩ := (loopLog_succ h s fuel).1 hx
        rw [hlog, statuses_cons, hidle.statuses, List.append_nil, Option.mem_toList] at hstatus
        exact (leavesLoop_of_status hstatus).mp hx
      · have hpending := pending_of_prompt hprompt hx
        rw [(loopLog_succ h s fuel).2 hx, statuses_cons, List.mem_append, Option.mem_toList] at hstatus
        rcases hstatus with hstatus | hstatus
        · rw [pending_waitpid, hstatus] at hpending
          exact absurd (hpending.symm.trans hdue) Bool.false_ne_true
        · refine ih (fun n => ?_) status hstatus hdue
          have hn := hprompt (n + 1)
          rw [(loopLog_succ h s n).2 hx] at hn
          have hrest := hn.2
          rwa [hpending] at hrest

theorem prompt_of_dueLeaves {due : Status → Bool} {pid : Pid} (fuel : ℕ) {s : σ}
    (hdue : ∀ fuel, DueLeaves due pid (loopLog h fuel s)) :
    Prompt due pid false (loopLog h fuel s) := by
  induction fuel generalizing s with
  | zero => trivial
  | succ fuel ih =>
      by_cases hx : LeavesLoop (h (.waitpid (-1) 0) s).1
      · obtain ⟨rest, hidle, hlog⟩ := (loopLog_succ h s fuel).1 hx
        rw [hlog]
        exact ⟨fun _ => rfl, hidle.prompt⟩
      · have hlog := (loopLog_succ h s fuel).2 hx
        have hpending :
            (Call.waitpid (-1) 0).pending due pid false (h (.waitpid (-1) 0) s).1 = false := by
          have hone := hdue (fuel + 1)
          rw [hlog] at hone
          rw [pending_waitpid]
          cases hstatus : (Call.waitpid (-1) 0).status pid (h (.waitpid (-1) 0) s).1 with
          | none => rfl
          | some status =>
              refine Bool.eq_false_iff.mpr fun hd => hx ?_
              refine (leavesLoop_of_status hstatus).mpr (hone status ?_ hd)
              rw [statuses_cons, hstatus]
              exact List.mem_cons_self
        rw [hlog]
        refine ⟨fun _ => rfl, ?_⟩
        rw [hpending]
        refine ih fun n status hstatus => ?_
        have hn := hdue (n + 1)
        rw [(loopLog_succ h s n).2 hx] at hn
        refine hn status ?_
        rw [statuses_cons]
        exact List.mem_append_right _ hstatus

/-! ### The child before the loop, and after it -/

theorem logOf_trace_invoke (c : Call) {α : Type} (f : c.Rep → Driver α) (s : σ) :
    logOf (trace h ((invoke c).bind f) s) = ⟨c, (h c s).1⟩ :: logOf (trace h (f (h c s).1) (h c s).2) :=
  rfl

/-- What a run of `InitiatePtrace` asks for. -/
def initiateLog (h : Handler calls σ) (cfg : Settings) (s : σ) (fuel : ℕ) : Log calls :=
  logOf (trace h (initiatePtrace fuel cfg) s)

/-- What the parent does once the child has called `exec`. -/
def afterExec (cfg : Settings) (code : ℕ) : Driver (Option Settings) := do
  if code ≠ 0 then
    return none
  else
    rethrow (← invoke (.ptraceDetach cfg.pid))
    rethrow (← invoke (.ptraceSeize cfg.pid))
    rethrow (← invoke (.ptraceInterrupt cfg.pid))
    return some cfg

/-- The child is released before it is waited for again. -/
theorem afterExec_harmless (cfg : Settings) (code : ℕ) (s : σ) :
    Harmless cfg.pid (logOf (trace h (afterExec cfg code) s)) := by
  by_cases hcode : code ≠ 0
  · rw [afterExec, if_pos hcode]
    exact idle_nil.harmless
  rw [afterExec, if_neg hcode, Prog.bind_eq, logOf_trace_invoke]
  rcases (h (.ptraceDetach cfg.pid) s).1 with e | ⟨⟨⟩⟩
  · exact ⟨fun _ _ => ⟨nofun, trivial⟩, rfl⟩
  rw [rethrow, Prog.bind_eq, Prog.ret_bind, Prog.bind_eq, logOf_trace_invoke]
  generalize (h (.ptraceDetach cfg.pid) s).2 = s
  rcases (h (.ptraceSeize cfg.pid) s).1 with e | ⟨⟨⟩⟩
  · exact ⟨fun _ _ => ⟨nofun, nofun, trivial⟩, rfl⟩
  rw [rethrow, Prog.bind_eq, Prog.ret_bind, Prog.bind_eq, logOf_trace_invoke]
  have hlog : logOf (trace h ((rethrow (h (.ptraceInterrupt cfg.pid)
      (h (.ptraceSeize cfg.pid) s).2).1).bind fun _ => .ret (some cfg))
        (h (.ptraceInterrupt cfg.pid) (h (.ptraceSeize cfg.pid) s).2).2) = [] := by
    cases (h (.ptraceInterrupt cfg.pid) (h (.ptraceSeize cfg.pid) s).2).1 <;> rfl
  rw [Prog.bind_eq]
  simp only [Prog.pure_eq, hlog]
  refine ⟨fun due pending => ⟨nofun, nofun, fun _ => ?_, trivial⟩, rfl⟩
  simp [Call.pending]

theorem afterExec_log (cfg : Settings) (fuel : ℕ) (s : σ) : ∃ rest, Harmless cfg.pid rest ∧
    logOf (trace h ((Prog.forever awaitExecStep fuel ()).bind (afterExec cfg)) s) =
      loopLog h fuel s ++ rest := by
  rw [trace_bind, logOf_append]
  refine ⟨_, ?_, rfl⟩
  rcases run h (Prog.forever awaitExecStep fuel ()) s with ⟨code | e | _ | _, s'⟩
  · exact afterExec_harmless cfg code s'
  · exact idle_nil.harmless
  · exact idle_nil.harmless
  · exact idle_nil.harmless

/-- A run that does not get as far as the loop. -/
def Settled (pid : Pid) (log : Log calls) : Prop :=
  (∀ due, Prompt due pid false log) ∧ statuses pid (afterCont log) = []

variable (h) in
/-- What is asked for after `fork`: the same without the loop, however long that may run, or
what the loop asks for after a successful `PtraceCont`. -/
def ReachesLoop (pid : Pid) (log : ℕ → Log calls) : Prop :=
  (∃ settled, Settled pid settled ∧ ∀ fuel, log fuel = settled) ∨
    ∃ status s', ∀ fuel, ∃ rest, Harmless pid rest ∧ log fuel =
      ⟨.waitpid 0 0, .ok (pid, status)⟩ :: ⟨.ptraceSetOptions pid PTRACE_O_TRACEEXEC, .ok ()⟩ ::
        ⟨.ptraceCont pid, .ok ()⟩ :: (loopLog h fuel s' ++ rest)

theorem traceChild_reachesLoop (cfg : Settings) (s : σ) :
    ReachesLoop h cfg.pid fun fuel => logOf (trace h (traceChild fuel cfg) s) := by
  rcases hwait : (h (.waitpid 0 0) s).1 with e | ⟨child, status⟩
  · refine .inl ⟨[⟨.waitpid 0 0, .error e⟩], ⟨fun due => ⟨fun _ => rfl, trivial⟩, rfl⟩, fun fuel => ?_⟩
    simp only [traceChild, Prog.bind_eq]
    rw [logOf_trace_invoke, hwait]
    rfl
  by_cases hne : child ≠ cfg.pid
  · refine .inl ⟨[⟨.waitpid 0 0, .ok (child, status)⟩], ⟨fun due => ⟨fun _ => rfl, trivial⟩, rfl⟩,
      fun fuel => ?_⟩
    simp only [traceChild, Prog.bind_eq]
    rw [logOf_trace_invoke, hwait]
    simp only [if_pos hne]
    rfl
  obtain rfl : child = cfg.pid := not_not.mp hne
  -- From here on it is a sequence of calls whose exceptions are not caught.
  have hwaited (fuel : ℕ) : logOf (trace h (traceChild fuel cfg) s) =
      ⟨.waitpid 0 0, .ok (cfg.pid, status)⟩ ::
        logOf (trace h ((invoke (.ptraceSetOptions cfg.pid PTRACE_O_TRACEEXEC)).bind fun x =>
          (rethrow x).bind fun _ => (invoke (.ptraceCont cfg.pid)).bind fun x =>
            (rethrow x).bind fun _ => (Prog.forever awaitExecStep fuel ()).bind (afterExec cfg))
          (h (.waitpid 0 0) s).2) := by
    simp only [traceChild, Prog.bind_eq]
    rw [logOf_trace_invoke, hwait]
    simp only [if_neg hne]
    rfl
  simp only [hwaited]
  generalize (h (.waitpid 0 0) s).2 = s
  rcases hoptions : (h (.ptraceSetOptions cfg.pid PTRACE_O_TRACEEXEC) s).1 with e | ⟨⟨⟩⟩
  · refine .inl ⟨[⟨.waitpid 0 0, .ok (cfg.pid, status)⟩,
      ⟨.ptraceSetOptions cfg.pid PTRACE_O_TRACEEXEC, .error e⟩],
      ⟨fun due => ⟨fun _ => rfl, nofun, trivial⟩, rfl⟩, fun fuel => ?_⟩
    beta_reduce
    rw [logOf_trace_invoke, hoptions]
    rfl
  rcases hcont : (h (.ptraceCont cfg.pid) (h (.ptraceSetOptions cfg.pid PTRACE_O_TRACEEXEC) s).2).1
    with e | ⟨⟨⟩⟩
  · refine .inl ⟨[⟨.waitpid 0 0, .ok (cfg.pid, status)⟩,
      ⟨.ptraceSetOptions cfg.pid PTRACE_O_TRACEEXEC, .ok ()⟩, ⟨.ptraceCont cfg.pid, .error e⟩],
      ⟨fun due => ⟨fun _ => rfl, nofun, nofun, trivial⟩, rfl⟩, fun fuel => ?_⟩
    beta_reduce
    rw [logOf_trace_invoke, hoptions, rethrow, Prog.ret_bind, logOf_trace_invoke, hcont]
    rfl
  · refine .inr ⟨status,
      (h (.ptraceCont cfg.pid) (h (.ptraceSetOptions cfg.pid PTRACE_O_TRACEEXEC) s).2).2, fun fuel => ?_⟩
    obtain ⟨rest, hrest, hlog⟩ := afterExec_log (h := h) cfg fuel
      (h (.ptraceCont cfg.pid) (h (.ptraceSetOptions cfg.pid PTRACE_O_TRACEEXEC) s).2).2
    refine ⟨rest, hrest, ?_⟩
    beta_reduce
    rw [logOf_trace_invoke, hoptions, rethrow, Prog.ret_bind, logOf_trace_invoke, hcont, rethrow,
      Prog.ret_bind, hlog]

theorem initiatePtrace_reachesLoop {cfg : Settings} {s : σ} {pid : Pid} (htrace : cfg.trace = true)
    (hself : ¬ text "pyflame" <:+ cfg.trace_target) (hfork : (h .fork s).1 = .ok pid)
    (hpid : pid ≠ 0) : ∃ log, ReachesLoop h pid log ∧
      ∀ fuel, initiateLog h cfg s fuel = ⟨.fork, .ok pid⟩ :: log fuel := by
  refine ⟨_, traceChild_reachesLoop { cfg with pid := pid } (h .fork s).2, fun fuel => ?_⟩
  rw [initiateLog, initiatePtrace, if_pos htrace, if_neg hself, Prog.bind_eq, logOf_trace_invoke, hfork]
  simp only [if_neg hpid]

/-- What the parent does promptly, it does exactly if all that is due leaves the loop. -/
theorem initiatePtrace_prompt_iff {cfg : Settings} {s : σ} {pid : Pid} (htrace : cfg.trace = true)
    (hfork : (h .fork s).1 = .ok pid) (hpid : pid ≠ 0) (due : Status → Bool) :
    (∀ fuel, Prompt due pid false (initiateLog h cfg s fuel)) ↔
      ∀ fuel, DueLeaves due pid (afterCont (initiateLog h cfg s fuel)) := by
  by_cases hself : text "pyflame" <:+ cfg.trace_target
  · have hlog (fuel : ℕ) : initiateLog h cfg s fuel =
        [⟨.cerr (text "You tried to pyflame a pyflame, naughty!\n"), ()⟩] := by
      rw [initiateLog, initiatePtrace, if_pos htrace, if_pos hself]
      rfl
    simp only [hlog]
    exact iff_of_true (fun _ => ⟨nofun, trivial⟩) fun _ => nofun
  obtain ⟨log, hreaches, hlog⟩ := initiatePtrace_reachesLoop htrace hself hfork hpid
  simp only [hlog]
  rcases hreaches with ⟨settled, ⟨hprompt, hstatuses⟩, hsettled⟩ | ⟨status, s', hloop⟩
  · simp only [hsettled]
    refine iff_of_true (fun _ => ⟨nofun, hprompt due⟩) fun _ status hstatus => ?_
    have hmem : status ∈ statuses pid (afterCont settled) := hstatus
    rw [hstatuses] at hmem
    contradiction
  · -- The calls in front of the loop leave nothing to be done, and those behind it are harmless.
    have hprompt (fuel : ℕ) : Prompt due pid false (⟨.fork, .ok pid⟩ :: log fuel) ↔
        Prompt due pid false (loopLog h fuel s') := by
      obtain ⟨rest, hrest, hfuel⟩ := hloop fuel
      rw [hfuel]
      refine Iff.trans ?_ (prompt_append_harmless hrest)
      simp [Prompt, Call.isWait, Call.pending]
    have hdue (fuel : ℕ) : DueLeaves due pid (afterCont (⟨.fork, .ok pid⟩ :: log fuel)) ↔
        DueLeaves due pid (loopLog h fuel s') := by
      obtain ⟨rest, hrest, hfuel⟩ := hloop fuel
      have hcont : afterCont (⟨.fork, .ok pid⟩ :: log fuel) =
          ⟨.ptraceCont pid, .ok ()⟩ :: (loopLog h fuel s' ++ rest) := by
        rw [hfuel]
        rfl
      rw [DueLeaves, DueLeaves, hcont, statuses_cons, statuses_append_harmless hrest]
      rfl
    simp only [hprompt, hdue]
    exact ⟨fun h fuel => dueLeaves_of_prompt fuel h, fun h fuel => prompt_of_dueLeaves fuel h⟩

theorem not_exited_of_stopped {status : Status} (h : WIFSTOPPED status = true) :
    ¬ WIFEXITED status = true := by
  simp only [WIFSTOPPED, WIFEXITED, decide_eq_true_eq] at h ⊢
  intro hexited
  have hmask : status &&& 0x7f#32 = (status &&& 0xff#32) &&& 0x7f#32 := by
    rw [BitVec.and_assoc]
    rfl
  rw [hmask, h] at hexited
  contradiction

/-- **When the parent does not wait for a child that has stopped.** While a child is traced
until it has called `exec`, the parent never waits for it stopped exactly if the only stop it
is told of is that of the event itself. Whatever it is told, it has resumed the child or
does not wait again, exactly if that is the event or the exit of the child. -/
theorem initiatePtrace_resumes_iff {cfg : Settings} {s : σ} {pid : Pid} (htrace : cfg.trace = true)
    (hfork : (h .fork s).1 = .ok pid) (hpid : pid ≠ 0) :
    ((∀ fuel, NeverWaitsForStopped pid (initiateLog h cfg s fuel)) ↔
      ∀ fuel, ∀ status ∈ statuses pid (afterCont (initiateLog h cfg s fuel)),
        WIFSTOPPED status = true → sawEventExec status = true) ∧
    ((∀ fuel, NeverWaitsForStopped pid (initiateLog h cfg s fuel) ∧
        ResumesOrLeaves pid (initiateLog h cfg s fuel)) ↔
      ∀ fuel, ∀ status ∈ statuses pid (afterCont (initiateLog h cfg s fuel)),
        WIFEXITED status = true ∨ sawEventExec status = true) := by
  have hiff := initiatePtrace_prompt_iff htrace hfork hpid
  constructor
  · refine (hiff _).trans (forall_congr' fun fuel => forall₂_congr fun status _ => ?_)
    exact imp_congr_right fun hstopped => or_iff_right (not_exited_of_stopped hstopped)
  · constructor
    · intro h fuel status hstatus
      exact (hiff _).mp (fun n => (h n).2) fuel status hstatus rfl
    · intro h fuel
      have hdue (due : Status → Bool) :
          ∀ n, DueLeaves due pid (afterCont (initiateLog _ cfg s n)) :=
        fun n status hstatus _ => h n status hstatus
      exact ⟨(hiff _).mpr (hdue _) fuel, (hiff _).mpr (hdue _) fuel⟩

end

/-! ### A child that gets a signal -/

def pythonTarget : Settings := { trace := true, trace_target := text "python" }

/-- Once it has been resumed, the child tells the same in every wait. -/
def tellingChild (status : Status) : Handler calls Unit := answer fun
  | .fork => .ok 7
  | .waitpid pid _ => .ok (7, if pid = 0 then 0x137f else status)
  | .ptraceSetOptions _ _ | .ptraceCont _ => .ok ()
  | c => c.lost

theorem initiatePtrace_resumes_exec :
    ((∀ fuel, NeverWaitsForStopped 7 (initiateLog (tellingChild 0x4057f) pythonTarget () fuel)) ↔
      ∀ fuel, ∀ status ∈ statuses 7
          (afterCont (initiateLog (tellingChild 0x4057f) pythonTarget () fuel)),
        WIFSTOPPED status = true → sawEventExec status = true) ∧
      statuses 7 (afterCont (initiateLog (tellingChild 0x4057f) pythonTarget () 2)) = [0x4057f] := by
  have hfork : (tellingChild 0x4057f .fork ()).1 = .ok 7 := rfl
  have htrace : pythonTarget.trace = true := rfl
  exact ⟨(initiatePtrace_resumes_iff htrace hfork (by decide)).1, by decide⟩

/-- A child that gets `SIGCHLD` before it calls `exec` is left stopped. One that is killed is
waited for once more. -/
theorem initiatePtrace_waits :
    ¬ NeverWaitsForStopped 7 (initiateLog (tellingChild 0x117f) pythonTarget () 2) ∧
      ¬ ResumesOrLeaves 7 (initiateLog (tellingChild 9) pythonTarget () 2) := by
  decide

end Pyflame
