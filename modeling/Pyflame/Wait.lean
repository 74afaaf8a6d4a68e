import Pyflame.Ptrace

/-!
What `DoWait` makes of the statuses it is told.
-/

namespace Pyflame

open Interaction

/-- The target has ended: it exited or a signal killed it. -/
def Ended (status : Status) : Prop := WIFEXITED status ∨ WIFSIGNALED status

/-- The process and status that a `waitpid` has told of. -/
def told {σ : Type} : Exchange sys σ → Option (Pid × Status)
  | ⟨_, .waitpid _ _, .ok t⟩ => some t
  | _ => none

/-- What `DoWait` throws when it is told that the target has ended. -/
def endException (pid : Pid) (status : Status) : Exception :=
  if WIFEXITED status then
    .terminate (text "Child process " ++ signedDecimal pid ++
      text " exited with status " ++ signedDecimal (WEXITSTATUS status).toInt)
  else
    .ptrace (text "Child process " ++ signedDecimal pid ++
      text " returned an unexpected waitpid() code: " ++ signedDecimal status.toInt)

theorem Ended.not_stopped {status : Status} (h : Ended status) : WIFSTOPPED status = false := by
  have hmask : status &&& 0x7f#32 = (status &&& 0xff#32) &&& 0x7f#32 := by
    rw [BitVec.and_assoc]
    rfl
  rw [WIFSTOPPED, decide_eq_false_iff_not]
  intro hstopped
  rw [hstopped] at hmask
  rcases h with h | h
  · rw [WIFEXITED, decide_eq_true_eq, hmask] at h
    revert h
    decide
  · rw [WIFSIGNALED, decide_eq_true_eq] at h
    exact h.2 hmask

theorem waitStatus_ended {pid : Pid} {status : Status} (h : Ended status) :
    waitStatus pid pid status = .raise (endException pid status) := by
  have hstopped := h.not_stopped
  by_cases hexited : WIFEXITED status <;> simp [waitStatus, hstopped, hexited, endException]

section

variable {σ : Type} {h : Handler sys σ} {pid : Pid} {options : ℤ} {status : Status}

/-- About a status, at most the target is resumed. -/
theorem trace_waitStatus (progeny : Pid) (status : Status) (s : σ) :
    ∀ y ∈ trace h (waitStatus pid progeny status) s, told y = none := by
  unfold waitStatus
  split_ifs
  · simp [trace]
  · simp [trace]
  · change ∀ y ∈ Exchange.mk s (Request.cont pid) (h (.cont pid) s).1 ::
      trace h (Prog.bind (orThrow _ (h (.cont pid) s).1) _) (h (.cont pid) s).2, told y = none
    cases (h (.cont pid) s).1 <;> simp [trace, told]
  · simp [trace]
  · simp [trace]
  · simp [trace]

/-- A wait that fails is the last of its loop. -/
theorem doWait_failed (fuel : ℕ) {s s' : σ} {e : Bytes}
    (hreply : h (.waitpid pid options) s = (.error e, s')) :
    trace h (doWait (fuel + 1) pid options) s = [⟨s, .waitpid pid options, .error e⟩] := by
  change Exchange.mk s _ (h (.waitpid pid options) s).1 ::
    trace h (Prog.bind (Prog.bind (orThrow _ (h (.waitpid pid options) s).1) _) _) (h _ s).2 = _
  rw [hreply]
  rfl

/-- A wait that is told a status goes by what `waitStatus` does about it. -/
theorem doWait_told (fuel : ℕ) {s s' : σ} {progeny : Pid} {status : Status}
    (hreply : h (.waitpid pid options) s = (.ok (progeny, status), s')) :
    trace h (doWait (fuel + 1) pid options) s =
        ⟨s, .waitpid pid options, .ok (progeny, status)⟩ ::
          (trace h (waitStatus pid progeny status) s' ++
            match run h (waitStatus pid progeny status) s' with
            | (.ok (.inl ()), s'') => trace h (doWait fuel pid options) s''
            | _ => []) ∧
      run h (doWait (fuel + 1) pid options) s =
        match run h (waitStatus pid progeny status) s' with
        | (.ok (.inl ()), s'') => run h (doWait fuel pid options) s''
        | (.ok (.inr status), s'') => (.ok status, s'')
        | (.error e, s'') => (.error e, s'')
        | (.abort, s'') => (.abort, s'')
        | (.cut, s'') => (.cut, s'') := by
  constructor
  · change Exchange.mk s _ (h (.waitpid pid options) s).1 ::
      trace h (Prog.bind (Prog.bind (orThrow _ (h (.waitpid pid options) s).1) _) _) (h _ s).2 = _
    rw [hreply]
    simp only [orThrow_ok, Prog.ret_bind, trace_bind]
    congr 2
    rcases run h (waitStatus pid progeny status) s' with ⟨⟨_ | _⟩ | _ | _ | _, s''⟩ <;> rfl
  · change run h (Prog.bind (Prog.bind (orThrow _ (h (.waitpid pid options) s).1) _) _) (h _ s).2 = _
    rw [hreply]
    simp only [orThrow_ok, Prog.ret_bind, run_bind]
    rcases run h (waitStatus pid progeny status) s' with ⟨⟨_ | _⟩ | _ | _ | _, s''⟩ <;> rfl

/-- Nothing is asked of the system after the end was told, and `DoWait`
throws. -/
theorem trace_doWait_ended (hended : Ended status) {fuel : ℕ} {s : σ}
    {tr tr' : List (Exchange sys σ)} {x : Exchange sys σ}
    (htrace : trace h (doWait fuel pid options) s = tr ++ x :: tr')
    (hx : told x = some (pid, status)) :
    tr' = [] ∧ (run h (doWait fuel pid options) s).1 = .error (endException pid status) := by
  induction fuel generalizing s tr with
  | zero => simp [doWait, Prog.forever, trace] at htrace
  | succ fuel ih =>
      generalize hreply : h (.waitpid pid options) s = reply
      obtain ⟨⟨e⟩ | ⟨progeny, status'⟩, s'⟩ := reply
      · -- The only exchange is a wait that failed.
        rw [doWait_failed fuel hreply, List.singleton_eq_append_iff] at htrace
        obtain ⟨-, hcons⟩ | ⟨-, hcons⟩ := htrace
        · obtain ⟨rfl, -⟩ := List.cons.inj hcons
          simp [told] at hx
        · contradiction
      obtain ⟨ht, hr⟩ := doWait_told fuel hreply
      rw [ht] at htrace
      rw [hr]
      cases tr with
      | nil =>
          -- This pass is told of the end.
          obtain ⟨hhead, hrest⟩ := List.cons.inj htrace
          rw [← hhead] at hx
          obtain ⟨rfl, rfl⟩ := Prod.mk.inj (Option.some.inj hx)
          rw [waitStatus_ended hended] at hrest ⊢
          exact ⟨hrest.symm, rfl⟩
      | cons x₀ tr =>
          -- A later pass is: `waitStatus` itself asks for no status.
          obtain ⟨-, htrace⟩ := List.cons.inj htrace
          have hlater : ∃ as, (match run h (waitStatus pid progeny status') s' with
              | (.ok (.inl ()), s'') => trace h (doWait fuel pid options) s''
              | _ => []) = as ++ x :: tr' := by
            rcases List.append_eq_append_iff.mp htrace with ⟨as, -, has⟩ | ⟨bs, hbs, hcons⟩
            · exact ⟨as, has⟩
            · cases bs with
              | nil => exact ⟨[], hcons.symm⟩
              | cons b bs =>
                  obtain ⟨rfl, -⟩ := List.cons.inj hcons
                  have hmem : x ∈ trace h (waitStatus pid progeny status') s' :=
                    hbs ▸ List.mem_append_right _ List.mem_cons_self
                  rw [trace_waitStatus progeny status' s' x hmem] at hx
                  contradiction
          obtain ⟨as, has⟩ := hlater
          rcases hrun : run h (waitStatus pid progeny status') s' with ⟨⟨_ | _⟩ | _ | _ | _, s''⟩ <;>
            rw [hrun] at has
          · exact ih has
          all_goals simp at has

theorem trace_ptraceInterrupt_ended (hended : Ended status) {fuel : ℕ} {s : σ}
    {tr tr' : List (Exchange sys σ)} {x : Exchange sys σ}
    (htrace : trace h (ptraceInterrupt fuel pid) s = tr ++ x :: tr')
    (hx : told x = some (pid, status)) :
    tr' = [] ∧ (run h (ptraceInterrupt fuel pid) s).1 = .error (endException pid status) := by
  have ht : trace h (ptraceInterrupt fuel pid) s = Exchange.mk s (Request.interrupt pid) (h _ s).1 ::
      trace h (Prog.bind (orThrow _ (h (.interrupt pid) s).1) _) (h _ s).2 := rfl
  have hr : run h (ptraceInterrupt fuel pid) s =
      run h (Prog.bind (orThrow _ (h (.interrupt pid) s).1) _) (h _ s).2 := rfl
  rw [ht] at htrace
  rw [hr]
  generalize h (.interrupt pid) s = reply at htrace ⊢
  obtain ⟨⟨e⟩ | ⟨⟨⟩⟩, s'⟩ := reply
  · cases tr with
    | nil =>
        obtain ⟨rfl, -⟩ := List.cons.inj htrace
        simp [told] at hx
    | cons x₀ tr => simp [trace] at htrace
  · cases tr with
    | nil =>
        obtain ⟨rfl, -⟩ := List.cons.inj htrace
        simp [told] at hx
    | cons x₀ tr =>
        obtain ⟨-, hrest⟩ := List.cons.inj htrace
        simp only [orThrow_ok, Prog.ret_bind, Prog.bind_eq, trace_bind] at hrest
        have hwait : trace h (doWait fuel pid 0) s' = tr ++ x :: tr' := by
          refine Eq.trans ?_ hrest
          rcases run h (doWait fuel pid 0) s' with ⟨_ | _ | _ | _, s''⟩ <;> simp [trace]
        obtain ⟨hnil, hrun⟩ := trace_doWait_ended hended hwait hx
        refine ⟨hnil, ?_⟩
        simp only [orThrow_ok, Prog.ret_bind, Prog.bind_eq, run_bind]
        generalize run h (doWait fuel pid 0) s' = r at hrun ⊢
        obtain ⟨o, s''⟩ := r
        subst hrun
        rfl

end

/-! ### The rule of the wait -/

/-- What has to be shown of `DoWait`: where it waits `I` holds, and where it ends `Q`. -/
structure WaitRule {σ : Type} (v : Env sys σ) (pid : Pid) (options : ℤ) (I : σ → Prop)
    (Q : Outcome Exception Status → σ → Prop) : Prop where
  cut : ∀ s, I s → Q .cut s
  permits : ∀ s, I s → v.permits s (.waitpid pid options)
  failed : ∀ s e s', I s → v.step s (.waitpid pid options) (.error e) s' →
    ∀ what, Q (.error (.ptrace what)) s'
  stranger : ∀ s progeny status s', I s →
    v.step s (.waitpid pid options) (.ok (progeny, status)) s' → progeny ≠ pid → Q .abort s'
  trap : ∀ s status s', I s → v.step s (.waitpid pid options) (.ok (pid, status)) s' →
    WIFSTOPPED status = true → WSTOPSIG status = SIGTRAP → Q (.ok status) s'
  child : ∀ s status s', I s → v.step s (.waitpid pid options) (.ok (pid, status)) s' →
    WIFSTOPPED status = true → WSTOPSIG status = SIGCHLD →
    v.permits s' (.cont pid) ∧ (∀ s'', v.step s' (.cont pid) (.ok ()) s'' → I s'') ∧
      ∀ e s'', v.step s' (.cont pid) (.error e) s'' → ∀ what, Q (.error (.ptrace what)) s''
  signal : ∀ s status s', I s → v.step s (.waitpid pid options) (.ok (pid, status)) s' →
    WIFSTOPPED status = true → WSTOPSIG status ≠ SIGTRAP → WSTOPSIG status ≠ SIGCHLD →
    ∀ what, Q (.error (.ptrace what)) s'
  exited : ∀ s status s', I s → v.step s (.waitpid pid options) (.ok (pid, status)) s' →
    WIFSTOPPED status = false → WIFEXITED status = true → ∀ what, Q (.error (.terminate what)) s'
  died : ∀ s status s', I s → v.step s (.waitpid pid options) (.ok (pid, status)) s' →
    WIFSTOPPED status = false → WIFEXITED status = false → ∀ what, Q (.error (.ptrace what)) s'

section

variable {σ : Type} {v : Env sys σ} {pid : Pid} {options : ℤ} {I : σ → Prop}
  {Q : Outcome Exception Status → σ → Prop}

/-- What `waitStatus` does about a status it is told. -/
theorem WaitRule.wp_waitStatus (h : WaitRule v pid options I Q) {s s' : σ} (hI : I s)
    {progeny : Pid} {status : Status}
    (htold : v.step s (.waitpid pid options) (.ok (progeny, status)) s') :
    wp v (onOk Q fun c s'' => c.elim (fun _ => I s'') fun status => Q (.ok status) s'')
      (waitStatus pid progeny status) s' := by
  unfold waitStatus
  by_cases hne : progeny ≠ pid
  · rw [if_pos hne]
    exact h.stranger s progeny status s' hI htold hne
  obtain rfl := not_not.mp hne
  rw [if_neg hne]
  by_cases hstopped : WIFSTOPPED status = true
  · rw [if_pos hstopped]
    by_cases htrap : WSTOPSIG status = SIGTRAP
    · rw [if_pos htrap]
      exact h.trap s status s' hI htold hstopped htrap
    rw [if_neg htrap]
    by_cases hchild : WSTOPSIG status = SIGCHLD
    · rw [if_pos hchild]
      obtain ⟨hpermits, hok, herr⟩ := h.child s status s' hI htold hstopped hchild
      refine ⟨hpermits, fun rep s'' hstep => ?_⟩
      cases rep with
      | ok => exact hok s'' hstep
      | error e => exact herr e s'' hstep _
    · rw [if_neg hchild]
      exact h.signal s status s' hI htold hstopped htrap hchild _
  · have hrunning : WIFSTOPPED status = false := by simpa using hstopped
    rw [if_neg hstopped]
    by_cases hexited : WIFEXITED status = true
    · rw [if_pos hexited]
      exact h.exited s status s' hI htold hrunning hexited _
    · rw [if_neg hexited]
      exact h.died s status s' hI htold hrunning (by simpa using hexited) _

/-- **The rule of the wait.** -/
theorem WaitRule.wp_doWait (h : WaitRule v pid options I Q) (fuel : ℕ) {s : σ} (hI : I s) :
    wp v Q (doWait fuel pid options) s := by
  refine wp_forever (fun _ => I) (fun _ => h.cut) (fun _ s hI => ?_) fuel () hI
  refine ⟨h.permits s hI, fun rep s' hstep => ?_⟩
  cases rep with
  | error e => exact h.failed s e s' hI hstep _
  | ok told =>
      obtain ⟨progeny, status⟩ := told
      refine wp_mono (fun o s'' ho => ?_) (h.wp_waitStatus hI hstep)
      cases o with
      | ok c => cases c <;> exact ho
      | error | abort | cut => exact ho

end

end Pyflame
