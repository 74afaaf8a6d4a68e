import Pyflame.Heap
import Pyflame.Library.Fuel
import Pyflame.Library.Layers
import Pyflame.Main

/-!
Which exceptions of the calls `main` turns into an exit status.

`InitiatePtrace`, `FindSymbols` and `ProbeLoop` each have handlers of their
own and `DumpStacks` has none, while most calls may throw anything anywhere.
What a call throws is an input here: the log of a run says which call threw
what. Two of the loops have no bound, the wait for the child to call `exec` and
`ProbeLoop`, and the log says as well what would end them.
-/

namespace Pyflame

open Interaction

def exceptionOf {α : Type} : Except Exception α → Option Exception
  | .error e => some e
  | .ok _ => none

/-- The exception that a call has thrown. -/
def Call.thrown : (c : Call) → c.Rep → Option Exception
  | .ptraceTraceme | .ptraceSetOptions _ _ | .ptraceCont _ | .ptraceDetach _ | .ptraceSeize _
  | .ptraceInterrupt _ => exceptionOf
  | .detectABI _ _ _ => exceptionOf
  | .getThreads _ _ _ _ => exceptionOf
  | .fork | .execvp _ _ | .waitpid _ _ | .ptraceCleanup _ | .openOutput _ | .now | .sleepFor _
  | .cerr _ => fun _ => none

/-- The exceptions of a log, each with the call that threw it. -/
def thrown (log : Log calls) : List (Call × Exception) :=
  log.filterMap fun x => (x.1.thrown x.2).map fun e => (x.1, e)

/-- The child that `fork` made, or the one that the wait for it told of. -/
def Call.child : (c : Call) → c.Rep → Option (Pid ⊕ Option Pid)
  | .fork => fun
      | .ok pid => some (.inl pid)
      | .error _ => none
  | .waitpid pid _ => fun
      | .ok (child, _) => if pid = 0 then some (.inr (some child)) else none
      | .error _ => if pid = 0 then some (.inr none) else none
  | _ => fun _ => none

def children (log : Log calls) : List (Pid ⊕ Option Pid) := log.filterMap fun x => x.1.child x.2

/-- The wait for the child told of the child. -/
def ChildAwaited (log : Log calls) : Prop :=
  ∀ pid, .inl pid ∈ children log → ∀ child, .inr child ∈ children log → child = some pid

/-- The exceptions for which `exc.h` promises a non-zero status. -/
def Exception.IsFatal : Exception → Prop
  | .fatal _ | .symbol _ => True
  | .terminate _ | .ptrace _ | .other _ => False

instance (e : Exception) : Decidable e.IsFatal := by
  unfold Exception.IsFatal
  cases e <;> infer_instance

/-- The status that `exc.h` promises. -/
def Exception.Fits (e : Exception) (status : ℕ) : Prop :=
  match e with
  | .terminate _ => status = 0
  | .fatal _ | .symbol _ => status ≠ 0
  | .ptrace _ | .other _ => True

/-- A run of `main` ends with an exit status, and the status is the one that is promised
for the exceptions thrown in it. -/
def Exits (o : Outcome Exception (Printed × ℕ)) (log : Log calls) : Prop :=
  ∃ out status, o = .ok (out, status) ∧ ∀ x ∈ thrown log, x.2.Fits status

/-- An exception after which `ProbeLoop` goes on. -/
def Exception.IsPtrace : Exception → Prop
  | .ptrace _ => True
  | _ => False

/-- The child has been resumed, to call `exec`. -/
def Call.resumesChild : (c : Call) → c.Rep → Prop
  | .ptraceCont _ => fun rep => rep = .ok ()
  | _ => fun _ => False

/-- The wait for the child to call `exec` is over: it has failed, or the child has exited
or called `exec`. -/
def Call.endsWait : (c : Call) → c.Rep → Prop
  | .waitpid pid _ => fun rep =>
      pid = -1 ∧ ∀ told, rep = .ok told → WIFEXITED told.2 = true ∨ sawEventExec told.2 = true
  | _ => fun _ => False

/-- Once the child has been resumed, some wait tells of its end or of its `exec`, or fails. -/
def ExecAwaited (log : Log calls) : Prop :=
  (∃ x ∈ log, x.1.resumesChild x.2) → ∃ x ∈ log, x.1.endsWait x.2

/-- What a run of `ProbeLoop` has read of the clock. -/
structure Readings where
  /-- The first reading, from which the end is reckoned. -/
  start : Option Time := none
  now : Time := 0
  /-- `GetThreads` has returned after a reading that was past the end. -/
  overdue : Bool := false

def Readings.exchange (cfg : Prober) (k : Readings) : (c : Call) → c.Rep → Readings
  | .now => fun now => { k with start := some (k.start.getD now), now := now }
  | .getThreads _ _ _ _ => fun
      | .ok _ => { k with overdue := k.overdue || pastEnd cfg (endTime cfg (k.start.getD 0)) k.now }
      | .error _ => k
  | _ => fun _ => k

def readings (cfg : Prober) (log : Log calls) : Readings :=
  log.foldl (fun k x => k.exchange cfg x.1 x.2) {}

/-- Once `ProbeLoop` has started, something ends it: an exception that is not a
`PtraceException`, or a sample past the end. -/
def LoopEnded (cfg : Prober) (log : Log calls) : Prop :=
  (readings cfg log).start ≠ none →
    (∃ x ∈ thrown log, ¬ x.2.IsPtrace) ∨ (readings cfg log).overdue = true

/-- What `InitiatePtrace` catches. -/
def caughtInInitiate (cfg : Settings) (x : Call × Exception) : Prop :=
  cfg.trace = false ∧ x.1 = .ptraceSeize cfg.pid ∧ ∃ what, x.2 = .ptrace what

section

variable {σ : Type} (h : Handler calls σ) (std : StdLib) (fuel : ℕ) (cfg : Settings) (s : σ)

/-- In a run from `s`, `InitiatePtrace` and `FindSymbols` meet no exception but those that
they catch, the child is the one that is waited for, and the dump meets none. Something ends
the wait for `exec`, and `ProbeLoop`. -/
def Contained : Prop :=
  (∀ x ∈ thrown (logOf (trace h (initiatePtrace fuel cfg) s)), caughtInInitiate cfg x) ∧
    ChildAwaited (logOf (trace h (initiatePtrace fuel cfg) s)) ∧
    ExecAwaited (logOf (trace h (initiatePtrace fuel cfg) s)) ∧
    ∀ cfg' s', run h (initiatePtrace fuel cfg) s = (.ok (some cfg'), s') →
      (∀ x ∈ thrown (logOf (trace h (findSymbols fuel cfg') s')), x.2.IsFatal) ∧
      ∀ found s'', run h (findSymbols fuel cfg') s' = (.ok (some found), s'') →
        (cfg'.dump = true → thrown (logOf (trace h (runProber std fuel cfg' found) s'')) = []) ∧
        LoopEnded cfg'.toProber (logOf (trace h (runProber std fuel cfg' found) s''))

end

/-! ### Logs -/

@[simp] theorem thrown_nil : thrown [] = [] := rfl

@[simp] theorem thrown_append (log log' : Log calls) :
    thrown (log ++ log') = thrown log ++ thrown log' :=
  List.filterMap_append

theorem forall_thrown_append {log log' : Log calls} {P : Call × Exception → Prop} :
    (∀ x ∈ thrown (log ++ log'), P x) ↔ (∀ x ∈ thrown log, P x) ∧ ∀ x ∈ thrown log', P x := by
  rw [thrown_append, List.forall_mem_append]

@[simp] theorem children_nil : children [] = [] := rfl

@[simp] theorem children_append (log log' : Log calls) :
    children (log ++ log') = children log ++ children log' :=
  List.filterMap_append

@[simp] theorem thrown_cerr (log : Log calls) (line : Bytes) (x : Unit) :
    thrown (log ++ [⟨.cerr line, x⟩]) = thrown log := by
  rw [thrown_append]
  exact List.append_nil _

theorem thrown_singleton (c : calls.Req) (x : calls.Rep c) :
    thrown [⟨c, x⟩] = ((Call.thrown c x).map fun e => (c, e)).toList := by
  have hthrown : thrown [⟨c, x⟩] = List.filterMap id [(Call.thrown c x).map fun e => (c, e)] := rfl
  rw [hthrown]
  cases Call.thrown c x <;> rfl

theorem children_singleton (c : calls.Req) (x : calls.Rep c) :
    children [⟨c, x⟩] = (Call.child c x).toList := by
  have hchild : children [⟨c, x⟩] = List.filterMap id [Call.child c x] := rfl
  rw [hchild]
  cases Call.child c x <;> rfl

/-- The exception that a program raises. -/
def raised {α : Type} : Outcome Exception α → List Exception
  | .error e => [e]
  | .ok _ | .abort | .cut => []

/-- The program has no handler: what a call throws, it raises. It makes no child. -/
def Unhandled {α : Type} (p : Driver α) : Prop :=
  ∀ log, thrown log = [] → wp (Env.logging calls) (fun o log' =>
    (thrown log').map Prod.snd = raised o ∧ children log' = children log ∧ o ≠ .abort) p log

namespace Unhandled

variable {α β : Type}

theorem ret {a : α} : Unhandled (.ret a) := fun _ hlog => ⟨by rw [hlog]; rfl, rfl, nofun⟩

theorem cut : Unhandled (.cut : Driver α) := fun _ hlog => ⟨by rw [hlog]; rfl, rfl, nofun⟩

theorem bind {p : Driver β} {f : β → Driver α} (hp : Unhandled p) (hf : ∀ b, Unhandled (f b)) :
    Unhandled (p.bind f) := by
  intro log hlog
  refine wp_bind_of (hp log hlog) fun o log' ⟨hthrown, hchildren, habort⟩ => ?_
  cases o with
  | ok b =>
      refine wp_mono (fun o log'' h => ?_) (hf b log' (List.map_eq_nil_iff.mp hthrown))
      exact ⟨h.1, h.2.1.trans hchildren, h.2.2⟩
  | error e => exact ⟨hthrown, hchildren, nofun⟩
  | abort => exact absurd rfl habort
  | cut => exact ⟨hthrown, hchildren, nofun⟩

theorem ite {c : Prop} [Decidable c] {p q : Driver α} (hp : Unhandled p) (hq : Unhandled q) :
    Unhandled (if c then p else q) := by
  split_ifs
  · exact hp
  · exact hq

theorem forever {body : β → Driver (β ⊕ α)} (h : ∀ b, Unhandled (body b)) (n : ℕ) (b : β) :
    Unhandled (Prog.forever body n b) := by
  induction n generalizing b with
  | zero => exact cut
  | succ n ih =>
      apply (h b).bind
      intro c
      cases c with
      | inl b' => exact ih b'
      | inr a => exact ret

/-- A call that throws nothing. -/
theorem quiet {c : Call} (h : ∀ x, c.thrown x = none) (hchild : ∀ x, c.child x = none) :
    Unhandled (invoke c) := by
  refine fun log hlog => ⟨trivial, ?_⟩
  rintro x _ rfl
  refine ⟨?_, ?_, nofun⟩
  · rw [thrown_append, hlog, thrown_singleton, h]
    rfl
  · rw [children_append, children_singleton, hchild]
    exact List.append_nil _

theorem cerr (line : Bytes) : Unhandled (invoke (.cerr line)) := quiet (fun _ => rfl) fun _ => rfl

/-- A call whose exception is not caught. -/
theorem rethrow {c : Call} {f : c.Rep → Except Exception α}
    (h : ∀ x, c.thrown x = exceptionOf (f x)) (hchild : ∀ x, c.child x = none) :
    Unhandled ((invoke c).bind fun x => Pyflame.rethrow (f x)) := by
  refine fun log hlog => ⟨trivial, ?_⟩
  rintro x _ rfl
  show wp _ _ (Pyflame.rethrow (f x)) _
  have hchildren : children (log ++ [⟨c, x⟩]) = children log := by
    rw [children_append, children_singleton, hchild]
    exact List.append_nil _
  cases hx : f x with
  | ok a =>
      refine ⟨?_, hchildren, nofun⟩
      rw [thrown_append, hlog, thrown_singleton, h, hx]
      rfl
  | error e =>
      refine ⟨?_, hchildren, nofun⟩
      rw [thrown_append, hlog, thrown_singleton, h, hx]
      rfl

/-- Such a call with what follows it. -/
theorem rethrow_bind {c : Call} {f : c.Rep → Except Exception β} {g : β → Driver α}
    (h : ∀ x, c.thrown x = exceptionOf (f x)) (hchild : ∀ x, c.child x = none)
    (hg : ∀ b, Unhandled (g b)) :
    Unhandled ((invoke c).bind fun x => (Pyflame.rethrow (f x)).bind g) := by
  have hbind := (rethrow h hchild).bind hg
  rwa [Prog.bind_assoc] at hbind

end Unhandled

/-! ### The phases -/

section

variable {fuel : ℕ} {cfg : Settings}

theorem unhandled_becomeTarget : Unhandled (becomeTarget cfg) := by
  refine .rethrow_bind (c := .ptraceTraceme) (f := id) (fun _ => rfl) (fun _ => rfl) fun _ => ?_
  apply (Unhandled.quiet (fun _ => rfl) fun _ => rfl).bind
  intro e
  exact (Unhandled.cerr _).bind fun _ => .ret

theorem unhandled_awaitExecStep : Unhandled (awaitExecStep ()) := by
  have hwait : Unhandled (invoke (.waitpid (-1) 0)) := by
    refine .quiet (fun _ => rfl) fun x => ?_
    cases x <;> rfl
  apply hwait.bind
  intro rep
  cases rep with
  | error e => exact (Unhandled.cerr _).bind fun _ => .ret
  | ok told => exact .ite ((Unhandled.cerr _).bind fun _ => .ret) (.ite .ret .ret)

/-- The parent, once the child has been waited for. -/
theorem unhandled_traceChild_rest : Unhandled do
    rethrow (← invoke (.ptraceSetOptions cfg.pid PTRACE_O_TRACEEXEC))
    rethrow (← invoke (.ptraceCont cfg.pid))
    if (← Prog.forever awaitExecStep fuel ()) ≠ 0 then
      return none
    else
      rethrow (← invoke (.ptraceDetach cfg.pid))
      rethrow (← invoke (.ptraceSeize cfg.pid))
      rethrow (← invoke (.ptraceInterrupt cfg.pid))
      return some cfg := by
  refine .rethrow_bind (c := .ptraceSetOptions cfg.pid PTRACE_O_TRACEEXEC) (f := id) (fun _ => rfl)
    (fun _ => rfl) fun _ => ?_
  refine .rethrow_bind (c := .ptraceCont cfg.pid) (f := id) (fun _ => rfl) (fun _ => rfl) fun _ => ?_
  refine .bind (.forever (fun _ => unhandled_awaitExecStep) fuel ()) fun ret => .ite .ret ?_
  refine .rethrow_bind (c := .ptraceDetach cfg.pid) (f := id) (fun _ => rfl) (fun _ => rfl) fun _ => ?_
  refine .rethrow_bind (c := .ptraceSeize cfg.pid) (f := id) (fun _ => rfl) (fun _ => rfl) fun _ => ?_
  refine .rethrow_bind (c := .ptraceInterrupt cfg.pid) (f := id) (fun _ => rfl) (fun _ => rfl)
    fun _ => .ret

theorem unhandled_findSymbolsStep (i : ℕ) : Unhandled (findSymbolsStep cfg i) := by
  refine .rethrow_bind (c := .detectABI cfg.pid cfg.enable_threads cfg.abi) (f := id)
    (fun _ => rfl) (fun _ => rfl) fun found => ?_
  cases found with
  | some found => exact .ret
  | none =>
      refine .ite ((Unhandled.cerr _).bind fun _ => .ret) ?_
      refine .rethrow_bind (c := .ptraceCont cfg.pid) (f := id) (fun _ => rfl) (fun _ => rfl)
        fun _ => ?_
      apply (Unhandled.quiet (fun _ => rfl) fun _ => rfl).bind
      intro _
      refine .rethrow_bind (c := .ptraceInterrupt cfg.pid) (f := id) (fun _ => rfl) (fun _ => rfl)
        fun _ => .ret

theorem unhandled_dumpStacks (found : PyABI × PyAddresses) : Unhandled (dumpStacks cfg found) := by
  refine .rethrow_bind (c := .getThreads cfg.pid found.1 found.2 cfg.enable_threads) (f := id)
    (fun _ => rfl) (fun _ => rfl) fun _ => .ret

theorem raised_ne_nil {α : Type} {o : Outcome Exception α} :
    raised o ≠ [] ↔ ∃ e, o = .error e := by
  cases o <;> simp [raised]

/-- How `InitiatePtrace` ends, by its log. -/
def InitiatePost (cfg : Settings) (o : Outcome Exception (Option Settings)) (log : Log calls) :
    Prop :=
  ((∃ e, o = .error e) ↔ ∃ x ∈ thrown log, ¬ caughtInInitiate cfg x) ∧
    (o = .abort ↔ ¬ ChildAwaited log)

/-- When a child is traced nothing is caught. -/
theorem initiatePost_trace {o : Outcome Exception (Option Settings)} {log : Log calls}
    (htrace : cfg.trace = true) (hthrown : (thrown log).map Prod.snd = raised o)
    (habort : o = .abort ↔ ¬ ChildAwaited log) : InitiatePost cfg o log := by
  refine ⟨?_, habort⟩
  rw [← raised_ne_nil, ← hthrown, ne_eq, List.map_eq_nil_iff]
  constructor
  · intro hne
    obtain ⟨x, hx⟩ := List.exists_mem_of_ne_nil _ hne
    refine ⟨x, hx, fun ⟨hattach, _⟩ => ?_⟩
    rw [htrace] at hattach
    contradiction
  · rintro ⟨x, hx, -⟩ hnil
    rw [hnil] at hx
    contradiction

theorem childAwaited_of_left {log : Log calls} {pid : Pid} (h : children log = [.inl pid]) :
    ChildAwaited log := by
  intro p _ child hchild
  rw [h] at hchild
  simp at hchild

theorem childAwaited_iff {log : Log calls} {pid : Pid} {child : Option Pid}
    (h : children log = [.inl pid, .inr child]) : ChildAwaited log ↔ child = some pid := by
  simp [ChildAwaited, h]

theorem traceChild_log {cfg' : Settings} {log : Log calls} (htrace : cfg.trace = true) (hlog : thrown log = [])
    (hchildren : children log = [.inl cfg'.pid]) :
    wp (Env.logging calls) (InitiatePost cfg) (traceChild fuel cfg') log := by
  refine ⟨trivial, ?_⟩
  rintro rep _ rfl
  have hthrown : thrown (log ++ [⟨.waitpid 0 0, rep⟩]) = [] := by
    rw [thrown_append, hlog, thrown_singleton]
    rfl
  cases rep with
  | error e =>
      have hchild : children (log ++ [⟨.waitpid 0 0, .error e⟩]) = [.inl cfg'.pid, .inr none] := by
        rw [children_append, hchildren, children_singleton]
        rfl
      refine initiatePost_trace htrace (by rw [hthrown]; rfl) ⟨fun _ => ?_, fun _ => rfl⟩
      rw [childAwaited_iff hchild]
      exact nofun
  | ok told =>
      obtain ⟨child, status⟩ := told
      have hchild : children (log ++ [⟨.waitpid 0 0, .ok (child, status)⟩]) =
          [.inl cfg'.pid, .inr (some child)] := by
        rw [children_append, hchildren, children_singleton]
        rfl
      show wp _ _ (if child ≠ cfg'.pid then _ else _) _
      by_cases hne : child ≠ cfg'.pid
      · rw [if_pos hne]
        refine initiatePost_trace htrace (by rw [hthrown]; rfl) ⟨fun _ => ?_, fun _ => rfl⟩
        rw [childAwaited_iff hchild, Option.some_inj]
        exact hne
      · rw [if_neg hne]
        refine wp_mono (fun o log' ho => ?_) (unhandled_traceChild_rest _ hthrown)
        refine initiatePost_trace htrace ho.1 ⟨fun h => absurd h ho.2.2, fun h => ?_⟩
        rw [childAwaited_iff (ho.2.1.trans hchild), Option.some_inj] at h
        exact absurd (not_not.mp hne) h

/-- A part of it without a handler. -/
theorem Unhandled.initiatePost {p : Driver (Option Settings)} (hp : Unhandled p)
    {log : Log calls} (htrace : cfg.trace = true) (hlog : thrown log = [])
    (hawaited : ChildAwaited log) : wp (Env.logging calls) (InitiatePost cfg) p log := by
  refine wp_mono (fun o log' ⟨hthrown, hchildren, habort⟩ => ?_) (hp log hlog)
  refine initiatePost_trace htrace hthrown ⟨fun h => absurd h habort, fun h => ?_⟩
  rw [ChildAwaited, hchildren] at h
  exact absurd hawaited h

theorem unhandled_cerr_none (line : Bytes) :
    Unhandled ((invoke (.cerr line)).bind fun _ => .ret (none : Option Settings)) :=
  (Unhandled.cerr line).bind fun _ => .ret

theorem initiatePost_attach {o : Outcome Exception (Option Settings)} {log : Log calls}
    (hawaited : ChildAwaited log) (habort : o ≠ .abort)
    (h : (∃ e, o = .error e) ↔ ∃ x ∈ thrown log, ¬ caughtInInitiate cfg x) :
    InitiatePost cfg o log :=
  ⟨h, fun ho => absurd ho habort, fun hn => absurd hawaited hn⟩

theorem initiatePtrace_log :
    wp (Env.logging calls) (InitiatePost cfg) (initiatePtrace fuel cfg) [] := by
  have hnil : ∀ log, children log = [] → ChildAwaited log := by
    intro log hlog pid hpid
    rw [hlog] at hpid
    contradiction
  unfold initiatePtrace
  by_cases htrace : cfg.trace = true
  · rw [if_pos htrace]
    -- A target named after the profiler is refused before there is a child.
    by_cases hself : text "pyflame" <:+ cfg.trace_target
    · rw [if_pos hself]
      exact (unhandled_cerr_none _).initiatePost htrace rfl (hnil [] rfl)
    rw [if_neg hself]
    refine ⟨trivial, ?_⟩
    rintro rep _ rfl
    cases rep with
    | error e => exact (unhandled_cerr_none _).initiatePost htrace rfl (hnil _ rfl)
    | ok pid =>
        show wp _ _ (if pid = 0 then _ else _) _
        -- The two sides of `fork`.
        by_cases hpid : pid = 0
        · rw [if_pos hpid]
          exact unhandled_becomeTarget.initiatePost htrace rfl (childAwaited_of_left rfl)
        · rw [if_neg hpid]
          exact traceChild_log htrace rfl rfl
  · rw [if_neg htrace]
    -- Attaching: no child was forked, so only the log of exceptions is left to account for.
    have hattach : cfg.trace = false := by simpa using htrace
    refine ⟨trivial, ?_⟩
    rintro rep _ rfl
    cases rep with
    | error e =>
        cases e with
        | ptrace what =>
            refine ⟨trivial, ?_⟩
            rintro x _ rfl
            show InitiatePost cfg (.ok none) _
            refine initiatePost_attach (hnil _ rfl) nofun ?_
            constructor
            · rintro ⟨e, he⟩
              contradiction
            · -- The one that is caught.
              rintro ⟨x, hx, hcaught⟩
              obtain rfl : x = (.ptraceSeize cfg.pid, .ptrace what) := List.mem_singleton.mp hx
              exact absurd ⟨hattach, rfl, what, rfl⟩ hcaught
        | terminate what | fatal what | symbol what | other what =>
            show InitiatePost cfg (.error _) _
            refine initiatePost_attach (hnil _ rfl) nofun ?_
            refine ⟨fun _ => ⟨_, List.mem_singleton_self _, ?_⟩, fun _ => ⟨_, rfl⟩⟩
            rintro ⟨-, -, what, hwhat⟩
            contradiction
    | ok =>
        refine ⟨trivial, ?_⟩
        rintro x _ rfl
        cases x with
        | error e =>
            show InitiatePost cfg (.error e) _
            refine initiatePost_attach (hnil _ rfl) nofun ?_
            refine ⟨fun _ => ⟨_, List.mem_singleton_self _, ?_⟩, fun _ => ⟨_, rfl⟩⟩
            rintro ⟨-, hseize, -⟩
            contradiction
        | ok =>
            show InitiatePost cfg (.ok (some cfg)) _
            refine initiatePost_attach (hnil _ rfl) nofun ?_
            constructor
            · rintro ⟨e, he⟩
              contradiction
            · rintro ⟨x, hx, -⟩
              contradiction

/-- How `FindSymbols` ends, by its log. -/
def FindPost (o : Outcome Exception (Option (PyABI × PyAddresses))) (log : Log calls) : Prop :=
  o ≠ .abort ∧ ((thrown log = [] ∧ ∀ e, o ≠ .error e) ∨
    ∃ x, thrown log = [x] ∧ if x.2.IsFatal then o = .ok none else o = .error x.2)

theorem FindPost.error {e : Exception} {log : Log calls} (h : FindPost (.error e) log) :
    ∃ x ∈ thrown log, ¬ x.2.IsFatal := by
  rcases h.2 with ⟨-, hne⟩ | ⟨x, hx, hends⟩
  · exact absurd rfl (hne e)
  · refine ⟨x, hx ▸ List.mem_singleton_self x, fun hfatal => ?_⟩
    rw [if_pos hfatal] at hends
    contradiction

theorem FindPost.isFatal {o : Outcome Exception (Option (PyABI × PyAddresses))} {log : Log calls}
    (h : FindPost o log) (ho : ∀ e, o ≠ .error e) : ∀ x ∈ thrown log, x.2.IsFatal := by
  intro x hx
  rcases h.2 with ⟨hnil, -⟩ | ⟨y, hy, hends⟩
  · rw [hnil] at hx
    contradiction
  · rw [hy] at hx
    obtain rfl := List.mem_singleton.mp hx
    by_contra hnot
    rw [if_neg hnot] at hends
    exact ho _ hends

theorem FindPost.nil {o : Outcome Exception (Option (PyABI × PyAddresses))} {log : Log calls}
    (h : FindPost o log) (ho : ∀ e, o ≠ .error e) (hnone : o ≠ .ok none) : thrown log = [] := by
  rcases h.2 with ⟨hnil, -⟩ | ⟨x, -, hends⟩
  · exact hnil
  · split_ifs at hends
    · exact absurd hends hnone
    · exact absurd hends (ho _)

theorem findSymbols_log : wp (Env.logging calls) FindPost (findSymbols fuel cfg) [] := by
  have hloop : Unhandled (Prog.forever (findSymbolsStep cfg) fuel 0) :=
    .forever unhandled_findSymbolsStep fuel 0
  refine wp_handle.mpr (wp_mono (fun o log ⟨hthrown, _, habort⟩ => ?_) (hloop [] rfl))
  cases o with
  | ok found => exact ⟨nofun, .inl ⟨List.map_eq_nil_iff.mp hthrown, nofun⟩⟩
  | abort => exact absurd rfl habort
  | cut => exact ⟨nofun, .inl ⟨List.map_eq_nil_iff.mp hthrown, nofun⟩⟩
  | error e =>
      obtain ⟨x, hx, rfl⟩ := List.map_eq_singleton_iff.mp hthrown
      have hfatal : x.2.IsFatal → ∀ line, wp (Env.logging calls) FindPost
          ((invoke (.cerr line)).bind fun _ => .ret none) log := by
        intro hfatal line
        refine ⟨trivial, ?_⟩
        rintro _ _ rfl
        refine ⟨nofun, .inr ⟨x, ?_, ?_⟩⟩
        · rw [thrown_cerr, hx]
        · rw [if_pos hfatal]
      have hother : ¬ x.2.IsFatal → wp (Env.logging calls) FindPost (.raise x.2) log := by
        intro hnot
        refine ⟨nofun, .inr ⟨x, hx, ?_⟩⟩
        rw [if_neg hnot]
      obtain ⟨c, e⟩ := x
      cases e with
      | fatal what | symbol what => exact hfatal trivial _
      | terminate what | ptrace what | other what => exact hother id

/-! ### The loop -/

theorem Exception.IsFatal.fits {e : Exception} (h : e.IsFatal) : e.Fits 1 := by
  cases e with
  | fatal | symbol => exact Nat.one_ne_zero
  | terminate | ptrace | other => exact h.elim

theorem Exception.IsPtrace.fits {e : Exception} (h : e.IsPtrace) (status : ℕ) : e.Fits status := by
  cases e with
  | ptrace => trivial
  | terminate | fatal | symbol | other => exact h.elim

/-- How an iteration ends, by the log of the loop so far. -/
def IterationPost : Outcome Exception (Samples × Next) → Log calls → Prop
  | .ok (_, .again), log => ∀ x ∈ thrown log, x.2.IsPtrace
  | .ok (_, .finish status), log => ∀ x ∈ thrown log, x.2.Fits status
  | .error _, _ | .abort, _ => False
  | .cut, _ => True

theorem handleException_log {found : PyABI × PyAddresses} {now : Time} {s : Samples}
    {e : Exception} {log : Log calls} (h : ∀ x ∈ thrown log, x.2.IsPtrace ∨ x.2 = e) :
    wp (Env.logging calls) IterationPost
      (handleException cfg.toProber (loopCalls cfg found) now s e) log := by
  cases e with
  | terminate what =>
      intro x hx
      rcases h x hx with hptrace | heq
      · exact hptrace.fits 0
      · rw [heq]
        exact rfl
  | ptrace what =>
      refine ⟨trivial, ?_⟩
      rintro rep _ rfl x hx
      rw [thrown_cerr] at hx
      rcases h x hx with hptrace | heq
      · exact hptrace
      · rw [heq]
        trivial
  | fatal what | symbol what | other what =>
      refine ⟨trivial, ?_⟩
      rintro rep _ rfl x hx
      rw [thrown_cerr] at hx
      rcases h x hx with hptrace | heq
      · exact hptrace.fits 1
      · rw [heq]
        first | exact Nat.one_ne_zero | trivial

/-- After a call has thrown. -/
theorem isPtrace_or_eq {c : Call} {rep : c.Rep} {e : Exception} {log : Log calls}
    (h : ∀ x ∈ thrown log, x.2.IsPtrace) (hrep : c.thrown rep = some e) :
    ∀ x ∈ thrown (log ++ [⟨c, rep⟩]), x.2.IsPtrace ∨ x.2 = e := by
  intro x hx
  rw [thrown_append, thrown_singleton, hrep] at hx
  rcases List.mem_append.mp hx with hx | hx
  · exact .inl (h x hx)
  · obtain rfl := List.mem_singleton.mp hx
    exact .inr rfl

/-- After a call has returned. -/
theorem isPtrace_of_none {log : Log calls} (c : Call) (rep : c.Rep)
    (h : ∀ x ∈ thrown log, x.2.IsPtrace) (hrep : c.thrown rep = none) :
    ∀ x ∈ thrown (log ++ [⟨c, rep⟩]), x.2.IsPtrace := by
  rw [thrown_append, thrown_singleton, hrep, Option.map_none, Option.toList_none, List.append_nil]
  exact h

theorem probeIteration_log {found : PyABI × PyAddresses} {finish : Time} {s : Samples}
    {log : Log calls} (h : ∀ x ∈ thrown log, x.2.IsPtrace) :
    wp (Env.logging calls) IterationPost
      (probeIteration cfg.toProber (loopCalls cfg found) finish s) log := by
  refine ⟨trivial, ?_⟩
  rintro now _ rfl
  have hnow := isPtrace_of_none .now now h rfl
  refine ⟨trivial, ?_⟩
  rintro threads _ rfl
  cases threads with
  | error e => exact handleException_log (isPtrace_or_eq hnow rfl)
  | ok threads =>
      have hthreads := isPtrace_of_none
        (.getThreads cfg.pid found.1 found.2 cfg.enable_threads) (.ok threads) hnow rfl
      show wp _ _ (if pastEnd cfg.toProber finish now = true then _ else _) _
      by_cases hend : pastEnd cfg.toProber finish now = true
      · rw [if_pos hend]
        exact fun x hx => (hthreads x hx).fits 0
      · rw [if_neg hend]
        refine ⟨trivial, ?_⟩
        rintro resumed _ rfl
        cases resumed with
        | error e => exact handleException_log (isPtrace_or_eq hthreads rfl)
        | ok =>
            have hcont := isPtrace_of_none (.ptraceCont cfg.pid) (.ok ()) hthreads rfl
            refine ⟨trivial, ?_⟩
            rintro slept _ rfl
            have hslept := isPtrace_of_none (.sleepFor cfg.interval) slept hcont rfl
            refine ⟨trivial, ?_⟩
            rintro interrupted _ rfl
            cases interrupted with
            | error e => exact handleException_log (isPtrace_or_eq hslept rfl)
            | ok =>
                exact isPtrace_of_none (.ptraceInterrupt cfg.pid) (.ok ()) hslept rfl

/-- How `Run` ends, by its log. -/
def RunPost (dump : Bool) (o : Outcome Exception (Printed × ℕ)) (log : Log calls) : Prop :=
  o ≠ .abort ∧ ((∃ e, o = .error e) ↔ dump = true ∧ thrown log ≠ []) ∧
    ∀ out status, o = .ok (out, status) → ∀ x ∈ thrown log, x.2.Fits status

/-- How the loop ends. -/
def LoopPost {α : Type} : Outcome Exception (α × ℕ) → Log calls → Prop
  | .ok (_, status), log => ∀ x ∈ thrown log, x.2.Fits status
  | .error _, _ | .abort, _ => False
  | .cut, _ => True

theorem probeLoop_log {std : StdLib} {found : PyABI × PyAddresses} {log : Log calls}
    (hlog : thrown log = []) :
    wp (Env.logging calls) LoopPost
      (probeLoopOver std fuel cfg.toProber (loopCalls cfg found)) log := by
  refine ⟨trivial, ?_⟩
  rintro start _ rfl
  have hstart : ∀ x ∈ thrown (log ++ [⟨.now, start⟩]), x.2.IsPtrace := by
    intro x hx
    rw [thrown_append, hlog] at hx
    contradiction
  have hloop : wp (Env.logging calls) LoopPost
      (Prog.forever (probeLoopOverStep cfg.toProber (loopCalls cfg found)
        (endTime cfg.toProber start)) fuel {}) (log ++ [⟨.now, start⟩]) := by
    refine wp_forever (Q := LoopPost) (fun _ log => ∀ x ∈ thrown log, x.2.IsPtrace)
      (fun _ _ _ => trivial) (fun s log hI => ?_) fuel _ hstart
    refine wp_bind_of (probeIteration_log hI) fun o log' ho => ?_
    cases o with
    | ok r =>
        obtain ⟨s, next⟩ := r
        cases next with
        | again => exact ho
        | finish status => exact ho
    | error | abort => exact ho.elim
    | cut => trivial
  show wp _ _ ((Prog.forever _ fuel ({} : Samples)).bind _) _
  refine wp_bind_of hloop fun o log' ho => ?_
  cases o with
  | ok r => exact ho
  | error | abort => exact ho.elim
  | cut => trivial

theorem runPost_ok {dump : Bool} {out : Printed} {status : ℕ} {log : Log calls}
    (hthrown : dump = true → thrown log = []) (h : ∀ x ∈ thrown log, x.2.Fits status) :
    RunPost dump (.ok (out, status)) log := by
  refine ⟨nofun, ⟨?_, ?_⟩, ?_⟩
  · rintro ⟨e, he⟩
    contradiction
  · rintro ⟨hdump, hne⟩
    exact absurd (hthrown hdump) hne
  · rintro _ _ ⟨⟩
    exact h

theorem runPost_cut {dump : Bool} {log : Log calls} (hthrown : dump = true → thrown log = []) :
    RunPost dump .cut log := by
  refine ⟨nofun, ⟨?_, ?_⟩, nofun⟩
  · rintro ⟨e, he⟩
    contradiction
  · rintro ⟨hdump, hne⟩
    exact absurd (hthrown hdump) hne

/-- Where the program has no handler. -/
theorem runPost_unhandled {o : Outcome Exception (Printed × ℕ)} {log : Log calls}
    (hthrown : (thrown log).map Prod.snd = raised o) (habort : o ≠ .abort) : RunPost true o log := by
  refine ⟨habort, ?_, ?_⟩
  · rw [← raised_ne_nil, ← hthrown, ne_eq, List.map_eq_nil_iff]
    exact ⟨fun hne => ⟨rfl, hne⟩, And.right⟩
  · rintro out status rfl
    rw [List.map_eq_nil_iff.mp hthrown]
    exact nofun

theorem haveOutput_log :
    wp (Env.logging calls) (fun o log => (∃ opened, o = .ok opened) ∧ thrown log = [])
      (haveOutput cfg) [] := by
  unfold haveOutput
  split_ifs
  · exact ⟨⟨true, rfl⟩, rfl⟩
  · refine ⟨trivial, ?_⟩
    rintro opened _ rfl
    exact ⟨⟨opened, rfl⟩, rfl⟩

theorem runProber_log {std : StdLib} {found : PyABI × PyAddresses} :
    wp (Env.logging calls) (RunPost cfg.dump) (runProber std fuel cfg found) [] := by
  refine wp_bind_of haveOutput_log fun o log ho => ?_
  obtain ⟨⟨opened, rfl⟩, hlog⟩ := ho
  show wp _ _ (if (!opened) = true then _ else _) log
  by_cases hopened : (!opened) = true
  · rw [if_pos hopened]
    refine ⟨trivial, ?_⟩
    rintro _ _ rfl
    refine runPost_ok (fun _ => ?_) fun x hx => ?_
    · rw [thrown_cerr, hlog]
    · rw [thrown_cerr, hlog] at hx
      contradiction
  rw [if_neg hopened]
  by_cases hdump : cfg.dump = true
  · rw [if_pos hdump, hdump]
    refine wp_mono (fun o log' ho => ?_) (unhandled_dumpStacks found log hlog)
    exact runPost_unhandled ho.1 ho.2.2
  · rw [if_neg hdump]
    refine wp_mono (fun o log' ho => ?_) (probeLoop_log hlog)
    cases o with
    | ok r => exact runPost_ok (fun h => absurd h hdump) ho
    | error | abort => exact ho.elim
    | cut => exact runPost_cut fun h => absurd h hdump

end

/-! ### What ends the loops -/

section

variable {fuel : ℕ} {cfg : Settings} {log : Log calls}

/-- Calls that do not resume the child. -/
def Call.Resting : Call → Prop
  | .ptraceCont _ => False
  | _ => True

theorem ExecAwaited.append (h : ExecAwaited log) {more : Log calls}
    (hmore : ∀ x ∈ more, x.1.Resting) : ExecAwaited (log ++ more) := by
  rintro ⟨x, hx, hresumes⟩
  rcases List.mem_append.mp hx with hx | hx
  · obtain ⟨y, hy, hends⟩ := h ⟨x, hx, hresumes⟩
    exact ⟨y, List.mem_append_left _ hy, hends⟩
  · obtain ⟨c, rep⟩ := x
    have hrests := hmore _ hx
    cases c <;> first | exact hrests.elim | exact hresumes.elim

theorem ExecAwaited.concat (h : ExecAwaited log) (c : Call) (rep : c.Rep) (hc : c.Resting) :
    ExecAwaited (log ++ [⟨c, rep⟩]) :=
  h.append fun x hx => by
    obtain rfl := List.mem_singleton.mp hx
    exact hc

/-- What happens in a log that has grown by one call. -/
theorem exists_mem_concat {x : (c : Call) × c.Rep} {P : (c : Call) × c.Rep → Prop} :
    (∃ y ∈ log ++ [x], P y) ↔ (∃ y ∈ log, P y) ∨ P x := by
  simp only [List.mem_append, List.mem_singleton, or_and_right, exists_or, exists_eq_left]

theorem ExecAwaited.concat_of_not_resumes {x : (c : Call) × c.Rep} (h : ExecAwaited log)
    (hx : ¬ x.1.resumesChild x.2) : ExecAwaited (log ++ [x]) := by
  intro hresumed
  rcases exists_mem_concat.mp hresumed with hresumed | hresumes
  · exact exists_mem_concat.mpr (.inl (h hresumed))
  · exact absurd hresumes hx

/-- A part of `InitiatePtrace` without a loop, that does not resume the child. -/
def Rests {α : Type} (p : Driver α) : Prop := p.Only Call.Resting ∧ p.Uncut

namespace Rests

variable {α β : Type}

theorem ret {a : α} : Rests (.ret a) := ⟨trivial, trivial⟩

theorem raise {e : Exception} : Rests (.raise e : Driver α) := ⟨trivial, trivial⟩

theorem call {c : Call} {f : c.Rep → Driver α} (hc : c.Resting) (hf : ∀ rep, Rests (f rep)) :
    Rests ((invoke c).bind f) :=
  ⟨⟨hc, fun rep => (hf rep).1⟩, fun rep => (hf rep).2⟩

theorem rethrow_bind {x : Except Exception β} {f : β → Driver α} (hf : ∀ b, Rests (f b)) :
    Rests ((rethrow x).bind f) := by
  cases x with
  | ok b => exact hf b
  | error => exact .raise

theorem wp_awaited {p : Driver α} (hp : Rests p) (h : ExecAwaited log) :
    wp (Env.logging calls) (fun o log' => o = .cut ↔ ¬ ExecAwaited log') p log := by
  have hends := wp_and (hp.2.wp_ne_cut (v := Env.logging calls) (fun _ _ => trivial) log)
    (wp_log hp.1 log)
  refine wp_mono ?_ hends
  rintro o _ ⟨hne, more, rfl, hmore⟩
  exact ⟨fun ho => absurd ho hne, fun hnot => absurd (h.append hmore) hnot⟩

end Rests

theorem rests_becomeTarget : Rests (becomeTarget cfg) :=
  .call trivial fun _ => .rethrow_bind fun _ => .call trivial fun _ => .call trivial fun _ => .ret

theorem rests_attach (h : cfg.trace = false) : Rests (initiatePtrace fuel cfg) := by
  unfold initiatePtrace
  rw [h]
  refine .call (c := .ptraceSeize cfg.pid) trivial fun rep => ?_
  cases rep with
  | ok => exact .call trivial fun _ => .rethrow_bind fun _ => .ret
  | error e =>
      cases e with
      | ptrace => exact .call trivial fun _ => .ret
      | terminate | fatal | symbol | other => exact .raise

/-- The wait goes on until something ends it. -/
theorem awaited_loop (hresumed : ∃ x ∈ log, x.1.resumesChild x.2)
    (hwaits : ¬ ∃ x ∈ log, x.1.endsWait x.2) :
    wp (Env.logging calls) (fun o log' => (o = .cut ∧ ¬ ExecAwaited log') ∨
      (∃ a, o = .ok a) ∧ ∃ x ∈ log', x.1.endsWait x.2) (Prog.forever awaitExecStep fuel ()) log := by
  refine wp_forever (fun _ log => (∃ x ∈ log, x.1.resumesChild x.2) ∧
    ¬ ∃ x ∈ log, x.1.endsWait x.2) ?_ ?_ fuel () ⟨hresumed, hwaits⟩
  · exact fun _ _ ⟨hresumed, hwaits⟩ => .inl ⟨rfl, fun h => hwaits (h hresumed)⟩
  rintro _ log ⟨hresumed, hwaits⟩
  refine ⟨trivial, ?_⟩
  rintro rep _ rfl
  cases rep with
  | error e =>
      refine ⟨trivial, ?_⟩
      rintro _ _ rfl
      exact .inr ⟨⟨1, rfl⟩, exists_mem_concat.mpr (.inl (exists_mem_concat.mpr (.inr ⟨rfl, nofun⟩)))⟩
  | ok told =>
      obtain ⟨child, status⟩ := told
      show wp _ _ (if WIFEXITED status = true then _ else _) _
      by_cases hexited : WIFEXITED status = true
      · have hends : Call.endsWait (.waitpid (-1) 0) (.ok (child, status)) :=
          ⟨rfl, fun _ h => .inl (Except.ok.inj h ▸ hexited)⟩
        rw [if_pos hexited]
        refine ⟨trivial, ?_⟩
        rintro _ _ rfl
        exact .inr ⟨⟨1, rfl⟩, exists_mem_concat.mpr (.inl (exists_mem_concat.mpr (.inr hends)))⟩
      rw [if_neg hexited]
      by_cases hexec : sawEventExec status = true
      · have hends : Call.endsWait (.waitpid (-1) 0) (.ok (child, status)) :=
          ⟨rfl, fun _ h => .inr (Except.ok.inj h ▸ hexec)⟩
        rw [if_pos hexec]
        exact .inr ⟨⟨0, rfl⟩, exists_mem_concat.mpr (.inr hends)⟩
      · -- Neither: the child has stopped for something else.
        rw [if_neg hexec]
        refine ⟨exists_mem_concat.mpr (.inl hresumed), fun hends => ?_⟩
        rcases exists_mem_concat.mp hends with hends | hends
        · exact hwaits hends
        · exact (hends.2 _ rfl).elim hexited hexec

/-- A run in which the wait for `exec` is over, or has not begun, is not cut off. -/
theorem ExecAwaited.cut_iff {α : Type} {o : Outcome Exception α} (h : ExecAwaited log)
    (ho : o ≠ .cut) : o = .cut ↔ ¬ ExecAwaited log :=
  ⟨fun hcut => absurd hcut ho, fun hnot => absurd h hnot⟩

theorem awaited_traceChild (hwaits : ¬ ∃ x ∈ log, x.1.endsWait x.2) (h : ExecAwaited log) :
    wp (Env.logging calls) (fun o log' => o = .cut ↔ ¬ ExecAwaited log')
      (traceChild fuel cfg) log := by
  have hgoesOn (c : Call) (rep : c.Rep) (hc : ¬ c.endsWait rep) {log : Log calls}
      (hwaits : ¬ ∃ x ∈ log, x.1.endsWait x.2) :
      ¬ ∃ x ∈ log ++ [⟨c, rep⟩], x.1.endsWait x.2 :=
    fun hends => (exists_mem_concat.mp hends).elim hwaits hc
  refine ⟨trivial, ?_⟩
  rintro rep _ rfl
  have hwaits := hgoesOn (.waitpid 0 0) rep (fun h => absurd h.1 (by decide)) hwaits
  have h := h.concat (.waitpid 0 0) rep trivial
  cases rep with
  | error => exact h.cut_iff nofun
  | ok told =>
      show wp _ _ (if told.1 ≠ cfg.pid then _ else _) _
      split_ifs
      · exact h.cut_iff nofun
      refine ⟨trivial, ?_⟩
      rintro rep _ rfl
      have hwaits := hgoesOn (.ptraceSetOptions cfg.pid PTRACE_O_TRACEEXEC) rep id hwaits
      have h := h.concat (.ptraceSetOptions cfg.pid PTRACE_O_TRACEEXEC) rep trivial
      cases rep with
      | error => exact h.cut_iff nofun
      | ok =>
          refine ⟨trivial, ?_⟩
          rintro rep _ rfl
          have hwaits := hgoesOn (.ptraceCont cfg.pid) rep id hwaits
          cases rep with
          | error e =>
              refine (h.concat_of_not_resumes fun hresumes => ?_).cut_iff nofun
              cases hresumes
          | ok =>
              show wp _ _ ((Prog.forever awaitExecStep fuel ()).bind _) _
              refine wp_bind_of (awaited_loop (exists_mem_concat.mpr (.inr rfl)) hwaits) fun o log ho => ?_
              rcases ho with ⟨rfl, hnot⟩ | ⟨⟨ret, rfl⟩, hended⟩
              · exact ⟨fun _ => hnot, fun _ => rfl⟩
              · show wp _ _ (if ret ≠ 0 then _ else _) log
                have h : ExecAwaited log := fun _ => hended
                split_ifs
                · exact h.cut_iff nofun
                refine Rests.wp_awaited ?_ h
                refine .call (c := .ptraceDetach cfg.pid) trivial fun _ => .rethrow_bind fun _ => ?_
                refine .call (c := .ptraceSeize cfg.pid) trivial fun _ => .rethrow_bind fun _ => ?_
                exact .call (c := .ptraceInterrupt cfg.pid) trivial fun _ => .rethrow_bind fun _ => .ret

/-- **When `InitiatePtrace` ends.** It is cut off exactly if nothing ends the wait. -/
theorem awaited_initiatePtrace :
    wp (Env.logging calls) (fun o log => o = .cut ↔ ¬ ExecAwaited log)
      (initiatePtrace fuel cfg) [] := by
  have hnil : ExecAwaited [] := fun ⟨_, hx, _⟩ => absurd hx List.not_mem_nil
  cases htrace : cfg.trace with
  | false => exact (rests_attach htrace).wp_awaited hnil
  | true =>
      unfold initiatePtrace
      rw [if_pos htrace]
      have hcerr (line : Bytes) :
          Rests ((invoke (.cerr line)).bind fun _ => .ret (none : Option Settings)) :=
        .call trivial fun _ => .ret
      by_cases hself : text "pyflame" <:+ cfg.trace_target
      · rw [if_pos hself]
        exact (hcerr _).wp_awaited hnil
      rw [if_neg hself]
      refine ⟨trivial, ?_⟩
      rintro rep _ rfl
      have hforked : ExecAwaited [⟨.fork, rep⟩] := hnil.concat .fork rep trivial
      cases rep with
      | error e => exact (hcerr _).wp_awaited hforked
      | ok pid =>
          show wp _ _ (if pid = 0 then _ else _) _
          split_ifs
          · exact rests_becomeTarget.wp_awaited hforked
          · refine awaited_traceChild ?_ hforked
            rintro ⟨x, hx, hends⟩
            obtain rfl := List.mem_singleton.mp hx
            exact hends

end

section

variable {fuel : ℕ} {cfg : Settings} {log : Log calls}

/-- `FindSymbols` has a bound. -/
theorem findSymbols_ne_cut (hfuel : cfg.maxRetries ≤ fuel) :
    wp (Env.logging calls) (fun o _ => o ≠ .cut) (findSymbols fuel cfg) log := by
  have hpos : 0 < cfg.maxRetries := by
    unfold Settings.maxRetries
    split_ifs <;> decide
  have hloop (k i : ℕ) (hk : cfg.maxRetries ≤ i + k) (hi : i < cfg.maxRetries) (log : Log calls) :
      wp (Env.logging calls) (fun o _ => o ≠ .cut) (Prog.forever (findSymbolsStep cfg) k i) log := by
    induction k generalizing i log with
    | zero => exact absurd hi (Nat.not_lt.mpr hk)
    | succ k ih =>
        refine wp_bind_of (R := fun o _ => o ≠ .cut ∧ ∀ i', o = .ok (.inl i') →
          i' = i + 1 ∧ i + 1 < cfg.maxRetries) ?_ fun o log ho => ?_
        · refine ⟨trivial, fun found log _ => ?_⟩
          cases found with
          | error e => exact ⟨nofun, nofun⟩
          | ok found =>
              cases found with
              | some found => exact ⟨nofun, nofun⟩
              | none =>
                  show wp _ _ (if cfg.maxRetries ≤ i + 1 then _ else _) log
                  by_cases hlast : cfg.maxRetries ≤ i + 1
                  · rw [if_pos hlast]
                    exact ⟨trivial, fun _ _ _ => ⟨nofun, nofun⟩⟩
                  rw [if_neg hlast]
                  refine ⟨trivial, fun resumed log _ => ?_⟩
                  cases resumed with
                  | error e => exact ⟨nofun, nofun⟩
                  | ok =>
                      refine ⟨trivial, fun _ log _ => ⟨trivial, fun stopped log _ => ?_⟩⟩
                      cases stopped with
                      | error e => exact ⟨nofun, nofun⟩
                      | ok =>
                          refine ⟨nofun, ?_⟩
                          rintro _ ⟨⟩
                          exact ⟨rfl, Nat.lt_of_not_le hlast⟩
        · cases o with
          | ok c =>
              cases c with
              | inl i' =>
                  obtain ⟨rfl, hi'⟩ := ho.2 i' rfl
                  exact ih (i + 1) (by omega) hi' log
              | inr found => exact nofun
          | error | abort => exact nofun
          | cut => exact absurd rfl ho.1
  refine wp_handle.mpr (wp_mono (fun o log ho => ?_) (hloop fuel 0 (by omega) hpos log))
  cases o with
  | ok | abort => exact nofun
  | cut => exact absurd rfl ho
  | error e =>
      cases e with
      | fatal | symbol => exact ⟨trivial, fun _ _ _ => nofun⟩
      | terminate | ptrace | other => exact nofun

/-! The probe loop. -/

@[simp] theorem readings_concat (cfg : Prober) (log : Log calls) (c : calls.Req) (rep : calls.Rep c) :
    readings cfg (log ++ [⟨c, rep⟩]) = (readings cfg log).exchange cfg c rep := by
  simp [readings]

/-- Nothing has ended the loop so far. -/
structure Going (cfg : Prober) (start : Time) (log : Log calls) : Prop where
  ptrace : ∀ x ∈ thrown log, x.2.IsPtrace
  start : (readings cfg log).start = some start
  overdue : (readings cfg log).overdue = false

/-- A pass goes round again exactly if nothing ends the loop. -/
def PassEnds (cfg : Prober) (start : Time) : Outcome Exception (Samples × Next) → Log calls → Prop
  | .ok (_, .again), log => Going cfg start log
  | .ok (_, .finish _), log => LoopEnded cfg log
  | .error _, _ | .abort, _ | .cut, _ => False

theorem Going.not_ended {start : Time} (h : Going cfg.toProber start log) :
    ¬ LoopEnded cfg.toProber log := by
  intro hended
  rcases hended (by simp [h.start]) with ⟨x, hx, hnot⟩ | hover
  · exact hnot (h.ptrace x hx)
  · rw [h.overdue] at hover
    contradiction

/-- A call that throws nothing, and neither reads the clock nor samples. -/
theorem Going.quiet {start : Time} (h : Going cfg.toProber start log) {c : Call} (rep : c.Rep)
    (hrep : c.thrown rep = none) (hread : ∀ k : Readings, k.exchange cfg.toProber c rep = k) :
    Going cfg.toProber start (log ++ [⟨c, rep⟩]) where
  ptrace := isPtrace_of_none c rep h.ptrace hrep
  start := by rw [readings_concat, hread, h.start]
  overdue := by rw [readings_concat, hread, h.overdue]

/-- What a handler of the loop makes of an exception. -/
theorem passEnds_handleException {found : PyABI × PyAddresses} {start now : Time} {s : Samples}
    {c : Call} {rep : c.Rep} {e : Exception} (h : Going cfg.toProber start log)
    (hrep : c.thrown rep = some e) (hread : ∀ k : Readings, k.exchange cfg.toProber c rep = k) :
    wp (Env.logging calls) (PassEnds cfg.toProber start)
      (handleException cfg.toProber (loopCalls cfg found) now s e) (log ++ [⟨c, rep⟩]) := by
  have hthrown (more : Log calls) : (c, e) ∈ thrown (log ++ [⟨c, rep⟩] ++ more) := by
    rw [thrown_append, thrown_append, thrown_singleton, hrep]
    simp
  have hended (more : Log calls) (hnot : ¬ e.IsPtrace) :
      LoopEnded cfg.toProber (log ++ [⟨c, rep⟩] ++ more) :=
    fun _ => .inl ⟨(c, e), hthrown more, hnot⟩
  cases e with
  | terminate =>
      show LoopEnded cfg.toProber _
      rw [← List.append_nil (log ++ _)]
      exact hended [] id
  | fatal | symbol | other =>
      refine ⟨trivial, ?_⟩
      rintro _ _ rfl
      exact hended _ id
  | ptrace what =>
      refine ⟨trivial, ?_⟩
      rintro rep' _ rfl
      have hgoing : Going cfg.toProber start (log ++ [⟨c, rep⟩]) := by
        refine ⟨fun x hx => ?_, ?_, ?_⟩
        · rcases isPtrace_or_eq h.ptrace hrep x hx with hptrace | heq
          · exact hptrace
          · rw [heq]
            trivial
        · rw [readings_concat, hread, h.start]
        · rw [readings_concat, hread, h.overdue]
      exact hgoing.quiet (c := .cerr _) rep' rfl fun _ => rfl

theorem passEnds_probeIteration {found : PyABI × PyAddresses} {start : Time} {s : Samples}
    (h : Going cfg.toProber start log) :
    wp (Env.logging calls) (PassEnds cfg.toProber start)
      (probeIteration cfg.toProber (loopCalls cfg found) (endTime cfg.toProber start) s) log := by
  refine ⟨trivial, ?_⟩
  rintro (now : Time) _ rfl
  have hstart : (readings cfg.toProber (log ++ [⟨.now, now⟩])).start = some start := by
    rw [readings_concat, Readings.exchange, h.start]
    rfl
  have hnow : Going cfg.toProber start (log ++ [⟨.now, now⟩]) := by
    refine ⟨isPtrace_of_none .now now h.ptrace rfl, hstart, ?_⟩
    rw [readings_concat]
    exact h.overdue
  refine ⟨trivial, ?_⟩
  rintro threads _ rfl
  cases threads with
  | error e => exact passEnds_handleException hnow rfl fun _ => rfl
  | ok threads =>
      -- The sample is past the end exactly where the loop says so.
      have hreadings : readings cfg.toProber (log ++ [⟨.now, now⟩] ++
          [⟨.getThreads cfg.pid found.1 found.2 cfg.enable_threads, .ok threads⟩]) =
            ⟨some start, now, pastEnd cfg.toProber (endTime cfg.toProber start) now⟩ := by
        rw [readings_concat, Readings.exchange, hstart, hnow.overdue, Bool.false_or, readings_concat]
        rfl
      show wp _ _ (if pastEnd cfg.toProber _ now = true then _ else _) _
      by_cases hend : pastEnd cfg.toProber (endTime cfg.toProber start) now = true
      · rw [if_pos hend]
        refine fun _ => .inr ?_
        rw [hreadings]
        exact hend
      · rw [if_neg hend]
        have hthreads : Going cfg.toProber start (log ++ [⟨.now, now⟩] ++
            [⟨.getThreads cfg.pid found.1 found.2 cfg.enable_threads, .ok threads⟩]) := by
          refine ⟨isPtrace_of_none (.getThreads cfg.pid found.1 found.2 cfg.enable_threads)
            (.ok threads) hnow.ptrace rfl, ?_, ?_⟩
          · rw [hreadings]
          · rw [hreadings]
            exact Bool.eq_false_iff.mpr hend
        refine ⟨trivial, ?_⟩
        rintro resumed _ rfl
        cases resumed with
        | error e => exact passEnds_handleException hthreads rfl fun _ => rfl
        | ok =>
            have hcont := hthreads.quiet (c := .ptraceCont cfg.pid) (.ok ()) rfl fun _ => rfl
            refine ⟨trivial, ?_⟩
            rintro slept _ rfl
            have hslept := hcont.quiet (c := .sleepFor cfg.interval) slept rfl fun _ => rfl
            refine ⟨trivial, ?_⟩
            rintro interrupted _ rfl
            cases interrupted with
            | error e => exact passEnds_handleException hslept rfl fun _ => rfl
            | ok => exact hslept.quiet (c := .ptraceInterrupt cfg.pid) (.ok ()) rfl fun _ => rfl

/-- **When `ProbeLoop` ends.** It is cut off exactly if nothing ends it. -/
theorem ended_probeLoop {std : StdLib} {found : PyABI × PyAddresses} (hlog : thrown log = [])
    (hreadings : readings cfg.toProber log = {}) :
    wp (Env.logging calls) (fun o log' => o = .cut ↔ ¬ LoopEnded cfg.toProber log')
      (probeLoopOver std fuel cfg.toProber (loopCalls cfg found)) log := by
  refine ⟨trivial, ?_⟩
  rintro (start : Time) _ rfl
  have hstart : Going cfg.toProber start (log ++ [⟨.now, start⟩]) := by
    refine ⟨fun x hx => ?_, ?_, ?_⟩
    · rw [thrown_append, hlog] at hx
      contradiction
    · rw [readings_concat, hreadings]
      rfl
    · rw [readings_concat, hreadings]
      rfl
  have hloop : wp (Env.logging calls)
      (fun o log' => (o = .cut ∧ ¬ LoopEnded cfg.toProber log') ∨
        (∃ a, o = .ok a) ∧ LoopEnded cfg.toProber log')
      (Prog.forever (probeLoopOverStep cfg.toProber (loopCalls cfg found)
        (endTime cfg.toProber start)) fuel {}) (log ++ [⟨.now, start⟩]) := by
    refine wp_forever (fun _ log => Going cfg.toProber start log)
      (fun _ _ h => .inl ⟨rfl, h.not_ended⟩) (fun s log h => ?_) fuel _ hstart
    refine wp_bind_of (passEnds_probeIteration h) fun o log' ho => ?_
    cases o with
    | ok r =>
        obtain ⟨s, next⟩ := r
        cases next with
        | again => exact ho
        | finish status => exact .inr ⟨⟨_, rfl⟩, ho⟩
    | error | abort | cut => exact ho.elim
  show wp _ _ ((Prog.forever _ fuel ({} : Samples)).bind _) _
  refine wp_bind_of hloop fun o log' ho => ?_
  rcases ho with ⟨rfl, hnot⟩ | ⟨⟨r, rfl⟩, hended⟩
  · exact ⟨fun _ => hnot, fun _ => rfl⟩
  · exact ⟨nofun, fun hnot => absurd hended hnot⟩

theorem ended_runProber {std : StdLib} {found : PyABI × PyAddresses} :
    wp (Env.logging calls) (fun o log => o = .cut ↔ ¬ LoopEnded cfg.toProber log)
      (runProber std fuel cfg found) [] := by
  have hidle {α : Type} {o : Outcome Exception α} {log : Log calls} (ho : o ≠ .cut)
      (hstart : (readings cfg.toProber log).start = none) :
      o = .cut ↔ ¬ LoopEnded cfg.toProber log :=
    ⟨fun hcut => absurd hcut ho, fun hnot => absurd (fun hne => absurd hstart hne) hnot⟩
  have houtput : wp (Env.logging calls) (fun o log => (∃ opened, o = .ok opened) ∧
      thrown log = [] ∧ readings cfg.toProber log = {}) (haveOutput cfg) [] := by
    unfold haveOutput
    split_ifs
    · exact ⟨⟨true, rfl⟩, rfl, rfl⟩
    · refine ⟨trivial, ?_⟩
      rintro opened _ rfl
      exact ⟨⟨opened, rfl⟩, rfl, rfl⟩
  refine wp_bind_of houtput fun o log ho => ?_
  obtain ⟨⟨opened, rfl⟩, hlog, hreadings⟩ := ho
  show wp _ _ (if (!opened) = true then _ else _) log
  by_cases hopened : (!opened) = true
  · rw [if_pos hopened]
    refine ⟨trivial, ?_⟩
    rintro _ _ rfl
    refine hidle nofun ?_
    rw [readings_concat, hreadings]
    rfl
  rw [if_neg hopened]
  by_cases hdump : cfg.dump = true
  · rw [if_pos hdump]
    refine ⟨trivial, ?_⟩
    rintro rep _ rfl
    have hstart : (readings cfg.toProber (log ++
        [⟨.getThreads cfg.pid found.1 found.2 cfg.enable_threads, rep⟩])).start = none := by
      rw [readings_concat, hreadings]
      cases rep <;> rfl
    cases rep with
    | ok => exact hidle nofun hstart
    | error => exact hidle nofun hstart
  · rw [if_neg hdump]
    exact ended_probeLoop hlog hreadings

end

/-! ### `main` -/

section

variable {σ : Type} {h : Handler calls σ} {std : StdLib} {fuel : ℕ} {cfg : Settings} {s : σ}

theorem not_exits {o : Outcome Exception (Printed × ℕ)} {log : Log calls}
    (h : ∀ out status, o ≠ .ok (out, status)) : ¬ Exits o log := by
  rintro ⟨out, status, ho, -⟩
  exact h out status ho

theorem exits_ok {out : Printed} {status : ℕ} {log : Log calls}
    (hfits : ∀ x ∈ thrown log, x.2.Fits status) : Exits (.ok (out, status)) log :=
  ⟨out, status, rfl, hfits⟩

/-- The end of `main`, after what may have been thrown before it. -/
theorem exits_cleanup {log : Log calls} {out : Printed} {status : ℕ}
    (hfits : ∀ x ∈ thrown log, x.2.Fits status) :
    Exits (run h ((invoke (.ptraceCleanup cfg.pid)).bind fun _ => .ret (out, status)) s).1
      (log ++ logOf (trace h ((invoke (.ptraceCleanup cfg.pid)).bind fun _ => .ret (out, status)) s)) := by
  exact exits_ok (forall_thrown_append.mpr ⟨hfits, nofun⟩)

/-- `main` once the symbols have been found. -/
theorem run_exits_iff {found : PyABI × PyAddresses} {log : Log calls}
    (hlog : ∀ x ∈ thrown log, x.2.IsPtrace) :
    let p : Driver (Printed × ℕ) := (runProber std fuel cfg found).bind fun result =>
      (invoke (.ptraceCleanup cfg.pid)).bind fun _ => .ret result
    Exits (run h p s).1 (log ++ logOf (trace h p s)) ↔
      (cfg.dump = true → thrown (logOf (trace h (runProber std fuel cfg found) s)) = []) ∧
      LoopEnded cfg.toProber (logOf (trace h (runProber std fuel cfg found) s)) := by
  intro p
  have hlogged : wp (Env.logging calls) _ (runProber std fuel cfg found) [] :=
    wp_and (Q := RunPost cfg.dump) runProber_log ended_runProber
  have hpost := wp_logging hlogged h s
  rw [List.nil_append] at hpost
  have hrun : run h p s = _ := run_bind h (runProber std fuel cfg found) _ s
  have htrace : trace h p s = _ := trace_bind h (runProber std fuel cfg found) _ s
  rw [hrun, htrace]
  rcases hr : run h (runProber std fuel cfg found) s with ⟨o, s'⟩
  rw [hr] at hpost
  obtain ⟨⟨habort, herror, hfits⟩, hcut⟩ := hpost
  cases o with
  | abort => exact absurd rfl habort
  | error e =>
      obtain ⟨hdump, hne⟩ := herror.mp ⟨e, rfl⟩
      exact ⟨fun hexits => absurd hexits (not_exits nofun), fun hall => absurd (hall.1 hdump) hne⟩
  | cut =>
      exact ⟨fun hexits => absurd hexits (not_exits nofun), fun hall => absurd hall.2 (hcut.mp rfl)⟩
  | ok result =>
      obtain ⟨out, status⟩ := result
      constructor
      · intro _
        refine ⟨fun hdump => ?_, ?_⟩
        · by_contra hthrown
          obtain ⟨e, he⟩ := herror.mpr ⟨hdump, hthrown⟩
          cases he
        · by_contra hgoing
          cases hcut.mpr hgoing
      · intro _
        rw [logOf_append, ← List.append_assoc]
        apply exits_cleanup
        exact forall_thrown_append.mpr ⟨fun x hx => (hlog x hx).fits status, hfits out status rfl⟩

/-- `main` once the target is attached. -/
theorem profile_exits_iff (hfuel : cfg.maxRetries ≤ fuel) {log : Log calls}
    (hlog : ∀ x ∈ thrown log, x.2.IsPtrace) :
    Exits (run h (profile std fuel cfg) s).1 (log ++ logOf (trace h (profile std fuel cfg) s)) ↔
      (∀ x ∈ thrown (logOf (trace h (findSymbols fuel cfg) s)), x.2.IsFatal) ∧
      ∀ found s', run h (findSymbols fuel cfg) s = (.ok (some found), s') →
        (cfg.dump = true → thrown (logOf (trace h (runProber std fuel cfg found) s')) = []) ∧
        LoopEnded cfg.toProber (logOf (trace h (runProber std fuel cfg found) s')) := by
  have hlogged : wp (Env.logging calls) _ (findSymbols fuel cfg) [] :=
    wp_and (Q := FindPost) findSymbols_log (findSymbols_ne_cut hfuel)
  have hpost := wp_logging hlogged h s
  rw [List.nil_append] at hpost
  have hrun : run h (profile std fuel cfg) s = _ := run_bind h (findSymbols fuel cfg) _ s
  have htrace : trace h (profile std fuel cfg) s = _ := trace_bind h (findSymbols fuel cfg) _ s
  rw [hrun, htrace]
  rcases hr : run h (findSymbols fuel cfg) s with ⟨o, s'⟩
  rw [hr] at hpost
  obtain ⟨hpost, hcut⟩ := hpost
  cases o with
  | abort => exact absurd rfl hpost.1
  | cut => exact absurd rfl hcut
  -- An exception that leaves `FindSymbols` leaves `main`.
  | error e =>
      obtain ⟨x, hx, hnot⟩ := hpost.error
      exact ⟨fun hexits => absurd hexits (not_exits nofun), fun hall => absurd (hall.1 x hx) hnot⟩
  | ok found =>
      have hfatal := hpost.isFatal nofun
      rw [logOf_append, ← List.append_assoc]
      cases found with
      -- The fatal exception was caught: what is left is to clean up, with status 1.
      | none =>
          constructor
          · intro _
            refine ⟨hfatal, fun found s'' heq => ?_⟩
            cases heq
          · intro _
            apply exits_cleanup
            exact forall_thrown_append.mpr
              ⟨fun x hx => (hlog x hx).fits 1, fun x hx => (hfatal x hx).fits⟩
      | some found =>
          -- Nothing was thrown so far, so the probe loop alone decides.
          have hnil := hpost.nil nofun nofun
          refine Iff.trans (run_exits_iff fun x hx => ?_) ?_
          · rw [thrown_append, hnil, List.append_nil] at hx
            exact hlog x hx
          · constructor
            · intro hrest
              refine ⟨hfatal, fun found' s'' heq => ?_⟩
              obtain ⟨hfound, rfl⟩ := Prod.mk.inj heq
              obtain rfl := Option.some.inj (Outcome.ok.inj hfound)
              exact hrest
            · exact fun hall => hall.2 found s' rfl

theorem maxRetries_le (cfg : Settings) : cfg.maxRetries ≤ 50 := by
  unfold Settings.maxRetries
  split_ifs <;> decide

/-- A run with enough passes for `FindSymbols`. -/
theorem exits_iff_contained (hfuel : 50 ≤ fuel) :
    Exits (run h (main std fuel cfg) s).1 (logOf (trace h (main std fuel cfg) s)) ↔
      Contained h std fuel cfg s := by
  have hlogged : wp (Env.logging calls) _ (initiatePtrace fuel cfg) [] :=
    wp_and (Q := InitiatePost cfg) initiatePtrace_log awaited_initiatePtrace
  have hpost := wp_logging hlogged h s
  rw [List.nil_append] at hpost
  have hrun : run h (main std fuel cfg) s = _ := run_bind h (initiatePtrace fuel cfg) _ s
  have htrace : trace h (main std fuel cfg) s = _ := trace_bind h (initiatePtrace fuel cfg) _ s
  rw [hrun, htrace, Contained]
  rcases hr : run h (initiatePtrace fuel cfg) s with ⟨o, s'⟩
  rw [hr] at hpost
  obtain ⟨⟨herror, habort⟩, hcut⟩ := hpost
  -- `InitiatePtrace` ends in an error exactly if it lets an exception through, aborts exactly
  -- if it leaves its child unwaited, and is cut off exactly if nothing ends the wait for `exec`.
  have hcaught : (∀ e, o ≠ .error e) →
      ∀ x ∈ thrown (logOf (trace h (initiatePtrace fuel cfg) s)), caughtInInitiate cfg x := by
    intro hne x hx
    by_contra hnot
    obtain ⟨e, he⟩ := herror.mpr ⟨x, hx, hnot⟩
    exact hne e he
  have hchild : o ≠ .abort → ChildAwaited (logOf (trace h (initiatePtrace fuel cfg) s)) :=
    fun hne => by_contra fun hnot => hne (habort.mpr hnot)
  have hexec : o ≠ .cut → ExecAwaited (logOf (trace h (initiatePtrace fuel cfg) s)) :=
    fun hne => by_contra fun hnot => hne (hcut.mpr hnot)
  cases o with
  | error e =>
      obtain ⟨x, hx, hnot⟩ := herror.mp ⟨e, rfl⟩
      exact ⟨fun hexits => absurd hexits (not_exits nofun), fun hall => absurd (hall.1 x hx) hnot⟩
  | abort =>
      refine ⟨fun hexits => absurd hexits (not_exits nofun), fun hall => ?_⟩
      exact absurd hall.2.1 (habort.mp rfl)
  | cut =>
      refine ⟨fun hexits => absurd hexits (not_exits nofun), fun hall => ?_⟩
      exact absurd hall.2.2.1 (hcut.mp rfl)
  | ok cfg' =>
      -- What it catches is a `PtraceException`, and that fits every status.
      have hptrace : ∀ x ∈ thrown (logOf (trace h (initiatePtrace fuel cfg) s)), x.2.IsPtrace := by
        intro x hx
        obtain ⟨-, -, what, hwhat⟩ := hcaught nofun x hx
        rw [hwhat]
        trivial
      rw [logOf_append]
      cases cfg' with
      | none =>
          constructor
          · intro _
            refine ⟨hcaught nofun, hchild nofun, hexec nofun, fun cfg' s'' heq => ?_⟩
            cases heq
          · intro _
            apply exits_ok
            exact forall_thrown_append.mpr ⟨fun x hx => (hptrace x hx).fits 1, nofun⟩
      | some cfg' =>
          refine (profile_exits_iff ((maxRetries_le cfg').trans hfuel) hptrace).trans ?_
          constructor
          · intro hrest
            refine ⟨hcaught nofun, hchild nofun, hexec nofun, fun cfg'' s'' heq => ?_⟩
            obtain ⟨hcfg, rfl⟩ := Prod.mk.inj heq
            obtain rfl := Option.some.inj (Outcome.ok.inj hcfg)
            exact hrest
          · exact fun hall => hall.2.2.2 cfg' s' rfl

/-- **The exit status.** Given enough passes for its loops, `main` ends with the status that
`exc.h` promises exactly if the exceptions thrown in it are contained and its loops have an
end. -/
theorem main_exits_iff (h : Handler calls σ) (std : StdLib) (cfg : Settings) (s : σ) :
    (∃ enough, ∀ fuel ≥ enough,
      Exits (run h (main std fuel cfg) s).1 (logOf (trace h (main std fuel cfg) s))) ↔
        ∃ enough, ∀ fuel ≥ enough, Contained h std fuel cfg s := by
  constructor
  · rintro ⟨enough, hexits⟩
    refine ⟨max enough 50, fun fuel hfuel => ?_⟩
    obtain ⟨henough, h50⟩ := max_le_iff.mp hfuel
    exact (exits_iff_contained h50).mp (hexits fuel henough)
  · rintro ⟨enough, hcontained⟩
    refine ⟨max enough 50, fun fuel hfuel => ?_⟩
    obtain ⟨henough, h50⟩ := max_le_iff.mp hfuel
    exact (exits_iff_contained h50).mpr (hcontained fuel henough)

end

/-! ### A target that exits -/

/-- What a call replies that does not return. -/
def Call.lost : (c : Call) → c.Rep
  | .fork | .waitpid _ _ => .error []
  | .execvp _ _ => []
  | .ptraceTraceme | .ptraceSetOptions _ _ | .ptraceCont _ | .ptraceDetach _ | .ptraceSeize _
  | .ptraceInterrupt _ | .detectABI _ _ _ | .getThreads _ _ _ _ => .error (.other [])
  | .openOutput _ => false
  | .now => 0
  | .ptraceCleanup _ | .sleepFor _ | .cerr _ => ()

/-- The target can be seized, and exits with status 0 while it is interrupted. -/
def exiting : Handler sys Unit := answer fun
  | .seize _ | .interrupt _ => .ok ()
  | .waitpid pid _ => .ok (pid, 0)
  | r => refuse r

/-- The exception that reports it leaves `main`. -/
theorem main_not_exits :
    let h := exiting.via (Call.impl (fun _ => py27) 1) Call.lost
    ¬ ∃ enough, ∀ fuel ≥ enough, Exits (run h (main plainLib fuel { pid := 1 }) ()).1
      (logOf (trace h (main plainLib fuel { pid := 1 }) ())) := by
  rintro h ⟨enough, hexits⟩
  obtain ⟨out, status, hok, -⟩ := hexits enough (Nat.le_refl enough)
  have herror : (run h (main plainLib enough { pid := 1 }) ()).1 =
      .error (.terminate (text "Child process 1 exited with status 0")) := rfl
  rw [herror] at hok
  cases hok

end Pyflame
