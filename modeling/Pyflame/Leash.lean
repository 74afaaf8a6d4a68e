import Pyflame.Footprint

/-!
What a run traces, from the first request to the last.

`ptrace` is about threads that the caller traces, and one at a time. The main
thread of the target is traced from `PTRACE_SEIZE` on, or as a child that asked for
it, and another one only as long as it takes to call a function in the target.
-/

namespace Pyflame

open Interaction

/-- How the main thread is held. -/
inductive Hold
  /-- It is not, or its detaching has been asked for. -/
  | loose
  /-- It is a child that asked to be traced. -/
  | forked
  | seized
  deriving DecidableEq, Repr

/-- What a run has got hold of. `listed` are the threads that the directory of the target has
shown since it was opened. -/
structure Leash where
  hold : Hold := .loose
  listed : List Pid := []

def Leash.read (s : Leash) : Option Bytes → Leash
  | some name =>
      match stoi name with
      | .ok tid => { s with listed := s.listed ++ [tid] }
      | .error _ => s
  | none => s

section

variable (pid : Pid)

/-- A thread counts as let go once that has been asked for. -/
def leashStep (s : Leash) (r : Request) : r.Rep → Leash → Prop :=
  match r with
  | .fork => fun
      | .ok p, s' => if p = 0 then s' = s else p = pid ∧ s' = { s with hold := .forked }
      | .error _, s' => s' = s
  | .seize _ => fun
      | .ok _, s' => s' = { s with hold := .seized }
      | .error _, s' => s' = s
  | .detach p => fun _ s' => s' = if p = pid then { s with hold := .loose } else s
  | .opendir _ => fun _ s' => s' = { s with listed := [] }
  | .readdir => fun rep s' => s' = s.read rep
  | _ => fun _ s' => s' = s

/-- Where each request may be made. -/
def leashed (s : Leash) : Request → Prop
  | .traceme | .raise _ | .execvp _ _ => s.hold = .loose
  | .seize p => p = pid ∧ s.hold = .loose
  | .setOptions p _ => p = pid ∧ s.hold = .forked
  | .cont p => p = pid ∧ s.hold ≠ .loose
  | .interrupt p | .getRegs p | .setRegs p _ | .peekData p _ | .pokeData p _ _ | .singleStep p =>
      p = pid ∧ s.hold = .seized
  | .attach p => p ≠ pid ∧ p ∈ s.listed ∧ s.hold = .seized
  | .detach p => p = pid ∧ s.hold ≠ .loose ∨ p ≠ pid ∧ p ∈ s.listed ∧ s.hold = .seized
  | .waitpid p _ => p = pid ∨ s.hold = .forked ∧ (p = 0 ∨ p = -1) ∨ s.hold = .seized ∧ p ∈ s.listed
  | .opendir path => path = text "/proc/" ++ signedDecimal pid ++ text "/task" ∧ s.hold = .seized
  | .readdir | .probe | .setProbe _ | .alloc _ => s.hold = .seized
  | _ => True

def leash : Env sys Leash := ⟨leashStep pid, leashed pid⟩

/-- The driver over its calls. -/
def tethered (headers : PyABI → Headers) (n : ℕ) : Env calls Leash :=
  (leash pid).via (fun _ _ => True) (Call.impl headers n)

end

section

variable {pid : Pid} {fuel : ℕ} {s : Leash}

/-! ### While the main thread is seized -/

/-- Requests that leave the list as it is too. -/
def Request.OnThread (pid tid : Pid) : Request → Prop
  | .attach p | .detach p => p = tid ∧ p ≠ pid
  | .waitpid p _ => p = tid
  | .errno => True
  | _ => False

theorem keeps_onThread {tids : List Pid} {tid : Pid} (htid : tid ∈ tids) {α : Type} {p : Tracer α}
    (hp : p.Only (Request.OnThread pid tid)) :
    Keeps (leash pid) (fun s => s.hold = .seized ∧ ∀ tid ∈ tids, tid ∈ s.listed) p := by
  refine .of_only hp fun r hr s ⟨hseized, hlisted⟩ => ?_
  cases r with
  | attach p =>
      obtain ⟨rfl, hne⟩ := hr
      refine ⟨⟨hne, hlisted p htid, hseized⟩, fun rep s' h => ?_⟩
      obtain rfl : s' = s := h
      exact ⟨hseized, hlisted⟩
  | detach p =>
      obtain ⟨rfl, hne⟩ := hr
      refine ⟨.inr ⟨hne, hlisted p htid, hseized⟩, fun rep s' h => ?_⟩
      obtain rfl : s' = s := h.trans (if_neg hne)
      exact ⟨hseized, hlisted⟩
  | waitpid p =>
      obtain rfl : p = tid := hr
      refine ⟨.inr (.inr ⟨hseized, hlisted p htid⟩), fun rep s' h => ?_⟩
      obtain rfl : s' = s := h
      exact ⟨hseized, hlisted⟩
  | errno =>
      refine ⟨trivial, fun rep s' h => ?_⟩
      obtain rfl : s' = s := h
      exact ⟨hseized, hlisted⟩
  | _ => exact hr.elim

/-- The list that is returned has been read. -/
theorem wp_listThreads_leash (hs : s.hold = .seized) :
    wp (leash pid)
      (fun o s' => s'.hold = .seized ∧ ∀ tids, o = .ok tids → ∀ tid ∈ tids, tid ∈ s'.listed)
      (listThreads fuel pid) s := by
  refine ⟨⟨rfl, hs⟩, fun opened s' h => ?_⟩
  obtain rfl : s' = { s with listed := [] } := h
  cases opened with
  | false => exact ⟨hs, nofun⟩
  | true =>
      refine wp_forever (fun result s => s.hold = .seized ∧ ∀ tid ∈ result, tid ∈ s.listed)
        (fun _ _ h => ⟨h.1, nofun⟩) (fun result s ⟨hs, hresult⟩ => ?_) fuel [] ⟨hs, by simp⟩
      refine ⟨hs, fun entry s' h => ?_⟩
      obtain rfl : s' = s.read entry := h
      cases entry with
      | none =>
          refine ⟨hs, ?_⟩
          rintro _ ⟨⟩
          exact hresult
      | some name =>
          show wp _ _ (if name ≠ text "." ∧ name ≠ text ".." then _ else _) _
          rw [Leash.read]
          cases stoi name with
          | error what =>
              split_ifs
              · exact ⟨hs, nofun⟩
              · exact ⟨hs, hresult⟩
          | ok tid =>
              have hread : ∀ t ∈ result, t ∈ s.listed ++ [tid] := fun t ht =>
                List.mem_append_left _ (hresult t ht)
              split_ifs
              · refine ⟨hs, fun t ht => ?_⟩
                rcases List.mem_append.mp ht with ht | ht
                · exact hread t ht
                · exact List.mem_append_right _ ht
              · exact ⟨hs, hread⟩

theorem keeps_leash_eachThread {f : Pid → Tracer Unit}
    (hf : ∀ tid ≠ pid, (f tid).Only (Request.OnThread pid tid)) :
    Keeps (leash pid) (fun s => s.hold = .seized) ((listThreads fuel pid).bind fun tids =>
      tids.forM fun tid => if tid ≠ pid then f tid else pure ()) := by
  refine fun s hs => wp_bind_of (wp_listThreads_leash hs) fun o s' ⟨hs', hlisted⟩ => ?_
  cases o with
  | error => exact hs'
  | abort | cut => trivial
  | ok tids =>
      have hall : Keeps (leash pid) (fun s => s.hold = .seized ∧ ∀ tid ∈ tids, tid ∈ s.listed)
          (tids.forM fun tid => if tid ≠ pid then f tid else pure ()) := by
        refine .forM fun tid htid => ?_
        by_cases hne : tid ≠ pid
        · rw [if_pos hne]
          exact keeps_onThread htid (hf tid hne)
        · rw [if_neg hne]
          exact .ret
      refine wp_mono (fun o s ho => ?_) (hall s' ⟨hs', hlisted tids rfl⟩)
      cases o with
      | ok | error => exact ho.1
      | abort | cut => trivial

theorem keepsTraced_leash : KeepsTraced (leash pid) (fun s => s.hold = .seized) fuel pid where
  onMain {r} hr := by
    refine .ask (fun s hs => ?_) fun s rep s' hs h => ?_
    · cases r with
      | cont =>
          have hne : s.hold ≠ .loose := by simp [hs]
          exact ⟨hr, hne⟩
      | interrupt | getRegs | setRegs | peekData | pokeData | singleStep => exact ⟨hr, hs⟩
      | waitpid => exact .inl hr.1
      | probe | setProbe | alloc => exact hs
      | cerr => trivial
      | _ => exact hr.elim
    · cases r with
      | cont | interrupt | getRegs | setRegs | peekData | pokeData | singleStep | waitpid | probe
      | setProbe | alloc | cerr =>
          obtain rfl : s' = s := h
          exact hs
      | _ => exact hr.elim
  pause := by
    refine keeps_leash_eachThread fun tid hne => ?_
    refine .bind (.ask ⟨rfl, hne⟩) fun rep => .bind (only_orThrow _ rep) fun _ => ?_
    refine .bind (.ask rfl) fun rep => .bind (only_orThrow _ rep) fun told => ?_
    exact .ite ⟨trivial, fun _ => trivial⟩ trivial
  resume := keeps_leash_eachThread fun tid hne => ⟨⟨rfl, hne⟩, only_orThrow _⟩

/-- What concerns no thread may be done at any time. -/
theorem keeps_leash_foreign {I : Leash → Prop} {α : Type} {p : Tracer α} (hp : p.Only Request.Foreign) :
    Keeps (leash pid) I p := by
  refine .of_only hp fun r hr s hs => ⟨?_, fun rep s' h => ?_⟩
  · cases r <;> first | exact hr.elim | trivial
  · cases r with
    | errno | cerr | lstat | readlink | openFile | fstat | close | setns | mapFile | readLines =>
        obtain rfl : s' = s := h
        exact hs
    | _ => exact hr.elim

theorem keeps_leash_aside {I : Leash → Prop} {r : Request} (hr : r.Aside) :
    Keeps (leash pid) I (ask r) := by
  refine .ask (fun _ _ => ?_) fun s rep s' hs h => ?_
  · cases r <;> first | exact hr.elim | trivial
  · cases r with
    | now | sleepFor | cerr | openOutput =>
        obtain rfl : s' = s := h
        exact hs
    | _ => exact hr.elim

theorem keeps_leash_setAddrs (enable_threads : Bool) :
    Keeps (leash pid) (fun s => s.hold = .seized) (setAddrs fuel pid enable_threads) :=
  keepsTraced_leash.keeps_setAddrs (fun hr => keeps_leash_foreign (.ask hr)) enable_threads

/-- However it goes, the cleanup ends with the main thread let go. -/
theorem wp_ptraceCleanup_leash (hs : s.hold = .seized) :
    wp (leash pid) (fun o s' => ∀ u, o = .ok u → s'.hold = .loose) (ptraceCleanup fuel pid) s := by
  have hdetach {s : Leash} (hs : s.hold = .seized) :
      wp (leash pid) (fun o s' => ∀ u, o = .ok u → s'.hold = .loose) (safeDetach pid) s := by
    have hne : s.hold ≠ .loose := by simp [hs]
    refine ⟨.inl ⟨rfl, hne⟩, fun rep s' h => ?_⟩
    obtain rfl : s' = { s with hold := .loose } := h.trans (if_pos rfl)
    exact fun _ _ => rfl
  refine ⟨hs, fun (probe : Word) s' h => ?_⟩
  obtain rfl : s' = s := h
  by_cases hprobe : probe ≠ 0
  · have hrun : wp (leash pid) (fun o s' => ∀ u, o = .ok u → s'.hold = .loose)
        (((unmapProbe fuel pid).handle fun _ => .ret ()).bind fun _ => safeDetach pid) s' := by
      refine wp_bind_of (keepsTraced_leash.keeps_unmapping s' hs) fun o s'' ho => ?_
      cases o with
      | ok => exact hdetach ho
      | error | abort | cut => exact nofun
    show wp _ _ (if probe ≠ 0 then _ else _) s'
    rw [if_pos hprobe]
    exact hrun
  · show wp _ _ (if probe ≠ 0 then _ else _) s'
    rw [if_neg hprobe]
    exact hdetach hs

/-! ### The driver -/

variable {cfg : Settings} {headers : PyABI → Headers} {n : ℕ}

theorem keeps_tethered {I : Leash → Prop} {P : Call → Prop} {α : Type} {p : Driver α} (hp : p.Only P)
    (h : ∀ c, P c → Keeps (leash pid) I (c.impl headers n)) : Keeps (tethered pid headers n) I p :=
  Keeps.via hp (fun _ _ _ _ => trivial) h

/-- The main thread is let go of at the end of `profile`. -/
theorem wp_profile_leash (std : StdLib) (hpid : cfg.pid = pid) (hs : s.hold = .seized) :
    wp (tethered pid headers n) (fun o s' => ∀ r, o = .ok r → s'.hold = .loose)
      (profile std fuel cfg) s := by
  subst hpid
  have hcleanup (result : Printed × ℕ) {s : Leash} (hs : s.hold = .seized) :
      wp (tethered cfg.pid headers n) (fun o s' => ∀ r, o = .ok r → s'.hold = .loose)
        ((invoke (.ptraceCleanup cfg.pid)).bind fun _ => .ret result) s :=
    wp_via trivial (wp_ptraceCleanup_leash hs) fun _ _ ho _ _ => ho _ rfl
  have hfind : Keeps (tethered cfg.pid headers n) (fun s => s.hold = .seized) (findSymbols fuel cfg) :=
    keeps_tethered calls_findSymbols fun c hc =>
      keepsTraced_leash.keeps_finds keeps_leash_aside (keeps_leash_setAddrs _) hc
  refine wp_bind_of (hfind s hs) fun o s' ho => ?_
  cases o with
  | error | abort | cut => exact nofun
  | ok found =>
      cases found with
      | none => exact hcleanup _ ho
      | some found =>
          have hrun : Keeps (tethered cfg.pid headers n) (fun s => s.hold = .seized)
              (runProber std fuel cfg found) :=
            keeps_tethered (calls_runProber std found) fun c hc =>
              keepsTraced_leash.keeps_runs keeps_leash_aside hc
          refine wp_bind_of (hrun s' ho) fun o s'' ho => ?_
          cases o with
          | error | abort | cut => exact nofun
          | ok result => exact hcleanup result ho

/-- What `InitiatePtrace` has got hold of. -/
def Taken (pid : Pid) : Outcome Exception (Option Settings) → Leash → Prop
  | .ok (some cfg), s => cfg.pid = pid ∧ s.hold = .seized
  | .ok none, s => s.hold ≠ .seized
  | .error _, _ | .abort, _ | .cut, _ => True

theorem keeps_leash_cerr {I : Leash → Prop} (line : Bytes) :
    Keeps (leash pid) I (Call.impl headers n (.cerr line)) :=
  keeps_leash_aside (r := .cerr line) trivial

theorem wp_rethrow_leash {α β : Type} {x : Except Exception α} {f : α → Driver β}
    {Q : Outcome Exception β → Leash → Prop} (herror : ∀ e s, Q (.error e) s)
    (hf : ∀ a, x = .ok a → wp (tethered pid headers n) Q (f a) s) :
    wp (tethered pid headers n) Q ((rethrow x).bind f) s := by
  cases x with
  | ok a => exact hf a rfl
  | error e => exact herror e s

/-- Where an attempt to seize the target ends up. -/
def Seizes : Outcome Exception (Except Exception Unit) → Leash → Prop
  | .ok (.ok _), s => s.hold = .seized
  | .ok (.error _), s => s.hold = .loose
  | .error _, _ | .abort, _ | .cut, _ => True

/-- Seizing a thread that is not held. -/
theorem wp_seize_leash {α : Type} {f : Except Exception Unit → Driver α}
    {Q : Outcome Exception α → Leash → Prop} (hs : s.hold = .loose)
    (hok : ∀ s', s'.hold = .seized → wp (tethered pid headers n) Q (f (.ok ())) s')
    (herror : ∀ e s', s'.hold = .loose → wp (tethered pid headers n) Q (f (.error e)) s') :
    wp (tethered pid headers n) Q ((invoke (.ptraceSeize pid)).bind f) s := by
  have himpl : wp (leash pid) Seizes (ptraceSeize pid).attempt s := by
    refine wp_attempt.mpr ⟨⟨rfl, hs⟩, fun rep s' h => ?_⟩
    cases rep with
    | error e =>
        obtain rfl : s' = s := h
        exact hs
    | ok =>
        obtain rfl : s' = { s with hold := .seized } := h
        rfl
  refine wp_via trivial himpl fun rep s' ho => ?_
  cases rep with
  | ok => exact hok s' ho
  | error e => exact herror e s' ho

theorem wp_interrupt_leash (hs : s.hold = .seized) (hpid : cfg.pid = pid) :
    wp (tethered pid headers n) (Taken pid)
      ((invoke (.ptraceInterrupt pid)).bind fun rep =>
        (rethrow rep).bind fun _ => .ret (some cfg)) s := by
  have htraced : KeepsTraced (leash pid) (fun s => s.hold = .seized) n pid := keepsTraced_leash
  refine (htraced.of_onMain onMain_ptraceInterrupt).attempt.wp_via trivial hs fun rep s' hs' => ?_
  cases rep with
  | ok => exact ⟨hpid, hs'⟩
  | error => trivial

theorem wp_attach_leash (h : cfg.trace = false) (hpid : cfg.pid = pid) (hs : s.hold = .loose) :
    wp (tethered pid headers n) (Taken pid) (initiatePtrace fuel cfg) s := by
  unfold initiatePtrace
  rw [h, hpid]
  refine wp_seize_leash hs (fun s' hs' => ?_) fun e s' hs' => ?_
  · exact wp_interrupt_leash hs' hpid
  · have hne : s'.hold ≠ .seized := by simp [hs']
    cases e with
    | ptrace =>
        refine (keeps_leash_cerr _).wp_via (I := fun s => s.hold ≠ .seized) trivial hne ?_
        exact fun _ s hs => (hs : s.hold ≠ .seized)
    | terminate | fatal | symbol | other => trivial

/-- Requests of the child. -/
def Request.OfChild : Request → Prop
  | .traceme | .raise _ | .execvp _ _ | .cerr _ => True
  | _ => False

/-- Requests of the parent about the child. -/
def Request.OnChild (pid : Pid) : Request → Prop
  | .waitpid p _ => p = 0 ∨ p = -1
  | .setOptions p _ | .cont p => p = pid
  | .cerr _ => True
  | _ => False

theorem keeps_ofChild {α : Type} {p : Tracer α} (hp : p.Only Request.OfChild) :
    Keeps (leash pid) (fun s => s.hold = .loose) p := by
  refine .of_only hp fun r hr s hs => ?_
  cases r with
  | traceme | raise | execvp =>
      refine ⟨hs, fun rep s' h => ?_⟩
      obtain rfl : s' = s := h
      exact hs
  | cerr => exact ⟨trivial, fun rep s' h => (congrArg Leash.hold h).trans hs⟩
  | _ => exact hr.elim

theorem keeps_onChild {α : Type} {p : Tracer α} (hp : p.Only (Request.OnChild pid)) :
    Keeps (leash pid) (fun s => s.hold = .forked) p := by
  refine .of_only hp fun r hr s hs => ?_
  cases r with
  | waitpid => exact ⟨.inr (.inl ⟨hs, hr⟩), fun rep s' h => (congrArg Leash.hold h).trans hs⟩
  | setOptions => exact ⟨⟨hr, hs⟩, fun rep s' h => (congrArg Leash.hold h).trans hs⟩
  | cont =>
      have hne : s.hold ≠ .loose := by simp [hs]
      exact ⟨⟨hr, hne⟩, fun rep s' h => (congrArg Leash.hold h).trans hs⟩
  | cerr => exact ⟨trivial, fun rep s' h => (congrArg Leash.hold h).trans hs⟩
  | _ => exact hr.elim

theorem keeps_becomeTarget_leash :
    Keeps (tethered pid headers n) (fun s => s.hold = .loose) (becomeTarget cfg) := by
  have hcall (c : Call) (hc : (c.impl headers n).Only Request.OfChild) :
      Keeps (tethered pid headers n) (fun s => s.hold = .loose) (invoke c) :=
    keeps_tethered (P := (· = c)) (.ask rfl) fun _ h => h ▸ keeps_ofChild hc
  have htraceme : (Call.impl headers n .ptraceTraceme).Only Request.OfChild :=
    Prog.Only.attempt (.bind (.ask trivial) fun rep => (only_orThrow _ rep).bind fun _ => .ask trivial)
  refine (hcall _ htraceme).bind fun rep => ?_
  cases rep with
  | error => exact .raise
  | ok => exact (hcall _ (.ask trivial)).bind fun _ => (hcall _ (.ask trivial)).bind fun _ => .ret

theorem wp_traceChild_leash (hpid : cfg.pid = pid) (hs : s.hold = .forked) :
    wp (tethered pid headers n) (Taken pid) (traceChild fuel cfg) s := by
  have hcall (c : Call) (hc : (c.impl headers n).Only (Request.OnChild pid)) :
      Keeps (leash pid) (fun s => s.hold = .forked) (c.impl headers n) := keeps_onChild hc
  have hoptions : (Call.impl headers n (.ptraceSetOptions pid PTRACE_O_TRACEEXEC)).Only
      (Request.OnChild pid) := Prog.Only.attempt (.bind (.ask rfl) fun rep => only_orThrow _ rep)
  have hcont : (Call.impl headers n (.ptraceCont pid)).Only (Request.OnChild pid) :=
    Prog.Only.attempt (only_ptraceCont rfl)
  have hawait : Keeps (tethered pid headers n) (fun s => s.hold = .forked)
      (Prog.forever awaitExecStep fuel ()) := by
    refine keeps_tethered (P := fun c => (c.impl headers n).Only (Request.OnChild pid)) ?_ hcall
    refine .forever (fun _ => .bind (.ask (.ask (.inr rfl))) fun rep => ?_) fuel ()
    cases rep with
    | error => exact .bind (.ask (.ask trivial)) fun _ => trivial
    | ok => exact .ite (.bind (.ask (.ask trivial)) fun _ => trivial) (.ite trivial trivial)
  unfold traceChild
  rw [hpid]
  refine (hcall _ (.ask (.inl rfl))).wp_via trivial hs fun rep s hs => ?_
  cases rep with
  | error => trivial
  | ok told =>
      show wp _ _ (if told.1 ≠ pid then _ else _) s
      split_ifs
      · trivial
      refine (hcall _ hoptions).wp_via trivial hs fun rep s hs => ?_
      refine wp_rethrow_leash (fun _ _ => trivial) fun _ _ => ?_
      refine (hcall _ hcont).wp_via trivial hs fun rep s hs => ?_
      refine wp_rethrow_leash (fun _ _ => trivial) fun _ _ => ?_
      refine wp_bind_of (hawait s hs) fun o s hs => ?_
      cases o with
      | error | abort | cut => trivial
      | ok ret =>
          show wp _ _ (if ret ≠ 0 then _ else _) s
          have hs : s.hold = .forked := hs
          split_ifs
          · show s.hold ≠ .seized
            simp [hs]
          have hdetach :
              wp (leash pid) (fun _ s' => s'.hold = .loose) (ptraceDetach pid).attempt s := by
            have hne : s.hold ≠ .loose := by simp [hs]
            refine wp_attempt.mpr ⟨.inl ⟨rfl, hne⟩, fun rep s' h => ?_⟩
            obtain rfl : s' = { s with hold := .loose } := h.trans (if_pos rfl)
            cases rep with
            | ok | error => rfl
          refine wp_via trivial hdetach fun rep s hs => ?_
          refine wp_rethrow_leash (fun _ _ => trivial) fun _ _ => ?_
          refine wp_seize_leash hs (fun s hs => ?_) fun _ _ _ => trivial
          exact wp_interrupt_leash hs hpid

theorem wp_initiatePtrace_leash (hpid : cfg.trace = false → cfg.pid = pid) (hs : s.hold = .loose) :
    wp (tethered pid headers n) (Taken pid) (initiatePtrace fuel cfg) s := by
  by_cases h : cfg.trace = true
  · have hquit (line : Bytes) {s : Leash} (hs : s.hold = .loose) :
        wp (tethered pid headers n) (Taken pid)
          ((invoke (.cerr line)).bind fun _ => (.ret none : Driver (Option Settings))) s := by
      refine (keeps_leash_cerr line).wp_via (I := fun s => s.hold = .loose) trivial hs fun _ s hs => ?_
      show s.hold ≠ .seized
      simp [hs]
    unfold initiatePtrace
    rw [if_pos h]
    split_ifs
    · exact hquit _ hs
    refine ⟨⟨trivial, trivial, fun _ _ _ => trivial⟩, fun rep s' hrep => ?_⟩
    obtain ⟨x, t, hx, hrep, rfl⟩ := hrep
    obtain rfl := Outcome.ok.inj hrep
    cases rep with
    | error e =>
        obtain rfl : s' = s := hx
        exact hquit _ hs
    | ok p =>
        change (if p = 0 then s' = s else p = pid ∧ s' = { s with hold := .forked }) at hx
        show wp _ _ (if p = 0 then _ else _) s'
        split_ifs at hx ⊢
        · obtain rfl := hx
          refine wp_mono (fun o s ho => ?_) (keeps_becomeTarget_leash.returns returns_becomeTarget hs)
          cases o with
          | ok r =>
              obtain rfl := ho.2 r rfl
              have hs : s.hold = .loose := ho.1
              show s.hold ≠ .seized
              simp [hs]
          | error | abort | cut => trivial
        · obtain ⟨rfl, rfl⟩ := hx
          exact wp_traceChild_leash rfl rfl
  · have h := Bool.eq_false_iff.mpr h
    exact wp_attach_leash h (hpid h) hs

end

/-- **A run traces only what it has hold of.** From the first request to the last, whatever fails,
every ptrace request is about the main thread while it is traced, or about a thread that the
directory of the target has just shown; and when `main` returns, it has asked for the main thread
to be detached, unless that is a child whose `exec` was never seen. -/
theorem main_leashed (std : StdLib) (headers : PyABI → Headers) (fuel n : ℕ) (cfg : Settings)
    (forked : Pid) :
    wp (tethered (targetPid cfg forked) headers n)
      (fun o s => ∀ r, o = .ok r → s.hold = .loose ∨ s.hold = .forked ∧ r.2 = 1)
      (main std fuel cfg) {} := by
  refine wp_bind_of (wp_initiatePtrace_leash (targetPid_attach cfg forked) rfl) fun o s ho => ?_
  cases o with
  | error | abort | cut => exact nofun
  | ok r =>
      cases r with
      | none =>
          rintro _ ⟨⟩
          have hs : s.hold ≠ .seized := ho
          cases hhold : s.hold with
          | loose => exact .inl rfl
          | forked => exact .inr ⟨rfl, rfl⟩
          | seized => contradiction
      | some cfg' =>
          refine wp_mono ?_ (wp_profile_leash std ho.1 ho.2)
          exact fun o s' ho r hr => .inl (ho r hr)

end Pyflame
