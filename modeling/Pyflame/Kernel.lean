import Pyflame.Ptrace

/-!
The target as its tracer finds it through `ptrace(2)`.

What a granted request does is fixed here. What the kernel refuses, which
threads are listed, what a wait is told and what the target does while it
runs is left to a `Behaviour`, and each statement says what it assumes of
that.
-/

namespace Pyflame

open Interaction

inductive Mode
  | stopped
  /-- Resumed by `PTRACE_SINGLESTEP`. -/
  | stepping
  /-- Resumed by `PTRACE_CONT`. -/
  | running
  /-- It has ended, or is no longer traced. -/
  | gone
  deriving DecidableEq, Repr

/-- A write to the target. -/
inductive Write
  | regs (regs : UserRegs)
  | word (addr data : Word)
  deriving DecidableEq

/-- The traced thread with the memory of its process, and what the tracer
holds besides. -/
structure Target where
  regs : UserRegs
  mem : Memory
  mode : Mode := .stopped
  /-- The child threads that are attached. -/
  held : List Pid := []
  /-- The static `probe_`. -/
  probe : Word := 0
  /-- What is left of the directory stream that is open. -/
  dir : List Bytes := []
  /-- Every `rip` that `PTRACE_GETREGS` has reported. -/
  reported : List Word := []
  /-- The writes that were granted, in order. -/
  writes : List Write := []

namespace Target

variable (t : Target)

/-- The word at an address. -/
def word (addr : Word) : Option Word := peekWord t.mem addr

def report : Target := { t with reported := t.reported ++ [t.regs.rip] }

def setRegs (regs : UserRegs) : Target :=
  { t with
    regs := regs
    writes := t.writes ++ [.regs regs] }

def poke (addr data : Word) : Target :=
  { t with
    mem := pokeWord t.mem addr data
    writes := t.writes ++ [.word addr data] }

def resume (mode : Mode) : Target := { t with mode := mode }

def stopAt (regs : UserRegs) (mem : Memory) : Target :=
  { t with
    regs := regs
    mem := mem
    mode := .stopped }

def hold (tid : Pid) : Target := { t with held := tid :: t.held }

def release (tid : Pid) : Target := { t with held := t.held.filter (· ≠ tid) }

def openDir (dir : List Bytes) : Target := { t with dir := dir }

def setProbe (page : Word) : Target := { t with probe := page }

end Target

/-- What is not fixed about the kernel and the target. -/
structure Behaviour where
  /-- A request may be refused. -/
  refuses : Target → Request → Prop
  /-- What a task directory may list. -/
  lists : Target → List Bytes → Prop
  /-- What a wait for a thread may be told. -/
  tells : Target → Pid → Pid × Status → Prop
  /-- The registers and the memory with which the target may stop after
  `PTRACE_SINGLESTEP`. -/
  steps : Target → UserRegs → Memory → Prop
  /-- The same after `PTRACE_CONT`. -/
  runs : Target → UserRegs → Memory → Prop

section

variable (pid : Pid) (B : Behaviour)

def Behaviour.stops (t : Target) : UserRegs → Memory → Prop :=
  match t.mode with
  | .stepping => B.steps t
  | .running => B.runs t
  | .stopped | .gone => fun _ _ => False

theorem Behaviour.stops_iff {t : Target} {regs : UserRegs} {mem : Memory} :
    B.stops t regs mem ↔
      t.mode = .stepping ∧ B.steps t regs mem ∨ t.mode = .running ∧ B.runs t regs mem := by
  unfold stops
  cases t.mode <;> simp

/-- A request that no kernel can grant: memory that is not mapped, a wait
for a target that is not running. -/
def Impossible (t : Target) : Request → Prop
  | .peekData _ addr | .pokeData _ addr _ => t.word addr = none
  | .waitpid p _ => p = pid ∧ (t.mode = .stopped ∨ t.mode = .gone)
  | _ => False

def Refusable (t : Target) (r : Request) : Prop := B.refuses t r ∨ Impossible pid t r

/-- What a granted request may reply; one that is refused changes nothing. -/
def replies (t t' : Target) (r : Request) {α : Type} (granted : α → Prop) : Reply α → Prop
  | .ok a => granted a
  | .error _ => Refusable pid B t r ∧ t' = t

/-- What a wait for the traced thread finds. -/
def waited (t t' : Target) (status : Status) : Prop :=
  if WIFSTOPPED status then ∃ regs mem, B.stops t regs mem ∧ t' = t.stopAt regs mem
  else t' = t.resume .gone

/-- One exchange with the kernel. The requests that concern neither the target nor
`probe_` change nothing and may have any reply. -/
def kernelStep (t : Target) (r : Request) : r.Rep → Target → Prop :=
  match r with
  | .getRegs p => fun rep t' =>
      replies pid B t t' (.getRegs p) (fun regs => regs = t.regs ∧ t' = t.report) rep
  | .setRegs p regs => fun rep t' =>
      replies pid B t t' (.setRegs p regs) (fun _ => t' = t.setRegs regs) rep
  | .peekData p addr => fun rep t' =>
      replies pid B t t' (.peekData p addr) (fun data => t.word addr = some data ∧ t' = t) rep
  | .pokeData p addr data => fun rep t' =>
      replies pid B t t' (.pokeData p addr data)
        (fun _ => (t.word addr).isSome ∧ t' = t.poke addr data) rep
  | .singleStep p => fun rep t' =>
      replies pid B t t' (.singleStep p) (fun _ => t' = t.resume .stepping) rep
  | .cont p => fun rep t' =>
      replies pid B t t' (.cont p) (fun _ => t' = t.resume .running) rep
  | .attach p => fun rep t' =>
      replies pid B t t' (.attach p) (fun _ => t' = t.hold p) rep
  | .detach p => fun rep t' =>
      replies pid B t t' (.detach p)
        (fun _ => t' = if p = pid then t.resume .gone else t.release p) rep
  | .waitpid p options => fun rep t' =>
      replies pid B t t' (.waitpid p options)
        (fun x => B.tells t p x ∧ if p = pid then waited B t t' x.2 else t' = t) rep
  | .opendir path => fun
      | true, t' => ∃ dir, B.lists t dir ∧ t' = t.openDir dir
      | false, t' => B.refuses t (.opendir path) ∧ t' = t
  | .readdir => fun rep t' => rep = t.dir.head? ∧ t' = t.openDir t.dir.tail
  | .probe => fun rep t' => rep = t.probe ∧ t' = t
  | .setProbe page => fun _ t' => t' = t.setProbe page
  | _ => fun _ t' => t' = t

/-- What a statement requires where registers are written, and where the target is
let go. -/
structure Guard where
  setRegs : Target → UserRegs → Prop := fun _ _ => True
  detach : Target → Prop := fun _ => True

variable (G : Guard)

def Guard.permits (t : Target) : Request → Prop
  | .setRegs _ regs => G.setRegs t regs
  | .detach p => p = pid → G.detach t
  | _ => True

def kernel : Env sys Target := ⟨kernelStep pid B, G.permits pid⟩

end

/-- Requests about files and messages change nothing. -/
theorem kernel_foreign {pid : Pid} {B : Behaviour} {G : Guard} (r : Request) (hr : r.Foreign)
    (t : Target) : (kernel pid B G).permits t r ∧ ∀ x t', (kernel pid B G).step t r x t' → t' = t := by
  cases r <;> first | exact hr.elim | exact ⟨trivial, fun _ _ h => h⟩

/-- A kernel in which the target may do more. -/
theorem kernelStep_of_stops {pid : Pid} {B : Behaviour} {t t' : Target} {r : Request} {rep : r.Rep}
    {steps runs : Target → UserRegs → Memory → Prop}
    (hstops : ∀ regs mem, B.stops t regs mem →
      ({ B with steps := steps, runs := runs } : Behaviour).stops t regs mem)
    (h : kernelStep pid B t r rep t') :
    kernelStep pid { B with steps := steps, runs := runs } t r rep t' := by
  cases r with
  | waitpid p options =>
      cases rep with
      | error e => exact h
      | ok x =>
          refine ⟨h.1, ?_⟩
          have hwaited := h.2
          split_ifs at hwaited ⊢ with hp
          · unfold waited at hwaited ⊢
            split_ifs at hwaited ⊢ with hstopped
            · obtain ⟨regs, mem, hstop, rfl⟩ := hwaited
              exact ⟨regs, mem, hstops regs mem hstop, rfl⟩
            · exact hwaited
          · exact hwaited
  | _ => exact h

/-! ### Requests -/

section Requests

variable {pid : Pid} {B : Behaviour} {G : Guard} {t : Target}

/-- A request whose failure is thrown: what holds after a granted one and
what holds after a refused one. -/
theorem wp_orThrow {α : Type} {Q : Outcome Exception α → Target → Prop} {r : Request}
    {what : Bytes → Bytes} {granted : Target → α → Prop}
    (hok : ∀ a t', granted t' a → Q (.ok a) t')
    (herr : Refusable pid B t r → ∀ what, Q (.error (.ptrace what)) t) (rep : Reply α)
    (t' : Target) (h : replies pid B t t' r (granted t') rep) :
    wp (kernel pid B G) Q (orThrow (fun e => .ptrace (what e)) rep) t' := by
  cases rep with
  | ok a => exact hok a t' h
  | error e =>
      obtain ⟨href, rfl⟩ := h
      exact herr href (what e)

theorem wp_orThrow_bind {α β : Type} {Q : Outcome Exception β → Target → Prop} {r : Request}
    {what : Bytes → Bytes} {granted : Target → α → Prop} {f : α → Tracer β}
    (hok : ∀ a t', granted t' a → wp (kernel pid B G) Q (f a) t')
    (herr : Refusable pid B t r → ∀ what, Q (.error (.ptrace what)) t) (rep : Reply α)
    (t' : Target) (h : replies pid B t t' r (granted t') rep) :
    wp (kernel pid B G) Q ((orThrow (fun e => .ptrace (what e)) rep).bind f) t' := by
  refine wp_bind.mpr (wp_orThrow ?_ ?_ rep t' h)
  · exact hok
  · exact herr

theorem wp_getRegs {Q : Outcome Exception UserRegs → Target → Prop}
    (hok : Q (.ok t.regs) t.report)
    (herr : Refusable pid B t (.getRegs pid) → ∀ what, Q (.error (.ptrace what)) t) :
    wp (kernel pid B G) Q (ptraceGetRegs pid) t :=
  ⟨trivial, wp_orThrow (by rintro _ _ ⟨rfl, rfl⟩; exact hok) herr⟩

theorem wp_setRegs {Q : Outcome Exception Unit → Target → Prop} {regs : UserRegs}
    (hguard : G.setRegs t regs) (hok : Q (.ok ()) (t.setRegs regs))
    (herr : Refusable pid B t (.setRegs pid regs) → ∀ what, Q (.error (.ptrace what)) t) :
    wp (kernel pid B G) Q (ptraceSetRegs pid regs) t :=
  ⟨hguard, wp_orThrow (by rintro _ _ rfl; exact hok) herr⟩

theorem wp_peek {Q : Outcome Exception Word → Target → Prop} {addr : Word}
    (hok : ∀ data, t.word addr = some data → Q (.ok data) t)
    (herr : Refusable pid B t (.peekData pid addr) → ∀ what, Q (.error (.ptrace what)) t) :
    wp (kernel pid B G) Q (ptracePeek pid addr) t :=
  ⟨trivial, wp_orThrow (by rintro data _ ⟨hdata, rfl⟩; exact hok data hdata) herr⟩

theorem wp_poke {Q : Outcome Exception Unit → Target → Prop} {addr data : Word}
    (hok : (t.word addr).isSome → Q (.ok ()) (t.poke addr data))
    (herr : Refusable pid B t (.pokeData pid addr data) → ∀ what, Q (.error (.ptrace what)) t) :
    wp (kernel pid B G) Q (ptracePoke pid addr data) t :=
  ⟨trivial, wp_orThrow (by rintro _ _ ⟨hmapped, rfl⟩; exact hok hmapped) herr⟩

theorem wp_cont {Q : Outcome Exception Unit → Target → Prop} (hok : Q (.ok ()) (t.resume .running))
    (herr : Refusable pid B t (.cont pid) → ∀ what, Q (.error (.ptrace what)) t) :
    wp (kernel pid B G) Q (ptraceCont pid) t :=
  ⟨trivial, wp_orThrow (by rintro _ _ rfl; exact hok) herr⟩

theorem wp_detach_child {Q : Outcome Exception Unit → Target → Prop} {tid : Pid} (hne : tid ≠ pid)
    (hok : Q (.ok ()) (t.release tid))
    (herr : Refusable pid B t (.detach tid) → ∀ what, Q (.error (.ptrace what)) t) :
    wp (kernel pid B G) Q (ptraceDetach tid) t := by
  refine ⟨fun h => absurd h hne, wp_orThrow ?_ herr⟩
  rintro _ t' h
  rw [if_neg hne] at h
  exact h ▸ hok

theorem wp_probe {α : Type} {Q : Outcome Exception α → Target → Prop} {f : Word → Tracer α}
    (h : wp (kernel pid B G) Q (f t.probe) t) :
    wp (kernel pid B G) Q ((ask .probe).bind f) t := by
  refine ⟨trivial, ?_⟩
  rintro _ _ ⟨rfl, rfl⟩
  exact h

theorem wp_setProbe {α : Type} {Q : Outcome Exception α → Target → Prop} {page : Word}
    {f : Unit → Tracer α} (h : wp (kernel pid B G) Q (f ()) (t.setProbe page)) :
    wp (kernel pid B G) Q ((ask (.setProbe page)).bind f) t := by
  refine ⟨trivial, ?_⟩
  rintro _ _ rfl
  exact h

/-! ### Child threads -/

/-- The loop over a directory is a function of what the directory lists. -/
def scanNames : ℕ → List Bytes → List Pid → Outcome Exception (List Pid)
  | 0, _, _ => .cut
  | _ + 1, [], tids => .ok tids
  | n + 1, name :: names, tids =>
      if name ≠ text "." ∧ name ≠ text ".." then
        match stoi name with
        | .ok tid => scanNames n names (tids ++ [tid])
        | .error what => .error (.other what)
      else
        scanNames n names tids

theorem wp_scanNames {Q : Outcome Exception (List Pid) → Target → Prop} {n : ℕ} {tids : List Pid}
    (h : ∀ dir, Q (scanNames n t.dir tids) (t.openDir dir)) :
    wp (kernel pid B G) Q (Prog.forever listThreadsStep n tids) t := by
  induction n generalizing t tids with
  | zero => exact h t.dir
  | succ n ih =>
      refine wp_bind.mpr ⟨trivial, ?_⟩
      rintro rep t' ⟨rfl, rfl⟩
      cases hdir : t.dir with
      | nil =>
          rw [hdir] at h
          exact h []
      | cons name names =>
          rw [hdir] at h
          simp only [scanNames] at h
          change wp _ _ (if name ≠ text "." ∧ name ≠ text ".." then _ else _) (t.openDir names)
          split_ifs at h ⊢ with hname
          · cases hstoi : stoi name with
            | ok tid =>
                simp only [hstoi] at h
                exact ih (t := t.openDir names) h
            | error what =>
                simp only [hstoi] at h
                exact h names
          · exact ih (t := t.openDir names) h

theorem wp_listThreads {Q : Outcome Exception (List Pid) → Target → Prop} {fuel : ℕ}
    (hopen : ∀ path, B.refuses t (.opendir path) → ∀ what, Q (.error (.ptrace what)) t)
    (hscan : ∀ names, B.lists t names → ∀ dir, Q (scanNames fuel names []) (t.openDir dir)) :
    wp (kernel pid B G) Q (listThreads fuel pid) t := by
  refine ⟨trivial, fun rep t' h => ?_⟩
  cases rep with
  | true =>
      obtain ⟨names, hnames, rfl⟩ := h
      exact wp_scanNames (t := t.openDir names) (hscan names hnames)
  | false =>
      obtain ⟨href, rfl⟩ := h
      exact hopen _ href _

/-- Nothing but the hold on child threads differs. -/
def ThreadsOnly (t t' : Target) : Prop := ∃ held dir, t' = { t with held := held, dir := dir }

theorem ThreadsOnly.refl (t : Target) : ThreadsOnly t t := ⟨t.held, t.dir, rfl⟩

theorem ThreadsOnly.trans {t t' t'' : Target} (h : ThreadsOnly t t') (h' : ThreadsOnly t' t'') :
    ThreadsOnly t t'' := by
  obtain ⟨held, dir, rfl⟩ := h
  obtain ⟨held', dir', rfl⟩ := h'
  exact ⟨held', dir', rfl⟩

theorem ThreadsOnly.hold (t : Target) (tid : Pid) : ThreadsOnly t (t.hold tid) := ⟨_, t.dir, rfl⟩

theorem ThreadsOnly.release (t : Target) (tid : Pid) : ThreadsOnly t (t.release tid) :=
  ⟨_, t.dir, rfl⟩

theorem ThreadsOnly.openDir (t : Target) (dir : List Bytes) : ThreadsOnly t (t.openDir dir) :=
  ⟨t.held, _, rfl⟩

/-- A name that `std::stoi` reads, or one that is skipped. -/
def Listable (name : Bytes) : Prop :=
  name = text "." ∨ name = text ".." ∨ ∃ tid, stoi name = .ok tid

theorem scanNames_ne_error {n : ℕ} {names : List Bytes} {tids : List Pid}
    (h : ∀ name ∈ names, Listable name) (e : Exception) : scanNames n names tids ≠ .error e := by
  induction n generalizing names tids with
  | zero => exact nofun
  | succ n ih =>
      cases names with
      | nil => exact nofun
      | cons name names =>
          obtain ⟨hname, hnames⟩ := List.forall_mem_cons.mp h
          rw [scanNames]
          split_ifs with hskip
          · obtain ⟨tid, hstoi⟩ := (hname.resolve_left hskip.1).resolve_left hskip.2
            rw [hstoi]
            exact ih hnames
          · exact ih hnames

theorem scanNames_ne_cut {n : ℕ} {names : List Bytes} {tids : List Pid} (h : names.length < n) :
    scanNames n names tids ≠ .cut := by
  induction n generalizing names tids with
  | zero => contradiction
  | succ n ih =>
      cases names with
      | nil => exact nofun
      | cons name names =>
          have hlen : names.length < n := Nat.lt_of_succ_lt_succ h
          rw [scanNames]
          split_ifs
          · cases stoi name with
            | ok tid => exact ih hlen
            | error what => exact nofun
          · exact ih hlen

theorem scanNames_ne_abort {n : ℕ} {names : List Bytes} {tids : List Pid} :
    scanNames n names tids ≠ .abort := by
  induction n generalizing names tids with
  | zero => exact nofun
  | succ n ih =>
      cases names with
      | nil => exact nofun
      | cons name names =>
          rw [scanNames]
          split_ifs
          · cases stoi name with
            | ok tid => exact ih
            | error what => exact nofun
          · exact ih

/-- Whatever becomes of the child threads, every request is granted and every
name listed is read. -/
structure Behaviour.Calm (B : Behaviour) (t : Target) : Prop where
  willing : ∀ t', ThreadsOnly t t' → ∀ r, ¬ B.refuses t' r
  listable : ∀ names, B.lists t names → ∀ name ∈ names, Listable name

/-- How a loop over the child threads ends. -/
def ThreadsPost (B : Behaviour) (fuel : ℕ) (smooth : Prop) (t : Target) {α : Type}
    (o : Outcome Exception α) (t' : Target) : Prop :=
  ThreadsOnly t t' ∧ o ≠ .abort ∧ (smooth → ∀ e, o ≠ .error e) ∧
    ((∀ names, B.lists t names → names.length < fuel) → o ≠ .cut)

theorem wp_eachChild {fuel : ℕ} {op : Pid → Tracer Unit} {smooth : Prop}
    (hcalm : smooth → B.Calm t)
    (hop : ∀ tid ≠ pid, ∀ t', ThreadsOnly t t' → wp (kernel pid B G)
      (fun o t'' => ThreadsOnly t' t'' ∧ o ≠ .abort ∧ o ≠ .cut ∧ (smooth → ∀ e, o ≠ .error e))
      (op tid) t') :
    wp (kernel pid B G) (ThreadsPost B fuel smooth t)
      ((listThreads fuel pid).bind fun tids =>
        tids.forM fun tid => if tid ≠ pid then op tid else pure ()) t := by
  refine wp_bind.mpr (wp_listThreads (fun path href what => ?_) fun names hnames dir => ?_)
  · refine ⟨.refl t, nofun, fun hs => ?_, nofun⟩
    exact absurd href ((hcalm hs).willing t (.refl t) _)
  · have hcut : (∀ names, B.lists t names → names.length < fuel) →
        scanNames fuel names [] ≠ .cut := fun hshort => scanNames_ne_cut (hshort names hnames)
    have herr : smooth → ∀ e, scanNames fuel names [] ≠ .error e := fun hs =>
      scanNames_ne_error ((hcalm hs).listable names hnames)
    cases hscan : scanNames fuel names [] with
    | error e => exact ⟨.openDir t dir, nofun, fun hs _ => absurd hscan (herr hs e), nofun⟩
    | abort => exact absurd hscan scanNames_ne_abort
    | cut => exact ⟨.openDir t dir, nofun, nofun, fun hshort => absurd hscan (hcut hshort)⟩
    | ok tids =>
        -- What an operation on one thread leaves is all the next one needs.
        refine wp_forM (fun _ => ThreadsOnly t) (fun t' ht' => ⟨ht', nofun, nofun, nofun⟩) ?_
          (.openDir t dir)
        intro tid tids t' ht'
        split_ifs with hne
        · refine wp_mono (fun o t'' h => ?_) (hop tid hne t' ht')
          obtain ⟨ht'', habort, hcut, herr⟩ := h
          cases o with
          | ok => exact ht'.trans ht''
          | error e => exact ⟨ht'.trans ht'', nofun, fun hs _ => absurd rfl (herr hs e), nofun⟩
          | abort => contradiction
          | cut => contradiction
        · exact ht'

theorem wp_resumeChildThreads {fuel : ℕ} :
    wp (kernel pid B G) (ThreadsPost B fuel (B.Calm t) t) (resumeChildThreads fuel pid) t := by
  refine wp_eachChild id fun tid hne t' ht' => wp_detach_child hne ?_ fun href what => ?_
  · exact ⟨.release t' tid, nofun, nofun, nofun⟩
  · refine ⟨.refl t', nofun, nofun, fun hcalm => ?_⟩
    exact absurd href (not_or.mpr ⟨hcalm.willing t' ht' _, id⟩)

/-- Besides, every child thread that is attached stops. -/
def Behaviour.Obedient (B : Behaviour) (pid : Pid) (t : Target) : Prop :=
  B.Calm t ∧ ∀ t', ThreadsOnly t t' → ∀ tid ≠ pid, ∀ x, B.tells t' tid x →
    x.1 = tid ∧ WIFSTOPPED x.2 = true

/-- Attaching to a child thread: afterwards nothing else has changed, and it
fails only if a request is refused or the thread does not stop. -/
theorem wp_attach {Q : Outcome Exception Unit → Target → Prop} {tid : Pid} (hne : tid ≠ pid)
    (hok : ∀ t', ThreadsOnly t t' → Q (.ok ()) t')
    (herr : ∀ t', ThreadsOnly t t' → ∀ what, ((∃ r, B.refuses t' r) ∨
      ∃ x, B.tells t' tid x ∧ ¬ (x.1 = tid ∧ WIFSTOPPED x.2 = true)) →
      Q (.error (.ptrace what)) t') :
    wp (kernel pid B G) Q (ptraceAttach tid) t := by
  refine ⟨trivial, wp_orThrow_bind ?_ fun href what => ?_⟩
  · rintro _ _ rfl
    have hhold := ThreadsOnly.hold t tid
    refine ⟨trivial, wp_orThrow_bind ?_ fun href what => ?_⟩
    · rintro ⟨progeny, status⟩ t' ⟨htells, ht'⟩
      rw [if_neg hne] at ht'
      subst ht'
      simp only
      split_ifs with hwrong
      · refine ⟨trivial, ?_⟩
        rintro e _ rfl
        refine herr _ hhold _ (.inr ⟨_, htells, ?_⟩)
        simpa only [not_and_or] using hwrong
      · exact hok _ hhold
    · exact herr _ hhold _ (.inl ⟨_, href.resolve_right fun h => hne h.1⟩)
  · exact herr t (.refl t) _ (.inl ⟨_, href.resolve_right id⟩)

theorem wp_pauseChildThreads {fuel : ℕ} :
    wp (kernel pid B G) (ThreadsPost B fuel (B.Obedient pid t) t) (pauseChildThreads fuel pid) t := by
  refine wp_eachChild And.left fun tid hne t' ht' => wp_attach hne ?_ ?_
  · exact fun t'' ht'' => ⟨ht'', nofun, nofun, nofun⟩
  · intro t'' ht'' what hwrong
    refine ⟨ht'', nofun, nofun, fun hobedient => ?_⟩
    rcases hwrong with ⟨r, href⟩ | ⟨x, htells, hx⟩
    · exact absurd href (hobedient.1.willing _ (ht'.trans ht'') r)
    · exact absurd (hobedient.2 _ (ht'.trans ht'') tid hne x htells) hx

/-! ### Waiting -/

/-- The status of a thread stopped by `SIGTRAP`. -/
def trapped : Status := 0x57f

/-- One pass of the loop of `DoWait`. -/
theorem wp_doWaitStep {Q : Outcome Exception (Unit ⊕ Status) → Target → Prop}
    (hrefused : Refusable pid B t (.waitpid pid 0) → ∀ what, Q (.error (.ptrace what)) t)
    (habort : ∀ x, B.tells t pid x → x.1 ≠ pid → ∀ t', Q .abort t')
    (htrap : ∀ status, B.tells t pid (pid, status) → WSTOPSIG status = SIGTRAP →
      ∀ regs mem, B.stops t regs mem → Q (.ok (.inr status)) (t.stopAt regs mem))
    (hchild : ∀ status, B.tells t pid (pid, status) → WIFSTOPPED status = true →
      WSTOPSIG status = SIGCHLD →
      ∀ regs mem, B.stops t regs mem → Q (.ok (.inl ())) ((t.stopAt regs mem).resume .running))
    (hother : ∀ status, B.tells t pid (pid, status) → WSTOPSIG status ≠ SIGTRAP →
      ∀ regs mem, B.stops t regs mem → ∀ what, Q (.error (.ptrace what)) (t.stopAt regs mem))
    (hgone : ∀ status, B.tells t pid (pid, status) → WIFSTOPPED status = false →
      ∀ e, Q (.error e) (t.resume .gone)) :
    wp (kernel pid B G) Q (doWaitStep pid 0 ()) t := by
  refine ⟨trivial, wp_orThrow_bind ?_ hrefused⟩
  rintro ⟨progeny, status⟩ t' ⟨htells, ht'⟩
  rw [if_pos rfl, waited] at ht'
  simp only [waitStatus]
  by_cases hne : progeny ≠ pid
  · rw [if_pos hne]
    exact habort _ htells hne t'
  obtain rfl := not_not.mp hne
  rw [if_neg hne]
  by_cases hstopped : WIFSTOPPED status = true
  · rw [if_pos hstopped] at ht' ⊢
    obtain ⟨regs, mem, hstops, rfl⟩ := ht'
    by_cases hsig : WSTOPSIG status = SIGTRAP
    · rw [if_pos hsig]
      exact htrap status htells hsig regs mem hstops
    rw [if_neg hsig]
    have herr := hother status htells hsig regs mem hstops
    -- Any other signal is an error, as is a `SIGCHLD` that cannot be passed on.
    by_cases hchld : WSTOPSIG status = SIGCHLD
    · rw [if_pos hchld]
      exact wp_bind.mpr (wp_cont (hchild status htells hstopped hchld regs mem hstops) fun _ => herr)
    · rw [if_neg hchld]
      exact herr _
  · have hrunning : WIFSTOPPED status = false := by simpa using hstopped
    rw [if_neg hstopped] at ht' ⊢
    subst ht'
    split_ifs
    · exact hgone status htells hrunning _
    · exact hgone status htells hrunning _

/-- `DoWait` with an invariant: `I` while the target runs, `J` where it has
stopped. -/
theorem wp_doWait {Q : Outcome Exception Status → Target → Prop} {fuel : ℕ}
    (I J : Target → Prop)
    (hstop : ∀ t, I t → ∀ regs mem, B.stops t regs mem → J (t.stopAt regs mem))
    (hchild : ∀ t, I t → ∀ status, B.tells t pid (pid, status) → WIFSTOPPED status = true →
      WSTOPSIG status = SIGCHLD →
      ∀ regs mem, B.stops t regs mem → I ((t.stopAt regs mem).resume .running))
    (hok : ∀ status t, J t → Q (.ok status) t)
    (hfailed : ∀ e t, I t ∨ J t → Q (.error e) t)
    (hgone : ∀ e t, I t → Q (.error e) (t.resume .gone))
    (habort : ∀ t, Q .abort t) (hcut : ∀ t, Q .cut t) (hI : I t) :
    wp (kernel pid B G) Q (doWait fuel pid 0) t := by
  refine wp_forever (fun _ => I) (fun _ t _ => hcut t) (fun _ t hI => ?_) fuel () hI
  refine wp_doWaitStep (fun _ what => hfailed _ t (.inl hI)) (fun _ _ _ => habort) ?_ ?_
    ?_ ?_
  · exact fun status _ _ regs mem hstops => hok status _ (hstop t hI regs mem hstops)
  · exact fun status htells hstopped hsig => hchild t hI status htells hstopped hsig
  · exact fun status _ _ regs mem hstops what => hfailed _ _ (.inr (hstop t hI regs mem hstops))
  · exact fun status _ _ e => hgone e t hI

/-- Where a wait is told of a trap and nothing else, it takes one pass. -/
theorem wp_doWait_trapped {Q : Outcome Exception Status → Target → Prop} {fuel : ℕ}
    (htells : ∀ x, B.tells t pid x → x = (pid, trapped))
    (hrefused : ¬ Refusable pid B t (.waitpid pid 0))
    (hok : ∀ regs mem, B.stops t regs mem → Q (.ok trapped) (t.stopAt regs mem)) :
    wp (kernel pid B G) Q (doWait (fuel + 1) pid 0) t := by
  have hstatus : ∀ status, B.tells t pid (pid, status) → status = trapped := fun status h =>
    (Prod.mk.inj (htells _ h)).2
  refine wp_bind.mpr (wp_doWaitStep (fun h => absurd h hrefused) ?_ ?_ ?_ ?_ ?_)
  · exact fun x hx hne => absurd (congrArg Prod.fst (htells x hx)) hne
  · intro status h _ regs mem hstops
    obtain rfl := hstatus status h
    exact hok regs mem hstops
  · intro status h _ hsig
    obtain rfl := hstatus status h
    exact absurd hsig (by decide)
  · intro status h hsig
    obtain rfl := hstatus status h
    exact absurd rfl hsig
  · intro status h hstopped
    obtain rfl := hstatus status h
    exact absurd hstopped (by decide)

theorem wp_singleStep {Q : Outcome Exception Unit → Target → Prop} {fuel : ℕ}
    (hwait : wp (kernel pid B G) (onOk Q fun _ => Q (.ok ())) (doWait fuel pid 0) (t.resume .stepping))
    (herr : Refusable pid B t (.singleStep pid) → ∀ what, Q (.error (.ptrace what)) t) :
    wp (kernel pid B G) Q (ptraceSingleStep fuel pid) t := by
  refine ⟨trivial, wp_orThrow_bind ?_ herr⟩
  rintro _ _ rfl
  exact wp_bind.mpr hwait

end Requests

/-! ### A target that can be run -/

/-- A kernel and a target that leave nothing open. -/
structure Machine where
  pid : Pid
  refuses : Target → Request → Bool := fun _ _ => false
  names : List Bytes := []
  /-- What a wait for the traced thread is told. Its other threads stop when
  they are attached to. -/
  status : Target → Status := fun _ => trapped
  steps : Target → UserRegs × Memory
  runs : Target → UserRegs × Memory

namespace Machine

variable (M : Machine)

def tells (t : Target) (p : Pid) : Pid × Status := (p, if p = M.pid then M.status t else 0x137f)

def behaviour : Behaviour where
  refuses t r := M.refuses t r = true
  lists _ dir := dir = M.names
  tells t p x := x = M.tells t p
  steps t regs mem := (regs, mem) = M.steps t
  runs t regs mem := (regs, mem) = M.runs t

/-- Grant a request unless the kernel refuses it. -/
def grant (t : Target) (r : Request) {α : Type} (granted : Option (α × Target)) :
    Reply α × Target :=
  match granted with
  | some (a, t') => if M.refuses t r then (.error [], t) else (.ok a, t')
  | none => (.error [], t)

def wait (t : Target) (p : Pid) : Option ((Pid × Status) × Target) :=
  if p = M.pid then
    if WIFSTOPPED (M.status t) then
      match t.mode with
      | .stepping => some (M.tells t p, t.stopAt (M.steps t).1 (M.steps t).2)
      | .running => some (M.tells t p, t.stopAt (M.runs t).1 (M.runs t).2)
      | .stopped | .gone => none
    else
      match t.mode with
      | .stepping | .running => some (M.tells t p, t.resume .gone)
      | .stopped | .gone => none
  else some (M.tells t p, t)

def handler : Handler sys Target := fun r t =>
  match r with
  | .getRegs p => M.grant t (.getRegs p) (some (t.regs, t.report))
  | .setRegs p regs => M.grant t (.setRegs p regs) (some ((), t.setRegs regs))
  | .peekData p addr => M.grant t (.peekData p addr) ((t.word addr).map fun data => (data, t))
  | .pokeData p addr data =>
      M.grant t (.pokeData p addr data) ((t.word addr).map fun _ => ((), t.poke addr data))
  | .singleStep p => M.grant t (.singleStep p) (some ((), t.resume .stepping))
  | .cont p => M.grant t (.cont p) (some ((), t.resume .running))
  | .attach p => M.grant t (.attach p) (some ((), t.hold p))
  | .detach p =>
      M.grant t (.detach p) (some ((), if p = M.pid then t.resume .gone else t.release p))
  | .waitpid p options => M.grant t (.waitpid p options) (M.wait t p)
  | .opendir path => if M.refuses t (.opendir path) then (false, t) else (true, t.openDir M.names)
  | .readdir => (t.dir.head?, t.openDir t.dir.tail)
  | .probe => (t.probe, t)
  | .setProbe page => ((), t.setProbe page)
  | r => (refuse r, t)

theorem grant_eq_ok {t t' : Target} {r : Request} {α : Type} {x : Option (α × Target)} {a : α}
    (h : M.grant t r x = (.ok a, t')) : M.refuses t r = false ∧ x = some (a, t') := by
  cases x with
  | none => cases h
  | some y =>
      obtain ⟨b, t''⟩ := y
      simp only [grant] at h
      split_ifs at h with href
      · cases h
      · obtain ⟨hb, rfl⟩ := Prod.mk.inj h
        exact ⟨Bool.eq_false_iff.mpr href, by rw [Except.ok.inj hb]⟩

theorem grant_replies {t : Target} {r : Request} {α : Type} {x : Option (α × Target)}
    (granted : α → Target → Prop) (hok : ∀ a t', x = some (a, t') → granted a t')
    (hnone : x = none → Impossible M.pid t r) :
    replies M.pid M.behaviour t (M.grant t r x).2 r (fun a => granted a (M.grant t r x).2)
      (M.grant t r x).1 := by
  cases x with
  | none => exact ⟨.inr (hnone rfl), rfl⟩
  | some y =>
      obtain ⟨a, t'⟩ := y
      simp only [grant]
      split_ifs with href
      · exact ⟨.inl href, rfl⟩
      · exact hok a t' rfl

theorem wait_told {t t' : Target} {p : Pid} {y : Pid × Status} (h : M.wait t p = some (y, t')) :
    M.behaviour.tells t p y ∧ if p = M.pid then waited M.behaviour t t' y.2 else t' = t := by
  by_cases hp : p = M.pid
  · have htells : (M.tells t p).2 = M.status t := by simp [tells, hp]
    rw [wait, if_pos hp] at h
    rw [if_pos hp, waited, Behaviour.stops]
    by_cases hstopped : WIFSTOPPED (M.status t) = true
    · rw [if_pos hstopped] at h
      -- Only a thread that runs has anything to tell.
      cases hmode : t.mode with
      | stepping | running =>
          rw [hmode] at h
          cases h
          rw [htells, if_pos hstopped]
          exact ⟨rfl, _, _, rfl, rfl⟩
      | stopped | gone => simp [hmode] at h
    · rw [if_neg hstopped] at h
      cases hmode : t.mode with
      | stepping | running =>
          rw [hmode] at h
          cases h
          rw [htells, if_neg hstopped]
          exact ⟨rfl, rfl⟩
      | stopped | gone => simp [hmode] at h
  · rw [wait, if_neg hp] at h
    cases h
    rw [if_neg hp]
    exact ⟨rfl, rfl⟩

theorem wait_none {t : Target} {p : Pid} (h : M.wait t p = none) :
    p = M.pid ∧ (t.mode = .stopped ∨ t.mode = .gone) := by
  by_cases hp : p = M.pid
  · refine ⟨hp, ?_⟩
    rw [wait, if_pos hp] at h
    cases hmode : t.mode with
    | stepping | running => rw [hmode] at h; split at h <;> contradiction
    | stopped => exact .inl rfl
    | gone => exact .inr rfl
  · rw [wait, if_neg hp] at h
    contradiction

/-- The machine does what the kernel may do. -/
theorem handler_step (t : Target) (r : Request) :
    kernelStep M.pid M.behaviour t r (M.handler r t).1 (M.handler r t).2 := by
  have always : ∀ {α : Type} {r : Request} {a : α} {t' : Target} (granted : α → Target → Prop),
      granted a t' → replies M.pid M.behaviour t (M.grant t r (some (a, t'))).2 r
        (fun b => granted b (M.grant t r (some (a, t'))).2) (M.grant t r (some (a, t'))).1 :=
    fun granted h => M.grant_replies granted (by rintro _ _ ⟨⟩; exact h) nofun
  cases r with
  | getRegs p => exact always (fun regs t' => regs = t.regs ∧ t' = t.report) ⟨rfl, rfl⟩
  | setRegs p regs => exact always (fun _ t' => t' = t.setRegs regs) rfl
  | singleStep p => exact always (fun _ t' => t' = t.resume .stepping) rfl
  | cont p => exact always (fun _ t' => t' = t.resume .running) rfl
  | attach p => exact always (fun _ t' => t' = t.hold p) rfl
  | detach p =>
      exact always (fun _ t' => t' = if p = M.pid then t.resume .gone else t.release p) rfl
  | peekData p addr =>
      refine M.grant_replies (fun data t' => t.word addr = some data ∧ t' = t) ?_ ?_
      · rintro data t' h
        obtain ⟨w, hw, heq⟩ := Option.map_eq_some_iff.mp h
        cases heq
        exact ⟨hw, rfl⟩
      · exact Option.map_eq_none_iff.mp
  | pokeData p addr data =>
      refine M.grant_replies (fun _ t' => (t.word addr).isSome ∧ t' = t.poke addr data) ?_ ?_
      · rintro _ t' h
        obtain ⟨w, hw, heq⟩ := Option.map_eq_some_iff.mp h
        cases heq
        exact ⟨Option.isSome_of_eq_some hw, rfl⟩
      · exact Option.map_eq_none_iff.mp
  | waitpid p options =>
      exact M.grant_replies (fun x t' => M.behaviour.tells t p x ∧
        if p = M.pid then waited M.behaviour t t' x.2 else t' = t) (fun _ _ => M.wait_told) M.wait_none
  | opendir path =>
      have hopen : M.handler (.opendir path) t =
          if M.refuses t (.opendir path) then (false, t) else (true, t.openDir M.names) := rfl
      by_cases href : M.refuses t (.opendir path) = true
      · rw [hopen, if_pos href]
        exact ⟨href, rfl⟩
      · rw [hopen, if_neg href]
        exact ⟨M.names, rfl, rfl⟩
  | readdir => exact ⟨rfl, rfl⟩
  | probe => exact ⟨rfl, rfl⟩
  | _ => exact rfl

end Machine

/-- A target stopped at `0x400000` with all other registers zero. -/
def atWork : Target where
  regs :=
    { r15 := 0, r14 := 0, r13 := 0, r12 := 0, rbp := 0, rbx := 0, r11 := 0, r10 := 0, r9 := 0
      r8 := 0, rax := 0, rcx := 0, rdx := 0, rsi := 0, rdi := 0, orig_rax := 0, rip := 0x400000
      cs := 0, eflags := 0, rsp := 0, ss := 0, fs_base := 0, gs_base := 0, ds := 0, es := 0
      fs := 0, gs := 0 }
  mem := ofWords [(0x400000, 0x9090909090909090)]

end Pyflame
