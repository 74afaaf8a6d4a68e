import Mathlib.Logic.Relation
import Pyflame.Trampoline
import Pyflame.Wait

/-!
What a call into the target leaves of the stack.

Code for x86-64 may keep data in the 128 bytes below its stack pointer. The
registers of the thread are written back after a call, but the `CALL` of the
trampoline has pushed an address right below the stack pointer with which the
thread was interrupted.
-/

namespace Pyflame

open Interaction Relation

/-! ### Instructions -/

/-- What instructions work on. -/
abbrev Exec : Type := UserRegs × Memory

def Target.exec (t : Target) : Exec := (t.regs, t.mem)

namespace Exec

variable (x : Exec)

/-- The bytes at `rip`. -/
def code (n : ℕ) : Option Bytes := ByteMemory.bytes x.2 x.1.rip n

/-- `CALL rax`, an instruction of two bytes. -/
def call : Exec :=
  ({ x.1 with
      rip := x.1.rax
      rsp := x.1.rsp - 8 },
    pokeWord x.2 (x.1.rsp - 8) (x.1.rip + 2))

/-- `INT3`. -/
def trap : Exec := ({ x.1 with rip := x.1.rip + 1 }, x.2)

end Exec

/-- A processor. An instruction is a step unless it faults or traps. -/
structure Cpu where
  step : Exec → Exec → Prop
  call : ∀ x y, x.code 2 = some [0xff, 0xd0] → step x y →
    (peekWord x.2 (x.1.rsp - 8)).isSome ∧ y = x.call
  int3 : ∀ x y, x.code 1 = some [0xcc] → ¬ step x y

namespace Cpu

variable (C : Cpu)

/-- How far a thread that was resumed has come when a wait is told of a stop. Its trap
is that of `INT3`, or that of the single step; other signals may stop it anywhere. -/
def stops (t : Target) (status : Status) (x : Exec) : Prop :=
  match t.mode with
  | .stepping => if WSTOPSIG status = SIGTRAP then C.step t.exec x else x = t.exec
  | .running =>
      if WSTOPSIG status = SIGTRAP then
        ∃ y, ReflTransGen C.step t.exec y ∧ y.code 1 = some [0xcc] ∧ x = y.trap
      else ReflTransGen C.step t.exec x
  | .stopped | .gone => False

section

variable (pid : Pid) (B : Behaviour)

/-- The traced thread runs on the processor. -/
def executes (t : Target) (r : Request) : r.Rep → Target → Prop :=
  match r with
  | .waitpid p _ => fun rep t' => ∀ status, rep = .ok (p, status) → p = pid →
      WIFSTOPPED status = true → C.stops t status t'.exec
  | _ => fun _ _ => True

/-- The kernel with a target that runs on this processor. -/
def kernel : Env sys Target where
  step t r rep t' := kernelStep pid B t r rep t' ∧ C.executes pid t r rep t'
  permits _ _ := True

end

end Cpu

/-! ### Calls -/

/-- The memory of a target whose trampoline is ready. -/
structure AtTrampoline (s : Target) (page : Word) (m : Memory) : Prop where
  rest : ∀ a, ¬ onPage page a → m a = s.mem a
  code : ByteMemory.bytes m page 3 = some [0xff, 0xd0, 0xcc]

/-- Where a function at `addr` is entered. -/
def entered (s : Target) (page addr : Word) (m : Memory) : Exec :=
  Exec.call (callRegs s.regs addr page, m)

namespace Cpu

variable (C : Cpu)

/-- The `mmap` that would be injected returns `page`, a new page or an error, which is
not the address of anything. -/
def Mmaps (s : Target) (page : Word) : Prop :=
  ∀ y, C.step (mmapRegs s.regs, pokeWord s.mem s.regs.rip syscall_x86) y → y.1.rax = page ∧
    (Maps (pokeWord s.mem s.regs.rip syscall_x86) page y.2 ∨
      y.2 = pokeWord s.mem s.regs.rip syscall_x86 ∧ peekWord y.2 page = none)

/-- The trampoline is on `page`, or will be. -/
def Trampoline (s : Target) (page : Word) : Prop :=
  if s.probe = 0 then C.Mmaps s page else s.probe = page ∧ AtTrampoline s page s.mem

/-- From its entry to the trap the function at `addr` writes below its stack pointer only,
and `after` is what it leaves in memory. -/
structure Callee (s : Target) (page addr : Word) (after : Memory) : Prop where
  below : ∀ m, AtTrampoline s page m → ∀ x, ReflTransGen C.step (entered s page addr m) x →
    ∀ a, (s.regs.rsp - 8).toNat ≤ a.toNat → x.2 a = (entered s page addr m).2 a
  leaves : ∀ m, AtTrampoline s page m → ∀ x, ReflTransGen C.step (entered s page addr m) x →
    x.code 1 = some [0xcc] → ∀ a, ¬ onPage page a → x.2 a = after a

end Cpu

/-- No wait for a single step is told of a `SIGCHLD`. -/
def Unbroken (pid : Pid) (B : Behaviour) : Prop :=
  ∀ t status, t.mode = .stepping → B.tells t pid (pid, status) → WIFSTOPPED status = true →
    WSTOPSIG status ≠ SIGCHLD

/-- Nothing from the red zone on differs, the page of the trampoline apart. -/
def Untouched (s : Target) (page : Word) (t : Target) : Prop :=
  ∀ a, ¬ onPage page a → s.regs.rsp.toNat ≤ a.toNat + 128 → t.mem a = s.mem a

/-- The address that is pushed was there, and the function leaves the red zone below it
alone. -/
structure Spared (s : Target) (page : Word) (after : Memory) : Prop where
  pushed : ∀ a, ¬ onPage page a → (s.regs.rsp - 8).toNat ≤ a.toNat →
    pokeWord s.mem (s.regs.rsp - 8) (page + 2) a = s.mem a
  zone : ∀ a, ¬ onPage page a → s.regs.rsp.toNat ≤ a.toNat + 128 →
    a.toNat < (s.regs.rsp - 8).toNat → after a = s.mem a

/-! ### Memory -/

theorem pokeWord_outside (m : Memory) {addr data a : Word} (h : ¬ (a - addr).toNat < 8) :
    pokeWord m addr data a = m a :=
  ByteMemory.store_outside m (by simpa using h)

theorem pokeWord_offPage (m : Memory) {page data a : Word} (h : ¬ onPage page a) :
    pokeWord m page data a = m a :=
  pokeWord_outside m fun hlt => h (onPage_of_lt hlt (by decide))

/-- The old word is poked back. -/
theorem pokeWord_back {m m' : Memory} {addr data orig a : Word} (horig : peekWord m addr = some orig)
    (hrest : m' a = pokeWord m addr data a) : pokeWord m' addr orig a = m a := by
  apply ByteMemory.store_bytes
  · rw [wordBytes_length]
    exact peekWord_eq_some_iff.mp horig
  · intro hout
    rw [wordBytes_length] at hout
    rw [hrest, pokeWord_outside m hout]

theorem AtTrampoline.poke {s : Target} {page : Word} {m : Memory}
    (h : ∀ a, ¬ onPage page a → m a = s.mem a) :
    AtTrampoline s page (pokeWord m page trampoline) where
  rest a hoff := (pokeWord_offPage m hoff).trans (h a hoff)
  code := bytes_poke_trampoline m page

section

variable {s t : Target} {page addr : Word} {m after : Memory}

theorem AtTrampoline.call_code (h : AtTrampoline s page m) :
    Exec.code (callRegs s.regs addr page, m) 2 = some [0xff, 0xd0] := by
  have hcode := h.code
  rw [show (3 : ℕ) = 2 + 1 from rfl] at hcode
  exact (ByteMemory.bytes_split hcode).1

theorem AtTrampoline.not_trap (h : AtTrampoline s page m) :
    Exec.code (callRegs s.regs addr page, m) 1 ≠ some [0xcc] := by
  have hcode := h.code
  rw [show (3 : ℕ) = 1 + 2 from rfl] at hcode
  have hfirst : Exec.code (callRegs s.regs addr page, m) 1 = some [0xff] :=
    (ByteMemory.bytes_split hcode).1
  rw [hfirst]
  decide

/-- What is pushed is pushed onto the memory the target had. -/
theorem AtTrampoline.pushed (h : AtTrampoline s page m) {a : Word} (hoff : ¬ onPage page a) :
    (entered s page addr m).2 a = pokeWord s.mem (s.regs.rsp - 8) (page + 2) a := by
  show pokeWord m (s.regs.rsp - 8) (page + 2) a = _
  by_cases hin : (a - (s.regs.rsp - 8)).toNat < (wordBytes (page + 2)).length
  · rw [pokeWord, pokeWord, ByteMemory.store, ByteMemory.store, List.getElem?_eq_getElem hin,
      Option.some_or, Option.some_or]
  · rw [wordBytes_length] at hin
    rw [pokeWord_outside m hin, pokeWord_outside s.mem hin, h.rest a hoff]

/-- A thread that has come from the trampoline to a trap has been through the function. -/
theorem Cpu.Callee.called {C : Cpu} (h : C.Callee s page addr after) (hm : AtTrampoline s page m)
    {y : Exec} (hrun : ReflTransGen C.step (callRegs s.regs addr page, m) y)
    (htrap : y.code 1 = some [0xcc]) {a : Word} (hoff : ¬ onPage page a) :
    y.2 a = after a ∧ ((s.regs.rsp - 8).toNat ≤ a.toNat →
      after a = pokeWord s.mem (s.regs.rsp - 8) (page + 2) a) := by
  rcases hrun.cases_head with rfl | ⟨x, hstep, hrun⟩
  · exact absurd htrap hm.not_trap
  · obtain ⟨-, rfl⟩ := C.call _ _ hm.call_code hstep
    have hleaves := h.leaves m hm y hrun htrap a hoff
    refine ⟨hleaves, fun habove => ?_⟩
    rw [← hleaves, h.below m hm y hrun a habove, hm.pushed hoff]

/-- The addresses from the stack pointer of the function on are behind the start of the
red zone. -/
theorem le_of_entry_le {rsp a : Word} (h : (rsp - 8).toNat ≤ a.toNat) :
    rsp.toNat ≤ a.toNat + 128 := by
  rw [BitVec.toNat_sub] at h
  have h8 : (8 : Word).toNat = 8 := rfl
  have hlt := rsp.isLt
  omega

theorem untouched_iff_spared
    (h : ∀ a, ¬ onPage page a → t.mem a = after a ∧ ((s.regs.rsp - 8).toNat ≤ a.toNat →
      after a = pokeWord s.mem (s.regs.rsp - 8) (page + 2) a)) :
    Untouched s page t ↔ Spared s page after := by
  constructor
  · intro huntouched
    constructor
    · intro a hoff habove
      obtain ⟨hmem, hpushed⟩ := h a hoff
      rw [← hpushed habove, ← hmem]
      exact huntouched a hoff (le_of_entry_le habove)
    · intro a hoff hzone hbelow
      rw [← (h a hoff).1]
      exact huntouched a hoff hzone
  · intro hspared a hoff hzone
    obtain ⟨hmem, hpushed⟩ := h a hoff
    rw [hmem]
    rcases Nat.lt_or_ge a.toNat (s.regs.rsp - 8).toNat with hbelow | habove
    · exact hspared.zone a hoff hzone hbelow
    · rw [hpushed habove]
      exact hspared.pushed a hoff habove

end

/-! ### The routines -/

/-- Where a program returns, this holds. -/
def OnReturn {α : Type} (R : α → Target → Prop) (o : Outcome Exception α) (t : Target) : Prop :=
  ∀ a, o = .ok a → R a t

section

variable {α β : Type} {C : Cpu} {pid : Pid} {B : Behaviour} {fuel : ℕ} {s t : Target}
  {page addr : Word} {after : Memory}

theorem onReturn_error {R : α → Target → Prop} {e : Exception} : OnReturn R (.error e) t := nofun

theorem onReturn_abort {R : α → Target → Prop} : OnReturn R .abort t := nofun

theorem onReturn_cut {R : α → Target → Prop} : OnReturn R .cut t := nofun

theorem Cpu.wp_kernel {Q : Outcome Exception α → Target → Prop} {p : Tracer α}
    (h : wp (Pyflame.kernel pid B {}) Q p t) : wp (C.kernel pid B) Q p t :=
  wp_env (fun _ _ _ _ hstep => hstep.1) (fun _ _ _ => trivial) h

theorem wp_returned_bind {R : β → Target → Prop} {P : α → Target → Prop} {p : Tracer β}
    {f : β → Tracer α} (hp : wp (C.kernel pid B) (OnReturn R) p t)
    (hf : ∀ b t', R b t' → wp (C.kernel pid B) (OnReturn P) (f b) t') :
    wp (C.kernel pid B) (OnReturn P) (p.bind f) t := by
  apply wp_bind_of hp
  intro o t' ho
  cases o with
  | ok b => exact hf b t' (ho b rfl)
  | error => exact onReturn_error
  | abort => exact onReturn_abort
  | cut => exact onReturn_cut

theorem returned_getRegs : wp (C.kernel pid B)
    (OnReturn fun regs t' => regs = t.regs ∧ t' = t.report) (ptraceGetRegs pid) t := by
  apply Cpu.wp_kernel
  apply wp_getRegs
  · rintro _ ⟨⟩
    exact ⟨rfl, rfl⟩
  · exact fun _ _ => onReturn_error

theorem returned_setRegs (regs : UserRegs) : wp (C.kernel pid B)
    (OnReturn fun _ t' => t' = t.setRegs regs) (ptraceSetRegs pid regs) t := by
  apply Cpu.wp_kernel
  apply wp_setRegs trivial
  · exact fun _ _ => rfl
  · exact fun _ _ => onReturn_error

theorem returned_peek (addr : Word) : wp (C.kernel pid B)
    (OnReturn fun data t' => t.word addr = some data ∧ t' = t) (ptracePeek pid addr) t := by
  apply Cpu.wp_kernel
  apply wp_peek
  · rintro data hdata _ ⟨⟩
    exact ⟨hdata, rfl⟩
  · exact fun _ _ => onReturn_error

theorem returned_poke (addr data : Word) : wp (C.kernel pid B)
    (OnReturn fun _ t' => (t.word addr).isSome ∧ t' = t.poke addr data)
    (ptracePoke pid addr data) t := by
  apply Cpu.wp_kernel
  apply wp_poke
  · exact fun hmapped _ _ => ⟨hmapped, rfl⟩
  · exact fun _ _ => onReturn_error

theorem returned_cont : wp (C.kernel pid B)
    (OnReturn fun _ t' => t' = t.resume .running) (ptraceCont pid) t := by
  apply Cpu.wp_kernel
  apply wp_cont
  · exact fun _ _ => rfl
  · exact fun _ _ => onReturn_error

theorem returned_threads {p : Tracer Unit} {smooth : Prop}
    (h : wp (Pyflame.kernel pid B {}) (ThreadsPost B fuel smooth t) p t) :
    wp (C.kernel pid B) (OnReturn fun _ t' => ThreadsOnly t t') p t :=
  Cpu.wp_kernel (wp_mono (fun _ _ ho _ _ => ho.1) h)

theorem wp_returned_probe {P : α → Target → Prop} {f : Word → Tracer α}
    (h : wp (C.kernel pid B) (OnReturn P) (f t.probe) t) :
    wp (C.kernel pid B) (OnReturn P) ((ask .probe).bind f) t := by
  refine ⟨trivial, ?_⟩
  rintro _ _ ⟨⟨rfl, rfl⟩, -⟩
  exact h

theorem wp_returned_setProbe {P : α → Target → Prop} {f : Unit → Tracer α}
    (h : wp (C.kernel pid B) (OnReturn P) (f ()) (t.setProbe page)) :
    wp (C.kernel pid B) (OnReturn P) ((ask (.setProbe page)).bind f) t := by
  refine ⟨trivial, ?_⟩
  rintro _ _ ⟨rfl, -⟩
  exact h

/-- `DoWait` with what holds of the thread while it runs, and where it traps. -/
theorem returned_doWait {R : Target → Prop} (I : Target → Prop)
    (htrap : ∀ t, I t → ∀ status x, WSTOPSIG status = SIGTRAP → C.stops t status x →
      R (t.stopAt x.1 x.2))
    (hchild : ∀ t, I t → ∀ status x, B.tells t pid (pid, status) → WIFSTOPPED status = true →
      WSTOPSIG status = SIGCHLD → C.stops t status x → I ((t.stopAt x.1 x.2).resume .running))
    (hI : I t) :
    wp (C.kernel pid B) (OnReturn fun _ => R) (doWait fuel pid 0) t := by
  have hstop : ∀ {t t' : Target} {status : Status}, (C.kernel pid B).step t (.waitpid pid 0)
      (.ok (pid, status)) t' → WIFSTOPPED status = true →
      ∃ x : Exec, C.stops t status x ∧ t' = t.stopAt x.1 x.2 := by
    rintro t t' status ⟨⟨-, hwaited⟩, hexec⟩ hstopped
    rw [if_pos rfl, waited, if_pos hstopped] at hwaited
    obtain ⟨regs, mem, -, rfl⟩ := hwaited
    exact ⟨(regs, mem), hexec status rfl rfl hstopped, rfl⟩
  -- With the wait told of nothing but a stop, `SIGCHLD` is passed on and the thread runs again.
  have hrule : WaitRule (C.kernel pid B) pid 0 I (OnReturn fun _ => R) :=
    { cut := fun _ _ => onReturn_cut
      permits := fun _ _ => trivial
      failed := fun _ _ _ _ _ _ => onReturn_error
      stranger := fun _ _ _ _ _ _ _ => onReturn_abort
      trap := by
        rintro t status t' hI htold hstopped hsig _ _
        obtain ⟨x, hx, rfl⟩ := hstop htold hstopped
        exact htrap t hI status x hsig hx
      child := by
        intro t status t' hI htold hstopped hsig
        have htells := htold.1.1
        obtain ⟨x, hx, rfl⟩ := hstop htold hstopped
        refine ⟨trivial, ?_, fun _ _ _ _ => onReturn_error⟩
        rintro _ ⟨rfl, -⟩
        exact hchild t hI status x htells hstopped hsig hx
      signal := fun _ _ _ _ _ _ _ _ _ => onReturn_error
      exited := fun _ _ _ _ _ _ _ _ => onReturn_error
      died := fun _ _ _ _ _ _ _ _ => onReturn_error }
  exact hrule.wp_doWait fuel hI

/-- A single step that no `SIGCHLD` interrupts executes one instruction. -/
theorem returned_singleStep (hunbroken : Unbroken pid B) :
    wp (C.kernel pid B) (OnReturn fun _ t' => ∃ x, C.step t.exec x ∧
      t' = (t.resume .stepping).stopAt x.1 x.2) (ptraceSingleStep fuel pid) t := by
  have hwait : wp (C.kernel pid B) (OnReturn fun _ t' => ∃ x, C.step t.exec x ∧
      t' = (t.resume .stepping).stopAt x.1 x.2) (doWait fuel pid 0) (t.resume .stepping) := by
    apply returned_doWait (· = t.resume .stepping)
    · rintro _ rfl status x hsig hstops
      rw [Cpu.stops, if_pos hsig] at hstops
      exact ⟨x, hstops, rfl⟩
    · -- The other way round it would run on freely.
      rintro _ rfl status x htells hstopped hsig
      exact absurd hsig (hunbroken _ status rfl htells hstopped)
    · rfl
  refine ⟨trivial, ?_⟩
  intro rep t' hstep
  cases rep with
  | error e => exact onReturn_error
  | ok =>
      obtain rfl : t' = t.resume .stepping := hstep.1
      apply wp_returned_bind hwait
      intro status t' ht' _ _
      exact ht'

/-- `AllocPage` leaves the registers and all memory but the page as they were. -/
theorem returned_allocPage (hmmap : C.Mmaps s page) (hunbroken : Unbroken pid B)
    (ht : ThreadsOnly s t) :
    wp (C.kernel pid B) (OnReturn fun result t' => result = page ∧ t'.regs = s.regs ∧
      ∀ a, ¬ onPage page a → t'.mem a = s.mem a) (allocPage fuel pid) t := by
  have hsame : t.regs = s.regs ∧ t.mem = s.mem := by
    obtain ⟨held, dir, rfl⟩ := ht
    exact ⟨rfl, rfl⟩
  obtain ⟨hregs, hmem⟩ := hsame
  apply wp_returned_bind returned_getRegs
  rintro _ _ ⟨rfl, rfl⟩
  apply wp_returned_bind (returned_peek _)
  rintro orig_code _ ⟨horig, rfl⟩
  apply wp_returned_bind (returned_poke _ _)
  rintro _ _ ⟨-, rfl⟩
  apply wp_returned_bind (returned_setRegs _)
  rintro _ _ rfl
  apply wp_returned_bind (returned_singleStep hunbroken)
  rintro _ _ ⟨x, hstep, rfl⟩
  apply wp_returned_bind returned_getRegs
  rintro _ _ ⟨rfl, rfl⟩
  apply wp_returned_bind (returned_setRegs _)
  rintro _ _ rfl
  apply wp_returned_bind (returned_poke _ _)
  rintro _ _ ⟨-, rfl⟩
  rintro _ ⟨⟩
  -- The system call has been executed where the target was stopped.
  have hexec : C.step (mmapRegs s.regs, pokeWord s.mem s.regs.rip syscall_x86) x := by
    rw [← hregs, ← hmem]
    exact hstep
  obtain ⟨hrax, hmaps⟩ := hmmap x hexec
  refine ⟨hrax, hregs, fun a hoff => ?_⟩
  have hword : peekWord s.mem t.regs.rip = some orig_code := by
    rw [← hmem]
    exact horig
  have hrest : x.2 a = pokeWord s.mem t.regs.rip syscall_x86 a := by
    rw [hregs]
    -- Mapped or not, the rest of the memory is what it was with the system call in place.
    rcases hmaps with hmaps | ⟨hmem', -⟩
    · exact hmaps.rest a hoff
    · exact congrFun hmem' a
  exact pokeWord_back hword hrest

/-- The trampoline is set up, or there is no page for it. -/
theorem returned_setUpProbe (hpage : C.Trampoline s page) (hunbroken : Unbroken pid B) :
    wp (C.kernel pid B) (OnReturn fun ready t => match ready with
      | true => ¬ (s.probe = 0 ∧ page = MAP_FAILED) ∧ t.regs = s.regs ∧ t.probe = page ∧
          AtTrampoline s page t.mem
      | false => s.probe = 0 ∧ page = MAP_FAILED ∧ ∀ a, ¬ onPage page a → t.mem a = s.mem a)
      (setUpProbe fuel pid) s := by
  apply wp_returned_probe
  unfold Cpu.Trampoline at hpage
  split_ifs at hpage ⊢ with hzero
  · apply wp_returned_bind (returned_threads wp_pauseChildThreads)
    intro _ t₁ h₁
    apply wp_returned_bind (returned_allocPage hpage hunbroken h₁)
    rintro _ t₂ ⟨rfl, hregs, hrest⟩
    apply wp_returned_setProbe
    apply wp_returned_bind (returned_threads wp_resumeChildThreads)
    rintro _ _ ⟨held, dir, rfl⟩
    apply wp_returned_probe
    show wp _ _ (if _ = MAP_FAILED then _ else _) _
    split_ifs with hfailed
    · rintro _ ⟨⟩
      exact ⟨hzero, hfailed, hrest⟩
    · apply wp_returned_probe
      apply wp_returned_bind (returned_poke _ _)
      rintro _ _ ⟨-, rfl⟩
      rintro _ ⟨⟩
      exact ⟨fun h => hfailed h.2, hregs, rfl, .poke hrest⟩
  · rintro _ ⟨⟩
    exact ⟨fun h => hzero h.1, rfl, hpage⟩

/-- The call comes back from the trap behind it. -/
theorem returned_call (hcallee : C.Callee s page addr after) {m : Memory}
    (hm : AtTrampoline s page m) (ht : t.exec = (callRegs s.regs addr page, m))
    (hmode : t.mode = .running) :
    wp (C.kernel pid B) (OnReturn fun _ t' => ∀ a, ¬ onPage page a →
      t'.mem a = after a ∧ ((s.regs.rsp - 8).toNat ≤ a.toNat →
        after a = pokeWord s.mem (s.regs.rsp - 8) (page + 2) a)) (doWait fuel pid 0) t := by
  -- While it waits: the thread has got to here from the start of the call.
  apply returned_doWait fun t => t.mode = .running ∧
    ReflTransGen C.step (callRegs s.regs addr page, m) t.exec
  · rintro t ⟨hmode, hrun⟩ status x hsig hstops
    simp only [Cpu.stops, hmode, if_pos hsig] at hstops
    obtain ⟨y, hy, htrap, rfl⟩ := hstops
    intro a hoff
    exact hcallee.called hm (hrun.trans hy) htrap hoff
  · -- A `SIGCHLD` stops it on the way, and it goes on from there.
    rintro t ⟨hmode, hrun⟩ status x - - hsig hstops
    have hne : WSTOPSIG status ≠ SIGTRAP := by
      rw [hsig]
      decide
    simp only [Cpu.stops, hmode, if_neg hne] at hstops
    exact ⟨rfl, hrun.trans hstops⟩
  · rw [ht]
    exact ⟨hmode, .refl⟩

/-- **What a call leaves alone.** Whenever `PtraceCallFunction` returns, everything from
the red zone of the interrupted thread on is as it was exactly if there was no page to
call from, or the address that `CALL` pushes was there before and the function
leaves the rest of the red zone alone. -/
theorem callFunction_untouched_iff (fuel : ℕ) (hpage : C.Trampoline s page) (hunbroken : Unbroken pid B)
    (hcallee : C.Callee s page addr after) :
    wp (C.kernel pid B) (OnReturn fun _ t => Untouched s page t ↔
      s.probe = 0 ∧ page = MAP_FAILED ∨ Spared s page after) (ptraceCallFunction fuel pid addr) s := by
  apply wp_returned_bind (returned_setUpProbe hpage hunbroken)
  intro ready t₁ h₁
  cases ready with
  | false =>
      -- No page: what was poked for `mmap` has been put back.
      obtain ⟨hzero, hfailed, hrest⟩ := h₁
      intro _ _
      constructor
      · exact fun _ => .inl ⟨hzero, hfailed⟩
      · exact fun _ a hoff _ => hrest a hoff
  | true =>
      obtain ⟨hready, hregs, hprobe, hm⟩ := h₁
      apply wp_returned_bind returned_getRegs
      rintro _ _ ⟨rfl, rfl⟩
      apply wp_returned_probe
      apply wp_returned_bind (returned_setRegs _)
      rintro _ _ rfl
      apply wp_returned_bind returned_cont
      rintro _ _ rfl
      apply wp_returned_bind (returned_call hcallee hm (by rw [← hregs, ← hprobe]; rfl) rfl)
      intro status t₂ h₂
      apply wp_returned_bind returned_getRegs
      rintro _ _ ⟨rfl, rfl⟩
      apply wp_returned_bind (returned_setRegs _)
      rintro _ _ rfl
      intro _ _
      -- Setting the registers back does not bring back what was pushed.
      rw [or_iff_right hready]
      exact untouched_iff_spared h₂

end

/-! ### A processor -/

theorem Exec.code_one {x : Exec} {b c : Byte} (h : x.code 2 = some [b, c]) : x.code 1 = some [b] := by
  rw [code, show (2 : ℕ) = 1 + 1 from rfl] at h
  exact (ByteMemory.bytes_split h).1

theorem Exec.code_one_iff {x : Exec} {b : Byte} : x.code 1 = some [b] ↔ x.2 x.1.rip = some b := by
  cases h : x.2 x.1.rip <;> simp [code, ByteMemory.bytes, h]

/-- `CALL rax`, `RET` and a `SYSCALL` that maps the page `0x7000`. -/
def nextExec (x : Exec) : Option Exec :=
  if x.code 2 = some [0xff, 0xd0] then
    if (peekWord x.2 (x.1.rsp - 8)).isSome then some x.call else none
  else if x.code 1 = some [0xc3] then
    (peekWord x.2 x.1.rsp).map fun back =>
      ({ x.1 with
          rip := back
          rsp := x.1.rsp + 8 },
        x.2)
  else if x.code 2 = some [0x0f, 0x05] then
    some ({ x.1 with
        rip := x.1.rip + 2
        rax := 0x7000 },
      fun a => if onPage 0x7000 a then some 0 else x.2 a)
  else none

theorem nextExec_int3 {x : Exec} (h : x.code 1 = some [0xcc]) : nextExec x = none := by
  rw [nextExec, if_neg, if_neg, if_neg]
  · intro hcode
    rw [Exec.code_one hcode] at h
    exact absurd h (by decide)
  · rw [h]
    decide
  · intro hcode
    rw [Exec.code_one hcode] at h
    exact absurd h (by decide)

def smallCpu : Cpu where
  step x y := nextExec x = some y
  call x y hcode hstep := by
    rw [nextExec, if_pos hcode] at hstep
    split_ifs at hstep with hmapped
    exact ⟨hmapped, (Option.some.inj hstep).symm⟩
  int3 x y hcode hstep := by
    rw [nextExec_int3 hcode] at hstep
    contradiction

/-- A function that returns at once to a trap. -/
theorem mem_of_ret {x y : Exec} {back : Word} (hret : x.code 1 = some [0xc3])
    (hback : peekWord x.2 x.1.rsp = some back) (htrap : x.2 back = some 0xcc)
    (hrun : ReflTransGen smallCpu.step x y) : y.2 = x.2 := by
  rcases hrun.cases_head with rfl | ⟨z, hz, hrun⟩
  · rfl
  · have hcode : x.code 2 ≠ some [0xff, 0xd0] := by
      intro hcall
      rw [Exec.code_one hcall] at hret
      exact absurd hret (by decide)
    have hnext : nextExec x = some z := hz
    rw [nextExec, if_neg hcode, if_pos hret, hback, Option.map_some] at hnext
    obtain rfl := Option.some.inj hnext
    -- The trap is not executed, so there is no second step.
    rcases hrun.cases_head with rfl | ⟨z, hz, -⟩
    · rfl
    · exact absurd hz (smallCpu.int3 _ z (Exec.code_one_iff.mpr htrap))

/-- The thread stops after a single step, or at the trap behind a function that returns
at once. -/
def Target.stopsSoon (t : Target) : Bool :=
  match t.mode with
  | .stepping => (nextExec t.exec).isSome
  | .running => ((nextExec t.exec).bind nextExec).any fun y => y.code 1 = some [0xcc]
  | .stopped | .gone => false

/-- The kernel on this processor. It interrupts a wait that would take longer. -/
def returning : Machine where
  pid := 1
  refuses t r :=
    match r with
    | .waitpid p _ => p = 1 && !t.stopsSoon
    | _ => false
  names := [text ".", text "..", text "1", text "2"]
  steps t := (nextExec t.exec).getD t.exec
  runs t := (((nextExec t.exec).bind nextExec).getD t.exec).trap

/-- Where a wait for the thread succeeds, it has come to its next stop. -/
theorem returning_stops {t t' : Target} {options : ℤ} {told : Pid × Status}
    (h : returning.handler (.waitpid 1 options) t = (.ok told, t')) :
    smallCpu.stops t told.2 t'.exec := by
  obtain ⟨hgranted, hwait⟩ := returning.grant_eq_ok h
  have hsoon : t.stopsSoon = true := by simpa [returning] using hgranted
  obtain ⟨htells, hwaited⟩ := returning.wait_told hwait
  rw [if_pos (show (1 : Pid) = returning.pid from rfl)] at hwaited
  have htrapped : told.2 = trapped := congrArg Prod.snd htells
  have hstopped : WIFSTOPPED trapped = true := by decide
  have hsig : WSTOPSIG trapped = SIGTRAP := by decide
  rw [htrapped, waited, if_pos hstopped] at hwaited
  rw [htrapped]
  obtain ⟨regs, mem, hstops, rfl⟩ := hwaited
  rcases returning.behaviour.stops_iff.mp hstops with ⟨hmode, hsteps⟩ | ⟨hmode, hruns⟩
  · simp only [Target.stopsSoon, hmode] at hsoon
    obtain ⟨x, hx⟩ := Option.isSome_iff_exists.mp hsoon
    have hexec : (regs, mem) = (nextExec t.exec).getD t.exec := hsteps
    rw [hx, Option.getD_some] at hexec
    simp only [Cpu.stops, hmode, if_pos hsig]
    exact hx.trans (congrArg some hexec.symm)
  · simp only [Target.stopsSoon, hmode] at hsoon
    obtain ⟨y, hy, htrap⟩ := (Option.any_eq_true _ _).mp hsoon
    obtain ⟨x, hx, hxy⟩ := Option.bind_eq_some_iff.mp hy
    have hexec : (regs, mem) = (((nextExec t.exec).bind nextExec).getD t.exec).trap := hruns
    rw [hy, Option.getD_some] at hexec
    simp only [Cpu.stops, hmode, if_pos hsig]
    exact ⟨y, .tail (.single hx) hxy, of_decide_eq_true htrap, hexec⟩

theorem returning_step (t : Target) (r : Request) :
    (smallCpu.kernel 1 returning.behaviour).step t r (returning.handler r t).1
      (returning.handler r t).2 := by
  refine ⟨returning.handler_step t r, ?_⟩
  cases r with
  | waitpid p options =>
      intro status hrep hp _
      subst hp
      have htold : returning.handler (.waitpid 1 options) t =
          (.ok (1, status), (returning.handler (.waitpid 1 options) t).2) := Prod.ext hrep rfl
      have hstops := returning_stops htold
      exact hstops
  | _ => trivial

/-- A target with a word of data in its red zone and a function that returns at once. -/
def leaf (live : Word) : Target :=
  { atWork with
    regs := { atWork.regs with rsp := 0x9000 }
    mem := ofWords [(0x400000, 0x9090909090909090), (0x500000, 0xc3), (0x8ff8, live)] }

theorem ofWords_eq_none {words : List (Word × Word)} {a : Word}
    (h : ∀ p ∈ words, ¬ (a - p.1).toNat < 8) : ofWords words a = none := by
  rw [ofWords, List.find?_eq_none.mpr]
  · rfl
  · simpa using h

theorem leaf_fresh (live : Word) {a : Word} (ha : onPage 0x7000 a) : (leaf live).mem a = none := by
  have hlt : (a - 0x7000).toNat < 4096 := ha
  apply ofWords_eq_none
  simp only [List.forall_mem_cons, List.not_mem_nil, false_implies, implies_true, and_true]
  refine ⟨?_, ?_, ?_⟩
  · bv_omega
  · bv_omega
  · bv_omega

theorem leaf_trampoline (live : Word) : smallCpu.Trampoline (leaf live) 0x7000 := by
  intro y hstep
  have hnext : nextExec (mmapRegs (leaf live).regs,
      pokeWord (leaf live).mem (leaf live).regs.rip syscall_x86) = some y := hstep
  have hcode : Exec.code (mmapRegs (leaf live).regs,
      pokeWord (leaf live).mem (leaf live).regs.rip syscall_x86) 2 = some [0x0f, 0x05] :=
    bytes_pokeWord _ _ _ (by decide)
  have hfirst := Exec.code_one hcode
  rw [nextExec, if_neg (by rw [hcode]; decide), if_neg (by rw [hfirst]; decide), if_pos hcode] at hnext
  obtain rfl := Option.some.inj hnext
  refine ⟨rfl, .inl ⟨by decide, by decide, fun a ha => ?_, fun a ha => ?_, fun a ha => if_neg ha⟩⟩
  · rw [pokeWord_outside]
    · exact leaf_fresh live ha
    · have hlt : (a - 0x7000).toNat < 4096 := ha
      show ¬ (a - 0x400000).toNat < 8
      bv_omega
  · have hzero : (if onPage 0x7000 a then some (0 : Byte) else
        pokeWord (leaf live).mem (leaf live).regs.rip syscall_x86 a) = some 0 := if_pos ha
    exact Option.isSome_of_eq_some hzero

theorem leaf_entered (live : Word) {m : Memory} (hm : AtTrampoline (leaf live) 0x7000 m) :
    (entered (leaf live) 0x7000 0x500000 m).code 1 = some [0xc3] ∧
      peekWord (entered (leaf live) 0x7000 0x500000 m).2
        (entered (leaf live) 0x7000 0x500000 m).1.rsp = some 0x7002 ∧
      (entered (leaf live) 0x7000 0x500000 m).2 0x7002 = some 0xcc := by
  have hrsp : (leaf live).regs.rsp - 8 = 0x8ff8 := by
    show (0x9000 : Word) - 8 = 0x8ff8
    decide
  have hmem : (entered (leaf live) 0x7000 0x500000 m).2 = pokeWord m 0x8ff8 0x7002 := by
    show pokeWord m ((leaf live).regs.rsp - 8) (0x7000 + 2) = _
    rw [hrsp]
    rfl
  refine ⟨?_, ?_, ?_⟩
  · -- The function is neither on the page nor where the address is pushed.
    apply Exec.code_one_iff.mpr
    rw [hmem]
    show pokeWord m 0x8ff8 0x7002 0x500000 = some 0xc3
    rw [pokeWord_outside m (by decide), hm.rest _ (by decide)]
    rfl
  · rw [hmem]
    show peekWord _ ((leaf live).regs.rsp - 8) = _
    rw [hrsp]
    exact peekWord_pokeWord_self m _ _
  · rw [hmem, pokeWord_outside m (by decide)]
    exact (ByteMemory.bytes_eq_some_iff.mp hm.code).2 2 (by decide)

/-- What is left of the call is the address that was pushed. -/
def leafAfter (live : Word) : Memory :=
  pokeWord (leaf live).mem ((leaf live).regs.rsp - 8) (0x7000 + 2)

theorem leaf_callee (live : Word) :
    smallCpu.Callee (leaf live) 0x7000 0x500000 (leafAfter live) := by
  constructor
  · intro m hm x hrun a _
    obtain ⟨hret, hback, htrap⟩ := leaf_entered live hm
    rw [mem_of_ret hret hback htrap hrun]
  · intro m hm x hrun _ a hoff
    obtain ⟨hret, hback, htrap⟩ := leaf_entered live hm
    rw [mem_of_ret hret hback htrap hrun]
    exact hm.pushed hoff

theorem returning_unbroken : Unbroken 1 returning.behaviour := by
  intro t status _ htells _
  obtain rfl : status = trapped := (Prod.mk.inj htells).2
  decide

/-- Here the word in the red zone is the address that is pushed. -/
theorem callFunction_untouched_leaf :
    Untouched (leaf 0x7002) 0x7000
      (run returning.handler (ptraceCallFunction 6 1 0x500000) (leaf 0x7002)).2 := by
  have hiff := wp_run returning_step (callFunction_untouched_iff 6 (leaf_trampoline 0x7002)
    returning_unbroken (leaf_callee 0x7002))
  have hword : peekWord (leaf 0x7002).mem ((leaf 0x7002).regs.rsp - 8) = some (0x7000 + 2) := by
    decide +kernel
  have hsame : ∀ a, leafAfter 0x7002 a = (leaf 0x7002).mem a := fun a =>
    ByteMemory.store_bytes (peekWord_eq_some_iff.mp hword) fun _ => rfl
  apply (hiff 0x500000 (by decide +kernel)).mpr
  exact .inr ⟨fun a _ _ => hsame a, fun a _ _ _ => hsame a⟩

/-- Another word is lost. -/
theorem callFunction_touches_leaf :
    smallCpu.Trampoline (leaf 5) 0x7000 ∧ smallCpu.Callee (leaf 5) 0x7000 0x500000 (leafAfter 5) ∧
      Unbroken 1 returning.behaviour ∧
      ¬ wp (smallCpu.kernel 1 returning.behaviour) (OnReturn fun _ => Untouched (leaf 5) 0x7000)
        (ptraceCallFunction 6 1 0x500000) (leaf 5) := by
  refine ⟨leaf_trampoline 5, leaf_callee 5, returning_unbroken, fun hwp => ?_⟩
  have huntouched := wp_run returning_step hwp 0x500000 (by decide +kernel)
  have hbyte := huntouched 0x8ff8 (by decide) (by decide)
  have hlost : (run returning.handler (ptraceCallFunction 6 1 0x500000) (leaf 5)).2.mem 0x8ff8 ≠
      (leaf 5).mem 0x8ff8 := by decide +kernel
  exact hlost hbyte

end Pyflame
