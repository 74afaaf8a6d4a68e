import Pyflame.Kernel

/-!
A session of calls into the target, with a kernel that grants everything.

`AllocPage` maps one page for all calls and `PtraceCleanup` unmaps it. What
is shown of a call is what holds between any two: the registers and the next
word of code are those of the start, and so is what is mapped, apart from
the page in `probe_`.
-/

namespace Pyflame

open Interaction

/-! ### Pages -/

/-- The addresses on a page. -/
def onPage (page addr : Word) : Prop := (addr - page).toNat < getpagesize.toNat

instance (page addr : Word) : Decidable (onPage page addr) := inferInstanceAs (Decidable (_ < _))

/-- The memory `m'` is `m` with a new page. -/
structure Maps (m : Memory) (page : Word) (m' : Memory) : Prop where
  ne_zero : page ≠ 0
  aligned : page.toNat % getpagesize.toNat = 0
  fresh : ∀ a, onPage page a → m a = none
  mapped : ∀ a, onPage page a → (m' a).isSome
  rest : ∀ a, ¬ onPage page a → m' a = m a

def unmap (m : Memory) (page : Word) : Memory := fun a => if onPage page a then none else m a

theorem onPage_of_lt {page addr : Word} {n : ℕ} (h : (addr - page).toNat < n)
    (hn : n ≤ getpagesize.toNat) : onPage page addr :=
  Nat.lt_of_lt_of_le h hn

/-- A word that is mapped has no byte on a page that is not. -/
theorem apart_of_fresh {m : Memory} {page addr : Word} (hfresh : ∀ a, onPage page a → m a = none)
    (haddr : (peekWord m addr).isSome) : ByteMemory.Apart page 8 addr 8 := by
  intro x hpage hx
  have hmapped := peekWord_isSome_iff.mp haddr _ hx
  rw [ByteMemory.add_ofNat_sub, hfresh x (onPage_of_lt hpage (by decide))] at hmapped
  contradiction

theorem Maps.word {m m' : Memory} {page addr : Word} (h : Maps m page m')
    (haddr : (peekWord m addr).isSome) : peekWord m' addr = peekWord m addr := by
  have hsame : ByteMemory.bytes m' addr 8 = ByteMemory.bytes m addr 8 := by
    refine ByteMemory.bytes_congr fun i hi => h.rest _ fun hon => ?_
    have hmapped := peekWord_isSome_iff.mp haddr i hi
    rw [h.fresh _ hon] at hmapped
    contradiction
  rw [peekWord, hsame, peekWord]

theorem Maps.isSome {m m' : Memory} {page : Word} (h : Maps m page m') (a : Word) :
    (m' a).isSome = ((m a).isSome || decide (onPage page a)) := by
  by_cases hon : onPage page a
  · simp [h.mapped a hon, hon]
  · simp [h.rest a hon, hon]

/-- The words at the start of a page that is mapped. -/
theorem peek_page {m : Memory} {page : Word} (h : ∀ a, onPage page a → (m a).isSome) :
    (peekWord m page).isSome := by
  refine peekWord_isSome_iff.mpr fun i hi => h _ ?_
  rw [onPage, ByteMemory.ofNat_sub_self _ (by omega)]
  exact Nat.lt_of_lt_of_le hi (by decide)

/-! ### The assumptions -/

/-- Names of `/proc/pid/task`. -/
def TaskName (name : Bytes) : Prop :=
  name = text "." ∨ name = text ".." ∨ ∃ tid : ℕ, tid < 2 ^ 31 ∧ name = decimal tid

theorem TaskName.listable {name : Bytes} (h : TaskName name) : Listable name := by
  rcases h with h | h | ⟨tid, htid, rfl⟩
  · exact .inl h
  · exact .inr (.inl h)
  · exact .inr (.inr ⟨tid, stoi_decimal htid⟩)

/-- No request fails, `mmap` and `munmap` succeed, each wait is told of the trap
first, and a called function returns to the trampoline and maps nothing. -/
structure Orderly (pid : Pid) (fuel : ℕ) (B : Behaviour) : Prop where
  patient : 0 < fuel
  willing : ∀ t r, ¬ B.refuses t r
  lists : ∀ t names, B.lists t names → names.length < fuel ∧ ∀ name ∈ names, TaskName name
  traps : ∀ t x, B.tells t pid x → x = (pid, trapped)
  attaches : ∀ t, ∀ tid ≠ pid, ∀ x, B.tells t tid x → x.1 = tid ∧ WIFSTOPPED x.2 = true
  mmap : ∀ t oldregs regs mem, t.word t.regs.rip = some syscall_x86 → t.regs = mmapRegs oldregs →
    B.steps t regs mem → Maps t.mem regs.rax mem
  munmap : ∀ t oldregs page regs mem, t.word t.regs.rip = some syscall_x86 →
    t.regs = munmapRegs oldregs page → B.steps t regs mem → regs.rax = 0 ∧ mem = unmap t.mem page
  calls : ∀ t regs mem, B.runs t regs mem → ∀ a, (mem a).isSome = (t.mem a).isSome

/-- A session of calls, each to one address. -/
def session (fuel : ℕ) (pid : Pid) (addrs : List Word) : Tracer Unit := do
  addrs.forM fun addr => do
    let _ ← ptraceCallFunction fuel pid addr
  ptraceCleanup fuel pid

/-- The target `t` is as `s` was: its registers, its next word of code, what is
mapped, and no page is left in `probe_`. -/
structure AsBefore (s t : Target) : Prop where
  regs : t.regs = s.regs
  code : t.word s.regs.rip = s.word s.regs.rip
  mapped : ∀ a, (t.mem a).isSome = (s.mem a).isSome
  probe : t.probe = 0

section

variable {pid : Pid} {fuel : ℕ} {B : Behaviour} {G : Guard} {s t : Target}

namespace Orderly

variable (h : Orderly pid fuel B)
include h

theorem not_refusable {r : Request} (hr : ¬ Impossible pid t r) : ¬ Refusable pid B t r :=
  not_or.mpr ⟨h.willing t r, hr⟩

theorem calm (t : Target) : B.Calm t where
  willing t' _ := h.willing t'
  listable names hnames name hname := ((h.lists t names hnames).2 name hname).listable

theorem wp_threads {p : Tracer Unit} {smooth : Prop} (hs : smooth)
    (hp : wp (kernel pid B G) (ThreadsPost B fuel smooth t) p t) :
    wp (kernel pid B G) (fun o t' => o = .ok () ∧ ThreadsOnly t t') p t := by
  refine wp_mono (fun o t' ⟨hthreads, habort, herr, hcut⟩ => ?_) hp
  cases o with
  | ok => exact ⟨rfl, hthreads⟩
  | error e => exact absurd rfl (herr hs e)
  | abort => contradiction
  | cut => exact absurd rfl (hcut fun names hnames => (h.lists t names hnames).1)

theorem wp_pause : wp (kernel pid B G) (fun o t' => o = .ok () ∧ ThreadsOnly t t')
    (pauseChildThreads fuel pid) t :=
  h.wp_threads ⟨h.calm t, fun t' _ => h.attaches t'⟩ wp_pauseChildThreads

theorem wp_resume : wp (kernel pid B G) (fun o t' => o = .ok () ∧ ThreadsOnly t t')
    (resumeChildThreads fuel pid) t :=
  h.wp_threads (h.calm t) wp_resumeChildThreads

theorem wp_get {Q : Outcome Exception UserRegs → Target → Prop} (hok : Q (.ok t.regs) t.report) :
    wp (kernel pid B G) Q (ptraceGetRegs pid) t :=
  wp_getRegs hok fun href => absurd href (h.not_refusable id)

theorem wp_set {Q : Outcome Exception Unit → Target → Prop} {regs : UserRegs}
    (hguard : G.setRegs t regs) (hok : Q (.ok ()) (t.setRegs regs)) :
    wp (kernel pid B G) Q (ptraceSetRegs pid regs) t :=
  wp_setRegs hguard hok fun href => absurd href (h.not_refusable id)

theorem wp_read {Q : Outcome Exception Word → Target → Prop} {addr : Word}
    (hmapped : (t.word addr).isSome) (hok : ∀ data, t.word addr = some data → Q (.ok data) t) :
    wp (kernel pid B G) Q (ptracePeek pid addr) t :=
  wp_peek hok fun href => absurd href (h.not_refusable (Option.isSome_iff_ne_none.mp hmapped))

theorem wp_write {Q : Outcome Exception Unit → Target → Prop} {addr data : Word}
    (hmapped : (t.word addr).isSome) (hok : Q (.ok ()) (t.poke addr data)) :
    wp (kernel pid B G) Q (ptracePoke pid addr data) t :=
  wp_poke (fun _ => hok) fun href =>
    absurd href (h.not_refusable (Option.isSome_iff_ne_none.mp hmapped))

/-- The target runs until it traps. -/
theorem wp_wait {Q : Outcome Exception Status → Target → Prop}
    (hmode : t.mode = .stepping ∨ t.mode = .running)
    (hok : ∀ regs mem, B.stops t regs mem → Q (.ok trapped) (t.stopAt regs mem)) :
    wp (kernel pid B G) Q (doWait fuel pid 0) t := by
  obtain ⟨n, rfl⟩ := Nat.exists_eq_add_of_lt h.patient
  rw [Nat.zero_add]
  refine wp_doWait_trapped (h.traps t) (h.not_refusable ?_) hok
  rintro ⟨-, hidle⟩
  rcases hmode with hmode | hmode <;> rw [hmode] at hidle <;> rcases hidle with h | h <;> contradiction

theorem wp_step {Q : Outcome Exception Unit → Target → Prop}
    (hok : ∀ regs mem, B.steps (t.resume .stepping) regs mem →
      Q (.ok ()) ((t.resume .stepping).stopAt regs mem)) :
    wp (kernel pid B G) Q (ptraceSingleStep fuel pid) t :=
  wp_singleStep (h.wp_wait (.inl rfl) hok) fun href => absurd href (h.not_refusable id)

end Orderly

/-- A page has been mapped, the registers and the code are as before. -/
structure Allocated (s t : Target) (page : Word) (t' : Target) : Prop where
  regs : t'.regs = s.regs
  code : t'.word s.regs.rip = s.word s.regs.rip
  probe : t'.probe = t.probe
  ne_zero : page ≠ 0
  aligned : page.toNat % getpagesize.toNat = 0
  fresh : ∀ a, onPage page a → t.mem a = none
  mapped : ∀ a, (t'.mem a).isSome = ((t.mem a).isSome || decide (onPage page a))

theorem Orderly.wp_allocPage (h : Orderly pid fuel B) (hG : ∀ t regs, G.setRegs t regs)
    (hmapped : (s.word s.regs.rip).isSome) (hregs : t.regs = s.regs)
    (hcode : t.word s.regs.rip = s.word s.regs.rip) :
    wp (kernel pid B G) (fun o t' => ∃ page, o = .ok page ∧ Allocated s t page t')
      (allocPage fuel pid) t := by
  have hword : (t.word s.regs.rip).isSome := hcode ▸ hmapped
  have hsame : ∀ a, (pokeWord t.mem s.regs.rip syscall_x86 a).isSome = (t.mem a).isSome :=
    pokeWord_isSome hword
  have hpoked : (peekWord (pokeWord t.mem s.regs.rip syscall_x86) s.regs.rip).isSome :=
    Option.isSome_of_eq_some (peekWord_pokeWord_self _ _ _)
  refine wp_bind.mpr (h.wp_get ?_)
  simp only [onOk_ok, hregs]
  refine wp_bind.mpr (h.wp_read hword fun orig_code horig => ?_)
  refine wp_bind.mpr (h.wp_write hword ?_)
  refine wp_bind.mpr (h.wp_set (hG _ _) ?_)
  refine wp_bind.mpr (h.wp_step fun regs mem hsteps => ?_)
  -- The target has made its system call.
  have hmaps : Maps (pokeWord t.mem s.regs.rip syscall_x86) regs.rax mem := by
    refine h.mmap _ s.regs regs mem ?_ rfl hsteps
    exact peekWord_pokeWord_self t.mem s.regs.rip syscall_x86
  have hstill : (peekWord mem s.regs.rip).isSome := hmaps.word hpoked ▸ hpoked
  have hrestored : ∀ a, (pokeWord mem s.regs.rip orig_code a).isSome = (mem a).isSome :=
    pokeWord_isSome hstill
  refine wp_bind.mpr (h.wp_get ?_)
  refine wp_bind.mpr (h.wp_set (hG _ _) ?_)
  refine wp_bind.mpr (h.wp_write hstill ?_)
  refine ⟨regs.rax, rfl, rfl, ?_, rfl, hmaps.ne_zero, hmaps.aligned, fun a hon => ?_, fun a => ?_⟩
  · exact (peekWord_pokeWord_self mem _ _).trans (horig.symm.trans hcode)
  · have hnone := (hsame a).symm.trans (congrArg Option.isSome (hmaps.fresh a hon))
    exact Option.isNone_iff_eq_none.mp (Option.isSome_eq_false_iff.mp hnone)
  · rw [← hsame a, ← hmaps.isSome a]
    exact hrestored a

/-- What holds between two calls. -/
structure Between (s t : Target) : Prop where
  regs : t.regs = s.regs
  code : t.word s.regs.rip = s.word s.regs.rip
  fresh : t.probe ≠ 0 → ∀ a, onPage t.probe a → s.mem a = none
  mapped : ∀ a, (t.mem a).isSome = ((s.mem a).isSome || decide (t.probe ≠ 0 ∧ onPage t.probe a))

theorem Between.threadsOnly {t' : Target} (h : Between s t) (ht : ThreadsOnly t t') :
    Between s t' ∧ t'.probe = t.probe := by
  obtain ⟨held, dir, rfl⟩ := ht
  exact ⟨⟨h.regs, h.code, h.fresh, h.mapped⟩, rfl⟩

theorem ne_mapFailed_of_aligned {page : Word} (h : page.toNat % getpagesize.toNat = 0) :
    page ≠ MAP_FAILED := by
  rintro rfl
  revert h
  decide

theorem Allocated.between {page : Word} {t' : Target} (h : Allocated s t page t')
    (ht : Between s t) (hzero : t.probe = 0) : Between s (t'.setProbe page) where
  regs := h.regs
  code := h.code
  fresh _ a hon := by
    have hnone := ht.mapped a
    rw [h.fresh a hon, hzero] at hnone
    simpa using hnone
  mapped a := by
    have hmapped := h.mapped a
    have hnew : decide (page ≠ 0 ∧ onPage page a) = decide (onPage page a) :=
      decide_eq_decide.mpr (and_iff_right h.ne_zero)
    rw [ht.mapped a, hzero] at hmapped
    change (t'.mem a).isSome = ((s.mem a).isSome || decide (page ≠ 0 ∧ onPage page a))
    rw [hnew]
    simpa using hmapped

theorem Orderly.wp_setUpProbe (h : Orderly pid fuel B) (hG : ∀ t regs, G.setRegs t regs)
    (hmapped : (s.word s.regs.rip).isSome) (ht : Between s t) :
    wp (kernel pid B G) (fun o t' => o = .ok true ∧ Between s t' ∧ t'.probe ≠ 0)
      (setUpProbe fuel pid) t := by
  refine wp_probe ?_
  split_ifs with hzero
  · refine wp_bind_of h.wp_pause fun o t₁ ⟨ho, hthreads⟩ => ?_
    subst ho
    obtain ⟨h₁, hprobe₁⟩ := ht.threadsOnly hthreads
    refine wp_bind_of (h.wp_allocPage hG hmapped h₁.regs h₁.code) fun o t₂ ⟨page, ho, halloc⟩ => ?_
    subst ho
    have h₂ := halloc.between h₁ (hprobe₁.trans hzero)
    refine wp_setProbe ?_
    refine wp_bind_of h.wp_resume fun o t₃ ⟨ho, hthreads⟩ => ?_
    subst ho
    obtain ⟨h₃, hprobe₃⟩ := h₂.threadsOnly hthreads
    replace hprobe₃ : t₃.probe = page := hprobe₃
    refine wp_probe ?_
    rw [hprobe₃, if_neg (ne_mapFailed_of_aligned halloc.aligned)]
    refine wp_probe (wp_bind.mpr ?_)
    rw [hprobe₃]
    have hpage : (t₃.word page).isSome := peek_page fun a hon => by
      rw [h₃.mapped, hprobe₃, decide_eq_true ⟨halloc.ne_zero, hon⟩, Bool.or_true]
    refine h.wp_write hpage ⟨rfl, ⟨h₃.regs, ?_, ?_, fun a => ?_⟩, ?_⟩
    · have hfresh : ∀ a, onPage page a → s.mem a = none := fun a hon =>
        h₃.fresh (hprobe₃ ▸ halloc.ne_zero) a (hprobe₃ ▸ hon)
      exact (peekWord_pokeWord_apart t₃.mem (apart_of_fresh hfresh hmapped).symm).trans h₃.code
    · exact h₃.fresh
    · exact (pokeWord_isSome hpage a).trans (h₃.mapped a)
    · exact hprobe₃ ▸ halloc.ne_zero
  · exact ⟨rfl, ht, hzero⟩

/-- The function that is called, and the `CALL` to it, leave the word of code at
`rip` alone. -/
def SparesCode (B : Behaviour) (rip : Word) : Prop :=
  ∀ t regs mem, B.runs t regs mem → peekWord mem rip = t.word rip

theorem Orderly.wp_ptraceCallFunction (h : Orderly pid fuel B) (hG : ∀ t regs, G.setRegs t regs)
    (hmapped : (s.word s.regs.rip).isSome) (hspares : SparesCode B s.regs.rip)
    (ht : Between s t) (addr : Word) :
    wp (kernel pid B G) (fun o t' => (∃ rax, o = .ok rax) ∧ Between s t')
      (ptraceCallFunction fuel pid addr) t := by
  refine wp_bind_of (h.wp_setUpProbe hG hmapped ht) fun o t₁ ⟨ho, h₁, hne⟩ => ?_
  subst ho
  refine wp_bind.mpr (h.wp_get ?_)
  simp only [onOk_ok, h₁.regs]
  refine wp_probe (wp_bind.mpr (h.wp_set (hG _ _) ?_))
  refine wp_bind.mpr (wp_cont ?_ fun href => absurd href (h.not_refusable id))
  refine wp_bind.mpr (h.wp_wait (.inr rfl) fun regs mem hruns => ?_)
  refine wp_bind.mpr (h.wp_get ?_)
  refine wp_bind.mpr (h.wp_set (hG _ _) ?_)
  refine ⟨⟨_, rfl⟩, rfl, ?_, h₁.fresh, fun a => ?_⟩
  · exact (hspares _ regs mem hruns).trans h₁.code
  · exact (h.calls _ regs mem hruns a).trans (h₁.mapped a)

/-- Where a page has been mapped, it is unmapped. -/
theorem Orderly.wp_unmapProbe (h : Orderly pid fuel B) (hG : ∀ t regs, G.setRegs t regs)
    (hmapped : (s.word s.regs.rip).isSome) (ht : Between s t) (hne : t.probe ≠ 0) :
    wp (kernel pid B G) (fun o t' => o = .ok () ∧ AsBefore s t') (unmapProbe fuel pid) t := by
  have hword : (t.word s.regs.rip).isSome := ht.code ▸ hmapped
  refine wp_bind.mpr (h.wp_get ?_)
  simp only [onOk_ok, ht.regs]
  refine wp_bind.mpr (h.wp_read hword fun orig_code horig => ?_)
  refine wp_probe ?_
  refine wp_bind_of h.wp_pause fun o t₁ hpaused => ?_
  obtain ⟨rfl, held, dir, rfl⟩ := hpaused
  refine wp_bind.mpr (h.wp_write hword ?_)
  obtain ⟨n, rfl⟩ := Nat.exists_eq_add_of_lt h.patient
  refine wp_bind.mpr (wp_bind.mpr ?_)
  refine wp_bind.mpr (h.wp_set (hG _ _) ?_)
  refine wp_bind.mpr (h.wp_step fun regs mem hsteps => ?_)
  -- The target has made its system call.
  obtain ⟨hrax, hmem⟩ : regs.rax = 0 ∧
      mem = unmap (pokeWord t.mem s.regs.rip syscall_x86) t.probe := by
    refine h.munmap _ s.regs t.probe regs mem ?_ rfl hsteps
    exact peekWord_pokeWord_self t.mem s.regs.rip syscall_x86
  have hsame : ∀ a, (pokeWord t.mem s.regs.rip syscall_x86 a).isSome = (t.mem a).isSome :=
    pokeWord_isSome hword
  have hunmapped : ∀ a, (mem a).isSome = (s.mem a).isSome := by
    intro a
    rw [hmem, unmap]
    split_ifs with hon
    · rw [ht.fresh hne a hon]
    · rw [hsame, ht.mapped a, decide_eq_false fun h => hon h.2, Bool.or_false]
  have hstill : (peekWord mem s.regs.rip).isSome := peekWord_isSome_iff.mpr fun i hi =>
    (hunmapped _).trans (peekWord_isSome_iff.mp hmapped i hi)
  refine wp_bind.mpr (h.wp_get ?_)
  change wp _ _ (if regs.rax = 0 then _ else _) _
  rw [if_pos hrax]
  refine wp_setProbe ?_
  refine wp_bind.mpr (h.wp_write hstill ?_)
  refine wp_bind.mpr (h.wp_set (hG _ _) ?_)
  refine wp_mono (fun o t₂ hresumed => ?_) h.wp_resume
  obtain ⟨ho, held, dir, rfl⟩ := hresumed
  refine ⟨ho, ?_⟩
  refine ⟨rfl, ?_, fun a => ?_, rfl⟩
  · exact (peekWord_pokeWord_self mem _ _).trans (horig.symm.trans ht.code)
  · exact (pokeWord_isSome hstill a).trans (hunmapped a)

/-- What a session must leave where the target is let go. -/
def leaves (s : Target) : Guard where
  detach := AsBefore s

/-- In a session without failures, any number of calls and the cleanup leave the
target as it was, as far as the called functions and the calls to them spare
the code at its `rip`. -/
theorem session_restores (h : Orderly pid fuel B) (s : Target)
    (hmapped : (s.word s.regs.rip).isSome) (hspares : SparesCode B s.regs.rip) (hprobe : s.probe = 0)
    (addrs : List Word) :
    wp (kernel pid B (leaves s)) (fun o _ => o = .ok ()) (session fuel pid addrs) s := by
  have hstart : Between s s := by
    refine ⟨rfl, rfl, fun hne => absurd hprobe hne, fun a => ?_⟩
    simp [hprobe]
  have hdetach : ∀ t, AsBefore s t →
      wp (kernel pid B (leaves s)) (fun o _ => o = .ok ()) (safeDetach pid) t := fun t ht =>
    ⟨fun _ => ht, fun _ _ _ => rfl⟩
  refine wp_bind.mpr (wp_forM (fun _ => Between s) (fun t ht => ?_) (fun addr _ t ht => ?_) hstart)
  · refine wp_probe ?_
    split_ifs with hne
    · refine wp_bind.mpr (wp_handle.mpr (wp_mono (fun o t' ⟨ho, hbefore⟩ => ?_)
        (h.wp_unmapProbe (fun _ _ => trivial) hmapped ht hne)))
      subst ho
      exact hdetach t' hbefore
    · have hzero : t.probe = 0 := not_not.mp hne
      refine hdetach t ⟨ht.regs, ht.code, fun a => ?_, hzero⟩
      rw [ht.mapped a, hzero]
      simp
  · refine wp_bind_of (h.wp_ptraceCallFunction (fun _ _ => trivial) hmapped hspares ht addr)
      fun o t' ⟨⟨rax, ho⟩, ht'⟩ => ?_
    subst ho
    exact ht'

end

/-! ### A target to call into -/

/-- Its system calls map and unmap the page `0x7000`; the functions called in it
return at once. -/
def callee : Machine where
  pid := 1
  names := [text ".", text "..", text "1", text "2"]
  steps t :=
    if t.regs.rax = SYS_munmap then
      ({ t.regs with rip := t.regs.rip + 2, rax := 0 }, unmap t.mem t.regs.rdi)
    else
      ({ t.regs with rip := t.regs.rip + 2, rax := 0x7000 },
        fun a => if onPage 0x7000 a then some 0 else t.mem a)
  runs t :=
    ({ t.regs with rip := t.regs.rip + 3 },
      -- `CALL` pushes the address after it.
      if (t.word (t.regs.rsp - 8)).isSome then pokeWord t.mem (t.regs.rsp - 8) (t.regs.rip + 2)
      else t.mem)

/-- The page is only handed out while it is free, and the stack of the target is
as given. -/
def callees (stack : Word → Prop) : Behaviour :=
  { callee.behaviour with
    steps := fun t regs mem => (regs, mem) = callee.steps t ∧
      (t.regs.rax = SYS_mmap → ∀ a, onPage 0x7000 a → t.mem a = none)
    runs := fun t regs mem => (regs, mem) = callee.runs t ∧ stack t.regs.rsp }

theorem callees_orderly (stack : Word → Prop) : Orderly 1 6 (callees stack) where
  patient := by decide
  willing _ _ := nofun
  lists t names hnames := by
    obtain rfl : names = [text ".", text "..", text "1", text "2"] := hnames
    refine ⟨by decide, List.forall_mem_cons.mpr ⟨.inl rfl, List.forall_mem_cons.mpr
      ⟨.inr (.inl rfl), List.forall_mem_cons.mpr ⟨.inr (.inr ⟨1, by decide, by decide⟩), ?_⟩⟩⟩⟩
    exact List.forall_mem_singleton.mpr (.inr (.inr ⟨2, by decide, by decide⟩))
  traps t x hx := hx
  attaches t tid hne x hx := by
    obtain rfl : x = callee.tells t tid := hx
    exact ⟨rfl, by simp [Machine.tells, callee, hne]; decide⟩
  mmap t oldregs regs mem _ hregs hsteps := by
    obtain ⟨heq, hfree⟩ := hsteps
    have hrax : t.regs.rax = SYS_mmap := by rw [hregs]; rfl
    rw [show callee.steps t = _ from if_neg (by rw [hrax]; decide)] at heq
    obtain ⟨rfl, rfl⟩ := Prod.mk.inj heq
    change Maps t.mem 0x7000 _
    refine ⟨by decide, by decide, hfree hrax, fun a hon => ?_, fun a hon => if_neg hon⟩
    rw [if_pos hon]
    rfl
  munmap t oldregs page regs mem _ hregs hsteps := by
    obtain ⟨heq, -⟩ := hsteps
    have hrax : t.regs.rax = SYS_munmap := by rw [hregs]; rfl
    have hrdi : t.regs.rdi = page := by rw [hregs]; rfl
    rw [show callee.steps t = _ from if_pos hrax] at heq
    obtain ⟨rfl, rfl⟩ := Prod.mk.inj heq
    exact ⟨rfl, by rw [hrdi]⟩
  calls t regs mem hruns a := by
    obtain ⟨heq, -⟩ := hruns
    obtain ⟨-, rfl⟩ := Prod.mk.inj heq
    split_ifs with hmapped
    · exact pokeWord_isSome hmapped a
    · rfl

/-- Two calls, with a stack away from the code. -/
theorem session_restores_callees :
    wp (kernel 1 (callees fun rsp => ByteMemory.Apart (rsp - 8) 8 0x400000 8) (leaves atWork))
      (fun o _ => o = .ok ()) (session 6 1 [0x500000, 0x500000]) atWork := by
  refine session_restores (callees_orderly _) atWork (by decide +kernel) ?_ rfl _
  rintro t regs mem ⟨heq, happart⟩
  obtain ⟨-, rfl⟩ := Prod.mk.inj heq
  split_ifs
  · exact peekWord_pokeWord_apart t.mem happart.symm
  · rfl

/-- The page that `callee` maps is free. -/
def freePage (t : Target) : Bool :=
  (List.range 4096).all fun i => (t.mem (0x7000 + BitVec.ofNat 64 i)).isNone

theorem freePage_iff {t : Target} (h : freePage t = true) (a : Word) (ha : onPage 0x7000 a) :
    t.mem a = none := by
  have hi := List.all_eq_true.mp h _ (List.mem_range.mpr ha)
  rwa [ByteMemory.add_ofNat_sub, Option.isNone_iff_eq_none] at hi

/-- A target whose stack pointer is right above the code at its `rip`. -/
def overCode : Target := { atWork with regs := { atWork.regs with rsp := 0x400008 } }

def isDetach (r : Request) : Bool := r = .detach 1

theorem eq_of_isDetach {r : Request} (h : isDetach r = true) : r = .detach 1 := of_decide_eq_true h

/-- Nothing fails, and yet the code has been written over: `CALL` has pushed the
address of the trap onto it. -/
theorem session_pushes_on_code :
    Orderly 1 6 (callees fun _ => True) ∧
      ¬ wp (kernel 1 (callees fun _ => True) (leaves overCode)) (fun o _ => o = .ok ())
        (session 6 1 [0x500000]) overCode := by
  refine ⟨callees_orderly _, fun hwp => ?_⟩
  have hfree : ∀ x ∈ trace callee.handler (session 6 1 [0x500000]) overCode,
      x.state.mode = .stepping → x.state.regs.rax = SYS_mmap → freePage x.state = true := by
    decide +kernel
  have hstep : ∀ x ∈ trace callee.handler (session 6 1 [0x500000]) overCode,
      kernelStep 1 (callees fun _ => True) x.state x.req (callee.handler x.req x.state).1
        (callee.handler x.req x.state).2 := by
    intro x hx
    refine kernelStep_of_stops (fun regs mem hstops => ?_) (callee.handler_step x.state x.req)
    rcases (callee.behaviour.stops_iff).mp hstops with ⟨hmode, hsteps⟩ | ⟨hmode, hruns⟩
    · exact (Behaviour.stops_iff _).mpr
        (.inl ⟨hmode, hsteps, fun hrax => freePage_iff (hfree x hx hmode hrax)⟩)
    · exact (Behaviour.stops_iff _).mpr (.inr ⟨hmode, hruns, trivial⟩)
  obtain ⟨-, hpermits⟩ := wp_trace hstep hwp
  have hpushed : (trace callee.handler (session 6 1 [0x500000]) overCode).any
      (fun x => isDetach x.req && x.state.word 0x400000 = some 0x7002) = true := by
    decide +kernel
  obtain ⟨⟨t, req, rep⟩, hx, hx'⟩ := List.any_eq_true.mp hpushed
  obtain ⟨hreq, hword⟩ := (Bool.and_eq_true _ _).mp hx'
  obtain rfl := eq_of_isDetach hreq
  have hcode := (hpermits _ hx rfl).code
  rw [show overCode.word overCode.regs.rip = some 0x9090909090909090 by decide +kernel] at hcode
  exact absurd (hcode.symm.trans (of_decide_eq_true hword)) (by decide)

end Pyflame
