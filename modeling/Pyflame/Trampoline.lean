import Pyflame.PyFrob
import Pyflame.Session

/-!
The page in `probe_`.

One word stands for no page, for a page without code, for a page with the
trampoline on it and for the error `mmap` returned. `Sound` says that it is one
of the first and the third, which is what a later call, `PtraceCleanup` and
`GetThreads` take it for.
-/

namespace Pyflame

open Interaction

/-- A page that is mapped and starts with the trampoline. -/
structure Usable (m : Memory) (page : Word) : Prop where
  mapped : ∀ a, onPage page a → (m a).isSome
  code : ByteMemory.bytes m page 3 = some [0xff, 0xd0, 0xcc]

/-- The page in `probe_` can be jumped to. -/
def Sound (t : Target) : Prop := t.probe ≠ 0 → Usable t.mem t.probe

/-- Registers are written back with a `rip` that was read, or with that of a page that
can be jumped to. -/
def jumps : Guard where
  setRegs t regs := regs.rip ∈ t.reported ∨ Usable t.mem regs.rip

/-- The step of an `mmap` that is injected. -/
structure Injects (B : Behaviour) (t : Target) (oldregs regs : UserRegs) (mem : Memory) : Prop where
  stepping : t.mode = .stepping
  code : t.word t.regs.rip = some syscall_x86
  called : t.regs = mmapRegs oldregs
  steps : B.steps t regs mem

/-- What an injected `mmap` has returned is in `probe_`, and the code that it was injected
into is back. -/
def AfterMmap (B : Behaviour) (t : Target) : Prop :=
  ∃ t₀ oldregs regs mem orig_code, Injects B t₀ oldregs regs mem ∧ t.probe = regs.rax ∧
    t.mem = pokeWord mem oldregs.rip orig_code

/-- The steps under which `probe_` stays sound. -/
structure Reliable (pid : Pid) (B : Behaviour) : Prop where
  /-- The `mmap` that is injected maps a page. -/
  mmap : ∀ t oldregs regs mem, Injects B t oldregs regs mem → Maps t.mem regs.rax mem
  /-- Its single step is not interrupted by `SIGCHLD`. -/
  unbroken : ∀ t status, t.mode = .stepping → B.tells t pid (pid, status) →
    WIFSTOPPED status = true → WSTOPSIG status ≠ SIGCHLD
  /-- From then on nothing fails until the trampoline has been written. -/
  window : ∀ t, AfterMmap B t → ¬ Usable t.mem t.probe → (∀ r, ¬ B.refuses t r) ∧
    ∀ names, B.lists t names → ∀ name ∈ names, Listable name
  /-- The target leaves that page alone. -/
  leaves : ∀ t regs mem, B.stops t regs mem → t.probe ≠ 0 → Usable t.mem t.probe →
    Usable mem t.probe

/-- A value that `rax` had where the target stopped in a call. -/
def Answered (B : Behaviour) (rax : Word) : Prop :=
  ∃ t regs mem, t.mode = .running ∧ Usable t.mem t.probe ∧ B.stops t regs mem ∧ rax = regs.rax

/-- How a part of the program ends that leaves `probe_` sound. -/
def SoundPost {α : Type} (P : α → Prop) : Outcome Exception α → Target → Prop
  | .ok a, t => Sound t ∧ P a
  | .error _, t => Sound t
  | .abort, _ | .cut, _ => True

section

variable {pid : Pid} {fuel : ℕ} {B : Behaviour} {t : Target}

theorem Sound.of_zero (h : t.probe = 0) : Sound t := fun hne => absurd h hne

theorem Sound.threadsOnly {t' : Target} (h : Sound t) (ht : ThreadsOnly t t') : Sound t' := by
  obtain ⟨held, dir, rfl⟩ := ht
  exact h

theorem bytes_poke_trampoline (m : Memory) (page : Word) :
    ByteMemory.bytes (pokeWord m page trampoline) page 3 = some [0xff, 0xd0, 0xcc] :=
  bytes_pokeWord m page trampoline (by decide)

theorem usable_poke {m : Memory} {page : Word} (h : ∀ a, onPage page a → (m a).isSome) :
    Usable (pokeWord m page trampoline) page where
  mapped a hon := (pokeWord_isSome (peek_page h) a).trans (h a hon)
  code := bytes_poke_trampoline m page

/-- A new page is another one. -/
theorem Usable.of_maps {m m' : Memory} {page page' : Word} (h : Usable m page)
    (hmaps : Maps m page' m') : Usable m' page := by
  have hrest : ∀ a, onPage page a → m' a = m a := fun a hon => hmaps.rest a fun hon' => by
    have hmapped := h.mapped a hon
    rw [hmaps.fresh a hon'] at hmapped
    contradiction
  refine ⟨fun a hon => (hrest a hon) ▸ h.mapped a hon, ?_⟩
  rw [← h.code]
  refine ByteMemory.bytes_congr fun i hi => hrest _ ?_
  rw [onPage, ByteMemory.ofNat_sub_self _ (by omega)]
  exact Nat.lt_trans hi (by decide)

/-- `AllocPage` does not touch `probe_`, and the page it returns is mapped. -/
theorem Reliable.wp_allocPage (h : Reliable pid B) (hzero : t.probe = 0) :
    wp (kernel pid B jumps) (fun o t' => match o with
      | .ok page => AfterMmap B (t'.setProbe page) ∧ page ≠ 0 ∧ page ≠ MAP_FAILED ∧
          ∀ a, onPage page a → (t'.mem a).isSome
      | .error _ => t'.probe = 0
      | .abort | .cut => True) (allocPage fuel pid) t := by
  refine wp_bind.mpr (wp_getRegs ?_ fun _ _ => hzero)
  refine wp_bind.mpr (wp_peek (fun orig_code _ => ?_) fun _ _ => hzero)
  refine wp_bind.mpr (wp_poke (fun _ => ?_) fun _ _ => hzero)
  have hreported : t.regs.rip ∈ t.reported ++ [t.regs.rip] := by simp
  refine wp_bind.mpr (wp_setRegs (.inl hreported) ?_ fun _ _ => hzero)
  -- The target steps from here.
  let injected : Target :=
    ((t.report.poke t.regs.rip syscall_x86).setRegs (mmapRegs t.regs)).resume .stepping
  have hcode : injected.word injected.regs.rip = some syscall_x86 :=
    peekWord_pokeWord_self t.mem t.regs.rip syscall_x86
  refine wp_bind.mpr (wp_singleStep (wp_doWait (· = injected)
    (fun t' => ∃ regs mem, B.steps injected regs mem ∧ t' = injected.stopAt regs mem)
    ?_ ?_ ?_ ?_ ?_ (fun _ => trivial) (fun _ => trivial) rfl) fun _ _ => hzero)
  · rintro _ rfl regs mem hstops
    exact ⟨regs, mem, hstops, rfl⟩
  · rintro _ rfl status htells hstopped hsig
    exact absurd hsig (h.unbroken injected status rfl htells hstopped)
  · rintro _ _ ⟨regs, mem, hsteps, rfl⟩
    have hinjects : Injects B injected t.regs regs mem := ⟨rfl, hcode, rfl, hsteps⟩
    have hmaps := h.mmap injected t.regs regs mem hinjects
    refine wp_bind.mpr (wp_getRegs ?_ fun _ _ => hzero)
    refine wp_bind.mpr (wp_setRegs (.inl (List.mem_append_left _ hreported)) ?_ fun _ _ => hzero)
    refine wp_bind.mpr (wp_poke (fun hmapped => ?_) fun _ _ => hzero)
    refine ⟨⟨injected, t.regs, regs, mem, orig_code, hinjects, rfl, rfl⟩, hmaps.ne_zero,
      ne_mapFailed_of_aligned hmaps.aligned, fun a hon => ?_⟩
    exact (pokeWord_isSome hmapped a).trans (hmaps.mapped a hon)
  · rintro e _ (rfl | ⟨regs, mem, -, rfl⟩)
    · exact hzero
    · exact hzero
  · rintro e _ rfl
    exact hzero

/-- Until the page in `probe_` has a trampoline, nothing fails. -/
theorem Reliable.calm (h : Reliable pid B) (hinjected : AfterMmap B t)
    (hbare : ¬ Usable t.mem t.probe) : B.Calm t where
  willing := by
    rintro _ ⟨held, dir, rfl⟩ r
    exact (h.window { t with held := held, dir := dir } hinjected hbare).1 r
  listable := (h.window t hinjected hbare).2

theorem Reliable.wp_setUpProbe (h : Reliable pid B) (ht : Sound t) :
    wp (kernel pid B jumps) (fun o t' => match o with
      | .ok ready => ready = true ∧ t'.probe ≠ 0 ∧ Usable t'.mem t'.probe
      | .error _ => Sound t'
      | .abort | .cut => True) (setUpProbe fuel pid) t := by
  refine wp_probe ?_
  split_ifs with hzero
  · refine wp_bind_of wp_pauseChildThreads fun o t₁ ⟨hthreads, _⟩ => ?_
    have hzero₁ : t₁.probe = 0 := by
      obtain ⟨held, dir, rfl⟩ := hthreads
      exact hzero
    cases o with
    | error e => exact .of_zero hzero₁
    | abort | cut => trivial
    | ok =>
        refine wp_bind_of (h.wp_allocPage hzero₁) fun o t₂ h₂ => ?_
        cases o with
        | error e => exact .of_zero h₂
        | abort | cut => trivial
        | ok page =>
            obtain ⟨hinjected, hne, hvalid, hmapped⟩ := h₂
            refine wp_setProbe ?_
            -- `probe_` is set, but the page may still be without code.
            refine wp_bind_of wp_resumeChildThreads fun o t₃ ⟨hthreads, _, hcalm, _⟩ => ?_
            have hsame : t₃.mem = t₂.mem ∧ t₃.probe = page ∧ AfterMmap B t₃ := by
              obtain ⟨held, dir, rfl⟩ := hthreads
              exact ⟨rfl, rfl, hinjected⟩
            obtain ⟨hmem, hprobe, hinjected₃⟩ := hsame
            cases o with
            | abort | cut => trivial
            | error e =>
                refine fun _ => ?_
                by_contra hbare
                rw [hmem, hprobe] at hbare
                exact hcalm (h.calm (t := t₂.setProbe page) hinjected hbare) e rfl
            | ok =>
                refine wp_probe ?_
                rw [hprobe, if_neg hvalid]
                refine wp_probe (wp_bind.mpr ?_)
                rw [hprobe]
                have hmapped₃ : ∀ a, onPage page a → (t₃.mem a).isSome := hmem ▸ hmapped
                refine wp_poke (fun _ => ?_) fun href what => ?_
                · refine ⟨rfl, ?_, ?_⟩
                  · exact hprobe ▸ hne
                  · change Usable (pokeWord t₃.mem page trampoline) t₃.probe
                    rw [hprobe]
                    exact usable_poke hmapped₃
                · refine fun _ => ?_
                  by_contra hbare
                  rcases href with href | hunmapped
                  · exact (h.window t₃ hinjected₃ hbare).1 _ href
                  · have hsome := peek_page hmapped₃
                    rw [show peekWord t₃.mem page = none from hunmapped] at hsome
                    contradiction
  · exact ⟨rfl, hzero, ht hzero⟩

/-- A call redirects `rip` to a page that can be jumped to, whatever becomes of it,
and returns what the target answered. -/
theorem Reliable.wp_ptraceCallFunction (h : Reliable pid B) (ht : Sound t) (addr : Word) :
    wp (kernel pid B jumps) (SoundPost (Answered B)) (ptraceCallFunction fuel pid addr) t := by
  refine wp_bind_of (h.wp_setUpProbe ht) fun o t₁ h₁ => ?_
  cases o with
  | error e => exact h₁
  | abort | cut => trivial
  | ok ready =>
      obtain ⟨rfl, hne, husable⟩ := h₁
      refine wp_bind.mpr (wp_getRegs ?_ fun _ _ _ => husable)
      refine wp_probe (wp_bind.mpr (wp_setRegs (.inr husable) ?_ fun _ _ _ => husable))
      refine wp_bind.mpr (wp_cont ?_ fun _ _ _ => husable)
      let Safe (t : Target) : Prop :=
        t.probe ≠ 0 ∧ Usable t.mem t.probe ∧ t₁.regs.rip ∈ t.reported
      have hstop : ∀ t, Safe t → ∀ regs mem, B.stops t regs mem → Safe (t.stopAt regs mem) :=
        fun t ht regs mem hstops => ⟨ht.1, h.leaves t regs mem hstops ht.1 ht.2.1, ht.2.2⟩
      refine wp_bind.mpr (wp_doWait (fun t => t.mode = .running ∧ Safe t)
        (fun t => Safe t ∧ Answered B t.regs.rax) ?_ ?_ ?_ ?_ ?_ (fun _ => trivial) (fun _ => trivial)
        ⟨rfl, hne, husable, by simp [Target.report, Target.setRegs, Target.resume]⟩)
      · rintro t ⟨hmode, hsafe⟩ regs mem hstops
        exact ⟨hstop t hsafe regs mem hstops, t, regs, mem, hmode, hsafe.2.1, hstops, rfl⟩
      · rintro t ⟨-, hsafe⟩ _ _ _ _ regs mem hstops
        exact ⟨rfl, hstop t hsafe regs mem hstops⟩
      · rintro status t₂ ⟨⟨_, husable₂, hreported⟩, hanswer⟩
        refine wp_bind.mpr (wp_getRegs ?_ fun _ _ _ => husable₂)
        refine wp_bind.mpr (wp_setRegs (.inl (List.mem_append_left _ hreported)) ?_
          fun _ _ _ => husable₂)
        exact ⟨fun _ => husable₂, hanswer⟩
      · rintro e t₂ (⟨-, -, husable₂, -⟩ | ⟨⟨-, husable₂, -⟩, -⟩)
        · exact fun _ => husable₂
        · exact fun _ => husable₂
      · rintro e t₂ ⟨-, -, husable₂, -⟩
        exact fun _ => husable₂

/-- A sequence of calls, whatever becomes of each. -/
def attempts (fuel : ℕ) (pid : Pid) (addrs : List Word) : Tracer Unit :=
  addrs.forM fun addr => do
    let _ ← (ptraceCallFunction fuel pid addr).attempt

theorem Reliable.wp_attempts (h : Reliable pid B) (ht : Sound t) (addrs : List Word) :
    wp (kernel pid B jumps) (SoundPost fun _ => True) (attempts fuel pid addrs) t := by
  refine wp_forM (fun _ => Sound) (fun t ht => ⟨ht, trivial⟩) (fun addr _ t ht => ?_) ht
  refine wp_bind.mpr (wp_attempt.mpr (wp_mono (fun o t' h' => ?_) (h.wp_ptraceCallFunction ht addr)))
  cases o with
  | ok rax => exact h'.1
  | error e => exact h'
  | abort | cut => trivial

theorem Reliable.wp_callInterpHead (h : Reliable pid B) (ht : Sound t) (enable_threads : Bool)
    {addrs : PyAddresses} (hhint : addrs.interp_head_hint = 0) :
    wp (kernel pid B jumps)
      (SoundPost fun r => r.interp_head_hint = 0 ∨ Answered B r.interp_head_hint)
      (callInterpHead fuel pid enable_threads addrs) t := by
  unfold callInterpHead
  split_ifs
  · refine wp_bind_of (h.wp_ptraceCallFunction ht _) fun o t' h' => ?_
    cases o with
    | ok rax => exact ⟨h'.1, .inr h'.2⟩
    | error e => exact h'
    | abort | cut => trivial
  · exact ⟨ht, .inl hhint⟩

/-- A hint that was found is what a call answered. -/
def FoundHint (B : Behaviour) (found : Option (PyABI × PyAddresses)) : Prop :=
  ∀ abi addrs, found = some (abi, addrs) →
    addrs.interp_head_hint = 0 ∨ Answered B addrs.interp_head_hint

theorem Reliable.wp_setAddrsIn (h : Reliable pid B) (ht : Sound t) (enable_threads : Bool)
    (ns : Namespace) :
    wp (kernel pid B jumps) (SoundPost (FoundHint B)) (setAddrsIn fuel pid enable_threads ns) t := by
  have haddrs := wp_only (v := kernel pid B jumps) kernel_foreign (only_addrs fuel pid ns)
    (addrs_hint fuel pid ns) t
  refine wp_bind.mpr (wp_attempt.mpr (wp_mono (fun o t' ⟨ht', hhint⟩ => ?_) haddrs))
  subst ht'
  cases o with
  | abort | cut => trivial
  | error e => cases e with
    | symbol => exact ⟨ht, nofun⟩
    | terminate | fatal | ptrace | other => exact ht
  | ok r =>
      refine wp_bind_of (h.wp_callInterpHead ht enable_threads (hhint r rfl)) fun o t'' h'' => ?_
      cases o with
      | ok addrs =>
          refine ⟨h''.1, ?_⟩
          rintro _ _ ⟨⟩
          exact h''.2
      | error e => exact h''
      | abort | cut => trivial

theorem Reliable.wp_setAddrs (h : Reliable pid B) (ht : Sound t) (enable_threads : Bool) :
    wp (kernel pid B jumps)
      (SoundPost (FoundHint B)) (setAddrs fuel pid enable_threads) t := by
  have hofPid := wp_only (v := kernel pid B jumps) kernel_foreign
    (Namespace.only_ofPid fuel pid) (Ensures.anything (fun _ _ => trivial) _) t
  refine wp_bind_of hofPid fun o _ ⟨ht', _⟩ => ?_
  subst ht'
  cases o with
  | error e => exact ht
  | abort | cut => trivial
  | ok ns =>
      refine wp_bind_of (wp_attempt.mpr (wp_mono (fun o t' h' => ?_)
        (h.wp_setAddrsIn ht enable_threads ns))) (R := fun o t' => match o with
          | .ok (.ok found) => Sound t' ∧ FoundHint B found
          | .ok (.error _) => Sound t'
          | .error _ => False
          | .abort | .cut => True) fun o t' h' => ?_
      · cases o with
        | ok | error => exact h'
        | abort | cut => trivial
      · cases o with
        | error => exact h'.elim
        | abort | cut => trivial
        | ok result =>
            have hdestroy := wp_only (v := kernel pid B jumps) kernel_foreign
              (ns.only_destroy fuel) (Ensures.anything (fun _ _ => trivial) _) t'
            have hsound : Sound t' := by
              cases result with
              | ok found => exact h'.1
              | error e => exact h'
            refine wp_bind_of hdestroy ?_
            rintro o _ ⟨rfl, -⟩
            cases o with
            | error e => exact hsound
            | abort | cut => trivial
            | ok =>
                cases result with
                | ok found => exact h'
                | error e => exact h'

/-- As long as the steps are reliable, no sequence of calls and no `set_addrs_` redirects
`rip` to anything but a page with the trampoline on it; `probe_` is zero or
such a page afterwards, and a hint is what a call answered. -/
theorem probe_sound (h : Reliable pid B) (ht : Sound t) :
    (∀ addrs, wp (kernel pid B jumps) (SoundPost fun _ => True) (attempts fuel pid addrs) t) ∧
      ∀ enable_threads, wp (kernel pid B jumps) (SoundPost (FoundHint B))
        (setAddrs fuel pid enable_threads) t :=
  ⟨h.wp_attempts ht, h.wp_setAddrs ht⟩

end

/-! ### Two kernels -/

/-- The page `0x7000` is free. -/
def Free (m : Memory) : Prop := ∀ a, onPage 0x7000 a → m a = none

theorem Free.maps {m : Memory} (h : Free m) :
    Maps m 0x7000 fun a => if onPage 0x7000 a then some 0 else m a := by
  refine ⟨by decide, by decide, h, fun a hon => ?_, fun a hon => if_neg hon⟩
  rw [if_pos hon]
  rfl

/-- Its system calls map the page `0x7000` while it is free, and the functions called return 42. -/
def mapper : Behaviour :=
  { callee.behaviour with
    steps := fun t regs mem => regs = { t.regs with rip := t.regs.rip + 2, rax := 0x7000 } ∧
      Free t.mem ∧ mem = fun a => if onPage 0x7000 a then some 0 else t.mem a
    runs := fun t regs mem => regs = { t.regs with rip := t.regs.rip + 3, rax := 42 } ∧ mem = t.mem }

theorem mapper_reliable : Reliable 1 mapper where
  mmap := by
    rintro t oldregs regs mem ⟨-, -, -, ⟨rfl, hfree, rfl⟩⟩
    exact hfree.maps
  unbroken t status _ htells _ := by
    obtain rfl : status = trapped := (Prod.mk.inj htells).2
    decide
  window _ _ _ := ⟨fun _ => nofun, fun names hnames => by
    obtain rfl : names = [text ".", text "..", text "1", text "2"] := hnames
    have htid : ∀ tid < 3, Listable (decimal tid) := fun tid htid =>
      .inr (.inr ⟨_, stoi_decimal (by omega)⟩)
    exact List.forall_mem_cons.mpr ⟨.inl rfl, List.forall_mem_cons.mpr ⟨.inr (.inl rfl),
      List.forall_mem_cons.mpr ⟨htid 1 (by decide), List.forall_mem_singleton.mpr
        (htid 2 (by decide))⟩⟩⟩⟩
  leaves t regs mem hstops _ husable := by
    rcases (mapper.stops_iff).mp hstops with ⟨-, -, hfree, rfl⟩ | ⟨-, -, rfl⟩
    · exact husable.of_maps hfree.maps
    · exact husable

theorem probe_sound_mapper :
    wp (kernel 1 mapper jumps) (SoundPost fun _ => True) (attempts 6 1 [0x500000, 0x500000]) atWork :=
  (probe_sound mapper_reliable (.of_zero rfl)).1 _

/-- A target in which `mmap` fails with `ENOMEM`. -/
def exhausted : Machine :=
  { callee with steps := fun t => ({ t.regs with rip := t.regs.rip + 2, rax := -12 }, t.mem) }

/-- A redirection to the address `-12`, which is neither reported nor mapped. -/
def jumpsWild (x : Exchange sys Target) : Bool :=
  match x.req with
  | .setRegs _ regs => regs.rip = -12 ∧ (-12 : Word) ∉ x.state.reported ∧ x.state.mem (-12) = none
  | _ => false

theorem not_permits_of_jumpsWild {pid : Pid} {x : Exchange sys Target} (h : jumpsWild x = true) :
    ¬ jumps.permits pid x.state x.req := by
  obtain ⟨t, req, rep⟩ := x
  cases req with
  | setRegs p regs =>
      obtain ⟨hrip, hreported, hunmapped⟩ := of_decide_eq_true h
      rintro (hold | husable)
      · exact hreported (hrip ▸ hold)
      · have hmapped := husable.mapped regs.rip (by rw [onPage, BitVec.sub_self]; decide)
        rw [hrip, hunmapped] at hmapped
        contradiction
  | _ => exact absurd h Bool.false_ne_true

/-- The error is kept in `probe_`, and the second call jumps to it. -/
theorem probe_unsound_of_exhausted :
    ¬ wp (kernel 1 exhausted.behaviour jumps) (SoundPost fun _ => True)
      (attempts 6 1 [0x500000, 0x500000]) atWork := by
  intro hwp
  obtain ⟨-, hpermits⟩ := wp_trace (h := exhausted.handler)
    (fun x _ => exhausted.handler_step x.state x.req) hwp
  have hwild : (trace exhausted.handler (attempts 6 1 [0x500000, 0x500000]) atWork).any
      jumpsWild = true := by
    decide +kernel
  obtain ⟨x, hx, hx'⟩ := List.any_eq_true.mp hwild
  exact not_permits_of_jumpsWild hx' (hpermits x hx)

end Pyflame
