import Pyflame.Kernel

/-!
What has been put back when a call into the target fails.

`AllocPage`, `PtraceCallFunction` and `PtraceCleanup` change the registers
of the target and the code it is about to run, and attach to its other
threads. Each undoes this at its end, and none where one of its steps
throws. So the target is as it was exactly if nothing was left to be undone
at the step that failed.
-/

namespace Pyflame

open Interaction

/-- What a write changes: the registers, or the word of code at an address. -/
inductive Change
  | regs
  | code
  deriving DecidableEq, Repr

def Write.change (rip : Word) : Write → Option Change
  | .regs _ => some .regs
  | .word addr _ => if ByteMemory.Apart addr 8 rip 8 then none else some .code

def Target.changes (t : Target) (rip : Word) : List Change := t.writes.filterMap (Write.change rip)

/-- The routines that call a function have changed nothing, or `AllocPage` has
put both the registers and the code back. -/
def CallUndone (l : List Change) : Prop := l = [] ∨ l = [.code, .regs, .regs, .code]

/-- The same for `PtraceCleanup`, which may set the registers several times for
its system call. -/
def CleanupUndone (l : List Change) : Prop :=
  l = [] ∨ ∃ n, l = .code :: List.replicate (n + 1) .regs ++ [.code, .regs]

/-- The target `t` is as the target `s` was: its registers, the word of code
it was to run next, and that no child thread is held. -/
structure Restored (s t : Target) : Prop where
  regs : t.regs = s.regs
  code : t.word s.regs.rip = s.word s.regs.rip
  held : t.held = []

/-- Nothing is left to be undone. -/
structure Undone (undone : List Change → Prop) (s t : Target) : Prop where
  changes : undone (t.changes s.regs.rip)
  held : t.held = []

/-- The changes can be told from what was there, and the target does not undo
them by itself: the next code is not a lone `SYSCALL`, wherever the target
stops its registers have moved on and that code is in place, and no page
is handed out that overlaps it. -/
structure Telling (B : Behaviour) (s : Target) : Prop where
  code : s.word s.regs.rip ≠ some syscall_x86
  probe : s.probe ≠ 0 → s.probe ≠ s.regs.rip
  stops : ∀ t regs mem, B.stops t regs mem → regs ≠ s.regs ∧
    peekWord mem s.regs.rip = t.word s.regs.rip ∧ ByteMemory.Apart regs.rax 8 s.regs.rip 8

/-- Whether the target is as it was, read off what has been undone. -/
def Verdict (B : Behaviour) (undone : List Change → Prop) (s t : Target) : Prop :=
  (Undone undone s t → Restored s t) ∧ (Telling B s → Restored s t → Undone undone s t)

section

variable {pid : Pid} {B : Behaviour} {G : Guard} {s t : Target} {undone : List Change → Prop}

/-- The registers and the code are in place, after these changes. -/
structure Clean (s : Target) (l : List Change) (t : Target) : Prop where
  regs : t.regs = s.regs
  code : t.word s.regs.rip = s.word s.regs.rip
  changes : t.changes s.regs.rip = l

/-- The registers or the code are not in place. -/
structure Dirty (B : Behaviour) (undone : List Change → Prop) (s t : Target) : Prop where
  changes : ¬ undone (t.changes s.regs.rip)
  telling : Telling B s → t.regs ≠ s.regs ∨ t.word s.regs.rip ≠ s.word s.regs.rip

theorem Clean.verdict {l : List Change} (h : Clean s l t) (hl : undone l) :
    Verdict B undone s t :=
  ⟨fun hu => ⟨h.regs, h.code, hu.held⟩, fun _ hr => ⟨h.changes ▸ hl, hr.held⟩⟩

theorem Dirty.verdict (h : Dirty B undone s t) : Verdict B undone s t := by
  refine ⟨fun hu => absurd hu.changes h.changes, fun htell hr => ?_⟩
  rcases h.telling htell with hregs | hcode
  · exact absurd hr.regs hregs
  · exact absurd hr.code hcode

theorem Clean.threadsOnly {l : List Change} {t' : Target} (h : Clean s l t)
    (ht : ThreadsOnly t t') : Clean s l t' := by
  obtain ⟨held, dir, rfl⟩ := ht
  exact ⟨h.regs, h.code, h.changes⟩

theorem Clean.report {l : List Change} (h : Clean s l t) : Clean s l t.report := ⟨h.regs, h.code, h.changes⟩

/-! ### Changes -/

@[simp] theorem changes_setRegs (t : Target) (regs : UserRegs) (rip : Word) :
    (t.setRegs regs).changes rip = t.changes rip ++ [.regs] := by
  simp [Target.changes, Target.setRegs, Write.change]

theorem apart_self (rip : Word) : ¬ ByteMemory.Apart rip 8 rip 8 := fun h =>
  h rip (by simp) (by simp)

@[simp] theorem changes_poke_self (t : Target) (rip data : Word) :
    (t.poke rip data).changes rip = t.changes rip ++ [.code] := by
  simp [Target.changes, Target.poke, Write.change, apart_self]

@[simp] theorem word_poke_self (t : Target) (addr data : Word) :
    (t.poke addr data).word addr = some data :=
  peekWord_pokeWord_self t.mem addr data

/-! ### A single-stepped system call

The code is not in place from the poke of `SYSCALL` until the old word is
poked back, so the target is dirty at every failure in between. -/

/-- `SYSCALL` has been poked, and the registers set the given number of times
since. -/
structure Injected (B : Behaviour) (s : Target) (n : ℕ) (t : Target) : Prop where
  changes : t.changes s.regs.rip = .code :: List.replicate n .regs
  code : Telling B s → t.word s.regs.rip = some syscall_x86

theorem Injected.dirty {n : ℕ} (h : Injected B s n t)
    (hundone : ∀ n, ¬ undone (.code :: List.replicate n .regs)) : Dirty B undone s t where
  changes := h.changes ▸ hundone n
  telling htell := .inr fun hcode => htell.code (hcode.symm.trans (h.code htell))

theorem Clean.inject (h : Clean s [] t) : Injected B s 0 (t.poke s.regs.rip syscall_x86) where
  changes := by rw [changes_poke_self, h.changes]; rfl
  code _ := word_poke_self _ _ _

theorem Injected.setRegs {n : ℕ} (h : Injected B s n t) (regs : UserRegs) :
    Injected B s (n + 1) (t.setRegs regs) where
  changes := by rw [changes_setRegs, h.changes, List.replicate_succ']; rfl
  code := h.code

/-- The target has stopped after the system call. -/
structure Stepped (B : Behaviour) (s : Target) (n : ℕ) (t : Target) : Prop extends
    Injected B s n t where
  moved : Telling B s → t.regs ≠ s.regs
  page : Telling B s → ByteMemory.Apart t.regs.rax 8 s.regs.rip 8

theorem wp_singleStep_injected {Q : Outcome Exception Unit → Target → Prop} {fuel n : ℕ}
    (h : Injected B s n t) (hok : ∀ t', Stepped B s n t' → Q (.ok ()) t')
    (herr : ∀ e t', Injected B s n t' → Q (.error e) t') (habort : ∀ t', Q .abort t')
    (hcut : ∀ t', Q .cut t') :
    wp (kernel pid B G) Q (ptraceSingleStep fuel pid) t := by
  refine wp_singleStep ?_ fun _ what => herr _ t h
  refine wp_doWait (Injected B s n) (Stepped B s n) ?_ ?_ (fun _ => hok) ?_ ?_ habort hcut
    ⟨h.changes, h.code⟩
  · intro t h regs mem hstops
    refine ⟨⟨h.changes, fun htell => ?_⟩, fun htell => ?_, fun htell => ?_⟩
    · exact (htell.stops t regs mem hstops).2.1.trans (h.code htell)
    · exact (htell.stops t regs mem hstops).1
    · exact (htell.stops t regs mem hstops).2.2
  · intro t h _ _ _ _ regs mem hstops
    exact ⟨h.changes, fun htell => (htell.stops t regs mem hstops).2.1.trans (h.code htell)⟩
  · rintro e t (h | h)
    · exact herr e t h
    · exact herr e t h.toInjected
  · exact fun e t h => herr e _ ⟨h.changes, h.code⟩

/-! ### Calling a function -/

theorem not_callUndone_injected (n : ℕ) : ¬ CallUndone (.code :: List.replicate n .regs) := by
  rintro (h | h)
  · contradiction
  · have := congrArg (List.count Change.code) (List.cons.inj h).2
    simp [List.count_replicate] at this

/-- The changes of a complete `AllocPage`. -/
def allocChanges : List Change := [.code, .regs, .regs, .code]

theorem wp_allocPage {fuel : ℕ} (hG : ∀ t regs, G.setRegs t regs) (h : Clean s [] t) :
    wp (kernel pid B G) (fun o t' => match o with
      | .ok page => Clean s allocChanges t' ∧
          (Telling B s → ByteMemory.Apart page 8 s.regs.rip 8)
      | .error _ => Verdict B CallUndone s t'
      | .abort | .cut => True) (allocPage fuel pid) t := by
  have hundo : ∀ {n t'}, Injected B s n t' → Verdict B CallUndone s t' := fun h =>
    (h.dirty not_callUndone_injected).verdict
  have hclean : ∀ {t'}, Clean s [] t' → Verdict B CallUndone s t' := fun h => h.verdict (.inl rfl)
  refine wp_bind.mpr (wp_getRegs ?_ fun _ _ => hclean h)
  refine wp_bind.mpr (wp_peek (fun orig_code horig => ?_) fun _ _ => hclean h.report)
  rw [h.regs] at horig
  simp only [h.regs]
  refine wp_bind.mpr (wp_poke (fun _ => ?_) fun _ _ => hclean h.report)
  have hpoked := h.report.inject (B := B)
  refine wp_bind.mpr (wp_setRegs (hG _ _) ?_ fun _ _ => hundo hpoked)
  refine wp_bind.mpr (wp_singleStep_injected (hpoked.setRegs _) (fun t₁ h₁ => ?_)
    (fun _ _ => hundo) (fun _ => trivial) fun _ => trivial)
  refine wp_bind.mpr (wp_getRegs ?_ fun _ _ => hundo h₁.toInjected)
  have h₂ : Injected B s 1 t₁.report := ⟨h₁.changes, h₁.code⟩
  refine wp_bind.mpr (wp_setRegs (hG _ _) ?_ fun _ _ => hundo h₂)
  have h₃ := h₂.setRegs s.regs
  refine wp_bind.mpr (wp_poke (fun _ => ?_) fun _ _ => hundo h₃)
  refine ⟨⟨rfl, ?_, ?_⟩, h₁.page⟩
  · exact (word_poke_self _ _ _).trans (horig.symm.trans h.code)
  · rw [changes_poke_self, h₃.changes]
    rfl

/-- The registers and the code are in place and `probe_` is another page; or else
the trampoline was written over the code. -/
def Ready (B : Behaviour) (s t : Target) : Prop :=
  (∃ l, CallUndone l ∧ Clean s l t ∧ (Telling B s → t.probe ≠ s.regs.rip)) ∨
    ¬ Telling B s ∧ t.changes s.regs.rip = allocChanges ++ [.code]

theorem Ready.verdict (h : Ready B s t) : Verdict B CallUndone s t := by
  rcases h with ⟨l, hl, hclean, -⟩ | ⟨htell, hchanges⟩
  · exact hclean.verdict hl
  · have hdirty : Dirty B CallUndone s t :=
      ⟨by rw [hchanges]; rintro (h | h) <;> contradiction, fun h => absurd h htell⟩
    exact hdirty.verdict

theorem Ready.report (h : Ready B s t) : Ready B s t.report := by
  rcases h with ⟨l, hl, hclean, hprobe⟩ | h
  · exact .inl ⟨l, hl, hclean.report, hprobe⟩
  · exact .inr h

/-- The registers are those of a call, or of where it has stopped. -/
structure Redirected (B : Behaviour) (s t : Target) : Prop where
  changes : ¬ CallUndone (t.changes s.regs.rip)
  regs : Telling B s → t.regs ≠ s.regs

theorem Redirected.verdict (h : Redirected B s t) : Verdict B CallUndone s t :=
  Dirty.verdict ⟨h.changes, fun htell => .inl (h.regs htell)⟩

theorem Ready.redirect (h : Ready B s t) (addr : Word) :
    Redirected B s (t.setRegs (callRegs t.regs addr t.probe)) where
  changes := by
    rw [changes_setRegs]
    rcases h with ⟨l, rfl | rfl, hclean, -⟩ | ⟨-, hchanges⟩
    · rw [hclean.changes]
      rintro (h | h) <;> contradiction
    · rw [hclean.changes]
      rintro (h | h) <;> contradiction
    · rw [hchanges]
      rintro (h | h) <;> contradiction
  regs htell := by
    rcases h with ⟨l, -, hclean, hprobe⟩ | ⟨hnot, -⟩
    · exact fun hregs => hprobe htell (congrArg UserRegs.rip hregs)
    · exact absurd htell hnot

theorem ne_of_apart {a b : Word} (h : ByteMemory.Apart a 8 b 8) : a ≠ b := by
  rintro rfl
  exact apart_self a h

/-- The poke of the trampoline does not touch the code unless the page
overlaps it. -/
theorem Clean.poke_probe (h : Clean s allocChanges t)
    (happart : Telling B s → ByteMemory.Apart t.probe 8 s.regs.rip 8) :
    Ready B s (t.poke t.probe trampoline) := by
  by_cases hoverlap : ByteMemory.Apart t.probe 8 s.regs.rip 8
  · refine .inl ⟨allocChanges, .inr rfl, ⟨h.regs, ?_, ?_⟩, fun _ => ne_of_apart hoverlap⟩
    · exact (peekWord_pokeWord_apart t.mem hoverlap.symm).trans h.code
    · have hchanges := h.changes
      simp only [Target.changes] at hchanges
      simp [Target.changes, Target.poke, Write.change, hoverlap, hchanges]
  · refine .inr ⟨fun htell => hoverlap (happart htell), ?_⟩
    have hchanges := h.changes
    simp only [Target.changes] at hchanges
    simp [Target.changes, Target.poke, Write.change, hoverlap, hchanges]

theorem wp_setUpProbe {fuel : ℕ} (hG : ∀ t regs, G.setRegs t regs) (h : Clean s [] t)
    (hprobe : t.probe = s.probe) :
    wp (kernel pid B G) (fun o t' => match o with
      | .ok true => Ready B s t'
      | .error _ => Verdict B CallUndone s t'
      | _ => True) (setUpProbe fuel pid) t := by
  refine wp_probe ?_
  split_ifs with hzero
  · refine wp_bind_of wp_pauseChildThreads fun o t₁ ⟨hthreads, _⟩ => ?_
    have h₁ := h.threadsOnly hthreads
    cases o with
    | error e => exact h₁.verdict (.inl rfl)
    | abort | cut => trivial
    | ok =>
        refine wp_bind_of (wp_allocPage hG h₁) fun o t₂ h₂ => ?_
        cases o with
        | error e => exact h₂
        | abort | cut => trivial
        | ok page =>
            obtain ⟨⟨hregs, hcode, hchanges⟩, hpage⟩ := h₂
            refine wp_setProbe ?_
            refine wp_bind_of wp_resumeChildThreads fun o t₃ ⟨hthreads, _⟩ => ?_
            -- Keeping the page and resuming the threads changes neither registers nor memory.
            have h₃ : Clean s allocChanges (t₂.setProbe page) := ⟨hregs, hcode, hchanges⟩
            replace h₃ := h₃.threadsOnly hthreads
            cases o with
            | error e => exact h₃.verdict (.inr rfl)
            | abort | cut => trivial
            | ok =>
                refine wp_probe ?_
                split_ifs
                · trivial
                · have hpage' : t₃.probe = page := by obtain ⟨held, dir, rfl⟩ := hthreads; rfl
                  refine wp_probe (wp_bind.mpr (wp_poke (fun _ => ?_) fun _ _ => ?_))
                  · exact h₃.poke_probe (hpage' ▸ hpage)
                  · exact h₃.verdict (.inr rfl)
  · change Ready B s t
    refine .inl ⟨[], .inl rfl, h, fun htell => ?_⟩
    rw [hprobe] at hzero ⊢
    exact htell.probe hzero

theorem wp_ptraceCallFunction_undo {fuel : ℕ} {addr : Word} (hG : ∀ t regs, G.setRegs t regs)
    (h : Clean s [] t) (hprobe : t.probe = s.probe) :
    wp (kernel pid B G) (fun o t' => match o with
      | .error _ => Verdict B CallUndone s t'
      | _ => True) (ptraceCallFunction fuel pid addr) t := by
  refine wp_bind_of (wp_setUpProbe hG h hprobe) fun o t₁ h₁ => ?_
  match o, h₁ with
  | .ok false, _ | .abort, _ | .cut, _ => trivial
  | .error e, h₁ => exact h₁
  | .ok true, h₁ =>
      refine wp_bind.mpr (wp_getRegs ?_ fun _ _ => h₁.verdict)
      refine wp_probe (wp_bind.mpr (wp_setRegs (hG _ _) ?_ fun _ _ => h₁.report.verdict))
      have hcall := h₁.report.redirect addr
      refine wp_bind.mpr (wp_cont ?_ fun _ _ => hcall.verdict)
      -- The function may change any memory, but not which writes were made before it.
      have hstop : ∀ t, Redirected B s t → ∀ regs mem, B.stops t regs mem →
          Redirected B s (t.stopAt regs mem) := fun t h regs mem hstops =>
        ⟨h.changes, fun htell => (htell.stops t regs mem hstops).1⟩
      refine wp_bind.mpr (wp_doWait (Redirected B s) (Redirected B s) hstop ?_ ?_ ?_ ?_
        (fun _ => trivial) (fun _ => trivial) ⟨hcall.changes, hcall.regs⟩)
      · intro t h _ _ _ _ regs mem hstops
        exact ⟨h.changes, (hstop t h regs mem hstops).regs⟩
      · intro status t₂ h₂
        refine wp_bind.mpr (wp_getRegs ?_ fun _ _ => h₂.verdict)
        refine wp_bind.mpr (wp_setRegs (hG _ _) trivial fun _ _ => ?_)
        exact Redirected.verdict ⟨h₂.changes, h₂.regs⟩
      · exact fun e t h => (h.elim id id).verdict
      · exact fun e t h => Redirected.verdict ⟨h.changes, h.regs⟩

/-! ### Cleaning up -/

theorem not_cleanupUndone_injected (n : ℕ) : ¬ CleanupUndone (.code :: List.replicate n .regs) := by
  rintro (h | ⟨m, h⟩)
  · contradiction
  · have := congrArg (List.count Change.code) h
    simp [List.count_replicate] at this

theorem not_cleanupUndone_code (n : ℕ) :
    ¬ CleanupUndone (.code :: List.replicate (n + 1) .regs ++ [.code]) := by
  rintro (h | ⟨m, h⟩)
  · contradiction
  · have hlast := congrArg List.getLast? h
    rw [List.getLast?_append, List.getLast?_append] at hlast
    exact absurd hlast (by simp)

/-- The loop around `munmap` leaves the registers of its last pass, with the code
still to be put back. -/
theorem wp_munmapLoop {Q : Outcome Exception Unit → Target → Prop} {fuel : ℕ} {newregs : UserRegs}
    (hG : ∀ t regs, G.setRegs t regs) (h : Injected B s 0 t)
    (hok : ∀ n t', Stepped B s (n + 1) t' → Q (.ok ()) t')
    (herr : ∀ e n t', Injected B s n t' → Q (.error e) t') (habort : ∀ t', Q .abort t')
    (hcut : ∀ t', Q .cut t') :
    wp (kernel pid B G) Q (Prog.forever (munmapStep fuel pid newregs) fuel ()) t := by
  refine wp_forever (fun _ t => ∃ n, Injected B s n t) (fun _ t _ => hcut t) ?_ fuel () ⟨0, h⟩
  rintro - t ⟨n, h⟩
  have hset := h.setRegs newregs
  refine wp_bind.mpr (wp_setRegs (hG _ _) ?_ fun _ _ => herr _ _ _ h)
  refine wp_bind.mpr (wp_singleStep_injected hset (fun t₁ h₁ => ?_) (fun _ _ => herr _ _ _) habort
    hcut)
  refine wp_bind.mpr (wp_getRegs ?_ fun _ _ => herr _ _ _ h₁.toInjected)
  have h₂ : Stepped B s (n + 1) t₁.report := ⟨⟨h₁.changes, h₁.code⟩, h₁.moved, h₁.page⟩
  simp only [onOk_ok]
  split_ifs
  · refine wp_setProbe (hok n _ ⟨⟨h₂.changes, h₂.code⟩, h₂.moved, h₂.page⟩)
  · exact ⟨_, h₂.toInjected⟩
  · refine ⟨trivial, ?_⟩
    rintro _ _ rfl
    exact hok n _ h₂

theorem wp_unmapProbe_undo {fuel : ℕ} (hG : ∀ t regs, G.setRegs t regs) (h : Clean s [] t) :
    wp (kernel pid B G) (fun o t' => match o with
      | .ok _ | .error _ => Verdict B CleanupUndone s t'
      | .abort | .cut => True) (unmapProbe fuel pid) t := by
  have hclean : ∀ {t'}, Clean s [] t' → Verdict B CleanupUndone s t' := fun h =>
    h.verdict (.inl rfl)
  refine wp_bind.mpr (wp_getRegs ?_ fun _ _ => hclean h)
  refine wp_bind.mpr (wp_peek (fun orig_code horig => ?_) fun _ _ => hclean h.report)
  rw [h.regs] at horig
  simp only [h.regs]
  refine wp_probe ?_
  refine wp_bind_of wp_pauseChildThreads fun o t₁ ⟨hthreads, _⟩ => ?_
  have h₁ := h.report.threadsOnly hthreads
  cases o with
  | error e => exact hclean h₁
  | abort | cut => trivial
  | ok =>
      refine wp_bind.mpr (wp_poke (fun _ => ?_) fun _ _ => hclean h₁)
      refine wp_bind.mpr (wp_munmapLoop hG h₁.inject (fun n t₂ h₂ => ?_) (fun e n t₂ h₂ => ?_)
        (fun _ => trivial) fun _ => trivial)
      · refine wp_bind.mpr (wp_poke (fun _ => ?_) fun _ _ => ?_)
        · -- Putting the code back adds a write, and after it the registers are all that is left
          -- to undo.
          have hchanges : (t₂.poke s.regs.rip orig_code).changes s.regs.rip =
              .code :: List.replicate (n + 1) .regs ++ [.code] := by
            rw [changes_poke_self, h₂.changes]
          refine wp_bind.mpr (wp_setRegs (hG _ _) ?_ fun _ _ => ?_)
          · have hrestored : Clean s (.code :: List.replicate (n + 1) .regs ++ [.code, .regs])
                ((t₂.poke s.regs.rip orig_code).setRegs s.regs) := by
              refine ⟨rfl, ?_, ?_⟩
              · exact (word_poke_self _ _ _).trans (horig.symm.trans h.code)
              · rw [changes_setRegs, hchanges]
                simp
            refine wp_mono (fun o t₃ ⟨hthreads, _⟩ => ?_) wp_resumeChildThreads
            have hverdict : Verdict B CleanupUndone s t₃ :=
              (hrestored.threadsOnly hthreads).verdict (.inr ⟨n, rfl⟩)
            cases o with
            | ok | error => exact hverdict
            | abort | cut => trivial
          · refine Dirty.verdict ⟨?_, fun htell => .inl (h₂.moved htell)⟩
            rw [hchanges]
            exact not_cleanupUndone_code n
        · exact (h₂.dirty not_cleanupUndone_injected).verdict
      · exact (h₂.dirty not_cleanupUndone_injected).verdict

/-- What a guard of the statements below requires where the target is let go. -/
def letGo (B : Behaviour) (s : Target) : Guard where
  detach t := t.mode = .stopped → Verdict B CleanupUndone s t

/-- Where a `PtraceException` leaves `PtraceCallFunction` with the target alive and
stopped, and where `PtraceCleanup` lets it go, its registers and code are as
before and no child thread is held exactly if nothing was left to be undone
at that step. -/
theorem restored_iff_undone (pid : Pid) (B : Behaviour) (fuel : ℕ) (addr : Word) (s : Target)
    (hwrites : s.writes = []) :
    wp (kernel pid B {})
      (fun o t => ∀ what, o = .error (.ptrace what) → t.mode = .stopped → Verdict B CallUndone s t)
      (ptraceCallFunction fuel pid addr) s ∧
    wp (kernel pid B (letGo B s)) (fun _ _ => True) (ptraceCleanup fuel pid) s := by
  have hclean : Clean s [] s := ⟨rfl, rfl, by rw [Target.changes, hwrites]; rfl⟩
  constructor
  · refine wp_mono (fun o t h what ho _ => ?_)
      (wp_ptraceCallFunction_undo (fun _ _ => trivial) hclean rfl)
    rw [ho] at h
    exact h
  · have hdetach : ∀ t, Verdict B CleanupUndone s t →
        wp (kernel pid B (letGo B s)) (fun _ _ => True) (safeDetach pid) t := fun t h =>
      ⟨fun _ _ => h, fun _ _ _ => trivial⟩
    refine wp_probe ?_
    split_ifs
    · refine wp_bind.mpr (wp_handle.mpr (wp_mono (fun o t h => ?_)
        (wp_unmapProbe_undo (fun _ _ => trivial) hclean)))
      cases o with
      | ok | error => exact hdetach t h
      | abort | cut => trivial
    · exact hdetach s (hclean.verdict (.inl rfl))

end

/-- A target whose system calls return the page `0x7000`. -/
def mapping (refuses : Target → Request → Bool) (status : Status) : Machine where
  pid := 1
  refuses := refuses
  names := [text ".", text "..", text "1", text "2"]
  status _ := status
  steps t := ({ t.regs with rip := t.regs.rip + 2, rax := 0x7000 },
    ByteMemory.store t.mem 0x7000 (List.replicate 8 0))
  runs t := ({ t.regs with rip := t.regs.rip + 3 }, t.mem)

/-- The poke of the trampoline is refused. -/
def pokeless : Machine := mapping (fun _ r => r = .pokeData 1 0x7000 trampoline) trapped

theorem restored_of_pokeless :
    Restored atWork (run pokeless.handler (ptraceCallFunction 6 1 0x500000) atWork).2 := by
  have hrun := wp_run (pokeless.handler_step ·)
    (restored_iff_undone 1 pokeless.behaviour 6 0x500000 atWork rfl).1
  have hraised : ∃ what, (run pokeless.handler (ptraceCallFunction 6 1 0x500000) atWork).1 =
      .error (.ptrace what) := ⟨text "Failed to PTRACE_POKEDATA at 0x7000: ", by decide +kernel⟩
  obtain ⟨what, hraised⟩ := hraised
  exact (hrun what hraised (by decide +kernel)).1 ⟨.inr (by decide +kernel), by decide +kernel⟩

/-- A signal other than `SIGTRAP` stops the target in the middle of `AllocPage`. -/
def interrupted : Machine := mapping (fun _ _ => false) 0x0a7f

theorem not_restored_of_interrupted :
    ¬ wp (kernel 1 interrupted.behaviour {})
      (fun o t => ∀ what, o = .error (.ptrace what) → t.mode = .stopped → Restored atWork t)
      (ptraceCallFunction 6 1 0x500000) atWork := by
  intro h
  have hrun := wp_run (interrupted.handler_step ·) h
  have hregs := (hrun (text "waitpid() indicated a WIFSTOPPED process, but got unexpected signal 10")
    (by decide +kernel) (by decide +kernel)).regs
  revert hregs
  decide +kernel

end Pyflame
