import Pyflame.SingleStep
import Pyflame.Library.Layers
import Mathlib.Data.Finset.Card
import Mathlib.Logic.Relation

/-!
The other threads of the target while its code is overwritten.

They are listed from `/proc` and then attached to one at a time. A thread
that has not been stopped yet may start another or end at any point in
between.
-/

namespace Pyflame

open Interaction

/-- The threads of the target, and the stream of its task directory. -/
structure Tasks where
  live : Finset Pid
  /-- Attached to, and not stopped yet. -/
  attached : Finset Pid := ∅
  stopped : Finset Pid := ∅
  /-- Those that the stream has yet to return: they have been there since it was
  opened. -/
  due : Finset Pid := ∅
  /-- Those that it has returned. -/
  read : Finset Pid := ∅
  /-- How many of the entries `.` and `..` are left. -/
  dots : ℕ := 0
  attached_live : attached ⊆ live := by decide
  stopped_live : stopped ⊆ live := by decide

namespace Tasks

variable (t : Tasks)

def clone (child : Pid) : Tasks :=
  { t with
    live := insert child t.live
    attached_live := t.attached_live.trans (Finset.subset_insert _ _)
    stopped_live := t.stopped_live.trans (Finset.subset_insert _ _) }

def exit (tid : Pid) (h : tid ∉ t.stopped) : Tasks :=
  { t with
    live := t.live.erase tid
    attached := t.attached.erase tid
    due := t.due.erase tid
    attached_live := Finset.erase_subset_erase _ t.attached_live
    stopped_live := fun _ hx => Finset.mem_erase.mpr ⟨fun heq => h (heq ▸ hx), t.stopped_live hx⟩ }

def attach (tid : Pid) (h : tid ∈ t.live) : Tasks :=
  { t with
    attached := insert tid t.attached
    attached_live := Finset.insert_subset h t.attached_live }

def stop (tid : Pid) (h : tid ∈ t.attached) : Tasks :=
  { t with
    attached := t.attached.erase tid
    stopped := insert tid t.stopped
    attached_live := (Finset.erase_subset _ _).trans t.attached_live
    stopped_live := Finset.insert_subset (t.attached_live h) t.stopped_live }

def detach (tid : Pid) : Tasks :=
  { t with
    stopped := t.stopped.erase tid
    stopped_live := (Finset.erase_subset _ _).trans t.stopped_live }

def openDir : Tasks := { t with due := t.live, read := ∅, dots := 2 }

def readDots : Tasks := { t with dots := t.dots - 1 }

def readTask (tid : Pid) : Tasks := { t with due := t.due.erase tid, read := insert tid t.read }

end Tasks

/-- What a thread other than `pid` does that is not stopped. -/
inductive Move (pid : Pid) : Tasks → Tasks → Prop
  | clone (t : Tasks) (parent child : Pid) (hlive : parent ∈ t.live) (hne : parent ≠ pid)
      (hfree : parent ∉ t.stopped) (hnew : child ∉ t.live) : Move pid t (t.clone child)
  | exit (t : Tasks) (tid : Pid) (hlive : tid ∈ t.live) (hne : tid ≠ pid) (hfree : tid ∉ t.stopped) :
      Move pid t (t.exit tid hfree)

/-- Any number of threads do any number of things. -/
abbrev Moves (pid : Pid) : Tasks → Tasks → Prop := Relation.ReflTransGen (Move pid)

/-- A directory entry is the number of a thread. -/
def Names (name : Bytes) (tid : Pid) : Prop :=
  stoi name = .ok tid ∧ name ≠ text "." ∧ name ≠ text ".."

/-- What a request may reply and do. The directory of a live process can be opened; a
stream returns every entry that was there when it was opened and has stayed, and no
entry twice; a thread that is stopped by its tracer can be detached. -/
def tasksStep (pid : Pid) (t : Tasks) (r : Request) : r.Rep → Tasks → Prop :=
  match r with
  | .opendir _ => fun opened t' => opened = true ∧ t' = t.openDir
  | .readdir => fun
      | none, t' => t.due = ∅ ∧ t' = t
      | some name, t' =>
          0 < t.dots ∧ (name = text "." ∨ name = text "..") ∧ t' = t.readDots ∨
            ∃ tid ∈ t.live, tid ∉ t.read ∧ Names name tid ∧ t' = t.readTask tid
  | .attach tid => fun rep t' =>
      grantedOr t t' (fun _ => ∃ h : tid ∈ t.live, tid ∉ t.attached ∧ tid ∉ t.stopped ∧
        t' = t.attach tid h) rep
  | .waitpid p _ => fun rep t' =>
      if p = pid then t' = t
      else grantedOr t t' (fun told => told.1 = p ∧
        ((WIFSTOPPED told.2 = true ∧ ∃ h : p ∈ t.attached, t' = t.stop p h) ∨
          WIFSTOPPED told.2 = false ∧ p ∉ t.live ∧ t' = t)) rep
  | .detach p => fun rep t' =>
      if p = pid then t' = t
      else match rep with
        | .ok _ => p ∈ t.stopped ∧ t' = t.detach p
        | .error _ => p ∉ t.stopped ∧ t' = t
  | _ => fun _ t' => t' = t

/-- Before every request the threads that are free may do what they like. -/
def tasks (pid : Pid) (guard : Tasks → Request → Prop) : Env sys Tasks where
  step t r rep t' := ∃ t₁, Moves pid t t₁ ∧ tasksStep pid t₁ r rep t'
  permits := guard

/-- Every other thread is attached and stopped. -/
def AllStopped (pid : Pid) (t : Tasks) : Prop := ∀ tid ∈ t.live, tid ≠ pid → tid ∈ t.stopped

/-- Every other thread that is alive has been returned by the stream. -/
def Caught (pid : Pid) (t : Tasks) : Prop := ∀ tid ∈ t.live, tid ≠ pid → tid ∈ t.read

/-- Requests about no thread but `pid`. -/
def Request.Local (pid : Pid) : Request → Prop
  | .attach _ | .opendir _ | .readdir => False
  | .detach p | .waitpid p _ => p = pid
  | _ => True

/-- What `PtraceCleanup` does from the poke over the code to the one that undoes it. -/
def unmapWindow (fuel : ℕ) (pid : Pid) (oldregs newregs : UserRegs) (orig_code : Word) :
    Tracer Unit := do
  ptracePoke pid oldregs.rip syscall_x86
  Prog.forever (munmapStep fuel pid newregs) fuel ()
  ptracePoke pid oldregs.rip orig_code

theorem unmapProbe_eq (fuel : ℕ) (pid : Pid) :
    unmapProbe fuel pid = (do
      let oldregs ← ptraceGetRegs pid
      let orig_code ← ptracePeek pid oldregs.rip
      let newregs := munmapRegs oldregs (← ask .probe)
      pauseChildThreads fuel pid
      unmapWindow fuel pid oldregs newregs orig_code
      ptraceSetRegs pid oldregs
      resumeChildThreads fuel pid) := by
  simp only [unmapProbe, unmapWindow, Prog.bind_eq, Prog.bind_assoc]

section

variable {pid : Pid} {t t' : Tasks}

/-! ### What happens in between -/

theorem Move.stopped_eq (h : Move pid t t') : t'.stopped = t.stopped := by
  cases h <;> rfl

theorem Move.read_eq (h : Move pid t t') : t'.read = t.read := by
  cases h <;> rfl

theorem Moves.stopped_eq (h : Moves pid t t') : t'.stopped = t.stopped := by
  induction h with
  | refl => rfl
  | tail _ hmove ih => exact hmove.stopped_eq.trans ih

theorem Moves.read_eq (h : Moves pid t t') : t'.read = t.read := by
  induction h with
  | refl => rfl
  | tail _ hmove ih => exact hmove.read_eq.trans ih

/-- A stopped thread that the stream has yet to return stays so. -/
theorem Moves.due_mem (h : Moves pid t t') {tid : Pid} (hstopped : tid ∈ t.stopped)
    (hdue : tid ∈ t.due) : tid ∈ t'.due := by
  induction h with
  | refl => exact hdue
  | tail hmoves hmove ih =>
      have heq := Moves.stopped_eq hmoves
      cases hmove with
      | clone => exact ih
      | exit tid' hlive hne hfree =>
          refine Finset.mem_erase.mpr ⟨?_, ih⟩
          rintro rfl
          exact hfree (heq ▸ hstopped)

/-- Where every thread is stopped nothing happens. -/
theorem AllStopped.frozen (h : AllStopped pid t) (hmoves : Moves pid t t') : t' = t := by
  rcases Relation.ReflTransGen.cases_head_iff.mp hmoves with rfl | ⟨t₁, hmove, -⟩
  · rfl
  · cases hmove with
    | clone parent child hlive hne hfree => exact absurd (h parent hlive hne) hfree
    | exit tid hlive hne hfree => exact absurd (h tid hlive hne) hfree

end

/-! ### Stopping them -/

section

variable {pid : Pid} {t t' : Tasks} {guard : Tasks → Request → Prop}

/-- The list so far holds what the stream has returned, and a thread that is stopped
will be on it. -/
def Listed (tids : List Pid) (t : Tasks) : Prop :=
  (∀ tid, tid ∈ t.read ↔ tid ∈ tids) ∧ ∀ tid ∈ t.stopped, tid ∈ t.due ∨ tid ∈ t.read

theorem Listed.moves {tids : List Pid} (h : Listed tids t) (hmoves : Moves pid t t') :
    Listed tids t' := by
  refine ⟨fun tid => ?_, fun tid hstopped => ?_⟩
  · rw [hmoves.read_eq]
    exact h.1 tid
  · rw [hmoves.stopped_eq] at hstopped
    rw [hmoves.read_eq]
    exact (h.2 tid hstopped).imp_left (hmoves.due_mem hstopped)

/-- After the loop the stream has nothing left to return. -/
def ListedAll : Outcome Exception (List Pid) → Tasks → Prop
  | .ok tids, t => Listed tids t ∧ t.due = ∅
  | _, _ => True

theorem wp_listThreads_tasks {fuel : ℕ} (hguard : ∀ t r, guard t r) :
    wp (tasks pid guard) ListedAll (listThreads fuel pid) t := by
  refine ⟨hguard _ _, fun opened t' hstep => ?_⟩
  obtain ⟨t₁, -, rfl, rfl⟩ := hstep
  have hopen : Listed [] t₁.openDir := by
    refine ⟨fun tid => ?_, fun tid hstopped => .inl (t₁.stopped_live hstopped)⟩
    simp [Tasks.openDir]
  apply wp_forever (fun tids t => Listed tids t) (fun _ _ _ => trivial) _ fuel [] hopen
  intro tids t hlisted
  refine ⟨hguard _ _, fun rep t' hstep => ?_⟩
  obtain ⟨t₁, hmoves, hread⟩ := hstep
  have hlisted := hlisted.moves hmoves
  cases rep with
  | none =>
      obtain ⟨hdue, rfl⟩ := hread
      exact ⟨hlisted, hdue⟩
  | some name =>
      show wp _ _ (if name ≠ text "." ∧ name ≠ text ".." then _ else _) t'
      rcases hread with ⟨-, hdots, rfl⟩ | ⟨tid, -, -, ⟨hname, hdot, hdots⟩, rfl⟩
      · rw [if_neg fun h => hdots.elim h.1 h.2]
        exact hlisted
      · rw [if_pos ⟨hdot, hdots⟩, hname]
        refine ⟨fun tid' => ?_, fun tid' hstopped => ?_⟩
        · rw [Tasks.readTask, Finset.mem_insert, hlisted.1, List.mem_append, List.mem_singleton]
          exact or_comm
        · by_cases heq : tid' = tid
          · exact .inr (Finset.mem_insert.mpr (.inl heq))
          · rcases hlisted.2 tid' hstopped with hdue | hread
            · exact .inl (Finset.mem_erase.mpr ⟨heq, hdue⟩)
            · exact .inr (Finset.mem_insert.mpr (.inr hread))

/-- In the loop over the list, with `rest` of it left: those before it are stopped. -/
structure Attaching (pid : Pid) (tids rest : List Pid) (t : Tasks) : Prop where
  read_iff : ∀ tid, tid ∈ t.read ↔ tid ∈ tids
  stopped_read : ∀ tid ∈ t.stopped, tid ∈ t.read
  rest_mem : ∀ tid ∈ rest, tid ∈ tids
  stopped_of_mem : ∀ tid ∈ tids, tid ≠ pid → tid ∈ rest ∨ tid ∈ t.stopped

theorem Attaching.congr {tids rest : List Pid} (h : Attaching pid tids rest t)
    (hread : t'.read = t.read) (hstopped : t'.stopped = t.stopped) : Attaching pid tids rest t' := by
  refine ⟨?_, ?_, h.rest_mem, ?_⟩
  · rw [hread]
    exact h.read_iff
  · rw [hread, hstopped]
    exact h.stopped_read
  · rw [hstopped]
    exact h.stopped_of_mem

theorem Attaching.moves {tids rest : List Pid} (h : Attaching pid tids rest t)
    (hmoves : Moves pid t t') : Attaching pid tids rest t' :=
  h.congr hmoves.read_eq hmoves.stopped_eq

/-- The next thread has stopped. -/
theorem Attaching.stop {tids rest : List Pid} {tid : Pid} (h : Attaching pid tids (tid :: rest) t)
    (hattached : tid ∈ t.attached) : Attaching pid tids rest (t.stop tid hattached) where
  read_iff := h.read_iff
  stopped_read tid' hstopped := by
    rcases Finset.mem_insert.mp hstopped with rfl | hstopped
    · exact (h.read_iff _).mpr (h.rest_mem _ List.mem_cons_self)
    · exact h.stopped_read tid' hstopped
  rest_mem tid' hmem := h.rest_mem tid' (List.mem_cons_of_mem _ hmem)
  stopped_of_mem tid' hmem hne := by
    rcases h.stopped_of_mem tid' hmem hne with hrest | hstopped
    · rcases List.mem_cons.mp hrest with rfl | hrest
      · exact .inr (Finset.mem_insert_self _ _)
      · exact .inl hrest
    · exact .inr (Finset.mem_insert_of_mem hstopped)

/-- The next thread is the one that is traced already. -/
theorem Attaching.skip {tids rest : List Pid} (h : Attaching pid tids (pid :: rest) t) :
    Attaching pid tids rest t where
  read_iff := h.read_iff
  stopped_read := h.stopped_read
  rest_mem tid hmem := h.rest_mem tid (List.mem_cons_of_mem _ hmem)
  stopped_of_mem tid hmem hne := by
    refine (h.stopped_of_mem tid hmem hne).imp_left fun hrest => ?_
    exact (List.mem_cons.mp hrest).resolve_left hne

/-- Every thread on the list is stopped, so what matters is whether the others are on
it. -/
theorem Attaching.allStopped_iff {tids : List Pid} (h : Attaching pid tids [] t) :
    AllStopped pid t ↔ Caught pid t := by
  constructor
  · intro hstopped tid hlive hne
    exact h.stopped_read tid (hstopped tid hlive hne)
  · intro hcaught tid hlive hne
    have hmem := (h.read_iff tid).mp (hcaught tid hlive hne)
    exact (h.stopped_of_mem tid hmem hne).resolve_left (by simp)

/-- When a loop goes on. -/
def IfOk (I : Tasks → Prop) : Outcome Exception Unit → Tasks → Prop
  | .ok _, t => I t
  | _, _ => True

theorem wp_attach_tasks {tids rest : List Pid} {tid : Pid} (hguard : ∀ t r, guard t r)
    (hne : tid ≠ pid) (h : Attaching pid tids (tid :: rest) t) :
    wp (tasks pid guard) (IfOk (Attaching pid tids rest)) (ptraceAttach tid) t := by
  refine ⟨hguard _ _, fun rep t' hstep => ?_⟩
  obtain ⟨t₁, hmoves, hattach⟩ := hstep
  cases rep with
  | error e => trivial
  | ok =>
      obtain ⟨hlive, -, -, rfl⟩ := hattach
      have hattaching : Attaching pid tids (tid :: rest) (t₁.attach tid hlive) :=
        (h.moves hmoves).congr rfl rfl
      refine ⟨hguard _ _, fun rep t' hstep => ?_⟩
      obtain ⟨t₂, hmoves, hwait⟩ := hstep
      rw [tasksStep, if_neg hne] at hwait
      cases rep with
      | error e => trivial
      | ok told =>
          obtain ⟨progeny, status⟩ := told
          obtain ⟨rfl, htold⟩ := hwait
          show wp _ _ (if progeny ≠ progeny ∨ ¬ WIFSTOPPED status = true then _ else _) t'
          rcases htold with ⟨hstopped, hattached, rfl⟩ | ⟨hstopped, -, -⟩
          · rw [if_neg (by simp [hstopped])]
            exact (hattaching.moves hmoves).stop hattached
          · rw [if_pos (by simp [hstopped])]
            exact ⟨hguard _ _, fun _ _ _ => trivial⟩

theorem wp_pauseChildThreads_tasks {fuel : ℕ} (hguard : ∀ t r, guard t r) :
    wp (tasks pid guard) (IfOk fun t => AllStopped pid t ↔ Caught pid t)
      (pauseChildThreads fuel pid) t := by
  apply wp_bind_of (wp_listThreads_tasks hguard)
  intro o t ho
  cases o with
  | error | abort | cut => trivial
  | ok tids =>
      obtain ⟨⟨hread, hstopped⟩, hdue⟩ := ho
      have hstart : Attaching pid tids tids t := by
        refine ⟨hread, fun tid h => ?_, fun _ h => h, fun _ h _ => .inl h⟩
        exact (hstopped tid h).resolve_left (by simp [hdue])
      apply wp_forM (Attaching pid tids) (fun t h => h.allStopped_iff) _ hstart
      intro tid rest t h
      by_cases hne : tid ≠ pid
      · rw [if_pos hne]
        refine wp_mono (fun o t' ho => ?_) (wp_attach_tasks hguard hne h)
        cases o with
        | ok => exact ho
        | error | abort | cut => trivial
      · obtain rfl := not_not.mp hne
        rw [if_neg hne]
        exact h.skip

end

/-! ### While they are stopped -/

section

variable {fuel : ℕ} {pid : Pid} {t t' : Tasks}

/-- The other threads are stopped at every request. -/
abbrev whileStopped (pid : Pid) : Env sys Tasks := tasks pid fun t _ => AllStopped pid t

theorem tasksStep_local {r : Request} (hr : r.Local pid) {rep : r.Rep} (h : tasksStep pid t r rep t') :
    t' = t := by
  cases r with
  | attach | opendir | readdir => exact hr.elim
  | detach p | waitpid p =>
      obtain rfl : p = pid := hr
      rw [tasksStep, if_pos rfl] at h
      exact h
  | _ => exact h

/-- Whatever is done with `pid` alone, the others stay as they are. -/
theorem wp_local {α : Type} {p : Tracer α} (hp : p.Only (Request.Local pid)) (h : AllStopped pid t) :
    wp (whileStopped pid) (fun _ t' => t' = t) p t := by
  refine wp_of_only hp (fun r hr t' ht' => ?_) rfl
  subst ht'
  refine ⟨h, fun rep t₂ hstep => ?_⟩
  obtain ⟨t₁, hmoves, hstep⟩ := hstep
  rw [tasksStep_local hr hstep, h.frozen hmoves]

theorem local_doWait : (doWait fuel pid 0).Only (Request.Local pid) := by
  apply Prog.Only.forever
  intro _
  refine .bind (.ask rfl) fun rep => .bind (only_orThrow _ rep) fun told => ?_
  obtain ⟨progeny, status⟩ := told
  have hcont : ((ptraceCont pid).bind fun _ => .ret (.inl ()) : Tracer (Unit ⊕ Status)).Only
      (Request.Local pid) :=
    .bind (.bind (.ask trivial) fun rep => only_orThrow _ rep) fun _ => trivial
  exact .ite trivial (.ite (.ite trivial (.ite hcont trivial)) (.ite trivial trivial))

theorem local_ptraceSingleStep : (ptraceSingleStep fuel pid).Only (Request.Local pid) := by
  refine .bind (.ask trivial) fun rep => .bind (only_orThrow _ rep) fun _ => ?_
  exact local_doWait.bind fun _ => trivial

theorem local_ptraceGetRegs : (ptraceGetRegs pid).Only (Request.Local pid) :=
  .bind (.ask trivial) fun rep => only_orThrow _ rep

theorem local_ptraceSetRegs (regs : UserRegs) : (ptraceSetRegs pid regs).Only (Request.Local pid) :=
  .bind (.ask trivial) fun rep => only_orThrow _ rep

theorem local_ptracePoke (addr data : Word) : (ptracePoke pid addr data).Only (Request.Local pid) :=
  .bind (.ask trivial) fun rep => only_orThrow _ rep

theorem local_allocPage : (allocPage fuel pid).Only (Request.Local pid) := by
  refine local_ptraceGetRegs.bind fun oldregs => ?_
  have hpeek : (ptracePeek pid oldregs.rip).Only (Request.Local pid) :=
    .bind (.ask trivial) fun rep => only_orThrow _ rep
  refine hpeek.bind fun orig_code => (local_ptracePoke _ _).bind fun _ => ?_
  refine (local_ptraceSetRegs _).bind fun _ => local_ptraceSingleStep.bind fun _ => ?_
  refine local_ptraceGetRegs.bind fun regs => (local_ptraceSetRegs _).bind fun _ => ?_
  exact (local_ptracePoke _ _).bind fun _ => trivial

theorem local_munmapStep (newregs : UserRegs) :
    (munmapStep fuel pid newregs ()).Only (Request.Local pid) := by
  refine (local_ptraceSetRegs _).bind fun _ => local_ptraceSingleStep.bind fun _ => ?_
  refine local_ptraceGetRegs.bind fun regs => .ite ?_ (.ite trivial ?_)
  · exact .bind (.ask trivial) fun _ => trivial
  · exact .bind (.ask trivial) fun _ => trivial

theorem local_unmapWindow (oldregs newregs : UserRegs) (orig_code : Word) :
    (unmapWindow fuel pid oldregs newregs orig_code).Only (Request.Local pid) := by
  refine (local_ptracePoke _ _).bind fun _ => .bind (.forever (fun _ => ?_) fuel ()) fun _ => ?_
  · exact local_munmapStep newregs
  · exact local_ptracePoke _ _

end

/-! ### Resuming them -/

section

variable {fuel : ℕ} {pid : Pid} {t t' : Tasks}

/-- Only threads that are stopped are detached, and not `pid`. -/
def detachesStopped (pid : Pid) (t : Tasks) : Request → Prop
  | .detach tid => tid ≠ pid ∧ tid ∈ t.stopped
  | _ => True

/-- The list so far, in a listing during which nothing happens. -/
structure Listing (pid : Pid) (tids : List Pid) (t : Tasks) : Prop where
  allStopped : AllStopped pid t
  live_iff : ∀ tid ∈ t.live, tid ∈ t.due ∨ tid ∈ tids
  read_iff : ∀ tid, tid ∈ t.read ↔ tid ∈ tids
  mem_live : ∀ tid ∈ tids, tid ∈ t.live
  nodup : tids.Nodup

theorem Listing.openDir (h : AllStopped pid t) : Listing pid [] t.openDir where
  allStopped := h
  live_iff _ hlive := .inl hlive
  read_iff _ := by simp [Tasks.openDir]
  mem_live := nofun
  nodup := .nil

theorem Listing.readTask {tids : List Pid} (h : Listing pid tids t) {tid : Pid} (hlive : tid ∈ t.live)
    (hread : tid ∉ t.read) : Listing pid (tids ++ [tid]) (t.readTask tid) where
  allStopped := h.allStopped
  live_iff tid' hlive' := by
    by_cases heq : tid' = tid
    · exact .inr (by simp [heq])
    · rcases h.live_iff tid' hlive' with hdue | hmem
      · exact .inl (Finset.mem_erase.mpr ⟨heq, hdue⟩)
      · exact .inr (List.mem_append_left _ hmem)
  read_iff tid' := by
    rw [Tasks.readTask, Finset.mem_insert, h.read_iff, List.mem_append, List.mem_singleton]
    exact or_comm
  mem_live tid' hmem := by
    rcases List.mem_append.mp hmem with hmem | hmem
    · exact h.mem_live tid' hmem
    · exact List.mem_singleton.mp hmem ▸ hlive
  nodup := by
    refine h.nodup.append (List.nodup_singleton _) ?_
    intro tid' hmem hsingle
    obtain rfl := List.mem_singleton.mp hsingle
    exact hread ((h.read_iff tid').mpr hmem)

/-- A listing that has ended has listed every thread. -/
def FullyListed (pid : Pid) : Outcome Exception (List Pid) → Tasks → Prop
  | .ok tids, t => Listing pid tids t ∧ t.due = ∅
  | _, _ => False

/-- The stream ends after as many passes as it has entries left. -/
theorem wp_listThreadsStep_tasks {tids : List Pid} (h : Listing pid tids t)
    (hfuel : t.due.card + t.dots < fuel) :
    wp (tasks pid (detachesStopped pid)) (FullyListed pid) (Prog.forever listThreadsStep fuel tids) t := by
  induction fuel generalizing t tids with
  | zero => omega
  | succ n ih =>
      refine ⟨trivial, fun rep t' hstep => ?_⟩
      obtain ⟨t₁, hmoves, hread⟩ := hstep
      obtain rfl := h.allStopped.frozen hmoves
      cases rep with
      | none =>
          obtain ⟨hdue, rfl⟩ := hread
          exact ⟨h, hdue⟩
      | some name =>
          show wp _ _ (Prog.bind (if name ≠ text "." ∧ name ≠ text ".." then _ else _) _) t'
          rcases hread with ⟨hleft, hdots, rfl⟩ | ⟨tid, hlive, hread, ⟨hname, hdot, hdots⟩, rfl⟩
          · rw [if_neg fun h => hdots.elim h.1 h.2]
            have hless : t₁.readDots.due.card + t₁.readDots.dots < n := by
              show t₁.due.card + (t₁.dots - 1) < n
              omega
            exact ih ⟨h.allStopped, h.live_iff, h.read_iff, h.mem_live, h.nodup⟩ hless
          · rw [if_pos ⟨hdot, hdots⟩, hname]
            have hdue : tid ∈ t₁.due := by
              refine (h.live_iff tid hlive).resolve_right fun hmem => ?_
              exact hread ((h.read_iff tid).mpr hmem)
            have hless : (t₁.readTask tid).due.card + (t₁.readTask tid).dots < n := by
              have hcard := Finset.card_erase_lt_of_mem hdue
              show (t₁.due.erase tid).card + t₁.dots < n
              omega
            exact ih (h.readTask hlive hread) hless

/-- In the loop over the list: those that are still stopped are on what is left of it. -/
structure Detaching (pid : Pid) (rest : List Pid) (t : Tasks) : Prop where
  stopped_of_mem : ∀ tid ∈ rest, tid ≠ pid → tid ∈ t.stopped
  mem_of_stopped : ∀ tid ∈ t.stopped, tid ≠ pid → tid ∈ rest
  nodup : rest.Nodup

theorem Detaching.congr {rest : List Pid} (h : Detaching pid rest t) (hstopped : t'.stopped = t.stopped) :
    Detaching pid rest t' := by
  refine ⟨?_, ?_, h.nodup⟩
  · rw [hstopped]
    exact h.stopped_of_mem
  · rw [hstopped]
    exact h.mem_of_stopped

theorem Detaching.detach {rest : List Pid} {tid : Pid} (h : Detaching pid (tid :: rest) t) :
    Detaching pid rest (t.detach tid) := by
  obtain ⟨hnot, hnodup⟩ := List.nodup_cons.mp h.nodup
  refine ⟨fun tid' hmem hne => ?_, fun tid' hstopped hne => ?_, hnodup⟩
  · refine Finset.mem_erase.mpr ⟨?_, h.stopped_of_mem tid' (List.mem_cons_of_mem _ hmem) hne⟩
    rintro rfl
    exact hnot hmem
  · obtain ⟨hother, hstopped⟩ := Finset.mem_erase.mp hstopped
    exact (List.mem_cons.mp (h.mem_of_stopped tid' hstopped hne)).resolve_left hother

theorem Detaching.skip {rest : List Pid} (h : Detaching pid (pid :: rest) t) : Detaching pid rest t := by
  refine ⟨fun tid hmem => h.stopped_of_mem tid (List.mem_cons_of_mem _ hmem), fun tid hstopped hne => ?_,
    (List.nodup_cons.mp h.nodup).2⟩
  exact (List.mem_cons.mp (h.mem_of_stopped tid hstopped hne)).resolve_left hne

/-- It has returned, and no thread is stopped any more. -/
def Detached (pid : Pid) (o : Outcome Exception Unit) (t : Tasks) : Prop :=
  o = .ok () ∧ ∀ tid ∈ t.stopped, tid = pid

theorem wp_resumeChildThreads_tasks (h : AllStopped pid t) (hfuel : t.live.card + 2 < fuel) :
    wp (tasks pid (detachesStopped pid)) (Detached pid) (resumeChildThreads fuel pid) t := by
  have hlist : wp (tasks pid (detachesStopped pid)) (FullyListed pid) (listThreads fuel pid) t := by
    refine ⟨trivial, fun opened t' hstep => ?_⟩
    obtain ⟨t₁, hmoves, rfl, rfl⟩ := hstep
    obtain rfl := h.frozen hmoves
    exact wp_listThreadsStep_tasks (.openDir h) hfuel
  apply wp_bind_of hlist
  intro o t ho
  cases o with
  | error | abort | cut => exact ho.elim
  | ok tids =>
      obtain ⟨hlisting, hdue⟩ := ho
      have hstart : Detaching pid tids t := by
        refine ⟨fun tid hmem hne => ?_, fun tid hstopped _ => ?_, hlisting.nodup⟩
        · exact hlisting.allStopped tid (hlisting.mem_live tid hmem) hne
        · exact (hlisting.live_iff tid (t.stopped_live hstopped)).resolve_left (by simp [hdue])
      apply wp_forM (Detaching pid) _ _ hstart
      · intro t h
        refine ⟨rfl, fun tid hstopped => ?_⟩
        by_contra hne
        exact absurd (h.mem_of_stopped tid hstopped hne) (by simp)
      · intro tid rest t h
        by_cases hne : tid ≠ pid
        · rw [if_pos hne]
          have hstopped := h.stopped_of_mem tid List.mem_cons_self hne
          refine ⟨⟨hne, hstopped⟩, fun rep t' hstep => ?_⟩
          obtain ⟨t₁, hmoves, hdetach⟩ := hstep
          rw [tasksStep, if_neg hne] at hdetach
          have h := h.congr hmoves.stopped_eq
          cases rep with
          | ok =>
              obtain ⟨-, rfl⟩ := hdetach
              exact h.detach
          | error e =>
              rw [hmoves.stopped_eq] at hdetach
              exact absurd hstopped hdetach.1
        · obtain rfl := not_not.mp hne
          rw [if_neg hne]
          exact h.skip

end

/-- **The other threads** are all stopped when `PauseChildThreads` returns exactly if those
that are alive then have all been listed. If so, they stay stopped while the code is
overwritten, by `AllocPage` as by `PtraceCleanup`, and `ResumeChildThreads` detaches them
and nothing else and returns. -/
theorem childThreads_stopped_iff (fuel : ℕ) (pid : Pid) (t : Tasks) :
    wp (tasks pid fun _ _ => True) (IfOk fun t => AllStopped pid t ↔ Caught pid t)
        (pauseChildThreads fuel pid) t ∧
      (AllStopped pid t →
        wp (whileStopped pid) (fun _ t' => t' = t) (allocPage fuel pid) t ∧
        (∀ oldregs newregs orig_code, wp (whileStopped pid) (fun _ t' => t' = t)
          (unmapWindow fuel pid oldregs newregs orig_code) t) ∧
        (t.live.card + 2 < fuel → wp (tasks pid (detachesStopped pid)) (Detached pid)
          (resumeChildThreads fuel pid) t)) := by
  refine ⟨wp_pauseChildThreads_tasks fun _ _ => trivial, fun h => ⟨?_, ?_, ?_⟩⟩
  · exact wp_local local_allocPage h
  · exact fun oldregs newregs orig_code => wp_local (local_unmapWindow _ _ _) h
  · exact wp_resumeChildThreads_tasks h

/-- One other thread, which is stopped. -/
theorem childThreads_stopped_pair :
    wp (tasks 1 (detachesStopped 1)) (Detached 1) (resumeChildThreads 5 1)
      { live := {1, 2}, stopped := {2} } := by
  have hstopped : AllStopped 1 { live := {1, 2}, stopped := {2} } := by
    unfold AllStopped
    decide
  exact ((childThreads_stopped_iff 5 1 _).2 hstopped).2.2 (by decide)

/-! ### A thread that is missed -/

def twoTasks : Tasks := { live := {1, 2} }

def twoListed : Tasks := (twoTasks.openDir.readTask 2).readTask 1

theorem names_one : Names (text "1") 1 := ⟨stoi_decimal (n := 1) (by decide), by decide, by decide⟩
theorem names_two : Names (text "2") 2 := ⟨stoi_decimal (n := 2) (by decide), by decide, by decide⟩

/-- Thread 2 starts thread 3 after it has been listed and before it is attached to. -/
theorem childThreads_not_stopped :
    ¬ wp (tasks 1 fun _ _ => True) (IfOk (AllStopped 1)) (pauseChildThreads 3 1) twoTasks := by
  intro h
  have hclone : Moves 1 twoListed (twoListed.clone 3) :=
    .single (.clone twoListed 2 3 (by decide) (by decide) (by decide) (by decide))
  have hmay : may (tasks 1 fun _ _ => True) (pauseChildThreads 3 1) twoTasks (.ok ())
      (((twoListed.clone 3).attach 2 (by decide)).stop 2 (by decide)) := by
    refine ⟨true, _, ⟨_, .refl, rfl, rfl⟩, ?_⟩
    refine ⟨some (text "2"), _, ⟨_, .refl, .inr ⟨2, by decide, by decide, names_two, rfl⟩⟩, ?_⟩
    refine ⟨some (text "1"), _, ⟨_, .refl, .inr ⟨1, by decide, by decide, names_one, rfl⟩⟩, ?_⟩
    refine ⟨none, _, ⟨_, .refl, by decide, rfl⟩, ?_⟩
    refine ⟨.ok (), _, ⟨_, hclone, by decide, by decide, by decide, rfl⟩, ?_⟩
    refine ⟨.ok (2, 0x137f), _, ⟨_, .refl, rfl, .inl ⟨by decide, by decide, rfl⟩⟩, ?_⟩
    exact ⟨rfl, rfl⟩
  have hstopped := wp_may h hmay
  exact absurd (hstopped 3 (by decide) (by decide)) (by decide)

end Pyflame
