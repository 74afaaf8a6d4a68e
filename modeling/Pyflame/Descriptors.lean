import Pyflame.Namespace
import Mathlib.Data.Finset.Card

/-!
The descriptors that a `Namespace` leaves open.

The constructor opens two, with steps between them that may throw, and the
destructor tells from the number of the first whether there is anything to
close. Here the system is what it replies, and its state the descriptors that
are open.
-/

namespace Pyflame

open Interaction

/-- What the system replies to the calls of the constructor. `open` returns a descriptor
that is not in use. -/
structure Descriptors where
  lstat : Bytes → Reply Stat
  readlink : Bytes → Reply Bytes
  openFile : Bytes → Finset ℤ → Reply ℤ
  fresh : ∀ {path opened fd}, openFile path opened = .ok fd → 0 ≤ fd ∧ fd ∉ opened
  fstat : ℤ → Reply Stat

namespace Descriptors

/-- The state is the set of open descriptors. Closing one that is not open fails. -/
def handler (w : Descriptors) : Handler sys (Finset ℤ)
  | .lstat path, opened => (w.lstat path, opened)
  | .readlink path, opened => (w.readlink path, opened)
  | .openFile path, opened =>
      match w.openFile path opened with
      | .ok fd => (.ok fd, insert fd opened)
      | .error e => (.error e, opened)
  | .fstat fd, opened => (w.fstat fd, opened)
  | .close fd, opened => if fd ∈ opened then (true, opened.erase fd) else (false, opened)
  | r, opened => (refuse r, opened)

/-- The path of the namespace of `pid`. -/
def theirMnt (pid : Pid) : Bytes := text "/proc/" ++ signedDecimal pid ++ text "/ns/mnt"

/-- Once the first descriptor is open, no step fails, and if both stay open then the first is
not 0. -/
def Closes (w : Descriptors) (pid : Pid) (opened : Finset ℤ) : Prop :=
  ∀ out_st, w.lstat kOurMnt = .ok out_st →
    if out_st.isLink then
      ∀ our_name their_name, w.readlink kOurMnt = .ok our_name →
        w.readlink (theirMnt pid) = .ok their_name →
        our_name.takeWhile (· ≠ 0) ≠ their_name.takeWhile (· ≠ 0) →
        ∀ out, w.openFile kOurMnt opened = .ok out →
          out ≠ 0 ∧ ∃ in_, w.openFile (theirMnt pid) (insert out opened) = .ok in_
    else
      ∀ out, w.openFile kOurMnt opened = .ok out →
        ∃ out_st in_ in_st, w.fstat out = .ok out_st ∧
          w.openFile (theirMnt pid) (insert out opened) = .ok in_ ∧ w.fstat in_ = .ok in_st ∧
          (out = 0 → out_st.ino = in_st.ino)

end Descriptors

/-- Both namespaces, opened one after the other. -/
def Namespace.openBoth (pid : Pid) : Tracer Namespace := do
  let out ← openRdonly kOurMnt
  let in_ ← openRdonly (Descriptors.theirMnt pid)
  return { out, in_ }

/-- The branch of the constructor for symbolic links. -/
def Namespace.ofLinks (pid : Pid) : Tracer Namespace := do
  let our_name ← nameOf kOurMnt
  let their_name ← nameOf (Descriptors.theirMnt pid)
  if our_name.takeWhile (· ≠ 0) ≠ their_name.takeWhile (· ≠ 0) then openBoth pid else return {}

/-- The end of the other branch. -/
def Namespace.compare (fuel : ℕ) (ns : Namespace) (out_st in_st : Stat) : Tracer Namespace := do
  if out_st.ino = in_st.ino then
    close fuel ns.out
    close fuel ns.in_
    return {}
  else
    return ns

/-- The branch for hard links. -/
def Namespace.ofFiles (fuel : ℕ) (pid : Pid) : Tracer Namespace := do
  let out ← openRdonly kOurMnt
  let out_st ← fstat out
  let in_ ← openRdonly (Descriptors.theirMnt pid)
  let in_st ← fstat in_
  compare fuel { out, in_ } out_st in_st

theorem Namespace.ofPid_eq (fuel : ℕ) (pid : Pid) :
    Namespace.ofPid fuel pid = (ask (.lstat kOurMnt)).bind fun (r : Reply Stat) =>
      match r with
      | .error e =>
          (ask (.cerr (text "Failed to lstat path " ++ kOurMnt ++ text ": " ++ e))).bind fun _ =>
            .ret {}
      | .ok out_st => if out_st.isLink then ofLinks pid else ofFiles fuel pid := by
  unfold Namespace.ofPid
  rfl

/-- A `Namespace` from its construction to its destruction. -/
def Namespace.lifetime (fuel : ℕ) (pid : Pid) : Tracer Unit := do
  let ns ← Namespace.ofPid fuel pid
  ns.destroy fuel

/-! ### One call -/

section

variable {w : Descriptors} {opened : Finset ℤ} {n : ℕ}

theorem run_openRdonly_ok {path : Bytes} {fd : ℤ} (h : w.openFile path opened = .ok fd) :
    run w.handler (openRdonly path) opened = (.ok fd, insert fd opened) := by
  have hreply : w.handler (.openFile path) opened = (.ok fd, insert fd opened) := by
    simp only [Descriptors.handler, h]
  show run w.handler (orThrow _ (w.handler (.openFile path) opened).1) _ = _
  rw [hreply]
  rfl

theorem run_openRdonly_error {path e : Bytes} (h : w.openFile path opened = .error e) :
    ∃ e', run w.handler (openRdonly path) opened = (.error e', opened) := by
  have hreply : w.handler (.openFile path) opened = (.error e, opened) := by
    simp only [Descriptors.handler, h]
  refine ⟨.fatal (text "Failed to open " ++ path ++ text ": " ++ e), ?_⟩
  show run w.handler (orThrow _ (w.handler (.openFile path) opened).1) _ = _
  rw [hreply]
  rfl

theorem run_close {fd : ℤ} (hfd : 0 ≤ fd) (hopen : fd ∈ opened) :
    run w.handler (close (n + 1) fd) opened = (.ok (), opened.erase fd) := by
  have hask : run w.handler (ask (.close fd)) opened = (.ok true, opened.erase fd) := by
    show (Outcome.ok (w.handler (.close fd) opened).1, (w.handler (.close fd) opened).2) = _
    rw [show w.handler (.close fd) opened = (true, opened.erase fd) from if_pos hopen]
    rfl
  have hbody : run w.handler (Prog.bind (ask (.close fd)) fun (b : Bool) =>
      if b then pure (.inr ()) else pure (.inl ())) opened =
        ((.ok (.inr ()) : Outcome Exception (Unit ⊕ Unit)), opened.erase fd) := by
    rw [run_bind_ok w.handler hask]
    rfl
  rw [close, if_neg (Int.not_lt.mpr hfd), Prog.forever]
  exact (run_bind_ok w.handler hbody _).trans rfl

theorem run_fstat_ok (opened : Finset ℤ) {fd : ℤ} {st : Stat} (h : w.fstat fd = .ok st) :
    run w.handler (fstat fd) opened = (.ok st, opened) := by
  show run w.handler (orThrow _ (w.fstat fd)) opened = _
  rw [h]
  rfl

theorem run_fstat_error {fd : ℤ} {e : Bytes} (h : w.fstat fd = .error e) :
    ∃ e', run w.handler (fstat fd) opened = (.error e', opened) := by
  refine ⟨.fatal (text "Failed to fstat file descriptor " ++ signedDecimal fd ++ text ": " ++ e), ?_⟩
  show run w.handler (orThrow _ (w.fstat fd)) opened = _
  rw [h]
  rfl

theorem run_nameOf_ok (opened : Finset ℤ) {path name : Bytes} (h : w.readlink path = .ok name) :
    run w.handler (Namespace.nameOf path) opened = (.ok name, opened) := by
  show run w.handler (orThrow _ (w.readlink path)) opened = _
  rw [h]
  rfl

theorem run_nameOf_error {path e : Bytes} (h : w.readlink path = .error e) :
    ∃ e', run w.handler (Namespace.nameOf path) opened = (.error e', opened) := by
  refine ⟨.fatal (text "Failed to readlink " ++ path ++ text ": " ++ e), ?_⟩
  show run w.handler (orThrow _ (w.readlink path)) opened = _
  rw [h]
  rfl

theorem run_destroy_none : run w.handler (Namespace.destroy {} (n + 1)) opened = (.ok (), opened) :=
  rfl

/-- One descriptor after the other. -/
theorem run_closes {out in_ : ℤ} (hout : 0 ≤ out ∧ out ∉ opened)
    (hin : 0 ≤ in_ ∧ in_ ∉ insert out opened) :
    run w.handler (close (n + 1) out) (insert in_ (insert out opened)) =
        (.ok (), insert in_ opened) ∧
      run w.handler (close (n + 1) in_) (insert in_ opened) = (.ok (), opened) := by
  have hne : in_ ≠ out := fun heq => hin.2 (heq ▸ Finset.mem_insert_self in_ opened)
  constructor
  · rw [run_close hout.1 (by simp), Finset.erase_insert_of_ne hne, Finset.erase_insert hout.2]
  · rw [run_close hin.1 (Finset.mem_insert_self in_ opened),
      Finset.erase_insert fun h => hin.2 (Finset.mem_insert_of_mem h)]

theorem run_destroy {out in_ : ℤ} (hout : 0 ≤ out ∧ out ∉ opened)
    (hin : 0 ≤ in_ ∧ in_ ∉ insert out opened) :
    run w.handler (Namespace.destroy ⟨out, in_⟩ (n + 1)) (insert in_ (insert out opened)) =
      (.ok (), if out = 0 then insert in_ (insert out opened) else opened) := by
  rw [Namespace.destroy]
  by_cases hzero : out = 0
  · rw [if_neg (not_not.mpr hzero), if_pos hzero]
    rfl
  · rw [if_pos hzero, if_neg hzero]
    obtain ⟨hfirst, hsecond⟩ := run_closes (w := w) (n := n) hout hin
    exact (run_bind_ok w.handler hfirst _).trans hsecond

/-! ### The constructor -/

/-- A run that ends, by itself or by an exception, with these descriptors open. -/
def Leaves {α : Type} (r : Outcome Exception α × Finset ℤ) (opened : Finset ℤ) : Prop :=
  ((∃ a, r.1 = .ok a) ∨ ∃ e, r.1 = .error e) ∧ r.2 = opened

/-- The constructor gives up, or leaves a namespace without descriptors. -/
theorem leaves_none {opened' : Finset ℤ} {p : Tracer Namespace}
    (h : (∃ e, run w.handler p opened = (.error e, opened')) ∨
      run w.handler p opened = (.ok {}, opened')) :
    Leaves (run w.handler (p.bind fun ns => ns.destroy (n + 1)) opened) opened' := by
  rcases h with ⟨e, h⟩ | h
  · rw [run_bind_error w.handler h]
    exact ⟨.inr ⟨e, rfl⟩, rfl⟩
  · rw [run_bind_ok w.handler h, run_destroy_none]
    exact ⟨.inl ⟨(), rfl⟩, rfl⟩

theorem leaves_pair {p : Tracer Namespace} {out in_ : ℤ} (hout : 0 ≤ out ∧ out ∉ opened)
    (hin : 0 ≤ in_ ∧ in_ ∉ insert out opened)
    (h : run w.handler p opened = (.ok ⟨out, in_⟩, insert in_ (insert out opened))) :
    Leaves (run w.handler (p.bind fun ns => ns.destroy (n + 1)) opened)
      (if out = 0 then insert in_ (insert out opened) else opened) := by
  rw [run_bind_ok w.handler h, run_destroy hout hin]
  exact ⟨.inl ⟨(), rfl⟩, rfl⟩

theorem insert_ne {fd : ℤ} (h : fd ∉ opened) : insert fd opened ≠ opened :=
  Finset.insert_ne_self.mpr h

theorem insert_insert_ne {out in_ : ℤ} (h : out ∉ opened) :
    insert in_ (insert out opened) ≠ opened := by
  intro heq
  have hmem : out ∈ insert in_ (insert out opened) :=
    Finset.mem_insert_of_mem (Finset.mem_insert_self out opened)
  rw [heq] at hmem
  exact h hmem

theorem leaves_openBoth (pid : Pid) :
    ∃ opened', Leaves (run w.handler ((Namespace.openBoth pid).bind fun ns => ns.destroy (n + 1)) opened)
        opened' ∧
      (opened' = opened ↔ ∀ out, w.openFile kOurMnt opened = .ok out →
        out ≠ 0 ∧ ∃ in_, w.openFile (Descriptors.theirMnt pid) (insert out opened) = .ok in_) := by
  cases hout : w.openFile kOurMnt opened with
  | error e =>
      obtain ⟨e', hrun⟩ := run_openRdonly_error hout
      exact ⟨opened, leaves_none (.inl ⟨e', run_bind_error w.handler hrun _⟩), by simp⟩
  | ok out =>
      have hfresh := w.fresh hout
      have hfirst := fun f : ℤ → Tracer Namespace => run_bind_ok w.handler (run_openRdonly_ok hout) f
      cases hin : w.openFile (Descriptors.theirMnt pid) (insert out opened) with
      | error e =>
          -- The destructor does not run.
          obtain ⟨e', hrun⟩ := run_openRdonly_error hin
          have hthrows : run w.handler (Namespace.openBoth pid) opened =
              (.error e', insert out opened) := (hfirst _).trans (run_bind_error w.handler hrun _)
          refine ⟨insert out opened, leaves_none (.inl ⟨e', hthrows⟩), ?_⟩
          exact iff_of_false (insert_ne hfresh.2) (by simp [hin])
      | ok in_ =>
          have hsecond := run_bind_ok w.handler (run_openRdonly_ok hin) fun in_ =>
            .ret (⟨out, in_⟩ : Namespace)
          refine ⟨_, leaves_pair hfresh (w.fresh hin) ((hfirst _).trans hsecond), ?_⟩
          by_cases hzero : out = 0
          · rw [if_pos hzero]
            exact iff_of_false (insert_insert_ne hfresh.2) (by simp [hzero])
          · rw [if_neg hzero]
            exact iff_of_true rfl (by simp [hzero, hin])

theorem leaves_ofLinks (pid : Pid) :
    ∃ opened', Leaves (run w.handler ((Namespace.ofLinks pid).bind fun ns => ns.destroy (n + 1)) opened)
        opened' ∧
      (opened' = opened ↔ ∀ our_name their_name, w.readlink kOurMnt = .ok our_name →
        w.readlink (Descriptors.theirMnt pid) = .ok their_name →
        our_name.takeWhile (· ≠ 0) ≠ their_name.takeWhile (· ≠ 0) →
        ∀ out, w.openFile kOurMnt opened = .ok out →
          out ≠ 0 ∧ ∃ in_, w.openFile (Descriptors.theirMnt pid) (insert out opened) = .ok in_) := by
  cases hour : w.readlink kOurMnt with
  | error e =>
      obtain ⟨e', hrun⟩ := run_nameOf_error hour
      exact ⟨opened, leaves_none (.inl ⟨e', run_bind_error w.handler hrun _⟩), by simp⟩
  | ok our_name =>
      have hfirst := fun f : Bytes → Tracer Namespace =>
        run_bind_ok w.handler (run_nameOf_ok opened hour) f
      cases htheir : w.readlink (Descriptors.theirMnt pid) with
      | error e =>
          obtain ⟨e', hrun⟩ := run_nameOf_error htheir
          exact ⟨opened, leaves_none (.inl ⟨e', (hfirst _).trans (run_bind_error w.handler hrun _)⟩), by simp⟩
      | ok their_name =>
          have hsecond := fun f : Bytes → Tracer Namespace =>
            run_bind_ok w.handler (run_nameOf_ok opened htheir) f
          have hrun : run w.handler (Namespace.ofLinks pid) opened =
              run w.handler (if our_name.takeWhile (· ≠ 0) ≠ their_name.takeWhile (· ≠ 0) then
                Namespace.openBoth pid else .ret {}) opened := (hfirst _).trans (hsecond _)
          by_cases hname : our_name.takeWhile (· ≠ 0) = their_name.takeWhile (· ≠ 0)
          · rw [if_neg (not_not.mpr hname)] at hrun
            refine ⟨opened, leaves_none (.inr hrun), iff_of_true rfl ?_⟩
            intro our their hour' htheir' hne
            cases hour'
            cases htheir'
            exact absurd hname hne
          · rw [if_pos hname] at hrun
            rw [run_bind_congr w.handler hrun]
            obtain ⟨opened', hleaves, hiff⟩ := leaves_openBoth pid
            refine ⟨opened', hleaves, hiff.trans ?_⟩
            constructor
            · intro h our their hour' htheir' _
              exact h
            · intro h
              exact h our_name their_name rfl rfl hname

theorem leaves_ofFiles (pid : Pid) :
    ∃ opened', Leaves (run w.handler ((Namespace.ofFiles (n + 1) pid).bind fun ns => ns.destroy (n + 1))
        opened) opened' ∧
      (opened' = opened ↔ ∀ out, w.openFile kOurMnt opened = .ok out →
        ∃ out_st in_ in_st, w.fstat out = .ok out_st ∧
          w.openFile (Descriptors.theirMnt pid) (insert out opened) = .ok in_ ∧ w.fstat in_ = .ok in_st ∧
          (out = 0 → out_st.ino = in_st.ino)) := by
  cases hout : w.openFile kOurMnt opened with
  | error e =>
      obtain ⟨e', hrun⟩ := run_openRdonly_error hout
      exact ⟨opened, leaves_none (.inl ⟨e', run_bind_error w.handler hrun _⟩), by simp⟩
  | ok out =>
      have hfresh := w.fresh hout
      have hfirst := fun f : ℤ → Tracer Namespace => run_bind_ok w.handler (run_openRdonly_ok hout) f
      cases hout_st : w.fstat out with
      | error e =>
          obtain ⟨e', hrun⟩ := run_fstat_error hout_st
          refine ⟨_, leaves_none (.inl ⟨e', (hfirst _).trans (run_bind_error w.handler hrun _)⟩), ?_⟩
          exact iff_of_false (insert_ne hfresh.2) (by simp [hout_st])
      | ok out_st =>
          have hsecond := fun f : Stat → Tracer Namespace => run_bind_ok w.handler
            (run_fstat_ok (insert out opened) hout_st) f
          cases hin : w.openFile (Descriptors.theirMnt pid) (insert out opened) with
          | error e =>
              obtain ⟨e', hrun⟩ := run_openRdonly_error hin
              have hthrows : run w.handler (Namespace.ofFiles (n + 1) pid) opened =
                  (.error e', insert out opened) :=
                (hfirst _).trans ((hsecond _).trans (run_bind_error w.handler hrun _))
              refine ⟨_, leaves_none (.inl ⟨e', hthrows⟩), ?_⟩
              exact iff_of_false (insert_ne hfresh.2) (by simp [hin])
          | ok in_ =>
              have hfresh' := w.fresh hin
              have hthird := fun f : ℤ → Tracer Namespace =>
                run_bind_ok w.handler (run_openRdonly_ok hin) f
              have hopens : run w.handler (Namespace.ofFiles (n + 1) pid) opened =
                  run w.handler ((fstat in_).bind (Namespace.compare (n + 1) ⟨out, in_⟩ out_st))
                    (insert in_ (insert out opened)) :=
                (hfirst _).trans ((hsecond _).trans (hthird _))
              cases hin_st : w.fstat in_ with
              | error e =>
                  obtain ⟨e', hrun⟩ := run_fstat_error hin_st
                  refine ⟨_, leaves_none (.inl ⟨e', hopens.trans (run_bind_error w.handler hrun _)⟩), ?_⟩
                  exact iff_of_false (insert_insert_ne hfresh.2) (by simp [hout_st, hin, hin_st])
              | ok in_st =>
                  have hrun := hopens.trans (run_bind_ok w.handler (run_fstat_ok _ hin_st) _)
                  rw [Namespace.compare] at hrun
                  by_cases hino : out_st.ino = in_st.ino
                  · rw [if_pos hino] at hrun
                    obtain ⟨hout', hin'⟩ := run_closes (w := w) (n := n) hfresh hfresh'
                    have hcloses : run w.handler ((close (n + 1) out).bind fun _ =>
                        (close (n + 1) in_).bind fun _ => .ret {}) (insert in_ (insert out opened)) =
                          (.ok ({} : Namespace), opened) :=
                      (run_bind_ok w.handler hout' _).trans (run_bind_ok w.handler hin' _)
                    refine ⟨opened, leaves_none (.inr (hrun.trans hcloses)), iff_of_true rfl ?_⟩
                    rintro _ ⟨⟩
                    exact ⟨out_st, in_, in_st, hout_st, hin, hin_st, fun _ => hino⟩
                  · rw [if_neg hino] at hrun
                    refine ⟨_, leaves_pair hfresh hfresh' hrun, ?_⟩
                    by_cases hzero : out = 0
                    · rw [if_pos hzero]
                      refine iff_of_false (insert_insert_ne hfresh.2) fun h => ?_
                      obtain ⟨st, fd, st', hst, hfd, hst', hsame⟩ := h out rfl
                      cases hout_st.symm.trans hst
                      cases hin.symm.trans hfd
                      cases hin_st.symm.trans hst'
                      exact hino (hsame hzero)
                    · rw [if_neg hzero]
                      exact iff_of_true rfl (by simp [hout_st, hin, hin_st, hzero])

theorem leaves_lifetime (w : Descriptors) (pid : Pid) (n : ℕ) (opened : Finset ℤ) :
    ∃ opened', Leaves (run w.handler (Namespace.lifetime (n + 1) pid) opened) opened' ∧
      (opened' = opened ↔ w.Closes pid opened) := by
  have hask : run w.handler (ask (.lstat kOurMnt)) opened = (.ok (w.lstat kOurMnt), opened) := rfl
  have hrun := run_bind_ok w.handler hask fun (r : Reply Stat) =>
    match r with
    | .error e =>
        (ask (.cerr (text "Failed to lstat path " ++ kOurMnt ++ text ": " ++ e))).bind fun _ =>
          .ret {}
    | .ok out_st =>
        if out_st.isLink then Namespace.ofLinks pid else Namespace.ofFiles (n + 1) pid
  rw [← Namespace.ofPid_eq] at hrun
  unfold Namespace.lifetime Descriptors.Closes
  rw [Prog.bind_eq, run_bind_congr w.handler hrun]
  cases w.lstat kOurMnt with
  | error e => exact ⟨opened, leaves_none (.inr rfl), by simp⟩
  | ok out_st =>
      simp only [Except.ok.injEq, forall_eq']
      by_cases hlink : out_st.isLink = true
      · simp only [hlink, if_true]
        exact leaves_ofLinks pid
      · simp only [hlink, Bool.false_eq_true, if_false]
        exact leaves_ofFiles pid

end

/-- **When a `Namespace` closes what it opened**, whatever the outcome of each call and whatever
numbers `open` returns. It always ends, by itself or by an exception. -/
theorem namespace_closes_iff (w : Descriptors) (pid : Pid) (n : ℕ) (opened : Finset ℤ) :
    let r := run w.handler (Namespace.lifetime (n + 1) pid) opened
    ((∃ a, r.1 = .ok a) ∨ ∃ e, r.1 = .error e) ∧ (r.2 = opened ↔ w.Closes pid opened) := by
  obtain ⟨opened', ⟨hends, hleft⟩, hiff⟩ := leaves_lifetime w pid n opened
  refine ⟨hends, ?_⟩
  rw [hleft]
  exact hiff

/-- A system with room for one more descriptor, where the target has a namespace of its own. -/
def lastDescriptor : Descriptors where
  lstat _ := .ok ⟨true, 0⟩
  readlink path := .ok path
  openFile path opened :=
    if path = kOurMnt ∧ opened = {0, 1, 2} then .ok 3 else .error (text "Too many open files")
  fresh := by
    intro path opened fd h
    split_ifs at h with hopen
    cases h
    rw [hopen.2]
    decide
  fstat _ := .error []

/-- The same, with room enough, and the standard input closed. -/
def closedInput : Descriptors where
  lstat _ := .ok ⟨true, 0⟩
  readlink path := .ok path
  openFile _ opened :=
    if opened = {1, 2} then .ok 0 else if opened = {0, 1, 2} then .ok 3
    else .error (text "Too many open files")
  fresh := by
    intro path opened fd h
    split_ifs at h with hfirst hsecond
    · cases h
      rw [hfirst]
      decide
    · cases h
      rw [hsecond]
      decide
  fstat _ := .error []

theorem namespace_leaks :
    (run lastDescriptor.handler (Namespace.lifetime 1 7) {0, 1, 2}).2 ≠ {0, 1, 2} ∧
      (run closedInput.handler (Namespace.lifetime 1 7) {1, 2}).2 ≠ {1, 2} := by
  decide +kernel

end Pyflame
