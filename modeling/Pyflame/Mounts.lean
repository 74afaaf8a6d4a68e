import Pyflame.Descriptors
import Pyflame.Footprint
import Mathlib.Logic.Function.Basic

/-!
Where a run looks files up.

The target may live in a mount namespace of its own, into which the tracer goes
to open a file of it and out of which it comes back. Everything else is looked up at
home, and a descriptor is used only from its opening to its closing. That a switch
back fails is the one way not to come home. Where a `close` fails, `Close` tries again for
ever: the descriptor has been released all the same.
-/

namespace Pyflame

open Interaction

/-- The two mount namespaces. -/
inductive Side
  | ours
  | theirs
  deriving DecidableEq, Repr

/-- What a descriptor is for. -/
inductive Opened
  | mnt (side : Side)
  | file
  deriving DecidableEq, Repr

/-- What the system shows of the namespaces: the names that the links have, and the inodes of the
files where they are none. -/
structure MountWorld where
  name : Side → Bytes
  ino : Side → Word
  apart : Bool
  name_ne_iff : (name .ours).takeWhile (· ≠ 0) ≠ (name .theirs).takeWhile (· ≠ 0) ↔ apart = true
  ino_eq_iff : ino .ours = ino .theirs ↔ apart = false

/-- Where the tracer is, and what it has opened. -/
structure Whereabouts where
  side : Side := .ours
  opened : ℤ → Option Opened := fun _ => none
  /-- A switch back has failed. -/
  stranded : Bool := false
  /-- `lstat` has not shown that there are namespaces. -/
  blind : Bool := false
  /-- The descriptor whose closing has failed. -/
  jammed : Option ℤ := none

/-- Where the files of the target are looked up. -/
def Whereabouts.lookup (w : MountWorld) (s : Whereabouts) : Side :=
  if w.apart ∧ s.blind = false then .theirs else .ours

/-- What a descriptor is for from now on. -/
def Whereabouts.put (s : Whereabouts) (fd : ℤ) (o : Option Opened) : Whereabouts :=
  { s with opened := Function.update s.opened fd o }

section

variable (w : MountWorld) (pid : Pid)

/-- A namespace file is known by its path. -/
def openedAs (side : Side) (path : Bytes) : Opened :=
  if side = .ours ∧ path = kOurMnt then .mnt .ours
  else if side = .ours ∧ path = Descriptors.theirMnt pid then .mnt .theirs
  else .file

end

/-- At home, with no file left open but those of namespaces. -/
structure Whereabouts.Home (s : Whereabouts) : Prop where
  side : s.side = .ours
  stranded : s.stranded = false
  jammed : s.jammed = none
  files : ∀ fd, s.opened fd ≠ some .file

/-- What a `Namespace` is good for: it leads to the files of the target and back. -/
inductive Namespace.Leads (w : MountWorld) (s : Whereabouts) : Namespace → Prop
  | alone (h : s.lookup w = .ours) : Leads w s {}
  | both {out in_ : ℤ} (h : s.lookup w = .theirs) (hout : 0 ≤ out) (hin : 0 ≤ in_)
      (hours : s.opened out = some (.mnt .ours)) (htheirs : s.opened in_ = some (.mnt .theirs)) :
      Leads w s ⟨out, in_⟩

section

variable {w : MountWorld} {pid : Pid} {fuel : ℕ} {s : Whereabouts} {ns : Namespace}

/-! ### Paths -/

theorem theirMnt_ne : Descriptors.theirMnt pid ≠ kOurMnt := by
  have hours : kOurMnt = text "/proc/" ++ text "self/ns/mnt" := rfl
  intro h
  rw [Descriptors.theirMnt, hours, List.append_assoc] at h
  have h := List.append_cancel_left h
  have hdigit : ∀ b ∈ signedDecimal pid, b = 45 ∨ digitValue b < 10 := by
    intro b hb
    unfold signedDecimal at hb
    have hnumeral : ∀ b ∈ decimal pid.natAbs, digitValue b < 10 :=
      digitValue_of_mem_numeral (by decide) (by decide) _
    split_ifs at hb
    · exact (List.mem_append.mp hb).imp List.mem_singleton.mp (hnumeral b)
    · exact .inr (hnumeral b hb)
  cases hpid : signedDecimal pid with
  | nil =>
      rw [hpid] at h
      revert h
      decide
  | cons b rest =>
      rw [hpid] at h
      obtain rfl : b = 115 := (List.cons.inj h).1
      have hb := hdigit 115 (hpid ▸ List.mem_cons_self)
      revert hb
      decide

@[simp] theorem openedAs_ours : openedAs pid .ours kOurMnt = .mnt .ours := rfl

@[simp] theorem openedAs_theirs : openedAs pid .ours (Descriptors.theirMnt pid) = .mnt .theirs := by
  rw [openedAs, if_neg fun h => theirMnt_ne h.2, if_pos ⟨rfl, rfl⟩]

@[simp] theorem openedAs_away (path : Bytes) : openedAs pid .theirs path = .file := rfl

/-! ### What leaves the record alone -/

section Put

variable {fd : ℤ} {o : Option Opened}

@[simp] theorem Whereabouts.put_side : (s.put fd o).side = s.side := rfl
@[simp] theorem Whereabouts.put_stranded : (s.put fd o).stranded = s.stranded := rfl
@[simp] theorem Whereabouts.put_opened_self : (s.put fd o).opened fd = o := Function.update_self ..

theorem Whereabouts.put_opened_of_ne {fd' : ℤ} (h : fd' ≠ fd) :
    (s.put fd o).opened fd' = s.opened fd' :=
  Function.update_of_ne h ..

theorem Whereabouts.Home.put (h : s.Home) (ho : o ≠ some .file) : (s.put fd o).Home where
  side := h.side
  stranded := h.stranded
  jammed := h.jammed
  files fd' := by
    by_cases hfd : fd' = fd
    · subst hfd
      rwa [Whereabouts.put_opened_self]
    · rw [Whereabouts.put_opened_of_ne hfd]
      exact h.files fd'

/-- Another descriptor is of no concern. -/
theorem Namespace.Leads.put (h : ns.Leads w s) (hfd : s.opened fd = none) :
    ns.Leads w (s.put fd o) := by
  cases h with
  | alone h => exact .alone h
  | both h hout hin hours htheirs =>
      refine .both h hout hin ?_ ?_
      · rwa [Whereabouts.put_opened_of_ne fun heq => by simp [heq, hfd] at hours]
      · rwa [Whereabouts.put_opened_of_ne fun heq => by simp [heq, hfd] at htheirs]

end Put

/-- Where going there is refused, nothing has changed, nor after coming back. -/
theorem Whereabouts.Home.refused (h : s.Home) : { s with stranded := s.side = .theirs } = s := by
  obtain ⟨side, opened, stranded, blind, jammed⟩ := s
  obtain rfl : side = .ours := h.side
  obtain rfl : stranded = false := h.stranded
  rfl

theorem Whereabouts.Home.back (h : s.Home) : { s with side := .ours } = s := by
  obtain ⟨side, opened, stranded, blind, jammed⟩ := s
  obtain rfl : side = .ours := h.side
  rfl

theorem Whereabouts.Home.closed (t : Whereabouts) (fd : ℤ) (ht : t.Home) : (t.put fd none).Home :=
  ht.put (by simp)

variable {cfg : Settings} {headers : PyABI → Headers} {n : ℕ}

end

end Pyflame
