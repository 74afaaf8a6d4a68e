import Pyflame.Sys

/-!
`posix.cc` and `namespace.cc`: opening files of the target, which may live in
a mount namespace of its own.
-/

namespace Pyflame

open Interaction

/-! ### `posix.cc` -/

def openRdonly (path : Bytes) : Tracer ℤ := do
  orThrow (fun e => .fatal (text "Failed to open " ++ path ++ text ": " ++ e)) (← ask (.openFile path))

/-- `Close`, which tries until it succeeds. -/
def close (fuel : ℕ) (fd : ℤ) : Tracer Unit :=
  if fd < 0 then
    return ()
  else
    Prog.forever (fun _ => do if ← ask (.close fd) then return .inr () else return .inl ()) fuel ()

def fstat (fd : ℤ) : Tracer Stat := do
  orThrow (fun e => .fatal (text "Failed to fstat file descriptor " ++ signedDecimal fd ++
    text ": " ++ e)) (← ask (.fstat fd))

def setNs (fd : ℤ) : Tracer Unit := do
  orThrow (fun e => .fatal (text "Failed to setns " ++ signedDecimal fd ++ text ": " ++ e))
    (← ask (.setns fd))

def readLink (path : Bytes) : Tracer Bytes := do
  orThrow (fun e => .fatal (text "Failed to read symlink " ++ path ++ text ": " ++ e))
    (← ask (.readlink path))

/-- `open`, which reports a failure by `-1`. -/
def openFile (path : Bytes) : Tracer ℤ := do
  match ← ask (.openFile path) with
  | .ok fd => return fd
  | .error _ => return -1

/-! ### `namespace.cc` -/

def kOurMnt : Bytes := text "/proc/self/ns/mnt"

/-- `Namespace`, by the descriptors of the two namespaces. -/
structure Namespace where
  out : ℤ := -1
  in_ : ℤ := -1
  deriving DecidableEq, Repr

namespace Namespace

/-- `readlink` on one of the two links. -/
def nameOf (path : Bytes) : Tracer Bytes := do
  orThrow (fun e => .fatal (text "Failed to readlink " ++ path ++ text ": " ++ e))
    (← ask (.readlink path))

/-- The constructor. -/
def ofPid (fuel : ℕ) (pid : Pid) : Tracer Namespace := do
  let their_mnt := text "/proc/" ++ signedDecimal pid ++ text "/ns/mnt"
  match ← ask (.lstat kOurMnt) with
  | .error e =>
      ask (.cerr (text "Failed to lstat path " ++ kOurMnt ++ text ": " ++ e))
      return {}
  | .ok out_st =>
      if out_st.isLink then
        let our_name ← nameOf kOurMnt
        let their_name ← nameOf their_mnt
        if our_name.takeWhile (· ≠ 0) ≠ their_name.takeWhile (· ≠ 0) then
          let out ← openRdonly kOurMnt
          let in_ ← openRdonly their_mnt
          return { out, in_ }
        else
          return {}
      else
        let out ← openRdonly kOurMnt
        let out_st ← fstat out
        let in_ ← openRdonly their_mnt
        let in_st ← fstat in_
        if out_st.ino = in_st.ino then
          close fuel out
          close fuel in_
          return {}
        else
          return { out, in_ }

/-- `Open`. -/
def openIn (ns : Namespace) (path : Bytes) : Tracer ℤ := do
  if ns.in_ ≠ -1 then
    setNs ns.in_
    let fd ← openFile path
    setNs ns.out
    return fd
  else
    openFile path

/-- The destructor. -/
def destroy (ns : Namespace) (fuel : ℕ) : Tracer Unit := do
  if ns.out ≠ 0 then
    close fuel ns.out
    close fuel ns.in_

end Namespace

/-! ### What they ask for -/

theorem only_close (fuel : ℕ) (fd : ℤ) : (close fuel fd).Only Request.Foreign := by
  refine .ite trivial (.forever (fun _ => ?_) fuel ())
  exact ⟨trivial, fun rep => by cases (rep : Bool) <;> trivial⟩

theorem only_openFile (path : Bytes) : (openFile path).Only Request.Foreign :=
  ⟨trivial, fun rep => by cases rep <;> trivial⟩

namespace Namespace

theorem only_openIn (ns : Namespace) (path : Bytes) : (ns.openIn path).Only Request.Foreign := by
  have hsetNs : ∀ fd, (setNs fd).Only Request.Foreign := fun fd =>
    ⟨trivial, fun rep => only_orThrow _ rep⟩
  refine .ite (.bind (hsetNs _) fun _ => .bind (only_openFile path) fun fd => ?_) (only_openFile path)
  exact .bind (hsetNs _) fun _ => trivial

theorem only_destroy (ns : Namespace) (fuel : ℕ) : (ns.destroy fuel).Only Request.Foreign :=
  .ite (.bind (only_close fuel _) fun _ => only_close fuel _) trivial

theorem only_ofPid (fuel : ℕ) (pid : Pid) : (ofPid fuel pid).Only Request.Foreign := by
  have hname : ∀ path, (nameOf path).Only Request.Foreign := fun path =>
    ⟨trivial, fun rep => only_orThrow _ rep⟩
  have hopen : ∀ path, (openRdonly path).Only Request.Foreign := fun path =>
    ⟨trivial, fun rep => only_orThrow _ rep⟩
  have hfstat : ∀ fd, (fstat fd).Only Request.Foreign := fun fd =>
    ⟨trivial, fun rep => only_orThrow _ rep⟩
  refine ⟨trivial, fun rep => ?_⟩
  cases rep with
  | error e => exact ⟨trivial, fun _ => trivial⟩
  | ok out_st =>
      refine .ite ?_ ?_
      · refine .bind (hname _) fun our_name => .bind (hname _) fun their_name => .ite ?_ trivial
        exact .bind (hopen _) fun out => .bind (hopen _) fun in_ => trivial
      · refine .bind (hopen _) fun out => .bind (hfstat _) fun out_st => ?_
        refine .bind (hopen _) fun in_ => .bind (hfstat _) fun in_st => .ite ?_ trivial
        exact .bind (only_close fuel _) fun _ => .bind (only_close fuel _) fun _ => trivial

end Namespace

end Pyflame
