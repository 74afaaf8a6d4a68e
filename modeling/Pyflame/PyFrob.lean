import Pyflame.Aslr
import Pyflame.Ptrace
import Pyflame.Symbol

/-!
`pyfrob.cc`: which file has the symbols of the interpreter, and where they are
in the target.

All three ABIs are compiled in, and thread support is.
-/

namespace Pyflame

open Interaction

variable (fuel : ℕ) (pid : Pid)

def addressesFromLibPython (libpython : Bytes) (ns : Namespace) :
    Tracer (PyABI × PyAddresses) := do
  let (offset, elf_path) ← locateLibPython pid libpython []
  if offset = 0 then
    throw (.symbol (text "Failed to locate libpython named " ++ libpython))
  let pyelf ← ELF.openIn fuel elf_path ns
  let pyelf ← pyelf.parse
  let (abi, addrs) ← pyelf.getAddresses fuel
  if addrs.empty then
    throw (.symbol (text "Failed to locate addresses"))
  return (abi, addrs.add offset)

/-- The library to look for, by the ones the executable needs. -/
def libpythonOf (needed : List Bytes) : Bytes :=
  (needed.find? (text "libpython" <:+: ·)).getD (text "libpython2.7.so")

def exePath : Bytes := text "/proc/" ++ signedDecimal pid ++ text "/exe"

def addrs (ns : Namespace) : Tracer (PyABI × PyAddresses) := do
  let exe ← readLink (exePath pid)
  let target ← ELF.openIn fuel exe ns
  let target ← target.parse
  let (abi, addrs) ← target.getAddresses fuel
  if addrs.empty then
    let needed ← target.neededLibs fuel
    addressesFromLibPython fuel pid (libpythonOf needed) ns
  else if addrs.pie then
    let (offset, _) ← locateLibPython pid exe []
    return (abi, addrs.add offset)
  else
    return (abi, addrs)

/-- Where only `PyInterpreterState_Head` was found, call it. -/
def callInterpHead (enable_threads : Bool) (addrs : PyAddresses) : Tracer PyAddresses := do
  if enable_threads ∧ addrs.interp_head_addr = 0 ∧ addrs.interp_head_hint = 0 ∧
      addrs.interp_head_fn_addr ≠ 0 then
    return { addrs with
      interp_head_hint := ← ptraceCallFunction fuel pid addrs.interp_head_fn_addr }
  else
    return addrs

/-- The body of `set_addrs_`, with what it leaves in `addrs_`. It returns none
where the source returns 1. -/
def setAddrsIn (enable_threads : Bool) (ns : Namespace) :
    Tracer (Option (PyABI × PyAddresses)) := do
  match ← (addrs fuel pid ns).attempt with
  | .error (.symbol _) => return none
  | .error e => throw e
  | .ok (abi, addrs) => return some (abi, ← callInterpHead fuel pid enable_threads addrs)

/-- `set_addrs_`. The namespace is closed on every way out. -/
def setAddrs (enable_threads : Bool) : Tracer (Option (PyABI × PyAddresses)) := do
  let ns ← Namespace.ofPid fuel pid
  let result ← (setAddrsIn fuel pid enable_threads ns).attempt
  ns.destroy fuel
  match result with
  | .ok found => return found
  | .error e => throw e

/-- `DetectABI`, with the ABI whose `GetThreads` it selects. -/
def detectABI (enable_threads : Bool) (abi : PyABI) : Tracer (Option (PyABI × PyAddresses)) := do
  match ← setAddrs fuel pid enable_threads with
  | none => return none
  | some (detected, addrs) =>
      let abi := if abi = .unknown then detected else abi
      if abi = .unknown then
        throw (.fatal (text "Failed to detect a Python ABI."))
      else if addrs.empty then
        throw (.fatal (text "DetectABI(): addrs_ is unexpectedly empty."))
      else
        return some (abi, addrs)

/-! ### What `Addrs` leaves alone -/

theorem only_locateLibPython (hint path : Bytes) :
    (locateLibPython pid hint path).Only Request.Foreign :=
  ⟨trivial, fun lines => .of_quiet (quiet_locateLine hint path lines)⟩

theorem only_addressesFromLibPython (libpython : Bytes) (ns : Namespace) :
    (addressesFromLibPython fuel pid libpython ns).Only Request.Foreign := by
  refine .bind (only_locateLibPython pid libpython []) fun r => .ite trivial ?_
  refine .bind (ELF.only_openIn fuel _ ns) fun pyelf => .bind (.of_quiet pyelf.quiet_parse) fun pyelf => ?_
  exact .bind (.of_quiet (pyelf.quiet_getAddresses fuel)) fun r => .ite trivial trivial

/-- `Addrs` only reads files. -/
theorem only_addrs (ns : Namespace) : (addrs fuel pid ns).Only Request.Foreign := by
  have hexe : (readLink (exePath pid)).Only Request.Foreign :=
    ⟨trivial, fun rep => only_orThrow _ rep⟩
  refine .bind hexe fun exe => .bind (ELF.only_openIn fuel exe ns) fun target => ?_
  refine .bind (.of_quiet target.quiet_parse) fun target => ?_
  refine .bind (.of_quiet (target.quiet_getAddresses fuel)) fun r => .ite ?_ (.ite ?_ trivial)
  · exact .bind (.of_quiet (target.quiet_neededLibs fuel)) fun needed =>
      only_addressesFromLibPython fuel pid _ ns
  · exact .bind (only_locateLibPython pid exe []) fun _ => trivial

/-- It finds no hint. -/
theorem addrs_hint (ns : Namespace) :
    Returns (fun r => r.2.interp_head_hint = 0) (addrs fuel pid ns) := by
  refine Returns.bind fun exe => Returns.bind fun target => Returns.bind fun target => ?_
  refine (target.getAddresses_hint fuel).bind_of fun r hr => ?_
  simp only
  split_ifs
  · refine Returns.bind fun needed => Returns.bind fun r => ?_
    simp only
    split_ifs
    · exact .raise
    · refine Returns.bind fun pyelf => Returns.bind fun pyelf => ?_
      refine (pyelf.getAddresses_hint fuel).bind_of fun r hr => ?_
      split_ifs
      · exact .raise
      · exact .ret hr
  · exact Returns.bind fun _ => .ret hr
  · exact .ret hr

end Pyflame
