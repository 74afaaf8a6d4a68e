import Pyflame.Text

/-!
What is known of the interpreter before its memory is read: `PyABI` and
`PyAddresses` of `symbol.h`.
-/

namespace Pyflame

/-- The Python interpreter ABI, named after the first release to have it. -/
inductive PyABI
  | unknown
  | py26
  | py34
  | py36
  deriving DecidableEq, Repr

structure PyAddresses where
  tstate_addr : Word := 0
  interp_head_addr : Word := 0
  interp_head_fn_addr : Word := 0
  interp_head_hint : Word := 0
  pie : Bool := false
  deriving DecidableEq, Repr

namespace PyAddresses

/-- A symbol that was not found stays zero. -/
def relocate (shift : Word → Word) (addr : Word) : Word := if addr = 0 then 0 else shift addr

/-- `operator-`. -/
def sub (addrs : PyAddresses) (base : Word) : PyAddresses :=
  { addrs with
    tstate_addr := relocate (· - base) addrs.tstate_addr
    interp_head_addr := relocate (· - base) addrs.interp_head_addr
    interp_head_fn_addr := relocate (· - base) addrs.interp_head_fn_addr }

/-- `operator+`. -/
def add (addrs : PyAddresses) (base : Word) : PyAddresses :=
  { addrs with
    tstate_addr := relocate (· + base) addrs.tstate_addr
    interp_head_addr := relocate (· + base) addrs.interp_head_addr
    interp_head_fn_addr := relocate (· + base) addrs.interp_head_fn_addr }

/-- The struct has not been filled in. -/
def empty (addrs : PyAddresses) : Bool := addrs.tstate_addr = 0

end PyAddresses

end Pyflame
