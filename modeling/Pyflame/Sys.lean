import Pyflame.Frame
import Pyflame.Numerals
import Pyflame.Library.ByteMemory
import Pyflame.Library.Interaction

/-!
What pyflame asks of the operating system, and the exceptions it raises
(`exc.h`).

Every system call, and every use of a variable that outlives a function,
is a request with a reply. A call that fails replies with the text
`strerror(errno)` has for the failure, since that is all the program ever
does with `errno`.
-/

namespace Pyflame

open Interaction

/-- The exceptions of `exc.h`, each with its `what()`, and `other` for any
further `std::exception`. -/
inductive Exception
  | terminate (what : Bytes)
  | fatal (what : Bytes)
  | symbol (what : Bytes)
  | ptrace (what : Bytes)
  | other (what : Bytes)
  deriving DecidableEq, Repr

def Exception.what : Exception → Bytes
  | terminate what | fatal what | symbol what | ptrace what | other what => what

/-- `pid_t`. -/
abbrev Pid := ℤ

/-! ### Wait statuses -/

/-- The status `waitpid` stores, an `int`. -/
abbrev Status := BitVec 32

def WIFEXITED (status : Status) : Bool := status &&& 0x7f#32 = 0

def WEXITSTATUS (status : Status) : Status := (status &&& 0xff00#32) >>> 8

/-- Death by a signal: the low seven bits are neither `0` nor `0x7f`. -/
def WIFSIGNALED (status : Status) : Bool :=
  status &&& 0x7f#32 ≠ 0 ∧ status &&& 0x7f#32 ≠ 0x7f#32

def WIFSTOPPED (status : Status) : Bool := status &&& 0xff#32 = 0x7f#32

def WSTOPSIG (status : Status) : Status := WEXITSTATUS status

def SIGTRAP : Status := 5
def SIGCHLD : Status := 17
def SIGSTOP : Status := 19

def PTRACE_EVENT_EXEC : Status := 4

/-- `__WALL`. -/
def WALL : ℤ := 0x40000000

/-! ### Registers and memory of a traced thread -/

/-- `user_regs_struct` on x86-64. -/
structure UserRegs where
  r15 : Word
  r14 : Word
  r13 : Word
  r12 : Word
  rbp : Word
  rbx : Word
  r11 : Word
  r10 : Word
  r9 : Word
  r8 : Word
  rax : Word
  rcx : Word
  rdx : Word
  rsi : Word
  rdi : Word
  orig_rax : Word
  rip : Word
  cs : Word
  eflags : Word
  rsp : Word
  ss : Word
  fs_base : Word
  gs_base : Word
  ds : Word
  es : Word
  fs : Word
  gs : Word
  deriving DecidableEq, Repr

abbrev Memory := ByteMemory.Memory 64

/-- The word `PTRACE_PEEKDATA` reads: eight bytes at any address, all of them
mapped. -/
def peekWord (m : Memory) (addr : Word) : Option Word :=
  (ByteMemory.bytes m addr 8).map fun bs => BitVec.ofNat 64 (ByteMemory.leNat bs)

/-- The bytes of a word in memory order. -/
def wordBytes (data : Word) : Bytes := ByteMemory.leBytes 8 data.toNat

/-- The memory `PTRACE_POKEDATA` leaves. -/
def pokeWord (m : Memory) (addr data : Word) : Memory := ByteMemory.store m addr (wordBytes data)

@[simp] theorem wordBytes_length (data : Word) : (wordBytes data).length = 8 :=
  ByteMemory.leBytes_length _ _

theorem peekWord_eq_some_iff {m : Memory} {addr data : Word} :
    peekWord m addr = some data ↔ ByteMemory.bytes m addr 8 = some (wordBytes data) := by
  rw [peekWord, Option.map_eq_some_iff]
  constructor
  · rintro ⟨bs, hbs, rfl⟩
    have hlen := ByteMemory.bytes_length hbs
    have hlt := ByteMemory.leNat_lt bs
    rw [hlen] at hlt
    rw [hbs, wordBytes, BitVec.toNat_ofNat, Nat.mod_eq_of_lt (by simpa using hlt), ← hlen,
      ByteMemory.leBytes_leNat]
  · intro h
    refine ⟨_, h, BitVec.eq_of_toNat_eq ?_⟩
    have hlt : data.toNat < 256 ^ 8 := by simpa using data.isLt
    rw [wordBytes, ByteMemory.leNat_leBytes hlt, BitVec.toNat_ofNat, Nat.mod_eq_of_lt data.isLt]

theorem peekWord_isSome_iff {m : Memory} {addr : Word} :
    (peekWord m addr).isSome ↔ ∀ i < 8, (m (addr + BitVec.ofNat 64 i)).isSome := by
  rw [peekWord, Option.isSome_map, ByteMemory.bytes_isSome_iff]

theorem peekWord_pokeWord_self (m : Memory) (addr data : Word) :
    peekWord (pokeWord m addr data) addr = some data := by
  have hlen : (wordBytes data).length ≤ 2 ^ 64 := by simp
  have h := ByteMemory.bytes_store_self m addr hlen
  rwa [wordBytes_length, ← pokeWord, ← peekWord_eq_some_iff] at h

/-- The first bytes of a word that was poked. -/
theorem bytes_pokeWord (m : Memory) (addr data : Word) {n : ℕ} (hn : n ≤ 8) :
    ByteMemory.bytes (pokeWord m addr data) addr n = some ((wordBytes data).take n) := by
  have hword := peekWord_eq_some_iff.mp (peekWord_pokeWord_self m addr data)
  rw [← Nat.add_sub_cancel' hn] at hword
  exact (ByteMemory.bytes_split hword).1

theorem peekWord_pokeWord_apart (m : Memory) {addr addr' data : Word}
    (h : ByteMemory.Apart addr' 8 addr 8) :
    peekWord (pokeWord m addr data) addr' = peekWord m addr' := by
  rw [peekWord, pokeWord, ByteMemory.bytes_store_apart _ (by simp) (by simpa using h), peekWord]

/-- Poking a mapped word maps and unmaps nothing. -/
theorem pokeWord_isSome {m : Memory} {addr data : Word} (h : (peekWord m addr).isSome)
    (x : Word) : (pokeWord m addr data x).isSome = (m x).isSome := by
  refine ByteMemory.store_isSome ?_ x
  simpa [peekWord] using h

/-- The memory that holds these words at these addresses, and nothing else. -/
def ofWords (words : List (Word × Word)) : Memory := fun addr =>
  (words.find? fun p => (addr - p.1).toNat < 8).bind fun p => (wordBytes p.2)[(addr - p.1).toNat]?

/-! ### Requests -/

/-- The part of `struct stat` that is looked at. -/
structure Stat where
  isLink : Bool
  ino : Word
  deriving DecidableEq, Repr

inductive Request
  /-- `ptrace(2)`, by its first argument. -/
  | traceme
  | attach (pid : Pid)
  | seize (pid : Pid)
  | detach (pid : Pid)
  | interrupt (pid : Pid)
  | getRegs (pid : Pid)
  | setRegs (pid : Pid) (regs : UserRegs)
  | peekData (pid : Pid) (addr : Word)
  | pokeData (pid : Pid) (addr data : Word)
  | setOptions (pid : Pid) (options : Word)
  | cont (pid : Pid)
  | singleStep (pid : Pid)
  | waitpid (pid : Pid) (options : ℤ)
  | raise (signum : Status)
  /-- `strerror(errno)`, whatever call set it. -/
  | errno
  /-- One stream of directory entries is open at a time. -/
  | opendir (path : Bytes)
  | readdir
  /-- Read and write the static `probe_` of `ptrace.cc`. -/
  | probe
  | setProbe (page : Word)
  /-- `operator new[]`: is there room for that many bytes. -/
  | alloc (nbytes : Word)
  /-- A line on `std::cerr`. -/
  | cerr (line : Bytes)
  | now
  | sleepFor (interval : ℤ)
  | lstat (path : Bytes)
  | readlink (path : Bytes)
  | openFile (path : Bytes)
  | fstat (fd : ℤ)
  | close (fd : ℤ)
  | setns (fd : ℤ)
  /-- `mmap` a whole file and look at its contents. -/
  | mapFile (fd : ℤ)
  /-- The lines of a file read through an `ifstream`, none if it cannot be
  opened. -/
  | readLines (path : Bytes)
  | fork
  /-- It replies only if it fails, with `strerror(errno)`. -/
  | execvp (file : Bytes) (argv : List Bytes)
  /-- Open a file for output, and say whether it is open. -/
  | openOutput (path : Bytes)
  deriving DecidableEq

/-- Requests about files and messages. They concern neither the target nor `probe_`. -/
def Request.Foreign : Request → Prop
  | .errno | .cerr _ | .lstat _ | .readlink _ | .openFile _ | .fstat _ | .close _ | .setns _
  | .mapFile _ | .readLines _ => True
  | _ => False

/-- Requests that read the target's memory into a buffer. -/
def Request.Reading : Request → Prop
  | .peekData _ _ | .alloc _ => True
  | _ => False

/-- `Except.error` carries `strerror(errno)`. -/
abbrev Reply (α : Type) := Except Bytes α

abbrev Request.Rep : Request → Type
  | traceme | attach _ | seize _ | detach _ | interrupt _ | setRegs _ _ | pokeData _ _ _
  | setOptions _ _ | cont _ | singleStep _ => Reply Unit
  | getRegs _ => Reply UserRegs
  | peekData _ _ => Reply Word
  | waitpid _ _ => Reply (Pid × Status)
  | raise _ => Unit
  | errno => Bytes
  | opendir _ => Bool
  | readdir => Option Bytes
  | probe => Word
  | setProbe _ => Unit
  | alloc _ => Bool
  | cerr _ => Unit
  | now => Time
  | sleepFor _ => Unit
  | lstat _ | fstat _ => Reply Stat
  | readlink _ => Reply Bytes
  | openFile _ => Reply ℤ
  | close _ => Bool
  | setns _ => Reply Unit
  | mapFile _ => Reply Bytes
  | readLines _ => List Bytes
  | fork => Reply Pid
  | execvp _ _ => Bytes
  | openOutput _ => Bool

/-- Replies under which every call fails and there is nothing to read. -/
def refuse : (r : Request) → r.Rep
  | .traceme | .attach _ | .seize _ | .detach _ | .interrupt _ | .setRegs _ _ | .pokeData _ _ _
  | .setOptions _ _ | .cont _ | .singleStep _ | .setns _ => .error []
  | .getRegs _ | .peekData _ _ | .waitpid _ _ | .lstat _ | .fstat _ | .readlink _ | .openFile _
  | .mapFile _ | .fork => .error []
  | .raise _ | .setProbe _ | .cerr _ | .sleepFor _ => ()
  | .errno | .execvp _ _ => []
  | .opendir _ | .close _ | .alloc _ | .openOutput _ => false
  | .readdir => none
  | .probe => 0
  | .now => 0
  | .readLines _ => []

/-- The interface between pyflame and the operating system. -/
def sys : Signature := ⟨Request, Request.Rep⟩

/-- A function of pyflame that returns an `α`. -/
abbrev Tracer (α : Type) := Prog sys Exception α

/-- Make one system call. -/
abbrev ask (r : Request) : Tracer r.Rep := Prog.ask (S := sys) r

/-- Throw what `what` makes of `strerror(errno)` if a call failed. -/
def orThrow {α : Type} (what : Bytes → Exception) : Reply α → Tracer α
  | .ok a => .ret a
  | .error e => .raise (what e)

theorem only_orThrow {α : Type} {P : Request → Prop} (what : Bytes → Exception) (rep : Reply α) :
    (orThrow what rep).Only P := by cases rep <;> trivial

@[simp] theorem orThrow_ok {α : Type} (what : Bytes → Exception) (a : α) :
    orThrow what (.ok a) = .ret a := rfl
@[simp] theorem orThrow_error {α : Type} (what : Bytes → Exception) (e : Bytes) :
    orThrow (α := α) what (.error e) = .raise (what e) := rfl

end Pyflame
