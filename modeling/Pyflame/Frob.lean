import Pyflame.Addresses
import Pyflame.Ptrace

/-!
`frob.cc`: reading the stacks of a Python interpreter out of the target's
memory, word by word.

The file is compiled once for each ABI against that version's CPython
headers. What it takes from them, the offsets of the fields it reads, is a
parameter.
-/

namespace Pyflame

open Interaction

/-- What `frob.cc` is compiled against: `PYFLAME_PY_VERSION` and the layout
of the CPython objects of that version. -/
structure Headers where
  version : PyABI
  f_back : Word
  f_code : Word
  f_trace : Word
  f_lasti : Word
  f_lineno : Word
  co_filename : Word
  co_name : Word
  co_firstlineno : Word
  co_lnotab : Word
  next : Word
  interp : Word
  frame : Word
  thread_id : Word
  tstate_head : Word
  /-- `ob_size` and `ob_sval` of a byte string. -/
  ob_size : Word
  ob_sval : Word
  sizeofASCIIObject : Word
  sizeofCompactUnicodeObject : Word
  unicode_length : ℕ
  unicode_state : ℕ

variable (H : Headers) (fuel : ℕ) (pid : Pid)

/-! ### Strings -/

def stringSize (addr : Word) : Word := addr + H.ob_size

def byteData (addr : Word) : Word := addr + H.ob_sval

/-- A little-endian field of a structure that was copied out. -/
def field (bytes : Bytes) (offset width : ℕ) : ℕ :=
  ByteMemory.leNat ((bytes.drop offset).take width)

/-- The bits of `PyASCIIObject::state`: two for `interned`, three for `kind`,
then `compact` and `ascii`. -/
def stateKind (state : ℕ) : ℕ := state / 4 % 8
def stateCompact (state : ℕ) : Bool := state / 32 % 2 = 1
def stateAscii (state : ℕ) : Bool := state / 64 % 2 = 1

/-- The character the data starts with, by the switch over the kind. There is
none for the kinds on which the switch asserts. -/
def readChar (kind : ℕ) (bytes : Bytes) : Option ℕ :=
  if kind = 1 ∨ kind = 2 ∨ kind = 4 then some (ByteMemory.leNat (bytes.take kind)) else none

/-- The UTF-8 of one character, none beyond Unicode. Surrogates are encoded
like any other character. -/
def encodeChar (ch : ℕ) : Option Bytes :=
  let char (n : ℕ) : Byte := BitVec.ofNat 8 n
  if ch < 0x80 then
    some [char ch]
  else if ch < 0x800 then
    some [char (0xc0 ||| (ch >>> 6)), char (0x80 ||| (ch &&& 0x3f))]
  else if ch < 0x10000 then
    some [char (0xe0 ||| (ch >>> 12)), char (0x80 ||| ((ch >>> 6) &&& 0x3f)),
      char (0x80 ||| (ch &&& 0x3f))]
  else if ch ≤ 0x10ffff then
    some [char (0xf0 ||| (ch >>> 18)), char (0x80 ||| ((ch >>> 12) &&& 0x3f)),
      char (0x80 ||| ((ch >>> 6) &&& 0x3f)), char (0x80 ||| (ch &&& 0x3f))]
  else
    none

/-- The loop over the data of a string, with the number of passes left. -/
def encodeChars (kind : ℕ) : ℕ → Bytes → Option Bytes
  | 0, _ => some []
  | n + 1, bytes => do
      let chars ← encodeChar (← readChar kind bytes)
      let dump ← encodeChars kind n (bytes.drop kind)
      return chars ++ dump

/-- Where the data of a string starts, behind its head. -/
def strOffset (unicode : Bytes) : Word :=
  if stateAscii (field unicode H.unicode_state 4) then
    H.sizeofASCIIObject
  else
    H.sizeofCompactUnicodeObject

/-- The bytes of data that the head of a string tells of. -/
def strLength (unicode : Bytes) : Word :=
  BitVec.ofNat 64 (stateKind (field unicode H.unicode_state 4)) *
    BitVec.ofNat 64 (field unicode H.unicode_length 8)

/-- How often `for (int i = 0; i < str_length; i += ch_size)` goes round before its index
overflows, which is only in a string of `2 ^ 31` bytes or more. -/
def passes (ch_size : ℕ) (str_length : Word) : ℕ :=
  (min str_length.toInt.toNat (2 ^ 31) + ch_size - 1) / ch_size

def stringDataPython3 (addr : Word) : Tracer Bytes := do
  let unicode ← ptracePeekBytes pid addr H.sizeofASCIIObject
  let state := field unicode H.unicode_state 4
  if !stateCompact state then
    .abort
  else
    let ch_size := stateKind state
    let str_length := strLength H unicode
    let bytes ← ptracePeekBytes pid (addr + strOffset H unicode) str_length
    match encodeChars ch_size (passes ch_size str_length) bytes with
    | some dump =>
        -- An index that has overflowed is negative: it stays below the length for ever, and
        -- what it reads is not the string.
        if str_length.toInt < 2 ^ 31 then return dump else .cut
    | none => .abort

def stringData (addr : Word) : Tracer Bytes :=
  match H.version with
  | .py34 | .py36 => stringDataPython3 H pid addr
  | .py26 | .unknown => ptracePeekString fuel pid (byteData H addr)

/-! ### Line numbers -/

/-- The loop over `co_lnotab`, with the number of pairs left. Reading past
the table would have no result. -/
def lnotabLine (f_lasti : BitVec 32) : ℕ → Bytes → BitVec 32 → BitVec 32 → Option (BitVec 32)
  | 0, _, _, line => some line
  | n + 1, p, addr, line => do
      let addr := addr + (← p[0]?).setWidth 32
      if f_lasti.slt addr then
        return line
      lnotabLine f_lasti n (p.drop 2) addr (line + (← p[1]?).setWidth 32)

/-- The loop reads nothing past a table that holds the pairs it is to go over. -/
theorem lnotabLine_isSome (f_lasti : BitVec 32) {n : ℕ} {p : Bytes} (h : 2 * n ≤ p.length)
    (addr line : BitVec 32) : (lnotabLine f_lasti n p addr line).isSome := by
  induction n generalizing p addr line with
  | zero => rfl
  | succ n ih =>
      obtain ⟨addr_incr, line_incr, p, rfl⟩ : ∃ b c q, p = b :: c :: q := by
        match p with
        | b :: c :: q => exact ⟨b, c, q, rfl⟩
        | [] | [_] => simp only [List.length_cons, List.length_nil] at h; omega
      simp only [List.length_cons] at h
      have hrest := fun addr line => ih (p := p) (by omega) addr line
      simp only [lnotabLine, List.getElem?_cons_zero, List.getElem?_cons_succ, List.drop_succ_cons,
        List.drop_zero, Option.bind_eq_bind, Option.bind_some]
      split
      · rfl
      · exact hrest _ _

/-- `numeric_limits<int>::max()`. -/
def intMax : Word := 0x7fffffff

def getLine (frame f_code : Word) : Tracer Word := do
  let f_trace ← ptracePeek pid (frame + H.f_trace)
  if f_trace ≠ 0 then
    return (← ptracePeek pid (frame + H.f_lineno)) &&& intMax
  let f_lasti := ((← ptracePeek pid (frame + H.f_lasti)) &&& intMax).setWidth 32
  let co_lnotab ← ptracePeek pid (f_code + H.co_lnotab)
  let size := (← ptracePeek pid (stringSize H co_lnotab)) &&& intMax
  let line := ((← ptracePeek pid (f_code + H.co_firstlineno)) &&& intMax).setWidth 32
  let tbl ← ptracePeekBytes pid (byteData H co_lnotab) size
  match lnotabLine f_lasti (size.toNat / 2) tbl 0 line with
  | some line => return line.signExtend 64
  | none => .abort

/-! ### Stacks -/

/-- Push the frames of a chain onto the stack, the given number at most. -/
def followFrame : ℕ → Word → Frames → Tracer Frames
  | 0, _, _ => .cut
  | n + 1, frame, stack => do
      let f_code ← ptracePeek pid (frame + H.f_code)
      let co_filename ← ptracePeek pid (f_code + H.co_filename)
      let filename ← stringData H fuel pid co_filename
      let co_name ← ptracePeek pid (f_code + H.co_name)
      let name ← stringData H fuel pid co_name
      let line ← getLine H pid frame f_code
      let stack := stack ++ [⟨filename, name, line⟩]
      let f_back ← ptracePeek pid (frame + H.f_back)
      if f_back ≠ 0 then
        followFrame n f_back stack
      else
        return stack

/-- The thread state to start from: the head of the interpreter's list if
threads are enabled and the interpreter can be found, the current one
otherwise. -/
def firstThread (addrs : PyAddresses) (enable_threads : Bool) (current_tstate : Word) :
    Tracer Word := do
  if enable_threads then
    let istate ←
      if current_tstate ≠ 0 then
        ptracePeek pid (current_tstate + H.interp)
      else if addrs.interp_head_addr ≠ 0 then
        ptracePeek pid addrs.interp_head_addr
      else
        pure addrs.interp_head_hint
    if istate ≠ 0 then
      ptracePeek pid (istate + H.tstate_head)
    else
      return current_tstate
  else
    return current_tstate

/-- One pass of the loop over the thread list. -/
def walkThreadsStep (enable_threads : Bool) (current_tstate : Word) :
    Word × List Thread → Tracer ((Word × List Thread) ⊕ List Thread) :=
  fun (tstate, threads) => do
    if tstate = 0 then
      return .inr threads
    else
      let id ← ptracePeek pid (tstate + H.thread_id)
      let is_current := tstate = current_tstate
      let frame_addr ← ptracePeek pid (tstate + H.frame)
      let threads ←
        if frame_addr ≠ 0 then do
          let stack ← followFrame H fuel pid fuel frame_addr []
          pure (threads ++ [⟨id, is_current, stack⟩])
        else
          pure threads
      if enable_threads then
        let next ← ptracePeek pid (tstate + H.next)
        return .inl (next, threads)
      else
        return .inl (0, threads)

def getThreads (addrs : PyAddresses) (enable_threads : Bool) : Tracer (List Thread) := do
  let current_tstate ← ptracePeek pid addrs.tstate_addr
  let tstate ← firstThread H pid addrs enable_threads current_tstate
  Prog.forever (walkThreadsStep H fuel pid enable_threads current_tstate) fuel (tstate, [])

/-! ### No stack is empty -/

theorem followFrame_ne_nil (n : ℕ) (frame : Word) (stack : Frames) :
    Returns (· ≠ []) (followFrame H fuel pid n frame stack) := by
  induction n generalizing frame stack with
  | zero => exact .cut
  | succ n ih =>
      refine .bind fun f_code => .bind fun co_filename => .bind fun filename => .bind fun co_name =>
        .bind fun name => .bind fun line => .bind fun f_back => ?_
      split
      · exact ih _ _
      · exact .ret (by simp)

/-- Every thread that `GetThreads` returns has a frame, whatever it was told
of the target's memory. -/
theorem getThreads_ne_nil (addrs : PyAddresses) (enable_threads : Bool) :
    Returns (fun threads => ∀ t ∈ threads, t.frames ≠ [])
      (getThreads H fuel pid addrs enable_threads) := by
  refine .bind fun current_tstate => .bind fun tstate =>
    .forever (I := fun st => ∀ t ∈ st.2, t.frames ≠ []) ?_ fuel (by simp)
  rintro ⟨tstate, threads⟩ hthreads
  simp only [walkThreadsStep]
  split
  · exact .ret hthreads
  · refine Returns.bind fun id => Returns.bind fun frame_addr => ?_
    have hnext : ∀ {threads : List Thread}, (∀ t ∈ threads, t.frames ≠ []) →
        Returns (Sum.elim (fun st : Word × List Thread => ∀ t ∈ st.2, t.frames ≠ [])
            fun threads => ∀ t ∈ threads, t.frames ≠ [])
          (if enable_threads = true then do
            let next ← ptracePeek pid (tstate + H.next)
            return .inl (next, threads)
          else return .inl (0, threads) : Tracer ((Word × List Thread) ⊕ List Thread)) := by
      intro threads hthreads
      split
      · exact .bind fun next => .ret hthreads
      · exact .ret hthreads
    split
    · refine .bind_of (followFrame_ne_nil H fuel pid fuel frame_addr []) fun stack hstack => ?_
      have hpush : ∀ t ∈ threads ++ [(⟨id, tstate = current_tstate, stack⟩ : Thread)],
          t.frames ≠ [] := by
        intro t ht
        rcases List.mem_append.mp ht with ht | ht
        · exact hthreads t ht
        · obtain rfl := List.mem_singleton.mp ht
          exact hstack
      exact hnext hpush
    · exact hnext hthreads

/-- Without `enable_threads` there is at most the current thread. -/
theorem getThreads_length_le (addrs : PyAddresses) :
    Returns (fun threads => threads.length ≤ 1) (getThreads H fuel pid addrs false) := by
  refine .bind fun current_tstate => .bind fun tstate =>
    .forever (I := fun st => st.2.length ≤ 1 ∧ (st.1 ≠ 0 → st.2 = [])) ?_ fuel (by simp)
  rintro ⟨tstate, threads⟩ ⟨hlen, hnil⟩
  simp only [walkThreadsStep]
  split
  · exact .ret hlen
  · next hne =>
      obtain rfl := hnil hne
      refine Returns.bind fun id => Returns.bind fun frame_addr => ?_
      -- The next thread state is 0, so the loop ends with what this pass pushes.
      split
      · exact .bind fun stack => .ret (by simp)
      · exact .ret (by simp)

/-! ### `GetThreads` only reads -/

section

variable {P : Request → Prop} (hpeek : ∀ addr, P (.peekData pid addr))
  (halloc : ∀ nbytes, P (.alloc nbytes))

include hpeek

theorem only_ptracePeek (addr : Word) : (ptracePeek pid addr).Only P :=
  ⟨hpeek addr, fun rep => only_orThrow _ rep⟩

theorem only_peekWords (n : ℕ) (addr : Word) : (peekWords pid addr n).Only P := by
  induction n generalizing addr with
  | zero => trivial
  | succ n ih => exact .bind (only_ptracePeek pid hpeek addr) fun val => .bind (ih _) fun rest => trivial

theorem only_ptracePeekString (addr : Word) : (ptracePeekString fuel pid addr).Only P := by
  apply Prog.Only.forever
  intro (off, dump)
  exact .bind (only_ptracePeek pid hpeek _) fun val => .ite trivial trivial

include halloc

theorem only_ptracePeekBytes (addr nbytes : Word) : (ptracePeekBytes pid addr nbytes).Only P := by
  refine ⟨halloc _, fun room => ?_⟩
  exact .ite trivial (only_peekWords pid hpeek _ addr)

theorem only_stringData (addr : Word) : (stringData H fuel pid addr).Only P := by
  have hpython3 : (stringDataPython3 H pid addr).Only P := by
    refine .bind (only_ptracePeekBytes pid hpeek halloc _ _) fun unicode => .ite trivial ?_
    refine .bind (only_ptracePeekBytes pid hpeek halloc _ _) fun bytes => ?_
    split
    · exact .ite trivial trivial
    · trivial
  unfold stringData
  split
  · exact hpython3
  · exact hpython3
  · exact only_ptracePeekString fuel pid hpeek _
  · exact only_ptracePeekString fuel pid hpeek _

theorem only_getLine (frame f_code : Word) : (getLine H pid frame f_code).Only P := by
  have hread := only_ptracePeek pid hpeek
  refine .bind (hread _) fun f_trace => .ite ?_ ?_
  · exact .bind (hread _) fun f_lineno => trivial
  · refine .bind (hread _) fun f_lasti => .bind (hread _) fun co_lnotab => ?_
    refine .bind (hread _) fun size => .bind (hread _) fun line => ?_
    refine .bind (only_ptracePeekBytes pid hpeek halloc _ _) fun tbl => ?_
    split <;> trivial

theorem only_followFrame (n : ℕ) (frame : Word) (stack : Frames) :
    (followFrame H fuel pid n frame stack).Only P := by
  induction n generalizing frame stack with
  | zero => trivial
  | succ n ih =>
      have hread := only_ptracePeek pid hpeek
      refine .bind (hread _) fun f_code => .bind (hread _) fun co_filename => ?_
      refine .bind (only_stringData H fuel pid hpeek halloc _) fun filename => ?_
      refine .bind (hread _) fun co_name => ?_
      refine .bind (only_stringData H fuel pid hpeek halloc _) fun name => ?_
      refine .bind (only_getLine H pid hpeek halloc _ _) fun line => ?_
      exact .bind (hread _) fun f_back => .ite (ih _ _) trivial

theorem only_getThreads (addrs : PyAddresses) (enable_threads : Bool) :
    (getThreads H fuel pid addrs enable_threads).Only P := by
  have hread := only_ptracePeek pid hpeek
  have hfirst : ∀ current_tstate,
      (firstThread H pid addrs enable_threads current_tstate).Only P := by
    intro current_tstate
    have hhead : ∀ istate : Word, (if istate ≠ 0 then ptracePeek pid (istate + H.tstate_head)
        else return current_tstate : Tracer Word).Only P :=
      fun istate => .ite (hread _) trivial
    refine .ite ?_ trivial
    exact .ite (.bind (hread _) hhead) (.ite (.bind (hread _) hhead) (hhead _))
  refine .bind (hread _) fun current_tstate => .bind (hfirst _) fun tstate => ?_
  apply Prog.Only.forever
  intro (tstate, threads)
  have hnext : ∀ threads : List Thread, (if enable_threads = true then do
        let next ← ptracePeek pid (tstate + H.next)
        return .inl (next, threads)
      else return .inl (0, threads) : Tracer ((Word × List Thread) ⊕ List Thread)).Only P :=
    fun threads => .ite (.bind (hread _) fun next => trivial) trivial
  refine .ite trivial (.bind (hread _) fun id => .bind (hread _) fun frame_addr => ?_)
  refine .ite (.bind (only_followFrame H fuel pid hpeek halloc fuel frame_addr []) fun stack => ?_) ?_
  · exact hnext _
  · exact hnext _

end

/-- `GetThreads` only reads the target's memory. -/
theorem reading_getThreads (addrs : PyAddresses) (enable_threads : Bool) :
    (getThreads H fuel pid addrs enable_threads).Only Request.Reading :=
  only_getThreads H fuel pid (fun _ => trivial) (fun _ => trivial) addrs enable_threads

end Pyflame
