import Pyflame.Frob
import Pyflame.Library.LinkedList
import Mathlib.Data.List.TakeWhile
import Mathlib.Order.Filter.AtTopBot.Basic

/-!
An interpreter in memory, and what `GetThreads` makes of it.

The objects `frob.cc` looks at are described by what they hold; a predicate
for each says that a memory image holds the object at an address. A reader
peeks whole words, so an object counts as readable when every word with a
byte of it is mapped.
-/

namespace Pyflame

open Interaction LinkedList Filter

/-! ### Reading from an image -/

/-- The replies of a target that stands still, with the memory `m`. -/
def image (m : Memory) : (r : Request) → r.Rep
  | .peekData _ addr =>
      match peekWord m addr with
      | some data => .ok data
      | none => .error (text "Input/output error")
  | .alloc _ => true
  | r => refuse r

/-- Reading from the image `m`, the program returns `a`. -/
def Yields {α : Type} (m : Memory) (p : Tracer α) (a : α) : Prop :=
  run (answer (image m)) p () = (.ok a, ())

section Reading

variable {α β : Type} {m : Memory} {pid : Pid}

theorem Yields.ret (a : α) : Yields m (.ret a) a := rfl

theorem Yields.bind {p : Tracer α} {f : α → Tracer β} {a : α} {b : β} (hp : Yields m p a)
    (hf : Yields m (f a) b) : Yields m (p.bind f) b :=
  (run_bind_ok _ hp f).trans hf

/-- A loop that leaves in its first pass. -/
theorem Yields.forever_done {body : β → Tracer (β ⊕ α)} {b : β} {a : α} {n : ℕ}
    (h : Yields m (body b) (.inr a)) : Yields m (Prog.forever body (n + 1) b) a :=
  h.bind (.ret a)

/-- A loop that goes round once and then does the rest. -/
theorem Yields.forever_again {body : β → Tracer (β ⊕ α)} {b b' : β} {a : α} {n : ℕ}
    (h : Yields m (body b) (.inl b')) (hrest : Yields m (Prog.forever body n b') a) :
    Yields m (Prog.forever body (n + 1) b) a :=
  h.bind hrest

theorem yields_peek {addr data : Word} (h : peekWord m addr = some data) :
    Yields m (ptracePeek pid addr) data := by
  have himage : image m (.peekData pid addr) = .ok data := by simp only [image, h]
  change run _ (orThrow _ (image m (.peekData pid addr))) () = _
  rw [himage]
  rfl

/-- The number of bytes in the words that cover `n` bytes. -/
def covering (n : ℕ) : ℕ := 8 * ((n + 7) / 8)

theorem bytes_cons_word {addr : Word} {n : ℕ} {bs : Bytes}
    (h : ByteMemory.bytes m addr (8 + n) = some bs) :
    ∃ data rest, peekWord m addr = some data ∧ ByteMemory.bytes m (addr + 8) n = some rest ∧
      bs = wordBytes data ++ rest := by
  rw [ByteMemory.bytes_add, Option.bind_eq_some_iff] at h
  obtain ⟨chunk, hchunk, h⟩ := h
  obtain ⟨rest, hrest, rfl⟩ := Option.map_eq_some_iff.mp h
  refine ⟨BitVec.ofNat 64 (ByteMemory.leNat chunk), rest, by simp [peekWord, hchunk], hrest, ?_⟩
  have hpeek : peekWord m addr = some (BitVec.ofNat 64 (ByteMemory.leNat chunk)) := by
    simp [peekWord, hchunk]
  rw [peekWord_eq_some_iff, hchunk, Option.some.injEq] at hpeek
  rw [← hpeek]

theorem yields_peekWords {n : ℕ} {addr : Word} {bs : Bytes}
    (h : ByteMemory.bytes m addr (8 * n) = some bs) : Yields m (peekWords pid addr n) bs := by
  induction n generalizing addr bs with
  | zero =>
      obtain rfl := Option.some.inj h
      exact .ret []
  | succ n ih =>
      rw [show 8 * (n + 1) = 8 + 8 * n by omega] at h
      obtain ⟨data, rest, hdata, hrest, rfl⟩ := bytes_cons_word h
      exact (yields_peek hdata).bind ((ih hrest).bind (.ret _))

/-- Rounding up to whole words does not overflow, but for the sizes next to the end. -/
theorem roundUp_div {nbytes : Word} (h : nbytes.toNat + 7 < 2 ^ 64) :
    (if nbytes.toNat % 8 ≠ 0 then (nbytes / 8 + 1) * 8 else nbytes).toNat / 8 =
      (nbytes.toNat + 7) / 8 := by
  split
  · have h8 : (8 : Word).toNat = 8 := rfl
    have h1 : (1 : Word).toNat = 1 := rfl
    rw [BitVec.toNat_mul, BitVec.toNat_add, BitVec.toNat_udiv, h8, h1]
    omega
  · omega

theorem yields_peekBytes {addr nbytes : Word} {bs : Bytes} (hn : nbytes.toNat < 2 ^ 63)
    (h : ByteMemory.bytes m addr (covering nbytes.toNat) = some bs) :
    Yields m (ptracePeekBytes pid addr nbytes) bs := by
  have hwords : Yields m (peekWords pid addr ((nbytes.toNat + 7) / 8)) bs := yields_peekWords h
  rw [← roundUp_div (by omega)] at hwords
  exact hwords

end Reading

/-! ### Strings -/

/-- The bytes of `s` and a terminator at an address. -/
def CStringAt (m : Memory) (addr : Word) (s : Bytes) : Prop :=
  0 ∉ s ∧ ∃ pad, ByteMemory.bytes m addr (8 * (s.length / 8 + 1)) = some (s ++ 0 :: pad)

/-- The contents of a compact string object: the words that hold its head,
its characters, and what follows these up to the next word. -/
structure UnicodeObject where
  head : Bytes
  chars : List ℕ
  pad : Bytes

def UnicodeObject.state (H : Headers) (o : UnicodeObject) : ℕ := field o.head H.unicode_state 4

def UnicodeObject.kind (H : Headers) (o : UnicodeObject) : ℕ := stateKind (o.state H)

/-- The object is a compact string of Unicode characters, of a size that an
`int` can count, and lies at the address. -/
structure UnicodeObject.At (H : Headers) (m : Memory) (addr : Word) (o : UnicodeObject) : Prop where
  size : H.sizeofASCIIObject.toNat < 2 ^ 63
  head : ByteMemory.bytes m addr (covering H.sizeofASCIIObject.toNat) = some o.head
  compact : stateCompact (o.state H) = true
  kind : o.kind H = 1 ∨ o.kind H = 2 ∨ o.kind H = 4
  length : field o.head H.unicode_length 8 = o.chars.length
  short : o.kind H * o.chars.length < 2 ^ 31
  data : ByteMemory.bytes m
      (addr + if stateAscii (o.state H) then H.sizeofASCIIObject else H.sizeofCompactUnicodeObject)
      (covering (o.kind H * o.chars.length)) =
    some (o.chars.flatMap (ByteMemory.leBytes (o.kind H)) ++ o.pad)
  wide : ∀ c ∈ o.chars, c < 256 ^ o.kind H
  range : ∀ c ∈ o.chars, c ≤ 0x10ffff

/-- The UTF-8 of a list of characters. -/
def utf8 (chars : List ℕ) : Bytes := chars.flatMap fun c => (encodeChar c).getD []

/-- A string object with the text `s`. -/
def StringAt (H : Headers) (m : Memory) (addr : Word) (s : Bytes) : Prop :=
  match H.version with
  | .py34 | .py36 => ∃ o : UnicodeObject, o.At H m addr ∧ utf8 o.chars = s
  | .py26 | .unknown => CStringAt m (byteData H addr) s

section Strings

variable {m : Memory} {pid : Pid} {H : Headers}

theorem takeWhile_before_nul {s t : Bytes} (hs : 0 ∉ s) :
    (s ++ t).takeWhile (· ≠ 0) = s ++ t.takeWhile (· ≠ 0) :=
  List.takeWhile_append_of_pos fun b hb => by
    have : b ≠ 0 := fun hb0 => hs (hb0 ▸ hb)
    simpa using this

theorem yields_peekString_from {addr : Word} (k : ℕ) (dump : Bytes) {off : Word} {s pad : Bytes}
    (hs : 0 ∉ s) (hk : s.length / 8 = k)
    (h : ByteMemory.bytes m (addr + off) (8 * (k + 1)) = some (s ++ 0 :: pad)) {n : ℕ} (hn : k < n) :
    Yields m (Prog.forever (peekStringStep pid addr) n (off, dump)) (dump ++ s) := by
  induction k generalizing off dump s n with
  | zero =>
      -- The terminator is in this word.
      obtain ⟨n, rfl⟩ := Nat.exists_eq_succ_of_ne_zero hn.ne'
      obtain ⟨data, rest, hdata, hrest, hbs⟩ := bytes_cons_word (n := 0) h
      obtain rfl := Option.some.inj hrest
      rw [List.append_nil] at hbs
      have htake : (wordBytes data).takeWhile (· ≠ 0) = s := by
        rw [← hbs, takeWhile_before_nul hs]
        simp
      have hmem : 0 ∈ wordBytes data := by simp [← hbs]
      refine Yields.forever_done ((yields_peek hdata).bind ?_)
      simp only [htake, hmem, if_true]
      exact .ret _
  | succ k ih =>
      obtain ⟨n, rfl⟩ := Nat.exists_eq_succ_of_ne_zero (Nat.ne_zero_of_lt hn)
      rw [show 8 * (k + 1 + 1) = 8 + 8 * (k + 1) by omega] at h
      obtain ⟨data, rest, hdata, hrest, hbs⟩ := bytes_cons_word h
      have hlen : (s.take 8).length = 8 := by
        rw [List.length_take]
        omega
      -- The whole word is text.
      rw [← List.take_append_drop 8 s, List.append_assoc] at hbs
      obtain ⟨hword, hrest'⟩ := List.append_inj hbs (by rw [hlen, wordBytes_length])
      have hmem : 0 ∉ wordBytes data := fun h0 => hs (List.mem_of_mem_take (hword ▸ h0))
      have htake : (wordBytes data).takeWhile (· ≠ 0) = s.take 8 := by
        have := takeWhile_before_nul (t := []) hmem
        simpa [hword] using this
      rw [← hrest', BitVec.add_assoc] at hrest
      have hdrop := ih (dump ++ s.take 8) (fun h0 => hs (List.mem_of_mem_drop h0))
        (by simp only [List.length_drop]; omega) hrest (Nat.lt_of_succ_lt_succ hn)
      rw [List.append_assoc, List.take_append_drop] at hdrop
      refine Yields.forever_again ((yields_peek hdata).bind ?_) hdrop
      simp only [htake, hmem, if_false]
      exact .ret _

theorem yields_peekString {addr : Word} {s : Bytes} (h : CStringAt m addr s) {fuel : ℕ}
    (hfuel : s.length / 8 < fuel) : Yields m (ptracePeekString fuel pid addr) s := by
  obtain ⟨hs, pad, hbytes⟩ := h
  rw [← BitVec.add_zero addr] at hbytes
  simpa [ptracePeekString] using yields_peekString_from _ [] hs rfl hbytes hfuel

theorem encodeChars_eq {kind : ℕ} (hkind : kind = 1 ∨ kind = 2 ∨ kind = 4) (chars : List ℕ)
    (pad : Bytes) (hwide : ∀ c ∈ chars, c < 256 ^ kind) (hrange : ∀ c ∈ chars, c ≤ 0x10ffff) :
    encodeChars kind chars.length (chars.flatMap (ByteMemory.leBytes kind) ++ pad) =
      some (utf8 chars) := by
  induction chars with
  | nil => rfl
  | cons c chars ih =>
      have hlen : (ByteMemory.leBytes kind c).length = kind := ByteMemory.leBytes_length _ _
      obtain ⟨encoded, hencoded⟩ : ∃ encoded, encodeChar c = some encoded := by
        have := hrange c List.mem_cons_self
        simp only [encodeChar]
        repeat' split
        all_goals exact ⟨_, rfl⟩
      have hread : readChar kind
          ((c :: chars).flatMap (ByteMemory.leBytes kind) ++ pad) = some c := by
        rw [readChar, if_pos hkind, List.flatMap_cons, List.append_assoc, List.take_left' hlen,
          ByteMemory.leNat_leBytes (hwide c List.mem_cons_self)]
      have hdrop : ((c :: chars).flatMap (ByteMemory.leBytes kind) ++ pad).drop kind =
          chars.flatMap (ByteMemory.leBytes kind) ++ pad := by
        rw [List.flatMap_cons, List.append_assoc, List.drop_left' hlen]
      have hrest := ih (fun d hd => hwide d (List.mem_cons_of_mem _ hd))
        (fun d hd => hrange d (List.mem_cons_of_mem _ hd))
      rw [List.length_cons, encodeChars, hread, hdrop, hrest]
      simp [hencoded, utf8]

theorem toInt_of_short {str_length : Word} (h : str_length.toNat < 2 ^ 31) :
    str_length.toInt = str_length.toNat :=
  BitVec.toInt_eq_toNat_of_lt (by omega)

theorem passes_eq {kind n : ℕ} (hkind : 0 < kind) {str_length : Word}
    (h : str_length.toNat = kind * n) (hn : kind * n < 2 ^ 31) : passes kind str_length = n := by
  rw [passes, toInt_of_short (h ▸ hn), Int.toNat_natCast, h, Nat.min_eq_left hn.le]
  rw [show kind * n + kind - 1 = kind - 1 + kind * n by omega, Nat.add_mul_div_left _ _ hkind,
    Nat.div_eq_of_lt (by omega), Nat.zero_add]

theorem yields_stringDataPython3 {addr : Word} {o : UnicodeObject} (h : o.At H m addr) :
    Yields m (stringDataPython3 H pid addr) (utf8 o.chars) := by
  have hkind : 0 < o.kind H := by rcases h.kind with hk | hk | hk <;> omega
  have hshort := h.short
  have hlen : (strLength H o.head).toNat = o.kind H * o.chars.length := by
    rw [strLength, h.length, ← BitVec.ofNat_mul, BitVec.toNat_ofNat]
    exact Nat.mod_eq_of_lt (Nat.lt_trans hshort (by decide))
  refine (yields_peekBytes h.size h.head).bind ?_
  have hcompact : stateCompact (field o.head H.unicode_state 4) = true := h.compact
  simp only [hcompact, Bool.not_true, Bool.false_eq_true, if_false]
  refine Yields.bind (a := o.chars.flatMap (ByteMemory.leBytes (o.kind H)) ++ o.pad)
    (yields_peekBytes ?_ ?_) ?_
  · omega
  · rw [hlen]
    exact h.data
  · have hpasses := passes_eq hkind hlen hshort
    have hchars := encodeChars_eq h.kind o.chars o.pad h.wide h.range
    rw [← hpasses] at hchars
    have hfits : (strLength H o.head).toInt < 2 ^ 31 := by
      rw [toInt_of_short (hlen ▸ hshort), hlen]
      exact_mod_cast hshort
    simp only [UnicodeObject.kind, UnicodeObject.state, if_pos hfits] at hchars ⊢
    rw [hchars]
    exact .ret _

variable (pid) in
/-- Enough passes for the loops over the text `s`. -/
theorem yields_stringData {addr : Word} {s : Bytes} (h : StringAt H m addr s) :
    ∀ᶠ fuel in atTop, Yields m (stringData H fuel pid addr) s := by
  cases hversion : H.version with
  | py34 | py36 =>
      simp only [StringAt, stringData, hversion] at h ⊢
      obtain ⟨o, ho, rfl⟩ := h
      exact .of_forall fun _ => yields_stringDataPython3 ho
  | py26 | unknown =>
      simp only [StringAt, stringData, hversion] at h ⊢
      filter_upwards [eventually_gt_atTop (s.length / 8)] with fuel hfuel
      exact yields_peekString h hfuel

end Strings

/-! ### Frames -/

/-- The line of a frame: the tracing line number if the frame is traced, and
otherwise what the line table of its code gives for its last instruction. -/
inductive LineAt (H : Headers) (m : Memory) (frame f_code : Word) : Word → Prop
  | traced {f_trace f_lineno : Word} (htrace : peekWord m (frame + H.f_trace) = some f_trace)
      (hne : f_trace ≠ 0) (hlineno : peekWord m (frame + H.f_lineno) = some f_lineno) :
      LineAt H m frame f_code (f_lineno &&& intMax)
  | table {f_lasti co_lnotab size firstlineno : Word} {tbl : Bytes} {line : BitVec 32}
      (htrace : peekWord m (frame + H.f_trace) = some 0)
      (hlasti : peekWord m (frame + H.f_lasti) = some f_lasti)
      (hlnotab : peekWord m (f_code + H.co_lnotab) = some co_lnotab)
      (hsize : peekWord m (stringSize H co_lnotab) = some size)
      (hfirst : peekWord m (f_code + H.co_firstlineno) = some firstlineno)
      (htbl : ByteMemory.bytes m (byteData H co_lnotab) (covering (size &&& intMax).toNat) = some tbl)
      (hline : lnotabLine ((f_lasti &&& intMax).setWidth 32) ((size &&& intMax).toNat / 2) tbl 0
        ((firstlineno &&& intMax).setWidth 32) = some line) :
      LineAt H m frame f_code (line.signExtend 64)

/-- A frame object with the contents `f`. -/
structure FrameAt (H : Headers) (m : Memory) (frame : Word) (f : Frame) : Prop where
  code : ∃ f_code, peekWord m (frame + H.f_code) = some f_code ∧
    (∃ co_filename, peekWord m (f_code + H.co_filename) = some co_filename ∧
      StringAt H m co_filename f.file) ∧
    (∃ co_name, peekWord m (f_code + H.co_name) = some co_name ∧ StringAt H m co_name f.name) ∧
    LineAt H m frame f_code f.line

section Frames

variable {m : Memory} {pid : Pid} {H : Headers}

theorem yields_getLine {frame f_code line : Word} (h : LineAt H m frame f_code line) :
    Yields m (getLine H pid frame f_code) line := by
  cases h with
  | traced htrace hne hlineno =>
      refine (yields_peek htrace).bind ?_
      simp only [ne_eq, hne, not_false_eq_true, if_true]
      exact (yields_peek hlineno).bind (.ret _)
  | @table f_lasti co_lnotab size firstlineno tbl line htrace hlasti hlnotab hsize hfirst htbl hline =>
      have hlt : (size &&& intMax).toNat < 2 ^ 63 := by
        have := Nat.and_le_right (n := size.toNat) (m := intMax.toNat)
        rw [BitVec.toNat_and]
        exact Nat.lt_of_le_of_lt this (by decide)
      refine (yields_peek htrace).bind ((yields_peek hlasti).bind ((yields_peek hlnotab).bind
        ((yields_peek hsize).bind ((yields_peek hfirst).bind
          ((yields_peekBytes hlt htbl).bind ?_)))))
      simp only [hline]
      exact .ret _

variable (pid) in
/-- One frame is pushed, and the rest is up to its `f_back`. -/
theorem yields_followFrame_succ {frame f_back : Word} {f : Frame} (hf : FrameAt H m frame f)
    (hback : peekWord m (frame + H.f_back) = some f_back) :
    ∀ᶠ fuel in atTop, ∀ n stack stack',
      (f_back ≠ 0 → Yields m (followFrame H fuel pid n f_back (stack ++ [f])) stack') →
      (f_back = 0 → stack' = stack ++ [f]) →
      Yields m (followFrame H fuel pid (n + 1) frame stack) stack' := by
  obtain ⟨f_code, hcode, ⟨co_filename, hfilename, hfile⟩, ⟨co_name, hcname, hname⟩, hline⟩ := hf.code
  filter_upwards [yields_stringData pid hfile, yields_stringData pid hname]
    with fuel hfile hname n stack stack' hmore hdone
  refine (yields_peek hcode).bind ((yields_peek hfilename).bind (hfile.bind
    ((yields_peek hcname).bind (hname.bind ((yields_getLine hline).bind
      ((yields_peek hback).bind ?_))))))
  by_cases h0 : f_back = 0
  · simp only [h0, ne_eq, not_true_eq_false, if_false]
    rw [hdone h0]
    exact .ret _
  · simp only [ne_eq, h0, not_false_eq_true, if_true]
    exact hmore h0

variable (pid) in
/-- Following a chain pushes its frames, given enough passes for their
strings and a bound that the chain does not exceed. -/
theorem yields_followFrame {frame : Word} {frames : List (Word × Frame)}
    (hchain : Chain (fun a => peekWord m (a + H.f_back)) 0 frame (frames.map Prod.fst))
    (hframes : ∀ p ∈ frames, FrameAt H m p.1 p.2) (hne : frame ≠ 0) :
    ∀ᶠ fuel in atTop, ∀ n stack, frames.length ≤ n →
      Yields m (followFrame H fuel pid n frame stack) (stack ++ frames.map Prod.snd) := by
  induction frames generalizing frame with
  | nil => exact absurd (Chain.nil_iff.mp hchain) hne
  | cons p frames ih =>
      obtain ⟨addr, f⟩ := p
      obtain ⟨rfl, -, f_back, hback, hrest⟩ := Chain.cons_iff.mp hchain
      have hstep := yields_followFrame_succ pid (hframes _ List.mem_cons_self) hback
      by_cases h0 : f_back = 0
      · obtain rfl : frames = [] := by
          subst h0
          exact List.map_eq_nil_iff.mp (hrest.unique .nil)
        filter_upwards [hstep] with fuel hstep n stack hn
        obtain ⟨n, rfl⟩ := Nat.exists_eq_succ_of_ne_zero (Nat.ne_zero_of_lt hn)
        exact hstep n stack _ (fun h => absurd h0 h) fun _ => rfl
      · have hframes' : ∀ p ∈ frames, FrameAt H m p.1 p.2 := fun p hp =>
          hframes p (List.mem_cons_of_mem _ hp)
        filter_upwards [hstep, ih hrest hframes' h0] with fuel hstep ih n stack hn
        obtain ⟨n, rfl⟩ := Nat.exists_eq_succ_of_ne_zero (Nat.ne_zero_of_lt hn)
        refine hstep n stack _ (fun _ => ?_) fun h => absurd h h0
        have := ih n (stack ++ [f]) (Nat.le_of_succ_le_succ hn)
        simpa using this

end Frames

/-! ### Threads -/

/-- A thread state: where it is, its id, its current frame, and the frames
of that one's chain with where they are, most recent first. -/
structure ThreadState where
  addr : Word
  id : Word
  frame : Word
  frames : List (Word × Frame)

structure ThreadState.At (H : Headers) (m : Memory) (t : ThreadState) : Prop where
  id : peekWord m (t.addr + H.thread_id) = some t.id
  frame : peekWord m (t.addr + H.frame) = some t.frame
  chain : Chain (fun a => peekWord m (a + H.f_back)) 0 t.frame (t.frames.map Prod.fst)
  frames : ∀ p ∈ t.frames, FrameAt H m p.1 p.2

/-- An interpreter and its threads, in the order of its list. -/
structure Interpreter where
  istate : Word
  threads : List ThreadState

structure Interpreter.At (H : Headers) (m : Memory) (I : Interpreter) : Prop where
  ne_zero : I.istate ≠ 0
  list : ∃ head, peekWord m (I.istate + H.tstate_head) = some head ∧
    Chain (fun a => peekWord m (a + H.next)) 0 head (I.threads.map (·.addr))
  threads : ∀ t ∈ I.threads, t.At H m

/-- What a sample of these threads should be while `current` is the current
thread state: those that have a frame. -/
def sampleThreads (current : Word) (ts : List ThreadState) : List Thread :=
  (ts.filter (·.frame ≠ 0)).map fun t => ⟨t.id, t.addr = current, t.frames.map Prod.snd⟩

/-- At least one way to find the interpreter is open, and every one that is
open leads to `istate`. -/
structure Designates (H : Headers) (m : Memory) (addrs : PyAddresses) (current istate : Word) :
    Prop where
  tstate : current ≠ 0 → peekWord m (current + H.interp) = some istate
  symbol : addrs.interp_head_addr ≠ 0 → peekWord m addrs.interp_head_addr = some istate
  hint : addrs.interp_head_hint ≠ 0 → addrs.interp_head_hint = istate
  available : current ≠ 0 ∨ addrs.interp_head_addr ≠ 0 ∨ addrs.interp_head_hint ≠ 0

section Threads

variable {m : Memory} {pid : Pid} {H : Headers}

/-- How the walk goes on behind a thread state: with the next of its list if
threads are enabled, and not at all otherwise. -/
def NextThread (H : Headers) (m : Memory) (enable_threads : Bool) (tstate next : Word) : Prop :=
  if enable_threads then peekWord m (tstate + H.next) = some next else next = 0

variable (pid) in
/-- One thread state is sampled if it has a frame, and the walk goes on with
the next. -/
theorem yields_walkThreadsStep {t : ThreadState} (ht : t.At H m) (hne : t.addr ≠ 0)
    {enable_threads : Bool} {next : Word} (hnext : NextThread H m enable_threads t.addr next)
    (current : Word) :
    ∀ᶠ fuel in atTop, ∀ threads,
      Yields m (walkThreadsStep H fuel pid enable_threads current (t.addr, threads))
        (.inl (next, threads ++ sampleThreads current [t])) := by
  have hgo : ∀ threads : List Thread,
      Yields m (if enable_threads = true then do
          let next ← ptracePeek pid (t.addr + H.next)
          return .inl (next, threads)
        else return .inl (0, threads) : Tracer ((Word × List Thread) ⊕ List Thread))
        (.inl (next, threads)) := by
    intro threads
    unfold NextThread at hnext
    split_ifs at hnext ⊢
    · exact (yields_peek hnext).bind (.ret _)
    · subst hnext
      exact .ret _
  by_cases h0 : t.frame = 0
  · refine .of_forall fun fuel threads => ?_
    simp only [walkThreadsStep, hne, if_false]
    refine (yields_peek ht.id).bind ((yields_peek ht.frame).bind ?_)
    simp only [h0, ne_eq, not_true_eq_false, if_false]
    have hsample : sampleThreads current [t] = [] := by
      simp only [sampleThreads, h0, ne_eq, not_true_eq_false, decide_false, List.filter_cons,
        Bool.false_eq_true, if_false, List.filter_nil, List.map_nil]
    rw [hsample, List.append_nil]
    exact hgo threads
  · filter_upwards [yields_followFrame pid ht.chain ht.frames h0,
      eventually_ge_atTop t.frames.length] with fuel hfollow hfuel threads
    simp only [walkThreadsStep, hne, if_false]
    refine (yields_peek ht.id).bind ((yields_peek ht.frame).bind ?_)
    simp only [ne_eq, h0, not_false_eq_true, if_true]
    have hsample : sampleThreads current [t] =
        [⟨t.id, t.addr = current, t.frames.map Prod.snd⟩] := by
      simp only [sampleThreads, h0, ne_eq, not_false_eq_true, decide_true, List.filter_cons, if_true,
        List.filter_nil, List.map_cons, List.map_nil]
    rw [hsample]
    refine (hfollow fuel [] hfuel).bind ?_
    rw [List.nil_append]
    exact hgo _

theorem sampleThreads_cons (current : Word) (t : ThreadState) (ts : List ThreadState) :
    sampleThreads current (t :: ts) = sampleThreads current [t] ++ sampleThreads current ts := by
  simp only [sampleThreads]
  rw [← List.map_append, ← List.filter_append, List.singleton_append]

variable (pid) in
/-- The walk along a list of thread states samples them in order. -/
theorem yields_walkThreads {head : Word} {ts : List ThreadState}
    (hchain : Chain (fun a => peekWord m (a + H.next)) 0 head (ts.map (·.addr)))
    (hts : ∀ t ∈ ts, t.At H m) (current : Word) :
    ∀ᶠ fuel in atTop, ∀ n threads, ts.length < n →
      Yields m (Prog.forever (walkThreadsStep H fuel pid true current) n (head, threads))
        (threads ++ sampleThreads current ts) := by
  induction ts generalizing head with
  | nil =>
      obtain rfl := Chain.nil_iff.mp hchain
      refine .of_forall fun fuel n threads hn => ?_
      obtain ⟨n, rfl⟩ := Nat.exists_eq_succ_of_ne_zero (Nat.ne_zero_of_lt hn)
      refine .forever_done ?_
      simp only [walkThreadsStep, if_true, sampleThreads, List.filter_nil, List.map_nil,
        List.append_nil]
      exact .ret _
  | cons t ts ih =>
      obtain ⟨rfl, hne, next, hnext, hrest⟩ := Chain.cons_iff.mp hchain
      have hthread : NextThread H m true t.addr next := hnext
      filter_upwards [yields_walkThreadsStep pid (hts t List.mem_cons_self) hne hthread current,
        ih hrest fun t ht => hts t (List.mem_cons_of_mem _ ht)] with fuel hstep ih n threads hn
      obtain ⟨n, rfl⟩ := Nat.exists_eq_succ_of_ne_zero (Nat.ne_zero_of_lt hn)
      refine .forever_again (hstep threads) ?_
      rw [sampleThreads_cons current t ts, ← List.append_assoc]
      exact ih n _ (Nat.lt_of_succ_lt_succ hn)

/-- Whichever way finds the interpreter, the walk starts at the head of its
list. -/
theorem yields_firstThread {addrs : PyAddresses} {current istate head : Word}
    (h : Designates H m addrs current istate) (hne : istate ≠ 0)
    (hhead : peekWord m (istate + H.tstate_head) = some head) :
    Yields m (firstThread H pid addrs true current) head := by
  have htail : Yields m (if istate ≠ 0 then ptracePeek pid (istate + H.tstate_head)
      else pure current) head := by
    rw [if_pos hne]
    exact yields_peek hhead
  simp only [firstThread, if_true]
  split
  · exact (yields_peek (h.tstate ‹_›)).bind htail
  · split
    · exact (yields_peek (h.symbol ‹_›)).bind htail
    · have hhint : addrs.interp_head_hint ≠ 0 := by
        have := h.available
        tauto
      rw [h.hint hhint]
      exact htail

end Threads

/-- With threads enabled, `GetThreads` on an image that holds an interpreter
returns its threads that have a frame, in list order, each with the frames
of its chain, once each and most recent first, whichever way it found the
interpreter. -/
theorem getThreads_interpreter (H : Headers) (m : Memory) (pid : Pid) (I : Interpreter)
    (hI : I.At H m) {tstate_addr current : Word} (hcurrent : peekWord m tstate_addr = some current) :
    ((I.threads.map (·.addr)).Nodup ∧ ∀ t ∈ I.threads, (t.frames.map Prod.fst).Nodup) ∧
    ∃ enough, ∀ fuel ≥ enough, ∀ addrs : PyAddresses, addrs.tstate_addr = tstate_addr →
      Designates H m addrs current I.istate →
      (run (answer (image m)) (getThreads H fuel pid addrs true) ()).1 = .ok (sampleThreads current I.threads) := by
  obtain ⟨head, hhead, hchain⟩ := hI.list
  refine ⟨⟨hchain.nodup, fun t ht => (hI.threads t ht).chain.nodup⟩, ?_⟩
  refine eventually_atTop.mp ?_
  filter_upwards [yields_walkThreads pid hchain hI.threads current,
    eventually_gt_atTop I.threads.length] with fuel hwalk hfuel addrs haddr h
  subst haddr
  have hrun : Yields m (getThreads H fuel pid addrs true) (sampleThreads current I.threads) := by
    refine (yields_peek hcurrent).bind ?_
    exact (yields_firstThread h hI.ne_zero hhead).bind (hwalk fuel [] hfuel)
  exact congrArg Prod.fst hrun

/-- CPython 2.7 on x86-64. -/
def py27 : Headers where
  version := .py26
  f_back := 24
  f_code := 32
  f_trace := 80
  f_lasti := 120
  f_lineno := 124
  co_filename := 80
  co_name := 88
  co_firstlineno := 96
  co_lnotab := 104
  next := 0
  interp := 8
  frame := 16
  thread_id := 144
  tstate_head := 8
  ob_size := 16
  ob_sval := 36
  sizeofASCIIObject := 48
  sizeofCompactUnicodeObject := 72
  unicode_length := 16
  unicode_state := 32

def asWord (s : Bytes) : Word := BitVec.ofNat 64 (ByteMemory.leNat s)

/-- A traced frame object at `frame` that runs the function `name` of `a.py`,
with its code object and the function's name at `code`. -/
def frameWords (frame code f_back line : Word) (name : Bytes) : List (Word × Word) :=
  [(frame + 24, f_back), (frame + 32, code), (frame + 80, 1), (frame + 124, line),
    (code + 80, 0x500), (code + 88, code + 0x100), (code + 0x100 + 36, asWord name)]

/-- An interpreter at `0x1000` with the thread states `0x2000`, which is
current and two frames deep, and `0x3000`, which has no frame. -/
def twoThreads : Memory := ofWords <|
  [(0x100, 0x2000), (0x1008, 0x2000), (0x500 + 36, asWord (text "a.py")),
    (0x2000, 0x3000), (0x2008, 0x1000), (0x2010, 0x4000), (0x2090, 7),
    (0x3000, 0), (0x3008, 0x1000), (0x3010, 0), (0x3090, 8)] ++
  frameWords 0x4000 0x5000 0x6000 3 (text "f") ++ frameWords 0x6000 0x7000 0 9 (text "main")

theorem twoThreads_f : FrameAt py27 twoThreads 0x4000 ⟨text "a.py", text "f", 3⟩ where
  code := ⟨0x5000, by decide +kernel,
    ⟨0x500, by decide +kernel, by decide, [0, 0, 0], by decide +kernel⟩,
    ⟨0x5100, by decide +kernel, by decide, [0, 0, 0, 0, 0, 0], by decide +kernel⟩,
    @LineAt.traced _ _ _ _ 1 3 (by decide +kernel) (by decide) (by decide +kernel)⟩

theorem twoThreads_main : FrameAt py27 twoThreads 0x6000 ⟨text "a.py", text "main", 9⟩ where
  code := ⟨0x7000, by decide +kernel,
    ⟨0x500, by decide +kernel, by decide, [0, 0, 0], by decide +kernel⟩,
    ⟨0x7100, by decide +kernel, by decide, [0, 0, 0], by decide +kernel⟩,
    @LineAt.traced _ _ _ _ 1 9 (by decide +kernel) (by decide) (by decide +kernel)⟩

theorem twoThreads_at : Interpreter.At py27 twoThreads ⟨0x1000,
    [⟨0x2000, 7, 0x4000, [(0x4000, ⟨text "a.py", text "f", 3⟩),
      (0x6000, ⟨text "a.py", text "main", 9⟩)]⟩, ⟨0x3000, 8, 0, []⟩]⟩ where
  ne_zero := by decide
  list := ⟨0x2000, by decide +kernel,
    .cons (by decide) (b := 0x3000) (by decide +kernel)
      (.cons (by decide) (b := 0) (by decide +kernel) .nil)⟩
  threads := by
    refine List.forall_mem_cons.mpr ⟨⟨by decide +kernel, by decide +kernel, ?_, ?_⟩,
      List.forall_mem_singleton.mpr ⟨by decide +kernel, by decide +kernel, .nil, by simp⟩⟩
    · exact .cons (by decide) (b := 0x6000) (by decide +kernel)
        (.cons (by decide) (b := 0) (by decide +kernel) .nil)
    · exact List.forall_mem_cons.mpr ⟨twoThreads_f, List.forall_mem_singleton.mpr twoThreads_main⟩

theorem getThreads_twoThreads :
    ∃ enough, ∀ fuel ≥ enough,
      (run (answer (image twoThreads)) (getThreads py27 fuel 1 { tstate_addr := 0x100 } true) ()).1 =
        .ok [⟨7, true, [⟨text "a.py", text "f", 3⟩, ⟨text "a.py", text "main", 9⟩]⟩] := by
  have hcurrent : peekWord twoThreads 0x100 = some 0x2000 := by decide +kernel
  obtain ⟨-, enough, h⟩ := getThreads_interpreter py27 twoThreads 1 _ twoThreads_at hcurrent
  exact ⟨enough, fun fuel hfuel => h fuel hfuel { tstate_addr := 0x100 } rfl
    ⟨fun _ => by decide +kernel, fun h => absurd rfl h, fun h => absurd rfl h, .inl (by decide)⟩⟩

end Pyflame
