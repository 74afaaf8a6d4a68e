import Pyflame.Pages
import Mathlib.Algebra.BigOperators.Group.List.Basic

/-!
Line numbers: `GetLine` on the line table of a code object.

A table is a sequence of pairs, an increment of the address and one of the line.
CPython and `GetLine` go over the same pairs, those whose addresses add up to no
more than the last instruction. They differ in what an increment of the line is.
-/

namespace Pyflame

open Interaction

/-- The pairs of a table. -/
def lnotabPairs : Bytes → List (Byte × Byte)
  | addr_incr :: line_incr :: p => (addr_incr, line_incr) :: lnotabPairs p
  | [] | [_] => []

theorem lnotabPairs_take (p : Bytes) (k : ℕ) :
    lnotabPairs (p.take k) = (lnotabPairs p).take (k / 2) := by
  induction p using lnotabPairs.induct generalizing k with
  | case2 => simp [lnotabPairs]
  | case3 => cases k <;> simp [lnotabPairs]
  | case1 addr_incr line_incr p ih =>
      match k with
      | 0 | 1 => simp [lnotabPairs]
      | k + 2 =>
          rw [List.take_succ_cons, List.take_succ_cons, lnotabPairs, lnotabPairs, ih,
            show (k + 2) / 2 = k / 2 + 1 by omega, List.take_succ_cons]

/-- What the addresses of the pairs add up to. -/
def addrSum (pairs : List (Byte × Byte)) : ℕ := (pairs.map (·.1.toNat)).sum

/-- `p` is the longest prefix of the pairs whose addresses add up to no more than
`f_lasti`. -/
structure ReachedBy (f_lasti : ℕ) (pairs p : List (Byte × Byte)) : Prop where
  isPrefix : p <+: pairs
  le : addrSum p ≤ f_lasti
  longest : ∀ q, q <+: pairs → addrSum q ≤ f_lasti → q.length ≤ p.length

/-- `PyCode_Addr2Line` of CPython 3.6, where the line goes back by a negative
increment. -/
def addr2Line36 (co_firstlineno : ℤ) (p : List (Byte × Byte)) : ℤ :=
  co_firstlineno + (p.map (·.2.toInt)).sum

/-- No address that the loop computes overflows an `int`. -/
def AddressesFit (f_lasti : ℕ) (pairs : List (Byte × Byte)) : Prop :=
  ∀ q pair, q ++ [pair] <+: pairs → addrSum q ≤ f_lasti → addrSum (q ++ [pair]) < 2 ^ 31

/-! ### The pairs of a loop -/

/-- The pairs that the loop takes, from an address on. -/
def takenPairs (f_lasti : ℕ) : ℕ → List (Byte × Byte) → List (Byte × Byte)
  | _, [] => []
  | addr, pair :: pairs =>
      if f_lasti < addr + pair.1.toNat then []
      else pair :: takenPairs f_lasti (addr + pair.1.toNat) pairs

theorem addrSum_cons (pair : Byte × Byte) (pairs : List (Byte × Byte)) :
    addrSum (pair :: pairs) = pair.1.toNat + addrSum pairs := by
  simp [addrSum]

section Taken

variable {f_lasti : ℕ}

theorem takenPairs_initial (addr : ℕ) (pairs : List (Byte × Byte)) :
    takenPairs f_lasti addr pairs <+: pairs := by
  induction pairs generalizing addr with
  | nil => exact List.prefix_refl _
  | cons pair pairs ih =>
      rw [takenPairs]
      split_ifs
      · exact List.nil_prefix
      · exact (List.prefix_cons_inj pair).mpr (ih _)

theorem takenPairs_le {addr : ℕ} (h : addr ≤ f_lasti) (pairs : List (Byte × Byte)) :
    addr + addrSum (takenPairs f_lasti addr pairs) ≤ f_lasti := by
  induction pairs generalizing addr with
  | nil => exact h
  | cons pair pairs ih =>
      rw [takenPairs]
      split_ifs with hpast
      · exact h
      · have hrest := ih (Nat.le_of_not_lt hpast)
        rw [addrSum_cons]
        omega

theorem takenPairs_longest {addr : ℕ} {pairs q : List (Byte × Byte)} (hq : q <+: pairs)
    (hle : addr + addrSum q ≤ f_lasti) : q.length ≤ (takenPairs f_lasti addr pairs).length := by
  induction pairs generalizing addr q with
  | nil => rw [List.prefix_nil.mp hq, takenPairs]
  | cons pair pairs ih =>
      cases q with
      | nil => exact Nat.zero_le _
      | cons x q =>
          obtain ⟨rfl, hprefix⟩ := List.cons_prefix_cons.mp hq
          rw [addrSum_cons] at hle
          rw [takenPairs, if_neg (by omega), List.length_cons, List.length_cons]
          exact Nat.succ_le_succ (ih hprefix (by omega))

theorem takenPairs_take (n addr : ℕ) (pairs : List (Byte × Byte)) :
    takenPairs f_lasti addr (pairs.take n) = (takenPairs f_lasti addr pairs).take n := by
  induction pairs generalizing n addr with
  | nil => simp [takenPairs]
  | cons pair pairs ih =>
      cases n with
      | zero => rfl
      | succ n =>
          rw [List.take_succ_cons, takenPairs, takenPairs]
          split_ifs
          · rfl
          · rw [ih, List.take_succ_cons]

/-- There is one longest prefix, and the loop takes it. -/
theorem ReachedBy.eq_takenPairs {pairs p : List (Byte × Byte)} (h : ReachedBy f_lasti pairs p) :
    p = takenPairs f_lasti 0 pairs := by
  have hle : addrSum (takenPairs f_lasti 0 pairs) ≤ f_lasti := by
    have := takenPairs_le (Nat.zero_le f_lasti) pairs
    omega
  have hlen : p.length = (takenPairs f_lasti 0 pairs).length := by
    apply Nat.le_antisymm
    · exact takenPairs_longest h.isPrefix (by have := h.le; omega)
    · exact h.longest _ (takenPairs_initial 0 pairs) hle
  exact (List.prefix_of_prefix_length_le h.isPrefix (takenPairs_initial 0 pairs)
    (Nat.le_of_eq hlen)).eq_of_length hlen

theorem takenPairs_reachedBy (pairs : List (Byte × Byte)) :
    ReachedBy f_lasti pairs (takenPairs f_lasti 0 pairs) where
  isPrefix := takenPairs_initial 0 pairs
  le := by
    have := takenPairs_le (Nat.zero_le f_lasti) pairs
    omega
  longest q hq hle := takenPairs_longest hq (by omega)

/-- An address overflows only behind an instruction at the very end of what an `int`
can number. -/
theorem addressesFit_of_lt (h : f_lasti + 255 < 2 ^ 31) (pairs : List (Byte × Byte)) :
    AddressesFit f_lasti pairs := by
  intro q pair _ hle
  have hincr := pair.1.isLt
  have hsum : addrSum (q ++ [pair]) = addrSum q + pair.1.toNat := by simp [addrSum]
  omega

end Taken

/-! ### The loop of `GetLine` -/

/-- What the loop adds to the line: the increments as unsigned bytes. -/
def lineSum (pairs : List (Byte × Byte)) : ℕ := (pairs.map (·.2.toNat)).sum

theorem slt_ofNat_iff {f_lasti : BitVec 32} {addr : ℕ} (hf : f_lasti.toNat < 2 ^ 31)
    (haddr : addr < 2 ^ 31) : f_lasti.slt (BitVec.ofNat 32 addr) = true ↔ f_lasti.toNat < addr := by
  have hnat : (BitVec.ofNat 32 addr).toNat = addr := by
    rw [BitVec.toNat_ofNat]
    omega
  rw [BitVec.slt, decide_eq_true_eq, BitVec.toInt_eq_toNat_of_lt (by omega),
    BitVec.toInt_eq_toNat_of_lt (by omega), hnat]
  omega

theorem lnotabLine_eq {f_lasti : BitVec 32} (hf : f_lasti.toNat < 2 ^ 31) (p rest : Bytes)
    {addr : ℕ} (haddr : addr ≤ f_lasti.toNat)
    (hfit : ∀ q pair, q ++ [pair] <+: lnotabPairs p → addr + addrSum q ≤ f_lasti.toNat →
      addr + addrSum (q ++ [pair]) < 2 ^ 31) (line : BitVec 32) :
    lnotabLine f_lasti (p.length / 2) (p ++ rest) (BitVec.ofNat 32 addr) line =
      some (line + BitVec.ofNat 32 (lineSum (takenPairs f_lasti.toNat addr (lnotabPairs p)))) := by
  induction p using lnotabPairs.induct generalizing addr line with
  | case2 => simp [lnotabLine, lnotabPairs, takenPairs, lineSum]
  | case3 => simp [lnotabLine, lnotabPairs, takenPairs, lineSum]
  | case1 addr_incr line_incr p ih =>
      have hnext : addr + addr_incr.toNat < 2 ^ 31 := by
        have := hfit [] (addr_incr, line_incr) (by simp [lnotabPairs]) (by simpa [addrSum] using haddr)
        simpa [addrSum] using this
      have hlen : (addr_incr :: line_incr :: p).length / 2 = p.length / 2 + 1 := by
        simp only [List.length_cons]
        omega
      have hincr : BitVec.ofNat 32 addr + addr_incr.setWidth 32 =
          BitVec.ofNat 32 (addr + addr_incr.toNat) := by
        rw [BitVec.ofNat_add, BitVec.ofNat_toNat]
      simp only [hlen, lnotabLine, List.cons_append, List.getElem?_cons_zero, List.getElem?_cons_succ,
        Option.bind_eq_bind, Option.bind_some, List.drop_succ_cons, List.drop_zero, hincr,
        slt_ofNat_iff hf hnext, lnotabPairs, takenPairs]
      -- Taken or not, the address fits, so the signed comparison is that of the numbers.
      split_ifs with hpast
      · simp [lineSum]
      · rw [ih (Nat.le_of_not_lt hpast)]
        · rw [← BitVec.ofNat_toNat, BitVec.add_assoc, ← BitVec.ofNat_add]
          simp [lineSum]
        · -- What fits behind this pair fitted with it in front.
          intro q pair hq hle
          have hmore := hfit ((addr_incr, line_incr) :: q) pair
            (by simpa [lnotabPairs] using hq) (by rw [addrSum_cons]; simp only; omega)
          rw [List.cons_append, addrSum_cons] at hmore
          simp only at hmore
          omega

/-! ### On an image -/

/-- What the line of a frame depends on. -/
structure LineTable where
  f_lasti : BitVec 32
  co_firstlineno : BitVec 32
  co_lnotab : Bytes

/-- The frame is not being traced, and with its code object it holds these. -/
structure LineTable.At (H : Headers) (m : Memory) (frame f_code : Word) (o : LineTable) : Prop where
  f_trace : peekWord m (frame + H.f_trace) = some 0
  f_lasti : ∃ data, peekWord m (frame + H.f_lasti) = some data ∧ data.setWidth 32 = o.f_lasti
  co_firstlineno : ∃ data, peekWord m (f_code + H.co_firstlineno) = some data ∧
    data.setWidth 32 = o.co_firstlineno
  co_lnotab : ∃ co_lnotab pad, peekWord m (f_code + H.co_lnotab) = some co_lnotab ∧
    peekWord m (stringSize H co_lnotab) = some (BitVec.ofNat 64 o.co_lnotab.length) ∧
    ByteMemory.bytes m (byteData H co_lnotab) (covering o.co_lnotab.length) =
      some (o.co_lnotab ++ pad)

/-- The frame is not being traced; its code object has a table at `co_lnotab`, which may
end where what is mapped does. -/
structure LineTable.Stored (H : Headers) (m : Memory) (frame f_code co_lnotab : Word) (o : LineTable) :
    Prop where
  f_trace : peekWord m (frame + H.f_trace) = some 0
  f_lasti : ∃ data, peekWord m (frame + H.f_lasti) = some data ∧ data.setWidth 32 = o.f_lasti
  co_firstlineno : ∃ data, peekWord m (f_code + H.co_firstlineno) = some data ∧
    data.setWidth 32 = o.co_firstlineno
  lnotab : peekWord m (f_code + H.co_lnotab) = some co_lnotab
  size : peekWord m (stringSize H co_lnotab) = some (BitVec.ofNat 64 o.co_lnotab.length)
  table : ByteMemory.bytes m (byteData H co_lnotab) o.co_lnotab.length = some o.co_lnotab

/-- The pairs that the loop goes over at most: the size is cut down to an `int`. -/
def LineTable.scanned (o : LineTable) : ℕ := o.co_lnotab.length % 2 ^ 31 / 2

/-- What `GetLine` adds to the line of the pairs `p` too much: `256` for an increment
that is negative, the sign of the first line, and the increments that it does
not get to. -/
def LineTable.excess (o : LineTable) (p : List (Byte × Byte)) : ℤ :=
  256 * (p.take o.scanned).countP (·.2.msb) + (if o.co_firstlineno.msb then 2 ^ 31 else 0) -
    ((p.drop o.scanned).map (·.2.toInt)).sum

section

variable {H : Headers} {m : Memory} {pid : Pid} {frame f_code : Word} {o : LineTable}

theorem and_intMax (data : Word) :
    (data &&& intMax).setWidth 32 = data.setWidth 32 &&& 0x7fffffff#32 := by
  rw [BitVec.setWidth_and]
  rfl

theorem toNat_and_intMax (n : ℕ) : (BitVec.ofNat 64 n &&& intMax).toNat = n % 2 ^ 31 := by
  have hmask : intMax.toNat = 2 ^ 31 - 1 := rfl
  rw [BitVec.toNat_and, hmask, Nat.and_two_pow_sub_one_eq_mod, BitVec.toNat_ofNat]
  omega

/-- The bits that the mask leaves of an `int`. -/
theorem toNat_and_max (x : BitVec 32) :
    (x &&& 0x7fffffff#32).toNat = x.toNat % 2 ^ 31 := by
  have hmask : (0x7fffffff#32).toNat = 2 ^ 31 - 1 := rfl
  rw [BitVec.toNat_and, hmask, Nat.and_two_pow_sub_one_eq_mod]

/-- The bytes of a part of what is read. -/
theorem bytes_take {addr : Word} {n k : ℕ} {bs : Bytes} (h : ByteMemory.bytes m addr n = some bs)
    (hk : k ≤ n) : ByteMemory.bytes m addr k = some (bs.take k) := by
  obtain ⟨d, rfl⟩ := Nat.exists_eq_add_of_le hk
  exact (ByteMemory.bytes_split h).1

/-- The instruction as the loop has it. -/
def LineTable.masked (o : LineTable) : ℕ := (o.f_lasti &&& 0x7fffffff#32).toNat

theorem LineTable.masked_lt (o : LineTable) : o.masked < 2 ^ 31 := by
  rw [masked, toNat_and_max]
  omega

theorem LineTable.masked_eq (o : LineTable) (h : o.f_lasti.msb = false) : o.masked = o.f_lasti.toNat := by
  rw [BitVec.msb_eq_decide, decide_eq_false_iff_not] at h
  rw [masked, toNat_and_max]
  exact Nat.mod_eq_of_lt (by omega)

/-- The loop on what is read of the table, whatever lies behind it. -/
theorem LineTable.lnotabLine_eq (o : LineTable)
    (hfit : AddressesFit o.masked (lnotabPairs o.co_lnotab)) {tbl : Bytes}
    (htbl : tbl.take (o.co_lnotab.length % 2 ^ 31) = o.co_lnotab.take (o.co_lnotab.length % 2 ^ 31))
    (line : BitVec 32) :
    lnotabLine (o.f_lasti &&& 0x7fffffff#32) (o.co_lnotab.length % 2 ^ 31 / 2) tbl 0 line =
      some (line + BitVec.ofNat 32 (lineSum
        ((takenPairs o.masked 0 (lnotabPairs o.co_lnotab)).take o.scanned))) := by
  have hle : o.co_lnotab.length % 2 ^ 31 ≤ o.co_lnotab.length := Nat.mod_le _ _
  have htake : (o.co_lnotab.take (o.co_lnotab.length % 2 ^ 31)).length =
      o.co_lnotab.length % 2 ^ 31 := List.length_take_of_le hle
  have haddresses : ∀ q pair,
      q ++ [pair] <+: lnotabPairs (o.co_lnotab.take (o.co_lnotab.length % 2 ^ 31)) →
      0 + addrSum q ≤ o.masked → 0 + addrSum (q ++ [pair]) < 2 ^ 31 := by
    intro q pair hq hle
    rw [lnotabPairs_take] at hq
    rw [Nat.zero_add] at hle ⊢
    exact hfit q pair (hq.trans (List.take_prefix _ _)) hle
  have hloop := Pyflame.lnotabLine_eq o.masked_lt (o.co_lnotab.take (o.co_lnotab.length % 2 ^ 31))
    (tbl.drop (o.co_lnotab.length % 2 ^ 31)) (Nat.zero_le _) haddresses line
  rw [← htbl, List.take_append_drop, htbl, htake, lnotabPairs_take, takenPairs_take] at hloop
  exact hloop

/-- `GetLine` returns if the words of the table can be read, and adds up the increments
as unsigned bytes. -/
theorem yields_getLine_iff (pid : Pid) {co_lnotab : Word} (h : o.Stored H m frame f_code co_lnotab)
    (hfit : AddressesFit o.masked (lnotabPairs o.co_lnotab)) {line : Word} :
    Yields m (getLine H pid frame f_code) line ↔
      (ByteMemory.bytes m (byteData H co_lnotab) (covering (o.co_lnotab.length % 2 ^ 31))).isSome ∧
        ((o.co_firstlineno &&& 0x7fffffff#32) + BitVec.ofNat 32 (lineSum
          ((takenPairs o.masked 0 (lnotabPairs o.co_lnotab)).take o.scanned))).signExtend 64 = line := by
  obtain ⟨lasti, hpeekLasti, hlastiEq⟩ := h.f_lasti
  obtain ⟨first, hpeekFirst, hfirstEq⟩ := h.co_firstlineno
  have hsize := toNat_and_intMax o.co_lnotab.length
  have hlt : (BitVec.ofNat 64 o.co_lnotab.length &&& intMax).toNat + 7 < 2 ^ 64 := by omega
  have hle : o.co_lnotab.length % 2 ^ 31 ≤ o.co_lnotab.length := Nat.mod_le _ _
  have hread : ∀ tbl, Yields m (ptracePeekBytes pid (byteData H co_lnotab)
      (BitVec.ofNat 64 o.co_lnotab.length &&& intMax)) tbl ↔ ByteMemory.bytes m (byteData H co_lnotab)
        (covering (o.co_lnotab.length % 2 ^ 31)) = some tbl := by
    intro tbl
    rw [yields_peekBytes_eq_iff hlt, hsize]
  -- What is read starts with the table.
  have hfront : ∀ tbl, ByteMemory.bytes m (byteData H co_lnotab)
      (covering (o.co_lnotab.length % 2 ^ 31)) = some tbl →
      tbl.take (o.co_lnotab.length % 2 ^ 31) = o.co_lnotab.take (o.co_lnotab.length % 2 ^ 31) := by
    intro tbl htbl
    have htaken := bytes_take htbl (le_covering _)
    exact Option.some.inj (htaken.symm.trans (bytes_take h.table hle))
  rw [getLine]
  simp only [Prog.bind_eq, Prog.pure_eq]
  rw [Yields.bind_iff_of (yields_peek h.f_trace)]
  simp only [ne_eq, not_true, if_false]
  rw [Yields.bind_iff_of (yields_peek hpeekLasti), Yields.bind_iff_of (yields_peek h.lnotab),
    Yields.bind_iff_of (yields_peek h.size), Yields.bind_iff_of (yields_peek hpeekFirst),
    Yields.bind_iff, hsize, and_intMax, hlastiEq, and_intMax, hfirstEq]
  constructor
  · rintro ⟨tbl, htbl, hline⟩
    rw [hread] at htbl
    rw [o.lnotabLine_eq hfit (hfront tbl htbl)] at hline
    exact ⟨by rw [htbl]; rfl, Yields.ret_iff.mp hline⟩
  · rintro ⟨hcovered, rfl⟩
    obtain ⟨tbl, htbl⟩ := Option.isSome_iff_exists.mp hcovered
    refine ⟨tbl, (hread tbl).mpr htbl, ?_⟩
    rw [o.lnotabLine_eq hfit (hfront tbl htbl)]
    exact .ret _

/-- A table with the words that cover it. -/
theorem LineTable.At.stored (h : o.At H m frame f_code) : ∃ co_lnotab,
    o.Stored H m frame f_code co_lnotab ∧
      (ByteMemory.bytes m (byteData H co_lnotab) (covering (o.co_lnotab.length % 2 ^ 31))).isSome := by
  obtain ⟨co_lnotab, pad, hpeekLnotab, hpeekSize, hbytes⟩ := h.co_lnotab
  have hcover : covering (o.co_lnotab.length % 2 ^ 31) ≤ covering o.co_lnotab.length := by
    unfold covering
    omega
  have htable := bytes_take hbytes (le_covering _)
  rw [List.take_left' rfl] at htable
  refine ⟨co_lnotab, ⟨h.f_trace, h.f_lasti, h.co_firstlineno, hpeekLnotab, hpeekSize, htable⟩, ?_⟩
  rw [bytes_take hbytes hcover]
  rfl

/-- `GetLine` adds up the increments as unsigned bytes. -/
theorem yields_getLine_table (pid : Pid) (h : o.At H m frame f_code) (hlasti : o.f_lasti.msb = false)
    (hfit : AddressesFit o.f_lasti.toNat (lnotabPairs o.co_lnotab)) :
    Yields m (getLine H pid frame f_code)
      (((o.co_firstlineno &&& 0x7fffffff#32) + BitVec.ofNat 32 (lineSum
        ((takenPairs o.f_lasti.toNat 0 (lnotabPairs o.co_lnotab)).take o.scanned))).signExtend 64) := by
  obtain ⟨co_lnotab, hstored, hcovered⟩ := h.stored
  rw [← o.masked_eq hlasti] at hfit ⊢
  exact (yields_getLine_iff pid hstored hfit).mpr ⟨hcovered, rfl⟩

theorem lineSum_eq (p : List (Byte × Byte)) :
    (lineSum p : ℤ) = (p.map (·.2.toInt)).sum + 256 * p.countP (·.2.msb) := by
  induction p with
  | nil => rfl
  | cons pair p ih =>
      have hincr : (pair.2.toNat : ℤ) = pair.2.toInt + 256 * (if pair.2.msb then 1 else 0 : ℕ) := by
        rw [BitVec.toInt_eq_msb_cond]
        split_ifs <;> simp
      have hsum : lineSum (pair :: p) = pair.2.toNat + lineSum p := by simp [lineSum]
      rw [hsum, List.map_cons, List.sum_cons, List.countP_cons]
      push_cast
      push_cast at hincr
      omega

theorem ofInt_eq_iff {x y : ℤ} : BitVec.ofInt 32 x = BitVec.ofInt 32 y ↔ (x - y) % 2 ^ 32 = 0 := by
  rw [← BitVec.toNat_inj, BitVec.toNat_ofInt, BitVec.toNat_ofInt]
  omega

/-- The sign bit, which the mask takes off. -/
theorem and_max_eq (x : BitVec 32) :
    x &&& 0x7fffffff#32 = BitVec.ofInt 32 (x.toInt + if x.msb then 2 ^ 31 else 0) := by
  apply BitVec.eq_of_toNat_eq
  rw [toNat_and_max, BitVec.toNat_ofInt, BitVec.toInt_eq_msb_cond, BitVec.msb_eq_decide]
  have := x.isLt
  simp only [decide_eq_true_eq]
  split_ifs <;> omega

theorem signExtend_inj {x y : BitVec 32} : x.signExtend 64 = y.signExtend 64 ↔ x = y := by
  constructor
  · intro h
    apply BitVec.eq_of_toInt_eq
    rw [← BitVec.toInt_signExtend_of_le (w := 32) (v := 64) (by omega), h,
      BitVec.toInt_signExtend_of_le (by omega)]
  · rintro rfl
    rfl

end

/-- The line is the one that CPython 3.6 gives exactly when what is added too much
is a multiple of `2 ^ 32`: with a first line that is not negative and less than
`2 ^ 31` bytes, when no increment up to the last instruction is negative, or a
multiple of `2 ^ 24` of them is. -/
theorem getLine_py36_iff (H : Headers) (m : Memory) (pid : Pid) (frame f_code : Word) (o : LineTable)
    (h : o.At H m frame f_code) (hlasti : o.f_lasti.msb = false)
    (hfit : AddressesFit o.f_lasti.toNat (lnotabPairs o.co_lnotab))
    (p : List (Byte × Byte)) (hp : ReachedBy o.f_lasti.toNat (lnotabPairs o.co_lnotab) p) :
    (run (answer (image m)) (getLine H pid frame f_code) ()).1 =
        .ok ((BitVec.ofInt 32 (addr2Line36 o.co_firstlineno.toInt p)).signExtend 64) ↔
      o.excess p % 2 ^ 32 = 0 := by
  have hyields := congrArg Prod.fst (yields_getLine_table pid h hlasti hfit)
  have hsum := lineSum_eq (p.take o.scanned)
  have hparts : (p.map (·.2.toInt)).sum =
      ((p.take o.scanned).map (·.2.toInt)).sum + ((p.drop o.scanned).map (·.2.toInt)).sum := by
    rw [← List.sum_append, ← List.map_append, List.take_append_drop]
  rw [← hp.eq_takenPairs] at hyields
  rw [hyields, Outcome.ok.injEq, signExtend_inj, and_max_eq, ← BitVec.ofInt_natCast,
    ← BitVec.ofInt_add, ofInt_eq_iff, addr2Line36, LineTable.excess, hsum, hparts]
  split_ifs <;> omega

/-- CPython 3.6 on x86-64. -/
def py36 : Headers where
  version := .py36
  f_back := 24
  f_code := 32
  f_trace := 80
  f_lasti := 120
  f_lineno := 124
  co_filename := 96
  co_name := 104
  co_firstlineno := 36
  co_lnotab := 112
  next := 8
  interp := 16
  frame := 24
  thread_id := 152
  tstate_head := 8
  ob_size := 16
  ob_sval := 32
  sizeofASCIIObject := 48
  sizeofCompactUnicodeObject := 72
  unicode_length := 16
  unicode_state := 32

/-- A frame at `0x4000` whose last instruction is the third, in code at `0x5000` that
starts on line 10 and has a table of one pair. -/
def onePair (line_incr : Byte) : Memory := ofWords
  [(0x4050, 0), (0x4078, 2), (0x5024, 10), (0x5070, 0x6000), (0x6010, 2),
    (0x6020, asWord [2, line_incr])]

def onePairTable (line_incr : Byte) : LineTable := ⟨2, 10, [2, line_incr]⟩

theorem getLine_py36_forwards :
    (run (answer (image (onePair 1))) (getLine py36 1 0x4000 0x5000) ()).1 =
      .ok ((BitVec.ofInt 32 (addr2Line36 10 [(2, 1)])).signExtend 64) := by
  have hat : (onePairTable 1).At py36 (onePair 1) 0x4000 0x5000 := by
    refine ⟨by decide +kernel, ⟨2, by decide +kernel, rfl⟩, ⟨10, by decide +kernel, rfl⟩, ?_⟩
    exact ⟨0x6000, List.replicate 6 0, by decide +kernel, by decide +kernel, by decide +kernel⟩
  exact (getLine_py36_iff py36 (onePair 1) 1 0x4000 0x5000 (onePairTable 1) hat (by decide)
    (addressesFit_of_lt (by decide) _) [(2, 1)] (takenPairs_reachedBy _)).mpr (by decide)

/-- The increment `-1`: CPython is on line 9, `GetLine` on line 265. -/
theorem getLine_py36_backwards :
    addr2Line36 10 [(2, 0xff)] = 9 ∧
      (run (answer (image (onePair 0xff))) (getLine py36 1 0x4000 0x5000) ()).1 = .ok 265 ∧
      (run (answer (image (onePair 0xff))) (getLine py36 1 0x4000 0x5000) ()).1 ≠
        .ok ((BitVec.ofInt 32 (addr2Line36 10 [(2, 0xff)])).signExtend 64) := by
  refine ⟨by decide, by decide +kernel, by decide +kernel⟩

end Pyflame
