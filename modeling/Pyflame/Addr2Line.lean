import Pyflame.LineTable

/-!
`GetLine` against `PyCode_Addr2Line` of CPython before 3.6.

There the increments of the line are unsigned, and so is what `GetLine` adds up.
What is left between the two is the mask, which takes off the sign of an
instruction and of a line.
-/

namespace Pyflame

open Interaction

/-- `p` is the longest prefix of the pairs whose addresses do not add up to more than
`addrq`. A frame that has not started is before the first pair. -/
structure Reaches (addrq : ℤ) (pairs p : List (Byte × Byte)) : Prop where
  isPrefix : p <+: pairs
  le : p = [] ∨ (addrSum p : ℤ) ≤ addrq
  longest : ∀ q, q <+: pairs → q = [] ∨ (addrSum q : ℤ) ≤ addrq → q.length ≤ p.length

/-- `PyCode_Addr2Line`, where the line only goes forwards. -/
def addr2Line (co_firstlineno : ℤ) (p : List (Byte × Byte)) : ℤ := co_firstlineno + lineSum p

theorem Reaches.reachedBy {f_lasti : ℕ} {pairs p : List (Byte × Byte)} (h : Reaches f_lasti pairs p) :
    ReachedBy f_lasti pairs p where
  isPrefix := h.isPrefix
  le := by
    rcases h.le with rfl | hle
    · simp [addrSum]
    · omega
  longest q hq hle := h.longest q hq (.inr (by omega))

theorem Reaches.eq_nil {addrq : ℤ} {pairs p : List (Byte × Byte)} (h : Reaches addrq pairs p)
    (hneg : addrq < 0) : p = [] := by
  rcases h.le with hnil | hle
  · exact hnil
  · omega

/-- Behind the last instruction that an `int` can number there is no pair. -/
theorem takenPairs_eq_self {pairs : List (Byte × Byte)} (hfit : AddressesFit (2 ^ 31 - 1) pairs) :
    takenPairs (2 ^ 31 - 1) 0 pairs = pairs := by
  have hreached : ReachedBy (2 ^ 31 - 1) pairs (takenPairs (2 ^ 31 - 1) 0 pairs) :=
    takenPairs_reachedBy pairs
  obtain ⟨rest, hrest⟩ := hreached.isPrefix
  cases rest with
  | nil => rwa [List.append_nil] at hrest
  | cons pair rest =>
      -- The next pair would have been taken.
      have hnext : takenPairs (2 ^ 31 - 1) 0 pairs ++ [pair] <+: pairs :=
        ⟨rest, by rw [List.append_assoc, List.singleton_append, hrest]⟩
      have hlt := hfit _ _ hnext hreached.le
      have hlen := hreached.longest _ hnext (Nat.le_pred_of_lt hlt)
      rw [List.length_append, List.length_singleton] at hlen
      omega

section

variable {o : LineTable}

theorem LineTable.masked_unstarted (hlasti : -1 ≤ o.f_lasti.toInt) (hmsb : o.f_lasti.msb = true) :
    o.masked = 2 ^ 31 - 1 := by
  have htoInt := BitVec.toInt_eq_msb_cond o.f_lasti
  rw [hmsb, if_pos rfl] at htoInt
  have hlt := o.f_lasti.isLt
  rw [masked, toNat_and_max]
  omega

/-- The pairs that the loop takes. -/
theorem LineTable.taken_eq (hlasti : -1 ≤ o.f_lasti.toInt)
    (hfit : AddressesFit o.masked (lnotabPairs o.co_lnotab)) {p : List (Byte × Byte)}
    (hp : Reaches o.f_lasti.toInt (lnotabPairs o.co_lnotab) p) :
    takenPairs o.masked 0 (lnotabPairs o.co_lnotab) =
      if o.f_lasti.msb then lnotabPairs o.co_lnotab else p := by
  split_ifs with hmsb
  · rw [o.masked_unstarted hlasti hmsb] at hfit ⊢
    exact takenPairs_eq_self hfit
  · have hfalse : o.f_lasti.msb = false := Bool.eq_false_iff.mpr hmsb
    rw [BitVec.toInt_eq_msb_cond, if_neg hmsb] at hp
    rw [o.masked_eq hfalse]
    exact hp.reachedBy.eq_takenPairs.symm

/-- What `GetLine` adds too much: the sign of the first line, and all increments if the
frame has not started; and those it does not get to are missing. -/
def LineTable.surplus (o : LineTable) (p : List (Byte × Byte)) : ℤ :=
  (if o.co_firstlineno.msb then 2 ^ 31 else 0) +
    (if o.f_lasti.msb then lineSum ((lnotabPairs o.co_lnotab).take o.scanned) else 0) -
      lineSum (p.drop o.scanned)

theorem lineSum_append (p q : List (Byte × Byte)) : lineSum (p ++ q) = lineSum p + lineSum q := by
  simp [lineSum]

end

/-- **Lines without signs.** The loop reads inside the table, and `GetLine` returns the
line of `PyCode_Addr2Line` exactly if the words of the table can be read and what it
adds too much is a multiple of `2 ^ 32`: with less than `2 ^ 31` bytes, if the first line
is not negative and the frame has started, or else the table moves no line. -/
theorem getLine_addr2Line_iff {H : Headers} {m : Memory} {frame f_code co_lnotab : Word} {o : LineTable}
    (h : o.Stored H m frame f_code co_lnotab) (hlasti : -1 ≤ o.f_lasti.toInt)
    (hfit : AddressesFit o.masked (lnotabPairs o.co_lnotab)) {p : List (Byte × Byte)}
    (hp : Reaches o.f_lasti.toInt (lnotabPairs o.co_lnotab) p) (pid : Pid) :
    (∀ line, (lnotabLine (o.f_lasti &&& 0x7fffffff#32) (o.co_lnotab.length % 2 ^ 31 / 2)
      o.co_lnotab 0 line).isSome) ∧
    (Yields m (getLine H pid frame f_code)
        ((BitVec.ofInt 32 (addr2Line o.co_firstlineno.toInt p)).signExtend 64) ↔
      (ByteMemory.bytes m (byteData H co_lnotab) (covering (o.co_lnotab.length % 2 ^ 31))).isSome ∧
        o.surplus p % 2 ^ 32 = 0) := by
  constructor
  · intro line
    apply lnotabLine_isSome
    have hle : o.co_lnotab.length % 2 ^ 31 ≤ o.co_lnotab.length := Nat.mod_le _ _
    omega
  · rw [yields_getLine_iff pid h hfit, LineTable.taken_eq hlasti hfit hp]
    apply and_congr_right
    intro _
    rw [signExtend_inj, and_max_eq, ← BitVec.ofInt_natCast, ← BitVec.ofInt_add, ofInt_eq_iff, addr2Line,
      LineTable.surplus]
    by_cases hmsb : o.f_lasti.msb = true
    · have hneg : o.f_lasti.toInt < 0 := by
        rw [BitVec.toInt_eq_msb_cond, hmsb, if_pos rfl]
        have hlt := o.f_lasti.isLt
        omega
      -- The frame has not started: CPython takes no pair, and the loop all of them.
      rw [hp.eq_nil hneg, hmsb]
      simp only [if_true, List.drop_nil, show lineSum [] = 0 from rfl]
      split_ifs <;> omega
    · -- Both take the same pairs, but the loop only those that it gets to.
      have hparts : lineSum p = lineSum (p.take o.scanned) + lineSum (p.drop o.scanned) := by
        rw [← lineSum_append, List.take_append_drop]
      simp only [hmsb, if_false, Bool.false_eq_true]
      split_ifs <;> omega

/-- A frame at `0x4000` with this last instruction, in code at `0x5000` that starts on
line 10 and has a table of one pair. -/
def oneStep (f_lasti : Word) : Memory := ofWords
  [(0x4050, 0), (0x4078, f_lasti), (0x5060, 10), (0x5068, 0x6000), (0x6010, 2), (0x6024, asWord [2, 1])]

def oneStepTable (f_lasti : BitVec 32) : LineTable := ⟨f_lasti, 10, [2, 1]⟩

theorem getLine_addr2Line_started :
    Yields (oneStep 2) (getLine py27 1 0x4000 0x5000)
      ((BitVec.ofInt 32 (addr2Line 10 [(2, 1)])).signExtend 64) := by
  have hstored : (oneStepTable 2).Stored py27 (oneStep 2) 0x4000 0x5000 0x6000 :=
    ⟨by decide +kernel, ⟨2, by decide +kernel, rfl⟩, ⟨10, by decide +kernel, rfl⟩, by decide +kernel,
      by decide +kernel, by decide +kernel⟩
  have hreaches : Reaches 2 [(2, 1)] [(2, 1)] :=
    ⟨List.prefix_refl _, .inr (by decide), fun q hq _ => hq.length_le⟩
  have hfit : AddressesFit (oneStepTable 2).masked (lnotabPairs (oneStepTable 2).co_lnotab) :=
    addressesFit_of_lt (by decide) _
  exact (getLine_addr2Line_iff hstored (by decide) hfit hreaches 1).2.mpr
    ⟨by decide +kernel, by decide⟩

/-- A frame that has not started: CPython is on line 10, `GetLine` on line 11. -/
theorem getLine_unstarted :
    Reaches (oneStepTable (-1)).f_lasti.toInt (lnotabPairs (oneStepTable (-1)).co_lnotab) [] ∧
      (run (answer (image (oneStep 0xffffffff))) (getLine py27 1 0x4000 0x5000) ()).1 = .ok 11 ∧
      ¬ Yields (oneStep 0xffffffff) (getLine py27 1 0x4000 0x5000)
        ((BitVec.ofInt 32 (addr2Line 10 [])).signExtend 64) := by
  have hrun : (run (answer (image (oneStep 0xffffffff))) (getLine py27 1 0x4000 0x5000) ()).1 =
      .ok 11 := by decide +kernel
  refine ⟨⟨List.nil_prefix, .inl rfl, fun q _ hq => ?_⟩, hrun, fun hyields => ?_⟩
  · rcases hq with rfl | hle
    · exact Nat.le_refl _
    · have hneg : (oneStepTable (-1)).f_lasti.toInt = -1 := by decide
      omega
  · have hline := hrun.symm.trans (congrArg Prod.fst hyields)
    revert hline
    decide

end Pyflame
