import Mathlib.Data.List.TakeWhile
import Pyflame.Markers

/-!
The three addresses that `WalkTable` fills in.

Each has a symbol of its own, and is to be the value of the first one of that
name that is defined. The test in front of the third address looks at the
second.
-/

namespace Pyflame

open Interaction

namespace ELF

/-- The values of the symbols of a name, in order. -/
def valuesOf (lit : String) (symbols : List (Bytes × Word)) : List Word :=
  (symbols.filter fun x => x.1 = text lit).map Prod.snd

/-- The first of them that is not 0, if any. -/
def firstValue (lit : String) (symbols : List (Bytes × Word)) : Word :=
  ((valuesOf lit symbols).find? (· ≠ 0)).getD 0

/-- What a field that held `addr` is to hold after a walk. -/
def filled (addr : Word) (lit : String) (symbols : List (Bytes × Word)) : Word :=
  if addr ≠ 0 then addr else firstValue lit symbols

/-- A defined `interp_head`. -/
def IsHead (symbol : Bytes × Word) : Prop := symbol.1 = text "interp_head" ∧ symbol.2 ≠ 0

instance : DecidablePred IsHead := fun symbol =>
  inferInstanceAs (Decidable (symbol.1 = text "interp_head" ∧ symbol.2 ≠ 0))

/-- The symbols in front of the first defined `interp_head`, none if the address was known. -/
def beforeHead (addrs : PyAddresses) (symbols : List (Bytes × Word)) : List (Bytes × Word) :=
  if addrs.interp_head_addr ≠ 0 then [] else symbols.takeWhile fun x => ¬ IsHead x

/-- The last `PyInterpreterState_Head` in front of the first defined `interp_head` has the
value the field is to hold. If there is none there, the field was set, or is to stay 0. -/
def FunctionFilled (addrs : PyAddresses) (symbols : List (Bytes × Word)) : Prop :=
  match (valuesOf "PyInterpreterState_Head" (beforeHead addrs symbols)).getLast? with
  | none =>
      addrs.interp_head_fn_addr ≠ 0 ∨ ∀ value ∈ valuesOf "PyInterpreterState_Head" symbols, value = 0
  | some value =>
      if addrs.interp_head_fn_addr ≠ 0 then value = addrs.interp_head_fn_addr
      else value = firstValue "PyInterpreterState_Head" symbols

/-! ### One more symbol -/

section

variable {symbols : List (Bytes × Word)}

theorem valuesOf_concat (lit : String) (symbol : Bytes × Word) :
    valuesOf lit (symbols ++ [symbol]) =
      valuesOf lit symbols ++ if symbol.1 = text lit then [symbol.2] else [] := by
  rw [valuesOf, List.filter_append, List.map_append, ← valuesOf]
  by_cases hname : symbol.1 = text lit <;> simp [hname]

theorem firstValue_eq_zero_iff (lit : String) :
    firstValue lit symbols = 0 ↔ ∀ value ∈ valuesOf lit symbols, value = 0 := by
  unfold firstValue
  cases hfind : (valuesOf lit symbols).find? (· ≠ 0) with
  | none => simpa using List.find?_eq_none.mp hfind
  | some value =>
      have hvalue : value ≠ 0 := by simpa using List.find?_some hfind
      exact iff_of_false hvalue fun h => hvalue (h value (List.mem_of_find?_eq_some hfind))

/-- A field that is still 0 takes the value of the symbol. -/
theorem filled_concat (addr : Word) (lit : String) (symbol : Bytes × Word) :
    filled addr lit (symbols ++ [symbol]) =
      if filled addr lit symbols = 0 ∧ symbol.1 = text lit then symbol.2
      else filled addr lit symbols := by
  unfold filled
  by_cases haddr : addr ≠ 0
  · rw [if_pos haddr, if_pos haddr, if_neg fun h => haddr h.1]
  · rw [if_neg haddr, if_neg haddr]
    unfold firstValue
    rw [valuesOf_concat, List.find?_append]
    cases hfind : (valuesOf lit symbols).find? (· ≠ 0) with
    | some value =>
        have hvalue : value ≠ 0 := by simpa using List.find?_some hfind
        exact (if_neg fun h => hvalue h.1).symm
    | none =>
        by_cases hname : symbol.1 = text lit
        · by_cases hzero : symbol.2 = 0
          · simp [hname, hzero]
          · have hdefined : decide (symbol.2 ≠ 0) = true := decide_eq_true hzero
            simp only [hname, if_true, List.find?_singleton, hdefined]
            rfl
        · simp [hname]

/-- The second address is unknown as long as no symbol has told it. -/
theorem filled_head_eq_zero_iff (addrs : PyAddresses) :
    filled addrs.interp_head_addr "interp_head" symbols = 0 ↔
      addrs.interp_head_addr = 0 ∧ ∀ x ∈ symbols, ¬ IsHead x := by
  unfold filled
  by_cases haddr : addrs.interp_head_addr = 0
  · rw [if_neg (not_not.mpr haddr), firstValue_eq_zero_iff, and_iff_right haddr]
    simp only [valuesOf, List.mem_map, List.mem_filter, decide_eq_true_eq]
    constructor
    · intro h x hx hhead
      exact hhead.2 (h x.2 ⟨x, ⟨hx, hhead.1⟩, rfl⟩)
    · rintro h value ⟨x, ⟨hx, hname⟩, rfl⟩
      by_contra hne
      exact h x hx ⟨hname, hne⟩
  · rw [if_pos haddr]
    exact iff_of_false haddr fun h => haddr h.1

theorem beforeHead_concat (addrs : PyAddresses) (symbol : Bytes × Word) :
    beforeHead addrs (symbols ++ [symbol]) =
      if filled addrs.interp_head_addr "interp_head" symbols = 0 then
        beforeHead addrs symbols ++ if IsHead symbol then [] else [symbol]
      else beforeHead addrs symbols := by
  simp only [filled_head_eq_zero_iff]
  unfold beforeHead
  by_cases haddr : addrs.interp_head_addr = 0
  · rw [if_neg (not_not.mpr haddr), if_neg (not_not.mpr haddr)]
    by_cases hall : ∀ x ∈ symbols, ¬ IsHead x
    · have hself : symbols.takeWhile (fun x => ¬ IsHead x) = symbols :=
        List.takeWhile_eq_self_iff.mpr fun x hx => decide_eq_true (hall x hx)
      rw [if_pos ⟨haddr, hall⟩, hself,
        List.takeWhile_append_of_pos fun x hx => decide_eq_true (hall x hx)]
      by_cases hhead : IsHead symbol <;> simp [hhead]
    · have hshort : ¬ (symbols.takeWhile fun x => ¬ IsHead x).length = symbols.length := by
        intro hlength
        have hself := (List.takeWhile_prefix _).eq_of_length hlength
        exact hall fun x hx => of_decide_eq_true (List.takeWhile_eq_self_iff.mp hself x hx)
      rw [if_neg fun h => hall h.2, List.takeWhile_append, if_neg hshort]
  · rw [if_pos haddr, if_pos haddr, if_neg fun h => haddr h.1]

end

/-! ### What a walk has filled in -/

/-- The addresses say what these symbols say. The third is that of the last function in
front of the first defined `interp_head`. -/
structure Walk.Filled (w : Walk) (addrs : PyAddresses) (symbols : List (Bytes × Word)) :
    Prop where
  tstate_addr : w.addrs.tstate_addr = filled addrs.tstate_addr "_PyThreadState_Current" symbols
  interp_head_addr : w.addrs.interp_head_addr = filled addrs.interp_head_addr "interp_head" symbols
  interp_head_fn_addr : w.addrs.interp_head_fn_addr =
    ((valuesOf "PyInterpreterState_Head" (beforeHead addrs symbols)).getLast?).getD
      addrs.interp_head_fn_addr

theorem Walk.filled_nil (addrs : PyAddresses) : Filled { addrs } addrs [] where
  tstate_addr := by simp [filled, firstValue, valuesOf]
  interp_head_addr := by simp [filled, firstValue, valuesOf]
  interp_head_fn_addr := by simp [beforeHead, valuesOf]

@[simp] theorem Walk.seeABI_addrs (w : Walk) (name : Bytes) : (w.seeABI name).addrs = w.addrs := by
  unfold seeABI
  split_ifs <;> rfl

theorem tstate_ne_head : text "_PyThreadState_Current" ≠ text "interp_head" := by decide

theorem tstate_ne_function :
    text "_PyThreadState_Current" ≠ text "PyInterpreterState_Head" := by decide

theorem head_ne_function : text "interp_head" ≠ text "PyInterpreterState_Head" := by decide

section

variable (w : Walk) (symbol : Bytes × Word)

theorem Walk.see_tstate_addr : (w.see symbol).addrs.tstate_addr =
    if w.addrs.tstate_addr = 0 ∧ symbol.1 = text "_PyThreadState_Current" then symbol.2
    else w.addrs.tstate_addr := by
  unfold see
  split_ifs
  · rfl
  · rfl
  · rfl
  · rw [seeABI_addrs]

theorem Walk.see_interp_head_addr : (w.see symbol).addrs.interp_head_addr =
    if w.addrs.interp_head_addr = 0 ∧ symbol.1 = text "interp_head" then symbol.2
    else w.addrs.interp_head_addr := by
  unfold see
  split_ifs with htstate hhead hhead hfn
  · exact absurd (htstate.2.symm.trans hhead.2) tstate_ne_head
  · rfl
  · rfl
  · rfl
  · rw [seeABI_addrs]

/-- The test is on the other address. -/
theorem Walk.see_interp_head_fn_addr : (w.see symbol).addrs.interp_head_fn_addr =
    if w.addrs.interp_head_addr = 0 ∧ symbol.1 = text "PyInterpreterState_Head" then symbol.2
    else w.addrs.interp_head_fn_addr := by
  unfold see
  split_ifs with htstate hfn hhead hfn
  · exact absurd (htstate.2.symm.trans hfn.2) tstate_ne_function
  · rfl
  · exact absurd (hhead.2.symm.trans hfn.2) head_ne_function
  · rfl
  · rfl
  · rw [seeABI_addrs]

end

theorem Walk.Filled.see {w : Walk} {addrs : PyAddresses} {symbols : List (Bytes × Word)}
    (h : w.Filled addrs symbols) (symbol : Bytes × Word) :
    (w.see symbol).Filled addrs (symbols ++ [symbol]) := by
  constructor
  · rw [w.see_tstate_addr, h.tstate_addr, filled_concat]
  · rw [w.see_interp_head_addr, h.interp_head_addr, filled_concat]
  · rw [w.see_interp_head_fn_addr, h.interp_head_addr, h.interp_head_fn_addr, beforeHead_concat]
    by_cases hunknown : filled addrs.interp_head_addr "interp_head" symbols = 0
    · rw [if_pos hunknown]
      by_cases hfn : symbol.1 = text "PyInterpreterState_Head"
      · have hhead : ¬ IsHead symbol := fun hhead => head_ne_function (hhead.1.symm.trans hfn)
        rw [if_pos ⟨hunknown, hfn⟩, if_neg hhead, valuesOf_concat, if_pos hfn,
          List.getLast?_concat, Option.getD_some]
      · -- Whether or not it is the head, it is no function.
        have hvalues : valuesOf "PyInterpreterState_Head"
            (beforeHead addrs symbols ++ if IsHead symbol then [] else [symbol]) =
              valuesOf "PyInterpreterState_Head" (beforeHead addrs symbols) := by
          by_cases hhead : IsHead symbol
          · rw [if_pos hhead, List.append_nil]
          · rw [if_neg hhead, valuesOf_concat, if_neg hfn, List.append_nil]
        rw [if_neg fun h => hfn h.2, hvalues]
    · rw [if_neg fun h => hunknown h.1, if_neg hunknown]

theorem knownAfter_filled (addrs : PyAddresses) (symbol : ℕ → Bytes × Word) (n : ℕ) :
    (knownAfter addrs symbol n).Filled addrs ((List.range n).map symbol) := by
  induction n with
  | zero => exact Walk.filled_nil addrs
  | succ n ih =>
      have hsee := ih.see (symbol n)
      rw [List.range_succ, List.map_append]
      exact ⟨hsee.tstate_addr, hsee.interp_head_addr, hsee.interp_head_fn_addr⟩

/-- The third address is right exactly if the last function in front of the head was. -/
theorem Walk.Filled.function_iff {w : Walk} {addrs : PyAddresses} {symbols : List (Bytes × Word)}
    (h : w.Filled addrs symbols) :
    w.addrs.interp_head_fn_addr =
        filled addrs.interp_head_fn_addr "PyInterpreterState_Head" symbols ↔
      FunctionFilled addrs symbols := by
  rw [h.interp_head_fn_addr, FunctionFilled, filled]
  cases (valuesOf "PyInterpreterState_Head" (beforeHead addrs symbols)).getLast? with
  | none =>
      rw [← firstValue_eq_zero_iff]
      by_cases haddr : addrs.interp_head_fn_addr ≠ 0
      · rw [if_pos haddr]
        exact iff_of_true rfl (.inl haddr)
      · rw [if_neg haddr, Option.getD_none, not_not.mp haddr, eq_comm]
        exact (or_iff_right (not_not.mpr rfl)).symm
  | some value =>
      simp only [Option.getD_some]
      by_cases haddr : addrs.interp_head_fn_addr ≠ 0
      · rw [if_pos haddr, if_pos haddr]
      · rw [if_neg haddr, if_neg haddr]

/-- **Which addresses a walk fills in.** On a table whose entries a counter of 16 bits can
number, `WalkTable` leaves an address that is known and takes one that is not from the first
symbol of its name that is defined. The third one it may take from a later symbol, replace, or
not see, as the place of `interp_head` in the table has it. -/
theorem walkTable_fields_iff {elf : ELF} {sym str : ℤ} {s d : Word} {n : ℕ}
    {symbol : ℕ → Bytes × Word} (h : elf.HasSymbols sym str s d n symbol) (hn : n ≤ 65535)
    (addrs : PyAddresses) : ∃ enough abi addrs',
      (∀ fuel ≥ enough, elf.walkTable fuel sym str addrs = .ret (abi, addrs')) ∧
      addrs'.tstate_addr =
        filled addrs.tstate_addr "_PyThreadState_Current" ((List.range n).map symbol) ∧
      addrs'.interp_head_addr =
        filled addrs.interp_head_addr "interp_head" ((List.range n).map symbol) ∧
      (addrs'.interp_head_fn_addr =
          filled addrs.interp_head_fn_addr "PyInterpreterState_Head" ((List.range n).map symbol) ↔
        FunctionFilled addrs ((List.range n).map symbol)) := by
  obtain ⟨enough, hwalk⟩ := h.walkTable_eq addrs (.inl (Nat.lt_of_le_of_lt hn (by omega)))
  have hfilled := knownAfter_filled addrs symbol n
  exact ⟨enough, _, _, hwalk, hfilled.tstate_addr, hfilled.interp_head_addr, hfilled.function_iff⟩

theorem pythonSymbols_functionFilled : FunctionFilled {} pythonSymbols := by
  have hlast : (valuesOf "PyInterpreterState_Head" (beforeHead {} pythonSymbols)).getLast? =
      some 0x10 := by decide
  rw [FunctionFilled, hlast]
  decide

theorem walkTable_fields_pythonELF : ∃ enough abi addrs',
    (∀ fuel ≥ enough, pythonELF.walkTable fuel 2 1 {} = .ret (abi, addrs')) ∧
      addrs'.tstate_addr = 0x50 ∧ addrs'.interp_head_addr = 0x30 ∧
      addrs'.interp_head_fn_addr = 0x10 := by
  obtain ⟨enough, abi, addrs', hwalk, htstate, hhead, hfn⟩ :=
    walkTable_fields_iff pythonELF_symbols (by omega) {}
  exact ⟨enough, abi, addrs', hwalk, htstate.trans (by decide), hhead.trans (by decide),
    (hfn.mpr pythonSymbols_functionFilled).trans (by decide)⟩

/-! ### A head in front of its function -/

/-- `interp_head` in front of `PyInterpreterState_Head`. -/
def headSymbols : List (Bytes × Word) :=
  [(text "interp_head", 0x10), (text "PyInterpreterState_Head", 0x20)]

def headELF : ELF := tableELF headSymbols []

theorem headELF_symbols :
    headELF.HasSymbols 2 1 192 128 2 fun k => headSymbols.getD k ([], 0) :=
  .of_symbolAt (by decide +kernel)

/-- The function is defined, and is not seen. -/
theorem walkTable_fields_headELF :
    ELF.parse { file := tableFile headSymbols [] } = .ret headELF ∧
      headELF.HasSymbols 2 1 192 128 2 (fun k => headSymbols.getD k ([], 0)) ∧
      headELF.walkTable 3 2 1 {} = .ret (.unknown, { interp_head_addr := 0x10 }) ∧
      filled 0 "PyInterpreterState_Head" headSymbols = 0x20 :=
  ⟨Prog.eq_ret_of_result (by decide +kernel), headELF_symbols,
    Prog.eq_ret_of_result (by decide +kernel), by decide⟩

end ELF

end Pyflame
