import Pyflame.Text

/-!
Reading numbers: `strtol`, `strtoul` and `std::stoi` of the C++ library,
in the C locale.

All three share one scan. It skips blanks, takes an optional sign and, in
base 16, an optional `0x`, and then as many digits as there are.
-/

namespace Pyflame

/-- `isspace`. -/
def isSpace (b : Byte) : Bool := b = 32 ∨ 9 ≤ b.toNat ∧ b.toNat ≤ 13

/-- The value of a digit in any base up to 36, and 36 for what is none. -/
def digitValue (b : Byte) : ℕ :=
  let n := b.toNat
  if 48 ≤ n ∧ n ≤ 57 then n - 48
  else if 97 ≤ n ∧ n ≤ 122 then n - 87
  else if 65 ≤ n ∧ n ≤ 90 then n - 55
  else 36

def digitOf (base : ℕ) (b : Byte) : Option ℕ :=
  if digitValue b < base then some (digitValue b) else none

/-- The digits a string starts with. -/
def digitsOf (base : ℕ) : Bytes → List ℕ
  | [] => []
  | b :: s =>
      match digitOf base b with
      | some d => d :: digitsOf base s
      | none => []

def digitsValue (base : ℕ) (ds : List ℕ) : ℕ := ds.foldl (fun n d => base * n + d) 0

/-- A sign, and what follows it. -/
def takeSign : Bytes → Bool × Bytes
  | [] => (false, [])
  | b :: s => if b = 45 then (true, s) else if b = 43 then (false, s) else (false, b :: s)

/-- Skip a `0x` that has a digit after it. -/
def skipRadix : Bytes → Bytes
  | 48#8 :: x :: s =>
      if (x = 120 ∨ x = 88) ∧ digitsOf 16 s ≠ [] then s else 48#8 :: x :: s
  | s => s

/-- The number a string starts with, before it is fitted to any type. -/
def scanNumber (base : ℕ) (s : Bytes) : Option ℤ :=
  let (negative, s) := takeSign (s.dropWhile isSpace)
  match digitsOf base (if base = 16 then skipRadix s else s) with
  | [] => none
  | ds => some (if negative then -digitsValue base ds else digitsValue base ds)

/-- `strtol(s, nullptr, 10)`. -/
def strtol (s : Bytes) : ℤ :=
  match scanNumber 10 s with
  | none => 0
  | some v => max (-2 ^ 63) (min v (2 ^ 63 - 1))

/-- `strtoul(s, nullptr, base)`. -/
def strtoul (base : ℕ) (s : Bytes) : Word :=
  match scanNumber base s with
  | none => 0
  | some v => if 2 ^ 64 ≤ v.natAbs then BitVec.ofNat 64 (2 ^ 64 - 1) else BitVec.ofInt 64 v

/-- `std::stoi`, by the name of the exception where it throws. -/
def stoi (s : Bytes) : Except Bytes ℤ :=
  match scanNumber 10 s with
  | none => .error (text "stoi")
  | some v => if -2 ^ 31 ≤ v ∧ v < 2 ^ 31 then .ok v else .error (text "stoi")

/-! ### Reading back what was written -/

theorem digitValue_digitChar : ∀ d < 16, digitValue (BitVec.ofNat 8 d.digitChar.toNat) = d := by
  decide

theorem digitOf_digitChar {base d : ℕ} (hd : d < base) (hbase : base ≤ 16) :
    digitOf base (BitVec.ofNat 8 d.digitChar.toNat) = some d := by
  rw [digitOf, digitValue_digitChar d (by omega), if_pos hd]

theorem digitsOf_append {base : ℕ} {s : Bytes} (h : ∀ b ∈ s, digitValue b < base) (rest : Bytes) :
    digitsOf base (s ++ rest) = digitsOf base s ++ digitsOf base rest := by
  induction s with
  | nil => rfl
  | cons b s ih =>
      obtain ⟨hb, hs⟩ := List.forall_mem_cons.mp h
      rw [List.cons_append, digitsOf, digitsOf, digitOf, if_pos hb, ih hs, List.cons_append]

theorem digitValue_of_mem_numeral {base : ℕ} (hbase : 1 < base) (hbase' : base ≤ 16) (n : ℕ) :
    ∀ b ∈ numeral base n, digitValue b < base := by
  have hdigit : ∀ d < base, digitValue (BitVec.ofNat 8 d.digitChar.toNat) < base := fun d hd => by
    rwa [digitValue_digitChar d (by omega)]
  induction n using Nat.strongRecOn with
  | _ n ih =>
      by_cases hn : n < base
      · rw [numeral, Nat.toDigits_of_lt_base hn]
        simpa using hdigit n hn
      · rw [numeral, Nat.toDigits_of_base_le hbase (by omega), List.map_append]
        intro b hb
        rcases List.mem_append.mp hb with hb | hb
        · exact ih _ (Nat.div_lt_self (by omega) hbase) b hb
        · obtain rfl := List.mem_singleton.mp hb
          exact hdigit _ (Nat.mod_lt _ (by omega))

/-- The digits of a numeral read as its value. -/
theorem digitsOf_numeral {base : ℕ} (hbase : 1 < base) (hbase' : base ≤ 16) (n : ℕ) :
    digitsOf base (numeral base n) ≠ [] ∧
      digitsValue base (digitsOf base (numeral base n)) = n := by
  induction n using Nat.strongRecOn with
  | _ n ih =>
      by_cases hn : n < base
      · rw [numeral, Nat.toDigits_of_lt_base hn]
        simp [digitsOf, digitOf_digitChar hn hbase', digitsValue]
      · have hmod := Nat.mod_lt n (show 0 < base by omega)
        obtain ⟨-, hval⟩ := ih _ (Nat.div_lt_self (by omega) hbase)
        have hsplit : digitsOf base (numeral base n) =
            digitsOf base (numeral base (n / base)) ++ [n % base] := by
          have hdigits := digitValue_of_mem_numeral hbase hbase' (n / base)
          rw [numeral, Nat.toDigits_of_base_le hbase (by omega), List.map_append, ← numeral,
            digitsOf_append hdigits, List.map_singleton, digitsOf, digitOf_digitChar hmod hbase']
          rfl
        rw [hsplit]
        refine ⟨by simp, ?_⟩
        rw [digitsValue, List.foldl_append]
        change base * digitsValue base (digitsOf base (numeral base (n / base))) + n % base = n
        rw [hval, Nat.div_add_mod]

theorem plain_of_digit {b : Byte} (h : digitValue b < 16) : isSpace b = false ∧ b ≠ 45 ∧ b ≠ 43 := by
  revert b
  decide

theorem skipRadix_of_digits {s : Bytes} (h : ∀ b ∈ s, digitValue b < 16) : skipRadix s = s := by
  unfold skipRadix
  split
  · rename_i x s
    have hx : ∀ y : Byte, digitValue y < 16 → ¬ (y = 120 ∨ y = 88) := by decide
    exact if_neg fun hc => hx x (h x (by simp)) hc.1
  · rfl

/-- A string of digits and nothing else is read as their value. -/
theorem scanNumber_of_digits {base : ℕ} (hbase : base ≤ 16) {s : Bytes}
    (h : ∀ b ∈ s, digitValue b < base) (hne : digitsOf base s ≠ []) :
    scanNumber base s = some (digitsValue base (digitsOf base s) : ℤ) := by
  have h16 : ∀ b ∈ s, digitValue b < 16 := fun b hb => Nat.lt_of_lt_of_le (h b hb) hbase
  have hsign : takeSign (s.dropWhile isSpace) = (false, s) := by
    cases s with
    | nil => contradiction
    | cons b s =>
        obtain ⟨hspace, hminus, hplus⟩ := plain_of_digit (h16 b (by simp))
        rw [List.dropWhile_cons, if_neg (by simp [hspace]), takeSign, if_neg hminus, if_neg hplus]
  rw [scanNumber, hsign]
  simp only [skipRadix_of_digits h16, ite_self]
  cases hds : digitsOf base s with
  | nil => contradiction
  | cons d ds => rfl

theorem scanNumber_decimal (n : ℕ) : scanNumber 10 (decimal n) = some (n : ℤ) := by
  obtain ⟨hne, hval⟩ := digitsOf_numeral (show 1 < 10 by decide) (by decide) n
  have hdigits := digitValue_of_mem_numeral (show 1 < 10 by decide) (by decide) n
  rw [decimal, scanNumber_of_digits (by decide) hdigits hne, hval]

theorem stoi_decimal {n : ℕ} (h : n < 2 ^ 31) : stoi (decimal n) = .ok n := by
  rw [stoi, scanNumber_decimal]
  exact if_pos ⟨by omega, by omega⟩

theorem strtoul_of_scan {base : ℕ} {s : Bytes} {w : Word}
    (h : scanNumber base s = some (w.toNat : ℤ)) : strtoul base s = w := by
  have hlt : ¬ 2 ^ 64 ≤ (w.toNat : ℤ).natAbs := by
    have := w.isLt
    simpa using this
  rw [strtoul, h]
  simp only [if_neg hlt, BitVec.ofInt_natCast, BitVec.ofNat_toNat, BitVec.setWidth_eq]

end Pyflame
