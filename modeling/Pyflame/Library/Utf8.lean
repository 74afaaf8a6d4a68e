import Mathlib.Tactic.Common
import Mathlib.Data.Nat.Notation

/-!
The bytes that UTF-8 gives a number, be it a scalar value or a surrogate.

The scheme is one for all numbers below `0x110000`, and no two lists of them
have the same bytes. UTF-8 proper is the part of it without surrogates.
-/

namespace Utf8

/-- The bytes of a number. -/
def encode (n : ℕ) : List UInt8 :=
  if n ≤ 0x7f then [UInt8.ofNat n]
  else if n ≤ 0x7ff then [UInt8.ofNat (n / 64 % 32 + 0xc0), UInt8.ofNat (n % 64 + 0x80)]
  else if n ≤ 0xffff then
    [UInt8.ofNat (n / 4096 % 16 + 0xe0), UInt8.ofNat (n / 64 % 64 + 0x80), UInt8.ofNat (n % 64 + 0x80)]
  else
    [UInt8.ofNat (n / 262144 % 8 + 0xf0), UInt8.ofNat (n / 4096 % 64 + 0x80),
      UInt8.ofNat (n / 64 % 64 + 0x80), UInt8.ofNat (n % 64 + 0x80)]

/-- On scalar values this is UTF-8. -/
theorem encode_toNat (c : Char) : encode c.toNat = String.utf8EncodeChar c := rfl

/-- The bytes of a list of numbers. -/
def encodeAll (ns : List ℕ) : List UInt8 := ns.flatMap encode

theorem encodeAll_map_toNat (cs : List Char) :
    (encodeAll (cs.map Char.toNat)).toByteArray = cs.utf8Encode := by
  rw [encodeAll, List.flatMap_map, List.utf8Encode]
  simp only [encode_toNat]

/-! ### Reading back -/

/-- The number that the first bytes are those of, and what follows them. -/
def decode : List UInt8 → Option (ℕ × List UInt8)
  | [] => none
  | a :: bs =>
      if a.toNat ≤ 0x7f then some (a.toNat, bs)
      else if a.toNat < 0xe0 then
        match bs with
        | b :: bs => some ((a.toNat - 0xc0) * 64 + (b.toNat - 0x80), bs)
        | _ => none
      else if a.toNat < 0xf0 then
        match bs with
        | b :: c :: bs =>
            some (((a.toNat - 0xe0) * 64 + (b.toNat - 0x80)) * 64 + (c.toNat - 0x80), bs)
        | _ => none
      else
        match bs with
        | b :: c :: d :: bs =>
            some ((((a.toNat - 0xf0) * 64 + (b.toNat - 0x80)) * 64 + (c.toNat - 0x80)) * 64 +
              (d.toNat - 0x80), bs)
        | _ => none

theorem toNat_ofNat {n : ℕ} (h : n < 256) : (UInt8.ofNat n).toNat = n := by
  rw [UInt8.toNat_ofNat', Nat.mod_eq_of_lt h]

theorem decode_encode {n : ℕ} (hn : n < 0x110000) (rest : List UInt8) :
    decode (encode n ++ rest) = some (n, rest) := by
  unfold encode
  split_ifs with h₁ h₂ h₃
  · have ha : (UInt8.ofNat n).toNat = n := toNat_ofNat (by omega)
    simp only [List.cons_append, List.nil_append, decode, ha, h₁, if_true]
  · have ha : (UInt8.ofNat (n / 64 % 32 + 0xc0)).toNat = n / 64 % 32 + 0xc0 := toNat_ofNat (by omega)
    have hb : (UInt8.ofNat (n % 64 + 0x80)).toNat = n % 64 + 0x80 := toNat_ofNat (by omega)
    simp only [List.cons_append, List.nil_append, decode, ha, hb]
    rw [if_neg (by omega), if_pos (by omega)]
    rw [Option.some.injEq, Prod.mk.injEq]
    exact ⟨by omega, rfl⟩
  · have ha : (UInt8.ofNat (n / 4096 % 16 + 0xe0)).toNat = n / 4096 % 16 + 0xe0 := toNat_ofNat (by omega)
    have hb : (UInt8.ofNat (n / 64 % 64 + 0x80)).toNat = n / 64 % 64 + 0x80 := toNat_ofNat (by omega)
    have hc : (UInt8.ofNat (n % 64 + 0x80)).toNat = n % 64 + 0x80 := toNat_ofNat (by omega)
    simp only [List.cons_append, List.nil_append, decode, ha, hb, hc]
    rw [if_neg (by omega), if_neg (by omega), if_pos (by omega)]
    rw [Option.some.injEq, Prod.mk.injEq]
    exact ⟨by omega, rfl⟩
  · have ha : (UInt8.ofNat (n / 262144 % 8 + 0xf0)).toNat = n / 262144 % 8 + 0xf0 :=
      toNat_ofNat (by omega)
    have hb : (UInt8.ofNat (n / 4096 % 64 + 0x80)).toNat = n / 4096 % 64 + 0x80 := toNat_ofNat (by omega)
    have hc : (UInt8.ofNat (n / 64 % 64 + 0x80)).toNat = n / 64 % 64 + 0x80 := toNat_ofNat (by omega)
    have hd : (UInt8.ofNat (n % 64 + 0x80)).toNat = n % 64 + 0x80 := toNat_ofNat (by omega)
    simp only [List.cons_append, List.nil_append, decode, ha, hb, hc, hd]
    rw [if_neg (by omega), if_neg (by omega), if_neg (by omega)]
    rw [Option.some.injEq, Prod.mk.injEq]
    exact ⟨by omega, rfl⟩

theorem encode_ne_nil (n : ℕ) : encode n ≠ [] := by
  unfold encode
  split_ifs <;> exact List.cons_ne_nil _ _

/-- Lists of numbers with the same bytes are the same. -/
theorem encodeAll_inj {ns ms : List ℕ} (hns : ∀ n ∈ ns, n < 0x110000) (hms : ∀ m ∈ ms, m < 0x110000)
    (h : encodeAll ns = encodeAll ms) : ns = ms := by
  induction ns generalizing ms with
  | nil =>
      cases ms with
      | nil => rfl
      | cons m ms =>
          have hnil : encode m ++ encodeAll ms = [] := h.symm
          exact absurd (List.append_eq_nil_iff.mp hnil).1 (encode_ne_nil m)
  | cons n ns ih =>
      obtain ⟨hn, hns⟩ := List.forall_mem_cons.mp hns
      cases ms with
      | nil =>
          have hnil : encode n ++ encodeAll ns = [] := h
          exact absurd (List.append_eq_nil_iff.mp hnil).1 (encode_ne_nil n)
      | cons m ms =>
          obtain ⟨hm, hms'⟩ := List.forall_mem_cons.mp hms
          have hfirst : encode n ++ encodeAll ns = encode m ++ encodeAll ms := h
          have hdecode := congrArg decode hfirst
          rw [decode_encode hn, decode_encode hm, Option.some.injEq, Prod.mk.injEq] at hdecode
          obtain ⟨rfl, hrest⟩ := hdecode
          rw [ih hns hms' hrest]

/-! ### Scalar values -/

theorem toNat_lt (c : Char) : c.toNat < 0x110000 := by
  have hvalid := c.valid
  simp only [UInt32.isValidChar, Nat.isValidChar] at hvalid
  rw [Char.toNat]
  omega

theorem toNat_ofNat_char {n : ℕ} (h : n.isValidChar) : (Char.ofNat n).toNat = n := by
  rw [Char.ofNat, dif_pos h]
  rfl

/-- **What is well formed.** The bytes of a list of numbers are UTF-8 exactly if all of
them are scalar values. -/
theorem isValidUTF8_iff {ns : List ℕ} (hns : ∀ n ∈ ns, n < 0x110000) :
    (encodeAll ns).toByteArray.IsValidUTF8 ↔ ∀ n ∈ ns, n.isValidChar := by
  constructor
  · rintro ⟨cs, hcs⟩
    rw [← encodeAll_map_toNat] at hcs
    have hbytes : encodeAll ns = encodeAll (cs.map Char.toNat) := by
      have hlist := congrArg (fun b : ByteArray => b.data.toList) hcs
      simpa using hlist
    have hchars : ∀ m ∈ cs.map Char.toNat, m < 0x110000 := by
      intro m hm
      obtain ⟨c, -, rfl⟩ := List.mem_map.mp hm
      exact toNat_lt c
    obtain rfl := encodeAll_inj hns hchars hbytes
    intro n hn
    obtain ⟨c, -, rfl⟩ := List.mem_map.mp hn
    exact c.valid
  · intro hvalid
    -- Each number is that of a character.
    obtain ⟨cs, rfl⟩ : ∃ cs : List Char, ns = cs.map Char.toNat := by
      refine ⟨ns.map Char.ofNat, ?_⟩
      rw [List.map_map]
      conv_lhs => rw [← List.map_id ns]
      apply List.map_congr_left
      intro n hn
      exact (toNat_ofNat_char (hvalid n hn)).symm
    rw [encodeAll_map_toNat]
    exact ByteArray.isValidUTF8_utf8Encode

end Utf8
