import Mathlib.Tactic.Common
import Mathlib.Data.Nat.Notation
import Mathlib.Algebra.Ring.Nat

/-!
Byte-addressed memory and little-endian words.

A memory is a partial map from addresses to bytes, defined on the mapped
addresses. Addresses wrap around. A multi-byte access is all or nothing: it
has a result exactly when every byte of it is mapped.
-/

namespace ByteMemory

abbrev Byte := BitVec 8

/-! ### Little-endian numbers -/

def leNat : List Byte → ℕ
  | [] => 0
  | b :: bs => b.toNat + 256 * leNat bs

def leBytes : ℕ → ℕ → List Byte
  | 0, _ => []
  | n + 1, v => BitVec.ofNat 8 v :: leBytes n (v / 256)

@[simp] theorem leBytes_length (n v : ℕ) : (leBytes n v).length = n := by
  induction n generalizing v with
  | zero => rfl
  | succ n ih => simp [leBytes, ih]

theorem leNat_lt (bs : List Byte) : leNat bs < 256 ^ bs.length := by
  induction bs with
  | nil => simp [leNat]
  | cons b bs ih =>
      have := b.isLt
      simp only [leNat, List.length_cons, Nat.pow_succ]
      omega

theorem leBytes_leNat (bs : List Byte) : leBytes bs.length (leNat bs) = bs := by
  induction bs with
  | nil => rfl
  | cons b bs ih =>
      have hb := b.isLt
      have hdiv : (b.toNat + 256 * leNat bs) / 256 = leNat bs := by omega
      have hmod : BitVec.ofNat 8 (b.toNat + 256 * leNat bs) = b := by
        apply BitVec.eq_of_toNat_eq
        simp only [BitVec.toNat_ofNat]
        omega
      simp only [leNat, List.length_cons, leBytes, hdiv, hmod, ih]

theorem leNat_leBytes {n v : ℕ} (h : v < 256 ^ n) : leNat (leBytes n v) = v := by
  induction n generalizing v with
  | zero => simp only [Nat.pow_zero] at h; simp [leBytes, leNat]; omega
  | succ n ih =>
      have hdiv : v / 256 < 256 ^ n := by
        rw [Nat.pow_succ] at h
        omega
      simp only [leBytes, leNat, ih hdiv, BitVec.toNat_ofNat]
      omega

/-! ### Memory -/

variable {w : ℕ}

abbrev Memory (w : ℕ) := BitVec w → Option Byte

def bytes (m : Memory w) (a : BitVec w) : ℕ → Option (List Byte)
  | 0 => some []
  | n + 1 => do
      let b ← m a
      let bs ← bytes m (a + 1#w) n
      some (b :: bs)

/-- Overwrite the bytes from an address on, mapped or not. -/
def store (m : Memory w) (a : BitVec w) (bs : List Byte) : Memory w :=
  fun x => bs[(x - a).toNat]?.or (m x)

/-- The ranges of `i` bytes from `a` and of `j` bytes from `b` have no byte in
common. -/
def Apart (a : BitVec w) (i : ℕ) (b : BitVec w) (j : ℕ) : Prop :=
  ∀ x, (x - a).toNat < i → ¬ (x - b).toNat < j

theorem ofNat_advance (a : BitVec w) (i : ℕ) :
    a + 1#w + BitVec.ofNat w i = a + BitVec.ofNat w (i + 1) := by
  rw [BitVec.add_assoc, BitVec.add_comm 1#w, BitVec.ofNat_add]

theorem ofNat_sub_self (a : BitVec w) {i : ℕ} (h : i < 2 ^ w) :
    (a + BitVec.ofNat w i - a).toNat = i := by
  rw [BitVec.add_comm, BitVec.add_sub_cancel, BitVec.toNat_ofNat, Nat.mod_eq_of_lt h]

theorem add_ofNat_sub (a x : BitVec w) : a + BitVec.ofNat w (x - a).toNat = x := by
  rw [BitVec.ofNat_toNat, BitVec.setWidth_eq, BitVec.add_comm, BitVec.sub_add_cancel]

theorem Apart.symm {a b : BitVec w} {i j : ℕ} (h : Apart a i b j) : Apart b j a i :=
  fun x hx hx' => h x hx' hx

/-- It is enough to look at the bytes of the first range. -/
theorem apart_iff {a b : BitVec w} {i j : ℕ} :
    Apart a i b j ↔ ∀ k < i, ¬ (a + BitVec.ofNat w k - b).toNat < j := by
  constructor
  · intro h k hk
    refine h _ (Nat.lt_of_le_of_lt ?_ hk)
    rw [BitVec.add_comm, BitVec.add_sub_cancel, BitVec.toNat_ofNat]
    exact Nat.mod_le _ _
  · intro h x hx
    have := h _ hx
    rwa [add_ofNat_sub] at this

instance (a b : BitVec w) (i j : ℕ) : Decidable (Apart a i b j) := decidable_of_iff _ apart_iff.symm

theorem bytes_eq_some_iff {m : Memory w} {a : BitVec w} {n : ℕ} {bs : List Byte} :
    bytes m a n = some bs ↔
      bs.length = n ∧ ∀ i (h : i < bs.length), m (a + BitVec.ofNat w i) = some bs[i] := by
  induction n generalizing a bs with
  | zero =>
      simp only [bytes, Option.some.injEq, List.length_eq_zero_iff]
      constructor
      · rintro rfl
        simp
      · exact fun h => h.1.symm
  | succ n ih =>
      simp only [bytes, Option.bind_eq_bind, Option.bind_eq_some_iff, Option.some.injEq]
      constructor
      · rintro ⟨b, hb, bs', hbs', rfl⟩
        obtain ⟨hlen, hbs'⟩ := ih.mp hbs'
        refine ⟨by simp [hlen], fun i hi => ?_⟩
        cases i with
        | zero => simpa using hb
        | succ i =>
            have := hbs' i (by simpa using hi)
            rwa [ofNat_advance] at this
      · rintro ⟨hlen, h⟩
        cases bs with
        | nil => simp at hlen
        | cons b bs =>
            have h0 := h 0 (by simp)
            refine ⟨b, by simpa using h0, bs, ih.mpr ⟨by simpa using hlen, fun i hi => ?_⟩, rfl⟩
            have := h (i + 1) (by simpa using hi)
            rwa [ofNat_advance]

theorem bytes_length {m : Memory w} {a : BitVec w} {n : ℕ} {bs : List Byte}
    (h : bytes m a n = some bs) : bs.length = n :=
  (bytes_eq_some_iff.mp h).1

theorem bytes_add (m : Memory w) (a : BitVec w) (i j : ℕ) :
    bytes m a (i + j) =
      (bytes m a i).bind fun bs => (bytes m (a + BitVec.ofNat w i) j).map (bs ++ ·) := by
  induction i generalizing a with
  | zero => simp [bytes]
  | succ i ih =>
      rw [show i + 1 + j = i + j + 1 by omega]
      simp only [bytes, ih, ofNat_advance]
      cases m a <;> cases bytes m (a + 1#w) i <;>
        cases bytes m (a + BitVec.ofNat w (i + 1)) j <;> simp

/-- The two parts of what is read. -/
theorem bytes_split {m : Memory w} {a : BitVec w} {i j : ℕ} {bs : List Byte}
    (h : bytes m a (i + j) = some bs) :
    bytes m a i = some (bs.take i) ∧ bytes m (a + BitVec.ofNat w i) j = some (bs.drop i) := by
  rw [bytes_add, Option.bind_eq_some_iff] at h
  obtain ⟨front, hfront, h⟩ := h
  obtain ⟨back, hback, rfl⟩ := Option.map_eq_some_iff.mp h
  have hlen := bytes_length hfront
  rw [List.take_left' hlen, List.drop_left' hlen]
  exact ⟨hfront, hback⟩

theorem bytes_congr {m m' : Memory w} {a : BitVec w} {n : ℕ}
    (h : ∀ i < n, m (a + BitVec.ofNat w i) = m' (a + BitVec.ofNat w i)) :
    bytes m a n = bytes m' a n := by
  induction n generalizing a with
  | zero => rfl
  | succ n ih =>
      have hrest : bytes m (a + 1#w) n = bytes m' (a + 1#w) n :=
        ih fun i hi => by simpa only [ofNat_advance] using h (i + 1) (by omega)
      have h0 : m a = m' a := by simpa using h 0 (by omega)
      simp only [bytes, h0, hrest]

/-- A range is readable exactly when each of its bytes is mapped. -/
theorem bytes_isSome_iff {m : Memory w} {a : BitVec w} {n : ℕ} :
    (bytes m a n).isSome ↔ ∀ i < n, (m (a + BitVec.ofNat w i)).isSome := by
  constructor
  · intro h i hi
    obtain ⟨bs, hbs⟩ := Option.isSome_iff_exists.mp h
    obtain ⟨hlen, hm⟩ := bytes_eq_some_iff.mp hbs
    rw [hm i (by omega)]
    rfl
  · intro h
    induction n with
    | zero => rfl
    | succ n ih =>
        obtain ⟨bs, hbs⟩ := Option.isSome_iff_exists.mp (ih fun i hi => h i (by omega))
        obtain ⟨b, hb⟩ := Option.isSome_iff_exists.mp (h n (by omega))
        rw [bytes_add, hbs]
        simp [bytes, hb]

/-- A store leaves the bytes outside its range alone. -/
theorem store_outside (m : Memory w) {a x : BitVec w} {bs : List Byte}
    (h : ¬ (x - a).toNat < bs.length) : store m a bs x = m x := by
  rw [store, List.getElem?_eq_none (Nat.le_of_not_lt h), Option.none_or]

/-- A load reads back the store at its own address. -/
theorem bytes_store_self (m : Memory w) (a : BitVec w) {bs : List Byte}
    (hw : bs.length ≤ 2 ^ w) : bytes (store m a bs) a bs.length = some bs := by
  refine bytes_eq_some_iff.mpr ⟨rfl, fun i hi => ?_⟩
  rw [store, ofNat_sub_self a (by omega), List.getElem?_eq_getElem hi, Option.some_or]

/-- A store of what was there in a memory that differs in its range only. -/
theorem store_bytes {m m' : Memory w} {a x : BitVec w} {bs : List Byte}
    (h : bytes m a bs.length = some bs) (hx : ¬ (x - a).toNat < bs.length → m' x = m x) :
    store m' a bs x = m x := by
  by_cases hin : (x - a).toNat < bs.length
  · have hm := (bytes_eq_some_iff.mp h).2 _ hin
    rw [add_ofNat_sub] at hm
    rw [store, List.getElem?_eq_getElem hin, Option.some_or, hm]
  · rw [store_outside m' hin, hx hin]

/-- A load does not see a store elsewhere. -/
theorem bytes_store_apart (m : Memory w) {a c : BitVec w} {bs : List Byte} {n : ℕ}
    (hw : n ≤ 2 ^ w) (h : Apart c n a bs.length) :
    bytes (store m a bs) c n = bytes m c n := by
  refine bytes_congr fun i hi => ?_
  have hi' : i < 2 ^ w := by omega
  have hout := h (c + BitVec.ofNat w i) (by rwa [ofNat_sub_self c hi'])
  exact store_outside m hout

/-- A store maps nothing new where all it overwrites is mapped. -/
theorem store_isSome {m : Memory w} {a : BitVec w} {bs : List Byte}
    (h : (bytes m a bs.length).isSome) (x : BitVec w) :
    (store m a bs x).isSome = (m x).isSome := by
  by_cases hx : (x - a).toNat < bs.length
  · have hm := bytes_isSome_iff.mp h _ hx
    rw [add_ofNat_sub] at hm
    rw [store, List.getElem?_eq_getElem hx, Option.some_or, hm, Option.isSome_some]
  · rw [store_outside m hx]

end ByteMemory
