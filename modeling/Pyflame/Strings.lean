import Pyflame.Library.Utf8
import Pyflame.LineTable
import Pyflame.Pages

/-!
Strings of Python 3: what `StringDataPython3` makes of a compact string.

The characters are stored in one, two or four bytes each, behind a head of one
of two sizes. What is returned depends on the characters alone, and it is UTF-8
unless one of them is a surrogate.
-/

namespace Pyflame

open Interaction

/-! ### One character -/

theorem continuation_eq (n : ℕ) : 0x80 ||| (n &&& 0x3f) = n % 64 + 0x80 := by
  have hmask : n &&& 0x3f = n % 64 := Nat.and_two_pow_sub_one_eq_mod n 6
  have hor := Nat.two_pow_add_eq_or_of_lt (i := 6) (Nat.mod_lt n (by decide)) 2
  rw [hmask, Nat.add_comm]
  exact hor.symm

/-- The first byte of a character of several bytes. -/
theorem lead_eq (i a : ℕ) {b : ℕ} (h : b < 2 ^ i) : 2 ^ i * a ||| b = b + 2 ^ i * a := by
  rw [Nat.add_comm]
  exact (Nat.two_pow_add_eq_or_of_lt h a).symm

/-- The shifts and masks are those of UTF-8. -/
theorem encodeChar_eq {ch : ℕ} (h : ch < 0x110000) :
    encodeChar ch = some ((Utf8.encode ch).map UInt8.toBitVec) := by
  unfold encodeChar Utf8.encode
  simp only [Nat.shiftRight_eq_div_pow, continuation_eq]
  -- By the number of bytes: the tests of the code are the bounds of the encoding.
  by_cases h₁ : ch < 0x80
  · rw [if_pos h₁, if_pos (by omega)]
    rfl
  rw [if_neg h₁, if_neg (show ¬ ch ≤ 0x7f by omega)]
  by_cases h₂ : ch < 0x800
  · have hlead := lead_eq 5 6 (b := ch / 2 ^ 6) (by omega)
    have hfirst : 0xc0 ||| ch / 2 ^ 6 = ch / 64 % 32 + 0xc0 := by
      rw [Nat.mod_eq_of_lt (by omega)]
      exact hlead
    rw [if_pos h₂, if_pos (show ch ≤ 0x7ff by omega), hfirst]
    rfl
  rw [if_neg h₂, if_neg (show ¬ ch ≤ 0x7ff by omega)]
  by_cases h₃ : ch < 0x10000
  · have hlead := lead_eq 4 14 (b := ch / 2 ^ 12) (by omega)
    have hfirst : 0xe0 ||| ch / 2 ^ 12 = ch / 4096 % 16 + 0xe0 := by
      rw [Nat.mod_eq_of_lt (by omega)]
      exact hlead
    rw [if_pos h₃, if_pos (show ch ≤ 0xffff by omega), hfirst]
    rfl
  · have hlead := lead_eq 3 30 (b := ch / 2 ^ 18) (by omega)
    have hfirst : 0xf0 ||| ch / 2 ^ 18 = ch / 262144 % 8 + 0xf0 := by
      rw [Nat.mod_eq_of_lt (by omega)]
      exact hlead
    rw [if_neg h₃, if_neg (show ¬ ch ≤ 0xffff by omega), if_pos (by omega), hfirst]
    rfl

/-- Bytes as a decoder takes them. -/
def octets (bs : Bytes) : ByteArray := (bs.map UInt8.ofBitVec).toByteArray

theorem octets_utf8 {chars : List ℕ} (h : ∀ c ∈ chars, c < 0x110000) :
    octets (utf8 chars) = (Utf8.encodeAll chars).toByteArray := by
  have hbytes : (utf8 chars).map UInt8.ofBitVec = Utf8.encodeAll chars := by
    rw [utf8, Utf8.encodeAll, List.map_flatMap]
    apply List.flatMap_congr
    intro c hc
    rw [encodeChar_eq (h c hc), Option.getD_some, List.map_map]
    exact List.map_id _
  rw [octets, hbytes]

/-! ### Compact strings -/

/-- A string as PEP 393 stores it, of a size that an `int` can count. -/
structure CompactString where
  kind : ℕ
  ascii : Bool
  chars : List ℕ
  kind_eq : kind = 1 ∨ kind = 2 ∨ kind = 4
  ascii_chars : ascii = true → kind = 1 ∧ ∀ c ∈ chars, c < 0x80
  wide : ∀ c ∈ chars, c < 256 ^ kind
  range : ∀ c ∈ chars, c < 0x110000
  short : kind * chars.length < 2 ^ 31

/-- The string is stored at the address. -/
structure CompactString.At (H : Headers) (m : Memory) (addr : Word) (s : CompactString) : Prop where
  head : ∃ head, ByteMemory.bytes m addr H.sizeofASCIIObject.toNat = some head ∧
    stateCompact (field head H.unicode_state 4) = true ∧
    stateKind (field head H.unicode_state 4) = s.kind ∧
    stateAscii (field head H.unicode_state 4) = s.ascii ∧
    field head H.unicode_length 8 = s.chars.length
  data : ByteMemory.bytes m
      (addr + if s.ascii then H.sizeofASCIIObject else H.sizeofCompactUnicodeObject)
      (s.kind * s.chars.length) =
    some (s.chars.flatMap (ByteMemory.leBytes s.kind))

/-- The heads of string objects end at a word, as structures with pointers do. -/
structure Headers.WordSized (H : Headers) : Prop where
  ascii : H.sizeofASCIIObject.toNat % 8 = 0
  compact : H.sizeofCompactUnicodeObject.toNat % 8 = 0
  small : H.sizeofASCIIObject.toNat < 2 ^ 63

section

variable {H : Headers} {m : Memory} {addr : Word} {s : CompactString}

/-- An aligned string in memory that is mapped by pages can be read in words. -/
theorem CompactString.At.object (h : s.At H m addr) (hH : H.WordSized) (hm : Paged m)
    (haddr : addr.toNat % 8 = 0) : ∃ o : UnicodeObject, o.At H m addr ∧ o.chars = s.chars := by
  obtain ⟨head, hhead, hcompact, hkind, hascii, hlength⟩ := h.head
  have hoffset : (addr + if s.ascii then H.sizeofASCIIObject else H.sizeofCompactUnicodeObject).toNat % 8
      = 0 := by
    have hA := hH.ascii
    have hC := hH.compact
    rw [BitVec.toNat_add]
    split_ifs <;> omega
  -- What is read of the data, beyond its end.
  have hcovered := hm.covering hoffset (by rw [h.data]; rfl)
  obtain ⟨buf, hbuf⟩ := Option.isSome_iff_exists.mp hcovered
  have hsplit := hbuf
  rw [← Nat.add_sub_cancel' (le_covering (s.kind * s.chars.length))] at hsplit
  have hfront := Option.some.inj ((ByteMemory.bytes_split hsplit).1.symm.trans h.data)
  refine ⟨⟨head, s.chars, buf.drop (s.kind * s.chars.length)⟩, ?_, rfl⟩
  have hwords : covering H.sizeofASCIIObject.toNat = H.sizeofASCIIObject.toNat := by
    have := hH.ascii
    unfold covering
    omega
  refine ⟨hH.small, by rw [hwords]; exact hhead, hcompact, ?_, hlength, ?_, ?_, ?_, ?_⟩
  · exact hkind ▸ s.kind_eq
  · exact hkind ▸ s.short
  · change ByteMemory.bytes m (addr + if stateAscii (field head H.unicode_state 4) then _ else _)
      (covering (stateKind (field head H.unicode_state 4) * s.chars.length)) =
        some (s.chars.flatMap (ByteMemory.leBytes (stateKind (field head H.unicode_state 4))) ++ _)
    rw [hascii, hkind, hbuf, ← hfront, List.take_append_drop]
  · exact hkind ▸ s.wide
  · exact fun c hc => Nat.le_of_lt_succ (s.range c hc)

/-- The text depends on the characters alone. -/
theorem CompactString.At.yields (h : s.At H m addr) (hH : H.WordSized) (hm : Paged m)
    (haddr : addr.toNat % 8 = 0) (pid : Pid) :
    Yields m (stringDataPython3 H pid addr) (utf8 s.chars) := by
  obtain ⟨o, ho, hchars⟩ := h.object hH hm haddr
  rw [← hchars]
  exact yields_stringDataPython3 ho

/-- **Scalar values come out as UTF-8**, however they are stored, and decode to themselves. -/
theorem stringDataPython3_scalars (h : s.At H m addr) (hH : H.WordSized) (hm : Paged m)
    (haddr : addr.toNat % 8 = 0) {cs : List Char} (hcs : s.chars = cs.map Char.toNat) (pid : Pid) :
    Yields m (stringDataPython3 H pid addr) (utf8 (cs.map Char.toNat)) ∧
      octets (utf8 (cs.map Char.toNat)) = cs.utf8Encode ∧
        (octets (utf8 (cs.map Char.toNat))).utf8Decode? = some cs.toArray := by
  have hrange := s.range
  rw [hcs] at hrange
  have hencode : octets (utf8 (cs.map Char.toNat)) = cs.utf8Encode := by
    rw [octets_utf8 hrange, Utf8.encodeAll_map_toNat]
  refine ⟨hcs ▸ h.yields hH hm haddr pid, hencode, ?_⟩
  rw [hencode]
  exact List.utf8Decode?_utf8Encode

/-- **When the text can be decoded**: it is well-formed UTF-8 exactly if no character is
a surrogate. -/
theorem stringDataPython3_wellFormed_iff (h : s.At H m addr) (hH : H.WordSized) (hm : Paged m)
    (haddr : addr.toNat % 8 = 0) (pid : Pid) :
    ∃ dump, Yields m (stringDataPython3 H pid addr) dump ∧
      ((octets dump).IsValidUTF8 ↔ ∀ c ∈ s.chars, ¬ (0xd800 ≤ c ∧ c ≤ 0xdfff)) := by
  refine ⟨utf8 s.chars, h.yields hH hm haddr pid, ?_⟩
  rw [octets_utf8 s.range, Utf8.isValidUTF8_iff s.range]
  apply forall₂_congr
  intro c hc
  have hlt := s.range c hc
  -- Below 0x110000 the surrogates are all that is left out.
  rw [Nat.isValidChar]
  omega

end

/-! ### Two strings -/

/-- One page, from `0x1000` on, that starts with these bytes. -/
def pageOf (bs : Bytes) : Memory := fun addr =>
  if addr.toNat / 4096 = 1 then some (bs.getD (addr.toNat % 4096) 0) else none

theorem pageOf_paged (bs : Bytes) : Paged (pageOf bs) := by
  intro a b h
  simp only [pageOf, h]
  split_ifs <;> rfl

theorem py36_wordSized : py36.WordSized := ⟨by decide, by decide, by decide⟩

/-- The head of a string that is not ASCII. -/
def headOf (kind length : ℕ) : Bytes :=
  List.replicate 16 0 ++ ByteMemory.leBytes 8 length ++ List.replicate 8 0 ++
    ByteMemory.leBytes 8 (32 + 4 * kind) ++ List.replicate 8 0

def stored (kind : ℕ) (chars : List ℕ) : Memory :=
  pageOf (headOf kind chars.length ++ List.replicate 24 0 ++
    chars.flatMap (ByteMemory.leBytes kind))

/-- A character of each length in UTF-8. -/
def mixed : CompactString where
  kind := 4
  ascii := false
  chars := ['a', 'é', '€', '🐍'].map Char.toNat
  kind_eq := .inr (.inr rfl)
  ascii_chars := nofun
  wide := by decide
  range := by decide
  short := by decide

theorem mixed_at : mixed.At py36 (stored 4 mixed.chars) 0x1000 where
  head := ⟨headOf 4 4, by decide +kernel, by decide, by decide, by decide, by decide⟩
  data := by decide +kernel

theorem stringDataPython3_mixed :
    let dump : Bytes := [0x61, 0xc3, 0xa9, 0xe2, 0x82, 0xac, 0xf0, 0x9f, 0x90, 0x8d]
    Yields (stored 4 mixed.chars) (stringDataPython3 py36 1 0x1000) dump ∧
      octets dump = ['a', 'é', '€', '🐍'].utf8Encode ∧
        (octets dump).utf8Decode? = some #['a', 'é', '€', '🐍'] :=
  stringDataPython3_scalars mixed_at py36_wordSized (pageOf_paged _) (by decide) rfl 1

theorem stringDataPython3_mixed_wellFormed :
    ∃ dump, Yields (stored 4 mixed.chars) (stringDataPython3 py36 1 0x1000) dump ∧
      ((octets dump).IsValidUTF8 ↔ ∀ c ∈ mixed.chars, ¬ (0xd800 ≤ c ∧ c ≤ 0xdfff)) :=
  stringDataPython3_wellFormed_iff mixed_at py36_wordSized (pageOf_paged _) (by decide) 1

/-- A byte of a file name that could not be decoded, behind one that could. -/
def escaped : CompactString where
  kind := 2
  ascii := false
  chars := [0x61, 0xdc80]
  kind_eq := .inr (.inl rfl)
  ascii_chars := nofun
  wide := by decide
  range := by decide
  short := by decide

theorem escaped_at : escaped.At py36 (stored 2 escaped.chars) 0x1000 where
  head := ⟨headOf 2 2, by decide +kernel, by decide, by decide, by decide, by decide⟩
  data := by decide +kernel

/-- The text of the surrogate is not well formed. -/
theorem stringDataPython3_escaped :
    escaped.At py36 (stored 2 escaped.chars) 0x1000 ∧
      Yields (stored 2 escaped.chars) (stringDataPython3 py36 1 0x1000) [0x61, 0xed, 0xb2, 0x80] ∧
        ¬ (octets [0x61, 0xed, 0xb2, 0x80]).IsValidUTF8 := by
  have hyields := escaped_at.yields py36_wordSized (pageOf_paged _) (by decide) 1
  refine ⟨escaped_at, hyields, ?_⟩
  have hvalid := Utf8.isValidUTF8_iff escaped.range
  rw [← octets_utf8 escaped.range] at hvalid
  intro hdump
  have hchar : Nat.isValidChar 0xdc80 := hvalid.mp hdump 0xdc80 (by decide)
  revert hchar
  decide

end Pyflame
