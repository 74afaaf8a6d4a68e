import Mathlib.Data.List.TakeWhile
import Pyflame.Library.Counter
import Pyflame.Symbol

/-!
The tables of an ELF file: what `WalkTable` makes of one symbol, and which
entries it and `NeededLibs` get to see.

Both loops number the entries with a `uint16_t`, while the number of entries is
that of the section header.
-/

namespace Pyflame

open Interaction

/-! ### What lies in the file -/

theorem fileByte_eq {file : Bytes} {offset : Word} (h : offset.toNat < file.length) :
    fileByte file offset = file[offset.toNat]? := by
  have hpage : offset.toNat < (file.length + 4095) / 4096 * 4096 := by omega
  rw [fileByte, if_pos hpage, List.getD_eq_getElem?_getD, List.getElem?_eq_getElem h]
  rfl

/-- Bytes of the file itself are read as they are. -/
theorem fileBytes_eq {file : Bytes} (hfile : file.length < 2 ^ 64) {offset : Word} {n : ℕ}
    (h : offset.toNat + n ≤ file.length) :
    fileBytes file offset n = some ((file.drop offset.toNat).take n) := by
  induction n generalizing offset with
  | zero => rw [fileBytes_zero, List.take_zero]
  | succ n ih =>
      have hlt : offset.toNat < file.length := by omega
      have hbyte : fileByte file offset = some file[offset.toNat] := by
        rw [fileByte_eq hlt, List.getElem?_eq_getElem hlt]
      have hnext : (offset + 1).toNat = offset.toNat + 1 := by
        rw [BitVec.toNat_add, show (1 : Word).toNat = 1 from rfl]
        omega
      rw [fileBytes_succ, hbyte, ih (by omega), hnext, List.drop_eq_getElem_cons hlt,
        List.take_succ_cons]
      rfl

/-- A string of the file itself ends at its terminator. -/
theorem fileString_eq {file : Bytes} (hfile : file.length < 2 ^ 64) {offset : Word}
    {name rest : Bytes} (h : file.drop offset.toNat = name ++ 0 :: rest) (hname : 0 ∉ name) {n : ℕ}
    (hn : name.length < n) : fileString file offset n = some name := by
  induction name generalizing offset n with
  | nil =>
      obtain ⟨n, rfl⟩ := Nat.exists_eq_add_one_of_ne_zero (Nat.ne_zero_of_lt hn)
      have hbyte : fileByte file offset = some 0 := by
        rw [fileByte_eq (by have := congrArg List.length h; simp at this; omega),
          ← List.head?_drop, h]
        rfl
      rw [fileString_succ, hbyte]
      rfl
  | cons b name ih =>
      obtain ⟨n, rfl⟩ := Nat.exists_eq_add_one_of_ne_zero (Nat.ne_zero_of_lt hn)
      have hlt : offset.toNat + (name.length + 2) ≤ file.length := by
        have hlength := congrArg List.length h
        simp only [List.length_drop, List.length_append, List.length_cons] at hlength
        omega
      have hbyte : fileByte file offset = some b := by
        rw [fileByte_eq (by omega), ← List.head?_drop, h]
        rfl
      have hnext : (offset + 1).toNat = offset.toNat + 1 := by
        rw [BitVec.toNat_add, show (1 : Word).toNat = 1 from rfl]
        omega
      have hrest : file.drop (offset + 1).toNat = name ++ 0 :: rest := by
        rw [hnext, ← List.drop_drop, h]
        rfl
      have hb : b ≠ 0 := fun hb => hname (hb ▸ List.mem_cons_self)
      have hname' : 0 ∉ name := fun hmem => hname (List.mem_cons_of_mem _ hmem)
      rw [fileString_succ, hbyte, Option.bind_eq_bind, Option.bind_some, if_neg hb,
        ih hrest hname' (by simpa using hn)]
      rfl

/-- Comparing a name with a literal is comparing it with its bytes. -/
theorem fileStrcmp_eq {file : Bytes} {offset : Word} {bound : ℕ} {name lit : Bytes}
    (h : fileString file offset bound = some name) (hlit : 0 ∉ lit) :
    fileStrcmp file offset lit = some (decide (name = lit)) := by
  induction bound generalizing offset name lit with
  | zero => contradiction
  | succ bound ih =>
      rw [fileString_succ, Option.bind_eq_bind, Option.bind_eq_some_iff] at h
      obtain ⟨b, hb, h⟩ := h
      -- The name ends here, or goes on with a byte that is not null.
      by_cases hnul : b = 0
      · rw [if_pos hnul] at h
        obtain rfl := Option.some.inj h
        subst hnul
        cases lit with
        | nil =>
            rw [fileStrcmp_nil, hb]
            rfl
        | cons c lit =>
            have hc : (0 : Byte) ≠ c := fun h => hlit (h ▸ List.mem_cons_self)
            rw [fileStrcmp_cons, hb, Option.bind_eq_bind, Option.bind_some, if_neg hc]
            rfl
      · rw [if_neg hnul, Option.bind_eq_bind, Option.bind_eq_some_iff] at h
        obtain ⟨rest, hrest, h⟩ := h
        obtain rfl := Option.some.inj h
        cases lit with
        | nil =>
            rw [fileStrcmp_nil, hb, Option.bind_eq_bind, Option.bind_some, decide_eq_false hnul]
            rfl
        | cons c lit =>
            have htail := ih hrest fun h => hlit (List.mem_cons_of_mem _ h)
            rw [fileStrcmp_cons, hb, Option.bind_eq_bind, Option.bind_some]
            split_ifs with hc
            · rw [htail, hc]
              simp
            · simp [hc]

/-- Bytes that are the literal, and a null after them, are no different from it. -/
theorem fileStrcmp_of_bytes {file : Bytes} {offset : Word} {lit : Bytes}
    (h : fileBytes file offset (lit.length + 1) = some (lit ++ [0])) :
    fileStrcmp file offset lit = some true := by
  induction lit generalizing offset with
  | nil =>
      rw [fileBytes_succ, Option.bind_eq_bind, Option.bind_eq_some_iff] at h
      obtain ⟨b, hb, hrest⟩ := h
      obtain rfl : b = 0 := (List.cons.inj (Option.some.inj hrest)).1
      rw [fileStrcmp_nil, hb]
      rfl
  | cons c lit ih =>
      rw [fileBytes_succ, Option.bind_eq_bind, Option.bind_eq_some_iff] at h
      obtain ⟨b, hb, h⟩ := h
      rw [Option.bind_eq_bind, Option.bind_eq_some_iff] at h
      obtain ⟨rest, hrest, h⟩ := h
      obtain ⟨rfl, rfl⟩ := List.cons.inj (Option.some.inj h)
      rw [fileStrcmp_cons, hb, Option.bind_eq_bind, Option.bind_some, if_pos rfl, ih hrest]

namespace ELF

/-! ### One symbol -/

/-- What `WalkTable` learns about the ABI from a name. -/
def Walk.seeABI (name : Bytes) (w : Walk) : Walk :=
  if w.have_abi then w
  else if name = text "PyString_Type" then { w with have_abi := true, abi := .py26 }
  else if name = text "PyBytes_Type" then { w with abi := .py34 }
  else if py36Symbols.any (name = text ·) then { w with have_abi := true, abi := .py36 }
  else w

/-- What `WalkTable` learns from a symbol. -/
def Walk.see (w : Walk) (symbol : Bytes × Word) : Walk :=
  if w.addrs.tstate_addr = 0 ∧ symbol.1 = text "_PyThreadState_Current" then
    { w with addrs := { w.addrs with tstate_addr := symbol.2 } }
  else if w.addrs.interp_head_addr = 0 ∧ symbol.1 = text "interp_head" then
    { w with addrs := { w.addrs with interp_head_addr := symbol.2 } }
  else if w.addrs.interp_head_addr = 0 ∧ symbol.1 = text "PyInterpreterState_Head" then
    { w with addrs := { w.addrs with interp_head_fn_addr := symbol.2 } }
  else
    w.seeABI symbol.1

@[simp] theorem Walk.seeABI_i (w : Walk) (name : Bytes) : (w.seeABI name).i = w.i := by
  unfold seeABI
  split_ifs <;> rfl

@[simp] theorem Walk.see_i (w : Walk) (symbol : Bytes × Word) : (w.see symbol).i = w.i := by
  unfold see
  split_ifs
  · rfl
  · rfl
  · rfl
  · exact w.seeABI_i symbol.1

/-- Where everything is known there is nothing to learn. -/
theorem Walk.see_done {w : Walk} (h : w.done = true) (symbol : Bytes × Word) : w.see symbol = w := by
  simp only [done, decide_eq_true_eq] at h
  obtain ⟨habi, htstate, hinterp, -⟩ := h
  rw [see, if_neg fun h => htstate h.1, if_neg fun h => hinterp h.1, if_neg fun h => hinterp h.1,
    seeABI, if_pos habi]

section

variable {elf : ELF} {name : Bytes} {offset : Word}

/-- The name at an offset, which ends in the file. -/
def NameAt (elf : ELF) (offset : Word) (name : Bytes) : Prop :=
  ∃ bound, fileString elf.file offset bound = some name

theorem NameAt.strcmp (h : elf.NameAt offset name) {lit : String} (hlit : 0 ∉ text lit) :
    elf.strcmp offset lit = .ret (decide (name = text lit)) := by
  obtain ⟨bound, h⟩ := h
  rw [strcmp_eq, fileStrcmp_eq h hlit]
  rfl

theorem NameAt.isMissing (h : elf.NameAt offset name) {lit : String} (hlit : 0 ∉ text lit)
    (addr : Word) : elf.isMissing addr offset lit = .ret (decide (addr = 0 ∧ name = text lit)) := by
  unfold ELF.isMissing
  split_ifs with haddr
  · rw [h.strcmp hlit]
    simp only [haddr, true_and]
  · simp only [haddr, false_and, decide_false, Prog.pure_eq]

theorem NameAt.isOneOf (h : elf.NameAt offset name) {lits : List String}
    (hlits : ∀ lit ∈ lits, 0 ∉ text lit) :
    elf.isOneOf offset lits = .ret (lits.any (name = text ·)) := by
  induction lits with
  | nil => rfl
  | cons lit lits ih =>
      rw [ELF.isOneOf, h.strcmp (hlits lit List.mem_cons_self),
        ih fun lit hlit => hlits lit (List.mem_cons_of_mem _ hlit)]
      by_cases heq : name = text lit <;> simp [heq]

theorem NameAt.walkABI (h : elf.NameAt offset name) (w : Walk) :
    elf.walkABI offset w = .ret (w.seeABI name) := by
  have hone : elf.isOneOf offset py36Symbols = .ret (py36Symbols.any (name = text ·)) :=
    h.isOneOf (by decide)
  rw [ELF.walkABI, Walk.seeABI, h.strcmp (by decide), h.strcmp (by decide), hone]
  simp only [Prog.bind_eq, Prog.pure_eq, Prog.ret_bind, decide_eq_true_eq]
  split_ifs <;> rfl

/-- The `if` chain on a symbol that can be read. -/
theorem NameAt.walkEntry (h : elf.NameAt offset name) {sym value : Word}
    (hvalue : elf.st_value sym = .ret value) (w : Walk) :
    elf.walkEntry sym offset w = .ret (w.see (name, value)) := by
  rw [ELF.walkEntry, Walk.see, h.isMissing (by decide), h.isMissing (by decide),
    h.isMissing (by decide), h.walkABI, hvalue]
  simp only [Prog.bind_eq, Prog.pure_eq, Prog.ret_bind, decide_eq_true_eq]
  split_ifs <;> rfl

end

/-! ### Symbol tables -/

/-- The sections `sym` and `str`, whose headers are at `s` and `d`, are a table of `n`
symbols. What a counter of 16 bits can reach of it can be read. -/
structure HasSymbols (elf : ELF) (sym str : ℤ) (s d : Word) (n : ℕ) (symbol : ℕ → Bytes × Word) :
    Prop where
  table : elf.shdr sym = .ret s
  strings : elf.shdr str = .ret d
  entries : elf.entries s = .ret n
  symbols : ∀ i : BitVec 16, i.toNat < n → ∃ entry sh_offset st_name,
    elf.entry s i = .ret entry ∧ elf.sh_offset d = .ret sh_offset ∧ elf.st_name entry = .ret st_name ∧
      elf.NameAt (sh_offset + st_name) (symbol i.toNat).1 ∧
      elf.st_value entry = .ret (symbol i.toNat).2

/-- The variables of `WalkTable` after the first `k` symbols. -/
def knownAfter (addrs : PyAddresses) (symbol : ℕ → Bytes × Word) : ℕ → Walk
  | 0 => { addrs }
  | k + 1 =>
      let w := knownAfter addrs symbol k
      { w.see (symbol k) with i := w.i + 1 }

theorem knownAfter_i (addrs : PyAddresses) (symbol : ℕ → Bytes × Word) (k : ℕ) :
    (knownAfter addrs symbol k).i = BitVec.ofNat 16 k := by
  induction k with
  | zero => rfl
  | succ k ih =>
      rw [BitVec.ofNat_add, ← ih]
      rfl

section

variable {elf : ELF} {sym str : ℤ} {s d : Word} {n : ℕ} {symbol : ℕ → Bytes × Word}

/-- One pass over a table that can be read. -/
theorem HasSymbols.walkStep_eq (h : elf.HasSymbols sym str s d n symbol) (w : Walk) :
    elf.walkStep s d w =
      if w.i.toNat < n then
        if w.done then .ret (.inr w)
        else .ret (.inl { w.see (symbol w.i.toNat) with i := w.i + 1 })
      else .ret (.inr w) := by
  rw [walkStep, h.entries]
  simp only [Prog.bind_eq, Prog.pure_eq, Prog.ret_bind]
  split_ifs with hi hdone
  · rfl
  · obtain ⟨entry, sh_offset, st_name, hentry, hoffset, hname, hnameAt, hvalue⟩ := h.symbols w.i hi
    simp only [hentry, hoffset, hname, hnameAt.walkEntry hvalue, Prog.ret_bind, Walk.see_i]
  · rfl

theorem HasSymbols.counted (h : elf.HasSymbols sym str s d n symbol) (addrs : PyAddresses) :
    Counted (elf.walkStep s d) Walk.i Walk.done n (knownAfter addrs symbol) where
  numbered := knownAfter_i addrs symbol
  stable k hdone := by
    rw [knownAfter, Walk.see_done hdone]
    exact hdone
  entry k hk hwidth hgo := by
    have hi : (knownAfter addrs symbol k).i.toNat = k := by
      rw [knownAfter_i, BitVec.toNat_ofNat, Nat.mod_eq_of_lt hwidth]
    rw [h.walkStep_eq, hi, if_pos hk, if_neg (Bool.eq_false_iff.mp hgo)]
    rfl
  early w hdone hi := by
    rw [h.walkStep_eq, if_pos hi, if_pos hdone]
    exact ⟨w, rfl⟩
  past w hi := by
    rw [h.walkStep_eq, if_neg (Nat.not_lt_of_le hi)]
    exact ⟨w, rfl⟩
  within w a hi hleave := by
    by_contra hgo
    rw [h.walkStep_eq, if_pos hi, if_neg hgo] at hleave
    cases hleave

end

/-- `WalkTable` returns, having gone over the `n` symbols in order, each at most once,
and over all of them unless it stopped early. -/
def WalksInOrder (elf : ELF) (sym str : ℤ) (s d : Word) (n : ℕ) (addrs : PyAddresses) : Prop :=
  InOrder (elf.walkStep s d) Walk.i Walk.done n { addrs } ∧
    ∃ enough r, ∀ fuel ≥ enough, elf.walkTable fuel sym str addrs = .ret r

theorem HasSymbols.walksInOrder_iff {elf : ELF} {sym str : ℤ} {s d : Word} {n : ℕ}
    {symbol : ℕ → Bytes × Word} (h : elf.HasSymbols sym str s d n symbol) (addrs : PyAddresses) :
    elf.WalksInOrder sym str s d n addrs ↔
      n < 2 ^ 16 ∨ (knownAfter addrs symbol (2 ^ 16)).done = true := by
  rw [← (h.counted addrs).inOrder_iff]
  constructor
  · exact fun hwalks => hwalks.1
  · rintro hinOrder
    refine ⟨hinOrder, ?_⟩
    obtain ⟨l, c, w, hl, hleave, -⟩ := hinOrder
    refine ⟨l.length + 1, (w.abi, w.addrs), fun fuel hfuel => ?_⟩
    rw [walkTable, h.table, h.strings]
    simp only [Prog.bind_eq, Prog.pure_eq, Prog.ret_bind]
    rw [show ({ addrs } : Walk) = knownAfter addrs symbol 0 from rfl,
      hl.forever hleave (Nat.lt_of_succ_le hfuel)]
    rfl

/-! ### Dynamic sections -/

/-- The dynamic section and its strings, whose headers are at `s` and `d`, have `n` entries.
What a counter of 16 bits can reach of it can be read; `lib` are the libraries that
are needed. -/
structure HasDynamic (elf : ELF) (s d : Word) (n : ℕ) (lib : ℕ → Option Bytes) : Prop where
  dynamic : elf.shdr elf.dynamic = .ret s
  strings : elf.shdr elf.dynstr = .ret d
  entries : elf.entries s = .ret n
  libs : ∀ i : BitVec 16, i.toNat < n → ∃ dyn d_tag, elf.entry s i = .ret dyn ∧
    elf.d_tag dyn = .ret d_tag ∧
      match lib i.toNat with
      | none => d_tag ≠ DT_NEEDED
      | some name => d_tag = DT_NEEDED ∧ ∃ sh_offset d_val, elf.sh_offset d = .ret sh_offset ∧
          elf.d_val dyn = .ret d_val ∧
          fileString elf.file (sh_offset + d_val) (elf.file.length + 4096) = some name

/-- The variables of `NeededLibs` after the first `k` entries. -/
def neededAfter (lib : ℕ → Option Bytes) : ℕ → BitVec 16 × List Bytes
  | 0 => (0, [])
  | k + 1 => ((neededAfter lib k).1 + 1, (neededAfter lib k).2 ++ (lib k).toList)

theorem neededAfter_i (lib : ℕ → Option Bytes) (k : ℕ) :
    (neededAfter lib k).1 = BitVec.ofNat 16 k := by
  induction k with
  | zero => rfl
  | succ k ih =>
      rw [BitVec.ofNat_add, ← ih]
      rfl

theorem HasDynamic.counted {elf : ELF} {s d : Word} {n : ℕ} {lib : ℕ → Option Bytes}
    (h : elf.HasDynamic s d n lib) :
    Counted (elf.neededStep s d) Prod.fst (fun _ => false) n (neededAfter lib) where
  numbered := neededAfter_i lib
  stable _ hstop := hstop
  entry k hk hwidth _ := by
    have hi : (neededAfter lib k).1.toNat = k := by
      rw [neededAfter_i, BitVec.toNat_ofNat, Nat.mod_eq_of_lt hwidth]
    obtain ⟨dyn, d_tag, hdyn, htag, hlib⟩ := h.libs (neededAfter lib k).1 (by omega)
    rw [hi] at hlib
    rw [neededStep, h.entries, hdyn]
    simp only [Prog.bind_eq, Prog.pure_eq, Prog.ret_bind, hi, hk, if_true, htag]
    cases hname : lib k with
    | none =>
        rw [hname] at hlib
        simp only [hlib, if_false, neededAfter, hname, Option.toList_none, List.append_nil]
    | some name =>
        rw [hname] at hlib
        obtain ⟨htag, sh_offset, d_val, hoffset, hval, hstring⟩ := hlib
        simp only [htag, if_true, hoffset, hval, Prog.ret_bind, string_eq, hstring, orCrash_some,
          neededAfter, hname, Option.toList_some]
  early _ hstop _ := absurd hstop Bool.false_ne_true
  past b hi := by
    refine ⟨b.2, ?_⟩
    rw [neededStep, h.entries]
    simp only [Prog.bind_eq, Prog.pure_eq, Prog.ret_bind, Nat.not_lt_of_le hi, if_false]
  within b a hi hleave := by
    rw [neededStep, h.entries] at hleave
    simp only [Prog.bind_eq, Prog.pure_eq, Prog.ret_bind, hi, if_true, Prog.bind_eq_ret] at hleave
    obtain ⟨_, -, d_tag, -, hgoes⟩ := hleave
    split_ifs at hgoes
    · simp only [Prog.bind_eq_ret] at hgoes
      obtain ⟨_, -, _, -, _, -, hgoes⟩ := hgoes
      cases hgoes
    · cases hgoes

/-- `NeededLibs` returns, having gone over the `n` entries in order, each once. -/
def ListsInOrder (elf : ELF) (s d : Word) (n : ℕ) : Prop :=
  InOrder (elf.neededStep s d) Prod.fst (fun _ => false) n (0, []) ∧
    ∃ enough libs, ∀ fuel ≥ enough, elf.neededLibs fuel = .ret libs

theorem HasDynamic.listsInOrder_iff {elf : ELF} {s d : Word} {n : ℕ} {lib : ℕ → Option Bytes}
    (h : elf.HasDynamic s d n lib) : elf.ListsInOrder s d n ↔ n < 2 ^ 16 := by
  have hiff := h.counted.inOrder_iff
  simp only [Bool.false_eq_true, or_false] at hiff
  rw [← hiff]
  constructor
  · exact fun hlists => hlists.1
  · rintro hinOrder
    refine ⟨hinOrder, ?_⟩
    obtain ⟨l, c, libs, hl, hleave, -⟩ := hinOrder
    refine ⟨l.length + 1, libs, fun fuel hfuel => ?_⟩
    rw [neededLibs, h.dynamic, h.strings]
    exact hl.forever hleave (Nat.lt_of_succ_le hfuel)

/-- The loops over the tables end, and go over the entries in order, exactly when there
are no more entries than 16 bits can number, or `WalkTable` knows all it wants
from the first `65536`. -/
theorem tables_inOrder_iff (elf : ELF) :
    (∀ (sym str : ℤ) (s d : Word) (n : ℕ) (symbol : ℕ → Bytes × Word) (addrs : PyAddresses),
      elf.HasSymbols sym str s d n symbol →
        (elf.WalksInOrder sym str s d n addrs ↔
          n ≤ 65535 ∨ (knownAfter addrs symbol 65536).done = true)) ∧
    ∀ (s d : Word) (n : ℕ) (lib : ℕ → Option Bytes), elf.HasDynamic s d n lib →
      (elf.ListsInOrder s d n ↔ n ≤ 65535) := by
  constructor
  · intro sym str s d n symbol addrs h
    rw [h.walksInOrder_iff addrs, Nat.lt_iff_add_one_le]
    exact or_congr_left (by omega)
  · intro s d n lib h
    rw [h.listsInOrder_iff]
    omega

/-! ### A file with tables -/

section

variable (elf : ELF)

/-- A field that lies in the file. -/
def fieldAt (offset : Word) (width : ℕ) : Option Word :=
  let bs := (elf.file.drop offset.toNat).take width
  if bs.length = width then some (BitVec.ofNat 64 (ByteMemory.leNat bs)) else none

/-- A string that ends in the file. -/
def stringAt (offset : Word) : Option Bytes :=
  let bs := elf.file.drop offset.toNat
  let name := bs.takeWhile (· ≠ 0)
  if name.length < bs.length then some name else none

variable (s d : Word)

/-- A symbol of the table at `s`, with its name in the strings at `d`. -/
def symbolAt (i : BitVec 16) : Option (Bytes × Word) := do
  let entry := (← elf.fieldAt (s + 24) 8) + i.setWidth 64 * (← elf.fieldAt (s + 56) 8)
  let name ← elf.stringAt ((← elf.fieldAt (d + 24) 8) + (← elf.fieldAt entry 4))
  return (name, ← elf.fieldAt (entry + 8) 8)

/-- The library that an entry of the dynamic section is about, if it is about one. -/
def libAt (i : BitVec 16) : Option (Option Bytes) := do
  let dyn := (← elf.fieldAt (s + 24) 8) + i.setWidth 64 * (← elf.fieldAt (s + 56) 8)
  if (← elf.fieldAt dyn 8) = DT_NEEDED then
    some (← elf.stringAt ((← elf.fieldAt (d + 24) 8) + (← elf.fieldAt (dyn + 8) 8)))
  else
    return none

variable {elf} {s} {d}

section

variable (hfile : elf.file.length < 2 ^ 64)

include hfile

theorem field_of_fieldAt {offset : Word} {width : ℕ} {value : Word}
    (h : elf.fieldAt offset width = some value) : elf.field offset width = .ret value := by
  rw [fieldAt] at h
  split_ifs at h with hlength
  rw [List.length_take, List.length_drop] at hlength
  obtain hwidth | hwidth := Nat.eq_zero_or_pos width
  · subst hwidth
    rw [← Option.some.inj h, List.take_zero]
    rfl
  · rw [field_eq, fileField, fileBytes_eq hfile (by omega), Option.map_some, Option.some.inj h]
    rfl

theorem fileString_of_stringAt {offset : Word} {name : Bytes} (h : elf.stringAt offset = some name)
    {n : ℕ} (hn : elf.file.length ≤ n) : fileString elf.file offset n = some name := by
  rw [stringAt] at h
  split_ifs at h with hlength
  have hname := Option.some.inj h
  have hsplit : _ = elf.file.drop offset.toNat :=
    List.takeWhile_append_dropWhile (p := fun b => decide (b ≠ 0))
  have hnul := List.head?_dropWhile_not (fun b => decide (b ≠ 0)) (elf.file.drop offset.toNat)
  rw [hname] at hlength hsplit
  cases hdrop : (elf.file.drop offset.toNat).dropWhile (fun b => decide (b ≠ 0)) with
  | nil =>
      rw [hdrop, List.append_nil] at hsplit
      exact absurd (hsplit ▸ hlength) (lt_irrefl _)
  | cons b rest =>
      rw [hdrop] at hsplit hnul
      obtain rfl : b = 0 := by simpa using hnul
      rw [List.length_drop] at hlength
      refine fileString_eq hfile hsplit.symm (fun hmem => ?_) (by omega)
      rw [← hname] at hmem
      simpa using List.mem_takeWhile_imp hmem

end

/-- A table that can be evaluated is one. -/
theorem HasSymbols.of_symbolAt {sym str : ℤ} {n : ℕ} {symbol : ℕ → Bytes × Word}
    (h : elf.file.length < 2 ^ 64 ∧ (elf.shdr sym).result? = some s ∧
      (elf.shdr str).result? = some d ∧ (elf.entries s).result? = some n ∧
      ∀ i : Fin n, elf.symbolAt s d (BitVec.ofNat 16 i) = some (symbol i)) :
    elf.HasSymbols sym str s d n symbol where
  table := Prog.eq_ret_of_result h.2.1
  strings := Prog.eq_ret_of_result h.2.2.1
  entries := Prog.eq_ret_of_result h.2.2.2.1
  symbols i hi := by
    obtain ⟨hfile, -, -, -, hsymbols⟩ := h
    have hshows := hsymbols ⟨i.toNat, hi⟩
    rw [BitVec.ofNat_toNat, BitVec.setWidth_eq] at hshows
    simp only [symbolAt, Option.bind_eq_bind, Option.bind_eq_some_iff] at hshows
    obtain ⟨offset, hoffset, entsize, hentsize, strs, hstrs, st_name, hname, name, hstring, st_value,
      hvalue, h⟩ := hshows
    have hsymbol : (name, st_value) = symbol i.toNat := Option.some.inj h
    rw [← hsymbol]
    refine ⟨offset + i.setWidth 64 * entsize, strs, st_name, ?_, field_of_fieldAt hfile hstrs,
      field_of_fieldAt hfile hname, ⟨_, fileString_of_stringAt hfile hstring le_rfl⟩,
      field_of_fieldAt hfile hvalue⟩
    rw [entry, sh_offset, sh_entsize, field_of_fieldAt hfile hoffset,
      field_of_fieldAt hfile hentsize]
    rfl

theorem HasDynamic.of_libAt {n : ℕ} {lib : ℕ → Option Bytes}
    (h : elf.file.length < 2 ^ 64 ∧ (elf.shdr elf.dynamic).result? = some s ∧
      (elf.shdr elf.dynstr).result? = some d ∧ (elf.entries s).result? = some n ∧
      ∀ i : Fin n, elf.libAt s d (BitVec.ofNat 16 i) = some (lib i)) :
    elf.HasDynamic s d n lib where
  dynamic := Prog.eq_ret_of_result h.2.1
  strings := Prog.eq_ret_of_result h.2.2.1
  entries := Prog.eq_ret_of_result h.2.2.2.1
  libs i hi := by
    obtain ⟨hfile, -, -, -, hlibs⟩ := h
    have hshows := hlibs ⟨i.toNat, hi⟩
    rw [BitVec.ofNat_toNat, BitVec.setWidth_eq] at hshows
    simp only [libAt, Option.bind_eq_bind, Option.bind_eq_some_iff] at hshows
    obtain ⟨offset, hoffset, entsize, hentsize, d_tag, htag, hshows⟩ := hshows
    refine ⟨offset + i.setWidth 64 * entsize, d_tag, ?_, field_of_fieldAt hfile htag, ?_⟩
    · rw [entry, sh_offset, sh_entsize, field_of_fieldAt hfile hoffset,
        field_of_fieldAt hfile hentsize]
      rfl
    · split_ifs at hshows with hneeded
      · simp only [Option.bind_eq_some_iff] at hshows
        obtain ⟨strs, hstrs, d_val, hval, name, hstring, h⟩ := hshows
        have hname : some name = lib i.toNat := Option.some.inj h
        rw [← hname]
        exact ⟨hneeded, strs, d_val, field_of_fieldAt hfile hstrs, field_of_fieldAt hfile hval,
          fileString_of_stringAt hfile hstring (Nat.le_add_right _ _)⟩
      · have hnone : none = lib i.toNat := Option.some.inj hshows
        rw [← hnone]
        exact hneeded

end

/-- The header of a file with so many sections, of 64 bits. -/
def fileHeader (shnum shstrndx : ℕ) : Bytes :=
  let le := ByteMemory.leBytes
  List.flatten [ELFMAG, le 12 2, le 24 2, le 8 64, le 10 0, le 2 64, le 2 shnum, le 2 shstrndx]

def sectionHeader (name type offset size entsize : ℕ) : Bytes :=
  let le := ByteMemory.leBytes
  List.flatten [le 4 name, le 4 type, le 16 0, le 8 offset, le 8 size, le 16 0, le 8 entsize]

/-- A file of three sections: its dynamic symbols, which have these names and values, the
dynamic section, which needs these libraries, and their strings. -/
def tableFile (symbols : List (Bytes × Word)) (libs : List Bytes) : Bytes :=
  let le := ByteMemory.leBytes
  let names := symbols.map Prod.fst ++ libs
  let strings (names : List Bytes) := text "\x00.dynstr\x00" ++ names.flatMap (· ++ [0])
  let size := (strings names).length
  List.flatten [fileHeader 4 1, sectionHeader 0 0 0 0 0, sectionHeader 1 3 320 size 0,
    sectionHeader 0 11 (320 + size) (24 * symbols.length) 24,
    sectionHeader 0 6 (320 + size + 24 * symbols.length) (16 * (libs.length + 1)) 16,
    strings names,
    (symbols.mapIdx fun k symbol => List.flatten [le 8 (strings (names.take k)).length,
      le 8 symbol.2.toNat, le 8 0]).flatten,
    (libs.mapIdx fun k _ => le 8 1 ++
      le 8 (strings (names.take (symbols.length + k))).length).flatten, le 16 0]

def tableELF (symbols : List (Bytes × Word)) (libs : List Bytes) : ELF :=
  { file := tableFile symbols libs, dynamic := 3, dynstr := 1, dynsym := 2 }

/-- After the fifth of them everything is known. -/
def pythonSymbols : List (Bytes × Word) :=
  [(text "PyInterpreterState_Head", 0x10), (text "PyBytes_Type", 0x20), (text "interp_head", 0x30),
    (text "_PyCode_GetExtra", 0x40), (text "_PyThreadState_Current", 0x50), (text "Py_Main", 0x60),
    (text "interp_head", 0x70)]

def pythonLibs : List Bytes := [text "libpython3.6m.so.1.0", text "libc.so.6"]

def pythonELF : ELF := tableELF pythonSymbols pythonLibs

theorem pythonELF_parse : ELF.parse { file := tableFile pythonSymbols pythonLibs } = .ret pythonELF :=
  Prog.eq_ret_of_result (by decide +kernel)

theorem pythonELF_symbols :
    pythonELF.HasSymbols 2 1 192 128 7 fun k => pythonSymbols.getD k ([], 0) :=
  .of_symbolAt (by decide +kernel)

theorem pythonELF_dynamic : pythonELF.HasDynamic 256 128 3 fun k => pythonLibs[k]? :=
  .of_libAt (by decide +kernel)

theorem tables_inOrder_pythonELF :
    pythonELF.WalksInOrder 2 1 192 128 7 {} ∧ pythonELF.ListsInOrder 256 128 3 := by
  obtain ⟨hwalks, hlists⟩ := tables_inOrder_iff pythonELF
  constructor
  · exact (hwalks 2 1 192 128 7 _ {} pythonELF_symbols).mpr (.inl (by omega))
  · exact (hlists 256 128 3 _ pythonELF_dynamic).mpr (by omega)

/-! ### One symbol too many -/

/-- The front of a file of three sections: a table of `65536` symbols, of 24 bytes each, its
strings, and a dynamic section without entries. The symbols are right behind it. -/
def manyHeader : Bytes :=
  List.flatten [fileHeader 4 2, sectionHeader 0 0 0 0 0, sectionHeader 0 11 336 1572864 24,
    sectionHeader 1 3 320 9 0, sectionHeader 0 6 336 0 16, text "\x00.dynstr\x00",
    ByteMemory.leBytes 7 0]

/-- A field of the front. -/
def frontField (offset width : ℕ) : Word :=
  BitVec.ofNat 64 (ByteMemory.leNat ((manyHeader.drop offset).take width))

/-- What the front says: of itself, of the symbols, of their strings and of the dynamic section. -/
theorem manyHeader_fields :
    (manyHeader.length = 336 ∧ (manyHeader.drop 320).take 1 = [0] ∧
        (manyHeader.drop 321).take 8 = text ".dynstr" ++ [0]) ∧
      (frontField 40 8 = 64 ∧ frontField 58 2 = 64 ∧ frontField 60 2 = 4 ∧ frontField 62 2 = 2) ∧
      (frontField 132 4 = SHT_DYNSYM ∧ frontField 152 8 = 336 ∧ frontField 160 8 = 1572864 ∧
        frontField 184 8 = 24) ∧
      (frontField 192 4 = 1 ∧ frontField 196 4 = SHT_STRTAB ∧ frontField 216 8 = 320) ∧
      frontField 260 4 = SHT_DYNAMIC := by
  decide +kernel

/-- A file that this is the front of. -/
def Fronted (file : Bytes) : Prop := ∀ (offset : Word) (n : ℕ), offset.toNat + n ≤ 336 →
  fileBytes file offset n = some ((manyHeader.drop offset.toNat).take n)

theorem fronted_append {rest : Bytes} (h : rest.length < 2 ^ 63) : Fronted (manyHeader ++ rest) := by
  intro offset n hn
  have hlen := manyHeader_fields.1.1
  have hfile : (manyHeader ++ rest).length = 336 + rest.length := by rw [List.length_append, hlen]
  rw [fileBytes_eq (by omega) (by omega), List.drop_append_of_le_length (by omega),
    List.take_append_of_le_length (by rw [List.length_drop]; omega)]

section

variable {elf : ELF} (hfront : Fronted elf.file)

include hfront

theorem Fronted.field {offset value : Word} {width : ℕ} (h : offset.toNat + width ≤ 336)
    (hvalue : frontField offset.toNat width = value) : elf.field offset width = .ret value := by
  rw [field_eq, fileField, hfront offset width h, Option.map_some, ← hvalue]
  rfl

theorem Fronted.shdr {i : ℕ} (hi : i < 4) : elf.shdr i = .ret (BitVec.ofNat 64 (64 + 64 * i)) := by
  obtain ⟨-, ⟨hoff, hentsize, -⟩, -⟩ := manyHeader_fields
  have hshoff : elf.e_shoff = .ret 64 := hfront.field (by decide) hoff
  have hshentsize : elf.e_shentsize = .ret 64 := hfront.field (by decide) hentsize
  rw [ELF.shdr, hshoff, hshentsize]
  obtain rfl | rfl | rfl | rfl : i = 0 ∨ i = 1 ∨ i = 2 ∨ i = 3 := by omega
  all_goals rfl

/-- The strings are known by their name. -/
theorem Fronted.strtabName : elf.strtabName 192 = .ret 321 ∧ elf.strcmp 321 ".dynstr" = .ret true := by
  obtain ⟨⟨-, -, htext⟩, ⟨-, -, -, hshstrndx⟩, -, ⟨hname, -, hstrs⟩, -⟩ := manyHeader_fields
  have h : elf.e_shstrndx = .ret 2 := hfront.field (by decide) hshstrndx
  have hoffset : elf.sh_offset 192 = .ret 320 := hfront.field (by decide) hstrs
  have hsh_name : elf.sh_name 192 = .ret 1 := hfront.field (by decide) hname
  constructor
  · rw [ELF.strtabName, h]
    show (elf.shdr (2 : ℕ)).bind _ = _
    rw [hfront.shdr (i := 2) (by decide)]
    show (elf.sh_offset 192).bind _ = _
    rw [hoffset, hsh_name]
    rfl
  · have hbytes : fileBytes elf.file 321 ((text ".dynstr").length + 1) =
        some (text ".dynstr" ++ [0]) := by
      rw [hfront _ _ (by decide)]
      exact congrArg some htext
    rw [strcmp_eq, fileStrcmp_of_bytes hbytes]
    rfl

/-- Each section is known by its type. -/
theorem Fronted.parseSection : elf.parseSection 1 = .ret { elf with dynsym := 1 } ∧
    elf.parseSection 2 = .ret { elf with dynstr := 2 } ∧
    elf.parseSection 3 = .ret { elf with dynamic := 3 } := by
  obtain ⟨-, -, ⟨hdynsym, -⟩, ⟨-, hstrtab, -⟩, hdynamic⟩ := manyHeader_fields
  obtain ⟨hname, hstrcmp⟩ := hfront.strtabName
  have hsymbols : elf.sh_type 128 = .ret SHT_DYNSYM := hfront.field (by decide) hdynsym
  have hstrings : elf.sh_type 192 = .ret SHT_STRTAB := hfront.field (by decide) hstrtab
  have hentries : elf.sh_type 256 = .ret SHT_DYNAMIC := hfront.field (by decide) hdynamic
  refine ⟨?_, ?_, ?_⟩
  · rw [ELF.parseSection, hfront.shdr (i := 1) (by decide)]
    show (elf.sh_type 128).bind _ = _
    rw [hsymbols]
    rfl
  · rw [ELF.parseSection, hfront.shdr (i := 2) (by decide)]
    show (elf.sh_type 192).bind _ = _
    rw [hstrings]
    show (elf.strtabName 192).bind _ = _
    rw [hname]
    show (elf.strcmp 321 ".dynstr").bind _ = _
    rw [hstrcmp]
    rfl
  · rw [ELF.parseSection, hfront.shdr (i := 3) (by decide)]
    show (elf.sh_type 256).bind _ = _
    rw [hentries]
    rfl

end

/-- Such a file is accepted. -/
theorem Fronted.parse {file : Bytes} (hfront : Fronted file) :
    ELF.parse { file } = .ret { file, dynamic := 3, dynsym := 1, dynstr := 2 } := by
  obtain ⟨-, ⟨-, -, hnum, -⟩, -⟩ := manyHeader_fields
  have hshnum : ({ file } : ELF).e_shnum = .ret 4 :=
    @Fronted.field { file } hfront 60 4 2 (by decide) hnum
  have hnumbers : List.range' 1 ((4 : Word).toNat - 1) = [1, 2, 3] := rfl
  have hdynsym := (@Fronted.parseSection { file } hfront).1
  have hdynstr := (@Fronted.parseSection { file, dynsym := 1 } hfront).2.1
  have hdynamic := (@Fronted.parseSection { file, dynsym := 1, dynstr := 2 } hfront).2.2
  have hloop : (List.range' 1 ((4 : Word).toNat - 1)).foldlM ELF.parseSection { file } =
      (.ret { file, dynamic := 3, dynsym := 1, dynstr := 2 } : Tracer ELF) := by
    rw [hnumbers, List.foldlM_cons, hdynsym, Prog.bind_eq, Prog.ret_bind, List.foldlM_cons, hdynstr,
      Prog.bind_eq, Prog.ret_bind, List.foldlM_cons, hdynamic]
    rfl
  rw [ELF.parse, hshnum, Prog.bind_eq, Prog.ret_bind, hloop]
  rfl

/-- The symbols have no name and no value. -/
def manyFile : Bytes := manyHeader ++ List.replicate 1572864 0

def manySymbols : ELF := { file := manyFile, dynamic := 3, dynsym := 1, dynstr := 2 }

theorem manyFile_fronted : Fronted manyFile :=
  fronted_append (by rw [List.length_replicate]; decide)

theorem leNat_replicate_zero (n : ℕ) : ByteMemory.leNat (List.replicate n 0) = 0 := by
  induction n with
  | zero => rfl
  | succ n ih =>
      rw [List.replicate_succ, ByteMemory.leNat, ih]
      rfl

theorem manyFile_zeros {offset : Word} {width : ℕ} (h : 336 ≤ offset.toNat)
    (h' : offset.toNat + width ≤ 1573200) : fileField manyFile offset width = some 0 := by
  have hheader := manyHeader_fields.1.1
  have hlen : manyFile.length = 1573200 := by
    rw [manyFile, List.length_append, hheader, List.length_replicate]
  have hzeros : (manyFile.drop offset.toNat).take width = List.replicate width 0 := by
    rw [manyFile, List.drop_append, List.drop_eq_nil_of_le (by omega), List.nil_append,
      List.drop_replicate, List.take_replicate]
    congr 1
    omega
  rw [fileField, fileBytes_eq (by omega) (by omega), hzeros, Option.map_some, leNat_replicate_zero]
  rfl

/-- Nothing of a symbol is in the front, except for its name. -/
theorem Fronted.hasSymbols {elf : ELF} (hfront : Fronted elf.file)
    (hzeros : ∀ (offset : Word) (width : ℕ), 336 ≤ offset.toNat → offset.toNat + width ≤ 1573200 →
      elf.field offset width = .ret 0) :
    elf.HasSymbols 1 2 128 192 65536 fun _ => ([], 0) := by
  obtain ⟨⟨-, hempty, -⟩, -, ⟨-, hoffset, hsize, hentsize⟩, ⟨-, -, hstrs⟩, -⟩ := manyHeader_fields
  have hsh_offset : elf.sh_offset 128 = .ret 336 := hfront.field (by decide) hoffset
  have hsh_size : elf.sh_size 128 = .ret 1572864 := hfront.field (by decide) hsize
  have hsh_entsize : elf.sh_entsize 128 = .ret 24 := hfront.field (by decide) hentsize
  have hstrings : elf.sh_offset 192 = .ret 320 := hfront.field (by decide) hstrs
  refine ⟨hfront.shdr (i := 1) (by decide), hfront.shdr (i := 2) (by decide), ?_, fun i _ => ?_⟩
  · rw [entries, hsh_entsize, hsh_size]
    rfl
  · have hi := i.isLt
    -- Every index is in the table, since it has as many entries as there are indices.
    have hentry : (336 + i.setWidth 64 * 24 : Word).toNat = 336 + 24 * i.toNat := by
      rw [BitVec.toNat_add, BitVec.toNat_mul, BitVec.toNat_setWidth,
        show (336 : Word).toNat = 336 from rfl, show (24 : Word).toNat = 24 from rfl]
      omega
    have hvalue : (336 + i.setWidth 64 * 24 + 8 : Word).toNat = 344 + 24 * i.toNat := by
      rw [BitVec.toNat_add, hentry, show (8 : Word).toNat = 8 from rfl]
      omega
    have hbytes : fileBytes elf.file (320 + 0) 1 = some [0] := by
      rw [hfront _ _ (by decide)]
      exact congrArg some hempty
    rw [fileBytes_succ, Option.bind_eq_bind, Option.bind_eq_some_iff] at hbytes
    obtain ⟨b, hb, hrest⟩ := hbytes
    obtain rfl : b = 0 := (List.cons.inj (Option.some.inj hrest)).1
    refine ⟨336 + i.setWidth 64 * 24, 320, 0, ?_, hstrings, hzeros _ _ (by omega) (by omega), ⟨1, ?_⟩,
      hzeros _ _ (by omega) (by omega)⟩
    · rw [entry, hsh_offset, hsh_entsize]
      rfl
    · rw [fileString_succ, hb]
      rfl

theorem manySymbols_symbols : manySymbols.HasSymbols 1 2 128 192 65536 fun _ => ([], 0) :=
  Fronted.hasSymbols manyFile_fronted fun _ _ h h' =>
    (field_eq _ _ _).trans (congrArg orCrash (manyFile_zeros h h'))

theorem manySymbols_known (k : ℕ) :
    knownAfter {} (fun _ => ([], 0)) k = { i := BitVec.ofNat 16 k, addrs := {} } := by
  induction k with
  | zero => rfl
  | succ k ih =>
      rw [knownAfter, ih, BitVec.ofNat_add]
      rfl

/-- The table is one symbol too long for the counter. -/
theorem tables_inOrder_manySymbols :
    ELF.parse { file := manyFile } = .ret manySymbols ∧
      manySymbols.HasSymbols 1 2 128 192 65536 (fun _ => ([], 0)) ∧
      ¬ manySymbols.WalksInOrder 1 2 128 192 65536 {} := by
  refine ⟨manyFile_fronted.parse, manySymbols_symbols, fun hwalks => ?_⟩
  have hends := (manySymbols_symbols.walksInOrder_iff {}).mp hwalks
  rw [manySymbols_known] at hends
  revert hends
  decide

end ELF

end Pyflame
