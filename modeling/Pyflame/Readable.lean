import Pyflame.Bounds
import Pyflame.SymbolTable

/-!
Which files `symbol.cc` reads without leaving them.

`Readable` puts the parts together: the headers of the sections, the dynamic
entries with the names of the needed libraries, the symbols that `WalkTable` gets
to with what is compared of their names, and the program headers up to the first
`PT_LOAD`. Entry sizes are divided by, so that they are not zero is a part of it.
-/

namespace Pyflame

open Interaction

namespace Mapping

/-! ### Needed libraries -/

section

variable (file : Bytes)

/-- The number of entries of a section, and where one of them is. -/
def entryCount (s : Word) : ℕ :=
  (shownField file (s + 32) 8).toNat / (shownField file (s + 56) 8).toNat

def entryAt (s : Word) (i : BitVec 16) : Word :=
  shownField file (s + 24) 8 + i.setWidth 64 * shownField file (s + 56) 8

/-- What is read to know the number of entries. -/
structure TableIn (s : Word) : Prop where
  sh_entsize : FieldIn file (s + 56) 8
  nonzero : shownField file (s + 56) 8 ≠ 0
  sh_size : FieldIn file (s + 32) 8

/-- Where the name of a needed library is. -/
def libAt (s d : Word) (i : BitVec 16) : Word :=
  shownField file (d + 24) 8 + shownField file (entryAt file s i + 8) 8

/-- What is read of a needed library. -/
structure LibIn (s d : Word) (i : BitVec 16) : Prop where
  sh_offset : FieldIn file (d + 24) 8
  d_val : FieldIn file (entryAt file s i + 8) 8
  lib : StringIn file (libAt file s d i)

def isNeeded (s : Word) (i : BitVec 16) : Bool := shownField file (entryAt file s i) 8 = DT_NEEDED

/-- What `NeededLibs` reads of an entry. -/
structure DynIn (s d : Word) (i : BitVec 16) : Prop where
  sh_offset : FieldIn file (s + 24) 8
  d_tag : FieldIn file (entryAt file s i) 8
  lib : isNeeded file s i → LibIn file s d i

/-- What `NeededLibs` reads of a section with its strings. The counter has 16 bits. -/
structure NeededIn (s d : Word) : Prop where
  table : TableIn file s
  dyn : ∀ i : BitVec 16, i.toNat < entryCount file s → DynIn file s d i

/-- The libraries that the first `k` passes find. -/
def neededAfter (s d : Word) : ℕ → List Bytes
  | 0 => []
  | k + 1 =>
      let i := BitVec.ofNat 16 k
      let needed := neededAfter s d k
      if isNeeded file s i then needed ++ [shownName file (libAt file s d i)] else needed

end

section

variable {file : Bytes} {elf : ELF}

theorem lastSection_nonneg {kind : ℕ → Bool} (h : lastSection file kind ≠ -1) :
    0 ≤ lastSection file kind := by
  have hor : ∀ (l : List ℕ) (last : ℤ), last = -1 ∨ 0 ≤ last →
      l.foldl (fun (last : ℤ) i => if kind i then i else last) last = -1 ∨
        0 ≤ l.foldl (fun (last : ℤ) i => if kind i then i else last) last := by
    intro l
    induction l with
    | nil => exact fun last h => h
    | cons i l ih =>
        intro last hlast
        apply ih (if kind i then i else last)
        split_ifs
        · exact .inr (Int.natCast_nonneg i)
        · exact hlast
  exact (hor (sectionNumbers file) (-1) (.inl rfl)).resolve_left h

theorem shown_entries {s : Word} (h : shownField file (s + 56) 8 ≠ 0) :
    value (shownByte file) (elf.entries s : Mapped _) = .ok (entryCount file s) := by
  simp only [ELF.entries, ELF.sh_entsize, ELF.sh_size, Prog.bind_eq, Prog.pure_eq,
    value_field_bind, if_neg h, value_ret, entryCount]

theorem shown_entry (s : Word) (i : BitVec 16) :
    value (shownByte file) (elf.entry s i : Mapped _) = .ok (entryAt file s i) := by
  simp only [ELF.entry, ELF.sh_entsize, ELF.sh_offset, Prog.bind_eq, Prog.pure_eq,
    value_field_bind, value_ret, entryAt]

variable (hfile : file.length < 2 ^ 64)

include hfile

theorem within_entries_bind {α : Type} (s : Word) (f : ℕ → Mapped α) :
    Within (shownByte file) (ByteIn file) ((elf.entries s).bind f) ↔
      TableIn file s ∧ Within (shownByte file) (ByteIn file) (f (entryCount file s)) := by
  have hentries :
      Within (shownByte file) (ByteIn file) (elf.entries s : Mapped _) ↔ TableIn file s := by
    simp only [ELF.entries, ELF.sh_entsize, ELF.sh_size, Prog.bind_eq, Prog.pure_eq]
    rw [within_field_bind hfile (by omega)]
    by_cases hzero : shownField file (s + 56) 8 = 0
    · rw [if_pos hzero]
      exact ⟨fun h => h.2.elim, fun h => absurd hzero h.nonzero⟩
    · rw [if_neg hzero, within_field_bind hfile (by omega)]
      exact ⟨fun h => ⟨h.1, hzero, h.2.1⟩, fun h => ⟨h.sh_entsize, h.sh_size, trivial⟩⟩
  by_cases hzero : shownField file (s + 56) 8 = 0
  · constructor
    · intro h
      exact absurd hzero (hentries.mp (within_bind.mp h).1).nonzero
    · exact fun h => absurd hzero h.1.nonzero
  · rw [within_bind_ok (shown_entries hzero), hentries]

theorem within_entry_bind {α : Type} {s : Word} (h : TableIn file s) (i : BitVec 16)
    (f : Word → Mapped α) :
    Within (shownByte file) (ByteIn file) ((elf.entry s i).bind f) ↔
      FieldIn file (s + 24) 8 ∧ Within (shownByte file) (ByteIn file) (f (entryAt file s i)) := by
  rw [within_bind_ok (shown_entry s i)]
  simp only [ELF.entry, ELF.sh_entsize, ELF.sh_offset, Prog.bind_eq, Prog.pure_eq]
  rw [within_field_bind hfile (by omega), within_field_bind hfile (by omega)]
  simp only [within_ret, and_true, h.sh_entsize]

variable (hbound : file.length < elf.file.length + 4096)

include hbound

/-- The name of a library is shorter than the mapping. -/
theorem shown_lib (offset : Word) :
    value (shownByte file) (elf.string offset : Mapped _) = .ok (shownName file offset) := by
  rw [ELF.string]
  generalize elf.file.length + 4096 = bound at hbound ⊢
  exact shown_stringFrom hfile offset (by omega) (by omega)

theorem within_lib_bind {α : Type} (offset : Word) (f : Bytes → Mapped α) :
    Within (shownByte file) (ByteIn file) ((elf.string offset).bind f) ↔
      StringIn file offset ∧
        Within (shownByte file) (ByteIn file) (f (shownName file offset)) := by
  rw [within_bind_ok (shown_lib hfile hbound offset), ELF.string]
  generalize elf.file.length + 4096 = bound at hbound ⊢
  exact and_congr_left' (inside_stringFrom hfile offset (by omega) (by omega))

theorem within_neededStep (s d : Word) (i : BitVec 16) (needed : List Bytes) :
    Within (shownByte file) (ByteIn file) (elf.neededStep s d (i, needed) : Mapped _) ↔
      TableIn file s ∧ (i.toNat < entryCount file s → DynIn file s d i) := by
  simp only [ELF.neededStep, Prog.bind_eq, Prog.pure_eq]
  rw [within_entries_bind hfile]
  apply and_congr_right
  intro htable
  by_cases hi : i.toNat < entryCount file s
  · rw [if_pos hi, within_entry_bind hfile htable, ELF.d_tag, within_field_bind hfile (by omega)]
    by_cases htag : shownField file (entryAt file s i) 8 = DT_NEEDED
    · rw [if_pos htag, ELF.sh_offset, within_field_bind hfile (by omega), ELF.d_val,
        within_field_bind hfile (by omega), ← libAt, within_lib_bind hfile hbound]
      constructor
      · rintro ⟨hsh_offset, hd_tag, hd_offset, hd_val, hlib, -⟩ -
        exact ⟨hsh_offset, hd_tag, fun _ => ⟨hd_offset, hd_val, hlib⟩⟩
      · intro h
        obtain ⟨hsh_offset, hd_tag, hlib⟩ := h hi
        obtain ⟨hd_offset, hd_val, hlib⟩ := hlib (decide_eq_true htag)
        exact ⟨hsh_offset, hd_tag, hd_offset, hd_val, hlib, trivial⟩
    · rw [if_neg htag]
      constructor
      · rintro ⟨hsh_offset, hd_tag, -⟩ -
        exact ⟨hsh_offset, hd_tag, fun heq => absurd (of_decide_eq_true heq) htag⟩
      · exact fun h => ⟨(h hi).sh_offset, (h hi).d_tag, trivial⟩
  · rw [if_neg hi]
    exact ⟨fun _ hlt => absurd hlt hi, fun _ => trivial⟩

theorem passes_needed {s d : Word} (h : TableIn file s) :
    Passes (shownByte file) (elf.neededStep s d : _ → Mapped _)
      (fun k => (BitVec.ofNat 16 k, neededAfter file s d k)) (fun k => k % 2 ^ 16 < entryCount file s)
      (neededAfter file s d) where
  again k hk := by
    have hi : (BitVec.ofNat 16 k).toNat < entryCount file s := hk
    simp only [ELF.neededStep, Prog.bind_eq, Prog.pure_eq]
    rw [value_bind (shown_entries h.nonzero), if_pos hi, value_bind (shown_entry s _), ELF.d_tag,
      value_field_bind, BitVec.ofNat_add]
    by_cases htag : shownField file (entryAt file s (BitVec.ofNat 16 k)) 8 = DT_NEEDED
    · have hneeded : isNeeded file s (BitVec.ofNat 16 k) = true := decide_eq_true htag
      rw [if_pos htag, ELF.sh_offset, value_field_bind, ELF.d_val, value_field_bind, ← libAt,
        value_bind (shown_lib hfile hbound _), neededAfter, if_pos hneeded]
      rfl
    · have hneeded : isNeeded file s (BitVec.ofNat 16 k) ≠ true := fun heq =>
        htag (of_decide_eq_true heq)
      rw [if_neg htag, neededAfter, if_neg hneeded]
      rfl
  leave k hk := by
    have hi : ¬ (BitVec.ofNat 16 k).toNat < entryCount file s := hk
    simp only [ELF.neededStep, Prog.bind_eq, Prog.pure_eq]
    rw [value_bind (shown_entries h.nonzero), if_neg hi]
    rfl

theorem within_needed (s d : Word) :
    (∀ fuel, Within (shownByte file) (ByteIn file)
      (Prog.forever (elf.neededStep s d) fuel (0, []) : Mapped _)) ↔ NeededIn file s d := by
  constructor
  · intro h
    have htable : TableIn file s :=
      ((within_neededStep hfile hbound s d 0 []).mp (within_bind.mp (h 1)).1).1
    refine ⟨htable, fun i hi => ?_⟩
    have hpass := (passes_needed hfile hbound htable).within_forever (i.toNat + 1) |>.mp (h _)
    have hi' := hpass i.toNat (by omega) fun j hj => by
      show j % 2 ^ 16 < _
      have := i.isLt
      omega
    rw [within_neededStep hfile hbound, BitVec.ofNat_toNat, BitVec.setWidth_eq] at hi'
    exact hi'.2 hi
  · intro h fuel
    apply ((passes_needed hfile hbound h.table).within_forever fuel).mpr
    intro k hk hbefore
    apply (within_neededStep hfile hbound s d _ _).mpr
    exact ⟨h.table, h.dyn _⟩

omit hbound in
theorem within_neededLibs (hheader : 62 ≤ file.length) (hsections : HasSections file) :
    (∀ fuel, Within (shownByte file) (ByteIn file) ((sections file).neededLibs fuel : Mapped _)) ↔
      NeededIn file (shdrAt file (sections file).dynamic) (shdrAt file (sections file).dynstr) := by
  have hdynamic : 0 ≤ (sections file).dynamic := lastSection_nonneg hsections.dynamic
  have hdynstr : 0 ≤ (sections file).dynstr := lastSection_nonneg hsections.dynstr
  have hbound : file.length < (sections file).file.length + 4096 := Nat.lt_add_of_pos_right (by omega)
  rw [← within_needed hfile hbound]
  apply forall_congr'
  intro fuel
  simp only [ELF.neededLibs, Prog.bind_eq]
  rw [within_bind_ok (shown_shdr hdynamic), and_iff_right (within_shdr hfile hheader hdynamic),
    within_bind_ok (shown_shdr hdynstr), and_iff_right (within_shdr hfile hheader hdynstr)]

end

/-! ### Symbols -/

section

variable (file : Bytes)

/-- The names of the addresses that have not been found. -/
def missing (w : ELF.Walk) : List String :=
  (if w.addrs.tstate_addr = 0 then ["_PyThreadState_Current"] else []) ++
    if w.addrs.interp_head_addr = 0 then ["interp_head", "PyInterpreterState_Head"] else []

/-- The names that tell the ABI, while it is not known. -/
def tellingABI (w : ELF.Walk) : List String :=
  if w.have_abi then [] else "PyString_Type" :: "PyBytes_Type" :: ELF.py36Symbols

/-- Where the name of a symbol is. -/
def symbolNameAt (s d : Word) (i : BitVec 16) : Word :=
  shownField file (d + 24) 8 + shownField file (entryAt file s i) 4

/-- What `WalkTable` reads of a symbol: a name is compared with the literals that are still
looked for, and has a value to be read if it is that of an address. -/
structure SymbolIn (s d : Word) (w : ELF.Walk) : Prop where
  sh_offset : FieldIn file (s + 24) 8
  strings : FieldIn file (d + 24) 8
  st_name : FieldIn file (entryAt file s w.i) 4
  name : NameIn file (symbolNameAt file s d w.i) (missing w ++ tellingABI w)
  st_value : (∃ lit ∈ missing w, shownName file (symbolNameAt file s d w.i) = text lit) →
    FieldIn file (entryAt file s w.i + 8) 8

/-- The name and the value of a symbol. -/
def symbolAt (s d : Word) (i : ℕ) : Bytes × Word :=
  (shownName file (symbolNameAt file s d (BitVec.ofNat 16 i)),
    shownField file (entryAt file s (BitVec.ofNat 16 i) + 8) 8)

/-- The variables of `WalkTable` before the `k`-th pass. -/
def walkAfter (s d : Word) (addrs : PyAddresses) (k : ℕ) : ELF.Walk :=
  ELF.knownAfter addrs (symbolAt file s d) k

/-- The `k`-th pass looks at a symbol. The counter has 16 bits. -/
def Looks (s d : Word) (addrs : PyAddresses) (k : ℕ) : Prop :=
  k % 2 ^ 16 < entryCount file s ∧ (walkAfter file s d addrs k).done = false

/-- What `WalkTable` reads of a table with its strings. -/
structure WalkIn (s d : Word) (addrs : PyAddresses) : Prop where
  table : TableIn file s
  symbol : ∀ k, (∀ j ≤ k, Looks file s d addrs j) → SymbolIn file s d (walkAfter file s d addrs k)

end

section

variable {file : Bytes} {elf : ELF} (hfile : file.length < 2 ^ 64)

include hfile

omit hfile in
theorem nameIn_cons_iff {offset : Word} {lit : String} {lits : List String}
    (hlits : ∀ lit ∈ lits, 0 ∉ text lit) :
    NameIn file offset (lit :: lits) ↔ ¬ file.drop offset.toNat <+: text lit ∧
      (shownName file offset ≠ text lit → NameIn file offset lits) := by
  rw [nameIn_cons]
  apply and_congr_right
  intro hlit
  by_cases hname : shownName file offset = text lit
  · simp [hname, NameIn.of_name hlit hname hlits]
  · simp [hname]

theorem shown_isOneOf (name : Word) {lits : List String} (hlits : ∀ lit ∈ lits, 0 ∉ text lit) :
    value (shownByte file) (elf.isOneOf name lits : Mapped _) =
      .ok (lits.any (shownName file name = text ·)) := by
  induction lits with
  | nil => rfl
  | cons lit lits ih =>
      obtain ⟨hlit, hlits⟩ := List.forall_mem_cons.mp hlits
      simp only [ELF.isOneOf, Prog.bind_eq, Prog.pure_eq]
      rw [value_strcmp_bind hfile name hlit, ih hlits]
      by_cases hname : shownName file name = text lit <;> simp [hname]

theorem within_isOneOf (name : Word) {lits : List String} (hlits : ∀ lit ∈ lits, 0 ∉ text lit) :
    Within (shownByte file) (ByteIn file) (elf.isOneOf name lits : Mapped _) ↔
      NameIn file name lits := by
  induction lits with
  | nil => simp [ELF.isOneOf, NameIn]
  | cons lit lits ih =>
      obtain ⟨hlit, hlits⟩ := List.forall_mem_cons.mp hlits
      simp only [ELF.isOneOf, Prog.bind_eq, Prog.pure_eq]
      rw [within_strcmp_bind hfile name hlit, ih hlits, nameIn_cons_iff hlits]
      simp only [within_ret, implies_true, true_and]

theorem shown_py36 (name : Word) :
    value (shownByte file) (elf.isOneOf name ELF.py36Symbols : Mapped _) =
      .ok (ELF.py36Symbols.any (shownName file name = text ·)) :=
  shown_isOneOf hfile name (by decide)

theorem shown_walkABI (name : Word) (w : ELF.Walk) :
    value (shownByte file) (elf.walkABI name w : Mapped _) =
      .ok (w.seeABI (shownName file name)) := by
  have hone := @shown_py36 file elf hfile name
  simp only [ELF.walkABI, Prog.bind_eq, Prog.pure_eq, ELF.Walk.seeABI]
  split_ifs with habi hpy26 hpy34 hpy36
  · rfl
  · rw [value_strcmp_bind hfile name (by decide), if_pos hpy26]
    rfl
  · rw [value_strcmp_bind hfile name (by decide), if_neg hpy26,
      value_strcmp_bind hfile name (by decide), if_pos hpy34]
    rfl
  · rw [value_strcmp_bind hfile name (by decide), if_neg hpy26,
      value_strcmp_bind hfile name (by decide), if_neg hpy34, value_bind hone, if_pos hpy36]
    rfl
  · rw [value_strcmp_bind hfile name (by decide), if_neg hpy26,
      value_strcmp_bind hfile name (by decide), if_neg hpy34, value_bind hone, if_neg hpy36]
    rfl

theorem within_walkABI (name : Word) (w : ELF.Walk) :
    Within (shownByte file) (ByteIn file) (elf.walkABI name w : Mapped _) ↔
      NameIn file name (tellingABI w) := by
  have hone := @shown_py36 file elf hfile name
  simp only [ELF.walkABI, Prog.bind_eq, Prog.pure_eq, tellingABI]
  split_ifs with habi
  · simp [NameIn]
  · rw [within_strcmp_bind hfile name (by decide), within_strcmp_bind hfile name (by decide),
      within_bind_ok hone, within_isOneOf hfile name (by decide), nameIn_cons_iff (by decide),
      nameIn_cons_iff (by decide)]
    have hend : Within (shownByte file) (ByteIn file)
        (if ELF.py36Symbols.any (shownName file name = text ·) then
          (.ret { w with have_abi := true, abi := .py36 } : Mapped _) else .ret w) := by
      simp only [within_ite, within_ret, ite_self]
    simp only [within_ret, implies_true, true_and, hend, and_true]

/-- A name that is looked for while its address is missing. -/
theorem value_isMissing_bind {α : Type} (addr name : Word) {lit : String} (hlit : 0 ∉ text lit)
    (p q : Mapped α) :
    value (shownByte file) ((elf.isMissing addr name lit).bind fun b => if b then p else q) =
      if addr = 0 ∧ shownName file name = text lit then value (shownByte file) p
      else value (shownByte file) q := by
  unfold ELF.isMissing
  by_cases haddr : addr = 0
  · rw [if_pos haddr, value_strcmp_bind hfile name hlit]
    simp only [haddr, true_and]
  · rw [if_neg haddr, if_neg fun h => haddr h.1]
    rfl

theorem shown_walkEntry (sym name : Word) (w : ELF.Walk) :
    value (shownByte file) (elf.walkEntry sym name w : Mapped _) =
      .ok (w.see (shownName file name, shownField file (sym + 8) 8)) := by
  simp only [ELF.walkEntry, Prog.bind_eq, Prog.pure_eq, ELF.Walk.see, ELF.st_value]
  rw [value_isMissing_bind hfile _ _ (by decide), value_isMissing_bind hfile _ _ (by decide),
    value_isMissing_bind hfile _ _ (by decide), shown_walkABI hfile]
  simp only [value_field_bind, value_ret]
  split_ifs <;> rfl

/-- One of the names of addresses. After it come the names `lits`, of which those of
`miss` have a value to be read. -/
theorem within_isMissing_bind {addr sym name : Word} {lit : String} {lits miss : List String}
    (hlit : 0 ∉ text lit) (hlits : ∀ lit ∈ lits, 0 ∉ text lit) {f : Word → ELF.Walk}
    {q : Mapped ELF.Walk}
    (hq : Within (shownByte file) (ByteIn file) q ↔ NameIn file name lits ∧
      ((∃ lit ∈ miss, shownName file name = text lit) → FieldIn file (sym + 8) 8)) :
    Within (shownByte file) (ByteIn file) ((elf.isMissing addr name lit).bind fun b =>
        if b then (elf.st_value sym).bind fun value => .ret (f value) else q) ↔
      NameIn file name ((if addr = 0 then [lit] else []) ++ lits) ∧
        ((∃ l ∈ (if addr = 0 then [lit] else []) ++ miss, shownName file name = text l) →
          FieldIn file (sym + 8) 8) := by
  unfold ELF.isMissing
  by_cases haddr : addr = 0
  · rw [if_pos haddr, if_pos haddr, within_strcmp_bind hfile name hlit, ELF.st_value,
      within_field_bind hfile (by omega), hq, List.singleton_append, List.singleton_append,
      nameIn_cons_iff hlits]
    simp only [within_ret, and_true]
    by_cases hname : shownName file name = text lit <;> simp [hname, and_assoc]
  · rw [if_neg haddr, if_neg haddr]
    exact hq

theorem within_walkEntry (sym name : Word) (w : ELF.Walk) :
    Within (shownByte file) (ByteIn file) (elf.walkEntry sym name w : Mapped _) ↔
      NameIn file name (missing w ++ tellingABI w) ∧
        ((∃ lit ∈ missing w, shownName file name = text lit) → FieldIn file (sym + 8) 8) := by
  have hABI : ∀ lit ∈ tellingABI w, 0 ∉ text lit := by
    unfold tellingABI
    split_ifs
    · simp
    · decide
  -- The names that are compared hold no null byte, whichever of them are left out.
  have hfree : ∀ {c : Prop} [Decidable c] {lit : String} {lits : List String}, 0 ∉ text lit →
      (∀ lit ∈ lits, 0 ∉ text lit) → ∀ l ∈ (if c then [lit] else []) ++ lits, 0 ∉ text l := by
    intro c _ lit lits hlit hlits
    split_ifs
    · exact List.forall_mem_cons.mpr ⟨hlit, hlits⟩
    · exact hlits
  -- In the order of the comparisons, so that each of them takes the head of the list.
  have hsplit : missing w = (if w.addrs.tstate_addr = 0 then ["_PyThreadState_Current"] else []) ++
      ((if w.addrs.interp_head_addr = 0 then ["interp_head"] else []) ++
        ((if w.addrs.interp_head_addr = 0 then ["PyInterpreterState_Head"] else []) ++ [])) := by
    unfold missing
    congr 1
    split_ifs <;> rfl
  have hnone : Within (shownByte file) (ByteIn file) (elf.walkABI name w : Mapped _) ↔
      NameIn file name (tellingABI w) ∧
        ((∃ lit ∈ ([] : List String), shownName file name = text lit) →
          FieldIn file (sym + 8) 8) := by
    rw [within_walkABI hfile]
    simp
  simp only [ELF.walkEntry, Prog.bind_eq, Prog.pure_eq]
  rw [hsplit, List.append_assoc, List.append_assoc, List.append_assoc, List.nil_append]
  apply within_isMissing_bind hfile
  · decide
  · exact hfree (by decide) (hfree (by decide) hABI)
  · apply within_isMissing_bind hfile
    · decide
    · exact hfree (by decide) hABI
    · apply within_isMissing_bind hfile
      · decide
      · exact hABI
      · exact hnone

theorem within_walkStep (s d : Word) (w : ELF.Walk) :
    Within (shownByte file) (ByteIn file) (elf.walkStep s d w : Mapped _) ↔
      TableIn file s ∧
        (w.i.toNat < entryCount file s → w.done = false → SymbolIn file s d w) := by
  simp only [ELF.walkStep, Prog.bind_eq, Prog.pure_eq]
  rw [within_entries_bind hfile]
  apply and_congr_right
  intro htable
  by_cases hi : w.i.toNat < entryCount file s
  · by_cases hdone : w.done
    · rw [if_pos hi, if_pos hdone]
      simp [hdone]
    · have hentry := @shown_walkEntry file elf hfile (entryAt file s w.i)
        (symbolNameAt file s d w.i) w
      rw [if_pos hi, if_neg hdone, within_entry_bind hfile htable, ELF.sh_offset,
        within_field_bind hfile (by omega), ELF.st_name, within_field_bind hfile (by omega),
        ← symbolNameAt, within_bind_ok hentry, within_walkEntry hfile]
      constructor
      · rintro ⟨hsh_offset, hstrings, hst_name, ⟨hname, hst_value⟩, -⟩ - -
        exact ⟨hsh_offset, hstrings, hst_name, hname, hst_value⟩
      · intro h
        obtain ⟨hsh_offset, hstrings, hst_name, hname, hst_value⟩ :=
          h hi (Bool.eq_false_of_not_eq_true hdone)
        exact ⟨hsh_offset, hstrings, hst_name, ⟨hname, hst_value⟩, trivial⟩
  · rw [if_neg hi]
    exact ⟨fun _ hlt => absurd hlt hi, fun _ => trivial⟩

omit hfile in
theorem walkAfter_i (s d : Word) (addrs : PyAddresses) (k : ℕ) :
    (walkAfter file s d addrs k).i = BitVec.ofNat 16 k :=
  ELF.knownAfter_i addrs (symbolAt file s d) k

theorem passes_walk {s d : Word} (h : TableIn file s) (addrs : PyAddresses) :
    Passes (shownByte file) (elf.walkStep s d : _ → Mapped _) (walkAfter file s d addrs)
      (Looks file s d addrs) (walkAfter file s d addrs) where
  again k hk := by
    obtain ⟨hi, hdone⟩ := hk
    have hi' : (walkAfter file s d addrs k).i.toNat < entryCount file s := by
      rw [walkAfter_i]
      exact hi
    simp only [ELF.walkStep, Prog.bind_eq, Prog.pure_eq]
    rw [value_bind (shown_entries h.nonzero), if_pos hi', hdone, if_neg Bool.false_ne_true,
      value_bind (shown_entry s _), ELF.sh_offset, value_field_bind, ELF.st_name, value_field_bind,
      ← symbolNameAt, value_bind (shown_walkEntry hfile _ _ _), walkAfter_i, ← symbolAt,
      ELF.Walk.see_i]
    rfl
  leave k hk := by
    simp only [ELF.walkStep, Prog.bind_eq, Prog.pure_eq]
    rw [value_bind (shown_entries h.nonzero)]
    by_cases hi : (walkAfter file s d addrs k).i.toNat < entryCount file s
    · -- Within the count, the loop is left by `break` alone.
      have hdone : (walkAfter file s d addrs k).done = true := by
        by_contra hgo
        rw [walkAfter_i] at hi
        exact hk ⟨hi, Bool.eq_false_of_not_eq_true hgo⟩
      rw [if_pos hi, if_pos hdone]
      rfl
    · rw [if_neg hi]
      rfl

/-- What holds of a table holds of every walk over it. -/
theorem WalkIn.within {s d : Word} {addrs : PyAddresses} (h : WalkIn file s d addrs) (fuel : ℕ) :
    Within (shownByte file) (ByteIn file)
      (Prog.forever (elf.walkStep s d) fuel { addrs } : Mapped _) := by
  apply ((passes_walk hfile h.table addrs).within_forever fuel).mpr
  intro k hk hbefore
  apply (within_walkStep hfile s d _).mpr
  refine ⟨h.table, fun hi hdone => h.symbol k fun j hj => ?_⟩
  rcases Nat.lt_or_eq_of_le hj with hlt | rfl
  · exact hbefore j hlt
  · rw [walkAfter_i] at hi
    exact ⟨hi, hdone⟩

/-- The long walks show everything that is read. -/
theorem WalkIn.of_within {s d : Word} {addrs : PyAddresses} {m : ℕ}
    (h : ∀ fuel, m < fuel → Within (shownByte file) (ByteIn file)
      (Prog.forever (elf.walkStep s d) fuel { addrs } : Mapped _)) : WalkIn file s d addrs := by
  have htable : TableIn file s :=
    ((within_walkStep hfile s d { addrs }).mp (within_bind.mp (h (m + 1) (by omega))).1).1
  refine ⟨htable, fun k hk => ?_⟩
  have hpass := (passes_walk hfile htable addrs).within_forever (m + k + 1) |>.mp (h _ (by omega))
  have hsymbol := hpass k (by omega) fun j hj => hk j (Nat.le_of_lt hj)
  obtain ⟨hi, hdone⟩ := hk k (Nat.le_refl k)
  rw [within_walkStep hfile, walkAfter_i] at hsymbol
  exact hsymbol.2 hi hdone

end

/-! ### The base address -/

section

variable (file : Bytes)

def isLoad (i : ℕ) : Bool := shownField file (phdrAt file i) 4 = PT_LOAD

/-- What `GetBaseAddress` reads of a program header. -/
structure LoadIn (i : ℕ) : Prop where
  p_type : FieldIn file (phdrAt file i) 4
  p_vaddr : isLoad file i → FieldIn file (phdrAt file i + 16) 8

/-- What `GetBaseAddress` reads. Only a shared object is asked for its base. -/
def BaseIn : Prop :=
  shownField file 16 2 = ET_DYN →
    ∀ i : ℕ, i < (shownField file 56 2).toNat → (∀ j < i, isLoad file j = false) → LoadIn file i

end

section

variable {file : Bytes} {elf : ELF} (hfile : file.length < 2 ^ 64) (hheader : 62 ≤ file.length)

include hfile hheader

theorem within_phdr {idx : ℤ} (h : 0 ≤ idx) :
    Within (shownByte file) (ByteIn file) (elf.phdr idx : Mapped _) := by
  have hoff : FieldIn file 32 8 := by
    show 32 + 8 ≤ file.length
    omega
  have hsize : FieldIn file 54 2 := by
    show 54 + 2 ≤ file.length
    omega
  simp only [ELF.phdr, if_neg (Int.not_lt.mpr h), ELF.e_phoff, ELF.e_phentsize, Prog.bind_eq,
    Prog.pure_eq]
  rw [within_field_bind hfile (by omega), within_field_bind hfile (by omega)]
  exact ⟨hoff, hsize, trivial⟩

theorem within_firstLoad (i n : ℕ) :
    Within (shownByte file) (ByteIn file) (elf.firstLoad i n : Mapped _) ↔
      ∀ j, i ≤ j → j < i + n → (∀ l, i ≤ l → l < j → isLoad file l = false) → LoadIn file j := by
  induction n generalizing i with
  | zero =>
      simp only [ELF.firstLoad, Prog.throw_eq, within_raise, true_iff]
      intro j hij hj
      omega
  | succ n ih =>
      have hphdr : value (shownByte file) (elf.phdr i : Mapped _) = .ok (phdrAt file i) :=
        shown_phdr (Int.natCast_nonneg i)
      simp only [ELF.firstLoad, Prog.bind_eq]
      rw [within_bind_ok hphdr, and_iff_right (within_phdr hfile hheader (Int.natCast_nonneg i)),
        ELF.p_type, within_field_bind hfile (by omega)]
      by_cases hload : shownField file (phdrAt file i) 4 = PT_LOAD
      · rw [if_neg (not_not_intro hload), ELF.p_vaddr, inside_field hfile _ (by omega)]
        constructor
        · rintro ⟨hp_type, hp_vaddr⟩ j hij hj hbefore
          -- Nothing past the first loadable segment is asked for.
          rcases Nat.lt_or_eq_of_le hij with hlt | rfl
          · exact absurd (hbefore i (Nat.le_refl i) hlt) (by simp [isLoad, hload])
          · exact ⟨hp_type, fun _ => hp_vaddr⟩
        · intro h
          have hi := h i (Nat.le_refl i) (by omega) fun l hil hli => by omega
          exact ⟨hi.p_type, hi.p_vaddr (decide_eq_true hload)⟩
      · have hnot : isLoad file i = false := decide_eq_false hload
        rw [if_pos hload, ih (i + 1)]
        constructor
        · rintro ⟨hp_type, hrest⟩ j hij hj hbefore
          rcases Nat.lt_or_eq_of_le hij with hlt | rfl
          · exact hrest j hlt (by omega) fun l hil hlj => hbefore l (by omega) hlj
          · exact ⟨hp_type, fun h => absurd h (by simp [hnot])⟩
        · intro h
          refine ⟨(h i (Nat.le_refl i) (by omega) fun l hil hli => by omega).p_type, ?_⟩
          -- Segment `i` is not loadable, so none before `j` is, counted from `i`.
          intro j hij hj hbefore
          apply h j (by omega) (by omega)
          intro l hil hlj
          rcases Nat.lt_or_eq_of_le hil with hlt | rfl
          · exact hbefore l hlt hlj
          · exact hnot

end

/-! ### Addresses -/

section

variable (file : Bytes)

/-- `WalkTable` ends with the `k`-th pass. -/
def Leaves (s d : Word) (addrs : PyAddresses) (k : ℕ) : Prop :=
  (∀ j < k, Looks file s d addrs j) ∧ ¬ Looks file s d addrs k

/-- The headers of the sections that `GetAddresses` walks over. -/
def dynsymAt : Word := shdrAt file (sections file).dynsym
def dynstrAt : Word := shdrAt file (sections file).dynstr
def symtabAt : Word := shdrAt file (sections file).symtab
def strtabAt : Word := shdrAt file (sections file).strtab

/-- There is a second table. -/
def HasSymtab : Prop := 0 ≤ (sections file).symtab ∧ 0 ≤ (sections file).strtab

/-- What is known after `k` dynamic symbols. -/
def dynamicAfter (k : ℕ) : PyAddresses := (walkAfter file (dynsymAt file) (dynstrAt file) {} k).addrs

/-- What `GetAddresses` reads. It goes on to the second table, and then to the base, only
if the walk before ends. -/
structure AddressesIn : Prop where
  dynsym : WalkIn file (dynsymAt file) (dynstrAt file) {}
  symtab : HasSymtab file → ∀ k, Leaves file (dynsymAt file) (dynstrAt file) {} k →
    WalkIn file (symtabAt file) (strtabAt file) (dynamicAfter file k)
  base : ∀ k, Leaves file (dynsymAt file) (dynstrAt file) {} k →
    (HasSymtab file → ∃ l, Leaves file (symtabAt file) (strtabAt file) (dynamicAfter file k) l) →
      BaseIn file

end

section

variable {file : Bytes} {elf : ELF} (hfile : file.length < 2 ^ 64) (hheader : 62 ≤ file.length)

include hfile

theorem shown_walkTable {sym str : ℤ} (hsym : 0 ≤ sym) (hstr : 0 ≤ str)
    (htable : TableIn file (shdrAt file sym)) (fuel : ℕ) (addrs : PyAddresses)
    (r : PyABI × PyAddresses) :
    value (shownByte file) (elf.walkTable fuel sym str addrs : Mapped _) = .ok r ↔
      ∃ k < fuel, Leaves file (shdrAt file sym) (shdrAt file str) addrs k ∧
        ((walkAfter file (shdrAt file sym) (shdrAt file str) addrs k).abi,
          (walkAfter file (shdrAt file sym) (shdrAt file str) addrs k).addrs) = r := by
  have hpasses := @passes_walk file elf hfile _ (shdrAt file str) htable addrs
  simp only [ELF.walkTable, Prog.bind_eq, Prog.pure_eq]
  rw [value_bind (shown_shdr hsym), value_bind (shown_shdr hstr), value_bind_eq_ok]
  constructor
  · rintro ⟨w, hw, hr⟩
    obtain ⟨k, hk, hbefore, hleave, rfl⟩ := (hpasses.value_forever fuel w).mp hw
    exact ⟨k, hk, ⟨hbefore, hleave⟩, Outcome.ok.inj hr⟩
  · rintro ⟨k, hk, hleaves, hr⟩
    have hw := (hpasses.value_forever fuel _).mpr ⟨k, hk, hleaves.1, hleaves.2, rfl⟩
    exact ⟨_, hw, congrArg Outcome.ok hr⟩

include hheader

theorem within_walkTable {sym str : ℤ} (hsym : 0 ≤ sym) (hstr : 0 ≤ str) (fuel : ℕ)
    (addrs : PyAddresses) :
    Within (shownByte file) (ByteIn file) (elf.walkTable fuel sym str addrs : Mapped _) ↔
      Within (shownByte file) (ByteIn file)
        (Prog.forever (elf.walkStep (shdrAt file sym) (shdrAt file str)) fuel { addrs } :
          Mapped _) := by
  simp only [ELF.walkTable, Prog.bind_eq, Prog.pure_eq]
  rw [within_bind_ok (shown_shdr hsym), and_iff_right (within_shdr hfile hheader hsym),
    within_bind_ok (shown_shdr hstr), and_iff_right (within_shdr hfile hheader hstr), within_bind]
  exact and_iff_left fun _ _ => trivial

theorem within_base :
    Within (shownByte file) (ByteIn file) (elf.getBaseAddress : Mapped _) ↔
      ∀ i : ℕ, i < (shownField file 56 2).toNat → (∀ j < i, isLoad file j = false) →
        LoadIn file i := by
  have hphnum : FieldIn file 56 2 := by
    show 56 + 2 ≤ file.length
    omega
  simp only [ELF.getBaseAddress, Prog.bind_eq, ELF.e_phnum]
  rw [within_field_bind hfile (by omega), and_iff_right hphnum, within_firstLoad hfile hheader]
  simp

/-- The part of `GetAddresses` after the tables. -/
theorem within_finish (detected_abi : PyABI) (addrs : PyAddresses) :
    Within (shownByte file) (ByteIn file) (elf.e_type.bind fun e_type =>
        if e_type = ET_DYN then elf.getBaseAddress.bind fun base =>
          (.ret (detected_abi, PyAddresses.sub { addrs with pie := e_type = ET_DYN } base) : Mapped _)
        else .ret (detected_abi, { addrs with pie := e_type = ET_DYN })) ↔ BaseIn file := by
  have htype : FieldIn file 16 2 := by
    show 16 + 2 ≤ file.length
    omega
  rw [ELF.e_type, within_field_bind hfile (by omega), and_iff_right htype]
  by_cases hdyn : shownField file 16 2 = ET_DYN
  · rw [if_pos hdyn, within_bind, within_base hfile hheader]
    constructor
    · exact fun h _ => h.1
    · exact fun h => ⟨h hdyn, fun _ _ => trivial⟩
  · rw [if_neg hdyn]
    exact ⟨fun _ h => absurd h hdyn, fun _ => trivial⟩

omit hheader in
/-- The first walk ends with the `k`-th symbol. -/
theorem shown_dynamic (hsections : HasSections file) (htable : TableIn file (dynsymAt file))
    (fuel : ℕ) (r : PyABI × PyAddresses) :
    value (shownByte file) ((sections file).walkTable fuel (sections file).dynsym
        (sections file).dynstr {} : Mapped _) = .ok r ↔
      ∃ k < fuel, Leaves file (dynsymAt file) (dynstrAt file) {} k ∧
        ((walkAfter file (dynsymAt file) (dynstrAt file) {} k).abi, dynamicAfter file k) = r :=
  shown_walkTable hfile (lastSection_nonneg hsections.dynsym) (lastSection_nonneg hsections.dynstr)
    htable fuel {} r

/-- What is read after the first walk. -/
theorem within_symbols (hsections : HasSections file) (htable : TableIn file (dynsymAt file))
    {fuel k : ℕ} (hk : k < fuel) (hleaves : Leaves file (dynsymAt file) (dynstrAt file) {} k) :
    Within (shownByte file) (ByteIn file) ((sections file).symbols fuel : Mapped _) ↔
      Within (shownByte file) (ByteIn file)
        (Prog.forever ((sections file).walkStep (dynsymAt file) (dynstrAt file)) fuel
          { addrs := {} } : Mapped _) ∧
      (HasSymtab file → Within (shownByte file) (ByteIn file)
        (Prog.forever ((sections file).walkStep (symtabAt file) (strtabAt file)) fuel
          { addrs := dynamicAfter file k } : Mapped _)) := by
  have hdynsym : 0 ≤ (sections file).dynsym := lastSection_nonneg hsections.dynsym
  have hdynstr : 0 ≤ (sections file).dynstr := lastSection_nonneg hsections.dynstr
  have hfirst := (shown_dynamic hfile hsections htable fuel _).mpr ⟨k, hk, hleaves, rfl⟩
  simp only [ELF.symbols, Prog.bind_eq, Prog.pure_eq]
  rw [within_bind_ok hfirst, within_walkTable hfile hheader hdynsym hdynstr]
  apply and_congr_right
  intro _
  by_cases hsymtab : HasSymtab file
  · have hboth : 0 ≤ (sections file).symtab ∧ 0 ≤ (sections file).strtab := hsymtab
    simp only [if_pos hboth, hsymtab, true_implies]
    exact within_walkTable hfile hheader hboth.1 hboth.2 fuel (dynamicAfter file k)
  · have hnot : ¬ (0 ≤ (sections file).symtab ∧ 0 ≤ (sections file).strtab) := hsymtab
    simp only [if_neg hnot, hsymtab, false_implies, within_ret]

omit hheader in
/-- Both walks end. -/
theorem shown_symbols (hsections : HasSections file) (htable : TableIn file (dynsymAt file))
    {fuel k : ℕ} (hk : k < fuel) (hleaves : Leaves file (dynsymAt file) (dynstrAt file) {} k)
    (htable' : HasSymtab file → TableIn file (symtabAt file)) :
    (∃ r, value (shownByte file) ((sections file).symbols fuel : Mapped _) = .ok r) ↔
      (HasSymtab file → ∃ l < fuel,
        Leaves file (symtabAt file) (strtabAt file) (dynamicAfter file k) l) := by
  have hfirst := (shown_dynamic hfile hsections htable fuel _).mpr ⟨k, hk, hleaves, rfl⟩
  simp only [ELF.symbols, Prog.bind_eq, Prog.pure_eq]
  rw [value_bind hfirst]
  by_cases hsymtab : HasSymtab file
  · have hboth : 0 ≤ (sections file).symtab ∧ 0 ≤ (sections file).strtab := hsymtab
    simp only [if_pos hboth, hsymtab, true_implies]
    constructor
    · rintro ⟨r, hr⟩
      obtain ⟨l, hl, hleaves', -⟩ :=
        (shown_walkTable hfile hboth.1 hboth.2 (htable' hsymtab) fuel _ r).mp hr
      exact ⟨l, hl, hleaves'⟩
    · rintro ⟨l, hl, hleaves'⟩
      exact ⟨_, (shown_walkTable hfile hboth.1 hboth.2 (htable' hsymtab) fuel _ _).mpr
        ⟨l, hl, hleaves', rfl⟩⟩
  · have hnot : ¬ (0 ≤ (sections file).symtab ∧ 0 ≤ (sections file).strtab) := hsymtab
    simp only [if_neg hnot, hsymtab, false_implies, iff_true]
    exact ⟨_, rfl⟩

theorem within_getAddresses_iff (fuel : ℕ) :
    Within (shownByte file) (ByteIn file) ((sections file).getAddresses fuel : Mapped _) ↔
      Within (shownByte file) (ByteIn file) ((sections file).symbols fuel : Mapped _) ∧
        ((∃ r, value (shownByte file) ((sections file).symbols fuel : Mapped _) = .ok r) →
          BaseIn file) := by
  simp only [ELF.getAddresses, Prog.bind_eq, Prog.pure_eq]
  rw [within_bind]
  apply and_congr_right
  intro _
  constructor
  · rintro h ⟨⟨detected_abi, addrs⟩, hr⟩
    exact (within_finish hfile hheader detected_abi addrs).mp (h _ hr)
  · rintro h ⟨detected_abi, addrs⟩ hr
    exact (within_finish hfile hheader detected_abi addrs).mpr (h ⟨_, hr⟩)

theorem within_getAddresses (hsections : HasSections file) :
    (∀ fuel, Within (shownByte file) (ByteIn file) ((sections file).getAddresses fuel : Mapped _)) ↔
      AddressesIn file := by
  have hdynsym : 0 ≤ (sections file).dynsym := lastSection_nonneg hsections.dynsym
  have hdynstr : 0 ≤ (sections file).dynstr := lastSection_nonneg hsections.dynstr
  constructor
  · intro h
    -- Each table is read with every fuel, so its walk stays inside however long it goes on.
    have hfirst : WalkIn file (dynsymAt file) (dynstrAt file) {} := by
      apply WalkIn.of_within hfile (m := 0)
      intro fuel _
      have hsymbols := ((within_getAddresses_iff hfile hheader fuel).mp (h fuel)).1
      simp only [ELF.symbols, Prog.bind_eq] at hsymbols
      exact (within_walkTable hfile hheader hdynsym hdynstr fuel {}).mp (within_bind.mp hsymbols).1
    have hsecond : HasSymtab file → ∀ k, Leaves file (dynsymAt file) (dynstrAt file) {} k →
        WalkIn file (symtabAt file) (strtabAt file) (dynamicAfter file k) := by
      intro hsymtab k hk
      apply WalkIn.of_within hfile (m := k)
      intro fuel hfuel
      have hsymbols := ((within_getAddresses_iff hfile hheader fuel).mp (h fuel)).1
      exact ((within_symbols hfile hheader hsections hfirst.table hfuel hk).mp hsymbols).2 hsymtab
    refine ⟨hfirst, hsecond, fun k hk hends => ?_⟩
    have htable : HasSymtab file → TableIn file (symtabAt file) := fun hsymtab =>
      (hsecond hsymtab k hk).table
    -- The base address is read once both walks have ended: take the fuel with which they do.
    obtain ⟨fuel, hfuel, hboth⟩ : ∃ fuel > k, HasSymtab file → ∃ l < fuel,
        Leaves file (symtabAt file) (strtabAt file) (dynamicAfter file k) l := by
      by_cases hsymtab : HasSymtab file
      · obtain ⟨l, hl⟩ := hends hsymtab
        exact ⟨k + l + 1, by omega, fun _ => ⟨l, by omega, hl⟩⟩
      · exact ⟨k + 1, by omega, fun h => absurd h hsymtab⟩
    apply ((within_getAddresses_iff hfile hheader fuel).mp (h fuel)).2
    exact (shown_symbols hfile hsections hfirst.table hfuel hk htable).mpr hboth
  · intro h fuel
    -- With too little fuel a walk is cut off, and there is nothing past it to read.
    have hends : ∀ r,
        value (shownByte file) ((sections file).walkTable fuel (sections file).dynsym
            (sections file).dynstr {} : Mapped _) =
          .ok r → ∃ k < fuel, Leaves file (dynsymAt file) (dynstrAt file) {} k := by
      intro r hr
      obtain ⟨k, hk, hleaves, -⟩ := (shown_dynamic hfile hsections h.dynsym.table fuel r).mp hr
      exact ⟨k, hk, hleaves⟩
    have hsymbols :
        Within (shownByte file) (ByteIn file) ((sections file).symbols fuel : Mapped _) := by
      have hfirst := @WalkIn.within file (sections file) hfile _ _ _ h.dynsym fuel
      apply within_bind.mpr
      refine ⟨(within_walkTable hfile hheader hdynsym hdynstr fuel {}).mpr hfirst, fun r hr => ?_⟩
      obtain ⟨k, hk, hleaves⟩ := hends r hr
      have hall := (within_symbols hfile hheader hsections h.dynsym.table hk hleaves).mpr
        ⟨hfirst, fun hsymtab => (h.symtab hsymtab k hleaves).within hfile fuel⟩
      exact (within_bind.mp hall).2 r hr
    apply (within_getAddresses_iff hfile hheader fuel).mpr
    refine ⟨hsymbols, ?_⟩
    rintro ⟨r, hr⟩
    obtain ⟨r', hr', -⟩ := value_bind_eq_ok.mp hr
    obtain ⟨k, hk, hleaves⟩ := hends r' hr'
    have hboth := (shown_symbols hfile hsections h.dynsym.table hk hleaves fun hsymtab =>
      (h.symtab hsymtab k hleaves).table).mp ⟨r, hr⟩
    apply h.base k hleaves
    intro hsymtab
    obtain ⟨l, -, hl⟩ := hboth hsymtab
    exact ⟨l, hl⟩

end

/-! ### The whole file -/

/-- What is done with a file that has been mapped: `Open` checks it, `Parse` finds the
sections, and then something is read from them. -/
def opened {α : Type} (file target : Bytes) (f : ELF → Mapped α) : Mapped α := do
  ELF.check { file } target
  let elf ← ELF.parse { file }
  f elf

/-- Every byte that is read lies in the file, and nothing is divided by zero. -/
def StaysInside {α : Type} (file : Bytes) (p : Mapped α) : Prop :=
  (∀ x ∈ trace (answer (shownByte file)) p (), x.req.toNat < file.length) ∧
    (run (answer (shownByte file)) p ()).1 ≠ .abort

/-- What `Open` would have to check. -/
structure Readable (file : Bytes) : Prop where
  header : 62 ≤ file.length
  headers : ∀ i ∈ sectionNumbers file, SectionIn file i
  needed : HasSections file →
    NeededIn file (shdrAt file (sections file).dynamic) (dynstrAt file)
  addresses : HasSections file → AddressesIn file

section

variable {file target : Bytes}

theorem staysInside_iff {α : Type} {p : Mapped α} :
    StaysInside file p ↔ Within (shownByte file) (ByteIn file) p := by
  rw [within_iff]
  exact Iff.rfl

/-- A byte of the file is what `fileByte` finds. -/
theorem orCrash_fileByte {offset : Word} (h : ByteIn file offset) :
    orCrash (fileByte file offset) = .ret (shownByte file offset) := by
  have hlt : offset.toNat < file.length := h
  rw [fileByte, if_pos (by omega)]
  rfl

/-- Where only the file is read, `ELF` does what the bytes say. -/
theorem on_of_within {α : Type} {p : Mapped α} (h : Within (shownByte file) (ByteIn file) p) :
    Mapped.on file p = (value (shownByte file) p).prog :=
  inline_of_within (fun _ => orCrash_fileByte) h

/-- The class of a file is in the file, since it is not zero. -/
theorem length_of_check (h : ({ file } : ELF).check target = .ret ()) : 5 ≤ file.length := by
  have hzero : file.length < 5 → ∀ b, fileByte file 4 = some b → b = 0 := by
    intro hshort b hb
    rw [fileByte] at hb
    split_ifs at hb
    obtain rfl := Option.some.inj hb
    have hbehind : file.length ≤ (4 : Word).toNat := by
      show file.length ≤ 4
      omega
    exact shownByte_of_le hbehind
  simp only [ELF.check, Prog.bind_eq, Prog.pure_eq, Prog.throw_eq] at h
  obtain ⟨magic, -, h⟩ := Prog.bind_eq_ret.mp h
  by_cases hmagic : magic = ELFMAG
  · rw [if_neg (not_not_intro hmagic)] at h
    obtain ⟨elf_class, hfield, h⟩ := Prog.bind_eq_ret.mp h
    by_cases hclass : elf_class = ELFCLASS64
    · by_contra hshort
      rw [ELF.field_eq, fileField, fileBytes_succ] at hfield
      cases hbyte : fileByte file 4 with
      | none =>
          rw [hbyte] at hfield
          cases hfield
      | some b =>
          rw [hbyte, hzero (by omega) b hbyte] at hfield
          obtain rfl : (0 : Word) = elf_class := Prog.ret.inj hfield
          exact absurd hclass (by decide)
    · rw [if_pos hclass] at h
      cases h
  · rw [if_pos hmagic] at h
    cases h

theorem within_check (hfile : file.length < 2 ^ 64)
    (h : ({ file } : ELF).check target = .ret ()) :
    Within (shownByte file) (ByteIn file) (ELF.check { file } target : Mapped _) ∧
      value (shownByte file) (ELF.check { file } target : Mapped _) = .ok () := by
  have hlength := length_of_check h
  have hmagic : FieldIn file 0 4 := by
    show 0 + 4 ≤ file.length
    omega
  have hclass : FieldIn file 4 1 := by
    show 4 + 1 ≤ file.length
    omega
  have hwithin : Within (shownByte file) (ByteIn file) (ELF.check { file } target : Mapped _) := by
    simp only [ELF.check, Prog.bind_eq, Prog.pure_eq, Prog.throw_eq]
    have hbytes : value (shownByte file) (ELF.bytes { file } 0 4 : Mapped _) =
        .ok (shownBytes file 0 4) := shown_bytes 0 4
    refine (within_bind_ok hbytes _).mpr ⟨(inside_bytes hfile 0 3).mpr hmagic, ?_⟩
    split_ifs
    · trivial
    · rw [within_field_bind hfile (by omega), and_iff_right hclass]
      split_ifs <;> trivial
  have hon : Mapped.on file (ELF.check { file } target) = .ret () := (check_on { file } target).trans h
  rw [on_of_within hwithin] at hon
  exact ⟨hwithin, Outcome.eq_ok_of_prog hon⟩

/-- Whatever is done with an admitted file, it is parsed first. -/
theorem within_opened (hfile : file.length < 2 ^ 64)
    (hopen : ({ file } : ELF).check target = .ret ()) {α : Type} (f : ELF → Mapped α) :
    Within (shownByte file) (ByteIn file) (opened file target f) ↔
      (62 ≤ file.length ∧ ∀ i ∈ sectionNumbers file, SectionIn file i) ∧
        (HasSections file → Within (shownByte file) (ByteIn file) (f (sections file))) := by
  obtain ⟨hcheck, hreturns⟩ := within_check hfile hopen
  simp only [opened, Prog.bind_eq]
  rw [within_bind_ok hreturns, and_iff_right hcheck, within_bind, within_parse hfile]
  apply and_congr_right
  intro _
  constructor
  · exact fun h hsections => h _ ((shown_parse hfile _).mpr ⟨hsections, rfl⟩)
  · intro h elf helf
    obtain ⟨hsections, rfl⟩ := (shown_parse hfile elf).mp helf
    exact h hsections

/-- **Which files that `Open` admits are read without leaving them.** -/
theorem reads_inside_iff (hfile : file.length < 2 ^ 64)
    (hopen : ({ file } : ELF).check target = .ret ()) :
    (∀ fuel, StaysInside file (opened file target fun elf => elf.neededLibs fuel) ∧
      StaysInside file (opened file target fun elf => elf.getAddresses fuel)) ↔ Readable file := by
  simp only [staysInside_iff, within_opened hfile hopen]
  constructor
  · intro h
    obtain ⟨hheader, hsections⟩ := (h 0).1.1
    refine ⟨hheader, hsections, fun hfound => ?_, fun hfound => ?_⟩
    · exact (within_neededLibs hfile hheader hfound).mp fun fuel => (h fuel).1.2 hfound
    · exact (within_getAddresses hfile hheader hfound).mp fun fuel => (h fuel).2.2 hfound
  · rintro ⟨hheader, hsections, hneeded, haddresses⟩ fuel
    refine ⟨⟨⟨hheader, hsections⟩, fun hfound => ?_⟩, ⟨hheader, hsections⟩, fun hfound => ?_⟩
    · exact (within_neededLibs hfile hheader hfound).mpr (hneeded hfound) fuel
    · exact (within_getAddresses hfile hheader hfound).mpr (haddresses hfound) fuel

theorem on_ne_abort {α : Type} {p : Mapped α} (h : Within (shownByte file) (ByteIn file) p) :
    Mapped.on file p ≠ .abort := by
  rw [on_of_within h]
  have hvalue := (within_iff.mp h).2
  cases hv : value (shownByte file) p with
  | abort => exact absurd hv hvalue
  | ok | error | cut => nofun

/-- A file that can be read does not end the program. -/
theorem Readable.no_crash (h : Readable file) (hfile : file.length < 2 ^ 64) :
    ({ file } : ELF).parse ≠ .abort ∧
      ∀ elf, ({ file } : ELF).parse = .ret elf →
        ∀ fuel, elf.neededLibs fuel ≠ .abort ∧ elf.getAddresses fuel ≠ .abort := by
  have hparse := (within_parse hfile).mpr ⟨h.header, h.headers⟩
  have hon : Mapped.on file (ELF.parse { file }) = ({ file } : ELF).parse := parse_on { file }
  refine ⟨hon ▸ on_ne_abort hparse, fun elf helf fuel => ?_⟩
  rw [← hon, on_of_within hparse] at helf
  obtain ⟨hfound, rfl⟩ := (shown_parse hfile elf).mp (Outcome.eq_ok_of_prog helf)
  rw [← neededLibs_on, ← getAddresses_on]
  constructor
  · exact on_ne_abort ((within_neededLibs hfile h.header hfound).mpr (h.needed hfound) fuel)
  · exact on_ne_abort ((within_getAddresses hfile h.header hfound).mpr (h.addresses hfound) fuel)

end

/-! ### Two files -/

theorem smallFile_dynamic :
    shdrAt (smallFile 5 6) (sections (smallFile 5 6)).dynamic = 368 := by decide +kernel

theorem smallFile_dynsym : dynsymAt (smallFile 5 6) = 304 := by decide +kernel

theorem smallFile_dynstr : dynstrAt (smallFile 5 6) = 240 := by decide +kernel

theorem smallFile_symtab : ¬ HasSymtab (smallFile 5 6) := fun h => absurd h.1 (by decide +kernel)

theorem smallFile_readable : Readable (smallFile 5 6) where
  header := by decide +kernel
  headers := by
    have hnumbers : sectionNumbers (smallFile 5 6) = [1, 2, 3] := by decide +kernel
    intro i hi
    rw [hnumbers] at hi
    obtain rfl | rfl | rfl : i = 1 ∨ i = 2 ∨ i = 3 := by simpa using hi
    · exact ⟨by decide +kernel, fun _ =>
        ⟨by decide +kernel, by decide +kernel, by decide +kernel, by decide +kernel⟩⟩
    · exact ⟨by decide +kernel, fun h => absurd h (by decide +kernel)⟩
    · exact ⟨by decide +kernel, fun h => absurd h (by decide +kernel)⟩
  needed _ := by
    rw [smallFile_dynamic, smallFile_dynstr]
    have hnone : entryCount (smallFile 5 6) 368 = 0 := by decide +kernel
    refine ⟨⟨by decide +kernel, by decide +kernel, by decide +kernel⟩, fun i hi => ?_⟩
    omega
  addresses _ := by
    have hone : entryCount (smallFile 5 6) 304 = 1 := by decide +kernel
    refine ⟨?_, fun hsymtab => absurd hsymtab smallFile_symtab, ?_⟩
    · rw [smallFile_dynsym, smallFile_dynstr]
      refine ⟨⟨by decide +kernel, by decide +kernel, by decide +kernel⟩, fun k hk => ?_⟩
      have hlast := (hk k (Nat.le_refl k)).1
      have hsecond : ¬ 1 ≤ k := fun h => by
        have := (hk 1 h).1
        omega
      obtain rfl : k = 0 := by omega
      exact ⟨by decide +kernel, by decide +kernel, by decide +kernel, by decide +kernel,
        fun _ => by decide +kernel⟩
    · intro k _ _ _ i hi hbefore
      cases i with
      | zero => exact ⟨by decide +kernel, fun _ => by decide +kernel⟩
      | succ i => exact absurd (hbefore 0 (by omega)) (by decide +kernel)

/-- A small library is read without leaving it. -/
theorem reads_inside_smallFile : Readable (smallFile 5 6) ∧
    ((∀ fuel,
      StaysInside (smallFile 5 6) (opened (smallFile 5 6) [] fun elf => elf.neededLibs fuel) ∧
        StaysInside (smallFile 5 6) (opened (smallFile 5 6) [] fun elf => elf.getAddresses fuel)) ↔
      Readable (smallFile 5 6)) :=
  ⟨smallFile_readable,
    reads_inside_iff (by decide +kernel) (Prog.eq_ret_of_result (by decide +kernel))⟩

/-- A file that is a header with nothing behind it. The headers of its two sections are said
to be a terabyte away. -/
def strayFile : Bytes :=
  let le := ByteMemory.leBytes
  ELFMAG ++ le 12 2 ++ le 24 0 ++ le 8 (2 ^ 40) ++ le 10 0 ++ le 2 64 ++ le 2 2 ++ le 2 0

/-- `Open` admits it, `Parse` reads behind its end, and no exception says so. -/
theorem reads_not_inside : ({ file := strayFile } : ELF).check [] = .ret () ∧
    (∀ fuel, ¬ StaysInside strayFile (opened strayFile [] fun elf => elf.neededLibs fuel)) ∧
      ({ file := strayFile } : ELF).parse = .abort := by
  have hfile : strayFile.length < 2 ^ 64 := by decide +kernel
  have hopen : ({ file := strayFile } : ELF).check [] = .ret () :=
    Prog.eq_ret_of_result (by decide +kernel)
  refine ⟨hopen, fun fuel h => ?_, ?_⟩
  · have hsections := ((within_opened hfile hopen _).mp (staysInside_iff.mp h)).1.2
    exact absurd (hsections 1 (by decide +kernel)).sh_type (by decide +kernel)
  · have hshnum : ({ file := strayFile } : ELF).e_shnum = .ret 2 :=
      Prog.eq_ret_of_result (by decide +kernel)
    have hshdr : ({ file := strayFile } : ELF).shdr 1 = .ret (2 ^ 40 + 64) :=
      Prog.eq_ret_of_result (by decide +kernel)
    have hstray : fileField strayFile (2 ^ 40 + 64 + 4) 4 = none := by decide +kernel
    have htype : ({ file := strayFile } : ELF).sh_type (2 ^ 40 + 64) = .abort := by
      rw [ELF.sh_type, ELF.field_eq, hstray]
      rfl
    have hsection : ({ file := strayFile } : ELF).parseSection 1 = .abort := by
      show Prog.bind (ELF.shdr _ 1) _ = _
      rw [hshdr]
      show Prog.bind (ELF.sh_type _ _) _ = _
      rw [htype]
      rfl
    show Prog.bind (ELF.e_shnum _) _ = _
    rw [hshnum]
    show Prog.bind (Prog.bind (ELF.parseSection _ 1) _) _ = _
    rw [hsection]
    rfl

end Mapping

end Pyflame
