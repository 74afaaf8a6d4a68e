import Mathlib.Data.List.TakeWhile
import Pyflame.Mapping

/-!
What `Parse` reads of a file, and what has to lie in the file for that.

`Open` looks at the magic number and the class and at nothing else, so every
offset that is read later comes from a header that nobody has checked. Which
bytes are read is said here on the bytes of the file, as if zeros followed them:
up to the first read behind the end of the file that makes no difference.
-/

namespace Pyflame

open Interaction

namespace Mapping

/-! ### A file followed by zeros -/

section

variable (file : Bytes)

def shownByte (offset : Word) : Byte := file.getD offset.toNat 0

def shownBytes (offset : Word) : ℕ → Bytes
  | 0 => []
  | n + 1 => shownByte file offset :: shownBytes (offset + 1) n

def shownField (offset : Word) (width : ℕ) : Word :=
  BitVec.ofNat 64 (ByteMemory.leNat (shownBytes file offset width))

/-- The string at an offset. -/
def shownName (offset : Word) : Bytes := (file.drop offset.toNat).takeWhile (· ≠ 0)

/-! ### What has to lie in the file -/

/-- A byte lies in the file. -/
def ByteIn (offset : Word) : Prop := offset.toNat < file.length

/-- A field lies in the file. -/
def FieldIn (offset : Word) (width : ℕ) : Prop := offset.toNat + width ≤ file.length

/-- A string ends in the file. -/
def StringIn (offset : Word) : Prop := 0 ∈ file.drop offset.toNat

/-- What the file has from an offset on is not the start of any of the literals: comparing
it with them does not come to its end. -/
def NameIn (offset : Word) (lits : List String) : Prop :=
  ∀ lit ∈ lits, ¬ file.drop offset.toNat <+: text lit

instance (offset : Word) (width : ℕ) : Decidable (FieldIn file offset width) :=
  inferInstanceAs (Decidable (_ ≤ _))

instance (offset : Word) (lits : List String) : Decidable (NameIn file offset lits) :=
  inferInstanceAs (Decidable (∀ lit ∈ lits, ¬ _ <+: text lit))

end

section

variable {file : Bytes} {elf : ELF}

theorem shown_byte (offset : Word) :
    value (shownByte file) (byte offset) = .ok (shownByte file offset) :=
  rfl

theorem inside_byte {offset : Word} :
    Within (shownByte file) (ByteIn file) (byte offset) ↔ offset.toNat < file.length :=
  and_iff_left trivial

theorem shown_bytes (offset : Word) (n : ℕ) :
    value (shownByte file) (bytesFrom byte offset n) = .ok (shownBytes file offset n) := by
  induction n generalizing offset with
  | zero => rfl
  | succ n ih =>
      show value (shownByte file) ((byte offset).bind _) = _
      rw [value_bind (shown_byte offset), Prog.bind_eq, value_bind (ih (offset + 1))]
      rfl

theorem shown_field (offset : Word) (width : ℕ) :
    value (shownByte file) (elf.field offset width : Mapped _) =
      .ok (shownField file offset width) := by
  show value (shownByte file) ((bytesFrom byte offset width).bind _) = _
  rw [value_bind (shown_bytes offset width)]
  rfl

/-- The next offset, if there is one in the file. -/
theorem toNat_succ (hfile : file.length < 2 ^ 64) {offset : Word} (h : offset.toNat < file.length) :
    (offset + 1).toNat = offset.toNat + 1 := by
  rw [BitVec.toNat_add, show (1 : Word).toNat = 1 from rfl]
  omega

/-- At an offset in the file. -/
theorem drop_of_lt {offset : Word} (h : offset.toNat < file.length) :
    file.drop offset.toNat = shownByte file offset :: file.drop (offset.toNat + 1) := by
  rw [List.drop_eq_getElem_cons h, shownByte, List.getD_eq_getElem?_getD, List.getElem?_eq_getElem h]
  rfl

theorem shownByte_of_le {offset : Word} (h : file.length ≤ offset.toNat) :
    shownByte file offset = 0 := by
  rw [shownByte, List.getD_eq_getElem?_getD, List.getElem?_eq_none h]
  rfl

theorem inside_bytes (hfile : file.length < 2 ^ 64) (offset : Word) (n : ℕ) :
    Within (shownByte file) (ByteIn file) (bytesFrom byte offset (n + 1)) ↔
      FieldIn file offset (n + 1) := by
  induction n generalizing offset with
  | zero =>
      show Within (shownByte file) (ByteIn file) ((byte offset).bind _) ↔ _
      rw [within_bind_ok (shown_byte offset), inside_byte]
      exact and_iff_left trivial
  | succ n ih =>
      show Within (shownByte file) (ByteIn file) ((byte offset).bind _) ↔ _
      rw [within_bind_ok (shown_byte offset), inside_byte, Prog.bind_eq,
        within_bind_ok (shown_bytes (offset + 1) (n + 1)), ih]
      simp only [FieldIn, Prog.pure_eq, within_ret, and_true]
      constructor
      · rintro ⟨hlt, hrest⟩
        rw [toNat_succ hfile hlt] at hrest
        omega
      · intro h
        have hlt : offset.toNat < file.length := by omega
        rw [toNat_succ hfile hlt]
        omega

theorem inside_field (hfile : file.length < 2 ^ 64) (offset : Word) {width : ℕ} (hwidth : 0 < width) :
    Within (shownByte file) (ByteIn file) (elf.field offset width : Mapped _) ↔
      FieldIn file offset width := by
  obtain ⟨n, rfl⟩ := Nat.exists_eq_add_one.mpr hwidth
  show Within (shownByte file) (ByteIn file) ((bytesFrom byte offset (n + 1)).bind _) ↔ _
  rw [within_bind_ok (shown_bytes offset (n + 1)), inside_bytes hfile]
  exact and_iff_left trivial

/-! ### Names -/

theorem shownName_of_lt (hfile : file.length < 2 ^ 64) {offset : Word}
    (h : offset.toNat < file.length) :
    shownName file offset =
      if shownByte file offset = 0 then [] else shownByte file offset :: shownName file (offset + 1) := by
  rw [shownName, shownName, drop_of_lt h, toNat_succ hfile h, List.takeWhile_cons]
  simp only [ne_eq, decide_not, Bool.not_eq_eq_eq_not, Bool.not_true, decide_eq_false_iff_not]
  split_ifs <;> rfl

theorem shownName_of_le {offset : Word} (h : file.length ≤ offset.toNat) :
    shownName file offset = [] := by
  rw [shownName, List.drop_eq_nil_of_le h]
  rfl

theorem shown_strcmpFrom (hfile : file.length < 2 ^ 64) (offset : Word) {lit : Bytes}
    (hlit : 0 ∉ lit) :
    value (shownByte file) (strcmpFrom byte offset lit) =
      .ok (decide (shownName file offset = lit)) := by
  induction lit generalizing offset with
  | nil =>
      show Outcome.ok (decide (shownByte file offset = 0)) = _
      rcases Nat.lt_or_ge offset.toNat file.length with h | h
      · rw [shownName_of_lt hfile h]
        split_ifs with hnul
        · rw [hnul]
          rfl
        · rw [decide_eq_false hnul]
          rfl
      · simp [shownName_of_le h, shownByte_of_le h]
  | cons b lit ih =>
      have hb : (0 : Byte) ≠ b := List.ne_of_not_mem_cons hlit
      rw [strcmpFrom, Prog.bind_eq, value_bind (shown_byte offset)]
      rcases Nat.lt_or_ge offset.toNat file.length with h | h
      · rw [shownName_of_lt hfile h]
        split_ifs with heq hnul hnul
        · exact absurd (hnul.symm.trans heq) hb
        · rw [ih (offset + 1) (List.not_mem_of_not_mem_cons hlit)]
          simp [heq]
        · simp
        · simp [heq]
      · have hne : shownByte file offset ≠ b := fun heq => hb ((shownByte_of_le h).symm.trans heq)
        rw [if_neg hne, shownName_of_le h]
        simp

theorem inside_strcmpFrom (hfile : file.length < 2 ^ 64) (offset : Word) (lit : Bytes) :
    Within (shownByte file) (ByteIn file) (strcmpFrom byte offset lit) ↔
      ¬ file.drop offset.toNat <+: lit := by
  induction lit generalizing offset with
  | nil =>
      show offset.toNat < file.length ∧ True ↔ _
      simp
  | cons b lit ih =>
      rw [strcmpFrom, Prog.bind_eq, within_bind_ok (shown_byte offset), inside_byte]
      rcases Nat.lt_or_ge offset.toNat file.length with h | h
      · rw [drop_of_lt h, List.cons_prefix_cons, and_iff_right h]
        split_ifs with heq
        · rw [ih (offset + 1), toNat_succ hfile h]
          simp [heq]
        · simp [heq]
      · rw [List.drop_eq_nil_of_le h]
        simp [Nat.not_lt_of_le h]

/-- A name that is one of the literals ends in the file, and so is not the start of
another one. -/
theorem not_prefix_of_name {offset : Word} {lit lit' : Bytes} (hlit' : 0 ∉ lit')
    (h : ¬ file.drop offset.toNat <+: lit) (hname : shownName file offset = lit) :
    ¬ file.drop offset.toNat <+: lit' := by
  intro hstart
  have hnul : 0 ∉ file.drop offset.toNat := fun hmem => hlit' (hstart.subset hmem)
  have hall : shownName file offset = file.drop offset.toNat := by
    rw [shownName, List.takeWhile_eq_self_iff]
    intro b hb
    simpa using fun heq : b = 0 => hnul (heq ▸ hb)
  exact h (hall ▸ hname ▸ List.prefix_refl _)

theorem shown_stringFrom (hfile : file.length < 2 ^ 64) (offset : Word) {n : ℕ}
    (hn : file.length < offset.toNat + n) (hpos : 0 < n) :
    value (shownByte file) (stringFrom byte .abort offset n) = .ok (shownName file offset) := by
  induction n generalizing offset with
  | zero => omega
  | succ n ih =>
      rw [stringFrom, Prog.bind_eq, value_bind (shown_byte offset)]
      rcases Nat.lt_or_ge offset.toNat file.length with h | h
      · rw [shownName_of_lt hfile h]
        split_ifs
        · rfl
        · have hnext := toNat_succ hfile h
          rw [Prog.bind_eq, value_bind (ih (offset + 1) (by omega) (by omega))]
          rfl
      · rw [if_pos (shownByte_of_le h), shownName_of_le h]
        rfl

theorem inside_stringFrom (hfile : file.length < 2 ^ 64) (offset : Word) {n : ℕ}
    (hn : file.length < offset.toNat + n) (hpos : 0 < n) :
    Within (shownByte file) (ByteIn file) (stringFrom byte .abort offset n) ↔
      StringIn file offset := by
  induction n generalizing offset with
  | zero => omega
  | succ n ih =>
      rw [stringFrom, Prog.bind_eq, within_bind_ok (shown_byte offset), inside_byte]
      rcases Nat.lt_or_ge offset.toNat file.length with h | h
      · rw [StringIn, drop_of_lt h, and_iff_right h]
        split_ifs with hnul
        · simp [hnul]
        · have hnext := toNat_succ hfile h
          have hmore : file.length < (offset + 1).toNat + n := by omega
          rw [Prog.bind_eq, within_bind_ok (shown_stringFrom hfile (offset + 1) hmore (by omega)),
            ih (offset + 1) hmore (by omega), StringIn, hnext]
          simp only [List.mem_cons, Ne.symm hnul, false_or, Prog.pure_eq, within_ret, and_true]
      · rw [StringIn, List.drop_eq_nil_of_le h]
        simp [Nat.not_lt_of_le h]

theorem value_field_bind {α : Type} (offset : Word) (width : ℕ) (f : Word → Mapped α) :
    value (shownByte file) ((elf.field offset width).bind f) =
      value (shownByte file) (f (shownField file offset width)) :=
  value_bind (shown_field offset width) f

theorem within_field_bind (hfile : file.length < 2 ^ 64) {α : Type} {offset : Word} {width : ℕ}
    (hwidth : 0 < width) (f : Word → Mapped α) :
    Within (shownByte file) (ByteIn file) ((elf.field offset width).bind f) ↔
      FieldIn file offset width ∧
        Within (shownByte file) (ByteIn file) (f (shownField file offset width)) := by
  rw [within_bind_ok (shown_field offset width), inside_field hfile offset hwidth]

theorem nameIn_cons {offset : Word} {lit : String} {lits : List String} :
    NameIn file offset (lit :: lits) ↔
      ¬ file.drop offset.toNat <+: text lit ∧ NameIn file offset lits :=
  List.forall_mem_cons

/-- A name that has been found in the file is read completely. -/
theorem NameIn.of_name {offset : Word} {lit : String} {lits : List String}
    (h : ¬ file.drop offset.toNat <+: text lit) (hname : shownName file offset = text lit)
    (hlits : ∀ lit ∈ lits, 0 ∉ text lit) : NameIn file offset lits :=
  fun lit' hlit' => not_prefix_of_name (hlits lit' hlit') h hname

theorem shown_strcmp (hfile : file.length < 2 ^ 64) (name : Word) {lit : String}
    (hlit : 0 ∉ text lit) :
    value (shownByte file) (elf.strcmp name lit : Mapped _) =
      .ok (decide (shownName file name = text lit)) :=
  shown_strcmpFrom hfile name hlit

theorem inside_strcmp (hfile : file.length < 2 ^ 64) (name : Word) (lit : String) :
    Within (shownByte file) (ByteIn file) (elf.strcmp name lit : Mapped _) ↔
      ¬ file.drop name.toNat <+: text lit :=
  inside_strcmpFrom hfile name (text lit)

/-- A branch on a comparison. -/
theorem value_strcmp_bind (hfile : file.length < 2 ^ 64) {α : Type} (name : Word) {lit : String}
    (hlit : 0 ∉ text lit) (p q : Mapped α) :
    value (shownByte file) ((elf.strcmp name lit).bind fun b => if b then p else q) =
      if shownName file name = text lit then value (shownByte file) p
      else value (shownByte file) q := by
  rw [value_bind (shown_strcmp hfile name hlit)]
  by_cases hname : shownName file name = text lit <;> simp [hname]

theorem within_strcmp_bind (hfile : file.length < 2 ^ 64) {α : Type} (name : Word) {lit : String}
    (hlit : 0 ∉ text lit) (p q : Mapped α) :
    Within (shownByte file) (ByteIn file) ((elf.strcmp name lit).bind fun b => if b then p else q) ↔
      ¬ file.drop name.toNat <+: text lit ∧
        (shownName file name = text lit → Within (shownByte file) (ByteIn file) p) ∧
        (shownName file name ≠ text lit → Within (shownByte file) (ByteIn file) q) := by
  rw [within_bind_ok (shown_strcmp hfile name hlit), inside_strcmp hfile]
  by_cases hname : shownName file name = text lit <;> simp [hname]

end

/-! ### The sections -/

section

variable (file : Bytes)

/-- An entry of a table of headers. -/
def headerAt (table size : Word) (idx : ℤ) : Word :=
  table + (BitVec.ofInt 32 (idx * size.toNat)).signExtend 64

def phdrAt (idx : ℤ) : Word := headerAt (shownField file 32 8) (shownField file 54 2) idx

def shdrAt (idx : ℤ) : Word := headerAt (shownField file 40 8) (shownField file 58 2) idx

/-- The header of the section with the names of the sections. -/
def namesAt : Word := shdrAt file (shownField file 62 2).toNat

def sectionType (i : ℕ) : Word := shownField file (shdrAt file i + 4) 4

def sectionNameAt (i : ℕ) : Word :=
  shownField file (namesAt file + 24) 8 +
    ((shownField file (shdrAt file i) 4).setWidth 32).signExtend 64

/-- What `Parse` reads of the name of a section. -/
structure SectionNameIn (i : ℕ) : Prop where
  e_shstrndx : FieldIn file 62 2
  sh_offset : FieldIn file (namesAt file + 24) 8
  sh_name : FieldIn file (shdrAt file i) 4
  name : NameIn file (sectionNameAt file i) [".dynstr", ".strtab"]

/-- What `Parse` reads of a section: its type, and if it is a table of strings, its
name. -/
structure SectionIn (i : ℕ) : Prop where
  sh_type : FieldIn file (shdrAt file i + 4) 4
  name : sectionType file i = SHT_STRTAB → SectionNameIn file i

/-- The sections that `Parse` looks at. The first one must be of type `SHT_NULL`. -/
def sectionNumbers : List ℕ := List.range' 1 ((shownField file 60 2).toNat - 1)

/-- The last section of a kind. -/
def lastSection (kind : ℕ → Bool) : ℤ :=
  (sectionNumbers file).foldl (fun (last : ℤ) i => if kind i then i else last) (-1)

def isStrings (lit : String) (i : ℕ) : Bool :=
  sectionType file i = SHT_STRTAB ∧ shownName file (sectionNameAt file i) = text lit

/-- What `Parse` finds. -/
def sections : ELF where
  file
  dynamic := lastSection file fun i => sectionType file i = SHT_DYNAMIC
  dynstr := lastSection file (isStrings file ".dynstr")
  dynsym := lastSection file fun i => sectionType file i = SHT_DYNSYM
  strtab := lastSection file (isStrings file ".strtab")
  symtab := lastSection file fun i => sectionType file i = SHT_SYMTAB

/-- The sections without which `Parse` throws. -/
structure HasSections : Prop where
  dynamic : (sections file).dynamic ≠ -1
  dynstr : (sections file).dynstr ≠ -1
  dynsym : (sections file).dynsym ≠ -1

theorem hasSections_iff : HasSections file ↔
    (sections file).dynamic ≠ -1 ∧ (sections file).dynstr ≠ -1 ∧ (sections file).dynsym ≠ -1 :=
  ⟨fun h => ⟨h.dynamic, h.dynstr, h.dynsym⟩, fun h => ⟨h.1, h.2.1, h.2.2⟩⟩

/-- One section more. -/
def noteSection (elf : ELF) (i : ℕ) : ELF :=
  { elf with
    dynamic := if sectionType file i = SHT_DYNAMIC then i else elf.dynamic
    dynstr := if isStrings file ".dynstr" i then i else elf.dynstr
    dynsym := if sectionType file i = SHT_DYNSYM then i else elf.dynsym
    strtab := if isStrings file ".strtab" i then i else elf.strtab
    symtab := if sectionType file i = SHT_SYMTAB then i else elf.symtab }

end

section

variable {file : Bytes} {elf : ELF}

theorem shown_shdr {idx : ℤ} (h : 0 ≤ idx) :
    value (shownByte file) (elf.shdr idx : Mapped _) = .ok (shdrAt file idx) := by
  simp only [ELF.shdr, if_neg (Int.not_lt.mpr h), ELF.e_shoff, ELF.e_shentsize, Prog.bind_eq,
    Prog.pure_eq, value_field_bind, value_ret, shdrAt, headerAt]

theorem shown_phdr {idx : ℤ} (h : 0 ≤ idx) :
    value (shownByte file) (elf.phdr idx : Mapped _) = .ok (phdrAt file idx) := by
  simp only [ELF.phdr, if_neg (Int.not_lt.mpr h), ELF.e_phoff, ELF.e_phentsize, Prog.bind_eq,
    Prog.pure_eq, value_field_bind, value_ret, phdrAt, headerAt]

theorem shown_names :
    value (shownByte file) (elf.shdr (shownField file 62 2).toNat : Mapped _) = .ok (namesAt file) :=
  shown_shdr (Int.natCast_nonneg _)

theorem shown_strtabName (i : ℕ) :
    value (shownByte file) (elf.strtabName (shdrAt file i) : Mapped _) =
      .ok (sectionNameAt file i) := by
  simp only [ELF.strtabName, ELF.e_shstrndx, ELF.sh_offset, ELF.sh_name, Prog.bind_eq, Prog.pure_eq,
    value_field_bind, value_bind shown_names, value_ret, sectionNameAt]

variable (hfile : file.length < 2 ^ 64)

include hfile

theorem shown_parseSection (elf : ELF) (i : ℕ) :
    value (shownByte file) (elf.parseSection i : Mapped _) = .ok (noteSection file elf i) := by
  have hdynstr := @shown_strcmp file elf hfile (sectionNameAt file i) ".dynstr" (by decide)
  have hstrtab := @shown_strcmp file elf hfile (sectionNameAt file i) ".strtab" (by decide)
  simp only [ELF.parseSection, Prog.bind_eq, value_bind (shown_shdr (Int.natCast_nonneg i)),
    ELF.sh_type, value_field_bind]
  rw [← sectionType]
  by_cases hstrings : sectionType file i = SHT_STRTAB
  · have hlits : text ".dynstr" ≠ text ".strtab" := by decide
    rw [if_pos hstrings, value_bind (shown_strtabName i), value_bind hdynstr]
    by_cases hname : shownName file (sectionNameAt file i) = text ".dynstr"
    · simp [noteSection, isStrings, hstrings, hname, hlits, SHT_STRTAB, SHT_DYNAMIC, SHT_DYNSYM,
        SHT_SYMTAB]
    · rw [if_neg (by simpa using hname), value_bind (shown_strtabName i), value_bind hstrtab]
      by_cases hname' : shownName file (sectionNameAt file i) = text ".strtab"
      · simp [noteSection, isStrings, hstrings, hname', hlits.symm, SHT_STRTAB, SHT_DYNAMIC,
          SHT_DYNSYM, SHT_SYMTAB]
      · simp [noteSection, isStrings, hstrings, hname, hname', SHT_STRTAB, SHT_DYNAMIC, SHT_DYNSYM,
          SHT_SYMTAB]
  · rw [if_neg hstrings]
    by_cases hdynsym : sectionType file i = SHT_DYNSYM
    · simp [noteSection, isStrings, hdynsym, SHT_STRTAB, SHT_DYNAMIC, SHT_DYNSYM, SHT_SYMTAB]
    · by_cases hdynamic : sectionType file i = SHT_DYNAMIC
      · simp [noteSection, isStrings, hdynamic, SHT_STRTAB, SHT_DYNAMIC, SHT_DYNSYM, SHT_SYMTAB]
      · by_cases hsymtab : sectionType file i = SHT_SYMTAB
        · simp [noteSection, isStrings, hsymtab, SHT_STRTAB, SHT_DYNAMIC, SHT_DYNSYM, SHT_SYMTAB]
        · simp [noteSection, isStrings, hstrings, hdynsym, hdynamic, hsymtab]

/-- A file with the number of sections in it has what comes before it as well. -/
theorem within_shdr (hheader : 62 ≤ file.length) {idx : ℤ} (h : 0 ≤ idx) :
    Within (shownByte file) (ByteIn file) (elf.shdr idx : Mapped _) := by
  have hoff : FieldIn file 40 8 := by
    show 40 + 8 ≤ file.length
    omega
  have hsize : FieldIn file 58 2 := by
    show 58 + 2 ≤ file.length
    omega
  simp only [ELF.shdr, if_neg (Int.not_lt.mpr h), ELF.e_shoff, ELF.e_shentsize, Prog.bind_eq,
    Prog.pure_eq]
  rw [within_field_bind hfile (by omega), within_field_bind hfile (by omega)]
  exact ⟨hoff, hsize, trivial⟩

theorem within_strtabName (hheader : 62 ≤ file.length) (i : ℕ) :
    Within (shownByte file) (ByteIn file) (elf.strtabName (shdrAt file i) : Mapped _) ↔
      FieldIn file 62 2 ∧ FieldIn file (namesAt file + 24) 8 ∧ FieldIn file (shdrAt file i) 4 := by
  simp only [ELF.strtabName, ELF.e_shstrndx, ELF.sh_offset, ELF.sh_name, Prog.bind_eq, Prog.pure_eq]
  rw [within_field_bind hfile (by omega), within_bind_ok shown_names,
    and_iff_right (within_shdr hfile hheader (Int.natCast_nonneg _)),
    within_field_bind hfile (by omega), within_field_bind hfile (by omega)]
  simp only [within_ret, and_true]

theorem within_parseSection (hheader : 62 ≤ file.length) (elf : ELF) (i : ℕ) :
    Within (shownByte file) (ByteIn file) (elf.parseSection i : Mapped _) ↔ SectionIn file i := by
  have hshdr : value (shownByte file) (elf.shdr i : Mapped _) = .ok (shdrAt file i) :=
    shown_shdr (Int.natCast_nonneg i)
  simp only [ELF.parseSection, Prog.bind_eq, Prog.pure_eq, ELF.sh_type]
  rw [within_bind_ok hshdr, and_iff_right (within_shdr hfile hheader (Int.natCast_nonneg i)),
    within_field_bind hfile (by omega), ← sectionType]
  by_cases hstrings : sectionType file i = SHT_STRTAB
  · rw [if_pos hstrings, within_bind_ok (shown_strtabName i), within_strtabName hfile hheader,
      within_strcmp_bind hfile _ (by decide), within_bind_ok (shown_strtabName i),
      within_strtabName hfile hheader, within_strcmp_bind hfile _ (by decide)]
    simp only [within_ret, implies_true, true_and, and_true]
    constructor
    · rintro ⟨hsh_type, ⟨hndx, hoffset, hsh_name⟩, hdynstr, hstrtab⟩
      refine ⟨hsh_type, fun _ => ⟨hndx, hoffset, hsh_name, nameIn_cons.mpr ⟨hdynstr, ?_⟩⟩⟩
      by_cases hname : shownName file (sectionNameAt file i) = text ".dynstr"
      · exact .of_name hdynstr hname (by decide)
      · exact List.forall_mem_singleton.mpr (hstrtab hname).2
    · intro h
      obtain ⟨hndx, hoffset, hsh_name, hname⟩ := h.name hstrings
      obtain ⟨hdynstr, hname⟩ := nameIn_cons.mp hname
      exact ⟨h.sh_type, ⟨hndx, hoffset, hsh_name⟩, hdynstr, fun _ => ⟨⟨hndx, hoffset, hsh_name⟩,
        hname ".strtab" List.mem_cons_self⟩⟩
  · rw [if_neg hstrings]
    constructor
    · exact fun h => ⟨h.1, fun heq => absurd heq hstrings⟩
    · intro h
      refine ⟨h.sh_type, ?_⟩
      simp only [within_ite, within_ret, ite_self]

omit hfile in
theorem foldl_noteSection (l : List ℕ) (elf : ELF) :
    l.foldl (noteSection file) elf =
      { elf with
        dynamic := l.foldl (fun (last : ℤ) i => if sectionType file i = SHT_DYNAMIC then i else last)
          elf.dynamic
        dynstr := l.foldl (fun (last : ℤ) i => if isStrings file ".dynstr" i then i else last) elf.dynstr
        dynsym := l.foldl (fun (last : ℤ) i => if sectionType file i = SHT_DYNSYM then i else last)
          elf.dynsym
        strtab := l.foldl (fun (last : ℤ) i => if isStrings file ".strtab" i then i else last) elf.strtab
        symtab := l.foldl (fun (last : ℤ) i => if sectionType file i = SHT_SYMTAB then i else last)
          elf.symtab } := by
  induction l generalizing elf with
  | nil => rfl
  | cons i l ih =>
      simp only [List.foldl_cons]
      rw [ih]
      simp only [noteSection]

theorem shown_sections :
    value (shownByte file) ((sectionNumbers file).foldlM ELF.parseSection { file } : Mapped _) =
      .ok (sections file) := by
  rw [value_foldlM (shown_parseSection hfile), foldl_noteSection]
  simp only [sections, lastSection, decide_eq_true_eq]

theorem shown_parse (elf : ELF) :
    value (shownByte file) (ELF.parse { file } : Mapped _) = .ok elf ↔
      HasSections file ∧ sections file = elf := by
  simp only [ELF.parse, ELF.e_shnum, Prog.bind_eq, Prog.pure_eq]
  rw [value_field_bind, ← sectionNumbers, value_bind (shown_sections hfile)]
  split_ifs with hdynamic hdynstr hdynsym
  · simp [hdynamic, hasSections_iff]
  · simp [hdynstr, hasSections_iff]
  · simp [hdynsym, hasSections_iff]
  · simp [hdynamic, hdynstr, hdynsym, hasSections_iff]

theorem within_parse :
    Within (shownByte file) (ByteIn file) (ELF.parse { file } : Mapped _) ↔
      62 ≤ file.length ∧ ∀ i ∈ sectionNumbers file, SectionIn file i := by
  simp only [ELF.parse, ELF.e_shnum, Prog.bind_eq, Prog.pure_eq]
  rw [within_field_bind hfile (by omega), ← sectionNumbers, within_bind_ok (shown_sections hfile)]
  apply and_congr_right
  intro hheader
  rw [within_foldlM (shown_parseSection hfile) (within_parseSection hfile hheader)]
  apply and_iff_left
  simp only [within_ite, Prog.throw_eq, within_raise, within_ret, ite_self]

end

end Mapping

end Pyflame
