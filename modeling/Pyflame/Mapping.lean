import Pyflame.Library.Reading
import Pyflame.Symbol

/-!
What `symbol.cc` reads from the mapping of a file.

A function of `ELF` is a program that reads bytes. Here each of them is asked
for, so that what it reads can be said; on a file the program is the one that
pyflame runs.
-/

namespace Pyflame

open Interaction

/-- A read of one byte, at an offset from the start of the mapping. -/
abbrev Reads : Signature := ⟨Word, fun _ => Byte⟩

/-- What can be computed from the mapping. -/
abbrev Mapped (α : Type) := Prog Reads Exception α

/-- The computation on the mapping of a file. -/
def Mapped.on {α : Type} (file : Bytes) (p : Mapped α) : Tracer α :=
  p.inline fun offset => orCrash (fileByte file offset)

namespace Mapping

def byte (offset : Word) : Mapped Byte := Prog.ask (S := Reads) offset

/-- Every byte is asked for, whatever the file. -/
instance : ReadsFile Reads := ⟨fun _ => byte⟩

/-! ### On a file -/

section

variable {α β : Type} {file : Bytes}

@[simp] theorem ret_on (a : α) : Mapped.on file (.ret a) = .ret a := rfl
@[simp] theorem raise_on (e : Exception) : Mapped.on file (.raise e : Mapped α) = .raise e := rfl
@[simp] theorem abort_on : Mapped.on file (.abort : Mapped α) = .abort := rfl

@[simp] theorem bind_on (p : Mapped α) (f : α → Mapped β) :
    Mapped.on file (p.bind f) = (Mapped.on file p).bind fun a => Mapped.on file (f a) :=
  Prog.inline_bind _ p f

@[simp] theorem ite_on {c : Prop} [Decidable c] (p q : Mapped α) :
    Mapped.on file (if c then p else q) = if c then Mapped.on file p else Mapped.on file q :=
  Prog.inline_ite _ p q

theorem byte_on (offset : Word) : Mapped.on file (byte offset) = orCrash (fileByte file offset) := by
  cases h : fileByte file offset <;> simp [Mapped.on, byte, Prog.ask, h, orCrash]

/-- A read, and what comes after it. -/
theorem byte_bind_on (offset : Word) {f : Byte → Mapped α} {f' : Byte → Tracer α}
    (h : ∀ b, Mapped.on file (f b) = f' b) :
    Mapped.on file ((byte offset).bind f) = (orCrash (fileByte file offset)).bind f' := by
  rw [bind_on, byte_on]
  exact congrArg _ (funext h)

variable (elf : ELF)

@[simp] theorem bytes_on (offset : Word) (n : ℕ) :
    Mapped.on elf.file (elf.bytes offset n) = elf.bytes offset n := by
  induction n generalizing offset with
  | zero => rfl
  | succ n ih =>
      apply byte_bind_on
      intro b
      exact (bind_on _ _).trans (congrArg (Prog.bind · _) (ih (offset + 1)))

@[simp] theorem strcmp_on (name : Word) (lit : String) :
    Mapped.on elf.file (elf.strcmp name lit) = elf.strcmp name lit := by
  unfold ELF.strcmp
  induction text lit generalizing name with
  | nil => exact byte_bind_on name fun b => rfl
  | cons c lit ih =>
      apply byte_bind_on
      intro b
      rw [ite_on, ih]
      rfl

@[simp] theorem string_on (offset : Word) :
    Mapped.on elf.file (elf.string offset) = elf.string offset := by
  unfold ELF.string
  induction elf.file.length + 4096 generalizing offset with
  | zero => rfl
  | succ n ih =>
      apply byte_bind_on
      intro b
      rw [ite_on]
      split_ifs
      · rfl
      · exact (bind_on _ _).trans (congrArg (Prog.bind · _) (ih (offset + 1)))

@[simp] theorem field_on (offset : Word) (width : ℕ) :
    Mapped.on elf.file (elf.field offset width) = elf.field offset width := by
  simp [ELF.field]

@[simp] theorem shdr_on (idx : ℤ) : Mapped.on elf.file (elf.shdr idx) = elf.shdr idx := by
  simp [ELF.shdr, ELF.e_shoff, ELF.e_shentsize]

@[simp] theorem phdr_on (idx : ℤ) : Mapped.on elf.file (elf.phdr idx) = elf.phdr idx := by
  simp [ELF.phdr, ELF.e_phoff, ELF.e_phentsize]

theorem check_on (target : Bytes) : Mapped.on elf.file (elf.check target) = elf.check target := by
  simp [ELF.check]

@[simp] theorem strtabName_on (s : Word) :
    Mapped.on elf.file (elf.strtabName s) = elf.strtabName s := by
  simp [ELF.strtabName, ELF.e_shstrndx, ELF.sh_offset, ELF.sh_name]

theorem parseSection_on (i : ℕ) :
    Mapped.on elf.file (elf.parseSection i) = elf.parseSection i := by
  simp [ELF.parseSection, ELF.sh_type]

/-- `Parse` keeps the file. -/
theorem parse_on : Mapped.on elf.file elf.parse = elf.parse := by
  have hfile : ∀ (elf' : ELF) (i : ℕ), elf'.file = elf.file →
      Returns (fun elf' => elf'.file = elf.file) (elf'.parseSection i) := by
    intro elf' i h
    apply Returns.bind
    intro s
    apply Returns.bind
    intro sh_type
    split_ifs
    · apply Returns.bind
      intro name
      apply Returns.bind
      intro found
      split_ifs
      · exact .ret h
      · apply Returns.bind
        intro name
        apply Returns.bind
        intro found
        split_ifs <;> exact .ret h
    all_goals exact .ret h
  have hloop : ∀ l : List ℕ,
      Mapped.on elf.file (l.foldlM ELF.parseSection elf) = l.foldlM ELF.parseSection elf := by
    intro l
    exact Prog.inline_foldlM _ (fun elf' i h => h ▸ parseSection_on elf' i) hfile l rfl
  simp [ELF.parse, ELF.e_shnum, hloop]

@[simp] theorem entries_on (s : Word) : Mapped.on elf.file (elf.entries s) = elf.entries s := by
  simp [ELF.entries, ELF.sh_entsize, ELF.sh_size]

@[simp] theorem entry_on (s : Word) (i : BitVec 16) :
    Mapped.on elf.file (elf.entry s i) = elf.entry s i := by
  simp [ELF.entry, ELF.sh_entsize, ELF.sh_offset]

theorem neededLibs_on (fuel : ℕ) :
    Mapped.on elf.file (elf.neededLibs fuel) = elf.neededLibs fuel := by
  have hstep : ∀ s d b, Mapped.on elf.file (elf.neededStep s d b) = elf.neededStep s d b := by
    intro s d b
    simp [ELF.neededStep, ELF.d_tag, ELF.d_val, ELF.sh_offset]
  simp only [ELF.neededLibs, Prog.bind_eq, bind_on, shdr_on]
  congr 1
  funext s
  congr 1
  funext d
  exact Prog.inline_forever _ (hstep s d) fuel _

@[simp] theorem isMissing_on (addr name : Word) (lit : String) :
    Mapped.on elf.file (elf.isMissing addr name lit) = elf.isMissing addr name lit := by
  simp [ELF.isMissing]

@[simp] theorem isOneOf_on (name : Word) (lits : List String) :
    Mapped.on elf.file (elf.isOneOf name lits) = elf.isOneOf name lits := by
  induction lits with
  | nil => rfl
  | cons lit lits ih => simp [ELF.isOneOf, ih]

@[simp] theorem walkABI_on (name : Word) (w : ELF.Walk) :
    Mapped.on elf.file (elf.walkABI name w) = elf.walkABI name w := by
  simp [ELF.walkABI]

@[simp] theorem walkEntry_on (sym name : Word) (w : ELF.Walk) :
    Mapped.on elf.file (elf.walkEntry sym name w) = elf.walkEntry sym name w := by
  simp [ELF.walkEntry, ELF.st_value]

@[simp] theorem walkTable_on (fuel : ℕ) (sym str : ℤ) (addrs : PyAddresses) :
    Mapped.on elf.file (elf.walkTable fuel sym str addrs) = elf.walkTable fuel sym str addrs := by
  have hstep : ∀ s d w, Mapped.on elf.file (elf.walkStep s d w) = elf.walkStep s d w := by
    intro s d w
    simp [ELF.walkStep, ELF.sh_offset, ELF.st_name]
  have hloop : ∀ s d w, Mapped.on elf.file (Prog.forever (elf.walkStep s d) fuel w) =
      Prog.forever (elf.walkStep s d) fuel w :=
    fun s d w => Prog.inline_forever _ (hstep s d) fuel w
  simp [ELF.walkTable, hloop]

@[simp] theorem firstLoad_on (i n : ℕ) :
    Mapped.on elf.file (elf.firstLoad i n) = elf.firstLoad i n := by
  induction n generalizing i with
  | zero => rfl
  | succ n ih => simp [ELF.firstLoad, ih, ELF.p_type, ELF.p_vaddr]

theorem getAddresses_on (fuel : ℕ) :
    Mapped.on elf.file (elf.getAddresses fuel) = elf.getAddresses fuel := by
  simp [ELF.getAddresses, ELF.symbols, ELF.getBaseAddress, ELF.e_type, ELF.e_phnum]

end

end Mapping

end Pyflame
