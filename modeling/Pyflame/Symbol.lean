import Pyflame.Addresses
import Pyflame.Namespace

/-!
`symbol.cc`: the ELF file of the interpreter, and the addresses in it.

A file is what `mmap` shows of it. A read beyond that ends the program, and
so does a division by an entry size of zero. The 64-bit format is modelled.
The functions are written over any way to read a byte, of which the file
itself is one.
-/

namespace Pyflame

open Interaction

/-! ### Reading a mapped file -/

/-- The byte at an offset: the last page is filled up with zeros, and there is
nothing behind it. -/
def fileByte (file : Bytes) (offset : Word) : Option Byte :=
  if offset.toNat < (file.length + 4095) / 4096 * 4096 then some (file.getD offset.toNat 0) else none

section

variable {m : Type → Type} [Monad m] (byte : Word → m Byte)

/-- The bytes from an offset on. -/
def bytesFrom (offset : Word) : ℕ → m Bytes
  | 0 => return []
  | n + 1 => do
      let b ← byte offset
      let rest ← bytesFrom (offset + 1) n
      return b :: rest

/-- `strcmp` with a literal finds no difference. -/
def strcmpFrom (offset : Word) : Bytes → m Bool
  | [] => return (← byte offset) = 0
  | b :: lit => do
      if (← byte offset) = b then
        strcmpFrom (offset + 1) lit
      else
        return false

/-- The string at an offset, up to its terminator, of the given length at most. -/
def stringFrom (fail : m Bytes) (offset : Word) : ℕ → m Bytes
  | 0 => fail
  | n + 1 => do
      let b ← byte offset
      if b = 0 then
        return []
      else
        let rest ← stringFrom fail (offset + 1) n
        return b :: rest

end

section

variable (file : Bytes) (offset : Word)

def fileBytes (n : ℕ) : Option Bytes := bytesFrom (fileByte file) offset n

/-- An unsigned field of the given width. -/
def fileField (width : ℕ) : Option Word :=
  (fileBytes file offset width).map fun bs => BitVec.ofNat 64 (ByteMemory.leNat bs)

def fileStrcmp (lit : Bytes) : Option Bool := strcmpFrom (fileByte file) offset lit

def fileString (n : ℕ) : Option Bytes := stringFrom (fileByte file) none offset n

theorem fileBytes_zero : fileBytes file offset 0 = some [] := rfl

theorem fileBytes_succ (n : ℕ) : fileBytes file offset (n + 1) = (do
    let b ← fileByte file offset
    let rest ← fileBytes file (offset + 1) n
    return b :: rest) := rfl

theorem fileStrcmp_nil : fileStrcmp file offset [] = (do return (← fileByte file offset) = 0) := rfl

theorem fileStrcmp_cons (b : Byte) (lit : Bytes) : fileStrcmp file offset (b :: lit) = (do
    if (← fileByte file offset) = b then fileStrcmp file (offset + 1) lit else return false) := rfl

theorem fileString_succ (n : ℕ) : fileString file offset (n + 1) = (do
    let b ← fileByte file offset
    if b = 0 then
      return []
    else
      let rest ← fileString file (offset + 1) n
      return b :: rest) := rfl

end

/-- Go on with what was read, or crash. -/
def orCrash {α : Type} : Option α → Tracer α
  | some a => .ret a
  | none => .abort

@[simp] theorem orCrash_some {α : Type} (a : α) : orCrash (some a) = .ret a := rfl

theorem orCrash_bind {α β : Type} (o : Option α) (f : α → Option β) :
    orCrash (o.bind f) = (orCrash o).bind fun a => orCrash (f a) := by
  cases o <;> rfl

/-- A way to read the bytes of a mapped file. -/
class ReadsFile (S : Signature) where
  byte : Bytes → Word → Prog S Exception Byte

@[default_instance] instance : ReadsFile sys where
  byte file offset := orCrash (fileByte file offset)

/-! ### The format -/

def ELFMAG : Bytes := [0x7f, 0x45, 0x4c, 0x46]
def ELFCLASS64 : Word := 2
def ET_DYN : Word := 3
def PT_LOAD : Word := 1
def SHT_SYMTAB : Word := 2
def SHT_STRTAB : Word := 3
def SHT_DYNAMIC : Word := 6
def SHT_DYNSYM : Word := 11
def DT_NEEDED : Word := 1

/-- `ELF`, with the contents of the file. A section that was not found has the
index `-1`. -/
structure ELF where
  file : Bytes
  dynamic : ℤ := -1
  dynstr : ℤ := -1
  dynsym : ℤ := -1
  strtab : ℤ := -1
  symtab : ℤ := -1
  deriving DecidableEq, Repr

namespace ELF

section Reading

variable {S : Signature} [ReadsFile S] (elf : ELF)

def bytes (offset : Word) (n : ℕ) : Prog S Exception Bytes :=
  bytesFrom (ReadsFile.byte elf.file) offset n

/-- An unsigned field of the given width. -/
def field (offset : Word) (width : ℕ) : Prog S Exception Word :=
  return BitVec.ofNat 64 (ByteMemory.leNat (← elf.bytes offset width))

/-- A string. None is longer than the mapping. -/
def string (offset : Word) : Prog S Exception Bytes :=
  stringFrom (ReadsFile.byte elf.file) .abort offset (elf.file.length + 4096)

/-- Fields of `Elf64_Ehdr`. -/
def e_type : Prog S Exception Word := elf.field 16 2
def e_phoff : Prog S Exception Word := elf.field 32 8
def e_shoff : Prog S Exception Word := elf.field 40 8
def e_phentsize : Prog S Exception Word := elf.field 54 2
def e_phnum : Prog S Exception Word := elf.field 56 2
def e_shentsize : Prog S Exception Word := elf.field 58 2
def e_shnum : Prog S Exception Word := elf.field 60 2
def e_shstrndx : Prog S Exception Word := elf.field 62 2

/-- Fields of `Elf64_Phdr`, `Elf64_Shdr`, `Elf64_Sym` and `Elf64_Dyn`, from the offset
of the entry. -/
def p_type (phdr : Word) : Prog S Exception Word := elf.field phdr 4
def p_flags (phdr : Word) : Prog S Exception Word := elf.field (phdr + 4) 4
def p_vaddr (phdr : Word) : Prog S Exception Word := elf.field (phdr + 16) 8
def sh_name (shdr : Word) : Prog S Exception Word := elf.field shdr 4
def sh_type (shdr : Word) : Prog S Exception Word := elf.field (shdr + 4) 4
def sh_offset (shdr : Word) : Prog S Exception Word := elf.field (shdr + 24) 8
def sh_size (shdr : Word) : Prog S Exception Word := elf.field (shdr + 32) 8
def sh_entsize (shdr : Word) : Prog S Exception Word := elf.field (shdr + 56) 8
def st_name (sym : Word) : Prog S Exception Word := elf.field sym 4
def st_value (sym : Word) : Prog S Exception Word := elf.field (sym + 8) 8
def d_tag (dyn : Word) : Prog S Exception Word := elf.field dyn 8
def d_val (dyn : Word) : Prog S Exception Word := elf.field (dyn + 8) 8

/-- The product of the index and the size is an `int`. -/
def phdr (idx : ℤ) : Prog S Exception Word := do
  if idx < 0 then
    throw (.fatal (text "Illegal phdr index: " ++ signedDecimal idx))
  return (← elf.e_phoff) + (BitVec.ofInt 32 (idx * (← elf.e_phentsize).toNat)).signExtend 64

def shdr (idx : ℤ) : Prog S Exception Word := do
  if idx < 0 then
    throw (.fatal (text "Illegal shdr index: " ++ signedDecimal idx))
  return (← elf.e_shoff) + (BitVec.ofInt 32 (idx * (← elf.e_shentsize).toNat)).signExtend 64

/-- `strcmp(name, lit) == 0`. -/
def strcmp (name : Word) (lit : String) : Prog S Exception Bool :=
  strcmpFrom (ReadsFile.byte elf.file) name (text lit)

/-! ### Opening and parsing -/

/-- The checks of `Open` on a file that has been mapped. -/
def check (target : Bytes) : Prog S Exception Unit := do
  if (← elf.bytes 0 4) ≠ ELFMAG then
    throw (.fatal (text "File " ++ target ++ text " does not have correct ELF magic header"))
  let elf_class ← elf.field 4 1
  if elf_class ≠ ELFCLASS64 then
    throw (.fatal (text "Target ELF file has EI_CLASS=" ++ decimal elf_class.toNat ++
      text ", but for this architecture we expected EI_CLASS=" ++ decimal ELFCLASS64.toNat))

/-- `Open`, on an `ELF` that has no file yet. -/
def openIn (fuel : ℕ) (target : Bytes) (ns : Namespace) : Tracer ELF := do
  let fd ← ns.openIn target
  if fd = -1 then
    throw (.fatal (text "Failed to open ELF file " ++ target ++ text ": " ++ (← ask .errno)))
  let mapped ← ask (.mapFile fd)
  close fuel fd
  let file ← orThrow (fun e => .fatal (text "Failed to mmap " ++ target ++ text ": " ++ e)) mapped
  let elf : ELF := { file }
  elf.check target
  return elf

/-- The name of a section. `strtab` takes it as an `int`. -/
def strtabName (s : Word) : Prog S Exception Word := do
  let strings ← elf.shdr (← elf.e_shstrndx).toNat
  return (← elf.sh_offset strings) + ((← elf.sh_name s).setWidth 32).signExtend 64

/-- The `switch` of `Parse`. -/
def parseSection (elf : ELF) (i : ℕ) : Prog S Exception ELF := do
  let s ← elf.shdr i
  let sh_type ← elf.sh_type s
  if sh_type = SHT_STRTAB then
    if ← elf.strcmp (← elf.strtabName s) ".dynstr" then
      return { elf with dynstr := i }
    else if ← elf.strcmp (← elf.strtabName s) ".strtab" then
      return { elf with strtab := i }
    else
      return elf
  else if sh_type = SHT_DYNSYM then
    return { elf with dynsym := i }
  else if sh_type = SHT_DYNAMIC then
    return { elf with dynamic := i }
  else if sh_type = SHT_SYMTAB then
    return { elf with symtab := i }
  else
    return elf

def parse (elf : ELF) : Prog S Exception ELF := do
  let e_shnum ← elf.e_shnum
  let elf ← (List.range' 1 (e_shnum.toNat - 1)).foldlM parseSection elf
  if elf.dynamic = -1 then
    throw (.fatal (text "Failed to find section .dynamic"))
  else if elf.dynstr = -1 then
    throw (.fatal (text "Failed to find section .dynstr"))
  else if elf.dynsym = -1 then
    throw (.fatal (text "Failed to find section .dynsym"))
  else
    return elf

/-- The number of entries of a section. -/
def entries (s : Word) : Prog S Exception ℕ := do
  let sh_entsize ← elf.sh_entsize s
  if sh_entsize = 0 then
    .abort
  else
    return (← elf.sh_size s).toNat / sh_entsize.toNat

/-- The offset of an entry. -/
def entry (s : Word) (i : BitVec 16) : Prog S Exception Word :=
  return (← elf.sh_offset s) + i.setWidth 64 * (← elf.sh_entsize s)

/-- One pass of the loop of `NeededLibs`. Its counter has 16 bits. -/
def neededStep (s d : Word) :
    BitVec 16 × List Bytes → Prog S Exception ((BitVec 16 × List Bytes) ⊕ List Bytes) :=
  fun (i, needed) => do
    if i.toNat < (← elf.entries s) then
      let dyn ← elf.entry s i
      if (← elf.d_tag dyn) = DT_NEEDED then
        let lib ← elf.string ((← elf.sh_offset d) + (← elf.d_val dyn))
        return .inl (i + 1, needed ++ [lib])
      else
        return .inl (i + 1, needed)
    else
      return .inr needed

def neededLibs (fuel : ℕ) : Prog S Exception (List Bytes) := do
  let s ← elf.shdr elf.dynamic
  let d ← elf.shdr elf.dynstr
  Prog.forever (elf.neededStep s d) fuel (0, [])

/-! ### Addresses -/

/-- The variables of the loop of `WalkTable`. -/
structure Walk where
  i : BitVec 16 := 0
  addrs : PyAddresses
  abi : PyABI := .unknown
  have_abi : Bool := false

def Walk.done (w : Walk) : Bool :=
  w.have_abi ∧ w.addrs.tstate_addr ≠ 0 ∧ w.addrs.interp_head_addr ≠ 0 ∧
    w.addrs.interp_head_fn_addr ≠ 0

/-- `strcmp(name, lit) == 0` for a symbol that has not been found yet. -/
def isMissing (addr name : Word) (lit : String) : Prog S Exception Bool :=
  if addr = 0 then elf.strcmp name lit else return false

/-- `strcmp(name, lit) == 0` for one of the literals. -/
def isOneOf (name : Word) : List String → Prog S Exception Bool
  | [] => return false
  | lit :: lits => do
      if ← elf.strcmp name lit then
        return true
      else
        isOneOf name lits

/-- The symbols that were added for Python 3.6. -/
def py36Symbols : List String :=
  ["_PyEval_RequestCodeExtraIndex", "_PyCode_GetExtra", "_PyCode_SetExtra"]

/-- What a symbol that is not one of the addresses says about the ABI. -/
def walkABI (name : Word) (w : Walk) : Prog S Exception Walk := do
  if w.have_abi then
    return w
  else if ← elf.strcmp name "PyString_Type" then
    return { w with have_abi := true, abi := .py26 }
  else if ← elf.strcmp name "PyBytes_Type" then
    return { w with abi := .py34 }
  else if ← elf.isOneOf name py36Symbols then
    return { w with have_abi := true, abi := .py36 }
  else
    return w

/-- The `if` chain of `WalkTable`, on one entry. -/
def walkEntry (sym name : Word) (w : Walk) : Prog S Exception Walk := do
  if ← elf.isMissing w.addrs.tstate_addr name "_PyThreadState_Current" then
    return { w with addrs := { w.addrs with tstate_addr := ← elf.st_value sym } }
  else if ← elf.isMissing w.addrs.interp_head_addr name "interp_head" then
    return { w with addrs := { w.addrs with interp_head_addr := ← elf.st_value sym } }
  else if ← elf.isMissing w.addrs.interp_head_addr name "PyInterpreterState_Head" then
    return { w with addrs := { w.addrs with interp_head_fn_addr := ← elf.st_value sym } }
  else
    elf.walkABI name w

/-- One pass of the loop. Its counter has 16 bits. -/
def walkStep (s d : Word) : Walk → Prog S Exception (Walk ⊕ Walk) := fun w => do
  if w.i.toNat < (← elf.entries s) then
    if w.done then
      return .inr w
    else
      let sym ← elf.entry s w.i
      let name := (← elf.sh_offset d) + (← elf.st_name sym)
      let w ← elf.walkEntry sym name w
      return .inl { w with i := w.i + 1 }
  else
    return .inr w

def walkTable (fuel : ℕ) (sym str : ℤ) (addrs : PyAddresses) :
    Prog S Exception (PyABI × PyAddresses) := do
  let s ← elf.shdr sym
  let d ← elf.shdr str
  let w ← Prog.forever (elf.walkStep s d) fuel { addrs }
  return (w.abi, w.addrs)

/-- The loop of `GetBaseAddress`, from an index on. -/
def firstLoad (i : ℕ) : ℕ → Prog S Exception Word
  | 0 => throw (.fatal (text "Failed to find PT_LOAD entry in program headers"))
  | n + 1 => do
      let phdr ← elf.phdr i
      if (← elf.p_type phdr) ≠ PT_LOAD then
        firstLoad (i + 1) n
      else
        elf.p_vaddr phdr

def getBaseAddress : Prog S Exception Word := do
  elf.firstLoad 0 (← elf.e_phnum).toNat

/-- The part of `GetAddresses` that walks the tables. -/
def symbols (fuel : ℕ) : Prog S Exception (PyABI × PyAddresses) := do
  let (detected_abi, addrs) ← elf.walkTable fuel elf.dynsym elf.dynstr {}
  if 0 ≤ elf.symtab ∧ 0 ≤ elf.strtab then
    elf.walkTable fuel elf.symtab elf.strtab addrs
  else
    return (detected_abi, addrs)

def getAddresses (fuel : ℕ) : Prog S Exception (PyABI × PyAddresses) := do
  let (detected_abi, addrs) ← elf.symbols fuel
  let e_type ← elf.e_type
  let addrs := { addrs with pie := e_type = ET_DYN }
  if e_type = ET_DYN then
    return (detected_abi, addrs.sub (← elf.getBaseAddress))
  else
    return (detected_abi, addrs)

end Reading

variable (elf : ELF)

theorem bytes_eq (offset : Word) (n : ℕ) :
    elf.bytes offset n = orCrash (fileBytes elf.file offset n) := by
  induction n generalizing offset with
  | zero => rfl
  | succ n ih =>
      rw [fileBytes_succ, Option.bind_eq_bind, orCrash_bind]
      show (orCrash (fileByte elf.file offset)).bind _ = _
      congr 1
      funext b
      rw [Option.bind_eq_bind, orCrash_bind, ← ih]
      rfl

theorem field_eq (offset : Word) (width : ℕ) :
    elf.field offset width = orCrash (fileField elf.file offset width) := by
  rw [field, bytes_eq, fileField]
  cases fileBytes elf.file offset width <;> rfl

theorem strcmp_eq (name : Word) (lit : String) :
    elf.strcmp name lit = orCrash (fileStrcmp elf.file name (text lit)) := by
  rw [strcmp]
  induction text lit generalizing name with
  | nil =>
      rw [fileStrcmp_nil, Option.bind_eq_bind, orCrash_bind]
      rfl
  | cons b lit ih =>
      rw [fileStrcmp_cons, Option.bind_eq_bind, orCrash_bind]
      show (orCrash (fileByte elf.file name)).bind _ = _
      congr 1
      funext c
      split_ifs
      · exact ih _
      · rfl

theorem string_eq (offset : Word) :
    elf.string offset = orCrash (fileString elf.file offset (elf.file.length + 4096)) := by
  rw [string]
  induction elf.file.length + 4096 generalizing offset with
  | zero => rfl
  | succ n ih =>
      rw [fileString_succ, Option.bind_eq_bind, orCrash_bind]
      show (orCrash (fileByte elf.file offset)).bind _ = _
      congr 1
      funext b
      split_ifs
      · rfl
      · rw [Option.bind_eq_bind, orCrash_bind, ← ih]
        rfl

/-! ### What is asked for -/

section Quiet

variable {α : Type}

theorem quiet_orCrash (o : Option α) : (orCrash o).Quiet := by cases o <;> trivial

theorem quiet_field (offset : Word) (width : ℕ) : (elf.field offset width).Quiet :=
  elf.field_eq offset width ▸ quiet_orCrash _

theorem quiet_strcmp (name : Word) (lit : String) : (elf.strcmp name lit).Quiet :=
  elf.strcmp_eq name lit ▸ quiet_orCrash _

theorem quiet_phdr (idx : ℤ) : (elf.phdr idx).Quiet :=
  .ite trivial (.bind (elf.quiet_field _ _) fun _ => .bind (elf.quiet_field _ _) fun _ => trivial)

theorem quiet_shdr (idx : ℤ) : (elf.shdr idx).Quiet :=
  .ite trivial (.bind (elf.quiet_field _ _) fun _ => .bind (elf.quiet_field _ _) fun _ => trivial)

theorem quiet_check (target : Bytes) : (elf.check target).Quiet := by
  refine .bind (elf.bytes_eq 0 4 ▸ quiet_orCrash _) fun magic => .ite trivial ?_
  exact .bind (elf.quiet_field _ _) fun elf_class => .ite trivial trivial

theorem only_openIn (fuel : ℕ) (target : Bytes) (ns : Namespace) :
    (openIn fuel target ns).Only Request.Foreign := by
  refine .bind (ns.only_openIn target) fun fd => ?_
  refine .ite ⟨trivial, fun _ => trivial⟩ (.bind (.ask trivial) fun mapped => ?_)
  refine .bind (only_close fuel fd) fun _ => .bind (only_orThrow _ mapped) fun file => ?_
  exact .bind (.of_quiet (quiet_check _ target)) fun _ => trivial

theorem quiet_strtabName (s : Word) : (elf.strtabName s).Quiet := by
  refine .bind (elf.quiet_field _ _) fun e_shstrndx => .bind (elf.quiet_shdr _) fun strings => ?_
  exact .bind (elf.quiet_field _ _) fun _ => .bind (elf.quiet_field _ _) fun _ => trivial

theorem quiet_parseSection (i : ℕ) : (elf.parseSection i).Quiet := by
  refine .bind (elf.quiet_shdr _) fun s => .bind (elf.quiet_field _ _) fun sh_type => ?_
  refine .ite ?_ (.ite trivial (.ite trivial (.ite trivial trivial)))
  refine .bind (elf.quiet_strtabName s) fun name => .bind (elf.quiet_strcmp _ _) fun b => ?_
  refine .ite trivial ?_
  exact .bind (elf.quiet_strtabName s) fun name => .bind (elf.quiet_strcmp _ _) fun b =>
    .ite trivial trivial

theorem quiet_parse : elf.parse.Quiet := by
  refine .bind (elf.quiet_field _ _) fun e_shnum => ?_
  exact .bind (.foldlM quiet_parseSection _ _) fun elf =>
    .ite trivial (.ite trivial (.ite trivial trivial))

theorem quiet_entries (s : Word) : (elf.entries s).Quiet :=
  .bind (elf.quiet_field _ _) fun _ => .ite trivial (.bind (elf.quiet_field _ _) fun _ => trivial)

theorem quiet_entry (s : Word) (i : BitVec 16) : (elf.entry s i).Quiet :=
  .bind (elf.quiet_field _ _) fun _ => .bind (elf.quiet_field _ _) fun _ => trivial

theorem quiet_neededLibs (fuel : ℕ) : (elf.neededLibs fuel).Quiet := by
  refine .bind (elf.quiet_shdr _) fun s => .bind (elf.quiet_shdr _) fun d => .forever ?_ _ _
  rintro ⟨i, needed⟩
  refine .bind (elf.quiet_entries s) fun n => .ite ?_ trivial
  refine .bind (elf.quiet_entry s i) fun dyn => .bind (elf.quiet_field _ _) fun d_tag => ?_
  refine .ite ?_ trivial
  exact .bind (elf.quiet_field _ _) fun _ => .bind (elf.quiet_field _ _) fun _ =>
    .bind (elf.string_eq _ ▸ quiet_orCrash _) fun _ => trivial

theorem quiet_isMissing (addr name : Word) (lit : String) : (elf.isMissing addr name lit).Quiet :=
  .ite (elf.quiet_strcmp _ _) trivial

theorem quiet_isOneOf (name : Word) (lits : List String) : (elf.isOneOf name lits).Quiet := by
  induction lits with
  | nil => trivial
  | cons lit lits ih => exact .bind (elf.quiet_strcmp _ _) fun b => .ite trivial ih

theorem quiet_walkABI (name : Word) (w : Walk) : (elf.walkABI name w).Quiet := by
  refine .ite trivial (.bind (elf.quiet_strcmp _ _) fun b => .ite trivial ?_)
  refine .bind (elf.quiet_strcmp _ _) fun b => .ite trivial ?_
  exact .bind (elf.quiet_isOneOf _ _) fun b => .ite trivial trivial

theorem quiet_walkEntry (sym name : Word) (w : Walk) : (elf.walkEntry sym name w).Quiet := by
  have hvalue : ∀ f : Word → Walk,
      ((elf.st_value sym).bind fun value => (pure (f value) : Tracer Walk)).Quiet :=
    fun f => .bind (elf.quiet_field _ _) fun _ => trivial
  refine .bind (elf.quiet_isMissing _ _ _) fun b => .ite (hvalue _) ?_
  refine .bind (elf.quiet_isMissing _ _ _) fun b => .ite (hvalue _) ?_
  refine .bind (elf.quiet_isMissing _ _ _) fun b => .ite (hvalue _) ?_
  exact elf.quiet_walkABI name w

theorem quiet_walkTable (fuel : ℕ) (sym str : ℤ) (addrs : PyAddresses) :
    (elf.walkTable fuel sym str addrs).Quiet := by
  refine .bind (elf.quiet_shdr _) fun s => .bind (elf.quiet_shdr _) fun d => ?_
  refine .bind (.forever (fun w => ?_) _ _) fun w => trivial
  refine .bind (elf.quiet_entries s) fun n => .ite (.ite trivial ?_) trivial
  refine .bind (elf.quiet_entry s w.i) fun sym => .bind (elf.quiet_field _ _) fun _ => ?_
  exact .bind (elf.quiet_field _ _) fun _ => .bind (elf.quiet_walkEntry _ _ w) fun _ => trivial

theorem quiet_firstLoad (i n : ℕ) : (elf.firstLoad i n).Quiet := by
  induction n generalizing i with
  | zero => trivial
  | succ n ih =>
      refine .bind (elf.quiet_phdr _) fun phdr => .bind (elf.quiet_field _ _) fun p_type => ?_
      exact .ite (ih _) (elf.quiet_field _ _)

theorem quiet_getAddresses (fuel : ℕ) : (elf.getAddresses fuel).Quiet := by
  have hsymbols : (elf.symbols fuel).Quiet := by
    refine .bind (elf.quiet_walkTable _ _ _ _) fun r => ?_
    exact .ite (elf.quiet_walkTable _ _ _ _) trivial
  refine .bind hsymbols fun r => .bind (elf.quiet_field _ _) fun e_type => .ite ?_ trivial
  exact .bind (.bind (elf.quiet_field _ _) fun _ => elf.quiet_firstLoad _ _) fun _ => trivial

end Quiet

/-! ### What is recorded is in the tables -/

/-- One of the entries of a table has this name and this value. -/
def HasSymbol (sym str : ℤ) (lit : String) (value : Word) : Prop :=
  ∃ s d n, elf.shdr sym = .ret s ∧ elf.shdr str = .ret d ∧ elf.entries s = .ret n ∧
    ∃ (i : BitVec 16) (entry sh_offset st_name : Word), i.toNat < n ∧ elf.entry s i = .ret entry ∧
      elf.sh_offset d = .ret sh_offset ∧ elf.st_name entry = .ret st_name ∧
        elf.strcmp (sh_offset + st_name) lit = .ret true ∧ elf.st_value entry = .ret value

/-- One of the entries of the two tables. -/
def InTables (lit : String) (value : Word) : Prop :=
  elf.HasSymbol elf.dynsym elf.dynstr lit value ∨ elf.HasSymbol elf.symtab elf.strtab lit value

/-- Each address is zero or the value of the symbol it is named for, and there is no
hint. -/
structure Recorded (T : String → Word → Prop) (addrs : PyAddresses) : Prop where
  tstate_addr : addrs.tstate_addr = 0 ∨ T "_PyThreadState_Current" addrs.tstate_addr
  interp_head_addr : addrs.interp_head_addr = 0 ∨ T "interp_head" addrs.interp_head_addr
  interp_head_fn_addr :
    addrs.interp_head_fn_addr = 0 ∨ T "PyInterpreterState_Head" addrs.interp_head_fn_addr
  interp_head_hint : addrs.interp_head_hint = 0

section

variable {elf} {α β : Type} {P : α → Prop} {T : String → Word → Prop}

theorem ensures_isMissing {addr name : Word} {lit : String} {f : Bool → Tracer α}
    (htrue : elf.strcmp name lit = .ret true → Returns P (f true)) (hfalse : Returns P (f false)) :
    Returns P ((elf.isMissing addr name lit).bind f) := by
  unfold isMissing
  split_ifs
  · refine .bind_quiet (elf.quiet_strcmp _ _) fun b hb => ?_
    cases b with
    | true => exact htrue hb
    | false => exact hfalse
  · exact hfalse

/-- The symbols that tell the ABI leave the addresses alone. -/
theorem walkABI_addrs (name : Word) (w : Walk) :
    Returns (fun w' => w'.addrs = w.addrs) (elf.walkABI name w) := by
  unfold walkABI
  split_ifs
  · exact .ret rfl
  · refine Returns.bind fun b => ?_
    split_ifs
    · exact .ret rfl
    · refine Returns.bind fun b => ?_
      split_ifs
      · exact .ret rfl
      · refine Returns.bind fun b => ?_
        split_ifs <;> exact .ret rfl

theorem walkEntry_recorded {sym name : Word} {w : Walk} (hw : Recorded T w.addrs)
    (hT : ∀ lit value, elf.strcmp name lit = .ret true → elf.st_value sym = .ret value → T lit value) :
    Returns (fun w' => Recorded T w'.addrs) (elf.walkEntry sym name w) := by
  refine ensures_isMissing (fun hname => ?_) ?_
  · refine .bind_quiet (elf.quiet_field _ _) fun value hvalue => .ret ?_
    exact ⟨.inr (hT _ _ hname hvalue), hw.interp_head_addr, hw.interp_head_fn_addr, hw.interp_head_hint⟩
  refine ensures_isMissing (fun hname => ?_) ?_
  · refine .bind_quiet (elf.quiet_field _ _) fun value hvalue => .ret ?_
    exact ⟨hw.tstate_addr, .inr (hT _ _ hname hvalue), hw.interp_head_fn_addr, hw.interp_head_hint⟩
  refine ensures_isMissing (fun hname => ?_) ?_
  · refine .bind_quiet (elf.quiet_field _ _) fun value hvalue => .ret ?_
    exact ⟨hw.tstate_addr, hw.interp_head_addr, .inr (hT _ _ hname hvalue), hw.interp_head_hint⟩
  · exact (walkABI_addrs name w).mono fun w' h => h ▸ hw

theorem walkTable_recorded {fuel : ℕ} {sym str : ℤ} {addrs : PyAddresses} (haddrs : Recorded T addrs)
    (hT : ∀ lit value, elf.HasSymbol sym str lit value → T lit value) :
    Returns (fun r => Recorded T r.2) (elf.walkTable fuel sym str addrs) := by
  refine .bind_quiet (elf.quiet_shdr sym) fun s hs => .bind_quiet (elf.quiet_shdr str) fun d hd => ?_
  refine Ensures.bind_of (Q := fun w : Walk => Recorded T w.addrs) ?_ fun w hw => .ret hw
  refine .forever (I := fun w : Walk => Recorded T w.addrs) (fun w hw => ?_) fuel haddrs
  refine .bind_quiet (elf.quiet_entries s) fun n hn => ?_
  split_ifs with hi
  · exact .ret hw
  · refine .bind_quiet (elf.quiet_entry s w.i) fun entry hentry =>
      .bind_quiet (elf.quiet_field _ _) fun sh_offset hoffset =>
        .bind_quiet (elf.quiet_field _ _) fun st_name hname => ?_
    refine Ensures.bind_of (walkEntry_recorded hw fun lit value hlit hvalue => ?_) fun w' hw' => .ret hw'
    exact hT _ _ ⟨s, d, n, hs, hd, hn, w.i, entry, sh_offset, st_name, hi, hentry, hoffset, hname,
      hlit, hvalue⟩
  · exact .ret hw

theorem symbols_returns (elf : ELF) (fuel : ℕ) :
    Returns (fun r => Recorded elf.InTables r.2) (elf.symbols fuel) := by
  have hnone : Recorded elf.InTables {} := ⟨.inl rfl, .inl rfl, .inl rfl, rfl⟩
  refine Ensures.bind_of (walkTable_recorded hnone fun _ _ => Or.inl) fun r hr => ?_
  simp only
  split_ifs
  · exact walkTable_recorded hr fun _ _ => Or.inr
  · exact .ret hr

/-- The addresses that `GetAddresses` starts from are values of symbols. -/
theorem symbols_recorded {fuel : ℕ} {abi : PyABI} {addrs : PyAddresses}
    (h : elf.symbols fuel = .ret (abi, addrs)) : Recorded elf.InTables addrs := by
  have hreturns := elf.symbols_returns fuel
  rw [h] at hreturns
  exact hreturns () _ rfl

theorem getAddresses_hint (elf : ELF) (fuel : ℕ) :
    Returns (fun r => r.2.interp_head_hint = 0) (elf.getAddresses fuel) := by
  refine (elf.symbols_returns fuel).bind_of fun r hr => Returns.bind fun e_type => ?_
  split_ifs
  · exact Returns.bind fun base => .ret hr.interp_head_hint
  · exact .ret hr.interp_head_hint

end

end ELF

/-! ### A small file -/

/-- A file with two `PT_LOAD` segments, at `0` and `0x1000`, with these flags. Its
dynamic symbols are `_PyThreadState_Current`, of value `0x1234`. -/
def smallFile (flags flags' : ℕ) : Bytes :=
  let le := ByteMemory.leBytes
  let phdr (flags vaddr : ℕ) := le 4 1 ++ le 4 flags ++ le 8 vaddr ++ le 8 vaddr ++ le 32 0
  let shdr (name type offset size entsize : ℕ) :=
    le 4 name ++ le 4 type ++ le 16 0 ++ le 8 offset ++ le 8 size ++ le 16 0 ++ le 8 entsize
  ELFMAG ++ le 12 2 ++ le 2 3 ++ le 14 0 ++ le 8 64 ++ le 8 176 ++ le 6 0 ++ le 2 56 ++ le 2 2 ++
    le 2 64 ++ le 2 4 ++ le 2 1 ++
  phdr flags 0 ++ phdr flags' 0x1000 ++
  shdr 0 0 0 0 0 ++ shdr 1 3 456 32 0 ++ shdr 0 11 432 24 24 ++ shdr 0 6 0 0 16 ++
  le 8 9 ++ le 16 0x1234 ++
  le 1 0 ++ text ".dynstr" ++ le 1 0 ++ text "_PyThreadState_Current" ++ le 1 0

def smallELF (flags flags' : ℕ) : ELF :=
  { file := smallFile flags flags', dynamic := 3, dynstr := 1, dynsym := 2 }

end Pyflame
