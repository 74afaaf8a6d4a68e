import Mathlib.Data.List.Nodup
import Mathlib.Logic.Function.Basic
import Pyflame.PyFrob

/-!
Where the symbols of a relocated file are, and where `Addrs` says they are.

`GetAddresses` subtracts the address of the first `PT_LOAD` entry and the
callers add the start of the first mapping with permissions `r-xp` that
mentions the file. The two cancel out only if they belong to the same segment.
-/

namespace Pyflame

open Interaction

/-! ### Program headers -/

/-- The fields of `Elf64_Phdr` that matter for where a file is mapped. -/
structure Phdr where
  p_type : Word
  p_flags : Word
  p_vaddr : Word
  deriving DecidableEq, Repr

namespace Phdr

variable (p : Phdr)

def isLoad : Bool := p.p_type = PT_LOAD

/-- `PF_R` and `PF_X` are set, and `PF_W` is not. -/
def isText : Bool := p.p_flags &&& 7 = 5

end Phdr

namespace ELF

variable {elf : ELF}

def readPhdr (elf : ELF) (i : ℕ) : Tracer Phdr := do
  let phdr ← elf.phdr i
  return ⟨← elf.p_type phdr, ← elf.p_flags phdr, ← elf.p_vaddr phdr⟩

/-- The program header table of the file. -/
structure HasPhdrs (elf : ELF) (phdrs : List Phdr) : Prop where
  e_phnum : ∃ n, elf.e_phnum = .ret n ∧ n.toNat = phdrs.length
  entries : ∀ i (h : i < phdrs.length), elf.readPhdr i = .ret phdrs[i]

theorem phdr_of_readPhdr {i : ℕ} {p : Phdr} (h : elf.readPhdr i = .ret p) :
    ∃ phdr, elf.phdr i = .ret phdr ∧ elf.p_type phdr = .ret p.p_type ∧
      elf.p_vaddr phdr = .ret p.p_vaddr := by
  obtain ⟨phdr, hphdr, h⟩ := Prog.bind_eq_ret.mp h
  obtain ⟨p_type, htype, h⟩ := Prog.bind_eq_ret.mp h
  obtain ⟨p_flags, hflags, h⟩ := Prog.bind_eq_ret.mp h
  obtain ⟨p_vaddr, hvaddr, h⟩ := Prog.bind_eq_ret.mp h
  cases h
  exact ⟨phdr, hphdr, htype, hvaddr⟩

theorem firstLoad_eq {phdrs : List Phdr} {p : Phdr} (hp : phdrs.find? Phdr.isLoad = some p) {i : ℕ}
    (h : ∀ j (hj : j < phdrs.length), elf.readPhdr (i + j) = .ret phdrs[j]) :
    elf.firstLoad i phdrs.length = .ret p.p_vaddr := by
  induction phdrs generalizing i with
  | nil => contradiction
  | cons q phdrs ih =>
      obtain ⟨phdr, hphdr, htype, hvaddr⟩ := phdr_of_readPhdr (h 0 (Nat.zero_lt_succ _))
      rw [Nat.add_zero] at hphdr
      rw [List.length_cons, firstLoad, hphdr]
      simp only [Prog.bind_eq, Prog.ret_bind, htype, List.getElem_cons_zero]
      by_cases hq : q.isLoad = true
      · have hp_eq : q = p := by rwa [List.find?_cons_of_pos hq, Option.some.injEq] at hp
        subst hp_eq
        rw [if_neg (not_not.mpr (of_decide_eq_true hq)), hvaddr]
        rfl
      · rw [if_pos fun hc => hq (decide_eq_true hc)]
        refine ih (by rwa [List.find?_cons_of_neg hq] at hp) fun j hj => ?_
        have := h (j + 1) (Nat.succ_lt_succ hj)
        rwa [Nat.add_assoc, Nat.add_comm 1 j]

/-- `GetBaseAddress` returns the address of the first `PT_LOAD` entry. -/
theorem HasPhdrs.getBaseAddress {phdrs : List Phdr} {p : Phdr} (h : elf.HasPhdrs phdrs)
    (hp : phdrs.find? Phdr.isLoad = some p) : elf.getBaseAddress = .ret p.p_vaddr := by
  obtain ⟨n, hn, hlen⟩ := h.e_phnum
  rw [ELF.getBaseAddress, hn]
  simp only [Prog.bind_eq, Prog.ret_bind, hlen]
  exact firstLoad_eq hp fun j hj => by rw [Nat.zero_add]; exact h.entries j hj

end ELF

/-! ### Addresses -/

namespace PyAddresses

/-- The addresses of symbols. -/
def fields (addrs : PyAddresses) : List Word :=
  [addrs.tstate_addr, addrs.interp_head_addr, addrs.interp_head_fn_addr]

/-- Each symbol that was found is at `B` plus its value, and the others stay zero. -/
def RunTime (B : Word) (found out : PyAddresses) : Prop :=
  out.fields = found.fields.map (relocate (B + ·))

instance (B : Word) (found out : PyAddresses) : Decidable (RunTime B found out) :=
  inferInstanceAs (Decidable (_ = _))

theorem relocate_zero (shift : Word → Word) : relocate shift 0 = 0 := if_pos rfl

theorem relocate_of_ne_zero (shift : Word → Word) {v : Word} (h : v ≠ 0) : relocate shift v = shift v :=
  if_neg h

/-- Subtracting an address and adding another one, with zero standing for a symbol
that was not found. -/
theorem relocate_relocate_iff {base offset B v : Word} (hB : B + base ≠ 0) :
    relocate (· + offset) (relocate (· - base) v) = relocate (B + ·) v ↔
      v = 0 ∨ v ≠ base ∧ offset = B + base := by
  by_cases hv : v = 0
  · subst hv
    simp only [relocate_zero, true_or]
  rw [relocate_of_ne_zero _ hv, relocate_of_ne_zero _ hv]
  by_cases hbase : v = base
  · -- What is left of the value is a zero, which is taken for a missing symbol.
    subst hbase
    rw [BitVec.sub_self]
    exact iff_of_false (fun h => hB h.symm) fun h => h.elim hv fun h => h.1 rfl
  · have hsub : v - base ≠ 0 := by bv_omega
    have hsum : v - base + offset = B + v ↔ offset = B + base := by bv_omega
    rw [relocate_of_ne_zero _ hsub, hsum, or_iff_right hv, and_iff_right hbase]

theorem runTime_iff {base offset B : Word} {found : PyAddresses} (hB : B + base ≠ 0)
    (hfound : (found.sub base).empty = false) :
    RunTime B found ((found.sub base).add offset) ↔
      offset = B + base ∧ ∀ v ∈ found.fields, v = base → v = 0 := by
  have hempty : found.tstate_addr ≠ 0 ∧ found.tstate_addr ≠ base := by
    have hne : relocate (· - base) found.tstate_addr ≠ 0 := of_decide_eq_false hfound
    refine ⟨fun hzero => hne (if_pos hzero), fun hbase => hne ?_⟩
    by_cases hzero : found.tstate_addr = 0 <;> simp [relocate, hzero, hbase]
  have hmap : RunTime B found ((found.sub base).add offset) ↔
      ∀ v ∈ found.fields, v = 0 ∨ v ≠ base ∧ offset = B + base := by
    simp only [RunTime, fields, sub, add, List.map_cons, List.map_nil, List.cons.injEq, and_true,
      relocate_relocate_iff hB, List.forall_mem_cons, List.not_mem_nil, false_imp_iff, implies_true]
  rw [hmap]
  constructor
  · intro h
    have hoffset := ((h found.tstate_addr (by simp [fields])).resolve_left hempty.1).2
    exact ⟨hoffset, fun v hv hbase => (h v hv).resolve_right fun h => h.1 hbase⟩
  · rintro ⟨hoffset, h⟩ v hv
    by_cases hzero : v = 0
    · exact .inl hzero
    · exact .inr ⟨fun hbase => hzero (h v hv hbase), hoffset⟩

end PyAddresses

/-! ### Mappings -/

/-- The start of the page of an address. -/
def pageStart (a : Word) : Word := BitVec.ofNat 64 (a.toNat / 4096 * 4096)

theorem pageStart_eq_self_iff {a : Word} : pageStart a = a ↔ a.toNat % 4096 = 0 := by
  have hlt := a.isLt
  have hdiv := Nat.div_add_mod a.toNat 4096
  have htoNat : (pageStart a).toNat = a.toNat / 4096 * 4096 := by
    rw [pageStart, BitVec.toNat_ofNat, Nat.mod_eq_of_lt (by omega)]
  rw [← BitVec.toNat_inj, htoNat]
  omega

/-- The kernel has mapped each `PT_LOAD` segment of the file at its address plus
`B`, rounded down to a page, and lists the mappings in address order. -/
structure Loaded (B : Word) (phdrs : List Phdr) (path : Bytes) (ms : List Mapping) : Prop where
  ordered : ms.Pairwise fun m m' => m.start < m'.start
  listed : ∀ p ∈ phdrs, p.isLoad = true → ∃ m ∈ ms, m.pathname = path ∧
    m.start = pageStart (B + p.p_vaddr) ∧ m.rxp = p.isText

/-- The segment is readable and executable and not writable, it starts on a page, and its
mapping is the first one with permissions `r-xp` that mentions the hint. -/
structure TextFirst (B : Word) (p : Phdr) (hint : Bytes) (ms : List Mapping) : Prop where
  isText : p.isText = true
  aligned : pageStart (B + p.p_vaddr) = B + p.p_vaddr
  mentioned : ∀ m ∈ ms, m.start = B + p.p_vaddr → hint <:+: m.line
  lowest : ∀ m ∈ ms, m.start < B + p.p_vaddr → m.mentions hint = false

section

variable {B : Word} {phdrs : List Phdr} {path hint : Bytes} {ms : List Mapping} {p : Phdr}

theorem Loaded.eq_of_start_eq (h : Loaded B phdrs path ms) {m m' : Mapping} (hm : m ∈ ms)
    (hm' : m' ∈ ms) (heq : m.start = m'.start) : m = m' := by
  have hnodup : (ms.map Mapping.start).Nodup :=
    List.pairwise_map.mpr (h.ordered.imp fun hlt => BitVec.ne_of_lt hlt)
  exact List.inj_on_of_nodup_map hnodup hm hm' heq

/-- The segment of the first entry is not mapped at zero. -/
theorem Loaded.add_ne_zero (h : Loaded B phdrs path ms) (hp : p ∈ phdrs) (hload : p.isLoad = true) :
    B + p.p_vaddr ≠ 0 := by
  obtain ⟨m, -, -, hstart, -⟩ := h.listed p hp hload
  intro hzero
  rw [hzero] at hstart
  exact m.start_ne_zero hstart

/-- The first mapping that mentions the hint is that of the segment, which starts there. -/
theorem Loaded.find_iff (h : Loaded B phdrs path ms) (hp : p ∈ phdrs) (hload : p.isLoad = true) :
    (∃ m, ms.find? (·.mentions hint) = some m ∧ m.start = B + p.p_vaddr) ↔
      TextFirst B p hint ms := by
  obtain ⟨m', hm', -, hstart', hrxp'⟩ := h.listed p hp hload
  constructor
  · rintro ⟨m, hfind, hstart⟩
    have hm := List.mem_of_find?_eq_some hfind
    have hmentions := List.find?_some hfind
    obtain ⟨hrxp, hhint⟩ := m.mentions_iff.mp hmentions
    have haligned : pageStart (B + p.p_vaddr) = B + p.p_vaddr :=
      pageStart_eq_self_iff.mpr (hstart ▸ m.aligned)
    have hsame : m' = m := h.eq_of_start_eq hm' hm (by rw [hstart', haligned, hstart])
    refine ⟨by rw [← hrxp', hsame, hrxp], haligned, fun m₁ hm₁ hstart₁ => ?_, fun m₁ hm₁ hlt => ?_⟩
    · exact h.eq_of_start_eq hm₁ hm (hstart₁.trans hstart.symm) ▸ hhint
    · obtain ⟨-, before, after, rfl, hbefore⟩ := List.find?_eq_some_iff_append.mp hfind
      rw [← hstart] at hlt
      rcases List.mem_append.mp hm₁ with hm₁ | hm₁
      · simpa using hbefore m₁ hm₁
      · rcases List.mem_cons.mp hm₁ with rfl | hm₁
        · exact absurd hlt (BitVec.lt_irrefl _)
        · have hafter := (List.pairwise_cons.mp (List.pairwise_append.mp h.ordered).2.1).1 m₁ hm₁
          exact absurd (BitVec.lt_trans hlt hafter) (BitVec.lt_irrefl _)
  · intro htext
    rw [htext.aligned] at hstart'
    have hmentions : m'.mentions hint = true :=
      m'.mentions_iff.mpr ⟨hrxp'.trans htext.isText, htext.mentioned m' hm' hstart'⟩
    cases hfind : ms.find? (·.mentions hint) with
    | none => exact absurd hmentions (by simpa using List.find?_eq_none.mp hfind m' hm')
    | some m =>
        refine ⟨m, rfl, ?_⟩
        have hm := List.find?_some hfind
        obtain ⟨-, before, after, rfl, hbefore⟩ := List.find?_eq_some_iff_append.mp hfind
        rcases List.mem_append.mp hm' with hm' | hm'
        · exact absurd hmentions (by simpa using hbefore m' hm')
        · rcases List.mem_cons.mp hm' with rfl | hm'
          · exact hstart'
          · have hlt := (List.pairwise_cons.mp (List.pairwise_append.mp h.ordered).2.1).1 m' hm'
            rw [hstart'] at hlt
            have := htext.lowest m (by simp) hlt
            rw [hm] at this
            contradiction

end

/-! ### Reading the files -/

/-- What the target's executable is, what the files hold, and the lines of its maps. -/
structure Files where
  exe : Bytes
  file : Bytes → Bytes
  lines : List Bytes

/-- One exchange with the file system. Its state is the path of each descriptor. Every
call may fail, and those that concern other things may have any reply. -/
def filesStep (pid : Pid) (F : Files) (fds : ℤ → Bytes) (r : Request) : r.Rep → (ℤ → Bytes) → Prop :=
  match r with
  | .readlink path => fun rep fds' =>
      fds' = fds ∧ ∀ name, rep = .ok name → path = exePath pid → name = F.exe
  | .openFile path => fun
      | .ok fd, fds' => fds' = Function.update fds fd path
      | .error _, fds' => fds' = fds
  | .mapFile fd => fun rep fds' => fds' = fds ∧ ∀ file, rep = .ok file → file = F.file (fds fd)
  | .readLines path => fun rep fds' => fds' = fds ∧ (path = mapsPath pid → rep = F.lines)
  | _ => fun _ fds' => fds' = fds

def files (pid : Pid) (F : Files) : Env sys (ℤ → Bytes) := ⟨filesStep pid F, fun _ _ => True⟩

/-- What the target's executable is, what the files hold, and where they are mapped. -/
structure Disk where
  exe : Bytes
  file : Bytes → Bytes
  maps : List Mapping

/-- The files and the lines that such a target has. -/
def Disk.files (D : Disk) : Files := ⟨D.exe, D.file, D.maps.map Mapping.line⟩

@[simp] theorem Disk.files_exe (D : Disk) : D.files.exe = D.exe := rfl
@[simp] theorem Disk.files_file (D : Disk) : D.files.file = D.file := rfl

/-- The file system of a target whose mappings are known. -/
def disk (pid : Pid) (D : Disk) : Env sys (ℤ → Bytes) := Pyflame.files pid D.files

section

variable {pid : Pid} {F : Files}

theorem ensures_readLink : Ensures (files pid F) (· = F.exe) (readLink (exePath pid)) := by
  refine Ensures.bind_of (Q := fun rep : Reply Bytes => ∀ name, rep = .ok name → name = F.exe)
    (.ask (fun _ => trivial) fun _ rep _ h name hname => h.2 name hname rfl) fun rep hrep => ?_
  cases rep with
  | ok name => exact .ret (hrep name rfl)
  | error => exact .raise

/-- `LocateLibPython` is told the lines. -/
theorem ensures_locateLibPython (hint path : Bytes) : Ensures (files pid F)
    (fun r => locateLine hint path F.lines = .ret r) (locateLibPython pid hint path) := by
  refine Ensures.bind_of (Q := (· = F.lines)) (.ask (fun _ => trivial) fun _ rep _ h => h.2 rfl) ?_
  rintro _ rfl
  exact .of_quiet (quiet_locateLine hint path F.lines)

/-- A descriptor that `Open` returns is one of the file. -/
theorem wp_nsOpenIn (ns : Namespace) (path : Bytes) (fds : ℤ → Bytes) :
    wp (files pid F) (fun o fds' => ∀ fd, o = .ok fd → fd ≠ -1 → fds' fd = path) (ns.openIn path)
      fds := by
  have hsetNs : ∀ {fd fds Q}, (∀ o, Q o fds) → wp (files pid F) Q (setNs fd) fds := by
    refine fun hQ => ⟨trivial, fun rep fds' h => ?_⟩
    obtain rfl : fds' = _ := h
    cases rep with
    | ok => exact hQ _
    | error => exact hQ _
  have hopen : ∀ fds, wp (files pid F) (fun o fds' => ∀ fd, o = .ok fd → fd ≠ -1 → fds' fd = path)
      (openFile path) fds := by
    refine fun fds => ⟨trivial, fun rep fds' h => ?_⟩
    cases rep with
    | ok fd =>
        rintro _ ⟨⟩ -
        rw [show fds' = _ from h]
        exact Function.update_self fd path fds
    | error =>
        rintro _ ⟨⟩ hne
        contradiction
  unfold Namespace.openIn
  split_ifs with hin
  · refine wp_bind.mpr (hsetNs fun o => ?_)
    cases o with
    | ok =>
        refine wp_bind.mpr (wp_mono (fun o fds' ho => ?_) (hopen fds))
        cases o with
        | ok fd =>
            refine wp_bind.mpr (hsetNs fun o => ?_)
            cases o with
            | ok =>
                rintro _ ⟨⟩ hne
                exact ho fd rfl hne
            | error | abort | cut => exact nofun
        | error | abort | cut => exact nofun
    | error | abort | cut => exact nofun
  · exact hopen fds

theorem wp_close {fuel : ℕ} {fd : ℤ} {fds : ℤ → Bytes} {Q : Outcome Exception Unit → (ℤ → Bytes) → Prop}
    (hQ : ∀ o, Q o fds) : wp (files pid F) Q (close fuel fd) fds := by
  unfold close
  split_ifs
  · exact hQ _
  · refine wp_forever (fun _ fds' => fds' = fds) ?_ ?_ fuel () rfl
    · rintro _ _ rfl
      exact hQ _
    · rintro _ _ rfl
      refine ⟨trivial, fun rep fds' h => ?_⟩
      obtain rfl : fds' = _ := h
      cases (rep : Bool) with
      | true => exact hQ _
      | false => rfl

/-- `Open` gives the contents of the file. -/
theorem ensures_openIn (fuel : ℕ) (target : Bytes) (ns : Namespace) :
    Ensures (files pid F) (· = ({ file := F.file target } : ELF)) (ELF.openIn fuel target ns) := by
  intro fds
  refine wp_bind_of (wp_nsOpenIn ns target fds) fun o fds₁ ho => ?_
  cases o with
  | error | abort | cut => intro elf hret; cases hret
  | ok fd =>
      simp only [onOk_ok]
      split_ifs with hfd
      · refine ⟨trivial, fun e fds₂ _ elf hret => ?_⟩
        cases hret
      · refine wp_bind.mpr ⟨trivial, ?_⟩
        intro mapped fds₂ hmap
        obtain ⟨rfl, hmapped⟩ := hmap
        refine wp_bind.mpr (wp_close fun o => ?_)
        cases o with
        | error | abort | cut => intro elf hret; cases hret
        | ok =>
            cases mapped with
            | error => intro elf hret; cases hret
            | ok file =>
                rw [hmapped file rfl, ho fd rfl hfd]
                have hchecked : Ensures (files pid F) (· = ({ file := F.file target } : ELF)) (do
                    let elf : ELF := { file := F.file target }
                    elf.check target
                    return elf) :=
                  (Ensures.anything (fun _ _ => trivial) _).bind_of fun _ _ => .ret rfl
                exact hchecked _

end

theorem ensures_locateMapping {pid : Pid} {D : Disk} (hint path : Bytes) : Ensures (files pid D.files)
    (fun r => match D.maps.find? (·.mentions hint) with
      | none => r = (0, path)
      | some m => r = (m.start, m.readName)) (locateLibPython pid hint path) := by
  refine (ensures_locateLibPython hint path).mono fun r hr => ?_
  rw [Disk.files, locateLine_map] at hr
  cases hfind : D.maps.find? (·.mentions hint) with
  | none =>
      rw [hfind] at hr
      exact (Prog.ret.inj hr).symm
  | some m =>
      simp only [hfind] at hr
      split_ifs at hr
      exact (Prog.ret.inj hr).symm

/-! ### The addresses of an image -/

/-- A file of type `ET_DYN`, as the target's files hold it. -/
structure Image (fuel : ℕ) (file : Bytes) where
  elf : ELF
  abi : PyABI
  /-- The value of each symbol that was found. -/
  found : PyAddresses
  phdrs : List Phdr
  /-- The first `PT_LOAD` entry. -/
  first : Phdr
  parse_eq : ({ file } : ELF).parse = .ret elf
  symbols_eq : elf.symbols fuel = .ret (abi, found)
  e_type_eq : elf.e_type = .ret ET_DYN
  hasPhdrs : elf.HasPhdrs phdrs
  first_eq : phdrs.find? Phdr.isLoad = some first

namespace Image

variable {fuel : ℕ} {file : Bytes} (image : Image fuel file)

theorem first_mem : image.first ∈ image.phdrs := List.mem_of_find?_eq_some image.first_eq

theorem first_isLoad : image.first.isLoad = true := List.find?_some image.first_eq

def relative : PyAddresses := { image.found with pie := true }.sub image.first.p_vaddr

theorem getAddresses_eq : image.elf.getAddresses fuel = .ret (image.abi, image.relative) := by
  rw [ELF.getAddresses, image.symbols_eq]
  simp only [Prog.bind_eq, Prog.ret_bind, image.e_type_eq, if_pos,
    image.hasPhdrs.getBaseAddress image.first_eq]
  rfl

/-- With the start of the first mapping that mentions the hint, or zero, added to them. -/
theorem runTime_iff {B : Word} {path hint : Bytes} {ms : List Mapping} {offset : Word}
    (hB : Loaded B image.phdrs path ms) (hsome : image.relative.empty = false)
    (hoffset : (ms.find? (·.mentions hint)).elim 0 Mapping.start = offset) :
    PyAddresses.RunTime B image.found (image.relative.add offset) ↔
      TextFirst B image.first hint ms ∧
        ∀ v ∈ image.found.fields, v = image.first.p_vaddr → v = 0 := by
  have hne := hB.add_ne_zero image.first_mem image.first_isLoad
  refine Iff.trans (PyAddresses.runTime_iff hne hsome) (and_congr_left fun _ => ?_)
  rw [← hB.find_iff image.first_mem image.first_isLoad]
  cases hfind : ms.find? (·.mentions hint) with
  | none =>
      rw [hfind] at hoffset
      refine iff_of_false (fun h => hne ?_) (by rintro ⟨m, hm, -⟩; contradiction)
      rw [← h, ← hoffset]
      rfl
  | some m =>
      rw [hfind] at hoffset
      subst hoffset
      constructor
      · exact fun h => ⟨m, rfl, h⟩
      · rintro ⟨_, ⟨⟩, h⟩
        exact h

end Image

/-- The addresses `Addrs` returns are those of the file at `path`, for which it looks
in the maps with this hint. -/
inductive TakenFrom (fuel : ℕ) (D : Disk) : Bytes → Bytes → Prop
  /-- The executable has them. -/
  | executable {exe : ELF} {abi : PyABI} {addrs : PyAddresses}
      (hparse : ({ file := D.file D.exe } : ELF).parse = .ret exe)
      (haddrs : exe.getAddresses fuel = .ret (abi, addrs)) (hsome : addrs.empty = false) :
      TakenFrom fuel D D.exe D.exe
  /-- The executable does not have them, and the library is mapped. -/
  | library {exe : ELF} {abi : PyABI} {addrs : PyAddresses} {needed : List Bytes} {m : Mapping}
      (hparse : ({ file := D.file D.exe } : ELF).parse = .ret exe)
      (haddrs : exe.getAddresses fuel = .ret (abi, addrs)) (hnone : addrs.empty = true)
      (hneeded : exe.neededLibs fuel = .ret needed)
      (hfind : D.maps.find? (·.mentions (libpythonOf needed)) = some m) :
      TakenFrom fuel D (libpythonOf needed) m.readName

/-- The addresses that `Addrs` returns are where the symbols are exactly if the first
`PT_LOAD` segment is also the first mapping with permissions `r-xp` that is found
and no symbol has the value of that segment's address. -/
theorem addrs_runTime_iff (fuel : ℕ) (pid : Pid) (D : Disk) (ns : Namespace) {hint path : Bytes}
    (htaken : TakenFrom fuel D hint path) (image : Image fuel (D.file path)) (B : Word)
    (hB : Loaded B image.phdrs path D.maps) :
    ELF.Recorded image.elf.InTables image.found ∧
    Ensures (disk pid D) (fun r => PyAddresses.RunTime B image.found r.2 ↔
      TextFirst B image.first hint D.maps ∧
        ∀ v ∈ image.found.fields, v = image.first.p_vaddr → v = 0) (addrs fuel pid ns) := by
  refine ⟨ELF.symbols_recorded image.symbols_eq, ?_⟩
  rw [disk]
  refine ensures_readLink.bind_of ?_
  rintro _ rfl
  refine (ensures_openIn fuel D.exe ns).bind_of ?_
  rintro _ rfl
  simp only [Disk.files_exe, Disk.files_file]
  cases htaken with
  | executable hparse haddrs hsome =>
      obtain ⟨⟩ := hparse.symm.trans image.parse_eq
      obtain ⟨⟩ := haddrs.symm.trans image.getAddresses_eq
      rw [hparse]
      simp only [Prog.bind_eq, Prog.ret_bind, haddrs, hsome]
      refine (ensures_locateMapping D.exe []).bind_of fun r hr => .ret ?_
      refine image.runTime_iff hB hsome ?_
      cases hfind : D.maps.find? (·.mentions D.exe) with
      | none | some => simp only [hfind] at hr; rw [hr]; rfl
  | library hparse haddrs hnone hneeded hfind =>
      rename_i exe abi exeAddrs needed m
      rw [hparse]
      simp only [Prog.bind_eq, Prog.ret_bind, haddrs, hnone, hneeded]
      refine (ensures_locateMapping _ []).bind_of fun r hr => ?_
      simp only [hfind] at hr
      subst hr
      simp only [if_neg m.start_ne_zero]
      refine (ensures_openIn fuel m.readName ns).bind_of ?_
      rintro _ rfl
      rw [D.files_file, image.parse_eq]
      simp only [Prog.bind_eq, Prog.ret_bind, image.getAddresses_eq]
      split_ifs with hempty
      · exact .raise
      · exact .ret (image.runTime_iff hB (by simpa using hempty) (by rw [hfind]; rfl))

/-! ### Two layouts -/

/-- The file system, with every call granted. -/
def Disk.handler (pid : Pid) (D : Disk) : Handler sys (ℤ → Bytes) := fun r fds =>
  match r with
  | .readlink path => (if path = exePath pid then .ok D.exe else .error [], fds)
  | .openFile path => (.ok 3, Function.update fds 3 path)
  | .mapFile fd => (.ok (D.file (fds fd)), fds)
  | .readLines path => (if path = mapsPath pid then D.maps.map Mapping.line else [], fds)
  | .close _ => (true, fds)
  | r => (refuse r, fds)

theorem Disk.handler_step (pid : Pid) (D : Disk) (fds : ℤ → Bytes) (r : Request) :
    (disk pid D).step fds r (D.handler pid r fds).1 (D.handler pid r fds).2 := by
  cases r with
  | readlink path =>
      refine ⟨rfl, fun name hname hpath => ?_⟩
      have hrep : (if path = exePath pid then .ok D.exe else .error [] : Reply Bytes) = .ok name := hname
      rw [if_pos hpath] at hrep
      exact (Except.ok.inj hrep).symm
  | mapFile fd => exact ⟨rfl, fun file hfile => (Except.ok.inj hfile).symm⟩
  | readLines path => exact ⟨rfl, fun hpath => if_pos hpath⟩
  | _ => rfl

def smallPhdrs (flags flags' : ℕ) : List Phdr :=
  [⟨PT_LOAD, BitVec.ofNat 64 flags, 0⟩, ⟨PT_LOAD, BitVec.ofNat 64 flags', 0x1000⟩]

def smallFound : PyAddresses := { tstate_addr := 0x1234 }

theorem hasPhdrs_of_result {elf : ELF} {phdrs : List Phdr}
    (hnum : elf.e_phnum.result? = some (BitVec.ofNat 64 phdrs.length)) (hlen : phdrs.length < 2 ^ 64)
    (h : ∀ i : Fin phdrs.length, (elf.readPhdr i).result? = some phdrs[i]) : elf.HasPhdrs phdrs where
  e_phnum := ⟨_, Prog.eq_ret_of_result hnum, by rw [BitVec.toNat_ofNat, Nat.mod_eq_of_lt hlen]⟩
  entries i hi := Prog.eq_ret_of_result (h ⟨i, hi⟩)

/-- The first segment holds the code, as linkers used to lay files out. -/
def textFirst : Image 2 (smallFile 5 6) where
  elf := smallELF 5 6
  abi := .unknown
  found := smallFound
  phdrs := smallPhdrs 5 6
  first := ⟨PT_LOAD, 5, 0⟩
  parse_eq := Prog.eq_ret_of_result (by decide +kernel)
  symbols_eq := Prog.eq_ret_of_result (by decide +kernel)
  e_type_eq := Prog.eq_ret_of_result (by decide +kernel)
  hasPhdrs := hasPhdrs_of_result (by decide +kernel) (by decide) (by decide +kernel)
  first_eq := rfl

/-- The code has a segment of its own behind the headers. -/
def separateCode : Image 2 (smallFile 4 5) where
  elf := smallELF 4 5
  abi := .unknown
  found := smallFound
  phdrs := smallPhdrs 4 5
  first := ⟨PT_LOAD, 4, 0⟩
  parse_eq := Prog.eq_ret_of_result (by decide +kernel)
  symbols_eq := Prog.eq_ret_of_result (by decide +kernel)
  e_type_eq := Prog.eq_ret_of_result (by decide +kernel)
  hasPhdrs := hasPhdrs_of_result (by decide +kernel) (by decide) (by decide +kernel)
  first_eq := rfl

def smallMapping (flags : ℕ) (start : Word) (start_ne_zero : start ≠ 0)
    (aligned : start.toNat % 4096 = 0) : Mapping where
  start := start
  finish := start + 0x1000
  readable := flags.testBit 2
  writable := flags.testBit 1
  executable := flags.testBit 0
  isShared := false
  offset := 0
  major := 8
  minor := 1
  inode := 100
  pathname := text "/usr/bin/python"
  start_ne_zero := start_ne_zero
  aligned := aligned
  pathname_plain := by decide +kernel

/-- An executable mapped from `0x555555554000` on. -/
def smallDisk (flags flags' : ℕ) : Disk where
  exe := text "/usr/bin/python"
  file _ := smallFile flags flags'
  maps := [smallMapping flags 0x555555554000 (by decide) (by decide),
    smallMapping flags' 0x555555555000 (by decide) (by decide)]

theorem addrs_runTime_of_textFirst :
    PyAddresses.RunTime 0x555555554000 textFirst.found { tstate_addr := 0x555555555234, pie := true } := by
  have htaken : TakenFrom 2 (smallDisk 5 6) (text "/usr/bin/python") (text "/usr/bin/python") :=
    .executable textFirst.parse_eq textFirst.getAddresses_eq (by decide +kernel)
  have hloaded : Loaded 0x555555554000 textFirst.phdrs (text "/usr/bin/python") (smallDisk 5 6).maps :=
    ⟨by decide +kernel, by decide +kernel⟩
  have hensures := (addrs_runTime_iff 2 1 (smallDisk 5 6) {} htaken textFirst _ hloaded).2
  have hrun := wp_run ((smallDisk 5 6).handler_step 1) (hensures fun _ => [])
  refine (hrun (.unknown, _) (by decide +kernel)).mpr ⟨⟨?_, ?_, ?_, ?_⟩, fun v _ hv => hv⟩
  all_goals decide +kernel

theorem addrs_not_runTime_of_separateCode :
    Loaded 0x555555554000 separateCode.phdrs (text "/usr/bin/python") (smallDisk 4 5).maps ∧
      ¬ Ensures (disk 1 (smallDisk 4 5))
        (fun r => PyAddresses.RunTime 0x555555554000 separateCode.found r.2) (addrs 2 1 {}) := by
  refine ⟨⟨by decide +kernel, by decide +kernel⟩, fun hensures => ?_⟩
  have hrun := wp_run ((smallDisk 4 5).handler_step 1) (hensures fun _ => [])
  have hwrong := hrun (.unknown, { tstate_addr := 0x555555556234, pie := true }) (by decide +kernel)
  revert hwrong
  decide +kernel

end Pyflame
