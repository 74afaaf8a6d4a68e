import Pyflame.FlameChart
import Pyflame.Relocation

/-!
What `LocateLibPython` makes of the lines of `/proc/pid/maps`.

The loop does not split a line into columns. It searches the whole line five
times, and each search has to find its own column: the hint and the first
slash in the name, the permissions and the first dash in front of it.
-/

namespace Pyflame

open Interaction

/-! ### Columns -/

/-- The characters in front of the name. -/
def HeadChar (b : Byte) : Prop := ColumnChar b ∨ b ∈ text "rwxsp"

instance (b : Byte) : Decidable (HeadChar b) :=
  inferInstanceAs (Decidable ((_ ∨ _ ∨ _ ∨ _) ∨ _))

theorem HeadChar.ne {b : Byte} (h : HeadChar b) : b ≠ slash ∧ b ≠ newline := by
  revert b
  decide

namespace Row

variable (r : Row)

theorem perms_char : ∀ b ∈ r.perms, HeadChar b := by
  intro b hb
  simp only [perms, List.mem_cons, List.not_mem_nil, or_false] at hb
  rcases hb with rfl | rfl | rfl | rfl
  all_goals
    split_ifs
    · decide
    · decide

theorem head_char : ∀ b ∈ r.head, HeadChar b := by
  intro b hb
  simp only [head, List.mem_append] at hb
  rcases hb with hb | hb | hb | hb
  · exact .inl (r.addressColumn_char b hb)
  · exact r.perms_char b hb
  · exact .inl (r.fileColumns_char b hb)
  · exact .inl (columnChar_space b hb)

theorem head_pos : 0 < r.head.length := by
  simp only [head, addressColumn, List.length_append]
  have : 0 < (text "-").length := by decide
  omega

/-- The line ends where the name does. -/
theorem newline_notMem_line (h : newline ∉ r.pathname) : newline ∉ r.line := by
  rw [← r.head_append, List.mem_append, not_or]
  exact ⟨fun hb => (r.head_char _ hb).ne.2 rfl, h⟩

/-- The name of a file. -/
def absolute : Bool := r.pathname.head? = some slash

/-- A name that is not one of a file. -/
def Bracketed : Prop := ∃ name, r.pathname = 91 :: (name ++ [93])

/-- The name is that of a file, or there is none, or it stands in brackets. -/
structure WellFormed : Prop where
  plain : newline ∉ r.pathname
  named : r.pathname = [] ∨ r.Bracketed ∨
    r.absolute = true ∧ ¬ text " r-xp " <:+: r.pathname

/-- The hint does not occur in front of the name. -/
def OnlyInName (hint : Bytes) : Prop :=
  ∀ u v, u ++ hint ++ v = r.line → r.head.length ≤ u.length

variable {r} {hint : Bytes}

/-- A hint that cannot begin in front of the name. -/
theorem onlyInName_of_first {c : Byte} (hc : ¬ HeadChar c) : r.OnlyInName (c :: hint) := by
  intro u v h
  by_contra hlt
  have hlt : u.length < r.head.length := Nat.lt_of_not_le hlt
  have hget : r.line[u.length]? = some c := by
    rw [← h, List.append_assoc, List.getElem?_append_right (Nat.le_refl _), Nat.sub_self]
    rfl
  rw [← r.head_append, List.getElem?_append_left hlt] at hget
  exact hc (r.head_char c (List.mem_of_getElem? hget))

theorem OnlyInName.ne_nil (h : r.OnlyInName hint) : hint ≠ [] := by
  rintro rfl
  have hle := h [] r.line rfl
  have hpos := r.head_pos
  exact Nat.not_le_of_lt hpos hle

theorem OnlyInName.infix_iff (h : r.OnlyInName hint) : hint <:+: r.line ↔ hint <:+: r.pathname := by
  constructor
  · rintro ⟨u, v, huv⟩
    have hle := h u v huv
    refine ⟨u.drop r.head.length, v, ?_⟩
    have hdrop := congrArg (List.drop r.head.length) huv
    rw [← r.head_append, List.drop_left, List.append_assoc, List.drop_append_of_le_length hle] at hdrop
    rw [List.append_assoc]
    exact hdrop
  · intro hname
    apply hname.trans
    exact ⟨r.head, [], by rw [List.append_nil, r.head_append]⟩

theorem dropWhile_line (h : r.absolute = true) : r.line.dropWhile (· ≠ slash) = r.pathname := by
  rw [← r.head_append, List.dropWhile_append_of_pos fun b hb => by
    simpa using (r.head_char b hb).ne.1]
  rw [absolute, decide_eq_true_eq] at h
  cases hname : r.pathname with
  | nil =>
      rw [hname] at h
      contradiction
  | cons b name =>
      rw [hname] at h
      obtain rfl := Option.some.inj h
      exact List.dropWhile_cons_of_neg (by simp)

theorem slash_mem_line (h : r.absolute = true) : slash ∈ r.line := by
  rw [← r.head_append]
  apply List.mem_append_right
  rw [absolute, decide_eq_true_eq] at h
  exact List.mem_of_head? h

variable (r hint)

/-- The code of a file whose name has the hint is mapped here. -/
def maps : Bool := r.rxp && r.absolute && decide (hint <:+: r.pathname)

variable {r hint}

theorem maps_iff : r.maps hint = true ↔ r.rxp = true ∧ r.absolute = true ∧ hint <:+: r.pathname := by
  simp only [maps, Bool.and_eq_true, decide_eq_true_eq, and_assoc]

/-- The two searches that choose a line find the hint and the permissions in their own
columns. -/
theorem WellFormed.chosen_iff (hr : r.WellFormed) (h : r.OnlyInName hint)
    (hbracketed : r.Bracketed → ¬ hint <:+: r.pathname) :
    hint <:+: r.line ∧ text " r-xp " <:+: r.line ↔ r.maps hint = true := by
  rw [h.infix_iff, r.rxp_iff, maps_iff]
  constructor
  · rintro ⟨hname, hperms⟩
    have habsolute : r.absolute = true ∧ ¬ text " r-xp " <:+: r.pathname := by
      rcases hr.named with hnil | hbr | habs
      · rw [hnil] at hname
        exact absurd (List.eq_nil_of_infix_nil hname) h.ne_nil
      · exact absurd hname (hbracketed hbr)
      · exact habs
    refine ⟨hperms.resolve_right fun hin => ?_, habsolute.1, hname⟩
    -- A name begins with a slash, not with the permissions.
    rcases List.infix_cons_iff.mp hin with hpre | hin
    · have hhead := habsolute.1
      rw [absolute, decide_eq_true_eq] at hhead
      have htail : text "r-xp " <+: r.pathname := (List.cons_prefix_cons.mp hpre).2
      obtain ⟨rest, hrest⟩ := htail
      rw [← hrest] at hhead
      have hslash : (114 : Byte) = slash := Option.some.inj hhead
      contradiction
    · exact habsolute.2 hin
  · rintro ⟨hrxp, -, hname⟩
    exact ⟨hname, .inl hrxp⟩

end Row

/-! ### Reading the file back -/

/-- What `std::getline` reads, line by line. -/
def getlines (content : Bytes) : List Bytes := (fileLines content).map (·.takeWhile (· ≠ newline))

/-- The file with these lines. -/
def mapsFile (rows : List Row) : Bytes := (rows.map fun r => r.line ++ [newline]).flatten

theorem getlines_mapsFile {rows : List Row} (h : ∀ r ∈ rows, newline ∉ r.pathname) :
    getlines (mapsFile rows) = rows.map Row.line := by
  have hlines : ∀ l ∈ rows.map fun r => r.line ++ [newline],
      ∃ line, l = line ++ [newline] ∧ newline ∉ line := by
    intro l hl
    obtain ⟨r, hr, rfl⟩ := List.mem_map.mp hl
    exact ⟨r.line, rfl, r.newline_notMem_line (h r hr)⟩
  rw [getlines, mapsFile, fileLines_flatten hlines, List.map_map]
  apply List.map_congr_left
  intro r hr
  apply takeWhile_append_cons
  · intro b hb
    have hne : b ≠ newline := fun heq => r.newline_notMem_line (h r hr) (heq ▸ hb)
    simpa using hne
  · simp

/-- On well-formed lines the loop finds the first mapping of a file that has the hint. -/
theorem locateLine_rows {rows : List Row} {hint : Bytes} (hrows : ∀ r ∈ rows, r.WellFormed)
    (hhint : ∀ r ∈ rows, r.OnlyInName hint)
    (hbracketed : ∀ r ∈ rows, r.Bracketed → ¬ hint <:+: r.pathname) (path : Bytes) :
    locateLine hint path (rows.map Row.line) =
      .ret ((rows.find? (·.maps hint)).elim (0, path) fun r => (r.start, r.pathname)) := by
  induction rows with
  | nil => rfl
  | cons r rows ih =>
      obtain ⟨hr, hrows⟩ := List.forall_mem_cons.mp hrows
      obtain ⟨hr', hhint⟩ := List.forall_mem_cons.mp hhint
      obtain ⟨hr'', hbracketed⟩ := List.forall_mem_cons.mp hbracketed
      have hchosen := hr.chosen_iff hr' hr''
      rw [List.map_cons, r.locateLine_cons]
      by_cases hmaps : r.maps hint = true
      · have habsolute := (Row.maps_iff.mp hmaps).2.1
        have hfind : (r :: rows).find? (·.maps hint) = some r := List.find?_cons_of_pos hmaps
        rw [if_pos (hchosen.mpr hmaps), if_neg (not_not.mpr (Row.slash_mem_line habsolute)),
          Row.dropWhile_line habsolute, hfind]
        rfl
      · have hfind : (r :: rows).find? (·.maps hint) = rows.find? (·.maps hint) :=
          List.find?_cons_of_neg hmaps
        rw [if_neg fun h => hmaps (hchosen.mp h), ih hrows hhint hbracketed, hfind]

/-- **`LocateLibPython` inverts the format of the maps.** It returns the start and the
name of the first `r-xp` mapping of a file whose name has the hint, and zero and the
path it was given if there is none. -/
theorem locateLibPython_mapsFile {rows : List Row} {hint : Bytes} (hrows : ∀ r ∈ rows, r.WellFormed)
    (hhint : ∀ r ∈ rows, r.OnlyInName hint)
    (hbracketed : ∀ r ∈ rows, r.Bracketed → ¬ hint <:+: r.pathname) (pid : Pid) (path : Bytes) :
    ∃ k : List Bytes → Tracer (Word × Bytes),
      locateLibPython pid hint path = .call (.readLines (mapsPath pid)) k ∧
        k (getlines (mapsFile rows)) =
          .ret ((rows.find? (·.maps hint)).elim (0, path) fun r => (r.start, r.pathname)) := by
  refine ⟨locateLine hint path, rfl, ?_⟩
  rw [getlines_mapsFile fun r hr => (hrows r hr).plain]
  exact locateLine_rows hrows hhint hbracketed path

def textRow : Row where
  start := 0x7f0000001000
  finish := 0x7f0000200000
  readable := true
  writable := false
  executable := true
  isShared := false
  offset := 0x1000
  major := 8
  minor := 1
  inode := 100
  blanks := 3
  pathname := text "/usr/lib/libpython2.7.so.1.0"

def heapRow : Row :=
  { textRow with start := 0x1000, finish := 0x2000, writable := true, executable := false, inode := 0,
                 pathname := text "[heap]" }

theorem locateLibPython_mapsFile_textRow :
    ∃ k : List Bytes → Tracer (Word × Bytes),
      locateLibPython 1 (text "libpython2.7.so") [] = .call (.readLines (text "/proc/1/maps")) k ∧
        k (getlines (mapsFile [heapRow, textRow])) =
          .ret (0x7f0000001000, text "/usr/lib/libpython2.7.so.1.0") := by
  have hwf : ∀ r ∈ [heapRow, textRow], r.WellFormed := by
    intro r hr
    simp only [List.mem_cons, List.not_mem_nil, or_false] at hr
    rcases hr with rfl | rfl
    · exact ⟨by decide, .inr (.inl ⟨text "heap", by decide⟩)⟩
    · exact ⟨by decide, .inr (.inr ⟨by decide, by decide +kernel⟩)⟩
  have hhint : ∀ r ∈ [heapRow, textRow], r.OnlyInName (text "libpython2.7.so") := fun r _ =>
    Row.onlyInName_of_first (c := 108) (by decide)
  have hbracketed : ∀ r ∈ [heapRow, textRow], r.Bracketed → ¬ text "libpython2.7.so" <:+: r.pathname := by
    intro r hr
    simp only [List.mem_cons, List.not_mem_nil, or_false] at hr
    rcases hr with rfl | rfl
    · exact fun _ => by decide +kernel
    · rintro ⟨name, hname⟩
      have hslash : slash = 91 := (List.cons.inj hname).1
      contradiction
  exact locateLibPython_mapsFile hwf hhint hbracketed 1 []

/-! ### Finding the executable -/

/-- The first line with the name of the executable and the permissions is that of a
mapping of its code, or of one with the same start. -/
def FindsOwn (exe : Bytes) (rows : List Row) : Prop :=
  ∃ r, rows.find? (fun r => exe <:+: r.line ∧ text " r-xp " <:+: r.line) = some r ∧
    ∃ m ∈ rows, m.rxp = true ∧ m.pathname = exe ∧ m.start = r.start

/-- What the loop leaves for a hint that has a slash. -/
theorem locateLine_lines {hint : Bytes} (hslash : slash ∈ hint) (path : Bytes) (rows : List Row) :
    locateLine hint path (rows.map Row.line) =
      .ret ((rows.find? fun r => hint <:+: r.line ∧ text " r-xp " <:+: r.line).elim (0, path)
        fun r => (r.start, r.line.dropWhile (· ≠ slash))) := by
  induction rows with
  | nil => rfl
  | cons r rows ih =>
      rw [List.map_cons, r.locateLine_cons]
      by_cases hr : hint <:+: r.line ∧ text " r-xp " <:+: r.line
      · have hline : slash ∈ r.line := hr.1.subset hslash
        rw [if_pos hr, if_neg (not_not.mpr hline), List.find?_cons_of_pos (by simpa using hr)]
        rfl
      · rw [if_neg hr, ih, List.find?_cons_of_neg (by simpa using hr)]

/-- A mapping of the executable's code is on a line that can be chosen. -/
theorem Row.chosen_of_own {m : Row} (hrxp : m.rxp = true) :
    m.pathname <:+: m.line ∧ text " r-xp " <:+: m.line :=
  ⟨⟨m.head, [], by rw [List.append_nil, m.head_append]⟩, m.rxp_iff.mpr (.inl hrxp)⟩

theorem PyAddresses.add_inj {addrs : PyAddresses} (hsome : addrs.empty = false) {u v : Word} :
    addrs.add u = addrs.add v ↔ u = v := by
  constructor
  · intro h
    have htstate : relocate (· + u) addrs.tstate_addr = relocate (· + v) addrs.tstate_addr :=
      congrArg PyAddresses.tstate_addr h
    have hne : addrs.tstate_addr ≠ 0 := of_decide_eq_false hsome
    rw [relocate_of_ne_zero _ hne, relocate_of_ne_zero _ hne] at htstate
    exact (BitVec.add_right_inj _).mp htstate
  · rintro rfl
    rfl

/-- **Which mapping a PIE is relocated by.** The addresses that `Addrs` returns for an
executable that has them are relocated by the start of a mapping of its own code
exactly if the first line that is chosen is that of such a mapping. -/
theorem addrs_relocated_iff (fuel : ℕ) (pid : Pid) (ns : Namespace) {exe : Bytes}
    {file : Bytes → Bytes} {rows : List Row} {elf : ELF} {abi : PyABI} {found : PyAddresses}
    (hexe : exe.head? = some slash) (hparse : ({ file := file exe } : ELF).parse = .ret elf)
    (haddrs : elf.getAddresses fuel = .ret (abi, found)) (hsome : found.empty = false)
    (hpie : found.pie = true) :
    Ensures (files pid ⟨exe, file, rows.map Row.line⟩)
      (fun r => (∃ m ∈ rows, m.rxp = true ∧ m.pathname = exe ∧ r = (abi, found.add m.start)) ↔
        FindsOwn exe rows) (addrs fuel pid ns) := by
  refine ensures_readLink.bind_of fun name hname => ?_
  obtain rfl : exe = name := hname.symm
  refine (ensures_openIn fuel exe ns).bind_of fun target htarget => ?_
  obtain rfl : { file := file exe } = target := htarget.symm
  rw [hparse]
  simp only [Prog.bind_eq, Prog.ret_bind, haddrs, hsome, hpie, if_true, Bool.false_eq_true, if_false]
  refine (ensures_locateLibPython exe []).bind_of fun r hr => .ret ?_
  rw [locateLine_lines (List.mem_of_head? hexe)] at hr
  have hr := Prog.ret.inj hr
  cases hfind : rows.find? fun r => exe <:+: r.line ∧ text " r-xp " <:+: r.line with
  | none =>
      -- There is no such mapping, or its line would have been chosen.
      constructor
      · rintro ⟨m, hm, hrxp, rfl, -⟩
        have hno := List.find?_eq_none.mp hfind m hm
        exact absurd (decide_eq_true (Row.chosen_of_own hrxp)) hno
      · rintro ⟨r', hr', -⟩
        rw [hfind] at hr'
        contradiction
  | some r' =>
      rw [hfind] at hr
      subst hr
      constructor
      · rintro ⟨m, hm, hrxp, hname, heq⟩
        have hstart := (PyAddresses.add_inj hsome).mp (congrArg Prod.snd heq)
        exact ⟨r', hfind, m, hm, hrxp, hname, hstart.symm⟩
      · rintro ⟨r'', hr'', m, hm, hrxp, hname, hstart⟩
        rw [hfind] at hr''
        obtain rfl := Option.some.inj hr''
        exact ⟨m, hm, hrxp, hname, by rw [hstart]; rfl⟩

theorem Disk.files_eq (D : Disk) :
    D.files = ⟨D.exe, D.file, (D.maps.map Mapping.row).map Row.line⟩ := by
  have hlines : D.maps.map Mapping.line = (D.maps.map Mapping.row).map Row.line := by
    rw [List.map_map]
    exact List.map_congr_left fun m _ => m.row_line.symm
  rw [Disk.files, hlines]

/-- In a run in which every call is granted. -/
theorem Disk.of_ensures {D : Disk} {fuel : ℕ} {P : PyABI × PyAddresses → Prop}
    (h : Ensures (Pyflame.files 1 ⟨D.exe, D.file, (D.maps.map Mapping.row).map Row.line⟩) P
      (addrs fuel 1 {})) {r : PyABI × PyAddresses}
    (hr : (run (D.handler 1) (addrs fuel 1 {}) fun _ => []).1 = .ok r) : P r := by
  rw [← D.files_eq, ← disk] at h
  exact wp_run (D.handler_step 1) (h fun _ => []) r hr

theorem addrs_relocated_smallDisk :
    (∃ m ∈ (smallDisk 5 6).maps.map Mapping.row, m.rxp = true ∧ m.pathname = text "/usr/bin/python" ∧
      ((.unknown, { tstate_addr := 0x555555555234, pie := true }) : PyABI × PyAddresses) =
        (.unknown, textFirst.relative.add m.start)) ↔
    FindsOwn (text "/usr/bin/python") ((smallDisk 5 6).maps.map Mapping.row) := by
  have hexe : (smallDisk 5 6).exe.head? = some slash := by decide
  have hparse : ({ file := (smallDisk 5 6).file (smallDisk 5 6).exe } : ELF).parse = .ret (smallELF 5 6) :=
    textFirst.parse_eq
  exact Disk.of_ensures (addrs_relocated_iff 2 1 {} hexe hparse textFirst.getAddresses_eq
    (by decide +kernel) (by decide +kernel)) (by decide +kernel)

/-- The code of a file next to the executable, whose name begins with the executable's. -/
def besideMapping : Mapping :=
  { smallMapping 5 0x10000000 (by decide) (by decide) with
    pathname := text "/usr/bin/python-extra.so"
    pathname_plain := by decide +kernel }

/-- It is mapped below the executable. -/
def besideDisk : Disk := { smallDisk 5 6 with maps := besideMapping :: (smallDisk 5 6).maps }

/-- The mapping of another file is taken for the executable's, and without any the
addresses are returned as they are. -/
theorem addrs_not_relocated :
    ¬ Ensures (files 1 ⟨besideDisk.exe, besideDisk.file, (besideDisk.maps.map Mapping.row).map Row.line⟩)
      (fun r => ∃ m ∈ besideDisk.maps.map Mapping.row, m.rxp = true ∧ m.pathname = besideDisk.exe ∧
        r = (.unknown, textFirst.relative.add m.start)) (addrs 2 1 {}) ∧
    ¬ Ensures (files 1 ⟨besideDisk.exe, besideDisk.file, []⟩)
      (fun r => ∃ m ∈ ([] : List Row), m.rxp = true ∧ m.pathname = besideDisk.exe ∧
        r = (.unknown, textFirst.relative.add m.start)) (addrs 2 1 {}) := by
  constructor
  · intro hensures
    have hrun := Disk.of_ensures hensures (r := (.unknown, { tstate_addr := 0x10001234, pie := true }))
      (by decide +kernel)
    revert hrun
    decide +kernel
  · intro hensures
    have hrun := Disk.of_ensures (D := { besideDisk with maps := [] }) hensures
      (r := (.unknown, { tstate_addr := 0x1234, pie := true })) (by decide +kernel)
    revert hrun
    decide +kernel

end Pyflame
