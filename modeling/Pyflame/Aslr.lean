import Pyflame.Sys

/-!
`aslr.cc`: finding where a file has been mapped, from the lines of
`/proc/pid/maps`.
-/

namespace Pyflame

open Interaction

def dash : Byte := 45
def slash : Byte := 47

/-- The loop of `LocateLibPython` over the lines, with the path so far. -/
def locateLine (hint path : Bytes) : List Bytes → Tracer (Word × Bytes)
  | [] => return (0, path)
  | line :: lines => do
      if hint <:+: line ∧ text " r-xp " <:+: line then
        if slash ∉ line then
          throw (.fatal (text "Did not find libpython absolute path"))
        else if dash ∉ line then
          throw (.fatal (text "Did not find libpython virtual memory address"))
        else
          return (strtoul 16 (line.takeWhile (· ≠ dash)), line.dropWhile (· ≠ slash))
      else
        locateLine hint path lines

theorem quiet_locateLine (hint path : Bytes) (lines : List Bytes) :
    (locateLine hint path lines).Quiet := by
  induction lines with
  | nil => trivial
  | cons line lines ih => exact .ite (.ite trivial (.ite trivial trivial)) ih

def mapsPath (pid : Pid) : Bytes := text "/proc/" ++ signedDecimal pid ++ text "/maps"

/-- `LocateLibPython`, with what it leaves in `*path`. -/
def locateLibPython (pid : Pid) (hint path : Bytes) : Tracer (Word × Bytes) := do
  locateLine hint path (← ask (.readLines (mapsPath pid)))

/-! ### The lines of `/proc/pid/maps` -/

/-- A number in base 16, filled up with zeros to a width. -/
def hex (width n : ℕ) : Bytes := (numeral 16 n).leftpad width 48

/-- A line of the file, with any number of blanks more in front of the name. -/
structure Row where
  start : Word
  finish : Word
  readable : Bool
  writable : Bool
  executable : Bool
  isShared : Bool
  offset : Word
  major : ℕ
  minor : ℕ
  inode : ℕ
  blanks : ℕ
  pathname : Bytes

namespace Row

variable (r : Row)

def perms : Bytes :=
  [if r.readable then 114 else 45, if r.writable then 119 else 45,
    if r.executable then 120 else 45, if r.isShared then 115 else 112]

/-- The permissions are `r-xp`. -/
def rxp : Bool := r.readable && !r.writable && r.executable && !r.isShared

def addressColumn : Bytes := hex 8 r.start.toNat ++ text "-" ++ hex 8 r.finish.toNat ++ text " "

def fileColumns : Bytes :=
  text " " ++ hex 8 r.offset.toNat ++ text " " ++ hex 2 r.major ++ text ":" ++ hex 2 r.minor ++
    text " " ++ decimal r.inode ++ List.replicate r.blanks 32

def line : Bytes := r.addressColumn ++ (r.perms ++ (r.fileColumns ++ (text " " ++ r.pathname)))

/-- All of the line but the name. -/
def head : Bytes := r.addressColumn ++ (r.perms ++ (r.fileColumns ++ text " "))

theorem head_append : r.head ++ r.pathname = r.line := by
  simp only [head, line, List.append_assoc]

end Row

/-- A mapping of the target, as the kernel lists it. No name looks like the permissions. -/
structure Mapping where
  start : Word
  finish : Word
  readable : Bool
  writable : Bool
  executable : Bool
  isShared : Bool
  offset : Word
  major : ℕ
  minor : ℕ
  inode : ℕ
  pathname : Bytes
  start_ne_zero : start ≠ 0
  aligned : start.toNat % 4096 = 0
  pathname_plain : ¬ text " r-xp " <:+: text " " ++ pathname

namespace Mapping

variable (m : Mapping)

def perms : Bytes :=
  [if m.readable then 114 else 45, if m.writable then 119 else 45,
    if m.executable then 120 else 45, if m.isShared then 115 else 112]

/-- The permissions are `r-xp`. -/
def rxp : Bool := m.readable && !m.writable && m.executable && !m.isShared

def addressColumn : Bytes := hex 8 m.start.toNat ++ text "-" ++ hex 8 m.finish.toNat ++ text " "

def fileColumns : Bytes :=
  text " " ++ hex 8 m.offset.toNat ++ text " " ++ hex 2 m.major ++ text ":" ++ hex 2 m.minor ++
    text " " ++ decimal m.inode ++ text " "

/-- The name stands behind column 72. -/
def nameColumn : Bytes :=
  if m.pathname = [] then []
  else
    List.replicate (72 - (m.addressColumn ++ m.perms ++ m.fileColumns).length) 32 ++
      text " " ++ m.pathname

def line : Bytes := m.addressColumn ++ (m.perms ++ (m.fileColumns ++ m.nameColumn))

/-- The columns of the line. -/
def row : Row where
  start := m.start
  finish := m.finish
  readable := m.readable
  writable := m.writable
  executable := m.executable
  isShared := m.isShared
  offset := m.offset
  major := m.major
  minor := m.minor
  inode := m.inode
  blanks :=
    if m.pathname = [] then 0 else 72 - (m.addressColumn ++ m.perms ++ m.fileColumns).length + 1
  pathname := m.pathname

theorem row_line : m.row.line = m.line := by
  simp only [Row.line, line, Row.fileColumns, fileColumns, nameColumn, row]
  split_ifs with hname
  · simp [hname, Row.addressColumn, addressColumn, Row.perms, perms]
  · simp [List.replicate_succ, text, Row.addressColumn, addressColumn, Row.perms, perms]

end Mapping

/-! ### Reading a line back -/

theorem digit_of_mem_hex {width n : ℕ} {b : Byte} (h : b ∈ hex width n) : digitValue b < 16 := by
  rw [hex, List.leftpad] at h
  rcases List.mem_append.mp h with h | h
  · obtain rfl := List.eq_of_mem_replicate h
    decide
  · exact digitValue_of_mem_numeral (by decide) (by decide) n b h

theorem digit_of_mem_decimal {n : ℕ} {b : Byte} (h : b ∈ decimal n) : digitValue b < 16 := by
  have := digitValue_of_mem_numeral (show 1 < 10 by decide) (by decide) n b h
  omega

theorem digitsOf_replicate_zero (k : ℕ) : digitsOf 16 (List.replicate k 48) = List.replicate k 0 := by
  induction k with
  | zero => rfl
  | succ k ih =>
      rw [List.replicate_succ, digitsOf, show digitOf 16 48 = some 0 by decide, ih,
        List.replicate_succ]

theorem digitsValue_replicate_zero (k : ℕ) (ds : List ℕ) :
    digitsValue 16 (List.replicate k 0 ++ ds) = digitsValue 16 ds := by
  induction k with
  | zero => rfl
  | succ k ih => exact ih

/-- `strtoul` reads back the number. -/
theorem strtoul_hex (width : ℕ) (w : Word) : strtoul 16 (hex width w.toNat) = w := by
  have hzeros : ∀ k, ∀ b ∈ List.replicate k (48 : Byte), digitValue b < 16 := fun k b hb => by
    obtain rfl := List.eq_of_mem_replicate hb
    decide
  obtain ⟨hne, hval⟩ := digitsOf_numeral (show 1 < 16 by decide) (by decide) w.toNat
  have hdigits : digitsOf 16 (hex width w.toNat) =
      List.replicate (width - (numeral 16 w.toNat).length) 0 ++ digitsOf 16 (numeral 16 w.toNat) := by
    rw [hex, List.leftpad, digitsOf_append (hzeros _), digitsOf_replicate_zero]
  refine strtoul_of_scan ?_
  rw [scanNumber_of_digits (by decide) (fun b => digit_of_mem_hex) ?_, hdigits,
    digitsValue_replicate_zero, hval]
  rw [hdigits]
  exact List.append_ne_nil_of_right_ne_nil _ hne

/-- The characters of the columns other than the permissions and the name. -/
def ColumnChar (b : Byte) : Prop := digitValue b < 16 ∨ b = 32 ∨ b = dash ∨ b = 58

theorem ColumnChar.ne {b : Byte} (h : ColumnChar b) : b ≠ slash ∧ b ≠ 114 := by
  rcases h with h | rfl | rfl | rfl
  · revert b
    decide
  all_goals decide

theorem columnChar_of_hex {width n : ℕ} : ∀ b ∈ hex width n, ColumnChar b :=
  fun _ h => .inl (digit_of_mem_hex h)

theorem columnChar_of_decimal {n : ℕ} : ∀ b ∈ decimal n, ColumnChar b :=
  fun _ h => .inl (digit_of_mem_decimal h)

theorem columnChar_append {u v : Bytes} (hu : ∀ b ∈ u, ColumnChar b) (hv : ∀ b ∈ v, ColumnChar b) :
    ∀ b ∈ u ++ v, ColumnChar b :=
  List.forall_mem_append.mpr ⟨hu, hv⟩

theorem columnChar_space : ∀ b ∈ text " ", ColumnChar b := by
  intro b hb
  obtain rfl := List.mem_singleton.mp hb
  exact .inr (.inl rfl)

/-- A string whose second character does not occur in `u` starts inside `u` only at
its end. -/
theorem infix_append_of_notMem {α : Type} {a b : α} {s u v : List α} (hu : b ∉ u)
    (h : a :: b :: s <:+: u ++ v) : a :: b :: s <:+: v ∨ b :: s <+: v := by
  induction u with
  | nil => exact .inl h
  | cons c u ih =>
      obtain ⟨-, hu'⟩ := List.ne_and_not_mem_of_not_mem_cons hu
      rcases List.infix_cons_iff.mp h with h | h
      · have hrest := (List.cons_prefix_cons.mp h).2
        cases u with
        | nil => exact .inr hrest
        | cons d u =>
            have hb := (List.cons_prefix_cons.mp hrest).1
            exact absurd List.mem_cons_self (hb ▸ hu')
      · exact ih hu' h

theorem takeWhile_append_cons {α : Type} {p : α → Bool} {u v : List α} {a : α} (hu : ∀ b ∈ u, p b)
    (ha : p a = false) : (u ++ a :: v).takeWhile p = u := by
  rw [List.takeWhile_append_of_pos hu, List.takeWhile_cons, if_neg (by simp [ha]), List.append_nil]

namespace Row

variable (r : Row)

theorem addressColumn_char : ∀ b ∈ r.addressColumn, ColumnChar b := by
  refine columnChar_append (columnChar_append (columnChar_append columnChar_of_hex ?_)
    columnChar_of_hex) columnChar_space
  intro b hb
  obtain rfl := List.mem_singleton.mp hb
  exact .inr (.inr (.inl rfl))

theorem fileColumns_char : ∀ b ∈ r.fileColumns, ColumnChar b := by
  have hcolon : ∀ b ∈ text ":", ColumnChar b := by
    intro b hb
    obtain rfl := List.mem_singleton.mp hb
    exact .inr (.inr (.inr rfl))
  have hblanks : ∀ b ∈ List.replicate r.blanks 32, ColumnChar b := by
    intro b hb
    obtain rfl := List.eq_of_mem_replicate hb
    exact .inr (.inl rfl)
  exact columnChar_append (columnChar_append (columnChar_append (columnChar_append
    (columnChar_append (columnChar_append (columnChar_append (columnChar_append columnChar_space
      columnChar_of_hex) columnChar_space) columnChar_of_hex) hcolon) columnChar_of_hex)
        columnChar_space) columnChar_of_decimal) hblanks

theorem fileColumns_cons : ∃ s, r.fileColumns = 32 :: s := ⟨_, rfl⟩

/-- The permissions are in a line if they are those of the mapping, or in its name. -/
theorem rxp_iff :
    text " r-xp " <:+: r.line ↔ r.rxp = true ∨ text " r-xp " <:+: text " " ++ r.pathname := by
  have hspace : text " r-xp " = 32 :: 114 :: [45, 120, 112, 32] := rfl
  rw [line, hspace, perms, rxp]
  constructor
  · intro h
    rcases infix_append_of_notMem (fun hb => (r.addressColumn_char _ hb).ne.2 rfl) h with h | h
    · -- It can only stand in the name.
      right
      obtain ⟨s, hs⟩ := r.fileColumns_cons
      rcases List.infix_cons_iff.mp h with h | h
      · have := (List.cons_prefix_cons.mp h).1
        split_ifs at this <;> contradiction
      have hrest : (114 : Byte) ∉ [if r.writable then 119 else 45, if r.executable then 120 else 45,
          if r.isShared then 115 else 112] := by
        simp only [List.mem_cons, List.not_mem_nil, or_false]
        rintro (h | h | h) <;> split_ifs at h <;> contradiction
      -- None of the other permissions can begin it, so it is behind them.
      rcases infix_append_of_notMem hrest h with h | h
      · rcases infix_append_of_notMem (fun hb => (r.fileColumns_char _ hb).ne.2 rfl) h with h | h
        · exact h
        · have := (List.cons_prefix_cons.mp h).1
          contradiction
      · rw [hs] at h
        have := (List.cons_prefix_cons.mp h).1
        contradiction
    · left
      simp only [List.cons_append, List.cons_prefix_cons] at h
      obtain ⟨hr, hw, hx, hp, -⟩ := h
      have hreadable : r.readable = true := by revert hr; cases r.readable <;> decide
      have hwritable : r.writable = false := by revert hw; cases r.writable <;> decide
      have hexecutable : r.executable = true := by revert hx; cases r.executable <;> decide
      have hprivate : r.isShared = false := by revert hp; cases r.isShared <;> decide
      rw [hreadable, hwritable, hexecutable, hprivate]
      rfl
  · rintro (h | h)
    · simp only [Bool.and_eq_true, Bool.not_eq_true'] at h
      obtain ⟨⟨⟨hr, hw⟩, hx⟩, hp⟩ := h
      refine ⟨hex 8 r.start.toNat ++ text "-" ++ hex 8 r.finish.toNat,
        r.fileColumns.tail ++ (text " " ++ r.pathname), ?_⟩
      simp [hr, hw, hx, hp, addressColumn, fileColumns, text]
    · apply h.trans
      refine ⟨r.addressColumn ++ (r.perms ++ r.fileColumns), [], ?_⟩
      simp only [perms, List.append_assoc, List.append_nil]

/-- The part of a line before the first dash. -/
theorem takeWhile_line : r.line.takeWhile (· ≠ dash) = hex 8 r.start.toNat := by
  have hline : ∃ rest, r.line = hex 8 r.start.toNat ++ dash :: rest := by
    refine ⟨hex 8 r.finish.toNat ++ text " " ++ (r.perms ++ (r.fileColumns ++ (text " " ++ r.pathname))), ?_⟩
    simp [line, addressColumn, text, dash]
  obtain ⟨rest, hrest⟩ := hline
  have hdash : ∀ b : Byte, digitValue b < 16 → b ≠ dash := by decide
  rw [hrest]
  exact takeWhile_append_cons (fun b hb => by simpa using hdash b (digit_of_mem_hex hb)) (by simp)

theorem dash_mem_line : dash ∈ r.line := by
  have hdash : dash ∈ r.addressColumn := by simp [addressColumn, text, dash]
  exact List.mem_append_left _ hdash

end Row

namespace Mapping

variable (m : Mapping)

/-- A line shows the permissions that the mapping has. -/
theorem rxp_iff : text " r-xp " <:+: m.line ↔ m.rxp = true := by
  rw [← m.row_line, m.row.rxp_iff]
  exact or_iff_left m.pathname_plain

/-- The line of a mapping has the hint, and its permissions are `r-xp`. -/
def mentions (hint : Bytes) : Bool := m.rxp && decide (hint <:+: m.line)

theorem mentions_iff {hint : Bytes} :
    m.mentions hint = true ↔ m.rxp = true ∧ hint <:+: m.line := by
  simp [mentions]

/-- The name as it is read: the line from its first slash on. -/
def readName : Bytes := m.line.dropWhile (· ≠ slash)

end Mapping

/-- The start of the mapping of a line is read back. -/
theorem Row.locateLine_cons (hint path : Bytes) (r : Row) (lines : List Bytes) :
    locateLine hint path (r.line :: lines) =
      if hint <:+: r.line ∧ text " r-xp " <:+: r.line then
        if slash ∉ r.line then .raise (.fatal (text "Did not find libpython absolute path"))
        else .ret (r.start, r.line.dropWhile (· ≠ slash))
      else
        locateLine hint path lines := by
  rw [locateLine, r.takeWhile_line, strtoul_hex, if_neg (not_not.mpr r.dash_mem_line)]
  rfl

/-- `LocateLibPython` finds the first mapping that mentions the hint. -/
theorem locateLine_map (hint path : Bytes) (ms : List Mapping) :
    locateLine hint path (ms.map Mapping.line) =
      match ms.find? (·.mentions hint) with
      | none => .ret (0, path)
      | some m =>
          if slash ∉ m.line then .raise (.fatal (text "Did not find libpython absolute path"))
          else .ret (m.start, m.readName) := by
  induction ms with
  | nil => rfl
  | cons m ms ih =>
      rw [List.map_cons, ← m.row_line, m.row.locateLine_cons, m.row_line]
      by_cases hm : m.mentions hint = true
      · have hfind : (m :: ms).find? (·.mentions hint) = some m := List.find?_cons_of_pos hm
        rw [hfind]
        obtain ⟨hrxp, hhint⟩ := m.mentions_iff.mp hm
        rw [if_pos ⟨hhint, m.rxp_iff.mpr hrxp⟩]
        rfl
      · have hfind : (m :: ms).find? (·.mentions hint) = ms.find? (·.mentions hint) :=
          List.find?_cons_of_neg hm
        rw [hfind, if_neg, ih]
        rw [m.mentions_iff] at hm
        exact fun h => hm ⟨m.rxp_iff.mp h.2, h.1⟩

end Pyflame
