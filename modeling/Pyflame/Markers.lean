import Mathlib.Data.List.Perm.Basic
import Pyflame.SymbolTable

/-!
The ABI of an interpreter, as the names in its symbol tables tell it.

`WalkTable` stops as soon as it knows all it wants, and has a provisional
answer before that. What it answers is nevertheless a function of the set of
names: that of the whole table, in any order. `GetAddresses` walks two
tables, and answers for the second alone.
-/

namespace Pyflame

open Interaction

namespace ELF

/-! ### What names tell -/

/-- One of the symbols that were added for Python 3.6. -/
def IsMarker (name : Bytes) : Prop := ∃ lit ∈ py36Symbols, name = text lit

instance (name : Bytes) : Decidable (IsMarker name) :=
  inferInstanceAs (Decidable (∃ lit ∈ py36Symbols, name = text lit))

/-- The names of Python 2. -/
def HasString (names : List Bytes) : Prop := text "PyString_Type" ∈ names

/-- The names of Python 3.6. -/
def HasMarker (names : List Bytes) : Prop := ∃ name ∈ names, IsMarker name

/-- The names of Python 3. -/
def HasBytes (names : List Bytes) : Prop := text "PyBytes_Type" ∈ names

instance (names : List Bytes) : Decidable (HasString names) :=
  inferInstanceAs (Decidable (text "PyString_Type" ∈ names))

instance (names : List Bytes) : Decidable (HasMarker names) :=
  inferInstanceAs (Decidable (∃ name ∈ names, IsMarker name))

instance (names : List Bytes) : Decidable (HasBytes names) :=
  inferInstanceAs (Decidable (text "PyBytes_Type" ∈ names))

/-- The ABI that names determine, in whatever order they come. -/
def abiOf (names : List Bytes) : PyABI :=
  if HasString names then .py26
  else if HasMarker names then .py36
  else if HasBytes names then .py34
  else .unknown

/-- Names of Python 2 and of Python 3.6. -/
def Mixes (names : List Bytes) : Prop := HasString names ∧ HasMarker names

instance (names : List Bytes) : Decidable (Mixes names) :=
  inferInstanceAs (Decidable (HasString names ∧ HasMarker names))

@[simp] theorem hasString_append (names more : List Bytes) :
    HasString (names ++ more) ↔ HasString names ∨ HasString more := List.mem_append

@[simp] theorem hasMarker_append (names more : List Bytes) :
    HasMarker (names ++ more) ↔ HasMarker names ∨ HasMarker more := by
  simp only [HasMarker, List.mem_append, or_and_right, exists_or]

@[simp] theorem hasBytes_append (names more : List Bytes) :
    HasBytes (names ++ more) ↔ HasBytes names ∨ HasBytes more := List.mem_append

@[simp] theorem hasString_singleton (name : Bytes) :
    HasString [name] ↔ name = text "PyString_Type" := by
  rw [HasString, List.mem_singleton]
  exact eq_comm

@[simp] theorem hasMarker_singleton (name : Bytes) : HasMarker [name] ↔ IsMarker name := by
  simp [HasMarker]

@[simp] theorem hasBytes_singleton (name : Bytes) :
    HasBytes [name] ↔ name = text "PyBytes_Type" := by
  rw [HasBytes, List.mem_singleton]
  exact eq_comm

theorem not_isMarker_string : ¬ IsMarker (text "PyString_Type") := by decide

theorem not_isMarker_bytes : ¬ IsMarker (text "PyBytes_Type") := by decide

theorem string_ne_bytes : text "PyString_Type" ≠ text "PyBytes_Type" := by decide

/-- The order of the names does not matter. -/
theorem abiOf_perm {names names' : List Bytes} (h : names.Perm names') :
    abiOf names = abiOf names' := by
  have hstring : HasString names ↔ HasString names' := h.mem_iff
  have hbytes : HasBytes names ↔ HasBytes names' := h.mem_iff
  have hmarker : HasMarker names ↔ HasMarker names' :=
    exists_congr fun name => and_congr_left fun _ => h.mem_iff
  simp only [abiOf, hstring, hmarker, hbytes]

theorem Mixes.of_perm {names names' : List Bytes} (h : names.Perm names') (hmix : Mixes names) :
    Mixes names' := by
  obtain ⟨hstring, name, hname, hmarker⟩ := hmix
  exact ⟨h.mem_iff.mp hstring, name, h.mem_iff.mp hname, hmarker⟩

theorem Mixes.append_right {names : List Bytes} (h : Mixes names) (more : List Bytes) :
    Mixes (names ++ more) :=
  ⟨(hasString_append _ _).mpr (.inl h.1), (hasMarker_append _ _).mpr (.inl h.2)⟩

theorem Mixes.append_left {names : List Bytes} (h : Mixes names) (more : List Bytes) :
    Mixes (more ++ names) :=
  ⟨(hasString_append _ _).mpr (.inr h.1), (hasMarker_append _ _).mpr (.inr h.2)⟩

/-! ### What a walk has been told -/

/-- The variables say what these names say; the ABI is final once it cannot change. -/
structure Walk.Told (w : Walk) (names : List Bytes) : Prop where
  have_abi : w.have_abi = true ↔ HasString names ∨ HasMarker names
  abi : w.abi = abiOf names

theorem Walk.told_nil (addrs : PyAddresses) : Told { addrs } [] where
  have_abi := by simp [HasString, HasMarker]
  abi := by simp [abiOf, HasString, HasMarker, HasBytes]

/-- What a name says, by its kind. -/
theorem Walk.seeABI_cases (w : Walk) (name : Bytes) :
    (w.have_abi = true ∧ w.seeABI name = w) ∨
    (w.have_abi = false ∧ name = text "PyString_Type" ∧
      w.seeABI name = { w with have_abi := true, abi := .py26 }) ∨
    (w.have_abi = false ∧ name = text "PyBytes_Type" ∧ w.seeABI name = { w with abi := .py34 }) ∨
    (w.have_abi = false ∧ IsMarker name ∧
      w.seeABI name = { w with have_abi := true, abi := .py36 }) ∨
    (w.have_abi = false ∧ name ≠ text "PyString_Type" ∧ name ≠ text "PyBytes_Type" ∧
      ¬ IsMarker name ∧ w.seeABI name = w) := by
  have hmarker : py36Symbols.any (name = text ·) = true ↔ IsMarker name := by
    simp [IsMarker]
  unfold seeABI
  by_cases habi : w.have_abi = true
  · exact .inl ⟨habi, if_pos habi⟩
  rw [if_neg habi]
  have hfalse : w.have_abi = false := Bool.eq_false_iff.mpr habi
  by_cases hstring : name = text "PyString_Type"
  · exact .inr (.inl ⟨hfalse, hstring, if_pos hstring⟩)
  rw [if_neg hstring]
  by_cases hbytes : name = text "PyBytes_Type"
  · exact .inr (.inr (.inl ⟨hfalse, hbytes, if_pos hbytes⟩))
  rw [if_neg hbytes]
  by_cases hmark : IsMarker name
  · exact .inr (.inr (.inr (.inl ⟨hfalse, hmark, if_pos (hmarker.mpr hmark)⟩)))
  · exact .inr (.inr (.inr (.inr ⟨hfalse, hstring, hbytes, hmark,
      if_neg fun h => hmark (hmarker.mp h)⟩)))

/-- One more name, unless it mixes. -/
theorem Walk.Told.seeABI {w : Walk} {names : List Bytes} {name : Bytes} (h : w.Told names)
    (hmix : ¬ Mixes (names ++ [name])) : (w.seeABI name).Told (names ++ [name]) := by
  have hiff := h.have_abi
  have habi := h.abi
  simp only [Mixes, hasString_append, hasMarker_append, hasString_singleton, hasMarker_singleton,
    not_and, not_or] at hmix
  rcases w.seeABI_cases name with ⟨hw, heq⟩ | ⟨hw, rfl, heq⟩ | ⟨hw, rfl, heq⟩ | ⟨hw, hmark, heq⟩ |
      ⟨hw, hstring, hbytes, hmark, heq⟩
  · -- The ABI is known, and the name does not contradict it.
    rw [heq]
    constructor
    · simp only [hw, true_iff, hasString_append, hasMarker_append]
      exact (hiff.mp hw).imp .inl .inl
    · rw [habi, abiOf, abiOf]
      rcases hiff.mp hw with hstring | hmarker
      · simp [hstring]
      · have hno : ¬ (HasString names ∨ name = text "PyString_Type") := fun hs => (hmix hs).1 hmarker
        simp only [not_or] at hno
        simp [hmarker, hno]
  -- In the others it was not known, so no name before was a string type or a marker.
  all_goals
    rw [hw] at hiff
    simp only [Bool.false_eq_true, false_iff, not_or] at hiff
    obtain ⟨hno, hno'⟩ := hiff
    rw [heq]
  · constructor <;> simp [abiOf]
  · constructor
    · simp [hw, hno, hno', not_isMarker_bytes, string_ne_bytes.symm]
    · simp [abiOf, hno, hno', not_isMarker_bytes, string_ne_bytes.symm]
  · have hne : name ≠ text "PyString_Type" := fun h => not_isMarker_string (h ▸ hmark)
    constructor <;> simp [abiOf, hno, hmark, hne]
  · constructor
    · simp [hw, hno, hno', hstring, hmark]
    · rw [habi]
      simp [abiOf, hno, hno', hstring, hmark, hbytes]

/-- The symbols of the addresses tell nothing about the ABI. -/
theorem Walk.Told.see {w : Walk} {names : List Bytes} {symbol : Bytes × Word} (h : w.Told names)
    (hmix : ¬ Mixes (names ++ [symbol.1])) : (w.see symbol).Told (names ++ [symbol.1]) := by
  have hABI := h.seeABI hmix
  have hother : ∀ {addrs : PyAddresses}, w.seeABI symbol.1 = w →
      Walk.Told { w with addrs } (names ++ [symbol.1]) := by
    intro addrs heq
    rw [heq] at hABI
    exact ⟨hABI.have_abi, hABI.abi⟩
  -- A name of none of the kinds leaves the variables as they are.
  have hseeABI : ∀ lit : String, text lit ≠ text "PyString_Type" → text lit ≠ text "PyBytes_Type" →
      ¬ IsMarker (text lit) → symbol.1 = text lit → w.seeABI symbol.1 = w := by
    intro lit hstring hbytes hmark heq
    rw [heq]
    rcases w.seeABI_cases (text lit) with ⟨-, h⟩ | ⟨-, h, -⟩ | ⟨-, h, -⟩ | ⟨-, h, -⟩ | ⟨-, -, -, -, h⟩
    · exact h
    · exact absurd h hstring
    · exact absurd h hbytes
    · exact absurd h hmark
    · exact h
  unfold Walk.see
  split_ifs with htstate hinterp hfn
  · exact hother (hseeABI _ (by decide) (by decide) (by decide) htstate.2)
  · exact hother (hseeABI _ (by decide) (by decide) (by decide) hinterp.2)
  · exact hother (hseeABI _ (by decide) (by decide) (by decide) hfn.2)
  · exact hABI

/-- The names of the first `n` symbols. -/
def names (symbol : ℕ → Bytes × Word) (n : ℕ) : List Bytes :=
  (List.range n).map fun k => (symbol k).1

theorem names_succ (symbol : ℕ → Bytes × Word) (n : ℕ) :
    names symbol (n + 1) = names symbol n ++ [(symbol n).1] := by
  rw [names, names, List.range_succ, List.map_append]
  rfl

/-- After some symbols a walk has been told what their names say. -/
theorem knownAfter_told (addrs : PyAddresses) {symbol : ℕ → Bytes × Word} {n : ℕ}
    (hmix : ¬ Mixes (names symbol n)) : (knownAfter addrs symbol n).Told (names symbol n) := by
  induction n with
  | zero => exact Walk.told_nil addrs
  | succ n ih =>
      rw [names_succ] at hmix ⊢
      have htold := (ih fun h => hmix (h.append_right _)).see hmix
      exact ⟨htold.have_abi, htold.abi⟩

/-- Where everything is known after some symbols, the others change nothing. -/
theorem knownAfter_done {addrs : PyAddresses} {symbol : ℕ → Bytes × Word} {k n : ℕ} (hkn : k ≤ n)
    (hdone : (knownAfter addrs symbol k).done = true) :
    (knownAfter addrs symbol n).done = true ∧
      (knownAfter addrs symbol n).abi = (knownAfter addrs symbol k).abi ∧
        (knownAfter addrs symbol n).addrs = (knownAfter addrs symbol k).addrs := by
  induction hkn with
  | refl => exact ⟨hdone, rfl, rfl⟩
  | step _ ih =>
      rw [knownAfter, Walk.see_done ih.1]
      exact ih

/-! ### Scanning the whole table -/

/-- One pass of the loop of `WalkTable`, without the test that leaves it early. -/
def scanStep (elf : ELF) (s d : Word) : Walk → Tracer (Walk ⊕ Walk) := fun w => do
  if w.i.toNat < (← elf.entries s) then
    let sym ← elf.entry s w.i
    let name := (← elf.sh_offset d) + (← elf.st_name sym)
    let w ← elf.walkEntry sym name w
    return .inl { w with i := w.i + 1 }
  else
    return .inr w

/-- `WalkTable` without its early exit. -/
def scanTable (elf : ELF) (fuel : ℕ) (sym str : ℤ) (addrs : PyAddresses) :
    Tracer (PyABI × PyAddresses) := do
  let s ← elf.shdr sym
  let d ← elf.shdr str
  let w ← Prog.forever (elf.scanStep s d) fuel { addrs }
  return (w.abi, w.addrs)

section

variable {elf : ELF} {sym str : ℤ} {s d : Word} {n : ℕ} {symbol : ℕ → Bytes × Word}

/-- Up to its early exit the loop is the one that scans the whole table. -/
theorem walkStep_of_not_done {w : Walk} (h : w.done = false) :
    elf.walkStep s d w = elf.scanStep s d w := by
  simp only [walkStep, scanStep, h, Bool.false_eq_true, if_false]

theorem HasSymbols.scanStep_eq (h : elf.HasSymbols sym str s d n symbol) (w : Walk) :
    elf.scanStep s d w =
      if w.i.toNat < n then .ret (.inl { w.see (symbol w.i.toNat) with i := w.i + 1 })
      else .ret (.inr w) := by
  rw [scanStep, h.entries]
  simp only [Prog.bind_eq, Prog.pure_eq, Prog.ret_bind]
  split_ifs with hi
  · obtain ⟨entry, sh_offset, st_name, hentry, hoffset, hname, hnameAt, hvalue⟩ := h.symbols w.i hi
    simp only [hentry, hoffset, hname, hnameAt.walkEntry hvalue, Prog.ret_bind, Walk.see_i]
  · rfl

theorem HasSymbols.scanned (h : elf.HasSymbols sym str s d n symbol) (addrs : PyAddresses) :
    Counted (elf.scanStep s d) Walk.i (fun _ => false) n (knownAfter addrs symbol) where
  numbered := knownAfter_i addrs symbol
  stable _ hstop := hstop
  entry k hk hwidth _ := by
    have hi : (knownAfter addrs symbol k).i.toNat = k := by
      rw [knownAfter_i, BitVec.toNat_ofNat, Nat.mod_eq_of_lt hwidth]
    rw [h.scanStep_eq, hi, if_pos hk]
    rfl
  early _ hstop _ := absurd hstop Bool.false_ne_true
  past w hi := by
    rw [h.scanStep_eq, if_neg (Nat.not_lt_of_le hi)]
    exact ⟨w, rfl⟩
  within w a hi hleave := by
    rw [h.scanStep_eq, if_pos hi] at hleave
    cases hleave

/-- What a scan of the whole table finds. -/
theorem HasSymbols.scanTable_eq (h : elf.HasSymbols sym str s d n symbol) (hn : n < 2 ^ 16)
    (addrs : PyAddresses) : ∃ enough, ∀ fuel ≥ enough, elf.scanTable fuel sym str addrs =
      .ret ((knownAfter addrs symbol n).abi, (knownAfter addrs symbol n).addrs) := by
  have hout : ∀ w w', elf.scanStep s d w = .ret (.inr w') → w' = w := by
    intro w w' hleave
    rw [h.scanStep_eq] at hleave
    split_ifs at hleave with hi
    · cases hleave
    · exact (Sum.inr.inj (Prog.ret.inj hleave)).symm
  obtain ⟨k, -, hk, hscan⟩ := (h.scanned addrs).forever_known hout (.inl hn)
  obtain rfl : k = n := hk.resolve_right Bool.false_ne_true
  refine ⟨k + 1, fun fuel hfuel => ?_⟩
  have hloop : Prog.forever (elf.scanStep s d) fuel { addrs } = .ret (knownAfter addrs symbol k) :=
    hscan fuel hfuel
  rw [scanTable, h.table, h.strings]
  simp only [Prog.bind_eq, Prog.pure_eq, Prog.ret_bind, hloop]

/-- `WalkTable` finds what is in the whole table, although it may not look at all of it. -/
theorem HasSymbols.walkTable_eq (h : elf.HasSymbols sym str s d n symbol) (addrs : PyAddresses)
    (hends : n < 2 ^ 16 ∨ (knownAfter addrs symbol (2 ^ 16)).done = true) :
    ∃ enough, ∀ fuel ≥ enough, elf.walkTable fuel sym str addrs =
      .ret ((knownAfter addrs symbol n).abi, (knownAfter addrs symbol n).addrs) := by
  have hout : ∀ w w', elf.walkStep s d w = .ret (.inr w') → w' = w := by
    intro w w' hleave
    rw [h.walkStep_eq] at hleave
    split_ifs at hleave
    · exact (Sum.inr.inj (Prog.ret.inj hleave)).symm
    · cases hleave
    · exact (Sum.inr.inj (Prog.ret.inj hleave)).symm
  obtain ⟨k, hkn, hk, hwalk⟩ := (h.counted addrs).forever_known hout hends
  have hall : (knownAfter addrs symbol n).abi = (knownAfter addrs symbol k).abi ∧
      (knownAfter addrs symbol n).addrs = (knownAfter addrs symbol k).addrs := by
    -- It stopped at the end, or where nothing further can change.
    rcases hk with rfl | hdone
    · exact ⟨rfl, rfl⟩
    · exact (knownAfter_done hkn hdone).2
  refine ⟨k + 1, fun fuel hfuel => ?_⟩
  have hloop : Prog.forever (elf.walkStep s d) fuel { addrs } = .ret (knownAfter addrs symbol k) :=
    hwalk fuel hfuel
  rw [walkTable, h.table, h.strings, hall.1, hall.2]
  simp only [Prog.bind_eq, Prog.pure_eq, Prog.ret_bind, hloop]

/-- **The early exit is honest, and the ABI does not depend on the order.** On a table
whose entries a counter of 16 bits can number, `WalkTable` returns what a scan of the
whole table returns. If the table does not mix Python 2 and 3.6, there is one ABI for
all tables with these entries, in whatever order. -/
theorem walkTable_eq_scanTable (h : elf.HasSymbols sym str s d n symbol) (hn : n ≤ 65535) :
    (∀ addrs, ∃ enough r, ∀ fuel ≥ enough,
      elf.walkTable fuel sym str addrs = .ret r ∧ elf.scanTable fuel sym str addrs = .ret r) ∧
    (¬ Mixes (names symbol n) → ∃ abi, ∀ (elf' : ELF) (sym' str' : ℤ) (s' d' : Word)
      (symbol' : ℕ → Bytes × Word), elf'.HasSymbols sym' str' s' d' n symbol' →
        ((List.range n).map symbol').Perm ((List.range n).map symbol) →
          ∀ addrs, ∃ enough addrs', ∀ fuel ≥ enough,
            elf'.walkTable fuel sym' str' addrs = .ret (abi, addrs')) := by
  have hends : n < 2 ^ 16 := Nat.lt_of_le_of_lt hn (by omega)
  constructor
  · intro addrs
    obtain ⟨enough, hwalk⟩ := h.walkTable_eq addrs (.inl hends)
    obtain ⟨enough', hscan⟩ := h.scanTable_eq hends addrs
    refine ⟨max enough enough', _, fun fuel hfuel => ⟨hwalk fuel ?_, hscan fuel ?_⟩⟩
    · exact Nat.le_trans (Nat.le_max_left _ _) hfuel
    · exact Nat.le_trans (Nat.le_max_right _ _) hfuel
  · intro hmix
    refine ⟨abiOf (names symbol n), fun elf' sym' str' s' d' symbol' h' hperm addrs => ?_⟩
    have hnames : (names symbol' n).Perm (names symbol n) := by
      have hfst := hperm.map Prod.fst
      rw [List.map_map, List.map_map] at hfst
      exact hfst
    -- The walk over the other table has been told the same names.
    have htold := knownAfter_told addrs fun hmix' => hmix (hmix'.of_perm hnames)
    obtain ⟨enough, hwalk⟩ := h'.walkTable_eq addrs (.inl hends)
    refine ⟨enough, (knownAfter addrs symbol' n).addrs, fun fuel hfuel => ?_⟩
    rw [hwalk fuel hfuel, htold.abi, abiOf_perm hnames]

end

/-- The same symbols from the last to the first: there the walk comes to the end. -/
def reversedELF : ELF := tableELF pythonSymbols.reverse []

theorem reversedELF_symbols :
    reversedELF.HasSymbols 2 1 192 128 7 fun k => pythonSymbols.reverse.getD k ([], 0) :=
  .of_symbolAt (by decide +kernel)

theorem walkTable_eq_scanTable_pythonELF :
    (∃ enough r, ∀ fuel ≥ enough, pythonELF.walkTable fuel 2 1 {} = .ret r ∧
      pythonELF.scanTable fuel 2 1 {} = .ret r) ∧
    ∃ abi, (∃ enough addrs, ∀ fuel ≥ enough, pythonELF.walkTable fuel 2 1 {} = .ret (abi, addrs)) ∧
      ∃ enough addrs, ∀ fuel ≥ enough, reversedELF.walkTable fuel 2 1 {} = .ret (abi, addrs) := by
  obtain ⟨hscan, horder⟩ := walkTable_eq_scanTable pythonELF_symbols (by omega)
  refine ⟨hscan {}, ?_⟩
  obtain ⟨abi, hwalk⟩ := horder (by decide)
  have hperm : ((List.range 7).map fun k => pythonSymbols.reverse.getD k ([], 0)).Perm
      ((List.range 7).map fun k => pythonSymbols.getD k ([], 0)) := pythonSymbols.reverse_perm
  exact ⟨abi, hwalk _ _ _ _ _ _ pythonELF_symbols (List.Perm.refl _) {},
    hwalk _ _ _ _ _ _ reversedELF_symbols hperm {}⟩

/-! ### Two tables -/

/-- What decides the ABI of the names in both lists is in the second one. -/
structure Repeats (dynsym symtab : List Bytes) : Prop where
  string : HasString dynsym → HasString symtab
  marker : HasMarker dynsym → HasMarker symtab
  bytes : HasBytes dynsym → HasBytes symtab ∨ HasString symtab ∨ HasMarker symtab

theorem abiOf_append_iff {dynsym symtab : List Bytes} (hmix : ¬ Mixes (dynsym ++ symtab)) :
    abiOf symtab = abiOf (dynsym ++ symtab) ↔ Repeats dynsym symtab := by
  simp only [Mixes, hasString_append, hasMarker_append] at hmix
  constructor
  · intro heq
    simp only [abiOf, hasString_append, hasMarker_append, hasBytes_append] at heq
    refine ⟨fun hd => ?_, fun hd => ?_, fun hd => ?_⟩
    · by_contra hs
      simp only [hs, hd, or_false, if_true, if_false] at heq
      split_ifs at heq
    · by_contra hs
      have hno : ¬ (HasString dynsym ∨ HasString symtab) := fun h => hmix ⟨h, .inl hd⟩
      obtain ⟨hno, hno'⟩ := not_or.mp hno
      simp only [hs, hd, hno, hno', or_false, if_true, if_false] at heq
      split_ifs at heq
    · by_contra hs
      simp only [not_or] at hs
      simp only [hs, hd, or_false, if_true, if_false] at heq
      split_ifs at heq
  · rintro ⟨hstring, hmarker, hbytes⟩
    simp only [abiOf, hasString_append, hasMarker_append, hasBytes_append, or_iff_right_of_imp hstring,
      or_iff_right_of_imp hmarker]
    split_ifs with hs hm hb hb' hb'
    · rfl
    · rfl
    · rfl
    · exact absurd (.inr hb) hb'
    · -- `.dynsym` cannot be the only one that names Python 3.
      rcases hb' with hd | hb'
      · rcases hbytes hd with h | h | h
        · exact absurd h hb
        · exact absurd h hs
        · exact absurd h hm
      · exact absurd hb' hb
    · rfl

section

variable {elf : ELF} {sym str : ℤ} {s d : Word} {n : ℕ} {symbol : ℕ → Bytes × Word}

theorem walkTable_of_le {fuel fuel' : ℕ} {addrs : PyAddresses} {r : PyABI × PyAddresses}
    (h : elf.walkTable fuel sym str addrs = .ret r) (hle : fuel ≤ fuel') :
    elf.walkTable fuel' sym str addrs = .ret r := by
  simp only [walkTable, Prog.bind_eq, Prog.bind_eq_ret] at h
  obtain ⟨s, hs, d, hd, w, hloop, h⟩ := h
  rw [walkTable, hs, hd]
  simp only [Prog.bind_eq, Prog.ret_bind, forever_of_le hloop hle]
  exact h

/-- One of the names makes the ABI final, and the others do not contradict it. -/
theorem Walk.seeABI_final {w : Walk} {names : List Bytes} {name : Bytes} (hmix : ¬ Mixes names)
    (hname : name ∈ names) (hw : w.have_abi = true → w.abi = abiOf names)
    (hfinal : (w.seeABI name).have_abi = true) : (w.seeABI name).abi = abiOf names := by
  rcases w.seeABI_cases name with ⟨habi, heq⟩ | ⟨-, rfl, heq⟩ | ⟨habi, -, heq⟩ | ⟨-, hmark, heq⟩ |
      ⟨habi, -, -, -, heq⟩
  · rw [heq]
    exact hw habi
  · have hstring : HasString names := hname
    rw [heq, abiOf, if_pos hstring]
  · rw [heq, habi] at hfinal
    contradiction
  · have hmarker : HasMarker names := ⟨name, hname, hmark⟩
    rw [heq, abiOf, if_neg fun h => hmix ⟨h, hmarker⟩, if_pos hmarker]
  · rw [heq, habi] at hfinal
    contradiction

theorem Walk.see_final {w : Walk} {names : List Bytes} {symbol : Bytes × Word}
    (hmix : ¬ Mixes names) (hname : symbol.1 ∈ names) (hw : w.have_abi = true → w.abi = abiOf names)
    (hfinal : (w.see symbol).have_abi = true) : (w.see symbol).abi = abiOf names := by
  unfold Walk.see at hfinal ⊢
  split_ifs at hfinal ⊢
  · exact hw hfinal
  · exact hw hfinal
  · exact hw hfinal
  · exact seeABI_final hmix hname hw hfinal

/-- Whenever a walk returns, it has told the ABI of the names in the table. -/
theorem HasSymbols.walkTable_abi (h : elf.HasSymbols sym str s d n symbol)
    (hmix : ¬ Mixes (names symbol n)) {fuel : ℕ} {addrs : PyAddresses} {r : PyABI × PyAddresses}
    (hr : elf.walkTable fuel sym str addrs = .ret r) : r.1 = abiOf (names symbol n) := by
  rcases Nat.lt_or_ge n (2 ^ 16) with hn | hn
  · obtain ⟨enough, hwalk⟩ := h.walkTable_eq addrs (.inl hn)
    have hmore := walkTable_of_le hr (Nat.le_max_right enough fuel)
    rw [hwalk _ (Nat.le_max_left enough fuel)] at hmore
    rw [← Prog.ret.inj hmore]
    exact (knownAfter_told addrs hmix).abi
  · -- The counter never reaches the end, so the walk ends where everything is known.
    have hloop : Returns (fun w : Walk => w.abi = abiOf (names symbol n))
        (Prog.forever (elf.walkStep s d) fuel { addrs }) := by
      apply Ensures.forever (I := fun w : Walk => w.have_abi = true → w.abi = abiOf (names symbol n))
      · intro w hw
        have hi : w.i.toNat < n := Nat.lt_of_lt_of_le w.i.isLt hn
        have hname : (symbol w.i.toNat).1 ∈ names symbol n :=
          List.mem_map.mpr ⟨w.i.toNat, List.mem_range.mpr hi, rfl⟩
        rw [h.walkStep_eq, if_pos hi]
        split_ifs with hdone
        · simp only [Walk.done, decide_eq_true_eq] at hdone
          exact .ret (hw hdone.1)
        · exact .ret fun hfinal => Walk.see_final hmix hname hw hfinal
      · intro hfalse
        cases hfalse
    have hreturns : Returns (fun r => r.1 = abiOf (names symbol n))
        (elf.walkTable fuel sym str addrs) := by
      rw [walkTable, h.table, h.strings]
      exact hloop.bind_of fun w hw => .ret hw
    rw [hr] at hreturns
    exact hreturns () _ rfl

end

/-- The names in the tables that `GetAddresses` walks. Without a `.symtab`, or without its
strings, it walks one table. -/
structure HasTables (elf : ELF) (dynsym symtab : List Bytes) : Prop where
  first : ∃ s d n symbol,
    elf.HasSymbols elf.dynsym elf.dynstr s d n symbol ∧ dynsym = names symbol n
  second : 0 ≤ elf.symtab ∧ 0 ≤ elf.strtab → ∃ s d n symbol,
    elf.HasSymbols elf.symtab elf.strtab s d n symbol ∧ symtab = names symbol n
  single : ¬ (0 ≤ elf.symtab ∧ 0 ≤ elf.strtab) → symtab = []

section

variable {elf : ELF} {dynsym symtab : List Bytes}

/-- The second table has the last word. -/
theorem HasTables.symbols_abi (h : elf.HasTables dynsym symtab) (hmix : ¬ Mixes (dynsym ++ symtab))
    {fuel : ℕ} {r : PyABI × PyAddresses} (hr : elf.symbols fuel = .ret r) :
    r.1 = if 0 ≤ elf.symtab ∧ 0 ≤ elf.strtab then abiOf symtab else abiOf dynsym := by
  obtain ⟨s, d, n, symbol, hsymbols, rfl⟩ := h.first
  simp only [symbols, Prog.bind_eq, Prog.bind_eq_ret] at hr
  obtain ⟨r', hr', hr⟩ := hr
  split_ifs at hr ⊢ with htwo
  · obtain ⟨s', d', n', symbol', hsymbols', rfl⟩ := h.second htwo
    exact hsymbols'.walkTable_abi (fun hmix' => hmix (hmix'.append_left _)) hr
  · rw [← Prog.ret.inj hr]
    exact hsymbols.walkTable_abi (fun hmix' => hmix (hmix'.append_right _)) hr'

/-- **What a second table costs.** The ABI that `GetAddresses` reports is that of the
names in both tables exactly when there is no second table or what decides about
these names is in the second one. With as many entries as 16 bits can number both
walks end. -/
theorem getAddresses_abi_iff (h : elf.HasTables dynsym symtab)
    (hmix : ¬ Mixes (dynsym ++ symtab)) :
    (∀ fuel abi addrs, elf.getAddresses fuel = .ret (abi, addrs) →
      (abi = abiOf (dynsym ++ symtab) ↔
        ¬ (0 ≤ elf.symtab ∧ 0 ≤ elf.strtab) ∨ Repeats dynsym symtab)) ∧
    (dynsym.length ≤ 65535 → symtab.length ≤ 65535 →
      ∃ enough r, ∀ fuel ≥ enough, elf.symbols fuel = .ret r) := by
  constructor
  · intro fuel abi addrs hget
    obtain ⟨r, hr, hget⟩ := Prog.bind_eq_ret.mp hget
    obtain ⟨e_type, -, hget⟩ := Prog.bind_eq_ret.mp hget
    -- The base address comes after the ABI, and does not change it.
    have habi : abi = r.1 := by
      split_ifs at hget
      · obtain ⟨base, -, hget⟩ := Prog.bind_eq_ret.mp hget
        exact (congrArg Prod.fst (Prog.ret.inj hget)).symm
      · exact (congrArg Prod.fst (Prog.ret.inj hget)).symm
    rw [habi, h.symbols_abi hmix hr]
    -- A second walk starts without an ABI, whatever the first one has found.
    by_cases htwo : 0 ≤ elf.symtab ∧ 0 ≤ elf.strtab
    · rw [if_pos htwo, abiOf_append_iff hmix]
      simp only [htwo, and_self, not_true, false_or]
    · rw [if_neg htwo, h.single htwo, List.append_nil]
      simp only [htwo, not_false_eq_true, true_or]
  · intro hdynsym hsymtab
    obtain ⟨s, d, n, symbol, hsymbols, rfl⟩ := h.first
    rw [names, List.length_map, List.length_range] at hdynsym
    obtain ⟨enough, hwalk⟩ := hsymbols.walkTable_eq {} (.inl (Nat.lt_of_le_of_lt hdynsym (by omega)))
    by_cases htwo : 0 ≤ elf.symtab ∧ 0 ≤ elf.strtab
    · obtain ⟨s', d', n', symbol', hsymbols', rfl⟩ := h.second htwo
      rw [names, List.length_map, List.length_range] at hsymtab
      obtain ⟨enough', hwalk'⟩ := hsymbols'.walkTable_eq (knownAfter {} symbol n).addrs
        (.inl (Nat.lt_of_le_of_lt hsymtab (by omega)))
      let w := knownAfter (knownAfter {} symbol n).addrs symbol' n'
      refine ⟨max enough enough', (w.abi, w.addrs), fun fuel hfuel => ?_⟩
      rw [symbols, hwalk fuel (Nat.le_trans (Nat.le_max_left _ _) hfuel)]
      simp only [Prog.bind_eq, Prog.ret_bind, htwo, and_self, if_true]
      exact hwalk' fuel (Nat.le_trans (Nat.le_max_right _ _) hfuel)
    · let w := knownAfter {} symbol n
      refine ⟨enough, (w.abi, w.addrs), fun fuel hfuel => ?_⟩
      rw [symbols, hwalk fuel hfuel]
      simp only [Prog.bind_eq, Prog.ret_bind, htwo, if_false]
      rfl

end

/-! ### A file that was partly stripped -/

/-- A file whose dynamic symbol is one of Python 3.6, and whose other symbol says nothing. -/
def strippedFile : Bytes :=
  let le := ByteMemory.leBytes
  let shdr (name type offset size entsize : ℕ) :=
    le 4 name ++ le 4 type ++ le 16 0 ++ le 8 offset ++ le 8 size ++ le 16 0 ++ le 8 entsize
  ELFMAG ++ le 12 2 ++ le 2 2 ++ le 22 0 ++ le 8 64 ++ le 6 0 ++ le 2 56 ++ le 2 0 ++
    le 2 64 ++ le 2 6 ++ le 2 1 ++
  shdr 0 0 0 0 0 ++ shdr 1 3 496 39 0 ++ shdr 0 11 448 24 24 ++ shdr 0 6 0 0 16 ++
    shdr 0 2 472 24 24 ++ shdr 9 3 496 39 0 ++
  le 8 17 ++ le 16 0x1234 ++ le 8 34 ++ le 16 0x5678 ++
  le 1 0 ++ text ".dynstr" ++ le 1 0 ++ text ".strtab" ++ le 1 0 ++ text "_PyCode_GetExtra" ++ le 1 0 ++
    text "main" ++ le 1 0

def strippedELF : ELF :=
  { file := strippedFile, dynamic := 3, dynstr := 1, dynsym := 2, strtab := 5, symtab := 4 }

theorem strippedELF_dynsym : strippedELF.HasSymbols 2 1 192 128 1
    fun _ => (text "_PyCode_GetExtra", 0x1234) :=
  .of_symbolAt (by decide +kernel)

theorem strippedELF_symtab : strippedELF.HasSymbols 4 5 320 384 1
    fun _ => (text "main", 0x5678) :=
  .of_symbolAt (by decide +kernel)

theorem strippedELF_tables :
    strippedELF.HasTables [text "_PyCode_GetExtra"] [text "main"] where
  first := ⟨_, _, _, _, strippedELF_dynsym, rfl⟩
  second _ := ⟨_, _, _, _, strippedELF_symtab, rfl⟩
  single h := absurd (by decide) h

theorem strippedELF_abi : strippedELF.getAddresses 2 = .ret (.unknown, {}) :=
  Prog.eq_ret_of_result (by decide +kernel)

theorem getAddresses_abi_iff_strippedELF :
    (PyABI.unknown = abiOf [text "_PyCode_GetExtra", text "main"] ↔
      ¬ (0 ≤ strippedELF.symtab ∧ 0 ≤ strippedELF.strtab) ∨
        Repeats [text "_PyCode_GetExtra"] [text "main"]) ∧
    ∃ enough r, ∀ fuel ≥ enough, strippedELF.symbols fuel = .ret r := by
  obtain ⟨habi, hends⟩ := getAddresses_abi_iff strippedELF_tables (by decide)
  exact ⟨habi 2 .unknown {} strippedELF_abi, hends (by decide) (by decide)⟩

/-- A marker of Python 3.6 is lost. -/
theorem getAddresses_strippedELF :
    ELF.parse { file := strippedFile } = .ret strippedELF ∧
      strippedELF.HasTables [text "_PyCode_GetExtra"] [text "main"] ∧
      ¬ Mixes [text "_PyCode_GetExtra", text "main"] ∧
      abiOf [text "_PyCode_GetExtra", text "main"] = .py36 ∧
      strippedELF.getAddresses 2 = .ret (.unknown, {}) :=
  ⟨Prog.eq_ret_of_result (by decide +kernel), strippedELF_tables, by decide, by decide,
    strippedELF_abi⟩

end ELF

end Pyflame
