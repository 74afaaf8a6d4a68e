import Pyflame.Numerals
import Pyflame.Report
import Mathlib.Data.List.TakeWhile

/-!
Reading a flame chart back: `flame-chart-json`.

The script reads pairs of lines, a timestamp and a stack. Its strings are
those of Python 2, which are bytes.
-/

namespace Pyflame

def newline : Byte := 10
def semicolon : Byte := 59

/-- The lines of a file, each with its line feed. -/
def fileLines : Bytes → List Bytes
  | [] => []
  | b :: s =>
      if b = newline then [b] :: fileLines s
      else match fileLines s with
        | [] => [[b]]
        | line :: lines => (b :: line) :: lines

/-- `str.strip`. -/
def strip (s : Bytes) : Bytes := ((s.dropWhile isSpace).reverse.dropWhile isSpace).reverse

/-- `int` of a string, none where it raises. -/
def pyInt (s : Bytes) : Option ℤ :=
  let (negative, digits) := takeSign (strip s)
  if digits ≠ [] ∧ ∀ b ∈ digits, digitValue b < 10 then
    some (if negative then -digitsValue 10 (digitsOf 10 digits) else digitsValue 10 (digitsOf 10 digits))
  else none

/-- The variables of `start`, with the arguments of the calls of `create_node`. -/
structure Reader where
  is_first_ln : Bool := true
  ts : ℤ := 0
  nodes : List (ℤ × Bytes) := []

/-- The body of the loop of `start`. -/
def Reader.read (r : Reader) (line : Bytes) : Option Reader :=
  if r.is_first_ln then
    (pyInt line).map fun ts => { r with is_first_ln := false, ts := ts }
  else
    some { r with is_first_ln := true, nodes := r.nodes ++ [(r.ts, line)] }

/-- What `create_node` passes to `create_cs`. -/
def splitStack (cs : Bytes) : List Bytes := (strip cs).splitOn semicolon

/-- The frames that `create_cs` makes nodes of. -/
def stackNodes (cs : Bytes) : List Bytes := (splitStack cs).filter (· ≠ [])

/-- The timestamps and stacks that `start` takes from its input. -/
def readFlameChart (input : Bytes) : Option (List (ℤ × List Bytes)) := do
  let r ← (fileLines input).foldlM Reader.read {}
  return r.nodes.map fun (ts, cs) => (ts, stackNodes cs)

/-! ### What there is to read -/

/-- A stack that stands for a failed sample. -/
def Frames.IsFailure (frames : Frames) : Prop := ∃ frame, frames = [frame] ∧ frame.file = text "(failed)"

/-- The frames of a stack, outermost first, or its marker. -/
def shownFrames (print_frame : Frame → Bytes) (frames : Frames) : List Bytes :=
  match frames with
  | [] => [text "(idle)"]
  | [frame] => if frame.file = text "(failed)" then [text "(failed)"] else [print_frame frame]
  | frames => frames.reverse.map print_frame

/-- Neither name of a frame contains what ends a frame or a line. -/
def Frame.Plain (frame : Frame) : Prop :=
  ∀ b ∈ frame.file ++ frame.name, b ≠ semicolon ∧ b ≠ newline

/-- A stack in whose names there is no line feed. -/
def Frames.OneLine (frames : Frames) : Prop :=
  frames.IsFailure ∨ ∀ frame ∈ frames, newline ∉ frame.file ++ frame.name

/-- A stack that is printed on one line, its frames told apart. -/
def Frames.Plain (frames : Frames) : Prop := frames.IsFailure ∨ ∀ frame ∈ frames, frame.Plain

/-- A stack whose line reads back as it was written: it does not start with a space
that is stripped, either. -/
def Frames.Legible (frames : Frames) : Prop :=
  frames.IsFailure ∨ (∀ frame ∈ frames, frame.Plain) ∧
    ∀ outermost ∈ frames.getLast?, ∀ b ∈ outermost.file.head?, isSpace b = false

/-! ### Lines -/

section

variable {line : Bytes} {lines : List Bytes}

theorem fileLines_append (h : newline ∉ line) (rest : Bytes) :
    fileLines (line ++ newline :: rest) = (line ++ [newline]) :: fileLines rest := by
  induction line with
  | nil => simp [fileLines]
  | cons b line ih =>
      have hb : b ≠ newline := (List.ne_of_not_mem_cons h).symm
      rw [List.cons_append, fileLines, if_neg hb, ih (List.not_mem_of_not_mem_cons h)]
      rfl

/-- Lines that end in their only line feed are read as they are. -/
theorem fileLines_flatten (h : ∀ l ∈ lines, ∃ line, l = line ++ [newline] ∧ newline ∉ line) :
    fileLines lines.flatten = lines := by
  induction lines with
  | nil => rfl
  | cons l lines ih =>
      obtain ⟨hl, hlines⟩ := List.forall_mem_cons.mp h
      obtain ⟨line, rfl, hline⟩ := hl
      rw [List.flatten_cons, List.append_assoc, List.singleton_append, fileLines_append hline,
        ih hlines]

/-- Only the last byte of a line can be a line feed. -/
theorem newline_notMem_dropLast (input : Bytes) :
    ∀ line ∈ fileLines input, newline ∉ line.dropLast := by
  induction input with
  | nil => simp [fileLines]
  | cons b input ih =>
      rw [fileLines]
      by_cases hb : b = newline
      · rw [if_pos hb]
        exact List.forall_mem_cons.mpr ⟨by simp, ih⟩
      rw [if_neg hb]
      generalize fileLines input = lines at ih
      cases lines with
      | nil => simp
      | cons line lines =>
          obtain ⟨hline, hlines⟩ := List.forall_mem_cons.mp ih
          refine List.forall_mem_cons.mpr ⟨?_, hlines⟩
          cases line with
          | nil => simp
          | cons c line =>
              rw [List.dropLast_cons_of_ne_nil (by simp)]
              exact List.not_mem_cons_of_ne_of_not_mem (Ne.symm hb) hline

end

/-! ### Timestamps -/

theorem dropWhile_concat {init : Bytes} {last : Byte} (h : isSpace last = false) :
    (init ++ [last]).dropWhile isSpace = init.dropWhile isSpace ++ [last] := by
  have hlast : [last].dropWhile isSpace = [last] := List.dropWhile_cons_of_neg (by simpa using h)
  rw [List.dropWhile_append]
  split_ifs with hnil
  · rw [hlast, List.isEmpty_iff.mp hnil, List.nil_append]
  · rfl

/-- Of a line that ends in a character that is no space. -/
theorem strip_newline {init : Bytes} {last : Byte} (h : isSpace last = false) :
    strip (init ++ [last] ++ [newline]) = (init ++ [last]).dropWhile isSpace := by
  have hspace : isSpace newline = true := by decide
  have hlast : ¬ isSpace last = true := by simpa using h
  have hline : (init ++ [last] ++ [newline]).dropWhile isSpace =
      init.dropWhile isSpace ++ [last] ++ [newline] := by
    rw [List.dropWhile_append, dropWhile_concat h]
    exact if_neg (by simp)
  rw [strip, hline, List.reverse_append, List.reverse_append, List.reverse_singleton,
    List.reverse_singleton, List.singleton_append, List.singleton_append,
    List.dropWhile_cons_of_pos hspace, List.dropWhile_cons_of_neg hlast, List.reverse_cons,
    List.reverse_reverse, dropWhile_concat h]

theorem digits_decimal (n : ℕ) : ∀ b ∈ decimal n, digitValue b < 10 :=
  digitValue_of_mem_numeral (by decide) (by decide) n

theorem decimal_ne_nil (n : ℕ) : decimal n ≠ [] := by
  intro hnil
  have hne := (digitsOf_numeral (show 1 < 10 by decide) (by decide) n).1
  rw [← decimal, hnil] at hne
  exact hne rfl

theorem isSpace_of_mem_decimal {n : ℕ} {b : Byte} (h : b ∈ decimal n) :
    isSpace b = false ∧ b ≠ 45 ∧ b ≠ 43 :=
  plain_of_digit (Nat.lt_of_lt_of_le (digits_decimal n b h) (by decide))

theorem takeSign_decimal (n : ℕ) : takeSign (decimal n) = (false, decimal n) := by
  cases h : decimal n with
  | nil => rfl
  | cons b s =>
      obtain ⟨-, hminus, hplus⟩ := isSpace_of_mem_decimal (h ▸ List.mem_cons_self : b ∈ decimal n)
      rw [takeSign, if_neg hminus, if_neg hplus]

theorem isSpace_of_mem_signedDecimal {n : ℤ} {b : Byte} (h : b ∈ signedDecimal n) :
    isSpace b = false := by
  unfold signedDecimal at h
  split_ifs at h
  · rcases List.mem_append.mp h with h | h
    · obtain rfl := List.mem_singleton.mp h
      decide
    · exact (isSpace_of_mem_decimal h).1
  · exact (isSpace_of_mem_decimal h).1

theorem pyInt_signedDecimal (n : ℤ) : pyInt (signedDecimal n ++ [newline]) = some n := by
  have hspace : ∀ b ∈ signedDecimal n, isSpace b = false := fun b => isSpace_of_mem_signedDecimal
  have hne : signedDecimal n ≠ [] := by
    unfold signedDecimal
    split_ifs
    · exact List.cons_ne_nil _ _
    · exact decimal_ne_nil _
  have hstrip : strip (signedDecimal n ++ [newline]) = signedDecimal n := by
    obtain ⟨init, last, hsplit⟩ := (List.eq_nil_or_concat _).resolve_left hne
    rw [List.concat_eq_append] at hsplit
    have hlast : isSpace last = false := hspace last (by simp [hsplit])
    rw [hsplit, strip_newline hlast, ← hsplit]
    cases hs : signedDecimal n with
    | nil => rfl
    | cons b s => exact List.dropWhile_cons_of_neg (by simp [hspace b (hs ▸ List.mem_cons_self)])
  have hvalue := (digitsOf_numeral (show 1 < 10 by decide) (by decide) n.natAbs).2
  rw [← decimal] at hvalue
  have hdigits := And.intro (decimal_ne_nil n.natAbs) (digits_decimal n.natAbs)
  rw [pyInt, hstrip, signedDecimal]
  by_cases hneg : n < 0
  · have hsign : takeSign (text "-" ++ decimal n.natAbs) = (true, decimal n.natAbs) := rfl
    rw [if_pos hneg, hsign]
    simp only [if_pos hdigits, if_true, hvalue]
    congr 1
    omega
  · rw [if_neg hneg, takeSign_decimal]
    simp only [if_pos hdigits, Bool.false_eq_true, if_false, hvalue]
    congr 1
    omega

/-! ### Records -/

/-- Pairs of a line that reads as a timestamp and a line for a stack. -/
theorem foldlM_read {α : Type} (time line : α → Bytes) (ts : α → ℤ) {records : List α}
    (h : ∀ x ∈ records, pyInt (time x) = some (ts x)) (r : Reader) (hr : r.is_first_ln = true) :
    ∃ r', (records.flatMap fun x => [time x, line x]).foldlM Reader.read r = some r' ∧
      r'.nodes = r.nodes ++ records.map fun x => (ts x, line x) := by
  induction records generalizing r with
  | nil => exact ⟨r, rfl, by simp⟩
  | cons x records ih =>
      obtain ⟨hx, hrecords⟩ := List.forall_mem_cons.mp h
      obtain ⟨r', hrun, hnodes⟩ := ih hrecords ⟨true, ts x, r.nodes ++ [(ts x, line x)]⟩ rfl
      refine ⟨r', ?_, by simpa using hnodes⟩
      rw [← hrun]
      simp [Reader.read, hr, hx]

/-- What the reader makes of lines that are as they were printed. -/
theorem readFlameChart_eq {input : Bytes} {records : List (ℤ × Bytes)}
    (h : fileLines input = records.flatMap fun x => [signedDecimal x.1 ++ [newline], x.2]) :
    readFlameChart input = some (records.map fun x => (x.1, stackNodes x.2)) := by
  have htime : ∀ x ∈ records, pyInt (signedDecimal x.1 ++ [newline]) = some x.1 := fun x _ =>
    pyInt_signedDecimal x.1
  have hread := foldlM_read (fun x : ℤ × Bytes => signedDecimal x.1 ++ [newline]) Prod.snd Prod.fst
    htime
  obtain ⟨r, hrun, hnodes⟩ := hread {} rfl
  rw [← h] at hrun
  rw [readFlameChart, hrun]
  simp [hnodes]

/-! ### What can be read -/

theorem subset_of_dropWhile {s : Bytes} {b : Byte} (h : b ∈ s.dropWhile isSpace) : b ∈ s :=
  (List.dropWhile_sublist isSpace).subset h

theorem newline_notMem_strip {line : Bytes} (h : newline ∉ line.dropLast) : newline ∉ strip line := by
  have hspace : isSpace newline = true := by decide
  intro hmem
  rw [strip, List.mem_reverse] at hmem
  cases line using List.reverseRecOn with
  | nil => simp at hmem
  | append_singleton init last =>
      rw [List.dropLast_concat] at h
      by_cases hlast : last = newline
      · -- The line feed at the end is stripped.
        subst hlast
        rw [List.dropWhile_append] at hmem
        split_ifs at hmem with hnil
        · simp [hspace] at hmem
        · rw [List.reverse_append, List.reverse_singleton, List.singleton_append,
            List.dropWhile_cons_of_pos hspace] at hmem
          exact h (subset_of_dropWhile (List.mem_reverse.mp (subset_of_dropWhile hmem)))
      · have hmem := subset_of_dropWhile (List.mem_reverse.mp (subset_of_dropWhile hmem))
        rcases List.mem_append.mp hmem with hmem | hmem
        · exact h hmem
        · exact hlast (List.mem_singleton.mp hmem).symm

theorem mem_splitOn {α : Type} [BEq α] [LawfulBEq α] {s : List α} {sep : α} :
    ∀ part ∈ s.splitOn sep, sep ∉ part ∧ ∀ b ∈ part, b ∈ s := by
  induction s with
  | nil => simp
  | cons c s ih =>
      rw [List.splitOn_cons_eq_if_modifyHead]
      by_cases hc : (c == sep) = true
      · rw [if_pos hc]
        refine List.forall_mem_cons.mpr ⟨by simp, fun part hpart => ?_⟩
        obtain ⟨hsep, hsub⟩ := ih part hpart
        exact ⟨hsep, fun b hb => List.mem_cons_of_mem _ (hsub b hb)⟩
      · rw [if_neg hc]
        have hne : sep ≠ c := fun heq => hc (by simp [heq])
        generalize s.splitOn sep = parts at ih
        cases parts with
        | nil => simp
        | cons part parts =>
            obtain ⟨⟨hsep, hsub⟩, hparts⟩ := List.forall_mem_cons.mp ih
            refine List.forall_mem_cons.mpr ⟨⟨?_, ?_⟩, fun part hpart => ?_⟩
            · exact List.not_mem_cons_of_ne_of_not_mem hne hsep
            · intro b hb
              rcases List.mem_cons.mp hb with rfl | hb
              · exact List.mem_cons_self
              · exact List.mem_cons_of_mem _ (hsub b hb)
            · obtain ⟨hsep, hsub⟩ := hparts part hpart
              exact ⟨hsep, fun b hb => List.mem_cons_of_mem _ (hsub b hb)⟩

/-- Every stack line that the reader takes is a line of its input. -/
theorem nodes_of_foldlM {lines : List Bytes} {r r' : Reader}
    (h : lines.foldlM Reader.read r = some r') :
    ∀ x ∈ r'.nodes, x ∈ r.nodes ∨ x.2 ∈ lines := by
  induction lines generalizing r with
  | nil =>
      obtain rfl : r = r' := Option.some.inj h
      exact fun x hx => .inl hx
  | cons line lines ih =>
      obtain ⟨r₁, hread, hrest⟩ := Option.bind_eq_some_iff.mp h
      intro x hx
      rcases ih hrest x hx with hx | hx
      · unfold Reader.read at hread
        split_ifs at hread
        · obtain ⟨ts, -, rfl⟩ := Option.map_eq_some_iff.mp hread
          exact .inl hx
        · obtain rfl := Option.some.inj hread
          rcases List.mem_append.mp hx with hx | hx
          · exact .inl hx
          · obtain rfl := List.mem_singleton.mp hx
            exact .inr List.mem_cons_self
      · exact .inr (List.mem_cons_of_mem _ hx)

/-- Whatever is read, no frame of it contains a semicolon or a line feed. -/
theorem plain_of_read {input : Bytes} {chart : List (ℤ × List Bytes)}
    (h : readFlameChart input = some chart) :
    ∀ x ∈ chart, ∀ frame ∈ x.2, ∀ b ∈ frame, b ≠ semicolon ∧ b ≠ newline := by
  obtain ⟨r, hrun, hchart⟩ := Option.bind_eq_some_iff.mp h
  obtain rfl := Option.some.inj hchart
  intro x hx frame hframe b hb
  obtain ⟨⟨ts, cs⟩, hnode, rfl⟩ := List.mem_map.mp hx
  have hline : cs ∈ fileLines input := (nodes_of_foldlM hrun _ hnode).resolve_left (by simp)
  obtain ⟨hsep, hsub⟩ := mem_splitOn frame (List.mem_filter.mp hframe).1
  constructor
  · rintro rfl
    exact hsep hb
  · rintro rfl
    exact newline_notMem_strip (newline_notMem_dropLast input cs hline) (hsub newline hb)

/-! ### Stacks -/

section

variable {print_frame : Frame → Bytes} {frame : Frame} {frames : Frames}

/-- A frame is printed as its file name, a colon, and more. -/
def PrintsFile (print_frame : Frame → Bytes) : Prop :=
  ∀ frame, ∃ rest, print_frame frame = frame.file ++ 58 :: rest ∧
    ∀ b, b = semicolon ∨ b = newline → (b ∈ rest ↔ b ∈ frame.name)

theorem printsFile (include_line_number : Bool) : PrintsFile (framePrinter include_line_number) := by
  intro frame
  cases include_line_number with
  | true =>
      refine ⟨frame.name ++ 58 :: decimal frame.line.toNat, ?_, fun b hb => ?_⟩
      · show printFrame frame = _
        simp [printFrame, text]
      · have hdecimal : b ∉ (58 : Byte) :: decimal frame.line.toNat := by
          intro hmem
          have hdigit : digitValue b < 10 ∨ b = 58 := by
            rcases List.mem_cons.mp hmem with h | h
            · exact .inr h
            · exact .inl (digits_decimal _ b h)
          revert hdigit
          rcases hb with rfl | rfl <;> decide
        rw [List.mem_append]
        exact or_iff_left hdecimal
  | false => exact ⟨frame.name, by simp [framePrinter, printFrameWithoutLineNumber, text], fun b _ => Iff.rfl⟩

theorem exists_semicolon {frames : List Bytes} (h : frames ≠ []) :
    ∃ init, frames.flatMap (· ++ text ";") = init ++ [semicolon] := by
  obtain ⟨rest, last, rfl⟩ := (List.eq_nil_or_concat frames).resolve_left h
  refine ⟨rest.flatMap (· ++ text ";") ++ last, ?_⟩
  rw [List.concat_eq_append, List.flatMap_append, List.flatMap_singleton, ← List.append_assoc]
  rfl

/-- The last semicolon of a line leaves an empty part. -/
theorem splitStack_of_strip {line : Bytes} {frames : List Bytes}
    (h : strip line = frames.flatMap (· ++ text ";")) (hsep : ∀ r ∈ frames, semicolon ∉ r) :
    splitStack line = frames ++ [[]] := by
  have hjoin := flatMap_separator (text ";") frames []
  rw [List.append_nil] at hjoin
  rw [splitStack, h, hjoin]
  apply List.splitOn_intercalate
  · intro r hr
    rcases List.mem_append.mp hr with hr | hr
    · exact hsep r hr
    · obtain rfl := List.mem_singleton.mp hr
      simp
  · simp

/-- The parts of a line in which each frame is followed by a semicolon. Only the first can
lose anything. -/
theorem splitStack_flatMap {first : Bytes} {rest : List Bytes} (hfirst : first.dropWhile isSpace ≠ [])
    (hsep : ∀ r ∈ first :: rest, semicolon ∉ r) :
    splitStack ((first :: rest).flatMap (· ++ text ";") ++ text "\n") =
      (first.dropWhile isSpace :: rest) ++ [[]] := by
  have hdrop : ((first :: rest).flatMap (· ++ text ";")).dropWhile isSpace =
      (first.dropWhile isSpace :: rest).flatMap (· ++ text ";") := by
    rw [List.flatMap_cons, List.flatMap_cons, List.append_assoc, List.append_assoc,
      List.dropWhile_append]
    exact if_neg (by simpa using hfirst)
  -- Stripping drops the line feed, and whitespace in front of the first frame alone.
  have hstrip : strip ((first :: rest).flatMap (· ++ text ";") ++ text "\n") =
      (first.dropWhile isSpace :: rest).flatMap (· ++ text ";") := by
    obtain ⟨init, hinit⟩ := exists_semicolon (List.cons_ne_nil first rest)
    rw [← hdrop, hinit]
    exact strip_newline (by decide)
  exact splitStack_of_strip hstrip (List.forall_mem_cons.mpr
    ⟨fun h => hsep first List.mem_cons_self (subset_of_dropWhile h),
      fun r hr => hsep r (List.mem_cons_of_mem _ hr)⟩)

theorem stackNodes_flatMap {first : Bytes} {rest : List Bytes} (hfirst : ∃ b ∈ first, isSpace b = false)
    (hsep : ∀ r ∈ first :: rest, semicolon ∉ r) (hne : ∀ r ∈ rest, r ≠ []) :
    stackNodes ((first :: rest).flatMap (· ++ text ";") ++ text "\n") =
      first.dropWhile isSpace :: rest := by
  have hfirst' : first.dropWhile isSpace ≠ [] := by
    obtain ⟨b, hb, hspace⟩ := hfirst
    intro hnil
    have hall := List.dropWhile_eq_nil_iff.mp hnil b hb
    rw [hspace] at hall
    contradiction
  have hkept : (first.dropWhile isSpace :: rest).filter (· ≠ []) = first.dropWhile isSpace :: rest := by
    refine List.filter_eq_self.mpr (List.forall_mem_cons.mpr ⟨?_, fun r hr => ?_⟩)
    · exact decide_eq_true hfirst'
    · exact decide_eq_true (hne r hr)
  rw [stackNodes, splitStack_flatMap hfirst' hsep, List.filter_append, hkept]
  exact List.append_nil _

/-- Where there are frames to print. -/
theorem record_of_frames (print_frame : Frame → Bytes) (hne : frames ≠ []) (hfailure : ¬ frames.IsFailure) :
    stackRecord print_frame frames =
        (frames.reverse.map print_frame).flatMap (· ++ text ";") ++ text "\n" ∧
      shownFrames print_frame frames = frames.reverse.map print_frame := by
  match frames with
  | [] => contradiction
  | [frame] =>
      have hfile : frame.file ≠ text "(failed)" := fun hfile => hfailure ⟨frame, rfl, hfile⟩
      simp [stackRecord, shownFrames, hfile]
  | frame :: frame' :: frames =>
      refine ⟨?_, rfl⟩
      rw [List.flatMap_map]
      rfl

/-- A marker is read as itself. -/
theorem record_of_marker (print_frame : Frame → Bytes) (h : frames = [] ∨ frames.IsFailure) :
    ∃ marker, stackRecord print_frame frames = marker ++ text "\n" ∧ newline ∉ marker ∧
      stackNodes (stackRecord print_frame frames) = shownFrames print_frame frames := by
  rcases h with rfl | ⟨frame, rfl, hfile⟩
  · refine ⟨text "(idle)", rfl, by decide, ?_⟩
    show stackNodes (text "(idle)\n") = [text "(idle)"]
    decide
  · refine ⟨text "(failed)", by simp [stackRecord, hfile, text], by decide, ?_⟩
    simp only [stackRecord, shownFrames, if_pos hfile]
    decide

theorem plain_printed (hp : PrintsFile print_frame) :
    frame.Plain ↔ ∀ b ∈ print_frame frame, b ≠ semicolon ∧ b ≠ newline := by
  obtain ⟨rest, hprint, hrest⟩ := hp frame
  rw [hprint, Frame.Plain]
  constructor
  · intro h b hb
    by_contra hbad
    have hsep : b = semicolon ∨ b = newline := by
      by_contra hnot
      exact hbad (not_or.mp hnot)
    have hcolon : b ≠ 58 := by rcases hsep with rfl | rfl <;> decide
    apply hbad (h b (List.mem_append.mpr _))
    rcases List.mem_append.mp hb with hb | hb
    · exact .inl hb
    · exact .inr ((hrest b hsep).mp ((List.mem_cons.mp hb).resolve_left hcolon))
  · intro h b hb
    by_contra hbad
    have hsep : b = semicolon ∨ b = newline := by
      by_contra hnot
      exact hbad (not_or.mp hnot)
    apply hbad (h b (List.mem_append.mpr _))
    rcases List.mem_append.mp hb with hb | hb
    · exact .inl hb
    · exact .inr (List.mem_cons_of_mem _ ((hrest b hsep).mpr hb))

theorem dropWhile_printed_iff {file rest : Bytes} :
    (file ++ 58 :: rest).dropWhile isSpace = file ++ 58 :: rest ↔
      ∀ b ∈ file.head?, isSpace b = false := by
  cases file with
  | nil => simp [isSpace]
  | cons b file =>
      by_cases hb : isSpace b = true
      · rw [List.cons_append, List.dropWhile_cons_of_pos hb]
        constructor
        · intro heq
          have hlen := (List.dropWhile_sublist (l := file ++ 58 :: rest) isSpace).length_le
          rw [heq, List.length_cons] at hlen
          omega
        · intro h
          simp [hb] at h
      · rw [List.cons_append, List.dropWhile_cons_of_neg hb]
        simpa using hb

/-- The line of a stack reads back as the stack exactly if it is legible. -/
theorem stackNodes_record_iff (hp : PrintsFile print_frame) (hplain : frames.Plain) :
    stackNodes (stackRecord print_frame frames) = shownFrames print_frame frames ↔
      frames.Legible := by
  -- A stack that is printed as a marker reads back as the marker.
  by_cases hmarker : frames = [] ∨ frames.IsFailure
  · obtain ⟨-, -, -, hnodes⟩ := record_of_marker print_frame hmarker
    refine iff_of_true hnodes ?_
    rcases hmarker with rfl | hfailure
    · exact .inr (by simp)
    · exact .inl hfailure
  obtain ⟨hne, hfailure⟩ := not_or.mp hmarker
  have hframes := hplain.resolve_left hfailure
  obtain ⟨hrecord, hshown⟩ := record_of_frames print_frame hne hfailure
  -- The outermost frame is the last one of the stack and the first one of the line.
  obtain ⟨init, outermost, rfl⟩ := (List.eq_nil_or_concat frames).resolve_left hne
  rw [List.concat_eq_append] at hfailure hframes hrecord hshown ⊢
  have hlines : (init ++ [outermost]).reverse.map print_frame =
      print_frame outermost :: init.reverse.map print_frame := by simp
  have hcolon : ∀ frame, ∃ b ∈ print_frame frame, isSpace b = false := by
    intro frame
    obtain ⟨rest, hprint, -⟩ := hp frame
    exact ⟨58, by simp [hprint], by decide⟩
  have hnodes : stackNodes (stackRecord print_frame (init ++ [outermost])) =
      (print_frame outermost).dropWhile isSpace :: init.reverse.map print_frame := by
    rw [hrecord, hlines]
    apply stackNodes_flatMap (hcolon outermost)
    · rw [← hlines]
      intro r hr
      obtain ⟨frame, hframe, rfl⟩ := List.mem_map.mp hr
      have hplain := (plain_printed hp).mp (hframes frame (List.mem_reverse.mp hframe))
      exact fun hmem => (hplain semicolon hmem).1 rfl
    · intro r hr
      obtain ⟨frame, -, rfl⟩ := List.mem_map.mp hr
      obtain ⟨b, hb, -⟩ := hcolon frame
      exact List.ne_nil_of_mem hb
  have hlegible : Frames.Legible (init ++ [outermost]) ↔
      ∀ b ∈ outermost.file.head?, isSpace b = false := by
    rw [Frames.Legible, or_iff_right hfailure, and_iff_right hframes, List.getLast?_concat]
    simp
  obtain ⟨rest, hprint, -⟩ := hp outermost
  have hfirst : (print_frame outermost).dropWhile isSpace = print_frame outermost ↔
      ∀ b ∈ outermost.file.head?, isSpace b = false := by
    rw [hprint]
    exact dropWhile_printed_iff
  rw [hnodes, hshown, hlines, hlegible, ← hfirst]
  exact ⟨fun heq => (List.cons.inj heq).1, fun heq => congrArg (· :: _) heq⟩

end

/-! ### The round trip -/

section

variable {call_stacks : List FrameTS} {include_line_number : Bool}

theorem newline_printed {print_frame : Frame → Bytes} (hp : PrintsFile print_frame) (frame : Frame) :
    newline ∈ print_frame frame ↔ newline ∈ frame.file ++ frame.name := by
  obtain ⟨rest, hprint, hrest⟩ := hp frame
  have hcolon : newline ≠ 58 := by decide
  rw [hprint, List.mem_append, List.mem_append, List.mem_cons, hrest newline (.inr rfl),
    or_iff_right hcolon]

/-- The lines of such stacks are those that were printed. -/
theorem fileLines_printFramesTS (hline : ∀ c ∈ call_stacks, c.frames.OneLine) :
    fileLines (printFramesTS call_stacks include_line_number).out.flatten =
      (call_stacks.map fun c => (microseconds c.ts,
        stackRecord (framePrinter include_line_number) c.frames)).flatMap fun x =>
          [signedDecimal x.1 ++ [newline], x.2] := by
  have hlines : fileLines (printFramesTS call_stacks include_line_number).out.flatten =
      (printFramesTS call_stacks include_line_number).out := by
    apply fileLines_flatten
    intro l hl
    obtain ⟨c, hc, hl⟩ := List.mem_flatMap.mp hl
    rcases List.mem_cons.mp hl with rfl | hl
    · refine ⟨signedDecimal (microseconds c.ts), rfl, fun hmem => ?_⟩
      have hspace := isSpace_of_mem_signedDecimal hmem
      revert hspace
      decide
    · obtain rfl := List.mem_singleton.mp hl
      by_cases hmarker : c.frames = [] ∨ c.frames.IsFailure
      · obtain ⟨marker, hrecord, hmem, -⟩ :=
          record_of_marker (framePrinter include_line_number) hmarker
        exact ⟨marker, hrecord, hmem⟩
      · obtain ⟨hne, hfailure⟩ := not_or.mp hmarker
        have hframes := (hline c hc).resolve_left hfailure
        refine ⟨_, (record_of_frames (framePrinter include_line_number) hne hfailure).1, fun hmem => ?_⟩
        obtain ⟨r, hr, hmem⟩ := List.mem_flatMap.mp hmem
        obtain ⟨frame, hframe, rfl⟩ := List.mem_map.mp hr
        rcases List.mem_append.mp hmem with hmem | hmem
        · exact hframes frame (List.mem_reverse.mp hframe)
            ((newline_printed (printsFile include_line_number) frame).mp hmem)
        · revert hmem
          decide
  rw [hlines, List.flatMap_map]
  rfl

/-- Such stacks are read line by line. -/
theorem readFlameChart_oneLine (hline : ∀ c ∈ call_stacks, c.frames.OneLine) :
    readFlameChart (printFramesTS call_stacks include_line_number).out.flatten =
      some (call_stacks.map fun c => (microseconds c.ts,
        stackNodes (stackRecord (framePrinter include_line_number) c.frames))) := by
  rw [readFlameChart_eq (fileLines_printFramesTS hline), List.map_map]
  rfl

theorem Frames.Plain.oneLine {frames : Frames} (h : frames.Plain) : frames.OneLine := by
  refine h.imp_right fun hframes frame hframe hmem => ?_
  exact (hframes frame hframe newline hmem).2 rfl

/-- What is shown of a stack has no line feed and no semicolon in it only if the stack is
plain. -/
theorem plain_of_shown {print_frame : Frame → Bytes} (hp : PrintsFile print_frame) {frames : Frames}
    (h : ∀ r ∈ shownFrames print_frame frames, ∀ b ∈ r, b ≠ semicolon ∧ b ≠ newline) :
    frames.Plain := by
  by_cases hfailure : frames.IsFailure
  · exact .inl hfailure
  right
  intro frame hframe
  rw [(record_of_frames print_frame (List.ne_nil_of_mem hframe) hfailure).2] at h
  exact (plain_printed hp).mpr (h _ (List.mem_map_of_mem (List.mem_reverse.mpr hframe)))

end

/-- **The flame chart reads back** as the timestamps and stacks it was printed from exactly
if every stack is legible. -/
theorem readFlameChart_printFramesTS_iff (call_stacks : List FrameTS) (include_line_number : Bool) :
    readFlameChart (printFramesTS call_stacks include_line_number).out.flatten =
        some (call_stacks.map fun c =>
          (microseconds c.ts, shownFrames (framePrinter include_line_number) c.frames)) ↔
      ∀ c ∈ call_stacks, c.frames.Legible := by
  have hp := printsFile include_line_number
  constructor
  · intro hread
    -- What can be read has no separators left in it, so the stacks were plain.
    have hplain : ∀ c ∈ call_stacks, c.frames.Plain := fun c hc =>
      plain_of_shown hp (plain_of_read hread _ (List.mem_map_of_mem hc))
    rw [readFlameChart_oneLine fun c hc => (hplain c hc).oneLine, Option.some_inj,
      List.map_inj_left] at hread
    intro c hc
    exact (stackNodes_record_iff hp (hplain c hc)).mp (congrArg Prod.snd (hread c hc))
  · intro hlegible
    have hplain : ∀ c ∈ call_stacks, c.frames.Plain := fun c hc => (hlegible c hc).imp_right And.left
    rw [readFlameChart_oneLine fun c hc => (hplain c hc).oneLine, Option.some_inj,
      List.map_inj_left]
    intro c hc
    rw [(stackNodes_record_iff hp (hplain c hc)).mpr (hlegible c hc)]

/-- A file name with a semicolon in it. -/
theorem readFlameChart_splits_name :
    readFlameChart (printFramesTS [⟨5000, [⟨text "a;b.py", text "f", 1⟩]⟩] true).out.flatten ≠
      some [(5, [text "a;b.py:f:1"])] := by
  decide

end Pyflame
