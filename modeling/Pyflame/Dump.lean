import Pyflame.FlameChart
import Pyflame.Main

/-!
Reading a dump back.

`DumpStacks` prints the threads one after the other, with an empty line between
them. There is no reader of it in the repository, so the one here takes a dump
at its word: a line is what is between line feeds, and of a frame the line
number is what follows the last colon and the function what follows the one
before.
-/

namespace Pyflame

open Interaction

def colon : Byte := 58

/-- The lines of a dump. -/
def dumpLines (threads : List Thread) : List Bytes :=
  ((threads.map printThread).intersperse [text "\n"]).flatten

/-! ### The reader -/

/-- The string up to its last colon, and what follows that. -/
def splitLast (s : Bytes) : Option (Bytes × Bytes) :=
  match s.reverse.dropWhile (· ≠ colon) with
  | [] => none
  | _ :: before => some (before.reverse, (s.reverse.takeWhile (· ≠ colon)).reverse)

def readWord (s : Bytes) : Option Word :=
  if s ≠ [] ∧ ∀ b ∈ s, digitValue b < 10 then
    some (BitVec.ofNat 64 (digitsValue 10 (digitsOf 10 s)))
  else none

def Frame.read (line : Bytes) : Option Frame := do
  let (shown, number) ← splitLast line
  let (file, name) ← splitLast shown
  return ⟨file, name, ← readWord number⟩

/-- The id of a thread, and whether there is a star after it. -/
def readId (s : Bytes) : Option (Word × Bool) :=
  if s.getLast? = some 42 then (readWord s.dropLast).map (·, true) else (readWord s).map (·, false)

def Thread.read : List Bytes → Option Thread
  | [] => none
  | heading :: lines => do
      let (id, rest) ← splitLast heading
      if rest = [] then
        let (id, is_current) ← readId id
        return ⟨id, is_current, ← lines.mapM Frame.read⟩
      else
        none

/-- A line without its line feed. -/
def chomp (line : Bytes) : Bytes := line.takeWhile (· ≠ newline)

def readDump (input : Bytes) : Option (List Thread) :=
  if input = [] then some [] else (((fileLines input).map chomp).splitOn []).mapM Thread.read

/-- A frame whose line can be taken apart again. -/
structure Frame.Dumpable (frame : Frame) : Prop where
  file_newline : newline ∉ frame.file
  name_newline : newline ∉ frame.name
  name_colon : colon ∉ frame.name

/-! ### Lines -/

section

variable {before after line : Bytes} {w : Word}

theorem splitLast_append (h : colon ∉ after) :
    splitLast (before ++ colon :: after) = some (before, after) := by
  have hafter : ∀ b ∈ after.reverse, decide (b ≠ colon) = true := fun b hb =>
    decide_eq_true fun heq => h (heq ▸ List.mem_reverse.mp hb)
  have hrev : (before ++ colon :: after).reverse = after.reverse ++ colon :: before.reverse := by simp
  rw [splitLast, hrev, List.dropWhile_append_of_pos hafter, List.takeWhile_append_of_pos hafter]
  simp

theorem splitLast_eq_some (h : splitLast line = some (before, after)) :
    line = before ++ colon :: after ∧ colon ∉ after := by
  unfold splitLast at h
  split at h
  · contradiction
  next c rest hrest =>
    have hc : c = colon := by
      have := List.head?_dropWhile_not (fun b => decide (b ≠ colon)) line.reverse
      rw [hrest] at this
      simpa using this
    cases h
    constructor
    · have hline :=
        List.takeWhile_append_dropWhile (p := fun b => decide (b ≠ colon)) (l := line.reverse)
      rw [hrest, hc] at hline
      have := congrArg List.reverse hline
      simpa using this.symm
    · intro hmem
      have := List.mem_takeWhile_imp (List.mem_reverse.mp hmem)
      simp at this

theorem readWord_decimal (w : Word) : readWord (decimal w.toNat) = some w := by
  have hvalue := (digitsOf_numeral (show 1 < 10 by decide) (by decide) w.toNat).2
  rw [← decimal] at hvalue
  rw [readWord, if_pos ⟨decimal_ne_nil _, digits_decimal _⟩, hvalue, BitVec.ofNat_toNat,
    BitVec.setWidth_eq]

theorem notMem_decimal {b : Byte} (hb : ¬ digitValue b < 10) (n : ℕ) : b ∉ decimal n :=
  fun h => hb (digits_decimal n b h)

theorem readFrame_printFrame {frame : Frame} (h : colon ∉ frame.name) :
    Frame.read (printFrame frame) = some frame := by
  have hnumber : colon ∉ decimal frame.line.toNat := notMem_decimal (by decide) _
  have hline : printFrame frame =
      (frame.file ++ colon :: frame.name) ++ colon :: decimal frame.line.toNat := by
    simp [printFrame, text, colon]
  rw [Frame.read, hline, splitLast_append hnumber]
  simp [splitLast_append h, readWord_decimal]

/-- What is printed of a frame stays on its line. -/
theorem newline_notMem_printFrame {frame : Frame} (h : frame.Dumpable) :
    newline ∉ printFrame frame := by
  have hnumber : newline ∉ decimal frame.line.toNat := notMem_decimal (by decide) _
  have hcolon : newline ∉ text ":" := by decide
  simp only [printFrame, List.mem_append, not_or]
  exact ⟨⟨⟨⟨h.file_newline, hcolon⟩, h.name_newline⟩, hcolon⟩, hnumber⟩

theorem chomp_newline (h : newline ∉ line) : chomp (line ++ [newline]) = line := by
  have hline : ∀ b ∈ line, decide (b ≠ newline) = true := fun b hb =>
    decide_eq_true fun heq => h (heq ▸ hb)
  rw [chomp, List.takeWhile_append_of_pos hline]
  simp

theorem newline_notMem_chomp (line : Bytes) : newline ∉ chomp line := by
  intro h
  have := List.mem_takeWhile_imp h
  simp at this

end

/-! ### Threads -/

section

variable {thread : Thread} {threads : List Thread}

/-- The heading of a thread, without its line feed. -/
def heading (thread : Thread) : Bytes :=
  decimal thread.id.toNat ++ (if thread.is_current then text "*" else []) ++ text ":"

/-- The lines of a thread, without their line feeds. -/
def shownThread (thread : Thread) : List Bytes := heading thread :: thread.frames.map printFrame

theorem printThread_eq (thread : Thread) :
    printThread thread = (shownThread thread).map (· ++ [newline]) := by
  have hnewline : text "\n" = [newline] := rfl
  have hcolon : text ":\n" = text ":" ++ [newline] := rfl
  simp [printThread, shownThread, heading, hnewline, hcolon]

theorem readId_heading (id : Word) (is_current : Bool) :
    readId (decimal id.toNat ++ if is_current then text "*" else []) = some (id, is_current) := by
  cases is_current with
  | true =>
      have hlast : (decimal id.toNat ++ text "*").getLast? = some 42 := by simp [text]
      have hinit : (decimal id.toNat ++ text "*").dropLast = decimal id.toNat := by simp [text]
      rw [if_pos rfl, readId, if_pos hlast, hinit, readWord_decimal]
      rfl
  | false =>
      have hlast : (decimal id.toNat).getLast? ≠ some 42 := fun h =>
        notMem_decimal (by decide) _ (List.mem_of_getLast? h)
      rw [if_neg Bool.false_ne_true, List.append_nil, readId, if_neg hlast, readWord_decimal]
      rfl

theorem mapM_map_some {α β γ : Type} {f : β → Option γ} {g : α → β} {h : α → γ} {l : List α}
    (hfg : ∀ a ∈ l, f (g a) = some (h a)) : (l.map g).mapM f = some (l.map h) := by
  induction l with
  | nil => rfl
  | cons a l ih =>
      obtain ⟨ha, hl⟩ := List.forall_mem_cons.mp hfg
      rw [List.map_cons, List.mapM_cons, ha, ih hl]
      rfl

theorem mem_of_mapM_some {α β : Type} {f : α → Option β} {l : List α} {l' : List β}
    (h : l.mapM f = some l') : ∀ b ∈ l', ∃ a ∈ l, f a = some b := by
  induction l generalizing l' with
  | nil =>
      obtain rfl : [] = l' := Option.some.inj h
      exact nofun
  | cons a l ih =>
      rw [List.mapM_cons] at h
      obtain ⟨b, hb, h⟩ := Option.bind_eq_some_iff.mp h
      obtain ⟨bs, hbs, h⟩ := Option.bind_eq_some_iff.mp h
      obtain rfl : b :: bs = l' := Option.some.inj h
      refine List.forall_mem_cons.mpr ⟨⟨a, List.mem_cons_self, hb⟩, fun c hc => ?_⟩
      obtain ⟨x, hx, hfx⟩ := ih hbs c hc
      exact ⟨x, List.mem_cons_of_mem a hx, hfx⟩

theorem readThread_shownThread (h : ∀ frame ∈ thread.frames, colon ∉ frame.name) :
    Thread.read (shownThread thread) = some thread := by
  have hsplit : splitLast (heading thread) =
      some (decimal thread.id.toNat ++ (if thread.is_current then text "*" else []), []) :=
    splitLast_append List.not_mem_nil
  have hframes : (thread.frames.map printFrame).mapM Frame.read = some thread.frames := by
    have := mapM_map_some fun frame hframe => readFrame_printFrame (h frame hframe)
    rwa [List.map_id''] at this
    exact fun _ => rfl
  rw [shownThread, Thread.read, hsplit]
  simp [readId_heading, hframes]

/-! ### Dumps -/

/-- The lines of a dump, without their line feeds. -/
def shownDump (threads : List Thread) : List Bytes := [[]].intercalate (threads.map shownThread)

theorem dumpLines_eq (threads : List Thread) :
    dumpLines threads = (shownDump threads).map (· ++ [newline]) := by
  have hnewline : text "\n" = [newline] := rfl
  induction threads with
  | nil => rfl
  | cons thread threads ih =>
      cases threads with
      | nil => simp [dumpLines, shownDump, List.intercalate, printThread_eq]
      | cons next threads =>
          simp only [dumpLines, shownDump, List.intercalate, List.map_cons, List.intersperse_cons_cons,
            List.flatten_cons, List.map_append] at ih ⊢
          rw [ih, printThread_eq, hnewline]
          rfl

theorem mem_shownDump {line : Bytes} (h : line ∈ shownDump threads) :
    line = [] ∨ ∃ thread ∈ threads, line ∈ shownThread thread := by
  induction threads with
  | nil => simp [shownDump, List.intercalate] at h
  | cons thread threads ih =>
      cases threads with
      | nil =>
          simp only [shownDump, List.intercalate, List.map_cons, List.map_nil,
            List.intersperse_singleton, List.flatten_cons, List.flatten_nil, List.append_nil] at h
          exact .inr ⟨thread, List.mem_cons_self, h⟩
      | cons next threads =>
          simp only [shownDump, List.intercalate, List.map_cons, List.intersperse_cons_cons,
            List.flatten_cons, List.mem_append, List.mem_singleton] at h ih
          rcases h with h | h | h
          · exact .inr ⟨thread, List.mem_cons_self, h⟩
          · exact .inl h
          · refine (ih h).imp_right fun ⟨t, ht, hline⟩ => ⟨t, List.mem_cons_of_mem _ ht, hline⟩

theorem newline_notMem_shownDump
    (h : ∀ thread ∈ threads, ∀ frame ∈ thread.frames, frame.Dumpable) :
    ∀ line ∈ shownDump threads, newline ∉ line := by
  intro line hline
  rcases mem_shownDump hline with rfl | ⟨thread, hthread, hline⟩
  · exact List.not_mem_nil
  rcases List.mem_cons.mp hline with rfl | hline
  · have hid : newline ∉ decimal thread.id.toNat := notMem_decimal (by decide) _
    have hstar : newline ∉ if thread.is_current then text "*" else [] := by
      split_ifs <;> decide
    have hcolon : newline ∉ text ":" := by decide
    simp only [heading, List.mem_append, not_or]
    exact ⟨⟨hid, hstar⟩, hcolon⟩
  · obtain ⟨frame, hframe, rfl⟩ := List.mem_map.mp hline
    exact newline_notMem_printFrame (h thread hthread frame hframe)

/-- A line of a thread is not empty, so that it is not taken for the line between two. -/
theorem nil_notMem_shownThread (thread : Thread) : [] ∉ shownThread thread := by
  intro h
  rcases List.mem_cons.mp h with h | h
  · simp [heading, text] at h
  · obtain ⟨frame, -, hframe⟩ := List.mem_map.mp h
    simp [printFrame, text] at hframe

theorem dumpLines_flatten_ne_nil (hne : threads ≠ []) : (dumpLines threads).flatten ≠ [] := by
  cases threads with
  | nil => contradiction
  | cons thread threads =>
      rw [dumpLines_eq]
      cases threads <;> simp [shownDump, shownThread, List.intercalate]

/-- The lines that are read are those that were printed. -/
theorem map_chomp_fileLines (h : ∀ line ∈ shownDump threads, newline ∉ line) :
    (fileLines (dumpLines threads).flatten).map chomp = shownDump threads := by
  have hlines : ∀ l ∈ dumpLines threads, ∃ line, l = line ++ [newline] ∧ newline ∉ line := by
    intro l hl
    rw [dumpLines_eq] at hl
    obtain ⟨line, hline, rfl⟩ := List.mem_map.mp hl
    exact ⟨line, rfl, h line hline⟩
  rw [fileLines_flatten hlines, dumpLines_eq, List.map_map]
  refine (List.map_congr_left fun line hline => ?_).trans (List.map_id _)
  exact chomp_newline (h line hline)

theorem readDump_of_dumpable (h : ∀ thread ∈ threads, ∀ frame ∈ thread.frames, frame.Dumpable) :
    readDump (dumpLines threads).flatten = some threads := by
  by_cases hnil : threads = []
  · subst hnil
    rfl
  · have hblocks : (shownDump threads).splitOn [] = threads.map shownThread := by
      refine List.splitOn_intercalate [] (fun block hblock => ?_) (by simpa using hnil)
      obtain ⟨thread, -, rfl⟩ := List.mem_map.mp hblock
      exact nil_notMem_shownThread thread
    have hthreads : (threads.map shownThread).mapM Thread.read = some (threads.map id) :=
      mapM_map_some fun thread hthread =>
        readThread_shownThread fun frame hframe => (h thread hthread frame hframe).name_colon
    rw [readDump, if_neg (dumpLines_flatten_ne_nil hnil),
      map_chomp_fileLines (newline_notMem_shownDump h), hblocks, hthreads, List.map_id]

/-! ### What can be read -/

theorem dumpable_of_read {line : Bytes} {frame : Frame} (hline : newline ∉ line)
    (h : Frame.read line = some frame) : frame.Dumpable := by
  obtain ⟨⟨shown, number⟩, hshown, h⟩ := Option.bind_eq_some_iff.mp h
  obtain ⟨⟨file, name⟩, hname, h⟩ := Option.bind_eq_some_iff.mp h
  obtain ⟨w, -, h⟩ := Option.bind_eq_some_iff.mp h
  obtain rfl := Option.some.inj h
  obtain ⟨rfl, -⟩ := splitLast_eq_some hshown
  obtain ⟨rfl, hcolon⟩ := splitLast_eq_some hname
  simp only [List.mem_append, List.mem_cons, not_or] at hline
  exact ⟨hline.1.1, hline.1.2.2, hcolon⟩

theorem dumpable_of_readThread {lines : List Bytes} (hlines : ∀ line ∈ lines, newline ∉ line)
    (h : Thread.read lines = some thread) : ∀ frame ∈ thread.frames, frame.Dumpable := by
  cases lines with
  | nil => contradiction
  | cons first lines =>
      obtain ⟨⟨id, rest⟩, -, h⟩ := Option.bind_eq_some_iff.mp h
      dsimp only at h
      split_ifs at h
      obtain ⟨⟨id, is_current⟩, -, h⟩ := Option.bind_eq_some_iff.mp h
      obtain ⟨frames, hframes, h⟩ := Option.bind_eq_some_iff.mp h
      obtain rfl := Option.some.inj h
      intro frame hframe
      obtain ⟨line, hline, hread⟩ := mem_of_mapM_some hframes frame hframe
      exact dumpable_of_read (hlines line (List.mem_cons_of_mem _ hline)) hread

/-- Whatever is read, its frames can be taken apart. -/
theorem dumpable_of_readDump {input : Bytes} (h : readDump input = some threads) :
    ∀ thread ∈ threads, ∀ frame ∈ thread.frames, frame.Dumpable := by
  unfold readDump at h
  split_ifs at h
  · obtain rfl := Option.some.inj h
    exact nofun
  · intro thread hthread
    obtain ⟨block, hblock, hread⟩ := mem_of_mapM_some h thread hthread
    refine dumpable_of_readThread (fun line hline => ?_) hread
    have hmem := (mem_splitOn block hblock).2 line hline
    obtain ⟨l, -, rfl⟩ := List.mem_map.mp hmem
    exact newline_notMem_chomp l

end

/-- **What a dump loses.** The threads can be read back from it, in order and frame by frame, if
and only if no file or function name contains a line feed and no function name a colon. -/
theorem readDump_dumpLines_iff (threads : List Thread) :
    readDump (dumpLines threads).flatten = some threads ↔
      ∀ thread ∈ threads, ∀ frame ∈ thread.frames, frame.Dumpable :=
  ⟨dumpable_of_readDump, readDump_of_dumpable⟩

end Pyflame
