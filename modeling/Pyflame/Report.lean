import Pyflame.Frame
import Pyflame.Library.UnorderedMap

/-!
Printing a profile: `PrintFrames` and `PrintFramesTS` of `prober.cc`.

`PrintFrames` puts the sampled stacks into an `unordered_map` keyed by
`FrameHash` and `operator==` and prints one line for each entry. What the
language leaves to its implementation, the two `std::hash` functions, the
number of buckets and when it grows, is a parameter throughout.
-/

namespace Pyflame

open UnorderedMap

/-- The choices of the C++ library that a table depends on. -/
structure StdLib where
  hashSize : Word → Word
  hashString : Bytes → Word
  bucketCount : ℕ
  grow : ℕ → ℕ → ℕ

/-- What a report leaves on its two streams, one entry for each line. -/
structure Printed where
  out : List Bytes
  err : List Bytes
  deriving DecidableEq, Repr

/-- `FrameHash` and `operator==`, as `buckets_t` uses them. -/
def bucketOps (std : StdLib) : KeyOps Frames where
  hash frames := (frameHash std.hashSize std.hashString frames).toNat
  eq := Frames.operatorEq

/-- `buckets_t` after the loop over the call stacks. -/
def buckets (std : StdLib) (call_stacks : List FrameTS) : Table Frames ℕ :=
  Table.tally (bucketOps std) std.grow std.bucketCount (call_stacks.map (·.frames))

/-- A line of a label and a count, printed unless the count is zero. -/
def countLine (label : Bytes) (count : ℕ) : List Bytes :=
  if count ≠ 0 then [label ++ text " " ++ decimal count ++ text "\n"] else []

/-- The loop that prints the buckets. It leaves the function at the first
key without frames. -/
def printBuckets (print_frame : Frame → Bytes) : List (Frames × ℕ) → Printed
  | [] => ⟨[], []⟩
  | ([], _) :: _ => ⟨[], [text "fatal error\n"]⟩
  | (last :: rest, count) :: kvs =>
      let line := (rest.reverse.flatMap fun frame => print_frame frame ++ text ";") ++
        print_frame last ++ text " " ++ decimal count ++ text "\n"
      let printed := printBuckets print_frame kvs
      { printed with out := line :: printed.out }

def printFrames (std : StdLib) (call_stacks : List FrameTS) (idle_count failed_count : ℕ)
    (include_line_number : Bool) : Printed :=
  let print_frame := if include_line_number then printFrame else printFrameWithoutLineNumber
  let printed := printBuckets print_frame (buckets std call_stacks).entries
  { printed with
    out := countLine (text "(idle)") idle_count ++ countLine (text "(failed)") failed_count ++
      printed.out }

/-- The line after the timestamp. -/
def stackRecord (print_frame : Frame → Bytes) (frames : Frames) : Bytes :=
  match frames with
  | [] => text "(idle)\n"
  | [frame] =>
      if frame.file = text "(failed)" then text "(failed)\n"
      else print_frame frame ++ text ";" ++ text "\n"
  | frames => (frames.reverse.flatMap fun frame => print_frame frame ++ text ";") ++ text "\n"

/-- `duration_cast` to microseconds, which truncates. -/
def microseconds (ts : Time) : ℤ := ts.tdiv 1000

def printFramesTS (call_stacks : List FrameTS) (include_line_number : Bool) : Printed :=
  let print_frame := if include_line_number then printFrame else printFrameWithoutLineNumber
  { out := call_stacks.flatMap fun call_stack =>
      [signedDecimal (microseconds call_stack.ts) ++ text "\n",
        stackRecord print_frame call_stack.frames]
    err := [] }

/-! ### What a stack line shows -/

/-- The frames of a stack, outermost first, joined by semicolons. -/
def renderStack (print_frame : Frame → Bytes) (frames : Frames) : Bytes :=
  (text ";").intercalate (frames.reverse.map print_frame)

def stackLine (print_frame : Frame → Bytes) (frames : Frames) (count : ℕ) : Bytes :=
  renderStack print_frame frames ++ text " " ++ decimal count ++ text "\n"

theorem flatMap_separator (sep : Bytes) (l : List Bytes) (x : Bytes) :
    (l.flatMap (· ++ sep)) ++ x = sep.intercalate (l ++ [x]) := by
  induction l with
  | nil => simp [List.intercalate]
  | cons y l ih =>
      rw [List.flatMap_cons, List.append_assoc, ih]
      cases l <;> simp [List.intercalate]

/-- Printing every frame but the last with a semicolon after it joins the
frames by semicolons. -/
theorem renderStack_cons (print_frame : Frame → Bytes) (last : Frame) (rest : Frames) :
    renderStack print_frame (last :: rest) =
      (rest.reverse.flatMap fun frame => print_frame frame ++ text ";") ++ print_frame last := by
  have h := flatMap_separator (text ";") (rest.reverse.map print_frame) (print_frame last)
  rw [List.flatMap_map] at h
  rw [h, renderStack, List.reverse_cons, List.map_append, List.map_singleton]

/-- Without an empty key the loop prints one line for each entry. -/
theorem printBuckets_eq (print_frame : Frame → Bytes) {kvs : List (Frames × ℕ)}
    (h : ∀ kv ∈ kvs, kv.1 ≠ []) :
    printBuckets print_frame kvs =
      ⟨kvs.map fun kv => stackLine print_frame kv.1 kv.2, []⟩ := by
  induction kvs with
  | nil => rfl
  | cons kv kvs ih =>
      obtain ⟨frames, count⟩ := kv
      cases frames with
      | nil => exact absurd rfl (h ([], count) List.mem_cons_self)
      | cons last rest =>
          have := ih fun kv hkv => h kv (List.mem_cons_of_mem _ hkv)
          simp only [printBuckets, this, List.map_cons, stackLine, renderStack_cons]

/-! ### The buckets -/

theorem bucketOps_lawful (std : StdLib) : (bucketOps std).Lawful where
  refl _ := Frames.operatorEq_iff.mpr rfl
  symm _ _ h := Frames.operatorEq_iff.mpr (Frames.operatorEq_iff.mp h).symm
  trans _ _ _ h h' :=
    Frames.operatorEq_iff.mpr ((Frames.operatorEq_iff.mp h).trans (Frames.operatorEq_iff.mp h'))
  hash _ _ h := congrArg BitVec.toNat (frameHash_congr std.hashSize std.hashString h)

theorem buckets_perm (std : StdLib) (call_stacks : List FrameTS) :
    (buckets std call_stacks).entries.Perm
      (assocTally Frames.operatorEq (call_stacks.map (·.frames))) :=
  Table.tally_perm (bucketOps_lawful std) _ _ _

theorem buckets_counts (std : StdLib) (call_stacks : List FrameTS) :
    Counts (bucketOps std) (call_stacks.map (·.frames)) (buckets std call_stacks).entries := by
  have hperm := buckets_perm std call_stacks
  have h := assocTally_counts (bucketOps_lawful std) (call_stacks.map (·.frames))
  refine ⟨h.distinct.perm (bucketOps_lawful std) hperm.symm, ?_, ?_⟩
  · intro x hx
    obtain ⟨e, he, hxe⟩ := h.seen x hx
    exact ⟨e, hperm.mem_iff.mpr he, hxe⟩
  · exact fun e he => h.count e (hperm.mem_iff.mp he)

/-- **The buckets are a linearly searched list.** They hold its keys with its counts, which are
the numbers of stacks that equal them; stacks that are equal have one hash, and no two keys are
equal. -/
theorem buckets_refines (std : StdLib) (call_stacks : List FrameTS) :
    (buckets std call_stacks).entries.Perm
      (assocTally Frames.operatorEq (call_stacks.map (·.frames))) ∧
    (∀ kv ∈ (buckets std call_stacks).entries, kv.1 ∈ call_stacks.map (·.frames) ∧
      kv.2 = (call_stacks.map (·.frames)).countP (Frames.operatorEq kv.1)) ∧
    (∀ a b : Frames, Frames.operatorEq a b = true →
      frameHash std.hashSize std.hashString a = frameHash std.hashSize std.hashString b) ∧
    Distinct Frames.operatorEq (buckets std call_stacks).entries := by
  have hcounts := buckets_counts std call_stacks
  refine ⟨buckets_perm std call_stacks, hcounts.count, fun a b hab => ?_, hcounts.distinct⟩
  exact frameHash_congr std.hashSize std.hashString hab

/-- No sample without frames means no key without frames. -/
theorem buckets_ne_nil (std : StdLib) {call_stacks : List FrameTS}
    (h : ∀ c ∈ call_stacks, c.frames ≠ []) :
    ∀ kv ∈ (buckets std call_stacks).entries, kv.1 ≠ [] := by
  intro kv hkv
  obtain ⟨c, hc, hkc⟩ := List.mem_map.mp ((buckets_counts std call_stacks).count kv hkv).1
  rw [← hkc]
  exact h c hc

/-- The printer that `include_line_number` chooses. -/
def framePrinter (include_line_number : Bool) : Frame → Bytes :=
  if include_line_number then printFrame else printFrameWithoutLineNumber

/-- Without an empty stack, what is printed is the two counts and one line for
each bucket. -/
theorem printFrames_eq (std : StdLib) {call_stacks : List FrameTS} (idle_count failed_count : ℕ)
    (include_line_number : Bool) (hne : ∀ c ∈ call_stacks, c.frames ≠ []) :
    printFrames std call_stacks idle_count failed_count include_line_number =
      { out := countLine (text "(idle)") idle_count ++
          countLine (text "(failed)") failed_count ++
          (buckets std call_stacks).entries.map fun kv =>
            stackLine (framePrinter include_line_number) kv.1 kv.2
        err := [] } := by
  have hbuckets := printBuckets_eq (framePrinter include_line_number) (buckets_ne_nil std hne)
  rw [printFrames, ← framePrinter, hbuckets]

/-- Every sample is counted in one bucket. -/
theorem buckets_sum (std : StdLib) (call_stacks : List FrameTS) :
    ((buckets std call_stacks).entries.map (·.2)).sum = call_stacks.length := by
  rw [((buckets_perm std call_stacks).map (·.2)).sum_nat, assocTally_sum, List.length_map]

/-! ### What the stack lines count

The lines are exact when each distinct stack has one line, with the number
of its samples. The equality that keys the buckets does not see function
names, so this depends on the samples. -/

/-- Nothing but the counts of idle and failed samples and one line for each
distinct stack, with its number of samples, is printed. -/
def ExactLines (std : StdLib) (call_stacks : List FrameTS) (idle_count failed_count : ℕ) : Prop :=
  (printFrames std call_stacks idle_count failed_count true).err = [] ∧
    ∃ lines, (printFrames std call_stacks idle_count failed_count true).out =
        countLine (text "(idle)") idle_count ++ countLine (text "(failed)") failed_count ++ lines ∧
      lines.Perm ((call_stacks.map (·.frames)).dedup.map fun frames =>
        stackLine printFrame frames ((call_stacks.map (·.frames)).count frames))

/-- The samples may be taken in any order. -/
def OrderIrrelevant (std : StdLib) (call_stacks : List FrameTS) (idle_count failed_count : ℕ) :
    Prop :=
  ∀ call_stacks', call_stacks.Perm call_stacks' →
    (printFrames std call_stacks idle_count failed_count true).out.Perm
      (printFrames std call_stacks' idle_count failed_count true).out

/-- No two samples agree on the file and line of every frame and differ in
the name of one. -/
def NamesDetermined (call_stacks : List FrameTS) : Prop :=
  ∀ a ∈ call_stacks, ∀ b ∈ call_stacks,
    Frames.operatorEq a.frames b.frames = true → a.frames = b.frames

theorem NamesDetermined.perm {l l' : List FrameTS} (h : NamesDetermined l) (hp : l.Perm l') :
    NamesDetermined l' := fun a ha b hb =>
  h a (hp.mem_iff.mpr ha) b (hp.mem_iff.mpr hb)

theorem NamesDetermined.exactLines (std : StdLib) {call_stacks : List FrameTS}
    (h : NamesDetermined call_stacks) (idle_count failed_count : ℕ)
    (hne : ∀ c ∈ call_stacks, c.frames ≠ []) :
    ExactLines std call_stacks idle_count failed_count := by
  have hkeys : ∀ a ∈ call_stacks.map (·.frames), ∀ b ∈ call_stacks.map (·.frames),
      (bucketOps std).eq a b = true → a = b := by
    intro a ha b hb
    obtain ⟨c, hc, rfl⟩ := List.mem_map.mp ha
    obtain ⟨d, hd, rfl⟩ := List.mem_map.mp hb
    exact h c hc d hd
  have hperm := (buckets_counts std call_stacks).perm_dedup (bucketOps_lawful std) hkeys
  rw [ExactLines, printFrames_eq std idle_count failed_count true hne]
  refine ⟨rfl, _, rfl, ?_⟩
  have hlines := hperm.map fun kv => stackLine printFrame kv.1 kv.2
  simpa only [framePrinter, if_true, List.map_map, Function.comp_def] using hlines

/-- `PrintFrames` gives each distinct stack its own line with its own count,
whatever the order of the samples, exactly when no two samples differ in
function names only. -/
theorem printFrames_exact_iff (std : StdLib) (call_stacks : List FrameTS)
    (idle_count failed_count : ℕ) (hne : ∀ c ∈ call_stacks, c.frames ≠ []) :
    (ExactLines std call_stacks idle_count failed_count ∧
        OrderIrrelevant std call_stacks idle_count failed_count) ↔
      NamesDetermined call_stacks := by
  constructor
  · rintro ⟨⟨-, lines, hout, hlines⟩, -⟩
    rw [printFrames_eq std idle_count failed_count true hne] at hout
    have hlen := hlines.length_eq
    rw [← List.append_cancel_left hout, List.length_map, List.length_map] at hlen
    have hkeys := (buckets_counts std call_stacks).eq_of_length (bucketOps_lawful std) hlen
    intro a ha b hb
    exact hkeys _ (List.mem_map_of_mem ha) _ (List.mem_map_of_mem hb)
  · intro h
    refine ⟨h.exactLines std idle_count failed_count hne, fun call_stacks' hperm => ?_⟩
    have hne' : ∀ c ∈ call_stacks', c.frames ≠ [] := fun c hc => hne c (hperm.mem_iff.mpr hc)
    obtain ⟨-, lines, hout, hlines⟩ := h.exactLines std idle_count failed_count hne
    obtain ⟨-, lines', hout', hlines'⟩ :=
      (h.perm hperm).exactLines std idle_count failed_count hne'
    rw [hout, hout']
    refine (hlines.trans (List.Perm.trans ?_ hlines'.symm)).append_left _
    have hframes := hperm.map (·.frames)
    refine (hframes.dedup.map _).trans (List.Perm.of_eq ?_)
    exact List.map_congr_left fun frames _ => by rw [hframes.count_eq]

/-- A C++ library with one bucket and hashes that collide freely. -/
def plainLib : StdLib where
  hashSize := id
  hashString s := BitVec.ofNat 64 s.length
  bucketCount := 1
  grow n _ := n

theorem printFrames_exact_sample :
    let main : Frame := ⟨text "a.py", text "main", 9⟩
    let f : Frame := ⟨text "a.py", text "f", 1⟩
    let g : Frame := ⟨text "a.py", text "g", 2⟩
    ExactLines plainLib [⟨0, [f, main]⟩, ⟨10, [g, main]⟩, ⟨20, [f, main]⟩] 1 0 ∧
      OrderIrrelevant plainLib [⟨0, [f, main]⟩, ⟨10, [g, main]⟩, ⟨20, [f, main]⟩] 1 0 :=
  (printFrames_exact_iff plainLib _ 1 0 (by decide)).mpr (by unfold NamesDetermined; decide)

/-- Two functions on one line of one file: the second sample is counted under
the name of the first. -/
theorem printFrames_merges_names :
    ¬ ExactLines plainLib
      [⟨0, [⟨text "a.py", text "f", 1⟩]⟩, ⟨10, [⟨text "a.py", text "g", 1⟩]⟩] 0 0 := by
  rintro ⟨-, lines, hout, hlines⟩
  have hprinted : lines = [text "a.py:f:1 2\n"] := by
    rw [show lines = _ from hout.symm]
    decide
  have hlen := hlines.length_eq
  rw [hprinted] at hlen
  revert hlen
  decide

end Pyflame
