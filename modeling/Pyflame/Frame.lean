import Pyflame.Text

/-!
Stack frames, sampled stacks and threads: `frame.h`, `frame.cc` and
`thread.h`.
-/

namespace Pyflame

/-- One frame of a Python stack. -/
structure Frame where
  file : Bytes
  name : Bytes
  line : Word
  deriving DecidableEq, Repr

/-- `Frame::operator==`. The name is not compared. -/
def Frame.operatorEq (a b : Frame) : Bool := a.file == b.file && a.line == b.line

def printFrame (frame : Frame) : Bytes :=
  frame.file ++ text ":" ++ frame.name ++ text ":" ++ decimal frame.line.toNat

def printFrameWithoutLineNumber (frame : Frame) : Bytes :=
  frame.file ++ text ":" ++ frame.name

/-- `frames_t`: most recent frame first. -/
abbrev Frames := List Frame

/-- `operator==` of `std::vector<Frame>`. -/
def Frames.operatorEq (a b : Frames) : Bool := a.isEqv b Frame.operatorEq

/-- `FrameHash`, over the implementation's `std::hash<size_t>` and
`std::hash<std::string>`. -/
def frameHash (hashSize : Word → Word) (hashString : Bytes → Word) (frames : Frames) : Word :=
  frames.zipIdx.foldl
    (fun hash fi => hash ^^^ hashSize (BitVec.ofNat 64 fi.2) ^^^ hashString fi.1.file) 0

/-- `system_clock::time_point`, in nanoseconds since the epoch. -/
abbrev Time := ℤ

structure FrameTS where
  ts : Time
  frames : Frames
  deriving DecidableEq, Repr

structure Thread where
  id : Word
  is_current : Bool
  frames : Frames
  deriving DecidableEq, Repr

/-! ### Equality of stacks

`operator==` is coarser than equality: it is an equivalence, and the hash
respects it, since the hash looks at less still. -/

@[simp] theorem Frame.operatorEq_iff {a b : Frame} :
    a.operatorEq b = true ↔ a.file = b.file ∧ a.line = b.line := by
  simp [operatorEq]

theorem Frames.operatorEq_iff {a b : Frames} :
    Frames.operatorEq a b = true ↔
      a.map (fun f => (f.file, f.line)) = b.map (fun f => (f.file, f.line)) := by
  induction a generalizing b with
  | nil => cases b <;> simp [operatorEq]
  | cons f a ih =>
      cases b with
      | nil => simp [operatorEq]
      | cons g b =>
          have hab : Frames.operatorEq (f :: a) (g :: b) =
              (f.operatorEq g && Frames.operatorEq a b) := rfl
          simp [hab, ih]

theorem frameHash_congr (hashSize : Word → Word) (hashString : Bytes → Word) {a b : Frames}
    (h : Frames.operatorEq a b = true) :
    frameHash hashSize hashString a = frameHash hashSize hashString b := by
  have key : ∀ (a b : Frames) (i : ℕ) (hash : Word),
      a.map (fun f => (f.file, f.line)) = b.map (fun f => (f.file, f.line)) →
      (a.zipIdx i).foldl (fun hash fi =>
          hash ^^^ hashSize (BitVec.ofNat 64 fi.2) ^^^ hashString fi.1.file) hash =
        (b.zipIdx i).foldl (fun hash fi =>
          hash ^^^ hashSize (BitVec.ofNat 64 fi.2) ^^^ hashString fi.1.file) hash := by
    intro a
    induction a with
    | nil => intro b i hash hab; cases b <;> simp_all
    | cons f a ih =>
        intro b i hash hab
        cases b with
        | nil => simp at hab
        | cons g b =>
            simp only [List.map_cons, List.cons.injEq, Prod.mk.injEq] at hab
            simp only [List.zipIdx_cons, List.foldl_cons, hab.1.1]
            exact ih b _ _ hab.2
  exact key a b 0 0 (Frames.operatorEq_iff.mp h)

end Pyflame
