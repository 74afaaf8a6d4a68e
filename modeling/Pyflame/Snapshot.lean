import Pyflame.Heap

/-!
Sampling a target that does not stand still.

Only the traced thread is stopped during a `GetThreads` call. The other
threads of the target may write to its memory between any two requests, so
the call reads from a sequence of images, one for each request. The walk is
an atomic snapshot of one of them as long as nothing it has already read
changes before it is done.
-/

namespace Pyflame

open Interaction

/-- The replies of a target whose memory at the `n`th request is `mems n`. -/
def images (mems : ℕ → Memory) : Handler sys ℕ := fun r n => (image (mems n) r, n + 1)

/-- The word a request reads. -/
def peeked : Request → Option Word
  | .peekData _ addr => some addr
  | _ => none

/-- No step of the target between two requests changes a word that has been
read before it. -/
def Undisturbed (mems : ℕ → Memory) (tr : List (Exchange sys ℕ)) : Prop :=
  ∀ n < tr.length - 1, ∀ x ∈ tr, x.state ≤ n →
    ∀ addr ∈ peeked x.req, peekWord (mems (n + 1)) addr = peekWord (mems n) addr

instance (mems : ℕ → Memory) (tr : List (Exchange sys ℕ)) : Decidable (Undisturbed mems tr) :=
  decidable_of_iff (∀ n < tr.length - 1, ∀ x ∈ tr, x.state ≤ n →
      (peeked x.req).all fun addr => peekWord (mems (n + 1)) addr = peekWord (mems n) addr) <| by
    simp only [Undisturbed, Option.all_eq_true, decide_eq_true_eq, Option.mem_def]

/-- Every stack the call returns is one that the same walk reads from a single
image of the sequence. -/
def Atomic (H : Headers) (fuel : ℕ) (pid : Pid) (addrs : PyAddresses) (enable_threads : Bool)
    (mems : ℕ → Memory) : Prop :=
  ∀ threads, (run (images mems) (getThreads H fuel pid addrs enable_threads) 0).1 = .ok threads →
    ∀ t ∈ threads, ∃ k threads',
      (run (answer (image (mems k))) (getThreads H fuel pid addrs enable_threads) ()).1 =
        .ok threads' ∧ t ∈ threads'

section

variable {mems : ℕ → Memory} {α : Type}

/-- The `n`th exchange of a run is with the `n`th image. -/
theorem trace_images (p : Tracer α) (n : ℕ) :
    ∀ x ∈ trace (images mems) p n,
      x.rep = image (mems x.state) x.req ∧ x.state < n + (trace (images mems) p n).length := by
  induction p generalizing n with
  | call r k ih =>
      intro x hx
      rcases List.mem_cons.mp hx with rfl | hx
      · refine ⟨rfl, ?_⟩
        simp only [trace, List.length_cons]
        omega
      · obtain ⟨hrep, hlt⟩ := ih _ (n + 1) x hx
        refine ⟨hrep, Nat.lt_of_lt_of_eq hlt ?_⟩
        simp only [trace, images, List.length_cons]
        omega
  | ret | raise | abort | cut => simp [trace]

theorem image_congr {m m' : Memory} {r : Request}
    (h : ∀ addr ∈ peeked r, peekWord m addr = peekWord m' addr) : image m r = image m' r := by
  cases r with
  | peekData pid addr => simp only [image, h addr rfl]
  | _ => rfl

/-- A word read stays as it was read until the last request. -/
theorem Undisturbed.unchanged {tr : List (Exchange sys ℕ)} (h : Undisturbed mems tr)
    {x : Exchange sys ℕ} (hx : x ∈ tr) {addr : Word} (haddr : addr ∈ peeked x.req) {n : ℕ}
    (hle : x.state ≤ n) (hn : n ≤ tr.length - 1) :
    peekWord (mems n) addr = peekWord (mems x.state) addr := by
  induction n, hle using Nat.le_induction with
  | base => rfl
  | succ n hle ih => rw [h n (by omega) x hx hle addr haddr, ih (by omega)]

/-- A program that reads from an undisturbed sequence ends as it does on the
image it made its last request to. -/
theorem run_images_eq {p : Tracer α} (h : Undisturbed mems (trace (images mems) p 0)) :
    (run (images mems) p 0).1 =
      (run (answer (image (mems ((trace (images mems) p 0).length - 1)))) p ()).1 := by
  refine run_eq_answer _ _ _ _ fun x hx => ?_
  obtain ⟨hrep, hlt⟩ := trace_images p 0 x hx
  rw [hrep]
  exact image_congr fun addr haddr => (h.unchanged hx haddr (by omega) (Nat.le_refl _)).symm

end

/-- A walk is an atomic snapshot if the target leaves alone what the walk has
already read. -/
theorem getThreads_atomic (H : Headers) (fuel : ℕ) (pid : Pid) (addrs : PyAddresses)
    (enable_threads : Bool) (mems : ℕ → Memory)
    (h : Undisturbed mems (trace (images mems) (getThreads H fuel pid addrs enable_threads) 0)) :
    Atomic H fuel pid addrs enable_threads mems := by
  intro threads hrun t ht
  rw [run_images_eq h] at hrun
  exact ⟨_, threads, hrun, ht⟩

/-- After the tenth request the target writes to a word the walk does not
read. -/
def writtenElsewhere (n : ℕ) : Memory :=
  if n < 10 then twoThreads else pokeWord twoThreads 0x9000 1

theorem getThreads_atomic_elsewhere :
    Atomic py27 3 1 { tstate_addr := 0x100 } false writtenElsewhere :=
  getThreads_atomic _ _ _ _ _ _ (by decide +kernel)

/-- Before the call's tenth request a thread is in `g`, called from `main`.
From then on it is in `h`, called from `run`, and the frame of `g` is reused. -/
def reusedFrame (n : ℕ) : Memory :=
  ofWords <|
    [(0x100, 0x2000), (0x500 + 36, asWord (text "a.py")), (0x2010, 0x4000), (0x2090, 7)] ++
    if n < 10 then
      frameWords 0x4000 0x5000 0x6000 3 (text "g") ++ frameWords 0x6000 0x7000 0 9 (text "main")
    else
      frameWords 0x4000 0x8000 0xa000 4 (text "h") ++ frameWords 0xa000 0xb000 0 8 (text "run")

/-- The call reports `g` called from `run`, which never was. -/
theorem getThreads_torn : ¬ Atomic py27 3 1 { tstate_addr := 0x100 } false reusedFrame := by
  intro h
  obtain ⟨k, threads', hk, ht⟩ := h
    [⟨7, true, [⟨text "a.py", text "g", 3⟩, ⟨text "a.py", text "run", 8⟩]⟩] (by decide +kernel) _
    List.mem_cons_self
  have hone : ∀ k, (run (answer (image (reusedFrame k)))
      (getThreads py27 3 1 { tstate_addr := 0x100 } false) ()).1 =
        .ok [⟨7, true, if k < 10 then [⟨text "a.py", text "g", 3⟩, ⟨text "a.py", text "main", 9⟩]
          else [⟨text "a.py", text "h", 4⟩, ⟨text "a.py", text "run", 8⟩]⟩] := by
    intro k
    by_cases hk : k < 10
    · rw [show reusedFrame k = reusedFrame 0 by simp [reusedFrame, hk], if_pos hk]
      decide +kernel
    · rw [show reusedFrame k = reusedFrame 10 by simp [reusedFrame, hk], if_neg hk]
      decide +kernel
  obtain rfl := Outcome.ok.inj (hk.symm.trans (hone k))
  revert ht
  split <;> decide

end Pyflame
