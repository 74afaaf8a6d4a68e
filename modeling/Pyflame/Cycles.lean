import Pyflame.Library.Fuel
import Pyflame.Pages

/-!
Whether `GetThreads` comes to an end.

It follows `next` from thread state to thread state, and from the frame of each
of them `f_back` from frame to frame, in memory that the target controls. It
remembers neither of them and counts no steps. So all depends on whether one
of the walks comes back to where it has been.
-/

namespace Pyflame

open Interaction Relation

/-! ### Frames as a loop -/

section

variable (H : Headers) (fuel : ℕ) (pid : Pid)

/-- What `FollowFrame` reads of a frame, and its `f_back`. -/
def readFrame (frame : Word) : Tracer (Frame × Word) := do
  let f_code ← ptracePeek pid (frame + H.f_code)
  let co_filename ← ptracePeek pid (f_code + H.co_filename)
  let filename ← stringData H fuel pid co_filename
  let co_name ← ptracePeek pid (f_code + H.co_name)
  let name ← stringData H fuel pid co_name
  let line ← getLine H pid frame f_code
  let f_back ← ptracePeek pid (frame + H.f_back)
  return (⟨filename, name, line⟩, f_back)

def followFrameStep : Word × Frames → Tracer ((Word × Frames) ⊕ Frames) :=
  fun (frame, stack) => do
    let (f, f_back) ← readFrame H fuel pid frame
    if f_back ≠ 0 then
      return .inl (f_back, stack ++ [f])
    else
      return .inr (stack ++ [f])

/-- The recursion is one at the tail. -/
theorem followFrame_eq (n : ℕ) (frame : Word) (stack : Frames) :
    followFrame H fuel pid n frame stack =
      Prog.forever (followFrameStep H fuel pid) n (frame, stack) := by
  induction n generalizing frame stack with
  | zero => rfl
  | succ n ih =>
      simp only [followFrame, Prog.forever, followFrameStep, readFrame, Prog.bind_eq, Prog.pure_eq,
        Prog.bind_assoc, Prog.ret_bind]
      congr! 14 with f_code co_filename filename co_name name line f_back
      split_ifs
      · exact ih _ _
      · rfl

end

/-! ### More passes make no difference -/

section

variable {σ : Type} {h : Handler sys σ} (H : Headers) (pid : Pid)

theorem steady_stringData (addr : Word) : Steady h fun fuel => stringData H fuel pid addr := by
  unfold stringData
  cases H.version with
  | py34 | py36 => exact .const _
  | py26 | unknown =>
      have hpass : ∀ b, Steady h fun _ => peekStringStep pid (byteData H addr) b := fun b => .const _
      exact .forever hpass _

theorem steady_readFrame (frame : Word) : Steady h fun fuel => readFrame H fuel pid frame := by
  apply Steady.bind (.const _)
  intro f_code
  apply Steady.bind (.const _)
  intro co_filename
  apply Steady.bind (steady_stringData H pid co_filename)
  intro filename
  apply Steady.bind (.const _)
  intro co_name
  apply Steady.bind (steady_stringData H pid co_name)
  intro name
  exact .const _

theorem steady_followFrameStep (x : Word × Frames) :
    Steady h fun fuel => followFrameStep H fuel pid x :=
  .bind (steady_readFrame H pid x.1) fun _ => .const _

theorem steady_followFrame (frame : Word) (stack : Frames) :
    Steady h fun fuel => followFrame H fuel pid fuel frame stack := by
  simp only [followFrame_eq]
  exact .forever (steady_followFrameStep H pid) _

theorem steady_walkThreadsStep (enable_threads : Bool) (current : Word) (x : Word × List Thread) :
    Steady h fun fuel => walkThreadsStep H fuel pid enable_threads current x := by
  unfold walkThreadsStep
  apply Steady.ite (.const _)
  apply Steady.bind (.const _)
  intro id
  apply Steady.bind (.const _)
  intro frame_addr
  apply Steady.ite
  · exact .bind (steady_followFrame H pid frame_addr []) fun _ => .const _
  · exact .const _

end

/-! ### What has no loop to be stuck in -/

section

variable {α : Type} (H : Headers) (pid : Pid)

theorem uncut_orThrow (what : Bytes → Exception) (rep : Reply α) : (orThrow what rep).Uncut := by
  cases rep <;> trivial

theorem uncut_peek (addr : Word) : (ptracePeek pid addr).Uncut := fun _ => uncut_orThrow _ _

theorem uncut_peekWords (n : ℕ) (addr : Word) : (peekWords pid addr n).Uncut := by
  induction n generalizing addr with
  | zero => trivial
  | succ n ih => exact (uncut_peek pid addr).bind fun _ => (ih _).bind fun _ => trivial

theorem uncut_peekBytes (addr nbytes : Word) : (ptracePeekBytes pid addr nbytes).Uncut := by
  intro room
  cases room with
  | true => exact uncut_peekWords pid _ addr
  | false => trivial

theorem uncut_getLine (frame f_code : Word) : (getLine H pid frame f_code).Uncut := by
  apply (uncut_peek pid _).bind
  intro f_trace
  apply Prog.Uncut.ite
  · exact (uncut_peek pid _).bind fun _ => trivial
  · apply (uncut_peek pid _).bind
    intro f_lasti
    apply (uncut_peek pid _).bind
    intro co_lnotab
    apply (uncut_peek pid _).bind
    intro size
    apply (uncut_peek pid _).bind
    intro firstlineno
    apply (uncut_peekBytes pid _ _).bind
    intro tbl
    split <;> trivial

theorem uncut_firstThread (addrs : PyAddresses) (enable_threads : Bool) (current : Word) :
    (firstThread H pid addrs enable_threads current).Uncut := by
  have hhead : ∀ istate : Word, (if istate ≠ 0 then ptracePeek pid (istate + H.tstate_head)
      else .ret current : Tracer Word).Uncut := by
    intro istate
    apply Prog.Uncut.ite (uncut_peek pid _)
    trivial
  apply Prog.Uncut.ite
  · apply Prog.Uncut.ite
    · exact (uncut_peek pid _).bind hhead
    · apply Prog.Uncut.ite
      · exact (uncut_peek pid _).bind hhead
      · exact hhead _
  · trivial

end

/-! ### In an image -/

/-- Reading from the image `m`, the program returns `a` if it is given enough passes. -/
def Comes {α : Type} (m : Memory) (p : ℕ → Tracer α) (a : α) : Prop :=
  EndsWith (answer (image m)) p () (.ok a, ())

/-- Reading from the image `m`, the program returns or throws, or an assertion fails. -/
def Halts {α : Type} (m : Memory) (p : ℕ → Tracer α) : Prop := Ends (answer (image m)) p ()

section

variable {α β : Type} {m : Memory} {pid : Pid} {p : ℕ → Tracer β} {f : ℕ → β → Tracer α}

theorem comes_bind (hp : Steady (answer (image m)) p)
    (hf : ∀ b, Steady (answer (image m)) fun n => f n b) {a : α} :
    Comes m (fun n => (p n).bind (f n)) a ↔ ∃ b, Comes m p b ∧ Comes m (fun n => f n b) a := by
  unfold Comes
  rw [endsWith_bind_ok hp hf]
  constructor
  · rintro ⟨b, ⟨⟩, hb, ha⟩
    exact ⟨b, hb, ha⟩
  · rintro ⟨b, hb, ha⟩
    exact ⟨b, (), hb, ha⟩

theorem halts_bind (hp : Steady (answer (image m)) p)
    (hf : ∀ b, Steady (answer (image m)) fun n => f n b) :
    Halts m (fun n => (p n).bind (f n)) ↔
      Halts m p ∧ ∀ b, Comes m p b → Halts m fun n => f n b := by
  unfold Halts
  rw [ends_bind_iff hp hf]
  exact and_congr_right fun _ => forall_congr' fun b => ⟨fun h => h (), fun h _ => h⟩

theorem comes_const {p : Tracer α} {a : α} : Comes m (fun _ => p) a ↔ Yields m p a := by
  rw [Comes, endsWith_const]
  exact and_iff_right nofun

theorem comes_ret {a b : α} : Comes m (fun _ => .ret a) b ↔ a = b := comes_const.trans Yields.ret_iff

theorem comes_peek {addr data : Word} :
    Comes m (fun _ => ptracePeek pid addr) data ↔ peekWord m addr = some data :=
  comes_const.trans yields_peek_iff

theorem comes_bind_ret (hp : Steady (answer (image m)) p) {g : β → α} {a : α} :
    Comes m (fun n => (p n).bind fun b => .ret (g b)) a ↔ ∃ b, Comes m p b ∧ g b = a := by
  rw [comes_bind hp (by exact fun _ => .const _)]
  simp only [comes_ret]

theorem halts_bind_ret (hp : Steady (answer (image m)) p) {g : β → α} :
    Halts m (fun n => (p n).bind fun b => .ret (g b)) ↔ Halts m p := by
  rw [halts_bind hp (by exact fun _ => .const _)]
  exact and_iff_left fun b _ => ends_const (.ret _)

theorem comes_peek_bind {addr : Word} {f : ℕ → Word → Tracer α}
    (hf : ∀ b, Steady (answer (image m)) fun n => f n b) {a : α} :
    Comes m (fun n => (ptracePeek pid addr).bind (f n)) a ↔
      ∃ data, peekWord m addr = some data ∧ Comes m (fun n => f n data) a := by
  rw [comes_bind (.const _) hf]
  simp only [comes_peek]

/-- A peek, and what follows it. -/
theorem halts_peek_bind {addr : Word} {f : ℕ → Word → Tracer α}
    (hf : ∀ b, Steady (answer (image m)) fun n => f n b) :
    Halts m (fun n => (ptracePeek pid addr).bind (f n)) ↔
      ∀ data, peekWord m addr = some data → Halts m fun n => f n data := by
  rw [halts_bind (.const _) hf]
  simp only [comes_peek]
  exact and_iff_right (ends_const (uncut_peek pid addr))

end

/-! ### Strings -/

section

variable {m : Memory} (pid : Pid)

theorem run_peek (addr : Word) :
    (peekWord m addr = none ∧ ∃ e, run (answer (image m)) (ptracePeek pid addr) () = (.error e, ())) ∨
      ∃ data, peekWord m addr = some data ∧ Yields m (ptracePeek pid addr) data := by
  cases hpeek : peekWord m addr with
  | some data => exact .inr ⟨data, rfl, yields_peek hpeek⟩
  | none =>
      have himage : image m (.peekData pid addr) = .error (text "Input/output error") := by
        simp only [image, hpeek]
      refine .inl ⟨rfl, ?_⟩
      change ∃ e, run _ (orThrow _ (image m (.peekData pid addr))) () = _
      rw [himage]
      exact ⟨_, rfl⟩

/-- A word that can be read does not reach up to an address that is not mapped. -/
theorem far_of_peek {gap addr data : Word} (hgap : m gap = none)
    (hpeek : peekWord m addr = some data) : 8 ≤ (gap - addr).toNat := by
  by_contra hnear
  have hmapped := peekWord_isSome_iff.mp (Option.isSome_of_eq_some hpeek) _ (Nat.lt_of_not_le hnear)
  rw [ByteMemory.add_ofNat_sub, hgap] at hmapped
  contradiction

/-- `PtracePeekString` comes to the terminator or to an address that is not mapped. -/
theorem peekString_halts {gap : Word} (hgap : m gap = none) (k : ℕ) {addr off : Word}
    (hk : (gap - (addr + off)).toNat / 8 < k) (dump : Bytes) :
    (run (answer (image m)) (Prog.forever (peekStringStep pid addr) k (off, dump)) ()).1 ≠ .cut := by
  -- On the words left up to the unmapped address: each pass reads one of them.
  induction k generalizing off dump with
  | zero => exact absurd hk (Nat.not_lt_zero _)
  | succ k ih =>
      show (run _ (((ptracePeek pid (addr + off)).bind _).bind _) ()).1 ≠ .cut
      rw [Prog.bind_assoc]
      rcases run_peek pid (addr + off) with ⟨-, e, hrun⟩ | ⟨data, hpeek, hyields⟩
      · rw [run_bind, hrun]
        exact nofun
      · have hfar := far_of_peek hgap hpeek
        rw [run_bind_ok _ hyields]
        by_cases hnul : 0 ∈ wordBytes data
        · simp only [hnul, if_true]
          exact nofun
        · simp only [hnul, if_false]
          apply ih
          have h8 : (8 : Word).toNat = 8 := rfl
          have hnext : gap - (addr + (off + 8)) = gap - (addr + off) - 8 := by bv_omega
          rw [hnext, BitVec.toNat_sub_of_le (by rw [BitVec.le_def]; omega), h8]
          omega

end

section

variable (H : Headers) (m : Memory) (pid : Pid)

/-- A string object of Python 3 with `2 ^ 31` bytes of data or more, and all of them can be
read. The index of `StringDataPython3`, an `int`, does not come to their end. -/
def Overlong (addr : Word) : Prop :=
  (H.version = .py34 ∨ H.version = .py36) ∧
    ∃ unicode bytes, Yields m (ptracePeekBytes pid addr H.sizeofASCIIObject) unicode ∧
      Yields m (ptracePeekBytes pid (addr + strOffset H unicode) (strLength H unicode)) bytes ∧
      2 ^ 31 ≤ (strLength H unicode).toInt

/-- `FollowFrame` reads the string at the address, as the file name or the name of the code
of the frame. -/
def StringOf (frame addr : Word) : Prop :=
  ∃ f_code, peekWord m (frame + H.f_code) = some f_code ∧
    (peekWord m (f_code + H.co_filename) = some addr ∨ peekWord m (f_code + H.co_name) = some addr)

/-- No string of the frame is overlong. -/
def Short (frame : Word) : Prop := ∀ addr, StringOf H m frame addr → ¬ Overlong H m pid addr

/-- What is read of a frame behind its file name. -/
def readNamed (fuel : ℕ) (frame f_code : Word) (filename : Bytes) : Tracer (Frame × Word) := do
  let co_name ← ptracePeek pid (f_code + H.co_name)
  let name ← stringData H fuel pid co_name
  let line ← getLine H pid frame f_code
  let f_back ← ptracePeek pid (frame + H.f_back)
  return (⟨filename, name, line⟩, f_back)

end

section

variable (H : Headers) {m : Memory} (pid : Pid)

theorem halts_stringDataPython3 {addr : Word}
    (hversion : H.version = .py34 ∨ H.version = .py36) (hshort : ¬ Overlong H m pid addr) :
    Halts m fun _ => stringDataPython3 H pid addr := by
  apply (halts_bind (.const _) (by exact fun _ => .const _)).mpr
  refine ⟨ends_const (uncut_peekBytes pid _ _), fun unicode hunicode => ?_⟩
  by_cases hcompact : (!stateCompact (field unicode H.unicode_state 4)) = true
  · simp only [hcompact, if_true]
    exact ends_const trivial
  · simp only [hcompact]
    apply (halts_bind (.const _) (by exact fun _ => .const _)).mpr
    refine ⟨ends_const (uncut_peekBytes pid _ _), fun bytes hbytes => ?_⟩
    have hfits : (strLength H unicode).toInt < 2 ^ 31 := by
      by_contra hlong
      exact hshort ⟨hversion, unicode, bytes, comes_const.mp hunicode, comes_const.mp hbytes,
        Int.not_lt.mp hlong⟩
    simp only [if_pos hfits]
    apply ends_const
    split <;> trivial

theorem halts_stringData {gap : Word} (hgap : m gap = none) {addr : Word}
    (hshort : ¬ Overlong H m pid addr) : Halts m fun fuel => stringData H fuel pid addr := by
  unfold stringData
  cases hversion : H.version with
  | py34 => exact halts_stringDataPython3 H pid (.inl hversion) hshort
  | py36 => exact halts_stringDataPython3 H pid (.inr hversion) hshort
  | py26 | unknown => exact ends_iff.mpr ⟨_, peekString_halts pid hgap _ (Nat.lt_succ_self _) []⟩

theorem steady_readNamed (frame f_code : Word) (filename : Bytes) :
    Steady (answer (image m)) fun fuel => readNamed H pid fuel frame f_code filename := by
  apply Steady.bind (.const _)
  intro co_name
  apply Steady.bind (steady_stringData H pid co_name)
  intro name
  exact .const _

theorem halts_readNamed {gap : Word} (hgap : m gap = none) {frame f_code : Word}
    (hcode : peekWord m (frame + H.f_code) = some f_code) (hshort : Short H m pid frame)
    (filename : Bytes) : Halts m fun fuel => readNamed H pid fuel frame f_code filename := by
  have hname (co_name : Word) := steady_stringData (h := answer (image m)) H pid co_name
  apply (halts_peek_bind fun co_name => (hname co_name).bind (by exact fun _ => .const _)).mpr
  intro co_name hco_name
  apply (halts_bind (hname co_name) (by exact fun _ => .const _)).mpr
  refine ⟨halts_stringData H pid hgap (hshort co_name ⟨f_code, hcode, .inr hco_name⟩), ?_⟩
  intro name _
  apply ends_const
  exact (uncut_getLine H pid frame f_code).bind fun _ => (uncut_peek pid _).bind fun _ => trivial

/-- Reading a single frame comes to an end. -/
theorem halts_readFrame {gap : Word} (hgap : m gap = none) {frame : Word}
    (hshort : Short H m pid frame) : Halts m fun fuel => readFrame H fuel pid frame := by
  have hfile (f_code co_filename : Word) : Steady (answer (image m)) fun fuel =>
      (stringData H fuel pid co_filename).bind (readNamed H pid fuel frame f_code) :=
    (steady_stringData H pid co_filename).bind (steady_readNamed H pid frame f_code)
  show Halts m fun fuel => (ptracePeek pid (frame + H.f_code)).bind fun f_code =>
    (ptracePeek pid (f_code + H.co_filename)).bind fun co_filename =>
      (stringData H fuel pid co_filename).bind (readNamed H pid fuel frame f_code)
  apply (halts_peek_bind fun f_code => .bind (.const _) (hfile f_code)).mpr
  intro f_code hcode
  apply (halts_peek_bind (hfile f_code)).mpr
  intro co_filename hco_filename
  apply (halts_bind (steady_stringData H pid co_filename) (steady_readNamed H pid frame f_code)).mpr
  refine ⟨halts_stringData H pid hgap (hshort co_filename ⟨f_code, hcode, .inl hco_filename⟩), ?_⟩
  exact fun filename _ => halts_readNamed H pid hgap hcode hshort filename

end

/-! ### The walk along `f_back` -/

section

variable (H : Headers) (m : Memory) (pid : Pid)

/-- `FollowFrame` reads a frame and goes on with another. -/
def FrameLeads (frame f_back : Word) : Prop :=
  f_back ≠ 0 ∧ ∃ f, Comes m (fun fuel => readFrame H fuel pid frame) (f, f_back)

variable {m} {pid}

theorem leads_followFrameStep (frame f_back : Word) (stack stack' : Frames) :
    Comes m (fun fuel => followFrameStep H fuel pid (frame, stack)) (.inl (f_back, stack')) ↔
      f_back ≠ 0 ∧ ∃ f, Comes m (fun fuel => readFrame H fuel pid frame) (f, f_back) ∧
        stack' = stack ++ [f] := by
  unfold followFrameStep
  simp only [Prog.bind_eq, Prog.pure_eq]
  rw [comes_bind (steady_readFrame H pid frame) (by exact fun _ => .const _)]
  constructor
  · rintro ⟨⟨f, back⟩, hf, hgo⟩
    simp only at hgo
    split_ifs at hgo with hback
    · have heq := comes_ret.mp hgo
      obtain ⟨rfl, rfl⟩ := Prod.mk.inj (Sum.inl.inj heq)
      exact ⟨hback, f, hf, rfl⟩
    · have heq := comes_ret.mp hgo
      contradiction
  · rintro ⟨hne, f, hf, rfl⟩
    refine ⟨(f, f_back), hf, ?_⟩
    simp only [if_pos hne]
    exact comes_ret.mpr rfl

theorem images_followFrame : Images
    (Leads (answer (image m)) fun fuel => followFrameStep H fuel pid) (FrameLeads H m pid)
    fun x => x.1.1 := by
  constructor
  · rintro ⟨⟨frame, stack⟩, ⟨⟩⟩ ⟨⟨f_back, stack'⟩, ⟨⟩⟩ h
    obtain ⟨hne, f, hf, -⟩ := (leads_followFrameStep H frame f_back stack stack').mp h
    exact ⟨hne, f, hf⟩
  · rintro ⟨⟨frame, stack⟩, ⟨⟩⟩ f_back ⟨hne, f, hf⟩
    refine ⟨((f_back, stack ++ [f]), ()), rfl, ?_⟩
    exact (leads_followFrameStep H frame f_back stack _).mpr ⟨hne, f, hf, rfl⟩

variable (m pid) in
/-- The walk from the frame ends, and so does reading each frame on the way. -/
def ChainEnds (frame : Word) : Prop :=
  Acc (flip (FrameLeads H m pid)) frame ∧
    ∀ f, ReflTransGen (FrameLeads H m pid) frame f → Halts m fun fuel => readFrame H fuel pid f

theorem halts_followFrame (frame : Word) (stack : Frames) :
    Halts m (fun fuel => followFrame H fuel pid fuel frame stack) ↔ ChainEnds H m pid frame := by
  have himages : Images (Leads (answer (image m)) fun fuel => followFrameStep H fuel pid)
      (FrameLeads H m pid) fun x => x.1.1 := images_followFrame H
  have hpass (f : Word) (stack' : Frames) :
      Halts m (fun fuel => followFrameStep H fuel pid (f, stack')) ↔
        Halts m fun fuel => readFrame H fuel pid f := by
    refine (halts_bind (steady_readFrame H pid f) (by exact fun _ => .const _)).trans ?_
    exact and_iff_left fun _ _ => ends_const (.ite trivial trivial)
  simp only [followFrame_eq]
  rw [Halts, ends_forever_iff (steady_followFrameStep H pid), himages.acc_iff]
  -- Which frames were pushed has no part in where the walk goes.
  have hreach : ∀ f, (∃ x, ReflTransGen (Leads (answer (image m)) fun fuel =>
      followFrameStep H fuel pid) ((frame, stack), ()) x ∧ x.1.1 = f) ↔
        ReflTransGen (FrameLeads H m pid) frame f := fun f => himages.reach_iff
  apply and_congr_right
  intro _
  constructor
  · intro h f hf
    obtain ⟨⟨⟨f, stack'⟩, ⟨⟩⟩, hx, rfl⟩ := (hreach f).mpr hf
    exact (hpass f stack').mp (h _ hx)
  · rintro h ⟨⟨f, stack'⟩, ⟨⟩⟩ hx
    exact (hpass f stack').mpr (h f ((hreach f).mp ⟨_, hx, rfl⟩))

end

/-! ### The walk along `next` -/

section

variable (H : Headers) (m : Memory) (pid : Pid) (enable_threads : Bool)

/-- The stack of a thread state starts at this frame. -/
def FrameOf (tstate frame : Word) : Prop :=
  tstate ≠ 0 ∧ frame ≠ 0 ∧ (peekWord m (tstate + H.thread_id)).isSome ∧
    peekWord m (tstate + H.frame) = some frame

/-- `FollowFrame` comes to the frame, from the current frame of the thread state. -/
def VisitsFrame (tstate frame : Word) : Prop :=
  ∃ first, FrameOf H m tstate first ∧ ReflTransGen (FrameLeads H m pid) first frame

/-- `GetThreads` reads a thread state with its stack, and goes on with another. -/
def ThreadLeads (tstate next : Word) : Prop :=
  tstate ≠ 0 ∧ (peekWord m (tstate + H.thread_id)).isSome ∧
    (∃ frame, peekWord m (tstate + H.frame) = some frame ∧
      (frame ≠ 0 → ∃ stack, Comes m (fun fuel => followFrame H fuel pid fuel frame []) stack)) ∧
    NextThread H m enable_threads tstate next

end

section

variable (H : Headers) (fuel : ℕ) (pid : Pid) (enable_threads : Bool)

/-- The threads, with one more if it has a frame. -/
def pushThread (frame_addr : Word) (thread : Frames → Thread) (threads : List Thread) :
    Tracer (List Thread) :=
  if frame_addr ≠ 0 then
    (followFrame H fuel pid fuel frame_addr []).bind fun stack => .ret (threads ++ [thread stack])
  else
    .ret threads

/-- Where the loop goes from a thread state. -/
def nextThread (tstate : Word) (threads : List Thread) :
    Tracer ((Word × List Thread) ⊕ List Thread) :=
  if enable_threads then
    (ptracePeek pid (tstate + H.next)).bind fun next => .ret (.inl (next, threads))
  else
    .ret (.inl (0, threads))

/-- One pass of the loop over the thread list. -/
theorem walkThreadsStep_eq {tstate : Word} (hne : tstate ≠ 0) (current : Word)
    (threads : List Thread) :
    walkThreadsStep H fuel pid enable_threads current (tstate, threads) =
      (ptracePeek pid (tstate + H.thread_id)).bind fun id =>
        (ptracePeek pid (tstate + H.frame)).bind fun frame_addr =>
          (pushThread H fuel pid frame_addr (fun stack => ⟨id, tstate = current, stack⟩) threads).bind
            (nextThread H pid enable_threads tstate) := by
  simp only [walkThreadsStep, if_neg hne, Prog.bind_eq, Prog.pure_eq, pushThread]
  congr! 4 with id frame_addr
  by_cases hframe : frame_addr ≠ 0
  · simp only [if_pos hframe, Prog.bind_assoc]
    rfl
  · simp only [if_neg hframe]
    rfl

end

section

variable {H : Headers} {m : Memory} {pid : Pid} {enable_threads : Bool}

theorem steady_pushThread (frame_addr : Word) (thread : Frames → Thread) (threads : List Thread) :
    Steady (answer (image m)) fun fuel => pushThread H fuel pid frame_addr thread threads :=
  .ite (.bind (steady_followFrame H pid frame_addr []) fun _ => .const _) (.const _)

theorem halts_pushThread (frame_addr : Word)
    (thread : Frames → Thread) (threads : List Thread) :
    Halts m (fun fuel => pushThread H fuel pid frame_addr thread threads) ↔
      (frame_addr ≠ 0 → ChainEnds H m pid frame_addr) := by
  unfold pushThread
  by_cases hframe : frame_addr ≠ 0
  · simp only [if_pos hframe]
    rw [halts_bind_ret (steady_followFrame H pid frame_addr []), halts_followFrame H]
    exact ⟨fun h _ => h, fun h => h hframe⟩
  · simp only [if_neg hframe]
    exact iff_of_true (ends_const (.ret _)) fun h => absurd h hframe

theorem comes_pushThread (frame_addr : Word) (thread : Frames → Thread) (threads : List Thread) :
    (∃ threads', Comes m (fun fuel => pushThread H fuel pid frame_addr thread threads) threads') ↔
      (frame_addr ≠ 0 →
        ∃ stack, Comes m (fun fuel => followFrame H fuel pid fuel frame_addr []) stack) := by
  unfold pushThread
  by_cases hframe : frame_addr ≠ 0
  · simp only [if_pos hframe, comes_bind_ret (steady_followFrame H pid frame_addr [])]
    constructor
    · rintro ⟨_, stack, hstack, -⟩ _
      exact ⟨stack, hstack⟩
    · intro h
      obtain ⟨stack, hstack⟩ := h hframe
      exact ⟨_, stack, hstack, rfl⟩
  · simp only [if_neg hframe, comes_ret]
    exact iff_of_true ⟨threads, rfl⟩ fun h => absurd h hframe

theorem uncut_nextThread (tstate : Word) (threads : List Thread) :
    (nextThread H pid enable_threads tstate threads).Uncut := by
  apply Prog.Uncut.ite
  · exact (uncut_peek pid _).bind fun _ => trivial
  · trivial

theorem comes_nextThread {tstate next : Word} {threads threads' : List Thread} :
    Comes m (fun _ => nextThread H pid enable_threads tstate threads) (.inl (next, threads')) ↔
      NextThread H m enable_threads tstate next ∧ threads' = threads := by
  unfold nextThread NextThread
  cases enable_threads with
  | true =>
      simp only [if_true]
      rw [comes_bind_ret (.const _)]
      constructor
      · rintro ⟨data, hdata, heq⟩
        obtain ⟨rfl, rfl⟩ := Prod.mk.inj (Sum.inl.inj heq)
        exact ⟨comes_peek.mp hdata, rfl⟩
      · rintro ⟨hnext, rfl⟩
        exact ⟨next, comes_peek.mpr hnext, rfl⟩
  | false =>
      simp only [Bool.false_eq_true, if_false]
      rw [comes_ret, Sum.inl.injEq, Prod.mk.injEq]
      exact and_congr eq_comm eq_comm

/-- Behind the two peeks of a pass. -/
theorem steady_pass (current tstate : Word) (threads : List Thread) (id frame_addr : Word) :
    Steady (answer (image m)) fun fuel =>
      (pushThread H fuel pid frame_addr (fun stack => ⟨id, tstate = current, stack⟩) threads).bind
        (nextThread H pid enable_threads tstate) :=
  .bind (steady_pushThread frame_addr _ threads) fun _ => .const _

/-- A pass comes to an end exactly if the walk along the frames does. -/
theorem halts_walkThreadsStep (current tstate : Word)
    (threads : List Thread) :
    Halts m (fun fuel => walkThreadsStep H fuel pid enable_threads current (tstate, threads)) ↔
      ∀ frame, FrameOf H m tstate frame → ChainEnds H m pid frame := by
  by_cases hzero : tstate = 0
  · simp only [walkThreadsStep, if_pos hzero]
    apply iff_of_true (ends_const (.ret _))
    exact fun frame hframe => absurd hzero hframe.1
  · simp only [walkThreadsStep_eq H _ pid enable_threads hzero]
    have hpass : ∀ id frame_addr, Halts m (fun fuel =>
        (pushThread H fuel pid frame_addr (fun stack => ⟨id, tstate = current, stack⟩) threads).bind
          (nextThread H pid enable_threads tstate)) ↔
        (frame_addr ≠ 0 → ChainEnds H m pid frame_addr) := by
      intro id frame_addr
      rw [halts_bind (steady_pushThread frame_addr _ threads) (by exact fun _ => .const _),
        halts_pushThread]
      exact and_iff_left fun _ _ => ends_const (uncut_nextThread tstate _)
    -- A peek that fails throws, and so comes to an end.
    rw [halts_peek_bind fun id => .bind (.const _) fun frame_addr =>
      steady_pass current tstate threads id frame_addr]
    simp only [halts_peek_bind fun frame_addr => steady_pass current tstate threads _ frame_addr,
      hpass]
    constructor
    · rintro h frame ⟨-, hne, hid, hframe⟩
      obtain ⟨id, hid⟩ := Option.isSome_iff_exists.mp hid
      exact h id hid frame hframe hne
    · intro h id hid frame hframe hne
      exact h frame ⟨hzero, hne, Option.isSome_of_eq_some hid, hframe⟩

/-- Where a pass goes. -/
theorem comes_walkThreadsStep (current tstate next : Word) (threads : List Thread) :
    (∃ threads', Comes m
        (fun fuel => walkThreadsStep H fuel pid enable_threads current (tstate, threads))
        (.inl (next, threads'))) ↔
      ThreadLeads H m pid enable_threads tstate next := by
  by_cases hzero : tstate = 0
  · simp only [walkThreadsStep, if_pos hzero]
    constructor
    · rintro ⟨threads', h⟩
      have heq := comes_ret.mp h
      contradiction
    · exact fun h => absurd hzero h.1
  · simp only [walkThreadsStep_eq H _ pid enable_threads hzero]
    simp only [comes_peek_bind fun id => .bind (.const _) fun frame_addr =>
      steady_pass current tstate threads id frame_addr]
    simp only [comes_peek_bind fun frame_addr => steady_pass current tstate threads _ frame_addr]
    constructor
    · rintro ⟨threads', id, hid, frame, hframe, h⟩
      -- The pass goes on only where the frames of this thread have been read.
      rw [comes_bind (steady_pushThread frame _ threads) (by exact fun _ => .const _)] at h
      obtain ⟨threads'', hpush, hgo⟩ := h
      have hstack := (comes_pushThread frame _ threads).mp ⟨threads'', hpush⟩
      exact ⟨hzero, Option.isSome_of_eq_some hid, ⟨frame, hframe, hstack⟩, (comes_nextThread.mp hgo).1⟩
    · rintro ⟨-, hid, ⟨frame, hframe, hstack⟩, hnext⟩
      obtain ⟨id, hid⟩ := Option.isSome_iff_exists.mp hid
      obtain ⟨threads', hpush⟩ :=
        (comes_pushThread frame (fun stack => ⟨id, tstate = current, stack⟩) threads).mpr hstack
      refine ⟨threads', id, hid, frame, hframe, ?_⟩
      rw [comes_bind (steady_pushThread frame _ threads) (by exact fun _ => .const _)]
      exact ⟨threads', hpush, comes_nextThread.mpr ⟨hnext, rfl⟩⟩

theorem images_walkThreads (current : Word) : Images
    (Leads (answer (image m)) fun fuel => walkThreadsStep H fuel pid enable_threads current)
    (ThreadLeads H m pid enable_threads) fun x => x.1.1 := by
  constructor
  · rintro ⟨⟨tstate, threads⟩, ⟨⟩⟩ ⟨⟨next, threads'⟩, ⟨⟩⟩ h
    exact (comes_walkThreadsStep current tstate next threads).mp ⟨threads', h⟩
  · rintro ⟨⟨tstate, threads⟩, ⟨⟩⟩ next h
    obtain ⟨threads', h⟩ := (comes_walkThreadsStep current tstate next threads).mpr h
    exact ⟨((next, threads'), ()), rfl, h⟩

/-- The loop over the thread list comes to an end exactly if its walk does, and the walk
from the current frame of each thread state that it comes to. -/
theorem halts_walkThreads (current tstate : Word)
    (threads : List Thread) :
    Halts m (fun fuel =>
        Prog.forever (walkThreadsStep H fuel pid enable_threads current) fuel (tstate, threads)) ↔
      Acc (flip (ThreadLeads H m pid enable_threads)) tstate ∧
        ∀ t, ReflTransGen (ThreadLeads H m pid enable_threads) tstate t →
          ∀ frame, FrameOf H m t frame → ChainEnds H m pid frame := by
  have himages : Images
      (Leads (answer (image m)) fun fuel => walkThreadsStep H fuel pid enable_threads current)
      (ThreadLeads H m pid enable_threads) fun x => x.1.1 := images_walkThreads current
  rw [Halts, ends_forever_iff (steady_walkThreadsStep H pid enable_threads current),
    himages.acc_iff]
  -- Which threads were pushed has no part in where the walk goes.
  have hreach : ∀ t, (∃ x, ReflTransGen (Leads (answer (image m)) fun fuel =>
      walkThreadsStep H fuel pid enable_threads current) ((tstate, threads), ()) x ∧ x.1.1 = t) ↔
        ReflTransGen (ThreadLeads H m pid enable_threads) tstate t := fun t => himages.reach_iff
  apply and_congr_right
  intro _
  constructor
  · intro h t ht
    obtain ⟨⟨⟨t, threads'⟩, ⟨⟩⟩, hx, rfl⟩ := (hreach t).mpr ht
    exact (halts_walkThreadsStep current t threads').mp (h _ hx)
  · rintro h ⟨⟨t, threads'⟩, ⟨⟩⟩ hx
    apply (halts_walkThreadsStep current t threads').mpr
    exact h t ((hreach t).mp ⟨_, hx, rfl⟩)

end

section

variable (H : Headers) (m : Memory) (pid : Pid) (addrs : PyAddresses) (enable_threads : Bool)

/-- The walk along the threads starts here. -/
def StartsAt (tstate : Word) : Prop :=
  ∃ current, peekWord m addrs.tstate_addr = some current ∧
    Yields m (firstThread H pid addrs enable_threads current) tstate

/-- `GetThreads` comes to the thread state. -/
def Visits (tstate : Word) : Prop :=
  ∃ first, StartsAt H m pid addrs enable_threads first ∧
    ReflTransGen (ThreadLeads H m pid enable_threads) first tstate

variable {m}

theorem halts_getThreads :
    Halts m (fun fuel => getThreads H fuel pid addrs enable_threads) ↔
      ∀ first, StartsAt H m pid addrs enable_threads first →
        Acc (flip (ThreadLeads H m pid enable_threads)) first ∧
          ∀ t, ReflTransGen (ThreadLeads H m pid enable_threads) first t →
            ∀ frame, FrameOf H m t frame → ChainEnds H m pid frame := by
  have hwalk : ∀ current tstate, Steady (answer (image m)) fun fuel =>
      Prog.forever (walkThreadsStep H fuel pid enable_threads current) fuel (tstate, []) :=
    fun current tstate => .forever (steady_walkThreadsStep H pid enable_threads current) _
  have hfirst : ∀ current, Halts m (fun fuel =>
      (firstThread H pid addrs enable_threads current).bind fun tstate =>
        Prog.forever (walkThreadsStep H fuel pid enable_threads current) fuel (tstate, [])) ↔
      ∀ tstate, Yields m (firstThread H pid addrs enable_threads current) tstate →
        Acc (flip (ThreadLeads H m pid enable_threads)) tstate ∧
          ∀ t, ReflTransGen (ThreadLeads H m pid enable_threads) tstate t →
            ∀ frame, FrameOf H m t frame → ChainEnds H m pid frame := by
    intro current
    rw [halts_bind (.const _) (hwalk current)]
    simp only [comes_const, halts_walkThreads]
    exact and_iff_right (ends_const (uncut_firstThread H pid addrs enable_threads current))
  show Halts m (fun fuel => (ptracePeek pid addrs.tstate_addr).bind fun current =>
    (firstThread H pid addrs enable_threads current).bind fun tstate =>
      Prog.forever (walkThreadsStep H fuel pid enable_threads current) fuel (tstate, [])) ↔ _
  rw [halts_peek_bind fun current => .bind (.const _) (hwalk current)]
  simp only [hfirst]
  constructor
  · rintro h first ⟨current, hcurrent, hyields⟩
    exact h current hcurrent first hyields
  · intro h current hcurrent first hyields
    exact h first ⟨current, hcurrent, hyields⟩

theorem steady_getThreads {σ : Type} {h : Handler sys σ} :
    Steady h fun fuel => getThreads H fuel pid addrs enable_threads := by
  apply Steady.bind (.const _)
  intro current
  apply Steady.bind (.const _)
  intro tstate
  exact .forever (steady_walkThreadsStep H pid enable_threads current) _

instance : Finite Word := Finite.of_injective BitVec.toFin fun _ _ => BitVec.eq_of_toFin_eq

/-- **When `GetThreads` comes to an end.** In a memory that is not mapped everywhere, if no
string that it reads is overlong, it returns or throws, after finitely many peeks, exactly if
it comes back neither to a thread state nor to a frame. -/
theorem getThreads_ends_iff (hgap : ∃ gap, m gap = none)
    (hshort : ∀ tstate, Visits H m pid addrs enable_threads tstate →
      ∀ frame, VisitsFrame H m pid tstate frame →
        ∀ addr, StringOf H m frame addr → ¬ Overlong H m pid addr) :
    (∃ enough, ∀ fuel ≥ enough,
      (run (answer (image m)) (getThreads H fuel pid addrs enable_threads) ()).1 ≠ .cut) ↔
    ∀ tstate, Visits H m pid addrs enable_threads tstate →
      ¬ TransGen (ThreadLeads H m pid enable_threads) tstate tstate ∧
        ∀ frame, VisitsFrame H m pid tstate frame → ¬ TransGen (FrameLeads H m pid) frame frame := by
  obtain ⟨gap, hgap⟩ := hgap
  rw [← (steady_getThreads H pid addrs enable_threads).ends_iff]
  refine (halts_getThreads H pid addrs enable_threads).trans ?_
  -- There are finitely many addresses, so a walk that never ends comes back to one of them.
  simp only [ChainEnds, acc_iff_not_cycle]
  constructor
  · rintro h tstate ⟨first, hfirst, hreach⟩
    obtain ⟨hthreads, hframes⟩ := h first hfirst
    refine ⟨hthreads tstate hreach, ?_⟩
    rintro frame ⟨current, hcurrent, hframe⟩
    exact (hframes tstate hreach current hcurrent).1 frame hframe
  · intro h first hfirst
    constructor
    · intro t ht
      exact (h t ⟨first, hfirst, ht⟩).1
    · intro t ht current hcurrent
      have hvisits : Visits H m pid addrs enable_threads t := ⟨first, hfirst, ht⟩
      constructor
      · intro frame hframe
        exact (h t hvisits).2 frame ⟨current, hcurrent, hframe⟩
      · intro frame hframe
        exact halts_readFrame H pid hgap (hshort t hvisits frame ⟨current, hcurrent, hframe⟩)

end

/-! ### Two targets -/

/-- A frame object is read, and if its `f_back` is not null the walk goes on with it. -/
theorem FrameAt.leads {H : Headers} {m : Memory} {frame f_back : Word} {f : Frame}
    (hf : FrameAt H m frame f) (hback : peekWord m (frame + H.f_back) = some f_back)
    (hne : f_back ≠ 0) (pid : Pid) : FrameLeads H m pid frame f_back := by
  obtain ⟨f_code, hcode, ⟨co_filename, hfilename, hfile⟩, ⟨co_name, hcname, hname⟩, hline⟩ := hf.code
  obtain ⟨fuel, hfile, hname⟩ :=
    ((yields_stringData pid hfile).and (yields_stringData pid hname)).exists
  refine ⟨hne, f, .of_run (n := fuel) ?_ nofun⟩
  exact (yields_peek hcode).bind ((yields_peek hfilename).bind (hfile.bind
    ((yields_peek hcname).bind (hname.bind ((yields_getLine hline).bind
      ((yields_peek hback).bind (.ret _)))))))

/-- A thread whose frame is its own `f_back`. -/
def ownCaller : Memory := ofWords <|
  [(0x100, 0x2000), (0x500 + 36, asWord (text "a.py")), (0x2010, 0x4000), (0x2090, 7)] ++
  frameWords 0x4000 0x5000 0x4000 3 (text "f")

theorem ownCaller_frame : FrameAt py27 ownCaller 0x4000 ⟨text "a.py", text "f", 3⟩ where
  code := ⟨0x5000, by decide +kernel,
    ⟨0x500, by decide +kernel, by decide, [0, 0, 0], by decide +kernel⟩,
    ⟨0x5100, by decide +kernel, by decide, [0, 0, 0, 0, 0, 0], by decide +kernel⟩,
    @LineAt.traced _ _ _ _ 1 3 (by decide +kernel) (by decide) (by decide +kernel)⟩

/-- `FollowFrame` never comes back from it. -/
theorem getThreads_ownCaller :
    ownCaller 0 = none ∧ ¬ ∃ enough, ∀ fuel ≥ enough,
      (run (answer (image ownCaller)) (getThreads py27 fuel 1 { tstate_addr := 0x100 } false) ()).1 ≠
        .cut := by
  have hgap : ownCaller 0 = none := by decide +kernel
  refine ⟨hgap, fun hends => ?_⟩
  have hhalts := (steady_getThreads py27 1 { tstate_addr := 0x100 } false).ends_iff.mpr hends
  have hframes := (halts_getThreads py27 1 { tstate_addr := 0x100 } false).mp hhalts 0x2000
    ⟨0x2000, by decide +kernel, rfl⟩
  have hacc := hframes.2 0x2000 .refl 0x4000
    ⟨by decide, by decide, by decide +kernel, by decide +kernel⟩
  have hleads : FrameLeads py27 ownCaller 1 0x4000 0x4000 :=
    ownCaller_frame.leads (by decide +kernel) (by decide) 1
  exact not_cycle_of_acc hacc.1 (.single hleads)

/-- The interpreter is Python 2, whose strings have no length to index. -/
theorem not_overlong_py27 (m : Memory) (pid : Pid) (addr : Word) : ¬ Overlong py27 m pid addr := by
  rintro ⟨hversion, -⟩
  exact hversion.elim nofun nofun

/-- Two thread states, the current one two frames deep: neither walk comes back. -/
theorem getThreads_twoThreads_ends :
    (∃ enough, ∀ fuel ≥ enough, (run (answer (image twoThreads))
      (getThreads py27 fuel 1 { tstate_addr := 0x100 } true) ()).1 ≠ .cut) ∧
    ∀ tstate, Visits py27 twoThreads 1 { tstate_addr := 0x100 } true tstate →
      ¬ TransGen (ThreadLeads py27 twoThreads 1 true) tstate tstate ∧
        ∀ frame, VisitsFrame py27 twoThreads 1 tstate frame →
          ¬ TransGen (FrameLeads py27 twoThreads 1) frame frame := by
  have hends : ∃ enough, ∀ fuel ≥ enough, (run (answer (image twoThreads))
      (getThreads py27 fuel 1 { tstate_addr := 0x100 } true) ()).1 ≠ .cut := by
    apply (steady_getThreads py27 1 { tstate_addr := 0x100 } true).ends_iff.mp
    exact ends_iff.mpr ⟨9, by decide +kernel⟩
  exact ⟨hends, (getThreads_ends_iff py27 1 { tstate_addr := 0x100 } true ⟨0, by decide +kernel⟩
    fun _ _ _ _ addr _ => not_overlong_py27 twoThreads 1 addr).mp hends⟩

end Pyflame
