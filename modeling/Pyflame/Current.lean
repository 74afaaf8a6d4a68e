import Pyflame.Heap

/-!
`GetThreads` with and without `--threads`.

With threads enabled the walk starts at the head of the interpreter's list and
goes to its end. Otherwise it starts at the current thread state and goes no
further. What the two report of the current thread is the same.
-/

namespace Pyflame

open Interaction LinkedList Filter

/-- The interpreter whose list is walked, zero if there is none to be found. -/
def walkedInterp (H : Headers) (m : Memory) (addrs : PyAddresses) (current : Word) : Option Word :=
  if current ≠ 0 then peekWord m (current + H.interp)
  else if addrs.interp_head_addr ≠ 0 then peekWord m addrs.interp_head_addr
  else some addrs.interp_head_hint

/-- The list that is walked: that of the interpreter, or what hangs on the current
thread state. -/
def walkedHead (H : Headers) (m : Memory) (addrs : PyAddresses) (current : Word) : Option Word := do
  let istate ← walkedInterp H m addrs current
  if istate ≠ 0 then peekWord m (istate + H.tstate_head) else return current

/-- The list that is walked is finite, all of it can be read, and a current thread
state is on it once. -/
structure Walked (H : Headers) (m : Memory) (addrs : PyAddresses) (current : Word)
    (ts : List ThreadState) : Prop where
  tstate : peekWord m addrs.tstate_addr = some current
  list : ∃ head, walkedHead H m addrs current = some head ∧
    Chain (fun a => peekWord m (a + H.next)) 0 head (ts.map (·.addr))
  threads : ∀ t ∈ ts, t.At H m
  once : current ≠ 0 → (ts.map (·.addr)).count current = 1

section

variable {H : Headers} {m : Memory} {pid : Pid} {addrs : PyAddresses} {current : Word}
  {ts : List ThreadState}

/-- The walk starts where it should, with threads enabled. -/
theorem yields_firstThread_enabled {head : Word} (h : walkedHead H m addrs current = some head) :
    Yields m (firstThread H pid addrs true current) head := by
  obtain ⟨istate, histate, hhead⟩ := Option.bind_eq_some_iff.mp h
  have htail : Yields m (if istate ≠ 0 then ptracePeek pid (istate + H.tstate_head)
      else pure current) head := by
    split_ifs at hhead ⊢
    · exact yields_peek hhead
    · obtain rfl := Option.some.inj hhead
      exact .ret _
  simp only [firstThread, if_true]
  unfold walkedInterp at histate
  split_ifs at histate ⊢
  · exact (yields_peek histate).bind htail
  · exact (yields_peek histate).bind htail
  · obtain rfl := Option.some.inj histate
    exact htail

theorem sampleThreads_filter (current : Word) (ts : List ThreadState) :
    (sampleThreads current ts).filter (·.is_current) =
      sampleThreads current (ts.filter (·.addr = current)) := by
  rw [sampleThreads, sampleThreads, List.filter_map, List.filter_filter, List.filter_filter]
  apply congrArg
  apply List.filter_congr
  intro t _
  exact Bool.and_comm _ _

/-- Nothing on the list is at address zero. -/
theorem Walked.filter_zero (h : Walked H m addrs 0 ts) : ts.filter (·.addr = 0) = [] := by
  obtain ⟨head, -, hchain⟩ := h.list
  apply List.filter_eq_nil_iff.mpr
  intro t ht hzero
  exact hchain.ne_null (List.mem_map_of_mem ht) (of_decide_eq_true hzero)

/-- The current thread state is one entry of the list. -/
theorem Walked.filter_current (h : Walked H m addrs current ts) (hne : current ≠ 0) :
    ∃ t ∈ ts, t.addr = current ∧ ts.filter (·.addr = current) = [t] := by
  have hcount : (ts.filter (·.addr = current)).length = 1 := by
    rw [← h.once hne, ← List.countP_eq_length_filter, List.count, List.countP_map]
    rfl
  obtain ⟨t, ht⟩ := List.length_eq_one_iff.mp hcount
  have hmem : t ∈ ts.filter (·.addr = current) := by
    rw [ht]
    exact List.mem_singleton_self t
  obtain ⟨hts, hcurrent⟩ := List.mem_filter.mp hmem
  exact ⟨t, hts, of_decide_eq_true hcurrent, ht⟩

variable (pid) in
/-- Without threads the walk samples the current thread state and stops. -/
theorem yields_unthreaded (h : Walked H m addrs current ts) :
    ∀ᶠ fuel in atTop, Yields m (getThreads H fuel pid addrs false)
      (sampleThreads current (ts.filter (·.addr = current))) := by
  by_cases hne : current = 0
  · subst hne
    rw [h.filter_zero]
    filter_upwards [eventually_gt_atTop 0] with fuel hfuel
    obtain ⟨n, rfl⟩ := Nat.exists_eq_succ_of_ne_zero (Nat.ne_of_gt hfuel)
    exact (yields_peek h.tstate).bind (.forever_done (.ret _))
  · obtain ⟨t, ht, rfl, hfilter⟩ := h.filter_current hne
    rw [hfilter]
    have hstop : NextThread H m false t.addr 0 := rfl
    filter_upwards [yields_walkThreadsStep pid (h.threads t ht) hne hstop t.addr,
      eventually_gt_atTop 1] with fuel hstep hfuel
    obtain ⟨n, rfl⟩ := Nat.exists_eq_add_of_le hfuel
    refine (yields_peek h.tstate).bind ?_
    rw [show 1 + 1 + n = n + 1 + 1 by omega] at hstep ⊢
    exact .forever_again (hstep []) (.forever_done (.ret _))

end

/-- `GetThreads` without threads is the part of `GetThreads` with threads that is
flagged as current. While nothing holds the GIL that is nothing. -/
theorem getThreads_unthreaded (H : Headers) (m : Memory) (pid : Pid) (addrs : PyAddresses)
    (current : Word) (ts : List ThreadState) (h : Walked H m addrs current ts) :
    ∃ enough, ∀ fuel ≥ enough, ∃ threads,
      (run (answer (image m)) (getThreads H fuel pid addrs true) ()).1 = .ok threads ∧
      (run (answer (image m)) (getThreads H fuel pid addrs false) ()).1 =
        .ok (threads.filter (·.is_current)) ∧
      (current = 0 → threads.filter (·.is_current) = []) := by
  apply eventually_atTop.mp
  obtain ⟨head, hhead, hchain⟩ := h.list
  filter_upwards [yields_walkThreads pid hchain h.threads current, yields_unthreaded pid h,
    eventually_gt_atTop ts.length] with fuel hwalk hunthreaded hfuel
  have henabled : Yields m (getThreads H fuel pid addrs true) (sampleThreads current ts) :=
    (yields_peek h.tstate).bind ((yields_firstThread_enabled hhead).bind (hwalk fuel [] hfuel))
  refine ⟨sampleThreads current ts, congrArg Prod.fst henabled, ?_, ?_⟩
  · rw [sampleThreads_filter]
    exact congrArg Prod.fst hunthreaded
  · intro hzero
    subst hzero
    rw [sampleThreads_filter, h.filter_zero]
    rfl

/-- `twoThreads` as `GetThreads` finds it. -/
theorem twoThreads_walked : Walked py27 twoThreads { tstate_addr := 0x100 } 0x2000
    [⟨0x2000, 7, 0x4000, [(0x4000, ⟨text "a.py", text "f", 3⟩),
      (0x6000, ⟨text "a.py", text "main", 9⟩)]⟩, ⟨0x3000, 8, 0, []⟩] where
  tstate := by decide +kernel
  list := by
    obtain ⟨head, hhead, hchain⟩ := twoThreads_at.list
    refine ⟨head, ?_, hchain⟩
    rw [← hhead]
    decide +kernel
  threads := twoThreads_at.threads
  once := by decide

theorem getThreads_unthreaded_twoThreads :
    ∃ enough, ∀ fuel ≥ enough, ∃ threads,
      (run (answer (image twoThreads)) (getThreads py27 fuel 1 { tstate_addr := 0x100 } true) ()).1 =
        .ok threads ∧
      (run (answer (image twoThreads)) (getThreads py27 fuel 1 { tstate_addr := 0x100 } false) ()).1 =
        .ok (threads.filter (·.is_current)) ∧
      ((0x2000 : Word) = 0 → threads.filter (·.is_current) = []) :=
  getThreads_unthreaded py27 twoThreads 1 { tstate_addr := 0x100 } 0x2000 _ twoThreads_walked

end Pyflame
