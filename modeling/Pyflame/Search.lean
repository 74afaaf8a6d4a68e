import Pyflame.Footprint

/-!
The search for the interpreter, and what is done with its result.

`get_threads_` and `addrs_` of a `PyFrob` have no value until `DetectABI` sets
them, and it may be called up to `MaxRetries` times before it does. Here a run
of the driver is followed with a record of what `DetectABI` has replied.
-/

namespace Pyflame

open Interaction

/-- Where the target is between two attempts. -/
inductive Pace
  | stopped
  /-- The last attempt found nothing. -/
  | missed
  | running
  | rested
  deriving DecidableEq, Repr

structure Search where
  attempts : ℕ := 0
  found : Option (PyABI × PyAddresses) := none
  pace : Pace := .stopped

/-- What a call adds to the record. -/
def Search.next (s : Search) : (c : Call) → c.Rep → Search
  | .detectABI _ _ _, .ok (some found) => { s with attempts := s.attempts + 1, found := some found }
  | .detectABI _ _ _, .ok none | .detectABI _ _ _, .error _ =>
      { s with attempts := s.attempts + 1, pace := .missed }
  | .ptraceCont _, .ok _ => if s.pace = .missed then { s with pace := .running } else s
  | .sleepFor _, _ => if s.pace = .running then { s with pace := .rested } else s
  | .ptraceInterrupt _, .ok _ => if s.pace = .rested then { s with pace := .stopped } else s
  | _, _ => s

/-- What `GetThreads` can work with: an ABI, the one that was asked for if any was, and the
address of the current thread. -/
structure Walkable (abi : PyABI) (found : PyABI × PyAddresses) : Prop where
  known : found.1 ≠ .unknown
  forced : abi ≠ .unknown → found.1 = abi
  located : found.2.tstate_addr ≠ 0

section

variable (headers : PyABI → Headers) (n : ℕ) (cfg : Settings)

/-- Where the calls of the search may be made. -/
def searches (s : Search) : Call → Prop
  | .detectABI _ _ _ => s.attempts < cfg.maxRetries ∧ s.found = none ∧ s.pace = .stopped
  | .getThreads _ abi addrs _ => s.found = some (abi, addrs) ∧ Walkable cfg.abi (abi, addrs)
  | _ => True

/-- The driver over its calls, each with any reply that its program can give. -/
def searching : Env calls Search where
  step s c rep s' := s' = s.next c rep ∧ may (Env.free sys) (c.impl headers n) () (.ok rep) ()
  permits := searches cfg

end

section

variable {headers : PyABI → Headers} {fuel n : ℕ} {cfg : Settings} {s : Search}

theorem returns_detectABI (pid : Pid) (enable_threads : Bool) (abi : PyABI) :
    Returns (fun r => ∀ found, r = some found → Walkable abi found)
      (detectABI n pid enable_threads abi) := by
  refine .bind fun r => ?_
  cases r with
  | none => exact .ret nofun
  | some r =>
      obtain ⟨detected, addrs⟩ := r
      show Returns _ (if (if abi = .unknown then detected else abi) = .unknown then _ else _)
      by_cases habi : abi = .unknown
      · rw [if_pos habi]
        split_ifs with hknown hempty
        · exact .raise
        · exact .raise
        · refine .ret ?_
          rintro _ ⟨⟩
          exact ⟨hknown, fun h => absurd habi h, by simpa [PyAddresses.empty] using hempty⟩
      · rw [if_neg habi, if_neg habi]
        split_ifs with hempty
        · exact .raise
        · refine .ret ?_
          rintro _ ⟨⟩
          exact ⟨habi, fun _ => rfl, by simpa [PyAddresses.empty] using hempty⟩

/-! ### The search -/

/-- What the search comes to. It is given so many passes. -/
def Searched (cfg : Settings) (fuel : ℕ) :
    Outcome Exception (Option (PyABI × PyAddresses)) → Search → Prop
  | .ok (some found), s => s.pace = .stopped ∧ s.found = some found ∧ Walkable cfg.abi found
  | .ok none, s | .error _, s => s.found = none
  | .abort, _ => False
  | .cut, _ => fuel < cfg.maxRetries

/-- The record at the start of a pass. -/
structure Seeking (cfg : Settings) (i : ℕ) (s : Search) : Prop where
  attempts : s.attempts = i
  again : i < cfg.maxRetries
  found : s.found = none
  pace : s.pace = .stopped

/-- A call that may be made at any time, and what follows it. -/
theorem wp_searching {c : Call} {α : Type} {f : c.Rep → Driver α}
    {Q : Outcome Exception α → Search → Prop} (hc : searches cfg s c)
    (hf : ∀ rep, wp (searching headers n cfg) Q (f rep) (s.next c rep)) :
    wp (searching headers n cfg) Q ((invoke c).bind f) s := by
  refine ⟨hc, fun rep s' ⟨h, _⟩ => ?_⟩
  obtain rfl := h
  exact hf rep

/-- One pass, in which nothing is found and the target goes on for an interval. -/
theorem wp_findSymbolsStep {i : ℕ} (hs : Seeking cfg i s) {Q : Outcome Exception _ → Search → Prop}
    (herror : ∀ e s, s.found = none → Q (.error e) s)
    (hnone : ∀ s, s.found = none → Q (.ok (.inr none)) s)
    (hsome : ∀ found s, s.pace = .stopped → s.found = some found → Walkable cfg.abi found →
      Q (.ok (.inr (some found))) s)
    (hagain : ∀ s, Seeking cfg (i + 1) s → Q (.ok (.inl (i + 1))) s) :
    wp (searching headers n cfg) Q (findSymbolsStep cfg i) s := by
  have hpermits : searches cfg s (.detectABI cfg.pid cfg.enable_threads cfg.abi) :=
    ⟨hs.attempts ▸ hs.again, hs.found, hs.pace⟩
  refine ⟨hpermits, fun rep s' ⟨h, hmay⟩ => ?_⟩
  cases rep with
  | error e => exact herror e s' (h ▸ hs.found)
  | ok r =>
      cases r with
      | some found =>
          have hwalkable := wp_may ((returns_detectABI _ _ _).attempt ()) hmay
          exact hsome found s' (h ▸ hs.pace) (h ▸ rfl) (hwalkable _ rfl _ rfl _ rfl)
      | none =>
          have hfound : s'.found = none := h ▸ hs.found
          have hattempts : s'.attempts = i + 1 := by rw [h, Search.next, hs.attempts]
          have hpace : s'.pace = .missed := h ▸ rfl
          show wp _ _ (if cfg.maxRetries ≤ i + 1 then _ else _) s'
          split_ifs with hmax
          · exact wp_searching trivial fun _ => hnone s' hfound
          · refine wp_searching trivial fun rep => ?_
            cases rep with
            | error e => exact herror e s' hfound
            | ok =>
                refine wp_searching trivial fun _ => wp_searching trivial fun rep => ?_
                cases rep with
                | error e =>
                    refine herror e _ ?_
                    simp [Search.next, hpace, hfound]
                | ok =>
                    refine hagain _ ⟨?_, by omega, ?_, ?_⟩ <;>
                      simp [Search.next, hpace, hfound, hattempts]

/-- The loop, from the pass `i` on. -/
theorem wp_findSymbolsLoop {i left : ℕ} (hleft : left + i = fuel) (hs : Seeking cfg i s) :
    wp (searching headers n cfg) (Searched cfg fuel) (Prog.forever (findSymbolsStep cfg) left i) s := by
  induction left generalizing i s with
  | zero =>
      have := hs.again
      show fuel < cfg.maxRetries
      omega
  | succ left ih =>
      refine wp_bind.mpr
        (wp_findSymbolsStep hs (fun e s hfound => hfound) (fun s hfound => hfound) ?_ ?_)
      · exact fun found s hpace hfound hwalkable => ⟨hpace, hfound, hwalkable⟩
      · exact fun s hs => ih (by omega) hs

theorem wp_findSymbols_searching (hs : Seeking cfg 0 s) :
    wp (searching headers n cfg) (Searched cfg fuel) (findSymbols fuel cfg) s := by
  refine wp_handle.mpr (wp_mono (fun o s ho => ?_) (wp_findSymbolsLoop (Nat.add_zero fuel) hs))
  cases o with
  | ok | abort | cut => exact ho
  | error e =>
      cases e with
      | fatal | symbol => exact wp_searching trivial fun _ => ho
      | terminate | ptrace | other => exact ho

/-! ### Before and after it -/

/-- The calls that leave the record as it is. -/
theorem wp_unrecorded {P : Call → Prop} {α : Type} {p : Driver α} (hp : p.Only P)
    (h : ∀ c, P c → searches cfg s c ∧ ∀ rep, s.next c rep = s) :
    wp (searching headers n cfg) (fun _ s' => s' = s) p s := by
  refine wp_of_only hp (fun c hc s' hs => ?_) rfl
  obtain rfl := hs
  exact ⟨(h c hc).1, fun rep s' hstep => hstep.1.trans ((h c hc).2 rep)⟩

theorem wp_initiatePtrace_searching :
    wp (searching headers n cfg) (fun _ s => s = {}) (initiatePtrace fuel cfg) {} := by
  refine wp_unrecorded calls_initiatePtrace fun c ⟨pid, hc⟩ => ?_
  cases hc with
  | ptraceCont | ptraceInterrupt =>
      refine ⟨trivial, fun rep => ?_⟩
      cases rep with
      | ok | error => rfl
  | _ => exact ⟨trivial, fun rep => rfl⟩

theorem wp_runProber_searching (std : StdLib) {pid : Pid} {found : PyABI × PyAddresses}
    (hpace : s.pace = .stopped) (hfound : s.found = some found) (hwalkable : Walkable cfg.abi found) :
    wp (searching headers n cfg) (fun _ s' => s' = s)
      (runProber std fuel { cfg with pid := pid } found) s := by
  refine wp_unrecorded (calls_runProber std found) fun c hc => ?_
  cases hc with
  | getThreads => exact ⟨⟨hfound, hwalkable⟩, fun rep => rfl⟩
  | ptraceCont | ptraceInterrupt =>
      refine ⟨trivial, fun rep => ?_⟩
      cases rep with
      | ok => simp [Search.next, hpace]
      | error => rfl
  | sleepFor => exact ⟨trivial, fun rep => by simp [Search.next, hpace]⟩
  | _ => exact ⟨trivial, fun rep => rfl⟩

/-- How a run ends. Where nothing was found there is nothing to print, and the search itself
comes to an end. -/
def EndsSearch (cfg : Settings) (fuel : ℕ) : Outcome Exception (Printed × ℕ) → Search → Prop
  | .ok r, s => s.found = none → r = (⟨[], []⟩, 1)
  | .cut, s => s.found = none → s.attempts ≠ 0 → fuel < cfg.maxRetries
  | .error _, _ | .abort, _ => True

theorem wp_profile_searching (std : StdLib) (pid : Pid) :
    wp (searching headers n cfg) (EndsSearch cfg fuel)
      (profile std fuel { cfg with pid := pid }) {} := by
  have hmax : 0 < cfg.maxRetries := by
    rw [Settings.maxRetries]
    split_ifs <;> omega
  have hstart : Seeking { cfg with pid := pid } 0 {} := ⟨rfl, hmax, rfl, rfl⟩
  refine wp_bind_of (wp_findSymbols_searching hstart) fun o s ho => ?_
  cases o with
  | error => trivial
  | abort => exact ho.elim
  | cut => exact fun _ _ => ho
  | ok found =>
      cases found with
      | none => exact wp_searching trivial fun _ _ => rfl
      | some found =>
          obtain ⟨hpace, hfound, hwalkable⟩ := ho
          have hrun : wp (searching headers n cfg) (fun _ s' => s' = s)
              (runProber std fuel { cfg with pid := pid } found) s :=
            wp_runProber_searching std hpace hfound hwalkable
          refine wp_bind_of hrun fun o s' hs' => ?_
          have hne : s'.found ≠ none := by simp [hs', hfound]
          cases o with
          | error | abort => trivial
          | cut => exact fun h => absurd h hne
          | ok result => exact wp_searching trivial fun _ h => absurd h hne

end

/-- **The search.** In every run, whatever is replied, `DetectABI` is called at most `MaxRetries`
times, again only where it found nothing and the target has been let run for an interval and
stopped since; `GetThreads` is only ever called with what the last of them found, an ABI and an
address among it; and a run that found nothing prints nothing and fails. -/
theorem main_searches (std : StdLib) (headers : PyABI → Headers) (fuel n : ℕ) (cfg : Settings) :
    wp (searching headers n cfg) (EndsSearch cfg fuel) (main std fuel cfg) {} := by
  refine wp_bind_of (wp_returns wp_initiatePtrace_searching returns_initiatePtrace) ?_
  rintro o s ⟨rfl, hcfg⟩
  cases o with
  | error | abort => trivial
  | cut => exact fun _ h => absurd rfl h
  | ok r =>
      cases r with
      | none => exact fun _ => rfl
      | some cfg' =>
          obtain hcfg := hcfg _ rfl cfg' rfl
          show wp _ _ (profile std fuel cfg') _
          rw [hcfg]
          exact wp_profile_searching std cfg'.pid

end Pyflame
