import Pyflame.ParseOpts

/-!
Which strings `ParsePid` takes for a PID.

`strtol` reads the longest numeral that a string starts with and does not mind
what follows it. `ParsePid` does not look at where it stopped.
-/

namespace Pyflame

open Interaction

/-- A decimal digit. -/
def IsDigit (b : Byte) : Prop := digitValue b < 10

instance : DecidablePred IsDigit := fun b => inferInstanceAs (Decidable (digitValue b < 10))

/-- Blanks, perhaps a plus sign, digits of value `n`, and then something that does not
start with a digit. -/
def ReadsAs (s : Bytes) (n : ℕ) (rest : Bytes) : Prop :=
  ∃ blanks plus digits, s = blanks ++ (plus ++ (digits ++ rest)) ∧
    (∀ b ∈ blanks, isSpace b = true) ∧ (plus = [] ∨ plus = text "+") ∧
    digits ≠ [] ∧ (∀ b ∈ digits, IsDigit b) ∧ digitsValue 10 (digitsOf 10 digits) = n ∧
    ∀ b ∈ rest.head?, ¬ IsDigit b

/-- The string as a whole, up to blanks and a plus sign in front, is a numeral of the PID. -/
def NamesPid (s : Bytes) (pid : Pid) : Prop :=
  ∃ n : ℕ, ReadsAs s n [] ∧ pid = n ∧ 1 ≤ n ∧ n ≤ 2147483647

/-- Something follows such a numeral. -/
def Trails (s : Bytes) : Prop :=
  ∃ n rest, ReadsAs s n rest ∧ rest ≠ [] ∧ 1 ≤ n ∧ n ≤ 2147483647

/-! ### What is read -/

theorem digitOf_of_isDigit {b : Byte} (hb : IsDigit b) : digitOf 10 b = some (digitValue b) :=
  if_pos hb

theorem digitOf_of_not_isDigit {b : Byte} (hb : ¬ IsDigit b) : digitOf 10 b = none := if_neg hb

theorem digitsOf_split (s : Bytes) :
    digitsOf 10 s = digitsOf 10 (s.takeWhile fun b => IsDigit b) := by
  induction s with
  | nil => rfl
  | cons b s ih =>
      by_cases hb : IsDigit b
      · rw [List.takeWhile_cons, if_pos (decide_eq_true hb), digitsOf, digitsOf,
          digitOf_of_isDigit hb, ih]
      · have hnil : digitsOf 10 (b :: s) = [] := by rw [digitsOf, digitOf_of_not_isDigit hb]
        rw [List.takeWhile_cons, if_neg (by simpa using hb), hnil]
        rfl

theorem takeSign_plus {s : Bytes} (h : (takeSign s).1 = false) :
    ∃ plus, (plus = [] ∨ plus = text "+") ∧ s = plus ++ (takeSign s).2 := by
  cases s with
  | nil => exact ⟨[], .inl rfl, rfl⟩
  | cons b s =>
      simp only [takeSign] at h ⊢
      split_ifs at h ⊢ with hminus hplus
      · exact ⟨text "+", .inr rfl, by rw [hplus]; rfl⟩
      · exact ⟨[], .inl rfl, rfl⟩

/-- In front of a digit a plus sign is skipped, and nothing else. -/
theorem takeSign_of_plus {plus s : Bytes} {b : Byte} (hplus : plus = [] ∨ plus = text "+")
    (hb : IsDigit b) :
    (plus ++ b :: s).dropWhile isSpace = plus ++ b :: s ∧ takeSign (plus ++ b :: s) = (false, b :: s) := by
  obtain ⟨hspace, hminus, hsign⟩ := plain_of_digit (Nat.lt_trans hb (by decide : 10 < 16))
  rcases hplus with rfl | rfl
  · rw [List.nil_append, List.dropWhile_cons, if_neg (by simp [hspace]), takeSign, if_neg hminus,
      if_neg hsign]
    exact ⟨rfl, rfl⟩
  · exact ⟨rfl, rfl⟩

/-- The decomposition is the one that `strtol` finds. -/
theorem readsAs_iff {s : Bytes} {n : ℕ} {rest : Bytes} :
    ReadsAs s n rest ↔
      let t := (takeSign (s.dropWhile isSpace)).2
      (takeSign (s.dropWhile isSpace)).1 = false ∧ digitsOf 10 t ≠ [] ∧
        digitsValue 10 (digitsOf 10 t) = n ∧ rest = t.dropWhile fun b => IsDigit b := by
  constructor
  · rintro ⟨blanks, plus, digits, rfl, hblanks, hplus, hne, hdigits, hvalue, hrest⟩
    have hsplit : digitsOf 10 (digits ++ rest) = digitsOf 10 digits ∧
        (digits ++ rest).dropWhile (fun b => IsDigit b) = rest := by
      rw [digitsOf_append hdigits, List.dropWhile_append_of_pos fun b hb => decide_eq_true (hdigits b hb)]
      cases rest with
      | nil => exact ⟨List.append_nil _, rfl⟩
      | cons b rest =>
          have hb : ¬ IsDigit b := hrest b rfl
          rw [digitsOf, digitOf_of_not_isDigit hb, List.append_nil, List.dropWhile_cons, if_neg (by simpa using hb)]
          exact ⟨rfl, rfl⟩
    obtain ⟨b, digits', rfl⟩ := List.exists_cons_of_ne_nil hne
    obtain ⟨hspace, hsign⟩ := takeSign_of_plus hplus (hdigits b List.mem_cons_self)
    rw [List.dropWhile_append_of_pos hblanks, List.cons_append, hspace, hsign]
    simp only [List.cons_append] at hsplit
    refine ⟨rfl, ?_, ?_, hsplit.2.symm⟩
    · rw [hsplit.1, digitsOf, digitOf_of_isDigit (hdigits b List.mem_cons_self)]
      exact List.cons_ne_nil _ _
    · rw [hsplit.1, hvalue]
  · rintro ⟨hsign, hne, hvalue, rfl⟩
    obtain ⟨plus, hplus, heq⟩ := takeSign_plus hsign
    generalize (takeSign (s.dropWhile isSpace)).2 = t at hne hvalue heq ⊢
    refine ⟨s.takeWhile isSpace, plus, t.takeWhile fun b => IsDigit b, ?_, ?_, hplus, ?_, ?_, ?_, ?_⟩
    · rw [List.takeWhile_append_dropWhile, ← heq, List.takeWhile_append_dropWhile]
    · exact fun b hb => List.mem_takeWhile_imp hb
    · intro hnil
      rw [digitsOf_split, hnil] at hne
      exact hne rfl
    · intro b hb
      simpa using List.mem_takeWhile_imp hb
    · rw [← digitsOf_split, hvalue]
    · intro b hb
      have hstop := List.head?_dropWhile_not (fun b => decide (IsDigit b)) t
      rw [Option.mem_def.mp hb] at hstop
      simpa using hstop

theorem scanNumber_pos_iff {s : Bytes} {n : ℕ} (hn : 0 < n) :
    scanNumber 10 s = some (n : ℤ) ↔ ∃ rest, ReadsAs s n rest := by
  simp only [readsAs_iff]
  unfold scanNumber
  rcases takeSign (s.dropWhile isSpace) with ⟨negative, t⟩
  simp only [if_neg (show ¬ (10 : ℕ) = 16 by decide)]
  cases hdigits : digitsOf 10 t with
  | nil => simp
  | cons d ds =>
      cases negative with
      | false => simp
      | true =>
          -- With a minus sign in front it is not positive.
          have hneg : ¬ -(digitsValue 10 (d :: ds) : ℤ) = n := by omega
          simpa using hneg

/-! ### What `ParsePid` returns -/

theorem pidOf_eq_iff {s : Bytes} {pid : ℤ} (hpid : 0 < pid) :
    pidOf s = pid ↔ pid ≤ 2147483647 ∧ scanNumber 10 s = some pid := by
  unfold pidOf strtol
  cases scanNumber 10 s with
  | none =>
      rw [if_pos (.inl le_rfl)]
      constructor
      · rintro rfl
        contradiction
      · rintro ⟨-, h⟩
        contradiction
  | some v =>
      have hfit (w : ℤ) : max (-2 ^ 63) (min v (2 ^ 63 - 1)) = w →
          ((if w ≤ 0 ∨ 2147483647 < w then -1 else w) = pid ↔ pid ≤ 2147483647 ∧ v = pid) := by
        intro hw
        split_ifs with hrange <;> omega
      rw [Option.some.injEq]
      exact hfit _ rfl

theorem ReadsAs.unique {s : Bytes} {n n' : ℕ} {rest rest' : Bytes} (h : ReadsAs s n rest)
    (h' : ReadsAs s n' rest') : n = n' ∧ rest = rest' := by
  obtain ⟨-, -, hn, hrest⟩ := readsAs_iff.mp h
  obtain ⟨-, -, hn', hrest'⟩ := readsAs_iff.mp h'
  exact ⟨hn.symm.trans hn', hrest.trans hrest'.symm⟩

theorem ReadsAs.pidOf {s : Bytes} {n : ℕ} {rest : Bytes} (h : ReadsAs s n rest) (hn : 1 ≤ n)
    (hmax : n ≤ 2147483647) : Pyflame.pidOf s = n :=
  (pidOf_eq_iff (by omega)).mpr ⟨by omega, (scanNumber_pos_iff hn).mpr ⟨rest, h⟩⟩

theorem NamesPid.pidOf {s : Bytes} {pid : Pid} (h : NamesPid s pid) : Pyflame.pidOf s = pid := by
  obtain ⟨n, hreads, rfl, hn, hmax⟩ := h
  exact hreads.pidOf hn hmax

/-- A process that is returned is the one that is named, unless something follows. -/
theorem namesPid_pidOf_iff {s : Bytes} (h : pidOf s ≠ -1) : NamesPid s (pidOf s) ↔ ¬ Trails s := by
  obtain ⟨hpos, hmax⟩ := pidOf_range h
  obtain ⟨n, hn⟩ := Int.eq_ofNat_of_zero_le (Int.le_trans (by decide) hpos)
  rw [hn] at hpos hmax
  have hpos : 1 ≤ n := Int.ofNat_le.mp hpos
  have hmax : n ≤ 2147483647 := Int.ofNat_le.mp hmax
  obtain ⟨-, hscan⟩ := (pidOf_eq_iff (Int.ofNat_lt.mpr hpos)).mp hn
  obtain ⟨rest, hreads⟩ := (scanNumber_pos_iff hpos).mp hscan
  rw [hn]
  constructor
  · rintro ⟨m, hwhole, -⟩ ⟨k, rest', hreads', hne, -⟩
    exact hne (hreads'.unique hwhole).2
  · intro hwhole
    obtain rfl : rest = [] := by
      by_contra hne
      exact hwhole ⟨n, rest, hreads, hne, hpos, hmax⟩
    exact ⟨n, hreads, rfl, hpos, hmax⟩

theorem pidOf_meets_iff (s : Bytes) :
    ((∀ pid > 0, pidOf s = pid ↔ NamesPid s pid) ∧ ((∀ pid, ¬ NamesPid s pid) → pidOf s = -1)) ↔
      ¬ Trails s := by
  constructor
  · rintro ⟨hnames, -⟩ htrails
    obtain ⟨n, rest, hreads, hne, hn, hmax⟩ := htrails
    have hpid := hreads.pidOf hn hmax
    obtain ⟨m, hwhole, -⟩ := (hnames n (Int.ofNat_lt.mpr hn)).mp hpid
    exact hne (hreads.unique hwhole).2
  · intro hwhole
    constructor
    · intro pid hpid
      constructor
      · rintro rfl
        refine (namesPid_pidOf_iff fun hfail => ?_).mpr hwhole
        rw [hfail] at hpid
        contradiction
      · exact NamesPid.pidOf
    · intro hnone
      by_contra hpid
      exact hnone _ ((namesPid_pidOf_iff hpid).mpr hwhole)

/-! ### What is seized -/

/-- Only this process may be seized. -/
def Call.SeizesOnly (pid : Pid) (c : Call) : Prop := ∀ p, c = .ptraceSeize p → p = pid

section

variable {fuel : ℕ} {cfg : Settings} {pid : Pid}

/-- A call of another kind, with what is done with its result. -/
theorem only_invoke_bind {c : Call} {α : Type} {f : c.Rep → Driver α}
    (hc : c.SeizesOnly pid) (hf : ∀ x, (f x).Only (Call.SeizesOnly pid)) :
    ((invoke c).bind f).Only (Call.SeizesOnly pid) :=
  (Prog.Only.ask hc).bind hf

theorem only_findSymbols : (findSymbols fuel cfg).Only (Call.SeizesOnly pid) := by
  refine (Prog.Only.forever (fun i => ?_) fuel 0).handle fun e => ?_
  · refine only_invoke_bind nofun fun x => only_rethrow_bind fun found => ?_
    cases found with
    | some found => trivial
    | none =>
        refine .ite (only_invoke_bind nofun fun _ => trivial) ?_
        refine only_invoke_bind nofun fun x => only_rethrow_bind fun _ => ?_
        refine only_invoke_bind nofun fun _ => ?_
        exact only_invoke_bind nofun fun x => only_rethrow_bind fun _ => trivial
  · cases e with
    | fatal | symbol => exact only_invoke_bind nofun fun _ => trivial
    | terminate | ptrace | other => trivial

theorem only_probeIteration {found : PyABI × PyAddresses} (finish : Time) (s : Samples) :
    (probeIteration cfg.toProber (loopCalls cfg found) finish s).Only (Call.SeizesOnly pid) := by
  have hhandle (now : Time) (s : Samples) (e : Exception) :
      (handleException cfg.toProber (loopCalls cfg found) now s e).Only (Call.SeizesOnly pid) := by
    cases e with
    | terminate => trivial
    | ptrace | fatal | symbol | other => exact only_invoke_bind nofun fun _ => trivial
  refine only_invoke_bind nofun fun now => only_invoke_bind nofun fun threads => ?_
  cases threads with
  | error e => exact hhandle now s e
  | ok threads =>
      refine .ite trivial (only_invoke_bind nofun fun cont => ?_)
      cases cont with
      | error e => exact hhandle now _ e
      | ok =>
          refine only_invoke_bind nofun fun _ => only_invoke_bind nofun fun interrupt => ?_
          cases interrupt with
          | error e => exact hhandle now _ e
          | ok => trivial

theorem only_runProber (std : StdLib) (found : PyABI × PyAddresses) :
    (runProber std fuel cfg found).Only (Call.SeizesOnly pid) := by
  have hopen : (haveOutput cfg).Only (Call.SeizesOnly pid) := .ite trivial (.ask nofun)
  have hloop (finish : Time) : (Prog.forever
      (probeLoopOverStep cfg.toProber (loopCalls cfg found) finish) fuel {}).Only
        (Call.SeizesOnly pid) := by
    refine .forever (fun s => ?_) fuel _
    refine (only_probeIteration finish s).bind fun r => ?_
    obtain ⟨s, next⟩ := r
    cases next <;> trivial
  refine hopen.bind fun opened => .ite (only_invoke_bind nofun fun _ => trivial) (.ite ?_ ?_)
  · exact only_invoke_bind nofun fun x => only_rethrow_bind fun _ => trivial
  · exact only_invoke_bind nofun fun now => (hloop _).bind fun _ => trivial

theorem only_profile (std : StdLib) : (profile std fuel cfg).Only (Call.SeizesOnly pid) := by
  refine only_findSymbols.bind fun found => ?_
  cases found with
  | none => exact only_invoke_bind nofun fun _ => trivial
  | some found =>
      exact (only_runProber std found).bind fun _ => only_invoke_bind nofun fun _ => trivial

/-- In attach mode `main` seizes the process of the settings and no other. -/
theorem only_main (std : StdLib) (htrace : cfg.trace = false) :
    (main std fuel cfg).Only (Call.SeizesOnly cfg.pid) := by
  have hinitiate : (initiatePtrace fuel cfg).Only (Call.SeizesOnly cfg.pid) := by
    have hself : Call.SeizesOnly cfg.pid (.ptraceSeize cfg.pid) :=
      fun p hp => (Call.ptraceSeize.inj hp).symm
    rw [initiatePtrace, if_neg (by rw [htrace]; decide)]
    refine only_invoke_bind hself fun x => ?_
    cases x with
    | error e =>
        cases e with
        | ptrace => exact only_invoke_bind nofun fun _ => trivial
        | terminate | fatal | symbol | other => trivial
    | ok => exact only_invoke_bind nofun fun x => only_rethrow_bind fun _ => trivial
  refine hinitiate.bind fun cfg' => ?_
  cases cfg' with
  | none => trivial
  | some cfg' => exact only_profile std

end

/-- **When the process is the one that is named.** `ParsePid` returns the PID that a string
names, and -1 if it names none, unless something follows the numeral. When a process is to be
attached to, it is the one that the last `-p` or the positional argument names, with the same
exception, and `main` seizes no other. -/
theorem parsePid_namesPid_iff (pid_str : Bytes) (build : Build) (stod : Bytes → Except Bytes ℚ)
    (reports : List Reported) (last : Scanner) :
    (∀ (σ : Type) (h : Handler calls σ) (s : σ),
      ((∀ pid > 0, (run h (parsePid pid_str) s).1 = .ok pid ↔ NamesPid pid_str pid) ∧
          ((∀ pid, ¬ NamesPid pid_str pid) → (run h (parsePid pid_str) s).1 = .ok (-1))) ↔
        ¬ Trails pid_str) ∧
    ((∀ r ∈ reports, r.Listed build) → (∀ r ∈ reports, r.Parses stod) →
      (∀ r ∈ reports, r.scanner.optind ≤ r.scanner.argv.length) →
      last.optind ≤ last.argv.length →
      ∀ (σ : Type) (h : Handler calls σ) (s s' : σ) (parsed : Parsed),
        run h (parseOpts build stod reports last) s = (.ok parsed, s') →
        parsed.ret = -1 → parsed.options.trace = false →
        ∃ named, namedPid reports last = some named ∧
          (NamesPid named parsed.options.pid ↔ ¬ Trails named) ∧
          ∀ std fuel, (main std fuel parsed.options.toSettings).Only
            (Call.SeizesOnly parsed.options.pid)) := by
  constructor
  · intro σ h s
    obtain ⟨pid, s', hrun, rfl, -⟩ := (delivers_parsePid pid_str).run h s
    rw [hrun]
    simp only [Outcome.ok.injEq]
    exact pidOf_meets_iff pid_str
  · intro hlisted hparses hoptind hlast σ h s s' parsed hrun hret htrace
    obtain ⟨parsed', s'', hrun', hends, -⟩ :=
      (delivers_parseOpts hlisted hparses hoptind hlast).run h s
    obtain rfl : parsed = parsed' := Outcome.ok.inj (congrArg Prod.fst (hrun.symm.trans hrun'))
    cases hends with
    | trace _ hmode => exact absurd (htrace.symm.trans hmode.trace) Bool.false_ne_true
    | @attach named _ hmode hnamed hpid =>
        have hfound : pidOf named ≠ -1 := hpid ▸ hmode.pid_ne
        refine ⟨named, hnamed, ?_, fun std fuel => only_main std htrace⟩
        rw [hpid]
        exact namesPid_pidOf_iff hfound
    | leave hleave =>
        rw [hret] at hleave
        exact absurd hleave (by decide)

/-- `pyflame -p 123`. -/
def attachReports : List Reported :=
  [⟨'p', some (text "123"), ⟨[text "pyflame", text "-p", text "123"], 3⟩⟩]

theorem parsePid_namesPid_123 :
    NamesPid (text "123") 123 ↔ ¬ Trails (text "123") := by
  have hlisted : ∀ r ∈ attachReports, r.Listed plainBuild := by
    intro r hr
    obtain rfl := List.mem_singleton.mp hr
    exact .inr (by decide)
  have hparses : ∀ r ∈ attachReports, r.Parses plainStod := by
    intro r hr hnumber
    obtain rfl := List.mem_singleton.mp hr
    simp at hnumber
  have hoptind : ∀ r ∈ attachReports, r.scanner.optind ≤ r.scanner.argv.length := by
    intro r hr
    obtain rfl := List.mem_singleton.mp hr
    exact Nat.le_refl 3
  let last : Scanner := ⟨[text "pyflame", text "-p", text "123"], 3⟩
  obtain ⟨-, hattach⟩ := parsePid_namesPid_iff [] plainBuild plainStod attachReports last
  obtain ⟨named, hnamed, hiff, -⟩ := hattach hlisted hparses hoptind (Nat.le_refl 3) Unit
    (answer Call.lost) () () _ rfl rfl rfl
  obtain rfl : text "123" = named := Option.some.inj hnamed
  exact hiff

/-- A name with a number in front. -/
theorem parsePid_123abc :
    (∀ pid, ¬ NamesPid (text "123abc") pid) ∧ parsePid (text "123abc") = .ret 123 := by
  have hpid : pidOf (text "123abc") = 123 := by decide
  have htrails : Trails (text "123abc") := by
    refine ⟨123, text "abc", ⟨[], [], text "123", ?_⟩, ?_⟩
    · decide
    · decide
  refine ⟨fun pid hnames => ?_, rfl⟩
  have hfound : pidOf (text "123abc") ≠ -1 := by
    rw [hpid]
    decide
  refine (namesPid_pidOf_iff hfound).mp ?_ htrails
  rwa [hnames.pidOf]

end Pyflame
