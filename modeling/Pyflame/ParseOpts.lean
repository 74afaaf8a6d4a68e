import Pyflame.Exit

/-!
`ParseOpts` of `prober.cc`, and `main` of `pyflame.cc` from its start.

`getopt_long` belongs to the C library. What it reports is an input here: the
options in order, each with what it leaves in `optarg` and `optind` and with
`argv` as it has permuted it.
-/

namespace Pyflame

open Interaction

/-! ### Tables and texts -/

/-- What `configure` defines. It defines `ENABLE_THREADS` in any case, as 1 or as 0. -/
structure Build where
  enable_threads : Bool
  version_str : Bytes
  build_abis : List ℕ

/-- `struct option`. -/
structure LongOption where
  name : Bytes
  has_arg : Bool
  val : Char

def shortOpts : String := "dhno:p:r:s:tvx"

def Build.longOpts (build : Build) : List LongOption :=
  [⟨text "abi", true, 'a'⟩,
    ⟨text "dump", false, 'd'⟩,
    ⟨text "help", false, 'h'⟩,
    ⟨text "rate", true, 'r'⟩,
    ⟨text "seconds", true, 's'⟩] ++
  (if build.enable_threads then [⟨text "threads", false, 'L'⟩] else []) ++
  [⟨text "no-line-numbers", false, 'n'⟩,
    ⟨text "output", true, 'o'⟩,
    ⟨text "pid", true, 'p'⟩,
    ⟨text "trace", false, 't'⟩,
    ⟨text "flamechart", false, 'T'⟩,
    ⟨text "version", false, 'v'⟩,
    ⟨text "exclude-idle", false, 'x'⟩]

/-- The options in a string of letters. A colon behind one asks for an argument. -/
def lettersOf : List Char → List (Char × Bool)
  | [] => []
  | [c] => [(c, false)]
  | c :: c' :: cs => if c' = ':' then (c, true) :: lettersOf cs else (c, false) :: lettersOf (c' :: cs)

/-- What `getopt_long` may report, and whether it has an argument. -/
def Build.codes (build : Build) : List (Char × Bool) :=
  lettersOf shortOpts.toList ++ build.longOpts.map fun option => (option.val, option.has_arg)

/-- `usage_str`. Its lines about threads depend on whether `ENABLE_THREADS` is defined. -/
def usageStr : Bytes :=
  text "Usage: pyflame [options] [-p] PID\n" ++
  text "       pyflame [options] -t command arg1 arg2...\n" ++
  text "\n" ++
  text "Common Options:\n" ++
  text "  --threads                Enable multi-threading support\n" ++
  text "  -d, --dump               Dump stacks from all threads (implies --threads)\n" ++
  text "  -h, --help               Show help\n" ++
  text "  -n, --no-line-numbers    Do not append line numbers to function names\n" ++
  text "  -o, --output=PATH        Output to file path\n" ++
  text "  -p, --pid=PID            The PID to trace\n" ++
  text "  -r, --rate=RATE          Sample rate, as a fractional value of seconds " ++
  text "(default 0.01)\n" ++
  text "  -s, --seconds=SECS       How many seconds to run for (default 1)\n" ++
  text "  -t, --trace              Trace a child process\n" ++
  text "  -v, --version            Show the version\n" ++
  text "  -x, --exclude-idle       Exclude idle time from statistics\n" ++
  text "\n" ++
  text "Advanced Options:\n" ++
  text "  --abi                    Force a particular Python ABI (26, 34, 36)\n" ++
  text "  --flamechart             Include timestamps for generating Chrome " ++
  text "\"flamecharts\"\n"

/-- `ShowVersion`. -/
def Build.showVersion (build : Build) : Bytes :=
  build.version_str ++ text " (ABI list: " ++
    ((build.build_abis.map decimal).intersperse (text " ")).flatten ++ text ")\n"

/-! ### What `getopt_long` reports -/

/-- Where a scan has got to. -/
structure Scanner where
  argv : List Bytes
  optind : ℕ

/-- An option, with `optarg` where it is not null. -/
structure Reported where
  c : Char
  optarg : Option Bytes
  scanner : Scanner

/-- The option is in the tables, or it is the error that has been printed. -/
def Reported.Listed (build : Build) (r : Reported) : Prop :=
  r.c = '?' ∨ (r.c, r.optarg.isSome) ∈ build.codes

/-! ### `ParseOpts` -/

/-- The members of `Prober` that it works on. -/
structure Options extends Settings where
  sample_rate : ℚ := Double.nearest (1 / 100)

/-- What it returns, with the members as it leaves them and what it prints to
`std::cout`. -/
structure Parsed where
  ret : ℤ
  options : Options
  out : List Bytes := []

/-- How the loop goes on. -/
inductive Parsing
  | next (o : Options)
  | finish (o : Options)
  | leave (parsed : Parsed)

/-- `ParsePid`. -/
def parsePid (pid_str : Bytes) : Driver Pid := do
  let pid := strtol pid_str
  if pid ≤ 0 ∨ 2147483647 < pid then
    invoke (.cerr (text "Error: failed to parse \"" ++ pid_str ++ text "\" as a PID.\n\n"))
    return -1
  else
    return pid

/-- `optarg` where it is looked at. -/
def argument : Option Bytes → Driver Bytes
  | some optarg => .ret optarg
  | none => .abort

/-- The option `--abi`. -/
def parseAbi (o : Options) (optarg : Bytes) : Driver Parsing := do
  let abi_version := strtol optarg
  if abi_version = 26 ∨ abi_version = 27 then
    return .next { o with abi := .py26 }
  else if abi_version = 34 ∨ abi_version = 35 then
    return .next { o with abi := .py34 }
  else if abi_version = 36 then
    return .next { o with abi := .py36 }
  else
    invoke (.cerr (text "Unknown or unsupported ABI version: " ++ signedDecimal abi_version ++
      text "\n"))
    return .leave { ret := 1, options := o }

section

variable (build : Build) (stod : Bytes → Except Bytes ℚ)

/-- `std::stod`, by the value of the `double`. It throws. -/
def parseDouble (optarg : Bytes) : Driver ℚ :=
  match stod optarg with
  | .ok v => .ret v
  | .error what => .raise (.other what)

/-- The `switch`. -/
def parseOption (o : Options) (r : Reported) : Driver Parsing :=
  match r.c with
  | 'a' => do parseAbi o (← argument r.optarg)
  | 'd' =>
      return .next { o with
        dump := true
        enable_threads := if build.enable_threads then true else o.enable_threads }
  | 'h' =>
      return .leave { ret := 0, options := o, out := [build.version_str ++ text "\n\n", usageStr] }
  | 'L' => return .next { o with enable_threads := true }
  | 'p' => do
      let pid ← parsePid (← argument r.optarg)
      if pid = -1 then
        return .leave { ret := 1, options := { o with pid := pid } }
      else
        return .next { o with pid := pid }
  | 'r' => do
      let sample_rate ← parseDouble stod (← argument r.optarg)
      return .next { o with sample_rate := sample_rate }
  | 's' => do
      let seconds ← parseDouble stod (← argument r.optarg)
      return .next { o with seconds := seconds }
  | 't' => return .finish { o with trace := true, seconds := -1 }
  | 'T' => return .next { o with include_ts := true }
  | 'v' => return .leave { ret := 0, options := o, out := [build.showVersion] }
  | 'x' => return .next { o with include_idle := false }
  | 'o' => do
      let output_file ← argument r.optarg
      return .next { o with output_file := output_file }
  | 'n' => return .next { o with include_line_number := false }
  | '?' => return .next o
  | _ => do
      invoke (.cerr (text "unrecognized command line flag: " ++ r.optarg.getD [] ++ text "\n"))
      .abort

/-- The loop. It ends at `finish_arg_parse`, or returns. -/
def parseLoop (last : Scanner) : List Reported → Options → Driver (Options × Scanner ⊕ Parsed)
  | [], o => return .inl (o, last)
  | r :: reports, o => do
      match ← parseOption build stod o r with
      | .next o => parseLoop last reports o
      | .finish o => return .inl (o, r.scanner)
      | .leave parsed => return .inr parsed

/-- The last lines of `ParseOpts`. -/
def ready (scanner : Scanner) (o : Options) : Parsed :=
  { ret := -1
    options := { o with
      interval := toMicroseconds o.sample_rate
      argv := scanner.argv.drop scanner.optind } }

/-- What follows `finish_arg_parse`. -/
def finishArgParse (scanner : Scanner) (o : Options) : Driver Parsed := do
  if o.trace then
    if o.dump then
      invoke (.cerr (text "Options -t and -d are not mutually compatible.\n"))
      return { ret := 1, options := o }
    else if o.pid ≠ -1 then
      invoke (.cerr (text "Options -t and -p are not mutually compatible.\n"))
      return { ret := 1, options := o }
    else if scanner.optind = scanner.argv.length then
      invoke (.cerr (text "Option -t requires a command to run.\n\n"))
      invoke (.cerr usageStr)
      return { ret := 1, options := o }
    else
      match scanner.argv[scanner.optind]? with
      | none => .abort
      | some trace_target => return ready scanner { o with trace_target := trace_target }
  else if o.pid = -1 then
    if scanner.optind + 1 ≠ scanner.argv.length then
      invoke (.cerr usageStr)
      return { ret := 1, options := o }
    else
      match scanner.argv[scanner.optind]? with
      | none => .abort
      | some pid_str =>
          let pid ← parsePid pid_str
          if pid = -1 then
            invoke (.cerr usageStr)
            return { ret := 1, options := { o with pid := pid } }
          else
            invoke (.cerr (text "WARNING: Specifying a PID to trace without -p is deprecated; " ++
              text "see Pyflame issue #99 for details.\n"))
            return ready scanner { o with pid := pid }
  else
    return ready scanner o

def parseOpts (reports : List Reported) (last : Scanner) : Driver Parsed := do
  match ← parseLoop build stod last reports {} with
  | .inl (o, scanner) => finishArgParse scanner o
  | .inr parsed => return parsed

/-- `main` from its start. -/
def mainFromArgs (std : StdLib) (fuel : ℕ) (reports : List Reported) (last : Scanner) :
    Driver (Printed × ℕ) := do
  let parsed ← parseOpts build stod reports last
  if parsed.ret ≠ -1 then
    return (⟨parsed.out, []⟩, parsed.ret.toNat)
  else
    main std fuel parsed.options.toSettings

end

/-! ### Programs that return -/

/-- A message. -/
def Call.IsMessage (c : Call) : Prop := ∃ line, c = .cerr line

/-- Whatever is replied, the program returns, and what it returns satisfies `P`. All it
does is to print messages. -/
def Delivers {α : Type} (P : α → Prop) (p : Driver α) : Prop :=
  ∀ log : Log calls, (∀ x ∈ log, x.1.IsMessage) →
    wp (Env.logging calls) (fun o log' => (∃ a, o = .ok a ∧ P a) ∧ ∀ x ∈ log', x.1.IsMessage) p log

namespace Delivers

variable {α β : Type} {P : α → Prop}

theorem ret {a : α} (h : P a) : Delivers P (.ret a) := fun _ hlog => ⟨⟨a, rfl, h⟩, hlog⟩

theorem bind_of {Q : β → Prop} {p : Driver β} {f : β → Driver α} (hp : Delivers Q p)
    (hf : ∀ b, Q b → Delivers P (f b)) : Delivers P (p.bind f) := by
  intro log hlog
  refine wp_bind_of (hp log hlog) fun o log' ⟨⟨b, ho, hb⟩, hlog'⟩ => ?_
  subst ho
  exact hf b hb log' hlog'

theorem ite {c : Prop} [Decidable c] {p q : Driver α} (hp : c → Delivers P p)
    (hq : ¬ c → Delivers P q) : Delivers P (if c then p else q) := by
  split_ifs with hc
  · exact hp hc
  · exact hq hc

theorem cerr_bind {line : Bytes} {f : Unit → Driver α} (hf : Delivers P (f ())) :
    Delivers P ((invoke (.cerr line)).bind f) := by
  refine fun log hlog => ⟨trivial, ?_⟩
  rintro _ _ rfl
  apply hf
  intro x hx
  rcases List.mem_append.mp hx with hx | hx
  · exact hlog x hx
  · obtain rfl := List.mem_singleton.mp hx
    exact ⟨line, rfl⟩

/-- So does a run. -/
theorem run {p : Driver α} (hp : Delivers P p) {σ : Type} (h : Handler calls σ) (s : σ) :
    ∃ a s', Interaction.run h p s = (.ok a, s') ∧ P a ∧ ∀ x ∈ trace h p s, x.req.IsMessage := by
  obtain ⟨⟨a, ho, ha⟩, hlog⟩ := wp_logging (hp [] nofun) h s
  refine ⟨a, _, Prod.ext ho rfl, ha, fun x hx => ?_⟩
  exact hlog ⟨x.req, x.rep⟩ (List.mem_map.mpr ⟨x, hx, rfl⟩)

end Delivers

/-! ### The options -/

theorem lettersOf_shortOpts : lettersOf shortOpts.toList =
    [('d', false), ('h', false), ('n', false), ('o', true), ('p', true), ('r', true), ('s', true),
      ('t', false), ('v', false), ('x', false)] := by decide

/-- What the tables say: some options have an argument, the others have none. -/
theorem Reported.Listed.cases {build : Build} {r : Reported} (h : r.Listed build) :
    r.c ∈ ['d', 'h', 'n', 't', 'v', 'x', 'L', 'T', '?'] ∨
      r.c ∈ ['a', 'o', 'p', 'r', 's'] ∧ ∃ optarg, r.optarg = some optarg := by
  have hcodes : ∀ c has_arg, (c, has_arg) ∈ build.codes →
      if has_arg then c ∈ ['a', 'o', 'p', 'r', 's']
      else c ∈ ['d', 'h', 'n', 't', 'v', 'x', 'L', 'T'] := by
    intro c has_arg hmem
    rw [Build.codes, lettersOf_shortOpts, Build.longOpts] at hmem
    cases has_arg <;> cases build.enable_threads <;> simp at hmem ⊢ <;> tauto
  rcases h with h | h
  · exact .inl (by simp [h])
  · have hkind := hcodes _ _ h
    cases hoptarg : r.optarg with
    | none =>
        rw [hoptarg] at hkind
        exact .inl (List.mem_append_left ['?'] hkind)
    | some optarg =>
        rw [hoptarg] at hkind
        exact .inr ⟨hkind, optarg, rfl⟩

/-- What `ParsePid` returns. -/
def pidOf (pid_str : Bytes) : Pid :=
  if strtol pid_str ≤ 0 ∨ 2147483647 < strtol pid_str then -1 else strtol pid_str

theorem pidOf_range {pid_str : Bytes} (h : pidOf pid_str ≠ -1) :
    1 ≤ pidOf pid_str ∧ pidOf pid_str ≤ 2147483647 := by
  unfold pidOf at h ⊢
  split_ifs at h ⊢ with hrange
  · contradiction
  · obtain ⟨hpos, hmax⟩ := not_or.mp hrange
    exact ⟨Int.not_le.mp hpos, Int.not_lt.mp hmax⟩

theorem delivers_parsePid (pid_str : Bytes) : Delivers (· = pidOf pid_str) (parsePid pid_str) :=
  .ite (fun hrange => .cerr_bind (.ret (if_pos hrange).symm)) fun hrange =>
    .ret (if_neg hrange).symm

/-- The argument of the last `-p`. -/
def pidArgument (reports : List Reported) : Option Bytes :=
  (reports.filter fun r => r.c = 'p').getLast?.bind Reported.optarg

theorem pidArgument_concat (reports : List Reported) (r : Reported) :
    pidArgument (reports ++ [r]) = if r.c = 'p' then r.optarg else pidArgument reports := by
  rw [pidArgument, List.filter_append]
  by_cases hp : r.c = 'p'
  · simp [hp]
  · simp [hp, pidArgument]

/-- The members as long as no `-t` has been reported. -/
structure Options.Open (o : Options) (reports : List Reported) : Prop where
  trace : o.trace = false
  trace_target : o.trace_target = []
  pid : o.pid = (pidArgument reports).elim (-1) pidOf
  named : ∀ pid_str, pidArgument reports = some pid_str → pidOf pid_str ≠ -1

/-- Without a `-p` the process is not known, and with one it is. -/
theorem Options.Open.cases {o : Options} {reports : List Reported} (h : o.Open reports) :
    (pidArgument reports = none ∧ o.pid = -1) ∨
      ∃ pid_str, pidArgument reports = some pid_str ∧ o.pid = pidOf pid_str ∧ pidOf pid_str ≠ -1 := by
  have hpid := h.pid
  cases harg : pidArgument reports with
  | none =>
      rw [harg] at hpid
      exact .inl ⟨rfl, hpid⟩
  | some pid_str =>
      rw [harg] at hpid
      exact .inr ⟨pid_str, rfl, hpid, h.named pid_str harg⟩

/-- What an option that is reported after the others does. -/
def Parsing.After (reports : List Reported) (r : Reported) : Parsing → Prop
  | .next o => r.c ≠ 't' ∧ o.Open (reports ++ [r])
  | .finish o => r.c = 't' ∧ o.trace = true ∧ o.seconds = -1
  | .leave parsed => parsed.ret = 0 ∨ parsed.ret = 1

section

variable {build : Build} {stod : Bytes → Except Bytes ℚ} {reports : List Reported} {r : Reported}

/-- The argument is a number where one is wanted. -/
def Reported.Parses (stod : Bytes → Except Bytes ℚ) (r : Reported) : Prop :=
  r.c = 'r' ∨ r.c = 's' → ∀ optarg, r.optarg = some optarg → ∃ v, stod optarg = .ok v

/-- An option other than `-p` leaves the process alone. -/
theorem Options.Open.concat {o o' : Options} (h : o.Open reports) (hp : r.c ≠ 'p')
    (htrace : o'.trace = o.trace) (htarget : o'.trace_target = o.trace_target)
    (hpid : o'.pid = o.pid) : o'.Open (reports ++ [r]) where
  trace := htrace.trans h.trace
  trace_target := htarget.trans h.trace_target
  pid := by rw [pidArgument_concat, if_neg hp, hpid, h.pid]
  named := by
    rw [pidArgument_concat, if_neg hp]
    exact h.named

theorem delivers_parseAbi {o : Options} {optarg : Bytes} (h : o.Open reports) (hc : r.c = 'a') :
    Delivers (Parsing.After reports r) (parseAbi o optarg) := by
  have hne : r.c ≠ 't' ∧ r.c ≠ 'p' := by
    rw [hc]
    decide
  refine .ite (fun _ => ?_) fun _ => .ite (fun _ => ?_) fun _ => .ite (fun _ => ?_) fun _ => ?_
  · exact .ret ⟨hne.1, h.concat hne.2 rfl rfl rfl⟩
  · exact .ret ⟨hne.1, h.concat hne.2 rfl rfl rfl⟩
  · exact .ret ⟨hne.1, h.concat hne.2 rfl rfl rfl⟩
  · exact .cerr_bind (.ret (.inr rfl))

theorem delivers_parseDouble {optarg : Bytes} (h : ∃ v, stod optarg = .ok v) :
    Delivers (fun _ => True) (parseDouble stod optarg) := by
  obtain ⟨v, hv⟩ := h
  rw [parseDouble, hv]
  exact .ret trivial

/-- **One option.** -/
theorem delivers_parseOption {o : Options} (h : o.Open reports) (hlisted : r.Listed build)
    (hparses : r.Parses stod) :
    Delivers (Parsing.After reports r) (parseOption build stod o r) := by
  obtain ⟨c, optarg, scanner⟩ := r
  -- Most of them set a member that says nothing about the mode.
  have hnext : ∀ o' : Options, c ≠ 't' → c ≠ 'p' → o'.trace = o.trace →
      o'.trace_target = o.trace_target → o'.pid = o.pid →
        Delivers (Parsing.After reports ⟨c, optarg, scanner⟩) (.ret (.next o')) :=
    fun o' ht hp htrace htarget hpid => .ret ⟨ht, h.concat hp htrace htarget hpid⟩
  rcases hlisted.cases with hc | ⟨hc, optarg, rfl⟩
  · simp only [List.mem_cons, List.not_mem_nil, or_false] at hc
    rcases hc with rfl | rfl | rfl | rfl | rfl | rfl | rfl | rfl | rfl
    · exact hnext _ (by decide) (by decide) rfl rfl rfl
    · exact .ret (.inl rfl)
    · exact hnext _ (by decide) (by decide) rfl rfl rfl
    · exact .ret ⟨rfl, rfl, rfl⟩
    · exact .ret (.inl rfl)
    · exact hnext _ (by decide) (by decide) rfl rfl rfl
    · exact hnext _ (by decide) (by decide) rfl rfl rfl
    · exact hnext _ (by decide) (by decide) rfl rfl rfl
    · exact hnext _ (by decide) (by decide) rfl rfl rfl
  · simp only [List.mem_cons, List.not_mem_nil, or_false] at hc
    rcases hc with rfl | rfl | rfl | rfl | rfl
    · exact delivers_parseAbi h rfl
    · exact hnext _ (by decide) (by decide) rfl rfl rfl
    · refine (delivers_parsePid optarg).bind_of fun pid hpid => .ite (fun _ => .ret (.inr rfl)) ?_
      refine fun hne => .ret ⟨(by decide : 'p' ≠ 't'), h.trace, h.trace_target, ?_, ?_⟩
      · rw [pidArgument_concat, if_pos rfl]
        exact hpid
      · rw [pidArgument_concat, if_pos rfl]
        rintro _ ⟨⟩
        rwa [← hpid]
    · refine (delivers_parseDouble (hparses (.inl rfl) optarg rfl)).bind_of fun _ _ => ?_
      exact hnext _ (by decide) (by decide) rfl rfl rfl
    · refine (delivers_parseDouble (hparses (.inr rfl) optarg rfl)).bind_of fun _ _ => ?_
      exact hnext _ (by decide) (by decide) rfl rfl rfl

/-- How the loop ends: at a `-t`, with all options looked at, or with a code to return. -/
inductive LoopEnds (reports : List Reported) (last : Scanner) : Options × Scanner ⊕ Parsed → Prop
  | trace {o : Options} {r : Reported} : reports.find? (fun r => r.c = 't') = some r →
      o.trace = true → o.seconds = -1 → LoopEnds reports last (.inl (o, r.scanner))
  | attach {o : Options} : reports.find? (fun r => r.c = 't') = none → o.Open reports →
      LoopEnds reports last (.inl (o, last))
  | leave {parsed : Parsed} : parsed.ret = 0 ∨ parsed.ret = 1 → LoopEnds reports last (.inr parsed)

theorem delivers_parseLoop (last : Scanner) (done todo : List Reported) {o : Options}
    (h : o.Open done) (hdone : done.find? (fun r => r.c = 't') = none)
    (hlisted : ∀ r ∈ todo, r.Listed build) (hparses : ∀ r ∈ todo, r.Parses stod) :
    Delivers (LoopEnds (done ++ todo) last) (parseLoop build stod last todo o) := by
  induction todo generalizing done o with
  | nil =>
      rw [List.append_nil]
      exact .ret (.attach hdone h)
  | cons r todo ih =>
      obtain ⟨hr, htodo⟩ := List.forall_mem_cons.mp hlisted
      obtain ⟨hparse, hparses⟩ := List.forall_mem_cons.mp hparses
      refine (delivers_parseOption h hr hparse).bind_of fun parsing hafter => ?_
      cases parsing with
      | next o =>
          obtain ⟨ht, hopen⟩ := hafter
          have hnone : (done ++ [r]).find? (fun r => r.c = 't') = none := by
            simp [hdone, ht]
          have hloop := ih (done ++ [r]) hopen hnone htodo hparses
          rwa [List.append_assoc] at hloop
      | finish o =>
          obtain ⟨ht, htrace, hseconds⟩ := hafter
          refine .ret (.trace ?_ htrace hseconds)
          simp [hdone, ht]
      | leave parsed => exact .ret (.leave hafter)

/-! ### The modes -/

/-- The members in which a command is traced. -/
structure Options.TraceMode (o : Options) (scanner : Scanner) : Prop where
  trace : o.trace = true
  dump : o.dump = false
  pid : o.pid = -1
  seconds : o.seconds = -1
  optind : scanner.optind < scanner.argv.length
  trace_target : scanner.argv[scanner.optind]? = some o.trace_target

/-- The members in which a process is attached to. -/
structure Options.AttachMode (o : Options) : Prop where
  trace : o.trace = false
  trace_target : o.trace_target = []
  pid : 1 ≤ o.pid ∧ o.pid ≤ 2147483647

theorem Options.AttachMode.pid_ne {o : Options} (h : o.AttachMode) : o.pid ≠ -1 := by
  intro hpid
  have hpos := h.pid.1
  rw [hpid] at hpos
  exact absurd hpos (by decide)

/-- The scan at `finish_arg_parse`. -/
def finalScanner (reports : List Reported) (last : Scanner) : Scanner :=
  ((reports.find? fun r => r.c = 't').map Reported.scanner).getD last

/-- The argument that names the process: that of the last `-p`, or else the positional one. -/
def namedPid (reports : List Reported) (last : Scanner) : Option Bytes :=
  (pidArgument reports).or last.argv[last.optind]?

/-- How `ParseOpts` ends. -/
inductive Parsed.Ends (reports : List Reported) (last : Scanner) (parsed : Parsed) : Prop
  | trace : parsed.ret = -1 → parsed.options.TraceMode (finalScanner reports last) → parsed.Ends reports last
  | attach {pid_str : Bytes} : parsed.ret = -1 → parsed.options.AttachMode →
      namedPid reports last = some pid_str → parsed.options.pid = pidOf pid_str →
        parsed.Ends reports last
  | leave : parsed.ret = 0 ∨ parsed.ret = 1 → parsed.Ends reports last

theorem delivers_finishArgParse {last : Scanner} {o : Options} {scanner : Scanner}
    (h : LoopEnds reports last (.inl (o, scanner)))
    (hoptind : scanner.optind ≤ scanner.argv.length) :
    Delivers (Parsed.Ends reports last) (finishArgParse scanner o) := by
  cases h with
  | @trace o r hfind htrace hseconds =>
      have hscanner : finalScanner reports last = r.scanner := by rw [finalScanner, hfind]; rfl
      rw [finishArgParse, if_pos htrace]
      refine .ite (fun _ => .cerr_bind (.ret (.leave (.inr rfl)))) fun hdump => ?_
      refine .ite (fun _ => .cerr_bind (.ret (.leave (.inr rfl)))) fun hpid => ?_
      refine .ite (fun _ => .cerr_bind (.cerr_bind (.ret (.leave (.inr rfl))))) fun hargc => ?_
      have hlt := Nat.lt_of_le_of_ne hoptind hargc
      rw [List.getElem?_eq_getElem hlt]
      refine .ret (.trace rfl ?_)
      rw [hscanner]
      exact ⟨htrace, Bool.eq_false_iff.mpr hdump, not_not.mp hpid, hseconds, hlt,
        List.getElem?_eq_getElem hlt⟩
  | attach hfind hopen =>
      rw [finishArgParse, if_neg (by rw [hopen.trace]; decide)]
      rcases hopen.cases with ⟨harg, hpid⟩ | ⟨pid_str, harg, hpid, hne⟩
      · -- The positional argument is looked at.
        rw [if_pos hpid]
        refine .ite (fun _ => .cerr_bind (.ret (.leave (.inr rfl)))) fun hargc => ?_
        have hlt : last.optind < last.argv.length := by omega
        rw [List.getElem?_eq_getElem hlt]
        refine (delivers_parsePid _).bind_of fun pid hpidOf => ?_
        refine .ite (fun _ => .cerr_bind (.ret (.leave (.inr rfl)))) fun hne => .cerr_bind ?_
        subst hpidOf
        have hnamed : namedPid reports last = some last.argv[last.optind] := by
          rw [namedPid, harg, Option.none_or, List.getElem?_eq_getElem hlt]
        exact .ret (.attach rfl ⟨hopen.trace, hopen.trace_target, pidOf_range hne⟩ hnamed rfl)
      · have hnamed : namedPid reports last = some pid_str := by
          rw [namedPid, harg, Option.some_or]
        have hrange : 1 ≤ o.pid ∧ o.pid ≤ 2147483647 := by
          rw [hpid]
          exact pidOf_range hne
        rw [if_neg (by rw [hpid]; exact hne)]
        exact .ret (.attach rfl ⟨hopen.trace, hopen.trace_target, hrange⟩ hnamed hpid)

theorem delivers_parseOpts (hlisted : ∀ r ∈ reports, r.Listed build)
    (hparses : ∀ r ∈ reports, r.Parses stod) {last : Scanner}
    (hoptind : ∀ r ∈ reports, r.scanner.optind ≤ r.scanner.argv.length)
    (hlast : last.optind ≤ last.argv.length) :
    Delivers (Parsed.Ends reports last) (parseOpts build stod reports last) := by
  have hopen : Options.Open {} [] := ⟨rfl, rfl, rfl, nofun⟩
  refine (delivers_parseLoop last [] reports hopen rfl hlisted hparses).bind_of fun result hends => ?_
  rw [List.nil_append] at hends
  cases hends with
  | @trace o r hfind htrace hseconds =>
      exact delivers_finishArgParse (.trace hfind htrace hseconds)
        (hoptind r (List.mem_of_find?_eq_some hfind))
  | attach hfind hopen => exact delivers_finishArgParse (.attach hfind hopen) hlast
  | leave hret => exact .ret (.leave hret)

/-- **One of two modes.** Whatever options are reported in whatever order, `ParseOpts`
returns. If it returns -1, either a command is to be traced or a process to be attached to.
Otherwise it returns 0 or 1, which is the exit status of `main`, and all that happens is
that messages are printed. -/
theorem parseOpts_modes (hlisted : ∀ r ∈ reports, r.Listed build)
    (hparses : ∀ r ∈ reports, r.Parses stod) {last : Scanner}
    (hoptind : ∀ r ∈ reports, r.scanner.optind ≤ r.scanner.argv.length)
    (hlast : last.optind ≤ last.argv.length) (std : StdLib) (fuel : ℕ) {σ : Type}
    (h : Handler calls σ) (s : σ) :
    ∃ parsed s', run h (parseOpts build stod reports last) s = (.ok parsed, s') ∧
      (parsed.ret = -1 → Xor (parsed.options.TraceMode (finalScanner reports last))
        parsed.options.AttachMode) ∧
      (parsed.ret ≠ -1 → (parsed.ret = 0 ∨ parsed.ret = 1) ∧
        run h (mainFromArgs build stod std fuel reports last) s =
          (.ok (⟨parsed.out, []⟩, parsed.ret.toNat), s') ∧
        ∀ x ∈ trace h (mainFromArgs build stod std fuel reports last) s, x.req.IsMessage) := by
  obtain ⟨parsed, s', hrun, hends, hmessages⟩ :=
    (delivers_parseOpts hlisted hparses hoptind hlast).run h s
  refine ⟨parsed, s', hrun, fun hret => ?_, fun hret => ?_⟩
  · cases hends with
    | trace _ htrace =>
        refine .inl ⟨htrace, fun hattach => ?_⟩
        exact Bool.false_ne_true (hattach.trace.symm.trans htrace.trace)
    | attach _ hattach =>
        refine .inr ⟨hattach, fun htrace => ?_⟩
        exact Bool.false_ne_true (hattach.trace.symm.trans htrace.trace)
    | leave hleave =>
        rw [hret] at hleave
        exact absurd hleave (by decide)
  · have hmain : mainFromArgs build stod std fuel reports last =
        (parseOpts build stod reports last).bind fun parsed =>
          if parsed.ret ≠ -1 then .ret (⟨parsed.out, []⟩, parsed.ret.toNat)
          else main std fuel parsed.options.toSettings := rfl
    refine ⟨?_, ?_, ?_⟩
    · cases hends with
      | trace hret' => exact absurd hret' hret
      | attach hret' => exact absurd hret' hret
      | leave hleave => exact hleave
    · rw [hmain, run_bind_ok h hrun, if_pos hret, run_ret]
    · intro x hx
      rw [hmain, trace_bind, hrun] at hx
      simp only [if_pos hret, trace, List.append_nil] at hx
      exact hmessages x hx

end

/-- `pyflame -s 5 -t python`. -/
def traceReports : List Reported :=
  let argv := [text "pyflame", text "-s", text "5", text "-t", text "python"]
  [⟨'s', some (text "5"), ⟨argv, 3⟩⟩, ⟨'t', none, ⟨argv, 4⟩⟩]

def plainBuild : Build :=
  { enable_threads := true, version_str := text "pyflame", build_abis := [26, 36] }

/-- `std::stod` on that argument. -/
def plainStod (s : Bytes) : Except Bytes ℚ := if s = text "5" then .ok 5 else .error (text "stod")

theorem parseOpts_modes_traceReports : ∃ parsed s',
    run (answer Call.lost) (parseOpts plainBuild plainStod traceReports ⟨[], 0⟩) () = (.ok parsed, s') ∧
      Xor (parsed.options.TraceMode (finalScanner traceReports ⟨[], 0⟩)) parsed.options.AttachMode := by
  have hlisted : ∀ r ∈ traceReports, r.Listed plainBuild := by
    intro r hr
    simp only [traceReports, List.mem_cons, List.not_mem_nil, or_false] at hr
    rcases hr with rfl | rfl <;> exact .inr (by decide)
  have hparses : ∀ r ∈ traceReports, r.Parses plainStod := by
    intro r hr _ optarg hoptarg
    simp only [traceReports, List.mem_cons, List.not_mem_nil, or_false] at hr
    rcases hr with rfl | rfl
    · obtain rfl := Option.some.inj hoptarg
      exact ⟨5, rfl⟩
    · contradiction
  have hoptind : ∀ r ∈ traceReports, r.scanner.optind ≤ r.scanner.argv.length := by
    intro r hr
    simp only [traceReports, List.mem_cons, List.not_mem_nil, or_false] at hr
    rcases hr with rfl | rfl <;> simp
  have hlast : (⟨[], 0⟩ : Scanner).optind ≤ (⟨[], 0⟩ : Scanner).argv.length := Nat.le_refl 0
  obtain ⟨parsed, s', hrun, hmodes, -⟩ :=
    parseOpts_modes hlisted hparses hoptind hlast plainLib 0 (answer Call.lost) ()
  refine ⟨parsed, s', hrun, hmodes ?_⟩
  have hret : run (answer Call.lost) (parseOpts plainBuild plainStod traceReports ⟨[], 0⟩) () =
      (.ok parsed, s') := hrun
  cases hret
  rfl

end Pyflame
