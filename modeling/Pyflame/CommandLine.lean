import Pyflame.ParseOpts

/-!
What a command line means.

`ParseOpts` works through the options in order and overwrites members as it goes.
Here the members are said at once: each is decided by the last option that is
about it, up to the first `-t`. `ParseOpts` accepts the lines that are described
here, and leaves these members.
-/

namespace Pyflame

open Interaction

/-! ### The options on a line -/

/-- The argument of the last option with this letter. -/
def lastArgument (c : Char) (reports : List Reported) : Option Bytes :=
  (reports.filter fun r => r.c = c).getLast?.bind Reported.optarg

theorem lastArgument_concat (c : Char) (reports : List Reported) (r : Reported) :
    lastArgument c (reports ++ [r]) = if r.c = c then r.optarg else lastArgument c reports := by
  rw [lastArgument, List.filter_append]
  by_cases hc : r.c = c
  · simp [hc]
  · simp [hc, lastArgument]

theorem exists_lastArgument {c : Char} {reports : List Reported} (h : ∃ r ∈ reports, r.c = c) :
    ∃ r ∈ reports, r.c = c ∧ lastArgument c reports = r.optarg := by
  obtain ⟨r, hr, hc⟩ := h
  have hne : (reports.filter fun r => r.c = c) ≠ [] :=
    List.ne_nil_of_mem (List.mem_filter.mpr ⟨hr, decide_eq_true hc⟩)
  have hlast := List.mem_filter.mp (List.getLast_mem hne)
  refine ⟨_, hlast.1, of_decide_eq_true hlast.2, ?_⟩
  rw [lastArgument, List.getLast?_eq_some_getLast hne]
  rfl

theorem lastArgument_eq_none {c : Char} {reports : List Reported} (h : ¬ ∃ r ∈ reports, r.c = c) :
    lastArgument c reports = none := by
  have hnil : (reports.filter fun r => r.c = c) = [] :=
    List.filter_eq_nil_iff.mpr fun r hr hc => h ⟨r, hr, of_decide_eq_true hc⟩
  rw [lastArgument, hnil]
  rfl

/-- The options that are looked at before a `-t`. -/
def optionsOf (reports : List Reported) : List Reported := reports.takeWhile fun r => r.c ≠ 't'

/-- The ABI that a version stands for. -/
def abiOf (optarg : Bytes) : Option PyABI :=
  if strtol optarg = 26 ∨ strtol optarg = 27 then some .py26
  else if strtol optarg = 34 ∨ strtol optarg = 35 then some .py34
  else if strtol optarg = 36 then some .py36
  else none

/-- `ParseOpts` does not return because of the option. -/
structure Reported.Passes (r : Reported) : Prop where
  help : r.c ≠ 'h'
  version : r.c ≠ 'v'
  pid : r.c = 'p' → ∀ pid_str, r.optarg = some pid_str → pidOf pid_str ≠ -1
  abi : r.c = 'a' → ∀ optarg, r.optarg = some optarg → abiOf optarg ≠ none

section

variable (build : Build) (stod : Bytes → Except Bytes ℚ)

/-- The members by the options. -/
def membersOf (reports : List Reported) : Options where
  pid := (lastArgument 'p' reports).elim (-1) pidOf
  abi := ((lastArgument 'a' reports).bind abiOf).getD .unknown
  sample_rate := ((lastArgument 'r' reports).bind fun optarg => (stod optarg).toOption).getD
    (Double.nearest (1 / 100))
  seconds := ((lastArgument 's' reports).bind fun optarg => (stod optarg).toOption).getD 1
  output_file := (lastArgument 'o' reports).getD []
  dump := reports.any fun r => r.c = 'd'
  enable_threads := reports.any fun r => r.c = 'L' ∨ r.c = 'd' ∧ build.enable_threads
  include_ts := reports.any fun r => r.c = 'T'
  include_idle := !reports.any fun r => r.c = 'x'
  include_line_number := !reports.any fun r => r.c = 'n'

/-- The same at `finish_arg_parse`. -/
def chosenBy (reports : List Reported) : Options :=
  if ∃ r ∈ reports, r.c = 't' then
    { membersOf build stod (optionsOf reports) with trace := true, seconds := -1 }
  else
    membersOf build stod reports

/-- What is left for `main`. -/
def commandLine (reports : List Reported) (last : Scanner) : Options :=
  let o := chosenBy build stod reports
  let scanner := finalScanner reports last
  { o with
    pid := if o.trace then -1 else (namedPid reports last).elim (-1) pidOf
    trace_target := if o.trace then scanner.argv[scanner.optind]?.getD [] else []
    interval := toMicroseconds o.sample_rate
    argv := scanner.argv.drop scanner.optind }

end

/-- A line that is accepted. -/
structure AcceptedLine (reports : List Reported) (last : Scanner) : Prop where
  passes : ∀ r ∈ optionsOf reports, r.Passes
  /-- With `-t` there is neither `-d` nor `-p`, and a command follows. -/
  trace : (∃ r ∈ reports, r.c = 't') → (∀ r ∈ optionsOf reports, r.c ≠ 'd' ∧ r.c ≠ 'p') ∧
    (finalScanner reports last).optind < (finalScanner reports last).argv.length
  /-- Without `-t` there is a `-p`, or just one argument besides the options, which is a PID. -/
  attach : (∀ r ∈ reports, r.c ≠ 't' ∧ r.c ≠ 'p') → last.optind + 1 = last.argv.length ∧
    ∀ pid_str, last.argv[last.optind]? = some pid_str → pidOf pid_str ≠ -1

/-! ### One option -/

section

variable {build : Build} {stod : Bytes → Except Bytes ℚ} {done : List Reported} {r : Reported}

/-- What an option that is reported after the others does. -/
def Parsing.Means (build : Build) (stod : Bytes → Except Bytes ℚ) (done : List Reported)
    (r : Reported) : Parsing → Prop
  | .next o => r.c ≠ 't' ∧ r.Passes ∧ o = membersOf build stod (done ++ [r])
  | .finish o => r.c = 't' ∧ o = { membersOf build stod done with trace := true, seconds := -1 }
  | .leave parsed => r.c ≠ 't' ∧ ¬ r.Passes ∧ parsed.ret ≠ -1

/-- An option without an argument that can be wrong. -/
theorem Reported.passes_of_mem (h : r.c ∈ ['d', 'L', 'r', 's', 'T', 'x', 'o', 'n', '?']) :
    r.c ≠ 't' ∧ r.Passes := by
  simp only [List.mem_cons, List.not_mem_nil, or_false] at h
  rcases h with h | h | h | h | h | h | h | h | h <;> rw [h] <;>
    exact ⟨by decide, by simp [h], by simp [h], by simp [h], by simp [h]⟩

theorem delivers_parseAbi_means {optarg : Bytes} {scanner : Scanner} :
    Delivers (Parsing.Means build stod done ⟨'a', some optarg, scanner⟩)
      (parseAbi (membersOf build stod done) optarg) := by
  have hmembers (abi : PyABI) (h : abiOf optarg = some abi) :
      Parsing.Means build stod done ⟨'a', some optarg, scanner⟩
        (.next { membersOf build stod done with abi := abi }) := by
    refine ⟨by simp, ⟨by simp, by simp, by simp, ?_⟩, ?_⟩
    · rintro - _ ⟨⟩
      rw [h]
      simp
    · simp [membersOf, lastArgument_concat, h]
  refine .ite (fun h => .ret (hmembers .py26 (if_pos h))) fun h26 => ?_
  refine .ite (fun h => .ret (hmembers .py34 ?_)) fun h34 => ?_
  · rw [abiOf, if_neg h26, if_pos h]
  refine .ite (fun h => .ret (hmembers .py36 ?_)) fun h36 => .cerr_bind (.ret ?_)
  · rw [abiOf, if_neg h26, if_neg h34, if_pos h]
  · refine ⟨by simp, fun h => h.abi rfl optarg rfl ?_, by simp⟩
    rw [abiOf, if_neg h26, if_neg h34, if_neg h36]

/-- **One option.** -/
theorem delivers_parseOption_means (hlisted : r.Listed build) (hparses : r.c ≠ 't' → r.Parses stod) :
    Delivers (Parsing.Means build stod done r)
      (parseOption build stod (membersOf build stod done) r) := by
  obtain ⟨c, optarg, scanner⟩ := r
  have hnext (hc : c ∈ ['d', 'L', 'r', 's', 'T', 'x', 'o', 'n', '?']) (o : Options)
      (ho : o = membersOf build stod (done ++ [⟨c, optarg, scanner⟩])) :
      Delivers (Parsing.Means build stod done ⟨c, optarg, scanner⟩) (.ret (.next o)) :=
    .ret ⟨(Reported.passes_of_mem hc).1, (Reported.passes_of_mem hc).2, ho⟩
  rcases hlisted.cases with hc | ⟨hc, optarg, rfl⟩
  · simp only [List.mem_cons, List.not_mem_nil, or_false] at hc
    rcases hc with rfl | rfl | rfl | rfl | rfl | rfl | rfl | rfl | rfl
    · refine hnext (by decide) _ ?_
      cases build with | mk threads _ _ => cases threads <;> simp [membersOf, lastArgument_concat]
    · exact .ret ⟨by simp, fun h => h.help rfl, by simp⟩
    · exact hnext (by decide) _ (by simp [membersOf, lastArgument_concat])
    · exact .ret ⟨rfl, rfl⟩
    · exact .ret ⟨by simp, fun h => h.version rfl, by simp⟩
    · exact hnext (by decide) _ (by simp [membersOf, lastArgument_concat])
    · exact hnext (by decide) _ (by simp [membersOf, lastArgument_concat])
    · exact hnext (by decide) _ (by simp [membersOf, lastArgument_concat])
    · exact hnext (by decide) _ (by simp [membersOf, lastArgument_concat])
  · simp only [List.mem_cons, List.not_mem_nil, or_false] at hc
    rcases hc with rfl | rfl | rfl | rfl | rfl
    · exact delivers_parseAbi_means
    · exact hnext (by decide) _ (by simp [membersOf, lastArgument_concat])
    · refine (delivers_parsePid optarg).bind_of ?_
      rintro _ rfl
      refine .ite (fun h => .ret ?_) fun h => .ret ?_
      · exact ⟨by simp, fun hpasses => hpasses.pid rfl optarg rfl h, by simp⟩
      · refine ⟨by simp, ⟨by simp, by simp, ?_, by simp⟩, by simp [membersOf, lastArgument_concat]⟩
        rintro - _ ⟨⟩
        exact h
    · obtain ⟨v, hv⟩ := hparses (by simp) (.inl rfl) optarg rfl
      have hdouble : parseDouble stod optarg = .ret v := by rw [parseDouble, hv]
      show Delivers _ ((parseDouble stod optarg).bind _)
      rw [hdouble]
      exact hnext (by decide) _ (by simp [membersOf, lastArgument_concat, hv, Except.toOption])
    · obtain ⟨v, hv⟩ := hparses (by simp) (.inr rfl) optarg rfl
      have hdouble : parseDouble stod optarg = .ret v := by rw [parseDouble, hv]
      show Delivers _ ((parseDouble stod optarg).bind _)
      rw [hdouble]
      exact hnext (by decide) _ (by simp [membersOf, lastArgument_concat, hv, Except.toOption])

/-! ### The loop -/

theorem optionsOf_append_of_open {todo : List Reported} (hdone : ∀ r ∈ done, r.c ≠ 't') :
    optionsOf (done ++ todo) = done ++ optionsOf todo :=
  List.takeWhile_append_of_pos fun r hr => decide_eq_true (hdone r hr)

/-- How the loop ends. -/
def LoopMeans (build : Build) (stod : Bytes → Except Bytes ℚ) (reports : List Reported)
    (last : Scanner) : Options × Scanner ⊕ Parsed → Prop
  | .inl (o, scanner) => (∀ r ∈ optionsOf reports, r.Passes) ∧ o = chosenBy build stod reports ∧
      scanner = finalScanner reports last
  | .inr parsed => (∃ r ∈ optionsOf reports, ¬ r.Passes) ∧ parsed.ret ≠ -1

theorem delivers_parseLoop_means (last : Scanner) (done todo : List Reported)
    (hdone : ∀ r ∈ done, r.c ≠ 't' ∧ r.Passes) (hlisted : ∀ r ∈ todo, r.Listed build)
    (hparses : ∀ r ∈ optionsOf todo, r.Parses stod) :
    Delivers (LoopMeans build stod (done ++ todo) last)
      (parseLoop build stod last todo (membersOf build stod done)) := by
  have hopen : ∀ r ∈ done, r.c ≠ 't' := fun r hr => (hdone r hr).1
  induction todo generalizing done with
  | nil =>
      rw [List.append_nil]
      have hall : optionsOf done = done := List.takeWhile_eq_self_iff.mpr fun r hr =>
        decide_eq_true (hopen r hr)
      have hnone : ¬ ∃ r ∈ done, r.c = 't' := by
        rintro ⟨r, hr, hc⟩
        exact hopen r hr hc
      refine .ret ⟨?_, ?_, ?_⟩
      · rw [hall]
        exact fun r hr => (hdone r hr).2
      · rw [chosenBy, if_neg hnone]
      · have hfind : done.find? (fun r => r.c = 't') = none :=
          List.find?_eq_none.mpr fun r hr => by simpa using hopen r hr
        rw [finalScanner, hfind]
        rfl
  | cons r todo ih =>
      obtain ⟨hr, htodo⟩ := List.forall_mem_cons.mp hlisted
      have hoptions : r.c ≠ 't' → optionsOf (r :: todo) = r :: optionsOf todo := fun ht =>
        List.takeWhile_cons_of_pos (decide_eq_true ht)
      have hparse : r.c ≠ 't' → r.Parses stod := fun ht =>
        hparses r (by rw [hoptions ht]; exact List.mem_cons_self)
      refine (delivers_parseOption_means hr hparse).bind_of fun parsing hmeans => ?_
      cases parsing with
      | next o =>
          obtain ⟨ht, hpasses, rfl⟩ := hmeans
          have hdone' : ∀ r' ∈ done ++ [r], r'.c ≠ 't' ∧ r'.Passes :=
            List.forall_mem_append.mpr ⟨hdone, List.forall_mem_singleton.mpr ⟨ht, hpasses⟩⟩
          have hloop := ih (done ++ [r]) hdone' htodo
            (fun r' hr' => hparses r' (by rw [hoptions ht]; exact List.mem_cons_of_mem r hr'))
            fun r' hr' => (hdone' r' hr').1
          rwa [List.append_assoc] at hloop
      | finish o =>
          obtain ⟨ht, rfl⟩ := hmeans
          have hall : optionsOf (done ++ r :: todo) = done := by
            rw [optionsOf_append_of_open hopen, optionsOf, List.takeWhile_cons_of_neg (by simp [ht]),
              List.append_nil]
          have htraced : ∃ r' ∈ done ++ r :: todo, r'.c = 't' := ⟨r, by simp, ht⟩
          refine .ret ⟨?_, ?_, ?_⟩
          · rw [hall]
            exact fun r hr => (hdone r hr).2
          · rw [chosenBy, if_pos htraced, hall]
          · have hfind : (done ++ r :: todo).find? (fun r => r.c = 't') = some r := by
              rw [List.find?_append, List.find?_eq_none.mpr fun r hr => by simpa using hopen r hr]
              simp [ht]
            rw [finalScanner, hfind]
            rfl
      | leave parsed =>
          obtain ⟨ht, hpasses, hret⟩ := hmeans
          refine .ret ⟨⟨r, ?_, hpasses⟩, hret⟩
          rw [optionsOf_append_of_open hopen, hoptions ht]
          exact List.mem_append_right done List.mem_cons_self

/-! ### The whole line -/

/-- What `ParseOpts` returns: -1 with these members, or not -1. -/
def Parsed.Means (build : Build) (stod : Bytes → Except Bytes ℚ) (reports : List Reported)
    (last : Scanner) (parsed : Parsed) : Prop :=
  (parsed.ret = -1 ↔ AcceptedLine reports last) ∧
    (parsed.ret = -1 → parsed.options = commandLine build stod reports last)

theorem Parsed.Means.refused {last : Scanner} {reports : List Reported} {parsed : Parsed}
    (hret : parsed.ret ≠ -1) (hline : ¬ AcceptedLine reports last) :
    parsed.Means build stod reports last :=
  ⟨⟨fun h => absurd h hret, fun h => absurd h hline⟩, fun h => absurd h hret⟩

theorem Parsed.Means.accepted {last : Scanner} {reports : List Reported} {parsed : Parsed}
    (hret : parsed.ret = -1) (hline : AcceptedLine reports last)
    (hoptions : parsed.options = commandLine build stod reports last) :
    parsed.Means build stod reports last :=
  ⟨⟨fun _ => hline, fun _ => hret⟩, fun _ => hoptions⟩

variable {last : Scanner} {reports : List Reported}

/-- A PID has been given if and only if there is a `-p`. -/
theorem membersOf_pid (hlisted : ∀ r ∈ reports, r.Listed build) (hpasses : ∀ r ∈ reports, r.Passes) :
    (membersOf build stod reports).pid = -1 ↔ ¬ ∃ r ∈ reports, r.c = 'p' := by
  constructor
  · intro hpid hp
    obtain ⟨r, hr, hc, hlast⟩ := exists_lastArgument hp
    rcases (hlisted r hr).cases with hno | ⟨-, pid_str, hoptarg⟩
    · rw [hc] at hno
      exact absurd hno (by decide)
    · refine (hpasses r hr).pid hc pid_str hoptarg ?_
      rwa [membersOf, hlast, hoptarg] at hpid
  · intro hp
    rw [membersOf, lastArgument_eq_none hp]
    rfl

theorem optionsOf_of_not_traced (h : ¬ ∃ r ∈ reports, r.c = 't') : optionsOf reports = reports :=
  List.takeWhile_eq_self_iff.mpr fun r hr => decide_eq_true fun hc => h ⟨r, hr, hc⟩

/-- With `-t`. -/
theorem delivers_finishArgParse_trace (htraced : ∃ r ∈ reports, r.c = 't')
    (hlisted : ∀ r ∈ reports, r.Listed build) (hpasses : ∀ r ∈ optionsOf reports, r.Passes)
    (hoptind : (finalScanner reports last).optind ≤ (finalScanner reports last).argv.length) :
    Delivers (Parsed.Means build stod reports last)
      (finishArgParse (finalScanner reports last) (chosenBy build stod reports)) := by
  have hchosen : chosenBy build stod reports =
      { membersOf build stod (optionsOf reports) with trace := true, seconds := -1 } := if_pos htraced
  have hpid : (chosenBy build stod reports).pid = -1 ↔ ¬ ∃ r ∈ optionsOf reports, r.c = 'p' := by
    rw [hchosen]
    show (membersOf build stod (optionsOf reports)).pid = -1 ↔ _
    exact membersOf_pid (fun r hr => hlisted r (List.takeWhile_subset _ hr)) hpasses
  have hdump : (chosenBy build stod reports).dump = true ↔ ∃ r ∈ optionsOf reports, r.c = 'd' := by
    rw [hchosen]
    simp [membersOf]
  have htrace : (chosenBy build stod reports).trace = true := by rw [hchosen]
  rw [finishArgParse, if_pos htrace]
  refine .ite (fun hd => .cerr_bind (.ret (.refused (by simp) fun hline => ?_))) fun hd => ?_
  · obtain ⟨r, hr, hc⟩ := hdump.mp hd
    exact ((hline.trace htraced).1 r hr).1 hc
  refine .ite (fun hp => .cerr_bind (.ret (.refused (by simp) fun hline => ?_))) fun hp => ?_
  · refine hp (hpid.mpr ?_)
    rintro ⟨r, hr, hc⟩
    exact ((hline.trace htraced).1 r hr).2 hc
  refine .ite (fun hargc => .cerr_bind (.cerr_bind (.ret (.refused (by simp) fun hline => ?_))))
    fun hargc => ?_
  · exact absurd hargc (hline.trace htraced).2.ne
  have hlt := Nat.lt_of_le_of_ne hoptind hargc
  rw [List.getElem?_eq_getElem hlt]
  refine .ret (.accepted rfl ⟨hpasses, fun _ => ⟨fun r hr => ⟨fun hc => ?_, fun hc => ?_⟩, hlt⟩, ?_⟩ ?_)
  · exact hd (hdump.mpr ⟨r, hr, hc⟩)
  · exact hpid.mp (not_not.mp hp) ⟨r, hr, hc⟩
  · intro hno
    obtain ⟨r, hr, hc⟩ := htraced
    exact absurd hc (hno r hr).1
  · have hminus := not_not.mp hp
    simp only [ready, commandLine, htrace, if_true, List.getElem?_eq_getElem hlt, Option.getD_some]
    rw [← hminus]

/-- Without. -/
theorem delivers_finishArgParse_attach (htraced : ¬ ∃ r ∈ reports, r.c = 't')
    (hlisted : ∀ r ∈ reports, r.Listed build) (hpasses : ∀ r ∈ optionsOf reports, r.Passes) :
    Delivers (Parsed.Means build stod reports last)
      (finishArgParse (finalScanner reports last) (chosenBy build stod reports)) := by
  have hscanner : finalScanner reports last = last := by
    have hfind : reports.find? (fun r => r.c = 't') = none :=
      List.find?_eq_none.mpr fun r hr hc => htraced ⟨r, hr, of_decide_eq_true hc⟩
    rw [finalScanner, hfind]
    rfl
  have hchosen : chosenBy build stod reports = membersOf build stod reports := if_neg htraced
  have hgiven : (membersOf build stod reports).pid = -1 ↔ ¬ ∃ r ∈ reports, r.c = 'p' :=
    membersOf_pid hlisted (optionsOf_of_not_traced htraced ▸ hpasses)
  have htrace : (membersOf build stod reports).trace = false := rfl
  have hmembers (pid : Pid) (h : (namedPid reports last).elim (-1) pidOf = pid) :
      (ready last { membersOf build stod reports with pid := pid }).options =
        commandLine build stod reports last := by
    simp only [ready, commandLine, hchosen, hscanner, htrace, Bool.false_eq_true, if_false, h]
    rfl
  rw [hscanner, hchosen, finishArgParse, if_neg (by rw [htrace]; decide)]
  refine .ite (fun hp => ?_) fun hp => ?_
  · -- The positional argument is looked at.
    have hno : ∀ r ∈ reports, r.c ≠ 't' ∧ r.c ≠ 'p' := fun r hr =>
      ⟨fun hc => htraced ⟨r, hr, hc⟩, fun hc => hgiven.mp hp ⟨r, hr, hc⟩⟩
    have hnamed : namedPid reports last = last.argv[last.optind]? := by
      have hnone : pidArgument reports = none := lastArgument_eq_none (hgiven.mp hp)
      rw [namedPid, hnone, Option.none_or]
    refine .ite (fun hargc => .cerr_bind (.ret (.refused (by simp) fun hline => ?_))) fun hargc => ?_
    · exact hargc (hline.attach hno).1
    have hone := not_not.mp hargc
    have hlt : last.optind < last.argv.length := by omega
    rw [List.getElem?_eq_getElem hlt] at hnamed ⊢
    refine (delivers_parsePid _).bind_of ?_
    rintro _ rfl
    refine .ite (fun hbad => .cerr_bind (.ret (.refused (by simp) fun hline => ?_))) fun hgood => ?_
    · exact (hline.attach hno).2 _ (List.getElem?_eq_getElem hlt) hbad
    refine .cerr_bind (.ret (.accepted rfl ⟨hpasses, fun h => absurd h htraced, fun _ => ?_⟩ ?_))
    · refine ⟨hone, fun pid_str h => ?_⟩
      rw [List.getElem?_eq_getElem hlt] at h
      exact Option.some.inj h ▸ hgood
    · exact hmembers _ (by rw [hnamed]; rfl)
  · obtain ⟨r, hr, hc⟩ := not_not.mp fun h => hp (hgiven.mpr h)
    refine .ret (.accepted rfl ⟨hpasses, fun h => absurd h htraced, fun h => ?_⟩ ?_)
    · exact absurd hc (h r hr).2
    · have harg : lastArgument 'p' reports ≠ none := fun h => hp (by rw [membersOf, h]; rfl)
      obtain ⟨pid_str, hpid⟩ := Option.ne_none_iff_exists'.mp harg
      refine hmembers _ ?_
      rw [namedPid, show pidArgument reports = some pid_str from hpid, Option.some_or, hpid]

/-- **What a command line means.** Whatever options are reported in whatever order, `ParseOpts`
returns -1 exactly if the line is one that is accepted. Then each member is what the last option
about it says, and `main` goes on with these. -/
theorem parseOpts_means (hlisted : ∀ r ∈ reports, r.Listed build)
    (hparses : ∀ r ∈ optionsOf reports, r.Parses stod)
    (hoptind : ∀ r ∈ reports, r.scanner.optind ≤ r.scanner.argv.length)
    (hlast : last.optind ≤ last.argv.length) (std : StdLib) (fuel : ℕ) {σ : Type}
    (h : Handler calls σ) (s : σ) :
    ∃ parsed s', run h (parseOpts build stod reports last) s = (.ok parsed, s') ∧
      (parsed.ret = -1 ↔ AcceptedLine reports last) ∧
      (AcceptedLine reports last → parsed.options = commandLine build stod reports last ∧
        run h (mainFromArgs build stod std fuel reports last) s =
          run h (main std fuel (commandLine build stod reports last).toSettings) s') := by
  have hfinal : (finalScanner reports last).optind ≤ (finalScanner reports last).argv.length := by
    rw [finalScanner]
    cases hfind : reports.find? fun r => r.c = 't' with
    | none => exact hlast
    | some r => exact hoptind r (List.mem_of_find?_eq_some hfind)
  have hloop : Delivers (LoopMeans build stod reports last)
      (parseLoop build stod last reports (membersOf build stod [])) :=
    delivers_parseLoop_means last [] reports (by simp) hlisted hparses
  have hparse :
      Delivers (Parsed.Means build stod reports last) (parseOpts build stod reports last) := by
    refine hloop.bind_of fun result hmeans => ?_
    cases result with
    | inl result =>
        obtain ⟨o, scanner⟩ := result
        obtain ⟨hpasses, rfl, rfl⟩ := hmeans
        by_cases htraced : ∃ r ∈ reports, r.c = 't'
        · exact delivers_finishArgParse_trace htraced hlisted hpasses hfinal
        · exact delivers_finishArgParse_attach htraced hlisted hpasses
    | inr parsed =>
        obtain ⟨⟨r, hr, hno⟩, hret⟩ := hmeans
        exact .ret (.refused hret fun hline => hno (hline.passes r hr))
  obtain ⟨parsed, s', hrun, ⟨hret, hoptions⟩, -⟩ := hparse.run h s
  refine ⟨parsed, s', hrun, hret, fun hline => ⟨hoptions (hret.mpr hline), ?_⟩⟩
  rw [mainFromArgs, Prog.bind_eq, run_bind_ok h hrun, if_neg (not_not.mpr (hret.mpr hline)),
    hoptions (hret.mpr hline)]

end

/-- `pyflame -s 5 -p 7 -d -x -p 8`. -/
def repeatedReports : List Reported :=
  [⟨'s', some (text "5"), ⟨[], 0⟩⟩, ⟨'p', some (text "7"), ⟨[], 0⟩⟩, ⟨'d', none, ⟨[], 0⟩⟩,
    ⟨'x', none, ⟨[], 0⟩⟩, ⟨'p', some (text "8"), ⟨[], 0⟩⟩]

theorem parseOpts_means_repeatedReports : ∃ parsed s',
    run (answer Call.lost) (parseOpts plainBuild plainStod repeatedReports ⟨[text "pyflame"], 1⟩) () =
      (.ok parsed, s') ∧
      parsed.options.pid = 8 ∧ parsed.options.seconds = 5 ∧ parsed.options.dump = true ∧
      parsed.options.include_idle = false ∧ parsed.options.interval = 10000 := by
  have hlisted : ∀ r ∈ repeatedReports, r.Listed plainBuild := by
    intro r hr
    simp only [repeatedReports, List.mem_cons, List.not_mem_nil, or_false] at hr
    rcases hr with rfl | rfl | rfl | rfl | rfl <;> exact .inr (by decide)
  have hparses : ∀ r ∈ optionsOf repeatedReports, r.Parses plainStod := by
    intro r hr hc optarg hoptarg
    have hmem := List.takeWhile_subset _ hr
    simp only [repeatedReports, List.mem_cons, List.not_mem_nil, or_false] at hmem
    rcases hmem with rfl | rfl | rfl | rfl | rfl
    · obtain rfl := Option.some.inj hoptarg
      exact ⟨5, rfl⟩
    all_goals exact absurd hc (by decide)
  have hoptind : ∀ r ∈ repeatedReports, r.scanner.optind ≤ r.scanner.argv.length := by
    intro r hr
    simp only [repeatedReports, List.mem_cons, List.not_mem_nil, or_false] at hr
    rcases hr with rfl | rfl | rfl | rfl | rfl <;> exact Nat.le_refl 0
  have hlast : (⟨[text "pyflame"], 1⟩ : Scanner).optind ≤ [text "pyflame"].length := Nat.le_refl 1
  obtain ⟨parsed, s', hrun, hret, hline⟩ :=
    parseOpts_means hlisted hparses hoptind hlast plainLib 0 (answer Call.lost) ()
  refine ⟨parsed, s', hrun, ?_⟩
  have hminus : parsed.ret = -1 := by
    cases hrun
    rfl
  rw [(hline (hret.mp hminus)).1]
  exact ⟨rfl, rfl, rfl, rfl, by decide +kernel⟩

end Pyflame
