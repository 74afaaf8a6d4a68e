import Pyflame.Profile

/-!
Taking a profile apart again.

What `flame-chart-json` prints is meant for a viewer, which shows each sample as
the stack of the node it names, found by going up from child to parent, at the
time that the deltas before it add up to. The viewer is not part of the repository;
`decode` is what it does, with the idle samples between the others left out.
-/

namespace Pyflame

/-- The node of an identifier. -/
def findNode (nodes : List Node) (id : ℕ) : Option Node := nodes.find? (·.id = id)

/-- The node that has it for a child. -/
def findParent (nodes : List Node) (id : ℕ) : Option Node :=
  nodes.find? fun node => id ∈ node.children.getD []

namespace FCJson

/-- The names on the way up from a node, in front of those below it. The root and idle nodes,
which come first, are not frames. The number bounds the way. -/
def pathTo (prof : FCJson) : ℕ → ℕ → List Bytes → Option (List Bytes)
  | 0, _, _ => none
  | n + 1, id, below => do
      let node ← findNode prof.nodes id
      match findParent (prof.nodes.drop 2) id with
      | some parent => pathTo prof n parent.id (node.functionName :: below)
      | none => return node.functionName :: below

/-- The samples from a time on, each followed by an idle one. -/
def decodeFrom (prof : FCJson) (time : ℤ) : List ℕ → List ℤ → Option (List (ℤ × List Bytes))
  | id :: _ :: samples, delta :: rest :: deltas => do
      let frames ← prof.pathTo prof.nodes.length id []
      let chart ← decodeFrom prof (time + delta + rest) samples deltas
      return (time + delta, frames) :: chart
  | [], [] => some []
  | _, _ => none

def decode (prof : FCJson) : Option (List (ℤ × List Bytes)) :=
  prof.decodeFrom 0 prof.samples prof.timeDeltas

/-! ### Going up -/

section

variable {prof : FCJson} {callstacks : List (List Bytes)} {id : ℕ}

/-- The only child of a node of a stack is the node after it. -/
theorem child_of_mem_spine {frames : List Bytes} {node : Node} (h : node ∈ spine id frames) :
    node.children = none ∨ node.children = some [node.id + 1] := by
  induction frames generalizing id with
  | nil => contradiction
  | cons frame frames ih =>
      cases frames with
      | nil =>
          obtain rfl := List.mem_singleton.mp h
          exact .inl rfl
      | cons frame' frames =>
          rcases List.mem_cons.mp h with rfl | h
          · exact .inr rfl
          · exact ih h

theorem child_of_mem_spines {node : Node} (h : node ∈ spines id callstacks) :
    node.children = none ∨ node.children = some [node.id + 1] := by
  induction callstacks generalizing id with
  | nil => contradiction
  | cons frames callstacks ih =>
      rcases List.mem_append.mp h with h | h
      · exact child_of_mem_spine h
      · exact ih h

/-- No node of a stack has the head of a chain for a child. -/
theorem head_not_child {head : ℕ} (hhead : head ∈ heads (chainsOf id callstacks)) {node : Node}
    (h : node ∈ spines id callstacks) {children : List ℕ} (hchildren : node.children = some children) :
    head ∉ children := by
  induction callstacks generalizing id with
  | nil => contradiction
  | cons frames callstacks ih =>
      have hheads : ∀ head ∈ heads (chainsOf (id + frames.length) callstacks),
          id + frames.length ≤ head := by
        intro head hhead
        have hmem := heads_subset _ hhead
        rw [flatten_chainsOf] at hmem
        exact (List.mem_range'_1.mp hmem).1
      have hfirst : head = id ∨ head ∈ heads (chainsOf (id + frames.length) callstacks) := by
        cases frames with
        | nil => exact .inr hhead
        | cons frame frames =>
            rw [chainsOf, heads, List.length_cons, List.range'_succ] at hhead
            exact List.mem_cons.mp hhead
      intro hmem
      rcases List.mem_append.mp h with h | h
      · have hchild := child_mem_spine h hchildren head hmem
        have hid : node.id ∈ List.range' id frames.length := by
          rw [← map_id_spine]
          exact List.mem_map_of_mem h
        have hnext := (child_of_mem_spine h).resolve_left (by simp [hchildren])
        obtain rfl := Option.some.inj (hchildren.symm.trans hnext)
        obtain rfl := List.mem_singleton.mp hmem
        have := List.mem_range'_1.mp hid
        have := List.mem_range'_1.mp hchild
        rcases hfirst with hfirst | hfirst
        · omega
        · have := hheads _ hfirst
          omega
      · rcases hfirst with rfl | hfirst
        · have hchild := child_mem_spines h hchildren head hmem
          have hid : node.id ∈ List.range' (head + frames.length) (total callstacks) := by
            rw [← map_id_spines]
            exact List.mem_map_of_mem h
          have hnext := (child_of_mem_spines h).resolve_left (by simp [hchildren])
          obtain rfl := Option.some.inj (hchildren.symm.trans hnext)
          have := List.mem_singleton.mp hmem
          have := List.mem_range'_1.mp hid
          omega
        · exact ih hfirst h hmem

theorem findNode_eq {nodes : List Node} (hids : (nodes.map Node.id).Nodup) {node : Node}
    (h : node ∈ nodes) : findNode nodes node.id = some node := by
  induction nodes with
  | nil => contradiction
  | cons first nodes ih =>
      obtain ⟨hfirst, hrest⟩ := List.nodup_cons.mp hids
      rcases List.mem_cons.mp h with rfl | h
      · simp [findNode]
      · have hne : first.id ≠ node.id := fun heq => hfirst (heq ▸ List.mem_map_of_mem h)
        rw [findNode, List.find?_cons_of_neg (by simpa using hne)]
        exact ih hrest h

/-- Where each node has at most the next for its child, a parent is the node before. -/
theorem findParent_eq {nodes : List Node} (hids : (nodes.map Node.id).Nodup)
    (hchild : ∀ node ∈ nodes, node.children = none ∨ node.children = some [node.id + 1]) {node : Node}
    (h : node ∈ nodes) {child : ℕ} (hnode : node.children = some [child]) :
    findParent nodes child = some node := by
  have hparent {other : Node} (hother : other ∈ nodes) (hmem : child ∈ other.children.getD []) :
      other.id + 1 = child := by
    rcases hchild other hother with hnone | hsome
    · simp [hnone] at hmem
    · simpa [hsome, eq_comm] using hmem
  have hnext : node.id + 1 = child := hparent h (by simp [hnode])
  cases hfind : findParent nodes child with
  | none =>
      have hnot := List.find?_eq_none.mp hfind node h
      simp [hnode] at hnot
  | some other =>
      have hother := List.mem_of_find?_eq_some hfind
      have hmem : child ∈ other.children.getD [] := by simpa using List.find?_some hfind
      have hid : other.id = node.id := by
        have := hparent hother hmem
        omega
      have hsame := (findNode_eq hids hother).symm.trans (hid ▸ findNode_eq hids h)
      exact hsame

/-- What the way up needs to know of the nodes. -/
structure Linked (prof : FCJson) : Prop where
  ids : (prof.nodes.map Node.id).Nodup
  child : ∀ node ∈ prof.nodes.drop 2, node.children = none ∨ node.children = some [node.id + 1]

theorem Linked.ids_drop (h : prof.Linked) : ((prof.nodes.drop 2).map Node.id).Nodup :=
  h.ids.sublist ((List.drop_sublist 2 prof.nodes).map Node.id)

/-- From the last node of a chain to its first. -/
theorem pathTo_chain (h : prof.Linked) {ids : List ℕ} {names : List Bytes}
    (hchain : NodeChain (prof.nodes.drop 2) ids names) :
    ∃ first name rest, ids.head? = some first ∧ names = name :: rest ∧
      (∃ node ∈ prof.nodes.drop 2, node.id = first ∧ node.functionName = name) ∧
      ∃ last, ids.getLast? = some last ∧ ∀ n below,
        prof.pathTo (n + (ids.length - 1)) last below = prof.pathTo n first (rest ++ below) := by
  induction hchain with
  | @last node hmem hchildren =>
      exact ⟨node.id, node.functionName, [], rfl, rfl, ⟨node, hmem, rfl, rfl⟩, node.id, rfl,
        fun n below => rfl⟩
  | @link node id ids names hmem hchildren hrest ih =>
      obtain ⟨first, name, rest, hfirst, rfl, ⟨next, hnext, rfl, rfl⟩, last, hlast, hpath⟩ := ih
      obtain rfl : id = next.id := Option.some.inj hfirst
      refine ⟨node.id, node.functionName, _, rfl, rfl, ⟨node, hmem, rfl, rfl⟩, last, ?_,
        fun n below => ?_⟩
      · rw [List.getLast?_cons_cons, hlast]
      · have hlen : n + ((node.id :: next.id :: ids).length - 1) =
            (n + 1) + ((next.id :: ids).length - 1) := by
          simp only [List.length_cons]
          omega
        have hfind := findNode_eq h.ids ((List.drop_sublist 2 prof.nodes).subset hnext)
        have hparent := findParent_eq h.ids_drop h.child hmem hchildren
        rw [hlen, hpath, pathTo, hfind]
        simp [hparent]

/-- The names on the way up from the node that was sampled are those of the whole chain. -/
theorem pathTo_last (h : prof.Linked) {ids : List ℕ} {names : List Bytes}
    (hchain : NodeChain (prof.nodes.drop 2) ids names)
    (hhead : ∀ first ∈ ids.head?, findParent (prof.nodes.drop 2) first = none)
    {n : ℕ} (hn : ids.length ≤ n) {last : ℕ} (hlast : ids.getLast? = some last) :
    prof.pathTo n last [] = some names := by
  obtain ⟨first, name, rest, hfirst, rfl, ⟨node, hnode, rfl, rfl⟩, last', hlast', hpath⟩ :=
    pathTo_chain h hchain
  obtain rfl : last' = last := Option.some.inj (hlast'.symm.trans hlast)
  have hpos : 0 < ids.length := List.length_pos_iff.mpr fun hnil => by simp [hnil] at hfirst
  have hlen : n = (n - ids.length + 1) + (ids.length - 1) := by omega
  have hfind := findNode_eq h.ids ((List.drop_sublist 2 prof.nodes).subset hnode)
  rw [hlen, hpath, pathTo, hfind]
  simp [hhead _ hfirst]

/-! ### The samples -/

theorem Holds.drop_nodes (h : prof.Holds callstacks) : prof.nodes.drop 2 = spines 3 callstacks := by
  rw [h.nodes]
  rfl

theorem Holds.length_nodes (h : prof.Holds callstacks) : prof.nodes.length = total callstacks + 2 := by
  have hlen := congrArg List.length (map_id_spines 3 callstacks)
  rw [List.length_map, List.length_range'] at hlen
  rw [h.nodes, List.length_cons, List.length_cons, hlen]

theorem Holds.linked (h : prof.Holds callstacks) : prof.Linked where
  ids := by
    have hids : prof.nodes.map Node.id = List.range' 1 (total callstacks + 2) := by
      rw [h.nodes, List.map_cons, List.map_cons, map_id_spines]
      rfl
    rw [hids]
    exact List.nodup_range'
  child node hnode := by
    rw [h.drop_nodes] at hnode
    exact child_of_mem_spines hnode

theorem Holds.findParent_head (h : prof.Holds callstacks) {head : ℕ}
    (hhead : head ∈ heads (chainsOf 3 callstacks)) : findParent (prof.nodes.drop 2) head = none := by
  refine List.find?_eq_none.mpr fun node hnode => ?_
  rw [h.drop_nodes] at hnode
  cases hchildren : node.children with
  | none => simp
  | some children => simpa using head_not_child hhead hnode hchildren

/-- The last node of a chain is that of a stack. -/
def Shows (prof : FCJson) (chain : List ℕ) (frames : List Bytes) : Prop :=
  ∃ last, chain.getLast? = some last ∧ prof.pathTo prof.nodes.length last [] = some frames

theorem Holds.shows (h : prof.Holds callstacks) (hframes : ∀ frames ∈ callstacks, frames ≠ []) :
    List.Forall₂ prof.Shows (chainsOf 3 callstacks) callstacks := by
  have hchains := nodeChain_spines 3 hframes
  have hmem : ∀ chain ∈ chainsOf 3 callstacks, chain.length ≤ prof.nodes.length ∧
      ∀ first ∈ chain.head?, first ∈ heads (chainsOf 3 callstacks) := by
    intro chain hchain
    constructor
    · have hlen := (List.sublist_flatten_of_mem hchain).length_le
      rw [flatten_chainsOf, List.length_range'] at hlen
      rw [h.length_nodes]
      omega
    · exact fun first hfirst => List.mem_filterMap.mpr ⟨chain, hchain, hfirst⟩
  rw [← h.drop_nodes] at hchains
  refine ((List.forall₂_and_left _ _).mpr ⟨hmem, hchains⟩).imp fun chain frames hchain => ?_
  obtain ⟨⟨hlen, hheads⟩, hchain⟩ := hchain
  have hhead : ∀ first ∈ chain.head?, findParent (prof.nodes.drop 2) first = none :=
    fun first hfirst => h.findParent_head (hheads first hfirst)
  obtain ⟨-, -, -, -, -, -, last, hlast, -⟩ := pathTo_chain h.linked hchain
  exact ⟨last, hlast, pathTo_last h.linked hchain hhead hlen hlast⟩

/-- After the first sample, what has passed since it is what the deltas add up to. -/
theorem decodeFrom_samples {α : Type} (ts : α → ℤ) (frames : α → List Bytes) {chains : List (List ℕ)}
    {records : List α} (h : List.Forall₂ (fun chain x => prof.Shows chain (frames x)) chains records)
    (hts : ∀ x ∈ records, ts x ≠ 0) {prev : ℤ} (hprev : prev ≠ 0) (start : ℤ) :
    prof.decodeFrom (prev - start + 1000) (chains.flatMap fun chain => chain.getLast?.toList ++ [2])
        (deltasFrom prev (records.map ts)) =
      some (records.map fun x => (ts x - start, frames x)) := by
  induction h generalizing prev with
  | nil => rfl
  | @cons chain x chains records hshows _ ih =>
      obtain ⟨last, hlast, hpath⟩ := hshows
      obtain ⟨hx, hrecords⟩ := List.forall_mem_cons.mp hts
      have htime : prev - start + 1000 + (ts x - prev - 1000) = ts x - start := by omega
      have hrest := ih hrecords hx
      simp only [List.flatMap_cons, hlast, Option.toList_some, List.cons_append, List.nil_append,
        List.map_cons, deltasFrom, if_pos hprev, decodeFrom, hpath, htime, hrest]
      rfl

/-- The stacks of records, each at the time since the first. -/
theorem Holds.decode {α : Type} {ts : α → ℤ} {frames : α → List Bytes} {records : List α}
    (h : prof.Holds (records.map frames)) (hdeltas : prof.timeDeltas = deltasFrom 0 (records.map ts))
    (hframes : ∀ x ∈ records, frames x ≠ []) (hts : ∀ x ∈ records, ts x ≠ 0) :
    prof.decode = some (records.map fun x => (ts x - (records.head?.map ts).getD 0, frames x)) := by
  have hshows := h.shows (List.forall_mem_map.mpr hframes)
  rw [List.forall₂_map_right_iff] at hshows
  rw [FCJson.decode, h.samples, hdeltas]
  cases records with
  | nil => rfl
  | cons x records =>
      obtain ⟨hx, hrecords⟩ := List.forall_mem_cons.mp hts
      rw [List.map_cons, chainsOf] at hshows ⊢
      obtain ⟨⟨last, hlast, hpath⟩, hshows⟩ := List.forall₂_cons.mp hshows
      -- The first delta is 0.
      have hrest := decodeFrom_samples ts frames hshows hrecords hx (ts x)
      rw [Int.sub_self, Int.zero_add] at hrest
      simp only [List.flatMap_cons, hlast, Option.toList_some, List.cons_append, List.nil_append,
        List.map_cons, deltasFrom, ne_eq, not_true_eq_false, if_false, decodeFrom, hpath,
        Int.zero_add, hrest, List.head?_cons, Option.map_some, Option.getD_some, Int.sub_self]
      rfl

/-! ### Whatever the profile is -/

/-- The names that are found are those of nodes. -/
theorem names_of_pathTo {n id : ℕ} {below path : List Bytes} (h : prof.pathTo n id below = some path) :
    ∀ name ∈ path, name ∈ below ∨ name ∈ prof.nodes.map Node.functionName := by
  induction n generalizing id below with
  | zero => contradiction
  | succ n ih =>
      obtain ⟨node, hfind, hpath⟩ := Option.bind_eq_some_iff.mp h
      have hnode : node.functionName ∈ prof.nodes.map Node.functionName :=
        List.mem_map_of_mem (List.mem_of_find?_eq_some hfind)
      have hcons : ∀ name ∈ node.functionName :: below,
          name ∈ below ∨ name ∈ prof.nodes.map Node.functionName :=
        List.forall_mem_cons.mpr ⟨.inr hnode, fun name hname => .inl hname⟩
      cases hparent : findParent (prof.nodes.drop 2) id with
      | none =>
          simp only [hparent] at hpath
          obtain rfl := Option.some.inj hpath
          exact hcons
      | some parent =>
          simp only [hparent] at hpath
          intro name hname
          rcases ih hpath name hname with hname | hname
          · exact hcons name hname
          · exact .inr hname

theorem names_of_decode {chart : List (ℤ × List Bytes)} (h : prof.decode = some chart) :
    ∀ x ∈ chart, ∀ name ∈ x.2, name ∈ prof.nodes.map Node.functionName := by
  have hfrom : ∀ (samples : List ℕ) (deltas : List ℤ) (time : ℤ) {chart : List (ℤ × List Bytes)},
      prof.decodeFrom time samples deltas = some chart →
        ∀ x ∈ chart, ∀ name ∈ x.2, name ∈ prof.nodes.map Node.functionName := by
    intro samples deltas time
    induction time, samples, deltas using decodeFrom.induct with
    | case1 time id idle samples delta rest deltas ih =>
        intro chart h
        obtain ⟨frames, hframes, h⟩ := Option.bind_eq_some_iff.mp h
        obtain ⟨chart', hchart, h⟩ := Option.bind_eq_some_iff.mp h
        obtain rfl := Option.some.inj h
        refine List.forall_mem_cons.mpr ⟨fun name hname => ?_, ih hchart⟩
        exact (names_of_pathTo hframes name hname).resolve_left List.not_mem_nil
    | case2 time =>
        intro chart h
        obtain rfl := Option.some.inj h
        exact fun x hx => absurd hx List.not_mem_nil
    | case3 time samples deltas hpair hnil =>
        intro chart h
        rw [decodeFrom] at h
        · contradiction
        · exact hpair
        · exact hnil
  exact hfrom _ _ _ h

end

end FCJson

/-- No name of a node has a separator in it. -/
theorem plain_of_flameChartJson {input : Bytes} {prof : FCJson} (h : flameChartJson input = some prof) :
    ∀ name ∈ prof.nodes.map Node.functionName, ∀ b ∈ name, b ≠ semicolon ∧ b ≠ newline := by
  obtain ⟨endTime, hprof⟩ := flameChartJson_eq input
  obtain ⟨r, hrun, -⟩ := Option.map_eq_some_iff.mp (hprof.symm.trans h)
  have hread : readFlameChart input = some (r.nodes.map fun x => (x.1, stackNodes x.2)) := by
    rw [readFlameChart, hrun]
    rfl
  obtain ⟨prof', hprof', hnames, -⟩ := flameChartJson_nodes hread
  obtain rfl := Option.some.inj (hprof'.symm.trans h)
  rw [hnames]
  refine List.forall_mem_cons.mpr ⟨by decide, ?_⟩
  refine List.forall_mem_cons.mpr ⟨by decide, fun name hname => ?_⟩
  obtain ⟨x, hx, hname⟩ := List.mem_flatMap.mp hname
  exact plain_of_read hread x hx name hname

/-! ### From stacks to a profile and back -/

section

variable {print_frame : Frame → Bytes} {frames : Frames}

theorem exists_not_space (hp : PrintsFile print_frame) (frame : Frame) :
    ∃ b ∈ print_frame frame, isSpace b = false := by
  obtain ⟨rest, hprint, -⟩ := hp frame
  exact ⟨58, by simp [hprint], by decide⟩

/-- However the outermost frame starts, the parts of the line of a plain stack are its nodes. -/
theorem splits_stackRecord (hp : PrintsFile print_frame) (hplain : frames.Plain) :
    FCJson.Splits (splitStack (stackRecord print_frame frames))
        (stackNodes (stackRecord print_frame frames)) ∧
      stackNodes (stackRecord print_frame frames) ≠ [] := by
  by_cases hmarker : frames = [] ∨ frames.IsFailure
  · obtain ⟨-, -, -, hnodes⟩ := record_of_marker print_frame hmarker
    rcases hmarker with rfl | ⟨frame, rfl, hfile⟩
    · rw [hnodes]
      exact ⟨StackText.idle.splits (.inr rfl), List.cons_ne_nil _ _⟩
    · rw [hnodes, stackRecord, shownFrames, if_pos hfile, if_pos hfile]
      exact ⟨StackText.failed.splits (.inr rfl), List.cons_ne_nil _ _⟩
  obtain ⟨hne, hfailure⟩ := not_or.mp hmarker
  have hframes := hplain.resolve_left hfailure
  obtain ⟨init, outermost, rfl⟩ := (List.eq_nil_or_concat frames).resolve_left hne
  rw [List.concat_eq_append] at hne hfailure hframes ⊢
  have hlines : (init ++ [outermost]).reverse.map print_frame =
      print_frame outermost :: init.reverse.map print_frame := by simp
  have hsep : ∀ r ∈ print_frame outermost :: init.reverse.map print_frame, semicolon ∉ r := by
    rw [← hlines]
    intro r hr
    obtain ⟨frame, hframe, rfl⟩ := List.mem_map.mp hr
    have hplain := (plain_printed hp).mp (hframes frame (List.mem_reverse.mp hframe))
    exact fun hmem => (hplain semicolon hmem).1 rfl
  have hrest : ∀ r ∈ init.reverse.map print_frame, r ≠ [] := by
    intro r hr
    obtain ⟨frame, -, rfl⟩ := List.mem_map.mp hr
    obtain ⟨b, hb, -⟩ := exists_not_space hp frame
    exact List.ne_nil_of_mem hb
  have hfirst : (print_frame outermost).dropWhile isSpace ≠ [] := by
    obtain ⟨b, hb, hspace⟩ := exists_not_space hp outermost
    intro hnil
    have hall := List.dropWhile_eq_nil_iff.mp hnil b hb
    rw [hspace] at hall
    contradiction
  rw [(record_of_frames print_frame hne hfailure).1, hlines,
    stackNodes_flatMap (exists_not_space hp outermost) hsep hrest]
  exact ⟨.inl (splitStack_flatMap hfirst hsep), List.cons_ne_nil _ _⟩

end

section

variable {call_stacks : List FrameTS} {include_line_number : Bool}

/-- What is decoded of plain stacks: their nodes, at the time since the first. -/
theorem decode_printFramesTS (hts : ∀ c ∈ call_stacks, microseconds c.ts ≠ 0)
    (hplain : ∀ c ∈ call_stacks, c.frames.Plain) :
    (flameChartJson (printFramesTS call_stacks include_line_number).out.flatten).bind FCJson.decode =
      some (call_stacks.map fun c =>
        (microseconds c.ts - (call_stacks.head?.map fun first => microseconds first.ts).getD 0,
          stackNodes (stackRecord (framePrinter include_line_number) c.frames))) := by
  let record : FrameTS → ℤ × Bytes := fun c =>
    (microseconds c.ts, stackRecord (framePrinter include_line_number) c.frames)
  have hp := printsFile include_line_number
  obtain ⟨r, hrun, hnodes⟩ := foldlM_read (fun x : ℤ × Bytes => signedDecimal x.1 ++ [newline])
    Prod.snd Prod.fst (fun x (_ : x ∈ call_stacks.map record) => pyInt_signedDecimal x.1) {} rfl
  rw [← fileLines_printFramesTS fun c hc => (hplain c hc).oneLine] at hrun
  obtain ⟨endTime, hprof⟩ := flameChartJson_of_read hrun
  have hnodes : r.nodes = call_stacks.map record := hnodes.trans (by simp)
  rw [hnodes] at hprof
  have hsplits : ∀ c ∈ call_stacks, FCJson.Splits (splitStack (record c).2) (stackNodes (record c).2) ∧
      stackNodes (record c).2 ≠ [] ∧ ∀ f ∈ stackNodes (record c).2, f ≠ [] := by
    intro c hc
    obtain ⟨hsplit, hne⟩ := splits_stackRecord hp (hplain c hc)
    exact ⟨hsplit, hne, fun f hf => by simpa using (List.mem_filter.mp hf).2⟩
  have hholds :=
    (FCJson.Holds.profileOf record (fun c => stackNodes (record c).2) hsplits).ending endTime
  obtain ⟨-, -, -, hdeltas, -⟩ := samples_profileOf (call_stacks.map record)
  rw [List.map_map] at hdeltas
  rw [hprof, Option.bind_some]
  exact hholds.decode hdeltas (fun c hc => (hsplits c hc).2.1) hts

/-- What was sampled: each stack, at the time since the first. -/
def sampledChart (call_stacks : List FrameTS) (include_line_number : Bool) : List (ℤ × List Bytes) :=
  call_stacks.map fun c =>
    (microseconds c.ts - (call_stacks.head?.map fun first => microseconds first.ts).getD 0,
      shownFrames (framePrinter include_line_number) c.frames)

theorem decode_of_legible (hts : ∀ c ∈ call_stacks, microseconds c.ts ≠ 0)
    (hlegible : ∀ c ∈ call_stacks, c.frames.Legible) :
    (flameChartJson (printFramesTS call_stacks include_line_number).out.flatten).bind FCJson.decode =
      some (sampledChart call_stacks include_line_number) := by
  have hplain : ∀ c ∈ call_stacks, c.frames.Plain := fun c hc => (hlegible c hc).imp_right And.left
  rw [decode_printFramesTS hts hplain, Option.some_inj, sampledChart, List.map_inj_left]
  intro c hc
  rw [(stackNodes_record_iff (printsFile include_line_number) (hplain c hc)).mpr (hlegible c hc)]

theorem legible_of_decode (hts : ∀ c ∈ call_stacks, microseconds c.ts ≠ 0)
    (hdecode : (flameChartJson (printFramesTS call_stacks include_line_number).out.flatten).bind
      FCJson.decode = some (sampledChart call_stacks include_line_number)) :
    ∀ c ∈ call_stacks, c.frames.Legible := by
  have hp := printsFile include_line_number
  -- No name of a node has a separator in it, so the stacks were plain.
  have hplain : ∀ c ∈ call_stacks, c.frames.Plain := by
    obtain ⟨prof, hprof, hchart⟩ := Option.bind_eq_some_iff.mp hdecode
    have hnames := plain_of_flameChartJson hprof
    refine fun c hc => plain_of_shown hp fun name hname => hnames name ?_
    exact FCJson.names_of_decode hchart _ (List.mem_map_of_mem hc) name hname
  rw [decode_printFramesTS hts hplain, Option.some_inj, sampledChart, List.map_inj_left] at hdecode
  intro c hc
  exact (stackNodes_record_iff hp (hplain c hc)).mp (congrArg Prod.snd (hdecode c hc))

end

/-- **The profile shows what was sampled** exactly if every stack is legible. -/
theorem flameChart_decodes_iff (call_stacks : List FrameTS) (include_line_number : Bool)
    (hts : ∀ c ∈ call_stacks, microseconds c.ts ≠ 0) :
    (flameChartJson (printFramesTS call_stacks include_line_number).out.flatten).bind FCJson.decode =
        some (sampledChart call_stacks include_line_number) ↔
      ∀ c ∈ call_stacks, c.frames.Legible :=
  ⟨legible_of_decode hts, decode_of_legible hts⟩

theorem flameChart_decodes_two :
    (flameChartJson (printFramesTS
        [⟨5000000, [⟨text "a.py", text "g", 2⟩, ⟨text "a.py", text "main", 9⟩]⟩, ⟨15000000, []⟩]
        true).out.flatten).bind FCJson.decode =
      some [(0, [text "a.py:main:9", text "a.py:g:2"]), (10000, [text "(idle)"])] :=
  (flameChart_decodes_iff _ true (by decide)).mpr (List.forall_mem_cons.mpr
    ⟨.inr ⟨by unfold Frame.Plain; decide, by decide⟩, List.forall_mem_singleton.mpr (.inr (by simp))⟩)

end Pyflame
