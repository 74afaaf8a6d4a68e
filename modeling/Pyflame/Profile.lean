import Pyflame.FlameChart

/-!
The profile that `flame-chart-json` prints.

`FCJson` numbers the nodes as it makes them, and writes the identifier of a
child before there is the child. What the input is made of is `readFlameChart`;
here are the nodes, samples and time deltas that come of it.
-/

namespace Pyflame

/-- A node of the profile, with the entries of its `callFrame`. -/
structure Node where
  id : ℕ
  functionName : Bytes
  scriptId : Bytes := text "0"
  url : Bytes := []
  hitCount : ℕ := 1
  children : Option (List ℕ) := none
  deriving DecidableEq, Repr

/-- `node['children'].append`. -/
def Node.appendChild (node : Node) (child : ℕ) : Node :=
  { node with children := node.children.map (· ++ [child]) }

/-- The members of `FCJson`, with the entries of its `prof`. -/
structure FCJson where
  node_id : ℕ := 1
  prev_ts : ℤ := 0
  delta_ts : ℤ := 2000
  IDLE_NODE_ID : ℕ := 2
  nodes : List Node := []
  startTime : ℤ := 0
  endTime : ℤ := 5000
  samples : List ℕ := []
  timeDeltas : List ℤ := []
  deriving DecidableEq, Repr

namespace FCJson

def fillNode (self : FCJson) (func_name : Bytes) (fill_child_id : Bool := false) : Node × FCJson :=
  let node_id := self.node_id + 1
  ({ id := self.node_id
     functionName := func_name
     children := if fill_child_id then some [node_id] else none },
    { self with node_id := node_id })

/-- `prof['nodes'].append`. -/
def append (self : FCJson) (node : Node) : FCJson := { self with nodes := self.nodes ++ [node] }

/-- `prof['nodes'][i]['children'].append`. -/
def appendChild (self : FCJson) (i : ℕ) (child : ℕ) : FCJson :=
  { self with nodes := self.nodes.modify i (·.appendChild child) }

def init : FCJson :=
  let (node, self) := ({} : FCJson).fillNode (text "(root)")
  let self := self.append { node with children := some [] }
  let (idle_node, self) := self.fillNode (text "(idle)")
  let self := self.append { idle_node with children := some [] }
  self.appendChild 0 (self.node_id - 1)

/-- The loop of `create_cs`, at the index `i`. -/
def createCsFrom (cs_len : ℕ) (self : FCJson) (add_child : Bool) : ℕ → List Bytes → FCJson
  | _, [] => self
  | i, frame :: cs =>
      if frame = [] then createCsFrom cs_len self add_child (i + 1) cs
      else
        -- `cs_len - 2` may be negative in the source.
        let add_child := if cs_len ≤ i + 2 then false else add_child
        let (node, self) := self.fillNode frame add_child
        createCsFrom cs_len (self.append node) add_child (i + 1) cs

def createCs (self : FCJson) (cs : List Bytes) : FCJson := createCsFrom cs.length self true 0 cs

def createNode (self : FCJson) (ts : ℤ) (cs : Bytes) : FCJson :=
  let prev_node_id := self.node_id
  let self := self.createCs (splitStack cs)
  let delta := if self.prev_ts ≠ 0 then ts - self.prev_ts - 1000 else 0
  let self := { self with
    samples := self.samples ++ [self.node_id - 1] ++ [self.IDLE_NODE_ID]
    timeDeltas := self.timeDeltas ++ [delta] ++ [1000]
    prev_ts := ts }
  (self.appendChild 0 prev_node_id).appendChild 1 prev_node_id

/-- What `start` does with a timestamp and a stack. -/
def addRecord (self : FCJson) (record : ℤ × Bytes) : FCJson :=
  let self := self.createNode record.1 record.2
  { self with delta_ts := self.delta_ts + 1000 }

end FCJson

/-- The variables of `start`. -/
structure Start where
  self : FCJson := .init
  first_ts : ℤ := 0
  last_ts : ℤ := 0
  is_first_ln : Bool := true
  ts : ℤ := 0

/-- The body of the loop of `start`. -/
def Start.read (s : Start) (line : Bytes) : Option Start := do
  let ts ← if s.is_first_ln then pyInt line else some s.ts
  let s := { s with
    ts := ts
    first_ts := if s.first_ts = 0 then ts else s.first_ts
    last_ts := ts }
  if s.is_first_ln then
    return { s with is_first_ln := false }
  else
    return { s with is_first_ln := true, self := s.self.addRecord (ts, line) }

/-- The profile that is printed, none where the script raises. -/
def flameChartJson (input : Bytes) : Option FCJson := do
  let s ← (fileLines input).foldlM Start.read {}
  return { s.self with endTime := (s.last_ts - s.first_ts) / 2 + 1000 }

/-- The profile of the records, before its end is set. -/
def profileOf (records : List (ℤ × Bytes)) : FCJson := records.foldl FCJson.addRecord .init

/-! ### What is read -/

/-- Where `start` is while the reader is at `r`. -/
def Start.Reads (s : Start) (r : Reader) : Prop :=
  s.is_first_ln = r.is_first_ln ∧ s.ts = r.ts ∧ s.self = profileOf r.nodes

theorem Start.read_reads {s : Start} {r : Reader} (h : s.Reads r) (line : Bytes) :
    Option.Rel Start.Reads (s.read line) (r.read line) := by
  obtain ⟨hfirst, hts, hself⟩ := h
  unfold Start.read Reader.read
  rw [hfirst]
  by_cases hr : r.is_first_ln = true
  · simp only [hr, if_true]
    cases pyInt line with
    | none => exact .none
    | some ts => exact .some ⟨rfl, rfl, hself⟩
  · simp only [hr, Bool.false_eq_true, if_false]
    refine .some ⟨rfl, hts, ?_⟩
    show s.self.addRecord (s.ts, line) = profileOf (r.nodes ++ [(r.ts, line)])
    rw [profileOf, List.foldl_append, ← profileOf, hself, hts]
    rfl

theorem foldlM_start (lines : List Bytes) {s : Start} {r : Reader} (h : s.Reads r) :
    Option.Rel Start.Reads (lines.foldlM Start.read s) (lines.foldlM Reader.read r) := by
  induction lines generalizing s r with
  | nil => exact .some h
  | cons line lines ih =>
      rw [List.foldlM_cons, List.foldlM_cons]
      have hread := Start.read_reads h line
      generalize s.read line = s' at hread ⊢
      generalize r.read line = r' at hread ⊢
      cases hread with
      | none => exact .none
      | some h' => exact ih h'

/-- The script builds the profile of what the reader takes, and raises where the reader does. -/
theorem flameChartJson_eq (input : Bytes) :
    ∃ endTime, flameChartJson input = ((fileLines input).foldlM Reader.read {}).map fun r =>
      { profileOf r.nodes with endTime := endTime } := by
  have hrel := foldlM_start (fileLines input) (s := {}) (r := {}) ⟨rfl, rfl, rfl⟩
  unfold flameChartJson
  generalize (fileLines input).foldlM Start.read {} = s at hrel
  generalize (fileLines input).foldlM Reader.read {} = r at hrel
  cases hrel with
  | none => exact ⟨0, rfl⟩
  | @some s r hs => exact ⟨(s.last_ts - s.first_ts) / 2 + 1000, by rw [Option.map_some, ← hs.2.2]; rfl⟩

theorem flameChartJson_of_read {input : Bytes} {r : Reader}
    (h : (fileLines input).foldlM Reader.read {} = some r) :
    ∃ endTime, flameChartJson input = some { profileOf r.nodes with endTime := endTime } := by
  obtain ⟨endTime, hprof⟩ := flameChartJson_eq input
  rw [h] at hprof
  exact ⟨endTime, hprof⟩

/-! ### The nodes of a stack -/

namespace FCJson

/-- The nodes of a stack, numbered from `id` on. Each but the last has the next for its child. -/
def spine (id : ℕ) : List Bytes → List Node
  | [] => []
  | [frame] => [{ id := id, functionName := frame }]
  | frame :: frame' :: frames =>
      { id := id, functionName := frame, children := some [id + 1] } :: spine (id + 1) (frame' :: frames)

theorem map_id_spine (id : ℕ) (frames : List Bytes) :
    (spine id frames).map Node.id = List.range' id frames.length := by
  induction frames generalizing id with
  | nil => rfl
  | cons frame frames ih =>
      cases frames with
      | nil => rfl
      | cons frame' frames =>
          rw [spine, List.map_cons, ih]
          rfl

/-- The parts of a line that names the frames, or is a marker. -/
def Splits (cs frames : List Bytes) : Prop :=
  cs = frames ++ [[]] ∨ ∃ marker, cs = [marker] ∧ frames = [marker]

theorem createCsFrom_frames (self : FCJson) {frames : List Bytes} (hframes : frames ≠ [])
    (hne : ∀ f ∈ frames, f ≠ []) (i : ℕ) :
    createCsFrom (i + frames.length + 1) self true i (frames ++ [[]]) =
      { self with
        node_id := self.node_id + frames.length
        nodes := self.nodes ++ spine self.node_id frames } := by
  induction frames generalizing self i with
  | nil => contradiction
  | cons frame frames ih =>
      obtain ⟨hframe, hrest⟩ := List.forall_mem_cons.mp hne
      rw [List.cons_append, createCsFrom, if_neg hframe]
      cases frames with
      | nil =>
          -- The last frame and the empty part behind it are the last two parts.
          simp [fillNode, append, spine, createCsFrom]
      | cons frame' frames =>
          have hmore : ¬ i + (frame :: frame' :: frames).length + 1 ≤ i + 2 := by
            simp only [List.length_cons]
            omega
          have hlen : i + (frame :: frame' :: frames).length + 1 =
              (i + 1) + (frame' :: frames).length + 1 := by
            simp only [List.length_cons]
            omega
          simp only [if_neg hmore]
          rw [hlen, ih _ (List.cons_ne_nil _ _) hrest]
          simp [fillNode, append, spine]
          omega

theorem createCs_splits (self : FCJson) {cs frames : List Bytes} (h : Splits cs frames)
    (hframes : frames ≠ []) (hne : ∀ f ∈ frames, f ≠ []) :
    self.createCs cs =
      { self with
        node_id := self.node_id + frames.length
        nodes := self.nodes ++ spine self.node_id frames } := by
  rcases h with rfl | ⟨marker, rfl, rfl⟩
  · have h := createCsFrom_frames self hframes hne 0
    rw [Nat.zero_add] at h
    rw [createCs, List.length_append, List.length_singleton, h]
  · have hmarker := hne marker List.mem_cons_self
    simp [createCs, createCsFrom, hmarker, fillNode, append, spine]

/-! ### The nodes of a run -/

/-- The nodes of stacks one after another. -/
def spines (id : ℕ) : List (List Bytes) → List Node
  | [] => []
  | frames :: callstacks => spine id frames ++ spines (id + frames.length) callstacks

/-- The identifiers of the nodes of each stack. -/
def chainsOf (id : ℕ) : List (List Bytes) → List (List ℕ)
  | [] => []
  | frames :: callstacks => List.range' id frames.length :: chainsOf (id + frames.length) callstacks

/-- How many nodes the stacks have. -/
def total (callstacks : List (List Bytes)) : ℕ := (callstacks.map List.length).sum

@[simp] theorem total_cons (frames : List Bytes) (callstacks : List (List Bytes)) :
    total (frames :: callstacks) = frames.length + total callstacks := by simp [total]

theorem spines_concat (id : ℕ) (callstacks : List (List Bytes)) (frames : List Bytes) :
    spines id (callstacks ++ [frames]) = spines id callstacks ++ spine (id + total callstacks) frames := by
  induction callstacks generalizing id with
  | nil => simp [spines, total]
  | cons first callstacks ih =>
      rw [List.cons_append, spines, ih, spines, total_cons, List.append_assoc, Nat.add_assoc]

theorem chainsOf_concat (id : ℕ) (callstacks : List (List Bytes)) (frames : List Bytes) :
    chainsOf id (callstacks ++ [frames]) =
      chainsOf id callstacks ++ [List.range' (id + total callstacks) frames.length] := by
  induction callstacks generalizing id with
  | nil => simp [chainsOf, total]
  | cons first callstacks ih =>
      rw [List.cons_append, chainsOf, ih, chainsOf, total_cons, List.cons_append, Nat.add_assoc]

theorem map_id_spines (id : ℕ) (callstacks : List (List Bytes)) :
    (spines id callstacks).map Node.id = List.range' id (total callstacks) := by
  induction callstacks generalizing id with
  | nil => rfl
  | cons frames callstacks ih =>
      rw [spines, List.map_append, map_id_spine, ih, total_cons]
      exact List.range'_append_1

theorem flatten_chainsOf (id : ℕ) (callstacks : List (List Bytes)) :
    (chainsOf id callstacks).flatten = List.range' id (total callstacks) := by
  induction callstacks generalizing id with
  | nil => rfl
  | cons frames callstacks ih =>
      rw [chainsOf, List.flatten_cons, ih, total_cons]
      exact List.range'_append_1

/-- The identifiers that `start` adds under the root and idle nodes. -/
def heads (chains : List (List ℕ)) : List ℕ := chains.filterMap List.head?

/-- What has been built of the stacks. -/
structure Holds (prof : FCJson) (callstacks : List (List Bytes)) : Prop where
  node_id : prof.node_id = 3 + total callstacks
  idle : prof.IDLE_NODE_ID = 2
  nodes : prof.nodes =
    { id := 1, functionName := text "(root)", children := some (2 :: heads (chainsOf 3 callstacks)) } ::
    { id := 2, functionName := text "(idle)", children := some (heads (chainsOf 3 callstacks)) } ::
    spines 3 callstacks
  samples : prof.samples = (chainsOf 3 callstacks).flatMap fun chain => chain.getLast?.toList ++ [2]

theorem holds_init : Holds init [] where
  node_id := rfl
  idle := rfl
  nodes := by decide
  samples := rfl

theorem Holds.addRecord {self : FCJson} {callstacks : List (List Bytes)} (h : self.Holds callstacks)
    {ts : ℤ} {line : Bytes} {frames : List Bytes} (hsplit : Splits (splitStack line) frames)
    (hframes : frames ≠ []) (hne : ∀ f ∈ frames, f ≠ []) :
    (self.addRecord (ts, line)).Holds (callstacks ++ [frames]) := by
  have hcs := createCs_splits self hsplit hframes hne
  have hpos : 0 < frames.length := List.length_pos_iff.mpr hframes
  have hhead : (List.range' (3 + total callstacks) frames.length).head? = some (3 + total callstacks) := by
    obtain ⟨n, hn⟩ := Nat.exists_eq_succ_of_ne_zero hpos.ne'
    rw [hn]
    rfl
  have hlast : (List.range' (3 + total callstacks) frames.length).getLast? =
      some (3 + total callstacks + frames.length - 1) := by
    rw [List.getLast?_range', if_neg hpos.ne']
  have hchains := chainsOf_concat 3 callstacks frames
  have hheads : heads (chainsOf 3 (callstacks ++ [frames])) = heads (chainsOf 3 callstacks) ++ [3 + total callstacks] := by
    rw [hchains, heads, List.filterMap_append, List.filterMap_cons, hhead]
    rfl
  exact
    { node_id := by
        simp only [FCJson.addRecord, createNode, appendChild, hcs, h.node_id]
        simp [total]
        omega
      idle := by simp only [FCJson.addRecord, createNode, appendChild, hcs, h.idle]
      nodes := by
        simp only [FCJson.addRecord, createNode, appendChild, hcs, h.nodes, h.node_id, hheads,
          spines_concat]
        rfl
      samples := by
        simp only [FCJson.addRecord, createNode, appendChild, hcs, h.samples, h.node_id, h.idle]
        rw [hchains, List.flatMap_append, List.flatMap_singleton, hlast]
        simp }

theorem Holds.ending {prof : FCJson} {callstacks : List (List Bytes)} (h : prof.Holds callstacks)
    (endTime : ℤ) : Holds { prof with endTime := endTime } callstacks :=
  ⟨h.node_id, h.idle, h.nodes, h.samples⟩

theorem Holds.profileOf {α : Type} (record : α → ℤ × Bytes) (frames : α → List Bytes)
    {records : List α} (h : ∀ x ∈ records, Splits (splitStack (record x).2) (frames x) ∧
      frames x ≠ [] ∧ ∀ f ∈ frames x, f ≠ []) :
    (profileOf (records.map record)).Holds (records.map frames) := by
  induction records using List.reverseRecOn with
  | nil => exact holds_init
  | append_singleton records x ih =>
      obtain ⟨hsplit, hframes, hne⟩ := h x (by simp)
      have hrecords := ih fun y hy => h y (List.mem_append_left _ hy)
      rw [Pyflame.profileOf, List.map_append, List.foldl_append, List.map_append]
      exact hrecords.addRecord hsplit hframes hne

end FCJson

/-! ### Every line -/

namespace FCJson

/-- Whatever the parts of a line are, each that is not empty becomes a node. -/
theorem createCsFrom_nodes (cs_len : ℕ) (self : FCJson) (add_child : Bool) (i : ℕ)
    (cs : List Bytes) :
    ∃ nodes : List Node, createCsFrom cs_len self add_child i cs =
        { self with node_id := self.node_id + nodes.length, nodes := self.nodes ++ nodes } ∧
      nodes.map Node.functionName = cs.filter (· ≠ []) ∧
      nodes.map Node.id = List.range' self.node_id nodes.length := by
  induction cs generalizing self add_child i with
  | nil => exact ⟨[], by simp [createCsFrom], rfl, rfl⟩
  | cons frame cs ih =>
      rw [createCsFrom]
      by_cases hframe : frame = []
      · rw [if_pos hframe]
        obtain ⟨nodes, hrun, hnames, hids⟩ := ih self add_child (i + 1)
        refine ⟨nodes, hrun, ?_, hids⟩
        rw [hnames, List.filter_cons_of_neg (by simpa using hframe)]
      · rw [if_neg hframe]
        generalize (if cs_len ≤ i + 2 then false else add_child) = add_child
        obtain ⟨nodes, hrun, hnames, hids⟩ :=
          ih ((self.fillNode frame add_child).2.append (self.fillNode frame add_child).1) add_child (i + 1)
        refine ⟨(self.fillNode frame add_child).1 :: nodes, ?_, ?_, ?_⟩
        · refine hrun.trans ?_
          have hlen : self.node_id + 1 + nodes.length = self.node_id + (nodes.length + 1) := by omega
          simp only [fillNode, append, List.length_cons, List.append_assoc, List.singleton_append, hlen]
        · rw [List.map_cons, hnames, List.filter_cons_of_pos (by simpa using hframe)]
          rfl
        · rw [List.map_cons, hids]
          rfl

theorem map_modify_appendChild {β : Type} {f : Node → β}
    (hf : ∀ node child, f (Node.appendChild node child) = f node) (nodes : List Node) (i child : ℕ) :
    (nodes.modify i (·.appendChild child)).map f = nodes.map f := by
  induction nodes generalizing i with
  | nil => simp
  | cons node nodes ih =>
      cases i with
      | zero => simp [hf]
      | succ i => simp [ih]

/-- The nodes are numbered as they are made. -/
structure Numbered (prof : FCJson) : Prop where
  node_id : prof.node_id = prof.nodes.length + 1
  ids : prof.nodes.map Node.id = List.range' 1 prof.nodes.length

theorem addRecord_nodes {self : FCJson} (h : self.Numbered) (record : ℤ × Bytes) :
    (self.addRecord record).Numbered ∧ (self.addRecord record).nodes.map Node.functionName =
      self.nodes.map Node.functionName ++ stackNodes record.2 := by
  obtain ⟨nodes, hrun, hnames, hids⟩ := createCsFrom_nodes (splitStack record.2).length self true 0
    (splitStack record.2)
  have hnodes : (self.addRecord record).nodes = ((self.nodes ++ nodes).modify 0
      (·.appendChild self.node_id)).modify 1 (·.appendChild self.node_id) := by
    simp [addRecord, createNode, createCs, hrun, appendChild]
  have hnode_id : (self.addRecord record).node_id = self.node_id + nodes.length := by
    simp [addRecord, createNode, createCs, hrun, appendChild]
  have hlen : (self.addRecord record).nodes.length = self.nodes.length + nodes.length := by
    simp [hnodes]
  refine ⟨⟨?_, ?_⟩, ?_⟩
  · rw [hnode_id, h.node_id, hlen]
    omega
  · rw [hnodes, map_modify_appendChild fun _ _ => rfl, map_modify_appendChild fun _ _ => rfl,
      ← hnodes, hlen, List.map_append, h.ids, hids, h.node_id, Nat.add_comm self.nodes.length 1]
    exact List.range'_append_1
  · rw [hnodes, map_modify_appendChild fun _ _ => rfl, map_modify_appendChild fun _ _ => rfl,
      List.map_append, hnames]
    rfl

theorem foldl_addRecord_nodes {self : FCJson} (h : self.Numbered) (records : List (ℤ × Bytes)) :
    (records.foldl addRecord self).Numbered ∧
      (records.foldl addRecord self).nodes.map Node.functionName =
        self.nodes.map Node.functionName ++ records.flatMap fun x => stackNodes x.2 := by
  induction records generalizing self with
  | nil => exact ⟨h, by simp⟩
  | cons record records ih =>
      obtain ⟨hnumbered, hnames⟩ := addRecord_nodes h record
      obtain ⟨hnumbered', hnames'⟩ := ih hnumbered
      refine ⟨hnumbered', ?_⟩
      rw [List.foldl_cons, hnames', hnames, List.flatMap_cons, List.append_assoc]

end FCJson

/-- Whatever the lines are, the nodes are those of what is read, numbered without gaps. -/
theorem flameChartJson_nodes {input : Bytes} {chart : List (ℤ × List Bytes)}
    (h : readFlameChart input = some chart) :
    ∃ prof, flameChartJson input = some prof ∧
      prof.nodes.map Node.functionName =
        text "(root)" :: text "(idle)" :: chart.flatMap Prod.snd ∧
      prof.nodes.map Node.id = List.range' 1 prof.nodes.length := by
  obtain ⟨r, hrun, hchart⟩ := Option.bind_eq_some_iff.mp h
  obtain rfl := Option.some.inj hchart
  obtain ⟨endTime, hprof⟩ := flameChartJson_of_read hrun
  have hinit : FCJson.init.Numbered := ⟨rfl, by decide⟩
  obtain ⟨hnumbered, hnames⟩ := FCJson.foldl_addRecord_nodes hinit r.nodes
  refine ⟨_, hprof, hnames.trans ?_, hnumbered.ids⟩
  rw [List.flatMap_map]
  rfl

/-! ### Chains -/

/-- The identifiers and names along child links, to a node without children. -/
inductive NodeChain (nodes : List Node) : List ℕ → List Bytes → Prop
  | last {node : Node} (hmem : node ∈ nodes) (hchildren : node.children = none) :
      NodeChain nodes [node.id] [node.functionName]
  | link {node : Node} {id : ℕ} {ids : List ℕ} {names : List Bytes} (hmem : node ∈ nodes)
      (hchildren : node.children = some [id]) (hrest : NodeChain nodes (id :: ids) names) :
      NodeChain nodes (node.id :: id :: ids) (node.functionName :: names)

theorem NodeChain.mono {nodes nodes' : List Node} (hsub : nodes ⊆ nodes') {ids : List ℕ}
    {names : List Bytes} (h : NodeChain nodes ids names) : NodeChain nodes' ids names := by
  induction h with
  | last hmem hchildren => exact .last (hsub hmem) hchildren
  | link hmem hchildren _ ih => exact .link (hsub hmem) hchildren ih

namespace FCJson

theorem nodeChain_spine (id : ℕ) {frames : List Bytes} (hframes : frames ≠ []) :
    NodeChain (spine id frames) (List.range' id frames.length) frames := by
  induction frames generalizing id with
  | nil => contradiction
  | cons frame frames ih =>
      cases frames with
      | nil =>
          have hmem : { id := id, functionName := frame } ∈ spine id [frame] := List.mem_cons_self
          exact .last hmem rfl
      | cons frame' frames =>
          have hrest := (ih (id + 1) (List.cons_ne_nil _ _)).mono
            (List.subset_cons_self
              { id := id, functionName := frame, children := some [id + 1] : Node } _)
          exact .link List.mem_cons_self rfl hrest

theorem nodeChain_spines (id : ℕ) {callstacks : List (List Bytes)}
    (hframes : ∀ frames ∈ callstacks, frames ≠ []) :
    List.Forall₂ (NodeChain (spines id callstacks)) (chainsOf id callstacks) callstacks := by
  induction callstacks generalizing id with
  | nil => exact .nil
  | cons frames callstacks ih =>
      obtain ⟨hfirst, hrest⟩ := List.forall_mem_cons.mp hframes
      refine .cons ((nodeChain_spine id hfirst).mono (List.subset_append_left _ _)) ?_
      exact (ih (id + frames.length) hrest).imp fun _ _ h => h.mono (List.subset_append_right _ _)

/-- Within a stack a child is numbered by the node after its parent. -/
theorem child_mem_spine {id : ℕ} {frames : List Bytes} {node : Node} (h : node ∈ spine id frames)
    {children : List ℕ} (hchildren : node.children = some children) :
    ∀ child ∈ children, child ∈ List.range' id frames.length := by
  induction frames generalizing id with
  | nil => contradiction
  | cons frame frames ih =>
      cases frames with
      | nil =>
          obtain rfl := List.mem_singleton.mp h
          contradiction
      | cons frame' frames =>
          rcases List.mem_cons.mp h with rfl | h
          · obtain rfl := Option.some.inj hchildren
            simp
          · intro child hchild
            have hmem := ih h child hchild
            rw [List.length_cons, List.range'_succ]
            exact List.mem_cons_of_mem _ hmem

theorem child_mem_spines {id : ℕ} {callstacks : List (List Bytes)} {node : Node}
    (h : node ∈ spines id callstacks) {children : List ℕ} (hchildren : node.children = some children) :
    ∀ child ∈ children, child ∈ List.range' id (total callstacks) := by
  induction callstacks generalizing id with
  | nil => contradiction
  | cons frames callstacks ih =>
      intro child hchild
      rw [total_cons, ← List.range'_append_1, List.mem_append]
      rcases List.mem_append.mp h with h | h
      · exact .inl (child_mem_spine h hchildren child hchild)
      · exact .inr (ih h child hchild)

theorem heads_subset (chains : List (List ℕ)) : heads chains ⊆ chains.flatten := by
  intro id hid
  obtain ⟨chain, hchain, hhead⟩ := List.mem_filterMap.mp hid
  exact List.mem_flatten_of_mem hchain (List.mem_of_mem_head? hhead)

/-- Nodes numbered without gaps, and for each stack a chain of its own nodes, from a child of
the root and idle nodes to the node that was sampled. -/
structure WellFormed (prof : FCJson) (callstacks : List (List Bytes)) : Prop where
  ids : prof.nodes.map Node.id = List.range' 1 prof.nodes.length
  children : ∀ node ∈ prof.nodes, ∀ children ∈ node.children, ∀ child ∈ children,
    child ∈ prof.nodes.map Node.id
  chains : ∃ chains : List (List ℕ),
    List.Forall₂ (NodeChain prof.nodes) chains callstacks ∧
    chains.flatten.Nodup ∧
    (∃ root idle rest, prof.nodes = root :: idle :: rest ∧
      root.functionName = text "(root)" ∧ root.children = some (idle.id :: heads chains) ∧
      idle.functionName = text "(idle)" ∧ idle.children = some (heads chains)) ∧
    prof.samples = chains.flatMap fun chain => chain.getLast?.toList ++ [prof.IDLE_NODE_ID]

theorem Holds.wellFormed {prof : FCJson} {callstacks : List (List Bytes)} (h : prof.Holds callstacks)
    (hframes : ∀ frames ∈ callstacks, frames ≠ []) : prof.WellFormed callstacks := by
  have hids : prof.nodes.map Node.id = 1 :: 2 :: List.range' 3 (total callstacks) := by
    rw [h.nodes, List.map_cons, List.map_cons, map_id_spines]
  have hflatten := flatten_chainsOf 3 callstacks
  have hheads : ∀ child ∈ heads (chainsOf 3 callstacks), child ∈ List.range' 3 (total callstacks) := by
    intro child hchild
    rw [← hflatten]
    exact heads_subset _ hchild
  have hsub : spines 3 callstacks ⊆ prof.nodes := by
    rw [h.nodes]
    exact fun node hnode => List.mem_cons_of_mem _ (List.mem_cons_of_mem _ hnode)
  refine ⟨?_, ?_, chainsOf 3 callstacks, ?_, ?_, ?_, ?_⟩
  · have hlen := congrArg List.length hids
    simp only [List.length_map, List.length_cons, List.length_range'] at hlen
    rw [hids, hlen]
    rfl
  · intro node hnode children hchildren child hchild
    rw [hids]
    rw [h.nodes] at hnode
    rcases List.mem_cons.mp hnode with rfl | hnode
    · obtain rfl := Option.some.inj hchildren
      rcases List.mem_cons.mp hchild with rfl | hchild
      · simp
      · exact List.mem_cons_of_mem _ (List.mem_cons_of_mem _ (hheads child hchild))
    rcases List.mem_cons.mp hnode with rfl | hnode
    · obtain rfl := Option.some.inj hchildren
      exact List.mem_cons_of_mem _ (List.mem_cons_of_mem _ (hheads child hchild))
    · exact List.mem_cons_of_mem _ (List.mem_cons_of_mem _ (child_mem_spines hnode hchildren child hchild))
  · exact (nodeChain_spines 3 hframes).imp fun _ _ hchain => hchain.mono hsub
  · rw [hflatten]
    exact List.nodup_range'
  · exact ⟨_, _, _, h.nodes, rfl, rfl, rfl, rfl⟩
  · rw [h.samples, h.idle]

end FCJson

/-! ### What the script is meant to read -/

/-- The text of a stack, with its frames. -/
inductive StackText : Bytes → List Bytes → Prop
  | frames {frames : List Bytes} (hne : frames ≠ [])
      (h : ∀ f ∈ frames, f ≠ [] ∧ strip f = f ∧ semicolon ∉ f ∧ newline ∉ f) :
      StackText (frames.flatMap (· ++ text ";")) frames
  | idle : StackText (text "(idle)") [text "(idle)"]
  | failed : StackText (text "(failed)") [text "(failed)"]

/-- A line with a positive timestamp, and the line after it. -/
structure Timed where
  time : Bytes
  ts : ℤ
  time_eq : pyInt time = some ts
  ts_pos : 0 < ts
  line : Bytes

/-- The line is that of a stack. The last line of a file may lack its line feed. -/
structure Record extends Timed where
  frames : List Bytes
  stack : StackText line frames ∨ ∃ stack, line = stack ++ [newline] ∧ StackText stack frames

/-- The two lines. -/
def Timed.lines (x : Timed) : List Bytes := [x.time, x.line]

theorem dropWhile_of_strip {s : Bytes} (h : strip s = s) : s.dropWhile isSpace = s := by
  have hsub := List.dropWhile_sublist (l := s) isSpace
  apply hsub.eq_of_length_le
  have hlen := congrArg List.length h
  have hle := (List.dropWhile_sublist (l := (s.dropWhile isSpace).reverse) isSpace).length_le
  rw [strip, List.length_reverse] at hlen
  rw [List.length_reverse] at hle
  omega

/-- A text without spaces around it, alone or on a line of its own. -/
theorem strip_trimmed {init : Bytes} {last : Byte} (hlast : isSpace last = false)
    (hdrop : (init ++ [last]).dropWhile isSpace = init ++ [last]) :
    strip (init ++ [last]) = init ++ [last] ∧ strip (init ++ [last] ++ [newline]) = init ++ [last] := by
  constructor
  · rw [strip, hdrop, List.reverse_append, List.reverse_singleton, List.singleton_append,
      List.dropWhile_cons_of_neg (by simpa using hlast), List.reverse_cons, List.reverse_reverse]
  · rw [strip_newline hlast, hdrop]

theorem StackText.frames_ne_nil {stack : Bytes} {frames : List Bytes} (h : StackText stack frames) :
    frames ≠ [] ∧ ∀ f ∈ frames, f ≠ [] := by
  cases h with
  | frames hne h => exact ⟨hne, fun f hf => (h f hf).1⟩
  | idle => decide
  | failed => decide

theorem StackText.splits {stack line : Bytes} {frames : List Bytes} (h : StackText stack frames)
    (hline : line = stack ∨ line = stack ++ [newline]) : FCJson.Splits (splitStack line) frames := by
  cases h with
  | frames hne h =>
      obtain ⟨init, hinit⟩ := exists_semicolon hne
      -- Only the first frame could start with a space.
      have hdrop : (init ++ [semicolon]).dropWhile isSpace = init ++ [semicolon] := by
        rw [← hinit]
        obtain ⟨f, frames, rfl⟩ := List.exists_cons_of_ne_nil hne
        obtain ⟨hf, hstrip, -⟩ := h f List.mem_cons_self
        have hfirst := dropWhile_of_strip hstrip
        rw [List.flatMap_cons, List.append_assoc, List.dropWhile_append, hfirst]
        exact if_neg (by simpa using hf)
      obtain ⟨halone, hended⟩ := strip_trimmed (show isSpace semicolon = false by decide) hdrop
      rw [← hinit] at halone hended
      left
      apply splitStack_of_strip _ fun f hf => (h f hf).2.2.1
      rcases hline with rfl | rfl
      · exact halone
      · exact hended
  | idle =>
      refine .inr ⟨text "(idle)", ?_, rfl⟩
      rcases hline with rfl | rfl <;> decide
  | failed =>
      refine .inr ⟨text "(failed)", ?_, rfl⟩
      rcases hline with rfl | rfl <;> decide

theorem Record.splits (x : Record) :
    FCJson.Splits (splitStack x.line) x.frames ∧ x.frames ≠ [] ∧ ∀ f ∈ x.frames, f ≠ [] := by
  rcases x.stack with hstack | ⟨stack, hline, hstack⟩
  · exact ⟨hstack.splits (.inl rfl), hstack.frames_ne_nil⟩
  · exact ⟨hstack.splits (.inr hline), hstack.frames_ne_nil⟩

/-- What is made of pairs of lines. -/
theorem flameChartJson_of_lines {α : Type} (timed : α → Timed) {input : Bytes} {records : List α}
    (h : fileLines input = records.flatMap fun x => (timed x).lines) :
    ∃ endTime, flameChartJson input =
      some { profileOf (records.map fun x => ((timed x).ts, (timed x).line)) with endTime := endTime } := by
  obtain ⟨r, hrun, hnodes⟩ := foldlM_read (fun x => (timed x).time)
    (fun x => (timed x).line) (fun x => (timed x).ts)
    (fun x (_ : x ∈ records) => (timed x).time_eq) {} rfl
  have hread : (fileLines input).foldlM Reader.read {} = some r := by
    rw [h]
    exact hrun
  obtain ⟨endTime, hprof⟩ := flameChartJson_of_read hread
  rw [hnodes] at hprof
  exact ⟨endTime, hprof⟩

/-- **The profile is a well-formed tree.** -/
theorem flameChartJson_wellFormed {input : Bytes} {records : List Record}
    (h : fileLines input = records.flatMap fun x => x.lines) :
    ∃ prof, flameChartJson input = some prof ∧ prof.WellFormed (records.map (·.frames)) := by
  obtain ⟨endTime, hprof⟩ := flameChartJson_of_lines Record.toTimed h
  have hholds := FCJson.Holds.profileOf (fun x : Record => (x.ts, x.line)) Record.frames fun x (_ : x ∈ records) =>
    x.splits
  refine ⟨_, hprof, (hholds.ending endTime).wellFormed ?_⟩
  intro frames hframes
  obtain ⟨x, -, rfl⟩ := List.mem_map.mp hframes
  exact x.splits.2.1

/-- Two stacks of one program, and an idle sample between them. -/
def shortChart : Bytes :=
  text "1000\na.py:f:1;a.py:g:2;\n" ++ text "11000\n(idle)\n" ++ text "21000\na.py:f:1;"

def shortRecords : List Record :=
  [{ time := text "1000\n", ts := 1000, time_eq := by decide, ts_pos := by decide
     line := text "a.py:f:1;a.py:g:2;\n"
     frames := [text "a.py:f:1", text "a.py:g:2"]
     stack := .inr ⟨text "a.py:f:1;a.py:g:2;", rfl,
       @StackText.frames [text "a.py:f:1", text "a.py:g:2"] (by simp) (by decide)⟩ },
   { time := text "11000\n", ts := 11000, time_eq := by decide, ts_pos := by decide
     line := text "(idle)\n"
     frames := [text "(idle)"]
     stack := .inr ⟨text "(idle)", rfl, .idle⟩ },
   { time := text "21000\n", ts := 21000, time_eq := by decide, ts_pos := by decide
     line := text "a.py:f:1;"
     frames := [text "a.py:f:1"]
     stack := .inl (@StackText.frames [text "a.py:f:1"] (by simp) (by decide)) }]

theorem flameChartJson_shortChart_wellFormed :
    ∃ prof, flameChartJson shortChart = some prof ∧
      prof.WellFormed [[text "a.py:f:1", text "a.py:g:2"], [text "(idle)"], [text "a.py:f:1"]] :=
  @flameChartJson_wellFormed shortChart shortRecords (by decide)

/-! ### Time deltas -/

/-- The deltas of stacks at these times, the time before them being `prev_ts`. -/
def deltasFrom (prev_ts : ℤ) : List ℤ → List ℤ
  | [] => []
  | ts :: times => (if prev_ts ≠ 0 then ts - prev_ts - 1000 else 0) :: 1000 :: deltasFrom ts times

@[simp] theorem length_deltasFrom (prev_ts : ℤ) (times : List ℤ) :
    (deltasFrom prev_ts times).length = 2 * times.length := by
  induction times generalizing prev_ts with
  | nil => rfl
  | cons ts times ih => simp only [deltasFrom, List.length_cons, ih, Nat.mul_succ]

namespace FCJson

/-- The samples and deltas that a record adds. -/
theorem addRecord_samples (self : FCJson) (record : ℤ × Bytes) :
    ∃ id, (self.addRecord record).samples = self.samples ++ [id, self.IDLE_NODE_ID] ∧
      (self.addRecord record).timeDeltas = self.timeDeltas ++
        [if self.prev_ts ≠ 0 then record.1 - self.prev_ts - 1000 else 0, 1000] ∧
      (self.addRecord record).prev_ts = record.1 ∧
      (self.addRecord record).IDLE_NODE_ID = self.IDLE_NODE_ID := by
  obtain ⟨nodes, hrun, -⟩ := createCsFrom_nodes (splitStack record.2).length self true 0
    (splitStack record.2)
  refine ⟨self.node_id + nodes.length - 1, ?_⟩
  simp [addRecord, createNode, createCs, hrun, appendChild]

theorem foldl_addRecord_samples (self : FCJson) (records : List (ℤ × Bytes)) :
    ∃ ids : List ℕ, ids.length = records.length ∧
      (records.foldl addRecord self).samples =
        self.samples ++ ids.flatMap (fun id => [id, self.IDLE_NODE_ID]) ∧
      (records.foldl addRecord self).timeDeltas =
        self.timeDeltas ++ deltasFrom self.prev_ts (records.map Prod.fst) ∧
      (records.foldl addRecord self).IDLE_NODE_ID = self.IDLE_NODE_ID := by
  induction records generalizing self with
  | nil => exact ⟨[], rfl, by simp, by simp [deltasFrom], rfl⟩
  | cons record records ih =>
      obtain ⟨id, hsamples, hdeltas, hprev, hidle⟩ := self.addRecord_samples record
      obtain ⟨ids, hlen, hsamples', hdeltas', hidle'⟩ := ih (self.addRecord record)
      rw [hsamples, hidle] at hsamples'
      rw [hdeltas, hprev] at hdeltas'
      refine ⟨id :: ids, by simp [hlen], ?_, ?_, hidle'.trans hidle⟩
      · rw [List.foldl_cons, hsamples', List.flatMap_cons, List.append_assoc]
      · rw [List.foldl_cons, hdeltas', List.map_cons, deltasFrom, List.append_assoc]
        rfl

end FCJson

theorem samples_profileOf (records : List (ℤ × Bytes)) :
    ∃ ids : List ℕ, (profileOf records).samples = ids.flatMap (fun id => [id, 2]) ∧
      (profileOf records).samples.length = 2 * records.length ∧
      (profileOf records).timeDeltas = deltasFrom 0 (records.map Prod.fst) ∧
      (profileOf records).IDLE_NODE_ID = 2 := by
  obtain ⟨ids, hlen, hsamples, hdeltas, hidle⟩ := FCJson.init.foldl_addRecord_samples records
  have hpairs : (ids.flatMap fun id => [id, 2]).length = 2 * ids.length := by
    rw [List.length_flatMap]
    simp [Nat.mul_comm]
  have hsamples : (profileOf records).samples = ids.flatMap fun id => [id, 2] := hsamples
  refine ⟨ids, hsamples, ?_, hdeltas, hidle⟩
  rw [hsamples, hpairs, hlen]

/-- Each stack is followed by an idle sample of 1000 microseconds, which the next delta
makes up for. -/
theorem sum_take_deltasFrom {prev_ts : ℤ} (hprev : prev_ts ≠ 0) {times : List ℤ}
    (htimes : ∀ ts ∈ times, ts ≠ 0) {k : ℕ} {ts : ℤ} (hk : times[k]? = some ts) :
    ((deltasFrom prev_ts times).take (2 * k + 1)).sum = ts - prev_ts - 1000 := by
  induction times generalizing prev_ts k with
  | nil => simp at hk
  | cons first times ih =>
      obtain ⟨hfirst, hrest⟩ := List.forall_mem_cons.mp htimes
      rw [deltasFrom, if_pos hprev]
      cases k with
      | zero =>
          obtain rfl := Option.some.inj hk
          simp
      | succ k =>
          have hsum := ih hfirst hrest hk
          have htake : 2 * (k + 1) + 1 = (2 * k + 1) + 1 + 1 := by omega
          rw [htake, List.take_succ_cons, List.take_succ_cons, List.sum_cons, List.sum_cons, hsum]
          omega

/-- **The samples are placed by their timestamps**, from the first on. -/
theorem flameChartJson_timeDeltas {input : Bytes} {records : List Timed}
    (h : fileLines input = records.flatMap Timed.lines) :
    ∃ prof, flameChartJson input = some prof ∧
      prof.samples.length = 2 * records.length ∧ prof.timeDeltas.length = 2 * records.length ∧
      (∃ ids : List ℕ, prof.samples = ids.flatMap fun id => [id, prof.IDLE_NODE_ID]) ∧
      ∀ (k : ℕ) (first last : Timed), records[0]? = some first → records[k]? = some last →
        (prof.timeDeltas.take (2 * k + 1)).sum = last.ts - first.ts := by
  obtain ⟨endTime, hprof⟩ := flameChartJson_of_lines (fun x => x) h
  obtain ⟨ids, hids, hsamples, hdeltas, hidle⟩ :=
    samples_profileOf (records.map fun x => (x.ts, x.line))
  rw [List.map_map] at hdeltas
  refine ⟨_, hprof, ?_, ?_, ⟨ids, ?_⟩, ?_⟩
  · rw [hsamples, List.length_map]
  · rw [hdeltas, length_deltasFrom, List.length_map]
  · rw [hids, hidle]
  intro k first last hfirst hlast
  rw [hdeltas]
  cases records with
  | nil => simp at hfirst
  | cons x records =>
      obtain rfl := Option.some.inj hfirst
      have hpos : ∀ ts ∈ records.map Timed.ts, ts ≠ 0 := by
        intro ts hts
        obtain ⟨y, -, rfl⟩ := List.mem_map.mp hts
        exact Int.ne_of_gt y.ts_pos
      cases k with
      | zero =>
          obtain rfl := Option.some.inj hlast
          simp [deltasFrom]
      | succ k =>
          -- The first delta is 0, and from then on the time before is that of a record.
          have hk : (records.map Timed.ts)[k]? = some last.ts := by
            rw [List.getElem?_map, show records[k]? = some last from hlast]
            rfl
          have hsum := sum_take_deltasFrom (Int.ne_of_gt x.ts_pos) hpos hk
          have htake : 2 * (k + 1) + 1 = (2 * k + 1) + 1 + 1 := by omega
          rw [htake]
          simp only [List.map_cons, Function.comp_apply, deltasFrom, ne_eq, not_true_eq_false, if_false,
            List.take_succ_cons, List.sum_cons]
          have hmap : (Prod.fst ∘ fun y : Timed => (y.ts, y.line)) = Timed.ts := rfl
          rw [hmap, hsum]
          omega

theorem flameChartJson_shortChart_timeDeltas :
    ∃ prof, flameChartJson shortChart = some prof ∧
      prof.samples.length = 6 ∧ prof.timeDeltas.length = 6 ∧
      (prof.timeDeltas.take 5).sum = 20000 := by
  obtain ⟨prof, hprof, hsamples, hdeltas, -, hsum⟩ :=
    @flameChartJson_timeDeltas shortChart (shortRecords.map Record.toTimed) (by decide)
  exact ⟨prof, hprof, hsamples, hdeltas, hsum 2 _ _ rfl rfl⟩

end Pyflame
