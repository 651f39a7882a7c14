import ChangeScope.Proofs.CallGraph.Linking
import ChangeScope.Proofs.CallGraph.Round

/-!
# What a call graph shows

The graph of some functions shows the first function of each id and nothing else: the nodes are the
ids, an edge leads to each callee of a known call, callers and callees are the two directions of
the edges, and the parents are the nodes that no other node calls (`shows_ofFunctions`).
-/

set_option autoImplicit false

namespace ChangeScope.CallGraph

/-! ## The loops one after the other -/

variable {graph : CallGraph}

/-- Lists and cycles make no difference to nodes and edges. -/
theorem Keyed.congr {other : CallGraph} (h : graph.Keyed) (hnodes : other.nodes = graph.nodes)
    (hedges : other.edges = graph.edges) : other.Keyed where
  increasing := hnodes ▸ h.increasing
  id_eq hnode := h.id_eq (hnodes ▸ hnode)
  outEdges_eq hnode := h.outEdges_eq (hnodes ▸ hnode)
  edges_increasing := hedges ▸ h.edges_increasing
  mem_edges := by
    rw [hedges, hnodes]
    exact h.mem_edges

theorem keyed_ofFunctions (functions : List QualifiedFunction) : (ofFunctions functions).Keyed :=
  (keyed_empty.foldl_add functions).congr (nodes_linkAll _) (edges_linkAll _)

theorem lists_ofFunctions (functions : List QualifiedFunction) :
    (ofFunctions functions).Lists (ofFunctions functions).edges := by
  obtain ⟨mem_callees, mem_callers, callees_increasing, callers_increasing⟩ :=
    lists_linkAll (functions.foldl add {})
  have hedges : (ofFunctions functions).edges = (functions.foldl add {}).edges := edges_linkAll _
  rw [hedges]
  exact ⟨mem_callees, mem_callers, callees_increasing, callers_increasing⟩

theorem mem_nodes_ofFunctions {functions : List QualifiedFunction} {id : String}
    {node : CallNode} :
    (id, node) ∈ (ofFunctions functions).nodes ↔
      ∃ f ∈ firsts functions, f.id = id ∧ node = nodeOf f := by
  have hnodes : (ofFunctions functions).nodes = (functions.foldl add {}).nodes := nodes_linkAll _
  rw [hnodes, mem_nodes_foldl_add]
  simp [OrderedMap.keys]

/-! ## Parents -/

/-- A parent is a node without a caller but itself. -/
theorem Keyed.mem_parents (h : graph.Keyed) (hlists : graph.Lists graph.edges) {id : String} :
    id ∈ graph.parents ↔
      id ∈ graph.nodes.keys ∧ ∀ caller, ⟨caller, id⟩ ∈ graph.edges → caller = id := by
  rw [parents, List.mem_filter, isParent, Bool.not_eq_true', List.any_eq_false]
  refine and_congr_right fun _ => forall_congr' fun caller => ?_
  rw [hlists.mem_callers]
  refine imp_congr_right fun hedge => ?_
  have hnode : graph.nodes.hasKey caller = true := OrderedMap.hasKey_iff.mpr (h.caller_mem hedge)
  rw [hnode]
  simp

theorem Keyed.parents_increasing (h : graph.Keyed) : graph.parents.Pairwise (· < ·) :=
  h.increasing.sublist List.filter_sublist

/-- There is a call from one function to the other. -/
def Calls (graph : CallGraph) (a b : String) : Prop := ⟨a, b⟩ ∈ graph.edges

/-- A parent is reached from nowhere but itself. -/
theorem Keyed.eq_of_reaches_parent (h : graph.Keyed) (hlists : graph.Lists graph.edges)
    {a b : String} (hparent : b ∈ graph.parents)
    (hreach : Relation.ReflTransGen graph.Calls a b) : a = b := by
  induction hreach using Relation.ReflTransGen.head_induction_on with
  | refl => rfl
  | head hcall _ ih =>
      subst ih
      exact ((h.mem_parents hlists).mp hparent).2 _ hcall

/-- The vertices lie on a closed walk along edges of the graph. -/
def IsRound (graph : CallGraph) (vertices : List String) : Prop :=
  vertices ≠ [] ∧ ∀ e ∈ roundEdges vertices, e ∈ graph.edges

/-- Of different vertices on a closed walk none is a parent. -/
theorem Keyed.not_parent_of_round (h : graph.Keyed) (hlists : graph.Lists graph.edges)
    {vertices : List String} (hround : graph.IsRound vertices) {v w : String} (hv : v ∈ vertices)
    (hw : w ∈ vertices) (hne : v ≠ w) : v ∉ graph.parents := by
  intro hparent
  have hcalls : ∀ e ∈ roundEdges vertices, graph.Calls e.caller e.callee := hround.2
  have hreach : Relation.TransGen graph.Calls w v := transGen_of_round hcalls hw hv
  exact hne (h.eq_of_reaches_parent hlists hparent hreach.to_reflTransGen).symm

/-! ## The graph as a whole -/

/-- A call graph shows some functions with different ids, and nothing else. -/
structure Shows (graph : CallGraph) (functions : List QualifiedFunction) : Prop where
  nodes_increasing : graph.nodes.keys.Pairwise (· < ·)
  /-- The nodes are the functions under their ids. -/
  mem_nodes : ∀ id f, (∃ node, (id, node) ∈ graph.nodes ∧ node.toQualifiedFunction = f) ↔
    f ∈ functions ∧ f.id = id
  edges_increasing : graph.edges.Pairwise (· < ·)
  /-- The edges are the known calls. -/
  mem_edges : ∀ a b, ⟨a, b⟩ ∈ graph.edges ↔
    ∃ f ∈ functions, f.id = a ∧ ∃ site ∈ f.sites, site.calleeId = some b
  /-- The edges that are kept with a node are its own. -/
  mem_outEdges : ∀ id node, (id, node) ∈ graph.nodes →
    node.outEdges.Pairwise (· < ·) ∧
      ∀ e, e ∈ node.outEdges ↔ e ∈ graph.edges ∧ e.caller = id
  mem_callees : ∀ a b, b ∈ graph.callees a ↔ ⟨a, b⟩ ∈ graph.edges
  mem_callers : ∀ a b, a ∈ graph.callers b ↔ ⟨a, b⟩ ∈ graph.edges
  callees_increasing : ∀ id, (graph.callees id).Pairwise (· < ·)
  callers_increasing : ∀ id, (graph.callers id).Pairwise (· < ·)
  /-- Every node is listed with its callees, and nothing else is. -/
  adjacency_keys : graph.adjacency.keys = graph.nodes.keys
  get?_adjacency : ∀ id ∈ graph.nodes.keys, graph.adjacency.get? id = some (graph.callees id)
  parents_increasing : graph.parents.Pairwise (· < ·)
  /-- A parent is a node that no other one calls; that it calls itself makes no difference. -/
  mem_parents : ∀ id, id ∈ graph.parents ↔
    id ∈ graph.nodes.keys ∧ ∀ caller, ⟨caller, id⟩ ∈ graph.edges → caller = id
  /-- Functions that call one another around are no parents. -/
  not_parent_of_round : ∀ vertices, graph.IsRound vertices →
    ∀ v ∈ vertices, ∀ w ∈ vertices, v ≠ w → v ∉ graph.parents

theorem exists_node_ofFunctions {functions : List QualifiedFunction} {id : String}
    {f : QualifiedFunction} :
    (∃ node, (id, node) ∈ (ofFunctions functions).nodes ∧ node.toQualifiedFunction = f) ↔
      f ∈ firsts functions ∧ f.id = id := by
  constructor
  · rintro ⟨node, hnode, rfl⟩
    obtain ⟨f, hf, hid, rfl⟩ := mem_nodes_ofFunctions.mp hnode
    exact ⟨hf, hid⟩
  · rintro ⟨hf, hid⟩
    exact ⟨nodeOf f, mem_nodes_ofFunctions.mpr ⟨f, hf, hid, rfl⟩, rfl⟩

theorem mem_edges_ofFunctions {functions : List QualifiedFunction} {a b : String} :
    ⟨a, b⟩ ∈ (ofFunctions functions).edges ↔
      ∃ f ∈ firsts functions, f.id = a ∧ ∃ site ∈ f.sites, site.calleeId = some b := by
  rw [(keyed_ofFunctions functions).mem_edges]
  constructor
  · rintro ⟨id, node, hnode, he⟩
    obtain ⟨f, hf, rfl, rfl⟩ := mem_nodes_ofFunctions.mp hnode
    obtain ⟨hcaller, hsite⟩ := mem_edgesFrom.mp he
    exact ⟨f, hf, hcaller.symm, hsite⟩
  · rintro ⟨f, hf, rfl, hsite⟩
    exact ⟨f.id, nodeOf f, mem_nodes_ofFunctions.mpr ⟨f, hf, rfl, rfl⟩,
      mem_edgesFrom.mpr ⟨rfl, hsite⟩⟩

theorem adjacency_keys (graph : CallGraph) : graph.adjacency.keys = graph.nodes.keys := by
  rw [adjacency, OrderedMap.keys, List.map_map]
  exact List.map_id _

theorem Keyed.get?_adjacency (h : graph.Keyed) {id : String} (hid : id ∈ graph.nodes.keys) :
    graph.adjacency.get? id = some (graph.callees id) := by
  refine OrderedMap.get?_of_mem ?_ (List.mem_map_of_mem hid)
  rw [adjacency_keys]
  exact h.increasing

/-- **A call graph shows the first function of each id.** What is kept of the edges with the nodes,
in one set and by either end agrees. -/
theorem shows_ofFunctions (functions : List QualifiedFunction) :
    (ofFunctions functions).Shows (firsts functions) := by
  have hkeyed := keyed_ofFunctions functions
  have hlists := lists_ofFunctions functions
  exact
    { nodes_increasing := hkeyed.increasing
      mem_nodes := fun _ _ => exists_node_ofFunctions
      edges_increasing := hkeyed.edges_increasing
      mem_edges := fun _ _ => mem_edges_ofFunctions
      mem_outEdges := fun id node hnode =>
        ⟨hkeyed.outEdges_eq hnode ▸ edgesFrom_increasing node,
          fun _ => hkeyed.mem_outEdges_iff hnode⟩
      mem_callees := fun _ _ => hlists.mem_callees
      mem_callers := fun _ _ => hlists.mem_callers
      callees_increasing := hlists.callees_increasing
      callers_increasing := hlists.callers_increasing
      adjacency_keys := adjacency_keys _
      get?_adjacency := fun _ hid => hkeyed.get?_adjacency hid
      parents_increasing := hkeyed.parents_increasing
      mem_parents := fun _ => hkeyed.mem_parents hlists
      not_parent_of_round := fun _ hround _ hv _ hw hne =>
        hkeyed.not_parent_of_round hlists hround hv hw hne }

end ChangeScope.CallGraph
