import ChangeScope.CallGraph.Cycle
import ChangeScope.Qualified

/-!
# Call graphs

The nodes are the changed functions by id; of functions with one id the first counts. There is an
edge from a node to every function that it is known to call, which need not be a node. The edges
are kept with the nodes that they leave, in one set, and by either end. A parent is a node that no
other node calls.
-/

set_option autoImplicit false

namespace ChangeScope

/-- A known call between two functions. -/
structure CallEdge where
  caller : String
  callee : String
deriving DecidableEq, Repr, Inhabited

/-- An edge as JSON. -/
def CallEdge.toJson (e : CallEdge) : Json :=
  .obj [("caller_id", .str e.caller), ("callee_id", .str e.callee)]

/-- Edges are ordered by their callers and, from one caller, by their callees. -/
instance : LT CallEdge where
  lt e e' := e.caller < e'.caller ∨ e.caller = e'.caller ∧ e.callee < e'.callee

instance : DecidableLT CallEdge := fun e e' =>
  inferInstanceAs (Decidable (e.caller < e'.caller ∨ e.caller = e'.caller ∧ e.callee < e'.callee))

/-- A changed function with the set of the edges from it. -/
structure CallNode extends QualifiedFunction where
  outEdges : List CallEdge
deriving DecidableEq, Repr, Inhabited

instance : Coe CallNode QualifiedFunction := ⟨CallNode.toQualifiedFunction⟩

/-- Changed functions and the calls that they make. -/
structure CallGraph where
  nodes : OrderedMap CallNode := []
  /-- The set of all edges. -/
  edges : List CallEdge := []
  /-- The callees of each caller. -/
  calleesOf : OrderedMap (List String) := []
  /-- The callers of each callee. -/
  callersOf : OrderedMap (List String) := []
  /-- The cycles, in the order in which they are found. -/
  cycles : List (List String) := []
deriving DecidableEq, Repr, Inhabited

namespace CallGraph

/-! ## Construction -/

/-- The set of the edges from a function. -/
def edgesFrom (f : QualifiedFunction) : List CallEdge :=
  OrderedSet.ofList (f.calleeIds.map fun c => ⟨f.id, c⟩)

/-- The graph with one more function and the edges from it, unless the id has a node already. -/
def add (graph : CallGraph) (f : QualifiedFunction) : CallGraph :=
  if graph.nodes.hasKey f.id then graph
  else
    let outEdges := edgesFrom f
    { graph with
      edges := OrderedSet.extend graph.edges outEdges
      nodes := graph.nodes.insert f.id { f with outEdges := outEdges } }

/-- The sets of ids with one more id in the set of a key. -/
def link (sets : OrderedMap (List String)) (key id : String) : OrderedMap (List String) :=
  sets.insert key (OrderedSet.insert id ((sets.get? key).getD []))

/-- The graph with an edge listed at both of its ends. -/
def linkEdge (graph : CallGraph) (e : CallEdge) : CallGraph :=
  { graph with
    calleesOf := link graph.calleesOf e.caller e.callee
    callersOf := link graph.callersOf e.callee e.caller }

/-- The graph with the lists of callees and of callers made anew from its edges. -/
def linkAll (graph : CallGraph) : CallGraph :=
  graph.edges.foldl linkEdge { graph with calleesOf := [], callersOf := [] }

/-- The functions that a function calls. -/
def callees (graph : CallGraph) (id : String) : List String := (graph.calleesOf.get? id).getD []

/-- The functions that call a function. -/
def callers (graph : CallGraph) (id : String) : List String := (graph.callersOf.get? id).getD []

/-- The graph with its cycles. -/
def findCycles (graph : CallGraph) : CallGraph :=
  { graph with cycles := cyclesOf graph.nodes.keys graph.callees }

/-- The graph of some functions. -/
def ofFunctions (functions : List QualifiedFunction) : CallGraph :=
  (functions.foldl add {}).linkAll.findCycles

/-! ## Queries -/

/-- A node that no other node calls. -/
def isParent (graph : CallGraph) (id : String) : Bool :=
  !(graph.callers id).any fun caller => caller != id && graph.nodes.hasKey caller

/-- The parents, in increasing order. -/
def parents (graph : CallGraph) : List String := graph.nodes.keys.filter graph.isParent

/-- Every node with the functions that it calls. -/
def adjacency (graph : CallGraph) : OrderedMap (List String) :=
  graph.nodes.keys.map fun id => (id, graph.callees id)

/-! ## Counts -/

/-- What a graph amounts to. -/
structure Statistics where
  functions : Nat
  edges : Nat
  parents : Nat
  cycles : Nat
  maxCallers : Nat
  maxCallees : Nat
deriving DecidableEq, Repr

/-- The greatest of some numbers, 0 for none. -/
private def greatest (ns : List Nat) : Nat := ns.foldl max 0

/-- The counts of a graph. -/
def statistics (graph : CallGraph) : Statistics :=
  { functions := graph.nodes.length
    edges := graph.edges.length
    parents := graph.parents.length
    cycles := graph.cycles.length
    maxCallers := greatest (graph.nodes.keys.map fun id => (graph.callers id).length)
    maxCallees := greatest (graph.nodes.keys.map fun id => (graph.callees id).length) }

/-- The counts as JSON. -/
def Statistics.toJson (s : Statistics) : Json :=
  .obj [("functions", .nat s.functions), ("edges", .nat s.edges), ("parents", .nat s.parents),
    ("cycles", .nat s.cycles), ("max_in_degree", .nat s.maxCallers),
    ("max_out_degree", .nat s.maxCallees)]

/-! ## As JSON -/

/-- A node with its edges as JSON. -/
def nodeJson (node : CallNode) : Json :=
  .obj (node.members ++ [("out_edges", .arr (node.outEdges.map (·.toJson)))])

/-- A graph as JSON. -/
def toJson (graph : CallGraph) : Json :=
  .obj [("nodes", .obj (graph.nodes.map fun (id, node) => (id, nodeJson node))),
    ("edges", .arr (graph.edges.map (·.toJson))), ("cycles", .arr (graph.cycles.map .strings))]

/-- Ids by id as JSON. -/
def adjacencyJson (adjacency : OrderedMap (List String)) : Json :=
  .obj (adjacency.map fun (id, ids) => (id, .strings ids))

end CallGraph

end ChangeScope
