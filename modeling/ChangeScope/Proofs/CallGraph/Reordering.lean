import Mathlib
import ChangeScope.Proofs.CallGraph.Edges

/-!
# The order of the functions makes no difference

Two lists of functions have one graph exactly when each id has the same first function in both
(`ofFunctions_eq_iff`). So functions with different ids may come in any order, and functions of one
id too as long as the first of them stays the first (`same_of_reordered`).
-/

set_option autoImplicit false

namespace ChangeScope.CallGraph

/-! ## Nodes and edges -/

/-- Of two nodes the one with the smaller id comes first. -/
abbrev NodeBefore (a b : String × CallNode) : Prop := a.1 < b.1

instance : Std.Irrefl NodeBefore := ⟨fun a => lt_irrefl a.1⟩

instance : Std.Antisymm NodeBefore := ⟨fun _ _ hab hba => absurd (hab.trans hba) (lt_irrefl _)⟩

/-- Graphs whose nodes are known by their ids have the same nodes when they have the same ones in
any order. -/
theorem Keyed.nodes_eq {graph other : CallGraph} (h : graph.Keyed) (h' : other.Keyed)
    (hmem : ∀ id node, (id, node) ∈ graph.nodes ↔ (id, node) ∈ other.nodes) :
    graph.nodes = other.nodes := by
  have hpairs : ∀ {g : CallGraph}, g.Keyed → g.nodes.Pairwise NodeBefore := by
    intro g hg
    have hkeys := hg.increasing
    rwa [OrderedMap.keys, List.pairwise_map] at hkeys
  exact (hpairs h).eq_of_mem_iff (hpairs h') fun node => hmem node.1 node.2

instance : Std.Irrefl (α := CallEdge) (· < ·) where
  irrefl e h := by
    rcases h with hcaller | ⟨-, hcallee⟩
    · exact lt_irrefl _ hcaller
    · exact lt_irrefl _ hcallee

instance : Std.Antisymm (α := CallEdge) (· < ·) where
  antisymm e _ h h' := absurd (IsTrans.trans _ _ _ h h') (Std.Irrefl.irrefl e)

/-- The edges are known from the nodes. -/
theorem Keyed.edges_eq {graph other : CallGraph} (h : graph.Keyed) (h' : other.Keyed)
    (hnodes : graph.nodes = other.nodes) : graph.edges = other.edges :=
  h.edges_increasing.eq_of_mem_iff h'.edges_increasing fun e => by
    rw [h.mem_edges, h'.mem_edges, hnodes]

/-- Functions that are added come into the nodes and the edges only. -/
theorem foldl_add_eq (functions : List QualifiedFunction) (graph : CallGraph) :
    functions.foldl add graph =
      { graph with
        nodes := (functions.foldl add graph).nodes
        edges := (functions.foldl add graph).edges } := by
  induction functions generalizing graph with
  | nil => rfl
  | cons f rest ih =>
      rw [List.foldl_cons, ih]
      by_cases hf : f.id ∈ graph.nodes.keys
      · rw [add_of_mem hf]
      · rw [add_of_new hf]

theorem id_of_find? {functions : List QualifiedFunction} {id : String} {f : QualifiedFunction}
    (h : functions.find? (·.id == id) = some f) : f.id = id := by
  have hmatch := List.find?_some h
  exact beq_iff_eq.mp hmatch

/-- The node of an id is the first function with the id. -/
theorem mem_nodes_iff_find? {functions : List QualifiedFunction} {id : String}
    {node : CallNode} :
    (id, node) ∈ (ofFunctions functions).nodes ↔
      (functions.find? (·.id == id)).map nodeOf = some node := by
  rw [mem_nodes_ofFunctions, Option.map_eq_some_iff]
  constructor
  · rintro ⟨f, hf, rfl, rfl⟩
    exact ⟨f, mem_firsts_iff.mp hf, rfl⟩
  · rintro ⟨f, hfirst, rfl⟩
    obtain rfl := id_of_find? hfirst
    exact ⟨f, mem_firsts_iff.mpr hfirst, rfl, rfl⟩

/-- The graph is made from its nodes: its edges are theirs, and its lists and cycles are found from
the edges. -/
theorem ofFunctions_eq_of_nodes {functions others : List QualifiedFunction}
    (h : (ofFunctions functions).nodes = (ofFunctions others).nodes) :
    ofFunctions functions = ofFunctions others := by
  have hnodes : (functions.foldl add {}).nodes = (others.foldl add {}).nodes := by
    rw [← nodes_linkAll, ← nodes_linkAll (others.foldl add {})]
    exact h
  have hedges : (functions.foldl add {}).edges = (others.foldl add {}).edges :=
    (keyed_empty.foldl_add functions).edges_eq (keyed_empty.foldl_add others) hnodes
  unfold ofFunctions
  rw [foldl_add_eq functions, foldl_add_eq others, hnodes, hedges]

theorem nodeOf_injective : Function.Injective nodeOf :=
  Function.LeftInverse.injective (g := CallNode.toQualifiedFunction) fun _ => rfl

/-- **Lists of functions have one graph exactly when they have the same first functions.** -/
theorem ofFunctions_eq_iff {functions others : List QualifiedFunction} :
    ofFunctions functions = ofFunctions others ↔
      ∀ id, functions.find? (·.id == id) = others.find? (·.id == id) := by
  constructor
  · intro h id
    refine Option.map_injective nodeOf_injective (Option.ext fun node => ?_)
    rw [← mem_nodes_iff_find?, ← mem_nodes_iff_find?, h]
  · intro h
    refine ofFunctions_eq_of_nodes ?_
    refine (keyed_ofFunctions functions).nodes_eq (keyed_ofFunctions others) fun id node => ?_
    rw [mem_nodes_iff_find?, mem_nodes_iff_find?, h]

/-! ## Reordering -/

/-- Where ids are different, the first function of an id is the only one. -/
theorem find?_eq_some_of_distinct {functions : List QualifiedFunction}
    (hids : (functions.map (·.id)).Nodup) {id : String} {f : QualifiedFunction} :
    functions.find? (·.id == id) = some f ↔ f ∈ functions ∧ f.id = id := by
  constructor
  · intro h
    exact ⟨List.mem_of_find?_eq_some h, id_of_find? h⟩
  · rintro ⟨hf, rfl⟩
    have hfound : (functions.find? (·.id == f.id)).isSome = true := by
      rw [List.find?_isSome]
      exact ⟨f, hf, beq_self_eq_true f.id⟩
    obtain ⟨g, hg⟩ := Option.isSome_iff_exists.mp hfound
    have hmem := List.mem_of_find?_eq_some hg
    rw [hg, List.inj_on_of_nodup_map hids hmem hf (id_of_find? hg)]

/-- Functions with different ids keep their first functions in any order. -/
theorem find?_of_perm {functions reordered : List QualifiedFunction}
    (hperm : reordered.Perm functions) (hids : (functions.map (·.id)).Nodup) (id : String) :
    reordered.find? (·.id == id) = functions.find? (·.id == id) := by
  have hids' : (reordered.map (·.id)).Nodup := (hperm.map _).nodup_iff.mpr hids
  refine Option.ext fun f => ?_
  rw [find?_eq_some_of_distinct hids, find?_eq_some_of_distinct hids', hperm.mem_iff]

/-- Two graphs that nothing tells apart: neither what they hold nor what is read off them. -/
structure Same (graph other : CallGraph) : Prop where
  nodes : graph.nodes = other.nodes
  edges : graph.edges = other.edges
  callees : graph.callees = other.callees
  callers : graph.callers = other.callers
  /-- The same cycles, in the same order, each from the same node on. -/
  cycles : graph.cycles = other.cycles
  parents : graph.parents = other.parents
  adjacency : graph.adjacency = other.adjacency
  statistics : graph.statistics = other.statistics

theorem Same.of_eq {graph other : CallGraph} (h : graph = other) : graph.Same other := by
  subst h
  exact ⟨rfl, rfl, rfl, rfl, rfl, rfl, rfl, rfl⟩

/-- **The order of the functions makes no difference**, if their ids are different or the first
function of each id stays the first of them. -/
theorem same_of_reordered {functions reordered : List QualifiedFunction}
    (hperm : reordered.Perm functions)
    (hfirst : (functions.map (·.id)).Nodup ∨
      ∀ id, reordered.find? (·.id == id) = functions.find? (·.id == id)) :
    (ofFunctions reordered).Same (ofFunctions functions) := by
  refine Same.of_eq (ofFunctions_eq_iff.mpr fun id => ?_)
  rcases hfirst with hids | hkept
  · exact find?_of_perm hperm hids id
  · exact hkept id

/-! ## A name defined twice -/

namespace Reordering

/-- A function of a file that makes one known call. -/
def calling (name : String) (line : Nat) (callee : String) : QualifiedFunction :=
  ⟨⟨⟨⟨"m.py"⟩, name, line, line + 1, "", []⟩, [line], .modified⟩,
    [⟨line + 1, 1, "call", none, some callee, ""⟩], ""⟩

/-- Two functions that call each other, one of them defined again, and one that calls itself. -/
def functions : List QualifiedFunction :=
  [calling "f" 1 "m.py::g", calling "g" 3 "m.py::f", calling "f" 5 "m.py::h",
    calling "h" 7 "m.py::h"]

/-- The same functions; the first definition stays before the second one. -/
def reordered : List QualifiedFunction :=
  [calling "h" 7 "m.py::h", calling "f" 1 "m.py::g", calling "f" 5 "m.py::h",
    calling "g" 3 "m.py::f"]

theorem id_calling (name : String) (line : Nat) (callee : String) :
    (calling name line callee).id = FunctionId.make ⟨"m.py"⟩ name := rfl

theorem find?_reordered (id : String) :
    reordered.find? (·.id == id) = functions.find? (·.id == id) := by
  have hf : FunctionId.make ⟨"m.py"⟩ "f" = "m.py::f" := by decide
  have hg : FunctionId.make ⟨"m.py"⟩ "g" = "m.py::g" := by decide
  have hh : FunctionId.make ⟨"m.py"⟩ "h" = "m.py::h" := by decide
  simp only [reordered, functions, List.find?_cons, id_calling, hf, hg, hh]
  by_cases hleft : "m.py::h" = id
  · subst hleft
    rfl
  · by_cases hright : "m.py::g" = id
    · subst hright
      rfl
    · simp only [beq_false_of_ne hleft, beq_false_of_ne hright, List.find?_nil]

end Reordering

/-- The definition that comes second is no node in either order, and the cycles are the same. -/
theorem same_of_reordered_twice :
    Reordering.reordered.Perm Reordering.functions ∧
      (∀ id, Reordering.reordered.find? (·.id == id) = Reordering.functions.find? (·.id == id)) ∧
      (ofFunctions Reordering.reordered).cycles = [["m.py::f", "m.py::g"], ["m.py::h"]] ∧
      (ofFunctions Reordering.reordered).Same (ofFunctions Reordering.functions) := by
  have hperm : Reordering.reordered.Perm Reordering.functions := by decide
  have hcycles : (ofFunctions Reordering.reordered).cycles =
      [["m.py::f", "m.py::g"], ["m.py::h"]] := by
    cbv
  exact ⟨hperm, Reordering.find?_reordered, hcycles,
    same_of_reordered hperm (Or.inr Reordering.find?_reordered)⟩

end ChangeScope.CallGraph
