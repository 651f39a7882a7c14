import Mathlib.Data.List.Nodup
import Mathlib.Data.String.Basic
import ChangeScope.CallGraph
import ChangeScope.Proofs.Ordered

/-!
# Functions added one after the other

Each function that is added keeps the nodes under the ids of their functions and the edges of the
graph those that leave its nodes (`Keyed.add`). What has come in at the end is the first function
of each id (`mem_nodes_foldl_add`).
-/

set_option autoImplicit false

namespace ChangeScope

/-- The callees of the known calls of a function are kept, and nothing else. -/
theorem QualifiedFunction.mem_calleeIds {f : QualifiedFunction} {c : String} :
    c ∈ f.calleeIds ↔ ∃ site ∈ f.sites, site.calleeId = some c := by
  rw [calleeIds, OrderedSet.mem_ofList, List.mem_filterMap]

/-! ## The order of edges -/

namespace CallEdge

theorem lt_iff {e e' : CallEdge} :
    e < e' ↔ e.caller < e'.caller ∨ e.caller = e'.caller ∧ e.callee < e'.callee := Iff.rfl

instance : Std.Trichotomous (α := CallEdge) (· < ·) where
  trichotomous e e' h h' := by
    rw [lt_iff, not_or, not_and] at h h'
    have hcaller : e.caller = e'.caller := le_antisymm (not_lt.mp h'.1) (not_lt.mp h.1)
    have hcallee : e.callee = e'.callee :=
      le_antisymm (not_lt.mp (h'.2 hcaller.symm)) (not_lt.mp (h.2 hcaller))
    cases e
    cases e'
    rw [CallEdge.mk.injEq]
    exact ⟨hcaller, hcallee⟩

instance : IsTrans CallEdge (· < ·) where
  trans a b c hab hbc := by
    rcases hab with hab | ⟨hab, hab'⟩ <;> rcases hbc with hbc | ⟨hbc, hbc'⟩
    · exact Or.inl (hab.trans hbc)
    · exact Or.inl (hbc ▸ hab)
    · exact Or.inl (hab ▸ hbc)
    · exact Or.inr ⟨hab.trans hbc, hab'.trans hbc'⟩

end CallEdge

namespace CallGraph

theorem mem_edgesFrom {f : QualifiedFunction} {e : CallEdge} :
    e ∈ edgesFrom f ↔ e.caller = f.id ∧ ∃ site ∈ f.sites, site.calleeId = some e.callee := by
  rw [edgesFrom, OrderedSet.mem_ofList, List.mem_map]
  constructor
  · rintro ⟨c, hc, rfl⟩
    exact ⟨rfl, QualifiedFunction.mem_calleeIds.mp hc⟩
  · rintro ⟨hcaller, hsite⟩
    refine ⟨e.callee, QualifiedFunction.mem_calleeIds.mpr hsite, ?_⟩
    rw [← hcaller]

theorem edgesFrom_increasing (f : QualifiedFunction) : (edgesFrom f).Pairwise (· < ·) :=
  OrderedSet.ofList_increasing _

/-! ## The first function of each id -/

/-- The functions without those that have the id of an earlier one. -/
def firsts : List QualifiedFunction → List QualifiedFunction
  | [] => []
  | f :: rest => f :: (firsts rest).filter fun g => g.id ≠ f.id

/-- A function is kept when it is the first one of its id. -/
theorem mem_firsts_iff {functions : List QualifiedFunction} {f : QualifiedFunction} :
    f ∈ firsts functions ↔ functions.find? (·.id == f.id) = some f := by
  induction functions with
  | nil => simp [firsts]
  | cons g rest ih =>
      rw [firsts, List.mem_cons, List.mem_filter, decide_eq_true_iff, ih]
      by_cases hid : g.id = f.id
      · rw [List.find?_cons_of_pos (by simpa using hid)]
        constructor
        · rintro (rfl | ⟨-, hne⟩)
          · rfl
          · exact absurd hid.symm hne
        · intro h
          exact Or.inl (Option.some.inj h).symm
      · rw [List.find?_cons_of_neg (by simpa using hid)]
        constructor
        · rintro (rfl | ⟨h, -⟩)
          · exact absurd rfl hid
          · exact h
        · intro h
          exact Or.inr ⟨h, Ne.symm hid⟩

/-! ## One function -/

/-- The node that a function becomes. -/
def nodeOf (f : QualifiedFunction) : CallNode := { f with outEdges := edgesFrom f }

variable {graph : CallGraph} {f : QualifiedFunction}

theorem add_of_mem (h : f.id ∈ graph.nodes.keys) : graph.add f = graph := by
  rw [add, if_pos (OrderedMap.hasKey_iff.mpr h)]

theorem add_of_new (h : f.id ∉ graph.nodes.keys) :
    graph.add f =
      { graph with
        edges := OrderedSet.extend graph.edges (edgesFrom f)
        nodes := graph.nodes.insert f.id (nodeOf f) } := by
  rw [add, if_neg fun hkey => h (OrderedMap.hasKey_iff.mp hkey)]
  rfl

theorem mem_keys_add {id : String} :
    id ∈ (graph.add f).nodes.keys ↔ id = f.id ∨ id ∈ graph.nodes.keys := by
  by_cases h : f.id ∈ graph.nodes.keys
  · rw [add_of_mem h]
    constructor
    · exact Or.inr
    · rintro (rfl | hid)
      · exact h
      · exact hid
  · rw [add_of_new h, OrderedMap.keys_insert, OrderedSet.mem_insert]

theorem mem_nodes_add {id : String} {node : CallNode} :
    (id, node) ∈ (graph.add f).nodes ↔
      (id, node) ∈ graph.nodes ∨ f.id ∉ graph.nodes.keys ∧ id = f.id ∧ node = nodeOf f := by
  by_cases h : f.id ∈ graph.nodes.keys
  · simp [add_of_mem h, h]
  · rw [add_of_new h, OrderedMap.mem_insert_of_new h, Prod.mk.injEq, or_comm]
    simp [h]

/-- The nodes are known by the ids of their functions, in increasing order, and the edges are those
that leave them. -/
structure Keyed (graph : CallGraph) : Prop where
  increasing : graph.nodes.keys.Pairwise (· < ·)
  id_eq : ∀ {id : String} {node : CallNode}, (id, node) ∈ graph.nodes → node.id = id
  /-- With a node are the edges from its function. -/
  outEdges_eq : ∀ {id : String} {node : CallNode}, (id, node) ∈ graph.nodes →
    node.outEdges = edgesFrom node
  edges_increasing : graph.edges.Pairwise (· < ·)
  /-- The set of all edges holds what the nodes hold. -/
  mem_edges : ∀ {e : CallEdge},
    e ∈ graph.edges ↔ ∃ id node, (id, node) ∈ graph.nodes ∧ e ∈ node.outEdges

theorem keyed_empty : Keyed {} where
  increasing := List.Pairwise.nil
  id_eq h := absurd h List.not_mem_nil
  outEdges_eq h := absurd h List.not_mem_nil
  edges_increasing := List.Pairwise.nil
  mem_edges := by simp

/-- **Adding a function keeps the edges those of the nodes**, whether it comes in or is skipped. -/
theorem Keyed.add (h : graph.Keyed) (f : QualifiedFunction) : (graph.add f).Keyed := by
  by_cases hf : f.id ∈ graph.nodes.keys
  · rw [add_of_mem hf]
    exact h
  · have hnode : ∀ {id node}, (id, node) ∈ (graph.add f).nodes →
        (id, node) ∈ graph.nodes ∨ id = f.id ∧ node = nodeOf f := fun hmem =>
      (mem_nodes_add.mp hmem).imp_right And.right
    refine ⟨?_, fun hmem => ?_, fun hmem => ?_, ?_, fun {e} => ?_⟩
    · rw [add_of_new hf]
      exact OrderedMap.keys_insert_increasing h.increasing
    · rcases hnode hmem with hold | ⟨rfl, rfl⟩
      · exact h.id_eq hold
      · rfl
    · rcases hnode hmem with hold | ⟨-, rfl⟩
      · exact h.outEdges_eq hold
      · rfl
    · rw [add_of_new hf]
      exact OrderedSet.extend_increasing h.edges_increasing
    · have hedges : (graph.add f).edges = OrderedSet.extend graph.edges (edgesFrom f) := by
        rw [add_of_new hf]
      rw [hedges, OrderedSet.mem_extend, h.mem_edges]
      constructor
      · rintro (⟨id, node, hold, he⟩ | he)
        · exact ⟨id, node, mem_nodes_add.mpr (Or.inl hold), he⟩
        · exact ⟨f.id, nodeOf f, mem_nodes_add.mpr (Or.inr ⟨hf, rfl, rfl⟩), he⟩
      · rintro ⟨id, node, hmem, he⟩
        rcases hnode hmem with hold | ⟨-, rfl⟩
        · exact Or.inl ⟨id, node, hold, he⟩
        · exact Or.inr he

/-- Every caller is a node. -/
theorem Keyed.caller_mem (h : graph.Keyed) {e : CallEdge} (he : e ∈ graph.edges) :
    e.caller ∈ graph.nodes.keys := by
  obtain ⟨id, node, hnode, hout⟩ := h.mem_edges.mp he
  rw [h.outEdges_eq hnode] at hout
  rw [(mem_edgesFrom.mp hout).1, h.id_eq hnode]
  exact List.mem_map_of_mem hnode

/-- The edges from a node are its own. -/
theorem Keyed.mem_outEdges_iff (h : graph.Keyed) {id : String} {node : CallNode}
    (hnode : (id, node) ∈ graph.nodes) {e : CallEdge} :
    e ∈ node.outEdges ↔ e ∈ graph.edges ∧ e.caller = id := by
  have hcaller : ∀ {id node}, (id, node) ∈ graph.nodes → e ∈ node.outEdges → e.caller = id := by
    intro id node hnode he
    rw [h.outEdges_eq hnode] at he
    exact (mem_edgesFrom.mp he).1.trans (h.id_eq hnode)
  constructor
  · intro he
    exact ⟨h.mem_edges.mpr ⟨id, node, hnode, he⟩, hcaller hnode he⟩
  · rintro ⟨he, hid⟩
    obtain ⟨id', node', hnode', he'⟩ := h.mem_edges.mp he
    have hids : id' = id := (hcaller hnode' he').symm.trans hid
    -- an id has one node, as the keys increase
    have hunique : (id', node') = (id, node) :=
      List.inj_on_of_nodup_map (h.increasing.imp fun hlt => ne_of_lt hlt) hnode' hnode hids
    rw [← (Prod.mk.inj hunique).2]
    exact he'

/-! ## All functions -/

theorem Keyed.foldl_add (functions : List QualifiedFunction) (h : graph.Keyed) :
    (functions.foldl CallGraph.add graph).Keyed := by
  induction functions generalizing graph with
  | nil => exact h
  | cons f rest ih => exact ih (h.add f)

/-- The functions come in whose ids are new, the first one of each. -/
theorem mem_nodes_foldl_add (functions : List QualifiedFunction) {id : String} {node : CallNode} :
    (id, node) ∈ (functions.foldl add graph).nodes ↔
      (id, node) ∈ graph.nodes ∨
        ∃ f ∈ firsts functions, f.id = id ∧ id ∉ graph.nodes.keys ∧ node = nodeOf f := by
  induction functions generalizing graph with
  | nil => simp [firsts]
  | cons g rest ih =>
      rw [List.foldl_cons, ih, mem_nodes_add, mem_keys_add, or_assoc]
      refine or_congr_right ?_
      constructor
      · rintro (⟨hg, rfl, rfl⟩ | ⟨f, hf, rfl, hnew, rfl⟩)
        · exact ⟨g, List.mem_cons_self, rfl, hg, rfl⟩
        · rw [not_or] at hnew
          have hlater : f ∈ (firsts rest).filter fun f => f.id ≠ g.id :=
            List.mem_filter.mpr ⟨hf, decide_eq_true hnew.1⟩
          exact ⟨f, List.mem_cons_of_mem g hlater, rfl, hnew.2, rfl⟩
      · rintro ⟨f, hf, rfl, hnew, rfl⟩
        rcases List.mem_cons.mp hf with rfl | hlater
        · exact Or.inl ⟨hnew, rfl, rfl⟩
        · obtain ⟨hf, hne⟩ := List.mem_filter.mp hlater
          exact Or.inr ⟨f, hf, rfl, not_or.mpr ⟨of_decide_eq_true hne, hnew⟩, rfl⟩

end CallGraph

end ChangeScope
