import ChangeScope.Proofs.CallGraph.Adding

/-!
# Edges by either end

The lists of callees and of callers are filled with one edge after the other, each at both of its
ends (`Lists.linkEdge`), and so hold the edges of the graph when all have come (`lists_linkAll`).
-/

set_option autoImplicit false

namespace ChangeScope.CallGraph

/-! ## Sets by key -/

variable {sets : OrderedMap (List String)} {key id : String}

theorem mem_link {k x : String} :
    x ∈ ((link sets key id).get? k).getD [] ↔
      (k = key ∧ x = id) ∨ x ∈ (sets.get? k).getD [] := by
  rw [link]
  by_cases hk : k = key
  · subst hk
    simp
  · rw [OrderedMap.get?_insert_of_ne hk]
    simp [hk]

theorem link_increasing (h : ∀ k, ((sets.get? k).getD []).Pairwise (· < ·)) (k : String) :
    (((link sets key id).get? k).getD []).Pairwise (· < ·) := by
  rw [link]
  by_cases hk : k = key
  · subst hk
    rw [OrderedMap.get?_insert_self, Option.getD_some]
    exact OrderedSet.insert_increasing (h k)
  · rw [OrderedMap.get?_insert_of_ne hk]
    exact h k

/-! ## One edge -/

/-- The lists of a graph hold some edges, each at both of its ends. -/
structure Lists (graph : CallGraph) (edges : List CallEdge) : Prop where
  mem_callees : ∀ {a b : String}, b ∈ graph.callees a ↔ ⟨a, b⟩ ∈ edges
  mem_callers : ∀ {a b : String}, a ∈ graph.callers b ↔ ⟨a, b⟩ ∈ edges
  callees_increasing : ∀ id, (graph.callees id).Pairwise (· < ·)
  callers_increasing : ∀ id, (graph.callers id).Pairwise (· < ·)

variable {graph : CallGraph} {edges : List CallEdge}

/-- **An edge is listed at both of its ends**, and the rest stays as it is. -/
theorem Lists.linkEdge (h : graph.Lists edges) (e : CallEdge) :
    (graph.linkEdge e).Lists (edges ++ [e]) where
  mem_callees {a b} := by
    show b ∈ ((link graph.calleesOf e.caller e.callee).get? a).getD [] ↔ _
    rw [mem_link, ← callees, h.mem_callees, List.mem_append, List.mem_singleton, or_comm]
    exact or_congr_right (by cases e; simp)
  mem_callers {a b} := by
    show a ∈ ((link graph.callersOf e.callee e.caller).get? b).getD [] ↔ _
    rw [mem_link, ← callers, h.mem_callers, List.mem_append, List.mem_singleton, or_comm]
    exact or_congr_right (by cases e; simp [and_comm])
  callees_increasing := link_increasing h.callees_increasing
  callers_increasing := link_increasing h.callers_increasing

/-! ## All edges -/

/-- Linking an edge changes nothing but the lists. -/
theorem linkEdge_eq (graph : CallGraph) (e : CallEdge) :
    (graph.linkEdge e).nodes = graph.nodes ∧ (graph.linkEdge e).edges = graph.edges := ⟨rfl, rfl⟩

theorem Lists.foldl_linkEdge (rest : List CallEdge) (h : graph.Lists edges) :
    (rest.foldl CallGraph.linkEdge graph).Lists (edges ++ rest) := by
  induction rest generalizing graph edges with
  | nil => simpa using h
  | cons e rest ih => simpa using ih (h.linkEdge e)

theorem foldl_linkEdge_eq (rest : List CallEdge) :
    (rest.foldl linkEdge graph).nodes = graph.nodes ∧
      (rest.foldl linkEdge graph).edges = graph.edges := by
  induction rest generalizing graph with
  | nil => exact ⟨rfl, rfl⟩
  | cons e rest ih =>
      obtain ⟨hnodes, hedges⟩ := linkEdge_eq graph e
      rw [List.foldl_cons, ih.1, ih.2]
      exact ⟨hnodes, hedges⟩

@[simp] theorem nodes_linkAll (graph : CallGraph) : graph.linkAll.nodes = graph.nodes :=
  (foldl_linkEdge_eq graph.edges).1

@[simp] theorem edges_linkAll (graph : CallGraph) : graph.linkAll.edges = graph.edges :=
  (foldl_linkEdge_eq graph.edges).2

/-- **The lists hold the edges of the graph**, whatever they held before. -/
theorem lists_linkAll (graph : CallGraph) : graph.linkAll.Lists graph.edges := by
  have hnone : Lists { graph with calleesOf := [], callersOf := [] } [] :=
    { mem_callees := by simp [callees, OrderedMap.get?]
      mem_callers := by simp [callers, OrderedMap.get?]
      callees_increasing := fun _ => List.Pairwise.nil
      callers_increasing := fun _ => List.Pairwise.nil }
  exact hnone.foldl_linkEdge graph.edges

end ChangeScope.CallGraph
