import Mathlib.Data.List.Cycle
import Mathlib.Logic.Relation
import ChangeScope.CallGraph

/-!
# Closed walks

The edges along some vertices, and back from the last vertex to the first. On a closed walk every
vertex leads to every vertex.
-/

set_option autoImplicit false

namespace ChangeScope.CallGraph

/-- The edges from each of some vertices to the next. -/
def walkEdges : List String → List CallEdge
  | v :: w :: rest => ⟨v, w⟩ :: walkEdges (w :: rest)
  | _ => []

/-- The edges along some vertices and back to the first. -/
def roundEdges : List String → List CallEdge
  | [] => []
  | v :: rest => walkEdges (v :: (rest ++ [v]))

variable {R : String → String → Prop}

theorem isChain_iff_walkEdges (vertices : List String) :
    vertices.IsChain R ↔ ∀ e ∈ walkEdges vertices, R e.caller e.callee := by
  induction vertices with
  | nil => simp [walkEdges]
  | cons v rest ih =>
      cases rest with
      | nil => simp [walkEdges]
      | cons w rest =>
          rw [List.isChain_cons_cons, ih, walkEdges, List.forall_mem_cons]

/-- A walk whose last vertex leads back to the first is closed. -/
theorem round_of_isChain {v last : String} {rest : List String} (hchain : (v :: rest).IsChain R)
    (hlast : (v :: rest).getLast? = some last) (hback : R last v) :
    ∀ e ∈ roundEdges (v :: rest), R e.caller e.callee := by
  rw [roundEdges, ← isChain_iff_walkEdges, ← List.cons_append]
  refine List.isChain_append.mpr ⟨hchain, List.isChain_singleton v, ?_⟩
  intro u hu w hw
  rw [hlast] at hu
  obtain rfl := Option.some.inj hu
  obtain rfl := Option.some.inj hw
  exact hback

/-- On a closed walk every vertex leads to every vertex. -/
theorem transGen_of_round {vertices : List String}
    (h : ∀ e ∈ roundEdges vertices, R e.caller e.callee) {v w : String} (hv : v ∈ vertices)
    (hw : w ∈ vertices) : Relation.TransGen R v w := by
  cases vertices with
  | nil => exact absurd hv List.not_mem_nil
  | cons u rest =>
      have hround : Cycle.Chain R (u :: rest : List String) := by
        rw [Cycle.chain_coe_cons, isChain_iff_walkEdges]
        exact h
      have htrans : Cycle.Chain (Relation.TransGen R) (u :: rest : List String) :=
        hround.imp fun _ _ => Relation.TransGen.single
      exact Cycle.chain_iff_pairwise.mp htrans v hv w hw

end ChangeScope.CallGraph
