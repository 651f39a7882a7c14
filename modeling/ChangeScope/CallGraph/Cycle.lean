/-!
# Cycles by depth-first search

The search goes along the edges from every vertex that it has not met. An edge back to a vertex of
the path that led to it closes a cycle: the part of the path from that vertex on. Every vertex is
entered once, so a path has no more vertices than the graph.
-/

set_option autoImplicit false

namespace ChangeScope.CallGraph

/-- How far a search has come. -/
structure Search where
  /-- The vertices that have been entered. -/
  visited : List String := []
  /-- The cycles found, in order. -/
  cycles : List (List String) := []
deriving DecidableEq, Repr, Inhabited

namespace Search

/-- The search with a vertex entered. -/
def enter (s : Search) (vertex : String) : Search := { s with visited := vertex :: s.visited }

/-- The search with the cycle that an edge from the end of a path to one of its vertices
closes. -/
def close (s : Search) (path : List String) (vertex : String) : Search :=
  { s with cycles := s.cycles ++ [path.dropWhile (· != vertex)] }

mutual

/-- Searches from a vertex that `path` leads to, at most `depth` vertices deep. -/
def visit (next : String → List String) (depth : Nat) (path : List String) (vertex : String)
    (s : Search) : Search :=
  match depth with
  | 0 => s
  | depth + 1 => follow next depth (path ++ [vertex]) (next vertex) (s.enter vertex)
termination_by (depth, 0)

/-- Goes along the edges from the end of a path. -/
def follow (next : String → List String) (depth : Nat) (path targets : List String)
    (s : Search) : Search :=
  match targets with
  | [] => s
  | target :: rest =>
      follow next depth path rest
        (if !s.visited.contains target then visit next depth path target s
        else if path.contains target then s.close path target
        else s)
termination_by (depth, targets.length + 1)

end

/-- Searches from each vertex that has not been entered. -/
def visitAll (next : String → List String) (depth : Nat) : List String → Search → Search
  | [], s => s
  | vertex :: rest, s =>
      visitAll next depth rest
        (if s.visited.contains vertex then s else visit next depth [] vertex s)

end Search

/-- The cycles of a graph. Only vertices of the list have edges, so a path holds those and at most
one more vertex. -/
def cyclesOf (vertices : List String) (next : String → List String) : List (List String) :=
  (Search.visitAll next (vertices.length + 1) vertices {}).cycles

end ChangeScope.CallGraph
