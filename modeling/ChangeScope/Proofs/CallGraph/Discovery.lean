import Mathlib.Data.List.Rotate
import Mathlib.Data.List.Perm.Basic
import ChangeScope.Proofs.CallGraph.Cycle

/-!
# The order of discovery

A search without a bound on its depth is the relation `Search.Follows`; the search comes to an end
(`Search.follows_cyclesOf`). The path and every reported cycle stand in the order in which their
vertices were entered, and every edge is followed once (`Search.IsOrderly`). So a reported cycle is
told by the edge that closes it, and none is reported again in another rotation (`cycles_sound`).
-/

set_option autoImplicit false

namespace ChangeScope.CallGraph

/-- The last edge of a walk leads from the vertex before the last one. -/
theorem mem_walkEdges_concat {walk : List String} {a : String} (h : walk.getLast? = some a)
    (b : String) : ⟨a, b⟩ ∈ walkEdges (walk ++ [b]) := by
  induction walk with
  | nil => exact absurd h (by simp)
  | cons v rest ih =>
      cases rest with
      | nil =>
          rw [List.getLast?_singleton, Option.some.injEq] at h
          rw [h]
          exact List.mem_cons_self
      | cons w rest =>
          rw [List.getLast?_cons_cons] at h
          exact List.mem_cons_of_mem _ (ih h)

/-- The edge that leads back from the last vertex of a closed walk is one of its edges. -/
theorem closing_mem_roundEdges {cycle : List String} {e : CallEdge}
    (hlast : cycle.getLast? = some e.caller) (hhead : cycle.head? = some e.callee) :
    e ∈ roundEdges cycle := by
  cases cycle with
  | nil => exact absurd hhead (by simp)
  | cons v rest =>
      rw [List.head?_cons, Option.some.injEq] at hhead
      rw [roundEdges, ← List.cons_append, hhead]
      rw [hhead] at hlast
      exact mem_walkEdges_concat hlast e.callee

namespace Search

variable {next : String → List String}

/-! ## A search without a bound -/

/-- The search goes along the edges from the end of a path to some targets, as deep as they lead.
With no path the targets are the vertices from which the search begins. -/
inductive Follows (next : String → List String) :
    List String → List String → Search → Search → Prop where
  | nil (path : List String) (s : Search) : Follows next path [] s s
  /-- A new vertex is entered, and its edges are followed first. -/
  | new {path rest : List String} {target : String} {s s' s'' : Search} :
      target ∉ s.visited → Follows next (path ++ [target]) (next target) (s.enter target) s' →
        Follows next path rest s' s'' → Follows next path (target :: rest) s s''
  /-- An edge back to the path closes a cycle. -/
  | back {path rest : List String} {target : String} {s s' : Search} :
      target ∈ s.visited → target ∈ path → Follows next path rest (s.close path target) s' →
        Follows next path (target :: rest) s s'
  /-- A vertex that has been left is passed over. -/
  | passed {path rest : List String} {target : String} {s s' : Search} :
      target ∈ s.visited → target ∉ path → Follows next path rest s s' →
        Follows next path (target :: rest) s s'

/-- What has been entered stays so. -/
theorem Follows.visited_suffix {path targets : List String} {s s' : Search}
    (h : Follows next path targets s s') : s.visited <:+ s'.visited := by
  induction h with
  | nil => exact List.suffix_refl _
  | new _ _ _ ihinner ihrest => exact (List.suffix_cons _ _).trans (ihinner.trans ihrest)
  | back _ _ _ ih => exact ih
  | passed _ _ _ ih => exact ih

section Bound

variable {vertices : List String}

/-- Where there is room, a bounded search from a new vertex goes as far as one without a bound. -/
def Reaches (next : String → List String) (vertices : List String) (depth : Nat) : Prop :=
  ∀ (path : List String) (vertex : String) (s : Search), Room vertices path depth →
    path ⊆ s.visited → vertex ∉ s.visited →
      Follows next (path ++ [vertex]) (next vertex) (s.enter vertex)
        (visit next depth path vertex s)

theorem follows_follow {depth : Nat} (hreaches : Reaches next vertices depth) {path : List String}
    (targets : List String) : ∀ {s : Search}, (targets ≠ [] → Room vertices path depth) →
      path ⊆ s.visited → Follows next path targets s (follow next depth path targets s) := by
  induction targets with
  | nil =>
      intro s _ _
      rw [follow_nil]
      exact .nil path s
  | cons target rest ih =>
      intro s hroom hpath
      have hroom := hroom (List.cons_ne_nil target rest)
      rw [follow_cons]
      by_cases hvisited : target ∈ s.visited
      · by_cases hback : target ∈ path
        · rw [advance_back hvisited hback]
          exact .back hvisited hback (ih (fun _ => hroom) hpath)
        · rw [advance_left hvisited hback]
          exact .passed hvisited hback (ih (fun _ => hroom) hpath)
      · rw [advance_new hvisited]
        have hinner := hreaches path target s hroom hpath hvisited
        have hstays := (List.suffix_cons target s.visited).trans hinner.visited_suffix
        exact .new hvisited hinner (ih (fun _ => hroom) (List.Subset.trans hpath hstays.subset))

/-- **A path has no more vertices than have edges, so the bound is never met.** -/
theorem reaches (hnext : ∀ v, next v ≠ [] → v ∈ vertices) :
    ∀ depth, Reaches next vertices depth := by
  intro depth
  induction depth with
  | zero =>
      intro path vertex s hroom
      exact absurd hroom.pos (Nat.lt_irrefl 0)
  | succ depth ih =>
      intro path vertex s hroom hpath hnew
      rw [visit_succ]
      refine follows_follow ih (next vertex)
        (fun hedges => hroom.step (hnext vertex hedges) fun hmem => hnew (hpath hmem)) ?_
      exact List.append_subset.mpr
        ⟨List.Subset.trans hpath (List.subset_cons_self _ _), by simp [enter]⟩

theorem follows_visitAll (hnext : ∀ v, next v ≠ [] → v ∈ vertices) (roots : List String) :
    ∀ s : Search, Follows next [] roots s (visitAll next (vertices.length + 1) roots s) := by
  have hroom : Room vertices [] (vertices.length + 1) :=
    ⟨List.nodup_nil, List.nil_subset _, by rw [List.length_nil]; omega⟩
  induction roots with
  | nil => intro s; exact .nil [] s
  | cons root rest ih =>
      intro s
      rw [visitAll]
      by_cases hvisited : root ∈ s.visited
      · rw [if_pos (by simpa using hvisited)]
        exact .passed hvisited List.not_mem_nil (ih s)
      · rw [if_neg (by simpa using hvisited)]
        exact .new hvisited (reaches hnext _ [] root s hroom (List.nil_subset _) hvisited) (ih _)

/-- **The search for the cycles of a graph comes to an end.** -/
theorem follows_cyclesOf (hnext : ∀ v, next v ≠ [] → v ∈ vertices) :
    ∃ s, Follows next [] vertices {} s ∧ s.cycles = cyclesOf vertices next :=
  ⟨_, follows_visitAll hnext vertices {}, rfl⟩

end Bound

/-! ## Order -/

/-- The vertices of the path and of every cycle stand in the order in which they were entered, the
newest first in `visited`; no two cycles are closed by one edge, and the caller of such an edge has
been entered. -/
structure IsOrderly (path : List String) (s : Search) : Prop where
  nodup : s.visited.Nodup
  path_sublist : path.reverse.Sublist s.visited
  cycle_sublist : ∀ cycle ∈ s.cycles, cycle.reverse.Sublist s.visited
  caller_visited : ∀ e, Closes s.cycles e → e.caller ∈ s.visited
  ends : ∀ cycle ∈ s.cycles, ∃ e : CallEdge,
    cycle.getLast? = some e.caller ∧ cycle.head? = some e.callee
  distinct : s.cycles.Pairwise fun a b => ¬ (a.getLast? = b.getLast? ∧ a.head? = b.head?)

theorem IsOrderly.path_subset {path : List String} {s : Search} (h : IsOrderly path s) :
    path ⊆ s.visited := fun _ hv => h.path_sublist.subset (List.mem_reverse.mpr hv)

theorem IsOrderly.enter {path : List String} {s : Search} (h : IsOrderly path s) {vertex : String}
    (hnew : vertex ∉ s.visited) : IsOrderly (path ++ [vertex]) (s.enter vertex) where
  nodup := List.nodup_cons.mpr ⟨hnew, h.nodup⟩
  path_sublist := by
    rw [List.reverse_append, List.reverse_singleton]
    exact h.path_sublist.cons_cons vertex
  cycle_sublist cycle hcycle := (h.cycle_sublist cycle hcycle).cons vertex
  caller_visited e he := List.mem_cons_of_mem _ (h.caller_visited e he)
  ends := h.ends
  distinct := h.distinct

/-- The search goes back along the path. -/
theorem IsOrderly.leave {path : List String} {s : Search} {vertex : String}
    (h : IsOrderly (path ++ [vertex]) s) : IsOrderly path s where
  nodup := h.nodup
  path_sublist := by
    have hpath := h.path_sublist
    rw [List.reverse_append, List.reverse_singleton] at hpath
    exact (List.sublist_cons_self vertex path.reverse).trans hpath
  cycle_sublist := h.cycle_sublist
  caller_visited := h.caller_visited
  ends := h.ends
  distinct := h.distinct

theorem closes_close_iff {path : List String} {last target : String} {s : Search}
    (hlast : path.getLast? = some last) (htarget : target ∈ path) {e : CallEdge} :
    Closes (s.close path target).cycles e ↔ Closes s.cycles e ∨ e = ⟨last, target⟩ := by
  obtain ⟨after, -, hend, hcycles⟩ := exists_cycles_close s hlast htarget
  unfold Closes
  rw [hcycles]
  simp only [List.mem_append, List.mem_singleton, or_and_right, exists_or, exists_eq_left, hend,
    List.head?_cons, Option.some.injEq]
  refine or_congr_right ⟨?_, ?_⟩
  · rintro ⟨hcaller, hcallee⟩
    rw [hcaller, hcallee]
  · rintro rfl
    exact ⟨rfl, rfl⟩

/-- An edge back that is followed for the first time closes a cycle of its own. -/
theorem IsOrderly.close {path : List String} {last target : String} {s : Search}
    (h : IsOrderly path s) (hlast : path.getLast? = some last) (htarget : target ∈ path)
    (hfirst : ¬ Closes s.cycles ⟨last, target⟩) : IsOrderly path (s.close path target) := by
  obtain ⟨after, hsuffix, hend, hcycles⟩ := exists_cycles_close s hlast htarget
  refine ⟨h.nodup, h.path_sublist, ?_, ?_, ?_, ?_⟩
  · intro cycle hcycle
    rw [hcycles, List.mem_append, List.mem_singleton] at hcycle
    rcases hcycle with hcycle | rfl
    · exact h.cycle_sublist cycle hcycle
    · exact hsuffix.sublist.reverse.trans h.path_sublist
  · intro e he
    rcases (closes_close_iff hlast htarget).mp he with he | rfl
    · exact h.caller_visited e he
    · exact h.path_subset (List.mem_of_getLast? hlast)
  · intro cycle hcycle
    rw [hcycles, List.mem_append, List.mem_singleton] at hcycle
    rcases hcycle with hcycle | rfl
    · exact h.ends cycle hcycle
    · exact ⟨⟨last, target⟩, hend, rfl⟩
  · rw [hcycles, List.pairwise_append]
    refine ⟨h.distinct, List.pairwise_singleton _ _, ?_⟩
    rintro cycle hcycle other hother ⟨hlast', hhead'⟩
    rw [List.mem_singleton.mp hother] at hlast' hhead'
    exact hfirst ⟨cycle, hcycle, hlast'.trans hend, hhead'⟩

/-! ## Edges followed once -/

section Fresh

variable {path targets rest : List String} {target last : String} {s s' : Search}

/-- No edge from the end of the path to a target has closed a cycle yet. -/
def Fresh (path targets : List String) (s : Search) : Prop :=
  ∀ last, path.getLast? = some last → ∀ w ∈ targets, ¬ Closes s.cycles ⟨last, w⟩

/-- What a search closes on the way: edges from vertices that it enters, and edges from the end of
the path to its targets. -/
def ClosesOnly (path targets : List String) (s s' : Search) : Prop :=
  ∀ e, Closes s'.cycles e → Closes s.cycles e ∨ e.caller ∉ s.visited ∨
    path.getLast? = some e.caller ∧ e.callee ∈ targets

theorem Fresh.tail (h : Fresh path (target :: rest) s) : Fresh path rest s :=
  fun last hlast w hw => h last hlast w (List.mem_cons_of_mem _ hw)

/-- None of the edges of a new vertex has been followed. -/
theorem IsOrderly.fresh_enter (h : IsOrderly path s) (hnew : target ∉ s.visited)
    (targets : List String) : Fresh (path ++ [target]) targets (s.enter target) := by
  intro last hlast w _ hcloses
  rw [List.getLast?_concat, Option.some.injEq] at hlast
  rw [← hlast] at hcloses
  exact hnew (h.caller_visited _ hcloses)

/-- Behind a new vertex the search closes edges from new vertices only. -/
theorem ClosesOnly.of_enter (h : ClosesOnly (path ++ [target]) targets (s.enter target) s')
    (hnew : target ∉ s.visited) {e : CallEdge} (he : Closes s'.cycles e) :
    Closes s.cycles e ∨ e.caller ∉ s.visited := by
  rcases h e he with hold | hcaller | ⟨hcaller, -⟩
  · exact Or.inl hold
  · exact Or.inr fun hmem => hcaller (List.mem_cons_of_mem _ hmem)
  · rw [List.getLast?_concat, Option.some.injEq] at hcaller
    exact Or.inr (hcaller ▸ hnew)

theorem Fresh.leave (h : Fresh path targets s) (horder : IsOrderly path s)
    (hclosed : ∀ e, Closes s'.cycles e → Closes s.cycles e ∨ e.caller ∉ s.visited) :
    Fresh path targets s' := by
  intro last hlast w hw hcloses
  rcases hclosed _ hcloses with hold | hcaller
  · exact h last hlast w hw hold
  · exact hcaller (horder.path_subset (List.mem_of_getLast? hlast))

/-- An edge back closes a cycle for its own target only. -/
theorem Fresh.close (h : Fresh path rest s) (hlast : path.getLast? = some last)
    (hback : target ∈ path) (hother : target ∉ rest) :
    Fresh path rest (s.close path target) := by
  intro last' hlast' w hw hcloses
  rcases (closes_close_iff hlast hback).mp hcloses with hold | heq
  · exact h last' hlast' w hw hold
  · rw [CallEdge.mk.injEq] at heq
    exact hother (heq.2 ▸ hw)

/-- **A search along different edges that it has not followed before keeps the order.** -/
theorem Follows.isOrderly (hnext : ∀ v, (next v).Nodup) (h : Follows next path targets s s') :
    IsOrderly path s → targets.Nodup → Fresh path targets s →
      IsOrderly path s' ∧ ClosesOnly path targets s s' := by
  -- what was closed on the way tells that the edges to the other targets are still fresh
  induction h with
  | nil path s => exact fun h _ _ => ⟨h, fun e he => Or.inl he⟩
  | @new path rest target s s' s'' hnew hinner hrest ihinner ihrest =>
      intro h hnodup hfresh
      obtain ⟨horder, honly⟩ :=
        ihinner (h.enter hnew) (hnext target) (h.fresh_enter hnew (next target))
      have hclosed : ∀ e, Closes s'.cycles e → Closes s.cycles e ∨ e.caller ∉ s.visited :=
        fun e => honly.of_enter hnew
      obtain ⟨horder', honly'⟩ :=
        ihrest horder.leave (List.nodup_cons.mp hnodup).2 (hfresh.tail.leave h hclosed)
      refine ⟨horder', fun e he => ?_⟩
      rcases honly' e he with hold | hcaller | ⟨hcaller, hcallee⟩
      · exact (hclosed e hold).imp_right Or.inl
      · have hstays := (List.suffix_cons target s.visited).trans hinner.visited_suffix
        exact Or.inr (Or.inl fun hmem => hcaller (hstays.subset hmem))
      · exact Or.inr (Or.inr ⟨hcaller, List.mem_cons_of_mem _ hcallee⟩)
  | @back path rest target s s' _ hpath hrest ih =>
      intro h hnodup hfresh
      obtain ⟨htarget, hnodup⟩ := List.nodup_cons.mp hnodup
      obtain ⟨last, hlast⟩ : ∃ last, path.getLast? = some last :=
        Option.isSome_iff_exists.mp (List.getLast?_isSome.mpr (List.ne_nil_of_mem hpath))
      have hnow := hfresh last hlast target List.mem_cons_self
      obtain ⟨horder, honly⟩ :=
        ih (h.close hlast hpath hnow) hnodup (hfresh.tail.close hlast hpath htarget)
      refine ⟨horder, fun e he => ?_⟩
      rcases honly e he with hclosed | hcaller | ⟨hcaller, hcallee⟩
      · rcases (closes_close_iff hlast hpath).mp hclosed with hold | rfl
        · exact Or.inl hold
        · exact Or.inr (Or.inr ⟨hlast, List.mem_cons_self⟩)
      · exact Or.inr (Or.inl hcaller)
      · exact Or.inr (Or.inr ⟨hcaller, List.mem_cons_of_mem _ hcallee⟩)
  | @passed path rest target s s' _ _ hrest ih =>
      intro h hnodup hfresh
      obtain ⟨horder, honly⟩ := ih h (List.nodup_cons.mp hnodup).2 hfresh.tail
      refine ⟨horder, fun e he => (honly e he).imp_right (Or.imp_right ?_)⟩
      exact fun hends => ⟨hends.1, List.mem_cons_of_mem _ hends.2⟩

end Fresh

/-! ## Cycles told apart -/

theorem IsOrderly.cycle_nodup {path : List String} {s : Search} (h : IsOrderly path s)
    {cycle : List String} (hcycle : cycle ∈ s.cycles) : cycle.Nodup :=
  List.nodup_reverse.mp (h.nodup.sublist (h.cycle_sublist cycle hcycle))

/-- Cycles with the same vertices have them in the same order, and so they are the same. -/
theorem IsOrderly.eq_of_perm {path : List String} {s : Search} (h : IsOrderly path s)
    {a b : List String} (ha : a ∈ s.cycles) (hb : b ∈ s.cycles) (hperm : a.Perm b) : a = b := by
  have hreverse : a.reverse.Perm b.reverse :=
    (List.reverse_perm a).trans (hperm.trans (List.reverse_perm b).symm)
  exact List.reverse_injective
    ((h.nodup.perm_iff_eq_of_sublist (h.cycle_sublist a ha) (h.cycle_sublist b hb)).mp hreverse)

theorem IsOrderly.not_isRotated {path : List String} {s : Search} (h : IsOrderly path s) :
    s.cycles.Pairwise fun a b => ¬ a.IsRotated b := by
  refine h.distinct.imp_of_mem fun {a b} ha hb hends hrotated => ?_
  rw [h.eq_of_perm ha hb hrotated.perm] at hends
  exact hends ⟨rfl, rfl⟩

theorem isOrderly_start : IsOrderly [] {} where
  nodup := List.nodup_nil
  path_sublist := List.Sublist.refl _
  cycle_sublist _ hcycle := absurd hcycle List.not_mem_nil
  caller_visited := fun _ ⟨_, hcycle, _⟩ => absurd hcycle List.not_mem_nil
  ends _ hcycle := absurd hcycle List.not_mem_nil
  distinct := List.Pairwise.nil

end Search

/-- **The reported cycles are there, and each is reported once.** The search comes to an end. Every
cycle of the list is a closed walk through different vertices, none is a rotation of another one,
and there are no more of them than edges. -/
theorem cycles_sound (functions : List QualifiedFunction) :
    let graph := ofFunctions functions
    (∃ s, Search.Follows graph.callees [] graph.nodes.keys {} s ∧ s.cycles = graph.cycles) ∧
    (∀ cycle ∈ graph.cycles, cycle.Nodup ∧ graph.IsRound cycle) ∧
    graph.cycles.Pairwise (fun a b => ¬ a.IsRotated b) ∧
    graph.cycles.length ≤ graph.edges.length := by
  intro graph
  have hkeyed : graph.Keyed := keyed_ofFunctions functions
  have hlists : graph.Lists graph.edges := lists_ofFunctions functions
  have hends : ∃ s, Search.Follows graph.callees [] graph.nodes.keys {} s ∧
      s.cycles = graph.cycles := Search.follows_cyclesOf fun _ => callees_ne_nil
  obtain ⟨s, hfollows, hcycles⟩ := hends
  have hreal : Search.AllReal graph.callees graph.cycles :=
    cyclesOf_real graph.nodes.keys graph.callees
  have horder : Search.IsOrderly [] s :=
    (hfollows.isOrderly (fun v => (hlists.callees_increasing v).imp ne_of_lt)
      Search.isOrderly_start (hkeyed.increasing.imp ne_of_lt)
      fun last hlast => absurd hlast (by simp)).1
  have hround : ∀ cycle ∈ graph.cycles, graph.IsRound cycle := fun cycle hcycle =>
    ⟨(hreal cycle hcycle).1, fun e he => hlists.mem_callees.mp ((hreal cycle hcycle).2 e he)⟩
  refine ⟨⟨s, hfollows, hcycles⟩, fun cycle hcycle => ⟨?_, hround cycle hcycle⟩, ?_, ?_⟩
  · exact horder.cycle_nodup (hcycles ▸ hcycle)
  · exact hcycles ▸ horder.not_isRotated
  · -- a cycle is told by its closing edge, which is an edge of the graph
    have hnodup : (graph.cycles.map fun cycle => (cycle.getLast?, cycle.head?)).Nodup := by
      rw [← hcycles, List.Nodup, List.pairwise_map]
      exact horder.distinct.imp fun hne heq => hne (Prod.mk.inj heq)
    have hsub : (graph.cycles.map fun cycle => (cycle.getLast?, cycle.head?)) ⊆
        graph.edges.map fun e => (some e.caller, some e.callee) := by
      intro ends hends
      obtain ⟨cycle, hcycle, rfl⟩ := List.mem_map.mp hends
      obtain ⟨e, hlast, hhead⟩ := horder.ends cycle (hcycles ▸ hcycle)
      rw [hlast, hhead]
      exact List.mem_map_of_mem ((hround cycle hcycle).2 e (closing_mem_roundEdges hlast hhead))
    have hlength := hnodup.length_le_of_subset hsub
    rwa [List.length_map, List.length_map] at hlength

end ChangeScope.CallGraph
