import ChangeScope.Proofs.CallGraph.Edges

/-!
# Cycles by depth-first search

Every closed walk of a graph has an edge that closes a cycle which the search reports
(`cycles_complete`). A vertex is left when all its edges have been followed. Each of its edges then
leads to a vertex that was left before it or closes a cycle (`Settled`), so the edges that close
nothing go back in the order of leaving and never around.
-/

set_option autoImplicit false

namespace ChangeScope.CallGraph

/-- The edge closes a cycle of a list: it leads from the last vertex of the cycle to the first. -/
def Closes (cycles : List (List String)) (e : CallEdge) : Prop :=
  ∃ cycle ∈ cycles, cycle.getLast? = some e.caller ∧ cycle.head? = some e.callee

theorem Closes.of_subset {cycles cycles' : List (List String)} {e : CallEdge}
    (h : Closes cycles e) (hsub : cycles ⊆ cycles') : Closes cycles' e := by
  obtain ⟨cycle, hcycle, hedge⟩ := h
  exact ⟨cycle, hsub hcycle, hedge⟩

namespace Search

variable {next : String → List String} {vertices : List String}

/-! ## Vertices that have been left -/

/-- Of some vertices, the last one to be left first: every edge of a vertex leads to a vertex left
before it or closes a cycle. -/
def Settled (next : String → List String) (cycles : List (List String)) : List String → Prop
  | [] => True
  | v :: left => (∀ w ∈ next v, w ∈ left ∨ Closes cycles ⟨v, w⟩) ∧ Settled next cycles left

theorem Settled.of_subset {cycles cycles' : List (List String)} {left : List String}
    (h : Settled next cycles left) (hsub : cycles ⊆ cycles') : Settled next cycles' left := by
  induction left with
  | nil => trivial
  | cons v left ih =>
      obtain ⟨hv, hleft⟩ := h
      refine ⟨fun w hw => ?_, ih hleft⟩
      rcases hv w hw with hmem | hcloses
      · exact Or.inl hmem
      · exact Or.inr (hcloses.of_subset hsub)

/-- From a vertex that was left, edges that close nothing lead only to vertices left before. -/
theorem Settled.acyclic {cycles : List (List String)} {left : List String}
    (h : Settled next cycles left) {v : String} (hv : v ∈ left) :
    ¬ Relation.TransGen (fun a b => b ∈ next a ∧ ¬ Closes cycles ⟨a, b⟩) v v := by
  -- what is reached from the vertices of a settled list stays in it
  have hstay : ∀ {left : List String}, Settled next cycles left → ∀ {a b : String}, a ∈ left →
      b ∈ next a → ¬ Closes cycles ⟨a, b⟩ → b ∈ left := by
    intro left h
    induction left with
    | nil => intro a b ha; exact absurd ha List.not_mem_nil
    | cons u left ih =>
        intro a b ha hb hopen
        rcases List.mem_cons.mp ha with rfl | ha
        · exact List.mem_cons_of_mem _ ((h.1 b hb).resolve_right hopen)
        · exact List.mem_cons_of_mem _ (ih h.2 ha hb hopen)
  have hreach : ∀ {left : List String}, Settled next cycles left → ∀ {a b : String}, a ∈ left →
      Relation.ReflTransGen (fun a b => b ∈ next a ∧ ¬ Closes cycles ⟨a, b⟩) a b → b ∈ left := by
    intro left h a b ha hab
    induction hab with
    | refl => exact ha
    | tail _ hstep ih => exact hstay h ih hstep.1 hstep.2
  induction left with
  | nil => exact absurd hv List.not_mem_nil
  | cons u left ih =>
      intro hround
      obtain ⟨hu, hleft⟩ := h
      rcases List.mem_cons.mp hv with rfl | hv
      · -- the first step goes to a vertex left before, from where the walk does not come back
        obtain ⟨w, ⟨hw, hopen⟩, hback⟩ := Relation.TransGen.head'_iff.mp hround
        have hmem := hreach hleft ((hu w hw).resolve_right hopen) hback
        exact ih hleft hmem hround
      · exact ih hleft hv hround

/-! ## Along a path -/

/-- How far the search has come on a path: what it has entered lies on the path or has been left,
and the vertices that have been left are settled. -/
structure Along (next : String → List String) (path left : List String) (s : Search) : Prop where
  settled : Settled next s.cycles left
  visited_iff : ∀ v, v ∈ s.visited ↔ v ∈ path ∨ v ∈ left

/-- A path of different vertices that have edges can be gone on with: it is shorter than the depth
allows. -/
structure Room (vertices path : List String) (depth : Nat) : Prop where
  nodup : path.Nodup
  subset : path ⊆ vertices
  enough : vertices.length < path.length + depth

theorem Room.pos {path : List String} {depth : Nat} (h : Room vertices path depth) : 0 < depth := by
  have hlength : path.length ≤ vertices.length := h.nodup.length_le_of_subset h.subset
  have henough := h.enough
  omega

theorem Room.step {path : List String} {depth : Nat} (h : Room vertices path (depth + 1))
    {v : String} (hv : v ∈ vertices) (hnew : v ∉ path) : Room vertices (path ++ [v]) depth where
  nodup := by
    rw [List.nodup_append]
    refine ⟨h.nodup, List.nodup_singleton v, ?_⟩
    intro a ha b hb hab
    rw [List.mem_singleton] at hb
    subst hb
    exact hnew (hab ▸ ha)
  subset := by
    intro a ha
    rcases List.mem_append.mp ha with ha | ha
    · exact h.subset ha
    · rw [List.mem_singleton.mp ha]
      exact hv
  enough := by
    have henough := h.enough
    rw [List.length_append, List.length_singleton]
    omega

/-- What a part of the search does on a path: further vertices have been left, and the cycles found
before are still there. -/
structure Went (next : String → List String) (path left : List String) (s : Search)
    (left' : List String) (s' : Search) : Prop where
  along : Along next path left' s'
  left_suffix : left <:+ left'
  cycles_prefix : s.cycles <+: s'.cycles

theorem Went.refl {path left : List String} {s : Search} (h : Along next path left s) :
    Went next path left s left s :=
  ⟨h, List.suffix_refl _, List.prefix_refl _⟩

theorem Went.trans {path left left' left'' : List String} {s s' s'' : Search}
    (h : Went next path left s left' s') (h' : Went next path left' s' left'' s'') :
    Went next path left s left'' s'' :=
  ⟨h'.along, h.left_suffix.trans h'.left_suffix, h.cycles_prefix.trans h'.cycles_prefix⟩

/-- The search from a vertex leaves the vertex. -/
def Leaves (next : String → List String) (vertices : List String) (depth : Nat) : Prop :=
  ∀ (path left : List String) (vertex : String) (s : Search), Room vertices path depth →
    Along next path left s → vertex ∉ s.visited →
    ∃ left', Went next path left s left' (visit next depth path vertex s) ∧ vertex ∈ left'

/-- The part of a path from one of its vertices on. -/
theorem exists_dropWhile {path : List String} {target : String} (h : target ∈ path) :
    ∃ before after, path = before ++ target :: after ∧
      path.dropWhile (· != target) = target :: after := by
  induction path with
  | nil => exact absurd h List.not_mem_nil
  | cons v path ih =>
      by_cases hv : v = target
      · subst hv
        exact ⟨[], path, rfl, by rw [List.dropWhile_cons_of_neg (by simp)]⟩
      · have hrest : target ∈ path := (List.mem_cons.mp h).resolve_left (Ne.symm hv)
        obtain ⟨before, after, hpath, hdrop⟩ := ih hrest
        refine ⟨v :: before, after, by rw [hpath]; rfl, ?_⟩
        rw [List.dropWhile_cons_of_pos (by simpa using hv), hdrop]

/-- The search with a closed cycle holds it after those found before. -/
theorem cycles_close (s : Search) (path : List String) (target : String) :
    (s.close path target).cycles = s.cycles ++ [path.dropWhile (· != target)] := rfl

/-- The closed cycle is the end of the path from the vertex on. -/
theorem exists_cycles_close {path : List String} {last target : String} (s : Search)
    (hlast : path.getLast? = some last) (htarget : target ∈ path) :
    ∃ after, target :: after <:+ path ∧ (target :: after).getLast? = some last ∧
      (s.close path target).cycles = s.cycles ++ [target :: after] := by
  obtain ⟨before, after, hpath, hdrop⟩ := exists_dropWhile htarget
  refine ⟨after, ⟨before, hpath.symm⟩, ?_, ?_⟩
  · rw [← hlast, hpath, List.getLast?_append, List.getLast?_cons, Option.some_or]
  · rw [cycles_close, hdrop]

/-- An edge from the end of a path to one of its vertices closes a cycle. -/
theorem close_closes {path : List String} {last target : String} (s : Search)
    (hlast : path.getLast? = some last) (htarget : target ∈ path) :
    Closes (s.close path target).cycles ⟨last, target⟩ := by
  obtain ⟨after, -, hend, hcycles⟩ := exists_cycles_close s hlast htarget
  refine ⟨target :: after, ?_, hend, rfl⟩
  rw [hcycles]
  exact List.mem_append_right _ List.mem_cons_self

theorem Along.close {path left : List String} {s : Search} (h : Along next path left s)
    (target : String) : Went next path left s left (s.close path target) where
  along :=
    { settled := h.settled.of_subset (by rw [cycles_close]; exact List.subset_append_left _ _)
      visited_iff := h.visited_iff }
  left_suffix := List.suffix_refl _
  cycles_prefix := by
    rw [cycles_close]
    exact List.prefix_append _ _

/-- The search after the edge from the end of a path to a target. -/
def advance (next : String → List String) (depth : Nat) (path : List String) (target : String)
    (s : Search) : Search :=
  if !s.visited.contains target then visit next depth path target s
  else if path.contains target then s.close path target
  else s

theorem advance_new {depth : Nat} {path : List String} {target : String} {s : Search}
    (h : target ∉ s.visited) :
    advance next depth path target s = visit next depth path target s := by
  rw [advance, if_pos (by simpa using h)]

theorem advance_back {depth : Nat} {path : List String} {target : String} {s : Search}
    (h : target ∈ s.visited) (hpath : target ∈ path) :
    advance next depth path target s = s.close path target := by
  rw [advance, if_neg (by simpa using h), if_pos (by simpa using hpath)]

theorem advance_left {depth : Nat} {path : List String} {target : String} {s : Search}
    (h : target ∈ s.visited) (hpath : target ∉ path) : advance next depth path target s = s := by
  rw [advance, if_neg (by simpa using h), if_neg (by simpa using hpath)]

theorem follow_nil {depth : Nat} {path : List String} {s : Search} :
    follow next depth path [] s = s := by
  rw [follow]

theorem follow_cons {depth : Nat} {path rest : List String} {target : String} {s : Search} :
    follow next depth path (target :: rest) s =
      follow next depth path rest (advance next depth path target s) := by
  rw [follow]
  rfl

theorem visit_succ {depth : Nat} {path : List String} {vertex : String} {s : Search} :
    visit next (depth + 1) path vertex s =
      follow next depth (path ++ [vertex]) (next vertex) (s.enter vertex) := by
  rw [visit]

/-- When one edge has been followed, its target has been left, or the edge closes a cycle. -/
theorem advance_settles {depth : Nat} (hleaves : Leaves next vertices depth)
    {path left : List String} {last target : String} {s : Search}
    (hlast : path.getLast? = some last) (hroom : Room vertices path depth)
    (h : Along next path left s) :
    ∃ left', Went next path left s left' (advance next depth path target s) ∧
      (target ∈ left' ∨ Closes (advance next depth path target s).cycles ⟨last, target⟩) := by
  by_cases hvisited : target ∈ s.visited
  · by_cases hpath : target ∈ path
    · rw [advance_back hvisited hpath]
      exact ⟨left, h.close target, Or.inr (close_closes s hlast hpath)⟩
    · rw [advance_left hvisited hpath]
      exact ⟨left, Went.refl h, Or.inl (((h.visited_iff target).mp hvisited).resolve_left hpath)⟩
  · rw [advance_new hvisited]
    obtain ⟨left', hwent, hmem⟩ := hleaves path left target s hroom h hvisited
    exact ⟨left', hwent, Or.inl hmem⟩

/-- All edges from the end of a path are followed. -/
theorem follow_settles {depth : Nat} (hleaves : Leaves next vertices depth)
    {path : List String} {last : String} (hlast : path.getLast? = some last)
    (targets : List String) :
    ∀ {left : List String} {s : Search}, (targets ≠ [] → Room vertices path depth) →
      Along next path left s →
      ∃ left', Went next path left s left' (follow next depth path targets s) ∧
        ∀ w ∈ targets, w ∈ left' ∨ Closes (follow next depth path targets s).cycles ⟨last, w⟩ := by
  induction targets with
  | nil =>
      intro left s _ h
      rw [follow_nil]
      exact ⟨left, Went.refl h, fun w hw => absurd hw List.not_mem_nil⟩
  | cons target rest ih =>
      intro left s hroom h
      have hroom := hroom (List.cons_ne_nil target rest)
      obtain ⟨left', hstep, htarget⟩ := advance_settles hleaves hlast hroom h
      obtain ⟨left'', hrest, hall⟩ := ih (fun _ => hroom) hstep.along
      rw [follow_cons]
      refine ⟨left'', hstep.trans hrest, ?_⟩
      intro w hw
      rcases List.mem_cons.mp hw with rfl | hw
      · rcases htarget with hmem | hcloses
        · exact Or.inl (hrest.left_suffix.subset hmem)
        · exact Or.inr (hcloses.of_subset hrest.cycles_prefix.subset)
      · exact hall w hw

/-- **A vertex from which the search goes is left, with everything that was entered on the way.** -/
theorem leaves (hnext : ∀ v, next v ≠ [] → v ∈ vertices) :
    ∀ depth, Leaves next vertices depth := by
  intro depth
  induction depth with
  | zero =>
      intro path left vertex s hroom
      exact absurd hroom.pos (Nat.lt_irrefl 0)
  | succ depth ih =>
      intro path left vertex s hroom h hnew
      have hpath : vertex ∉ path := fun hmem => hnew ((h.visited_iff vertex).mpr (Or.inl hmem))
      -- the vertex is the end of the path while its edges are followed
      have hentered : Along next (path ++ [vertex]) left (s.enter vertex) :=
        { settled := h.settled
          visited_iff := by
            intro v
            show v ∈ vertex :: s.visited ↔ _
            rw [List.mem_cons, h.visited_iff, List.mem_append, List.mem_singleton]
            tauto }
      obtain ⟨left', hwent, hall⟩ :=
        follow_settles ih (List.getLast?_concat (l := path) (a := vertex)) (next vertex)
          (fun hedges => hroom.step (hnext vertex hedges) hpath) hentered
      rw [visit_succ]
      refine ⟨vertex :: left', ⟨⟨⟨hall, hwent.along.settled⟩, ?_⟩, ?_, hwent.cycles_prefix⟩,
        List.mem_cons_self⟩
      · intro v
        rw [hwent.along.visited_iff, List.mem_append, List.mem_singleton, List.mem_cons]
        tauto
      · exact hwent.left_suffix.trans (List.suffix_cons _ _)

/-- The search from one vertex after another leaves them all. -/
theorem visitAll_settles (hnext : ∀ v, next v ≠ [] → v ∈ vertices) (roots : List String) :
    ∀ {left : List String} {s : Search}, Along next [] left s →
      ∃ left', Went next [] left s left' (visitAll next (vertices.length + 1) roots s) ∧
        ∀ v ∈ roots, v ∈ left' := by
  induction roots with
  | nil =>
      intro left s h
      exact ⟨left, Went.refl h, fun v hv => absurd hv List.not_mem_nil⟩
  | cons root rest ih =>
      intro left s h
      have hroom : Room vertices [] (vertices.length + 1) :=
        ⟨List.nodup_nil, List.nil_subset _, by rw [List.length_nil]; omega⟩
      -- a root that has been entered before has been left, since the path is empty
      have hroot : ∃ left', Went next [] left s left'
          (if s.visited.contains root then s else visit next (vertices.length + 1) [] root s) ∧
          root ∈ left' := by
        by_cases hvisited : root ∈ s.visited
        · rw [if_pos (by simpa using hvisited)]
          have hmem := ((h.visited_iff root).mp hvisited).resolve_left List.not_mem_nil
          exact ⟨left, Went.refl h, hmem⟩
        · rw [if_neg (by simpa using hvisited)]
          exact leaves hnext _ [] left root s hroom h hvisited
      obtain ⟨left', hfirst, hmem⟩ := hroot
      obtain ⟨left'', hrest, hall⟩ := ih hfirst.along
      refine ⟨left'', hfirst.trans hrest, ?_⟩
      intro v hv
      rcases List.mem_cons.mp hv with rfl | hv
      · exact hrest.left_suffix.subset hmem
      · exact hall v hv

/-! ## The cycles are there -/

/-- Every cycle of a list goes along edges and back. -/
def AllReal (next : String → List String) (cycles : List (List String)) : Prop :=
  ∀ cycle ∈ cycles, cycle ≠ [] ∧ ∀ e ∈ roundEdges cycle, e.callee ∈ next e.caller

/-- The search from a vertex that a path leads to finds cycles that are there. -/
def FindsReal (next : String → List String) (depth : Nat) : Prop :=
  ∀ (path : List String) (vertex : String) (s : Search),
    (path ++ [vertex]).IsChain (fun a b => b ∈ next a) → AllReal next s.cycles →
    AllReal next (visit next depth path vertex s).cycles

theorem close_real {path : List String} {last target : String} {s : Search}
    (hchain : path.IsChain fun a b => b ∈ next a) (hlast : path.getLast? = some last)
    (hedge : target ∈ next last) (htarget : target ∈ path) (h : AllReal next s.cycles) :
    AllReal next (s.close path target).cycles := by
  obtain ⟨after, hsuffix, hend, hcycles⟩ := exists_cycles_close s hlast htarget
  intro cycle hcycle
  rw [hcycles, List.mem_append, List.mem_singleton] at hcycle
  rcases hcycle with hcycle | rfl
  · exact h cycle hcycle
  · exact ⟨List.cons_ne_nil _ _, round_of_isChain (hchain.suffix hsuffix) hend hedge⟩

theorem follow_real {depth : Nat} (hfinds : FindsReal next depth) {path : List String}
    {last : String} (hchain : path.IsChain fun a b => b ∈ next a)
    (hlast : path.getLast? = some last) (targets : List String) :
    ∀ {s : Search}, (∀ w ∈ targets, w ∈ next last) → AllReal next s.cycles →
      AllReal next (follow next depth path targets s).cycles := by
  induction targets with
  | nil =>
      intro s _ h
      rw [follow_nil]
      exact h
  | cons target rest ih =>
      intro s hedges h
      have hedge := hedges target List.mem_cons_self
      rw [follow_cons]
      refine ih (fun w hw => hedges w (List.mem_cons_of_mem _ hw)) ?_
      by_cases hvisited : target ∈ s.visited
      · by_cases hpath : target ∈ path
        · rw [advance_back hvisited hpath]
          exact close_real hchain hlast hedge hpath h
        · rw [advance_left hvisited hpath]
          exact h
      · rw [advance_new hvisited]
        refine hfinds path target s
          (List.isChain_append.mpr ⟨hchain, List.isChain_singleton target, ?_⟩) h
        intro u hu w hw
        rw [hlast] at hu
        obtain rfl := Option.some.inj hu
        obtain rfl := Option.some.inj hw
        exact hedge

theorem finds_real (depth : Nat) : FindsReal next depth := by
  induction depth with
  | zero =>
      intro path vertex s _ h
      rw [visit]
      exact h
  | succ depth ih =>
      intro path vertex s hchain h
      rw [visit_succ]
      exact follow_real ih hchain (List.getLast?_concat (l := path) (a := vertex)) (next vertex)
        (fun w hw => hw) h

theorem visitAll_real (depth : Nat) (roots : List String) :
    ∀ {s : Search}, AllReal next s.cycles →
      AllReal next (visitAll next depth roots s).cycles := by
  induction roots with
  | nil => intro s h; exact h
  | cons root rest ih =>
      intro s h
      refine ih ?_
      split
      · exact h
      · exact finds_real depth [] root s (List.isChain_singleton _) h

end Search

/-! ## The cycles of a graph -/

/-- **Every cycle of the list is one of the graph.** -/
theorem cyclesOf_real (vertices : List String) (next : String → List String) :
    Search.AllReal next (cyclesOf vertices next) :=
  Search.visitAll_real _ _ fun _ h => absurd h List.not_mem_nil

/-- Without the edges that close the cycles of the list no way leads around. -/
theorem cyclesOf_cut {vertices : List String} {next : String → List String}
    (hnext : ∀ v, next v ≠ [] → v ∈ vertices) (v : String) :
    ¬ Relation.TransGen
      (fun a b => b ∈ next a ∧ ¬ Closes (cyclesOf vertices next) ⟨a, b⟩) v v := by
  intro hround
  have hstart : Search.Along next [] [] {} := ⟨trivial, fun v => by simp⟩
  obtain ⟨left, hwent, hall⟩ := Search.visitAll_settles hnext vertices hstart
  -- a vertex with an edge is one of those from which the search went
  obtain ⟨w, ⟨hw, -⟩, -⟩ := Relation.TransGen.head'_iff.mp hround
  have hv : v ∈ left := hall v (hnext v (List.ne_nil_of_mem hw))
  exact hwent.along.settled.acyclic hv hround

/-- An edge of the graph that closes none of its cycles. -/
def CallsOpenly (graph : CallGraph) (a b : String) : Prop :=
  graph.Calls a b ∧ ¬ Closes graph.cycles ⟨a, b⟩

theorem cycles_ofFunctions (functions : List QualifiedFunction) :
    (ofFunctions functions).cycles =
      cyclesOf (ofFunctions functions).nodes.keys (ofFunctions functions).callees := rfl

theorem callees_ne_nil {functions : List QualifiedFunction} {v : String}
    (h : (ofFunctions functions).callees v ≠ []) : v ∈ (ofFunctions functions).nodes.keys := by
  obtain ⟨w, hw⟩ := List.exists_mem_of_ne_nil _ h
  exact (keyed_ofFunctions functions).caller_mem ((lists_ofFunctions functions).mem_callees.mp hw)

/-- **Every closed walk has an edge that closes a reported cycle.** So no cycle is reported exactly
when no way leads around, and none is left when the closing edges are taken out. -/
theorem cycles_complete (functions : List QualifiedFunction) :
    (∀ walk, (ofFunctions functions).IsRound walk →
      ∃ e ∈ roundEdges walk, Closes (ofFunctions functions).cycles e) ∧
    ((ofFunctions functions).cycles = [] ↔
      ∀ v, ¬ Relation.TransGen (ofFunctions functions).Calls v v) ∧
    ∀ v, ¬ Relation.TransGen (ofFunctions functions).CallsOpenly v v := by
  -- the search leaves no way around through edges that close no cycle
  have hcut : ∀ v, ¬ Relation.TransGen (ofFunctions functions).CallsOpenly v v := by
    intro v hround
    have hle : (ofFunctions functions).CallsOpenly ≤ fun a b =>
        b ∈ (ofFunctions functions).callees a ∧ ¬ Closes (ofFunctions functions).cycles ⟨a, b⟩ :=
      fun a b hab => ⟨(lists_ofFunctions functions).mem_callees.mpr hab.1, hab.2⟩
    exact cyclesOf_cut (fun _ => callees_ne_nil) v (Relation.TransGen.mono hle v v hround)
  refine ⟨?_, ?_, hcut⟩
  · rintro walk ⟨hne, hwalk⟩
    by_contra hnone
    obtain ⟨v, hv⟩ := List.exists_mem_of_ne_nil walk hne
    have hopen : ∀ e ∈ roundEdges walk, (ofFunctions functions).CallsOpenly e.caller e.callee :=
      fun e he => ⟨hwalk e he, fun hcloses => hnone ⟨e, he, hcloses⟩⟩
    exact hcut v (transGen_of_round hopen hv hv)
  · constructor
    · intro hnil v hround
      have hle : (ofFunctions functions).Calls ≤ (ofFunctions functions).CallsOpenly := by
        intro a b hab
        refine ⟨hab, ?_⟩
        rintro ⟨cycle, hcycle, -⟩
        rw [hnil] at hcycle
        exact absurd hcycle List.not_mem_nil
      exact hcut v (Relation.TransGen.mono hle v v hround)
    · intro hacyclic
      by_contra hcycles
      obtain ⟨cycle, hcycle⟩ := List.exists_mem_of_ne_nil _ hcycles
      obtain ⟨hne, hreal⟩ := cyclesOf_real _ _ cycle (cycles_ofFunctions functions ▸ hcycle)
      obtain ⟨v, hv⟩ := List.exists_mem_of_ne_nil cycle hne
      have hedges : ∀ e ∈ roundEdges cycle, (ofFunctions functions).Calls e.caller e.callee :=
        fun e he => (lists_ofFunctions functions).mem_callees.mp (hreal e he)
      exact hacyclic v (transGen_of_round hedges hv hv)

end ChangeScope.CallGraph
