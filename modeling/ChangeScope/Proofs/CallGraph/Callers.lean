import ChangeScope.Proofs.CallGraph.Edges
import ChangeScope.Proofs.Change.Isolation

/-!
# Callers with one id

Functions of one file with the same name have the same id, and the graph keeps the first of them.
So the calls of a changed function are edges exactly where the first changed function of its id
makes them (`Analysis.edge_iff_first_calls`); those of a later one can be lost
(`Analysis.later_caller_lost`).
-/

set_option autoImplicit false

namespace ChangeScope

theorem QualifiedFunction.function_of_ofChanged {tree : FileTree} {files : List IndexedFile}
    {root : Path} {f : ChangedFunction} {q : QualifiedFunction}
    (h : ofChanged tree files root f = .ok q) : q.function = f := by
  unfold ofChanged at h
  obtain ⟨⟨sites, body⟩, -, hq⟩ := ok_of_bind h
  rw [← Except.ok.inj hq]

namespace Analysis

/-- The first qualified function of an id belongs to the first changed function of that id. -/
theorem find?_qualified {tree : FileTree} {root : Path} {files : List IndexedFile} {id : String}
    {changed : List ChangedFunction} {functions : List QualifiedFunction}
    (h : List.Forall₂ (fun f q => QualifiedFunction.ofChanged tree files root f = .ok q) changed
      functions) {f : ChangedFunction} (hfind : changed.find? (·.id == id) = some f) :
    ∃ q, QualifiedFunction.ofChanged tree files root f = .ok q ∧
      functions.find? (·.id == id) = some q := by
  induction h with
  | nil => exact absurd hfind (by simp)
  | @cons g q changed functions hq _ ih =>
      have hid : q.id = g.id := by
        rw [QualifiedFunction.id, QualifiedFunction.function_of_ofChanged hq]
      by_cases hg : g.id = id
      · rw [List.find?_cons_of_pos (by simpa using hg)] at hfind
        obtain rfl := Option.some.inj hfind
        exact ⟨q, hq, List.find?_cons_of_pos (by simpa [hid] using hg)⟩
      · rw [List.find?_cons_of_neg (by simpa using hg)] at hfind
        obtain ⟨q', hq', hfind'⟩ := ih hfind
        exact ⟨q', hq', by rw [List.find?_cons_of_neg (by simpa [hid] using hg)]; exact hfind'⟩

end Analysis

namespace CallGraph

/-- The edges from an id are the known calls of the first function with it. -/
theorem mem_edges_of_first {functions : List QualifiedFunction} {q : QualifiedFunction}
    (h : functions.find? (·.id == q.id) = some q) {c : String} :
    ⟨q.id, c⟩ ∈ (ofFunctions functions).edges ↔ ∃ site ∈ q.sites, site.calleeId = some c := by
  rw [mem_edges_ofFunctions]
  constructor
  · rintro ⟨f, hf, hid, hsite⟩
    have hfirst := mem_firsts_iff.mp hf
    rw [hid, h] at hfirst
    obtain rfl := Option.some.inj hfirst
    exact hsite
  · intro hsite
    exact ⟨q, mem_firsts_iff.mpr h, rfl, hsite⟩

end CallGraph

/-- **The calls from the id of a changed function are those of the first changed function with that
id**, and what it calls under another id is no parent. -/
theorem Analysis.edge_iff_first_calls {tree : FileTree} {root : Path} {analysis : Analysis}
    {functions : List QualifiedFunction} (hqualify : analysis.qualify tree root = .ok functions)
    {id : String} {f : ChangedFunction} (hfirst : analysis.changed.find? (·.id == id) = some f) :
    ∃ q, QualifiedFunction.ofChanged tree analysis.files root f = .ok q ∧
      ∀ c, (⟨id, c⟩ ∈ (CallGraph.ofFunctions functions).edges ↔
          ∃ site ∈ q.sites, site.calleeId = some c) ∧
        ((∃ site ∈ q.sites, site.calleeId = some c) → c ≠ id →
          c ∉ (CallGraph.ofFunctions functions).parents) := by
  obtain ⟨q, hq, hfind⟩ := find?_qualified (mapM_ok_iff.mp hqualify) hfirst
  have hid : q.id = id := by
    have hmatch := List.find?_some hfind
    exact beq_iff_eq.mp hmatch
  subst hid
  refine ⟨q, hq, fun c => ⟨CallGraph.mem_edges_of_first hfind, ?_⟩⟩
  intro hsite hne hparent
  have hedge := (CallGraph.mem_edges_of_first hfind).mpr hsite
  obtain ⟨-, hcallers⟩ := ((CallGraph.keyed_ofFunctions functions).mem_parents
    (CallGraph.lists_ofFunctions functions)).mp hparent
  exact hne (hcallers q.id hedge).symm

/-! ## A name defined twice -/

namespace Twice

/-- The functions of the file with their calls. -/
def qualified : List QualifiedFunction :=
  [⟨⟨⟨⟨"/repo/m.py"⟩, "f", 1, 2, "def f():\n    pass", []⟩, [1, 2], .untracked⟩, [],
      "def f():\n    pass"⟩,
    ⟨⟨⟨⟨"/repo/m.py"⟩, "f", 3, 4, "def f():\n    g()", []⟩, [3, 4], .untracked⟩,
      [⟨4, 5, "g", none, some "/repo/m.py::g", ""⟩], "def f():\n    /repo/m.py::g()"⟩,
    ⟨⟨⟨⟨"/repo/m.py"⟩, "g", 5, 6, "def g():\n    pass", []⟩, [5, 6], .untracked⟩, [],
      "def g():\n    pass"⟩]

theorem qualify_found : found.qualify tree root = .ok qualified := by
  have hfirst : Call.lexemes "def f():\n    pass".toList =
      [.word "def".toList, .mark ' ', .word ['f'], .mark '(', .mark ')', .mark ':', .mark '\n',
        .mark ' ', .mark ' ', .mark ' ', .mark ' ', .word "pass".toList] := by
    cbv
  have hsecond : Call.lexemes "def f():\n    g()".toList =
      [.word "def".toList, .mark ' ', .word ['f'], .mark '(', .mark ')', .mark ':', .mark '\n',
        .mark ' ', .mark ' ', .mark ' ', .mark ' ', .word ['g'], .mark '(', .mark ')'] := by
    cbv
  have hthird : Call.lexemes "def g():\n    pass".toList =
      [.word "def".toList, .mark ' ', .word ['g'], .mark '(', .mark ')', .mark ':', .mark '\n',
        .mark ' ', .mark ' ', .mark ' ', .mark ' ', .word "pass".toList] := by
    cbv
  unfold Analysis.qualify
  rw [mapM_ok_iff]
  unfold QualifiedFunction.ofChanged Call.qualify Call.scan
  refine .cons ?_ (.cons ?_ (.cons ?_ .nil))
  · dsimp only
    rw [hfirst]
    rfl
  · dsimp only
    rw [hsecond]
    rfl
  · dsimp only
    rw [hthird]
    rfl

end Twice

/-- The calls from the name that is defined twice are those of its first definition. -/
theorem Analysis.edge_iff_first_calls_twice :
    Twice.found.qualify Twice.tree Twice.root = .ok Twice.qualified ∧
      Twice.found.changed.find? (·.id == "/repo/m.py::f") = Twice.qualified[0].function ∧
      ∃ q, QualifiedFunction.ofChanged Twice.tree Twice.found.files Twice.root
          Twice.qualified[0].function = .ok q ∧
        ∀ c, (⟨"/repo/m.py::f", c⟩ ∈ (CallGraph.ofFunctions Twice.qualified).edges ↔
            ∃ site ∈ q.sites, site.calleeId = some c) ∧
          ((∃ site ∈ q.sites, site.calleeId = some c) → c ≠ "/repo/m.py::f" →
            c ∉ (CallGraph.ofFunctions Twice.qualified).parents) := by
  have hfirst : Twice.found.changed.find? (·.id == "/repo/m.py::f") =
      some Twice.qualified[0].function := by
    decide
  exact ⟨Twice.qualify_found, hfirst, edge_iff_first_calls Twice.qualify_found hfirst⟩

/-- The call of the second definition is no edge, and what it calls counts as a parent. -/
theorem Analysis.later_caller_lost :
    (ofTarget (Twice.git "m.py\n") Twice.tree {} Twice.root .workingTree).run.run [] =
        (.ok Twice.found, Twice.calls) ∧
      Twice.found.qualify Twice.tree Twice.root = .ok Twice.qualified ∧
      Twice.qualified[1].id = "/repo/m.py::f" ∧
      (∃ site ∈ Twice.qualified[1].sites, site.calleeId = some "/repo/m.py::g") ∧
      ⟨"/repo/m.py::f", "/repo/m.py::g"⟩ ∉ (CallGraph.ofFunctions Twice.qualified).edges ∧
      "/repo/m.py::g" ∈ (CallGraph.ofFunctions Twice.qualified).parents := by
  refine ⟨Twice.run_once Twice.indexes_python, Twice.qualify_found, ?_, ?_, ?_, ?_⟩
  · decide
  · exact ⟨_, List.mem_cons_self, rfl⟩
  · decide
  · decide

end ChangeScope
