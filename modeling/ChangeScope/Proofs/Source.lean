import ChangeScope.Proofs.Change.Part

/-!
# Indexed functions

The span of an indexed function is lines of the text and its body is what stands there. Of two
functions the later one lies after the earlier one or inside it (`exact_and_nested`). This is so
whichever parser has made the syntax tree, if it does what parsers of sources do
(`Python.Faithful`).
-/

set_option autoImplicit false

namespace ChangeScope

namespace SourceFile

variable {parser : Syntax.Parser} {path : Path} {text : List Char} {file : SourceFile}

/-- The later of two indexed functions lies after the earlier one or inside it. -/
theorem nests_of_ofText (hfaithful : Python.Faithful parser)
    (h : ofText path text parser = .ok file) :
    file.functions.Pairwise fun f g =>
      f.startLine < g.startLine ∧ (f.endLine < g.startLine ∨ g.endLine ≤ f.endLine) := by
  obtain ⟨-, root, hroot, herror, hfunctions⟩ := exists_root h
  have hfair := fair_of_faithful hfaithful hroot herror
  have hinside : root.IsLaid text := hfaithful.laid hroot herror root (by
    rw [Syntax.Node.nodes_eq]
    exact List.mem_cons_self)
  have hnests := Python.nests_definitionsAmong _ hinside.inside hfair
  rw [hfunctions, List.pairwise_filterMap]
  refine hnests.imp_of_mem fun {d e} hd he hde f hf g hg => ?_
  obtain ⟨hmem, hdefinition⟩ := Python.definitionsAmong_subset _ d hd
  obtain ⟨hmem', hdefinition'⟩ := Python.definitionsAmong_subset _ e he
  obtain ⟨hstart, hend⟩ := lines_of_functionOf? hf
  obtain ⟨hstart', hend'⟩ := lines_of_functionOf? hg
  rw [hstart, hend, hstart', hend']
  exact hde.lines (hfair.laid d hmem) (hfair.stands d hmem hdefinition) (hfair.laid e hmem')
    (hfair.stands e hmem' hdefinition')

/-- The lines of a function whose span is one of the text. -/
theorem body_of_functionOf? {node : Syntax.Node} {f : FunctionDef}
    (h : Python.functionOf? path text node = some f) (hle : f.startLine ≤ f.endLine)
    (hlast : f.endLine ≤ (Text.rows text).length) :
    f.body.toList =
      Text.join ['\n'] (((Text.rows text).take f.endLine).drop (f.startLine - 1)) := by
  obtain ⟨name, -, rfl⟩ := Option.map_eq_some_iff.mp h
  have hmin : min (Python.endLine node) (Text.rows text).length = Python.endLine node :=
    Nat.min_eq_left hlast
  have hfirst : Python.startLine node - 1 ≤ Python.endLine node :=
    (Nat.sub_le _ _).trans hle
  show (String.ofList _).toList = _
  rw [String.toList_ofList, hmin, Python.linesBetween?, if_pos ⟨hfirst, hlast⟩]
  rfl

/-- **Spans are exact and nest.** Each function of an indexed text starts on a line of it and ends
there or on a later one; its body is these lines, joined by line feeds, as they stand in the text.
The functions are in the order of their first lines, and two spans have no line in common unless the
later one lies inside the earlier one. So no span is inverted where changed lines are looked up. -/
theorem exact_and_nested (hfaithful : Python.Faithful parser)
    (h : ofText path text parser = .ok file) :
    (∀ f ∈ file.functions,
      1 ≤ f.startLine ∧ f.startLine ≤ f.endLine ∧ f.endLine ≤ (Text.rows text).length ∧
      f.body.toList =
        Text.join ['\n'] (((Text.rows text).take f.endLine).drop (f.startLine - 1)) ∧
      Text.rows f.body.toList = ((Text.rows text).take f.endLine).drop (f.startLine - 1) ∧
      Text.IsLines text f.startLine f.endLine f.body.toList) ∧
    (file.functions.Pairwise fun f g =>
      f.startLine < g.startLine ∧ (f.endLine < g.startLine ∨ g.endLine ≤ f.endLine)) ∧
    ∀ lines status, ∃ changed,
      ChangedFunction.ofFile lines status file.functions = .ok changed := by
  refine ⟨fun f hf => ?_, nests_of_ofText hfaithful h, fun lines status => ?_⟩
  · obtain ⟨hpos, hle, hend⟩ := span_of_ofText hfaithful h hf
    have hlast : f.endLine ≤ (Text.rows text).length :=
      hend.trans (Text.length_linesOfRows_le (Text.rows text))
    obtain ⟨root, -, -, node, -, hfunction⟩ := exists_definition h hf
    have hbody := body_of_functionOf? hfunction hle hlast
    obtain ⟨hlines, hrows⟩ := Text.isLines_join hpos hle hlast
    rw [← hbody] at hlines hrows
    exact ⟨hpos, hle, hlast, hbody, hrows, hlines⟩
  · exact ⟨_, ChangedFunction.ofFile_eq fun f hf => (span_of_ofText hfaithful h hf).2.1⟩

end SourceFile

/-! ## Comments of two depths

A function inside another one. Of the comments after it one belongs to it, and both to the outer
function; nothing ends the last line. -/

namespace Commented

open Python (branch leaf passNode plainFunction)

def source : String :=
  "def f():\n    def g():\n        pass\n        # inner\n    # outer\ndef h(): pass"

/-- The syntax tree of the file. -/
def syntaxTree : Syntax.Node :=
  let text := source.toList
  branch text "module" none 0 76
    [plainFunction text 0 13 62
        [plainFunction text 13 30 50 [passNode text 30, branch text "comment" none 43 50 []],
          branch text "comment" none 55 62 []],
      plainFunction text 63 72 76 [passNode text 72]]

def recorded : Syntax.Parser := Python.recorded source.toList syntaxTree

theorem faithful_recorded : Python.Faithful recorded :=
  Python.faithful_recorded (by decide +kernel) (by decide +kernel)

/-- The file, indexed. -/
def indexed : SourceFile :=
  { path := ⟨"m.py"⟩
    language := "python"
    functions :=
      [⟨⟨"m.py"⟩, "f", 1, 5,
          "def f():\n    def g():\n        pass\n        # inner\n    # outer", []⟩,
        ⟨⟨"m.py"⟩, "g", 2, 4, "    def g():\n        pass\n        # inner", []⟩,
        ⟨⟨"m.py"⟩, "h", 6, 6, "def h(): pass", []⟩]
    bindings := [] }

theorem ofText_source : SourceFile.ofText ⟨"m.py"⟩ source.toList recorded = .ok indexed := by
  unfold SourceFile.ofText Python.parse recorded Python.recorded
  rw [if_pos (by decide), if_pos rfl]
  rfl

end Commented

theorem SourceFile.exact_and_nested_commented :
    Python.Faithful Commented.recorded ∧
      ofText ⟨"m.py"⟩ Commented.source.toList Commented.recorded = .ok Commented.indexed ∧
      Commented.indexed.functions.map (fun f => (f.name, f.startLine, f.endLine)) =
        [("f", 1, 5), ("g", 2, 4), ("h", 6, 6)] ∧
      (Commented.indexed.functions.Pairwise fun f g =>
        f.startLine < g.startLine ∧ (f.endLine < g.startLine ∨ g.endLine ≤ f.endLine)) :=
  ⟨Commented.faithful_recorded, Commented.ofText_source, rfl,
    (exact_and_nested Commented.faithful_recorded Commented.ofText_source).2.1⟩

end ChangeScope
