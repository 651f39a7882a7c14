import ChangeScope.Python.Block

/-!
# Reading statements

How the statements of functions are read from the tree of their lines, one function after the
other.
-/

set_option autoImplicit false

namespace ChangeScope.Python

/-- In a block nothing is pending at first. -/
theorem statementsIn_eq (inMatch : Bool) (nodes : List LineTree) :
    statementsIn inMatch nodes = statementsFrom inMatch .nothing nodes := by
  cases nodes with
  | nil =>
      rw [statementsIn, statementsFrom]
      rfl
  | cons node rest => rw [statementsIn]

theorem statementsFrom_nothing (inMatch : Bool) :
    statementsFrom inMatch .nothing [] = some [] := by
  rw [statementsFrom]
  rfl

/-- A function at the beginning of a block. -/
theorem statementsFrom_definition {l : Line} {block rest : List LineTree} {simple : List Token}
    {inside others : List Statement}
    (hl : Part.ofLine? l.tokens l.awaitsBlock false = some (.definition, simple))
    (hblock : statementsFrom false .nothing block = some inside)
    (hrest : statementsFrom false .nothing rest = some others) :
    statementsFrom false .nothing (.node l block :: rest) =
      some (.mk .definition l simple inside :: others) := by
  rw [statementsFrom, hl]
  show ((statementsIn false block).bind fun inside =>
    (statementsFrom false .nothing rest).bind fun others =>
      some (Statement.mk .definition l simple inside :: others)) = _
  rw [statementsIn_eq, hblock, hrest]
  rfl

/-- A block of one line that is a simple statement. -/
theorem statementsFrom_simple {l : Line}
    (hl : Part.ofLine? l.tokens l.awaitsBlock false = some (.simple, l.tokens)) :
    statementsFrom false .nothing [.node l []] = some [.mk .simple l l.tokens []] := by
  rw [statementsFrom, hl]
  show ((statementsIn false []).bind fun inside => (statementsFrom false .nothing []).bind
    fun others => some (Statement.mk .simple l l.tokens inside :: others)) = _
  rw [statementsIn_eq, statementsFrom_nothing]
  rfl

/-- Functions in a row, each of which has one simple statement for its block. -/
theorem statementsFrom_functions (functions : List (Line × Line))
    (h : ∀ f ∈ functions,
      Part.ofLine? f.1.tokens f.1.awaitsBlock false = some (.definition, []) ∧
        Part.ofLine? f.2.tokens f.2.awaitsBlock false = some (.simple, f.2.tokens)) :
    statementsFrom false .nothing (functions.map fun f => .node f.1 [.node f.2 []]) =
      some (functions.map fun f => .mk .definition f.1 [] [.mk .simple f.2 f.2.tokens []]) := by
  induction functions with
  | nil => exact statementsFrom_nothing false
  | cons f rest ih =>
      obtain ⟨hheader, hblock⟩ := h f List.mem_cons_self
      have hrest := ih fun g hg => h g (List.mem_cons_of_mem f hg)
      exact statementsFrom_definition hheader (statementsFrom_simple hblock) hrest

/-- A source of such functions is valid. -/
theorem parse?_functions {source : List Char} {lines : List Line} {functions : List (Line × Line)}
    (hlines : lines? source = some lines)
    (hnodes : nodesOf lines = functions.map fun f => .node f.1 [.node f.2 []])
    (h : ∀ f ∈ functions,
      Part.ofLine? f.1.tokens f.1.awaitsBlock false = some (.definition, []) ∧
        Part.ofLine? f.2.tokens f.2.awaitsBlock false = some (.simple, f.2.tokens)) :
    parse? source =
      some (functions.map fun f => .mk .definition f.1 [] [.mk .simple f.2 f.2.tokens []]) := by
  rw [parse?, hlines]
  show statementsFrom false .nothing (nodesOf lines) = _
  rw [hnodes]
  exact statementsFrom_functions functions h

end ChangeScope.Python
