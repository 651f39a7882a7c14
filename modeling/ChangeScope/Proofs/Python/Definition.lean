import ChangeScope.Proofs.Syntax
import ChangeScope.Python.Extract
import ChangeScope.Python.Token

/-!
# Definitions in a syntax tree

What a parser of sources is taken to do (`Faithful`): the trees that it gives are laid on their
texts, and a definition begins with its keyword on a row of its own. The functions that are taken
from such a tree span lines of the text, and of two of them the later one lies after the earlier one
or inside it (`Nests.lines`).
-/

set_option autoImplicit false

namespace ChangeScope.Python

open Syntax (Node Parser Point pointAt? rowBefore?)
open Text

/-! ## What a parser is taken to do -/

/-- How a definition stands in a text. -/
structure Stands (text : List Char) (node : Node) : Prop where
  /-- It begins with a keyword. -/
  keyword : ∃ word ∈ node.children.head?, word.children = [] ∧ word.kind ∈ ["def", "async"] ∧
    word.label.startByte = node.label.startByte ∧ word.text? text = some word.kind.toList
  /-- Only blanks stand before it on its row. -/
  alone : ∀ row ∈ rowBefore? text node.label.startByte, ∀ c ∈ row, isBlankInLine c = true
  /-- It ends at the beginning of a row, or behind something on its last row. -/
  closed : ∀ row ∈ rowBefore? text node.label.endByte,
    row = [] ∨ ∃ c ∈ row, isBlankInLine c = false

/-- The conditions on a definition, computed. -/
def stands (text : List Char) (node : Node) : Bool :=
  (node.children.head?.any fun word => word.children.isEmpty &&
      (["def", "async"].contains word.kind &&
        (word.label.startByte == node.label.startByte &&
          word.text? text == some word.kind.toList))) &&
    ((rowBefore? text node.label.startByte).all (·.all isBlankInLine) &&
      (rowBefore? text node.label.endByte).all fun row => row.isEmpty || !row.all isBlankInLine)

theorem stands_iff {text : List Char} {node : Node} :
    stands text node = true ↔ Stands text node := by
  have hclosed : ∀ found : Option (List Char),
      (found.all fun row => row.isEmpty || !row.all isBlankInLine) = true ↔
        ∀ row ∈ found, row = [] ∨ ∃ c ∈ row, isBlankInLine c = false := by
    intro found
    cases found <;> simp
  unfold stands
  rw [Bool.and_eq_true, Bool.and_eq_true, hclosed]
  constructor
  · rintro ⟨hkeyword, halone, hclosed⟩
    exact ⟨by simpa [Option.any_eq_true] using hkeyword,
      by simpa [Option.all_eq_true] using halone, hclosed⟩
  · rintro ⟨hkeyword, halone, hclosed⟩
    exact ⟨by simpa [Option.any_eq_true] using hkeyword,
      by simpa [Option.all_eq_true] using halone, hclosed⟩

instance (text : List Char) (node : Node) : Decidable (Stands text node) :=
  decidable_of_iff _ stands_iff

/-- What a parser of sources is taken to do with a text in which it finds no error. -/
structure Faithful (parser : Parser) : Prop where
  laid : ∀ {text : List Char} {root : Node}, parser text = some root → root.hasError = false →
    ∀ node ∈ root.nodes, node.IsLaid text
  stands : ∀ {text : List Char} {root : Node}, parser text = some root → root.hasError = false →
    ∀ node ∈ root.nodes, isDefinition node = true → Stands text node

/-! ## One definition -/

theorem exists_of_slice? {start stop : Nat} {text piece : List Char}
    (h : slice? start stop text = some piece) :
    ∃ front, front ++ piece <+: text ∧ byteLength front = start ∧
      byteLength (front ++ piece) = stop := by
  unfold slice? at h
  split at h
  · next hle =>
      obtain ⟨⟨inner, back⟩, hinner, rfl⟩ := Option.map_eq_some_iff.mp h
      obtain ⟨⟨front, rest⟩, hfront, hrest⟩ := Option.bind_eq_some_iff.mp hinner
      obtain ⟨rfl, rfl⟩ := Syntax.prefix_of_splitAtByte? hfront
      obtain ⟨rfl, hlength⟩ := Syntax.prefix_of_splitAtByte? hrest
      refine ⟨front, ⟨back, List.append_assoc _ _ _⟩, rfl, ?_⟩
      rw [byteLength_append, hlength]
      omega
  · cases h

/-- The keyword of a definition. -/
structure BeginsWith (text : List Char) (node word : Node) : Prop where
  child : node.children.head? = some word
  leaf : word.children = []
  kind : word.kind ∈ ["def", "async"]
  startByte : word.label.startByte = node.label.startByte
  text : word.text? text = some word.kind.toList

variable {text : List Char} {node : Node} {front whole : List Char}

theorem Stands.exists_keyword (h : Stands text node) : ∃ word, BeginsWith text node word := by
  obtain ⟨word, hchild, hleaf, hkind, hstart, htext⟩ := h.keyword
  exact ⟨word, hchild, hleaf, hkind, hstart, htext⟩

/-- A keyword is a word on one row. -/
theorem keyword_chars {kind : String} (h : kind ∈ ["def", "async"]) :
    ∃ c rest, kind.toList = c :: rest ∧ isBlankInLine c = false ∧ '\n' ∉ c :: rest := by
  simp only [List.mem_cons, List.not_mem_nil, or_false] at h
  rcases h with rfl | rfl
  · exact ⟨'d', ['e', 'f'], by decide, by decide, by decide⟩
  · exact ⟨'a', ['s', 'y', 'n', 'c'], by decide, by decide, by decide⟩

/-- The text of a keyword comes right behind what is before the definition. -/
theorem BeginsWith.leads {word : Node} (h : BeginsWith text node word)
    (hspans : node.Spans text front whole) :
    front ++ word.kind.toList <+: text ∧
      byteLength (front ++ word.kind.toList) = word.label.endByte := by
  obtain ⟨front', hleads, hstart, hend⟩ := exists_of_slice? h.text
  have hlength : byteLength front' = byteLength front := by
    rw [hstart, hspans.front_length, h.startByte]
  have hfront := hspans.front_prefix.trans hspans.whole_prefix
  have hfront' := (List.prefix_append front' _).trans hleads
  -- two beginnings of one length are one
  have heq : front' = front :=
    (Syntax.prefix_of_byteLength_le hfront' hfront hlength.le).eq_of_length_le
      (Syntax.prefix_of_byteLength_le hfront hfront' hlength.ge).length_le
  exact heq ▸ ⟨hleads, hend⟩

theorem BeginsWith.start_lt {word : Node} (h : BeginsWith text node word)
    (hspans : node.Spans text front whole) : node.label.startByte < word.label.endByte := by
  obtain ⟨c, rest, hword, -⟩ := keyword_chars h.kind
  have hle := length_le_byteLength (c :: rest)
  rw [← (h.leads hspans).2, byteLength_append, hspans.front_length, hword]
  rw [List.length_cons] at hle
  omega

/-- The keyword stands in the definition. -/
theorem BeginsWith.end_le {word : Node} (h : BeginsWith text node word) (hlaid : node.IsLaid text) :
    word.label.endByte ≤ node.label.endByte := by
  have hinside := hlaid.inside
  obtain ⟨rest, hchildren⟩ := List.head?_eq_some_iff.mp h.child
  rw [hchildren] at hinside
  exact hinside.2.2.le

/-! ## Lines -/

theorem startLine_eq (h : node.Spans text front whole) : startLine node = front.count '\n' + 1 := by
  rw [startLine, ← h.start, Point.after_eq]

/-- What comes up to the end of a definition holds its keyword. -/
theorem exists_keyword_prefix (hspans : node.Spans text front whole) (hlaid : node.IsLaid text)
    (hstands : Stands text node) :
    ∃ c rest, front ++ c :: rest <+: whole ∧ isBlankInLine c = false ∧ '\n' ∉ c :: rest := by
  obtain ⟨word, hword⟩ := hstands.exists_keyword
  obtain ⟨c, rest, hchars, hmark, hrow⟩ := keyword_chars hword.kind
  obtain ⟨hleads, hlength⟩ := hword.leads hspans
  rw [hchars] at hleads hlength
  refine ⟨c, rest, ?_, hmark, hrow⟩
  refine Syntax.prefix_of_byteLength_le hleads hspans.whole_prefix ?_
  rw [hlength, hspans.whole_length]
  exact hword.end_le hlaid

/-- **A definition ends on the last line of the text up to its end.** -/
theorem endLine_eq (hspans : node.Spans text front whole) (hlaid : node.IsLaid text)
    (hstands : Stands text node) : endLine node = (lines whole).length := by
  have hstop : node.label.stop = ⟨whole.count '\n', byteLength (begunRow whole)⟩ := by
    rw [← hspans.stop, Point.after_eq]
  obtain ⟨c, rest, hleads, -, hrow⟩ := exists_keyword_prefix hspans hlaid hstands
  rw [endLine, startLine_eq hspans, hstop, length_lines]
  by_cases hbegun : begunRow whole = []
  · -- the keyword is on an earlier row, as nothing stands on the last one
    have hlt : front.count '\n' < whole.count '\n' := by
      by_contra hnot
      have hcount : whole.count '\n' ≤ (front ++ c :: rest).count '\n' := by
        rw [List.count_append]
        omega
      have hsub := (begunRow_mono hleads hcount).subset
      rw [begunRow_append hrow, hbegun] at hsub
      exact absurd (hsub (List.mem_append_right _ List.mem_cons_self)) List.not_mem_nil
    rw [if_pos hbegun, if_pos ⟨by rw [hbegun]; rfl, by simpa using hlt⟩]
    rfl
  · have hcolumn : byteLength (begunRow whole) ≠ 0 := by
      have hle := length_le_byteLength (begunRow whole)
      have hpos := List.length_pos_iff.mpr hbegun
      omega
    rw [if_neg hbegun, if_neg fun h => hcolumn h.1]

/-- A definition starts on a line of the text and ends there or on a later one. -/
theorem span_of_stands (hlaid : node.IsLaid text) (hstands : Stands text node) :
    1 ≤ startLine node ∧ startLine node ≤ endLine node ∧ endLine node ≤ (lines text).length := by
  obtain ⟨front, whole, hspans⟩ := hlaid.exists_spans
  obtain ⟨c, rest, ⟨more, hwhole⟩, -⟩ := exists_keyword_prefix hspans hlaid hstands
  rw [startLine_eq hspans, endLine_eq hspans hlaid hstands]
  refine ⟨Nat.le_add_left 1 _, ?_, length_lines_le_of_prefix hspans.whole_prefix⟩
  rw [← hwhole, List.append_assoc]
  exact count_lt_length_lines front c (rest ++ more)

/-! ## Two definitions -/

/-- Of two nodes the later one begins later, and it lies behind the earlier one or inside it. -/
structure Nests (f g : Node) : Prop where
  start_lt : f.label.startByte < g.label.startByte
  apart : f.label.endByte ≤ g.label.startByte ∨ g.label.endByte ≤ f.label.endByte

/-- Only one definition begins in a row: the keyword of the earlier one is no blank in front of the
later one. -/
theorem Nests.startLine_lt {f g : Node} (h : Nests f g) (hf : f.IsLaid text) (hf' : Stands text f)
    (hg : g.IsLaid text) (hg' : Stands text g) : startLine f < startLine g := by
  obtain ⟨front, whole, hspans⟩ := hf.exists_spans
  obtain ⟨front', whole', hspans'⟩ := hg.exists_spans
  obtain ⟨c, rest, hkeyword, hmark, hrow⟩ := exists_keyword_prefix hspans hf hf'
  have hnext : front ++ [c] <+: front' := by
    have hc : front ++ [c] <+: text := by
      refine List.IsPrefix.trans ?_ (hkeyword.trans hspans.whole_prefix)
      exact ⟨rest, by simp⟩
    have hfront' := hspans'.front_prefix.trans hspans'.whole_prefix
    rcases List.prefix_or_prefix_of_prefix hc hfront' with hnext | hshort
    · exact hnext
    · rcases List.prefix_concat_iff.mp hshort with heq | ⟨more, hmore⟩
      · rw [heq]
      · have hlt := h.start_lt
        rw [← hspans.front_length, ← hspans'.front_length, ← hmore, byteLength_append] at hlt
        omega
  rw [startLine_eq hspans, startLine_eq hspans']
  by_contra hnot
  have hfeed : '\n' ∉ [c] := fun hmem => hrow (List.mem_cons.mpr (Or.inl (by simpa using hmem)))
  have hcount : front'.count '\n' ≤ (front ++ [c]).count '\n' := by
    rw [List.count_append]
    omega
  have hsub := (begunRow_mono hnext hcount).subset
  rw [begunRow_append hfeed] at hsub
  have hblank := hg'.alone _ hspans'.rowBefore?_start c
    (hsub (List.mem_append_right _ List.mem_cons_self))
  rw [hblank] at hmark
  cases hmark

/-- Definitions nest by lines as they do by bytes: no two of them share a row with the beginning of
the later one. -/
theorem Nests.lines {f g : Node} (h : Nests f g) (hf : f.IsLaid text) (hf' : Stands text f)
    (hg : g.IsLaid text) (hg' : Stands text g) :
    startLine f < startLine g ∧ (endLine f < startLine g ∨ endLine g ≤ endLine f) := by
  refine ⟨h.startLine_lt hf hf' hg hg', ?_⟩
  obtain ⟨front, whole, hspans⟩ := hf.exists_spans
  obtain ⟨front', whole', hspans'⟩ := hg.exists_spans
  rw [startLine_eq hspans', endLine_eq hspans hf hf', endLine_eq hspans' hg hg']
  rcases h.apart with hbehind | hinside
  · left
    have hleads : whole <+: front' := by
      refine Syntax.prefix_of_byteLength_le hspans.whole_prefix
        (hspans'.front_prefix.trans hspans'.whole_prefix) ?_
      rw [hspans.whole_length, hspans'.front_length]
      exact hbehind
    have hblank := hg'.alone _ hspans'.rowBefore?_start
    have hends := hf'.closed _ hspans.rowBefore?_stop
    exact Nat.lt_succ_of_le (length_lines_le_count hleads hblank hends)
  · right
    refine length_lines_le_of_prefix (Syntax.prefix_of_byteLength_le hspans'.whole_prefix
      hspans.whole_prefix ?_)
    rw [hspans'.whole_length, hspans.whole_length]
    exact hinside

/-! ## All definitions -/

mutual

/-- The definitions at and in a node, an outer one before those inside it. -/
def definitionsOf : Node → List Node
  | .mk label children =>
      if isDefinition (.mk label children) then .mk label children :: definitionsAmong children
      else if isImport (.mk label children) then []
      else definitionsAmong children

/-- The definitions at and in some nodes. -/
def definitionsAmong : List Node → List Node
  | [] => []
  | node :: rest => definitionsOf node ++ definitionsAmong rest

end

mutual

/-- The functions of a node are those of its definitions. -/
theorem functions_itemsOf (path : Path) (text : List Char) : (node : Node) →
    (itemsOf path text node).functions = (definitionsOf node).filterMap (functionOf? path text)
  | .mk label children => by
      have hinner := functions_itemsAmong path text children
      rw [itemsOf, definitionsOf]
      split
      · rw [Parsed.append, hinner, List.filterMap_cons]
        cases functionOf? path text (.mk label children) <;> rfl
      · split
        · rfl
        · exact hinner

theorem functions_itemsAmong (path : Path) (text : List Char) : (nodes : List Node) →
    (itemsAmong path text nodes).functions =
      (definitionsAmong nodes).filterMap (functionOf? path text)
  | [] => rfl
  | node :: rest => by
      rw [itemsAmong, definitionsAmong, Parsed.append, functions_itemsOf path text node,
        functions_itemsAmong path text rest, List.filterMap_append]

end

/-- The nodes of a tree are laid on a text, and its definitions stand in it. -/
structure Fair (text : List Char) (nodes : List Node) : Prop where
  laid : ∀ node ∈ nodes, node.IsLaid text
  stands : ∀ node ∈ nodes, isDefinition node = true → Stands text node

theorem Fair.subset {text : List Char} {nodes some : List Node} (h : Fair text nodes)
    (hsome : some ⊆ nodes) : Fair text some :=
  ⟨fun node hnode => h.laid node (hsome hnode), fun node hnode => h.stands node (hsome hnode)⟩

mutual

/-- The definitions of a node are nodes in it. -/
theorem definitionsOf_subset : (node : Node) →
    ∀ d ∈ definitionsOf node, d ∈ node.nodes ∧ isDefinition d = true
  | .mk label children => by
      intro d hd
      have hinner := definitionsAmong_subset children
      rw [Node.nodes]
      rw [definitionsOf] at hd
      split at hd
      · next hdefinition =>
          rcases List.mem_cons.mp hd with rfl | hd
          · exact ⟨List.mem_cons_self, hdefinition⟩
          · exact (hinner d hd).imp_left (List.mem_cons_of_mem _)
      · split at hd
        · exact absurd hd List.not_mem_nil
        · exact (hinner d hd).imp_left (List.mem_cons_of_mem _)

theorem definitionsAmong_subset : (nodes : List Node) →
    ∀ d ∈ definitionsAmong nodes, d ∈ Node.nodesAmong nodes ∧ isDefinition d = true
  | [] => by
      intro d hd
      exact absurd hd List.not_mem_nil
  | node :: rest => by
      intro d hd
      rw [Node.nodesAmong]
      rcases List.mem_append.mp hd with hd | hd
      · exact (definitionsOf_subset node d hd).imp_left (List.mem_append_left _)
      · exact (definitionsAmong_subset rest d hd).imp_left (List.mem_append_right _)

end

mutual

/-- The definitions of a node lie within its bytes. -/
theorem definitionsOf_within {text : List Char} : (node : Node) → Fair text node.nodes →
    ∀ d ∈ definitionsOf node,
      node.label.startByte ≤ d.label.startByte ∧ d.label.endByte ≤ node.label.endByte
  | .mk label children => by
      intro hfair d hd
      rw [Node.nodes] at hfair
      have hinner := definitionsAmong_within children
        (hfair.laid _ List.mem_cons_self).inside (hfair.subset (List.subset_cons_self _ _))
      rw [definitionsOf] at hd
      split at hd
      · rcases List.mem_cons.mp hd with rfl | hd
        · exact ⟨Nat.le_refl _, Nat.le_refl _⟩
        · exact hinner d hd
      · split at hd
        · exact absurd hd List.not_mem_nil
        · exact hinner d hd

theorem definitionsAmong_within {text : List Char} : (nodes : List Node) →
    {first last : Nat} → Node.Fit first nodes last → Fair text (Node.nodesAmong nodes) →
      ∀ d ∈ definitionsAmong nodes, first ≤ d.label.startByte ∧ d.label.endByte ≤ last
  | [] => by
      intro _ _ d hd
      exact absurd hd List.not_mem_nil
  | node :: rest => by
      intro hfit hfair d hd
      obtain ⟨hfirst, hnode, hrest⟩ := hfit
      rw [Node.nodesAmong] at hfair
      rcases List.mem_append.mp hd with hd | hd
      · obtain ⟨hstart, hend⟩ := definitionsOf_within node
          (hfair.subset (List.subset_append_left _ _)) d hd
        exact ⟨hfirst.trans hstart, hend.trans hrest.le⟩
      · obtain ⟨hstart, hend⟩ := definitionsAmong_within rest hrest
          (hfair.subset (List.subset_append_right _ _)) d hd
        exact ⟨(hfirst.trans hnode).trans hstart, hend⟩

end

/-- A definition has bytes. -/
theorem start_lt_end (hlaid : node.IsLaid text) (hstands : Stands text node) :
    node.label.startByte < node.label.endByte := by
  obtain ⟨front, whole, hspans⟩ := hlaid.exists_spans
  obtain ⟨word, hword⟩ := hstands.exists_keyword
  exact (hword.start_lt hspans).trans_le (hword.end_le hlaid)

/-- No definition is in the keyword of another one, so all others in it begin later. -/
theorem start_lt_of_child (hlaid : node.IsLaid text) (hstands : Stands text node)
    (hfair : Fair text (Node.nodesAmong node.children)) {d : Node}
    (hd : d ∈ definitionsAmong node.children) : node.label.startByte < d.label.startByte := by
  obtain ⟨front, whole, hspans⟩ := hlaid.exists_spans
  obtain ⟨word, hword⟩ := hstands.exists_keyword
  obtain ⟨rest, hchildren⟩ := List.head?_eq_some_iff.mp hword.child
  have hinside := hlaid.inside
  rw [hchildren] at hinside hd hfair
  have hnone : definitionsOf word = [] := by
    have hkind := hword.kind
    have hleaf := hword.leaf
    obtain ⟨label, children⟩ := word
    change label.kind ∈ _ at hkind
    change children = [] at hleaf
    subst hleaf
    simp only [List.mem_cons, List.not_mem_nil, or_false] at hkind
    rcases hkind with hkind | hkind <;>
      simp [definitionsOf, definitionsAmong, isDefinition, Node.kind, Node.label, hkind]
  rw [definitionsAmong, hnone, List.nil_append] at hd
  rw [Node.nodesAmong] at hfair
  obtain ⟨hstart, -⟩ := definitionsAmong_within rest hinside.2.2
    (hfair.subset (List.subset_append_right _ _)) d hd
  exact (hword.start_lt hspans).trans_le hstart

mutual

/-- The definitions of a node nest. -/
theorem nests_definitionsOf {text : List Char} : (node : Node) → Fair text node.nodes →
    (definitionsOf node).Pairwise Nests
  | .mk label children => by
      intro hfair
      rw [Node.nodes] at hfair
      have hfair' := hfair.subset (List.subset_cons_self _ _)
      have hlaid := hfair.laid _ List.mem_cons_self
      have hinner := nests_definitionsAmong children hlaid.inside hfair'
      rw [definitionsOf]
      split
      · next hdefinition =>
          have hstands := hfair.stands _ List.mem_cons_self hdefinition
          refine List.pairwise_cons.mpr ⟨fun d hd => ?_, hinner⟩
          obtain ⟨-, hend⟩ := definitionsAmong_within children hlaid.inside hfair' d hd
          exact ⟨start_lt_of_child hlaid hstands hfair' hd, Or.inr hend⟩
      · split
        · exact List.Pairwise.nil
        · exact hinner

theorem nests_definitionsAmong {text : List Char} : (nodes : List Node) → {first last : Nat} →
    Node.Fit first nodes last → Fair text (Node.nodesAmong nodes) →
      (definitionsAmong nodes).Pairwise Nests
  | [] => by
      intro _ _
      exact List.Pairwise.nil
  | node :: rest => by
      intro hfit hfair
      obtain ⟨-, -, hrest⟩ := hfit
      rw [Node.nodesAmong] at hfair
      have hnode := hfair.subset (List.subset_append_left _ _)
      have hfair' := hfair.subset (List.subset_append_right _ _)
      refine List.pairwise_append.mpr ⟨nests_definitionsOf node hnode,
        nests_definitionsAmong rest hrest hfair', fun f hf g hg => ?_⟩
      obtain ⟨hmem, hdefinition⟩ := definitionsOf_subset node f hf
      have hlt := start_lt_end (hnode.laid f hmem) (hnode.stands f hmem hdefinition)
      obtain ⟨-, hend⟩ := definitionsOf_within node hnode f hf
      obtain ⟨hstart, -⟩ := definitionsAmong_within rest hrest hfair' g hg
      exact ⟨hlt.trans_le (hend.trans hstart), Or.inl (hend.trans hstart)⟩

end

/-! ## Recorded trees -/

/-- A parser that was seen to give a tree for one text. -/
def recorded (source : List Char) (root : Node) : Parser := fun text =>
  if text = source then some root else none

theorem faithful_recorded {source : List Char} {root : Node}
    (hlaid : ∀ node ∈ root.nodes, node.IsLaid source)
    (hstands : ∀ node ∈ root.nodes, isDefinition node = true → Stands source node) :
    Faithful (recorded source root) := by
  have hroot : ∀ {text found}, recorded source root text = some found →
      text = source ∧ found = root := by
    intro text found hfound
    unfold recorded at hfound
    split at hfound
    · next htext => exact ⟨htext, (Option.some.inj hfound).symm⟩
    · cases hfound
  refine ⟨fun hfound _ => ?_, fun hfound _ => ?_⟩
  · obtain ⟨rfl, rfl⟩ := hroot hfound
    exact hlaid
  · obtain ⟨rfl, rfl⟩ := hroot hfound
    exact hstands

/-- A node for the text between two byte offsets. -/
def branch (text : List Char) (kind : String) (field : Option String) (start stop : Nat)
    (children : List Node) : Node :=
  .mk { kind := kind, field := field, startByte := start, endByte := stop
        start := (pointAt? text start).getD ⟨0, 0⟩, stop := (pointAt? text stop).getD ⟨0, 0⟩ }
    children

/-- The node of a word or mark of ASCII characters. -/
def leaf (text : List Char) (word : String) (start : Nat) : Node :=
  .mk { kind := word, named := false, startByte := start, endByte := start + word.length
        start := (pointAt? text start).getD ⟨0, 0⟩
        stop := (pointAt? text (start + word.length)).getD ⟨0, 0⟩ } []

/-- The node of a function without parameters whose name is one letter, from its keyword to the end
of its block. -/
def plainFunction (text : List Char) (start first stop : Nat) (block : List Node) : Node :=
  branch text "function_definition" none start stop
    [leaf text "def" start, branch text "identifier" (some "name") (start + 4) (start + 5) [],
      branch text "parameters" (some "parameters") (start + 5) (start + 7)
        [leaf text "(" (start + 5), leaf text ")" (start + 6)],
      leaf text ":" (start + 7), branch text "block" (some "body") first stop block]

/-- The node of a statement that does nothing. -/
def passNode (text : List Char) (start : Nat) : Node :=
  branch text "pass_statement" none start (start + 4) [leaf text "pass" start]

end ChangeScope.Python
