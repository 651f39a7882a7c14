import ChangeScope.Proofs.Text
import ChangeScope.Proofs.Text.BegunRow
import ChangeScope.Syntax

/-!
# Trees laid on a text

A tree is laid on a text when the rows and columns of each node are those of its bytes, and the
children of each node stand in it one after the other (`Node.IsLaid`). What a node stands for is
then told by the text before its beginning and the text before its end (`Node.Spans`).
-/

set_option autoImplicit false

namespace ChangeScope.Syntax

open Text

/-! ## Places -/

theorem Point.after_concat (cs : List Char) (c : Char) :
    Point.after (cs ++ [c]) = (Point.after cs).step c := by
  rw [Point.after, List.foldl_append]
  rfl

/-- The row of a place counts line feeds, and its column bytes of the begun row. -/
theorem Point.after_eq (cs : List Char) :
    Point.after cs = ⟨cs.count '\n', byteLength (begunRow cs)⟩ := by
  induction cs using List.reverseRecOn with
  | nil => rfl
  | append_singleton cs c ih =>
      rw [after_concat, ih, step]
      split
      · next hc =>
          subst hc
          rw [begunRow_newline, List.count_append]
          rfl
      · next hc =>
          have hmem : '\n' ∉ [c] := by simpa using Ne.symm hc
          rw [begunRow_append hmem, byteLength_append, List.count_append,
            List.count_eq_zero_of_not_mem hmem]
          rfl

/-- The place of a byte offset between two characters. -/
def pointAt? (text : List Char) (byte : Nat) : Option Point :=
  (splitAtByte? byte text).map fun (front, _) => Point.after front

/-- What stands before a byte offset on its row. -/
def rowBefore? (text : List Char) (byte : Nat) : Option (List Char) :=
  (splitAtByte? byte text).map fun (front, _) => begunRow front

/-- A beginning of a text is found again at its length. -/
theorem splitAtByte?_of_prefix {front text : List Char} (h : front <+: text) :
    ∃ back, splitAtByte? (byteLength front) text = some (front, back) := by
  obtain ⟨back, rfl⟩ := h
  exact ⟨back, splitAtByte?_append front back⟩

theorem prefix_of_splitAtByte? {n : Nat} {text front back : List Char}
    (h : splitAtByte? n text = some (front, back)) :
    front ++ back = text ∧ byteLength front = n := by
  fun_induction splitAtByte? n text generalizing front back with
  | case1 cs =>
      obtain ⟨rfl, rfl⟩ := Prod.mk.inj (Option.some.inj h)
      exact ⟨rfl, rfl⟩
  | case2 n => cases h
  | case3 n c rest hle ih =>
      obtain ⟨⟨front', back'⟩, hsplit, hcut⟩ := Option.map_eq_some_iff.mp h
      obtain ⟨rfl, rfl⟩ := Prod.mk.inj hcut
      obtain ⟨hjoin, hlength⟩ := ih hsplit
      rw [List.cons_append, hjoin, byteLength_cons, hlength]
      exact ⟨rfl, by omega⟩
  | case4 n c rest hgt => cases h

/-- Of two beginnings of a text the one with fewer bytes begins the other. -/
theorem prefix_of_byteLength_le {a b text : List Char} (ha : a <+: text) (hb : b <+: text)
    (h : byteLength a ≤ byteLength b) : a <+: b := by
  rcases List.prefix_or_prefix_of_prefix ha hb with hab | hba
  · exact hab
  · obtain ⟨more, rfl⟩ := hba
    rw [byteLength_append] at h
    have hmore : more = [] := by
      have hle := length_le_byteLength more
      exact List.length_eq_zero_iff.mp (by omega)
    rw [hmore, List.append_nil]

namespace Node

/-! ## Nodes -/

/-- Nodes that stand between two byte offsets, one after the other. -/
def Fit : Nat → List Node → Nat → Prop
  | first, [], last => first ≤ last
  | first, node :: rest, last =>
      first ≤ node.label.startByte ∧ node.label.startByte ≤ node.label.endByte ∧
        Fit node.label.endByte rest last

instance decidableFit : (first : Nat) → (nodes : List Node) → (last : Nat) →
    Decidable (Fit first nodes last)
  | first, [], last => inferInstanceAs (Decidable (first ≤ last))
  | first, node :: rest, last =>
      haveI := decidableFit node.label.endByte rest last
      inferInstanceAs (Decidable (first ≤ node.label.startByte ∧
        node.label.startByte ≤ node.label.endByte ∧ Fit node.label.endByte rest last))

/-- A node tells the places of its bytes in a text, and its children stand in it one after the
other. -/
structure IsLaid (text : List Char) (node : Node) : Prop where
  start : pointAt? text node.label.startByte = some node.label.start
  stop : pointAt? text node.label.endByte = some node.label.stop
  inside : Fit node.label.startByte node.children node.label.endByte

instance (text : List Char) (node : Node) : Decidable (node.IsLaid text) :=
  decidable_of_iff (pointAt? text node.label.startByte = some node.label.start ∧
      pointAt? text node.label.endByte = some node.label.stop ∧
      Fit node.label.startByte node.children node.label.endByte)
    ⟨fun h => ⟨h.1, h.2.1, h.2.2⟩, fun h => ⟨h.start, h.stop, h.inside⟩⟩

/-- The text before the beginning of a node, and the text before its end. -/
structure Spans (text : List Char) (node : Node) (front whole : List Char) : Prop where
  whole_prefix : whole <+: text
  front_length : byteLength front = node.label.startByte
  whole_length : byteLength whole = node.label.endByte
  start : Point.after front = node.label.start
  stop : Point.after whole = node.label.stop
  front_prefix : front <+: whole

theorem Fit.le {first last : Nat} {nodes : List Node} (h : Fit first nodes last) :
    first ≤ last := by
  induction nodes generalizing first with
  | nil => exact h
  | cons node rest ih =>
      obtain ⟨hfirst, hnode, hrest⟩ := h
      exact (hfirst.trans hnode).trans (ih hrest)

theorem exists_of_pointAt? {text : List Char} {byte : Nat} {point : Point}
    (h : pointAt? text byte = some point) :
    ∃ front, front <+: text ∧ byteLength front = byte ∧ Point.after front = point := by
  obtain ⟨⟨front, back⟩, hsplit, hpoint⟩ := Option.map_eq_some_iff.mp h
  obtain ⟨hjoin, hlength⟩ := prefix_of_splitAtByte? hsplit
  exact ⟨front, ⟨back, hjoin⟩, hlength, hpoint⟩

/-- A node that is laid on a text spans a piece of it. -/
theorem IsLaid.exists_spans {text : List Char} {node : Node} (h : node.IsLaid text) :
    ∃ front whole, node.Spans text front whole := by
  obtain ⟨front, hfront, hstartByte, hstart⟩ := exists_of_pointAt? h.start
  obtain ⟨whole, hwhole, hendByte, hstop⟩ := exists_of_pointAt? h.stop
  refine ⟨front, whole, hwhole, hstartByte, hendByte, hstart, hstop, ?_⟩
  refine prefix_of_byteLength_le hfront hwhole ?_
  rw [hstartByte, hendByte]
  exact h.inside.le

variable {text : List Char} {node : Node} {front whole : List Char}

theorem Spans.rowBefore?_start (h : node.Spans text front whole) :
    rowBefore? text node.label.startByte = some (begunRow front) := by
  obtain ⟨back, hsplit⟩ := splitAtByte?_of_prefix (h.front_prefix.trans h.whole_prefix)
  rw [rowBefore?, ← h.front_length, hsplit]
  rfl

theorem Spans.rowBefore?_stop (h : node.Spans text front whole) :
    rowBefore? text node.label.endByte = some (begunRow whole) := by
  obtain ⟨back, hsplit⟩ := splitAtByte?_of_prefix h.whole_prefix
  rw [rowBefore?, ← h.whole_length, hsplit]
  rfl

/-! ## Subtrees -/

theorem nodes_eq (node : Node) : node.nodes = node :: nodesAmong node.children := by
  cases node
  rw [nodes]
  rfl

end Node

end ChangeScope.Syntax
