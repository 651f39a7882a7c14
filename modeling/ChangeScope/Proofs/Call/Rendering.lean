import ChangeScope.Proofs.Call.Resolution
import ChangeScope.Proofs.Text.Lines

/-!
# Known calls are replaced where they stand

As candidates stand apart, the qualified body has each known call replaced by its id, and all other
text as it was (`rendered_render`). Lines are added by line feeds in the ids, and by nothing else
(`apart_and_replaced`).
-/

set_option autoImplicit false

namespace ChangeScope.Call

open ChangeScope.Text

/-! ## Replacing -/

/-- The text from an offset on is rendered: each known call is replaced by its id where it stands,
at the offset or behind it, and all other text is kept. -/
inductive Rendered : Nat → List Char → List Entry → List Char → Prop where
  | done (offset : Nat) (text : List Char) : Rendered offset text [] text
  | unknown {offset : Nat} {text out : List Char} {c : Candidate} {others : List Entry}
      (rest : Rendered offset text others out) : Rendered offset text ((c, none) :: others) out
  | known {offset : Nat} {kept text out : List Char} {c : Candidate} {id : String}
      {others : List Entry} (start_eq : c.start = offset + byteLength kept)
      (stop_eq : c.stop = c.start + byteLength c.text) (rest : Rendered c.stop text others out) :
      Rendered offset (kept ++ c.text ++ text) ((c, some id) :: others)
        (kept ++ id.toList ++ out)

/-- Of two beginnings of a text the one with fewer bytes begins the other. -/
theorem prefix_of_byteLength_le {a b text : List Char} (ha : a <+: text) (hb : b <+: text)
    (hle : byteLength a ≤ byteLength b) : a <+: b := by
  rcases List.prefix_or_prefix_of_prefix ha hb with h | ⟨more, rfl⟩
  · exact h
  · have hnil : more = [] := by
      by_contra hne
      have hpos := byteLength_pos hne
      rw [byteLength_append] at hle
      omega
    rw [hnil, List.append_nil]

/-- A known call at the offset or behind it is replaced, and the text before it is kept. -/
theorem render_known {offset : Nat} {kept rest : List Char} {c : Candidate}
    (hstart : c.start = offset + byteLength kept) (hstop : c.stop = c.start + byteLength c.text)
    (id : String) (others : List Entry) :
    render offset (kept ++ c.text ++ rest) ((c, some id) :: others) =
      kept ++ id.toList ++ render c.stop rest others := by
  have hle : offset ≤ c.start := by omega
  have hkept : c.start - offset = byteLength kept := by omega
  have hwidth : c.stop - c.start = byteLength c.text := by omega
  rw [render, if_pos hle, hkept, hwidth, List.append_assoc, splitAtByte?_append]
  simp only
  rw [splitAtByte?_append]

/-- **Rendering replaces each known call where it stands.** As the candidates follow one another,
none begins before the offset, and so none is left out. -/
theorem rendered_render {body : List Char} (entries : List Entry) :
    ∀ {past text : List Char}, past ++ text = body →
      (∀ e ∈ entries, ∃ front, e.1.Spans body front) →
      (entries.Pairwise fun a b => a.1.stop < b.1.start) →
      (∀ e ∈ entries, byteLength past ≤ e.1.start) →
        Rendered (byteLength past) text entries (render (byteLength past) text entries) := by
  induction entries with
  | nil => intros; exact .done _ _
  | cons entry others ih =>
      intro past text hbody hspans hapart hpast
      obtain ⟨hlater, hothers⟩ := List.pairwise_cons.mp hapart
      have hspansOthers := fun e he => hspans e (List.mem_cons_of_mem entry he)
      obtain ⟨c, found⟩ := entry
      cases found with
      | none =>
          rw [render]
          exact .unknown (ih hbody hspansOthers hothers fun e he =>
            hpast e (List.mem_cons_of_mem _ he))
      | some id =>
          obtain ⟨front, hspan⟩ := hspans (c, some id) List.mem_cons_self
          have hle : byteLength past ≤ c.start := hpast (c, some id) List.mem_cons_self
          have hstart : c.start = byteLength front := hspan.start_eq
          -- the text up to the offset begins the text in front of the call
          obtain ⟨kept, rfl⟩ : past <+: front :=
            prefix_of_byteLength_le ⟨text, hbody⟩ ((List.prefix_append _ _).trans hspan.text)
              (hstart ▸ hle)
          obtain ⟨rest, hrest⟩ := hspan.text
          rw [byteLength_append] at hstart
          have hstop : c.stop = c.start + byteLength c.text := by
            rw [hspan.stop_eq, byteLength_append, hspan.start_eq]
          have htext : text = kept ++ c.text ++ rest := by
            rw [← hrest, List.append_assoc, List.append_assoc] at hbody
            rw [List.append_cancel_left hbody, List.append_assoc]
          have hnext : c.stop = byteLength (past ++ kept ++ c.text) := hspan.stop_eq
          rw [htext, render_known hstart hstop]
          refine .known hstart hstop ?_
          rw [hnext]
          refine ih hrest hspansOthers hothers fun e he => ?_
          rw [← hnext]
          exact (hlater e he).le

/-- The line feeds of a rendered text are those of the text and of the ids in it. -/
theorem Rendered.count {offset : Nat} {text out : List Char} {entries : List Entry}
    (h : Rendered offset text entries out) (hline : ∀ e ∈ entries, '\n' ∉ e.1.text) :
    out.count '\n' =
      text.count '\n' + ((entries.filterMap (·.2)).map (·.toList.count '\n')).sum := by
  induction h with
  | done => simp
  | @unknown _ _ _ c others _ ih =>
      rw [ih fun e he => hline e (List.mem_cons_of_mem _ he)]
      rfl
  | @known _ kept text out c id others _ _ _ ih =>
      have hcall : c.text.count '\n' = 0 :=
        List.count_eq_zero.mpr (hline (c, some id) List.mem_cons_self)
      have hrest := ih fun e he => hline e (List.mem_cons_of_mem _ he)
      have hsum : (((((c, some id) :: others).filterMap (·.2)).map
          (·.toList.count '\n')).sum : Nat) =
          id.toList.count '\n' + ((others.filterMap (·.2)).map (·.toList.count '\n')).sum := rfl
      rw [hsum, List.count_append, List.count_append, List.count_append, List.count_append, hcall,
        hrest]
      omega

/-! ## Qualified bodies -/

/-- The qualified body is the body with the known calls replaced. -/
theorem qualify_rendered {body : String} {cands : List Candidate} (hscan : scan body = .ok cands)
    (tree : FileTree) (scope : Scope) (startLine : Nat) :
    ∃ rendered, qualify tree scope startLine body =
        .ok (cands.map fun c => c.site startLine (scope.resolve? tree c), rendered) ∧
      Rendered 0 body.toList (cands.map fun c => (c, scope.resolve? tree c)) rendered.toList := by
  let entries : List Entry := cands.map fun c => (c, scope.resolve? tree c)
  have hspans : ∀ e ∈ entries, ∃ front, e.1.Spans body.toList front := by
    intro e he
    obtain ⟨c, hc, rfl⟩ := List.mem_map.mp he
    exact spans_of_scan hscan hc
  have hapart : entries.Pairwise fun a b => a.1.stop < b.1.start :=
    List.pairwise_map.mpr ((apart_of_scan hscan).imp fun h => h.stop_lt_start)
  refine ⟨String.ofList (render 0 body.toList entries), ?_, ?_⟩
  · unfold qualify
    rw [hscan]
    show Except.ok _ = Except.ok _
    rw [longestMatches_scan hscan, List.map_map]
    rfl
  · rw [String.toList_ofList]
    exact rendered_render entries (List.nil_append body.toList) hspans hapart
      fun e _ => Nat.zero_le _

/-- **Candidates stand apart, and qualification replaces the known ones where they stand.** Each
candidate of a scanned body spans its called expression and tells the line and the column of its
name; the spans are in order, with the parenthesis of each call before the next one. So no candidate
covers another. Whatever names are in scope, the qualified body is the body with each known call
replaced by its id, and has one line more for each line feed in these ids; the call sites tell the
lines of the names. -/
theorem apart_and_replaced {body : String} {cands : List Candidate}
    (hscan : scan body = .ok cands) :
    (∀ c ∈ cands, c.start < c.stop ∧ ∃ front, c.Spans body.toList front) ∧
    (cands.Pairwise fun a b => a.stop < b.start ∧ a.Before b body.toList) ∧
    longestMatches cands = cands ∧
    ∀ tree scope startLine, ∃ rendered,
      qualify tree scope startLine body =
        .ok (cands.map fun c => c.site startLine (scope.resolve? tree c), rendered) ∧
      Rendered 0 body.toList (cands.map fun c => (c, scope.resolve? tree c)) rendered.toList ∧
      (rows rendered.toList).length = (rows body.toList).length +
        ((cands.filterMap (scope.resolve? tree)).map (·.toList.count '\n')).sum ∧
      ∀ site ∈ cands.map fun c => c.site startLine (scope.resolve? tree c),
        ∃ before, site.Follows startLine body.toList before := by
  have hspans : ∀ c ∈ cands, ∃ front, c.Spans body.toList front :=
    fun c hc => spans_of_scan hscan hc
  refine ⟨fun c hc => ?_, (apart_of_scan hscan).imp fun h => ⟨h.stop_lt_start, h⟩,
    longestMatches_scan hscan, fun tree scope startLine => ?_⟩
  · obtain ⟨front, hspan⟩ := hspans c hc
    exact ⟨hspan.start_lt_stop, front, hspan⟩
  · obtain ⟨rendered, hqualify, hrendered⟩ := qualify_rendered hscan tree scope startLine
    refine ⟨rendered, hqualify, hrendered, ?_, fun site hsite => ?_⟩
    · have hcount := hrendered.count fun e he => by
        obtain ⟨c, hc, rfl⟩ := List.mem_map.mp he
        obtain ⟨front, hspan⟩ := hspans c hc
        exact hspan.inLine
      rw [List.filterMap_map] at hcount
      rw [length_rows, length_rows, hcount, Nat.add_right_comm]
      rfl
    · obtain ⟨c, before, word, rest, -, -, hfollows⟩ := site_of_qualify hqualify hsite
      exact ⟨_, hfollows⟩

/-! ## Calls of two functions

A local function is called with the result of another one, whose id stands in the body; what is
called on the next line is not known. -/

namespace Mixed

def body : String := "x = g(/a.py::h(1))\ny = k(2)"

def candidates : List Candidate :=
  [⟨0, 5, "g", .bare, 4, 5, "/a.py::h(1)"⟩, ⟨0, 14, "h", .qualified "/a.py", 6, 14, "1"⟩,
    ⟨1, 5, "k", .bare, 23, 24, "2"⟩]

def scope : Scope := ⟨⟨"/repo/m.py"⟩, ⟨"/repo"⟩, ["g"], none⟩

theorem scan_body : scan body = .ok candidates := by
  have hlexemes : lexemes body.toList =
      [.word ['x'], .mark ' ', .mark '=', .mark ' ', .word ['g'], .mark '(', .mark '/', .word ['a'],
        .mark '.', .word "py".toList, .mark ':', .mark ':', .word ['h'], .mark '(', .number ['1'],
        .mark ')', .mark ')', .mark '\n', .word ['y'], .mark ' ', .mark '=', .mark ' ', .word ['k'],
        .mark '(', .number ['2'], .mark ')'] := by
    cbv
  unfold scan
  rw [hlexemes]
  rfl

theorem qualify_body : qualify FileTree.empty scope 1 body =
    .ok (candidates.map fun c => c.site 1 (scope.resolve? FileTree.empty c),
      "x = /repo/m.py::g(/a.py::h(1))\ny = k(2)") := by
  unfold qualify
  rw [scan_body]
  rfl

end Mixed

theorem apart_and_replaced_mixed :
    scan Mixed.body = .ok Mixed.candidates ∧
      (Mixed.candidates.Pairwise fun a b =>
        a.stop < b.start ∧ a.Before b Mixed.body.toList) ∧
      Rendered 0 Mixed.body.toList
        (Mixed.candidates.map fun c => (c, Mixed.scope.resolve? FileTree.empty c))
        "x = /repo/m.py::g(/a.py::h(1))\ny = k(2)".toList := by
  obtain ⟨-, hapart, -, hall⟩ := apart_and_replaced Mixed.scan_body
  obtain ⟨rendered, hqualify, hrendered, -⟩ := hall FileTree.empty Mixed.scope 1
  rw [Mixed.qualify_body] at hqualify
  obtain ⟨-, rfl⟩ := Prod.mk.inj (Except.ok.inj hqualify)
  exact ⟨Mixed.scan_body, hapart, hrendered⟩

/-- A line feed in the path of the file makes the qualified body a line longer than the body. -/
theorem line_feed_in_path_adds_line :
    scan "def f():\n    return helper(1)" = .ok [⟨1, 12, "helper", .bare, 20, 26, "1"⟩] ∧
      qualify FileTree.empty ⟨⟨"/repo/a\nb.py"⟩, ⟨"/repo"⟩, ["helper"], none⟩ 1
        "def f():\n    return helper(1)" =
          .ok ([⟨2, 12, "helper", none, some "/repo/a\nb.py::helper", "1"⟩],
            "def f():\n    return /repo/a\nb.py::helper(1)") ∧
      (rows "def f():\n    return helper(1)".toList).length = 2 ∧
      (rows "def f():\n    return /repo/a\nb.py::helper(1)".toList).length = 3 := by
  have hlexemes : lexemes "def f():\n    return helper(1)".toList =
      [.word "def".toList, .mark ' ', .word ['f'], .mark '(', .mark ')', .mark ':', .mark '\n',
        .mark ' ', .mark ' ', .mark ' ', .mark ' ', .word "return".toList, .mark ' ',
        .word "helper".toList, .mark '(', .number ['1'], .mark ')'] := by
    cbv
  have hscan : scan "def f():\n    return helper(1)" =
      .ok [⟨1, 12, "helper", .bare, 20, 26, "1"⟩] := by
    unfold scan
    rw [hlexemes]
    rfl
  refine ⟨hscan, ?_, rfl, rfl⟩
  unfold qualify
  rw [hscan]
  rfl

end ChangeScope.Call
