import ChangeScope.Proofs.Call.Reread
import ChangeScope.Proofs.Change.Isolation
import ChangeScope.Proofs.Import
import ChangeScope.Qualified

/-!
# Resolution of calls

A call in a file means a function of the file, an imported one, or one of the module that its
receiver stands for (`Callee`). The calls of a body are resolved to what they mean, and to functions
that can be there, exactly where no name stands behind two colons that are read as an id written
out before (`Call.site_exact_iff`). The two colons of a slice are read like that
(`Call.slice_call_differs`).
-/

set_option autoImplicit false

namespace ChangeScope

open ChangeScope.Text

/-! ## The meaning of a call -/

/-- The receiver of a call to a function of the file itself. -/
def IsPlain (receiver : Option String) : Prop :=
  receiver = none ∨ receiver = some "self" ∨ receiver = some "cls"

section

variable (file : SourceFile) (tree : FileTree) (root : Path)

/-- The function that a call in a file means, from its receiver and its name. A function of the
file wins over an imported member; behind another receiver only the module counts that the
receiver stands for. -/
inductive Callee : Option String → String → Option String → Prop where
  | own {receiver : Option String} {name : String} (hplain : IsPlain receiver)
      (hown : ∃ f ∈ file.functions, f.name = name) :
      Callee receiver name (some (FunctionId.make file.path name))
  | imported {receiver : Option String} {name : String} {source : Path} {member : String}
      (hplain : IsPlain receiver) (hown : ¬ ∃ f ∈ file.functions, f.name = name)
      (himport : file.imports.resolve? tree name file.path root = some (.member source member)) :
      Callee receiver name (some (FunctionId.make source member))
  | unknown {receiver : Option String} {name : String} (hplain : IsPlain receiver)
      (hown : ¬ ∃ f ∈ file.functions, f.name = name)
      (himport : ∀ source member,
        file.imports.resolve? tree name file.path root ≠ some (.member source member)) :
      Callee receiver name none
  | module {receiver name : String} {source : Path} (hplain : ¬ IsPlain (some receiver))
      (hmodule : file.imports.resolveReceiver? tree receiver file.path root = some source) :
      Callee (some receiver) name (some (FunctionId.make source name))
  | unbound {receiver name : String} (hplain : ¬ IsPlain (some receiver))
      (hmodule : file.imports.resolveReceiver? tree receiver file.path root = none) :
      Callee (some receiver) name none

/-- The id is that of a function of the file, or of one in a file that is there and that the
imports lead to. -/
def Known (id : String) : Prop :=
  (∃ f ∈ file.functions, id = FunctionId.make file.path f.name) ∨
    ∃ source member, tree.isFile source = true ∧ id = FunctionId.make source member ∧
      ((∃ name, file.imports.resolve? tree name file.path root = some (.member source member)) ∨
        ∃ receiver, file.imports.resolveReceiver? tree receiver file.path root = some source)

/-- The site has the id that its call means, and no other. -/
structure IsExact (site : Call.Site) : Prop where
  callee : Callee file tree root site.receiver site.name site.calleeId
  known : ∀ id, site.calleeId = some id → Known file tree root id

end

variable {file : SourceFile} {tree : FileTree} {root : Path}

/-- **What a call means is known.** -/
theorem Callee.known {receiver : Option String} {name id : String}
    (h : Callee file tree root receiver name (some id)) : Known file tree root id := by
  cases h with
  | own hplain hown =>
      obtain ⟨f, hf, rfl⟩ := hown
      exact .inl ⟨f, hf, rfl⟩
  | imported hplain hown himport =>
      obtain ⟨module, hmodule⟩ := Import.Table.resolve?_module himport
      have hfile := Import.resolveModule?_isFile hmodule
      exact .inr ⟨_, _, hfile, rfl, .inl ⟨name, himport⟩⟩
  | module hplain hreceiver =>
      obtain ⟨module, hmodule⟩ := Import.Table.resolveReceiver?_module hreceiver
      have hfile := Import.resolveModule?_isFile hmodule
      exact .inr ⟨_, _, hfile, rfl, .inr ⟨_, hreceiver⟩⟩

/-- A call means one function at most. -/
theorem Callee.unique {receiver : Option String} {name : String} {id id' : Option String}
    (h : Callee file tree root receiver name id) (h' : Callee file tree root receiver name id') :
    id = id' := by
  -- the conditions of the five cases exclude one another
  cases h with
  | own hplain hown =>
      cases h' with
      | own => rfl
      | imported _ hown' => exact absurd hown hown'
      | unknown _ hown' => exact absurd hown hown'
      | module hplain' => exact absurd hplain hplain'
      | unbound hplain' => exact absurd hplain hplain'
  | imported hplain hown himport =>
      cases h' with
      | own _ hown' => exact absurd hown' hown
      | imported _ _ himport' =>
          rw [himport] at himport'
          cases himport'
          rfl
      | unknown _ _ himport' => exact absurd himport (himport' _ _)
      | module hplain' => exact absurd hplain hplain'
      | unbound hplain' => exact absurd hplain hplain'
  | unknown hplain hown himport =>
      cases h' with
      | own _ hown' => exact absurd hown' hown
      | imported _ _ himport' => exact absurd himport' (himport _ _)
      | unknown => rfl
      | module hplain' => exact absurd hplain hplain'
      | unbound => rfl
  | module hplain hmodule =>
      cases h' with
      | own hplain' => exact absurd hplain' hplain
      | imported hplain' => exact absurd hplain' hplain
      | unknown hplain' => exact absurd hplain' hplain
      | module _ hmodule' =>
          rw [hmodule] at hmodule'
          cases hmodule'
          rfl
      | unbound _ hmodule' =>
          rw [hmodule] at hmodule'
          exact absurd hmodule' (by simp)
  | unbound hplain hmodule =>
      cases h' with
      | own hplain' => exact absurd hplain' hplain
      | imported hplain' => exact absurd hplain' hplain
      | unknown => rfl
      | module _ hmodule' =>
          rw [hmodule] at hmodule'
          exact absurd hmodule' (by simp)
      | unbound => rfl

namespace Call

open QualifiedFunction (scopeOf)

/-! ## The lookup -/

/-- A plain call is looked up as what it means. -/
theorem callee_resolveName? {receiver : Option String} (hplain : IsPlain receiver) (name : String) :
    Callee file tree root receiver name ((scopeOf file root).resolveName? tree name) := by
  have hown : (scopeOf file root).locals.contains name = true ↔
      ∃ f ∈ file.functions, f.name = name := by
    rw [List.contains_iff_mem]
    exact List.mem_map
  unfold Scope.resolveName?
  by_cases hlocal : (scopeOf file root).locals.contains name = true
  · rw [if_pos hlocal]
    exact .own hplain (hown.mp hlocal)
  · rw [if_neg hlocal]
    have hother := fun h => hlocal (hown.mpr h)
    split
    · next source member himport => exact .imported hplain hother himport
    · next himport => exact .unknown hplain hother himport

/-- A call is looked up as what it means, unless an id stands in its place. -/
theorem callee_resolve? {c : Candidate} (hform : ∀ path, c.form ≠ .qualified path)
    (startLine : Nat) :
    Callee file tree root (c.site startLine ((scopeOf file root).resolve? tree c)).receiver c.name
      ((scopeOf file root).resolve? tree c) := by
  unfold Candidate.site Scope.resolve?
  rcases hc : c.form with _ | receiver | path
  · exact callee_resolveName? (.inl rfl) c.name
  · dsimp only
    by_cases hself : receiver = "self" ∨ receiver = "cls"
    · rw [if_pos (by simpa using hself)]
      have hplain : IsPlain (some receiver) := by
        rcases hself with rfl | rfl
        · exact .inr (.inl rfl)
        · exact .inr (.inr rfl)
      exact callee_resolveName? hplain c.name
    · rw [if_neg (by simpa using hself)]
      have hplain : ¬ IsPlain (some receiver) := by
        simpa [IsPlain] using hself
      show Callee _ _ _ _ _
        ((file.imports.resolveReceiver? tree receiver file.path root).map fun source =>
          FunctionId.make source c.name)
      cases hmodule : file.imports.resolveReceiver? tree receiver file.path root with
      | some source => exact .module hplain hmodule
      | none => exact .unbound hplain hmodule
  · exact absurd hc (hform path)

/-! ## The place of a call -/

/-- The text in front of the name of a call, in a body that begins on a line. -/
structure Site.Follows (site : Site) (startLine : Nat) (body before : List Char) : Prop where
  name : before ++ site.name.toList <+: body
  line : site.line = startLine + before.count '\n'
  column : site.column = byteLength (before.reverse.takeWhile (· != '\n')) + 1

/-- The end of a text that leaves the line and the column alone is empty. -/
theorem prefix_unique {a b : List Char} (h : a <+: b) (hline : a.count '\n' = b.count '\n')
    (hcolumn : byteLength (a.reverse.takeWhile (· != '\n')) =
      byteLength (b.reverse.takeWhile (· != '\n'))) : a = b := by
  obtain ⟨rest, rfl⟩ := h
  have hcount : rest.count '\n' = 0 := by
    rw [List.count_append] at hline
    omega
  have hrow : ∀ c ∈ rest.reverse, (c != '\n') = true := by
    intro c hc
    rw [bne_iff_ne]
    rintro rfl
    exact List.count_eq_zero.mp hcount (List.mem_reverse.mp hc)
  have hlength : byteLength rest.reverse = 0 := by
    rw [List.reverse_append, List.takeWhile_append_of_pos hrow, byteLength_append] at hcolumn
    omega
  have hrest : rest.length = 0 := by
    have hle := length_le_byteLength rest.reverse
    rw [List.length_reverse] at hle
    omega
  rw [List.length_eq_zero_iff.mp hrest, List.append_nil]

/-- The line and the column of a call tell the text in front of its name. -/
theorem Site.Follows.unique {site : Site} {startLine : Nat} {body a b : List Char}
    (ha : site.Follows startLine body a) (hb : site.Follows startLine body b) : a = b := by
  have hline : a.count '\n' = b.count '\n' := by
    have := ha.line
    have := hb.line
    omega
  have hcolumn : byteLength (a.reverse.takeWhile (· != '\n')) =
      byteLength (b.reverse.takeWhile (· != '\n')) := by
    have := ha.column
    have := hb.column
    omega
  have hprefixa : a <+: body := (List.prefix_append a _).trans ha.name
  have hprefixb : b <+: body := (List.prefix_append b _).trans hb.name
  -- one of two prefixes of the body is a prefix of the other, and both end at one place
  rcases List.prefix_or_prefix_of_prefix hprefixa hprefixb with h | h
  · exact prefix_unique h hline hcolumn
  · exact (prefix_unique h hline.symm hcolumn.symm).symm

/-- The name of a call stands right behind `path::`, where the path is not empty, has no boundary
in it and nothing but a boundary before it. -/
def Site.Behind (site : Site) (startLine : Nat) (body path : List Char) : Prop :=
  path ≠ [] ∧ (∀ c ∈ path, isFileBoundary c = false) ∧
    ∃ before, (∀ c, before.getLast? = some c → isFileBoundary c = true) ∧
      site.Follows startLine body (before ++ path ++ [':', ':'])

/-- A site is that of a candidate, at its place in the body. -/
theorem site_of_qualify {scope : Scope} {startLine : Nat} {body rendered : String}
    {sites : List Site} (h : qualify tree scope startLine body = .ok (sites, rendered))
    {site : Site} (hsite : site ∈ sites) :
    ∃ c before word rest, candidateAt before word rest = .ok (some c) ∧
      site = c.site startLine (scope.resolve? tree c) ∧
      site.Follows startLine body.toList before.reverse := by
  obtain ⟨cands, hscan, -⟩ := ok_of_bind h
  obtain ⟨ps, -, -, hqualify⟩ := qualify_cut tree scope startLine hscan
  rw [h] at hqualify
  obtain ⟨rfl, -⟩ := Prod.mk.inj (Except.ok.inj hqualify)
  obtain ⟨c, hc, rfl⟩ := List.mem_map.mp hsite
  obtain ⟨front, w, rest, hlexemes, hfound⟩ := mem_scanFrom hscan hc
  rw [List.append_nil] at hfound
  obtain ⟨-, hname, hoffset, -⟩ := candidateAt_spec hfound
  refine ⟨c, _, w, rest, hfound, rfl, ?_, ?_, ?_⟩
  · have hbody : body.toList = textOf front ++ (w ++ textOf rest) := by
      rw [← text_lexemes body.toList, hlexemes, textOf_append, textOf_cons]
      rfl
    show (textOf front).reverse.reverse ++ c.name.toList <+: body.toList
    rw [List.reverse_reverse, hname, String.toList_ofList, hbody, ← List.append_assoc]
    exact List.prefix_append _ _
  · exact congrArg (startLine + ·) (hoffset.trans List.count_reverse.symm)
  · show c.column = _
    rw [candidateAt_column hfound, List.reverse_reverse]

/-- What is read as an id stands in the body in front of the name. -/
theorem behind_iff {c : Candidate} {before word : List Char} {rest : List Lexeme}
    (hfound : candidateAt before word rest = .ok (some c)) {site : Site} {startLine : Nat}
    {body : List Char} (hplace : site.Follows startLine body before.reverse) (path : List Char) :
    site.Behind startLine body path ↔ c.form = .qualified (String.ofList path) := by
  obtain ⟨-, -, -, -, qualifier, front, hbefore, -, -, hreads, hform⟩ := candidateAt_spec hfound
  constructor
  · rintro ⟨hne, hplain, text, hlast, hfollows⟩
    have htext : before = ':' :: ':' :: (path.reverse ++ text.reverse) := by
      rw [← List.reverse_reverse before, hplace.unique hfollows]
      simp
    have hstop : (text.reverse).takeWhile (fun d => !isFileBoundary d) = [] := by
      cases hrev : text.reverse with
      | nil => rfl
      | cons d more =>
          have hd : isFileBoundary d = true := by
            apply hlast
            rw [← List.head?_reverse, hrev]
            rfl
          rw [List.takeWhile_cons_of_neg (by simp [hd])]
    -- reading backwards from the colons stops at the boundary, with the whole path
    rw [htext, formBefore_file hne hplain, hstop] at hform
    have hpair := Option.some.inj (Except.ok.inj hform)
    exact (Prod.mk.inj hpair).1.symm
  · intro hqualified
    rw [hqualified] at hreads
    obtain ⟨chain, rfl, hpath, hne, hplain, hnext⟩ := hreads
    have hchain : path = chain.reverse := String.ofList_injective hpath
    refine ⟨?_, ?_, front.reverse, ?_, ?_⟩
    · rw [hchain]
      exact fun hnil => hne (List.reverse_eq_nil_iff.mp hnil)
    · intro d hd
      exact hplain d (List.mem_reverse.mp (hchain ▸ hd))
    · intro d hd
      rw [List.getLast?_reverse] at hd
      exact hnext d hd
    · rw [hbefore] at hplace
      rw [hchain]
      simpa using hplace

/-! ## Exact resolution -/

/-- **Calls are resolved to what they mean exactly where no name stands behind `path::`**, unless
`path::name` is the id that the name means anyway. Behind `path::` that text is taken for the id
as it stands. -/
theorem site_exact_iff {startLine : Nat} {body rendered : String} {sites : List Site}
    (h : qualify tree (scopeOf file root) startLine body = .ok (sites, rendered)) :
    ∀ site ∈ sites,
      (IsExact file tree root site ↔ ∀ path, site.Behind startLine body.toList path →
        Callee file tree root none site.name
          (some (FunctionId.make ⟨String.ofList path⟩ site.name))) ∧
      ∀ path, site.Behind startLine body.toList path → site.receiver = none ∧
        site.calleeId = some (FunctionId.make ⟨String.ofList path⟩ site.name) := by
  intro site hsite
  obtain ⟨c, before, word, rest, hfound, rfl, hplace⟩ := site_of_qualify h hsite
  have hbehind := behind_iff hfound hplace
  have hid : ∀ path, c.form = .qualified (String.ofList path) →
      (c.site startLine ((scopeOf file root).resolve? tree c)).receiver = none ∧
        (scopeOf file root).resolve? tree c =
          some (FunctionId.make ⟨String.ofList path⟩ c.name) := by
    intro path hform
    refine ⟨?_, resolve?_qualified hform⟩
    unfold Candidate.site
    rw [hform]
  refine ⟨⟨fun hexact path hpath => ?_, fun hall => ?_⟩, fun path hpath => ?_⟩
  · obtain ⟨hreceiver, hcallee⟩ := hid path ((hbehind path).mp hpath)
    have hmeans := hexact.callee
    rw [hreceiver] at hmeans
    show Callee file tree root none c.name (some (FunctionId.make ⟨String.ofList path⟩ c.name))
    rw [← hcallee]
    exact hmeans
  · -- behind `path::` the id is fixed, and elsewhere the lookup finds what the call means
    have hcallee : Callee file tree root
        (c.site startLine ((scopeOf file root).resolve? tree c)).receiver c.name
        ((scopeOf file root).resolve? tree c) := by
      by_cases hform : ∃ path, c.form = .qualified path
      · obtain ⟨path, hform⟩ := hform
        rw [← String.ofList_toList (s := path)] at hform
        obtain ⟨hreceiver, hcallee⟩ := hid path.toList hform
        rw [hreceiver, hcallee]
        exact hall path.toList ((hbehind _).mpr hform)
      · exact callee_resolve? (fun path hpath => hform ⟨path, hpath⟩) startLine
    refine ⟨hcallee, fun id heq => ?_⟩
    have hsome : (scopeOf file root).resolve? tree c = some id := heq
    rw [hsome] at hcallee
    exact hcallee.known
  · exact hid path ((hbehind path).mp hpath)

/-! ## A call in a slice

A file in which the step of a slice is called, and the same function is called behind it. -/

namespace Slice

open Python (Line Part Token)

def source : String := "def g(n):\n    return n\ndef f(xs):\n    return xs[1::g(2)] + g(3)\n"

def header (name : Char) (parameter : String) (line : Nat) : Line :=
  ⟨⟨[], .name, "def".toList, line⟩, [⟨[' '], .name, [name], line⟩, ⟨[], .mark, ['('], line⟩,
    ⟨[], .name, parameter.toList, line⟩, ⟨[], .mark, [')'], line⟩, ⟨[], .mark, [':'], line⟩], []⟩

def returning (line : Nat) (value : List Token) : Line :=
  ⟨⟨[' ', ' ', ' ', ' '], .name, "return".toList, line⟩, value, []⟩

def plain : Line := returning 2 [⟨[' '], .name, ['n'], 2⟩]

def slicing : Line :=
  returning 4 [⟨[' '], .name, "xs".toList, 4⟩, ⟨[], .mark, ['['], 4⟩, ⟨[], .number, ['1'], 4⟩,
    ⟨[], .mark, [':'], 4⟩, ⟨[], .mark, [':'], 4⟩, ⟨[], .name, ['g'], 4⟩, ⟨[], .mark, ['('], 4⟩,
    ⟨[], .number, ['2'], 4⟩, ⟨[], .mark, [')'], 4⟩, ⟨[], .mark, [']'], 4⟩, ⟨[' '], .mark, ['+'], 4⟩,
    ⟨[' '], .name, ['g'], 4⟩, ⟨[], .mark, ['('], 4⟩, ⟨[], .number, ['3'], 4⟩, ⟨[], .mark, [')'], 4⟩]

/-- The headers, each with the line of its block. -/
def functions : List (Line × Line) := [(header 'g' "n" 1, plain), (header 'f' "xs" 3, slicing)]

def lines : List Line := [header 'g' "n" 1, plain, header 'f' "xs" 3, slicing]

theorem lines_source : Python.lines? source.toList = some lines := by
  have htokens : Python.tokens? source.toList =
      some (lines.flatMap fun l => l.tokens ++ [⟨[], .lineEnd, ['\n'], l.first⟩], []) := by
    decide +kernel
  rw [Python.lines?, htokens]
  cbv

theorem parse_source : Python.parse? source.toList =
    some [.mk .definition (header 'g' "n" 1) [] [.mk .simple plain plain.tokens []],
      .mk .definition (header 'f' "xs" 3) [] [.mk .simple slicing slicing.tokens []]] :=
  @Python.parse?_functions _ _ functions lines_source rfl (by decide)

/-- The function with the slice. -/
def slicer : FunctionDef :=
  ⟨⟨"/repo/m.py"⟩, "f", 3, 4, "def f(xs):\n    return xs[1::g(2)] + g(3)", ["xs"]⟩

/-- The file, indexed. -/
def indexed : SourceFile :=
  { path := ⟨"/repo/m.py"⟩
    language := "python"
    functions := [⟨⟨"/repo/m.py"⟩, "g", 1, 2, "def g(n):\n    return n", ["n"]⟩, slicer]
    bindings := [] }

theorem ofText_source : SourceFile.ofText ⟨"/repo/m.py"⟩ source.toList = .ok indexed := by
  unfold SourceFile.ofText Python.parse Python.parser
  rw [if_pos (by decide), parse_source]
  rfl

/-- The calls of the function as they are resolved. -/
def sites : List Site :=
  [⟨4, 18, "g", none, some "1::g", "2"⟩, ⟨4, 26, "g", none, some "/repo/m.py::g", "3"⟩]

theorem qualify_slicer :
    qualify FileTree.empty (scopeOf indexed ⟨"/repo"⟩) slicer.startLine slicer.body =
      .ok (sites, "def f(xs):\n    return xs[1::g(2)] + /repo/m.py::g(3)") := by
  have hlexemes : lexemes slicer.body.toList =
      [.word "def".toList, .mark ' ', .word ['f'], .mark '(', .word "xs".toList, .mark ')',
        .mark ':', .mark '\n', .mark ' ', .mark ' ', .mark ' ', .mark ' ', .word "return".toList,
        .mark ' ', .word "xs".toList, .mark '[', .number ['1'], .mark ':', .mark ':', .word ['g'],
        .mark '(', .number ['2'], .mark ')', .mark ']', .mark ' ', .mark '+', .mark ' ',
        .word ['g'], .mark '(', .number ['3'], .mark ')'] := by
    cbv
  unfold qualify scan
  rw [hlexemes]
  rfl

end Slice

/-- The calls of the function with the slice. -/
theorem site_exact_iff_slice :
    qualify FileTree.empty (scopeOf Slice.indexed ⟨"/repo"⟩) Slice.slicer.startLine
        Slice.slicer.body =
      .ok (Slice.sites, "def f(xs):\n    return xs[1::g(2)] + /repo/m.py::g(3)") ∧
    ∀ site ∈ Slice.sites,
      (IsExact Slice.indexed FileTree.empty ⟨"/repo"⟩ site ↔
        ∀ path, site.Behind Slice.slicer.startLine Slice.slicer.body.toList path →
          Callee Slice.indexed FileTree.empty ⟨"/repo"⟩ none site.name
            (some (FunctionId.make ⟨String.ofList path⟩ site.name))) ∧
      ∀ path, site.Behind Slice.slicer.startLine Slice.slicer.body.toList path →
        site.receiver = none ∧
          site.calleeId = some (FunctionId.make ⟨String.ofList path⟩ site.name) :=
  ⟨Slice.qualify_slicer, site_exact_iff Slice.qualify_slicer⟩

/-- The step of the slice is taken for a function of a file `1`, which is no known one, though the
file defines a function of that name; a call of it behind the slice is resolved to that. -/
theorem slice_call_differs :
    SourceFile.ofText ⟨"/repo/m.py"⟩ Slice.source.toList = .ok Slice.indexed ∧
      Slice.slicer ∈ Slice.indexed.functions ∧
      qualify FileTree.empty (scopeOf Slice.indexed ⟨"/repo"⟩) Slice.slicer.startLine
          Slice.slicer.body =
        .ok (Slice.sites, "def f(xs):\n    return xs[1::g(2)] + /repo/m.py::g(3)") ∧
      ⟨4, 18, "g", none, some "1::g", "2"⟩ ∈ Slice.sites ∧
      Callee Slice.indexed FileTree.empty ⟨"/repo"⟩ none "g" (some "/repo/m.py::g") ∧
      ¬ Callee Slice.indexed FileTree.empty ⟨"/repo"⟩ none "g" (some "1::g") ∧
      ¬ Known Slice.indexed FileTree.empty ⟨"/repo"⟩ "1::g" := by
  have hmeans : Callee Slice.indexed FileTree.empty ⟨"/repo"⟩ none "g" (some "/repo/m.py::g") :=
    .own (.inl rfl) ⟨_, List.mem_cons_self, rfl⟩
  refine ⟨Slice.ofText_source, ?_, Slice.qualify_slicer, List.mem_cons_self, hmeans, ?_, ?_⟩
  · exact List.mem_cons_of_mem _ List.mem_cons_self
  · intro hother
    exact absurd (hmeans.unique hother) (by decide)
  · rintro (⟨f, hf, hid⟩ | ⟨source, member, hsource, -⟩)
    · revert f
      decide
    · -- there is no file at all
      obtain ⟨here, content, -, hfound, -⟩ := FileTree.isFile_iff.mp hsource
      unfold FileTree.foundAt? FileTree.entryAt? at hfound
      split at hfound
      · exact absurd hfound (by simp [Entry.found?])
      · exact absurd hfound (by simp [FileTree.empty])

end Call

end ChangeScope
