import ChangeScope.Proofs.CallGraph.Edges
import ChangeScope.Proofs.Json.Decode
import ChangeScope.Proofs.Json.Indented
import ChangeScope.Proofs.Snapshot.Replacing

/-!
# Whole snapshots

A snapshot that is written holds what the graph says: each of its files is read back as the nodes,
the callees and the parents (`isWhole_of_areReplaced`). A snapshot that is not written leaves whole
new files before whole old ones, and nothing else is touched (`write_whole_or_left`), unless a link
has one of the names under which the files are written first, or the path of the directory leads
over one of the files (`write_elsewhere`).
-/

set_option autoImplicit false

namespace ChangeScope

/-! ## What the files tell -/

/-- The line numbers of a function fit into a machine word. -/
structure QualifiedFunction.HasWordLines (f : QualifiedFunction) : Prop where
  first : f.function.function.startLine < 2 ^ 64
  last : f.function.function.endLine < 2 ^ 64
  changed : ∀ line ∈ f.function.lines, line < 2 ^ 64

namespace Snapshot

/-- The record tells of the function. -/
structure Tells (record : Json) (f : QualifiedFunction) : Prop where
  body : record.get? "body_text" = some (.str f.function.function.body)
  first : record.get? "start_line" = some (.nat f.function.function.startLine)
  last : record.get? "end_line" = some (.nat f.function.function.endLine)
  path : record.get? "file_path" = some (.str f.function.function.file.text)
  status : record.get? "file_status" = some (.str f.function.status.name)
  changed : record.get? "changed_lines" = some (.arr (f.function.lines.map .nat))
  params : record.get? "param_names" = some (.strings f.function.function.params)

/-- A file in a directory holds a text. Its path is read as the text as long as the path of the
directory leads to the directory. -/
structure Holds (dir : Path) (here : Place) (tree : FileTree) (name : String) (text : List Char) :
    Prop where
  entry : tree.entryAt? (here ++ [name.toList]) = some (.file (Text.Utf8.encode text))
  read : tree.LeadsTo dir here → tree.readText (dir.join name) = .ok text

/-- The names of the files, in the order in which they are replaced. -/
def fileNames : List String := ["functions.json", "call_graph.json", "parent_functions.json"]

/-- The three files in a directory tell all of the graph, and none of them is left under its first
name. -/
structure IsWhole (graph : CallGraph) (dir : Path) (here : Place) (tree : FileTree) : Prop where
  functions : ∃ text records, Holds dir here tree "functions.json" text ∧
    Json.ofText text = .ok (.obj records) ∧ OrderedMap.keys records = graph.nodes.keys ∧
    ∀ id f, (id, f) ∈ graph.nodes → ∃ record, OrderedMap.get? records id = some record ∧
      Tells record f
  callGraph : ∃ text callees, Holds dir here tree "call_graph.json" text ∧
    Json.ofText text = .ok (.obj callees) ∧ OrderedMap.keys callees = graph.nodes.keys ∧
    ∀ id ∈ graph.nodes.keys, OrderedMap.get? callees id = some (.strings (graph.callees id))
  parents : ∃ text, Holds dir here tree "parent_functions.json" text ∧
    Json.ofText text = .ok (.strings graph.parents) ∧ graph.parents ⊆ graph.nodes.keys
  temporary : ∀ name ∈ fileNames,
    tree.entryAt? (here ++ [name.toList ++ ".tmp".toList]) = none

/-! ## Records -/

theorem tells_sorted (f : QualifiedFunction) : Tells (functionJson f).sorted f := by
  have hget : ∀ key, (functionJson f).sorted.get? key =
      (Json.last? [("body_text", .str f.function.function.body),
        ("start_line", .nat f.function.function.startLine),
        ("end_line", .nat f.function.function.endLine),
        ("file_path", .str f.function.function.file.text),
        ("file_status", .str f.function.status.name),
        ("changed_lines", .arr (f.function.lines.map .nat)),
        ("param_names", .strings f.function.function.params)] key).map Json.sorted :=
    fun key => Json.get?_sortedMembers _ key
  refine ⟨?_, ?_, ?_, ?_, ?_, ?_, ?_⟩ <;> rw [hget]
  · rfl
  · rfl
  · rfl
  · rfl
  · rfl
  · show some (Json.sorted (.arr _)) = _
    rw [Json.sorted, Json.sortedItems_eq_map, List.map_map]
    rfl
  · show some (Json.sorted (.strings _)) = _
    rw [Json.sorted_strings]

theorem isPrecise_functionJson {f : QualifiedFunction} (h : f.HasWordLines) :
    Json.IsPrecise (functionJson f) := by
  have hchanged : Json.IsPrecise (.arr (f.function.lines.map .nat)) := by
    refine .arr fun item hitem => ?_
    obtain ⟨line, hline, rfl⟩ := List.mem_map.mp hitem
    exact Json.isPrecise_nat (h.changed line hline)
  refine .obj ?_
  simp only [List.forall_mem_cons]
  exact ⟨.str _, Json.isPrecise_nat h.first, Json.isPrecise_nat h.last, .str _, .str _, hchanged,
    Json.isPrecise_strings _, fun _ hmem => absurd hmem List.not_mem_nil⟩

theorem height_functionJson (f : QualifiedFunction) : (functionJson f).height ≤ 2 := by
  have hchanged : (Json.arr (f.function.lines.map .nat)).height ≤ 1 := by
    rw [Json.height]
    refine Nat.succ_le_succ (Json.itemsHeight_le_iff.mpr fun item hitem => ?_)
    obtain ⟨line, -, rfl⟩ := List.mem_map.mp hitem
    exact Nat.le_refl 0
  rw [functionJson, Json.height]
  refine Nat.succ_le_succ (Json.membersHeight_le_iff.mpr ?_)
  simp only [List.forall_mem_cons]
  exact ⟨Nat.zero_le 1, Nat.zero_le 1, Nat.zero_le 1, Nat.zero_le 1, Nat.zero_le 1, hchanged,
    Json.height_strings _, fun _ hmem => absurd hmem List.not_mem_nil⟩

/-! ## The three values -/

variable {graph : CallGraph}

/-- Values by id are read back from their indented form. -/
theorem ofText_byId (h : graph.Keyed) (value : String × CallNode → Json)
    (hprecise : ∀ node ∈ graph.nodes, (value node).IsPrecise)
    (hheight : ∀ node ∈ graph.nodes, (value node).height ≤ 2) :
    Json.ofText (Json.obj (graph.nodes.map fun node => (node.1, value node))).pretty.toList =
      .ok (.obj (graph.nodes.map fun node => (node.1, (value node).sorted))) := by
  have hkeys : OrderedMap.keys (graph.nodes.map fun node => (node.1, value node)) =
      graph.nodes.keys := by
    rw [OrderedMap.keys, List.map_map]
    rfl
  rw [Json.ofText_pretty, Json.sorted_obj (hkeys ▸ h.increasing), List.map_map]
  · rfl
  · exact .obj (List.forall_mem_map.mpr hprecise)
  · have hlow : Json.membersHeight (graph.nodes.map fun node => (node.1, value node)) ≤ 2 := by
      refine Json.membersHeight_le_iff.mpr fun m hm => ?_
      obtain ⟨node, hnode, rfl⟩ := List.mem_map.mp hm
      exact hheight node hnode
    rw [Json.height]
    exact Nat.le_trans (Nat.succ_le_succ hlow) (by decide)

theorem get?_byId {value : String × CallNode → Json} (h : graph.Keyed) {id : String}
    {node : CallNode} (hnode : (id, node) ∈ graph.nodes) :
    OrderedMap.get? (graph.nodes.map fun node => (node.1, value node)) id =
      some (value (id, node)) := by
  refine OrderedMap.get?_of_mem ?_ (List.mem_map.mpr ⟨(id, node), hnode, rfl⟩)
  rw [OrderedMap.keys, List.map_map]
  exact h.increasing

theorem ofText_functionsJson (h : graph.Keyed)
    (hlines : ∀ node ∈ graph.nodes, node.2.HasWordLines) :
    ∃ records, Json.ofText (functionsJson graph).pretty.toList = .ok (.obj records) ∧
      OrderedMap.keys records = graph.nodes.keys ∧
      ∀ id f, (id, f) ∈ graph.nodes → ∃ record, OrderedMap.get? records id = some record ∧
        Tells record f := by
  have htext := ofText_byId h (fun node => functionJson node.2)
    (fun node hnode => isPrecise_functionJson (hlines node hnode))
    (fun node _ => height_functionJson node.2)
  refine ⟨_, htext, ?_, fun id f hnode => ⟨_, get?_byId h hnode, tells_sorted f⟩⟩
  rw [OrderedMap.keys, List.map_map]
  rfl

theorem ofText_adjacencyJson (h : graph.Keyed) :
    ∃ callees, Json.ofText (CallGraph.adjacencyJson graph.adjacency).pretty.toList =
        .ok (.obj callees) ∧ OrderedMap.keys callees = graph.nodes.keys ∧
      ∀ id ∈ graph.nodes.keys, OrderedMap.get? callees id = some (.strings (graph.callees id)) := by
  have hvalue : CallGraph.adjacencyJson graph.adjacency =
      .obj (graph.nodes.map fun node => (node.1, .strings (graph.callees node.1))) := by
    rw [CallGraph.adjacencyJson, CallGraph.adjacency, OrderedMap.keys, List.map_map, List.map_map]
    rfl
  have htext := ofText_byId h (fun node => .strings (graph.callees node.1))
    (fun node _ => Json.isPrecise_strings _)
    (fun node _ => Nat.le_succ_of_le (Json.height_strings _))
  rw [hvalue]
  refine ⟨_, htext, ?_, fun id hid => ?_⟩
  · rw [OrderedMap.keys, List.map_map]
    rfl
  · obtain ⟨⟨id, f⟩, hnode, rfl⟩ := List.mem_map.mp hid
    rw [get?_byId h hnode, Json.sorted_strings]

theorem ofText_parents (graph : CallGraph) :
    Json.ofText (Json.strings graph.parents).pretty.toList = .ok (.strings graph.parents) := by
  rw [Json.ofText_pretty (Json.isPrecise_strings _), Json.sorted_strings]
  exact Nat.le_trans (Json.height_strings _) (by decide)

/-! ## The files of a graph -/

/-- The files in the order in which they are replaced. -/
def files (tree : FileTree) (graph : CallGraph) : List NamedFile :=
  [("functions.json", functionsValue tree graph),
    ("call_graph.json", .ok (CallGraph.adjacencyJson graph.adjacency)),
    ("parent_functions.json", .ok (.strings graph.parents))]

theorem names_files (tree : FileTree) (graph : CallGraph) :
    (files tree graph).map (·.1) = fileNames := rfl

theorem files_pairwise (tree : FileTree) (graph : CallGraph) :
    (files tree graph).Pairwise fun file other => ∀ name ∈ file.names, name ∉ other.names := by
  have hnames : ((files tree graph).map NamedFile.names).Pairwise
      fun a b => ∀ name ∈ a, name ∉ b := by
    show List.Pairwise _ [NamedFile.names ("functions.json", .ok .null),
      NamedFile.names ("call_graph.json", .ok .null),
      NamedFile.names ("parent_functions.json", .ok .null)]
    decide
  exact List.pairwise_map.mp hnames

theorem isName_of_fileNames {name : String} (h : name ∈ fileNames) :
    Path.IsName name.toList ∧ '\x00' ∉ name.toList := by
  have hnames : ∀ name ∈ fileNames,
      name.toList ≠ [] ∧ name.toList ≠ ['.'] ∧ name.toList ≠ ['.', '.'] ∧ '/' ∉ name.toList ∧
        '\x00' ∉ name.toList := by decide
  obtain ⟨hne, hcurrent, hparent, hslash, hnul⟩ := hnames name h
  exact ⟨⟨hne, hcurrent, hparent, hslash⟩, hnul⟩

theorem mem_fileNames {tree : FileTree} {file : NamedFile} (h : file ∈ files tree graph) :
    file.1 ∈ fileNames := names_files tree graph ▸ List.mem_map_of_mem h

variable {tree made after : FileTree} {dir : Path} {here : Place}

/-- **Replaced files tell all of the graph.** -/
theorem isWhole_of_areReplaced (h : graph.Keyed)
    (hlines : ∀ node ∈ graph.nodes, node.2.HasWordLines)
    (hreplaced : AreReplaced here (files made graph) 3 made after) :
    IsWhole graph dir here after := by
  have hholds : ∀ file ∈ files made graph, ∃ value, file.2 = .ok value ∧
      Holds dir here after file.1 value.pretty.toList := by
    intro file hfile
    obtain ⟨⟨value, hvalue, hentry⟩, -⟩ := hreplaced.done file hfile
    obtain ⟨hname, hplain⟩ := isName_of_fileNames (mem_fileNames hfile)
    refine ⟨value, hvalue, hentry, fun hleads => ?_⟩
    rw [← String.ofList_toList (s := file.1)]
    exact hleads.readText_join hname hplain hentry
  have hgone : ∀ file ∈ files made graph,
      after.entryAt? (here ++ [file.1.toList ++ ".tmp".toList]) = none :=
    fun file hfile => (hreplaced.done file hfile).2
  rw [← List.forall_mem_map (f := Prod.fst) (P := fun name : String =>
    after.entryAt? (here ++ [name.toList ++ ".tmp".toList]) = none), names_files] at hgone
  simp only [files, List.forall_mem_cons] at hholds
  obtain ⟨⟨value, hvalue, hfunctions⟩, ⟨_, ⟨⟩, hcallGraph⟩, ⟨_, ⟨⟩, hparents⟩, -⟩ := hholds
  obtain rfl : functionsJson graph = value := by
    unfold functionsValue at hvalue
    split at hvalue
    · exact Except.ok.inj hvalue
    · cases hvalue
  obtain ⟨records, hrecords, hkeys, htells⟩ := ofText_functionsJson h hlines
  obtain ⟨callees, hcallees, hkeys', hget⟩ := ofText_adjacencyJson h
  exact ⟨⟨_, records, hfunctions, hrecords, hkeys, htells⟩,
    ⟨_, callees, hcallGraph, hcallees, hkeys', hget⟩,
    ⟨_, hparents, ofText_parents graph, fun _ hid => (List.mem_filter.mp hid).1⟩, hgone⟩

theorem write_eq (dir : Path) (graph : CallGraph) (tree : FileTree) :
    write dir graph graph.parents tree =
      match tree.makeDirectories dir with
      | (made, .error cause) => (made, .error (.io cause))
      | (made, .ok ()) =>
          let (after, result) :=
            replaceAll ((files made graph).map fun file => (dir.join file.1, file.2)) made
          (after, result.map fun () => Paths.within dir) := by
  unfold write
  rcases tree.makeDirectories dir with ⟨made, cause | _⟩
  · rfl
  · rfl

/-! ## The tree before and after -/

/-- The tree with the first `count` files of a directory replaced and the others as they were. Where
a file was not replaced and nothing stood, a directory may have been made, if the path of the
directory leads over its name. Nothing else has changed but the directories on the way and what
stands under the first names of the files. -/
structure IsCut (dir : Path) (here : Place) (files : List NamedFile) (count : Nat)
    (tree made after : FileTree) : Prop where
  rest : after = { tree with entries := after.entries }
  done : ∀ file ∈ files.take count, (∃ value, file.2 = .ok value ∧
    after.entryAt? (file.target here) = some (.file (contentOf value))) ∧
      after.entryAt? (file.sibling here) = none
  left : ∀ file ∈ files.drop count,
    after.entryAt? (file.target here) = tree.entryAt? (file.target here) ∨
      tree.entryAt? (file.target here) = none ∧
        after.entryAt? (file.target here) = some .directory ∧
          Path.Component.name file.1.toList ∈ dir.components
  others : ∀ q, (∀ file ∈ files, q ≠ file.target here ∧ q ≠ file.sibling here) →
    after.entryAt? q = tree.entryAt? q ∨
      after.entryAt? q = some .directory ∧ FileTree.IsMade dir.components tree made q

/-- A directory was made under a name on the way. -/
theorem mem_components_of_isMade {name : List Char}
    (h : FileTree.IsMade dir.components tree made (here ++ [name])) :
    Path.Component.name name ∈ dir.components := by
  obtain ⟨front, n, hfront, -, hlast⟩ := h.named
  rw [List.getLast?_concat] at hlast
  obtain rfl := Option.some.inj hlast
  exact hfront.subset (by simp)

theorem AreReplaced.isCut {files : List NamedFile} {count : Nat}
    (h : AreReplaced here files count made after)
    (hadds : FileTree.AddsDirectories dir.components tree made) :
    IsCut dir here files count tree made after where
  rest := by rw [h.rest, hadds.rest]
  done := h.done
  left file hfile := by
    rw [(h.left file hfile).1]
    exact (hadds.entry _).imp_right fun hmade =>
      ⟨hmade.free, hmade.directory, mem_components_of_isMade hmade⟩
  others q hq := by
    rw [h.others q hq]
    exact (hadds.entry q).imp_right fun hmade => ⟨hmade.directory, hmade⟩

/-- No link comes anywhere when directories are made. -/
theorem IsUnlinked.of_adds {q : Place} (h : IsUnlinked tree q)
    (hadds : FileTree.AddsDirectories dir.components tree made) : IsUnlinked made q := by
  rcases hadds.entry q with hsame | hmade
  · exact ⟨fun target => hsame ▸ h.link target, fun number => hsame ▸ h.shared number⟩
  · exact ⟨fun target => by simp [hmade.directory], fun number => by simp [hmade.directory]⟩

/-- In a directory that is there, the files are replaced up to the first that cannot be. -/
theorem replaceAll_files (hkeyed : graph.Keyed)
    (hlines : ∀ node ∈ graph.nodes, node.2.HasWordLines) (h : made.LeadsTo dir here)
    (hplain : ∀ name ∈ fileNames, IsUnlinked made (here ++ [name.toList ++ ".tmp".toList]))
    {result : Except Failure Unit}
    (hall : replaceAll ((files made graph).map fun file => (dir.join file.1, file.2)) made =
      (after, result)) :
    (result = .ok () ∧ IsWhole graph dir here after ∧
        AreReplaced here (files made graph) 3 made after) ∨
      ∃ failure count, result = .error failure ∧ count < 3 ∧
        AreReplaced here (files made graph) count made after := by
  refine (replaceAll_spec (files_pairwise made graph)
    (fun file hfile => (isName_of_fileNames (mem_fileNames hfile)).1) h.leadsOnlyTo
    (fun file hfile => hplain file.1 (mem_fileNames hfile)) hall).imp_left ?_
  rintro ⟨hok, hreplaced⟩
  exact ⟨hok, isWhole_of_areReplaced hkeyed hlines hreplaced, hreplaced⟩

/-- **A snapshot is whole, or what it could not replace is left**, if no link has one of the names
under which its files are written first. If it is written, its files are read back as the graph. If
it is not, the first files are new and whole and the others are what they were, but for a directory
that was made on the way to the directory itself. Of the tree before, nothing else changes. -/
theorem write_whole_or_left (tree : FileTree) (dir : Path) (functions : List QualifiedFunction)
    (hlines : ∀ f ∈ functions, f.HasWordLines)
    (hplain : ∀ here, (tree.makeDirectories dir).1.LeadsTo dir here → ∀ name ∈ fileNames,
      IsUnlinked tree (here ++ [name.toList ++ ".tmp".toList])) :
    let graph := CallGraph.ofFunctions functions
    let made := (tree.makeDirectories dir).1
    match write dir graph graph.parents tree with
    | (after, .ok paths) =>
        paths = Paths.within dir ∧
          ∃ here, made.LeadsTo dir here ∧ IsWhole graph dir here after ∧
            IsCut dir here (files made graph) 3 tree made after ∧
            ((∀ name ∈ fileNames, ∀ target,
              tree.entryAt? (here ++ [name.toList]) ≠ some (.link target)) →
                after.LeadsTo dir here)
    | (after, .error _) =>
        ((tree.makeDirectories dir).2 ≠ .ok () ∧
            FileTree.AddsDirectories dir.components tree after) ∨
          ∃ here count, made.LeadsTo dir here ∧ count < 3 ∧
            IsCut dir here (files made graph) count tree made after := by
  intro graph made
  have hkeyed : graph.Keyed := CallGraph.keyed_ofFunctions functions
  have hnodes : ∀ node ∈ graph.nodes, node.2.HasWordLines := by
    intro node hnode
    obtain ⟨f, hf, -, hnodeOf⟩ := CallGraph.mem_nodes_ofFunctions.mp hnode
    rw [hnodeOf]
    exact hlines f (List.mem_of_find?_eq_some (CallGraph.mem_firsts_iff.mp hf))
  have hadds : FileTree.AddsDirectories dir.components tree made :=
    tree.addsDirectories_makeDirectories dir
  have hleads : (tree.makeDirectories dir).2 = .ok () → ∃ here, made.LeadsTo dir here :=
    FileTree.leadsTo_makeDirectories
  clear_value graph
  rw [write_eq]
  rcases hmake : tree.makeDirectories dir with ⟨there, cause | _⟩
  · obtain rfl : made = there := congrArg Prod.fst hmake
    exact .inl ⟨by simp, hadds⟩
  · obtain rfl : made = there := congrArg Prod.fst hmake
    rw [hmake] at hleads
    simp only
    rcases hall : replaceAll ((files made graph).map fun file => (dir.join file.1, file.2)) made
      with ⟨after, result⟩
    simp only [hall]
    obtain ⟨here, hhere⟩ := hleads rfl
    have hfiles := replaceAll_files hkeyed hnodes hhere
      (fun name hname => (hplain here hhere name hname).of_adds hadds) hall
    clear hall
    obtain ⟨rfl, hwhole, hreplaced⟩ | ⟨failure, count, rfl, hcount, hreplaced⟩ := hfiles
    · refine ⟨rfl, here, hhere, hwhole, hreplaced.isCut hadds, fun hlinks => ?_⟩
      refine hhere.of_keeps (hreplaced.ways fun file hfile target => ?_)
      exact mt (hadds.keepsWays.link _ target).mp (hlinks file.1 (mem_fileNames hfile) target)
    · exact .inr ⟨here, count, hhere, hcount, hreplaced.isCut hadds⟩

/-! ### A snapshot over an old one -/

namespace Stale

/-- A function that calls one which has not changed. -/
def main : QualifiedFunction :=
  { function :=
      { function :=
          { file := ⟨"/repo/file.py"⟩, name := "main", startLine := 4, endLine := 5
            body := "def main():\n    return helper(2)", params := [] }
        lines := [5]
        status := .modified }
    sites :=
      [{ line := 5, column := 12, name := "helper", receiver := none
         calleeId := some "/repo/file.py::helper", args := "2" }]
    body := "" }

/-- The place of the directory. -/
def out : Place := ["repo".toList, "out".toList]

/-- An old list of parents. -/
def oldTree : FileTree :=
  .ofFiles [(⟨"out/parent_functions.json"⟩, Text.Utf8.encode "[\"stale\"]".toList)]

/-- The place of a file outside the directory. -/
def notes : Place := ["repo".toList, "notes".toList]

/-- A directory has the name of the first file, and under its other name a link leads to a file
outside. -/
def linkedTree : FileTree where
  entries :=
    [(out, .directory), (out ++ ["functions.json".toList], .directory),
      (out ++ ["functions.json.tmp".toList], .link ⟨"../notes"⟩), (notes, .file [])]

/-- The other name of the first file is a further name of the file outside. -/
def sharedTree : FileTree where
  entries :=
    [(out, .directory), (out ++ ["functions.json".toList], .directory),
      (out ++ ["functions.json.tmp".toList], .shared 1), (notes, .shared 1)]
  contents := [(1, [])]

end Stale

theorem hasWordLines_main : ∀ f ∈ [Stale.main], f.HasWordLines := by
  rintro f hf
  rw [List.mem_singleton.mp hf]
  exact ⟨by decide, by decide, by decide⟩

theorem write_whole_over_stale :
    (∀ f ∈ [Stale.main], f.HasWordLines) ∧
      (∀ here, (Stale.oldTree.makeDirectories ⟨"out"⟩).1.LeadsTo ⟨"out"⟩ here →
        ∀ name ∈ fileNames, IsUnlinked Stale.oldTree (here ++ [name.toList ++ ".tmp".toList])) ∧
      ∃ after, write ⟨"out"⟩ (.ofFunctions [Stale.main])
          (CallGraph.ofFunctions [Stale.main]).parents Stale.oldTree =
            (after, .ok (Paths.within ⟨"out"⟩)) ∧
        IsWhole (.ofFunctions [Stale.main]) ⟨"out"⟩ Stale.out after ∧
        after.LeadsTo ⟨"out"⟩ Stale.out := by
  have hlead : (Stale.oldTree.makeDirectories ⟨"out"⟩).1.lead (Path.components ⟨"out"⟩) =
      .ok Stale.out := by decide +kernel
  have hhere : ∀ here, (Stale.oldTree.makeDirectories ⟨"out"⟩).1.LeadsTo ⟨"out"⟩ here →
      here = Stale.out := by
    intro here hleads
    exact Except.ok.inj (hleads.lead.symm.trans hlead)
  have hfree : ∀ name ∈ fileNames,
      Stale.oldTree.entryAt? (Stale.out ++ [name.toList ++ ".tmp".toList]) = none := by
    decide +kernel
  have hlinks : ∀ name ∈ fileNames, ∀ target,
      Stale.oldTree.entryAt? (Stale.out ++ [name.toList]) ≠ some (.link target) := by
    have hplain : ∀ name ∈ fileNames,
        Stale.oldTree.entryAt? (Stale.out ++ [name.toList]) ∈
          [none, some (.file (Text.Utf8.encode "[\"stale\"]".toList))] := by
      decide +kernel
    intro name hname target hlink
    simpa [hlink] using hplain name hname
  have hplain : ∀ here, (Stale.oldTree.makeDirectories ⟨"out"⟩).1.LeadsTo ⟨"out"⟩ here →
      ∀ name ∈ fileNames, IsUnlinked Stale.oldTree (here ++ [name.toList ++ ".tmp".toList]) := by
    intro here hleads name hname
    rw [hhere here hleads]
    exact isUnlinked_of_free (hfree name hname)
  have hok : (write ⟨"out"⟩ (.ofFunctions [Stale.main])
      (CallGraph.ofFunctions [Stale.main]).parents Stale.oldTree).2.isOk = true := by
    decide +kernel
  have hwhole := write_whole_or_left Stale.oldTree ⟨"out"⟩ [Stale.main] hasWordLines_main hplain
  refine ⟨hasWordLines_main, hplain, ?_⟩
  dsimp only at hwhole
  generalize write ⟨"out"⟩ (.ofFunctions [Stale.main])
    (CallGraph.ofFunctions [Stale.main]).parents Stale.oldTree = outcome at hok hwhole
  obtain ⟨after, _ | paths⟩ := outcome
  · cases hok
  · obtain ⟨rfl, here, hleads, hwhole, -, hkept⟩ := hwhole
    obtain rfl := hhere here hleads
    exact ⟨after, rfl, hwhole, hkept hlinks⟩

/-- A snapshot that fails can leave more behind. Where the path of the directory leads over the name
of a file, the place of the file was free and holds a directory then; and where a link has the name
under which a file is written first, the file that the link leads to is written, be it a symbolic
link or a further name of that file. -/
theorem write_elsewhere :
    (∃ after, write ⟨"out/functions.json/.."⟩ (.ofFunctions [Stale.main])
        (CallGraph.ofFunctions [Stale.main]).parents .empty = (after, .error (.io .isDirectory)) ∧
      FileTree.empty.foundAt? (Stale.out ++ ["functions.json".toList]) = none ∧
      after.foundAt? (Stale.out ++ ["functions.json".toList]) = some .directory) ∧
    ∀ tree ∈ [Stale.linkedTree, Stale.sharedTree],
      ∃ after, write ⟨"out"⟩ (.ofFunctions []) (CallGraph.ofFunctions []).parents tree =
          (after, .error (.io .isDirectory)) ∧
        tree.foundAt? Stale.notes = some (.file []) ∧
        after.foundAt? Stale.notes = some (.file (Text.Utf8.encode "\x7b\x7d".toList)) := by
  refine ⟨⟨_, Prod.ext rfl ?nested, by decide +kernel, by decide +kernel⟩,
    List.forall_mem_cons.mpr ⟨⟨_, Prod.ext rfl ?linked, by decide +kernel, by decide +kernel⟩,
      List.forall_mem_singleton.mpr
        ⟨_, Prod.ext rfl ?shared, by decide +kernel, by decide +kernel⟩⟩⟩
  case nested => decide +kernel
  case linked => decide +kernel
  case shared => decide +kernel

end Snapshot

end ChangeScope
