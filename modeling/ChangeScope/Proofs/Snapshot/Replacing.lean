import ChangeScope.Proofs.FileTree.Writing
import ChangeScope.Snapshot

/-!
# Files replaced one after the other

A file is written under another name and then moved to its place (`replace`). Whether that succeeds
or fails, the place holds its old content or the whole new one (`replace_spec`). So when a list of
files is replaced up to the first failure, some of the first ones are new and the others are as
they were (`replaceAll_spec`).
-/

set_option autoImplicit false

namespace ChangeScope.Snapshot

/-! ## Places of the files -/

/-- A file of a snapshot: its name and its value, if it has one. -/
abbrev NamedFile := String × Except FileError Json

/-- The bytes of a file that holds a value. -/
def contentOf (value : Json) : Bytes := Text.Utf8.encode value.pretty.toList

namespace NamedFile

/-- The name under which a file is written first. -/
def firstName (file : NamedFile) : List Char := file.1.toList ++ ".tmp".toList

/-- The place of a file in a directory. -/
def target (here : Place) (file : NamedFile) : Place := here ++ [file.1.toList]

/-- The place where a file is written first. -/
def sibling (here : Place) (file : NamedFile) : Place := here ++ [file.firstName]

/-- Both names of a file. -/
def names (file : NamedFile) : List (List Char) := [file.1.toList, file.firstName]

end NamedFile

/-- No link stands at a place: no symbolic link, and no name of a file that has others. -/
structure IsUnlinked (tree : FileTree) (place : Place) : Prop where
  link : ∀ target, tree.entryAt? place ≠ some (.link target)
  shared : ∀ number, tree.entryAt? place ≠ some (.shared number)

theorem isUnlinked_of_free {tree : FileTree} {place : Place} (h : tree.entryAt? place = none) :
    IsUnlinked tree place :=
  ⟨by simp [h], by simp [h]⟩

open NamedFile

variable {here : Place} {dir : Path} {before after : FileTree} {file : NamedFile}

theorem temporary_join {name : List Char} (h : Path.IsName name) (dir : Path) :
    temporary (dir.join (String.ofList name)) =
      dir.join (String.ofList (name ++ ".tmp".toList)) := by
  obtain ⟨front, -, htext⟩ := Path.exists_join h dir
  have hplain := htext []
  rw [List.append_nil] at hplain
  have hsame : (dir.join (String.ofList name)).text ++ ".tmp" =
      (dir.join (String.ofList (name ++ ".tmp".toList))).text := by
    rw [← String.toList_inj, String.toList_append, hplain, htext, List.append_assoc]
  show Path.mk _ = _
  rw [hsame]

theorem target_ne_sibling (here : Place) (file : NamedFile) :
    file.target here ≠ file.sibling here := by
  intro heq
  have hname : file.1.toList = file.1.toList ++ ".tmp".toList :=
    List.singleton_inj.mp (List.append_cancel_left heq)
  simpa using congrArg List.length hname

/-! ## One file -/

/-- The tree with a file replaced. A link at its place is replaced like a file. -/
structure IsReplaced (here : Place) (file : NamedFile) (before after : FileTree) : Prop where
  rest : after = { before with entries := after.entries }
  narrows : before.Narrows after
  ways : (∀ link, before.entryAt? (file.target here) ≠ some (.link link)) → before.KeepsWays after
  target : ∃ value, file.2 = .ok value ∧
    after.entryAt? (file.target here) = some (.file (contentOf value))
  sibling : after.entryAt? (file.sibling here) = none
  others : ∀ q, q ≠ file.target here → q ≠ file.sibling here → after.entryAt? q = before.entryAt? q

/-- What may stand at the first name of a file that was not replaced: what stood there, or as much
of the new text as was written. -/
def MayHold (here : Place) (file : NamedFile) (before after : FileTree) : Prop :=
  after.entryAt? (file.sibling here) = before.entryAt? (file.sibling here) ∨
    ∃ value count, file.2 = .ok value ∧
      after.entryAt? (file.sibling here) = some (.file ((contentOf value).take count))

/-- The tree with a file not replaced. -/
structure IsLeft (here : Place) (file : NamedFile) (before after : FileTree) : Prop where
  rest : after = { before with entries := after.entries }
  ways : before.KeepsWays after
  sibling : MayHold here file before after
  others : ∀ q, q ≠ file.sibling here → after.entryAt? q = before.entryAt? q

theorem IsLeft.refl (here : Place) (file : NamedFile) (tree : FileTree) :
    IsLeft here file tree tree :=
  ⟨rfl, .refl tree, .inl rfl, fun _ _ => rfl⟩

/-- A file that is written under its first name is not yet replaced. -/
theorem isLeft_set (hplain : IsUnlinked before (file.sibling here))
    (hfree : before.entryAt? (file.sibling here) ≠ some .directory) {value : Json}
    (hvalue : file.2 = .ok value) (count : Nat) :
    IsLeft here file before
      (before.set (file.sibling here) (.file ((contentOf value).take count))) := by
  have hentry := FileTree.entryAt?_set hfree (.file ((contentOf value).take count))
  refine ⟨rfl, FileTree.keepsWays_set hfree hplain.link (by simp), .inr ⟨value, count, hvalue, ?_⟩,
    fun q hq => ?_⟩
  · rw [hentry, if_pos rfl]
  · rw [hentry, if_neg hq]

/-- It is replaced when it is moved to its place. -/
theorem isReplaced_move (hplain : IsUnlinked before (file.sibling here))
    (hfree : before.entryAt? (file.sibling here) ≠ some .directory)
    (htarget : before.entryAt? (file.target here) ≠ some .directory) {value : Json}
    (hvalue : file.2 = .ok value) :
    IsReplaced here file before
      (((before.set (file.sibling here) (.file (contentOf value))).erase (file.sibling here)).set
        (file.target here) (.file (contentOf value))) := by
  have hne := target_ne_sibling here file
  have hwritten := FileTree.entryAt?_set hfree (.file (contentOf value))
  have hnarrows := FileTree.narrows_set hfree (contentOf value)
  have hways : before.KeepsWays (before.set (file.sibling here) (.file (contentOf value))) :=
    FileTree.keepsWays_set hfree hplain.link (by simp)
  obtain ⟨written, hset⟩ : ∃ written,
    before.set (file.sibling here) (.file (contentOf value)) = written := ⟨_, rfl⟩
  rw [hset] at hwritten hnarrows hways ⊢
  have hfile : written.entryAt? (file.sibling here) = some (.file (contentOf value)) := by
    rw [hwritten, if_pos rfl]
  have hnone : written.entryAt? (file.sibling here) ≠ some .directory := by
    simp [hfile]
  have herased := FileTree.entryAt?_erase hnone
  have hfreed : (written.erase (file.sibling here)).entryAt? (file.target here) =
      before.entryAt? (file.target here) := by
    rw [herased, if_neg hne, hwritten, if_neg hne]
  have hthere := hfreed ▸ htarget
  have hentry := FileTree.entryAt?_set hthere (.file (contentOf value))
  exact
    { rest := by rw [← hset]; rfl
      narrows := (hnarrows.trans (FileTree.narrows_erase (by simp [hfile]))).trans
        (FileTree.narrows_set hthere _)
      ways := fun hlink =>
        (hways.trans (FileTree.keepsWays_erase (by simp [hfile]) (by simp [hfile]))).trans
          (FileTree.keepsWays_set hthere (hfreed ▸ hlink) (by simp))
      target := ⟨value, hvalue, by rw [hentry, if_pos rfl]⟩
      sibling := by rw [hentry, if_neg hne.symm, herased, if_pos rfl]
      others := fun q hq hq' => by
        rw [hentry, if_neg hq, herased, if_neg hq', hwritten, if_neg hq'] }

/-- What a renaming moves to the place of the file is the file just written. -/
theorem isReplaced_rename (hname : Path.IsName file.1.toList) (honly : before.LeadsOnlyTo dir here)
    (hplain : IsUnlinked before (file.sibling here))
    (hfree : before.entryAt? (file.sibling here) ≠ some .directory) {value : Json}
    (hvalue : file.2 = .ok value) {moved : FileTree}
    (hrename : (before.set (file.sibling here) (.file (contentOf value))).rename
      (dir.join (String.ofList file.firstName)) (dir.join file.1) = .ok moved) :
    IsReplaced here file before moved := by
  have hfirst : Path.IsName file.firstName := hname.append (by decide) (by decide)
  have honly' := honly.of_narrows (FileTree.narrows_set hfree (contentOf value))
  have hentry := FileTree.entryAt?_set hfree (.file (contentOf value))
  have hne := target_ne_sibling here file
  obtain ⟨source, target, entry, hsource, htarget, hmoved, hnone, hcases⟩ :=
    FileTree.rename_ok hrename
  obtain rfl : source = file.sibling here := honly'.placeOfName_join hfirst hsource
  rw [← String.ofList_toList (s := file.1)] at htarget
  obtain rfl : target = file.target here := honly'.placeOfName_join hname htarget
  obtain rfl : .file (contentOf value) = entry := by
    rw [hentry, if_pos rfl] at hmoved
    exact Option.some.inj hmoved
  rw [hentry, if_neg hne] at hnone
  obtain ⟨-, heq | ⟨number, hshared⟩⟩ | rfl := hcases
  · exact absurd heq.symm hne
  · cases hshared
  · exact isReplaced_move hplain hfree hnone hvalue

/-- **A file is replaced, or it is left.** -/
theorem replace_spec (hname : Path.IsName file.1.toList) (honly : before.LeadsOnlyTo dir here)
    (hplain : IsUnlinked before (file.sibling here)) :
    ((replace (dir.join file.1) file.2 before).2 = .ok () ∧
        IsReplaced here file before (replace (dir.join file.1) file.2 before).1) ∨
      ((∃ failure, (replace (dir.join file.1) file.2 before).2 = .error failure) ∧
        IsLeft here file before (replace (dir.join file.1) file.2 before).1) := by
  have hfirst : Path.IsName file.firstName := hname.append (by decide) (by decide)
  have htemporary : temporary (dir.join file.1) = dir.join (String.ofList file.firstName) := by
    rw [firstName, ← temporary_join hname, String.ofList_toList]
  unfold replace
  rcases hvalue : file.2 with cause | value
  · exact .inr ⟨⟨_, rfl⟩, .refl here file before⟩
  · dsimp only
    rw [htemporary]
    -- the content is written beside the file first
    have hopened : ∀ place, before.openPlace (dir.join (String.ofList file.firstName)) = .ok place →
        place = file.sibling here ∧ before.entryAt? (file.sibling here) ≠ some .directory := by
      intro place hopen
      obtain ⟨hplace, hfree, -⟩ := FileTree.openPlace_ok hopen
      obtain rfl := honly.place_join hfirst hplain.link hplace
      exact ⟨rfl, hfree⟩
    rcases hwrite : before.write (dir.join (String.ofList file.firstName)) (contentOf value) with
      ⟨written, cause | ⟨⟩⟩ <;> simp only [← contentOf.eq_def, hwrite]
    · refine .inr ⟨⟨_, rfl⟩, ?_⟩
      rcases FileTree.write_error hwrite with rfl | ⟨place, count, hopen, rfl⟩
      · exact .refl here file written
      · obtain ⟨rfl, hfree⟩ := hopened place hopen
        rw [FileTree.put_of_plain _ hplain.shared]
        exact isLeft_set hplain hfree hvalue count
    · obtain ⟨place, hopen, rfl⟩ := FileTree.write_ok hwrite
      obtain ⟨rfl, hfree⟩ := hopened place hopen
      rw [FileTree.put_of_plain _ hplain.shared]
      have hleft := isLeft_set hplain hfree hvalue (contentOf value).length
      rw [List.take_length] at hleft
      rcases hrename : FileTree.rename _ (dir.join (String.ofList file.firstName))
        (dir.join file.1) with cause | moved
      · exact .inr ⟨⟨_, rfl⟩, hleft⟩
      · exact .inl ⟨rfl, isReplaced_rename hname honly hplain hfree hvalue hrename⟩

/-! ## Several files -/

/-- The tree with the first `count` files replaced and the others left. -/
structure AreReplaced (here : Place) (files : List NamedFile) (count : Nat)
    (before after : FileTree) : Prop where
  rest : after = { before with entries := after.entries }
  ways : (∀ file ∈ files, ∀ link, before.entryAt? (file.target here) ≠ some (.link link)) →
    before.KeepsWays after
  done : ∀ file ∈ files.take count, (∃ value, file.2 = .ok value ∧
    after.entryAt? (file.target here) = some (.file (contentOf value))) ∧
      after.entryAt? (file.sibling here) = none
  left : ∀ file ∈ files.drop count,
    after.entryAt? (file.target here) = before.entryAt? (file.target here) ∧
      MayHold here file before after
  others : ∀ q, (∀ file ∈ files, q ≠ file.target here ∧ q ≠ file.sibling here) →
    after.entryAt? q = before.entryAt? q

/-- The places of a file with other names are different. -/
theorem places_ne (here : Place) {other : NamedFile} (h : ∀ name ∈ file.names, name ∉ other.names) :
    (file.target here ≠ other.target here ∧ file.target here ≠ other.sibling here) ∧
      file.sibling here ≠ other.target here ∧ file.sibling here ≠ other.sibling here := by
  have hplace : ∀ {a b : List Char}, here ++ [a] = here ++ [b] → a = b :=
    fun heq => List.singleton_inj.mp (List.append_cancel_left heq)
  have htarget := h file.1.toList (by simp [names])
  have hsibling := h file.firstName (by simp [names])
  simp only [names, List.mem_cons, List.not_mem_nil, or_false, not_or] at htarget hsibling
  exact ⟨⟨mt hplace htarget.1, mt hplace htarget.2⟩, mt hplace hsibling.1, mt hplace hsibling.2⟩

section Several

variable {rest : List NamedFile} {middle : FileTree} {count : Nat}

theorem AreReplaced.refl (here : Place) (files : List NamedFile) (tree : FileTree) :
    AreReplaced here files 0 tree tree where
  rest := rfl
  ways _ := .refl tree
  done _ h := by simp at h
  left _ _ := ⟨rfl, .inl rfl⟩
  others _ _ := rfl

theorem IsLeft.areReplaced (h : IsLeft here file before after)
    (hnames : ∀ other ∈ rest, ∀ name ∈ file.names, name ∉ other.names) :
    AreReplaced here (file :: rest) 0 before after where
  rest := h.rest
  ways _ := h.ways
  done _ hmem := by simp at hmem
  left other hmem := by
    rcases List.mem_cons.mp hmem with rfl | hmem
    · exact ⟨h.others _ (target_ne_sibling here other), h.sibling⟩
    · obtain ⟨-, htarget, hsibling⟩ := places_ne here (hnames other hmem)
      exact ⟨h.others _ htarget.symm, .inl (h.others _ hsibling.symm)⟩
  others q hq := h.others q (hq file List.mem_cons_self).2

theorem IsReplaced.areReplaced (h : IsReplaced here file before middle)
    (hrest : AreReplaced here rest count middle after)
    (hnames : ∀ other ∈ rest, ∀ name ∈ file.names, name ∉ other.names) :
    AreReplaced here (file :: rest) (count + 1) before after where
  rest := by rw [hrest.rest, h.rest]
  ways hlink := by
    refine (h.ways (hlink file List.mem_cons_self)).trans (hrest.ways fun other hother => ?_)
    obtain ⟨htarget, hsibling⟩ := places_ne here (hnames other hother)
    rw [h.others _ htarget.1.symm hsibling.1.symm]
    exact hlink other (List.mem_cons_of_mem _ hother)
  done other hmem := by
    rw [List.take_succ_cons] at hmem
    rcases List.mem_cons.mp hmem with rfl | hmem
    · -- the files behind have other places
      have hplaces := fun other hother => places_ne here (hnames other hother)
      rw [hrest.others _ fun other hother => (hplaces other hother).1,
        hrest.others _ fun other hother => (hplaces other hother).2]
      exact ⟨h.target, h.sibling⟩
    · exact hrest.done other hmem
  left other hmem := by
    rw [List.drop_succ_cons] at hmem
    obtain ⟨htarget, hsibling⟩ :=
      places_ne here (hnames other (List.mem_of_mem_drop hmem))
    have hleft := hrest.left other hmem
    unfold MayHold at hleft ⊢
    rwa [h.others _ htarget.1.symm hsibling.1.symm, h.others _ htarget.2.symm hsibling.2.symm]
      at hleft
  others q hq := by
    obtain ⟨htarget, hsibling⟩ := hq file List.mem_cons_self
    rw [hrest.others q fun other hother => hq other (List.mem_cons_of_mem _ hother),
      h.others q htarget hsibling]

/-- No link comes to the first name of a file when a file with other names is replaced. -/
theorem IsUnlinked.of_replaced {other : NamedFile} (h : IsReplaced here file before middle)
    (hnames : ∀ name ∈ file.names, name ∉ other.names)
    (hplain : IsUnlinked before (other.sibling here)) :
    IsUnlinked middle (other.sibling here) := by
  obtain ⟨htarget, hsibling⟩ := places_ne here hnames
  have hsame := h.others _ htarget.2.symm hsibling.2.symm
  exact ⟨fun target => hsame ▸ hplain.link target, fun number => hsame ▸ hplain.shared number⟩

end Several

/-- **The files are replaced up to the first one that cannot be replaced.** The induction follows
the list; a file that is replaced leaves the places of those behind it as they were, and if the path
of the directory leads to a directory after that, it is still the same. -/
theorem replaceAll_spec {files : List NamedFile} {result : Except Failure Unit}
    (hnames : files.Pairwise fun file other => ∀ name ∈ file.names, name ∉ other.names)
    (hfiles : ∀ file ∈ files, Path.IsName file.1.toList) (honly : before.LeadsOnlyTo dir here)
    (hplain : ∀ file ∈ files, IsUnlinked before (file.sibling here))
    (h : replaceAll (files.map fun file => (dir.join file.1, file.2)) before = (after, result)) :
    (result = .ok () ∧ AreReplaced here files files.length before after) ∨
      ∃ failure count, result = .error failure ∧ count < files.length ∧
        AreReplaced here files count before after := by
  induction files generalizing before with
  | nil =>
    obtain ⟨rfl, rfl⟩ := Prod.mk.inj h
    exact .inl ⟨rfl, .refl here [] before⟩
  | cons file rest ih =>
    obtain ⟨hfirst, hrest⟩ := List.pairwise_cons.mp hnames
    obtain ⟨hfile, hothers⟩ := List.forall_mem_cons.mp hfiles
    obtain ⟨hsibling, hsiblings⟩ := List.forall_mem_cons.mp hplain
    have hstep := replace_spec hfile honly hsibling
    rw [List.map_cons, replaceAll] at h
    generalize replace (dir.join file.1) file.2 before = step at h hstep
    obtain ⟨middle, outcome⟩ := step
    obtain ⟨rfl, hdone⟩ | ⟨⟨failure, rfl⟩, hleft⟩ := hstep
    · have hrun := ih hrest hothers (honly.of_narrows hdone.narrows)
        (fun other hother => (hsiblings other hother).of_replaced hdone (hfirst other hother)) h
      obtain ⟨rfl, hreplaced⟩ | ⟨failure, count, rfl, hcount, hreplaced⟩ := hrun
      · exact .inl ⟨rfl, hdone.areReplaced hreplaced hfirst⟩
      · exact .inr ⟨failure, count + 1, rfl, Nat.succ_lt_succ hcount,
          hdone.areReplaced hreplaced hfirst⟩
    · obtain ⟨rfl, rfl⟩ := Prod.mk.inj h
      exact .inr ⟨failure, 0, rfl, Nat.succ_pos _, hleft.areReplaced hfirst⟩

/-! ## Names that are no text -/

theorem foreign_replace (path : Path) (value : Except FileError Json) (tree : FileTree) :
    (replace path value tree).1.foreign = tree.foreign := by
  unfold replace
  cases value with
  | error cause => rfl
  | ok value =>
    have hwritten := tree.foreign_write (temporary path) (Text.Utf8.encode value.pretty.toList)
    dsimp only
    generalize tree.write (temporary path) (Text.Utf8.encode value.pretty.toList) = step at hwritten
    obtain ⟨written, cause | ⟨⟩⟩ := step
    · exact hwritten
    · dsimp only
      rcases hrename : written.rename (temporary path) path with cause | moved
      · exact hwritten
      · exact (FileTree.foreign_rename hrename).trans hwritten

theorem foreign_replaceAll (files : List (Path × Except FileError Json)) (tree : FileTree) :
    (replaceAll files tree).1.foreign = tree.foreign := by
  induction files generalizing tree with
  | nil => rfl
  | cons file rest ih =>
    obtain ⟨path, value⟩ := file
    have hfirst := foreign_replace path value tree
    rw [replaceAll]
    generalize replace path value tree = step at hfirst
    obtain ⟨middle, failure | ⟨⟩⟩ := step
    · exact hfirst
    · exact (ih middle).trans hfirst

theorem foreign_write (dir : Path) (graph : CallGraph) (parents : List String) (tree : FileTree) :
    (write dir graph parents tree).1.foreign = tree.foreign := by
  have hmade := tree.foreign_makeDirectories dir
  unfold write
  generalize tree.makeDirectories dir = step at hmade
  obtain ⟨made, cause | ⟨⟩⟩ := step
  · exact hmade
  · exact (foreign_replaceAll _ made).trans hmade

end ChangeScope.Snapshot
