import ChangeScope.Proofs.FileTree.Ways
import ChangeScope.Source

/-!
# Files with other bytes

Other bytes in a file move nothing: every path leads where it led before (`sameWays_put`), files and
directories stay what they are, and a path that leads to another file reads what it read before
(`readText_put`). Two names of one file lead to the same file.
-/

set_option autoImplicit false

namespace ChangeScope

namespace FileTree

variable {tree : FileTree} {place : Place} {old : Bytes} (new : Bytes)

/-! ## Entries -/

theorem lookup_others {α β : Type} [BEq α] [LawfulBEq α] {entries : List (α × β)} {x y : α}
    (hx : x ≠ y) : (entries.filter fun e => e.1 != y).lookup x = entries.lookup x := by
  induction entries with
  | nil => rfl
  | cons e rest ih =>
      by_cases he : e.1 = y
      · have hne : (x == e.1) = false := by simpa [he] using hx
        rw [List.filter_cons_of_neg (by simpa using he), ih, List.lookup_cons, hne]
      · rw [List.filter_cons_of_pos (by simpa using he), List.lookup_cons, List.lookup_cons, ih]

theorem not_isPrefixOf_working (h : tree.entryAt? place ≠ some .directory) :
    place.isPrefixOf tree.working = false := by
  by_contra hinside
  exact h (by rw [entryAt?, if_pos (by simpa using hinside)])

/-- An entry that is set is the only one that changes, where no directory stood. -/
theorem entryAt?_set (h : tree.entryAt? place ≠ some .directory) (entry : Entry) (q : Place) :
    (tree.set place entry).entryAt? q = if q = place then some entry else tree.entryAt? q := by
  have hworking := not_isPrefixOf_working h
  unfold entryAt?
  by_cases hq : q = place
  · subst hq
    rw [if_pos rfl, show (tree.set q entry).working = tree.working from rfl, hworking]
    simp [set]
  · rw [if_neg hq, show (tree.set place entry).working = tree.working from rfl]
    split
    · rfl
    · show ((place, entry) :: tree.entries.filter fun e => e.1 != place).lookup q = _
      rw [List.lookup_cons, show (q == place) = false from by simpa using hq]
      exact lookup_others hq

/-- A file that has one name, or none yet, is written at its place. -/
theorem put_of_plain (h : ∀ number, tree.entryAt? place ≠ some (.shared number)) :
    tree.put place new = tree.set place (.file new) := by
  unfold put
  split
  · next number hentry => exact absurd hentry (h number)
  · rfl

/-- A file that has several names has no entry that changes. -/
theorem put_of_shared {number : Nat} (h : tree.entryAt? place = some (.shared number)) :
    tree.put place new =
      { tree with
        contents := (number, new) :: tree.contents.filter fun file => file.1 != number } := by
  unfold put
  rw [h]

theorem not_directory_of_foundAt? (h : tree.foundAt? place = some (.file old)) :
    tree.entryAt? place ≠ some .directory := by
  intro hdir
  rw [foundAt?, hdir] at h
  cases h

/-- **Other bytes in a file move nothing.** -/
theorem sameWays_put (h : tree.foundAt? place = some (.file old)) :
    SameWays tree (tree.put place new) := by
  by_cases hshared : ∃ number, tree.entryAt? place = some (.shared number)
  · obtain ⟨number, hshared⟩ := hshared
    rw [put_of_shared new hshared]
    exact ⟨rfl, fun _ => rfl⟩
  · rw [put_of_plain new fun number hentry => hshared ⟨number, hentry⟩]
    obtain ⟨entry, hentry, hfound⟩ := Option.bind_eq_some_iff.mp h
    refine ⟨rfl, fun q => ?_⟩
    rw [entryAt?_set (not_directory_of_foundAt? h)]
    by_cases hq : q = place
    · rw [if_pos hq, hq, hentry]
      cases entry with
      | file content => rfl
      | shared number => exact absurd ⟨number, hentry⟩ hshared
      | directory => cases hfound
      | link target => cases hfound
    · rw [if_neg hq]

/-! ## Files -/

/-- Both places are names of one file. -/
def IsSameFile (tree : FileTree) (place q : Place) : Prop :=
  q = place ∨
    ∃ number, tree.entryAt? place = some (.shared number) ∧ tree.entryAt? q = some (.shared number)

/-- The path leads to the file at a place, under whichever of its names. -/
def LeadsToFile (tree : FileTree) (place : Place) (p : Path) : Prop :=
  ∃ here, tree.place p = .ok here ∧ tree.IsSameFile place here

theorem foundAt?_put_of_same (h : tree.foundAt? place = some (.file old)) {q : Place}
    (hq : tree.IsSameFile place q) :
    tree.foundAt? q = some (.file old) ∧ (tree.put place new).foundAt? q = some (.file new) := by
  by_cases hshared : ∃ number, tree.entryAt? place = some (.shared number)
  · obtain ⟨number, hplace⟩ := hshared
    have hentry : tree.entryAt? q = some (.shared number) := by
      rcases hq with rfl | ⟨number', hplace', hentry⟩
      · exact hplace
      · rw [hplace] at hplace'
        rwa [Entry.shared.inj (Option.some.inj hplace')]
    have hread : ∀ contents, Entry.found? contents (.shared number) =
        some (.file ((contents.lookup number).getD [])) := fun _ => rfl
    rw [foundAt?, hplace, Option.bind_some] at h
    refine ⟨by rw [foundAt?, hentry, Option.bind_some, h], ?_⟩
    rw [put_of_shared new hplace]
    show (tree.entryAt? q).bind _ = _
    rw [hentry, Option.bind_some, hread, List.lookup_cons, beq_self_eq_true]
    rfl
  · obtain rfl : q = place :=
      hq.resolve_right fun ⟨number, hplace, _⟩ => hshared ⟨number, hplace⟩
    refine ⟨h, ?_⟩
    rw [put_of_plain new fun number hentry => hshared ⟨number, hentry⟩, foundAt?,
      entryAt?_set (not_directory_of_foundAt? h), if_pos rfl]
    rfl

theorem foundAt?_put_of_other (h : tree.foundAt? place = some (.file old)) {q : Place}
    (hq : ¬ tree.IsSameFile place q) : (tree.put place new).foundAt? q = tree.foundAt? q := by
  by_cases hshared : ∃ number, tree.entryAt? place = some (.shared number)
  · obtain ⟨number, hplace⟩ := hshared
    rw [put_of_shared new hplace]
    show (tree.entryAt? q).bind _ = (tree.entryAt? q).bind _
    rcases hentry : tree.entryAt? q with _ | entry
    · rfl
    · rw [Option.bind_some, Option.bind_some]
      cases entry with
      | shared other =>
        have hne : other ≠ number := by
          rintro rfl
          exact hq (.inr ⟨other, hplace, hentry⟩)
        rw [Entry.found?, Entry.found?, List.lookup_cons,
          show (other == number) = false by simpa using hne]
        simp only [lookup_others hne]
      | file content => rfl
      | directory => rfl
      | link target => rfl
  · rw [put_of_plain new fun number hentry => hshared ⟨number, hentry⟩, foundAt?,
      entryAt?_set (not_directory_of_foundAt? h), if_neg fun heq => hq (.inl heq), foundAt?]
    rfl

/-! ## Paths -/

/-- What a path finds is what stands where it leads. -/
theorem find_of_place {p : Path} {here : Place} (hp : tree.place p = .ok here) :
    tree.find p =
      match tree.foundAt? here with
      | some .directory => .ok (here, .directory)
      | some (.file content) =>
          if p.text.toList.getLast? = some '/' then .error .notDirectory
          else .ok (here, .file content)
      | none => .error .notFound := by
  unfold find
  rw [hp]
  rfl

/-- A path that leads to another file finds what it found before. -/
theorem find_put_of_other (h : tree.foundAt? place = some (.file old)) {p : Path}
    (hp : ¬ tree.LeadsToFile place p) : (tree.put place new).find p = tree.find p := by
  have hplace := (sameWays_put new h).place_eq p
  cases hhere : tree.place p with
  | error cause =>
      unfold find
      rw [hplace, hhere]
      rfl
  | ok here =>
      rw [find_of_place hhere, find_of_place (hplace.trans hhere),
        foundAt?_put_of_other new h fun hsame => hp ⟨here, hhere, hsame⟩]

/-- A path that leads to the file finds the other bytes there, if it found the file before. -/
theorem find_put_of_same (h : tree.foundAt? place = some (.file old)) {p : Path}
    (hp : tree.LeadsToFile place p) :
    (∃ here, tree.find p = .ok (here, .file old) ∧
        (tree.put place new).find p = .ok (here, .file new)) ∨
      (tree.find p = .error .notDirectory ∧
        (tree.put place new).find p = .error .notDirectory) := by
  obtain ⟨here, hhere, hsame⟩ := hp
  obtain ⟨hold, hnew⟩ := foundAt?_put_of_same new h hsame
  rw [find_of_place hhere, find_of_place (((sameWays_put new h).place_eq p).trans hhere), hold,
    hnew]
  dsimp only
  split
  · exact .inr ⟨rfl, rfl⟩
  · exact .inl ⟨here, rfl, rfl⟩

theorem isFile_put (h : tree.foundAt? place = some (.file old)) (p : Path) :
    (tree.put place new).isFile p = tree.isFile p := by
  unfold isFile
  by_cases hp : tree.LeadsToFile place p
  · rcases find_put_of_same new h hp with ⟨here, hfind, hput⟩ | ⟨hfind, hput⟩ <;> rw [hfind, hput]
  · rw [find_put_of_other new h hp]

theorem isDirectory_put (h : tree.foundAt? place = some (.file old)) (p : Path) :
    (tree.put place new).isDirectory p = tree.isDirectory p := by
  unfold isDirectory
  by_cases hp : tree.LeadsToFile place p
  · rcases find_put_of_same new h hp with ⟨here, hfind, hput⟩ | ⟨hfind, hput⟩ <;> rw [hfind, hput]
  · rw [find_put_of_other new h hp]

theorem canonical_put (h : tree.foundAt? place = some (.file old)) (p : Path) :
    (tree.put place new).canonical p = tree.canonical p := by
  unfold canonical
  by_cases hp : tree.LeadsToFile place p
  · rcases find_put_of_same new h hp with ⟨here, hfind, hput⟩ | ⟨hfind, hput⟩
    · rw [hfind, hput]
      rfl
    · rw [hfind, hput]
  · rw [find_put_of_other new h hp]

theorem readText_put (h : tree.foundAt? place = some (.file old)) {p : Path}
    (hp : ¬ tree.LeadsToFile place p) : (tree.put place new).readText p = tree.readText p := by
  unfold readText read
  rw [find_put_of_other new h hp]

end FileTree

theorem SourceFile.load_put (parser : Syntax.Parser) {tree : FileTree} {place : Place}
    {old : Bytes} (new : Bytes) (h : tree.foundAt? place = some (.file old))
    (settings : Settings.Analysis) {p : Path} (hp : ¬ tree.LeadsToFile place p) :
    load (tree.put place new) settings p parser = load tree settings p parser := by
  unfold load
  rw [FileTree.find_put_of_other new h hp, FileTree.readText_put new h hp]

end ChangeScope
