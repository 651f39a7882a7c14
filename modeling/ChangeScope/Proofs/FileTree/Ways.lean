import ChangeScope.FileTree
import ChangeScope.Proofs.Result
import Mathlib.Tactic

/-!
# Ways through a tree

A way is walked part by part (`walk_append`), and only directories and links have a say in where it
leads: two trees that agree on these have the same ways (`SameWays.walk_eq`). Where a tree has more
directories, a way that was open stays open (`KeepsWays.walk`); where it has fewer directories and
links, a way that still leads to a directory leads to the one it led to (`Narrows.walk`).
-/

set_option autoImplicit false

namespace ChangeScope

/-- What is left of an entry when its bytes do not count. -/
def Entry.shape : Entry → Entry
  | .file _ => .file []
  | entry => entry

namespace FileTree

open ChangeScope.Path (Component)

variable {tree made other : FileTree} {follow : Bool} {links left : Nat} {here around place : Place}
  {components front back rest : List Component} {p : Path}

/-! ## Steps -/

theorem enter_ok_iff : tree.enter here = .ok () ↔ tree.entryAt? here = some .directory := by
  unfold enter
  split
  · next h => simp [h]
  · next entry hne h => simpa [h] using hne
  · next h => simp [h]

theorem entryAt?_working (tree : FileTree) : tree.entryAt? tree.working = some .directory := by
  rw [entryAt?, if_pos (by simp)]

theorem walk_eq (links : Nat) (here : Place) (components : List Component) :
    tree.walk follow links here components =
      match tree.stage follow here components with
      | .error cause => .error cause
      | .ok (.arrived place) => .ok (place, links)
      | .ok (.link around target rest) =>
          match links with
          | 0 => .error .tooManyLinks
          | links + 1 => tree.walk follow links around (linkWay target ++ rest) := by
  cases links <;> rfl

theorem stage_of_link {c : Component} {target : Path}
    (h : tree.entryAt? (next here c) = some (.link target)) :
    tree.stage follow here (c :: rest) =
      (tree.enter here).map fun () =>
        if follow || !rest.isEmpty then .link here target rest else .arrived (next here c) := by
  rw [stage]
  cases tree.enter here with
  | error cause => rfl
  | ok _ =>
    simp only [h, Except.map]
    split <;> rfl

theorem stage_of_plain {c : Component}
    (h : ∀ target, tree.entryAt? (next here c) ≠ some (.link target)) :
    tree.stage follow here (c :: rest) =
      (tree.enter here).bind fun () => tree.stage follow (next here c) rest := by
  rw [stage]
  cases tree.enter here with
  | error cause => rfl
  | ok _ =>
    dsimp only [Except.bind]
    split
    · next target hlink => exact absurd hlink (h target)
    · rfl

/-- A way goes on from a directory. -/
theorem directory_of_walk {c : Component} {found : Place × Nat}
    (h : tree.walk follow links here (c :: rest) = .ok found) :
    tree.entryAt? here = some .directory := by
  rw [walk_eq, stage] at h
  cases henter : tree.enter here with
  | error cause =>
    rw [henter] at h
    cases h
  | ok _ => exact enter_ok_iff.mp henter

/-- A way is open where each of its stages is. -/
theorem walk_of_stages {found : Place × Nat}
    (h : ∀ {here components stop}, tree.stage follow here components = .ok stop →
      (∀ there, stop = .arrived there → there = found.1) →
      other.stage follow here components = .ok stop)
    (hwalk : tree.walk follow links here components = .ok found) :
    other.walk follow links here components = .ok found := by
  induction links generalizing here components with
  | zero =>
    rw [walk_eq] at hwalk ⊢
    rcases hstage : tree.stage follow here components with
      cause | there | ⟨around, target, rest⟩ <;> rw [hstage] at hwalk
    · cases hwalk
    · obtain rfl := Except.ok.inj hwalk
      rw [h hstage (by rintro _ ⟨⟩; rfl)]
    · cases hwalk
  | succ links ih =>
    rw [walk_eq] at hwalk ⊢
    rcases hstage : tree.stage follow here components with
      cause | there | ⟨around, target, rest⟩ <;> rw [hstage] at hwalk
    · cases hwalk
    · obtain rfl := Except.ok.inj hwalk
      rw [h hstage (by rintro _ ⟨⟩; rfl)]
    · rw [h hstage (by rintro _ ⟨⟩)]
      exact ih hwalk

/-- A `.` leads nowhere else. -/
theorem walk_current (h : tree.entryAt? here = some .directory) (rest : List Component) :
    tree.walk follow links here (.current :: rest) = tree.walk follow links here rest := by
  have hstage : tree.stage follow here (.current :: rest) = tree.stage follow here rest := by
    rw [stage_of_plain (by simp [next, h]), enter_ok_iff.mpr h]
    rfl
  rw [walk_eq, walk_eq, hstage]

/-! ## Parts of a way -/

theorem stage_append (hback : back ≠ []) (here : Place) (front : List Component) :
    tree.stage follow here (front ++ back) =
      match tree.stage true here front with
      | .error cause => .error cause
      | .ok (.arrived there) => tree.stage follow there back
      | .ok (.link around target rest) => .ok (.link around target (rest ++ back)) := by
  induction front generalizing here with
  | nil => rfl
  | cons c front ih =>
    rw [List.cons_append, stage, stage]
    cases tree.enter here with
    | error cause => rfl
    | ok _ =>
      dsimp only
      split
      · simp [hback]
      · exact ih _

/-- **A way is walked part by part.** A link at the end of the first part is followed, as a part
comes behind it. -/
theorem walk_append (hback : back ≠ []) (links : Nat) (here : Place) (front : List Component) :
    tree.walk follow links here (front ++ back) =
      (tree.walk true links here front).bind fun there =>
        tree.walk follow there.2 there.1 back := by
  induction links generalizing here front with
  | zero =>
    rw [walk_eq, @walk_eq tree true, stage_append hback]
    rcases tree.stage true here front with cause | there | ⟨around, target, rest⟩
    · rfl
    · exact (walk_eq 0 there back).symm
    · rfl
  | succ links ih =>
    rw [walk_eq, @walk_eq tree true, stage_append hback]
    rcases tree.stage true here front with cause | there | ⟨around, target, rest⟩
    · rfl
    · exact (walk_eq (links + 1) there back).symm
    · simpa using ih around (linkWay target ++ rest)

theorem lead_ok_iff : tree.lead components = .ok place ↔
    ∃ left, tree.walk true maxLinks tree.working components = .ok (place, left) := by
  unfold lead
  cases tree.walk true maxLinks tree.working components with
  | error cause => simp [Except.map]
  | ok found => simp [Except.map, Prod.ext_iff]

/-- A name is reached in a directory, if no link that is followed has it. -/
theorem walk_name {name : List Char}
    (h : follow = true → ∀ target, tree.entryAt? (here ++ [name]) ≠ some (.link target)) :
    tree.walk follow links here [.name name] =
      (tree.enter here).map fun () => (here ++ [name], links) := by
  have hstage : tree.stage follow here [.name name] =
      (tree.enter here).map fun () => .arrived (here ++ [name]) := by
    by_cases hlink : ∃ target, tree.entryAt? (here ++ [name]) = some (.link target)
    · obtain ⟨target, hlink⟩ := hlink
      obtain rfl : follow = false := by
        simpa using fun hfollow => h hfollow target hlink
      exact stage_of_link hlink
    · rw [stage_of_plain fun target htarget => hlink ⟨target, htarget⟩]
      rfl
  rw [walk_eq, hstage]
  cases tree.enter here <;> rfl

/-- The last name of a way stands in the directory that the way before it leads to. -/
theorem locate_concat_name (components : List Component) (name : List Char) :
    tree.locate (components ++ [.name name]) =
      (tree.lead components).bind fun around =>
        (tree.enter around).map fun () => around ++ [name] := by
  unfold locate lead
  rw [walk_append (by simp)]
  rcases tree.walk true maxLinks tree.working components with cause | ⟨around, left⟩
  · rfl
  · dsimp only [Except.bind, Except.map]
    rw [walk_name (by simp)]
    cases tree.enter around <;> rfl

/-- Where no link has the last name of a way, the way leads to the place that it names. -/
theorem lead_concat_name {name : List Char} (h : tree.lead components = .ok around)
    (hlink : ∀ target, tree.entryAt? (around ++ [name]) ≠ some (.link target)) :
    tree.lead (components ++ [.name name]) =
      (tree.enter around).map fun () => around ++ [name] := by
  obtain ⟨left, hwalk⟩ := lead_ok_iff.mp h
  unfold lead
  rw [walk_append (by simp), hwalk]
  dsimp only [Except.bind]
  rw [walk_name fun _ => hlink]
  cases tree.enter around <;> rfl

/-- A way on which every link is followed ends at none. -/
theorem not_link_of_stage (hhere : ∀ target, tree.entryAt? here ≠ some (.link target))
    (h : tree.stage true here components = .ok (.arrived place)) (target : Path) :
    tree.entryAt? place ≠ some (.link target) := by
  induction components generalizing here with
  | nil =>
    obtain rfl := Stage.arrived.inj (Except.ok.inj h)
    exact hhere target
  | cons c rest ih =>
    by_cases hlink : ∃ target, tree.entryAt? (next here c) = some (.link target)
    · obtain ⟨target', hlink⟩ := hlink
      rw [stage_of_link hlink] at h
      obtain ⟨⟨⟩, -, hstop⟩ := ok_of_map h
      cases hstop
    · have hplain := fun target htarget => hlink ⟨target, htarget⟩
      rw [stage_of_plain hplain] at h
      obtain ⟨⟨⟩, -, hrest⟩ := ok_of_bind h
      exact ih hplain hrest

theorem directory_of_stage_link {around : Place} {target : Path}
    (h : tree.stage follow here components = .ok (.link around target rest)) :
    tree.entryAt? around = some .directory := by
  induction components generalizing here with
  | nil => cases h
  | cons c back ih =>
    by_cases hlink : ∃ target, tree.entryAt? (next here c) = some (.link target)
    · obtain ⟨target', hlink⟩ := hlink
      rw [stage_of_link hlink] at h
      obtain ⟨⟨⟩, henter, hstop⟩ := ok_of_map h
      split at hstop
      · cases hstop
        exact enter_ok_iff.mp henter
      · cases hstop
    · rw [stage_of_plain fun target htarget => hlink ⟨target, htarget⟩] at h
      obtain ⟨⟨⟩, -, hrest⟩ := ok_of_bind h
      exact ih hrest

theorem not_link_of_walk (hhere : tree.entryAt? here = some .directory)
    (h : tree.walk true links here components = .ok (place, left)) (target : Path) :
    tree.entryAt? place ≠ some (.link target) := by
  induction links generalizing here components with
  | zero =>
    rw [walk_eq] at h
    rcases hstage : tree.stage true here components with cause | there | ⟨around, target', rest⟩ <;>
      rw [hstage] at h
    · cases h
    · obtain ⟨rfl, -⟩ := Prod.mk.inj (Except.ok.inj h)
      exact not_link_of_stage (by simp [hhere]) hstage target
    · cases h
  | succ links ih =>
    rw [walk_eq] at h
    rcases hstage : tree.stage true here components with cause | there | ⟨around, target', rest⟩ <;>
      rw [hstage] at h
    · cases h
    · obtain ⟨rfl, -⟩ := Prod.mk.inj (Except.ok.inj h)
      exact not_link_of_stage (by simp [hhere]) hstage target
    · exact ih (directory_of_stage_link hstage) h

/-- **A path leads to no link.** -/
theorem not_link_of_place (h : tree.place p = .ok place) (target : Path) :
    tree.entryAt? place ≠ some (.link target) := by
  obtain ⟨⟨⟩, -, hlead⟩ := ok_of_bind h
  obtain ⟨left, hwalk⟩ := lead_ok_iff.mp hlead
  exact not_link_of_walk tree.entryAt?_working hwalk target

/-- A `.` at the end of a way leads nowhere else. -/
theorem lead_of_concat_current (h : tree.lead (components ++ [.current]) = .ok place) :
    tree.lead components = .ok place := by
  obtain ⟨left, hwalk⟩ := lead_ok_iff.mp h
  rw [walk_append (by simp)] at hwalk
  obtain ⟨⟨around, left'⟩, haround, hdot⟩ := ok_of_bind hwalk
  rw [walk_current (directory_of_walk hdot), walk_eq] at hdot
  obtain ⟨rfl, rfl⟩ := Prod.mk.inj (Except.ok.inj hdot)
  exact lead_ok_iff.mpr ⟨left', haround⟩

/-! ## Trees with the same ways -/

/-- The trees are alike but for the bytes of files. -/
structure SameWays (tree other : FileTree) : Prop where
  working : other.working = tree.working
  entry : ∀ q, (other.entryAt? q).map Entry.shape = (tree.entryAt? q).map Entry.shape

/-- The shape of an entry says whether a way goes on. -/
theorem enter_eq (tree : FileTree) (here : Place) :
    tree.enter here =
      match (tree.entryAt? here).map Entry.shape with
      | some .directory => .ok ()
      | some _ => .error .notDirectory
      | none => .error .notFound := by
  unfold enter
  rcases tree.entryAt? here with _ | entry
  · rfl
  · cases entry <;> rfl

theorem SameWays.enter_eq (h : SameWays tree other) (here : Place) :
    other.enter here = tree.enter here := by
  rw [FileTree.enter_eq, FileTree.enter_eq, h.entry]

theorem SameWays.link_iff (h : SameWays tree other) (q : Place) (target : Path) :
    other.entryAt? q = some (.link target) ↔ tree.entryAt? q = some (.link target) := by
  have hshape : ∀ entry : Option Entry,
      entry = some (.link target) ↔ entry.map Entry.shape = some (.link target) := by
    rintro (_ | entry)
    · simp
    · cases entry <;> simp [Entry.shape]
  rw [hshape, hshape (tree.entryAt? q), h.entry]

theorem SameWays.stage_eq (h : SameWays tree other) (here : Place) (components : List Component) :
    other.stage follow here components = tree.stage follow here components := by
  induction components generalizing here with
  | nil => rfl
  | cons c rest ih =>
    by_cases hlink : ∃ target, tree.entryAt? (next here c) = some (.link target)
    · obtain ⟨target, hlink⟩ := hlink
      rw [stage_of_link hlink, stage_of_link ((h.link_iff _ _).mpr hlink),
        h.enter_eq]
    · have hplain := fun target htarget => hlink ⟨target, htarget⟩
      rw [stage_of_plain hplain,
        stage_of_plain fun target => mt (h.link_iff _ _).mp (hplain target), h.enter_eq]
      simp only [ih]

/-- **Other bytes move nothing.** -/
theorem SameWays.walk_eq (h : SameWays tree other) (links : Nat) (here : Place)
    (components : List Component) :
    other.walk follow links here components = tree.walk follow links here components := by
  induction links generalizing here components with
  | zero =>
    rw [FileTree.walk_eq, FileTree.walk_eq, h.stage_eq]
  | succ links ih =>
    rw [FileTree.walk_eq, FileTree.walk_eq, h.stage_eq]
    simp only [ih]

theorem SameWays.place_eq (h : SameWays tree other) (p : Path) : other.place p = tree.place p := by
  unfold place lead
  rw [h.working, h.walk_eq]

/-! ## More directories -/

/-- What was a directory is still one, and there are the same links. -/
structure KeepsWays (tree other : FileTree) : Prop where
  working : other.working = tree.working
  directory : ∀ q, tree.entryAt? q = some .directory → other.entryAt? q = some .directory
  link : ∀ q target, other.entryAt? q = some (.link target) ↔ tree.entryAt? q = some (.link target)

theorem KeepsWays.refl (tree : FileTree) : KeepsWays tree tree :=
  ⟨rfl, fun _ h => h, fun _ _ => .rfl⟩

theorem KeepsWays.trans (h : KeepsWays tree made) (h' : KeepsWays made other) :
    KeepsWays tree other :=
  ⟨h'.working.trans h.working, fun q hq => h'.directory q (h.directory q hq),
    fun q target => (h'.link q target).trans (h.link q target)⟩

theorem KeepsWays.stage (h : KeepsWays tree other) {stop : Stage}
    (hstage : tree.stage follow here components = .ok stop) :
    other.stage follow here components = .ok stop := by
  induction components generalizing here with
  | nil => exact hstage
  | cons c rest ih =>
    by_cases hlink : ∃ target, tree.entryAt? (next here c) = some (.link target)
    · obtain ⟨target, hlink⟩ := hlink
      rw [stage_of_link hlink] at hstage
      obtain ⟨⟨⟩, henter, hstop⟩ := ok_of_map hstage
      rw [stage_of_link ((h.link _ _).mpr hlink),
        enter_ok_iff.mpr (h.directory _ (enter_ok_iff.mp henter)), ← hstop]
      rfl
    · have hplain := fun target htarget => hlink ⟨target, htarget⟩
      rw [stage_of_plain hplain] at hstage
      obtain ⟨⟨⟩, henter, hrest⟩ := ok_of_bind hstage
      rw [stage_of_plain fun target => mt (h.link _ _).mp (hplain target),
        enter_ok_iff.mpr (h.directory _ (enter_ok_iff.mp henter))]
      exact ih hrest

/-- **A way that is open stays open.** -/
theorem KeepsWays.walk (h : KeepsWays tree other) {found : Place × Nat}
    (hwalk : tree.walk follow links here components = .ok found) :
    other.walk follow links here components = .ok found :=
  walk_of_stages (fun hstage _ => h.stage hstage) hwalk

theorem KeepsWays.lead (h : KeepsWays tree other) (hlead : tree.lead components = .ok place) :
    other.lead components = .ok place := by
  obtain ⟨left, hwalk⟩ := lead_ok_iff.mp hlead
  exact lead_ok_iff.mpr ⟨left, by rw [h.working, h.walk hwalk]⟩

theorem KeepsWays.place_eq (h : KeepsWays tree other) (hplace : tree.place p = .ok place) :
    other.place p = .ok place := by
  obtain ⟨⟨⟩, hcheck, hlead⟩ := ok_of_bind hplace
  rw [FileTree.place, hcheck]
  exact h.lead hlead

/-! ## Fewer directories and links -/

/-- There are no directories and no links but those that were there. -/
structure Narrows (tree other : FileTree) : Prop where
  working : other.working = tree.working
  directory : ∀ q, other.entryAt? q = some .directory → tree.entryAt? q = some .directory
  link : ∀ q target, other.entryAt? q = some (.link target) → tree.entryAt? q = some (.link target)

theorem Narrows.trans (h : Narrows tree made) (h' : Narrows made other) : Narrows tree other :=
  ⟨h'.working.trans h.working, fun q hq => h.directory q (h'.directory q hq),
    fun q target hq => h.link q target (h'.link q target hq)⟩

/-- Up to the next link the way is the old one, or it ends at what is no directory any more. -/
theorem Narrows.stage (h : Narrows tree other) {stop : Stage}
    (hstage : other.stage follow here components = .ok stop) :
    tree.stage follow here components = .ok stop ∨
      ∃ there, stop = .arrived there ∧ other.entryAt? there ≠ some .directory := by
  induction components generalizing here with
  | nil => exact .inl hstage
  | cons c rest ih =>
    by_cases hlink : ∃ target, other.entryAt? (next here c) = some (.link target)
    · obtain ⟨target, hlink⟩ := hlink
      rw [stage_of_link hlink] at hstage
      obtain ⟨⟨⟩, henter, hstop⟩ := ok_of_map hstage
      rw [stage_of_link (h.link _ _ hlink),
        enter_ok_iff.mpr (h.directory _ (enter_ok_iff.mp henter)), ← hstop]
      exact .inl rfl
    · have hplain := fun target htarget => hlink ⟨target, htarget⟩
      rw [stage_of_plain hplain] at hstage
      obtain ⟨⟨⟩, henter, hrest⟩ := ok_of_bind hstage
      have henter' := enter_ok_iff.mpr (h.directory _ (enter_ok_iff.mp henter))
      by_cases hgone : ∃ target, tree.entryAt? (next here c) = some (.link target)
      · -- a link is gone, and there is no directory where it stood
        obtain ⟨target, hgone⟩ := hgone
        have hnone : other.entryAt? (next here c) ≠ some .directory := by
          intro hdir
          simp [h.directory _ hdir] at hgone
        cases rest with
        | nil => exact .inr ⟨_, (Except.ok.inj hrest).symm, hnone⟩
        | cons c' rest =>
          rw [FileTree.stage] at hrest
          split at hrest
          · cases hrest
          · next hok => exact absurd (enter_ok_iff.mp hok) hnone
      · rw [stage_of_plain fun target htarget => hgone ⟨target, htarget⟩, henter']
        exact ih hrest

/-- **A way that leads to a directory leads to the one it led to.** -/
theorem Narrows.walk (h : Narrows tree other) {found : Place × Nat}
    (hwalk : other.walk follow links here components = .ok found)
    (hdir : other.entryAt? found.1 = some .directory) :
    tree.walk follow links here components = .ok found := by
  refine walk_of_stages (fun hstage hlast => ?_) hwalk
  obtain hsame | ⟨there, hstop, hnone⟩ := h.stage hstage
  · exact hsame
  · rw [hlast there hstop] at hnone
    exact absurd hdir hnone

theorem Narrows.lead (h : Narrows tree other) (hlead : other.lead components = .ok place)
    (hdir : other.entryAt? place = some .directory) : tree.lead components = .ok place := by
  obtain ⟨left, hwalk⟩ := lead_ok_iff.mp hlead
  rw [h.working] at hwalk
  exact lead_ok_iff.mpr ⟨left, h.walk hwalk hdir⟩

end FileTree

end ChangeScope
