import ChangeScope.Proofs.FileTree
import ChangeScope.Proofs.Path.Building
import ChangeScope.Proofs.Text.Utf8

/-!
# Directories made and files written

Making a directory adds directories where nothing stood (`addsDirectories_makeDirectories`), and
where it succeeds the path leads to a directory (`leadsTo_makeDirectories`). A file that is written
is the one that its path leads to, and holds what was written, all of it unless the writing broke
off (`write_ok`, `write_error`); a file that is moved has another name (`rename_ok`).
-/

set_option autoImplicit false

namespace ChangeScope

namespace FileTree

open ChangeScope.Path (Component)

variable {tree made other : FileTree} {here place around : Place} {components : List Component}
  {p dir : Path} {name : List Char}

/-! ## Entries -/

theorem entryAt?_erase (h : tree.entryAt? place ≠ some .directory) (q : Place) :
    (tree.erase place).entryAt? q = if q = place then none else tree.entryAt? q := by
  have hworking := not_isPrefixOf_working h
  unfold entryAt?
  by_cases hq : q = place
  · subst hq
    rw [if_pos rfl, show (tree.erase q).working = tree.working from rfl, hworking]
    have hnone : ∀ e ∈ tree.entries.filter fun e => e.1 != q, (q != e.1) = true := by
      intro e he
      have hne : e.1 ≠ q := by simpa using (List.mem_filter.mp he).2
      simpa using hne.symm
    simpa [erase] using List.lookup_eq_none_iff.mpr hnone
  · rw [if_neg hq, show (tree.erase place).working = tree.working from rfl]
    split
    · rfl
    · exact lookup_others hq

/-- Where no directory and no link stands, an entry that is no link can be set. -/
theorem keepsWays_set (h : tree.entryAt? place ≠ some .directory)
    (hlink : ∀ target, tree.entryAt? place ≠ some (.link target)) {entry : Entry}
    (hentry : ∀ target, entry ≠ .link target) : KeepsWays tree (tree.set place entry) := by
  refine ⟨rfl, fun q hq => ?_, fun q target => ?_⟩
  · rw [entryAt?_set h, if_neg (by rintro rfl; exact h hq), hq]
  · rw [entryAt?_set h]
    by_cases hq : q = place
    · rw [if_pos hq, hq]
      exact ⟨fun heq => absurd (Option.some.inj heq) (hentry target),
        fun heq => absurd heq (hlink target)⟩
    · rw [if_neg hq]

/-- Where no directory and no link stands, an entry can be taken away. -/
theorem keepsWays_erase (h : tree.entryAt? place ≠ some .directory)
    (hlink : ∀ target, tree.entryAt? place ≠ some (.link target)) :
    KeepsWays tree (tree.erase place) := by
  refine ⟨rfl, fun q hq => ?_, fun q target => ?_⟩
  · rw [entryAt?_erase h, if_neg (by rintro rfl; exact h hq), hq]
  · rw [entryAt?_erase h]
    by_cases hq : q = place
    · rw [if_pos hq, hq]
      exact ⟨fun heq => absurd heq (by simp), fun heq => absurd heq (hlink target)⟩
    · rw [if_neg hq]

/-- A file adds no directory and no link. -/
theorem narrows_set (h : tree.entryAt? place ≠ some .directory) (content : Bytes) :
    Narrows tree (tree.set place (.file content)) := by
  refine ⟨rfl, fun q hq => ?_, fun q target hq => ?_⟩ <;> rw [entryAt?_set h] at hq <;>
    split at hq
  · cases hq
  · exact hq
  · cases hq
  · exact hq

theorem narrows_erase (h : tree.entryAt? place ≠ some .directory) :
    Narrows tree (tree.erase place) := by
  refine ⟨rfl, fun q hq => ?_, fun q target hq => ?_⟩ <;> rw [entryAt?_erase h] at hq <;>
    split at hq
  · cases hq
  · exact hq
  · cases hq
  · exact hq

/-! ## Made directories -/

/-- A directory was made where nothing stood, at the place that a first part of the way leads to. -/
structure IsMade (way : List Component) (tree made : FileTree) (q : Place) : Prop where
  free : tree.entryAt? q = none
  directory : made.entryAt? q = some .directory
  named : ∃ front n, front ++ [.name n] <+: way ∧ made.lead (front ++ [.name n]) = .ok q ∧
    q.getLast? = some n

/-- The tree with more directories on a way. -/
structure AddsDirectories (way : List Component) (tree made : FileTree) : Prop where
  rest : made = { tree with entries := made.entries }
  entry : ∀ q, made.entryAt? q = tree.entryAt? q ∨ IsMade way tree made q

variable {way : List Component}

theorem AddsDirectories.working (h : AddsDirectories way tree made) :
    made.working = tree.working := by
  rw [h.rest]

theorem AddsDirectories.refl (way : List Component) (tree : FileTree) :
    AddsDirectories way tree tree :=
  ⟨rfl, fun _ => .inl rfl⟩

theorem AddsDirectories.keepsWays (h : AddsDirectories way tree made) : KeepsWays tree made := by
  refine ⟨h.working, fun q hq => ?_, fun q target => ?_⟩
  · rcases h.entry q with hsame | hmade
    · exact hsame.trans hq
    · simp [hmade.free] at hq
  · rcases h.entry q with hsame | hmade
    · rw [hsame]
    · simp [hmade.free, hmade.directory]

theorem IsMade.of_keeps {q : Place} (h : IsMade way tree made q) (hkeeps : KeepsWays made other) :
    IsMade way tree other q := by
  obtain ⟨front, n, hfront, hlead, hlast⟩ := h.named
  exact ⟨h.free, hkeeps.directory q h.directory, front, n, hfront, hkeeps.lead hlead, hlast⟩

theorem AddsDirectories.trans (h : AddsDirectories way tree made)
    (h' : AddsDirectories way made other) : AddsDirectories way tree other := by
  refine ⟨?_, fun q => ?_⟩
  · rw [h'.rest, h.rest]
  · rcases h.entry q with hsame | hmade
    · rcases h'.entry q with hsame' | hmade'
      · exact .inl (hsame'.trans hsame)
      · exact .inr ⟨hsame ▸ hmade'.free, hmade'.directory, hmade'.named⟩
    · exact .inr (hmade.of_keeps h'.keepsWays)

theorem AddsDirectories.of_leads {longer : List Component} (h : AddsDirectories way tree made)
    (hlonger : way <+: longer) : AddsDirectories longer tree made := by
  refine ⟨h.rest, fun q => (h.entry q).imp_right fun hmade => ?_⟩
  obtain ⟨front, n, hfront, hnamed⟩ := hmade.named
  exact ⟨hmade.free, hmade.directory, front, n, hfront.trans hlonger, hnamed⟩

/-- A directory is made at the place that the last name of a way has, which is free. -/
theorem makeDirectory_ok (h : tree.makeDirectory components = .ok made) :
    AddsDirectories components tree made ∧
      ∃ place, made.lead components = .ok place ∧ made.entryAt? place = some .directory := by
  unfold makeDirectory at h
  obtain ⟨place, hlocate, h⟩ := ok_of_bind h
  split at h
  · next n hlast hfree =>
    split at h
    · obtain rfl := Except.ok.inj h
      have hkeeps : KeepsWays tree (tree.set place .directory) :=
        keepsWays_set (by simp [hfree]) (by simp [hfree]) (by simp)
      have hentry : ∀ q, (tree.set place .directory).entryAt? q =
          if q = place then some .directory else tree.entryAt? q :=
        entryAt?_set (by simp [hfree]) .directory
      obtain ⟨front, rfl⟩ := List.getLast?_eq_some_iff.mp hlast
      rw [locate_concat_name] at hlocate
      obtain ⟨around, haround, hplace⟩ := ok_of_bind hlocate
      obtain ⟨⟨⟩, henter, rfl⟩ := ok_of_map hplace
      have hlead : (tree.set (around ++ [n]) .directory).lead (front ++ [.name n]) =
          .ok (around ++ [n]) := by
        rw [lead_concat_name (hkeeps.lead haround) (by simp [hentry]),
          enter_ok_iff.mpr (hkeeps.directory _ (enter_ok_iff.mp henter))]
        rfl
      have hmade : (tree.set (around ++ [n]) .directory).entryAt? (around ++ [n]) =
          some .directory := by
        rw [hentry, if_pos rfl]
      refine ⟨⟨rfl, fun q => ?_⟩, _, hlead, hmade⟩
      by_cases hq : q = around ++ [n]
      · subst hq
        exact .inr ⟨hfree, hmade, front, n, List.prefix_refl _, hlead, by simp⟩
      · exact .inl (by rw [hentry, if_neg hq])
    · cases h
  all_goals cases h

theorem leadsToDirectory_iff :
    tree.leadsToDirectory components = true ↔
      ∃ place, tree.lead components = .ok place ∧ tree.entryAt? place = some .directory := by
  unfold leadsToDirectory
  cases tree.lead components with
  | error cause => simp
  | ok place => simp

theorem settleDirectory_spec {result : Except FileError Unit}
    (h : tree.settleDirectory components = (made, result)) :
    AddsDirectories components tree made ∧
      (result = .ok () → made.leadsToDirectory components = true) := by
  unfold settleDirectory at h
  split at h
  · next new hmake =>
    obtain ⟨rfl, rfl⟩ := Prod.mk.inj h
    obtain ⟨hadds, hleads⟩ := makeDirectory_ok hmake
    exact ⟨hadds, fun _ => leadsToDirectory_iff.mpr hleads⟩
  · split at h
    · next hleads =>
      obtain ⟨rfl, rfl⟩ := Prod.mk.inj h
      exact ⟨.refl _ tree, fun _ => hleads⟩
    · obtain ⟨rfl, rfl⟩ := Prod.mk.inj h
      exact ⟨.refl _ tree, fun hok => by cases hok⟩

/-- The induction follows the components from the last one on, as the directories around are made
first where something is missing. -/
theorem makeAround_spec {reversed behind : List Component} {result : Except FileError Unit}
    (h : tree.makeAround reversed behind = (made, result)) :
    AddsDirectories (reversed.reverse ++ behind) tree made ∧ (result = .ok () → reversed ≠ [] →
      made.leadsToDirectory (reversed.reverse ++ behind) = true) := by
  induction reversed generalizing behind made result with
  | nil =>
    obtain ⟨rfl, -⟩ := Prod.mk.inj h
    exact ⟨.refl _ tree, fun _ hne => absurd rfl hne⟩
  | cons last around ih =>
    have hway : around.reverse ++ [] <+: (last :: around).reverse ++ behind := by
      simp [List.prefix_append]
    rw [makeAround] at h
    split at h
    · -- something is missing on the way
      split at h
      · next made' cause hfailed =>
        obtain ⟨rfl, rfl⟩ := Prod.mk.inj h
        exact ⟨(ih hfailed).1.of_leads hway, fun hok => by cases hok⟩
      · next made' haround =>
        obtain ⟨hadds, hleads⟩ := settleDirectory_spec h
        exact ⟨((ih haround).1.of_leads hway).trans hadds, fun hok _ => hleads hok⟩
    · obtain ⟨hadds, hleads⟩ := settleDirectory_spec h
      exact ⟨hadds, fun hok _ => hleads hok⟩

theorem lastDot_cases (p : Path) : lastDot p = [] ∨ lastDot p = [.current] := by
  unfold lastDot
  split
  · exact .inr rfl
  · exact .inl rfl

/-- **Making directories adds directories on the way alone**, whether it succeeds or not. -/
theorem addsDirectories_makeDirectories (tree : FileTree) (p : Path) :
    AddsDirectories p.components tree (tree.makeDirectories p).1 := by
  unfold makeDirectories
  split
  · exact .refl _ tree
  · rcases haround : tree.makeAround p.components.reverse (lastDot p) with ⟨made, result⟩
    have hadds := (makeAround_spec haround).1
    rw [List.reverse_reverse] at hadds
    show AddsDirectories p.components tree made
    rcases lastDot_cases p with hdot | hdot
    · rwa [hdot, List.append_nil] at hadds
    · -- a `.` at the end of the way makes no directory
      refine ⟨hadds.rest, fun q => (hadds.entry q).imp_right fun hmade => ?_⟩
      obtain ⟨front, n, hfront, hnamed⟩ := hmade.named
      refine ⟨hmade.free, hmade.directory, front, n, ?_, hnamed⟩
      rcases List.prefix_concat_iff.mp (hdot ▸ hfront) with heq | hfront
      · simp at heq
      · exact hfront

/-- The path leads to a directory. -/
structure LeadsTo (tree : FileTree) (dir : Path) (here : Place) : Prop where
  plain : '\x00' ∉ dir.text.toList
  lead : tree.lead dir.components = .ok here
  directory : tree.entryAt? here = some .directory

/-- **A directory that was made is there.** -/
theorem leadsTo_makeDirectories (h : (tree.makeDirectories p).2 = .ok ()) :
    ∃ here, (tree.makeDirectories p).1.LeadsTo p here := by
  unfold makeDirectories at h ⊢
  split at h
  · cases h
  · next hnul =>
    rw [if_neg hnul]
    have hplain : '\x00' ∉ p.text.toList := by simpa using hnul
    by_cases hempty : p.components = []
    · rw [hempty]
      exact ⟨tree.working, hplain, by rw [hempty]; rfl, tree.entryAt?_working⟩
    · have hleads := (makeAround_spec rfl).2 h (by simpa using hempty)
      rw [List.reverse_reverse] at hleads
      obtain ⟨place, hlead, hdir⟩ := leadsToDirectory_iff.mp hleads
      generalize (tree.makeAround p.components.reverse (lastDot p)).1 = made at hlead hdir
      rcases lastDot_cases p with hdot | hdot
      · rw [hdot, List.append_nil] at hlead
        exact ⟨place, hplain, hlead, hdir⟩
      · rw [hdot] at hlead
        exact ⟨place, hplain, lead_of_concat_current hlead, hdir⟩

/-! ## Written files -/

/-- A file is opened where its path leads to, which is no directory. -/
theorem openPlace_ok (h : tree.openPlace p = .ok place) :
    tree.place p = .ok place ∧ tree.entryAt? place ≠ some .directory ∧
      p.text.toList.getLast? ≠ some '/' := by
  unfold openPlace at h
  obtain ⟨place', hplace, h⟩ := ok_of_bind h
  split at h
  · cases h
  · next hfree =>
    obtain ⟨⟨⟩, -, h⟩ := ok_of_bind h
    split at h
    · cases h
    · next hlast =>
      split at h
      · obtain rfl := Except.ok.inj h
        exact ⟨hplace, hfree, hlast⟩
      · cases h

theorem write_ok {content : Bytes} (h : tree.write p content = (made, .ok ())) :
    ∃ place, tree.openPlace p = .ok place ∧ made = tree.put place content := by
  unfold write at h
  split at h
  · exact absurd (congrArg Prod.snd h) (by simp)
  · next place hopen =>
    split at h
    · exact ⟨place, hopen, (Prod.mk.inj h).1.symm⟩
    · exact absurd (congrArg Prod.snd h) (by simp)

/-- A file that could not be written is as it was, or it holds a first part of what was written. -/
theorem write_error {content : Bytes} {cause : FileError}
    (h : tree.write p content = (made, .error cause)) :
    made = tree ∨
      ∃ place count, tree.openPlace p = .ok place ∧ made = tree.put place (content.take count) := by
  unfold write at h
  split at h
  · exact .inl (Prod.mk.inj h).1.symm
  · next place hopen =>
    split at h
    · exact absurd (congrArg Prod.snd h) (by simp)
    · next count wording _ => exact .inr ⟨place, count, hopen, (Prod.mk.inj h).1.symm⟩

/-- Whether a file can be written does not depend on its content. -/
theorem isOk_write (tree : FileTree) (p : Path) (content other : Bytes) :
    (tree.write p content).2.isOk = (tree.write p other).2.isOk := by
  unfold write
  cases tree.openPlace p with
  | error cause => rfl
  | ok place =>
    dsimp only
    split <;> rfl

/-- What was put somewhere is found there. -/
theorem foundAt?_put_self (h : tree.entryAt? place ≠ some .directory) (content : Bytes) :
    (tree.put place content).foundAt? place = some (.file content) := by
  by_cases hshared : ∃ number, tree.entryAt? place = some (.shared number)
  · obtain ⟨number, hshared⟩ := hshared
    rw [put_of_shared content hshared]
    show (tree.entryAt? place).bind _ = _
    rw [hshared, Option.bind_some, Entry.found?, List.lookup_cons, beq_self_eq_true]
    rfl
  · rw [put_of_plain content fun number hentry => hshared ⟨number, hentry⟩, foundAt?,
      entryAt?_set h, if_pos rfl]
    rfl

theorem keepsWays_put (h : tree.entryAt? place ≠ some .directory)
    (hlink : ∀ target, tree.entryAt? place ≠ some (.link target)) (content : Bytes) :
    KeepsWays tree (tree.put place content) := by
  by_cases hshared : ∃ number, tree.entryAt? place = some (.shared number)
  · obtain ⟨number, hshared⟩ := hshared
    rw [put_of_shared content hshared]
    exact ⟨rfl, fun _ hq => hq, fun _ _ => .rfl⟩
  · rw [put_of_plain content fun number hentry => hshared ⟨number, hentry⟩]
    exact keepsWays_set h hlink (by simp)

/-- **A text that was written is read back.** -/
theorem readText_write {text : List Char}
    (h : tree.write p (Text.Utf8.encode text) = (made, .ok ())) : made.readText p = .ok text := by
  obtain ⟨place, hopen, rfl⟩ := write_ok h
  obtain ⟨hplace, hfree, hlast⟩ := openPlace_ok hopen
  have hkeeps := keepsWays_put hfree (not_link_of_place hplace) (Text.Utf8.encode text)
  unfold readText read
  rw [find_of_place (hkeeps.place_eq hplace), foundAt?_put_self hfree]
  simp only [if_neg hlast]
  dsimp only [bind, Except.bind]
  rw [Text.Utf8.decode?_encode]

/-! ## Moved files -/

theorem shared_of_isSame {entry other : Entry} (h : entry.isSame other = true) :
    ∃ number, entry = .shared number := by
  cases entry with
  | shared number => exact ⟨number, rfl⟩
  | file content => cases h
  | directory => cases h
  | link target => cases h

/-- A file or a link that is moved stands at its new place alone, unless both names are of one
file. -/
theorem rename_ok {source target : Path} (h : tree.rename source target = .ok made) :
    ∃ sourcePlace targetPlace entry, tree.placeOfName source = .ok sourcePlace ∧
      tree.placeOfName target = .ok targetPlace ∧ tree.entryAt? sourcePlace = some entry ∧
      tree.entryAt? targetPlace ≠ some .directory ∧
      (made = tree ∧ (sourcePlace = targetPlace ∨ ∃ number, entry = .shared number) ∨
        made = (tree.erase sourcePlace).set targetPlace entry) := by
  unfold rename at h
  obtain ⟨sourcePlace, hsource, h⟩ := ok_of_bind h
  obtain ⟨targetPlace, htarget, h⟩ := ok_of_bind h
  split at h
  · cases h
  · cases h
  · cases h
  · next _ entry _ hentry hfree =>
    refine ⟨sourcePlace, targetPlace, entry, hsource, htarget, hentry, by simpa using hfree, ?_⟩
    split at h
    · next hsame =>
      obtain rfl := Except.ok.inj h
      refine .inl ⟨rfl, ?_⟩
      rcases Bool.or_eq_true_iff.mp hsame with heq | hany
      · exact .inl (by simpa using heq)
      · obtain ⟨other, -, hother⟩ := (Option.any_eq_true _ _).mp hany
        exact .inr (shared_of_isSame hother)
    · split at h
      · exact .inr (Except.ok.inj h).symm
      · cases h

/-! ## Names that are no text

Which names are no text does not change.
-/

theorem foreign_put (tree : FileTree) (place : Place) (content : Bytes) :
    (tree.put place content).foreign = tree.foreign := by
  unfold put
  split <;> rfl

theorem foreign_write (tree : FileTree) (p : Path) (content : Bytes) :
    (tree.write p content).1.foreign = tree.foreign := by
  unfold write
  split
  · rfl
  · split <;> exact foreign_put _ _ _

theorem foreign_rename {source target : Path} (h : tree.rename source target = .ok made) :
    made.foreign = tree.foreign := by
  obtain ⟨_, _, _, -, -, -, -, ⟨rfl, -⟩ | rfl⟩ := rename_ok h
  · rfl
  · rfl

theorem foreign_makeDirectories (tree : FileTree) (p : Path) :
    (tree.makeDirectories p).1.foreign = tree.foreign := by
  rw [(addsDirectories_makeDirectories tree p).rest]

/-- If the path leads to a directory at all, it is the one at the place. -/
def LeadsOnlyTo (tree : FileTree) (dir : Path) (here : Place) : Prop :=
  ∀ around, tree.lead dir.components = .ok around → tree.entryAt? around = some .directory →
    around = here

theorem LeadsTo.leadsOnlyTo (h : tree.LeadsTo dir here) : tree.LeadsOnlyTo dir here := by
  intro around hlead _
  rw [h.lead] at hlead
  exact (Except.ok.inj hlead).symm

/-- Where a tree narrows, a path that leads to a directory leads to the old one. -/
theorem LeadsOnlyTo.of_narrows (h : tree.LeadsOnlyTo dir here) (hnarrows : Narrows tree other) :
    other.LeadsOnlyTo dir here := by
  intro around hlead hdir
  exact h around (hnarrows.lead hlead hdir) (hnarrows.directory around hdir)

theorem LeadsTo.of_keeps (h : tree.LeadsTo dir here) (hkeeps : KeepsWays tree other) :
    other.LeadsTo dir here :=
  ⟨h.plain, hkeeps.lead h.lead, hkeeps.directory here h.directory⟩

/-- A name joined to the path of a directory is the name of something in the directory. -/
theorem LeadsOnlyTo.placeOfName_join (h : tree.LeadsOnlyTo dir here) (hname : Path.IsName name)
    (hplace : tree.placeOfName (dir.join (String.ofList name)) = .ok place) :
    place = here ++ [name] := by
  obtain ⟨⟨⟩, -, hlocate⟩ := ok_of_bind hplace
  rw [Path.components_join hname, locate_concat_name] at hlocate
  obtain ⟨around, hlead, hstep⟩ := ok_of_bind hlocate
  obtain ⟨⟨⟩, henter, rfl⟩ := ok_of_map hstep
  rw [h around hlead (enter_ok_iff.mp henter)]

/-- A path that leads on to a name in a directory leads to the directory. -/
theorem directory_of_lead_concat (h : tree.lead (components ++ [.name name]) = .ok place) :
    ∃ around, tree.lead components = .ok around ∧ tree.entryAt? around = some .directory := by
  obtain ⟨left, hwalk⟩ := lead_ok_iff.mp h
  rw [walk_append (by simp)] at hwalk
  obtain ⟨⟨around, left'⟩, haround, hstep⟩ := ok_of_bind hwalk
  exact ⟨around, lead_ok_iff.mpr ⟨left', haround⟩, directory_of_walk hstep⟩

/-- If no link has the name, the path leads to the place that it names. -/
theorem LeadsOnlyTo.place_join (h : tree.LeadsOnlyTo dir here) (hname : Path.IsName name)
    (hlink : ∀ target, tree.entryAt? (here ++ [name]) ≠ some (.link target))
    (hplace : tree.place (dir.join (String.ofList name)) = .ok place) :
    place = here ++ [name] := by
  obtain ⟨⟨⟩, -, hlead⟩ := ok_of_bind hplace
  rw [Path.components_join hname] at hlead
  obtain ⟨around, haround, hdir⟩ := directory_of_lead_concat hlead
  obtain rfl := h around haround hdir
  rw [lead_concat_name haround hlink, enter_ok_iff.mpr hdir] at hlead
  exact (Except.ok.inj hlead).symm

theorem mem_joinText {base part : List Char} {c : Char} (h : c ∈ Path.joinText base part) :
    c ∈ base ∨ c = '/' ∨ c ∈ part := by
  unfold Path.joinText at h
  split at h
  · exact .inr (.inr h)
  · split at h
    · exact .inr (.inr h)
    · exact (List.mem_append.mp h).imp_right .inr
    · exact (List.mem_append.mp h).imp_right List.mem_cons.mp

/-- **A file that holds the bytes of a text is read as the text** under its name in a directory. -/
theorem LeadsTo.readText_join {text : List Char} (h : tree.LeadsTo dir here)
    (hname : Path.IsName name) (hplain : '\x00' ∉ name)
    (hentry : tree.entryAt? (here ++ [name]) = some (.file (Text.Utf8.encode text))) :
    tree.readText (dir.join (String.ofList name)) = .ok text := by
  obtain ⟨front, -, htext⟩ := Path.exists_join hname dir
  have htext := htext []
  rw [List.append_nil] at htext
  have hcheck : check (dir.join (String.ofList name)) = .ok () := by
    refine check_ok_iff.mpr ⟨fun hin => ?_, fun hempty => ?_⟩
    · rw [Path.join, String.toList_ofList, String.toList_ofList] at hin
      rcases mem_joinText hin with hbase | hslash | hpart
      · exact h.plain hbase
      · exact absurd hslash (by decide)
      · exact hplain hpart
    · rw [hempty] at htext
      exact hname.ne (List.append_eq_nil_iff.mp htext.symm).2
  have hlast : (dir.join (String.ofList name)).text.toList.getLast? ≠ some '/' := by
    intro hlast
    rw [htext, List.getLast?_append_of_ne_nil _ hname.ne] at hlast
    exact hname.plain (List.mem_of_getLast? hlast)
  have hplace : tree.place (dir.join (String.ofList name)) = .ok (here ++ [name]) := by
    unfold FileTree.place
    rw [hcheck, Path.components_join hname]
    show tree.lead (dir.components ++ [.name name]) = _
    rw [lead_concat_name h.lead (by simp [hentry]), enter_ok_iff.mpr h.directory]
    rfl
  unfold readText read
  rw [find_of_place hplace, foundAt?, hentry, Option.bind_some, Entry.found?]
  simp only [if_neg hlast]
  dsimp only [bind, Except.bind]
  rw [Text.Utf8.decode?_encode]

end FileTree

end ChangeScope
