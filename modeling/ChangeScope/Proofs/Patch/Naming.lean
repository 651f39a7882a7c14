import ChangeScope.Proofs.Change.Told
import ChangeScope.Proofs.Patch.Declared
import ChangeScope.Proofs.Patch.Name
import ChangeScope.Proofs.Path
import ChangeScope.Proofs.Text.Utf8

/-!
# Names of files

A patch names a file in the title of its section and in the rows of both sides, a listing on a line
of its own. A quoted name is never read back (`titlePath_quoted`); a name that stands as it is is
read back, unless the rows that name it leave its end or its beginning open
(`isNamed_iff_readable`). Main statement: `names_read_iff`.
-/

set_option autoImplicit false

namespace ChangeScope.Patch

open ChangeScope.Text
open ChangeScope.Call (utf8)

/-! ## Rows that name a file -/

/-- The change of a file with its name. -/
structure NamedEdit where
  name : Name
  fate : Fate
  /-- What stands in the index line, if there is one. -/
  index : Option Line
  /-- The rows that name both sides are there, as they are above hunks. -/
  named : Bool
  blocks : List Block

/-- The first row of a file. -/
def NamedEdit.title (e : NamedEdit) : Line :=
  "diff --git ".toList ++ (e.name.written "a/".toList ++ ' ' :: e.name.written "b/".toList)

/-- The name as that of a side, behind which a tab stands when there is a blank in it. -/
def NamedEdit.side (e : NamedEdit) (side : List Char) : List Char :=
  e.name.written side ++ if 0x20 ∈ e.name then ['\t'] else []

/-- The rows that name both sides. -/
def NamedEdit.sideRows (e : NamedEdit) : List Line :=
  match e.fate with
  | .modified _ => ["--- ".toList ++ e.side "a/".toList, "+++ ".toList ++ e.side "b/".toList]
  | .added _ => ["--- /dev/null".toList, "+++ ".toList ++ e.side "b/".toList]
  | .deleted _ => ["--- ".toList ++ e.side "a/".toList, "+++ /dev/null".toList]

/-- What stands in the patch for the file. -/
def NamedEdit.toSection (e : NamedEdit) : FileSection :=
  { title := e.title
    header := e.fate.rows ++ (e.index.toList.map ("index ".toList ++ ·) ++
      if e.named then e.sideRows else [])
    blocks := e.blocks
    others := [] }

/-- A row tells the name of the new side alone. -/
def NamedEdit.NamesNew (e : NamedEdit) : Prop := e.named = true ∧ e.fate.status ≠ .deleted

instance (e : NamedEdit) : Decidable e.NamesNew :=
  inferInstanceAs (Decidable (e.named = true ∧ e.fate.status ≠ .deleted))

/-- The name is that of a file, and line numbers are small. -/
structure NamedEdit.IsWritten (e : NamedEdit) : Prop where
  name_ne : e.name ≠ []
  name_last : e.name.getLast? ≠ some 0x2f
  named : e.blocks ≠ [] → e.named = true
  small : ∀ b ∈ e.blocks, b.start + b.rows.length ≤ 2 ^ 63

/-- The name stands as it is, and the rows that name the file tell where it begins and ends: the
row of the new side does unless the name ends in a blank, and without that row the title does unless
there is a separator in the name. -/
def NamedEdit.IsReadable (e : NamedEdit) : Prop :=
  e.name.IsPlain ∧ (e.NamesNew → e.name.getLast? ≠ some 0x20) ∧
    (¬ e.NamesNew → ¬ sideBytes <:+: e.name)

theorem NamedEdit.isPlain_toSection {e : NamedEdit} (he : e.IsWritten) : e.toSection.IsPlain where
  title := by
    unfold NamedEdit.toSection NamedEdit.title
    rfl
  header := by
    intro line hline
    unfold NamedEdit.toSection at hline
    rcases List.mem_append.mp hline with hline | hline
    · match hfate : e.fate with
      | .modified none =>
          rw [hfate] at hline
          exact absurd hline List.not_mem_nil
      | .modified (some (old, new)) =>
          rw [hfate] at hline
          rcases List.mem_pair.mp hline with rfl | rfl <;> exact ⟨rfl, rfl⟩
      | .added mode =>
          rw [hfate] at hline
          obtain rfl := List.mem_singleton.mp hline
          exact ⟨rfl, rfl⟩
      | .deleted mode =>
          rw [hfate] at hline
          obtain rfl := List.mem_singleton.mp hline
          exact ⟨rfl, rfl⟩
    rcases List.mem_append.mp hline with hline | hline
    · obtain ⟨text, -, rfl⟩ := List.mem_map.mp hline
      exact ⟨rfl, rfl⟩
    · split at hline
      · unfold NamedEdit.sideRows at hline
        split at hline <;> rcases List.mem_pair.mp hline with rfl | rfl <;> exact ⟨rfl, rfl⟩
      · exact absurd hline List.not_mem_nil
  others := fun line hline => absurd hline List.not_mem_nil
  small := he.small

/-! ## The title -/

/-- The text in which the title shows both paths. -/
theorem titlePath_eq (e : NamedEdit) : titlePath e.title =
    match splitLast sideMark (e.name.written "a/".toList ++ ' ' :: e.name.written "b/".toList) with
    | some (_, path) => path
    | none => [] := rfl

/-- Of a path in the title no separator is left. -/
theorem not_infix_titlePath (e : NamedEdit) : ¬ sideMark <:+: titlePath e.title := by
  rw [titlePath_eq]
  split
  · next before path h => exact (splitLast_spec (by decide) h).2
  · intro h
    exact absurd (List.infix_nil.mp h) (by decide)

theorem ascii_titlePath (e : NamedEdit) : ∀ c ∈ titlePath e.title, isAscii c = true := by
  intro c hc
  rw [titlePath_eq] at hc
  split at hc
  · next before path h =>
      obtain ⟨heq, -⟩ := splitLast_spec (by decide) h
      have hin : c ∈ e.name.written "a/".toList ++ ' ' :: e.name.written "b/".toList := by
        rw [heq]
        exact List.mem_append_right _ (List.mem_append_right _ hc)
      rcases List.mem_append.mp hin with hin | hin
      · exact e.name.ascii_written (List.all_eq_true.mp rfl) c hin
      · rcases List.mem_cons.mp hin with rfl | hin
        · rfl
        · exact e.name.ascii_written (List.all_eq_true.mp rfl) c hin
  · exact absurd hc List.not_mem_nil

/-- Between plain names stands a separator. -/
theorem written_plain {n : Name} (hn : n.IsPlain) :
    n.written "a/".toList ++ ' ' :: n.written "b/".toList =
      ("a/".toList ++ n.text) ++ (sideMark ++ n.text) := by
  rw [Name.written, if_pos hn, Name.written, if_pos hn]
  rfl

/-- The path in the title of a plain name is the name, unless there is a separator in it. -/
theorem titlePath_plain {e : NamedEdit} (hn : e.name.IsPlain)
    (hside : ¬ sideBytes <:+: e.name) : titlePath e.title = e.name.text := by
  have hlast : ¬ sideMark <:+: 'b' :: '/' :: e.name.text := by
    intro h
    exact hside ((infix_text_iff hn).mp (infix_behind (a := ['b', '/']) (by simp) h))
  have hsplit : splitLast sideMark (("a/".toList ++ e.name.text) ++ (sideMark ++ e.name.text)) =
      some ("a/".toList ++ e.name.text, e.name.text) := splitLast_append hlast _
  rw [titlePath_eq, written_plain hn, hsplit]

/-- The title of a plain name tells some path. -/
theorem titlePath_ne_nil {e : NamedEdit} (he : e.IsWritten) (hn : e.name.IsPlain) :
    titlePath e.title ≠ [] := by
  rw [titlePath_eq, written_plain hn]
  split
  · next before path h =>
      -- an empty path would let the name end in a slash
      rintro rfl
      obtain ⟨heq, -⟩ := splitLast_spec (by decide) h
      obtain ⟨b, hb, hlast⟩ := Name.getLast?_text he.name_ne
      have hname : (("a/".toList ++ e.name.text) ++ (sideMark ++ e.name.text)).getLast? =
          some (charOf b) := by
        rw [List.getLast?_append, List.getLast?_append, hlast]
        rfl
      have hslash : (before ++ (sideMark ++ [])).getLast? = some '/' := by
        rw [List.append_nil, List.getLast?_append]
        rfl
      have hchar : charOf b = '/' := Option.some.inj (hname.symm.trans (heq ▸ hslash))
      rw [← (charOf_byte (hn b (List.mem_of_getLast? hb))).2.1, hchar] at hb
      exact he.name_last hb
  · next h =>
      exact absurd ⟨"a/".toList ++ e.name.text, e.name.text, by simp⟩ (splitLast_eq_none_iff.mp h)

/-- The separator stands in quoted names only if its bytes stand in the name. -/
theorem infix_of_infix_quoted {name : Name} (hn : ¬ name.IsPlain)
    (h : sideMark <:+: name.written "a/".toList ++ ' ' :: name.written "b/".toList) :
    sideBytes <:+: name := by
  have htext : name.written "a/".toList ++ ' ' :: name.written "b/".toList =
      ['"', 'a', '/'] ++ (name.flatMap escape ++ ('"' :: ' ' :: (['"', 'b', '/'] ++
        (name.flatMap escape ++ ['"'])))) := by
    rw [Name.written, if_neg hn, Name.written, if_neg hn]
    simp
  rw [htext] at h
  rcases infix_escaped rfl (infix_behind (by simp) h) with hin | hin
  · exact hin
  · -- behind the first name a quote follows the blank
    have hbehind := infix_behind (a := ['"']) (by simp) hin
    rcases List.infix_cons_iff.mp hbehind with hstarts | hbehind
    · exact absurd (List.cons_prefix_cons.mp (List.cons_prefix_cons.mp hstarts).2).1 (by decide)
    · rcases infix_escaped rfl (infix_behind (by simp) hbehind) with hin | hin
      · exact hin
      · exact absurd (List.infix_nil.mp (infix_behind (a := ['"']) (b := []) (by simp) hin))
          (by decide)

/-- **No path is read from quoted names**: none is found in the title, or one with a quote at its
end, in which a separator is missing that the name has. -/
theorem titlePath_quoted {e : NamedEdit} (he : e.IsWritten) (hn : ¬ e.name.IsPlain) :
    (∀ c, (titlePath e.title).getLast? = some c → c = '"') ∧
      ¬ IsNamed ⟨String.ofList (titlePath e.title)⟩ e.name := by
  cases hsplit : splitLast sideMark (e.name.written "a/".toList ++
      ' ' :: e.name.written "b/".toList) with
  | none =>
      have htitle : titlePath e.title = [] := by rw [titlePath_eq, hsplit]
      rw [htitle]
      refine ⟨fun c hc => absurd hc (by simp), fun hnamed => he.name_ne ?_⟩
      rw [← hnamed]
      rfl
  | some pair =>
      obtain ⟨before, path⟩ := pair
      have htitle : titlePath e.title = path := by rw [titlePath_eq, hsplit]
      obtain ⟨heq, hfree⟩ := splitLast_spec (by decide) hsplit
      constructor
      · intro c hc
        have hquote : (e.name.written "a/".toList ++ ' ' :: e.name.written "b/".toList).getLast? =
            some '"' := by
          rw [List.getLast?_append, List.getLast?_cons, Name.getLast?_quoted hn]
          rfl
        rw [heq, List.getLast?_append, List.getLast?_append, ← htitle, hc] at hquote
        exact Option.some.inj hquote
      · intro hnamed
        have hsides := infix_of_infix_quoted hn ⟨before, path, by rw [heq, List.append_assoc]⟩
        rw [← htitle, text_of_isNamed (ascii_titlePath e) hnamed] at hfree
        exact hfree (hsides.map charOf)

/-! ## The header -/

/-- The rows below the title, up to the hunks. -/
theorem foldl_header (e : NamedEdit) (path : List Char) :
    e.toSection.header.foldl Heading.read ⟨path, .modified⟩ =
      if e.named then e.sideRows.foldl Heading.read ⟨path, e.fate.status⟩
      else ⟨path, e.fate.status⟩ := by
  unfold NamedEdit.toSection
  rw [List.foldl_append, List.foldl_append, foldl_fateRows, foldl_indexRow]
  cases e.named <;> rfl

/-- The rows of the sides tell what the row of the new side tells, unless the file is gone. -/
theorem foldl_sideRows_of_read {e : NamedEdit} {heading told : Heading}
    (hold : heading.read ("--- ".toList ++ e.side "a/".toList) = heading)
    (hnew : heading.read ("+++ ".toList ++ e.side "b/".toList) = told) :
    e.sideRows.foldl Heading.read heading =
      if e.fate.status = .deleted then heading else told := by
  unfold NamedEdit.sideRows
  cases e.fate with
  | modified modes =>
      show ["--- ".toList ++ e.side "a/".toList, "+++ ".toList ++ e.side "b/".toList].foldl
        Heading.read heading = told
      rw [List.foldl_cons, List.foldl_cons, hold, hnew, List.foldl_nil]
  | added mode =>
      show ["--- /dev/null".toList, "+++ ".toList ++ e.side "b/".toList].foldl
        Heading.read heading = told
      exact hnew
  | deleted mode =>
      show ["--- ".toList ++ e.side "a/".toList, "+++ /dev/null".toList].foldl
        Heading.read heading = heading
      rw [List.foldl_cons, List.foldl_cons, hold]
      rfl

/-- Rows that name the sides in quotes tell nothing. -/
theorem foldl_sideRows_quoted {e : NamedEdit} (hn : ¬ e.name.IsPlain) (heading : Heading) :
    e.sideRows.foldl Heading.read heading = heading := by
  have hold : heading.read ("--- ".toList ++ e.side "a/".toList) = heading := by
    rw [NamedEdit.side, Name.written, if_neg hn]
    rfl
  have hnew : heading.read ("+++ ".toList ++ e.side "b/".toList) = heading := by
    rw [NamedEdit.side, Name.written, if_neg hn]
    rfl
  rw [foldl_sideRows_of_read hold hnew, ite_self]

/-- Rows that name the sides as they are tell the new one. -/
theorem foldl_sideRows_plain {e : NamedEdit} (hn : e.name.IsPlain) {heading : Heading}
    (hpath : heading.path ≠ []) : e.sideRows.foldl Heading.read heading =
      if e.fate.status = .deleted then heading
      else { heading with path := trimEnd e.name.text } := by
  -- behind a name with blanks stands a tab, which is trimmed like a blank
  have htab : ∀ c ∈ (if 0x20 ∈ e.name then ['\t'] else []), isBlank c = true := by
    intro c hc
    split at hc
    · rw [List.mem_singleton.mp hc]
      rfl
    · exact absurd hc List.not_mem_nil
  have hside : ∀ side : List Char, e.side side =
      side ++ (e.name.text ++ if 0x20 ∈ e.name then ['\t'] else []) := by
    intro side
    rw [NamedEdit.side, Name.written, if_pos hn, List.append_assoc]
  have hold : heading.read ("--- ".toList ++ e.side "a/".toList) = heading := by
    rw [hside]
    exact Heading.read_oldSide hpath _
  have hnew : heading.read ("+++ ".toList ++ e.side "b/".toList) =
      { heading with path := trimEnd e.name.text } := by
    have htrim : trimEnd (e.name.text ++ if 0x20 ∈ e.name then ['\t'] else []) =
        trimEnd e.name.text := dropTrailing_append htab e.name.text
    rw [hside, ← htrim]
    exact Heading.read_newSide heading _
  exact foldl_sideRows_of_read hold hnew

/-- The path that a section tells: that of the title, or of the row of the new side. -/
theorem path_toSection {e : NamedEdit} (he : e.IsWritten) :
    (FileChange.ofSection e.toSection.title e.toSection.body).path =
      ⟨String.ofList (if e.name.IsPlain ∧ e.NamesNew then trimEnd e.name.text
        else titlePath e.title)⟩ := by
  have hspan := (NamedEdit.isPlain_toSection he).span_body
  have hheading : (e.toSection.header.foldl Heading.read ⟨titlePath e.title, .modified⟩).path =
      if e.name.IsPlain ∧ e.NamesNew then trimEnd e.name.text else titlePath e.title := by
    rw [foldl_header]
    unfold NamedEdit.NamesNew
    by_cases hnamed : e.named = true
    · by_cases hn : e.name.IsPlain
      · rw [if_pos hnamed, foldl_sideRows_plain hn (titlePath_ne_nil he hn)]
        by_cases hstatus : e.fate.status = .deleted <;> simp [hstatus, hnamed, hn]
      · rw [if_pos hnamed, foldl_sideRows_quoted hn]
        simp [hn]
    · simp [hnamed]
  unfold FileChange.ofSection
  rw [hspan, ← hheading]
  by_cases hblocks : e.toSection.blocks = []
  · rw [if_pos hblocks, show e.toSection.others = [] from rfl, List.append_nil]
    rfl
  · rw [if_neg hblocks]
    rfl

/-- The title gives a plain name back unless there is a separator in it. -/
theorem titlePath_eq_text_iff {e : NamedEdit} (hn : e.name.IsPlain) :
    titlePath e.title = e.name.text ↔ ¬ sideBytes <:+: e.name := by
  constructor
  · intro htitle hside
    have hfree := not_infix_titlePath e
    rw [htitle, infix_text_iff hn] at hfree
    exact hfree hside
  · exact titlePath_plain hn

/-- **A section gives the name of its file back just where it can be read.** -/
theorem isNamed_iff_readable {e : NamedEdit} (he : e.IsWritten) :
    IsNamed (FileChange.ofSection e.toSection.title e.toSection.body).path e.name ↔
      e.IsReadable := by
  rw [path_toSection he]
  unfold NamedEdit.IsReadable
  by_cases hn : e.name.IsPlain
  · by_cases hnew : e.NamesNew
    · have hascii : ∀ c ∈ trimEnd e.name.text, isAscii c = true := fun c hc =>
        hn.ascii c (mem_of_mem_dropTrailing hc)
      rw [if_pos ⟨hn, hnew⟩, isNamed_iff_text hn hascii, trimEnd_text_iff he.name_ne hn]
      simp [hn, hnew]
    · rw [if_neg fun h => hnew h.2, isNamed_iff_text hn (ascii_titlePath e),
        titlePath_eq_text_iff hn]
      simp [hn, hnew]
  · rw [if_neg fun h => hn h.1]
    constructor
    · intro hnamed
      exact absurd hnamed (titlePath_quoted he hn).2
    · intro h
      exact absurd h.1 hn

/-! ## Source files -/

/-- The change is one of those that are kept. -/
def IsKept (settings : Settings.Analysis) (c : FileChange) : Prop :=
  settings.isSourceFile c.path = true ∧ (settings.skipTrivialHunks = true → c.hasEffect = true)

/-- Some extension of source files ends in a quote. -/
def QuoteEnds (settings : Settings.Analysis) : Prop :=
  ∃ extension ∈ settings.fileExtensions, extension.toList.getLast? = some '"'

/-- A path that is empty or ends in a quote is that of no source file. -/
theorem quoteEnds_of_isSourceFile {settings : Settings.Analysis} {cs : List Char}
    (hquote : ∀ c, cs.getLast? = some c → c = '"')
    (h : settings.isSourceFile ⟨String.ofList cs⟩ = true) : QuoteEnds settings := by
  unfold Settings.Analysis.isSourceFile at h
  cases hextension : Path.extension? ⟨String.ofList cs⟩ with
  | none =>
      rw [hextension] at h
      exact absurd h Bool.false_ne_true
  | some extension =>
      rw [hextension] at h
      refine ⟨extension, by simpa using h, ?_⟩
      cases hlast : cs.getLast? with
      | none =>
          have hempty : Path.extension? ⟨String.ofList []⟩ = none := by decide
          rw [List.getLast?_eq_none_iff.mp hlast, hempty] at hextension
          exact absurd hextension (by simp)
      | some c =>
          obtain rfl := hquote c hlast
          exact Path.getLast?_extension hlast (by decide) (by decide) hextension

/-- No file of the patch is taken for one that is not under version control. -/
theorem mem_filesOf {tree : FileTree} {settings : Settings.Analysis} {root : Path}
    {text : List Char} {paths : List Path} {c : FileChange} (hc : c ∈ changes text) :
    c ∈ filesOf tree settings root (text, paths) ↔ IsKept settings c := by
  have htracked : c ∈ trackedOf settings text ↔
      (settings.skipTrivialHunks = true → c.hasEffect = true) := by
    unfold trackedOf
    split
    · next hskip => rw [List.mem_filter, and_iff_right hc, forall_prop_of_true hskip]
    · next hskip => exact iff_of_true hc fun h => absurd h hskip
  have huntracked : c ∉ paths.map (FileChange.ofUntracked tree root) := by
    intro hin
    obtain ⟨p, -, rfl⟩ := List.mem_map.mp hin
    exact status_of_changes hc rfl
  unfold filesOf IsKept
  rw [List.mem_filter, List.mem_append, or_iff_left huntracked, htracked, and_comm]

/-- A section with a quoted name tells no source file. -/
theorem quoteEnds_of_section {settings : Settings.Analysis} {e : NamedEdit} (he : e.IsWritten)
    (hn : ¬ e.name.IsPlain) (h : settings.isSourceFile
      (FileChange.ofSection e.toSection.title e.toSection.body).path = true) :
    QuoteEnds settings := by
  rw [path_toSection he, if_neg fun hplain => hn hplain.1] at h
  exact quoteEnds_of_isSourceFile (titlePath_quoted he hn).1 h

/-- The path of a quoted name in a listing is that of no source file. -/
theorem quoteEnds_of_listed {settings : Settings.Analysis} {n : Name} (hn : ¬ n.IsPlain)
    (h : settings.isSourceFile n.listed = true) : QuoteEnds settings := by
  refine quoteEnds_of_isSourceFile (fun c hc => ?_) h
  rw [Name.getLast?_quoted hn] at hc
  exact (Option.some.inj hc).symm

/-! ## Names that are read -/

/-- The paths of a listing. -/
theorem run_untracked {git : Git} {root : Path} {calls calls' : List Git.Arguments}
    {listing : List Char} {names : List Name}
    (hlisting : (Git.text git "ls-files" (Git.untrackedArguments root)).run.run calls =
      (.ok listing, calls'))
    (hnames : Text.lines listing = names.map fun n => n.written []) :
    (Git.untracked git root).run.run calls =
      (.ok ((names.filter fun n => n.any (· != 0x20)).map Name.listed), calls') := by
  have hfilter : (Text.lines listing).filter (fun line => !isBlankText line) =
      (names.filter fun n => n.any (· != 0x20)).map fun n => n.written [] := by
    rw [hnames, List.filter_map]
    congr 1
    exact List.filter_congr fun n _ => n.isBlankText_written
  unfold Git.untracked
  rw [run_bind hlisting]
  dsimp only
  rw [hfilter, List.map_map]
  rfl

/-- What is told, by what is read of the patch and of the listing. -/
theorem run_told {git : Git} {settings : Settings.Analysis} {root : Path} {target : Target}
    {calls calls' calls'' : List Git.Arguments} {text : List Char} {paths : List Path}
    (hpatch : (ofTarget git settings root target).run.run calls = (.ok text, calls'))
    (hlisting : (Git.untracked git root).run.run calls' = (.ok paths, calls'')) :
    ((told git settings root target).run.run calls).1 =
      .ok (text, if target = .workingTree && settings.includeUntracked then paths else []) := by
  unfold told
  rw [run_bind hpatch]
  dsimp only
  by_cases hask : (decide (target = .workingTree) && settings.includeUntracked) = true
  · rw [if_pos hask, if_pos hask, run_bind hlisting]
    rfl
  · rw [if_neg hask, if_neg hask]
    rfl

/-- The patch is read section by section. -/
theorem changes_edits {text : List Char} {es : List NamedEdit}
    (hrows : Text.lines text = es.flatMap fun e => e.toSection.title :: e.toSection.body)
    (hes : ∀ e ∈ es, e.IsWritten) :
    changes text = es.map fun e => FileChange.ofSection e.toSection.title e.toSection.body := by
  have hlines : Text.lines text =
      [] ++ (es.map NamedEdit.toSection).flatMap fun s => s.title :: s.body := by
    rw [hrows, List.flatMap_map, List.nil_append]
  rw [changes_files hlines (fun line hline => absurd hline List.not_mem_nil), List.map_map]
  · rfl
  · intro s hs
    obtain ⟨e, he, rfl⟩ := List.mem_map.mp hs
    exact NamedEdit.isPlain_toSection (hes e he)

/-- **Names that stand as they are are read, and no others are.** Let git show some changes of files
and list some files that are not under version control. Each section gives the name of its file
back just where it can be read, and each line of the listing just where the name stands as it is; a
name of blanks is dropped. The files that have a path of a source file are kept; those whose name is
quoted never are, unless an extension ends in a quote. -/
theorem names_read_iff {git : Git} {tree : FileTree} {settings : Settings.Analysis} {root : Path}
    {target : Target} {calls calls' calls'' : List Git.Arguments} {text listing : List Char}
    {es : List NamedEdit} {names : List Name}
    (hpatch : (ofTarget git settings root target).run.run calls = (.ok text, calls'))
    (hlisting : (Git.text git "ls-files" (Git.untrackedArguments root)).run.run calls' =
      (.ok listing, calls''))
    (hrows : Text.lines text = es.flatMap fun e => e.toSection.title :: e.toSection.body)
    (hnames : Text.lines listing = names.map fun n => n.written [])
    (hes : ∀ e ∈ es, e.IsWritten) :
    ∃ paths files,
      ((Git.untracked git root).run.run calls').1 = .ok paths ∧
      ((fileChanges git tree settings root target).run.run calls).1 = .ok files ∧
      List.Forall₂ (fun e c => (IsNamed c.path e.name ↔ e.IsReadable) ∧
        (c ∈ files ↔ IsKept settings c) ∧
        (¬ e.name.IsPlain → c ∈ files → QuoteEnds settings)) es (changes text) ∧
      List.Forall₂ (fun n p => (IsNamed p n ↔ n.IsPlain) ∧
        (target = .workingTree → settings.includeUntracked = true →
          (FileChange.ofUntracked tree root p ∈ files ↔ settings.isSourceFile p = true)) ∧
        (¬ n.IsPlain → settings.isSourceFile p = true → QuoteEnds settings))
        (names.filter fun n => n.any (· != 0x20)) paths := by
  have huntracked := run_untracked hlisting hnames
  have hfiles := congrArg Prod.fst (run_fileChanges git tree settings root target calls)
  rw [run_told hpatch huntracked] at hfiles
  refine ⟨_, _, congrArg Prod.fst huntracked, hfiles, ?_, ?_⟩
  · have hchanges := changes_edits hrows hes
    rw [hchanges, List.forall₂_map_right_iff, List.forall₂_same]
    intro e he
    have hmem : FileChange.ofSection e.toSection.title e.toSection.body ∈ changes text := by
      rw [hchanges]
      exact List.mem_map.mpr ⟨e, he, rfl⟩
    refine ⟨isNamed_iff_readable (hes e he), mem_filesOf hmem, fun hn hkept => ?_⟩
    exact quoteEnds_of_section (hes e he) hn ((mem_filesOf hmem).mp hkept).1
  · rw [List.forall₂_map_right_iff, List.forall₂_same]
    intro n hn
    refine ⟨Name.isNamed_listed, fun htarget hinclude => ?_, fun hquoted =>
      quoteEnds_of_listed hquoted⟩
    have hask : (decide (target = .workingTree) && settings.includeUntracked) = true := by
      rw [Bool.and_eq_true, decide_eq_true_eq]
      exact ⟨htarget, hinclude⟩
    unfold filesOf
    rw [if_pos hask, List.mem_filter, and_iff_right]
    · rfl
    · exact List.mem_append_right _ (List.mem_map_of_mem (List.mem_map_of_mem hn))

/-! ## A file with a quoted name -/

namespace Quoted

def hunk : Block := ⟨1, 1, 1, [], [.removed "x = 1".toList, .added "x = 2".toList]⟩

/-- `café.py`. -/
def cafe : Name := [0x63, 0x61, 0x66, 0xc3, 0xa9, 0x2e, 0x70, 0x79]

/-- `a b.py`. -/
def spaced : Name := [0x61, 0x20, 0x62, 0x2e, 0x70, 0x79]

/-- A line of `café.py` is changed, and `a b.py` is new and empty. -/
def edits : List NamedEdit :=
  [⟨cafe, .modified none, some "1111111..2222222 100644".toList, true, [hunk]⟩,
    ⟨spaced, .added "100644".toList, some "0000000..e69de29".toList, false, []⟩]

def rows : List Line := edits.flatMap fun e => e.toSection.title :: e.toSection.body

def listing : List Line := [cafe, spaced].map fun n => n.written []

/-- Git, which shows the changes and lists the same names. -/
def answer (arguments : Git.Arguments) : Git.Output :=
  if arguments = Git.untrackedArguments ⟨"/repo"⟩ then
    { stdout := Utf8.bytesOf (textOfRows listing) }
  else { stdout := Utf8.bytesOf (textOfRows rows) }

theorem lines_rows : Text.lines (textOfRows rows) = rows := by
  decide +kernel

theorem lines_listing : Text.lines (textOfRows listing) = listing := by
  decide +kernel

theorem isWritten_edits : ∀ e ∈ edits, e.IsWritten := by
  intro e he
  rcases List.mem_pair.mp he with rfl | rfl
  · exact ⟨by decide, by decide, fun _ => rfl, by
      intro b hb
      obtain rfl := List.mem_singleton.mp hb
      decide⟩
  · exact ⟨by decide, by decide, fun h => absurd rfl h, fun b hb => absurd hb List.not_mem_nil⟩

def patchArguments : Git.Arguments :=
  ["-C", "/repo", "diff", "--relative", "--no-color", "--no-ext-diff", "-U0",
    "--ignore-space-at-eol", "-b", "-w", "--ignore-blank-lines"]

theorem run_patch : (ofTarget (some answer) {} ⟨"/repo"⟩ .workingTree).run.run [] =
    (.ok (textOfRows rows), [patchArguments]) := by
  have hask : (Git.text (some answer) "diff" patchArguments).run.run [] = _ :=
    Git.run_text "diff" patchArguments (by decide) rfl
  have htext : Utf8.decodeLossy (answer patchArguments).stdout = textOfRows rows :=
    Utf8.decodeLossy_bytesOf (by decide +kernel)
  rw [htext] at hask
  have hgit : Git.patch (some answer) {} ⟨"/repo"⟩ .workingTree =
      Git.text (some answer) "diff" patchArguments := rfl
  unfold ofTarget
  rw [hgit, run_bind hask]
  rfl

theorem run_listing :
    (Git.text (some answer) "ls-files" (Git.untrackedArguments ⟨"/repo"⟩)).run.run
      [patchArguments] =
        (.ok (textOfRows listing), [patchArguments, Git.untrackedArguments ⟨"/repo"⟩]) := by
  have hask : (Git.text (some answer) "ls-files" (Git.untrackedArguments ⟨"/repo"⟩)).run.run
      [patchArguments] = _ :=
    Git.run_text "ls-files" (Git.untrackedArguments ⟨"/repo"⟩) (by decide) rfl
  have htext : Utf8.decodeLossy (answer (Git.untrackedArguments ⟨"/repo"⟩)).stdout =
      textOfRows listing := Utf8.decodeLossy_bytesOf (by decide +kernel)
  rw [htext] at hask
  exact hask

end Quoted

theorem names_read_iff_quoted :
    ∃ paths files,
      ((Git.untracked (some Quoted.answer) ⟨"/repo"⟩).run.run [Quoted.patchArguments]).1 =
        .ok paths ∧
      ((fileChanges (some Quoted.answer) {} {} ⟨"/repo"⟩ .workingTree).run.run []).1 = .ok files ∧
      List.Forall₂ (fun e c => (IsNamed c.path e.name ↔ e.IsReadable) ∧
        (c ∈ files ↔ IsKept {} c) ∧ (¬ e.name.IsPlain → c ∈ files → QuoteEnds {}))
        Quoted.edits (changes (textOfRows Quoted.rows)) ∧
      List.Forall₂ (fun n p => (IsNamed p n ↔ n.IsPlain) ∧
        (Target.workingTree = .workingTree → ({} : Settings.Analysis).includeUntracked = true →
          (FileChange.ofUntracked {} ⟨"/repo"⟩ p ∈ files ↔
            ({} : Settings.Analysis).isSourceFile p = true)) ∧
        (¬ n.IsPlain → ({} : Settings.Analysis).isSourceFile p = true → QuoteEnds {}))
        ([Quoted.cafe, Quoted.spaced].filter fun n => n.any (· != 0x20)) paths :=
  names_read_iff Quoted.run_patch Quoted.run_listing Quoted.lines_rows Quoted.lines_listing
    Quoted.isWritten_edits

/-- The change of the file with the quoted name comes with an empty path, and from a listing the
name is read with its quotes and escapes. -/
theorem quoted_name_not_read :
    Text.lines (textOfRows Quoted.rows) =
        (Quoted.edits.flatMap fun e => e.toSection.title :: e.toSection.body) ∧
      (∀ e ∈ Quoted.edits, e.IsWritten) ∧
      (changes (textOfRows Quoted.rows)).map FileChange.path = [⟨""⟩, ⟨"a b.py"⟩] ∧
      ¬ IsNamed ⟨""⟩ Quoted.cafe ∧ ¬ IsNamed Quoted.cafe.listed Quoted.cafe := by
  refine ⟨Quoted.lines_rows, Quoted.isWritten_edits, ?_, ?_, ?_⟩
  · rw [changes_edits Quoted.lines_rows Quoted.isWritten_edits]
    decide +kernel
  · unfold IsNamed
    decide
  · rw [Name.isNamed_listed]
    decide

end ChangeScope.Patch
