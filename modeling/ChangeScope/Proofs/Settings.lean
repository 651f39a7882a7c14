import ChangeScope.Proofs.FileTree.Writing
import ChangeScope.Proofs.Toml.Document
import ChangeScope.Settings.File

/-!
# Settings are read back

Settings whose numbers fit into a TOML integer always have a text (`toText_eq`), and the text gives
the settings again, whatever characters their strings and paths hold (`ofText_toText`). So saved
settings are loaded as they were, but for the program that replaces another one (`load_save`).
-/

set_option autoImplicit false

namespace ChangeScope.Settings

/-- The numbers fit into a TOML integer. -/
structure FitsToml (settings : Settings) : Prop where
  maxFileSize : settings.analysis.maxFileSize ≤ 2 ^ 63 - 1
  timeoutMs : settings.tracer.timeoutMs ≤ 2 ^ 63 - 1
  maxSessionEvents : settings.tracer.maxSessionEvents ≤ 2 ^ 63 - 1

variable {settings : Settings}

/-! ## Sections -/

/-- The tables of the settings. -/
def tables (settings : Settings) : List Toml.Section :=
  [("project", [("repo_root", .string settings.project.repoRoot.text)]),
    ("analysis", [
      ("file_extensions", stringsToToml settings.analysis.fileExtensions),
      ("max_file_size", .integer settings.analysis.maxFileSize),
      ("ignore_whitespace", .boolean settings.analysis.ignoreWhitespace),
      ("include_untracked", .boolean settings.analysis.includeUntracked),
      ("skip_trivial_hunks", .boolean settings.analysis.skipTrivialHunks)]),
    ("tracer", [
      ("program", .string settings.tracer.program),
      ("args", stringsToToml settings.tracer.args),
      ("timeout_ms", .integer settings.tracer.timeoutMs),
      ("max_session_events", .integer settings.tracer.maxSessionEvents)]),
    ("output", [
      ("artifacts_dir", .string settings.output.artifactsDir.text),
      ("write_artifacts", .boolean settings.output.writeArtifacts)])]

theorem inRange_natural {n : Nat} (h : n ≤ 2 ^ 63 - 1) : Toml.inRange n = true := by
  rw [Toml.inRange, Bool.and_eq_true, decide_eq_true_eq, decide_eq_true_eq]
  omega

theorem integerOf_eq {n : Nat} (h : n ≤ 2 ^ 63 - 1) : integerOf n = .ok (.integer n) := by
  rw [integerOf, if_pos (inRange_natural h)]

/-- **Settings that fit have a text.** -/
theorem toText_eq (h : settings.FitsToml) :
    settings.toText = .ok (Toml.writeDocument settings.tables) := by
  have hsections : settings.sections = .ok settings.tables := by
    rw [sections, integerOf_eq h.maxFileSize, integerOf_eq h.timeoutMs,
      integerOf_eq h.maxSessionEvents]
    rfl
  rw [toText, hsections]
  rfl

/-! ## The document -/

theorem isWritable_strings (values : List String) :
    Toml.IsWritable (Toml.nestingLimit - 1) (stringsToToml values) := by
  show Toml.IsWritable (78 + 1) _
  refine .array fun item hitem => ?_
  obtain ⟨value, -, rfl⟩ := List.mem_map.mp hitem
  exact .string 78 value

/-- A text that needs no quotes as a key. -/
def isBareText (key : String) : Bool := !key.toList.isEmpty && key.toList.all Toml.isBare

theorem isBareKey_of_text {key : String} (h : isBareText key = true) : Toml.IsBareKey key := by
  rw [isBareText, Bool.and_eq_true, Bool.not_eq_true', List.isEmpty_eq_false_iff,
    List.all_eq_true] at h
  exact ⟨h.1, h.2⟩

theorem isWritableTable_of_keys {pairs : List (String × Toml)} (keys : List String)
    (hkeys : pairs.map (·.1) = keys) (hbare : keys.Nodup ∧ ∀ key ∈ keys, isBareText key = true)
    (hvalues : ∀ pair ∈ pairs, Toml.IsWritable (Toml.nestingLimit - 1) pair.2) :
    Toml.IsWritableTable pairs := by
  refine ⟨hkeys ▸ hbare.1, fun pair hpair => isBareKey_of_text (hbare.2 _ ?_), hvalues⟩
  rw [← hkeys]
  exact List.mem_map_of_mem hpair

theorem isWritable_tables (h : settings.FitsToml) : Toml.IsWritableDocument settings.tables := by
  have hnames : settings.tables.map (·.1) = ["project", "analysis", "tracer", "output"] := rfl
  have hbare : ∀ name ∈ ["project", "analysis", "tracer", "output"], isBareText name = true := by
    decide
  have hstring : ∀ s, Toml.IsWritable (Toml.nestingLimit - 1) (.string s) := .string _
  have hboolean : ∀ b, Toml.IsWritable (Toml.nestingLimit - 1) (.boolean b) := .boolean _
  have hinteger : ∀ {n : Nat}, n ≤ 2 ^ 63 - 1 →
      Toml.IsWritable (Toml.nestingLimit - 1) (.integer n) :=
    fun hn => .integer _ (inRange_natural hn)
  refine ⟨by rw [hnames]; decide, fun s hs => isBareKey_of_text (hbare _ ?_), ?_⟩
  · rw [← hnames]
    exact List.mem_map_of_mem hs
  · simp only [tables, List.forall_mem_cons]
    refine ⟨?_, ?_, ?_, ?_, fun _ hmem => absurd hmem List.not_mem_nil⟩
    · refine isWritableTable_of_keys ["repo_root"] rfl (by decide) ?_
      simp [hstring]
    · refine isWritableTable_of_keys ["file_extensions", "max_file_size", "ignore_whitespace",
        "include_untracked", "skip_trivial_hunks"] rfl (by decide) ?_
      simp [hboolean, isWritable_strings, hinteger h.maxFileSize]
    · refine isWritableTable_of_keys ["program", "args", "timeout_ms", "max_session_events"] rfl
        (by decide) ?_
      simp [hstring, isWritable_strings, hinteger h.timeoutMs, hinteger h.maxSessionEvents]
    · refine isWritableTable_of_keys ["artifacts_dir", "write_artifacts"] rfl (by decide) ?_
      simp [hstring, hboolean]

/-! ## Reading -/

theorem strings?_stringsToToml (values : List String) :
    strings? (stringsToToml values) = some values := by
  show (values.map Toml.string).mapM string? = some values
  induction values with
  | nil => rfl
  | cons value values ih =>
    rw [List.map_cons, List.mapM_cons, ih]
    rfl

theorem natural?_integer (n : Nat) : natural? (.integer n) = some n := by
  rw [natural?, if_pos (Int.natCast_nonneg n), Int.toNat_natCast]

theorem part?_cons (position : Nat) (key k : String) (v : Toml) (members : List (String × Toml)) :
    part? position key (.table ((k, v) :: members)) =
      if key = k then some v else part? position key (.table members) := by
  show ((k, v) :: members).lookup key = if key = k then some v else members.lookup key
  rw [List.lookup_cons]
  by_cases h : key = k
  · rw [if_pos h, h, beq_self_eq_true]
  · rw [if_neg h, beq_false_of_ne h]

/-- The settings are found in their tables. -/
theorem ofToml?_tables (settings : Settings) :
    ofToml? (.table (settings.tables.map fun s => (s.1, .table s.2))) = some settings := by
  have hstring : ∀ s, string? (.string s) = some s := fun _ => rfl
  have hboolean : ∀ b, boolean? (.boolean b) = some b := fun _ => rfl
  simp only [tables, List.map_cons, List.map_nil, ofToml?, Project.ofToml?, Analysis.ofToml?,
    Tracer.ofToml?, Output.ofToml?, part?_cons, String.reduceEq, if_true, if_false,
    Option.bind_some, hstring, hboolean, strings?_stringsToToml, natural?_integer]
  rfl

/-- **Settings are read back from their text.** -/
theorem ofText_toText (h : settings.FitsToml) {text : List Char} (htext : settings.toText = .ok text) :
    ofText text = .ok settings := by
  obtain rfl : Toml.writeDocument settings.tables = text :=
    Except.ok.inj ((toText_eq h).symm.trans htext)
  rw [ofText, Toml.ofText_writeDocument (isWritable_tables h)]
  simp only [ofToml?_tables]

/-! ## Files -/

theorem save_eq {text : List Char} (htext : settings.toText = .ok text) (tree : FileTree)
    (file : Path) :
    settings.save tree file =
      ((tree.write file (Text.Utf8.encode text)).1,
        Failure.ofFile (tree.write file (Text.Utf8.encode text)).2) := by
  rw [save, htext, writeText]

theorem withProgram_of_blank {program : Option String}
    (h : ∀ name ∈ program, Text.isBlankText name.toList = true) (settings : Settings) :
    settings.withProgram program = settings := by
  cases program with
  | none => rfl
  | some name => rw [withProgram, if_pos (h name rfl)]

/-- **Saved settings are loaded as they were.** They have a text, and saving them fails only where
no file can be written. When they are loaded, a blank program or none leaves them as they are, and
any other one replaces their program alone. -/
theorem load_save (h : settings.FitsToml) (tree : FileTree) (file : Path) :
    (∃ text, settings.toText = .ok text ∧ ofText text = .ok settings) ∧
      (∀ content, (settings.save tree file).2.isOk = (tree.write file content).2.isOk) ∧
      ∀ after, settings.save tree file = (after, .ok ()) →
        (∀ program : Option String, (∀ name ∈ program, Text.isBlankText name.toList = true) →
          load after program file = .ok settings) ∧
        ∀ name : String, Text.isBlankText name.toList = false →
          load after (some name) file =
            .ok { settings with tracer := { settings.tracer with program := name } } := by
  have htext := toText_eq h
  have hread := ofText_toText h htext
  have hsave := save_eq htext tree file
  generalize Toml.writeDocument settings.tables = text at htext hread hsave
  refine ⟨⟨text, htext, hread⟩, fun content => ?_, fun after hafter => ?_⟩
  · rw [hsave, FileTree.isOk_write tree file content (Text.Utf8.encode text)]
    cases (tree.write file (Text.Utf8.encode text)).2 <;> rfl
  · have hwritten : tree.write file (Text.Utf8.encode text) = (after, .ok ()) := by
      rw [hsave] at hafter
      rcases hwrite : tree.write file (Text.Utf8.encode text) with ⟨written, cause | ⟨⟩⟩
      · rw [hwrite] at hafter
        cases hafter
      · rw [hwrite] at hafter
        obtain ⟨rfl, -⟩ := Prod.mk.inj hafter
        rfl
    have hload : ∀ program, load after program file = .ok (settings.withProgram program) := by
      intro program
      rw [load, FileTree.readText_write hwritten]
      show (ofText text >>= _) = _
      rw [hread]
      rfl
    refine ⟨fun program hblank => ?_, fun name hname => ?_⟩
    · rw [hload, withProgram_of_blank hblank]
    · rw [hload, withProgram, if_neg (by simp [hname])]

/-- Settings with all kinds of characters that a string form has to be chosen for. -/
def odd : Settings :=
  { project := { repoRoot := ⟨""⟩ }
    analysis := { fileExtensions := [], maxFileSize := 2 ^ 63 - 1 }
    tracer := { program := "it's \"py\\thon\"\n", args := ["\t\x01", "\\\x27\x27\x27", "C:\\py"] }
    output := { artifactsDir := ⟨"\r\n\"\"\""⟩ } }

theorem load_save_odd :
    odd.FitsToml ∧ ∃ after, odd.save .empty ⟨"flowlens.toml"⟩ = (after, .ok ()) ∧
      load after (some " \t") ⟨"flowlens.toml"⟩ = .ok odd ∧
      load after (some "python4") ⟨"flowlens.toml"⟩ =
        .ok { odd with tracer := { odd.tracer with program := "python4" } } := by
  have hfits : odd.FitsToml := ⟨by decide, by decide, by decide⟩
  obtain ⟨-, hok, hload⟩ := load_save hfits .empty ⟨"flowlens.toml"⟩
  have hwritable : (FileTree.empty.write ⟨"flowlens.toml"⟩ []).2.isOk = true := by decide
  have hsaved := (hok []).trans hwritable
  rcases hsave : odd.save .empty ⟨"flowlens.toml"⟩ with ⟨after, failure | ⟨⟩⟩
  · rw [hsave] at hsaved
    cases hsaved
  · obtain ⟨hblank, hnamed⟩ := hload after hsave
    refine ⟨hfits, after, rfl, hblank _ ?_, hnamed _ (by decide)⟩
    rintro name ⟨⟩
    decide

end ChangeScope.Settings
