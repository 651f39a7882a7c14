import ChangeScope.FunctionId
import ChangeScope.Proofs.Text

/-!
# Ids and their parts

An id is taken apart at its last separator, which is searched in any text: a file may end with
colons, and these run into the separator behind it. A name that begins with a colon would move the
last separator. With all other names (`IsName`) an id and its parts determine each other
(`ids_determine_parts`).
-/

set_option autoImplicit false

namespace ChangeScope.FunctionId

theorem toList_make (file : Path) (name : String) :
    (make file name).toList = file.text.toList ++ ':' :: ':' :: name.toList := by
  unfold make separator
  rw [String.toList_append, String.toList_append, String.toList_ofList, List.append_assoc]
  rfl

/-! ## Names -/

/-- A name that an id can end in: there is no separator in it, and no colon at its beginning, which
would make a separator with the colon before it. -/
structure IsName (name : String) : Prop where
  ne_empty : name ≠ ""
  no_separator : ¬ separator <:+: name.toList
  no_colon : name.toList.head? ≠ some ':'

/-- A separator that takes the colon before a text takes its first character too. -/
theorem separator_infix_colon {cs : List Char} :
    separator <:+: ':' :: cs ↔ cs.head? = some ':' ∨ separator <:+: cs := by
  have hstarts : separator <+: ':' :: cs ↔ cs.head? = some ':' := by
    cases cs with
    | nil => decide
    | cons c rest => simp [separator, List.cons_prefix_cons, eq_comm]
  rw [List.infix_cons_iff, hstarts]

/-- Where an id is cut last does not depend on its file. -/
theorem cutsLast_make_iff (file : Path) (name : String) :
    Text.CutsLast separator (make file name).toList file.text.toList name.toList ↔
      ¬ separator <:+: name.toList ∧ name.toList.head? ≠ some ':' := by
  rw [toList_make]
  calc Text.CutsLast separator (file.text.toList ++ ':' :: ':' :: name.toList) file.text.toList
        name.toList
      ↔ ¬ separator <:+: ':' :: name.toList := Text.cutsLast_append_iff
    _ ↔ ¬ separator <:+: name.toList ∧ name.toList.head? ≠ some ':' := by
        rw [separator_infix_colon, not_or, and_comm]

/-! ## Taking ids apart -/

/-- The parts of an id stand around its last separator, and none of them is empty. -/
theorem split?_eq_some_iff {id : String} {file : Path} {name : String} :
    split? id = some (file, name) ↔
      Text.CutsLast separator id.toList file.text.toList name.toList ∧ file.text ≠ "" ∧
        name ≠ "" := by
  unfold split?
  constructor
  · intro h
    split at h
    · next before after hcut =>
        split at h
        · exact absurd h (by simp)
        · next hempty =>
            obtain ⟨rfl, rfl⟩ := Prod.mk.inj (Option.some.inj h)
            rw [Bool.or_eq_true, List.isEmpty_iff, List.isEmpty_iff, not_or] at hempty
            rw [String.toList_ofList, String.toList_ofList]
            refine ⟨Text.splitLast_eq_some_iff.mp hcut, ?_, ?_⟩
            · exact fun hfile => hempty.1 (String.ofList_eq_empty_iff.mp hfile)
            · exact fun hname => hempty.2 (String.ofList_eq_empty_iff.mp hname)
    · exact absurd h (by simp)
  · rintro ⟨hcut, hfile, hname⟩
    have hempty : ¬ (file.text.toList.isEmpty || name.toList.isEmpty) = true := by
      rw [Bool.or_eq_true, List.isEmpty_iff, List.isEmpty_iff, String.toList_eq_nil_iff,
        String.toList_eq_nil_iff]
      exact fun h => h.elim hfile hname
    rw [Text.splitLast_eq_some_iff.mpr hcut]
    dsimp only
    rw [if_neg hempty, String.ofList_toList, String.ofList_toList]

/-- An id has no parts just when it has no separator, or nothing on one side of the last one. -/
theorem split?_eq_none_iff {id : String} :
    split? id = none ↔ ¬ separator <:+: id.toList ∨
      ∃ before after, Text.CutsLast separator id.toList before after ∧
        (before = [] ∨ after = []) := by
  unfold split?
  split
  · next before after hfound =>
      have hcut := Text.splitLast_eq_some_iff.mp hfound
      split
      · next hempty =>
          rw [Bool.or_eq_true, List.isEmpty_iff, List.isEmpty_iff] at hempty
          exact ⟨fun _ => .inr ⟨before, after, hcut, hempty⟩, fun _ => rfl⟩
      · next hempty =>
          rw [Bool.or_eq_true, List.isEmpty_iff, List.isEmpty_iff] at hempty
          refine ⟨fun h => absurd h (by simp), ?_⟩
          rintro (hno | ⟨before', after', hcut', hempty'⟩)
          · exact absurd hcut.isInfix hno
          · obtain ⟨rfl, rfl⟩ := hcut.unique hcut'
            exact absurd hempty' hempty
  · next hnone => exact ⟨fun _ => .inl (Text.splitLast_eq_none_iff.mp hnone), fun _ => rfl⟩

/-! ## Back and forth -/

/-- The parts of an id are read back just when the file is not empty and the name is one that an id
can end in. -/
theorem split?_make_iff {file : Path} {name : String} :
    split? (make file name) = some (file, name) ↔ file.text ≠ "" ∧ IsName name := by
  rw [split?_eq_some_iff, cutsLast_make_iff]
  constructor
  · rintro ⟨⟨hseparator, hcolon⟩, hfile, hname⟩
    exact ⟨hfile, hname, hseparator, hcolon⟩
  · rintro ⟨hfile, hname⟩
    exact ⟨⟨hname.no_separator, hname.no_colon⟩, hfile, hname.ne_empty⟩

/-- The parts of an id give the id. -/
theorem make_of_split? {id : String} {file : Path} {name : String}
    (h : split? id = some (file, name)) : make file name = id := by
  rw [← String.toList_inj, toList_make]
  exact (split?_eq_some_iff.mp h).1.cut.symm

/-- **Ids and their parts determine each other.** The parts of an id are read back, whatever colons
the file has or ends with, just when the file is not empty and the name is none that moves the last
separator. The parts that are read from any id give that id, and are such parts. An id has no parts
just when it has no separator, or nothing before or behind the last one. So two pairs of such parts
that differ have different ids. -/
theorem ids_determine_parts :
    (∀ file name,
      split? (make file name) = some (file, name) ↔ file.text ≠ "" ∧ IsName name) ∧
    (∀ id file name, split? id = some (file, name) →
      make file name = id ∧ file.text ≠ "" ∧ IsName name) ∧
    (∀ id, split? id = none ↔ ¬ separator <:+: id.toList ∨
      ∃ before after, Text.CutsLast separator id.toList before after ∧
        (before = [] ∨ after = [])) ∧
    ∀ file name file' name', file.text ≠ "" → IsName name → file'.text ≠ "" → IsName name' →
      make file name = make file' name' → file = file' ∧ name = name' := by
  refine ⟨fun file name => split?_make_iff, fun id file name h => ?_,
    fun id => split?_eq_none_iff, ?_⟩
  · have hid := make_of_split? h
    exact ⟨hid, split?_make_iff.mp (hid ▸ h)⟩
  · intro file name file' name' hfile hname hfile' hname' hid
    have hparts := split?_make_iff.mpr ⟨hfile, hname⟩
    rw [hid, split?_make_iff.mpr ⟨hfile', hname'⟩] at hparts
    obtain ⟨rfl, rfl⟩ := Prod.mk.inj (Option.some.inj hparts)
    exact ⟨rfl, rfl⟩

/-- A name with a colon inside. -/
theorem isName_colon_inside : IsName "run:x" := ⟨by decide, by decide, by decide⟩

/-- Of four colons in a row the last two are the separator. So the file keeps two of them, and the
name gets none from a shorter file; another file has another id. Where the colons end an id there is
no name. -/
theorem ids_determine_parts_colons :
    IsName "run:x" ∧
      make ⟨"C:/a::"⟩ "run:x" = "C:/a::::run:x" ∧
      split? "C:/a::::run:x" = some (⟨"C:/a::"⟩, "run:x") ∧
      make ⟨"C:/a:"⟩ ":run:x" = "C:/a::::run:x" ∧
      split? "C:/a::::run:x" ≠ some (⟨"C:/a:"⟩, ":run:x") ∧
      make ⟨"C:/a:"⟩ "run:x" ≠ "C:/a::::run:x" ∧
      split? "C:/a:::" = none := by
  obtain ⟨hround, -, hnone, hinjective⟩ := ids_determine_parts
  have hid : make ⟨"C:/a::"⟩ "run:x" = "C:/a::::run:x" := by decide
  have hshorter : make ⟨"C:/a:"⟩ ":run:x" = "C:/a::::run:x" := by decide
  have hname := isName_colon_inside
  refine ⟨hname, hid, hid ▸ (hround _ _).mpr ⟨by decide, hname⟩, hshorter, fun h => ?_,
    fun h => ?_, (hnone _).mpr (.inr ⟨"C:/a:".toList, [], ?_, .inr rfl⟩)⟩
  · exact absurd ((hround ⟨"C:/a:"⟩ ":run:x").mp (hshorter ▸ h)).2.no_colon (by decide)
  · obtain ⟨hfile, -⟩ := hinjective ⟨"C:/a:"⟩ "run:x" ⟨"C:/a::"⟩ "run:x" (by decide) hname
      (by decide) hname (h.trans hid.symm)
    exact absurd hfile (by decide)
  · show Text.CutsLast [':', ':'] ("C:/a:".toList ++ ([':', ':'] ++ [])) "C:/a:".toList []
    exact Text.cutsLast_append_iff.mpr (by decide)

end ChangeScope.FunctionId
