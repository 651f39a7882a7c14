import ChangeScope.Proofs.Toml.Quoted
import ChangeScope.Proofs.Toml.Scalar

/-!
# Written values are read back

Strings, integers, truth values and arrays of them are read back up to the end of their item
(`readValue_writeValue`), as far as arrays are not nested too deep.
-/

set_option autoImplicit false

namespace ChangeScope.Toml

variable {c : Char} {cs rest : List Char} {fuel depth : Nat}

/-! ## Filler -/

/-- A character that no filler begins with. -/
structure IsToken (c : Char) : Prop where
  space : isSpace c = false
  line : c ≠ '\n'
  return_ : c ≠ '\r'
  comment : c ≠ '#'

theorem skipBlank_token (h : IsToken c) (cs : List Char) : skipBlank (c :: cs) = c :: cs := by
  rw [skipBlank.eq_3 c cs (fun heq => h.line heq) (fun _ heq => absurd heq h.return_), h.space]
  rfl

theorem skipFiller_of_skipBlank {text : List Char} (h : IsToken c)
    (hblank : skipBlank text = c :: cs) (fuel : Nat) : skipFiller (fuel + 1) text = c :: cs := by
  rw [skipFiller, hblank]
  split
  · next heq => exact absurd (List.cons.inj heq).1 h.comment
  · rfl

theorem skipFiller_token (h : IsToken c) (fuel : Nat) (cs : List Char) :
    skipFiller fuel (c :: cs) = c :: cs := by
  cases fuel with
  | zero => rfl
  | succ fuel => exact skipFiller_of_skipBlank h (skipBlank_token h cs) fuel

theorem skipBlank_line (h : IsToken c) (cs : List Char) : skipBlank ('\n' :: c :: cs) = c :: cs :=
  skipBlank_token h cs

/-- The line of an item begins with four blanks. -/
theorem skipBlank_indent (h : IsToken c) (cs : List Char) :
    skipBlank ("\n    ".toList ++ c :: cs) = c :: cs := by
  show skipBlank (' ' :: ' ' :: ' ' :: ' ' :: c :: cs) = _
  have hspace : ∀ text, skipBlank (' ' :: text) = skipBlank text := fun text => by
    rw [skipBlank.eq_3 ' ' text (by decide) (fun _ heq => absurd heq (by decide))]
    rfl
  rw [hspace, hspace, hspace, hspace, skipBlank_token h]

/-! ## Values that can be written -/

/-- Strings, integers, truth values and arrays of them, nested at most `depth` deep. -/
inductive IsWritable : Nat → Toml → Prop where
  | string (depth : Nat) (s : String) : IsWritable depth (.string s)
  | integer (depth : Nat) {n : Int} : inRange n = true → IsWritable depth (.integer n)
  | boolean (depth : Nat) (b : Bool) : IsWritable depth (.boolean b)
  | array {depth : Nat} {items : List Toml} :
      (∀ item ∈ items, IsWritable depth item) → IsWritable (depth + 1) (.array items)

theorem writeString_head (cs : List Char) :
    ∃ c more, writeString cs = c :: more ∧ (c = '"' ∨ c = '\'') := by
  unfold writeString between
  split
  · split
    · exact ⟨_, _, rfl, .inr rfl⟩
    · split <;> exact ⟨_, _, rfl, .inr rfl⟩
  · split <;> exact ⟨_, _, rfl, .inl rfl⟩

theorem isToken_of_scalarPart (h : isScalarPart c = true) : IsToken c := by
  refine ⟨?_, ?_, ?_, ?_⟩
  · by_contra hspace
    rw [Bool.not_eq_false, isSpace, Bool.or_eq_true, beq_iff_eq, beq_iff_eq] at hspace
    rcases hspace with rfl | rfl <;> exact absurd h (by decide)
  all_goals
    rintro rfl
    exact absurd h (by decide)

/-- A written value begins with a character of its own. -/
theorem writeValue_head {v : Toml} (h : IsWritable depth v) :
    ∃ c more, writeValue v = c :: more ∧ IsToken c ∧ c ≠ ']' := by
  cases h with
  | string _ s =>
    obtain ⟨c, more, heq, rfl | rfl⟩ := writeString_head s.toList
    · exact ⟨_, more, heq, ⟨rfl, by decide, by decide, by decide⟩, by decide⟩
    · exact ⟨_, more, heq, ⟨rfl, by decide, by decide, by decide⟩, by decide⟩
  | @integer _ n _ =>
    obtain ⟨c, more, heq⟩ : ∃ c more, Json.writeInt n = c :: more := by
      unfold Json.writeInt
      split
      · exact ⟨_, _, rfl⟩
      · exact List.exists_cons_of_ne_nil Nat.toDigits_ne_nil
    have hpart := isScalarPart_writeInt n c (by rw [heq]; exact List.mem_cons_self)
    refine ⟨c, more, heq, isToken_of_scalarPart hpart, ?_⟩
    rintro rfl
    exact absurd hpart (by decide)
  | boolean _ b =>
    cases b
    · exact ⟨'f', _, rfl, ⟨rfl, by decide, by decide, by decide⟩, by decide⟩
    · exact ⟨'t', _, rfl, ⟨rfl, by decide, by decide, by decide⟩, by decide⟩
  | @array _ items _ =>
    have htoken : IsToken '[' ∧ '[' ≠ ']' := ⟨⟨rfl, by decide, by decide, by decide⟩, by decide⟩
    match items with
    | [] => exact ⟨'[', _, rfl, htoken⟩
    | [_] => exact ⟨'[', _, rfl, htoken⟩
    | _ :: _ :: _ => exact ⟨'[', _, rfl, htoken⟩

/-! ## Steps of the reader -/

theorem EndsItem.endsString (h : EndsItem rest) : EndsString rest := by
  constructor
  all_goals
    intro hhead
    rcases h _ hhead with heq | heq | heq <;> exact absurd heq (by decide)

theorem readValue_writeString (s : String) (h : EndsItem rest) :
    readValue (fuel + 1) depth (writeString s.toList ++ rest) = some (.string s, rest) := by
  have hread := readString_writeString s.toList h.endsString
  have hvalue : readValue (fuel + 1) depth (writeString s.toList ++ rest) =
      (readString (writeString s.toList ++ rest)).map
        fun found => (.string (String.ofList found.1), found.2) := by
    obtain ⟨c, more, heq, rfl | rfl⟩ := writeString_head s.toList <;> rw [heq] <;> rfl
  rw [hvalue, hread, Option.map_some]
  simp only [String.ofList_toList]

theorem readValue_stretch (hcs : ∀ c ∈ cs, isScalarPart c = true) (hne : cs ≠ [])
    (h : EndsItem rest) :
    readValue (fuel + 1) depth (cs ++ rest) = (scalar cs).map (·, rest) := by
  have hother : ∀ c more, cs ++ rest = c :: more → isScalarPart c = true := by
    intro c more heq
    obtain ⟨d, ds, rfl⟩ := List.exists_cons_of_ne_nil hne
    rw [← (List.cons.inj heq).1]
    exact hcs d List.mem_cons_self
  rw [← readScalar_stretch hcs h]
  refine readValue.eq_8 depth (cs ++ rest) fuel ?_ ?_ ?_ ?_
  all_goals
    intro more heq
    exact absurd (hother _ _ heq) (by decide)

theorem readValue_array (fuel depth : Nat) (cs : List Char) :
    readValue (fuel + 1) (depth + 1) ('[' :: cs) =
      (readItems fuel depth cs).map fun (items, rest) => (.array items, rest) := by
  rw [readValue]

theorem readItems_close {text : List Char} (h : skipFiller text.length text = ']' :: rest) :
    readItems (fuel + 1) depth text = some ([], rest) := by
  rw [readItems, h]
  rfl

/-- An item is read up to the closing bracket or up to a comma. -/
theorem readItems_item {text : List Char} {item : Toml} (htoken : c ≠ ']')
    (htext : skipFiller text.length text = c :: cs)
    (hitem : readValue fuel depth (c :: cs) = some (item, rest)) :
    readItems (fuel + 1) depth text =
      match skipFiller rest.length rest with
      | ']' :: rest => some ([item], rest)
      | ',' :: rest => (readItems fuel depth rest).map fun (items, rest) => (item :: items, rest)
      | _ => none := by
  rw [readItems, htext]
  split
  · next heq => exact absurd (List.cons.inj heq).1 htoken
  · rw [hitem]
    rfl

/-! ## Whole values -/

theorem endsItem_cons (h : c = '\n' ∨ c = ',' ∨ c = ']') : EndsItem (c :: rest) := by
  intro d hd
  rwa [← Option.some.inj hd]

theorem isToken_comma : IsToken ',' := ⟨rfl, by decide, by decide, by decide⟩

theorem isToken_bracket : IsToken ']' := ⟨rfl, by decide, by decide, by decide⟩

/-- A written value is not empty, so there is fuel for it. -/
theorem exists_fuel {v : Toml} (h : IsWritable depth v) (hfuel : (writeValue v).length ≤ fuel) :
    ∃ less, fuel = less + 1 := by
  obtain ⟨c, more, heq, -⟩ := writeValue_head h
  rw [heq, List.length_cons] at hfuel
  exact Nat.exists_eq_add_of_le' (Nat.one_le_of_lt hfuel)

mutual

/-- **A written value is read back** up to the end of its item, with fuel for its length. -/
theorem readValue_writeValue : ∀ (v : Toml) {fuel depth : Nat} {rest : List Char},
    IsWritable depth v → (writeValue v).length ≤ fuel → EndsItem rest →
    readValue fuel depth (writeValue v ++ rest) = some (v, rest)
  | .string s, fuel, depth, rest, h, hfuel, hrest => by
    obtain ⟨fuel, rfl⟩ := exists_fuel h hfuel
    exact readValue_writeString s hrest
  | .integer n, fuel, depth, rest, h, hfuel, hrest => by
    obtain ⟨fuel, rfl⟩ := exists_fuel h hfuel
    obtain ⟨c, more, heq, -⟩ := writeValue_head h
    cases h with
    | integer _ hrange =>
      have hne : Json.writeInt n ≠ [] := by
        rw [show Json.writeInt n = c :: more from heq]
        exact List.cons_ne_nil c more
      show readValue _ _ (Json.writeInt n ++ rest) = _
      rw [readValue_stretch (isScalarPart_writeInt n) hne hrest, scalar_writeInt hrange]
      rfl
  | .boolean true, fuel, depth, rest, h, hfuel, hrest => by
    obtain ⟨fuel, rfl⟩ := exists_fuel h hfuel
    have hread : readValue (fuel + 1) depth ("true".toList ++ rest) = _ :=
      readValue_stretch (by decide) (by decide) hrest
    exact hread
  | .boolean false, fuel, depth, rest, h, hfuel, hrest => by
    obtain ⟨fuel, rfl⟩ := exists_fuel h hfuel
    have hread : readValue (fuel + 1) depth ("false".toList ++ rest) = _ :=
      readValue_stretch (by decide) (by decide) hrest
    exact hread
  | .array [], fuel, depth, rest, h, hfuel, hrest => by
    cases h with
    | array _ =>
      obtain ⟨fuel, rfl⟩ := Nat.exists_eq_add_of_le' (show 2 ≤ fuel from hfuel)
      show readValue (fuel + 1 + 1) _ ('[' :: ']' :: rest) = _
      rw [readValue_array, readItems_close (skipFiller_token isToken_bracket _ _)]
      rfl
  -- one item is written on the line of the brackets, more are written one to a line
  | .array [item], fuel, depth, rest, h, hfuel, hrest => by
    obtain ⟨fuel, rfl⟩ := exists_fuel h hfuel
    cases h with
    | array hitems =>
      have hitem := hitems item List.mem_cons_self
      have hwritten : writeValue (.array [item]) = '[' :: writeValue item ++ [']'] := rfl
      rw [hwritten, List.length_append, List.length_cons, List.length_singleton] at hfuel
      obtain ⟨less, rfl⟩ := exists_fuel hitem (show (writeValue item).length ≤ fuel by omega)
      have hread : readValue less _ (writeValue item ++ ']' :: rest) =
          some (item, ']' :: rest) :=
        readValue_writeValue item hitem (by omega) (endsItem_cons (.inr (.inr rfl)))
      obtain ⟨c, more, heq, htoken, hbracket⟩ := writeValue_head hitem
      rw [heq, List.cons_append] at hread
      rw [hwritten, List.append_assoc, List.cons_append, readValue_array, List.singleton_append,
        heq, List.cons_append, readItems_item hbracket (skipFiller_token htoken _ _) hread,
        skipFiller_token isToken_bracket]
      rfl
  | .array (first :: second :: items), fuel, depth, rest, h, hfuel, hrest => by
    obtain ⟨fuel, rfl⟩ := exists_fuel h hfuel
    cases h with
    | array hitems =>
      have hwritten : writeValue (.array (first :: second :: items)) =
        '[' :: writeItems (first :: second :: items) ++ ['\n', ']'] := rfl
      rw [hwritten, List.length_append, List.length_cons, List.length_cons,
        List.length_singleton] at hfuel
      have hread : readItems fuel _
          (writeItems (first :: second :: items) ++ '\n' :: ']' :: rest) = _ :=
        readItems_writeItems (first :: second :: items) hitems (by omega)
      rw [hwritten, List.append_assoc, List.cons_append, readValue_array]
      show (readItems _ _ (_ ++ '\n' :: ']' :: rest)).map _ = _
      rw [hread]
      rfl
  | .float _, _, _, _, h, _, _ => nomatch h
  | .moment _, _, _, _, h, _, _ => nomatch h
  | .table _, _, _, _, h, _, _ => nomatch h

theorem readItems_writeItems : ∀ (items : List Toml) {fuel depth : Nat} {rest : List Char},
    (∀ item ∈ items, IsWritable depth item) → (writeItems items).length + 2 ≤ fuel →
    readItems fuel depth (writeItems items ++ '\n' :: ']' :: rest) = some (items, rest)
  | [], fuel, depth, rest, _, hfuel => by
    obtain ⟨less, rfl⟩ := Nat.exists_eq_add_of_le' (Nat.le_of_succ_le hfuel)
    exact readItems_close (skipFiller_of_skipBlank isToken_bracket
      (skipBlank_line isToken_bracket rest) _)
  | item :: items, fuel, depth, rest, h, hfuel => by
    obtain ⟨hitem, hitems⟩ := List.forall_mem_cons.mp h
    have hwritten : writeItems (item :: items) =
      "\n    ".toList ++ writeValue item ++ ',' :: writeItems items := rfl
    rw [hwritten, List.length_append, List.length_append, List.length_cons] at hfuel
    obtain ⟨less, rfl⟩ := Nat.exists_eq_add_of_le' (show 1 ≤ fuel by omega)
    have hread : readValue less depth
        (writeValue item ++ ',' :: (writeItems items ++ '\n' :: ']' :: rest)) = _ :=
      readValue_writeValue item hitem (by omega) (endsItem_cons (.inr (.inl rfl)))
    have hmore : readItems less depth (writeItems items ++ '\n' :: ']' :: rest) = _ :=
      readItems_writeItems items hitems (by omega)
    obtain ⟨c, more, heq, htoken, hbracket⟩ := writeValue_head hitem
    rw [heq, List.cons_append] at hread
    have htext : writeItems (item :: items) ++ '\n' :: ']' :: rest = "\n    ".toList ++
        c :: (more ++ ',' :: (writeItems items ++ '\n' :: ']' :: rest)) := by
      rw [hwritten, heq]
      simp only [List.append_assoc, List.cons_append]
    rw [htext, readItems_item hbracket
      (skipFiller_of_skipBlank htoken (skipBlank_indent htoken _) _) hread,
      skipFiller_token isToken_comma]
    simp only [hmore, Option.map_some]

end

end ChangeScope.Toml
