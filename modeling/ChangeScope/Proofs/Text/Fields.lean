import ChangeScope.Proofs.Text

/-!
# Fields, lines and words

The fields of a text that is put together of parts with separators are the fields of the parts
(`fields_join`). So the lines of some rows, each with a line feed, are the rows
(`lines_textOfRows`).
-/

set_option autoImplicit false

namespace ChangeScope.Text

/-! ## Fields -/

theorem fields_ne_nil (p : Char → Bool) (cs : List Char) : fields p cs ≠ [] := by
  cases cs with
  | nil => exact List.cons_ne_nil _ _
  | cons c rest =>
      rw [fields]
      split
      · exact List.cons_ne_nil _ _
      · split <;> exact List.cons_ne_nil _ _

theorem fields_cons {p : Char → Bool} (c : Char) (rest : List Char) :
    ∃ field others, fields p rest = field :: others ∧
      fields p (c :: rest) = if p c then [] :: field :: others else (c :: field) :: others := by
  cases hrest : fields p rest with
  | nil => exact absurd hrest (fields_ne_nil p rest)
  | cons field others => exact ⟨field, others, rfl, by rw [fields, hrest]⟩

/-- A separator ends a field. -/
theorem fields_append {p : Char → Bool} {c : Char} (hc : p c = true) (a b : List Char) :
    fields p (a ++ c :: b) = fields p a ++ fields p b := by
  induction a with
  | nil =>
      obtain ⟨field, others, hb, hcons⟩ := fields_cons (p := p) c b
      rw [List.nil_append, hcons, if_pos hc, hb]
      rfl
  | cons d a ih =>
      obtain ⟨field, others, ha, hcons⟩ := fields_cons (p := p) d a
      obtain ⟨field', others', ha', hcons'⟩ := fields_cons (p := p) d (a ++ c :: b)
      rw [ih, ha, List.cons_append] at ha'
      obtain ⟨rfl, rfl⟩ := List.cons.inj ha'
      rw [List.cons_append, hcons, hcons']
      split <;> rfl

/-- A field and the separators fit into the text. -/
theorem length_field_le {p : Char → Bool} {cs field : List Char} (h : field ∈ fields p cs) :
    field.length + cs.countP p ≤ cs.length := by
  induction cs generalizing field with
  | nil =>
      obtain rfl := List.mem_singleton.mp h
      exact Nat.le_refl 0
  | cons c rest ih =>
      obtain ⟨first, others, hrest, hcons⟩ := fields_cons (p := p) c rest
      rw [hrest] at ih
      rw [hcons] at h
      rw [List.countP_cons, List.length_cons]
      by_cases hc : p c = true
      · -- a separator is counted, and the field before it is empty
        rw [if_pos hc] at h
        rw [if_pos hc]
        rcases List.mem_cons.mp h with rfl | h
        · have hcount := List.countP_le_length (p := p) (l := rest)
          rw [List.length_nil]
          omega
        · have hlater := ih h
          omega
      · rw [if_neg hc] at h
        rw [if_neg hc]
        rcases List.mem_cons.mp h with rfl | h
        · have hfirst := ih List.mem_cons_self
          rw [List.length_cons]
          omega
        · have hlater := ih (List.mem_cons_of_mem first h)
          omega

/-- A field has characters of the text, and no separator. -/
theorem of_mem_field {p : Char → Bool} {cs field : List Char} (h : field ∈ fields p cs) {c : Char}
    (hc : c ∈ field) : c ∈ cs ∧ p c = false := by
  induction cs generalizing field with
  | nil =>
      obtain rfl := List.mem_singleton.mp h
      exact absurd hc List.not_mem_nil
  | cons d rest ih =>
      obtain ⟨first, others, hrest, hcons⟩ := fields_cons (p := p) d rest
      rw [hrest] at ih
      rw [hcons] at h
      have hlater : field ∈ first :: others → c ∈ d :: rest ∧ p c = false := fun hfield =>
        ⟨List.mem_cons_of_mem d (ih hfield hc).1, (ih hfield hc).2⟩
      split at h
      · rcases List.mem_cons.mp h with rfl | h
        · exact absurd hc List.not_mem_nil
        · exact hlater h
      · next hd =>
          rcases List.mem_cons.mp h with rfl | h
          · rcases List.mem_cons.mp hc with rfl | hc
            · exact ⟨List.mem_cons_self, by simpa using hd⟩
            · have hfirst := ih List.mem_cons_self hc
              exact ⟨List.mem_cons_of_mem d hfirst.1, hfirst.2⟩
          · exact hlater (List.mem_cons_of_mem first h)

/-- A character that does not separate fields lies in one. -/
theorem exists_field {p : Char → Bool} {cs : List Char} {c : Char} (h : c ∈ cs)
    (hc : p c = false) : ∃ field ∈ fields p cs, c ∈ field := by
  induction cs with
  | nil => exact absurd h List.not_mem_nil
  | cons d rest ih =>
      obtain ⟨first, others, hrest, hcons⟩ := fields_cons (p := p) d rest
      rw [hcons]
      rw [hrest] at ih
      rcases List.mem_cons.mp h with rfl | h
      · rw [hc, if_neg Bool.false_ne_true]
        exact ⟨c :: first, List.mem_cons_self, List.mem_cons_self⟩
      · obtain ⟨field, hfield, hin⟩ := ih h
        split
        · exact ⟨field, List.mem_cons_of_mem _ hfield, hin⟩
        · rcases List.mem_cons.mp hfield with rfl | hfield
          · exact ⟨d :: field, List.mem_cons_self, List.mem_cons_of_mem d hin⟩
          · exact ⟨field, List.mem_cons_of_mem _ hfield, hin⟩

/-- A text without separators is one field. -/
theorem fields_plain {p : Char → Bool} {cs : List Char} (h : ∀ c ∈ cs, p c = false) :
    fields p cs = [cs] := by
  induction cs with
  | nil => rfl
  | cons c rest ih =>
      rw [fields, ih fun d hd => h d (List.mem_cons_of_mem c hd)]
      show (if p c then _ else _) = _
      rw [h c List.mem_cons_self, if_neg Bool.false_ne_true]

/-- The last field ends as the text does. -/
theorem getLast?_fields {p : Char → Bool} {cs : List Char} {c : Char} (hlast : cs.getLast? = some c)
    (hc : p c = false) :
    ∃ field, (fields p cs).getLast? = some field ∧ field.getLast? = some c := by
  induction cs with
  | nil => exact absurd hlast (by simp)
  | cons d rest ih =>
      obtain ⟨first, others, hrest, hcons⟩ := fields_cons (p := p) d rest
      cases rest with
      | nil =>
          obtain rfl : d = c := by simpa using hlast
          exact ⟨[d], by rw [fields_plain (by simpa using hc)]; rfl, rfl⟩
      | cons e rest =>
          rw [List.getLast?_cons_cons] at hlast
          obtain ⟨field, hfield, hend⟩ := ih hlast
          rw [hrest] at hfield
          rw [hcons]
          split
          · exact ⟨field, by rwa [List.getLast?_cons_cons], hend⟩
          · cases others with
            | nil =>
                obtain rfl : first = field := by simpa using hfield
                refine ⟨d :: first, rfl, ?_⟩
                rw [List.getLast?_cons, hend]
                rfl
            | cons next others =>
                rw [List.getLast?_cons_cons] at hfield
                exact ⟨field, by rwa [List.getLast?_cons_cons], hend⟩

/-- The fields of the fields for two kinds of separators are the fields for both kinds. -/
theorem fields_fields (p q : Char → Bool) (cs : List Char) :
    (fields p cs).flatMap (fields q) = fields (fun c => p c || q c) cs := by
  induction cs with
  | nil => rfl
  | cons c rest ih =>
      obtain ⟨first, others, hrest, hcons⟩ := fields_cons (p := p) c rest
      obtain ⟨field, more, hboth, hcons'⟩ := fields_cons (p := fun c => p c || q c) c rest
      obtain ⟨inner, later, hfirst, hinner⟩ := fields_cons (p := q) c first
      rw [hrest, List.flatMap_cons, hfirst, hboth, List.cons_append] at ih
      obtain ⟨rfl, rfl⟩ := List.cons.inj ih
      rw [hcons, hcons']
      by_cases hp : p c = true
      · rw [if_pos hp, if_pos (by rw [hp]; rfl), List.flatMap_cons, List.flatMap_cons, hfirst]
        rfl
      · rw [if_neg hp, List.flatMap_cons, hinner]
        by_cases hq : q c = true
        · rw [if_pos hq, if_pos (by rw [hq, Bool.or_true])]
          rfl
        · rw [if_neg hq, if_neg (by simp [hp, hq])]
          rfl

/-- What follows without separators belongs to the last field. -/
theorem fields_append_plain {p : Char → Bool} {b : List Char} (hb : ∀ c ∈ b, p c = false)
    (a : List Char) :
    ∃ init last, fields p a = init ++ [last] ∧ fields p (a ++ b) = init ++ [last ++ b] := by
  induction a with
  | nil => exact ⟨[], [], rfl, fields_plain hb⟩
  | cons c a ih =>
      obtain ⟨init, last, ha, hab⟩ := ih
      obtain ⟨first, others, hrest, hcons⟩ := fields_cons (p := p) c a
      obtain ⟨first', others', hrest', hcons'⟩ := fields_cons (p := p) c (a ++ b)
      rw [ha] at hrest
      rw [hab] at hrest'
      rw [List.cons_append, hcons, hcons', ← hrest, ← hrest']
      by_cases hp : p c = true
      · exact ⟨[] :: init, last, if_pos hp, if_pos hp⟩
      · rw [if_neg hp, if_neg hp]
        cases init with
        | nil =>
            obtain ⟨rfl, rfl⟩ := List.cons.inj hrest
            obtain ⟨rfl, rfl⟩ := List.cons.inj hrest'
            exact ⟨[], c :: last, rfl, rfl⟩
        | cons field init =>
            obtain ⟨rfl, rfl⟩ := List.cons.inj hrest
            obtain ⟨rfl, rfl⟩ := List.cons.inj hrest'
            exact ⟨(c :: field) :: init, last, rfl, rfl⟩

/-! ## Joined texts -/

theorem join_cons_cons {sep : Char} (row next : List Char) (others : List (List Char)) :
    join [sep] (row :: next :: others) = row ++ sep :: join [sep] (next :: others) := by
  simp [join, List.intercalate]

theorem join_cons {sep : Char} (first : List Char) (others : List (List Char)) :
    join [sep] (first :: others) = first ++ others.flatMap (sep :: ·) := by
  induction others generalizing first with
  | nil => rfl
  | cons next others ih => rw [join_cons_cons, ih, List.flatMap_cons, List.cons_append]

/-- Texts at the end come after a separator each. -/
theorem join_append_left {sep : Char} {a : List (List Char)} (ha : a ≠ []) (b : List (List Char)) :
    join [sep] (a ++ b) = join [sep] a ++ b.flatMap (sep :: ·) := by
  obtain ⟨first, rest, rfl⟩ := List.exists_cons_of_ne_nil ha
  rw [List.cons_append, join_cons, join_cons, List.flatMap_append, List.append_assoc]

theorem join_modifyHead {sep : Char} {ps : List (List Char)} (hps : ps ≠ []) (u : List Char) :
    join [sep] (ps.modifyHead (u ++ ·)) = u ++ join [sep] ps := by
  match ps, hps with
  | [p], _ => simp [join]
  | p :: q :: ps, _ =>
      rw [List.modifyHead_cons, join_cons_cons, join_cons_cons, List.append_assoc]

theorem mem_join {sep : Char} {ls : List (List Char)} {c : Char} (h : c ∈ join [sep] ls) :
    c = sep ∨ ∃ l ∈ ls, c ∈ l := by
  cases ls with
  | nil => exact absurd h (by simp [join])
  | cons first others =>
      rw [join_cons] at h
      rcases List.mem_append.mp h with h | h
      · exact .inr ⟨first, List.mem_cons_self, h⟩
      · obtain ⟨l, hl, h⟩ := List.mem_flatMap.mp h
        exact (List.mem_cons.mp h).imp id fun h => ⟨l, List.mem_cons_of_mem first hl, h⟩

/-- Texts joined by a separator that none of them holds are its fields. -/
theorem fields_join {sep : Char} {ls : List (List Char)} (hne : ls ≠ []) (h : ∀ l ∈ ls, sep ∉ l) :
    fields (· == sep) (join [sep] ls) = ls := by
  induction ls with
  | nil => exact absurd rfl hne
  | cons row others ih =>
      have hrow : ∀ c ∈ row, (c == sep) = false := by
        intro c hc
        rw [beq_eq_false_iff_ne]
        rintro rfl
        exact h row List.mem_cons_self hc
      cases others with
      | nil =>
          show fields _ (row ++ []) = [row]
          rw [List.append_nil]
          exact fields_plain hrow
      | cons next others =>
          have hothers := ih (List.cons_ne_nil _ _) fun l hl => h l (List.mem_cons_of_mem row hl)
          rw [join_cons_cons, fields_append (p := (· == sep)) (beq_self_eq_true sep),
            fields_plain hrow, hothers]
          rfl

/-! ## Lines -/

/-- The text of some rows, each with a line feed. -/
def textOfRows (rows : List (List Char)) : List Char := rows.flatMap (· ++ ['\n'])

theorem rows_textOfRows {lines : List (List Char)} (h : ∀ line ∈ lines, '\n' ∉ line) :
    rows (textOfRows lines) = lines ++ [[]] := by
  induction lines with
  | nil => rfl
  | cons line lines ih =>
      have hline : ∀ c ∈ line, (c == '\n') = false := by
        intro c hc
        rw [beq_eq_false_iff_ne]
        rintro rfl
        exact h line List.mem_cons_self hc
      have htext : textOfRows (line :: lines) = line ++ '\n' :: textOfRows lines := by
        unfold textOfRows
        rw [List.flatMap_cons, List.append_assoc, List.singleton_append]
      rw [htext]
      unfold rows at ih ⊢
      rw [fields_append rfl, fields_plain hline, ih fun l hl => h l (List.mem_cons_of_mem line hl)]
      rfl

theorem linesOfRows_append (lines : List (List Char)) :
    linesOfRows (lines ++ [[]]) = lines.map dropReturn := by
  induction lines with
  | nil => rfl
  | cons line lines ih =>
      obtain ⟨next, others, hcons⟩ : ∃ next others, lines ++ [[]] = next :: others :=
        List.exists_cons_of_ne_nil (List.append_ne_nil_of_right_ne_nil lines (List.cons_ne_nil _ _))
      rw [List.cons_append, List.map_cons, ← ih, hcons, linesOfRows]
      intro hnil
      exact absurd hnil (List.cons_ne_nil next others)

/-- **The lines of rows are the rows**, but for a carriage return at an end. -/
theorem lines_textOfRows {lines : List (List Char)} (h : ∀ line ∈ lines, '\n' ∉ line) :
    Text.lines (textOfRows lines) = lines.map dropReturn := by
  unfold Text.lines
  rw [rows_textOfRows h, linesOfRows_append]

/-- A carriage return goes only from the end. -/
theorem dropReturn_append {a : List Char} (ha : a.getLast? ≠ some '\r') (b : List Char) :
    dropReturn (a ++ b) = a ++ dropReturn b := by
  rcases List.eq_nil_or_concat' b with rfl | ⟨b', c, rfl⟩
  · unfold dropReturn
    rw [List.append_nil, if_neg ha]
    exact (List.append_nil a).symm
  · unfold dropReturn
    rw [← List.append_assoc, List.getLast?_concat, List.getLast?_concat]
    by_cases hc : some c = some '\r'
    · rw [if_pos hc, if_pos hc, List.dropLast_concat, List.dropLast_concat]
    · rw [if_neg hc, if_neg hc, List.append_assoc]

/-! ## Words -/

/-- The first word ends at the first blank. -/
theorem words_head {word : List Char} (hne : word ≠ []) (hword : ∀ c ∈ word, isBlank c = false)
    {blank : Char} (hblank : isBlank blank = true) (rest : List Char) :
    (words (word ++ blank :: rest)).head? = some word := by
  unfold words
  rw [fields_append hblank, fields_plain hword, List.singleton_append, List.filter_cons_of_pos]
  · rfl
  · simp [hne]

end ChangeScope.Text
