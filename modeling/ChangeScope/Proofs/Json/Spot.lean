import ChangeScope.Proofs.Json.Decode
import ChangeScope.Proofs.Result
import ChangeScope.Proofs.Text.BegunRow

/-!
# Where a part is reported

The first item of an array and the first field of a record that do not fit are reported at their
own place (`decodeText_list_error`, `decodeText_record_error`). The walk along a path comes to the
part of the value to which the path leads (`partAt_spells`), so that place is right in front of the
text of the part or right behind it (`mark_spells`); it is told by the line feeds before it and the
bytes since the last one (`Mark.further_byteLength`).
-/

set_option autoImplicit false

namespace ChangeScope.Json

open ChangeScope.Text (byteLength begunRow)

/-! ## Lines and columns -/

namespace Mark

@[simp] theorem further_zero (m : Mark) (cs : List Char) : m.further 0 cs = m := by
  cases cs with
  | nil => rfl
  | cons c rest => rw [further, if_pos c.utf8Size_pos, Nat.add_zero]

/-- The place behind one more character. -/
def next (m : Mark) (c : Char) : Mark :=
  if c = '\n' then ⟨m.line + 1, 0⟩ else ⟨m.line, m.column + c.utf8Size⟩

theorem further_cons (m : Mark) (c : Char) (count : Nat) (cs : List Char) :
    m.further (c.utf8Size + count) (c :: cs) = (m.next c).further count cs := by
  have hread : ¬c.utf8Size + count < c.utf8Size := by omega
  rw [further, if_neg hread, next]
  by_cases hfeed : c = '\n'
  · have hone : c.utf8Size + count - 1 = count := by
      have hsize : c.utf8Size = 1 := by rw [hfeed]; rfl
      omega
    rw [if_pos hfeed, if_pos hfeed, hone]
  · rw [if_neg hfeed, if_neg hfeed, Nat.add_sub_cancel_left]

/-- A text is read character by character. -/
theorem further_eq_foldl (cs rest : List Char) : ∀ m : Mark,
    m.further (byteLength cs) (cs ++ rest) = cs.foldl next m := by
  induction cs with
  | nil => exact fun m => further_zero m rest
  | cons c cs ih =>
      intro m
      rw [Text.byteLength_cons, List.cons_append, further_cons, ih, List.foldl_cons]

/-- The place behind a text. -/
def behind (cs : List Char) : Mark := ⟨cs.count '\n' + 1, byteLength (begunRow cs)⟩

/-- **A place is told by the line feeds of the text before it and the bytes of its last row.** -/
theorem further_byteLength (cs rest : List Char) :
    start.further (byteLength cs) (cs ++ rest) = behind cs := by
  rw [further_eq_foldl]
  induction cs using List.reverseRecOn with
  | nil => rfl
  | append_singleton cs c ih =>
      rw [List.foldl_append, ih, List.foldl_cons, List.foldl_nil, next]
      unfold behind
      by_cases hfeed : c = '\n'
      · have hrow : begunRow (cs ++ [c]) = [] := by
          rw [hfeed, Text.begunRow_newline]
          rfl
        rw [if_pos hfeed, hrow]
        simp [hfeed]
      · have hrow : begunRow (cs ++ [c]) = begunRow cs ++ [c] :=
          Text.begunRow_append (by simpa using fun heq => hfeed heq.symm) cs
        rw [if_neg hfeed, hrow, Text.byteLength_append]
        simp [hfeed]

end Mark

/-! ## The walk to a part -/

/-- The part of a value to which the numbers of items and members lead. -/
def part? : List Nat → Json → Option Json
  | [], a => some a
  | n :: path, .arr items => items[n]?.bind (part? path)
  | n :: path, .obj members => members[n]?.bind fun m => part? path m.2
  | _ :: _, _ => none

theorem endsNumber_nil : EndsNumber [] := fun _ h => nomatch h

theorem behindValue_spells {a : Json} {cs rest : List Char} (h : Spells a cs)
    (hrest : EndsNumber rest) : behindValue (cs ++ rest) = rest := by
  rw [behindValue, readFirst_spells h hrest]

theorem behindComma_gap {gap : List Char} (h : IsGap gap) (rest : List Char) :
    behindComma (gap ++ ',' :: rest) = rest := by
  unfold behindComma
  rw [skipSpace_gap_cons h (by decide)]
  rfl

/-- A text from a key on, with blanks around the key. -/
def keyText (before : List Char) (key : String) (behind rest : List Char) : List Char :=
  before ++ (writeString key.toList ++ (behind ++ ':' :: rest))

theorem keyText_append (before : List Char) (key : String) (behind cs rest : List Char) :
    keyText before key behind cs ++ rest = keyText before key behind (cs ++ rest) := by
  simp only [keyText, List.append_assoc, List.cons_append]

theorem behindColon_keyText {before behind : List Char} (hbefore : IsGap before)
    (hbehind : IsGap behind) (key : String) (rest : List Char) :
    behindColon (keyText before key behind rest) = rest := by
  have hkey : behindKey (keyText before key behind rest) = ':' :: rest := by
    rw [behindKey, keyText, skipSpace_gap hbefore, writeString, List.append_assoc,
      List.singleton_append, List.cons_append, skipSpace_cons (by decide)]
    simp only [stringAt_written, skipSpace_gap_cons hbehind (show isSpace ':' = false by decide)]
  unfold behindColon
  rw [hkey]
  rfl

/-- A value is spelled in the text, and the walk comes to it whatever follows the text. -/
structure Reaches (walk : List Char → List Char) (text : List Char) (b : Json)
    (before cs after : List Char) : Prop where
  split : text = before ++ (cs ++ after)
  spells : Spells b cs
  ends : ∀ rest, EndsNumber rest → EndsNumber (after ++ rest)
  arrives : ∀ rest, EndsNumber rest → walk (text ++ rest) = cs ++ (after ++ rest)

/-- A walk within the reached value goes on from there. -/
theorem Reaches.trans {walk walk' : List Char → List Char} {text before cs after : List Char}
    {b b' : Json} {before' cs' after' : List Char} (h : Reaches walk text b before cs after)
    (h' : Reaches walk' cs b' before' cs' after') :
    Reaches (walk' ∘ walk) text b' (before ++ before') cs' (after' ++ after) where
  split := by rw [h.split, h'.split]; simp only [List.append_assoc]
  spells := h'.spells
  ends rest hrest := by
    rw [List.append_assoc]
    exact h'.ends _ (h.ends rest hrest)
  arrives rest hrest := by
    rw [Function.comp_apply, h.arrives rest hrest, h'.arrives _ (h.ends rest hrest),
      List.append_assoc]

/-- A walk that begins with what stands in front of a text goes on like the walk in the text. -/
theorem Reaches.behind {walk walk' : List Char → List Char} {text before cs after : List Char}
    {b : Json} (h : Reaches walk text b before cs after) {front : List Char} {c : Char}
    (hwalk : ∀ rest, walk' (front ++ c :: rest) = walk rest) :
    Reaches walk' (front ++ c :: text) b (front ++ c :: before) cs after where
  split := by rw [h.split, List.append_assoc, List.cons_append]
  spells := h.spells
  ends := h.ends
  arrives rest hrest := by
    rw [List.append_assoc, List.cons_append, hwalk, h.arrives rest hrest]

/-- The walk over blanks comes to the value. -/
theorem Spells.reaches_skipSpace {a : Json} {cs : List Char} (h : Spells a cs) :
    ∃ gap core, Reaches skipSpace cs a gap core [] := by
  obtain ⟨gap, c, rest, rfl, hgap, hcore, hspace, -⟩ := h.exists_core
  refine ⟨gap, c :: rest, ?_, hcore, fun _ hrest => hrest, fun after _ => ?_⟩
  · rw [List.append_nil]
  · rw [List.append_assoc, List.cons_append, skipSpace_gap_cons hgap hspace, List.nil_append,
      List.cons_append]

/-- The walk over the items in front comes to an item. -/
theorem reaches_itemAt : ∀ {items : List Json} {item b : Json} {cs ds : List Char} {n : Nat},
    Spells item cs → SpellsItems items ds → (item :: items)[n]? = some b →
    ∃ before core after, Reaches (itemAt n) (cs ++ ds) b before core after
  | items, item, b, cs, ds, 0, hitem, hitems, hb => by
      obtain rfl : item = b := by simpa using hb
      exact ⟨[], cs, ds, rfl, hitem, fun rest _ => hitems.endsNumber rest,
        fun rest _ => List.append_assoc cs ds rest⟩
  | [], _, _, _, _, _ + 1, _, _, hb => by simp at hb
  | next :: items, item, b, cs, _, n + 1, hitem, hitems, hb => by
      cases hitems with
      | @next gap cs' ds' _ _ hgap hnext hitems =>
          obtain ⟨before, core, after, hreaches⟩ :=
            reaches_itemAt hnext hitems (by simpa using hb)
          have hwalk : ∀ rest, itemAt (n + 1) ((cs ++ gap) ++ ',' :: rest) = itemAt n rest := by
            intro rest
            have hends : EndsNumber (gap ++ ',' :: rest) := endsNumber_gap hgap (by simp) _
            rw [List.append_assoc, itemAt, behindValue_spells hitem hends, behindComma_gap hgap]
          have hall := hreaches.behind hwalk
          rw [List.append_assoc] at hall
          exact ⟨_, core, after, hall⟩

/-- The walk over the members in front comes to the value of a member. -/
theorem reaches_memberAt : ∀ {members : List (String × Json)} {key : String} {value b : Json}
    {before behind cs ds : List Char} {n : Nat}, IsGap before → IsGap behind → Spells value cs →
    SpellsMembers members ds → ((key, value) :: members)[n]?.map (·.2) = some b →
    ∃ front core after, Reaches (behindColon ∘ memberAt n)
      (keyText before key behind (cs ++ ds)) b front core after
  | members, key, value, b, before, behind, cs, ds, 0, hbefore, hbehind, hvalue, hmembers, hb => by
      obtain rfl : value = b := by simpa using hb
      refine ⟨keyText before key behind [], cs, ds, ?_, hvalue,
        fun rest _ => hmembers.endsNumber rest, fun rest _ => ?_⟩
      · rw [keyText_append, List.nil_append]
      · rw [keyText_append, Function.comp_apply, memberAt, behindColon_keyText hbefore hbehind,
          List.append_assoc]
  | [], _, _, _, _, _, _, _, _ + 1, _, _, _, _, hb => by simp at hb
  | (key', value') :: members, key, value, b, before, behind, cs, _, n + 1, hbefore, hbehind,
      hvalue, hmembers, hb => by
      cases hmembers with
      | @next gap before' behind' cs' ds' _ _ _ hgap hbefore' hbehind' hvalue' hmembers =>
          obtain ⟨front, core, after, hreaches⟩ :=
            reaches_memberAt hbefore' hbehind' hvalue' hmembers (by simpa using hb)
          have hwalk : ∀ rest,
              memberAt (n + 1) (keyText before key behind (cs ++ gap) ++ ',' :: rest) =
                memberAt n rest := by
            intro rest
            have hends : EndsNumber (gap ++ ',' :: rest) := endsNumber_gap hgap (by simp) _
            rw [keyText_append, List.append_assoc, memberAt, behindColon_keyText hbefore hbehind,
              behindValue_spells hvalue hends, behindComma_gap hgap]
          have hall : Reaches (behindColon ∘ memberAt (n + 1)) _ b _ core after :=
            hreaches.behind fun rest => congrArg behindColon (hwalk rest)
          rw [keyText_append, List.append_assoc] at hall
          exact ⟨_, core, after, hall⟩

/-- **The walk along a path comes to the part to which the path leads.** -/
theorem partAt_spells : ∀ {path : List Nat} {a b : Json} {text : List Char}, Spells a text →
    part? path a = some b → ∃ before cs after, Reaches (partAt path) text b before cs after
  | [], a, b, text, h, hb => by
      obtain rfl : a = b := by simpa [part?] using hb
      obtain ⟨gap, core, hreaches⟩ := h.reaches_skipSpace
      exact ⟨gap, core, [], hreaches⟩
  | n :: path, .arr items, b, text, h, hb => by
      rw [part?] at hb
      cases h with
      | emptyArr hgap hinner => simp at hb
      | @arr gap cs ds item items hgap hitem hitems =>
          obtain ⟨child, hchild, hb⟩ := Option.bind_eq_some_iff.mp hb
          obtain ⟨before, cs', after, hreaches⟩ := reaches_itemAt hitem hitems hchild
          obtain ⟨before', core, after', hinner⟩ := partAt_spells hreaches.spells hb
          have hwalk : ∀ rest, partAt (n :: path) (gap ++ '[' :: rest) =
              (partAt path ∘ itemAt n) rest := by
            intro rest
            rw [partAt, skipSpace_gap_cons hgap (by decide)]
            rfl
          exact ⟨_, core, _, (hreaches.trans hinner).behind hwalk⟩
  | n :: path, .obj members, b, text, h, hb => by
      rw [part?] at hb
      cases h with
      | emptyObj hgap hinner => simp at hb
      | @obj gap before behind cs ds key value members hgap hbefore hbehind hvalue hmembers =>
          obtain ⟨member, hmember, hb⟩ := Option.bind_eq_some_iff.mp hb
          have hvalue' : ((key, value) :: members)[n]?.map (·.2) = some member.2 := by
            rw [hmember, Option.map_some]
          obtain ⟨front, cs', after, hreaches⟩ :=
            reaches_memberAt hbefore hbehind hvalue hmembers hvalue'
          obtain ⟨front', core, after', hinner⟩ := partAt_spells hreaches.spells hb
          have hwalk : ∀ rest, partAt (n :: path) (gap ++ '\x7b' :: rest) =
              (partAt path ∘ (behindColon ∘ memberAt n)) rest := by
            intro rest
            rw [partAt, skipSpace_gap_cons hgap (by decide)]
            rfl
          exact ⟨_, core, _, (hreaches.trans hinner).behind hwalk⟩
  | _ :: _, .null, _, _, _, hb => nomatch hb
  | _ :: _, .bool _, _, _, _, hb => nomatch hb
  | _ :: _, .int _, _, _, _, hb => nomatch hb
  | _ :: _, .float _, _, _, _, hb => nomatch hb
  | _ :: _, .str _, _, _, _, hb => nomatch hb

/-- **A part is reported by the text in front of its own text, or by the text up to its end.** -/
theorem mark_spells {path : List Nat} {a b : Json} {text : List Char} (h : Spells a text)
    (hb : part? path a = some b) :
    ∃ before cs after, text = before ++ (cs ++ after) ∧ Spells b cs ∧
      (Spot.part .before path).mark text = .behind before ∧
      (Spot.part .behind path).mark text = .behind (before ++ cs) := by
  obtain ⟨before, cs, after, hreaches⟩ := partAt_spells h hb
  have hpart := hreaches.arrives [] endsNumber_nil
  have hafter := hreaches.ends [] endsNumber_nil
  rw [List.append_nil] at hpart hafter
  rw [List.append_nil] at hpart
  refine ⟨before, cs, after, hreaches.split, hreaches.spells, ?_, ?_⟩
  · have hread : byteLength text - byteLength (cs ++ after) = byteLength before := by
      rw [hreaches.split, Text.byteLength_append, Nat.add_sub_cancel]
    rw [Spot.mark, Spot.bytesLeft, hpart, hread, hreaches.split, Mark.further_byteLength]
  · have hread : byteLength text - byteLength after = byteLength (before ++ cs) := by
      rw [hreaches.split, ← List.append_assoc, Text.byteLength_append, Nat.add_sub_cancel]
    rw [Spot.mark, Spot.bytesLeft, hpart, behindValue_spells hreaches.spells hafter, hread,
      hreaches.split, ← List.append_assoc, Mark.further_byteLength]

/-! ## What is reported -/

/-- What is wrong in an item or member, behind as many others. -/
theorem later_within {ε : Type} (what : ε) (side : Side) (path : List Nat) (n : Nat) :
    Located.later^[n] (Located.within ⟨what, some (.part side path)⟩) =
      ⟨what, some (.part side (n :: path))⟩ := by
  induction n with
  | zero => rfl
  | succ n ih =>
      rw [Function.iterate_succ_apply', ih]
      rfl

/-! ### Arrays -/

section Items

variable {α : Type} {read : Decode α} {ctx : Context}

/-- Items that fit are passed. -/
theorem listItems_append_error {before rest : List Tree} {e : Located Misfit}
    (h : Decode.listItems read ctx rest = .error e) : ∀ {xs : List α},
    Decode.listItems read ctx before = .ok xs →
      Decode.listItems read ctx (before ++ rest) = .error (Located.later^[before.length] e) := by
  induction before with
  | nil => exact fun _ => h
  | cons item before ih =>
      intro xs hbefore
      obtain ⟨x, hx, hbefore⟩ := ok_of_bind hbefore
      obtain ⟨xs', hxs, -⟩ := ok_of_bind hbefore
      rw [List.cons_append, Decode.listItems, ok_of_mapError hx, ih (ok_of_mapError hxs),
        List.length_cons, Function.iterate_succ_apply']
      rfl

/-- **The first item of an array that does not fit is reported at its place.** -/
theorem decodeText_list_error {before after : List Json} {b : Json} {text : List Char} {xs : List α}
    {misfit : Misfit} {side : Side} {path : List Nat}
    (h : Spells (.arr (before ++ b :: after)) text)
    (hbefore : Decode.listItems read ⟨.text, maxDepth - 1⟩ (itemTrees before) = .ok xs)
    (hb : read ⟨.text, maxDepth - 1⟩ (toTree b) = .error ⟨misfit, some (.part side path)⟩) :
    decodeText (.list read) text =
      .error ⟨misfit, some ((Spot.part side (before.length :: path)).mark text)⟩ := by
  have hrest : Decode.listItems read ⟨.text, maxDepth - 1⟩ (itemTrees (b :: after)) =
      .error (Located.within ⟨misfit, some (.part side path)⟩) := by
    rw [itemTrees, Decode.listItems, hb]
    rfl
  have hitems : Decode.listItems read ⟨.text, maxDepth - 1⟩ (itemTrees (before ++ b :: after)) =
      .error ⟨misfit, some (.part side (before.length :: path))⟩ := by
    rw [← later_within, itemTrees_eq_map, List.map_append, ← itemTrees_eq_map, ← itemTrees_eq_map,
      listItems_append_error hrest hbefore, itemTrees_eq_map, List.length_map]
  refine decodeText_error (e := ⟨misfit, some (.part side (before.length :: path))⟩) h ?_
  show (Decode.listItems read ⟨.text, maxDepth - 1⟩ (itemTrees (before ++ b :: after)) >>= _) = _
  rw [hitems]
  rfl

example : decodeText (.list .bool) "[true,\n null]".toList =
    .error ⟨.wrongType "null" "a boolean", some ⟨2, 5⟩⟩ := by cbv

end Items

/-! ### Records -/

section Fields

variable {σ : Type} {record : Record σ} {ctx : Context}

/-- Members that fit are passed. -/
theorem fillMembers_append_error {rest : List (Except Flaw String × Tree)} {e : Located Misfit}
    {seen' : List String} {s' : σ} (h : record.fillMembers ctx seen' s' rest = .error e) :
    ∀ {before : List (Except Flaw String × Tree)} {seen : List String} {s : σ},
      record.fillMembers ctx seen s before = .ok (seen', s') →
      record.fillMembers ctx seen s (before ++ rest) =
        .error (Located.later^[before.length] e) := by
  intro before
  induction before with
  | nil =>
      intro seen s hbefore
      obtain ⟨rfl, rfl⟩ := Prod.mk.inj (Except.ok.inj hbefore)
      exact h
  | cons member before ih =>
      obtain ⟨key, tree⟩ := member
      intro seen s hbefore
      cases key with
      | error flaw => cases hbefore
      | ok key =>
          rw [Record.fillMembers] at hbefore
          rw [List.cons_append, Record.fillMembers, List.length_cons,
            Function.iterate_succ_apply']
          cases hslot : record.slots.find? (·.goesBy key) with
          | none =>
              simp only [hslot] at hbefore ⊢
              cases hskip : tree.skip with
              | error flaw =>
                  rw [hskip] at hbefore
                  cases hbefore
              | ok _ =>
                  simp only [hskip] at hbefore ⊢
                  rw [ih (ok_of_mapError hbefore)]
                  rfl
          | some slot =>
              simp only [hslot] at hbefore ⊢
              split at hbefore
              · cases hbefore
              · next hseen =>
                  obtain ⟨put, hput, hbefore⟩ := ok_of_bind hbefore
                  rw [if_neg hseen, ok_of_mapError hput]
                  show (record.fillMembers ctx (slot.name :: seen) (put s)
                    (before ++ rest)).mapError Located.later = _
                  rw [ih (ok_of_mapError hbefore)]
                  rfl

/-- **The first field of a record that does not fit is reported at its place.** -/
theorem decodeText_record_error {before after : List (String × Json)} {key : String} {b : Json}
    {text : List Char} {blank s : σ} {seen : List String} {slot : Slot σ} {misfit : Misfit}
    {side : Side} {path : List Nat} (h : Spells (.obj (before ++ (key, b) :: after)) text)
    (hbefore : record.fillMembers ⟨.text, maxDepth - 1⟩ [] blank (memberTrees before) =
      .ok (seen, s))
    (hslot : record.slots.find? (·.goesBy key) = some slot) (hseen : slot.name ∉ seen)
    (hb : slot.read ⟨.text, maxDepth - 1⟩ (toTree b) = .error ⟨misfit, some (.part side path)⟩) :
    decodeText (record.decode blank) text =
      .error ⟨misfit, some ((Spot.part side (before.length :: path)).mark text)⟩ := by
  have hrest : record.fillMembers ⟨.text, maxDepth - 1⟩ seen s (memberTrees ((key, b) :: after)) =
      .error (Located.within ⟨misfit, some (.part side path)⟩) := by
    rw [memberTrees, Record.fillMembers, hslot]
    simp only [List.contains_eq_mem, hseen, decide_false, Bool.false_eq_true, if_false, hb]
    rfl
  have hmembers : record.fillMembers ⟨.text, maxDepth - 1⟩ [] blank
      (memberTrees (before ++ (key, b) :: after)) =
      .error ⟨misfit, some (.part side (before.length :: path))⟩ := by
    rw [← later_within, memberTrees_eq_map, List.map_append, ← memberTrees_eq_map,
      ← memberTrees_eq_map, fillMembers_append_error hrest hbefore, memberTrees_eq_map,
      List.length_map]
  refine decodeText_error (e := ⟨misfit, some (.part side (before.length :: path))⟩) h ?_
  show (record.fillMembers ⟨.text, maxDepth - 1⟩ [] blank
    (memberTrees (before ++ (key, b) :: after)) >>= _) = _
  rw [hmembers]
  rfl

end Fields

end ChangeScope.Json
