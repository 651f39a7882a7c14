import ChangeScope.Json.Printer
import ChangeScope.Proofs.Binary64.Written

/-!
# Written values are told apart

The compact form of a value ends where the text after it begins with a comma or a closing bracket,
so two values whose texts agree up to there are the same value (`write_inj`). Two values are never
written alike (`compact_injective`). A value stands on one line (`newline_not_mem_write`).
-/

set_option autoImplicit false

namespace ChangeScope.Json

/-! ## Strings -/

/-- The value of a hexadecimal digit. -/
def hexValue (c : Char) : Nat := if c.isDigit then c.toNat - 48 else c.toNat - 87

/-- Reads one character between the quotes; there is none at a quote. -/
def readEscaped : List Char → Option (Char × List Char)
  | '\\' :: 'u' :: '0' :: '0' :: h :: l :: rest =>
      some (Char.ofNat (16 * hexValue h + hexValue l), rest)
  | '\\' :: 'b' :: rest => some ('\x08', rest)
  | '\\' :: 'f' :: rest => some ('\x0c', rest)
  | '\\' :: 'n' :: rest => some ('\n', rest)
  | '\\' :: 'r' :: rest => some ('\r', rest)
  | '\\' :: 't' :: rest => some ('\t', rest)
  | '\\' :: c :: rest => some (c, rest)
  | '"' :: _ => none
  | c :: rest => some (c, rest)
  | [] => none

theorem readEscaped_escapeChar (c : Char) (rest : List Char) :
    readEscaped (escapeChar c ++ rest) = some (c, rest) := by
  have hcontrol : ∀ n < 0x20, readEscaped (escapeChar (Char.ofNat n) ++ rest) =
      some (Char.ofNat n, rest) := by
    intro n hn
    interval_cases n <;> rfl
  by_cases hc : c.toNat < 0x20
  · have := hcontrol c.toNat hc
    rwa [Char.ofNat_toNat] at this
  · unfold escapeChar
    split <;> try rfl
    rw [if_neg hc]
    unfold readEscaped
    split <;> simp_all

/-- The quote that ends a string ends no shorter one. -/
theorem escaped_inj {s t r u : List Char}
    (h : s.flatMap escapeChar ++ '"' :: r = t.flatMap escapeChar ++ '"' :: u) :
    s = t ∧ r = u := by
  have hquote : ∀ x, readEscaped ('"' :: x) = none := fun _ => rfl
  -- both texts are read back one character at a time, up to the quote
  induction s generalizing t with
  | nil =>
      cases t with
      | nil => exact ⟨rfl, (List.cons.inj h).2⟩
      | cons d t =>
          have := congrArg readEscaped h
          rw [List.flatMap_nil, List.nil_append, hquote, List.flatMap_cons, List.append_assoc,
            readEscaped_escapeChar] at this
          exact absurd this (by simp)
  | cons c s ih =>
      cases t with
      | nil =>
          have := congrArg readEscaped h
          rw [List.flatMap_nil, List.nil_append, hquote, List.flatMap_cons, List.append_assoc,
            readEscaped_escapeChar] at this
          exact absurd this (by simp)
      | cons d t =>
          have := congrArg readEscaped h
          rw [List.flatMap_cons, List.flatMap_cons, List.append_assoc, List.append_assoc,
            readEscaped_escapeChar, readEscaped_escapeChar] at this
          obtain ⟨hcd, hrest⟩ := Prod.mk.inj (Option.some.inj this)
          obtain ⟨hst, hru⟩ := ih hrest
          exact ⟨by rw [hcd, hst], hru⟩

theorem writeString_inj {s t r u : List Char} (h : writeString s ++ r = writeString t ++ u) :
    s = t ∧ r = u := by
  simp only [writeString, List.cons_append, List.append_assoc, List.nil_append, List.cons.injEq,
    true_and] at h
  exact escaped_inj h

/-! ## Numbers -/

/-- The text after a value: nothing, or what begins with a comma or a closing bracket. -/
def EndsValue (r : List Char) : Prop :=
  ∀ c ∈ r.head?, c = ',' ∨ c = ']' ∨ c = '\x7d'

theorem endsValue_nil : EndsValue [] := fun _ h => by simp at h

/-- A numeric text ends where the text after the value begins. -/
theorem numeric_cut {t u r s : List Char} (ht : ∀ c ∈ t, Binary64.isNumeric c = true)
    (hu : ∀ c ∈ u, Binary64.isNumeric c = true) (hr : EndsValue r) (hs : EndsValue s)
    (h : t ++ r = u ++ s) : t = u ∧ r = s := by
  have hstop : ∀ x, EndsValue x → x.takeWhile Binary64.isNumeric = [] := by
    intro x hx
    cases x with
    | nil => rfl
    | cons c x =>
        rcases hx c rfl with rfl | rfl | rfl <;> rfl
  have hcut : t = u := by
    have := congrArg (List.takeWhile Binary64.isNumeric) h
    rwa [List.takeWhile_append_of_pos ht, List.takeWhile_append_of_pos hu, hstop r hr, hstop s hs,
      List.append_nil, List.append_nil] at this
  subst hcut
  exact ⟨rfl, List.append_cancel_left h⟩

theorem writeInt_eq (n : Int) : writeInt n = (toString n).toList := by
  cases n with
  | ofNat n =>
      rw [show toString (Int.ofNat n) = Nat.repr n from rfl, Nat.toList_repr, writeInt,
        if_neg (show ¬ Int.ofNat n < 0 from Int.not_lt.mpr (Int.natCast_nonneg n))]
      rfl
  | negSucc n =>
      rw [show toString (Int.negSucc n) = "-" ++ Nat.repr (n + 1) from rfl, String.toList_append,
        Nat.toList_repr, writeInt, if_pos (Int.negSucc_lt_zero n)]
      rfl

theorem writeInt_injective {m n : Int} (h : writeInt m = writeInt n) : m = n := by
  rw [writeInt_eq, writeInt_eq] at h
  rw [← Binary64.integerValue_toString m, h, Binary64.integerValue_toString]

theorem isNumeric_writeInt (n : Int) : ∀ c ∈ writeInt n, Binary64.isNumeric c = true := by
  intro c hc
  rw [writeInt_eq] at hc
  exact Binary64.isNumeric_toString hc

theorem writeInt_ne_toText (n : Int) (x : Binary64) : writeInt n ≠ x.toText := by
  intro h
  obtain ⟨c, hc, hmark⟩ := x.exists_mark_toText
  rw [← h, writeInt] at hc
  have hdigit : ∀ d ∈ Nat.toDigits 10 n.natAbs, d.isDigit = true := Text.isDigits_toDigits _
  have hcases : c.isDigit = true ∨ c = '-' := by
    split at hc
    · rcases List.mem_cons.mp hc with rfl | hc
      · exact Or.inr rfl
      · exact Or.inl (hdigit c hc)
    · exact Or.inl (hdigit c hc)
  rcases hmark with rfl | rfl <;> revert hcases <;> decide

/-! ## Values -/

/-- What the first character of a written value says of it. -/
inductive Kind where
  | null
  | bool
  | number
  | str
  | arr
  | obj
deriving DecidableEq

/-- The kind of a value. -/
def kind : Json → Kind
  | .null => .null
  | .bool _ => .bool
  | .int _ => .number
  | .float _ => .number
  | .str _ => .str
  | .arr _ => .arr
  | .obj _ => .obj

/-- The kind of value that begins with a character. -/
def kindAt (c : Char) : Kind :=
  if c = 'n' then .null
  else if c = 't' || c = 'f' then .bool
  else if c = '"' then .str
  else if c = '[' then .arr
  else if c = '\x7b' then .obj
  else .number

theorem kindAt_numeric {c : Char} (h : c.isDigit = true ∨ c = '-') : kindAt c = .number := by
  have hne : ∀ d ∈ ['n', 't', 'f', '"', '[', '\x7b'], c ≠ d := by
    rintro d hd rfl
    simp only [List.mem_cons, List.not_mem_nil, or_false] at hd
    rcases hd with rfl | rfl | rfl | rfl | rfl | rfl <;> revert h <;> decide
  simp only [List.mem_cons, List.not_mem_nil, or_false, forall_eq_or_imp, forall_eq] at hne
  obtain ⟨h1, h2, h3, h4, h5, h6⟩ := hne
  simp [kindAt, h1, h2, h3, h4, h5, h6]

/-- The first character of a written value tells its kind. -/
theorem write_head (a : Json) : ∃ c rest, write a = c :: rest ∧ kindAt c = a.kind := by
  cases a with
  | null => exact ⟨'n', _, rfl, rfl⟩
  | bool b => cases b <;> exact ⟨_, _, rfl, rfl⟩
  | str s => exact ⟨'"', _, rfl, rfl⟩
  | arr items => exact ⟨'[', _, rfl, rfl⟩
  | obj members => exact ⟨'\x7b', _, rfl, rfl⟩
  | int n =>
      obtain ⟨d, rest, hd⟩ := List.exists_cons_of_ne_nil
        (Nat.toDigits_ne_nil (n := n.natAbs) (b := 10))
      have hdigit := Text.isDigits_toDigits n.natAbs d (by rw [hd]; exact List.mem_cons_self)
      simp only [write, writeInt, hd]
      split
      · exact ⟨'-', _, rfl, rfl⟩
      · exact ⟨d, rest, rfl, kindAt_numeric (Or.inl hdigit)⟩
  | float x =>
      obtain ⟨d, rest, hd, hdigit⟩ := x.unsignedText_shape.1
      simp only [write, Binary64.toText_eq, hd, Binary64.signText]
      split
      · exact ⟨'-', _, rfl, rfl⟩
      · exact ⟨d, rest, rfl, kindAt_numeric (Or.inl hdigit)⟩

theorem kind_eq_of_write {a b : Json} {r s : List Char} (h : write a ++ r = write b ++ s) :
    a.kind = b.kind := by
  obtain ⟨c, x, ha, hca⟩ := write_head a
  obtain ⟨d, y, hb, hdb⟩ := write_head b
  rw [ha, hb, List.cons_append, List.cons_append] at h
  rw [← hca, ← hdb, (List.cons.inj h).1]

theorem kind_ne_of_bracket {a : Json} {c : Char} {r s : List Char} (hc : c = ']' ∨ c = '\x7d')
    (h : write a ++ r = c :: s) : a.kind = .number := by
  obtain ⟨d, x, ha, hd⟩ := write_head a
  rw [ha, List.cons_append] at h
  rw [← hd, (List.cons.inj h).1]
  rcases hc with rfl | rfl <;> rfl

/-- No value begins like a bracket that closes. -/
theorem write_ne_bracket {a : Json} {c : Char} {r s : List Char} (hc : c = ']' ∨ c = '\x7d') :
    write a ++ r ≠ c :: s := by
  intro h
  have hnum : ∀ t : List Char, (∀ d ∈ t, Binary64.isNumeric d = true) → t ≠ [] →
      t ++ r ≠ c :: s := by
    intro t ht hne heq
    obtain ⟨d, t, rfl⟩ := List.exists_cons_of_ne_nil hne
    have hd := ht d List.mem_cons_self
    rw [List.cons_append] at heq
    rw [(List.cons.inj heq).1] at hd
    rcases hc with rfl | rfl <;> exact absurd hd (by decide)
  obtain ⟨d, x, ha, -⟩ := write_head a
  have hne : write a ≠ [] := by simp [ha]
  have hk := kind_ne_of_bracket hc h
  cases a with
  | int n => exact hnum _ (isNumeric_writeInt n) hne h
  | float x => exact hnum _ x.isNumeric_toText hne h
  | _ => exact absurd hk (by simp [kind])

/-- The text behind the first item or member, up to the bracket that closes them and on. -/
def afterFirst {α : Type} (write : List α → List Char) (close : Char) (r : List Char) :
    List α → List Char
  | [] => close :: r
  | x :: others => ',' :: (write (x :: others) ++ close :: r)

theorem endsValue_afterFirst {α : Type} (write : List α → List Char) {close : Char}
    (hc : close = ']' ∨ close = '\x7d') (r : List Char) (others : List α) :
    EndsValue (afterFirst write close r others) := by
  rintro c h
  cases others with
  | nil =>
      rw [show c = close by simpa [afterFirst] using h.symm]
      exact Or.inr hc
  | cons x others => exact Or.inl (by simpa [afterFirst] using h.symm)

theorem afterFirst_inj {α : Type} {write : List α → List Char} {close : Char}
    (hc : close = ']' ∨ close = '\x7d') {as bs : List α} {r s : List Char}
    (hwrite : write as ++ close :: r = write bs ++ close :: s → as = bs ∧ r = s)
    (h : afterFirst write close r as = afterFirst write close s bs) : as = bs ∧ r = s := by
  have hcomma : close ≠ ',' := by rcases hc with rfl | rfl <;> decide
  cases as with
  | nil =>
      cases bs with
      | nil => exact ⟨rfl, (List.cons.inj h).2⟩
      | cons b bs => exact absurd (List.cons.inj h).1 hcomma
  | cons a as =>
      cases bs with
      | nil => exact absurd (List.cons.inj h).1.symm hcomma
      | cons b bs => exact hwrite (List.cons.inj h).2

theorem writeItems_append (a : Json) (as : List Json) (r : List Char) :
    writeItems (a :: as) ++ ']' :: r = write a ++ afterFirst writeItems ']' r as := by
  cases as with
  | nil => rfl
  | cons b bs => simp [writeItems, afterFirst]

theorem writeMembers_append (key : String) (a : Json) (ms : List (String × Json))
    (r : List Char) :
    writeMembers ((key, a) :: ms) ++ '\x7d' :: r =
      writeString key.toList ++ ':' :: (write a ++ afterFirst writeMembers '\x7d' r ms) := by
  cases ms with
  | nil => simp [writeMembers, afterFirst]
  | cons m ms => simp [writeMembers, afterFirst]

mutual

/-- **Where two written values end, the values are the same.** -/
theorem write_inj : ∀ (a b : Json) {r s : List Char}, EndsValue r → EndsValue s →
    write a ++ r = write b ++ s → a = b ∧ r = s
  | .null, b, r, s, _, _, h => by
      have hk := kind_eq_of_write h
      cases b with
      | null => exact ⟨rfl, List.append_cancel_left h⟩
      | _ => exact absurd hk (by simp [kind])
  | .bool x, b, r, s, _, _, h => by
      have hk := kind_eq_of_write h
      cases b with
      | bool y => cases x <;> cases y <;> simp_all [write]
      | _ => exact absurd hk (by simp [kind])
  | .int n, b, r, s, hr, hs, h => by
      have hk := kind_eq_of_write h
      cases b with
      | int m =>
          obtain ⟨hnm, hrs⟩ := numeric_cut (isNumeric_writeInt n) (isNumeric_writeInt m) hr hs h
          exact ⟨by rw [writeInt_injective hnm], hrs⟩
      | float y =>
          exact absurd (numeric_cut (isNumeric_writeInt n) y.isNumeric_toText hr hs h).1
            (writeInt_ne_toText n y)
      | _ => exact absurd hk (by simp [kind])
  | .float x, b, r, s, hr, hs, h => by
      have hk := kind_eq_of_write h
      cases b with
      | int m =>
          exact absurd (numeric_cut x.isNumeric_toText (isNumeric_writeInt m) hr hs h).1.symm
            (writeInt_ne_toText m x)
      | float y =>
          obtain ⟨hxy, hrs⟩ := numeric_cut x.isNumeric_toText y.isNumeric_toText hr hs h
          exact ⟨by rw [Binary64.toText_injective hxy], hrs⟩
      | _ => exact absurd hk (by simp [kind])
  | .str x, b, r, s, _, _, h => by
      have hk := kind_eq_of_write h
      cases b with
      | str y =>
          obtain ⟨hxy, hrs⟩ := writeString_inj h
          exact ⟨by rw [String.toList_inj.mp hxy], hrs⟩
      | _ => exact absurd hk (by simp [kind])
  | .arr items, b, r, s, _, _, h => by
      have hk := kind_eq_of_write h
      cases b with
      | arr items' =>
          simp only [write, List.cons_append, List.append_assoc, List.nil_append, List.cons.injEq,
            true_and] at h
          obtain ⟨hitems, hrs⟩ := writeItems_inj items items' h
          exact ⟨by rw [hitems], hrs⟩
      | _ => exact absurd hk (by simp [kind])
  | .obj members, b, r, s, _, _, h => by
      have hk := kind_eq_of_write h
      cases b with
      | obj members' =>
          simp only [write, List.cons_append, List.append_assoc, List.nil_append, List.cons.injEq,
            true_and] at h
          obtain ⟨hmembers, hrs⟩ := writeMembers_inj members members' h
          exact ⟨by rw [hmembers], hrs⟩
      | _ => exact absurd hk (by simp [kind])

theorem writeItems_inj : ∀ (as bs : List Json) {r s : List Char},
    writeItems as ++ ']' :: r = writeItems bs ++ ']' :: s → as = bs ∧ r = s
  | [], [], _, _, h => ⟨rfl, (List.cons.inj h).2⟩
  | [], b :: bs, _, _, h => by
      rw [writeItems_append] at h
      exact absurd h.symm (write_ne_bracket (Or.inl rfl))
  | a :: as, [], _, _, h => by
      rw [writeItems_append] at h
      exact absurd h (write_ne_bracket (Or.inl rfl))
  | a :: as, b :: bs, r, s, h => by
      rw [writeItems_append, writeItems_append] at h
      obtain ⟨rfl, hrest⟩ := write_inj a b (endsValue_afterFirst _ (Or.inl rfl) _ _)
        (endsValue_afterFirst _ (Or.inl rfl) _ _) h
      obtain ⟨hitems, hrs⟩ := afterFirst_inj (Or.inl rfl) (writeItems_inj as bs) hrest
      exact ⟨by rw [hitems], hrs⟩

theorem writeMembers_inj : ∀ (as bs : List (String × Json)) {r s : List Char},
    writeMembers as ++ '\x7d' :: r = writeMembers bs ++ '\x7d' :: s → as = bs ∧ r = s
  | [], [], _, _, h => ⟨rfl, (List.cons.inj h).2⟩
  | [], (key, b) :: bs, _, _, h => by
      rw [writeMembers_append] at h
      exact absurd (List.cons.inj h).1 (by decide)
  | (key, a) :: as, [], _, _, h => by
      rw [writeMembers_append] at h
      exact absurd (List.cons.inj h).1 (by decide)
  | (key, a) :: as, (key', b) :: bs, r, s, h => by
      rw [writeMembers_append, writeMembers_append] at h
      obtain ⟨hkey, hvalue⟩ := writeString_inj h
      obtain ⟨rfl, hrest⟩ := write_inj a b (endsValue_afterFirst _ (Or.inr rfl) _ _)
        (endsValue_afterFirst _ (Or.inr rfl) _ _) (List.cons.inj hvalue).2
      obtain ⟨hmembers, hrs⟩ := afterFirst_inj (Or.inr rfl) (writeMembers_inj as bs) hrest
      exact ⟨by rw [String.toList_inj.mp hkey, hmembers], hrs⟩

end

/-- **Two values are never written alike.** -/
theorem compact_injective {a b : Json} (h : a.compact = b.compact) : a = b := by
  have htext : write a ++ [] = write b ++ [] := by
    rw [List.append_nil, List.append_nil]
    exact String.ofList_injective h
  exact (write_inj a b endsValue_nil endsValue_nil htext).1

/-! ## One line -/

theorem newline_not_mem_escapeChar (c : Char) : '\n' ∉ escapeChar c := by
  have hcontrol : ∀ n < 0x20, '\n' ∉ escapeChar (Char.ofNat n) := by
    intro n hn
    interval_cases n <;> decide
  by_cases hc : c.toNat < 0x20
  · have := hcontrol c.toNat hc
    rwa [Char.ofNat_toNat] at this
  · have hne : '\n' ≠ c := by
      rintro rfl
      exact hc (by decide)
    unfold escapeChar
    split <;> try decide
    rw [if_neg hc]
    simpa using hne

theorem newline_not_mem_writeString (cs : List Char) : '\n' ∉ writeString cs := by
  simp [writeString, newline_not_mem_escapeChar]

mutual

/-- **A written value has no line feed.** -/
theorem newline_not_mem_write : ∀ a : Json, '\n' ∉ write a
  | .null => by decide
  | .bool true => by decide
  | .bool false => by decide
  | .int n => fun h => absurd (isNumeric_writeInt n _ h) (by decide)
  | .float x => fun h => absurd (x.isNumeric_toText _ h) (by decide)
  | .str s => newline_not_mem_writeString s.toList
  | .arr items => by
      have hitems := newline_not_mem_writeItems items
      simp [write, hitems]
  | .obj members => by
      have hmembers := newline_not_mem_writeMembers members
      simp [write, hmembers]

theorem newline_not_mem_writeItems : ∀ items : List Json, '\n' ∉ writeItems items
  | [] => List.not_mem_nil
  | [item] => newline_not_mem_write item
  | item :: next :: rest => by
      have hitem := newline_not_mem_write item
      have hrest := newline_not_mem_writeItems (next :: rest)
      simp [writeItems, hitem, hrest]

theorem newline_not_mem_writeMembers :
    ∀ members : List (String × Json), '\n' ∉ writeMembers members
  | [] => List.not_mem_nil
  | [(key, value)] => by
      have hkey := newline_not_mem_writeString key.toList
      have hvalue := newline_not_mem_write value
      simp [writeMembers, hkey, hvalue]
  | (key, value) :: next :: rest => by
      have hkey := newline_not_mem_writeString key.toList
      have hvalue := newline_not_mem_write value
      have hrest := newline_not_mem_writeMembers (next :: rest)
      simp [writeMembers, hkey, hvalue, hrest]

end

end ChangeScope.Json
