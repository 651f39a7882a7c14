import ChangeScope.Proofs.Python.ImportLayout
import ChangeScope.Proofs.Text.Lines
import ChangeScope.Proofs.Text.Words

/-!
# Import statements on one line

Before an import statement is taken apart it is put on one line: each line end reads as a space,
comments go, and backslashes and parentheses read as spaces. A written statement has the same tokens
on that line, and gaps of white space between them (`ImportStatement.oneLine_text`).
-/

set_option autoImplicit false

namespace ChangeScope.Python

open ChangeScope.Text

/-! ## One line -/

/-- A backslash and a parenthesis read as a blank. -/
def unmark (c : Char) : Char := if c == '\\' || c == '(' || c == ')' then ' ' else c

/-- The statement on one line without comments, before its ends are trimmed. -/
def oneLine (text : List Char) : List Char :=
  (join [' '] ((lines text).map fun row => row.takeWhile (· != '#'))).map unmark

theorem plainImport_eq (text : List Char) :
    plainImport text = trim (dropTrailing (· == ';') (trim (oneLine text))) := rfl

/-- A line that ends. -/
theorem lines_row {row : List Char} (hfeed : '\n' ∉ row) (hreturn : '\r' ∉ row) (stop : LineEnd)
    (rest : List Char) : lines (row ++ (stop.text ++ rest)) = row :: lines rest := by
  cases stop with
  | feed =>
      have hself : dropReturn row = row :=
        if_neg fun hlast => hreturn (List.mem_of_getLast? hlast)
      have hlines := lines_append_newline hfeed rest
      rw [hself] at hlines
      exact hlines
  | returnFeed =>
      have hdrop : dropReturn (row ++ ['\r']) = row := by
        unfold dropReturn
        rw [if_pos List.getLast?_concat, List.dropLast_concat]
      have hnot : '\n' ∉ row ++ ['\r'] := by simpa using hfeed
      have hlines := lines_append_newline hnot rest
      rw [hdrop, List.append_assoc] at hlines
      exact hlines

theorem oneLine_cons {c : Char} (hfeed : c ≠ '\n') (hreturn : c ≠ '\r') (hmark : c ≠ '#')
    (rest : List Char) : oneLine (c :: rest) = unmark c :: oneLine rest := by
  have hcut : ∀ row, (c :: row).takeWhile (· != '#') = c :: row.takeWhile (· != '#') := fun row =>
    List.takeWhile_cons_of_pos (by simpa using hmark)
  unfold oneLine
  rw [lines_cons hfeed hreturn, List.map_cons, hcut]
  cases lines rest with
  | nil => rfl
  | cons row others =>
      rw [List.headD_cons, List.tail_cons, List.map_cons, join_cons, join_cons]
      rfl

/-- The end of a line is a space. -/
theorem oneLine_row (row : List Char) (hfeed : '\n' ∉ row) (hreturn : '\r' ∉ row) (stop : LineEnd)
    {rest : List Char} (hrest : rest ≠ []) :
    oneLine (row ++ (stop.text ++ rest)) =
      (row.takeWhile (· != '#')).map unmark ++ ' ' :: oneLine rest := by
  obtain ⟨next, others, hlines⟩ := List.exists_cons_of_ne_nil (lines_ne_nil hrest)
  unfold oneLine
  rw [lines_row hfeed hreturn, hlines, List.map_cons, List.map_cons, join_cons_cons,
    List.map_append, List.map_cons]
  rfl

/-! ## Gaps on one line -/

/-- What a gap item leaves on one line. -/
def Space.shown : Space → List Char
  | .blank c => [c]
  | .joined _ => [' ', ' ']
  | .broken _ | .comment _ _ => [' ']

def Gap.shown (gap : Gap) : List Char := gap.flatMap Space.shown

theorem Space.oneLine_text {inside : Bool} {s : Space} (h : s.IsAllowed inside) {rest : List Char}
    (hrest : rest ≠ []) : oneLine (s.text ++ rest) = s.shown ++ oneLine rest := by
  cases s with
  | blank c =>
      rcases h with rfl | rfl | rfl <;> exact oneLine_cons (by decide) (by decide) (by decide) rest
  | joined stop => exact oneLine_row ['\\'] (by decide) (by decide) stop hrest
  | broken stop => exact oneLine_row [] (by decide) (by decide) stop hrest
  | comment text stop =>
      obtain ⟨-, hfeed, hreturn⟩ := h
      have hrow := oneLine_row ('#' :: text) (by simpa using hfeed) (by simpa using hreturn) stop
        hrest
      rw [List.takeWhile_cons_of_neg (by decide)] at hrow
      have htext : (Space.comment text stop).text ++ rest = '#' :: text ++ (stop.text ++ rest) := by
        simp [Space.text]
      rw [htext]
      exact hrow

theorem Space.shown_blank {inside : Bool} {s : Space} (h : s.IsAllowed inside) :
    ∀ c ∈ s.shown, isBlank c = true := by
  cases s with
  | blank c => rcases h with rfl | rfl | rfl <;> decide
  | joined stop =>
      show ∀ c ∈ [' ', ' '], isBlank c = true
      decide
  | broken stop =>
      show ∀ c ∈ [' '], isBlank c = true
      decide
  | comment text stop =>
      show ∀ c ∈ [' '], isBlank c = true
      decide

theorem Space.shown_ne_nil (s : Space) : s.shown ≠ [] := by
  cases s <;> exact List.cons_ne_nil _ _

theorem Gap.shown_blank {inside : Bool} {g : Gap} (h : g.IsAllowed inside) :
    ∀ c ∈ Gap.shown g, isBlank c = true := by
  intro c hc
  obtain ⟨s, hs, hc⟩ := List.mem_flatMap.mp hc
  exact Space.shown_blank (h s hs) c hc

theorem Gap.shown_ne_nil {g : Gap} (h : g ≠ []) : Gap.shown g ≠ [] := by
  obtain ⟨s, g, rfl⟩ := List.exists_cons_of_ne_nil h
  exact List.append_ne_nil_of_left_ne_nil s.shown_ne_nil _

/-- A gap opens with a space on one line just when its first item is one. -/
theorem Gap.head?_shown (g : Gap) :
    (Gap.shown g).head? = some ' ' ↔ g.head?.any Space.isSpace = true := by
  cases g with
  | nil => decide
  | cons s g => cases s <;> simp [Gap.shown, Space.shown, Space.isSpace]

/-- A gap ends with a space on one line just when its last item is one. -/
theorem Gap.getLast?_shown (g : Gap) :
    (Gap.shown g).getLast? = some ' ' ↔ g.getLast?.any Space.isSpace = true := by
  rcases List.eq_nil_or_concat' g with rfl | ⟨init, s, rfl⟩
  · decide
  · have hlast : (Gap.shown (init ++ [s])).getLast? = s.shown.getLast? := by
      unfold Gap.shown
      rw [List.flatMap_append, List.flatMap_singleton, List.getLast?_append_of_ne_nil _
        s.shown_ne_nil]
    rw [hlast, List.getLast?_concat]
    cases s <;> simp [Space.shown, Space.isSpace]

/-- A gap between two texts ends a word, unless it is empty. -/
theorem words_gap {inside : Bool} {g : Gap} (h : g.IsAllowed inside) (a b : List Char) :
    words (a ++ (Gap.shown g ++ b)) = if g = [] then words (a ++ b) else words a ++ words b := by
  split
  · next hnil =>
      rw [hnil]
      rfl
  · next hne => exact words_append_blanks (Gap.shown_ne_nil hne) (Gap.shown_blank h) a b

/-! ## Texts on one line -/

/-- The text is the line without comments, whatever follows. -/
def Reads (text line : List Char) : Prop := ∀ rest, oneLine (text ++ rest) = line ++ oneLine rest

/-- The text is the line without comments when more follows. -/
def ReadsOn (text line : List Char) : Prop :=
  ∀ rest, rest ≠ [] → oneLine (text ++ rest) = line ++ oneLine rest

theorem Reads.on {a b : List Char} (h : Reads a b) : ReadsOn a b := fun rest _ => h rest

theorem Reads.append {a b a' b' : List Char} (h : Reads a b) (h' : Reads a' b') :
    Reads (a ++ a') (b ++ b') := by
  intro rest
  rw [List.append_assoc, List.append_assoc, h, h']

theorem ReadsOn.append {a b a' b' : List Char} (h : ReadsOn a b) (h' : ReadsOn a' b') :
    ReadsOn (a ++ a') (b ++ b') := by
  intro rest hrest
  rw [List.append_assoc, List.append_assoc, h _ (List.append_ne_nil_of_right_ne_nil a' hrest),
    h' rest hrest]

theorem ReadsOn.reads {a b a' b' : List Char} (h : ReadsOn a b) (h' : Reads a' b')
    (hne : a' ≠ []) : Reads (a ++ a') (b ++ b') := by
  intro rest
  rw [List.append_assoc, List.append_assoc, h _ (List.append_ne_nil_of_left_ne_nil hne rest), h']

theorem reads_nil : Reads [] [] := fun _ => rfl

theorem reads_char {c : Char} (hfeed : c ≠ '\n') (hreturn : c ≠ '\r') (hmark : c ≠ '#') :
    Reads [c] [unmark c] :=
  oneLine_cons hfeed hreturn hmark

theorem reads_word {w : List Char}
    (h : ∀ c ∈ w, c ≠ '\n' ∧ c ≠ '\r' ∧ c ≠ '#' ∧ unmark c = c) : Reads w w := by
  induction w with
  | nil => exact reads_nil
  | cons c w ih =>
      obtain ⟨hfeed, hreturn, hmark, hself⟩ := h c List.mem_cons_self
      have hc := reads_char hfeed hreturn hmark
      rw [hself] at hc
      exact hc.append (ih fun d hd => h d (List.mem_cons_of_mem c hd))

theorem readsOn_gap {inside : Bool} {g : Gap} (h : g.IsAllowed inside) :
    ReadsOn (Gap.text g) (Gap.shown g) := by
  induction g with
  | nil => exact reads_nil.on
  | cons s g ih =>
      have hs : ReadsOn s.text s.shown := fun rest hrest =>
        Space.oneLine_text (h s List.mem_cons_self) hrest
      exact hs.append (ih fun t ht => h t (List.mem_cons_of_mem s ht))

/-! ## Names -/

namespace IsName

variable {name : List Char}

theorem ne_nil (h : IsName name) : name ≠ [] := h.1.ne_nil

theorem not_blank (h : IsName name) : ∀ c ∈ name, isBlank c = false := fun _ hc => h.1.not_blank hc

theorem words_eq (h : IsName name) : words name = [name] := words_plain h.ne_nil h.not_blank

theorem reads (h : IsName name) : Reads name name := by
  refine reads_word fun c hc => ?_
  have hne : ∀ d, isAscii d = true → isWord d = false → c ≠ d := by
    rintro d hascii hmark rfl
    exact h.1.not_mem hascii hmark hc
  refine ⟨hne _ rfl rfl, hne _ rfl rfl, hne _ rfl rfl, ?_⟩
  unfold unmark
  rw [if_neg]
  simp only [Bool.or_eq_true, beq_iff_eq, not_or]
  exact ⟨⟨hne _ rfl rfl, hne _ rfl rfl⟩, hne _ rfl rfl⟩

end IsName

/-! ## Statements on one line -/

theorem DottedText.write_ne_nil {d : DottedText} (h : d.IsLegal) (gap : Gap → List Char) :
    d.write gap ≠ [] := by
  cases d with
  | last name => exact IsName.ne_nil h
  | more name before after rest => exact List.append_ne_nil_of_left_ne_nil h.1.ne_nil _

theorem DottedText.reads {d : DottedText} (h : d.IsLegal) :
    Reads (d.write Gap.text) (d.write Gap.shown) := by
  induction d with
  | last name => exact IsName.reads h
  | more name before after rest ih =>
      obtain ⟨hname, hbefore, hafter, hrest⟩ := h
      have htail : Reads ('.' :: (Gap.text after ++ rest.write Gap.text))
          ('.' :: (Gap.shown after ++ rest.write Gap.shown)) :=
        (reads_char (by decide) (by decide) (by decide)).append
          ((readsOn_gap hafter).reads (ih hrest) (DottedText.write_ne_nil hrest _))
      exact hname.reads.append ((readsOn_gap hbefore).reads htail (List.cons_ne_nil _ _))

theorem ModuleText.write_ne_nil {m : ModuleText} (h : m.IsLegal) (gap : Gap → List Char) :
    m.write gap ≠ [] := by
  cases m with
  | named names => exact DottedText.write_ne_nil h gap
  | here => exact List.cons_ne_nil _ _
  | dot after rest => exact List.cons_ne_nil _ _

theorem ModuleText.reads {m : ModuleText} (h : m.IsLegal) :
    Reads (m.write Gap.text) (m.write Gap.shown) := by
  induction m with
  | named names => exact DottedText.reads h
  | here => exact reads_char (by decide) (by decide) (by decide)
  | dot after rest ih =>
      exact (reads_char (by decide) (by decide) (by decide)).append
        ((readsOn_gap h.1).reads (ih h.2) (ModuleText.write_ne_nil h.2 _))

theorem ImportAlias.reads {inside : Bool} {a : ImportAlias} (h : a.IsLegal inside) :
    Reads (a.write Gap.text) (a.write Gap.shown) := by
  have has : Reads "as".toList "as".toList := reads_word (by decide)
  have hname := (readsOn_gap h.after).reads h.name.reads h.name.ne_nil
  exact (readsOn_gap h.before).reads (has.append hname) (List.cons_ne_nil _ _)

section Items

variable {α : Type} {inside : Bool} {legal : α → Prop} {text shown : α → List Char}

theorem ImportItem.reads (hreads : ∀ a, legal a → Reads (text a) (shown a)) {item : ImportItem α}
    (h : item.IsLegal inside legal) :
    Reads (item.write Gap.text text) (item.write Gap.shown shown) := by
  refine (hreads _ h.1).append ?_
  cases halias : item.alias? with
  | none => exact reads_nil
  | some a => exact ImportAlias.reads (h.2 a halias)

theorem ImportItem.write_ne_nil (hne : ∀ a, legal a → text a ≠ []) (gap : Gap → List Char)
    {item : ImportItem α} (h : item.IsLegal inside legal) : item.write gap text ≠ [] :=
  List.append_ne_nil_of_left_ne_nil (hne _ h.1) _

theorem ImportItems.write_ne_nil (hne : ∀ a, legal a → text a ≠ []) (gap : Gap → List Char)
    {items : ImportItems α} (h : items.IsLegal inside legal) : items.write gap text ≠ [] :=
  List.append_ne_nil_of_left_ne_nil (ImportItem.write_ne_nil hne gap h.1) _

theorem ImportItems.reads (hreads : ∀ a, legal a → Reads (text a) (shown a))
    (hne : ∀ a, legal a → text a ≠ []) {items : ImportItems α} (h : items.IsLegal inside legal) :
    Reads (items.write Gap.text text) (items.write Gap.shown shown) := by
  obtain ⟨first, more⟩ := items
  obtain ⟨hfirst, hmore⟩ := h
  refine (ImportItem.reads hreads hfirst).append ?_
  dsimp only at hmore ⊢
  clear hfirst
  induction more with
  | nil => exact reads_nil
  | cons m more ih =>
      obtain ⟨hbefore, hafter, hitem⟩ := hmore m List.mem_cons_self
      have hcomma : Reads [','] [','] := reads_char (by decide) (by decide) (by decide)
      have htail := (readsOn_gap hafter).reads (ImportItem.reads hreads hitem)
        (ImportItem.write_ne_nil hne Gap.text hitem)
      have hhead := (readsOn_gap hbefore).reads (hcomma.append htail) (List.cons_ne_nil _ _)
      exact hhead.append (ih fun n hn => hmore n (List.mem_cons_of_mem m hn))

end Items

theorem ImportNames.reads {names : ImportNames} (h : names.IsLegal) :
    Reads (names.write Gap.text '(' ')') (names.write Gap.shown ' ' ' ') := by
  have hreads : ∀ n : List Char, IsName n → Reads (id n) (id n) := fun n hn => hn.reads
  have hne : ∀ n : List Char, IsName n → id n ≠ [] := fun n hn => hn.ne_nil
  cases names with
  | all g => exact (readsOn_gap h).reads (reads_char (by decide) (by decide) (by decide)) (by simp)
  | listed g items =>
      obtain ⟨-, hg, hitems⟩ := h
      exact (readsOn_gap hg).reads (ImportItems.reads hreads hne hitems)
        (ImportItems.write_ne_nil hne Gap.text hitems)
  | enclosed outside inside items comma behind =>
      obtain ⟨houtside, hinside, hitems, hcomma, hbehind⟩ := h
      have hopening : Reads ['('] [' '] := reads_char (by decide) (by decide) (by decide)
      have hclosing : Reads [')'] [' '] := reads_char (by decide) (by decide) (by decide)
      have htrailing : Reads ((comma.map fun g => Gap.text g ++ [',']).getD [])
          ((comma.map fun g => Gap.shown g ++ [',']).getD []) := by
        cases comma with
        | none => exact reads_nil
        | some g =>
            exact (readsOn_gap (hcomma g rfl)).reads
              (reads_char (by decide) (by decide) (by decide)) (List.cons_ne_nil _ _)
      have hend := (readsOn_gap hbehind).reads hclosing (List.cons_ne_nil _ _)
      have hlist := (ImportItems.reads hreads hne hitems).append (htrailing.append hend)
      have hbody := (readsOn_gap hinside).reads hlist
        (List.append_ne_nil_of_left_ne_nil (ImportItems.write_ne_nil hne Gap.text hitems) _)
      exact (readsOn_gap houtside).reads (hopening.append hbody) (List.cons_ne_nil _ _)

/-- The statement on one line. -/
def ImportStatement.shown (s : ImportStatement) : List Char := s.write Gap.shown ' ' ' '

/-- **A statement has its tokens on one line, with white space between them.** -/
theorem ImportStatement.oneLine_text {s : ImportStatement} (h : s.IsLegal) :
    oneLine s.text = s.shown := by
  have hword : Reads "import".toList "import".toList := reads_word (by decide)
  have hreads : Reads s.text s.shown := by
    cases s with
    | modules g items =>
        obtain ⟨-, hg, hitems⟩ := h
        have hne : ∀ d : DottedText, d.IsLegal → d.write Gap.text ≠ [] := fun d hd =>
          DottedText.write_ne_nil hd Gap.text
        exact hword.append ((readsOn_gap hg).reads
          (ImportItems.reads (fun d hd => DottedText.reads hd) hne hitems)
          (ImportItems.write_ne_nil hne Gap.text hitems))
    | members start module middle names =>
        obtain ⟨hstart, -, hmodule, hmiddle, -, hnames⟩ := h
        have hfrom : Reads "from".toList "from".toList := reads_word (by decide)
        have htail := (readsOn_gap hmiddle).reads (hword.append (ImportNames.reads hnames))
          (List.cons_ne_nil _ _)
        have hhead := (readsOn_gap hstart).reads ((ModuleText.reads hmodule).append htail)
          (List.append_ne_nil_of_left_ne_nil (ModuleText.write_ne_nil hmodule Gap.text) _)
        exact hfrom.append hhead
  have hline := hreads []
  rw [List.append_nil] at hline
  rw [hline]
  exact List.append_nil _

end ChangeScope.Python
