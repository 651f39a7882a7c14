import ChangeScope.Call.Argument
import ChangeScope.Proofs.Call.Comma
import ChangeScope.Proofs.Call.Content
import ChangeScope.Proofs.Call.Region

/-!
# Arguments between commas

The text between the parentheses of a call is cut at the commas outside brackets and literals. The
cut knows quotes, but neither three of them in a row nor comments, so it may stand elsewhere than
the lexemes tell. Main statement: `pieces_eq_iff`.
-/

set_option autoImplicit false

namespace ChangeScope.Call

open ChangeScope.Text

/-! ## Pieces among lexemes -/

/-- The lexemes between the commas outside brackets. -/
def cutLexemes : Int → List Lexeme → List (List Lexeme)
  | _, [] => [[]]
  | depth, l :: rest =>
      if l = .mark ',' ∧ depth = 0 then [] :: cutLexemes depth rest
      else (cutLexemes (depth + depthOf l.places) rest).modifyHead (l :: ·)

def Lexeme.isComment : Lexeme → Bool
  | .comment _ => true
  | _ => false

/-- A piece of comments and white space only. -/
def isVoid (piece : List Lexeme) : Bool := piece.all fun l => l.isComment || l.text.all isBlank

/-- The pieces between the top-level commas of a text, without the white space around them; those of
comments and white space only count nothing. -/
def topLevelPieces (text : List Char) : List (List Char) :=
  ((cutLexemes 0 (lexemes text)).filter fun piece => !isVoid piece).map fun piece =>
    trim (textOf piece)

theorem cutLexemes_ne_nil (depth : Int) (ls : List Lexeme) : cutLexemes depth ls ≠ [] := by
  induction ls generalizing depth with
  | nil => exact List.cons_ne_nil _ _
  | cons l ls ih =>
      rw [cutLexemes]
      split
      · exact List.cons_ne_nil _ _
      · rw [ne_eq, List.modifyHead_eq_nil_iff]
        exact ih _

theorem map_textOf_ne_nil (depth : Int) (ls : List Lexeme) :
    (cutLexemes depth ls).map textOf ≠ [] := by
  rw [ne_eq, List.map_eq_nil_iff]
  exact cutLexemes_ne_nil depth ls

theorem map_textOf_modifyHead (l : Lexeme) (pieces : List (List Lexeme)) :
    (pieces.modifyHead (l :: ·)).map textOf = (pieces.map textOf).modifyHead (l.text ++ ·) := by
  cases pieces <;> rfl

/-- The pieces, joined, are the text. -/
theorem join_cutLexemes (depth : Int) (ls : List Lexeme) :
    join [','] ((cutLexemes depth ls).map textOf) = textOf ls := by
  induction ls generalizing depth with
  | nil => rfl
  | cons l ls ih =>
      rw [cutLexemes]
      split
      · next hcut =>
          obtain ⟨q, qs, hcons⟩ := List.exists_cons_of_ne_nil (cutLexemes_ne_nil depth ls)
          have ih := ih depth
          rw [hcons, List.map_cons] at ih
          rw [hcons, List.map_cons, List.map_cons, join_cons_cons, ih, hcut.1]
          rfl
      · rw [map_textOf_modifyHead, join_modifyHead (map_textOf_ne_nil _ _), ih]
        rfl

/-- The text is cut at the comma marks outside brackets. -/
theorem isCut_cutLexemes (depth : Int) (ls : List Lexeme) (front : List Char) :
    IsCut ((cutLexemes depth ls).map textOf) front ↔ ∃ before rest,
      ls = before ++ .mark ',' :: rest ∧ textOf before = front ∧
        depth + depthOf (placesOf before) = 0 := by
  induction ls generalizing depth front with
  | nil =>
      refine ⟨fun h => absurd h isCut_single, ?_⟩
      rintro ⟨before, rest, h, -⟩
      exact absurd h.symm (by simp)
  | cons l ls ih =>
      rw [cutLexemes]
      split
      · next hcut =>
          obtain ⟨rfl, rfl⟩ := hcut
          have hcomma : ∀ before, depthOf (placesOf (.mark ',' :: before)) =
              depthOf (placesOf before) := by
            intro before
            rw [placesOf_cons, depthOf_append]
            exact Int.zero_add _
          rw [List.map_cons, textOf_nil, isCut_nil_cons (map_textOf_ne_nil _ _)]
          -- the cut is at this comma, or it is one of the others behind it
          constructor
          · rintro (rfl | ⟨front', rfl, hfront⟩)
            · exact ⟨[], ls, rfl, rfl, rfl⟩
            · obtain ⟨before, rest, rfl, rfl, hdepth⟩ := (ih _ _).mp hfront
              exact ⟨.mark ',' :: before, rest, rfl, rfl, by rwa [hcomma]⟩
          · rintro ⟨before, rest, hls, rfl, hdepth⟩
            cases before with
            | nil => exact Or.inl rfl
            | cons k before =>
                obtain ⟨rfl, hrest⟩ := List.cons.inj hls
                rw [hcomma] at hdepth
                exact Or.inr ⟨textOf before, rfl, (ih _ _).mpr ⟨before, rest, hrest, rfl, hdepth⟩⟩
      · next hcut =>
          rw [map_textOf_modifyHead, isCut_modifyHead]
          constructor
          · rintro ⟨front', rfl, hfront⟩
            obtain ⟨before, rest, rfl, rfl, hdepth⟩ := (ih _ _).mp hfront
            refine ⟨l :: before, rest, rfl, rfl, ?_⟩
            rwa [placesOf_cons, depthOf_append, ← Int.add_assoc]
          · rintro ⟨before, rest, hls, rfl, hdepth⟩
            cases before with
            | nil =>
                obtain ⟨rfl, -⟩ := List.cons.inj hls
                exact absurd ⟨rfl, by simpa using hdepth⟩ hcut
            | cons k before =>
                obtain ⟨rfl, hrest⟩ := List.cons.inj hls
                rw [placesOf_cons, depthOf_append, ← Int.add_assoc] at hdepth
                exact ⟨textOf before, rfl, (ih _ _).mpr ⟨before, rest, hrest, rfl, hdepth⟩⟩

/-! ## Pieces of the text -/

theorem cutAtCommas_ne_nil (position : Position) (text : List Char) :
    cutAtCommas position text ≠ [] := by
  cases text with
  | nil => exact List.cons_ne_nil _ _
  | cons c text =>
      rw [cutAtCommas]
      split
      · exact List.cons_ne_nil _ _
      · split <;> exact List.cons_ne_nil _ _

theorem cutAtCommas_cons (position : Position) (c : Char) (text : List Char) :
    cutAtCommas position (c :: text) =
      if c = ',' ∧ position = .outside 0 then [] :: cutAtCommas position text
      else (cutAtCommas (position.next c) text).modifyHead ([c] ++ ·) := by
  rw [cutAtCommas]
  by_cases hcut : c = ',' ∧ position = .outside 0
  · rw [if_pos hcut, if_pos (by simp [hcut])]
  · rw [if_neg hcut, if_neg (by simpa using hcut)]
    obtain ⟨q, qs, hcons⟩ := List.exists_cons_of_ne_nil (cutAtCommas_ne_nil (position.next c) text)
    rw [hcons]
    rfl

/-- The pieces, joined, are the text. -/
theorem join_cutAtCommas (position : Position) (text : List Char) :
    join [','] (cutAtCommas position text) = text := by
  induction text generalizing position with
  | nil => rfl
  | cons c text ih =>
      rw [cutAtCommas_cons]
      split
      · next hcut =>
          obtain ⟨q, qs, hcons⟩ := List.exists_cons_of_ne_nil (cutAtCommas_ne_nil position text)
          have ih := ih position
          rw [hcons] at ih
          rw [hcons, join_cons_cons, ih, hcut.1]
          rfl
      · rw [join_modifyHead (cutAtCommas_ne_nil _ _), ih]
        rfl

/-- The position behind a text. -/
def Position.after (position : Position) (text : List Char) : Position :=
  text.foldl (fun p c => p.next c) position

/-- The text is cut at the commas that the position is outside brackets and literals at. -/
theorem isCut_cutAtCommas (position : Position) (text front : List Char) :
    IsCut (cutAtCommas position text) front ↔
      ∃ rest, text = front ++ ',' :: rest ∧ position.after front = .outside 0 := by
  induction text generalizing position front with
  | nil =>
      refine ⟨fun h => absurd h isCut_single, ?_⟩
      rintro ⟨rest, h, -⟩
      exact absurd h.symm (by simp)
  | cons c text ih =>
      rw [cutAtCommas_cons]
      split
      · next hcut =>
          obtain ⟨rfl, rfl⟩ := hcut
          -- the cut is at this comma, or it is one of the others behind it
          rw [isCut_nil_cons (cutAtCommas_ne_nil _ _)]
          constructor
          · rintro (rfl | ⟨front', rfl, hfront⟩)
            · exact ⟨text, rfl, rfl⟩
            · obtain ⟨rest, rfl, hafter⟩ := (ih _ _).mp hfront
              exact ⟨rest, rfl, hafter⟩
          · rintro ⟨rest, htext, hafter⟩
            cases front with
            | nil => exact Or.inl rfl
            | cons d front =>
                obtain ⟨rfl, hrest⟩ := List.cons.inj htext
                exact Or.inr ⟨front, rfl, (ih _ _).mpr ⟨rest, hrest, hafter⟩⟩
      · next hcut =>
          rw [isCut_modifyHead]
          constructor
          · rintro ⟨front', rfl, hfront⟩
            obtain ⟨rest, rfl, hafter⟩ := (ih _ _).mp hfront
            exact ⟨rest, rfl, hafter⟩
          · rintro ⟨rest, htext, hafter⟩
            cases front with
            | nil =>
                obtain ⟨rfl, -⟩ := List.cons.inj htext
                exact absurd ⟨rfl, hafter⟩ hcut
            | cons d front =>
                obtain ⟨rfl, hrest⟩ := List.cons.inj htext
                exact ⟨front, rfl, (ih _ _).mpr ⟨rest, hrest, hafter⟩⟩

theorem pieces_eq_trimmed (text : List Char) :
    pieces text = trimmed (cutAtCommas (.outside 0) text) := rfl

/-! ## No piece begins with a comma -/

theorem isFree_nil : IsFree [] := by
  intro h
  exact absurd h (by simp [trimStart])

theorem isFree_blank {a b : List Char} (ha : ∀ c ∈ a, isBlank c = true) (h : IsFree b) :
    IsFree (a ++ b) := by
  rwa [IsFree, trimStart_blank ha]

theorem next_blank {c : Char} (hc : isBlank c = true) :
    (Position.outside 0).next c = .outside 0 := by
  have hne : ∀ d, isBlank d = false → c ≠ d := fun d hd => ne_of_kind hc hd
  have hquote : (c == '"' || c == '\'') = false := by simp [hne '"' rfl, hne '\'' rfl]
  have hopens : (c == '(' || c == '[' || c == '\x7b') = false := by
    simp [hne '(' rfl, hne '[' rfl, hne '\x7b' rfl]
  have hcloses : (c == ')' || c == ']' || c == '\x7d') = false := by
    simp [hne ')' rfl, hne ']' rfl, hne '\x7d' rfl]
  simp only [Position.next, hquote, hopens, hcloses, Bool.false_eq_true, if_false]

/-- Outside brackets and literals a comma is cut at, so no piece goes on with one. -/
theorem isFree_cutAtCommas (position : Position) (text : List Char) :
    (∀ piece ∈ (cutAtCommas position text).tail, IsFree piece) ∧
      (position = .outside 0 → ∀ piece ∈ cutAtCommas position text, IsFree piece) := by
  induction text generalizing position with
  | nil =>
      refine ⟨fun piece hpiece => absurd hpiece List.not_mem_nil, fun _ piece hpiece => ?_⟩
      rw [cutAtCommas, List.mem_singleton] at hpiece
      rw [hpiece]
      exact isFree_nil
  | cons c text ih =>
      rw [cutAtCommas_cons]
      split
      · next hcut =>
          have hall := (ih position).2 hcut.2
          refine ⟨hall, fun _ piece hpiece => ?_⟩
          rcases List.mem_cons.mp hpiece with rfl | hpiece
          · exact isFree_nil
          · exact hall piece hpiece
      · next hcut =>
          obtain ⟨htail, hall⟩ := ih (position.next c)
          obtain ⟨q, qs, hcons⟩ :=
            List.exists_cons_of_ne_nil (cutAtCommas_ne_nil (position.next c) text)
          rw [hcons] at htail hall ⊢
          rw [List.modifyHead_cons]
          refine ⟨htail, fun hposition piece hpiece => ?_⟩
          rcases List.mem_cons.mp hpiece with rfl | hpiece
          -- white space keeps the position, and any other character is what the piece begins with
          · by_cases hblank : isBlank c = true
            · refine isFree_blank (fun d hd => ?_) (hall ?_ q List.mem_cons_self)
              · rwa [List.mem_singleton.mp hd]
              · rw [hposition, next_blank hblank]
            · have hkeep : trimStart ([c] ++ q) = c :: q :=
                List.dropWhile_cons_of_neg (by simpa using hblank)
              rw [IsFree, hkeep, List.head?_cons, ne_eq, Option.some.injEq]
              exact fun hc => hcut ⟨hc, hposition⟩
          · exact htail piece hpiece

/-- A lexeme that is no comma does not begin with one. -/
theorem Lexeme.Shaped.isFree {l : Lexeme} (h : l.Shaped) (hl : l ≠ .mark ',') : IsFree l.text := by
  have hplain : ∀ {t : List Char}, (∀ c ∈ t, isNumberPart c = true) → IsFree t := by
    intro t ht hhead
    have hmem : ',' ∈ t := (List.dropWhile_suffix isBlank).subset (List.mem_of_mem_head? hhead)
    exact absurd (ht ',' hmem) (by decide)
  have hfirst : ∀ {c : Char} {more : List Char}, isBlank c = false → c ≠ ',' →
      IsFree (c :: more) := by
    intro c more hblank hc
    have hkeep : trimStart (c :: more) = c :: more :=
      List.dropWhile_cons_of_neg (by simpa using hblank)
    rwa [IsFree, hkeep, List.head?_cons, ne_eq, Option.some.injEq]
  cases l with
  | comment t =>
      obtain ⟨more, rfl, -⟩ := h
      exact hfirst rfl (by decide)
  | literal t =>
      obtain ⟨quote, more, rfl, hquote⟩ := h
      rcases isQuote_iff.mp hquote with rfl | rfl
      · exact hfirst rfl (by decide)
      · exact hfirst rfl (by decide)
  | number t => exact hplain h.number
  | word t => exact hplain h.word
  | mark c =>
      intro hhead
      have hmem : ',' ∈ [c] := (List.dropWhile_suffix isBlank).subset (List.mem_of_mem_head? hhead)
      rw [List.mem_singleton.mp hmem] at hl
      exact hl rfl

/-- A blank lexeme changes no depth. -/
theorem Lexeme.Shaped.depthOf_blank {l : Lexeme} (h : l.Shaped)
    (hblank : ∀ c ∈ l.text, isBlank c = true) : depthOf l.places = 0 := by
  by_cases hl : ∃ c, l = .mark c
  · obtain ⟨c, rfl⟩ := hl
    have hturn : turn (.code, c) = 0 := turn_of_kind (hblank c List.mem_cons_self) rfl
    simp [Lexeme.places, hturn]
  · exact depthOf_flat (h.flat fun c hc => hl ⟨c, hc⟩)

theorem isFree_cutLexemes {ls : List Lexeme} (hls : ∀ l ∈ ls, l.Shaped) (depth : Int) :
    (∀ piece ∈ (cutLexemes depth ls).tail, IsFree (textOf piece)) ∧
      (depth = 0 → ∀ piece ∈ cutLexemes depth ls, IsFree (textOf piece)) := by
  induction ls generalizing depth with
  | nil =>
      refine ⟨fun piece hpiece => absurd hpiece List.not_mem_nil, fun _ piece hpiece => ?_⟩
      rw [cutLexemes, List.mem_singleton] at hpiece
      rw [hpiece]
      exact isFree_nil
  | cons l ls ih =>
      have ih := ih fun k hk => hls k (List.mem_cons_of_mem l hk)
      have hl := hls l List.mem_cons_self
      rw [cutLexemes]
      split
      · next hcut =>
          have hall := (ih depth).2 hcut.2
          refine ⟨hall, fun _ piece hpiece => ?_⟩
          rcases List.mem_cons.mp hpiece with rfl | hpiece
          · exact isFree_nil
          · exact hall piece hpiece
      · next hcut =>
          obtain ⟨htail, hall⟩ := ih (depth + depthOf l.places)
          obtain ⟨q, qs, hcons⟩ :=
            List.exists_cons_of_ne_nil (cutLexemes_ne_nil (depth + depthOf l.places) ls)
          rw [hcons] at htail hall ⊢
          rw [List.modifyHead_cons]
          refine ⟨htail, fun hdepth piece hpiece => ?_⟩
          rcases List.mem_cons.mp hpiece with rfl | hpiece
          · rw [textOf_cons]
            -- blanks are trimmed, so what follows them must be free too
            by_cases hblank : ∀ c ∈ l.text, isBlank c = true
            · refine isFree_blank hblank (hall ?_ q List.mem_cons_self)
              rw [hdepth, hl.depthOf_blank hblank]
              rfl
            · have hfree := hl.isFree fun hcomma => hcut ⟨hcomma, hdepth⟩
              rw [← trimStart_eq_nil_iff] at hblank
              rw [IsFree, trimStart_append_of_ne_nil hblank, List.head?_append_of_ne_nil _ hblank]
              exact hfree
          · exact htail piece hpiece

/-! ## Where the pieces agree -/

theorem mem_of_mem_cutLexemes {ls piece : List Lexeme} {depth : Int}
    (hpiece : piece ∈ cutLexemes depth ls) {l : Lexeme} (hl : l ∈ piece) : l ∈ ls := by
  induction ls generalizing depth piece with
  | nil =>
      rw [cutLexemes, List.mem_singleton] at hpiece
      rw [hpiece] at hl
      exact absurd hl List.not_mem_nil
  | cons k ls ih =>
      rw [cutLexemes] at hpiece
      split at hpiece
      · rcases List.mem_cons.mp hpiece with rfl | hpiece
        · exact absurd hl List.not_mem_nil
        · exact List.mem_cons_of_mem k (ih hpiece hl)
      · obtain ⟨q, qs, hcons⟩ :=
          List.exists_cons_of_ne_nil (cutLexemes_ne_nil (depth + depthOf k.places) ls)
        rw [hcons, List.modifyHead_cons] at hpiece
        have hrest : ∀ {r : List Lexeme}, r ∈ q :: qs → l ∈ r → l ∈ ls := by
          intro r hr hlr
          rw [← hcons] at hr
          exact ih hr hlr
        rcases List.mem_cons.mp hpiece with rfl | hpiece
        · rcases List.mem_cons.mp hl with rfl | hl
          · exact List.mem_cons_self
          · exact List.mem_cons_of_mem k (hrest List.mem_cons_self hl)
        · exact List.mem_cons_of_mem k (hrest (List.mem_cons_of_mem q hpiece) hl)

/-- There is no piece of comments and white space only, other than white space. -/
def NoVoidComment (text : List Char) : Prop :=
  ∀ piece ∈ cutLexemes 0 (lexemes text), isVoid piece = true → ∀ l ∈ piece, l.isComment = false

/-- A piece without comments counts nothing where it is white space. -/
theorem isVoid_iff_trim {piece : List Lexeme}
    (h : isVoid piece = true → ∀ l ∈ piece, l.isComment = false) :
    isVoid piece = true ↔ trim (textOf piece) = [] := by
  rw [trim_eq_nil_iff]
  constructor
  · intro hvoid c hc
    obtain ⟨l, hl, hc⟩ := List.mem_flatMap.mp hc
    have hblank := List.all_eq_true.mp hvoid l hl
    rw [h hvoid l hl, Bool.false_or] at hblank
    exact List.all_eq_true.mp hblank c hc
  · intro hblank
    refine List.all_eq_true.mpr fun l hl => ?_
    rw [Bool.or_eq_true]
    right
    exact List.all_eq_true.mpr fun c hc => hblank c (List.mem_flatMap.mpr ⟨l, hl, hc⟩)

/-- A piece with a comment holds its sign. -/
theorem count_pos_of_comment {piece : List Lexeme} {l : Lexeme} (hl : l ∈ piece) (hshape : l.Shaped)
    (hcomment : l.isComment = true) : (textOf piece).count '#' ≠ 0 := by
  cases l with
  | comment t =>
      obtain ⟨more, rfl, -⟩ := hshape
      have hmem : '#' ∈ textOf piece := List.mem_flatMap.mpr ⟨_, hl, List.mem_cons_self⟩
      exact (List.count_pos_iff.mpr hmem).ne'
  | literal t => exact absurd hcomment Bool.false_ne_true
  | number t => exact absurd hcomment Bool.false_ne_true
  | word t => exact absurd hcomment Bool.false_ne_true
  | mark c => exact absurd hcomment Bool.false_ne_true

/-- Both cuts are cuts of the text. -/
theorem join_cutAtCommas_eq (text : List Char) : join [','] (cutAtCommas (.outside 0) text) =
    join [','] ((cutLexemes 0 (lexemes text)).map textOf) := by
  rw [join_cutAtCommas, join_cutLexemes, text_lexemes]

/-- Without lone comments only the empty pieces count nothing. -/
theorem topLevelPieces_eq_trimmed {text : List Char} (h : NoVoidComment text) :
    topLevelPieces text = trimmed ((cutLexemes 0 (lexemes text)).map textOf) := by
  rw [trimmed, List.map_map, List.filter_map, topLevelPieces]
  refine congrArg _ (List.filter_congr fun piece hpiece => ?_)
  have hiff := isVoid_iff_trim (h piece hpiece)
  show (!isVoid piece) = !(trim (textOf piece)).isEmpty
  rw [Bool.not_inj_iff, Bool.eq_iff_iff, hiff, List.isEmpty_iff]

/-- A comment that counts nothing would take its sign along, which stands in one of the pieces. -/
theorem noVoidComment_of_pieces_eq {text : List Char} (h : pieces text = topLevelPieces text) :
    NoVoidComment text := by
  have hhash : isBlank '#' = false := rfl
  have hall : ((pieces text).map (·.count '#')).sum =
      ((cutLexemes 0 (lexemes text)).map fun piece => (textOf piece).count '#').sum := by
    rw [pieces_eq_trimmed, count_trimmed hhash, ← count_join (by decide), join_cutAtCommas_eq,
      count_join (by decide), List.map_map]
    rfl
  have hkept : ((topLevelPieces text).map (·.count '#')).sum =
      (((cutLexemes 0 (lexemes text)).filter fun piece => !isVoid piece).map
        fun piece => (textOf piece).count '#').sum := by
    rw [topLevelPieces, List.map_map]
    refine congrArg List.sum (List.map_congr_left fun piece _ => ?_)
    exact count_trim hhash (textOf piece)
  rw [h, hkept] at hall
  have hzero := eq_zero_of_filter hall.ge
  intro piece hpiece hvoid l hl
  by_contra hcomment
  rw [Bool.not_eq_false] at hcomment
  have hshape := (standing_lexemes text).shaped l (mem_of_mem_cutLexemes hpiece hl)
  exact count_pos_of_comment hl hshape hcomment (hzero piece hpiece (by rw [hvoid]; rfl))

/-- The pieces are those of the lexemes where the text is cut at the same commas, and no comment
stands alone between two of them. -/
theorem pieces_eq_iff_cut (text : List Char) : pieces text = topLevelPieces text ↔
    cutAtCommas (.outside 0) text = (cutLexemes 0 (lexemes text)).map textOf ∧
      NoVoidComment text := by
  constructor
  · intro h
    have hvoid := noVoidComment_of_pieces_eq h
    refine ⟨?_, hvoid⟩
    rw [pieces_eq_trimmed, topLevelPieces_eq_trimmed hvoid] at h
    refine eq_of_trimmed (cutAtCommas_ne_nil _ _) (map_textOf_ne_nil _ _)
      (join_cutAtCommas_eq text) ((isFree_cutAtCommas _ text).2 rfl) ?_ h
    intro q hq
    obtain ⟨piece, hpiece, rfl⟩ := List.mem_map.mp hq
    exact (isFree_cutLexemes (standing_lexemes text).shaped 0).2 rfl piece hpiece
  · rintro ⟨hcut, hvoid⟩
    rw [pieces_eq_trimmed, hcut, topLevelPieces_eq_trimmed hvoid]

/-- The comma behind a text is a mark outside brackets: it is in no comment and in no literal. -/
def IsTopComma (text front : List Char) : Prop :=
  ∃ before behind, lexemes text = before ++ .mark ',' :: behind ∧ textOf before = front ∧
    depthOf (placesOf before) = 0

/-- At each comma the cut stands outside brackets and literals just where the lexemes tell so. -/
def CommasAgree (text : List Char) : Prop :=
  ∀ front rest, text = front ++ ',' :: rest →
    ((Position.outside 0).after front = .outside 0 ↔ IsTopComma text front)

theorem cut_eq_iff_commasAgree (text : List Char) :
    cutAtCommas (.outside 0) text = (cutLexemes 0 (lexemes text)).map textOf ↔
      CommasAgree text := by
  have htop : ∀ front, IsCut ((cutLexemes 0 (lexemes text)).map textOf) front ↔
      IsTopComma text front := by
    intro front
    rw [isCut_cutLexemes]
    simp only [Int.zero_add]
    rfl
  constructor
  · intro hcut front rest htext
    rw [← htop, ← hcut, isCut_cutAtCommas]
    exact ⟨fun hafter => ⟨rest, htext, hafter⟩, fun ⟨_, _, hafter⟩ => hafter⟩
  · intro hagree
    -- a text that is cut at the same places has the same pieces
    refine eq_of_isCut (cutAtCommas_ne_nil _ _) (map_textOf_ne_nil _ _)
      (join_cutAtCommas_eq text) fun front => ?_
    rw [htop, isCut_cutAtCommas]
    constructor
    · rintro ⟨rest, htext, hafter⟩
      exact (hagree front rest htext).mp hafter
    · intro hfront
      obtain ⟨before, behind, hlexemes, rfl, -⟩ := id hfront
      have htext : text = textOf before ++ ',' :: textOf behind := by
        rw [← text_lexemes text, hlexemes, textOf_append]
        rfl
      exact ⟨_, htext, (hagree _ _ htext).mpr hfront⟩

/-- The pieces are those between the top-level commas just where the cut and the lexemes agree on
each comma, and no comment stands alone between two of them. -/
theorem pieces_eq_iff (text : List Char) : pieces text = topLevelPieces text ↔
    CommasAgree text ∧ NoVoidComment text := by
  rw [pieces_eq_iff_cut, cut_eq_iff_commasAgree]

end ChangeScope.Call
