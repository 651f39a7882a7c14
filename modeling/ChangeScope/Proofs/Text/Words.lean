import ChangeScope.Proofs.Text.Trim
import ChangeScope.Proofs.Text.Fields

/-!
# Words

White space ends a word, and how much there is of it does not matter (`words_append_blanks`). So the
words of the fields of a text stay when white space goes from its ends (`words_fields_trimEnd`). A
word between two blanks is found where it stands among the words (`splitOnce_word`).
-/

set_option autoImplicit false

namespace ChangeScope.Text

/-! ## Words of parts -/

/-- A blank ends a word. -/
theorem words_append {c : Char} (hc : isBlank c = true) (a b : List Char) :
    words (a ++ c :: b) = words a ++ words b := by
  unfold words
  rw [fields_append hc, List.filter_append]

theorem words_cons {c : Char} (hc : isBlank c = true) (b : List Char) :
    words (c :: b) = words b :=
  words_append hc [] b

theorem words_blank_append {g : List Char} (hg : ∀ c ∈ g, isBlank c = true) (b : List Char) :
    words (g ++ b) = words b := by
  induction g with
  | nil => rfl
  | cons c g ih =>
      rw [List.cons_append, words_cons (hg c List.mem_cons_self),
        ih fun d hd => hg d (List.mem_cons_of_mem c hd)]

/-- Blanks end a word. -/
theorem words_append_blanks {g : List Char} (hne : g ≠ []) (hg : ∀ c ∈ g, isBlank c = true)
    (a b : List Char) : words (a ++ (g ++ b)) = words a ++ words b := by
  obtain ⟨c, g, rfl⟩ := List.exists_cons_of_ne_nil hne
  rw [List.cons_append, words_append (hg c List.mem_cons_self),
    words_blank_append fun d hd => hg d (List.mem_cons_of_mem c hd)]

theorem words_append_blank {g : List Char} (hg : ∀ c ∈ g, isBlank c = true) (a : List Char) :
    words (a ++ g) = words a := by
  by_cases hne : g = []
  · rw [hne, List.append_nil]
  · have hwords := words_append_blanks hne hg a []
    rw [List.append_nil] at hwords
    rw [hwords]
    exact List.append_nil _

theorem words_plain {w : List Char} (hne : w ≠ []) (hw : ∀ c ∈ w, isBlank c = false) :
    words w = [w] := by
  unfold words
  rw [fields_plain hw, List.filter_cons_of_pos]
  · rfl
  · simp [hne]

/-- The first word goes on until the first blank. -/
theorem words_first {w : List Char} (hne : w ≠ []) (hw : ∀ c ∈ w, isBlank c = false)
    (rest : List Char) :
    ∃ others, words (w ++ rest) = (w ++ rest.takeWhile (fun c => !isBlank c)) :: others := by
  have hfirst : ∀ c ∈ w ++ rest.takeWhile (fun c => !isBlank c), isBlank c = false := by
    intro c hc
    rcases List.mem_append.mp hc with hc | hc
    · exact hw c hc
    · simpa using List.mem_takeWhile_imp hc
  have hfirst_ne : w ++ rest.takeWhile (fun c => !isBlank c) ≠ [] :=
    List.append_ne_nil_of_left_ne_nil hne _
  have hsplit := List.takeWhile_append_dropWhile (p := fun c => !isBlank c) (l := rest)
  have hhead := List.head?_dropWhile_not (fun c => !isBlank c) rest
  cases hrest : rest.dropWhile fun c => !isBlank c with
  | nil =>
      rw [hrest, List.append_nil] at hsplit
      rw [hsplit] at hfirst hfirst_ne ⊢
      exact ⟨[], words_plain hfirst_ne hfirst⟩
  | cons c more =>
      rw [hrest] at hsplit hhead
      have hc : isBlank c = true := by simpa using hhead
      refine ⟨words more, ?_⟩
      conv_lhs => rw [← hsplit]
      rw [← List.append_assoc, words_append hc, words_plain hfirst_ne hfirst]
      rfl

/-- A text that is not blank has words. -/
theorem words_ne_nil {cs : List Char} {c : Char} (h : c ∈ cs) (hc : isBlank c = false) :
    words cs ≠ [] := by
  obtain ⟨field, hfield, hin⟩ := exists_field h hc
  have hmem : field ∈ words cs := by
    refine List.mem_filter.mpr ⟨hfield, ?_⟩
    rw [Bool.not_eq_true', List.isEmpty_eq_false_iff]
    exact List.ne_nil_of_mem hin
  exact List.ne_nil_of_mem hmem

/-! ## Words of fields -/

/-- A word without separators is a word of a field. -/
theorem exists_field_word {p : Char → Bool} {cs word : List Char} (h : word ∈ words cs)
    (hword : ∀ c ∈ word, p c = false) : ∃ field ∈ fields p cs, word ∈ words field := by
  obtain ⟨hfield, hne⟩ := List.mem_filter.mp h
  have hboth : word ∈ (fields isBlank cs).flatMap (fields p) := by
    refine List.mem_flatMap.mpr ⟨word, hfield, ?_⟩
    rw [fields_plain hword]
    exact List.mem_cons_self
  have hcomm : (fun c => isBlank c || p c) = fun c => p c || isBlank c :=
    funext fun c => Bool.or_comm _ _
  rw [fields_fields, hcomm, ← fields_fields] at hboth
  obtain ⟨field, hin, hmem⟩ := List.mem_flatMap.mp hboth
  exact ⟨field, hin, List.mem_filter.mpr ⟨hmem, hne⟩⟩

/-- Blanks at the end leave the words of the fields. -/
theorem words_fields_append {p : Char → Bool} {g : List Char}
    (hg : ∀ c ∈ g, isBlank c = true ∧ p c = false) (a : List Char) :
    (fields p (a ++ g)).map words = (fields p a).map words := by
  obtain ⟨init, last, ha, hag⟩ := fields_append_plain (fun c hc => (hg c hc).2) a
  rw [ha, hag, List.map_append, List.map_append, List.map_singleton, List.map_singleton,
    words_append_blank fun c hc => (hg c hc).1]

/-- A blank at the beginning leaves the words of the fields. -/
theorem words_fields_cons {p : Char → Bool} {c : Char} (hc : isBlank c = true) (hp : p c = false)
    (rest : List Char) : (fields p (c :: rest)).map words = (fields p rest).map words := by
  obtain ⟨first, others, hrest, hcons⟩ := fields_cons (p := p) c rest
  rw [hrest, hcons, hp, if_neg Bool.false_ne_true, List.map_cons, List.map_cons, words_cons hc]

/-- Blanks at the beginning leave the words of the fields. -/
theorem words_fields_blank_append {p : Char → Bool} {g : List Char}
    (hg : ∀ c ∈ g, isBlank c = true ∧ p c = false) (rest : List Char) :
    (fields p (g ++ rest)).map words = (fields p rest).map words := by
  induction g with
  | nil => rfl
  | cons c g ih =>
      obtain ⟨hc, hp⟩ := hg c List.mem_cons_self
      rw [List.cons_append, words_fields_cons hc hp,
        ih fun d hd => hg d (List.mem_cons_of_mem c hd)]

theorem words_trimEnd (cs : List Char) : words (trimEnd cs) = words cs := by
  obtain ⟨g, hg, hcs, -⟩ := exists_trimEnd cs
  conv_rhs => rw [hcs]
  exact (words_append_blank hg _).symm

/-- **The words of the fields stay when the end is trimmed.** -/
theorem words_fields_trimEnd {p : Char → Bool} (hp : ∀ c, isBlank c = true → p c = false)
    (cs : List Char) : (fields p (trimEnd cs)).map words = (fields p cs).map words := by
  obtain ⟨g, hg, hcs, -⟩ := exists_trimEnd cs
  conv_rhs => rw [hcs]
  exact (words_fields_append (fun c hc => ⟨hg c hc, hp c (hg c hc)⟩) _).symm

/-! ## Searching -/

theorem splitOnce_eq_none_of_not_infix {sep cs : List Char} (h : ¬ sep <:+: cs) :
    splitOnce sep cs = none := by
  induction cs with
  | nil =>
      cases sep with
      | nil => exact absurd List.nil_infix h
      | cons c s => rfl
  | cons c rest ih =>
      have hrest : ¬ sep <:+: rest := fun hin => h (hin.trans (List.suffix_cons c rest).isInfix)
      have hstarts : ¬ sep <+: c :: rest := fun hp => h hp.isInfix
      rw [splitOnce, isPrefixOf?_eq_none_iff.mpr hstarts, ih hrest]
      rfl

/-- The first separator is found where none begins before it. -/
theorem splitOnce_first {s : List Char} {c : Char} {a : List Char}
    (h : ¬ s ++ [c] <:+: a ++ s) (b : List Char) :
    splitOnce (s ++ [c]) (a ++ ((s ++ [c]) ++ b)) = some (a, b) := by
  induction a with
  | nil =>
      rw [List.nil_append]
      obtain ⟨d, rest, hcons⟩ := List.exists_cons_of_ne_nil
        (List.append_ne_nil_of_right_ne_nil s (List.cons_ne_nil c []))
      have hstarts : (s ++ [c]).isPrefixOf? (d :: (rest ++ b)) = some b :=
        isPrefixOf?_eq_some_iff.mpr (by rw [hcons]; rfl)
      rw [hcons, List.cons_append, splitOnce, ← hcons, hstarts]
  | cons d a ih =>
      have hrest : ¬ s ++ [c] <:+: a ++ s := fun hin =>
        h (hin.trans (List.suffix_cons d (a ++ s)).isInfix)
      have hstarts : ¬ s ++ [c] <+: d :: (a ++ ((s ++ [c]) ++ b)) := by
        have hassoc : d :: (a ++ ((s ++ [c]) ++ b)) = (d :: (a ++ s)) ++ ([c] ++ b) := by simp
        rw [hassoc, prefix_append_iff (by simp)]
        exact fun hp => h hp.isInfix
      rw [List.cons_append, splitOnce, isPrefixOf?_eq_none_iff.mpr hstarts, ih hrest]
      rfl

/-- A blank behind a word that has none. -/
theorem blank_behind {w t u v : List Char} (hno : ' ' ∉ w) (h : w ++ t = u ++ ' ' :: v) :
    ∃ m, u = w ++ m ∧ t = m ++ ' ' :: v := by
  rcases List.append_eq_append_iff.mp h with ⟨m, hu, ht⟩ | ⟨m, hw, hv⟩
  · exact ⟨m, hu, ht⟩
  · cases m with
    | nil => exact ⟨[], by rw [hw, List.append_nil, List.append_nil], hv.symm⟩
    | cons d m =>
        obtain ⟨rfl, -⟩ := List.cons.inj hv
        exact absurd (hw ▸ List.mem_append_right u List.mem_cons_self) hno

/-- A blank stands before a word that has none, or behind it. -/
theorem blank_outside {w a t u v : List Char} (hno : ' ' ∉ w)
    (h : u ++ ' ' :: v = a ++ (w ++ t)) :
    (∃ m, a = u ++ ' ' :: m ∧ v = m ++ (w ++ t)) ∨ ∃ m, u = a ++ (w ++ m) ∧ t = m ++ ' ' :: v := by
  rcases List.append_eq_append_iff.mp h with ⟨m, ha, hv⟩ | ⟨m, hu, hv⟩
  · cases m with
    | nil =>
        obtain ⟨m, hnil, ht⟩ := blank_behind hno (u := []) hv.symm
        refine .inr ⟨m, ?_, ht⟩
        rw [← hnil, ha, List.append_nil, List.append_nil]
    | cons d m =>
        obtain ⟨rfl, hrest⟩ := List.cons.inj hv
        exact .inl ⟨m, ha, hrest⟩
  · obtain ⟨m, rfl, ht⟩ := blank_behind hno hv
    exact .inr ⟨m, hu, ht⟩

/-- A word between two blanks is a word. -/
theorem mem_words_between {w : List Char} (hne : w ≠ []) (hw : ∀ c ∈ w, isBlank c = false)
    (u v : List Char) : w ∈ words (u ++ ' ' :: (w ++ ' ' :: v)) := by
  have hspace : isBlank ' ' = true := rfl
  rw [words_append hspace, words_append hspace, words_plain hne hw]
  exact List.mem_append_right _ (List.mem_append_left _ List.mem_cons_self)

/-- A word between two blanks stands where it is known to stand, or among the words before or behind
that place. -/
theorem word_aligned {w x y a t : List Char} (hne : w ≠ []) (hw : ∀ c ∈ w, isBlank c = false)
    (h : x ++ (' ' :: (w ++ ' ' :: y)) = a ++ (w ++ t)) :
    (a = x ++ [' '] ∧ t = ' ' :: y) ∨ w ∈ words a ∨ w ∈ words t := by
  have hno : ' ' ∉ w := fun hin => absurd (hw ' ' hin) (by decide)
  rcases blank_outside hno h with ⟨m, rfl, hrest⟩ | ⟨m, -, rfl⟩
  · rcases blank_outside hno hrest with ⟨n, rfl, -⟩ | ⟨n, hlength, rfl⟩
    · exact .inr (.inl (mem_words_between hne hw x n))
    · -- the two words cover each other
      have hsum := congrArg List.length hlength
      rw [List.length_append, List.length_append] at hsum
      obtain rfl : m = [] := List.length_eq_zero_iff.mp (by omega)
      obtain rfl : n = [] := List.length_eq_zero_iff.mp (by omega)
      exact .inl ⟨rfl, rfl⟩
  · exact .inr (.inr (mem_words_between hne hw m y))

/-- A word between two blanks is found where it stands among the words. -/
theorem splitOnce_word {w a : List Char} (hne : w ≠ []) (hw : ∀ c ∈ w, isBlank c = false)
    (ha : w ∉ words a) (b : List Char) :
    splitOnce (' ' :: (w ++ [' '])) (a ++ ' ' :: (w ++ ' ' :: b)) = some (a, b) := by
  have hfirst : ¬ (' ' :: w) ++ [' '] <:+: a ++ (' ' :: w) := by
    rintro ⟨x, y, hxy⟩
    have heq : x ++ (' ' :: (w ++ ' ' :: y)) = (a ++ [' ']) ++ (w ++ []) := by
      rw [List.append_nil, List.append_assoc, List.singleton_append, ← hxy]
      simp
    have hblank : words (a ++ [' ']) = words a :=
      words_append_blank (fun c hc => by rw [List.mem_singleton.mp hc]; rfl) a
    rcases word_aligned hne hw heq with ⟨-, hnil⟩ | hbefore | hbehind
    · exact absurd hnil (List.cons_ne_nil _ _).symm
    · exact ha (hblank ▸ hbefore)
    · exact absurd hbehind List.not_mem_nil
  have hassoc : a ++ ' ' :: (w ++ ' ' :: b) = a ++ (((' ' :: w) ++ [' ']) ++ b) := by simp
  rw [hassoc]
  exact splitOnce_first hfirst b

/-- A word is not found between two blanks where another character stands beside it. -/
theorem splitOnce_word_eq_none {w a t : List Char} (hne : w ≠ [])
    (hw : ∀ c ∈ w, isBlank c = false) (ha : w ∉ words a) (ht : w ∉ words t)
    (hbeside : a.getLast? = some ' ' → t.head? ≠ some ' ') :
    splitOnce (' ' :: (w ++ [' '])) (a ++ (w ++ t)) = none := by
  refine splitOnce_eq_none_of_not_infix ?_
  rintro ⟨x, y, hxy⟩
  have heq : x ++ (' ' :: (w ++ ' ' :: y)) = a ++ (w ++ t) := by
    rw [← hxy]
    simp
  rcases word_aligned hne hw heq with ⟨rfl, rfl⟩ | hbefore | hbehind
  · exact hbeside List.getLast?_concat rfl
  · exact ha hbefore
  · exact ht hbehind

end ChangeScope.Text
