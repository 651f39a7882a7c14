import Mathlib.Data.List.Induction
import ChangeScope.Call.Argument
import ChangeScope.Proofs.Ordered

/-!
# Arguments bound to parameters

Arguments are taken one by one. Positional ones are kept up to the number of parameters
(`fit_positional`); a keyword is kept with its first value where no more positional arguments stand
before it than parameters before its own (`fit_keyword`). Main statement: `resolve_bound`, with the
exact condition under which no parameter is bound twice.
-/

set_option autoImplicit false

namespace ChangeScope.Call

/-! ## Positional arguments and keywords -/

/-- The value of a positional argument. -/
def Argument.positional? (a : Argument) : Option Json :=
  match a.keyword with
  | none => some a.value
  | some _ => none

/-- The values of the positional arguments, in order. -/
def positionals (as : List Argument) : List Json := as.filterMap Argument.positional?

/-- The keyword stands first behind some arguments, with its value. -/
def FirstGiven (as : List Argument) (name : String) (before : List Argument) (value : Json) :
    Prop :=
  (∃ after, as = before ++ ⟨some name, value⟩ :: after) ∧ ∀ a ∈ before, a.keyword ≠ some name

theorem positionals_append (as bs : List Argument) :
    positionals (as ++ bs) = positionals as ++ positionals bs := List.filterMap_append

@[simp] theorem positionals_positional (value : Json) : positionals [⟨none, value⟩] = [value] := rfl

@[simp] theorem positionals_keyword (name : String) (value : Json) :
    positionals [⟨some name, value⟩] = [] := rfl

/-- Before a part of the arguments stand no more positional ones than before all. -/
theorem length_positionals_le {as before : List Argument} {name : String} {value : Json}
    (h : FirstGiven as name before value) :
    (positionals before).length ≤ (positionals as).length := by
  obtain ⟨⟨after, rfl⟩, -⟩ := h
  rw [positionals_append, List.length_append]
  exact Nat.le_add_right _ _

/-- A keyword stands first among some arguments and one more, or the one more is the first. -/
theorem firstGiven_concat {as before : List Argument} {a : Argument} {name : String}
    {value : Json} : FirstGiven (as ++ [a]) name before value ↔
      FirstGiven as name before value ∨
        a = ⟨some name, value⟩ ∧ before = as ∧ ∀ b ∈ as, b.keyword ≠ some name := by
  constructor
  · rintro ⟨⟨after, hafter⟩, hbefore⟩
    rcases List.eq_nil_or_concat after with rfl | ⟨more, last, rfl⟩
    · obtain ⟨rfl, ha⟩ := List.append_inj' hafter rfl
      exact Or.inr ⟨(List.cons.inj ha).1, rfl, hbefore⟩
    · rw [List.concat_eq_append, ← List.cons_append, ← List.append_assoc] at hafter
      obtain ⟨rfl, -⟩ := List.append_inj' hafter rfl
      exact Or.inl ⟨⟨more, rfl⟩, hbefore⟩
  · rintro (⟨⟨after, rfl⟩, hbefore⟩ | ⟨rfl, rfl, hbefore⟩)
    · exact ⟨⟨after ++ [a], by rw [List.append_assoc, List.cons_append]⟩, hbefore⟩
    · exact ⟨⟨[], rfl⟩, hbefore⟩

/-- A keyword that is given is given first somewhere. -/
theorem exists_firstGiven {as : List Argument} {name : String}
    (h : ∃ a ∈ as, a.keyword = some name) : ∃ before value, FirstGiven as name before value := by
  induction as using List.reverseRecOn with
  | nil => exact absurd h (by simp)
  | append_singleton as a ih =>
      by_cases hearlier : ∃ b ∈ as, b.keyword = some name
      · obtain ⟨before, value, hfirst⟩ := ih hearlier
        exact ⟨before, value, firstGiven_concat.mpr (Or.inl hfirst)⟩
      · obtain ⟨b, hb, hname⟩ := h
        rcases List.mem_append.mp hb with hb | hb
        · exact absurd ⟨b, hb, hname⟩ hearlier
        · obtain rfl := List.mem_singleton.mp hb
          obtain ⟨keyword, value⟩ := b
          obtain rfl : keyword = some name := hname
          refine ⟨as, value, firstGiven_concat.mpr (Or.inr ⟨rfl, rfl, fun c hc hkey => ?_⟩)⟩
          exact hearlier ⟨c, hc, hkey⟩

theorem FirstGiven.keyword_mem {as before : List Argument} {name : String} {value : Json}
    (h : FirstGiven as name before value) : ∃ a ∈ as, a.keyword = some name := by
  obtain ⟨⟨after, rfl⟩, -⟩ := h
  exact ⟨_, List.mem_append_right before List.mem_cons_self, rfl⟩

/-! ## Binding one argument -/

/-- Another argument does not touch what a keyword is bound to. -/
theorem bind_keyword_other {a : Argument} {name : String} (h : a.keyword ≠ some name)
    (params : List String) (bound : Trace.Arguments) :
    (bind params bound a).keyword.get? name = bound.keyword.get? name := by
  obtain ⟨keyword, value⟩ := a
  cases keyword with
  | none =>
      simp only [bind]
      split <;> rfl
  | some other =>
      have hne : name ≠ other := fun heq => h (congrArg some heq.symm)
      simp only [bind]
      split
      · split
        · exact OrderedMap.get?_insert_of_ne hne value bound.keyword
        · rfl
      · rfl

/-- A keyword that is bound stays so. -/
theorem bind_keyword_bound {bound : Trace.Arguments} {name : String} {value : Json}
    (h : bound.keyword.get? name = some value) (params : List String) (a : Argument) :
    (bind params bound a).keyword.get? name = some value := by
  by_cases hname : a.keyword = some name
  · obtain ⟨keyword, other⟩ := a
    obtain rfl : keyword = some name := hname
    have hdone : (bound.keyword.get? name).isNone = false := by rw [h]; rfl
    simp only [bind, hdone, Bool.and_false, Bool.false_eq_true, if_false]
    split <;> exact h
  · rw [bind_keyword_other hname, h]

/-- A keyword that is not bound yet is bound where its parameter has not been reached. -/
theorem bind_keyword_new {bound : Trace.Arguments} {name : String}
    (h : bound.keyword.get? name = none) (params : List String) (value other : Json) :
    (bind params bound ⟨some name, value⟩).keyword.get? name = some other ↔
      other = value ∧ ∃ i, params.idxOf? name = some i ∧ bound.positional.length ≤ i := by
  have hfree : (bound.keyword.get? name).isNone = true := by rw [h]; rfl
  simp only [bind, hfree, Bool.and_true, decide_eq_true_eq]
  cases hindex : params.idxOf? name with
  | none => simp [h]
  | some i =>
      by_cases hi : bound.positional.length ≤ i
      · simp [hi, eq_comm]
      · simp [hi, h]

/-! ## What is bound -/

theorem fit_concat (as : List Argument) (a : Argument) (params : List String) :
    fit (as ++ [a]) params = bind params (fit as params) a := by
  rw [fit, List.foldl_append]
  rfl

/-- **Positional arguments are kept in order, up to the number of parameters.** -/
theorem fit_positional (as : List Argument) (params : List String) :
    (fit as params).positional = (positionals as).take params.length := by
  -- arguments are bound from the left, so the induction takes the last one off
  induction as using List.reverseRecOn with
  | nil => exact List.take_nil.symm
  | append_singleton as a ih =>
      obtain ⟨keyword, value⟩ := a
      rw [fit_concat, positionals_append]
      cases keyword with
      | some name =>
          rw [positionals_keyword, List.append_nil, ← ih]
          simp only [bind]
          split
          · split <;> rfl
          · rfl
      | none =>
          rw [positionals_positional]
          simp only [bind]
          split
          · next hroom =>
              rw [ih, List.length_take] at hroom
              rw [ih, List.take_of_length_le (by omega), List.take_of_length_le (by simp; omega)]
          · next hfull =>
              rw [ih, List.length_take] at hfull
              rw [ih, List.take_append_of_le_length (by omega)]

theorem idxOf?_lt {params : List String} {name : String} {i : Nat}
    (h : params.idxOf? name = some i) : i < params.length :=
  (List.idxOf?_eq_some_iff.mp h).1

/-- As many positional arguments as there are parameters before one count in full. -/
theorem fit_length_le_iff {params : List String} {name : String} {i : Nat}
    (h : params.idxOf? name = some i) (as : List Argument) :
    (fit as params).positional.length ≤ i ↔ (positionals as).length ≤ i := by
  have hi := idxOf?_lt h
  rw [fit_positional, List.length_take]
  omega

/-- A keyword is bound to its first value, if its parameter has not been reached by then. -/
def IsBound (as : List Argument) (params : List String) (name : String) (value : Json) : Prop :=
  ∃ before i, FirstGiven as name before value ∧ params.idxOf? name = some i ∧
    (positionals before).length ≤ i

theorem isBound_concat {as : List Argument} {a : Argument} {params : List String} {name : String}
    {value : Json} : IsBound (as ++ [a]) params name value ↔
      IsBound as params name value ∨
        a = ⟨some name, value⟩ ∧ (∀ b ∈ as, b.keyword ≠ some name) ∧
          ∃ i, params.idxOf? name = some i ∧ (positionals as).length ≤ i := by
  constructor
  · rintro ⟨before, i, hfirst, hindex, hle⟩
    rcases firstGiven_concat.mp hfirst with hfirst | ⟨rfl, rfl, hnew⟩
    · exact Or.inl ⟨before, i, hfirst, hindex, hle⟩
    · exact Or.inr ⟨rfl, hnew, i, hindex, hle⟩
  · rintro (⟨before, i, hfirst, hindex, hle⟩ | ⟨rfl, hnew, i, hindex, hle⟩)
    · exact ⟨before, i, firstGiven_concat.mpr (Or.inl hfirst), hindex, hle⟩
    · exact ⟨as, i, firstGiven_concat.mpr (Or.inr ⟨rfl, rfl, hnew⟩), hindex, hle⟩

theorem IsBound.keyword_mem {as : List Argument} {params : List String} {name : String}
    {value : Json} (h : IsBound as params name value) : ∃ a ∈ as, a.keyword = some name := by
  obtain ⟨before, i, hfirst, -⟩ := h
  exact hfirst.keyword_mem

/-- A keyword that would be bound now and is not was given for the first time. -/
theorem new_of_unbound {as : List Argument} {params : List String} {name : String} {i : Nat}
    (h : ∀ value, ¬ IsBound as params name value) (hindex : params.idxOf? name = some i)
    (hle : (positionals as).length ≤ i) : ∀ b ∈ as, b.keyword ≠ some name := by
  intro b hb hname
  obtain ⟨before, value, hfirst⟩ := exists_firstGiven ⟨b, hb, hname⟩
  exact h value ⟨before, i, hfirst, hindex, Nat.le_trans (length_positionals_le hfirst) hle⟩

/-- **A keyword is bound to its first value**, or not at all. -/
theorem fit_keyword (as : List Argument) (params : List String) (name : String) (value : Json) :
    (fit as params).keyword.get? name = some value ↔ IsBound as params name value := by
  induction as using List.reverseRecOn generalizing value with
  | nil =>
      constructor
      · intro h
        exact absurd h (by simp [fit, OrderedMap.get?])
      · intro h
        obtain ⟨a, ha, -⟩ := h.keyword_mem
        exact absurd ha List.not_mem_nil
  | append_singleton as a ih =>
      rw [fit_concat, isBound_concat]
      -- a keyword that is bound keeps its value, and only a first value can bind it
      cases hold : (fit as params).keyword.get? name with
      | some first =>
          have hfirst := (ih first).mp hold
          rw [bind_keyword_bound hold, ← hold, ih]
          constructor
          · exact Or.inl
          · rintro (hbound | ⟨-, hnew, -⟩)
            · exact hbound
            · obtain ⟨b, hb, hname⟩ := hfirst.keyword_mem
              exact absurd hname (hnew b hb)
      | none =>
          have hunbound : ∀ other, ¬ IsBound as params name other := by
            intro other hbound
            rw [(ih other).mpr hbound] at hold
            exact Option.some_ne_none other hold
          by_cases hname : a.keyword = some name
          · obtain ⟨keyword, given⟩ := a
            obtain rfl : keyword = some name := hname
            rw [bind_keyword_new hold]
            constructor
            · rintro ⟨rfl, i, hindex, hle⟩
              have hle := (fit_length_le_iff hindex as).mp hle
              exact Or.inr ⟨rfl, new_of_unbound hunbound hindex hle, i, hindex, hle⟩
            · rintro (hbound | ⟨heq, -, i, hindex, hle⟩)
              · exact absurd hbound (hunbound value)
              · have hvalue : given = value := congrArg Argument.value heq
                exact ⟨hvalue.symm, i, hindex, (fit_length_le_iff hindex as).mpr hle⟩
          · rw [bind_keyword_other hname, hold]
            constructor
            · intro h
              exact absurd h.symm (Option.some_ne_none value)
            · rintro (hbound | ⟨rfl, -⟩)
              · exact absurd hbound (hunbound value)
              · exact absurd rfl hname

/-! ## Parameters bound once -/

/-- No keyword names a parameter that a positional argument takes. -/
def BoundOnce (params : List String) (bound : Trace.Arguments) : Prop :=
  ∀ name, bound.keyword.hasKey name = true → name ∉ params.take bound.positional.length

/-- No keyword stands before the positional argument that takes its parameter. -/
def NoEarlyKeyword (as : List Argument) (params : List String) : Prop :=
  ∀ front value back name, as = front ++ ⟨none, value⟩ :: back →
    params.idxOf? name = some (positionals front).length → ∀ a ∈ front, a.keyword ≠ some name

theorem mem_take_iff {params : List String} {name : String} {i : Nat}
    (h : params.idxOf? name = some i) (n : Nat) : name ∈ params.take n ↔ i < n := by
  obtain ⟨hi, hname, hfirst⟩ := List.idxOf?_eq_some_iff.mp h
  rw [List.mem_take_iff_getElem]
  constructor
  · rintro ⟨j, hj, heq⟩
    by_contra hle
    exact hfirst j (by omega) heq
  · intro hlt
    exact ⟨i, by omega, hname⟩

/-- The positional argument behind a number of others. -/
theorem exists_positional {as : List Argument} {n : Nat} (h : n < (positionals as).length) :
    ∃ front value back, as = front ++ ⟨none, value⟩ :: back ∧ (positionals front).length = n := by
  induction as using List.reverseRecOn with
  | nil => exact absurd h (Nat.not_lt_zero n)
  | append_singleton as a ih =>
      by_cases hlt : n < (positionals as).length
      · obtain ⟨front, value, back, rfl, hlength⟩ := ih hlt
        exact ⟨front, value, back ++ [a], by rw [List.append_assoc, List.cons_append], hlength⟩
      · obtain ⟨keyword, value⟩ := a
        cases keyword with
        | some name =>
            rw [positionals_append, positionals_keyword, List.append_nil] at h
            exact absurd h hlt
        | none =>
            rw [positionals_append, positionals_positional, List.length_append,
              List.length_singleton] at h
            exact ⟨as, value, [], rfl, by omega⟩

/-- **No parameter is bound twice just where no keyword stands before the positional argument that
takes its parameter.** -/
theorem boundOnce_iff (as : List Argument) (params : List String) :
    BoundOnce params (fit as params) ↔ NoEarlyKeyword as params := by
  have hkey : ∀ name, (fit as params).keyword.hasKey name = true ↔
      ∃ value, IsBound as params name value := by
    intro name
    rw [OrderedMap.hasKey, Option.isSome_iff_exists]
    exact exists_congr fun value => fit_keyword as params name value
  constructor
  · rintro h front value back name rfl hindex a ha hname
    -- the first time the keyword is given it is in front, where its parameter is not reached
    obtain ⟨before, given, hfirst⟩ := exists_firstGiven ⟨a, ha, hname⟩
    have hbound : IsBound (front ++ ⟨none, value⟩ :: back) params name given := by
      obtain ⟨⟨after, hafter⟩, hbefore⟩ := hfirst
      refine ⟨before, _, ⟨⟨after ++ ⟨none, value⟩ :: back, ?_⟩, hbefore⟩, hindex,
        length_positionals_le ⟨⟨after, hafter⟩, hbefore⟩⟩
      rw [hafter, List.append_assoc, List.cons_append]
    have hfree := h name ((hkey name).mpr ⟨given, hbound⟩)
    rw [mem_take_iff hindex, Nat.not_lt, fit_length_le_iff hindex, positionals_append,
      List.length_append] at hfree
    have hone : 0 < (positionals (⟨none, value⟩ :: back)).length := Nat.succ_pos _
    omega
  · intro h name hname
    obtain ⟨value, before, i, hfirst, hindex, hle⟩ := (hkey name).mp hname
    rw [mem_take_iff hindex, Nat.not_lt, fit_length_le_iff hindex]
    by_contra hlt
    obtain ⟨front, taken, back, heq, hlength⟩ := exists_positional (Nat.not_le.mp hlt)
    rw [← hlength] at hindex hle
    obtain ⟨⟨after, hafter⟩, -⟩ := hfirst
    have hsplit := hafter.symm.trans heq
    rcases List.append_eq_append_iff.mp hsplit with ⟨rest, rfl, hrest⟩ | ⟨rest, rfl, hrest⟩
    · -- the keyword stands in front of the positional argument
      rcases List.cons_eq_append_iff.mp hrest with ⟨-, hrest⟩ | ⟨tail, rfl, -⟩
      · exact absurd (congrArg Argument.keyword (List.cons.inj hrest).1) (by simp)
      · exact h _ taken back name heq hindex _ (List.mem_append_right before List.mem_cons_self) rfl
    · -- or the positional argument is one of those that count before the keyword
      rcases List.cons_eq_append_iff.mp hrest with ⟨-, hrest⟩ | ⟨tail, rfl, -⟩
      · exact absurd (congrArg Argument.keyword (List.cons.inj hrest).1) (by simp)
      · rw [positionals_append, List.length_append] at hle
        have hone : 0 < (positionals (⟨none, taken⟩ :: tail)).length := Nat.succ_pos _
        omega

/-- Where all keywords stand behind the positional arguments none stands before one. -/
theorem noEarlyKeyword_of_last {as : List Argument}
    (h : ∀ front value back, as = front ++ ⟨none, value⟩ :: back → ∀ a ∈ front, a.keyword = none)
    (params : List String) : NoEarlyKeyword as params := by
  intro front value back name heq _ a ha hname
  rw [h front value back heq a ha] at hname
  exact Option.some_ne_none name hname.symm

/-- **The arguments of a call keep the shape of its callee.** Positional arguments are the first
ones in order, no more than there are parameters; a keyword names a parameter and has its first
value. No parameter is bound twice if and only if no keyword stands before the positional argument
that takes its parameter, as is so where the positional arguments come first. -/
theorem resolve_bound (text : String) (locals : Members) (params : List String) :
    (resolve text locals (some params)).positional =
      (positionals (arguments text locals)).take params.length ∧
    (∀ name value, (resolve text locals (some params)).keyword.get? name = some value ↔
      IsBound (arguments text locals) params name value) ∧
    (BoundOnce params (resolve text locals (some params)) ↔
      NoEarlyKeyword (arguments text locals) params) ∧
    ((∀ front value back, arguments text locals = front ++ ⟨none, value⟩ :: back →
      ∀ a ∈ front, a.keyword = none) → NoEarlyKeyword (arguments text locals) params) :=
  ⟨fit_positional _ _, fit_keyword _ _, boundOnce_iff _ _,
    fun h => noEarlyKeyword_of_last h params⟩

/-- The keyword is bound, and the unpacked values are kept as the first positional argument, which
takes the same parameter. -/
theorem early_keyword_bound_twice :
    resolve "a=1, *rest" [] (some ["a", "b"]) = ⟨[.str "*rest"], [("a", .int 1)]⟩ ∧
      ["a", "b"].Nodup ∧
      ¬ BoundOnce ["a", "b"] (resolve "a=1, *rest" [] (some ["a", "b"])) := by
  have hresolve : resolve "a=1, *rest" [] (some ["a", "b"]) =
      ⟨[.str "*rest"], [("a", .int 1)]⟩ := rfl
  refine ⟨hresolve, by decide, fun h => ?_⟩
  rw [hresolve] at h
  exact h "a" rfl (by decide)

end ChangeScope.Call
