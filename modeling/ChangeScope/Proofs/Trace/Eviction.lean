import ChangeScope.Proofs.Trace.Log

/-!
# Answers from a log that has lost events

A log of bounded length is compared with one that had room for everything. What the short log
answers the long one answers too, since a line that was logged is a line that was recorded
(`recordAll_log_subset`). The two answers are the same exactly when the short log still begins,
for the run, with the lines that the long one replays (`evicted_replay_iff`); where the oldest of
them are gone the replay of the rest may miss lines and stop elsewhere
(`evicted_replay_differs`).
-/

set_option autoImplicit false

namespace ChangeScope.Trace

/-! ## Histories -/

/-- Events that are recorded for a function run with arguments. -/
structure Recording where
  entry : String
  arguments : Arguments
  events : List Event

/-- The recorded events that can be logged. -/
def Recording.logged (r : Recording) : List Logged :=
  loggable (Run.of r.entry r.arguments) r.events

namespace Session

/-- Records one after the other. -/
def recordAll : List Recording → Session → Session
  | [], s => s
  | r :: rest, s => recordAll rest (s.record r.entry r.arguments r.events).1

/-- The logged lines of a function in a run. -/
def linesIn (s : Session) (entry function : String) (file : Path) (arguments : Arguments) :
    List Event :=
  (s.eventsOf (Run.of entry arguments)).filter (Event.isLineIn function file)

theorem cached?_eq_reach (s : Session) (entry function : String) (file : Path) (stopLine : Nat)
    (arguments : Arguments) :
    s.cached? entry function file stopLine arguments =
      reach stopLine (s.linesIn entry function file arguments) :=
  replayTo_eq_reach function file stopLine _

theorem allLines_linesIn (s : Session) (entry function : String) (file : Path)
    (arguments : Arguments) : AllLines (s.linesIn entry function file arguments) := by
  intro event he
  have hline := (List.mem_filter.mp he).2
  cases event with
  | line f name number locals => rfl
  | returned value => exact absurd hline Bool.false_ne_true
  | raised message traceback number f => exact absurd hline Bool.false_ne_true
  | done => exact absurd hline Bool.false_ne_true

theorem mem_linesIn {s : Session} {entry function : String} {file : Path} {arguments : Arguments}
    {event : Event} :
    event ∈ s.linesIn entry function file arguments ↔
      ⟨Run.of entry arguments, event⟩ ∈ s.log ∧ event.isLineIn function file = true := by
  rw [linesIn, List.mem_filter, eventsOf, List.mem_map]
  refine and_congr_left fun _ => ?_
  constructor
  · rintro ⟨⟨run, e⟩, hmem, rfl⟩
    obtain ⟨hlog, hrun⟩ := List.mem_filter.mp hmem
    rw [beq_iff_eq] at hrun
    rwa [← hrun]
  · intro hlog
    exact ⟨_, List.mem_filter.mpr ⟨hlog, beq_self_eq_true _⟩, rfl⟩

/-! ## A log of bounded length -/

/-- Dropping events adds none. -/
theorem recordOne_log_subset (s : Session) (logged : Logged) :
    ∀ l ∈ (s.recordOne logged).1.log, l ∈ s.log ∨ l = logged := by
  intro l hl
  unfold recordOne at hl
  split at hl
  · exact Or.inl hl
  · split at hl
    · exact Or.inl hl
    · have hmem : l ∈ s.log ++ [logged] := List.mem_of_mem_drop hl
      rcases List.mem_append.mp hmem with hmem | hmem
      · exact Or.inl hmem
      · exact Or.inr (List.mem_singleton.mp hmem)

/-- An event without a key is not logged. -/
theorem recordRun_log_subset (run : Run) (events : List Event) : ∀ s : Session,
    ∀ l ∈ (recordRun run events s).1.log, l ∈ s.log ∨ l ∈ loggable run events := by
  induction events with
  | nil => intro s l hl; exact Or.inl hl
  | cons event rest ih =>
      intro s l hl
      rw [recordRun_cons] at hl
      have hrest := ih _ l hl
      cases hkey : (Logged.mk run event).key? with
      | none =>
          rw [loggable_cons_none hkey]
          rw [recordOne_none hkey] at hrest
          exact hrest
      | some k =>
          rw [loggable_cons_some hkey, List.mem_cons]
          rcases hrest with hlog | hlater
          · exact (recordOne_log_subset s _ l hlog).imp_right Or.inl
          · exact Or.inr (Or.inr hlater)

/-- Whatever its length, a log holds nothing but what was recorded. -/
theorem recordAll_log_subset (history : List Recording) : ∀ s : Session,
    ∀ l ∈ (recordAll history s).log, l ∈ s.log ∨ l ∈ history.flatMap Recording.logged := by
  induction history with
  | nil => intro s l hl; exact Or.inl hl
  | cons r rest ih =>
      intro s l hl
      rw [List.flatMap_cons, List.mem_append]
      rcases ih _ l hl with hlog | hlater
      · exact (recordRun_log_subset _ _ s l hlog).imp_right Or.inl
      · exact Or.inr (Or.inr hlater)

/-! ## A log with room for everything -/

theorem recordRun_capacity (run : Run) (events : List Event) : ∀ s : Session,
    (recordRun run events s).1.capacity = s.capacity := by
  induction events with
  | nil => intro s; rfl
  | cons event rest ih =>
      intro s
      rw [recordRun_cons, ih, recordOne]
      split
      · rfl
      · split <;> rfl

/-- **A log with a place for each key holds the first event of each.** -/
theorem recordAll_holds (history : List Recording) : ∀ {s : Session} {all : List Logged},
    s.Holds all →
      (firstOf Logged.key? [] (all ++ history.flatMap Recording.logged)).length ≤ s.capacity →
        (recordAll history s).Holds (all ++ history.flatMap Recording.logged) := by
  induction history with
  | nil =>
      intro s all h _
      rw [List.flatMap_nil, List.append_nil]
      exact h
  | cons r rest ih =>
      intro s all h hfit
      rw [List.flatMap_cons, ← List.append_assoc] at hfit ⊢
      have hpart : (firstOf Logged.key? [] (all ++ r.logged)).length ≤ s.capacity := by
        rw [firstOf_append, List.length_append] at hfit
        omega
      have hnext := recordRun_holds _ _ h (recordRun_room _ _ h hpart)
      refine ih hnext ?_
      rw [record, recordRun_capacity]
      exact hfit

end Session

section Eviction

variable {history : List Recording} {maxEvents wide : Nat}

/-- The events that the long log keeps are the first ones of their keys. -/
theorem wide_holds
    (hwide : (firstOf Logged.key? [] (history.flatMap Recording.logged)).length ≤ wide) :
    (Session.recordAll history (Session.new wide)).Holds (history.flatMap Recording.logged) := by
  have hholds := Session.recordAll_holds history (Session.holds_new wide)
    (by rw [List.nil_append]; exact le_trans hwide (Nat.le_max_left _ _))
  rwa [List.nil_append] at hholds

/-- A line that the short log has stands in the long one, with the locals that came first. -/
theorem exists_mem_wide
    (hwide : (firstOf Logged.key? [] (history.flatMap Recording.logged)).length ≤ wide)
    {entry function : String} {file : Path} {arguments : Arguments} {event : Event}
    (he : event ∈ (Session.recordAll history (Session.new maxEvents)).linesIn entry function file
      arguments) :
    ∃ first ∈ (Session.recordAll history (Session.new wide)).linesIn entry function file arguments,
      first.lineNumber? = event.lineNumber? := by
  obtain ⟨hlog, hline⟩ := Session.mem_linesIn.mp he
  obtain ⟨f, name, number, locals, rfl⟩ : ∃ f name number locals,
      event = .line f name number locals := by
    cases event with
    | line f name number locals => exact ⟨f, name, number, locals, rfl⟩
    | returned value => exact absurd hline Bool.false_ne_true
    | raised message traceback number f => exact absurd hline Bool.false_ne_true
    | done => exact absurd hline Bool.false_ne_true
  have hsubset := Session.recordAll_log_subset history (Session.new maxEvents) _ hlog
  have hrecorded := hsubset.resolve_left List.not_mem_nil
  -- the key of the line was recorded, so the long log has an event with that key
  have hkey : EventKey.line (Run.of entry arguments) f name number ∈
      (history.flatMap Recording.logged).filterMap Logged.key? :=
    List.mem_filterMap.mpr ⟨_, hrecorded, rfl⟩
  have hfirst := (mem_filterMap_firstOf _ [] _).mpr ⟨hkey, List.not_mem_nil⟩
  obtain ⟨⟨run, kept⟩, hkept, hsame⟩ := List.mem_filterMap.mp hfirst
  rw [← (wide_holds hwide).log_eq] at hkept
  cases kept with
  | line f' name' number' locals' =>
      cases hsame
      exact ⟨_, Session.mem_linesIn.mpr ⟨hkept, hline⟩, rfl⟩
  | returned value => cases hsame
  | raised message traceback number f => cases hsame
  | done => cases hsame

/-- **A log that lost events answers what the whole log answers exactly when the lines of the
answer still stand first.** Any hit in the short log is one in the long log. -/
theorem evicted_replay_iff
    (hwide : (firstOf Logged.key? [] (history.flatMap Recording.logged)).length ≤ wide)
    {entry function : String} {file : Path} {stopLine : Nat} {arguments : Arguments}
    {events : List Event}
    (hcached : (Session.recordAll history (Session.new maxEvents)).cached? entry function file
      stopLine arguments = some events) :
    ∃ whole, (Session.recordAll history (Session.new wide)).cached? entry function file stopLine
        arguments = some whole ∧
      (events = whole ↔ whole.dropLast <+:
        (Session.recordAll history (Session.new maxEvents)).linesIn entry function file
          arguments) := by
  set short := Session.recordAll history (Session.new maxEvents) with hshort
  set long := Session.recordAll history (Session.new wide) with hlong
  rw [Session.cached?_eq_reach] at hcached ⊢
  have hlines := short.allLines_linesIn entry function file arguments
  have hlines' := long.allLines_linesIn entry function file arguments
  obtain ⟨before, last, after, number, hsplit, hbefore, hlast, hle, rfl⟩ :=
    (reach_eq_some_iff hlines).mp hcached
  have hhit : (reach stopLine (long.linesIn entry function file arguments)).isSome = true := by
    have hmem : last ∈ short.linesIn entry function file arguments := by
      rw [hsplit]
      exact List.mem_append_right _ List.mem_cons_self
    obtain ⟨first, hfirst, hsame⟩ := exists_mem_wide hwide hmem
    have hmem := List.mem_filterMap.mpr ⟨first, hfirst, hsame.trans hlast⟩
    exact reach_isSome_iff.mpr ⟨number, hmem, hle⟩
  obtain ⟨whole, hwhole⟩ := Option.isSome_iff_exists.mp hhit
  refine ⟨whole, hwhole, ?_⟩
  obtain ⟨before', last', after', number', -, hbefore', hlast', hle', rfl⟩ :=
    (reach_eq_some_iff hlines').mp hwhole
  have hdrop : ∀ (l : List Event) (e : Event), (l ++ [e, .done]).dropLast = l ++ [e] := by
    intro l e
    rw [List.dropLast_append_of_ne_nil (List.cons_ne_nil _ _)]
    rfl
  rw [hdrop]
  constructor
  · intro heq
    have hparts := congrArg List.dropLast heq
    rw [hdrop, hdrop] at hparts
    rw [← hparts, hsplit]
    exact ⟨after, by rw [List.append_assoc, List.singleton_append]⟩
  · rintro ⟨rest, hrest⟩
    -- the short log then stops where the long one does
    have hstop : reach stopLine (short.linesIn entry function file arguments) =
        some (before' ++ [last', .done]) := by
      refine (reach_eq_some_iff hlines).mpr ⟨before', last', rest, number', ?_, hbefore', hlast',
        hle', rfl⟩
      rw [← hrest, List.append_assoc, List.singleton_append]
    exact Option.some.inj (hcached.symm.trans hstop)

end Eviction

/-! ### A line that is gone -/

/-- A run that comes to a late line before two early ones. -/
def lateFirst : List Recording :=
  [⟨"/repo/m.py::f", {}, [.line "/repo/m.py" "f" 9 [], .line "/repo/m.py" "f" 2 [],
    .line "/repo/m.py" "f" 3 []]⟩]

/-- The short log has a hit, though one that stops elsewhere. -/
theorem evicted_replay_iff_lateFirst :
    (Session.recordAll lateFirst (Session.new 2)).cached? "/repo/m.py::f" "f" ⟨"/repo/m.py"⟩ 3 {} =
        some [.line "/repo/m.py" "f" 2 [], .line "/repo/m.py" "f" 3 [], .done] ∧
      ∃ whole, (Session.recordAll lateFirst (Session.new 3)).cached? "/repo/m.py::f" "f"
          ⟨"/repo/m.py"⟩ 3 {} = some whole ∧
        ([.line "/repo/m.py" "f" 2 [], .line "/repo/m.py" "f" 3 [], .done] = whole ↔
          whole.dropLast <+: (Session.recordAll lateFirst (Session.new 2)).linesIn
            "/repo/m.py::f" "f" ⟨"/repo/m.py"⟩ {}) :=
  ⟨rfl, evicted_replay_iff (by decide) rfl⟩

/-- **A log that lost events may answer what the whole log does not.** Without the line that came
first the replay goes on to a later stop. -/
theorem evicted_replay_differs :
    ¬ ∀ (maxEvents wide : Nat) (history : List Recording) (entry function : String) (file : Path)
      (stopLine : Nat) (arguments : Arguments) (events : List Event), 1 ≤ maxEvents →
        (firstOf Logged.key? [] (history.flatMap Recording.logged)).length ≤ wide →
        (Session.recordAll history (Session.new maxEvents)).cached? entry function file stopLine
          arguments = some events →
        (Session.recordAll history (Session.new wide)).cached? entry function file stopLine
          arguments = some events := by
  intro hclaim
  have hshort : (Session.recordAll lateFirst (Session.new 2)).cached? "/repo/m.py::f" "f"
      ⟨"/repo/m.py"⟩ 3 {} =
        some [.line "/repo/m.py" "f" 2 [], .line "/repo/m.py" "f" 3 [], .done] := rfl
  have hlong : (Session.recordAll lateFirst (Session.new 3)).cached? "/repo/m.py::f" "f"
      ⟨"/repo/m.py"⟩ 3 {} = some [.line "/repo/m.py" "f" 9 [], .done] := rfl
  have hsame := hclaim 2 3 lateFirst _ _ _ _ _ _ (by decide) (by decide) hshort
  rw [hlong, Option.some.injEq] at hsame
  exact absurd (congrArg List.length hsame) (by decide)

end ChangeScope.Trace
