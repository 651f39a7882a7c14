import ChangeScope.Proofs.Json.Decode
import ChangeScope.Proofs.Trace.Kept

/-!
# Runs with different arguments do not share events

The key of arguments is made of their values with members in order, so that two sets of arguments
have one key just when they are the same values (`Arguments.key_ofValues_eq_iff`). In a session the
lines and returns of a run are therefore compared only with those of the same function and arguments
that were recorded before, and only those are replayed for it (`runs_apart`).
-/

set_option autoImplicit false

namespace ChangeScope.Trace

open Json (Context Slot toTree)

/-! ## Keys of arguments -/

namespace Arguments

/-- The arguments that are made of values, the keywords given in any order. -/
def ofValues (positional : List Json) (keyword : List (String × Json)) : Arguments :=
  ⟨Json.sortedItems positional, OrderedMap.ofList (Json.sortedMembers keyword)⟩

/-- Arguments are read as what they are made of. -/
theorem decode_obj {positional : List Json} {keyword : List (String × Json)} {ctx : Context}
    (hpositional : Json.height (.arr positional) < ctx.depth)
    (hkeyword : Json.height (.obj keyword) < ctx.depth) :
    decode ctx (toTree (.obj [("args", .arr positional), ("kwargs", .obj keyword)])) =
      .ok (ofValues positional keyword) := by
  obtain ⟨origin, depth⟩ := ctx
  obtain ⟨depth, rfl⟩ := Nat.exists_eq_add_of_le' (Nat.one_le_of_lt hpositional)
  refine Json.Record.decode_obj ["kwargs", "args"] ?_ rfl
  simp only [Json.memberTrees]
  have hargs : Json.Decode.list .any ⟨origin, depth⟩ (toTree (.arr positional)) =
      .ok (Json.sortedItems positional) := Json.list_any_toTree (Nat.le_of_lt_succ hpositional)
  have hkwargs : Json.Decode.map ⟨origin, depth⟩ (toTree (.obj keyword)) =
      .ok (OrderedMap.ofList (Json.sortedMembers keyword)) :=
    Json.map_toTree (Nat.le_of_lt_succ hkeyword)
  rw [Json.Record.fillMembers_cons rfl (by decide) (Slot.read_alsoNamed (Slot.read_of hargs)),
    Json.Record.fillMembers_cons rfl (by decide) (Slot.read_alsoNamed (Slot.read_of hkwargs))]
  rfl

/-- **Two sets of arguments have one key just when they are the same values.** -/
theorem key_ofValues_eq_iff {positional positional' : List Json}
    {keyword keyword' : List (String × Json)} :
    (ofValues positional keyword).key = (ofValues positional' keyword').key ↔
      Json.Same (.arr positional) (.arr positional') ∧
        Json.Same (.obj keyword) (.obj keyword') := by
  rw [← Json.sorted_eq_iff, ← Json.sorted_eq_iff]
  simp only [Json.sorted, Json.arr.injEq, Json.obj.injEq]
  constructor
  · intro h
    exact Arguments.mk.inj (key_injective h)
  · rintro ⟨hpositional, hkeyword⟩
    rw [ofValues, ofValues, hpositional, hkeyword]

end Arguments

/-! ## What was recorded -/

/-- The event was recorded for a function with the arguments, and the session was not reset
since. -/
def Recorded (history : List Operation) (entry : String) (arguments : Arguments) (event : Event) :
    Prop :=
  ∃ before events after, history = before ++ .record entry arguments events :: after ∧
    Operation.reset ∉ after ∧ event ∈ events

variable {maxEvents : Nat} {history : List Operation} {entry : String} {arguments : Arguments}
  {event : Event}

theorem Recorded.snoc (h : Recorded history entry arguments event) {operation : Operation}
    (hoperation : operation ≠ .reset) :
    Recorded (history ++ [operation]) entry arguments event := by
  obtain ⟨before, events, after, rfl, hreset, hevent⟩ := h
  refine ⟨before, events, after ++ [operation], ?_, ?_, hevent⟩
  · rw [List.append_assoc, List.cons_append]
  · rw [List.mem_append, List.mem_singleton]
    rintro (hmem | rfl)
    · exact hreset hmem
    · exact hoperation rfl

theorem Recorded.last {events : List Event} (h : event ∈ events) :
    Recorded (history ++ [.record entry arguments events]) entry arguments event :=
  ⟨history, events, [], rfl, List.not_mem_nil, h⟩

namespace Session

/-- A recording adds events of its run alone. -/
theorem IsKept.mem_recordRun {s : Session} (h : s.IsKept maxEvents) {run : Run}
    {events : List Event} {logged : Logged}
    (hlogged : logged ∈ (Session.recordRun run events s).1.log) :
    logged ∈ s.log ∨ logged.run = run ∧ logged.event ∈ events := by
  rw [(h.recordRun run events).2.2] at hlogged
  rcases List.mem_append.mp (List.mem_of_mem_drop hlogged) with hold | hnew
  · exact Or.inl hold
  · obtain ⟨event, hevent, rfl⟩ := List.mem_map.mp ((newEvents_sublist events s.log).mem hnew)
    exact Or.inr ⟨rfl, hevent⟩

/-- **Every logged event was recorded for the function and the arguments of its run.** -/
theorem recorded_of_mem_log {logged : Logged} :
    ∀ {history : List Operation}, logged ∈ ((Session.new maxEvents).after history).log →
      ∃ entry arguments, logged.run = Run.of entry arguments ∧
        Recorded history entry arguments logged.event := by
  intro history
  -- the last operation either added the event or had it in the log already
  induction history using List.reverseRecOn with
  | nil => exact fun h => absurd h List.not_mem_nil
  | append_singleton history operation ih =>
      have hkept : ((Session.new maxEvents).after history).IsKept maxEvents :=
        (isKept_empty rfl rfl rfl).after history
      rw [Session.after, List.foldl_append]
      intro h
      have hold : logged ∈ ((Session.new maxEvents).after history).log →
          operation ≠ .reset → ∃ entry arguments, logged.run = Run.of entry arguments ∧
            Recorded (history ++ [operation]) entry arguments logged.event := by
        intro hmem hoperation
        obtain ⟨entry, arguments, hrun, hrecorded⟩ := ih hmem
        exact ⟨entry, arguments, hrun, hrecorded.snoc hoperation⟩
      cases operation with
      | record entry arguments events =>
          rcases hkept.mem_recordRun h with hmem | ⟨hrun, hevent⟩
          · exact hold hmem (by simp)
          · exact ⟨entry, arguments, hrun, .last hevent⟩
      | remember entry arguments => exact hold h (by simp)
      | keepSignature entry params => exact hold h (by simp)
      | reset => exact absurd h List.not_mem_nil

end Session

/-! ## Lines and returns -/

/-- The event belongs to one run: it is a line or a return. -/
def Event.isOfOneRun : Event → Bool
  | .line _ _ _ _ => true
  | .returned _ => true
  | .raised _ _ _ _ => false
  | .done => false

/-- A line or a return has the key of no event of another run. -/
theorem run_eq_of_key {run : Run} (hevent : event.isOfOneRun = true) {logged : Logged}
    {key : EventKey} (hkey : (Logged.mk run event).key? = some key)
    (hlogged : logged.key? = some key) : logged.run = run := by
  obtain ⟨run', event'⟩ := logged
  cases event with
  | line file function number locals =>
      obtain rfl := Option.some.inj hkey
      cases event' <;> simp_all [Logged.key?, EventKey.of?]
  | returned value =>
      obtain rfl := Option.some.inj hkey
      cases event' <;> simp_all [Logged.key?, EventKey.of?]
  | raised => exact absurd hevent Bool.false_ne_true
  | done => exact absurd hevent Bool.false_ne_true

/-- What is replayed was among the events, but for the end. -/
theorem mem_of_replayTo {function : String} {file : Path} {stopLine : Nat}
    {events answer : List Event}
    (h : Session.replayTo function file stopLine events = some answer) (hevent : event ∈ answer)
    (hdone : event ≠ .done) : event ∈ events := by
  rw [replayTo_eq_reach] at h
  exact (List.mem_filter.mp (mem_of_reach h hevent hdone)).1

theorem key_isSome_of_isOfOneRun (run : Run) (hevent : event.isOfOneRun = true) :
    ∃ key, (Logged.mk run event).key? = some key := by
  cases event with
  | line => exact ⟨_, rfl⟩
  | returned => exact ⟨_, rfl⟩
  | raised => exact absurd hevent Bool.false_ne_true
  | done => exact absurd hevent Bool.false_ne_true

/-- What the log holds of a run was recorded with its arguments. -/
theorem recorded_of_run {logged : Logged}
    (hlogged : logged ∈ ((Session.new maxEvents).after history).log)
    (hrun : logged.run = Run.of entry arguments) :
    Recorded history entry arguments logged.event := by
  obtain ⟨entry', arguments', hrun', h⟩ := Session.recorded_of_mem_log hlogged
  obtain ⟨rfl, rfl⟩ := Run.of_inj.mp (hrun.symm.trans hrun')
  exact h

/-- A line or a return is only left out after one of its own run. -/
theorem recorded_of_skipped (hevent : event.isOfOneRun = true)
    (hskipped : (((Session.new maxEvents).after history).recordOne
      ⟨Run.of entry arguments, event⟩).2 = false) :
    ∃ earlier, Recorded history entry arguments earlier ∧
      EventKey.of? (Run.of entry arguments) earlier =
        EventKey.of? (Run.of entry arguments) event := by
  have hkept : ((Session.new maxEvents).after history).IsKept maxEvents :=
    (Session.isKept_empty rfl rfl rfl).after history
  obtain ⟨key, hkey⟩ := key_isSome_of_isOfOneRun (Run.of entry arguments) hevent
  have hmem : key ∈ keysOf ((Session.new maxEvents).after history).log := by
    by_contra hnew
    rw [(hkept.recordOne_new hkey hnew).1] at hskipped
    exact absurd hskipped (by decide)
  obtain ⟨logged, hlogged, hsame⟩ := List.mem_filterMap.mp hmem
  have hrun := run_eq_of_key hevent hkey hsame
  refine ⟨logged.event, recorded_of_run hlogged hrun, ?_⟩
  rw [← hrun]
  rw [← hrun] at hkey
  exact hsame.trans hkey.symm

/-- What is replayed for a run was recorded for it. -/
theorem recorded_of_cached {function : String} {file : Path} {stopLine : Nat}
    {answer : List Event} (hanswer : ((Session.new maxEvents).after history).cached? entry function
      file stopLine arguments = some answer) (hevent : event ∈ answer) (hdone : event ≠ .done) :
    Recorded history entry arguments event := by
  have hmem := mem_of_replayTo hanswer hevent hdone
  obtain ⟨logged, hlogged, rfl⟩ := List.mem_map.mp hmem
  obtain ⟨hlog, hrun⟩ := List.mem_filter.mp hlogged
  exact recorded_of_run hlog (eq_of_beq hrun)

/-- **Runs with different arguments do not share events.** Arguments have one key just when they are
the same values. After every history a line or a return is only left out if an event of the same
key was recorded for the same function with the same arguments, and what is replayed was. -/
theorem runs_apart :
    (∀ (positional positional' : List Json) (keyword keyword' : List (String × Json)),
      (Arguments.ofValues positional keyword).key = (Arguments.ofValues positional' keyword').key ↔
        Json.Same (.arr positional) (.arr positional') ∧
          Json.Same (.obj keyword) (.obj keyword')) ∧
    ∀ (maxEvents : Nat) (history : List Operation) (entry : String) (arguments : Arguments),
      let s := (Session.new maxEvents).after history
      (∀ event : Event, event.isOfOneRun = true →
        (s.recordOne ⟨Run.of entry arguments, event⟩).2 = false →
        ∃ earlier, Recorded history entry arguments earlier ∧
          EventKey.of? (Run.of entry arguments) earlier =
            EventKey.of? (Run.of entry arguments) event) ∧
      ∀ (function : String) (file : Path) (stopLine : Nat) (answer : List Event),
        s.cached? entry function file stopLine arguments = some answer →
        ∀ event ∈ answer, event ≠ .done → Recorded history entry arguments event :=
  ⟨fun _ _ _ _ => Arguments.key_ofValues_eq_iff, fun _ _ _ _ =>
    ⟨fun _ hevent hskipped => recorded_of_skipped hevent hskipped,
      fun _ _ _ _ hanswer _ hevent hdone => recorded_of_cached hanswer hevent hdone⟩⟩

/-- Keywords given in another order are the same arguments, and a line that was recorded once is
left out and replayed. -/
theorem runs_apart_repeated :
    (Arguments.ofValues [] [("a", .int 1), ("b", .null)]).key =
        (Arguments.ofValues [] [("b", .null), ("a", .int 1)]).key ∧
      (∃ earlier, Recorded [.record "f" {} [.line "m" "f" 2 []]] "f" {} earlier ∧
        EventKey.of? (Run.of "f" {}) earlier =
          EventKey.of? (Run.of "f" {}) (.line "m" "f" 2 [("x", .null)])) ∧
      Recorded [.record "f" {} [.line "m" "f" 2 []]] "f" {} (.line "m" "f" 2 []) := by
  obtain ⟨hkey, hruns⟩ := runs_apart
  obtain ⟨hskipped, hreplayed⟩ := hruns 9 [.record "f" {} [.line "m" "f" 2 []]] "f" {}
  refine ⟨(hkey [] [] _ _).mpr ⟨Json.sorted_eq_iff.mp rfl, Json.sorted_eq_iff.mp rfl⟩,
    hskipped _ rfl rfl, ?_⟩
  exact hreplayed "f" ⟨"m"⟩ 2 [.line "m" "f" 2 [], .done] rfl _ (.head _) nofun

end ChangeScope.Trace
