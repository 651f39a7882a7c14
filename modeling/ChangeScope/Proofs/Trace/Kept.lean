import Mathlib.Data.List.DropRight
import ChangeScope.Proofs.Trace.Log

/-!
# What a session keeps

Whatever a session has gone through, the keys that it has seen are the keys of its log, no two
events of the log have one key, and the log has room for its events (`Session.IsKept`). So the log
alone says what a recording adds: an event is new when no event of the log has its key at that
moment (`newEvents`), and of the log with what is new the last events stay (`kept_after`).
-/

set_option autoImplicit false

namespace ChangeScope.Trace

/-! ## Histories -/

/-- What can happen to a session. -/
inductive Operation where
  | record (entry : String) (arguments : Arguments) (events : List Event)
  | remember (entry : String) (arguments : Arguments)
  | keepSignature (entry : String) (params : List String)
  | reset

namespace Session

/-- The session after an operation. -/
def perform (s : Session) : Operation → Session
  | .record entry arguments events => (s.record entry arguments events).1
  | .remember entry arguments => s.remember entry arguments
  | .keepSignature entry params => s.keepSignature entry params
  | .reset => s.reset

/-- The session after operations, one after the other. -/
def after (s : Session) (history : List Operation) : Session := history.foldl perform s

end Session

/-! ## New events -/

/-- The keys of logged events. -/
def keysOf (log : List Logged) : List EventKey := log.filterMap Logged.key?

/-- The events of a run that are new to a log of bounded length when they come one after the other:
those that have a key which no event has that the log holds by then. -/
def newEvents (capacity : Nat) (run : Run) : List Logged → List Event → List Logged
  | _, [] => []
  | log, event :: rest =>
      match (Logged.mk run event).key? with
      | none => newEvents capacity run log rest
      | some key =>
          if key ∈ keysOf log then newEvents capacity run log rest
          else
            ⟨run, event⟩ ::
              newEvents capacity run ((log ++ [Logged.mk run event]).rtake capacity) rest

variable {capacity : Nat} {run : Run} {event : Event} {log : List Logged}

theorem newEvents_none (h : (Logged.mk run event).key? = none) (rest : List Event) :
    newEvents capacity run log (event :: rest) = newEvents capacity run log rest := by
  rw [newEvents, h]

theorem newEvents_known {key : EventKey} (h : (Logged.mk run event).key? = some key)
    (hkey : key ∈ keysOf log) (rest : List Event) :
    newEvents capacity run log (event :: rest) = newEvents capacity run log rest := by
  rw [newEvents, h]
  exact if_pos hkey

theorem newEvents_new {key : EventKey} (h : (Logged.mk run event).key? = some key)
    (hkey : key ∉ keysOf log) (rest : List Event) :
    newEvents capacity run log (event :: rest) =
      ⟨run, event⟩ ::
        newEvents capacity run ((log ++ [Logged.mk run event]).rtake capacity) rest := by
  rw [newEvents, h]
  exact if_neg hkey

/-- The new events are some of the events, in their order. -/
theorem newEvents_sublist (events : List Event) : ∀ log : List Logged,
    (newEvents capacity run log events).Sublist (events.map (Logged.mk run)) := by
  induction events with
  | nil => intro log; exact List.Sublist.refl _
  | cons event rest ih =>
      intro log
      rw [List.map_cons]
      cases hkey : (Logged.mk run event).key? with
      | none =>
          rw [newEvents_none hkey]
          exact (ih log).cons _
      | some key =>
          by_cases hmem : key ∈ keysOf log
          · rw [newEvents_known hkey hmem]
            exact (ih log).cons _
          · rw [newEvents_new hkey hmem]
            exact (ih _).cons_cons _

/-! ## The end of a list -/

section Last

variable {α : Type} {l : List α} {n : Nat}

theorem rtake_of_length_le (h : l.length ≤ n) : l.rtake n = l := by
  rw [List.rtake, Nat.sub_eq_zero_of_le h, List.drop_zero]

theorem length_rtake_le (l : List α) (n : Nat) : (l.rtake n).length ≤ n := by
  rw [List.rtake, List.length_drop]
  omega

/-- What went before the last items does not come back. -/
theorem rtake_append_rtake (l more : List α) (n : Nat) :
    (l.rtake n ++ more).rtake n = (l ++ more).rtake n := by
  have hsplit : l ++ more = l.take (l.length - n) ++ (l.rtake n ++ more) := by
    rw [← List.append_assoc, List.rtake, List.take_append_drop]
  have hlength : (l.rtake n ++ more).length = l.length - (l.length - n) + more.length := by
    rw [List.length_append, List.rtake, List.length_drop]
  have hcut : (l ++ more).length - n =
      (l.take (l.length - n)).length + ((l.rtake n ++ more).length - n) := by
    rw [hlength, List.length_append, List.length_take]
    omega
  symm
  calc (l ++ more).rtake n = (l ++ more).drop ((l ++ more).length - n) := rfl
    _ = (l.take (l.length - n) ++ (l.rtake n ++ more)).drop
          ((l.take (l.length - n)).length + ((l.rtake n ++ more).length - n)) := by
        rw [← hcut, ← hsplit]
    _ = (l.rtake n ++ more).rtake n := List.drop_length_add_append _

end Last

/-! ## The invariant -/

/-- The log holds as many events as it may, with different keys, and these keys are the seen
ones. -/
structure Session.IsKept (maxEvents : Nat) (s : Session) : Prop where
  capacity_eq : s.capacity = max maxEvents 1
  length_le : s.log.length ≤ max maxEvents 1
  mem_seen : ∀ key, key ∈ s.seen ↔ key ∈ keysOf s.log
  nodup : (keysOf s.log).Nodup
  not_done : ∀ logged ∈ s.log, logged.event ≠ .done

namespace Session

theorem isKept_empty {maxEvents : Nat} {s : Session} (hcapacity : s.capacity = max maxEvents 1)
    (hlog : s.log = []) (hseen : s.seen = []) : s.IsKept maxEvents := by
  refine ⟨hcapacity, ?_, ?_, ?_, ?_⟩
  · rw [hlog]
    exact Nat.zero_le _
  · intro key
    rw [hlog, hseen]
    rfl
  · rw [hlog]
    exact List.nodup_nil
  · rw [hlog]
    exact fun logged hlogged => absurd hlogged List.not_mem_nil

theorem evict_log (s : Session) : s.evict.log = s.log.rtake s.capacity := rfl

/-- The keys that are left are those of the events that are left. -/
theorem mem_evict_seen {s : Session} (hseen : ∀ key, key ∈ s.seen ↔ key ∈ keysOf s.log)
    (hnodup : (keysOf s.log).Nodup) (key : EventKey) :
    key ∈ s.evict.seen ↔ key ∈ keysOf s.evict.log := by
  have hsplit : keysOf s.log =
      keysOf (s.log.take (s.log.length - s.capacity)) ++ keysOf s.evict.log := by
    rw [evict_log, List.rtake, keysOf, keysOf, keysOf, ← List.filterMap_append,
      List.take_append_drop]
  have hgone : ((s.log.take (s.log.length - s.capacity)).any fun old => old.key? == some key) =
      decide (key ∈ keysOf (s.log.take (s.log.length - s.capacity))) := by
    rw [Bool.eq_iff_iff, decide_eq_true_eq, List.any_eq_true, keysOf, List.mem_filterMap]
    simp only [beq_iff_eq]
  have hleft : key ∈ s.evict.seen ↔
      key ∈ s.seen ∧ key ∉ keysOf (s.log.take (s.log.length - s.capacity)) := by
    unfold evict
    rw [List.mem_filter, hgone, Bool.not_eq_true', decide_eq_false_iff_not]
  -- the keys are different, so no event that stays has the key of one that goes
  rw [hleft, hseen, hsplit, List.mem_append]
  rw [hsplit] at hnodup
  have hdisjoint := List.disjoint_of_nodup_append hnodup
  constructor
  · rintro ⟨hgone | hkept, hnot⟩
    · exact absurd hgone hnot
    · exact hkept
  · intro hkept
    exact ⟨Or.inr hkept, fun hgone => hdisjoint hgone hkept⟩

variable {maxEvents : Nat} {s : Session}

/-- A new event is put last, and the log keeps its last events. -/
theorem IsKept.recordOne_new (h : s.IsKept maxEvents) {logged : Logged} {key : EventKey}
    (hkey : logged.key? = some key) (hnew : key ∉ keysOf s.log) :
    (s.recordOne logged).2 = true ∧
      (s.recordOne logged).1.log = (s.log ++ [logged]).rtake (max maxEvents 1) ∧
      (s.recordOne logged).1.IsKept maxEvents := by
  rw [Session.recordOne_new hkey fun hseen => hnew ((h.mem_seen key).mp hseen)]
  -- the session before the oldest events are dropped
  set next : Session := { s with log := s.log ++ [logged], seen := key :: s.seen } with hnext
  have hkeys : keysOf next.log = keysOf s.log ++ [key] := by
    show (s.log ++ [logged]).filterMap _ = _
    rw [List.filterMap_append, List.filterMap_cons_some hkey]
    rfl
  have hseen : ∀ k, k ∈ next.seen ↔ k ∈ keysOf next.log := by
    intro k
    rw [hkeys, List.mem_append, List.mem_singleton, ← h.mem_seen]
    exact List.mem_cons.trans or_comm
  have hnodup : (keysOf next.log).Nodup := by
    rw [hkeys]
    rw [← List.concat_eq_append]
    exact h.nodup.concat hnew
  have hlog : next.evict.log = (s.log ++ [logged]).rtake (max maxEvents 1) := by
    rw [evict_log, ← h.capacity_eq]
  refine ⟨rfl, hlog, h.capacity_eq, ?_, mem_evict_seen hseen hnodup, ?_, ?_⟩
  · rw [hlog]
    exact length_rtake_le _ _
  · exact hnodup.sublist ((List.drop_sublist _ _).filterMap _)
  · intro l hl
    rw [hlog] at hl
    rcases List.mem_append.mp (List.mem_of_mem_drop hl) with hold | hlast
    · exact h.not_done l hold
    · rw [List.mem_singleton.mp hlast]
      intro hdone
      rw [Logged.key?, hdone] at hkey
      exact absurd hkey (by simp [EventKey.of?])

/-- **A recording puts the new events last, counts them, and keeps the last events of all.** -/
theorem IsKept.recordRun (run : Run) (events : List Event) : ∀ {s : Session}, s.IsKept maxEvents →
    (recordRun run events s).1.IsKept maxEvents ∧
      (recordRun run events s).2 = (newEvents (max maxEvents 1) run s.log events).length ∧
      (recordRun run events s).1.log =
        (s.log ++ newEvents (max maxEvents 1) run s.log events).rtake (max maxEvents 1) := by
  induction events with
  | nil =>
      intro s h
      refine ⟨h, rfl, ?_⟩
      rw [newEvents, List.append_nil, rtake_of_length_le h.length_le]
      rfl
  | cons event rest ih =>
      intro s h
      rw [recordRun_cons]
      cases hkey : (Logged.mk run event).key? with
      | none =>
          rw [recordOne_none hkey, newEvents_none hkey]
          exact ih h
      | some key =>
          by_cases hmem : key ∈ keysOf s.log
          · rw [recordOne_seen hkey ((h.mem_seen key).mpr hmem), newEvents_known hkey hmem]
            exact ih h
          · obtain ⟨hadded, hlog, hnext⟩ := h.recordOne_new hkey hmem
            obtain ⟨hkept, hcount, hrest⟩ := ih hnext
            rw [newEvents_new hkey hmem, hadded]
            rw [hlog] at hcount hrest
            refine ⟨hkept, ?_, ?_⟩
            · rw [hcount]
              rfl
            · -- the events cut off here would be cut off in the end all the same
              rw [hrest, rtake_append_rtake, List.append_assoc, List.singleton_append]

theorem IsKept.perform (h : s.IsKept maxEvents) (operation : Operation) :
    (s.perform operation).IsKept maxEvents := by
  cases operation with
  | record entry arguments events => exact (h.recordRun (Run.of entry arguments) events).1
  | remember entry arguments =>
      exact ⟨h.capacity_eq, h.length_le, h.mem_seen, h.nodup, h.not_done⟩
  | keepSignature entry params =>
      exact ⟨h.capacity_eq, h.length_le, h.mem_seen, h.nodup, h.not_done⟩
  | reset => exact isKept_empty h.capacity_eq rfl rfl

theorem IsKept.after (h : s.IsKept maxEvents) (history : List Operation) :
    (s.after history).IsKept maxEvents := by
  induction history generalizing s with
  | nil => exact h
  | cons operation rest ih => exact ih (h.perform operation)

/-- **After every history the seen keys are those of the log, which are different and not too many,
and a recording adds exactly the events that are new to the log.** -/
theorem kept_after (maxEvents : Nat) (history : List Operation) :
    let s := (Session.new maxEvents).after history
    s.IsKept maxEvents ∧ ∀ (entry : String) (arguments : Arguments) (events : List Event),
      let added := newEvents (max maxEvents 1) (Run.of entry arguments) s.log events
      added.Sublist (events.map (Logged.mk (Run.of entry arguments))) ∧
        (s.record entry arguments events).2 = added.length ∧
        (s.record entry arguments events).1.log =
          (s.log ++ added).rtake (min (max maxEvents 1) (s.log ++ added).length) := by
  intro s
  have hkept : s.IsKept maxEvents := (isKept_empty rfl rfl rfl).after history
  refine ⟨hkept, fun entry arguments events => ?_⟩
  intro added
  obtain ⟨-, hcount, hlog⟩ := hkept.recordRun (Run.of entry arguments) events
  refine ⟨newEvents_sublist events s.log, hcount, ?_⟩
  have hall : (s.log ++ added).rtake (max maxEvents 1) =
      (s.log ++ added).rtake (min (max maxEvents 1) (s.log ++ added).length) := by
    rcases Nat.le_total (s.log ++ added).length (max maxEvents 1) with hle | hle
    · rw [Nat.min_eq_right hle, rtake_of_length_le hle, rtake_of_length_le (Nat.le_refl _)]
    · rw [Nat.min_eq_left hle]
  exact hlog.trans hall

/-- A key that the log has lost is new again, even within one recording. -/
example :
    newEvents 1 ⟨"/repo/m.py::f", ""⟩ [] [.line "/repo/m.py" "f" 1 [], .line "/repo/m.py" "f" 2 [],
      .line "/repo/m.py" "f" 1 []] =
    [⟨⟨"/repo/m.py::f", ""⟩, .line "/repo/m.py" "f" 1 []⟩,
      ⟨⟨"/repo/m.py::f", ""⟩, .line "/repo/m.py" "f" 2 []⟩,
      ⟨⟨"/repo/m.py::f", ""⟩, .line "/repo/m.py" "f" 1 []⟩] := rfl

end Session

end ChangeScope.Trace
