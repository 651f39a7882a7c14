import ChangeScope.Proofs.Trace.Eviction
import ChangeScope.Proofs.Trace.Kept
import ChangeScope.Proofs.Trace.Replay

/-!
# Requests for one function do not disturb another

All functions share one log, and an exception that one of them raised is not logged again for
another. Yet the answers for a function are made of the lines of its own runs and of the arguments
that it was given (`Agrees.cached?_eq`), and what other functions log changes neither. So, while the
log has room, a tracer answers the requests for a function as if there were no others, in whatever
order they come in between (`entries_apart`).
-/

set_option autoImplicit false

namespace ChangeScope.Trace

/-! ## Counting keys -/

section Count

variable {α β : Type} [DecidableEq β] {key : α → Option β}

theorem firstOf_sublist (l : List α) : ∀ known : List β, (firstOf key known l).Sublist l := by
  induction l with
  | nil => intro known; exact List.Sublist.refl _
  | cons x rest ih =>
      intro known
      cases hx : key x with
      | none =>
          rw [firstOf_none hx]
          exact (ih known).cons_cons x
      | some k =>
          by_cases hk : k ∈ known
          · rw [firstOf_known hx hk]
            exact (ih known).cons x
          · rw [firstOf_new hx hk]
            exact (ih _).cons_cons x

theorem nodup_keys_firstOf (l : List α) : ∀ known : List β,
    ((firstOf key known l).filterMap key).Nodup := by
  induction l with
  | nil => intro known; exact List.nodup_nil
  | cons x rest ih =>
      intro known
      cases hx : key x with
      | none =>
          rw [firstOf_none hx, List.filterMap_cons_none hx]
          exact ih known
      | some k =>
          by_cases hk : k ∈ known
          · rw [firstOf_known hx hk]
            exact ih known
          · rw [firstOf_new hx hk, List.filterMap_cons_some hx, List.nodup_cons]
            refine ⟨fun hmem => ?_, ih _⟩
            exact ((mem_filterMap_firstOf rest (k :: known) k).mp hmem).2 List.mem_cons_self

/-- Items whose keys all occur elsewhere have no more first items than there are elsewhere. -/
theorem length_firstOf_le {l other : List α} (hkeyed : ∀ x ∈ l, (key x).isSome = true)
    (hsub : l.filterMap key ⊆ other.filterMap key) :
    (firstOf key [] l).length ≤ (firstOf key [] other).length := by
  have hkeys : (firstOf key [] l).filterMap key ⊆ (firstOf key [] other).filterMap key := by
    intro k hk
    have hin := ((mem_filterMap_firstOf l [] k).mp hk).1
    exact (mem_filterMap_firstOf other [] k).mpr ⟨hsub hin, List.not_mem_nil⟩
  have hcount : ((firstOf key [] l).filterMap key).length = (firstOf key [] l).length :=
    List.filterMap_length_eq_length.mpr fun x hx => hkeyed x ((firstOf_sublist l []).subset hx)
  calc (firstOf key [] l).length
      = ((firstOf key [] l).filterMap key).length := hcount.symm
    _ ≤ ((firstOf key [] other).filterMap key).length :=
        (nodup_keys_firstOf l []).length_le_of_subset hkeys
    _ ≤ (firstOf key [] other).length := List.length_filterMap_le _ _

end Count

/-- A log has room for the first event of each key. -/
def Fits (capacity : Nat) (all : List Logged) : Prop :=
  (firstOf Logged.key? [] all).length ≤ capacity

/-- Each of the events has a key. -/
def AllKeyed (all : List Logged) : Prop := ∀ logged ∈ all, logged.key?.isSome = true

theorem AllKeyed.append {a b : List Logged} (ha : AllKeyed a) (hb : AllKeyed b) :
    AllKeyed (a ++ b) := fun logged hl => (List.mem_append.mp hl).elim (ha logged) (hb logged)

theorem allKeyed_loggable (run : Run) (events : List Event) : AllKeyed (loggable run events) :=
  fun _ hl => (List.mem_filter.mp hl).2

/-- Events whose keys have room together have room. -/
theorem Fits.of_keys {capacity : Nat} {all other : List Logged} (h : Fits capacity other)
    (hkeyed : AllKeyed all) (hsub : keysOf all ⊆ keysOf other) : Fits capacity all :=
  (length_firstOf_le hkeyed hsub).trans h

theorem keysOf_append (a b : List Logged) : keysOf (a ++ b) = keysOf a ++ keysOf b :=
  List.filterMap_append

/-- The events of a function in a log of all functions. -/
def ofEntry (entry : String) (all : List Logged) : List Logged :=
  all.filter (·.run.entry == entry)

theorem keysOf_ofEntry (entry : String) (all : List Logged) :
    keysOf (ofEntry entry all) ⊆ keysOf all :=
  (List.filter_sublist.filterMap _).subset

theorem ofEntry_append (entry : String) (a b : List Logged) :
    ofEntry entry (a ++ b) = ofEntry entry a ++ ofEntry entry b := List.filter_append a b

theorem ofEntry_loggable (run : Run) (events : List Event) :
    ofEntry run.entry (loggable run events) = loggable run events := by
  refine List.filter_eq_self.mpr fun logged hl => ?_
  obtain ⟨event, -, rfl⟩ := List.mem_map.mp (List.mem_filter.mp hl).1
  exact beq_self_eq_true run.entry

theorem ofEntry_loggable_other {run : Run} {entry : String} (h : run.entry ≠ entry)
    (events : List Event) : ofEntry entry (loggable run events) = [] := by
  refine List.filter_eq_nil_iff.mpr fun logged hl => ?_
  obtain ⟨event, -, rfl⟩ := List.mem_map.mp (List.mem_filter.mp hl).1
  simpa using h

/-! ## One request -/

namespace Tracer

variable {backend : Backend} {t : Tracer} {ask : Ask} {past : List Logged}

/-- The log holds the first event of each key, and has room for it. -/
structure Keeps (t : Tracer) (past : List Logged) : Prop where
  holds : t.session.Holds past
  keyed : AllKeyed past
  fits : Fits t.session.capacity past

theorem keeps_new (maxEvents : Nat) : (Tracer.new maxEvents).Keeps [] :=
  ⟨Session.holds_new maxEvents, fun _ hl => absurd hl List.not_mem_nil, Nat.zero_le _⟩

/-- The ways a request can go. -/
theorem turn_cases (backend : Backend) (t : Tracer) (ask : Ask) :
    (FunctionId.split? ask.entry = none ∧
      turn backend t ask =
        (⟨ask, [.ofFailure (.invalidFunctionId ask.entry) ask.stopLine none], []⟩, t)) ∨
    ∃ file function, FunctionId.split? ask.entry = some (file, function) ∧
      ((∃ events, t.session.cached? ask.entry function file ask.stopLine
            (t.argumentsFor ask.entry ask.arguments) = some events ∧
          turn backend t ask = (⟨ask, events, []⟩, t.remembering ask)) ∨
        (t.session.cached? ask.entry function file ask.stopLine
            (t.argumentsFor ask.entry ask.arguments) = none ∧
          turn backend t ask =
            (⟨ask, backend.eventsFor (t.query ask file), [.trace (t.query ask file)]⟩,
              ⟨((t.remembering ask).session.record ask.entry (t.query ask file).arguments
                  (backend.eventsFor (t.query ask file))).1,
                t.sent ++ [.trace (t.query ask file)]⟩))) := by
  cases hentry : FunctionId.split? ask.entry with
  | none => exact Or.inl ⟨rfl, turn_invalid hentry⟩
  | some parts =>
      obtain ⟨file, function⟩ := parts
      refine Or.inr ⟨file, function, rfl, ?_⟩
      cases hcached : t.session.cached? ask.entry function file ask.stopLine
          (t.argumentsFor ask.entry ask.arguments) with
      | some events => exact Or.inl ⟨events, rfl, turn_cached hentry hcached⟩
      | none => exact Or.inr ⟨rfl, turn_executed hentry hcached⟩

theorem turn_ask : (turn backend t ask).1.ask = ask := by
  rcases turn_cases backend t ask with ⟨-, hturn⟩ | ⟨_, _, -, ⟨_, -, hturn⟩ | ⟨-, hturn⟩⟩ <;>
    rw [hturn]

/-- The queries of a request are about its function. -/
theorem turn_queries {query : Query} (h : query ∈ (turn backend t ask).1.queries) :
    ∃ request, query = .trace request ∧ request.entry = ask.entry := by
  rcases turn_cases backend t ask with ⟨-, hturn⟩ | ⟨file, _, -, ⟨_, -, hturn⟩ | ⟨-, hturn⟩⟩
  · rw [hturn] at h
    exact absurd h List.not_mem_nil
  · rw [hturn] at h
    exact absurd h List.not_mem_nil
  · rw [hturn] at h
    exact ⟨t.query ask file, List.mem_singleton.mp h, rfl⟩

/-- What a request logs are events of its function. -/
theorem ofEntry_logged :
    ofEntry ask.entry (turn backend t ask).1.logged = (turn backend t ask).1.logged ∧
      ∀ entry, ask.entry ≠ entry → ofEntry entry (turn backend t ask).1.logged = [] := by
  rcases turn_cases backend t ask with ⟨-, hturn⟩ | ⟨file, _, -, ⟨_, -, hturn⟩ | ⟨-, hturn⟩⟩
  · rw [hturn]
    exact ⟨rfl, fun _ _ => rfl⟩
  · rw [hturn]
    exact ⟨rfl, fun _ _ => rfl⟩
  · rw [hturn]
    let run : Run := Run.of ask.entry (t.query ask file).arguments
    exact ⟨ofEntry_loggable run _, fun entry hne => @ofEntry_loggable_other run entry hne _⟩

theorem allKeyed_logged (turn : Turn) : AllKeyed turn.logged := by
  unfold Turn.logged
  split
  · exact allKeyed_loggable _ _
  · exact fun _ hl => absurd hl List.not_mem_nil

/-- A request changes the arguments of its own function, and remembers those that it is about. -/
theorem arguments_turn :
    (turn backend t ask).2.session.arguments =
      if (FunctionId.split? ask.entry).isSome then
        t.session.arguments.insert ask.entry (t.argumentsFor ask.entry ask.arguments)
      else t.session.arguments := by
  rcases turn_cases backend t ask with
    ⟨hentry, hturn⟩ | ⟨_, _, hentry, ⟨_, -, hturn⟩ | ⟨-, hturn⟩⟩
  · rw [hturn, hentry]
    rfl
  · rw [hturn, hentry]
    rfl
  · rw [hturn, hentry, remembering, Session.record_remember]
    rfl

/-- **A request adds to the log what its execution told, where there is room for that.** -/
theorem Keeps.turn (h : t.Keeps past)
    (hfits : Fits t.session.capacity (past ++ (turn backend t ask).1.logged)) :
    (turn backend t ask).2.Keeps (past ++ (turn backend t ask).1.logged) ∧
      (turn backend t ask).2.session.capacity = t.session.capacity := by
  have hkeyed := h.keyed.append (allKeyed_logged (Tracer.turn backend t ask).1)
  rcases turn_cases backend t ask with ⟨-, hturn⟩ | ⟨file, _, -, ⟨_, -, hturn⟩ | ⟨-, hturn⟩⟩
  · rw [hturn] at hkeyed hfits ⊢
    refine ⟨⟨?_, hkeyed, hfits⟩, rfl⟩
    show t.session.Holds (past ++ [])
    rw [List.append_nil]
    exact h.holds
  · rw [hturn] at hkeyed hfits ⊢
    refine ⟨⟨?_, hkeyed, hfits⟩, rfl⟩
    show (t.remembering ask).session.Holds (past ++ [])
    rw [List.append_nil]
    exact ⟨h.holds.log_eq, h.holds.mem_seen⟩
  · rw [hturn] at hkeyed hfits ⊢
    rw [remembering, Session.record_remember]
    have hroom := Session.recordRun_room _ _ h.holds hfits
    have hholds := Session.recordRun_holds _ _ h.holds hroom
    have hcapacity := Session.recordRun_capacity (Run.of ask.entry (t.query ask file).arguments)
      (backend.eventsFor (t.query ask file)) t.session
    refine ⟨⟨⟨hholds.log_eq, hholds.mem_seen⟩, hkeyed, ?_⟩, hcapacity⟩
    exact hfits.trans hcapacity.ge

/-! ## Two tracers -/

/-- A tracer that has served all functions and one that has served a single one: their logs hold the
same of that function, and they remember the same arguments for it. -/
structure Agrees (entry : String) (past : List Logged) (shared alone : Tracer) : Prop where
  shared_keeps : shared.Keeps past
  alone_keeps : alone.Keeps (ofEntry entry past)
  arguments : alone.session.arguments.get? entry = shared.session.arguments.get? entry
  capacity : alone.session.capacity = shared.session.capacity

variable {entry : String} {shared alone : Tracer}

/-- The logged lines of a run are lines of its function, whatever else has been logged. -/
theorem filter_ofEntry (run : Run) (function : String) (file : Path) (all : List Logged) :
    (ofEntry run.entry all).filter (Logged.isLineOf run function file) =
      all.filter (Logged.isLineOf run function file) := by
  rw [ofEntry, List.filter_filter]
  refine List.filter_congr fun logged _ => ?_
  cases hline : logged.isLineOf run function file with
  | false => rfl
  | true =>
      have hrun := hline
      rw [Logged.isLineOf, Bool.and_eq_true, beq_iff_eq] at hrun
      rw [hrun.1, beq_self_eq_true]
      rfl

/-- **The logs answer alike for the function.** -/
theorem Agrees.cached?_eq (h : Agrees entry past shared alone) (function : String) (file : Path)
    (stopLine : Nat) (arguments : Arguments) :
    alone.session.cached? entry function file stopLine arguments =
      shared.session.cached? entry function file stopLine arguments := by
  have hkey := Logged.isLineOf_congr (Run.of entry arguments) function file
  have hlines := filter_ofEntry (Run.of entry arguments) function file past
  rw [Session.cached?_eq_reach_log, Session.cached?_eq_reach_log, h.alone_keeps.holds.log_eq,
    h.shared_keeps.holds.log_eq, firstOf_filter hkey, firstOf_filter hkey]
  exact congrArg (fun all => reach stopLine ((firstOf Logged.key? [] all).map (·.event))) hlines

theorem Agrees.argumentsFor_eq (h : Agrees entry past shared alone)
    (arguments : Option Arguments) :
    alone.argumentsFor entry arguments = shared.argumentsFor entry arguments := by
  rw [argumentsFor, argumentsFor, h.arguments]

/-- **A request for the function goes the same way with both.** -/
theorem Agrees.turn_eq (h : Agrees ask.entry past shared alone) :
    (turn backend alone ask).1 = (turn backend shared ask).1 := by
  have harguments := h.argumentsFor_eq ask.arguments
  rcases turn_cases backend shared ask with
    ⟨hentry, hturn⟩ | ⟨file, function, hentry, ⟨events, hcached, hturn⟩ | ⟨hcached, hturn⟩⟩
  · rw [hturn, turn_invalid hentry]
  · rw [← harguments, ← h.cached?_eq] at hcached
    rw [hturn, turn_cached hentry hcached]
  · have hquery : alone.query ask file = shared.query ask file := by
      rw [query, query, harguments]
    rw [← harguments, ← h.cached?_eq] at hcached
    rw [hturn, turn_executed hentry hcached, hquery]

/-- A request for another function leaves the two agreed. -/
theorem Agrees.turn_other (h : Agrees entry past shared alone) (hne : ask.entry ≠ entry)
    (hfits : Fits shared.session.capacity (past ++ (turn backend shared ask).1.logged)) :
    Agrees entry (past ++ (turn backend shared ask).1.logged) (turn backend shared ask).2
      alone := by
  obtain ⟨hkeeps, hcapacity⟩ := h.shared_keeps.turn hfits
  refine ⟨hkeeps, ?_, ?_, h.capacity.trans hcapacity.symm⟩
  · rw [ofEntry_append, ofEntry_logged.2 entry hne, List.append_nil]
    exact h.alone_keeps
  · rw [h.arguments, arguments_turn]
    split
    · rw [OrderedMap.get?_insert_of_ne (Ne.symm hne)]
    · rfl

/-- So does a request for the function itself. -/
theorem Agrees.turn_own (h : Agrees ask.entry past shared alone)
    (hfits : Fits shared.session.capacity (past ++ (turn backend shared ask).1.logged)) :
    Agrees ask.entry (past ++ (turn backend shared ask).1.logged) (turn backend shared ask).2
      (turn backend alone ask).2 := by
  obtain ⟨hkeeps, hcapacity⟩ := h.shared_keeps.turn hfits
  have hpast : ofEntry ask.entry (past ++ (turn backend shared ask).1.logged) =
      ofEntry ask.entry past ++ (turn backend alone ask).1.logged := by
    rw [ofEntry_append, ofEntry_logged.1, h.turn_eq]
  -- what the function has logged alone are some of the events that all have logged
  have halone : Fits alone.session.capacity
      (ofEntry ask.entry past ++ (turn backend alone ask).1.logged) := by
    rw [← hpast, h.capacity]
    refine hfits.of_keys (fun logged hl => ?_) (keysOf_ofEntry _ _)
    exact hkeeps.keyed logged (List.mem_filter.mp hl).1
  obtain ⟨hkeeps', hcapacity'⟩ := h.alone_keeps.turn halone
  refine ⟨hkeeps, hpast ▸ hkeeps', ?_, ?_⟩
  · rw [arguments_turn, arguments_turn, h.argumentsFor_eq]
    split
    · rw [OrderedMap.get?_insert_self, OrderedMap.get?_insert_self]
    · exact h.arguments
  · rw [hcapacity', h.capacity, hcapacity]

/-! ## Many requests -/

/-- The log has room for the new events of one request. -/
theorem Keeps.fits_of_room (h : t.Keeps past)
    (hroom : ∀ request, (Tracer.turn backend t ask).1.queries = [.trace request] →
      t.session.log.length + (t.session.record request.entry request.arguments
        (Tracer.turn backend t ask).1.events).2 ≤ t.session.capacity) :
    Fits t.session.capacity (past ++ (Tracer.turn backend t ask).1.logged) := by
  unfold Turn.logged
  split
  · next request hqueries =>
      have hroom := hroom request hqueries
      have hholds := Session.recordRun_holds _ _ h.holds hroom
      rw [Fits, ← hholds.log_eq]
      exact (Session.length_recordRun_le _ _ t.session).trans hroom
  · rw [List.append_nil]
    exact h.fits

theorem Keeps.room_of_fits (h : t.Keeps past)
    (hfits : Fits t.session.capacity (past ++ (Tracer.turn backend t ask).1.logged))
    {request : Request}
    (hqueries : (Tracer.turn backend t ask).1.queries = [.trace request]) :
    t.session.log.length + (t.session.record request.entry request.arguments
      (Tracer.turn backend t ask).1.events).2 ≤ t.session.capacity := by
  rw [Turn.logged, hqueries] at hfits
  exact Session.recordRun_room _ _ h.holds hfits

/-- All that requests log has room together. -/
theorem Keeps.fits_of_roomy (asks : List Ask) : ∀ {t : Tracer} {past : List Logged}, t.Keeps past →
    t.Roomy backend asks →
      Fits t.session.capacity (past ++ (t.turns backend asks).flatMap Turn.logged) := by
  induction asks with
  | nil =>
      intro t past h _
      rw [turns, List.flatMap_nil, List.append_nil]
      exact h.fits
  | cons ask rest ih =>
      intro t past h hroom
      obtain ⟨hfirst, hrest⟩ := hroom
      obtain ⟨hnext, hcapacity⟩ := h.turn (h.fits_of_room hfirst)
      have hall := ih hnext hrest
      rw [hcapacity, List.append_assoc] at hall
      rw [turns, List.flatMap_cons]
      exact hall

/-- **While there is room, the requests for a function go as if there were no others.** -/
theorem Agrees.turns_filter (asks : List Ask) :
    ∀ {shared alone : Tracer} {past : List Logged}, Agrees entry past shared alone →
      shared.Roomy backend asks →
        (shared.turns backend asks).filter (·.ask.entry == entry) =
          alone.turns backend (asks.filter (·.entry == entry)) := by
  induction asks with
  | nil => intros; rfl
  | cons ask rest ih =>
      intro shared alone past h hroom
      obtain ⟨hfirst, hrest⟩ := hroom
      have hfits := h.shared_keeps.fits_of_room hfirst
      rw [turns, List.filter_cons, List.filter_cons, turn_ask]
      by_cases hentry : ask.entry = entry
      · subst hentry
        rw [if_pos (beq_self_eq_true _), if_pos (beq_self_eq_true _), turns, h.turn_eq,
          ih (h.turn_own hfits) hrest]
      · rw [beq_false_of_ne hentry, if_neg Bool.false_ne_true, if_neg Bool.false_ne_true]
        exact ih (h.turn_other hentry hfits) hrest

/-- If all that the functions log alone has room together, there is room for it in any order. -/
theorem roomy_of_fits {known : List Logged} (asks : List Ask) :
    ∀ {shared : Tracer} {past : List Logged} (alone : String → Tracer),
      (∀ entry, Agrees entry past shared (alone entry)) →
      Fits shared.session.capacity known → keysOf past ⊆ keysOf known →
      (∀ entry, ∀ turn ∈ (alone entry).turns backend (asks.filter (·.entry == entry)),
        keysOf turn.logged ⊆ keysOf known) →
        shared.Roomy backend asks := by
  induction asks with
  | nil => intros; trivial
  | cons ask rest ih =>
      intro shared past alone h hknown hpast hturns
      have hown := h ask.entry
      have hfilter : (ask :: rest).filter (·.entry == ask.entry) =
          ask :: rest.filter (·.entry == ask.entry) := by
        rw [List.filter_cons, if_pos (beq_self_eq_true _)]
      have hfirst := hturns ask.entry
      rw [hfilter, turns] at hfirst
      have hlogged : keysOf (turn backend shared ask).1.logged ⊆ keysOf known := by
        have hkeys := hfirst _ List.mem_cons_self
        rwa [hown.turn_eq] at hkeys
      have hall : keysOf (past ++ (turn backend shared ask).1.logged) ⊆ keysOf known := by
        rw [keysOf_append]
        exact List.append_subset.mpr ⟨hpast, hlogged⟩
      have hfits := hknown.of_keys (hown.shared_keeps.keyed.append (allKeyed_logged _)) hall
      refine ⟨fun request hqueries => hown.shared_keeps.room_of_fits hfits hqueries, ?_⟩
      -- the tracer of the function goes on, and those of the others stay as they are
      refine ih (fun entry => if entry = ask.entry then (turn backend (alone entry) ask).2
        else alone entry) ?_ ((hown.shared_keeps.turn hfits).2 ▸ hknown) hall ?_
      · intro entry
        by_cases hentry : entry = ask.entry
        · subst hentry
          rw [if_pos rfl]
          exact hown.turn_own hfits
        · rw [if_neg hentry]
          exact (h entry).turn_other (Ne.symm hentry) hfits
      · intro entry later hlater
        by_cases hentry : entry = ask.entry
        · subst hentry
          rw [if_pos rfl] at hlater
          exact hfirst later (List.mem_cons_of_mem _ hlater)
        · rw [if_neg hentry] at hlater
          refine hturns entry later ?_
          rw [List.filter_cons, beq_false_of_ne (Ne.symm hentry), if_neg Bool.false_ne_true]
          exact hlater

theorem agrees_new (maxEvents : Nat) (entry : String) :
    Agrees entry [] (Tracer.new maxEvents) (Tracer.new maxEvents) :=
  ⟨keeps_new maxEvents, keeps_new maxEvents, rfl, rfl⟩

/-- The queries of requests are about their functions. -/
theorem queries_of_turns (asks : List Ask) : ∀ {t : Tracer} {turn : Turn},
    turn ∈ t.turns backend asks → ∀ query ∈ turn.queries,
      ∃ request, query = .trace request ∧ request.entry = turn.ask.entry := by
  induction asks with
  | nil => intro t turn hturn; exact absurd hturn List.not_mem_nil
  | cons ask rest ih =>
      intro t turn hturn query hquery
      rcases List.mem_cons.mp hturn with rfl | hturn
      · rw [turn_ask]
        exact turn_queries hquery
      · exact ih hturn query hquery

end Tracer

/-! ## Any order -/

/-- Two sequences of requests ask the same of each function, in the same order. -/
def SameByEntry (a b : List Ask) : Prop :=
  ∀ entry, a.filter (·.entry == entry) = b.filter (·.entry == entry)

/-- **While the log has room, requests for one function go as if there were no others.** A new
tracer answers the requests for a function, and sends queries about it, like a new tracer that gets
these requests alone. Requests of different functions may therefore change places: the log has room
in the other order too, and no request goes another way. -/
theorem entries_apart {backend : Backend} {maxEvents : Nat} {asks : List Ask}
    (hroom : (Tracer.new maxEvents).Roomy backend asks) :
    (∀ entry,
      ((Tracer.new maxEvents).turns backend asks).filter (·.ask.entry == entry) =
        (Tracer.new maxEvents).turns backend (asks.filter (·.entry == entry))) ∧
    (∀ turn ∈ (Tracer.new maxEvents).turns backend asks, ∀ query ∈ turn.queries,
      ∃ request, query = .trace request ∧ request.entry = turn.ask.entry) ∧
    ∀ reordered, SameByEntry reordered asks →
      (Tracer.new maxEvents).Roomy backend reordered ∧
      ∀ entry,
        ((Tracer.new maxEvents).turns backend reordered).filter (·.ask.entry == entry) =
          ((Tracer.new maxEvents).turns backend asks).filter (·.ask.entry == entry) := by
  have hagrees := Tracer.agrees_new maxEvents
  have halone := fun entry => (hagrees entry).turns_filter asks hroom
  refine ⟨halone, fun turn hturn => Tracer.queries_of_turns asks hturn, fun reordered hsame => ?_⟩
  have hfits := (Tracer.keeps_new maxEvents).fits_of_roomy asks hroom
  have hroomy : (Tracer.new maxEvents).Roomy backend reordered := by
    refine Tracer.roomy_of_fits reordered (fun _ => Tracer.new maxEvents) hagrees hfits
      (List.nil_subset _) fun entry turn hturn => ?_
    rw [hsame entry, ← halone entry] at hturn
    have hmem := (List.mem_filter.mp hturn).1
    exact (List.filterMap_subset _ fun logged hl => List.mem_flatMap.mpr ⟨turn, hmem, hl⟩)
  refine ⟨hroomy, fun entry => ?_⟩
  rw [(hagrees entry).turns_filter reordered hroomy, hsame entry, halone entry]

/-- A backend on which every call raises the same exception after its first line. -/
def raisingBackend : Backend where
  trace request := .ok
    [.line request.file.text "f" 1 [], .raised "boom" "" (some 2) (some "lib.py"), .done]
  signature _ := .ok []

/-- Two functions in turn; each is run, and one is asked for a line of its run then. -/
def alternatingAsks : List Ask :=
  [⟨"a.py::f", 2, none⟩, ⟨"b.py::f", 2, none⟩, ⟨"a.py::f", 1, none⟩]

/-- The log has room for two lines and the one exception. -/
theorem roomy_alternating : (Tracer.new 3).Roomy raisingBackend alternatingAsks := by
  refine ⟨fun request hrequest => ?_, fun request hrequest => ?_, fun request hrequest => ?_,
    trivial⟩
  · have heq : request = ⟨"a.py::f", 2, {}, ⟨"a.py"⟩⟩ := by
      cases hrequest
      rfl
    subst heq
    decide
  · have heq : request = ⟨"b.py::f", 2, {}, ⟨"b.py"⟩⟩ := by
      cases hrequest
      rfl
    subst heq
    decide
  · cases hrequest

/-- The requests for the first function before the one for the second. -/
def groupedAsks : List Ask :=
  [⟨"a.py::f", 2, none⟩, ⟨"a.py::f", 1, none⟩, ⟨"b.py::f", 2, none⟩]

theorem sameByEntry_grouped : SameByEntry groupedAsks alternatingAsks := by
  intro entry
  by_cases hfirst : "a.py::f" = entry
  · subst hfirst
    rfl
  · have hother : ("a.py::f" == entry) = false := beq_false_of_ne hfirst
    simp only [groupedAsks, alternatingAsks, List.filter_cons, hother, Bool.false_eq_true, if_false]

/-- The first function alone is answered as before, from the log the second time; and so it is when
its requests come first. -/
theorem entries_apart_raising : ∃ first again : Turn,
    (Tracer.new 3).Roomy raisingBackend alternatingAsks ∧
      SameByEntry groupedAsks alternatingAsks ∧
      ((Tracer.new 3).turns raisingBackend alternatingAsks).filter (·.ask.entry == "a.py::f") =
        [first, again] ∧
      (Tracer.new 3).turns raisingBackend (alternatingAsks.filter (·.entry == "a.py::f")) =
        [first, again] ∧
      ((Tracer.new 3).turns raisingBackend groupedAsks).filter (·.ask.entry == "a.py::f") =
        [first, again] ∧
      first.events.length = 3 ∧ again.events.length = 2 ∧ again.queries = [] := by
  obtain ⟨halone, -, hreordered⟩ := entries_apart roomy_alternating
  have hgrouped := (hreordered groupedAsks sameByEntry_grouped).2 "a.py::f"
  have hturns : ((Tracer.new 3).turns raisingBackend alternatingAsks).filter
      (·.ask.entry == "a.py::f") = [_, _] := rfl
  exact ⟨_, _, roomy_alternating, sameByEntry_grouped, hturns, (halone "a.py::f") ▸ hturns,
    hgrouped ▸ hturns, rfl, rfl, rfl⟩

end ChangeScope.Trace
