import ChangeScope.Trace.Session
import ChangeScope.Proofs.Json.Written

/-!
# What a log holds

A log that had room for everything holds, of all the events that were recorded, the first one of
each key, in the order of recording (`Session.Holds`). Keys name runs by the text of their
arguments, which no two sets of arguments have in common (`Run.of_inj`).
-/

set_option autoImplicit false

namespace ChangeScope

theorem Path.same_self (p : Path) : Path.same p p = true := beq_self_eq_true _

namespace Trace

/-! ## Runs -/

theorem Arguments.key_injective {a b : Arguments} (h : a.key = b.key) : a = b := by
  have hjson := Json.compact_injective h
  simp only [Arguments.toJson, Json.obj.injEq, List.cons.injEq, Prod.mk.injEq, Json.arr.injEq,
    true_and, and_true] at hjson
  cases a
  cases b
  rw [Arguments.mk.injEq]
  exact hjson

/-- **Runs of one function with different arguments are different runs.** -/
theorem Run.of_inj {entry entry' : String} {a b : Arguments} :
    Run.of entry a = Run.of entry' b ↔ entry = entry' ∧ a = b := by
  constructor
  · intro h
    rw [Run.of, Run.of, Run.mk.injEq] at h
    exact ⟨h.1, Arguments.key_injective h.2⟩
  · rintro ⟨rfl, rfl⟩
    rfl

/-! ## The first item of each key -/

section FirstOf

variable {α β : Type} [DecidableEq β] (key : α → Option β)

/-- The items without those whose key is known or occurs before; items without a key stay. -/
def firstOf : List β → List α → List α
  | _, [] => []
  | known, x :: rest =>
      match key x with
      | none => x :: firstOf known rest
      | some k => if k ∈ known then firstOf known rest else x :: firstOf (k :: known) rest

@[simp] theorem firstOf_nil (known : List β) : firstOf key known [] = [] := rfl

variable {key}

theorem firstOf_none {known : List β} {x : α} {rest : List α} (h : key x = none) :
    firstOf key known (x :: rest) = x :: firstOf key known rest := by
  rw [firstOf, h]

theorem firstOf_known {known : List β} {x : α} {rest : List α} {k : β} (h : key x = some k)
    (hk : k ∈ known) : firstOf key known (x :: rest) = firstOf key known rest := by
  rw [firstOf, h]
  exact if_pos hk

theorem firstOf_new {known : List β} {x : α} {rest : List α} {k : β} (h : key x = some k)
    (hk : k ∉ known) : firstOf key known (x :: rest) = x :: firstOf key (k :: known) rest := by
  rw [firstOf, h]
  exact if_neg hk

/-- Only the set of the known keys counts. -/
theorem firstOf_congr (l : List α) : ∀ {known known' : List β},
    (∀ k, k ∈ known ↔ k ∈ known') → firstOf key known l = firstOf key known' l := by
  induction l with
  | nil => intros; rfl
  | cons x rest ih =>
      intro known known' h
      cases hx : key x with
      | none => rw [firstOf_none hx, firstOf_none hx, ih h]
      | some k =>
          by_cases hk : k ∈ known
          · rw [firstOf_known hx hk, firstOf_known hx ((h k).mp hk), ih h]
          · have hcons : ∀ j, j ∈ k :: known ↔ j ∈ k :: known' := fun j => by simp [h j]
            rw [firstOf_new hx hk, firstOf_new hx (fun hk' => hk ((h k).mpr hk')), ih hcons]

theorem firstOf_append (a b : List α) : ∀ known : List β,
    firstOf key known (a ++ b) =
      firstOf key known a ++ firstOf key (a.filterMap key ++ known) b := by
  induction a with
  | nil => intro known; rfl
  | cons x rest ih =>
      intro known
      rw [List.cons_append]
      cases hx : key x with
      | none =>
          rw [firstOf_none hx, firstOf_none hx, ih, List.filterMap_cons_none hx, List.cons_append]
      | some k =>
          by_cases hk : k ∈ known
          · rw [firstOf_known hx hk, firstOf_known hx hk, ih, List.filterMap_cons_some hx]
            congr 1
            -- only the set of the known keys matters
            refine firstOf_congr _ fun j => ?_
            simp only [List.mem_append, List.mem_cons]
            constructor
            · rintro (h | h)
              · exact Or.inl (Or.inr h)
              · exact Or.inr h
            · rintro ((rfl | h) | h)
              · exact Or.inr hk
              · exact Or.inl h
              · exact Or.inr h
          · rw [firstOf_new hx hk, firstOf_new hx hk, ih, List.filterMap_cons_some hx,
              List.cons_append]
            congr 2
            refine firstOf_congr _ fun j => ?_
            simp only [List.mem_append, List.mem_cons]
            tauto

/-- The same keys occur as before, without the known ones. -/
theorem mem_filterMap_firstOf (l : List α) : ∀ (known : List β) (k : β),
    k ∈ (firstOf key known l).filterMap key ↔ k ∈ l.filterMap key ∧ k ∉ known := by
  induction l with
  | nil => simp
  | cons x rest ih =>
      intro known k
      cases hx : key x with
      | none => rw [firstOf_none hx, List.filterMap_cons_none hx, List.filterMap_cons_none hx, ih]
      | some j =>
          by_cases hj : j ∈ known
          · rw [firstOf_known hx hj, ih, List.filterMap_cons_some hx, List.mem_cons]
            constructor
            · rintro ⟨h, hk⟩
              exact ⟨Or.inr h, hk⟩
            · rintro ⟨rfl | h, hk⟩
              · exact absurd hj hk
              · exact ⟨h, hk⟩
          · rw [firstOf_new hx hj, List.filterMap_cons_some hx, List.filterMap_cons_some hx,
              List.mem_cons, ih, List.mem_cons, List.mem_cons, not_or]
            constructor
            · rintro (rfl | ⟨h, -, hk⟩)
              · exact ⟨Or.inl rfl, hj⟩
              · exact ⟨Or.inr h, hk⟩
            · rintro ⟨rfl | h, hk⟩
              · exact Or.inl rfl
              · by_cases hkj : k = j
                · exact Or.inl hkj
                · exact Or.inr ⟨h, hkj, hk⟩

theorem firstOf_eq_nil {l : List α} : ∀ {known : List β},
    (∀ x ∈ l, ∃ k ∈ known, key x = some k) → firstOf key known l = [] := by
  induction l with
  | nil => intros; rfl
  | cons x rest ih =>
      intro known h
      obtain ⟨k, hk, hx⟩ := h x List.mem_cons_self
      rw [firstOf_known hx hk, ih fun y hy => h y (List.mem_cons_of_mem _ hy)]

/-- A key that does not occur need not be known. -/
theorem firstOf_absent {k : β} (l : List α) (h : ∀ x ∈ l, key x ≠ some k) :
    ∀ known : List β, firstOf key (k :: known) l = firstOf key known l := by
  induction l with
  | nil => intro known; rfl
  | cons x rest ih =>
      intro known
      have ih := ih fun y hy => h y (List.mem_cons_of_mem _ hy)
      cases hx : key x with
      | none => rw [firstOf_none hx, firstOf_none hx, ih]
      | some j =>
          have hjk : j ≠ k := fun hjk => h x List.mem_cons_self (by rw [hx, hjk])
          by_cases hj : j ∈ known
          · rw [firstOf_known hx hj, firstOf_known hx (List.mem_cons_of_mem _ hj), ih]
          · have hswap : ∀ i, i ∈ j :: k :: known ↔ i ∈ k :: j :: known := by
              intro i
              simp only [List.mem_cons]
              exact or_left_comm
            rw [firstOf_new hx hj, firstOf_new hx (by simp [hjk, hj]), firstOf_congr rest hswap, ih]

/-- Items picked by their keys may be picked before or after. -/
theorem firstOf_filter {p : α → Bool}
    (hp : ∀ x y k, key x = some k → key y = some k → p x = p y) (l : List α) :
    ∀ known : List β, (firstOf key known l).filter p = firstOf key known (l.filter p) := by
  induction l with
  | nil => intro known; rfl
  | cons x rest ih =>
      intro known
      cases hx : key x with
      | none =>
          rw [firstOf_none hx, List.filter_cons, List.filter_cons, ih]
          split
          · rw [firstOf_none hx]
          · rfl
      | some k =>
          by_cases hk : k ∈ known
          · rw [firstOf_known hx hk, ih, List.filter_cons]
            split
            · rw [firstOf_known hx hk]
            · rfl
          · rw [firstOf_new hx hk, List.filter_cons, List.filter_cons, ih]
            split
            · rw [firstOf_new hx hk]
            · next hpx =>
                refine firstOf_absent _ (fun y hy hyk => ?_) known
                rw [hp x y k hx hyk] at hpx
                exact hpx (List.mem_filter.mp hy).2

/-- Items may be mapped before or after, if that keeps apart the keys. -/
theorem firstOf_map {γ δ : Type} [DecidableEq γ] {f : α → δ} {key' : δ → Option γ} {g : γ → β}
    (hg : ∀ i j, g i = g j → i = j) (l : List α)
    (h : ∀ x ∈ l, key x = (key' (f x)).map g) :
    ∀ known : List γ,
      (firstOf key (known.map g) l).map f = firstOf key' known (l.map f) := by
  induction l with
  | nil => intro known; rfl
  | cons x rest ih =>
      intro known
      have hkey := h x List.mem_cons_self
      have ih := ih fun y hy => h y (List.mem_cons_of_mem _ hy)
      rw [List.map_cons]
      cases hx : key' (f x) with
      | none =>
          rw [hx] at hkey
          rw [firstOf_none hkey, firstOf_none hx, List.map_cons, ih]
      | some k =>
          rw [hx] at hkey
          have hmem : g k ∈ known.map g ↔ k ∈ known := by
            constructor
            · intro hk
              obtain ⟨j, hj, hjk⟩ := List.mem_map.mp hk
              rwa [← hg j k hjk]
            · exact List.mem_map_of_mem
          by_cases hk : k ∈ known
          · rw [firstOf_known hkey (hmem.mpr hk), firstOf_known hx hk, ih]
          · rw [firstOf_new hkey (fun hk' => hk (hmem.mp hk')), firstOf_new hx hk, List.map_cons,
              ← List.map_cons (f := g), ih]

/-- Of two beginnings of a list the longer one decides. -/
theorem firstOf_take_append {l : List α} (hl : ∀ x ∈ l, (key x).isSome = true) (n m : Nat) :
    firstOf key [] (l.take n) ++ firstOf key ((l.take n).filterMap key) (l.take m) =
      firstOf key [] (l.take (max n m)) := by
  have hsome : ∀ x ∈ l.take n, ∃ k ∈ (l.take n).filterMap key, key x = some k := by
    intro x hx
    obtain ⟨k, hk⟩ := Option.isSome_iff_exists.mp (hl x (List.mem_of_mem_take hx))
    exact ⟨k, List.mem_filterMap.mpr ⟨x, hx, hk⟩, hk⟩
  rcases Nat.le_total m n with h | h
  · have hnil : firstOf key ((l.take n).filterMap key) (l.take m) = [] :=
      firstOf_eq_nil fun x hx => hsome x ((List.take_sublist_take_left h).mem hx)
    rw [hnil, List.append_nil, Nat.max_eq_left h]
  · have hsplit : l.take m = l.take n ++ (l.take m).drop n := by
      conv_lhs => rw [← List.take_append_drop n (l.take m)]
      rw [List.take_take, Nat.min_eq_left h]
    rw [Nat.max_eq_right h, hsplit, firstOf_append, firstOf_append, firstOf_eq_nil hsome,
      List.nil_append, List.append_nil]
    congr 1
    exact firstOf_congr _ fun k => by simp

/-- Of several beginnings of a list one decides. -/
theorem firstOf_flatMap_take {γ : Type} {l : List α} (hl : ∀ x ∈ l, (key x).isSome = true)
    {f : γ → List α} (items : List γ) (hf : ∀ i ∈ items, ∃ n, f i = l.take n) :
    ∃ n, firstOf key [] (items.flatMap f) = firstOf key [] (l.take n) := by
  induction items using List.reverseRecOn with
  | nil => exact ⟨0, rfl⟩
  | append_singleton items last ih =>
      obtain ⟨n, hn⟩ := ih fun i hi => hf i (List.mem_append_left _ hi)
      obtain ⟨m, hm⟩ := hf last (List.mem_append_right _ List.mem_cons_self)
      refine ⟨max n m, ?_⟩
      rw [List.flatMap_append, List.flatMap_singleton, hm, firstOf_append, hn,
        ← firstOf_take_append hl]
      congr 1
      refine firstOf_congr _ fun k => ?_
      have hkeys : k ∈ (firstOf key [] (items.flatMap f)).filterMap key ↔ _ :=
        mem_filterMap_firstOf (items.flatMap f) [] k
      rw [hn, mem_filterMap_firstOf] at hkeys
      simpa using hkeys.symm

end FirstOf

/-! ## Recording with room to spare -/

/-- The log holds the first event of each key of `all`, and the keys of `all` are the seen ones. -/
structure Session.Holds (s : Session) (all : List Logged) : Prop where
  log_eq : s.log = firstOf Logged.key? [] all
  mem_seen : ∀ k, k ∈ s.seen ↔ k ∈ all.filterMap Logged.key?

theorem Session.holds_new (maxEvents : Nat) : (Session.new maxEvents).Holds [] :=
  ⟨rfl, by simp [Session.new]⟩

/-- The events of a run that can be logged. -/
def loggable (run : Run) (events : List Event) : List Logged :=
  (events.map (Logged.mk run)).filter fun logged => logged.key?.isSome

@[simp] theorem loggable_nil (run : Run) : loggable run [] = [] := rfl

theorem loggable_cons_none {run : Run} {event : Event} {events : List Event}
    (h : (Logged.mk run event).key? = none) :
    loggable run (event :: events) = loggable run events := by
  simp [loggable, h]

theorem loggable_cons_some {run : Run} {event : Event} {events : List Event} {k : EventKey}
    (h : (Logged.mk run event).key? = some k) :
    loggable run (event :: events) = ⟨run, event⟩ :: loggable run events := by
  simp [loggable, h]

namespace Session

theorem recordOne_none {s : Session} {logged : Logged} (h : logged.key? = none) :
    s.recordOne logged = (s, false) := by
  rw [recordOne, h]

theorem recordOne_seen {s : Session} {logged : Logged} {k : EventKey} (h : logged.key? = some k)
    (hk : k ∈ s.seen) : s.recordOne logged = (s, false) := by
  rw [recordOne, h]
  exact if_pos (List.contains_iff_mem.mpr hk)

theorem recordOne_new {s : Session} {logged : Logged} {k : EventKey} (h : logged.key? = some k)
    (hk : k ∉ s.seen) :
    s.recordOne logged =
      (evict { s with log := s.log ++ [logged], seen := k :: s.seen }, true) := by
  rw [recordOne, h]
  exact if_neg fun hc => hk (List.contains_iff_mem.mp hc)

/-- A log that is not too long stays. -/
theorem evict_of_le {s : Session} (h : s.log.length ≤ s.capacity) : s.evict = s := by
  have hexcess : s.log.length - s.capacity = 0 := Nat.sub_eq_zero_of_le h
  simp only [evict, hexcess, List.drop_zero, List.take_zero, List.any_nil, Bool.not_false,
    List.filter_true]

/-- The remembered arguments make no difference to the log. -/
theorem recordOne_arguments (s : Session) (map : OrderedMap Arguments) (logged : Logged) :
    recordOne { s with arguments := map } logged =
      ({ (s.recordOne logged).1 with arguments := map }, (s.recordOne logged).2) := by
  unfold recordOne
  cases logged.key? with
  | none => rfl
  | some k => dsimp only; split <;> rfl

theorem recordRun_cons (run : Run) (event : Event) (rest : List Event) (s : Session) :
    recordRun run (event :: rest) s =
      ((recordRun run rest (s.recordOne ⟨run, event⟩).1).1,
        (recordRun run rest (s.recordOne ⟨run, event⟩).1).2 +
          if (s.recordOne ⟨run, event⟩).2 then 1 else 0) := rfl

theorem recordRun_arguments (run : Run) (map : OrderedMap Arguments) (events : List Event) :
    ∀ s : Session, recordRun run events { s with arguments := map } =
      ({ (recordRun run events s).1 with arguments := map }, (recordRun run events s).2) := by
  induction events with
  | nil => intro s; rfl
  | cons event rest ih =>
      intro s
      rw [recordRun_cons, recordRun_cons, recordOne_arguments]
      simp only [ih]

theorem record_remember (s : Session) (entry other : String) (given arguments : Arguments)
    (events : List Event) :
    (s.remember entry given).record other arguments events =
      ({ (s.record other arguments events).1 with arguments := s.arguments.insert entry given },
        (s.record other arguments events).2) :=
  recordRun_arguments _ _ events s

/-- A log with room for a new event takes it, and is then as long as there are keys. -/
theorem Holds.recordOne {s : Session} {all : List Logged} (h : s.Holds all) {logged : Logged}
    {k : EventKey} (hkey : logged.key? = some k)
    (hroom : s.log.length + (if (s.recordOne logged).2 then 1 else 0) ≤ s.capacity) :
    (s.recordOne logged).1.Holds (all ++ [logged]) ∧
      (s.recordOne logged).1.capacity = s.capacity ∧
      (s.recordOne logged).1.log.length =
        s.log.length + (if (s.recordOne logged).2 then 1 else 0) := by
  have hkeys : ∀ j, j ∈ (all ++ [logged]).filterMap Logged.key? ↔
      j ∈ all.filterMap Logged.key? ∨ j = k := by
    intro j
    rw [List.filterMap_append, List.filterMap_cons_some hkey, List.filterMap_nil, List.mem_append,
      List.mem_singleton]
  by_cases hk : k ∈ s.seen
  · -- the event adds nothing to what the log holds
    have hall := (h.mem_seen k).mp hk
    rw [recordOne_seen hkey hk]
    refine ⟨⟨?_, fun j => ?_⟩, rfl, rfl⟩
    · rw [h.log_eq, firstOf_append, firstOf_known hkey (by simpa using hall), firstOf_nil,
        List.append_nil]
    · rw [h.mem_seen j, hkeys]
      constructor
      · exact Or.inl
      · rintro (hj | rfl)
        · exact hj
        · exact hall
  · rw [recordOne_new hkey hk] at hroom ⊢
    rw [if_pos rfl] at hroom ⊢
    have hnew : k ∉ all.filterMap Logged.key? := fun hk' => hk ((h.mem_seen k).mpr hk')
    set next : Session := { s with log := s.log ++ [logged], seen := k :: s.seen } with hnext
    have hlength : next.log.length = s.log.length + 1 := by
      show (s.log ++ [logged]).length = _
      rw [List.length_append, List.length_singleton]
    have hle : next.log.length ≤ next.capacity := by
      rw [hlength]
      exact hroom
    rw [evict_of_le hle]
    refine ⟨⟨?_, fun j => ?_⟩, rfl, hlength⟩
    · show s.log ++ _ = _
      rw [h.log_eq, firstOf_append, firstOf_new hkey (by simpa using hnew), firstOf_nil]
    · rw [List.mem_cons, h.mem_seen j, hkeys]
      exact or_comm

/-- A log does not grow by more than what was new. -/
theorem length_recordRun_le (run : Run) (events : List Event) : ∀ s : Session,
    (recordRun run events s).1.log.length ≤ s.log.length + (recordRun run events s).2 := by
  induction events with
  | nil => intro s; exact Nat.le_refl _
  | cons event rest ih =>
      intro s
      have hone : (s.recordOne ⟨run, event⟩).1.log.length ≤
          s.log.length + (if (s.recordOne ⟨run, event⟩).2 then 1 else 0) := by
        unfold recordOne
        split
        · exact Nat.le_refl _
        · split
          · exact Nat.le_refl _
          · show ((s.log ++ [Logged.mk run event]).drop _).length ≤ s.log.length + 1
            rw [List.length_drop, List.length_append, List.length_singleton]
            exact Nat.sub_le _ _
      have hrest := ih (s.recordOne ⟨run, event⟩).1
      rw [recordRun_cons]
      simp only
      omega

/-- **Where there is room for what is new, the log holds the first event of each key.** -/
theorem recordRun_holds (run : Run) (events : List Event) : ∀ {s : Session} {all : List Logged},
    s.Holds all → s.log.length + (recordRun run events s).2 ≤ s.capacity →
      (recordRun run events s).1.Holds (all ++ loggable run events) := by
  induction events with
  | nil =>
      intro s all h _
      rw [loggable_nil, List.append_nil]
      exact h
  | cons event rest ih =>
      intro s all h hroom
      rw [recordRun_cons] at hroom ⊢
      cases hkey : (Logged.mk run event).key? with
      | none =>
          rw [recordOne_none hkey] at hroom ⊢
          rw [loggable_cons_none hkey]
          exact ih h hroom
      | some k =>
          obtain ⟨hnext, hcapacity, hlength⟩ := h.recordOne hkey (by simp only at hroom; omega)
          rw [loggable_cons_some hkey, ← List.singleton_append, ← List.append_assoc]
          refine ih hnext ?_
          rw [hcapacity, hlength]
          simp only at hroom
          omega

/-- There is room when there are no more keys than the log has places. -/
theorem recordRun_room (run : Run) (events : List Event) : ∀ {s : Session} {all : List Logged},
    s.Holds all → (firstOf Logged.key? [] (all ++ loggable run events)).length ≤ s.capacity →
      s.log.length + (recordRun run events s).2 ≤ s.capacity := by
  induction events with
  | nil =>
      intro s all h hfit
      rw [loggable_nil, List.append_nil, ← h.log_eq] at hfit
      exact hfit
  | cons event rest ih =>
      intro s all h hfit
      rw [recordRun_cons]
      cases hkey : (Logged.mk run event).key? with
      | none =>
          rw [loggable_cons_none hkey] at hfit
          rw [recordOne_none hkey]
          exact ih h hfit
      | some k =>
          rw [loggable_cons_some hkey, ← List.singleton_append, ← List.append_assoc] at hfit
          -- the event is one of the keys that all have a place
          have hroom : s.log.length + (if (s.recordOne ⟨run, event⟩).2 then 1 else 0) ≤
              s.capacity := by
            rw [firstOf_append, List.length_append, firstOf_append, List.length_append,
              ← h.log_eq] at hfit
            by_cases hk : k ∈ s.seen
            · rw [recordOne_seen hkey hk, if_neg Bool.false_ne_true]
              omega
            · have hnew : k ∉ all.filterMap Logged.key? ++ [] := by
                rw [List.append_nil]
                exact fun hk' => hk ((h.mem_seen k).mpr hk')
              rw [firstOf_new hkey hnew, List.length_cons] at hfit
              rw [recordOne_new hkey hk, if_pos rfl]
              omega
          obtain ⟨hnext, hcapacity, hlength⟩ := h.recordOne hkey hroom
          have hrest := ih hnext (by rw [hcapacity]; exact hfit)
          rw [hcapacity, hlength] at hrest
          simp only
          omega

end Session

/-! ## Replays -/

/-- The number of the line that an event comes to. -/
def Event.lineNumber? : Event → Option Nat
  | .line _ _ number _ => some number
  | _ => none

/-- The line events. -/
def linesOf (events : List Event) : List Event := events.filter (·.lineNumber?.isSome)

theorem linesOf_cons_some {event : Event} {number : Nat} (h : event.lineNumber? = some number)
    (rest : List Event) : linesOf (event :: rest) = event :: linesOf rest := by
  rw [linesOf, List.filter_cons, h]
  rfl

theorem linesOf_cons_none {event : Event} (h : event.lineNumber? = none) (rest : List Event) :
    linesOf (event :: rest) = linesOf rest := by
  rw [linesOf, List.filter_cons, h]
  rfl

/-- The event is a line of the function. -/
def Event.isLineIn (function : String) (file : Path) : Event → Bool
  | .line f name _ _ => name == function && Path.same ⟨f⟩ file
  | _ => false

/-- The line events up to the first one from the stop line on, and the end of the trace. -/
def reach (stopLine : Nat) : List Event → Option (List Event)
  | [] => none
  | event :: rest =>
      match event.lineNumber? with
      | some number =>
          if stopLine ≤ number then some [event, .done]
          else (reach stopLine rest).map (event :: ·)
      | none => reach stopLine rest

/-- A replay looks at the lines of the function alone. -/
theorem replayTo_eq_reach (function : String) (file : Path) (stopLine : Nat)
    (events : List Event) :
    Session.replayTo function file stopLine events =
      reach stopLine (events.filter (Event.isLineIn function file)) := by
  induction events with
  | nil => rfl
  | cons event rest ih =>
      cases event with
      | line f name number locals =>
          rw [Session.replayTo, List.filter_cons]
          cases h : (name == function && Path.same ⟨f⟩ file)
          · rw [if_neg (by simp), ih]
            simp [Event.isLineIn, h]
          · rw [if_pos rfl, ih]
            simp only [Event.isLineIn, h, if_true, reach, Event.lineNumber?]
      | returned value => exact ih
      | raised message traceback number f => exact ih
      | done => exact ih

/-- Only lines. -/
def AllLines (events : List Event) : Prop := ∀ event ∈ events, event.lineNumber?.isSome = true

/-- Lines are reached up to the first one from the stop line on. -/
theorem reach_eq_some_iff {stopLine : Nat} {events : List Event} (h : AllLines events)
    {answer : List Event} :
    reach stopLine events = some answer ↔
      ∃ before last after number, events = before ++ last :: after ∧
        (∀ k ∈ before.filterMap Event.lineNumber?, k < stopLine) ∧
        last.lineNumber? = some number ∧ stopLine ≤ number ∧ answer = before ++ [last, .done] := by
  induction events generalizing answer with
  | nil => simp [reach]
  | cons event rest ih =>
      obtain ⟨k, hk⟩ := Option.isSome_iff_exists.mp (h event List.mem_cons_self)
      have ih := @ih fun e he => h e (List.mem_cons_of_mem _ he)
      rw [reach, hk]
      by_cases hstop : stopLine ≤ k
      · simp only [if_pos hstop, Option.some.injEq]
        constructor
        · rintro rfl
          exact ⟨[], event, rest, k, rfl, by simp, hk, hstop, rfl⟩
        · rintro ⟨before, last, after, number, heq, hbefore, hlast, hn, rfl⟩
          cases before with
          | nil => rw [(List.cons.inj heq).1]; rfl
          | cons e before =>
              rw [← (List.cons.inj heq).1, List.filterMap_cons_some hk] at hbefore
              exact absurd (hbefore k List.mem_cons_self) (by omega)
      · simp only [if_neg hstop, Option.map_eq_some_iff]
        constructor
        · rintro ⟨answer, hanswer, rfl⟩
          obtain ⟨before, last, after, number, rfl, hbefore, hlast, hn, rfl⟩ := ih.mp hanswer
          refine ⟨event :: before, last, after, number, rfl, ?_, hlast, hn, rfl⟩
          rw [List.filterMap_cons_some hk]
          intro j hj
          rcases List.mem_cons.mp hj with rfl | hj
          · omega
          · exact hbefore j hj
        · rintro ⟨before, last, after, number, heq, hbefore, hlast, hn, rfl⟩
          cases before with
          | nil =>
              rw [← (List.cons.inj heq).1, hk] at hlast
              cases hlast
              exact absurd hn hstop
          | cons e before =>
              obtain ⟨rfl, rfl⟩ := List.cons.inj heq
              refine ⟨before ++ [last, .done], ih.mpr ⟨before, last, after, number, rfl, ?_, hlast,
                hn, rfl⟩, rfl⟩
              intro j hj
              rw [List.filterMap_cons_some hk] at hbefore
              exact hbefore j (List.mem_cons_of_mem _ hj)

theorem reach_isSome_iff {stopLine : Nat} {events : List Event} :
    (reach stopLine events).isSome = true ↔
      ∃ k ∈ events.filterMap Event.lineNumber?, stopLine ≤ k := by
  induction events with
  | nil => simp [reach]
  | cons event rest ih =>
      rw [reach]
      cases hk : event.lineNumber? with
      | none => rw [List.filterMap_cons_none hk, ← ih]
      | some k =>
          rw [List.filterMap_cons_some hk]
          by_cases hstop : stopLine ≤ k
          · simp [hstop]
          · simp only [if_neg hstop, Option.isSome_map, ih, List.mem_cons, exists_eq_or_imp]
            simp [hstop]

theorem reach_append {stopLine : Nat} {a answer : List Event}
    (h : reach stopLine a = some answer) (b : List Event) :
    reach stopLine (a ++ b) = some answer := by
  induction a generalizing answer with
  | nil => exact absurd h (by simp [reach])
  | cons event rest ih =>
      rw [List.cons_append]
      rw [reach] at h ⊢
      cases hk : event.lineNumber? with
      | none =>
          rw [hk] at h
          exact ih h
      | some k =>
          simp only [hk] at h ⊢
          split at h
          · next hstop => rw [if_pos hstop, h]
          · next hstop =>
              obtain ⟨answer, hanswer, rfl⟩ := Option.map_eq_some_iff.mp h
              rw [if_neg hstop, ih hanswer]
              rfl

/-- What is reached was among the events, but for the end. -/
theorem mem_of_reach {stopLine : Nat} {events answer : List Event} {event : Event}
    (h : reach stopLine events = some answer) (hevent : event ∈ answer) (hdone : event ≠ .done) :
    event ∈ events := by
  induction events generalizing answer with
  | nil => exact absurd h (by simp [reach])
  | cons first rest ih =>
      rw [reach] at h
      cases hk : first.lineNumber? with
      | none =>
          rw [hk] at h
          exact List.mem_cons_of_mem _ (ih h hevent)
      | some k =>
          simp only [hk] at h
          split at h
          · obtain rfl := Option.some.inj h
            rcases List.mem_cons.mp hevent with rfl | hevent
            · exact List.mem_cons_self
            · exact absurd (List.mem_singleton.mp hevent) hdone
          · obtain ⟨answer, hanswer, rfl⟩ := Option.map_eq_some_iff.mp h
            rcases List.mem_cons.mp hevent with rfl | hevent
            · exact List.mem_cons_self
            · exact List.mem_cons_of_mem _ (ih hanswer hevent)

/-- Repeated lines may be left out before or after. -/
theorem reach_firstOf {stopLine : Nat} (events : List Event) : ∀ known : List Nat,
    (∀ k ∈ known, k < stopLine) →
      reach stopLine (firstOf Event.lineNumber? known events) =
        (reach stopLine events).map (firstOf Event.lineNumber? known) := by
  induction events with
  | nil => intros; rfl
  | cons event rest ih =>
      intro known hknown
      cases hk : event.lineNumber? with
      | none => rw [firstOf_none hk, reach, reach, hk, ih known hknown]
      | some k =>
          by_cases hmem : k ∈ known
          · -- a known line is before the stop line, so leaving it out cannot end the answer later
            have hlt := hknown k hmem
            rw [firstOf_known hk hmem, ih known hknown]
            rw [reach, hk]
            simp only [if_neg (show ¬ stopLine ≤ k by omega), Option.map_map]
            congr 1
            funext answer
            exact (firstOf_known hk hmem).symm
          · rw [firstOf_new hk hmem, reach, reach, hk]
            by_cases hstop : stopLine ≤ k
            · simp only [if_pos hstop, Option.map_some, firstOf_new hk hmem]
              rfl
            · simp only [if_neg hstop]
              rw [ih (k :: known) (by
                intro j hj
                rcases List.mem_cons.mp hj with rfl | hj
                · omega
                · exact hknown j hj), Option.map_map, Option.map_map]
              congr 1
              funext answer
              exact (firstOf_new hk hmem).symm

end Trace

end ChangeScope
