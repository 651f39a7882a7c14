import Mathlib
import ChangeScope.Trace.Runtime
import ChangeScope.Proofs.Trace.Eviction

/-!
# Every answer is a trace in proper form

Whatever a program writes, the trace that is made of it consists of the lines that it tells before
anything that ends the trace, and of that end (`Tells`). What is neither a message nor looks like
one makes no difference (`Padded`). A failure is a trace of one exception, and a replay from the
log ends like a run that was stopped; so every answer of a tracer has proper form, whatever the
session holds (`answer_proper`).
-/

set_option autoImplicit false

namespace ChangeScope.Trace

/-! ## Proper form -/

/-- Lines, and then the end of the call and of the trace, the end of the trace alone, or an
exception. -/
inductive InForm : List Event → Prop
  | stopped {lines : List Event} : AllLines lines → InForm (lines ++ [.done])
  | ended {lines : List Event} {last : Event} :
      AllLines lines → last.isTerminal = true → InForm (lines ++ [last, .done])
  | broken {lines : List Event} (message traceback : String) (line : Option Nat)
      (file : Option String) :
      AllLines lines → InForm (lines ++ [.raised message traceback line file])

theorem inForm_failure (failure : Failure) (stopLine : Nat) (file : Option Path) :
    InForm [.ofFailure failure stopLine file] :=
  have hnone : AllLines [] := fun _ he => absurd he List.not_mem_nil
  .broken _ _ _ _ hnone

theorem AllLines.not_done {lines : List Event} (h : AllLines lines) : Event.done ∉ lines :=
  fun hdone => absurd (h _ hdone) Bool.false_ne_true

theorem AllLines.not_terminal {lines : List Event} (h : AllLines lines) :
    lines.countP Event.isTerminal = 0 := by
  refine List.countP_eq_zero.mpr fun event he => ?_
  have hline := h event he
  cases event with
  | line file function number locals => exact Bool.false_ne_true
  | returned value => exact absurd hline Bool.false_ne_true
  | raised message traceback number file => exact absurd hline Bool.false_ne_true
  | done => exact Bool.false_ne_true

/-- A trace in proper form is not empty, and `done` stands nowhere but at its end. -/
theorem InForm.ends {events : List Event} (h : InForm events) :
    events ≠ [] ∧ Event.done ∉ events.dropLast ∧ events.countP Event.isTerminal ≤ 1 := by
  cases h with
  | stopped hlines =>
      refine ⟨by simp, ?_, ?_⟩
      · rw [List.dropLast_concat]
        exact hlines.not_done
      · rw [List.countP_append, hlines.not_terminal]
        decide
  -- here alone an event that ends a run stands before `done`
  | @ended lines last hlines hlast =>
      refine ⟨by simp, ?_, ?_⟩
      · rw [List.dropLast_append_of_ne_nil (List.cons_ne_nil _ _)]
        intro hdone
        rcases List.mem_append.mp hdone with hdone | hdone
        · exact hlines.not_done hdone
        · rw [← List.mem_singleton.mp hdone] at hlast
          exact absurd hlast Bool.false_ne_true
      · have hend : [last, .done].countP Event.isTerminal = 1 := by
          rw [List.countP_cons_of_pos hlast]
          rfl
        rw [List.countP_append, hlines.not_terminal, hend]
  | broken message traceback line file hlines =>
      refine ⟨by simp, ?_, ?_⟩
      · rw [List.dropLast_concat]
        exact hlines.not_done
      · rw [List.countP_append, hlines.not_terminal]
        exact Nat.le_refl 1

/-! ## What an output tells -/

namespace Message

/-- The message ends a trace: the call ends, the trace is over, or there is an error, be it one
that the program tells or a line that looks like a message and is none. -/
def ends : Message → Bool
  | .event (.line _ _ _ _) => false
  | .event _ => true
  | .error _ => true
  | .signature _ => false

/-- The line event that a message is. -/
def line? : Message → Option Event
  | .event (.line file function number locals) => some (.line file function number locals)
  | _ => none

end Message

/-- The messages of an output, to its end. -/
def told (lines : List (List Char)) : List Message :=
  lines.filterMap fun line => message? (Text.trim line)

theorem told_none {line : List Char} (h : message? (Text.trim line) = none)
    (rest : List (List Char)) : told (line :: rest) = told rest :=
  List.filterMap_cons_none h

theorem told_some {line : List Char} {message : Message}
    (h : message? (Text.trim line) = some message) (rest : List (List Char)) :
    told (line :: rest) = message :: told rest :=
  List.filterMap_cons_some h

/-- The line events among messages. -/
def toldLines (messages : List Message) : List Event := messages.filterMap Message.line?

/-- The exception that stands for an output that nothing ended. -/
def Reply.breakOff (reply : Reply) : Event :=
  .raised ("tracer exited before completing (" ++ reply.exit.text ++ ")") reply.errors none none

/-- The trace of a reply: the lines that are told before the first message that ends the trace, and
that end. Where nothing ends the trace an exception says how the program ended. -/
inductive Tells (reply : Reply) : List Event → Prop
  | stopped {before after : List Message} :
      told (Text.lines reply.stdout) = before ++ .event .done :: after →
      (∀ message ∈ before, message.ends = false) → Tells reply (toldLines before ++ [.done])
  | ended {before after : List Message} {last : Event} :
      told (Text.lines reply.stdout) = before ++ .event last :: after →
      (∀ message ∈ before, message.ends = false) → last.isTerminal = true →
      Tells reply (toldLines before ++ [last, .done])
  | failed {before after : List Message} {text : String} :
      told (Text.lines reply.stdout) = before ++ .error text :: after →
      (∀ message ∈ before, message.ends = false) →
      Tells reply (toldLines before ++ [.raised text reply.errors none none, .done])
  | broken :
      (∀ message ∈ told (Text.lines reply.stdout), message.ends = false) →
      Tells reply (toldLines (told (Text.lines reply.stdout)) ++ [reply.breakOff])

theorem allLines_toldLines (messages : List Message) : AllLines (toldLines messages) := by
  intro event he
  obtain ⟨message, -, hline⟩ := List.mem_filterMap.mp he
  unfold Message.line? at hline
  split at hline
  · rw [← Option.some.inj hline]
    rfl
  · exact absurd hline (by simp)

theorem Tells.inForm {reply : Reply} {events : List Event} (h : Tells reply events) :
    InForm events := by
  cases h with
  | stopped => exact .stopped (allLines_toldLines _)
  | ended _ _ hlast => exact .ended (allLines_toldLines _) hlast
  | failed => exact .ended (allLines_toldLines _) rfl
  | broken => exact .broken _ _ _ _ (allLines_toldLines _)

/-! ## Settling -/

/-- What is told after the end of the call makes no difference. -/
theorem settleFrom_ended (broken : Event) (events : List Event) :
    settleFrom broken true events = [.done] := by
  induction events with
  | nil => rfl
  | cons event rest ih =>
      cases event with
      | done => rfl
      | line file function number locals => exact ih
      | returned value => exact ih
      | raised message traceback number file => exact ih

theorem settleFrom_terminal (broken : Event) {last : Event} (hlast : last.isTerminal = true)
    (rest : List Event) : settleFrom broken false (last :: rest) = [last, .done] := by
  have hnot : last ≠ .done := by
    rintro rfl
    exact absurd hlast Bool.false_ne_true
  rw [settleFrom, hlast, settleFrom_ended]
  exact hnot

/-- Messages that do not end the trace leave their lines in it. -/
theorem settleFrom_open (broken : Event) (e : Exchange) {before : List Message}
    (hopen : ∀ message ∈ before, message.ends = false) (after : List Message) :
    settleFrom broken false ((before ++ after).filterMap e.event?) =
      toldLines before ++ settleFrom broken false (after.filterMap e.event?) := by
  induction before with
  | nil => rfl
  | cons message rest ih =>
      have ih := ih fun m hm => hopen m (List.mem_cons_of_mem _ hm)
      have hends := hopen message List.mem_cons_self
      cases message with
      | error text => exact absurd hends (by simp [Message.ends])
      | signature params => exact ih
      | event event =>
          cases event with
          | line file function number locals =>
              exact congrArg (Event.line file function number locals :: ·) ih
          | returned value => exact absurd hends (by simp [Message.ends])
          | raised text traceback number file => exact absurd hends (by simp [Message.ends])
          | done => exact absurd hends (by simp [Message.ends])

/-- What is read of an output is what it tells up to the end of the trace. -/
theorem settleFrom_read (broken : Event) (e : Exchange) (lines : List (List Char)) :
    ∀ ended : Bool, settleFrom broken ended ((readMessages lines).filterMap e.event?) =
      settleFrom broken ended ((told lines).filterMap e.event?) := by
  induction lines with
  | nil => exact fun _ => rfl
  | cons line rest ih =>
      intro ended
      have hstep : ∀ event, settleFrom broken ended
            (event :: (readMessages rest).filterMap e.event?) =
          settleFrom broken ended (event :: (told rest).filterMap e.event?) := by
        intro event
        cases ended <;> cases event <;> simp only [settleFrom, ih]
      rw [readMessages]
      split
      · next hdone =>
          -- reading stops at `done`, and settling looks at nothing behind it
          rw [told_some hdone]
          cases ended <;> rfl
      · next message hnot hmessage =>
          rw [told_some hmessage]
          cases hevent : e.event? message with
          | none =>
              rw [List.filterMap_cons_none hevent, List.filterMap_cons_none hevent]
              exact ih ended
          | some event =>
              rw [List.filterMap_cons_some hevent, List.filterMap_cons_some hevent]
              exact hstep event
      · next hnone =>
          rw [told_none hnone]
          exact ih ended

/-! ## Replies -/

/-- What is read of a reply. -/
def Reply.exchange (reply : Reply) : Exchange :=
  ⟨readMessages (Text.lines reply.stdout), reply.exit, reply.errors⟩

theorem tells_trace (reply : Reply) : Tells reply reply.exchange.trace := by
  set told' := told (Text.lines reply.stdout) with htold
  have hread : reply.exchange.trace =
      settleFrom reply.breakOff false (told'.filterMap reply.exchange.event?) :=
    settleFrom_read _ reply.exchange (Text.lines reply.stdout) false
  rw [hread]
  cases hfind : told'.find? Message.ends with
  | none =>
      have hopen : ∀ message ∈ told', message.ends = false := by
        intro message hmessage
        simpa using List.find?_eq_none.mp hfind message hmessage
      have hall := settleFrom_open reply.breakOff reply.exchange hopen []
      rw [List.append_nil] at hall
      rw [hall]
      exact .broken hopen
  | some last =>
      obtain ⟨hends, before, after, hsplit, hbefore⟩ := List.find?_eq_some_iff_append.mp hfind
      have hopen : ∀ message ∈ before, message.ends = false := by
        intro message hmessage
        simpa using hbefore message hmessage
      -- from the end on, only its own event counts
      have hlast : ∀ {event : Event}, reply.exchange.event? last = some event →
          event.isTerminal = true →
          settleFrom reply.breakOff false ((last :: after).filterMap reply.exchange.event?) =
            [event, .done] := by
        intro event hevent hterminal
        rw [List.filterMap_cons_some hevent, settleFrom_terminal _ hterminal]
      rw [hsplit, settleFrom_open _ _ hopen]
      cases last with
      | signature params => exact absurd hends Bool.false_ne_true
      | error text =>
          rw [hlast rfl rfl]
          exact .failed hsplit hopen
      | event event =>
          cases event with
          | line file function number locals => exact absurd hends Bool.false_ne_true
          | done => exact .stopped hsplit hopen
          | returned value =>
              rw [hlast rfl rfl]
              exact .ended hsplit hopen rfl
          | raised text traceback number file =>
              rw [hlast rfl rfl]
              exact .ended hsplit hopen rfl

/-- The program of the settings gives a reply to a query. -/
def Runtime.Gives (runtime : Runtime) (settings : Settings.Tracer) (query : Query)
    (reply : Reply) : Prop :=
  ∃ program, runtime settings.program = some program ∧ program query = reply

/-- The program ends in time. -/
def Reply.InTime (reply : Reply) (settings : Settings.Tracer) : Prop :=
  reply.hangs = false ∧ settings.timeoutMs ≠ 0

theorem trace_of_gives {runtime : Runtime} {settings : Settings.Tracer} {request : Request}
    {reply : Reply} (h : runtime.Gives settings (.trace request) reply) :
    (runtime.backend settings).trace request =
      if reply.hangs || settings.timeoutMs = 0 then .error (.tracerTimeout settings.timeoutMs)
      else .ok reply.exchange.trace := by
  obtain ⟨program, hprogram, rfl⟩ := h
  show (exchange runtime settings (.trace request)).map _ = _
  unfold exchange
  rw [hprogram]
  dsimp only
  split <;> rfl

/-- A program that is not there, does not end in time, or tells a trace. -/
theorem backend_cases (runtime : Runtime) (settings : Settings.Tracer) (request : Request) :
    (∃ text, (runtime.backend settings).trace request = .error (.tracerStart text)) ∨
      (runtime.backend settings).trace request = .error (.tracerTimeout settings.timeoutMs) ∨
      ∃ reply, runtime.Gives settings (.trace request) reply ∧
        (runtime.backend settings).trace request = .ok reply.exchange.trace := by
  cases hprogram : runtime settings.program with
  | none =>
      refine .inl ⟨settings.program ++ ": " ++ FileError.message .notFound, ?_⟩
      show (exchange runtime settings (.trace request)).map _ = _
      unfold exchange
      rw [hprogram]
      rfl
  | some program =>
      have hgives : runtime.Gives settings (.trace request) (program (.trace request)) :=
        ⟨program, hprogram, rfl⟩
      have htrace := trace_of_gives hgives
      split at htrace
      · exact .inr (.inl htrace)
      · exact .inr (.inr ⟨_, hgives, htrace⟩)

/-! ## Lines that tell nothing -/

/-- The line is no message and does not begin like one. -/
def IsChatter (line : List Char) : Prop :=
  (∃ mismatch, Json.decodeText Message.decode (Text.trim line) = .error mismatch) ∧
    (Text.trim line).head? ≠ some '\x7b'

/-- The second output is the first one with chatter put in anywhere. -/
inductive Padded : List (List Char) → List (List Char) → Prop
  | nil : Padded [] []
  | keep (line : List Char) {lines lines' : List (List Char)} :
      Padded lines lines' → Padded (line :: lines) (line :: lines')
  | chatter {line : List Char} {lines lines' : List (List Char)} :
      IsChatter line → Padded lines lines' → Padded lines (line :: lines')

theorem message?_chatter {line : List Char} (h : IsChatter line) :
    message? (Text.trim line) = none := by
  obtain ⟨⟨mismatch, hmismatch⟩, hhead⟩ := h
  rw [message?, hmismatch]
  exact if_neg hhead

/-- Chatter is not read. -/
theorem readMessages_padded {lines lines' : List (List Char)} (h : Padded lines lines') :
    readMessages lines = readMessages lines' := by
  induction h with
  | nil => rfl
  | keep line _ ih => rw [readMessages, readMessages, ih]
  | chatter hchatter _ ih => rw [ih, readMessages, message?_chatter hchatter]

/-! ## Answers of a tracer -/

/-- Where the answer to a request comes from: there is no such function, the log has the answer,
the backend fails, or it gives a trace. -/
inductive Answered (backend : Backend) (t : Tracer) (entry : String) (stopLine : Nat)
    (arguments : Option Arguments) : List Event → Prop
  | invalid : FunctionId.split? entry = none →
      Answered backend t entry stopLine arguments
        [.ofFailure (.invalidFunctionId entry) stopLine none]
  | replayed {file : Path} {function : String} {events : List Event} :
      FunctionId.split? entry = some (file, function) →
      t.session.cached? entry function file stopLine (t.argumentsFor entry arguments) =
        some events →
      Answered backend t entry stopLine arguments events
  | failed {file : Path} {function : String} {failure : Failure} :
      FunctionId.split? entry = some (file, function) →
      t.session.cached? entry function file stopLine (t.argumentsFor entry arguments) = none →
      backend.trace ⟨entry, stopLine, t.argumentsFor entry arguments, file⟩ = .error failure →
      Answered backend t entry stopLine arguments [.ofFailure failure stopLine (some file)]
  | fresh {file : Path} {function : String} {events : List Event} :
      FunctionId.split? entry = some (file, function) →
      t.session.cached? entry function file stopLine (t.argumentsFor entry arguments) = none →
      backend.trace ⟨entry, stopLine, t.argumentsFor entry arguments, file⟩ = .ok events →
      Answered backend t entry stopLine arguments events

theorem answered_trace (backend : Backend) (t : Tracer) (entry : String) (stopLine : Nat)
    (arguments : Option Arguments) :
    Answered backend t entry stopLine arguments (t.trace backend entry stopLine arguments).1 := by
  unfold Tracer.trace
  cases hsplit : FunctionId.split? entry with
  | none => exact .invalid hsplit
  | some target =>
      obtain ⟨file, function⟩ := target
      have hlog : (t.session.remember entry (t.argumentsFor entry arguments)).cached? entry function
          file stopLine (t.argumentsFor entry arguments) =
          t.session.cached? entry function file stopLine (t.argumentsFor entry arguments) := rfl
      dsimp only
      rw [hlog]
      cases hcached : t.session.cached? entry function file stopLine
          (t.argumentsFor entry arguments) with
      | some events => exact .replayed hsplit hcached
      | none =>
          dsimp only
          unfold Tracer.execute
          cases hrun : backend.trace ⟨entry, stopLine, t.argumentsFor entry arguments, file⟩ with
          | error failure => exact .failed hsplit hcached hrun
          | ok events => exact .fresh hsplit hcached hrun

/-- A replay from the log is a run that was stopped. -/
theorem inForm_cached {s : Session} {entry function : String} {file : Path} {stopLine : Nat}
    {arguments : Arguments} {events : List Event}
    (h : s.cached? entry function file stopLine arguments = some events) : InForm events := by
  rw [Session.cached?_eq_reach] at h
  have hlines := s.allLines_linesIn entry function file arguments
  obtain ⟨before, last, after, number, hsplit, -, -, -, rfl⟩ := (reach_eq_some_iff hlines).mp h
  have hstopped : AllLines (before ++ [last]) := by
    intro event he
    refine hlines event ?_
    rw [hsplit]
    rcases List.mem_append.mp he with he | he
    · exact List.mem_append_left _ he
    · rw [List.mem_singleton.mp he]
      exact List.mem_append_right _ List.mem_cons_self
  have hform := InForm.stopped hstopped
  rwa [List.append_assoc] at hform

theorem Answered.inForm {runtime : Runtime} {settings : Settings.Tracer} {t : Tracer}
    {entry : String} {stopLine : Nat} {arguments : Option Arguments} {events : List Event}
    (h : Answered (runtime.backend settings) t entry stopLine arguments events) :
    InForm events := by
  cases h with
  | invalid _ => exact inForm_failure _ _ _
  | replayed _ hcached => exact inForm_cached hcached
  | failed _ _ _ => exact inForm_failure _ _ _
  | fresh _ _ hrun =>
      rcases backend_cases runtime settings _ with ⟨text, herror⟩ | herror | ⟨reply, -, hok⟩
      · rw [herror] at hrun
        cases hrun
      · rw [herror] at hrun
        cases hrun
      · rw [hok] at hrun
        rw [← Except.ok.inj hrun]
        exact (tells_trace reply).inForm

/-- **Every trace has proper form.** A program that ends in time tells the trace of its output,
which chatter does not change; and whatever has happened before, the answer of a tracer has proper
form, be it a trace that was told now, one exception for a failure, or a replay. -/
theorem answer_proper (runtime : Runtime) (settings : Settings.Tracer) :
    (∀ (request : Request) (reply : Reply), runtime.Gives settings (.trace request) reply →
      reply.InTime settings →
        ∃ events, (runtime.backend settings).trace request = .ok events ∧ Tells reply events) ∧
    (∀ (runtime' : Runtime) (request : Request) (reply : Reply) (stdout : List Char),
      runtime.Gives settings (.trace request) reply →
      runtime'.Gives settings (.trace request) { reply with stdout := stdout } →
      Padded (Text.lines reply.stdout) (Text.lines stdout) →
        (runtime'.backend settings).trace request = (runtime.backend settings).trace request) ∧
    ∀ (t : Tracer) (entry : String) (stopLine : Nat) (arguments : Option Arguments),
      let answer := (t.trace (runtime.backend settings) entry stopLine arguments).1
      Answered (runtime.backend settings) t entry stopLine arguments answer ∧ InForm answer ∧
        answer ≠ [] ∧ Event.done ∉ answer.dropLast ∧ answer.countP Event.isTerminal ≤ 1 := by
  refine ⟨?_, ?_, ?_⟩
  · intro request reply hgives hintime
    refine ⟨_, ?_, tells_trace reply⟩
    rw [trace_of_gives hgives, if_neg]
    simp [hintime.1, hintime.2]
  · intro runtime' request reply stdout hgives hgives' hpadded
    have hread : (Reply.exchange { reply with stdout := stdout }) = reply.exchange := by
      unfold Reply.exchange
      rw [← readMessages_padded hpadded]
      rfl
    rw [trace_of_gives hgives, trace_of_gives hgives', hread]
  · intro t entry stopLine arguments answer
    have hanswered := answered_trace (runtime.backend settings) t entry stopLine arguments
    exact ⟨hanswered, hanswered.inForm, hanswered.inForm.ends⟩

/-! ### A program that breaks off -/

/-- A line event as it is written. -/
def lineText : List Char :=
  "\x7b\"event\":\"line\",\"filename\":\"/repo/m.py\",\"function\":\"f\",\"line\":2\x7d".toList

/-- A program that ends after a line. -/
def crash : Reply := { stdout := lineText, exit := 3 }

/-- The same after a line that is no message. -/
def chattyCrash : Reply := { crash with stdout := "starting up\n".toList ++ lineText }

/-- The runtime in which every program gives a reply. -/
def replying (reply : Reply) : Runtime := fun _ => some fun _ => reply

/-- The wish to run a function. -/
def wish : Request := ⟨"/repo/m.py::f", 10, {}, ⟨"/repo/m.py"⟩⟩

theorem message?_lineText :
    message? (Text.trim lineText) = some (.event (.line "/repo/m.py" "f" 2 [])) := by
  cbv

theorem lines_crash : Text.lines crash.stdout = [lineText] := by decide

theorem padded_chattyCrash : Padded (Text.lines crash.stdout) (Text.lines chattyCrash.stdout) := by
  have hchatty : Text.lines chattyCrash.stdout = ["starting up".toList, lineText] := by decide
  rw [lines_crash, hchatty]
  exact .chatter ⟨⟨⟨.fault .expectedValue, some ⟨1, 1⟩⟩, rfl⟩, by decide⟩ (.keep _ .nil)

theorem trace_crash : ((replying crash).backend {}).trace wish =
    .ok [.line "/repo/m.py" "f" 2 [], crash.breakOff] := by
  have hread : readMessages (Text.lines crash.stdout) = [.event (.line "/repo/m.py" "f" 2 [])] := by
    rw [lines_crash, readMessages, message?_lineText]
    rfl
  rw [trace_of_gives ⟨_, rfl, rfl⟩, if_neg (by decide)]
  unfold Reply.exchange
  rw [hread]
  rfl

/-- What a program told before it broke off is its trace, with chatter or without. -/
theorem answer_proper_crash :
    ((replying crash).Gives {} (.trace wish) crash ∧ crash.InTime {} ∧
        Tells crash [.line "/repo/m.py" "f" 2 [], crash.breakOff]) ∧
      ((replying chattyCrash).Gives {} (.trace wish) chattyCrash ∧
        Padded (Text.lines crash.stdout) (Text.lines chattyCrash.stdout) ∧
        ((replying chattyCrash).backend {}).trace wish =
          .ok [.line "/repo/m.py" "f" 2 [], crash.breakOff]) ∧
      InForm
        ((Tracer.new 10).trace ((replying crash).backend {}) wish.entry wish.stopLine none).1 := by
  obtain ⟨htells, hpadded, hanswers⟩ := answer_proper (replying crash) {}
  have hgives : (replying crash).Gives {} (.trace wish) crash := ⟨_, rfl, rfl⟩
  have hgives' : (replying chattyCrash).Gives {} (.trace wish) chattyCrash := ⟨_, rfl, rfl⟩
  have hintime : crash.InTime {} := ⟨rfl, by decide⟩
  obtain ⟨events, htrace, hevents⟩ := htells wish crash hgives hintime
  obtain rfl := Except.ok.inj (trace_crash.symm.trans htrace)
  have hsame := hpadded (replying chattyCrash) wish crash chattyCrash.stdout hgives hgives'
    padded_chattyCrash
  exact ⟨⟨hgives, hintime, hevents⟩, ⟨hgives', padded_chattyCrash, hsame.trans trace_crash⟩,
    (hanswers (Tracer.new 10) wish.entry wish.stopLine none).2.1⟩

end ChangeScope.Trace
