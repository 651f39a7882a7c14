import ChangeScope.Proofs.Json.Spelling
import ChangeScope.Proofs.Json.Tagged
import ChangeScope.Trace.Message

/-!
# Messages survive the wire

What the runtime writes is read as what was meant: an event from its written form and from an array
with its tag first, and the parameters of a function or an error from an object with its members in
any order. A text whose tag is a string is never both an event and another message, so that of the
two it does not matter which is tried first (`messages_survive`).
-/

set_option autoImplicit false

namespace ChangeScope.Trace

open Json (Context Decode Tree toTree IsPrecise IsOrdered Spells HasNamedTag)
open Json.Record (fillMembers_cons fillItems_cons decode_obj decode_arr)

/-! ## Events -/

/-- The value goes over the wire unchanged: its numbers are integers of 64 bits, the keys of its
objects are in order, and fewer than 100 arrays and objects are open at once. -/
structure IsSendable (a : Json) : Prop where
  integral : IsPrecise a
  ordered : IsOrdered a
  shallow : a.height < 100

/-- The values in the event go over the wire unchanged, and its line number has 64 bits. -/
inductive Event.IsSendable : Event → Prop where
  | line {file function : String} {number : Nat} {locals : Members} : number < 2 ^ 64 →
      locals.keys.Pairwise (· < ·) → (∀ m ∈ locals, Trace.IsSendable m.2) →
      IsSendable (.line file function number locals)
  | returned {value : Json} : Trace.IsSendable value → IsSendable (.returned value)
  | raised {message traceback : String} {number : Option Nat} {file : Option String} :
      (∀ n ∈ number, n < 2 ^ 64) → IsSendable (.raised message traceback number file)
  | done : IsSendable .done

/-- The fields of an event in their order, null where one is absent. -/
def Event.fields : Event → List Json
  | .line file function number locals => [.str file, .str function, .nat number, .obj locals]
  | .returned value => [value]
  | .raised message traceback number file =>
      [.str message, .str traceback, (number.map Json.nat).getD .null, .ofString? file]
  | .done => []

/-- An event as an array, its tag first. -/
def Event.toArray (e : Event) : Json := .arr (.str e.kind :: e.fields)

theorem isExactInt_nat {n : Nat} (h : n < 2 ^ 64) : Json.IsExactInt n := by
  rw [Json.IsExactInt]
  omega

theorem Event.IsSendable.isPrecise_toJson {e : Event} (h : e.IsSendable) : IsPrecise e.toJson := by
  refine .obj (List.forall_mem_cons.mpr ⟨.str _, ?_⟩)
  cases h with
  | line hnumber _ hlocals =>
      have hmap := IsPrecise.obj fun m hm => (hlocals m hm).integral
      simp [Event.members, IsPrecise.str, hmap, Json.nat, IsPrecise.int (isExactInt_nat hnumber)]
  | returned hvalue => simp [Event.members, hvalue.integral]
  | @raised _ _ number file hnumber =>
      cases number with
      | none => cases file <;> simp [Event.members, Event.member?, IsPrecise.str]
      | some n =>
          have hn := IsPrecise.int (isExactInt_nat (hnumber n rfl))
          cases file <;> simp [Event.members, Event.member?, IsPrecise.str, Json.nat, hn]
  | done => simp [Event.members]

theorem Event.IsSendable.height_members {e : Event} (h : e.IsSendable) :
    Json.membersHeight e.members ≤ 100 := by
  cases h with
  | @line _ _ _ locals _ _ hlocals =>
      have hlow : Json.membersHeight locals < 100 := Nat.lt_succ_of_le
        (Json.membersHeight_le_iff.mpr fun m hm => Nat.le_of_lt_succ (hlocals m hm).shallow)
      simpa [Event.members, Json.membersHeight, Json.height, Json.nat] using hlow
  | returned hvalue =>
      have hlow := hvalue.shallow
      simpa [Event.members, Json.membersHeight] using hlow.le
  | @raised _ _ number file _ =>
      cases number <;> cases file <;>
        simp [Event.members, Event.member?, Json.membersHeight, Json.height, Json.nat]
  | done => simp [Event.members, Json.membersHeight]

theorem Event.itemsHeight_fields (e : Event) :
    Json.itemsHeight e.fields = Json.membersHeight e.members := by
  cases e with
  | raised _ _ number file =>
      cases number <;> cases file <;>
        simp [Event.fields, Event.members, Event.member?, Json.membersHeight, Json.itemsHeight,
          Json.height, Json.nat, Json.ofString?]
  | _ => simp [Event.fields, Event.members, Json.membersHeight, Json.itemsHeight, Json.height]

theorem lineRecord_obj {file function : String} {number : Nat} {locals : Members} {ctx : Context}
    (h : Json.height (.obj locals) < ctx.depth) :
    Event.lineRecord.decode {} ctx (toTree (.obj [("filename", .str file),
      ("function", .str function), ("line", .nat number), ("locals", .obj locals)])) =
      .ok ⟨file, function, number, OrderedMap.ofList (Json.sortedMembers locals)⟩ := by
  obtain ⟨origin, depth⟩ := ctx
  obtain ⟨depth, rfl⟩ := Nat.exists_eq_add_of_le' (Nat.one_le_of_lt h)
  refine decode_obj ["locals", "line", "function", "filename"] ?_ rfl
  simp only [Json.memberTrees]
  rw [fillMembers_cons rfl (by decide) rfl, fillMembers_cons rfl (by decide) rfl,
    fillMembers_cons rfl (by decide) (Json.Slot.read_of (Json.natural_toTree number _)),
    fillMembers_cons rfl (by decide) (Json.Slot.read_of (Json.map_toTree (Nat.le_of_lt_succ h)))]
  rfl

theorem lineRecord_arr {file function : String} {number : Nat} {locals : Members} {ctx : Context}
    (h : Json.height (.obj locals) < ctx.depth) :
    Event.lineRecord.decode {} ctx (toTree (.arr [.str file, .str function, .nat number,
      .obj locals])) =
      .ok ⟨file, function, number, OrderedMap.ofList (Json.sortedMembers locals)⟩ := by
  obtain ⟨origin, depth⟩ := ctx
  obtain ⟨depth, rfl⟩ := Nat.exists_eq_add_of_le' (Nat.one_le_of_lt h)
  refine decode_arr ?_
  simp only [Json.itemTrees, Event.lineRecord]
  rw [fillItems_cons rfl, fillItems_cons rfl,
    fillItems_cons (Json.Slot.read_of (Json.natural_toTree number _)),
    fillItems_cons (Json.Slot.read_of (Json.map_toTree (Nat.le_of_lt_succ h)))]
  rfl

theorem returnRecord_obj {value : Json} {ctx : Context} (h : value.height < ctx.depth) :
    Event.returnRecord.decode .null ctx (toTree (.obj [("value", value)])) = .ok value.sorted := by
  obtain ⟨origin, depth⟩ := ctx
  obtain ⟨depth, rfl⟩ := Nat.exists_eq_add_of_le' (Nat.one_le_of_lt h)
  refine decode_obj ["value"] ?_ rfl
  simp only [Json.memberTrees]
  rw [fillMembers_cons rfl (by decide) (Json.Slot.read_of (Json.any_toTree (Nat.le_of_lt_succ h)))]
  rfl

theorem returnRecord_arr {value : Json} {ctx : Context} (h : value.height < ctx.depth) :
    Event.returnRecord.decode .null ctx (toTree (.arr [value])) = .ok value.sorted := by
  obtain ⟨origin, depth⟩ := ctx
  obtain ⟨depth, rfl⟩ := Nat.exists_eq_add_of_le' (Nat.one_le_of_lt h)
  refine decode_arr ?_
  simp only [Json.itemTrees, Event.returnRecord]
  rw [fillItems_cons (Json.Slot.read_of (Json.any_toTree (Nat.le_of_lt_succ h)))]
  rfl

theorem exceptionRecord_obj (message traceback : String) (number : Option Nat)
    (file : Option String) {ctx : Context} (h : 0 < ctx.depth) :
    Event.exceptionRecord.decode {} ctx
        (toTree (.obj (Event.raised message traceback number file).members)) =
      .ok ⟨message, traceback, number, file⟩ := by
  obtain ⟨origin, depth⟩ := ctx
  obtain ⟨depth, rfl⟩ := Nat.exists_eq_add_of_le' h
  have hnumber : ∀ n : Nat, Decode.optional Decode.natural ⟨origin, depth⟩ (toTree (.nat n)) =
      .ok (some n) := by
    intro n
    show (Decode.natural ⟨origin, depth⟩ (toTree (.nat n))).map some = _
    rw [Json.natural_toTree]
    rfl
  cases number with
  | none =>
      cases file with
      | none => exact decode_obj ["traceback_text", "error_message"] rfl rfl
      | some file => exact decode_obj ["filename", "traceback_text", "error_message"] rfl rfl
  | some n =>
      cases file with
      | none =>
          refine decode_obj ["line", "traceback_text", "error_message"] ?_ rfl
          simp only [Event.members, Event.member?, List.cons_append, List.nil_append,
            Json.memberTrees]
          rw [fillMembers_cons rfl (by decide) rfl, fillMembers_cons rfl (by decide) rfl,
            fillMembers_cons rfl (by decide) (Json.Slot.read_of (hnumber n))]
          rfl
      | some file =>
          refine decode_obj ["filename", "line", "traceback_text", "error_message"] ?_ rfl
          simp only [Event.members, Event.member?, List.cons_append, List.nil_append,
            Json.memberTrees]
          rw [fillMembers_cons rfl (by decide) rfl, fillMembers_cons rfl (by decide) rfl,
            fillMembers_cons rfl (by decide) (Json.Slot.read_of (hnumber n)),
            fillMembers_cons rfl (by decide) rfl]
          rfl

theorem exceptionRecord_arr (message traceback : String) (number : Option Nat)
    (file : Option String) {ctx : Context} (h : 0 < ctx.depth) :
    Event.exceptionRecord.decode {} ctx
        (toTree (.arr (Event.raised message traceback number file).fields)) =
      .ok ⟨message, traceback, number, file⟩ := by
  obtain ⟨origin, depth⟩ := ctx
  obtain ⟨depth, rfl⟩ := Nat.exists_eq_add_of_le' h
  have hnumber : Decode.optional Decode.natural ⟨origin, depth⟩
      (toTree ((number.map Json.nat).getD .null)) = .ok number :=
    Json.optional_toTree (fun x _ => Json.natural_toTree x _) (by simp [Json.nat, toTree])
  have hfile : Decode.optional Decode.string ⟨origin, depth⟩ (toTree (.ofString? file)) =
      .ok file :=
    Json.optional_toTree (fun _ _ => rfl) (by simp [toTree])
  refine decode_arr ?_
  simp only [Event.fields, Json.itemTrees, Event.exceptionRecord]
  rw [fillItems_cons rfl, fillItems_cons rfl, fillItems_cons (Json.Slot.read_of hnumber),
    fillItems_cons (Json.Slot.read_of hfile)]
  rfl

/-- The tag of an event is not among its other members. -/
theorem tag_notMem_members (e : Event) : "event" ∉ OrderedMap.keys e.members := by
  cases e with
  | raised _ _ number file =>
      cases number <;> cases file <;>
        simp [Event.members, Event.member?, OrderedMap.keys]
  | _ => simp [Event.members, OrderedMap.keys]

theorem into_ok {α β : Type} {read : Decode α} {f : α → β} {ctx : Context} {tree : Tree} {x : α}
    (h : read ctx tree = .ok x) : Event.into read f ctx tree = .ok (f x) := by
  rw [Event.into, h]
  rfl

/-- Locals that are in order are read as they are. -/
theorem sorted_locals {locals : Members} (hkeys : locals.keys.Pairwise (· < ·))
    (hlocals : ∀ m ∈ locals, IsSendable m.2) :
    OrderedMap.ofList (Json.sortedMembers locals) = locals := by
  have hsorted := (IsOrdered.obj hkeys fun m hm => (hlocals m hm).ordered).sorted_eq
  rw [Json.sorted] at hsorted
  exact Json.obj.inj hsorted

/-- **An event is read from its written form.** -/
theorem event_obj {e : Event} (h : e.IsSendable) {origin : Json.Origin} {depth : Nat}
    (hdepth : 101 < depth) : Event.decode ⟨origin, depth⟩ (toTree e.toJson) = .ok e := by
  have hmembers := h.height_members
  -- the tag stands first, and the members behind it are read as the record of its kind
  have htag := tag_notMem_members e
  have hheight : Json.height (.obj e.members) ≤ depth := by
    rw [Json.height]
    omega
  cases h with
  | @line file function number locals hnumber hkeys hlocals =>
      have hlow : Json.height (.obj locals) < depth := by
        simp only [Event.members, Json.membersHeight] at hmembers
        omega
      refine (Json.tagged_obj_first rfl htag hheight).trans ?_
      refine (into_ok (lineRecord_obj hlow)).trans ?_
      rw [sorted_locals hkeys hlocals]
  | @returned value hvalue =>
      have hlow : value.height < depth := lt_trans hvalue.shallow (by omega)
      refine (Json.tagged_obj_first rfl htag hheight).trans ?_
      refine (into_ok (returnRecord_obj hlow)).trans ?_
      rw [hvalue.ordered.sorted_eq]
  | raised hnumber =>
      refine (Json.tagged_obj_first rfl htag hheight).trans ?_
      exact into_ok (exceptionRecord_obj _ _ _ _ (Nat.zero_lt_of_lt hdepth))
  | done =>
      refine (Json.tagged_obj_first rfl htag hheight).trans ?_
      obtain ⟨depth, rfl⟩ := Nat.exists_eq_add_of_le' (Nat.one_le_of_lt hdepth)
      rfl

/-- **An event is read from its array form.** -/
theorem event_arr {e : Event} (h : e.IsSendable) {origin : Json.Origin} {depth : Nat}
    (hdepth : 101 < depth) : Event.decode ⟨origin, depth⟩ (toTree e.toArray) = .ok e := by
  have hheight : Json.height (.arr e.fields) ≤ depth := by
    have := h.height_members
    rw [Json.height, e.itemsHeight_fields]
    omega
  cases h with
  | @line file function number locals hnumber hkeys hlocals =>
      have hlow : Json.height (.obj locals) < depth := by
        simp only [Event.fields, Json.height, Json.itemsHeight] at hheight ⊢
        omega
      refine (Json.tagged_arr rfl hheight).trans ?_
      refine (into_ok (lineRecord_arr hlow)).trans ?_
      rw [sorted_locals hkeys hlocals]
  | @returned value hvalue =>
      have hlow : value.height < depth := lt_trans hvalue.shallow (by omega)
      refine (Json.tagged_arr rfl hheight).trans ?_
      refine (into_ok (returnRecord_arr hlow)).trans ?_
      rw [hvalue.ordered.sorted_eq]
  | raised hnumber =>
      refine (Json.tagged_arr rfl hheight).trans ?_
      exact into_ok (exceptionRecord_arr _ _ _ _ (Nat.zero_lt_of_lt hdepth))
  | done =>
      refine (Json.tagged_arr rfl hheight).trans ?_
      obtain ⟨depth, rfl⟩ := Nat.exists_eq_add_of_le' (Nat.one_le_of_lt hdepth)
      rfl

/-! ## Other messages -/

/-- A tag may stand anywhere among the members of an object. -/
theorem exists_split_of_perm {members rest : List (String × Json)} {m : String × Json}
    (h : members.Perm (m :: rest)) :
    ∃ before after, members = before ++ m :: after ∧ (before ++ after).Perm rest := by
  obtain ⟨before, after, rfl⟩ := List.append_of_mem (h.mem_iff.mpr List.mem_cons_self)
  exact ⟨before, after, rfl, (List.perm_middle.symm.trans h).cons_inv⟩

theorem signature_obj {params : List String} {members : List (String × Json)}
    (h : members.Perm [("event", .str "signature"), ("param_names", .strings params)])
    {origin : Json.Origin} {depth : Nat} (hdepth : 1 < depth) :
    Message.decodeControl ⟨origin, depth⟩ (toTree (.obj members)) = .ok (.signature params) := by
  obtain ⟨before, after, rfl, hothers⟩ := exists_split_of_perm h
  rw [List.perm_singleton] at hothers
  have hlow : Json.height (.strings params) < depth :=
    Nat.lt_of_le_of_lt (Json.height_strings params) hdepth
  refine (Json.tagged_obj rfl (by simp [hothers, OrderedMap.keys]) ?_).trans ?_
  · rw [hothers]
    simp only [Json.height, Json.membersHeight]
    omega
  · rw [hothers]
    obtain ⟨depth, rfl⟩ := Nat.exists_eq_add_of_le' (Nat.one_le_of_lt hdepth)
    have hread : Message.signatureRecord.decode [] ⟨.buffer, depth + 1⟩
        (toTree (.obj [("param_names", .strings params)])) = .ok params := by
      refine decode_obj ["param_names"] ?_ rfl
      simp only [Json.memberTrees]
      rw [fillMembers_cons rfl (by decide)
        (Json.Slot.read_of (Json.list_string_toTree params (Nat.lt_of_succ_lt_succ hdepth)))]
      rfl
    show (Message.signatureRecord.decode [] _ _).map _ = _
    rw [hread]
    rfl

theorem error_obj {message : String} {members : List (String × Json)}
    (h : members.Perm [("event", .str "error"), ("message", .str message)])
    {origin : Json.Origin} {depth : Nat} (hdepth : 0 < depth) :
    Message.decodeControl ⟨origin, depth⟩ (toTree (.obj members)) = .ok (.error message) := by
  obtain ⟨before, after, rfl, hothers⟩ := exists_split_of_perm h
  rw [List.perm_singleton] at hothers
  obtain ⟨depth, rfl⟩ := Nat.exists_eq_add_of_le' hdepth
  refine (Json.tagged_obj rfl (by simp [hothers, OrderedMap.keys]) ?_).trans ?_
  · rw [hothers]
    exact Nat.succ_le_succ (Nat.zero_le depth)
  · rw [hothers]
    rfl

/-! ## Messages -/

/-- No tag names both an event and another message. -/
theorem not_event_and_control {tree : Tree} {name : String}
    (htag : HasNamedTag "event" tree name) {ctx ctx' : Context} {e : Event} {m : Message}
    (hevent : Event.decode ctx tree = .ok e) (hcontrol : Message.decodeControl ctx' tree = .ok m) :
    False := by
  have hname : name ∈ ["line", "return", "exception", "done"] :=
    OrderedMap.hasKey_iff.mp (Json.lookup_isSome_of_tagged htag hevent)
  have hname' : name ∈ ["signature", "error"] :=
    OrderedMap.hasKey_iff.mp (Json.lookup_isSome_of_tagged htag hcontrol)
  simp only [List.mem_cons, List.not_mem_nil, or_false] at hname'
  rcases hname' with rfl | rfl <;> exact absurd hname (by decide)

namespace Message

/-- Reads a message, an event only if it is no other message. -/
def decodeControlFirst : Decode Message :=
  .firstOf "RuntimeMessage" [decodeControl, fun ctx tree => (Event.decode ctx tree).map .event]

theorem decode_eq_controlFirst {tree : Tree} {name : String}
    (htag : HasNamedTag "event" tree name) (ctx : Context) :
    decode ctx tree = decodeControlFirst ctx tree := by
  refine Json.firstOf_comm fun x y hevent hcontrol => ?_
  obtain ⟨e, he, -⟩ := ok_of_map hevent
  exact not_event_and_control htag he hcontrol

theorem decode_event {a : Json} (hheight : a.height ≤ Json.maxDepth) {e : Event}
    (h : Event.decode ⟨.buffer, Json.maxDepth⟩ (toTree a) = .ok e) :
    decode ⟨.text, Json.maxDepth⟩ (toTree a) = .ok (.event e) := by
  refine Json.firstOf_left hheight ?_
  rw [h]
  rfl

theorem decode_control {members : List (String × Json)}
    (hheight : ∀ m ∈ members, m.2.height < Json.maxDepth) {name : String}
    (htag : ("event", .str name) ∈ members) {m : Message}
    (h : decodeControl ⟨.buffer, Json.maxDepth⟩ (toTree (.obj members)) = .ok m) :
    decode ⟨.text, Json.maxDepth⟩ (toTree (.obj members)) = .ok m := by
  have hnamed : HasNamedTag "event" (toTree (.obj members)) name :=
    .obj (Json.mem_memberTrees htag)
  rw [decode_eq_controlFirst hnamed]
  refine Json.firstOf_left ?_ h
  have hlow := Json.membersHeight_le_iff.mpr fun m hm => Nat.le_pred_of_lt (hheight m hm)
  rw [Json.height]
  exact Nat.succ_le_succ hlow

/-- Every text that spells the value is read as the message, its compact form for one. -/
structure IsReadFrom (m : Message) (a : Json) : Prop where
  compact : Json.decodeText decode a.compact.toList = .ok m
  spelled : ∀ cs, Spells a cs → Json.decodeText decode cs = .ok m

theorem isReadFrom_of_decode {m : Message} {a : Json} (hexact : IsPrecise a)
    (h : decode ⟨.text, Json.maxDepth⟩ (toTree a) = .ok m) : IsReadFrom m a := by
  have hspelled : ∀ cs, Spells a cs → Json.decodeText decode cs = .ok m :=
    fun cs hcs => Json.decodeText_of_spells hcs h
  refine ⟨?_, hspelled⟩
  rw [Json.compact, String.toList_ofList]
  exact hspelled _ (Json.spells_write a hexact)

end Message

theorem Event.IsSendable.isPrecise_toArray {e : Event} (h : e.IsSendable) :
    IsPrecise e.toArray := by
  refine .arr (List.forall_mem_cons.mpr ⟨.str _, ?_⟩)
  cases h with
  | line hnumber _ hlocals =>
      have hmap := IsPrecise.obj fun m hm => (hlocals m hm).integral
      simp [Event.fields, IsPrecise.str, hmap, Json.nat, IsPrecise.int (isExactInt_nat hnumber)]
  | returned hvalue => simp [Event.fields, hvalue.integral]
  | @raised _ _ number file hnumber =>
      cases number with
      | none => cases file <;> simp [Event.fields, IsPrecise.str, IsPrecise.null, Json.ofString?]
      | some n =>
          have hn := IsPrecise.int (isExactInt_nat (hnumber n rfl))
          cases file <;>
            simp [Event.fields, IsPrecise.str, IsPrecise.null, Json.ofString?, Json.nat, hn]
  | done => simp [Event.fields]

theorem Event.IsSendable.isReadFrom_toJson {e : Event} (h : e.IsSendable) :
    Message.IsReadFrom (.event e) e.toJson := by
  have hheight : e.toJson.height ≤ Json.maxDepth := by
    have hmembers := h.height_members
    simp only [Event.toJson, Json.height, Json.membersHeight, Json.maxDepth]
    omega
  exact Message.isReadFrom_of_decode h.isPrecise_toJson
    (Message.decode_event hheight (event_obj h (by decide)))

theorem Event.IsSendable.isReadFrom_toArray {e : Event} (h : e.IsSendable) :
    Message.IsReadFrom (.event e) e.toArray := by
  have hheight : e.toArray.height ≤ Json.maxDepth := by
    have hmembers := h.height_members
    simp only [Event.toArray, Json.height, Json.itemsHeight, e.itemsHeight_fields, Json.maxDepth]
    omega
  exact Message.isReadFrom_of_decode h.isPrecise_toArray
    (Message.decode_event hheight (event_arr h (by decide)))

namespace Message

/-- A message that is no event is read when its tag stands among low members. -/
theorem isReadFrom_of_decodeControl {m : Message} {members : List (String × Json)} {name : String}
    (hmembers : ∀ p ∈ members, p.2.height < Json.maxDepth ∧ IsPrecise p.2)
    (htag : ("event", .str name) ∈ members)
    (h : decodeControl ⟨.buffer, Json.maxDepth⟩ (toTree (.obj members)) = .ok m) :
    IsReadFrom m (.obj members) :=
  isReadFrom_of_decode (.obj fun p hp => (hmembers p hp).2)
    (decode_control (fun p hp => (hmembers p hp).1) htag h)

theorem isReadFrom_signature {params : List String} {members : List (String × Json)}
    (h : members.Perm [("event", .str "signature"), ("param_names", .strings params)]) :
    IsReadFrom (.signature params) (.obj members) := by
  refine isReadFrom_of_decodeControl (fun m hm => ?_) (h.mem_iff.mpr List.mem_cons_self)
    (signature_obj h (by decide))
  have hm' := h.mem_iff.mp hm
  simp only [List.mem_cons, List.not_mem_nil, or_false] at hm'
  rcases hm' with rfl | rfl
  · exact ⟨by decide, .str _⟩
  · exact ⟨Nat.lt_of_le_of_lt (Json.height_strings _) (by decide), Json.isPrecise_strings _⟩

theorem isReadFrom_error {message : String} {members : List (String × Json)}
    (h : members.Perm [("event", .str "error"), ("message", .str message)]) :
    IsReadFrom (.error message) (.obj members) := by
  refine isReadFrom_of_decodeControl (fun m hm => ?_) (h.mem_iff.mpr List.mem_cons_self)
    (error_obj h (by decide))
  have hm' := h.mem_iff.mp hm
  simp only [List.mem_cons, List.not_mem_nil, or_false] at hm'
  rcases hm' with rfl | rfl <;> exact ⟨Nat.zero_lt_succ _, .str _⟩

end Message

/-- **Messages survive the wire.** An event is read from its written form and from its array form,
the parameters of a function and an error from an object with the members in any order. A text
whose tag is a string is not both an event and another message, and which is tried first does not
matter to it. -/
theorem messages_survive :
    (∀ e : Event, e.IsSendable → Message.IsReadFrom (.event e) e.toJson ∧
      Message.IsReadFrom (.event e) e.toArray) ∧
    (∀ (params : List String) (members : List (String × Json)),
      members.Perm [("event", .str "signature"), ("param_names", .strings params)] →
      Message.IsReadFrom (.signature params) (.obj members)) ∧
    (∀ (message : String) (members : List (String × Json)),
      members.Perm [("event", .str "error"), ("message", .str message)] →
      Message.IsReadFrom (.error message) (.obj members)) ∧
    ∀ (cs : List Char) (name : String), HasNamedTag "event" (Json.Document.ofText cs).root name →
      (∀ e m, Json.decodeText Event.decode cs = .ok e →
        Json.decodeText Message.decodeControl cs ≠ .ok m) ∧
      Json.decodeText Message.decode cs = Json.decodeText Message.decodeControlFirst cs := by
  refine ⟨fun e he => ⟨he.isReadFrom_toJson, he.isReadFrom_toArray⟩,
    fun _ _ hmembers => Message.isReadFrom_signature hmembers,
    fun _ _ hmembers => Message.isReadFrom_error hmembers,
    fun cs name htag => ⟨fun e m hevent hcontrol => ?_, ?_⟩⟩
  · exact not_event_and_control htag (Json.ok_of_decodeText hevent) (Json.ok_of_decodeText hcontrol)
  · rw [Json.decodeText, Json.decodeText, Message.decode_eq_controlFirst htag]

/-- Quotes, backslashes and line feeds in the locals of a line come back, a tag may stand last, and
the order of the kinds does not matter to an end. -/
theorem messages_survive_quoted :
    Message.IsReadFrom (.event (.line "/r/m.py" "f" 3 [("s", .str "\"\\\n"), ("t", .int (-1))]))
        (Event.line "/r/m.py" "f" 3 [("s", .str "\"\\\n"), ("t", .int (-1))]).toJson ∧
      Message.IsReadFrom (.signature ["a"])
        (.obj [("param_names", .strings ["a"]), ("event", .str "signature")]) ∧
      Message.IsReadFrom (.error "no")
        (.obj [("message", .str "no"), ("event", .str "error")]) ∧
      Json.decodeText Message.decode (Json.write Event.done.toJson) =
        Json.decodeText Message.decodeControlFirst (Json.write Event.done.toJson) := by
  have htag : HasNamedTag "event"
      (Json.Document.ofText (Json.write Event.done.toJson)).root "done" := by
    have htext := Json.ofText_of_spells
      (Json.spells_write _ Event.IsSendable.done.isPrecise_toJson) Json.isGap_nil
    rw [List.append_nil] at htext
    rw [htext]
    exact .obj (.head _)
  refine ⟨(messages_survive.1 _ (.line (by norm_num) (by decide) ?_)).1,
    messages_survive.2.1 _ _ (.swap _ _ _), messages_survive.2.2.1 _ _ (.swap _ _ _),
    (messages_survive.2.2.2 _ _ htag).2⟩
  intro m hm
  simp only [List.mem_cons, List.not_mem_nil, or_false] at hm
  rcases hm with rfl | rfl
  · exact ⟨.str _, .str _, by decide⟩
  · exact ⟨.int ⟨by decide, by decide⟩, .int _, by decide⟩

end ChangeScope.Trace
