import ChangeScope.Toml

/-!
# Tables under construction

While a document is read its tables grow. How a table came to be decides what may still be added:
one that a header defines or a value gives is not defined again, one that dotted keys make takes
further dotted keys only, and one that merely stands on the way of a longer header may still get a
header of its own. The last table of an array of tables is the one that grows.
-/

set_option autoImplicit false

namespace ChangeScope.Toml

/-- How a table came to be. -/
inductive Form where
  /-- By a header of its own. -/
  | defined
  /-- On the way of a longer header. -/
  | implied
  /-- By a dotted key. -/
  | dotted
deriving DecidableEq, Repr

/-- A part of a document under construction. -/
inductive Draft where
  /-- A value, to which nothing can be added. -/
  | value (v : Toml)
  | table (form : Form) (members : List (String × Draft))
  /-- An array of tables, the last one first. -/
  | tables (elements : List (List (String × Draft)))
deriving Inhabited

namespace Draft

/-- The members of a table. -/
abbrev Members := List (String × Draft)

/-- The members with that of a key changed; an absent one is added at the end. -/
def update (key : String) (f : Option Draft → Option Draft) : Members → Option Members
  | [] => (f none).map fun d => [(key, d)]
  | (k, d) :: rest =>
      if k = key then (f (some d)).map fun d => (k, d) :: rest
      else (update key f rest).map fun rest => (k, d) :: rest

/-- Changes the table that a path leads to. On the way tables are made; with `byDots`, which holds
for dotted keys, no table that has a header may be entered. -/
def alter (byDots : Bool) (f : Form → Members → Option Members) :
    Form → List String → Members → Option Members
  | form, [], members => f form members
  | _, key :: path, members =>
      let fresh : Form := if byDots then .dotted else .implied
      update key (fun d =>
        match d with
        | none => (alter byDots f fresh path []).map (.table fresh)
        | some (.value _) => none
        | some (.table form inner) =>
            if byDots && form = .defined then none
            else (alter byDots f form path inner).map (.table form)
        | some (.tables []) => none
        | some (.tables (last :: others)) =>
            (alter byDots f .defined path last).map fun last => .tables (last :: others)) members

/-- Adds a new member. -/
def add (key : String) (d : Draft) (members : Members) : Option Members :=
  update key (fun old => if old.isSome then none else some d) members

/-- Sets the value of a key that may be dotted, as `path` and last part, in a table. -/
def setValue (path : List String) (key : String) (v : Toml) (members : Members) :
    Option Members :=
  alter true
    (fun form inner =>
      if path.isEmpty || form = .dotted then add key (.value v) inner else none)
    .defined path members

/-- The table of a header, made or defined at last. -/
def openTable (key : String) (members : Members) : Option Members :=
  update key (fun d =>
    match d with
    | none => some (.table .defined [])
    | some (.table .implied inner) => some (.table .defined inner)
    | some _ => none) members

/-- One more table in an array of tables. -/
def openElement (key : String) (members : Members) : Option Members :=
  update key (fun d =>
    match d with
    | none => some (.tables [[]])
    | some (.tables elements) => some (.tables ([] :: elements))
    | some _ => none) members

mutual

/-- The finished value. -/
def finish : Draft → Toml
  | .value v => v
  | .table _ members => .table (finishMembers members)
  | .tables elements => .array (finishElements elements).reverse

/-- The finished members. -/
def finishMembers : List (String × Draft) → List (String × Toml)
  | [] => []
  | (key, d) :: rest => (key, finish d) :: finishMembers rest

/-- The finished tables of an array. -/
def finishElements : List (List (String × Draft)) → List Toml
  | [] => []
  | members :: rest => .table (finishMembers members) :: finishElements rest

end

end Draft

end ChangeScope.Toml
