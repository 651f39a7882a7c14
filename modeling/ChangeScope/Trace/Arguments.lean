import ChangeScope.Json.Decode

/-!
# Arguments of a run

The values that a traced function is called with.
-/

set_option autoImplicit false

namespace ChangeScope.Trace

/-- Positional and keyword arguments; the keywords are a map. -/
structure Arguments where
  positional : List Json := []
  keyword : Members := []
deriving Inhabited, BEq, Repr

namespace Arguments

/-- No argument at all. -/
def isEmpty (a : Arguments) : Bool := a.positional.isEmpty && a.keyword.isEmpty

/-- The arguments as JSON. -/
def toJson (a : Arguments) : Json := .obj [("args", .arr a.positional), ("kwargs", .obj a.keyword)]

/-- The written form of arguments. -/
def record : Json.Record Arguments :=
  { title := "struct TraceArguments"
    slots := [
      (Json.Slot.of "args" .never (.list .any) fun v a => { a with positional := v }).alsoNamed
        "positional",
      (Json.Slot.of "kwargs" .never .map fun v a => { a with keyword := v }).alsoNamed
        "keyword"] }

/-- Reads arguments. -/
def decode : Json.Decode Arguments := record.decode {}

/-- The text that tells runs with different arguments apart. -/
def key (a : Arguments) : String := a.toJson.compact

end Arguments

end ChangeScope.Trace
