import Evomark.Json.Printer
/-!
# What outlives a pass

A `Context` holds the two tables that one pass leaves to the next: computed values under the hash
of what they were computed from, and saved variables with their types. A saved text must be a
JSON string; `SavedVar.encode` and `SavedVar.decode` refuse anything else.
-/

namespace Evomark

/-- How the content of a variable is shown and saved: as a text, or as the JSON value it is. -/
inductive DataType
  | str
  | obj
  deriving DecidableEq, Repr, Inhabited

namespace DataType

/-- The name of a type. -/
def name : DataType → String
  | str => "str"
  | obj => "obj"

/-- The type of a name. -/
def ofName? (name : String) : Option DataType :=
  if name = "str" then some str else if name = "obj" then some obj else none

end DataType

/-- A saved variable does not hold a value of its type. -/
structure SavedVarError where
  name : String
  expected : DataType
  deriving DecidableEq, Repr

/-- The wording of the error. -/
def SavedVarError.message (e : SavedVarError) : String :=
  "Saved variable \"" ++ e.name ++ "\" does not hold a " ++ e.expected.name ++ " value"

/-- A saved variable. -/
structure SavedVar where
  type : DataType
  value : Json
  deriving Inhabited

namespace SavedVar

/-- The value fits the type: a text is a JSON string, anything is an object. -/
def Fits : DataType → Json → Bool
  | .str, .string _ => true
  | .str, _ => false
  | .obj, _ => true

/-- The variable `name` with a value of its type. -/
def encode (name : String) (type : DataType) (value : Json) : Except SavedVarError SavedVar :=
  if Fits type value then .ok ⟨type, value⟩ else .error ⟨name, type⟩

/-- The value of the saved variable `name`. -/
def decode (saved : SavedVar) (name : String) : Except SavedVarError Json :=
  if Fits saved.type saved.value then .ok saved.value else .error ⟨name, saved.type⟩

/-- A saved variable as data: its type under `t`, its value under `v`. -/
def toJson (saved : SavedVar) : Json :=
  .object [("t", .string saved.type.name), ("v", saved.value)]

end SavedVar

/-- The tables that outlive a pass. -/
structure Context where
  /-- Computed values by the hash of what they were computed from. -/
  cache : Table Json := []
  /-- Saved variables by name. -/
  saved : Table SavedVar := []
  deriving Inhabited

namespace Context

/-- A context as data. -/
def toJson (ctx : Context) : Json :=
  .object [("cache", .object ctx.cache),
    ("saved", .object (ctx.saved.map fun (name, saved) => (name, saved.toJson)))]

/-- A context in one line. -/
def compact (ctx : Context) : String := ctx.toJson.compact

/-- The text of a state file. -/
def fileText (ctx : Context) : String := ctx.toJson.pretty

end Context

end Evomark
