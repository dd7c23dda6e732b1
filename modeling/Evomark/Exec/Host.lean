import Evomark.Text.Uppercase
import Evomark.Digest.Sha3
import Evomark.Exec.Saved
/-!
# Hosts of values

A `Host` is what a variable is bound to during a pass. Its content is set at once, or it is
deferred: the host keeps an input, the hash of that input and an `Evaluator`, and the first look
at the content resolves it through the cache. Whatever the first look finds, a value or nothing,
is frozen for the rest of the pass (`Host.look_look`).
-/

namespace Evomark

/-- A way to compute a content from an input. -/
inductive Evaluator
  /-- The text of the input, in upper case. -/
  | uppercaseText
  /-- The input itself in upper case, if it is a string. -/
  | uppercase
  /-- Always the same. -/
  | constant (value : Option Json)
  /-- Any function of the input. -/
  | function (f : Json → Option Json)

namespace Evaluator

/-- What an evaluator makes of an input. -/
def apply : Evaluator → Json → Option Json
  | uppercaseText, input =>
    ((input.field? "text").bind Json.string?).map fun s => .string (Text.uppercase s)
  | uppercase, input => input.string?.map fun s => .string (Text.uppercase s)
  | constant value, _ => value
  | function f, input => f input

end Evaluator

/-- The content of a host. -/
inductive Content
  /-- Not looked at yet, and not set. -/
  | unset
  /-- Final for this pass; `none` when there is no value. -/
  | frozen (value : Option Json)

/-- A content that is computed when it is first looked at. -/
structure Deferred where
  input : Json
  /-- The key of the result in the cache, if it is cached. -/
  hash : Option String
  evaluator : Evaluator

/-- What a variable is bound to. -/
structure Host where
  name : String
  type : DataType := .str
  /-- There is a value. -/
  defined : Bool := false
  deferred : Option Deferred := none
  content : Content := .unset
  /-- The hosts the value was made from; `none` where a name had no binding. -/
  dependencies : List (Option Nat) := []

/-- One run of an evaluator. -/
structure Evaluation where
  evaluator : Evaluator
  input : Json

/-- The text that is hashed for an input of the rule `caller`. -/
def hashedText (input : Json) (caller : String) : String :=
  String.ofList (caller.toList ++ '$' :: input.write)

/-- The key under which the rule `caller` caches what it makes of `input`. -/
def hashOf (input : Json) (caller : String) : String := Digest.sha3Text (hashedText input caller)

/-- The outcome of looking at a content: the value, the cache, and the evaluations it took. -/
structure Lookup where
  value : Option Json
  cache : Table Json
  evaluations : List Evaluation

namespace Deferred

/-- The value in the cache, or else the one computed, which is then cached. Nothing is cached when
no value comes out. -/
def eval (d : Deferred) (cache : Table Json) : Lookup :=
  match d.hash.bind cache.get? with
  | some value => ⟨some value, cache, []⟩
  | none =>
    let run : List Evaluation := [⟨d.evaluator, d.input⟩]
    match d.evaluator.apply d.input with
    | none => ⟨none, cache, run⟩
    | some value =>
      match d.hash with
      | some hash => ⟨some value, cache.insert hash value, run⟩
      | none => ⟨some value, cache, run⟩

end Deferred

namespace Host

/-- The host with a content that is final. -/
def setContent (h : Host) (value : Option Json) : Host :=
  { h with defined := value.isSome, content := .frozen value }

/-- The host with a content that is computed when it is looked at. -/
def setDeferred (h : Host) (d : Deferred) : Host := { h with deferred := some d }

/-- The content is final. -/
def isResolved (h : Host) : Bool :=
  match h.content with
  | .unset => false
  | .frozen _ => true

/-- The content, computed and frozen if it is deferred, with the host as it is then. -/
def look (h : Host) (cache : Table Json) : Host × Lookup :=
  match h.content with
  | .frozen value => (h, ⟨value, cache, []⟩)
  | .unset =>
    match h.deferred with
    | none => (h, ⟨none, cache, []⟩)
    | some d =>
      let found := d.eval cache
      (h.setContent found.value, found)

/-- What has been set is final. -/
theorem isResolved_setContent (h : Host) (value : Option Json) :
    (h.setContent value).isResolved = true := rfl

/-- A final content is found again under any cache, and the cache stays as it is. -/
theorem look_look (h : Host) (cache cache' : Table Json) (hr : (h.look cache).1.isResolved = true) :
    (h.look cache).1.look cache' = ((h.look cache).1, ⟨(h.look cache).2.value, cache', []⟩) := by
  obtain ⟨name, type, defined, deferred, content, deps⟩ := h
  cases content <;> cases deferred <;> simp_all [look, isResolved, setContent]

/-- A value as the text of a host of a type. -/
def textOf (type : DataType) (value : Json) : String :=
  match type, value with
  | .str, .string s => s
  | _, value => value.compact

end Host

/-- How a rule made by the user provides a content. -/
inductive Provision
  /-- Not at all. -/
  | untouched
  /-- Nothing, at once. -/
  | nothing
  /-- A value, at once. -/
  | given (value : Option Json)
  /-- When it is looked at, cached under the hash if `cached`. -/
  | deferred (evaluator : Evaluator) (cached : Bool)

/-- The host with its content provided, deferred over `input` and its `hash`. -/
def Host.provide (h : Host) (p : Provision) (input : Json) (hash : String) : Host :=
  match p with
  | .untouched => h
  | .nothing => h.setContent none
  | .given value => h.setContent value
  | .deferred evaluator cached =>
    h.setDeferred ⟨input, if cached then some hash else none, evaluator⟩

end Evomark
