import Evomark.Exec.Host
/-!
# The state of a pass

`ExecState` holds the tables of the context, the hosts bound so far in order of binding, the
latest host of each name, warnings that have not been written into the document, and how many
steps have been executed. Looking at a host changes the state: the host freezes, and the cache
may grow.
-/

namespace Evomark

/-- The state of a pass. -/
structure ExecState where
  cache : Table Json := []
  saved : Table SavedVar := []
  /-- All hosts, in order of binding. -/
  hosts : List Host := []
  /-- The latest host of each name, by its place among the hosts. -/
  bindings : Table Nat := []
  /-- The pass ends after this step. -/
  halted : Bool := false
  lastAssigned : Option Nat := none
  /-- Warnings not yet written into the document. -/
  warnings : List String := []
  /-- How many steps have been executed; the salt of cached results. -/
  position : Nat := 0
  /-- The evaluations so far. -/
  evaluations : List Evaluation := []
  deriving Inhabited

namespace ExecState

/-- The state at the start of a pass. -/
def ofContext (ctx : Context) : ExecState := { cache := ctx.cache, saved := ctx.saved }

/-- The tables that outlive the pass. -/
def context (s : ExecState) : Context := ⟨s.cache, s.saved⟩

/-- A host bound to its name. -/
def bind (s : ExecState) (h : Host) : ExecState :=
  { s with
    hosts := s.hosts ++ [h]
    bindings := s.bindings.insert h.name s.hosts.length
    lastAssigned := some s.hosts.length }

/-- The place of the host bound to a name. -/
def bound? (s : ExecState) (name : String) : Option Nat := s.bindings.get? name

/-- The host at a place. -/
def host? (s : ExecState) (id : Nat) : Option Host := s.hosts[id]?

/-- The host bound to a name. -/
def hostOf? (s : ExecState) (name : String) : Option Host := (s.bound? name).bind s.host?

/-- The state after a look. -/
def noteLookup (s : ExecState) (found : Lookup) : ExecState :=
  { s with cache := found.cache, evaluations := s.evaluations ++ found.evaluations }

/-- A host that is not bound is looked at. -/
def lookHost (s : ExecState) (h : Host) : Option Json × Host × ExecState :=
  let (h, found) := h.look s.cache
  (found.value, h, s.noteLookup found)

/-- The host at a place is looked at. -/
def look (s : ExecState) (id : Nat) : Option Json × ExecState :=
  match s.host? id with
  | none => (none, s)
  | some h =>
    let (h, found) := h.look s.cache
    (found.value, { s.noteLookup found with hosts := s.hosts.set id h })

/-- The text of the host at a place. -/
def lookText (s : ExecState) (id : Nat) : Option String × ExecState :=
  let (value, s) := s.look id
  (value.bind fun value => (s.host? id).map fun h => Host.textOf h.type value, s)

/-- The host at a place has a value. -/
def isDefined (s : ExecState) (id : Nat) : Bool := ((s.host? id).map (·.defined)).getD false

/-- One more warning. -/
def warn (s : ExecState) (message : String) : ExecState :=
  { s with warnings := s.warnings ++ [message] }

/-- One more warning, after which the pass ends. -/
def fatal (s : ExecState) (message : String) : ExecState := { s.warn message with halted := true }

/-- What is wrong with a name that has no value. -/
def undefinedWarning (name : String) : String := "Variable \"" ++ name ++ "\" is not defined"

/-- A value saved under a name; a warning if there is none or it does not fit its type. -/
def store (s : ExecState) (name : String) (type : DataType) (value : Option Json) : ExecState :=
  match value with
  | none => s.warn "Save failed because the variable is Undef"
  | some value =>
    match SavedVar.encode name type value with
    | .ok saved => { s with saved := s.saved.insert name saved }
    | .error e => s.warn e.message

/-- The host at a place saved. -/
def saveBound (s : ExecState) (id : Nat) : ExecState :=
  let (value, s) := s.look id
  match s.host? id with
  | none => s
  | some h => s.store h.name h.type value

/-- A host that is not bound saved. -/
def saveHost (s : ExecState) (h : Host) : Host × ExecState :=
  let (value, h, s) := s.lookHost h
  (h, s.store h.name h.type value)

/-- A value put into the cache. -/
def saveCache (s : ExecState) (hash : String) (value : Json) : ExecState :=
  { s with cache := s.cache.insert hash value }

end ExecState

end Evomark
