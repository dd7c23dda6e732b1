import Evomark.Text.Uppercase
import Evomark.Markup.Segment
import Evomark.Markup.Literal
import Evomark.Markup.Dictionary
import Evomark.Markup.Grammar
/-!
# From source to document

`Markup.parse` reads a source under a grammar. A window is cut into segments; each segment gives
at most one node (`Finding`), and the bodies inside it are read by the rules of their names, which
for a box means as a window again. Warnings about malformed constructs go to the root of the
document wherever they arise, behind the node of the segment at the root they arose in. Settings
found in configuration blocks are collected beside the document.

Reading is complete when no window, nested or not, had anything left where no segment starts.
-/

namespace Evomark.Markup

/-- What a segment gives: its node, warnings for the root, settings by namespace, and whether
every window inside it was read to its end. -/
structure Finding where
  node : Option Node := none
  warnings : List String := []
  settings : List (String × Table Json) := []
  complete : Bool := true

/-- What a body gives: the text it keeps, its children, and what `Finding` has beside a node. -/
structure Inside where
  content : String := ""
  children : List Node := []
  warnings : List String := []
  settings : List (String × Table Json) := []
  complete : Bool := true

/-- What a window gives, segment by segment, and what is left of it. -/
structure Contents where
  findings : List Finding
  rest : Window

namespace Contents

/-- Every window was read to its end. -/
def complete (c : Contents) : Bool := c.rest.chars.isEmpty && c.findings.all (·.complete)

/-- What a box with these contents gives. -/
def inside (c : Contents) : Inside where
  children := c.findings.filterMap (·.node)
  warnings := c.findings.flatMap (·.warnings)
  settings := c.findings.flatMap (·.settings)
  complete := c.complete

end Contents

/-- A warning in the document. -/
def warningNode (message : String) : Node := .leaf { kind := .warning, content := message }

/-- The nodes a finding gives the root. -/
def Finding.rootNodes (f : Finding) : List Node := f.node.toList ++ f.warnings.map warningNode

/-- What is wrong with a reference. -/
def referenceWarning (name : String) : String :=
  "\"@" ++ name ++ " = \" must be followed with a function"

/-- What is wrong with an assignment. -/
def assignmentWarning (name : String) : String :=
  "\"%" ++ name ++ " = \" must be followed with a command"

/-- A configuration block: the dictionary it holds becomes a node and settings of its namespace;
what is no dictionary becomes a warning in its place. -/
def readSettings (space : String) (param : Option Json) (raw : String) : Inside :=
  match readDictionary raw (languageOf param) with
  | .ok dictionary =>
    { content := raw
      children := [.leaf { kind := .configDict, content := space, value := some (.object dictionary) }]
      settings := [(space, dictionary)] }
  | .error e => { content := raw, children := [warningNode e.message] }

/-- A body read by a rule, given how a window is read. `param` is the last parameter before it. -/
def readBody (read : Window → Contents) (rule : BodyRule) (param : Option Json) (w : Window) :
    Inside :=
  match rule with
  | .box => (read w).inside
  | .code => { content := String.ofList w.chars }
  | .literal => { children := literalNodes w.chars }
  | .config space => readSettings space param (String.ofList w.chars)
  | .reject => {}
  | .shout =>
    { children := [.leaf {
        kind := .literal, content := Text.uppercase (String.ofList w.chars), value := param }] }

/-- A node with what its clauses give beside their nodes. -/
structure Clauses where
  nodes : List Node := []
  warnings : List String := []
  settings : List (String × Table Json) := []
  complete : Bool := true

/-- The nodes of clauses. `param` is the value of the last parameter before them. -/
def readClauses (read : Window → Contents) (rule : BodyRule) (bodyKind : Kind) :
    Option Json → List Clause → Clauses
  | _, [] => {}
  | _, .param raw value span :: more =>
    let rest := readClauses read rule bodyKind (some value) more
    { rest with
      nodes := .leaf { kind := .funcParam, content := raw, value := some value, span := some span }
        :: rest.nodes }
  | param, .body layout inner :: more =>
    let inside := readBody read rule param inner
    let rest := readClauses read rule bodyKind param more
    let label : Label :=
      { kind := bodyKind, content := inside.content, layout := some layout
        span := some ⟨inner.offset, inner.stop⟩ }
    { nodes := ⟨label, inside.children⟩ :: rest.nodes
      warnings := inside.warnings ++ rest.warnings
      settings := inside.settings ++ rest.settings
      complete := inside.complete && rest.complete }

/-- What a command gives. -/
def readCommand (g : Grammar) (read : Window → Contents) (call : Call) : Finding :=
  let parts := readClauses read (g.commandRule call.name) .body none call.clauses
  { node := some ⟨{ kind := .cmd, content := call.name }, parts.nodes⟩
    warnings := parts.warnings, settings := parts.settings, complete := parts.complete }

/-- The body that holds the function behind a function with nothing but parameters. -/
def directBody (n : Option Node) : Node :=
  ⟨{ kind := .funcBody, layout := some .directChild }, n.toList⟩

/-- What a function gives, with the functions it hosts. -/
def readFunction (g : Grammar) (read : Window → Contents) (call : Call) : List Call → Finding
  | [] =>
    let parts := readClauses read (g.functionRule call.name) .funcBody none call.clauses
    { node := some ⟨{ kind := .func, content := call.name }, parts.nodes⟩
      warnings := parts.warnings, settings := parts.settings, complete := parts.complete }
  | next :: more =>
    let parts := readClauses read (g.functionRule call.name) .funcBody none call.clauses
    let hosted := readFunction g read next more
    { node := some ⟨{ kind := .func, content := call.name }, parts.nodes ++ [directBody hosted.node]⟩
      warnings := parts.warnings ++ hosted.warnings
      settings := parts.settings ++ hosted.settings
      complete := parts.complete && hosted.complete }

/-- A finding whose node is put below another. -/
def Finding.under (label : Label) (f : Finding) : Finding :=
  { f with node := some ⟨label, f.node.toList⟩ }

/-- What a segment gives, given how a window is read. -/
def readSegment (g : Grammar) (read : Window → Contents) : Segment → Finding
  | .prose raw =>
    let content := Text.normalizeLines raw
    if content.isEmpty then {}
    else { node := some (.leaf { kind := .text, content := String.ofList content }) }
  | .function call nested => readFunction g read call nested
  | .reference name call nested =>
    (readFunction g read call nested).under { kind := .ref, content := name }
  | .danglingReference name => { warnings := [referenceWarning name] }
  | .emptyReference name =>
    { node := some (.leaf { kind := .ref, content := name }), warnings := [referenceWarning name] }
  | .command call => readCommand g read call
  | .use name => { node := some (useOf name) }
  | .assignment name call => (readCommand g read call).under { kind := .varAssign, content := name }
  | .danglingAssignment name => { warnings := [assignmentWarning name] }

/-- What a window gives. Windows inside it are shorter, so a bound of its length is never met. -/
def readWindow (g : Grammar) : Nat → Window → Contents
  | 0, w => ⟨[], w⟩
  | fuel + 1, w =>
    let (segments, rest) := w.segments
    ⟨segments.map (readSegment g (readWindow g fuel)), rest⟩

/-- What a window gives. -/
def contents (g : Grammar) (w : Window) : Contents := readWindow g (w.length + 1) w

/-- Settings laid over those of the same namespace. What is stored there and is no dictionary is
replaced. -/
def mergeSettings (config : Table Json) (space : String) (settings : Table Json) : Table Json :=
  match config.get? space with
  | some (.object existing) => config.insert space (.object (Table.union existing settings))
  | some _ => config.insert space (.object settings)
  | none => config.insert space (.object (Table.union [] settings))

/-- A document read from a source. -/
structure Parsed where
  document : Node
  /-- The settings of each namespace. -/
  config : Table Json
  /-- The whole source was read. -/
  complete : Bool

/-- The document of a source. `initial` are the namespaces there are from the start. -/
def parse (g : Grammar) (initial : Table Json) (source : String) : Parsed :=
  let found := contents g (.ofSource source)
  { document := .root (found.findings.flatMap (·.rootNodes))
    config := (found.findings.flatMap (·.settings)).foldl
      (fun config (space, settings) => mergeSettings config space settings) initial
    complete := found.complete }

end Evomark.Markup
