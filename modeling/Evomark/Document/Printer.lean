import Evomark.Document.Node
import Evomark.Json.Printer
/-!
# Printing a document

`Node.print` writes a document as source in its canonical form, which depends on the nodes and the
layouts of bodies only. Elements flow in lines with single spaces between them; two texts are a
paragraph apart; the children of a block body stand indented on lines of their own.

While printing, the output is held with its last character first (`Ink`), so that what has been
written last is at hand: spacing depends on it, and line ends are trimmed by taking from it.
-/

namespace Evomark

/-- What has been written, the last character first. -/
abbrev Ink := List Char

namespace Ink

/-- More text written. -/
def put (text : List Char) (ink : Ink) : Ink := text.reverse ++ ink

/-- A space before an element within a line, unless nothing, white space or an opening brace is
before it. -/
def space (ink : Ink) : Ink :=
  match ink with
  | [] => []
  | c :: _ => if Text.isWhite c || c == '\x7b' then ink else ' ' :: ink

/-- Without the spaces and tabs written last. -/
def trimBlanks (ink : Ink) : Ink := ink.dropWhile Text.isBlank

/-- Without the white space written last. -/
def trimWhite (ink : Ink) : Ink := ink.dropWhile Text.isWhite

/-- A text whose lines after the first are indented. -/
def putLines (indent text : List Char) (ink : Ink) : Ink :=
  match Text.splitLines text with
  | [] => ink
  | first :: more =>
    more.foldl (fun ink line => ink.put ('\n' :: (indent ++ line))) (ink.put first)

end Ink

namespace Node

/-- The separator of `count` line feeds; a line that is just beginning takes one more. -/
def putSep (indent : List Char) (count : Nat) (ink : Ink) : Ink :=
  let ink := ink.trimBlanks
  let breaks := if ink.head? = some '\n' then ['\n'] else List.replicate count '\n'
  (ink.put breaks).put indent

/-- A text or a literal after a node of kind `prev`. An equality sign must not follow a variable
on its line, where it would read as an assignment. -/
def putText (indent : List Char) (prev : Option Kind) (kind : Kind) (content : List Char)
    (ink : Ink) : Ink :=
  if content.isEmpty then ink
  else
    let isText := kind == .text
    let ink :=
      if isText && prev == some .text then (ink.trimBlanks.put ['\n', '\n']).put indent
      else if isText && prev == some .varUse && content.head? == some '=' then
        (ink.trimBlanks.put ['\n']).put indent
      else ink.space
    ink.putLines indent content

/-- The text of a parameter: its value if it has one. -/
def paramText (label : Label) : List Char :=
  match label.value with
  | some value => value.write
  | none => label.content.toList

/-- A parameter or a body: a clause of a call. -/
def isClause (kind : Kind) : Bool :=
  match kind with
  | .funcParam | .body | .funcBody => true
  | _ => false

/-- The sign in front of the name of a call. -/
def sigil (kind : Kind) : Char := if kind = .cmd then '$' else '#'

/-- `n` copies of the indentation unit. -/
def indentation (unit : List Char) (n : Nat) : List Char := Text.times n unit

/-- A body with its delimiters. `inside` writes its children at a level, `hosted` the calls among
them as they stand. A body that keeps its text is written as that text. -/
def putBody (unit : List Char) (level : Nat) (label : Label) (inside : Nat → Ink → Ink)
    (hosted : Ink → Ink) (ink : Ink) : Ink :=
  let raw := label.content.toList
  let within (ink : Ink) : Ink := if raw.isEmpty then inside level ink else ink.put raw
  match label.layout.getD .inline with
  | .directChild => hosted ink
  | .code opening closing =>
    ((within ((ink.put (List.replicate opening '=')).put ['>'])).put (List.replicate closing '=')).put
      ['|']
  | .inline => (within (ink.put ['\x7b'])).put ['\x7d']
  | .block =>
    let ink := ink.put ['\x7b']
    if raw.isEmpty then
      let ink := inside (level + 1) ((ink.put ['\n']).put (indentation unit (level + 1)))
      ((ink.trimWhite.put ['\n']).put (indentation unit level)).put ['\x7d']
    else (ink.put raw).put ['\x7d']

mutual

/-- A node after a node of kind `prev`, in a body nested `level` blocks deep. -/
def putNode (unit : List Char) (level : Nat) (prev : Option Kind) : Node → Ink → Ink
  | ⟨label, children⟩, ink =>
    let name := label.content.toList
    match label.kind with
    | .root => putNodes unit level none children ink
    | .text => putText (indentation unit level) prev .text name ink
    | .literal => putText (indentation unit level) prev .literal name ink
    | .func => putClauses unit level children ((ink.space.put ['#']).put name)
    | .cmd => putClauses unit level children ((ink.space.put ['$']).put name)
    | .varUse => (ink.space.put ['%']).put name
    | .varAssign =>
      putNodes unit level none children (((ink.space.put ['%']).put name).put [' ', '=', ' '])
    | .ref => putCalls unit level (· == .func) children (((ink.space.put ['@']).put name).put ['='])
    | .sep => putSep (indentation unit level) label.sepCount ink
    | .funcParam => ((ink.put ['(']).put (paramText label)).put [')']
    | .body | .funcBody =>
      putBody unit level label (fun level => putNodes unit level none children)
        (putCalls unit level (fun kind => kind == .func || kind == .cmd) children) ink
    | .warning | .error | .configDict => ink

/-- Nodes one after the other, the first after a node of kind `prev`. -/
def putNodes (unit : List Char) (level : Nat) (prev : Option Kind) : List Node → Ink → Ink
  | [], ink => ink
  | n :: rest, ink => putNodes unit level (some n.kind) rest (putNode unit level prev n ink)

/-- The clauses among the nodes; results attached to a command are not source. -/
def putClauses (unit : List Char) (level : Nat) : List Node → Ink → Ink
  | [], ink => ink
  | n :: rest, ink =>
    putClauses unit level rest (if isClause n.kind then putNode unit level none n ink else ink)

/-- The calls among the nodes that `wanted` chooses, without spaces before them. -/
def putCalls (unit : List Char) (level : Nat) (wanted : Kind → Bool) : List Node → Ink → Ink
  | [], ink => ink
  | ⟨label, children⟩ :: rest, ink =>
    putCalls unit level wanted rest <|
      if wanted label.kind then
        putClauses unit level children ((ink.put [sigil label.kind]).put label.content.toList)
      else ink

end

/-- The source text of a document, indented by copies of `unit`. -/
def printWith (unit : String) (n : Node) : String :=
  String.ofList (putNodes unit.toList 0 none n.children []).reverse

/-- The indentation unit where none is chosen. -/
def defaultUnit : String := "  "

/-- The source text of a document. -/
def print (n : Node) : String := n.printWith defaultUnit

end Node

end Evomark
