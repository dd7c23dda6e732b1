import Evomark.Document.Printer
import Evomark.Markup.Window
/-!
# Canonical trees

Trees that the printer writes without loss, as a test (`Canonical.areElements`): texts are lines of
plain characters, parameters are whole numbers or words, a function hosts another only behind
parameters, separators stand between other nodes of a literal body, and what stands in braces on one
line is written on one line. Every label holds what belongs to its kind and nothing else; where a node
stands in a source is left open.
-/

namespace Evomark.Canonical

/-! ## Texts, names and values -/

/-- A letter, a digit, a space, or one of some punctuation marks that have no meaning as markup. -/
def isLineChar (c : Char) : Bool :=
  c.isAlphanum || [' ', '.', ',', ';', ':', '!', '?', '\'', '-', '='].contains c

/-- A line with something in it and no space at either end. -/
def isLine (cs : List Char) : Bool :=
  !cs.isEmpty && cs.all isLineChar && cs.head? != some ' ' && cs.getLast? != some ' '

/-- One or more lines; if `oneLine`, one. -/
def isText (oneLine : Bool) (content : String) : Bool :=
  (Text.splitLines content.toList).all isLine && !(oneLine && content.toList.contains '\n')

/-- A letter or an underscore with letters, digits and underscores behind it. -/
def isName (name : String) : Bool :=
  match name.toList with
  | [] => false
  | c :: rest => Window.isNameStart c && rest.all Window.isNameChar

/-- A whole number, or a string of letters. -/
def isValue : Json → Bool
  | .number (.integer n) => Number.minInteger ≤ n && n ≤ Number.maxInteger
  | .string s => s.toList.all Char.isAlpha
  | _ => false

/-- A label with a kind and a text only. -/
def isPlain (label : Label) : Bool := label.value.isNone && label.layout.isNone

/-- A parameter whose text is that of its value. -/
def isParam (n : Node) : Bool :=
  n.children.isEmpty && n.label.layout.isNone &&
    match n.label.value with
    | some value => isValue value && n.content == value.compact
    | none => false

/-! ## Bodies without calls -/

/-- The count of a separator. -/
def isCount : Option Json → Bool
  | some (.number (.integer count)) => 2 ≤ count
  | _ => false

/-- A node of a literal body behind a node of kind `prev`. -/
def isItem (oneLine : Bool) (prev : Option Kind) (n : Node) : Bool :=
  n.children.isEmpty && n.label.layout.isNone &&
    match n.kind with
    | .literal => n.label.value.isNone && isText oneLine n.content && prev != some .literal
    | .varUse => n.label.value.isNone && isName n.content
    | .sep => !oneLine && n.content == "" && isCount n.label.value && prev.isSome && prev != some .sep
    | _ => false

/-- The nodes of a literal body, the first behind a node of kind `prev`; the last is no separator. -/
def areItems (oneLine : Bool) (prev : Option Kind) : List Node → Bool
  | [] => prev != some .sep
  | n :: rest => isItem oneLine prev n && areItems oneLine (some n.kind) rest

/-- A character of code. -/
def isCodeChar (oneLine : Bool) (c : Char) : Bool :=
  !(['\x7b', '\x7d', '\\', '|'].contains c) && !(oneLine && c == '\n')

/-- Fences of the same length. -/
def isFence : Option Layout → Bool
  | some (.code opening closing) => opening == closing && 0 < opening
  | _ => false

/-- One body between fences, and nothing else. -/
def areCode (oneLine : Bool) : List Node → Bool
  | [⟨label, []⟩] =>
    label.kind == .funcBody && label.value.isNone && isFence label.layout
      && label.content.toList.all (isCodeChar oneLine)
  | _ => false

/-! ## Elements -/

/-- The printer starts a line before the node: a text is a paragraph of its own behind another, and an
equality sign does not stand behind a variable. -/
def startsLine (prev : Option Kind) (n : Node) : Bool :=
  n.kind == .text &&
    (prev == some .text || (prev == some .varUse && n.content.toList.head? == some '='))

mutual

/-- A node of a box. -/
def isElement (oneLine : Bool) : Node → Bool
  | ⟨label, children⟩ =>
    isPlain label &&
      match label.kind with
      | .text => isText oneLine label.content && children.isEmpty
      | .varUse => isName label.content && children.isEmpty
      | .func =>
        isName label.content && label.content != "config" &&
          if label.content = "code" then areCode oneLine children
          else areClauses oneLine .funcBody true children
      | .cmd => isName label.content && areClauses oneLine .body false children
      | .varAssign => isName label.content && isCall oneLine .cmd children
      | .ref => isName label.content && isCall oneLine .func children
      | _ => false

/-- One call of a kind, and nothing else. -/
def isCall (oneLine : Bool) (kind : Kind) : List Node → Bool
  | [] => false
  | n :: rest => n.kind == kind && rest.isEmpty && isElement oneLine n

/-- Parameters and bodies, or, if the call `hosts`, parameters and the body of a hosted call. -/
def areClauses (oneLine : Bool) (bodyKind : Kind) (hosts : Bool) : List Node → Bool
  | [] => true
  | n :: rest =>
    if n.kind = .funcParam then isParam n && areClauses oneLine bodyKind hosts rest
    else if n.label.layout = some .directChild then hosts && rest.isEmpty && isHost oneLine n
    else isBody oneLine bodyKind n && areClauses oneLine bodyKind false rest

/-- A body that holds a function and nothing else. -/
def isHost (oneLine : Bool) : Node → Bool
  | ⟨label, children⟩ =>
    label.kind == .funcBody && label.value.isNone && label.content == "" && isCall oneLine .func children

/-- A body between braces. Inside one that stands on one line everything does. -/
def isBody (oneLine : Bool) (bodyKind : Kind) : Node → Bool
  | ⟨label, children⟩ =>
    label.kind == bodyKind && label.value.isNone && label.content == "" &&
      match label.layout with
      | some .inline =>
        if bodyKind = .body then areItems true none children else areElements true none children
      | some .block =>
        !oneLine &&
          if bodyKind = .body then areItems false none children else areElements false none children
      | _ => false

/-- The nodes of a box, the first behind a node of kind `prev`. -/
def areElements (oneLine : Bool) (prev : Option Kind) : List Node → Bool
  | [] => true
  | n :: rest =>
    isElement oneLine n && !(oneLine && startsLine prev n) && areElements oneLine (some n.kind) rest

end

end Evomark.Canonical
