import Evomark.Text.Quoted
import Evomark.Yaml.Source
/-!
# Errors of reading YAML

A `SyntaxError` is a problem at a place, often met while something else was being read. A
`Mismatch` is a well-formed text whose data is not a value; it names the value by its path.
`Error.message` words both. Places are shown with lines and columns counted from one, and the
very start of a text is not shown.
-/

namespace Evomark.Yaml

/-! ## Text that is not well formed -/

/-- What is wrong with a text. -/
inductive Problem
  | unstartable
  | itemNotAllowed
  | keyNotAllowed
  | valueNotAllowed
  | missingColon
  | unexpectedColon
  | tabInIndentation
  | tabForIndentation
  | unexpectedMarker
  | unexpectedEnd
  | unknownEscape
  | expectedHexadecimal
  | invalidCodePoint
  | zeroIndentation
  | expectedLineEnd
  | expectedName
  | expectedTagEnd
  | expectedSpaceOrBreak
  | expectedSpace
  | expectedHandle
  | expectedUri
  | expectedOctet
  | wrongLeadingOctet
  | wrongTrailingOctet
  | expectedDirectiveName
  | unexpectedInDirectiveName
  | unknownDirective
  | expectedVersion
  | expectedVersionPoint
  | longVersion
  | expectedDocumentStart
  | duplicateVersion
  | incompatibleVersion
  | duplicateHandle
  | undefinedHandle
  | expectedItem
  | expectedKey
  | expectedCommaOrBracket
  | expectedCommaOrBrace
  | expectedContent
  deriving DecidableEq, Repr

/-- The wording of a problem. -/
def Problem.text : Problem → String
  | unstartable => "found character that cannot start any token"
  | itemNotAllowed => "block sequence entries are not allowed in this context"
  | keyNotAllowed => "mapping keys are not allowed in this context"
  | valueNotAllowed => "mapping values are not allowed in this context"
  | missingColon => "could not find expected ':'"
  | unexpectedColon => "found unexpected ':'"
  | tabInIndentation => "found a tab character that violates indentation"
  | tabForIndentation => "found a tab character where an indentation space is expected"
  | unexpectedMarker => "found unexpected document indicator"
  | unexpectedEnd => "found unexpected end of stream"
  | unknownEscape => "found unknown escape character"
  | expectedHexadecimal => "did not find expected hexdecimal number"
  | invalidCodePoint => "found invalid Unicode character escape code"
  | zeroIndentation => "found an indentation indicator equal to 0"
  | expectedLineEnd => "did not find expected comment or line break"
  | expectedName => "did not find expected alphabetic or numeric character"
  | expectedTagEnd => "did not find the expected '>'"
  | expectedSpaceOrBreak => "did not find expected whitespace or line break"
  | expectedSpace => "did not find expected whitespace"
  | expectedHandle => "did not find expected '!'"
  | expectedUri => "did not find expected tag URI"
  | expectedOctet => "did not find URI escaped octet"
  | wrongLeadingOctet => "found an incorrect leading UTF-8 octet"
  | wrongTrailingOctet => "found an incorrect trailing UTF-8 octet"
  | expectedDirectiveName => "could not find expected directive name"
  | unexpectedInDirectiveName => "found unexpected non-alphabetical character"
  | unknownDirective => "found unknown directive name"
  | expectedVersion => "did not find expected version number"
  | expectedVersionPoint => "did not find expected digit or '.' character"
  | longVersion => "found extremely long version number"
  | expectedDocumentStart => "did not find expected <document start>"
  | duplicateVersion => "found duplicate %YAML directive"
  | incompatibleVersion => "found incompatible YAML document"
  | duplicateHandle => "found duplicate %TAG directive"
  | undefinedHandle => "found undefined tag handle"
  | expectedItem => "did not find expected '-' indicator"
  | expectedKey => "did not find expected key"
  | expectedCommaOrBracket => "did not find expected ',' or ']'"
  | expectedCommaOrBrace => "did not find expected ',' or '\x7d'"
  | expectedContent => "did not find expected node content"

/-- What was being read when a problem was met. -/
inductive Activity
  | nextToken
  | simpleKey
  | plainScalar
  | quotedScalar
  | escape
  | blockScalar
  | anchorName
  | aliasName
  | tag
  | tagUri
  | directive
  | versionDirective
  | tagDirective
  | tagDirectiveHandle
  | tagDirectiveName
  | tagDirectiveUri
  | blockCollection
  | blockMapping
  | flowSequence
  | flowMapping
  | blockNode
  | flowNode
  | node
  deriving DecidableEq, Repr

/-- The wording of an activity. -/
def Activity.text : Activity → String
  | nextToken => "while scanning for the next token"
  | simpleKey => "while scanning a simple key"
  | plainScalar => "while scanning a plain scalar"
  | quotedScalar => "while scanning a quoted scalar"
  | escape => "while parsing a quoted scalar"
  | blockScalar => "while scanning a block scalar"
  | anchorName => "while scanning an anchor"
  | aliasName => "while scanning an alias"
  | tag => "while scanning a tag"
  | tagUri => "while parsing a tag"
  | directive => "while scanning a directive"
  | versionDirective => "while scanning a %YAML directive"
  | tagDirective => "while scanning a %TAG directive"
  | tagDirectiveHandle => "while scanning a tag directive"
  | tagDirectiveName => "while parsing a tag directive"
  | tagDirectiveUri => "while parsing a %TAG directive"
  | blockCollection => "while parsing a block collection"
  | blockMapping => "while parsing a block mapping"
  | flowSequence => "while parsing a flow sequence"
  | flowMapping => "while parsing a flow mapping"
  | blockNode => "while parsing a block node"
  | flowNode => "while parsing a flow node"
  | node => "while parsing a node"

/-- A problem at a place, and what was being read since when. -/
structure SyntaxError where
  problem : Problem
  mark : Mark
  context : Option (Activity × Mark)
  deriving DecidableEq, Repr

/-- The text shown for a place, empty for the very start. -/
def Mark.shown (m : Mark) : String :=
  if m = ⟨0, 0⟩ then ""
  else " at line " ++ toString (m.line + 1) ++ " column " ++ toString (m.column + 1)

/-- The wording of a syntax error. The start of the activity is left out where it is the place of
the problem. -/
def SyntaxError.message (e : SyntaxError) : String :=
  e.problem.text ++ e.mark.shown ++
    match e.context with
    | none => ""
    | some (activity, since) =>
      ", " ++ activity.text ++ if since = e.mark then "" else since.shown

/-! ## Data that is no value -/

/-- Why well-formed data is no value. -/
inductive Mismatch
  /-- A node has an application's own tag. -/
  | tagged
  /-- A scalar's tag names a type its text does not have. -/
  | wrongType (text expected : String)
  /-- A collection stands where a key is needed. -/
  | keyNotScalar (found expected : String)
  /-- A whole number is beyond 64 bits. -/
  | numberOutOfRange
  deriving DecidableEq, Repr

/-- The wording of a mismatch. -/
def Mismatch.text : Mismatch → String
  | tagged => "invalid type: enum, expected any valid JSON value"
  | wrongType text expected =>
    "invalid value: string " ++ Text.quoted text ++ ", expected " ++ expected
  | keyNotScalar found expected => "invalid type: " ++ found ++ ", expected " ++ expected
  | numberOutOfRange => "JSON number out of range"

/-- A step from a collection to one of its values. -/
inductive PathStep
  | item (index : Nat)
  | key (name : String)
  /-- The value of a key that is not a scalar itself. -/
  | unknown
  deriving DecidableEq, Repr

/-- The text of a path, given from the innermost step outwards. -/
def pathText : List PathStep → String
  | [] => "."
  | .item i :: outer => pathText outer ++ "[" ++ toString i ++ "]"
  | .key name :: outer => before outer ++ name
  | .unknown :: outer => before outer ++ "?"
where
  /-- The text of a path before the name of one of its keys. -/
  before : List PathStep → String
    | [] => ""
    | outer => pathText outer ++ "."

/-! ## Errors -/

/-- Why a text is not one value. -/
inductive Error
  /-- A control character, `offset` bytes into the text. -/
  | control (offset : Nat)
  | wellFormedness (cause : SyntaxError)
  | unknownAnchor (mark : Mark)
  | mismatch (cause : Mismatch) (path : List PathStep) (mark : Mark)
  | tooDeep (mark : Mark)
  | tooManyAliases
  | severalDocuments
  deriving DecidableEq, Repr

/-- The wording of an error. -/
def Error.message : Error → String
  | control offset =>
    "control characters are not allowed" ++
      if offset = 0 then "" else " at position " ++ toString offset
  | wellFormedness cause => cause.message
  | unknownAnchor mark => "unknown anchor" ++ mark.shown
  | mismatch cause path mark =>
    (if path.isEmpty then "" else pathText path ++ ": ") ++ cause.text ++ mark.shown
  | tooDeep mark => "recursion limit exceeded" ++ mark.shown
  | tooManyAliases => "repetition limit exceeded"
  | severalDocuments =>
    "deserializing from YAML containing more than one document is not supported"

end Evomark.Yaml
