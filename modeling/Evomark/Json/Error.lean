import Evomark.Text.Position
/-!
# Errors of reading JSON

A `Cause` says what is wrong, a `Fault` says where, as what was left to read. `Json.Error` is a
fault with its place in the whole text, and `Json.Error.message` words it.
-/

namespace Evomark.Json

/-- What is wrong with a JSON text. -/
inductive Cause
  | unfinishedArray
  | unfinishedObject
  | unfinishedString
  | unfinishedValue
  | expectedColon
  | expectedCommaOrBracket
  | expectedCommaOrBrace
  | expectedWord
  | expectedValue
  | invalidEscape
  | invalidNumber
  | numberOutOfRange
  | loneSurrogate
  | unfinishedSurrogate
  | controlCharacter
  | keyNotString
  | trailingComma
  | trailingCharacters
  | tooDeep
  /-- A record lacks a field. -/
  | missingField (name : String)
  /-- A record has a field twice. -/
  | duplicateField (name : String)
  /-- A word is none of those allowed. -/
  | unknownVariant (name : String) (allowed : String)
  /-- A value of another type is needed. -/
  | invalidType (found expected : String)
  /-- An array that stands for a record is too short. -/
  | invalidLength (found : Nat) (expected : String)
  deriving DecidableEq, Repr

namespace Cause

/-- The wording of a cause. -/
def text : Cause → String
  | unfinishedArray => "EOF while parsing a list"
  | unfinishedObject => "EOF while parsing an object"
  | unfinishedString => "EOF while parsing a string"
  | unfinishedValue => "EOF while parsing a value"
  | expectedColon => "expected `:`"
  | expectedCommaOrBracket => "expected `,` or `]`"
  | expectedCommaOrBrace => "expected `,` or `\x7d`"
  | expectedWord => "expected ident"
  | expectedValue => "expected value"
  | invalidEscape => "invalid escape"
  | invalidNumber => "invalid number"
  | numberOutOfRange => "number out of range"
  | loneSurrogate => "lone leading surrogate in hex escape"
  | unfinishedSurrogate => "unexpected end of hex escape"
  | controlCharacter => "control character (\\u0000-\\u001F) found while parsing a string"
  | keyNotString => "key must be a string"
  | trailingComma => "trailing comma"
  | trailingCharacters => "trailing characters"
  | tooDeep => "recursion limit exceeded"
  | missingField name => "missing field `" ++ name ++ "`"
  | duplicateField name => "duplicate field `" ++ name ++ "`"
  | unknownVariant name allowed => "unknown variant `" ++ name ++ "`, expected " ++ allowed
  | invalidType found expected => "invalid type: " ++ found ++ ", expected " ++ expected
  | invalidLength found expected => "invalid length " ++ toString found ++ ", expected " ++ expected

end Cause

/-- A cause at a place: `beyond` bytes into what is left to read. -/
structure Fault where
  cause : Cause
  rest : List Char
  beyond : Nat

namespace Fault

/-- The fault lies just before `rest`. -/
def before (cause : Cause) (rest : List Char) : Fault := ⟨cause, rest, 0⟩

/-- The fault is the first byte of `rest`, or the end of the text. -/
def next (cause : Cause) (rest : List Char) : Fault := ⟨cause, rest, if rest.isEmpty then 0 else 1⟩

/-- How many bytes of a text of `total` bytes lie before the fault. -/
def offset (total : Nat) (fault : Fault) : Nat :=
  total - Text.byteLength fault.rest + fault.beyond

end Fault

/-- A cause and its place in the text. -/
structure Error where
  cause : Cause
  position : Text.Position
  deriving DecidableEq, Repr

namespace Error

/-- The error of a fault in `source`. -/
def ofFault (source : String) (fault : Fault) : Error :=
  ⟨fault.cause, Text.positionAt source (fault.offset source.utf8ByteSize)⟩

/-- The wording of an error. -/
def message (e : Error) : String :=
  e.cause.text ++ " at line " ++ toString e.position.line ++ " column "
    ++ toString e.position.column

end Error

end Evomark.Json
