import Evomark.Json.Reader
import Evomark.Text.Quoted
import Evomark.Exec.Saved
/-!
# Reading a state file

`Context.read` reads the text of a state file. The file is a record of two tables, either of which
may be missing; a saved variable is a record of a type and a value. A record is an object, its
fields in any order and none twice, or an array of its fields in order. Fields of other names are
passed over, whatever they hold.
-/

namespace Evomark.StateFile

open Json (Reader Fault Cause)

/-! ## Values that are passed over -/

/-- A string that is passed over, after its opening quote. Escapes of surrogates need no partner. -/
def skipQuoted : List Char → Except Fault (List Char)
  | [] => .error (.before .unfinishedString [])
  | c :: rest =>
    if c = '"' then .ok rest
    else if c = '\\' then
      match rest with
      | [] => .error (.before .unfinishedString [])
      | e :: more =>
        if e = 'u' then
          match more with
          | h₁ :: h₂ :: h₃ :: h₄ :: after =>
            match Json.hexUnit? h₁ h₂ h₃ h₄ with
            | none => .error (Json.hexFault more)
            | some _ => skipQuoted after
          | _ => .error (Json.hexFault more)
        else if (Json.shortEscape? e).isSome then skipQuoted more
        else .error (.next .invalidEscape (e :: more))
    else if c.toNat < 32 then .error (.before .controlCharacter (c :: rest))
    else skipQuoted rest

/-- The exponent of a number that is passed over, after its mark. -/
def skipExponent (cs : List Char) : Except Fault (List Char) :=
  let cs := match cs with
    | c :: rest => if c = '+' || c = '-' then rest else cs
    | [] => []
  if Json.startsWithDigit cs then .ok (cs.dropWhile Json.isDigit)
  else .error (.next .invalidNumber cs)

/-- An exponent if there is one. -/
def skipScale (cs : List Char) : Except Fault (List Char) :=
  match cs with
  | c :: rest => if c = 'e' || c = 'E' then skipExponent rest else .ok cs
  | [] => .ok []

/-- A number that is passed over, after its sign. Its size does not matter. -/
def skipNumber (cs : List Char) : Except Fault (List Char) :=
  match cs with
  | [] => .error (.before .invalidNumber [])
  | c :: rest =>
    if !Json.isDigit c then .error (.next .invalidNumber (c :: rest))
    else if c = '0' && Json.startsWithDigit rest then .error (.next .invalidNumber rest)
    else
      let rest := rest.dropWhile Json.isDigit
      match rest with
      | '.' :: fraction =>
        if Json.startsWithDigit fraction then skipScale (fraction.dropWhile Json.isDigit)
        else .error (.next .invalidNumber fraction)
      | rest => skipScale rest

/-- What encloses a value that is passed over. -/
inductive Frame
  | array
  | object
  deriving DecidableEq

/-- The fault of a frame that is not closed. -/
def Frame.unfinished : Frame → Cause
  | array => .unfinishedArray
  | object => .unfinishedObject

/-- The fault of a frame in which something else follows a value. -/
def Frame.expected : Frame → Cause
  | array => .expectedCommaOrBracket
  | object => .expectedCommaOrBrace

/-- The character that closes a frame. -/
def Frame.closing : Frame → Char
  | array => ']'
  | object => '\x7d'

/-- The key and the colon in front of a value of an object; nothing in an array. -/
def Frame.skipKey (frame : Frame) (cs : List Char) : Except Fault (List Char) :=
  match frame with
  | array => .ok cs
  | object =>
    match Json.skipSpace cs with
    | [] => .error (.next .unfinishedObject [])
    | c :: rest =>
      if c = '"' then do
        let rest ← skipQuoted rest
        Json.readColon rest
      else .error (.next .keyNotString (c :: rest))

/-- What stands after a value, or after an opening bracket if `opened`: further values are next, in
a frame, or nothing is left open. -/
def closeFrames (opened : Bool) : List Frame → List Char → Except Fault (List Frame × List Char)
  | [], cs => .ok ([], cs)
  | frame :: outer, cs =>
    match Json.skipSpace cs with
    | [] => .error (.next frame.unfinished [])
    | c :: rest =>
      if c = frame.closing then closeFrames false outer rest
      else if opened then (frame.skipKey (c :: rest)).map (frame :: outer, ·)
      else if c = ',' then (frame.skipKey rest).map (frame :: outer, ·)
      else .error (.next frame.expected (c :: rest))

/-- A value that is passed over, inside `frames`. Frames may be nested to any depth; the bound on
the number of values is met by the length of the text. -/
def skipFrames : Nat → List Frame → List Char → Except Fault (List Char)
  | 0, _, cs => .error (.next .unfinishedValue cs)
  | fuel + 1, frames, cs =>
    let close (opened : Bool) (frames : List Frame) (cs : List Char) := do
      let (frames, rest) ← closeFrames opened frames cs
      if frames.isEmpty then return rest else skipFrames fuel frames rest
    match Json.skipSpace cs with
    | [] => .error (.next .unfinishedValue [])
    | c :: rest =>
      if c = 'n' then do
        let (_, rest) ← Json.readWord () ['u', 'l', 'l'] rest
        close false frames rest
      else if c = 't' then do
        let (_, rest) ← Json.readWord () ['r', 'u', 'e'] rest
        close false frames rest
      else if c = 'f' then do
        let (_, rest) ← Json.readWord () ['a', 'l', 's', 'e'] rest
        close false frames rest
      else if c = '-' then do close false frames (← skipNumber rest)
      else if Json.isDigit c then do close false frames (← skipNumber (c :: rest))
      else if c = '"' then do close false frames (← skipQuoted rest)
      else if c = '[' then close true (.array :: frames) rest
      else if c = '\x7b' then close true (.object :: frames) rest
      else .error (.next .expectedValue (c :: rest))

/-- A value that is passed over. -/
def skipValue (cs : List Char) : Except Fault (List Char) := skipFrames (cs.length + 1) [] cs

/-! ## Values of another type -/

/-- A number as it is named when another type is needed. -/
def numberFound : Number → String
  | .integer n => "integer `" ++ String.ofList (Number.integerText n) ++ "`"
  | .float x => "floating point `" ++ String.ofList (FloatStyle.json.write x) ++ "`"

/-- The fault of the value at `cs` where `expected` is needed. A plain value is read before it is
refused, so its own faults come first. -/
def wrongType (expected : String) (cs : List Char) : Fault :=
  let refuse (found : String) (rest : List Char) : Fault :=
    .before (.invalidType found expected) rest
  let word (found : String) (letters rest : List Char) : Fault :=
    match Json.readWord () letters rest with
    | .ok (_, rest) => refuse found rest
    | .error fault => fault
  let number (negative : Bool) (cs : List Char) : Fault :=
    match Json.readNumber negative cs with
    | .ok (n, rest) => refuse (numberFound n) rest
    | .error fault => fault
  match cs with
  | [] => .next .unfinishedValue []
  | c :: rest =>
    if c = 'n' then word "null" ['u', 'l', 'l'] rest
    else if c = 't' then word "boolean `true`" ['r', 'u', 'e'] rest
    else if c = 'f' then word "boolean `false`" ['a', 'l', 's', 'e'] rest
    else if c = '-' then number true rest
    else if Json.isDigit c then number false (c :: rest)
    else if c = '"' then
      match Json.readString rest with
      | .ok (s, rest) => refuse ("string " ++ Text.quoted s) rest
      | .error fault => fault
    else if c = '[' then refuse "sequence" (c :: rest)
    else if c = '\x7b' then refuse "map" (c :: rest)
    else .next .expectedValue (c :: rest)

/-! ## Records -/

/-- What can stop the reading of a record: a fault with its own place, or a cause whose place is
behind the closing bracket if that follows. -/
inductive RecordFault
  | placed (fault : Fault)
  | unplaced (cause : Cause) (rest : List Char)

/-- Where a cause lies that was found before `rest`: behind a closing bracket or a comma. -/
def RecordFault.toFault (closing : Char) : RecordFault → Fault
  | placed fault => fault
  | unplaced cause rest =>
    match Json.skipSpace rest with
    | [] => .before cause []
    | c :: more =>
      if c = closing then .before cause more
      else if c = ',' then .before cause (Json.skipSpace more)
      else .before cause (c :: more)

/-- A fault of its own place. -/
def placed {α : Type} (result : Except Fault α) : Except RecordFault α := result.mapError .placed

/-- The end of an array that stands for a record, when all fields have been read. -/
def closeArray (cs : List Char) : Except Fault (List Char) :=
  match Json.skipSpace cs with
  | [] => .error (.next .unfinishedArray [])
  | c :: rest =>
    if c = ']' then .ok rest
    else if c = ',' then
      match Json.skipSpace rest with
      | [] => .error (.next .trailingCharacters [])
      | d :: more =>
        .error (.next (if d = ']' then .trailingComma else .trailingCharacters) (d :: more))
    else .error (.next .trailingCharacters (c :: rest))

/-- The next item of an array, or none before the closing bracket. -/
def nextItem {α : Type} (item : Reader α) (first : Bool) (cs : List Char) :
    Except Fault (Option α × List Char) :=
  match Json.skipSpace cs with
  | [] => .error (.next .unfinishedArray [])
  | c :: rest =>
    if c = ']' then .ok (none, c :: rest)
    else if first then (item (c :: rest)).map fun (x, rest) => (some x, rest)
    else if c = ',' then
      match Json.skipSpace rest with
      | [] => .error (.next .unfinishedValue [])
      | d :: more =>
        if d = ']' then .error (.next .trailingComma (d :: more))
        else (item (d :: more)).map fun (x, rest) => (some x, rest)
    else .error (.next .expectedCommaOrBracket (c :: rest))

/-- A field of a record, read once. -/
def fieldOnce {α : Type} (name : String) (value : Reader α) (old : Option α) (cs : List Char) :
    Except RecordFault (Option α × List Char) :=
  match old with
  | some _ => .error (.unplaced (.duplicateField name) cs)
  | none => placed do
    let cs ← Json.readColon cs
    let (x, rest) ← value cs
    return (some x, rest)

/-- A field of another name. -/
def otherField {σ : Type} (state : σ) (cs : List Char) : Except RecordFault (σ × List Char) :=
  placed do
    let cs ← Json.readColon cs
    let rest ← skipValue cs
    return (state, rest)

/-- The fields of a record up to the closing brace, which is left. -/
def readFields {σ : Type} (field : σ → String → List Char → Except RecordFault (σ × List Char)) :
    Nat → Bool → σ → List Char → Except RecordFault (σ × List Char)
  | 0, _, _, cs => .error (.placed (.next .unfinishedObject cs))
  | fuel + 1, first, state, cs =>
    let go (cs : List Char) : Except RecordFault (σ × List Char) := do
      let (key, rest) ← placed (Json.readString cs)
      let (state, rest) ← field state key rest
      readFields field fuel false state rest
    match Json.skipSpace cs with
    | [] => .error (.placed (.next .unfinishedObject []))
    | c :: rest =>
      if c = '\x7d' then .ok (state, c :: rest)
      else if first then
        if c = '"' then go rest else .error (.placed (.next .keyNotString (c :: rest)))
      else if c = ',' then
        match Json.skipSpace rest with
        | [] => .error (.placed (.next .unfinishedValue []))
        | d :: more =>
          if d = '"' then go more
          else .error (.placed (.next (if d = '\x7d' then .trailingComma else .keyNotString)
            (d :: more)))
      else .error (.placed (.next .expectedCommaOrBrace (c :: rest)))

/-- A record: an object read by `object`, or an array read by `array`, after the opening bracket
and up to the closing one. -/
def readRecord {α : Type} (name : String)
    (object array : List Char → Except RecordFault (α × List Char)) : Reader α :=
  fun cs =>
    match Json.skipSpace cs with
    | [] => .error (.next .unfinishedValue [])
    | c :: rest =>
      if c = '\x7b' then
        match object rest with
          | .ok (x, rest) => .ok (x, (Json.skipSpace rest).drop 1)
          | .error fault => .error (fault.toFault '\x7d')
      else if c = '[' then
        match array rest with
          | .ok (x, rest) => do
            let rest ← closeArray rest
            return (x, rest)
          | .error fault => .error (fault.toFault ']')
      else .error (wrongType name (c :: rest))

/-- A table, which must be an object. -/
def readTable {α : Type} (value : Reader α) : Reader (Table α) := fun cs =>
  match Json.skipSpace cs with
  | [] => .error (.next .unfinishedValue [])
  | c :: rest =>
    if c = '\x7b' then Json.readTable value rest else .error (wrongType "a map" (c :: rest))

/-! ## Saved variables and contexts -/

/-- The names of the types, as they are listed when another name is found. -/
def typeNames : String := "`str` or `obj`"

/-- The name of a type. -/
def readTypeName : Reader DataType := fun cs =>
  match Json.skipSpace cs with
  | [] => .error (.next .unfinishedValue [])
  | c :: rest =>
    if c = '"' then do
      let (name, rest) ← Json.readString rest
      match DataType.ofName? name with
      | some type => return (type, rest)
      | none => .error (.before (.unknownVariant name typeNames) rest)
    else .error (wrongType "variant identifier" (c :: rest))

/-- Nothing but `null`. -/
def readNull : Reader Unit := fun cs =>
  match Json.skipSpace cs with
  | [] => .error (.next .unfinishedValue [])
  | c :: rest =>
    if c = 'n' then Json.readWord () ['u', 'l', 'l'] rest
    else .error (wrongType "unit" (c :: rest))

/-- A type: its name, or an object with `null` under its name. -/
def readType : Reader DataType := fun cs =>
  match Json.skipSpace cs with
  | [] => .error (.next .unfinishedValue [])
  | c :: rest =>
    if c = '\x7b' then do
      let (type, rest) ← readTypeName rest
      let rest ← Json.readColon rest
      let (_, rest) ← readNull rest
      match Json.skipSpace rest with
      | [] => .error (.before .unfinishedObject [])
      | d :: more =>
        if d = '\x7d' then return (type, more) else .error (.before .expectedValue (d :: more))
    else if c = '"' then readTypeName (c :: rest)
    else .error (.next .expectedValue (c :: rest))

/-- A record of two values, under the keys `first` and `second`. -/
def pairField {α β : Type} (first second : String) (a : Reader α) (b : Reader β)
    (state : Option α × Option β) (key : String) (cs : List Char) :
    Except RecordFault ((Option α × Option β) × List Char) :=
  if key = first then do
    let (x, rest) ← fieldOnce first a state.1 cs
    return ((x, state.2), rest)
  else if key = second then do
    let (y, rest) ← fieldOnce second b state.2 cs
    return ((state.1, y), rest)
  else otherField state cs

/-- A saved variable; it lies three brackets deep. -/
def readSavedVar : Reader SavedVar :=
  let value := Json.readValue (Json.maxDepth - 3)
  readRecord "struct SavedVar"
    (fun cs => do
      let ((type, value), rest) ←
        readFields (pairField "t" "v" readType value) (cs.length + 1) true (none, none) cs
      match type, value with
      | some type, some value => return (⟨type, value⟩, rest)
      | none, _ => .error (.unplaced (.missingField "t") rest)
      | _, none => .error (.unplaced (.missingField "v") rest))
    (fun cs => do
      let expected := "struct SavedVar with 2 elements"
      let (type, rest) ← placed (nextItem readType true cs)
      match type with
      | none => .error (.unplaced (.invalidLength 0 expected) rest)
      | some type =>
        let (value, rest) ← placed (nextItem value false rest)
        match value with
        | none => .error (.unplaced (.invalidLength 1 expected) rest)
        | some value => return (⟨type, value⟩, rest))

/-- A context; a table that is missing is empty. -/
def readContext : Reader Context :=
  let cache := readTable (Json.readValue (Json.maxDepth - 2))
  let saved := readTable readSavedVar
  readRecord "struct ExecContext"
    (fun cs => do
      let ((cache, saved), rest) ←
        readFields (pairField "cache" "saved" cache saved) (cs.length + 1) true (none, none) cs
      return (⟨cache.getD [], saved.getD []⟩, rest))
    (fun cs => do
      let (cache, rest) ← placed (nextItem cache true cs)
      match cache with
      | none => return (⟨[], []⟩, rest)
      | some cache =>
        let (saved, rest) ← placed (nextItem saved false rest)
        return (⟨cache, saved.getD []⟩, rest))

end Evomark.StateFile

namespace Evomark

/-- The context that the text of a state file holds. -/
def Context.read (source : String) : Except Json.Error Context :=
  Json.readAll StateFile.readContext source

end Evomark
