import Evomark.Yaml.Error
/-!
# Tokens of YAML

The marks and words of a text, in reading order. Indentation shows as tokens of its own:
`blockSequence` and `blockMapping` where a block starts and `blockEnd` where it is left. A `Feed`
is the tokens that can be had from a text and what comes after the last of them.
-/

namespace Evomark.Yaml

/-- What a token is. -/
inductive Lexeme
  | streamEnd
  | version (major minor : Nat)
  /-- A shorthand for the start of tags. -/
  | tagShorthand (handle start : String)
  | documentStart
  | documentEnd
  | blockSequence
  | blockMapping
  | blockEnd
  | flowSequence
  | flowSequenceEnd
  | flowMapping
  | flowMappingEnd
  | item
  | comma
  | key
  | value
  | aliasTo (name : String)
  | anchor (name : String)
  | tag (handle suffix : String)
  | scalar (text : String) (plain : Bool)
  deriving DecidableEq, Repr, Inhabited

/-- A token and where it starts. -/
structure Token where
  lexeme : Lexeme
  mark : Mark
  deriving DecidableEq, Repr, Inhabited

/-- The tokens of a text. After them comes the end of the text, or an error. -/
structure Feed where
  tokens : List Token
  ending : Except SyntaxError Mark
  deriving Repr

namespace Feed

/-- The next token. -/
def peek (feed : Feed) : Except SyntaxError Token :=
  match feed.tokens with
  | token :: _ => .ok token
  | [] => feed.ending.map (⟨.streamEnd, ·⟩)

/-- The tokens after the next one. -/
def drop (feed : Feed) : Feed := { feed with tokens := feed.tokens.tail }

end Feed

end Evomark.Yaml
