import Evomark.Json.Reader
import Evomark.Yaml.Reader
/-!
# Dictionaries in a body

The body of a configuration block is a dictionary in one of three languages: JSON, the inside of
a JSON object (`string`), or YAML. An empty value counts as the empty dictionary.
-/

namespace Evomark.Markup

/-- Why a body is not a dictionary. -/
inductive DictionaryError
  | json (cause : Json.Error)
  | fields (cause : Json.Error)
  | yaml (cause : Yaml.Error)
  | unsupported (language : String)
  | notDictionary (language : String)

/-- The wording of an error. -/
def DictionaryError.message : DictionaryError → String
  | json cause => "Cannot parse json config: " ++ cause.message
  | fields cause => "Cannot parse string config: " ++ cause.message
  | yaml cause => "Cannot parse yaml config: " ++ cause.message
  | unsupported language => "Unsupported config language \"" ++ language ++ "\""
  | notDictionary language => language ++ " config must be a dictionary"

/-- The value a body denotes in a language. -/
def dictionaryValue (raw language : String) : Except DictionaryError Json :=
  if language = "json" then (Json.read raw).mapError .json
  else if language = "string" then
    (Json.read ("\x7b\n" ++ raw ++ "\n\x7d")).mapError .fields
  else if language = "yaml" then (Yaml.read raw).mapError .yaml
  else .error (.unsupported language)

/-- The dictionary a body denotes in a language. -/
def readDictionary (raw language : String) : Except DictionaryError (Table Json) :=
  match dictionaryValue raw language with
  | .error e => .error e
  | .ok (.object fields) => .ok fields
  | .ok .null => .ok []
  | .ok _ => .error (.notDictionary language)

/-- The language a parameter chooses: a text names it, an object has it under `lang`; otherwise
it is JSON. -/
def languageOf : Option Json → String
  | some (.string language) => language
  | some (.object fields) => ((Table.get? "lang" fields).bind Json.string?).getD "json"
  | _ => "json"

end Evomark.Markup
