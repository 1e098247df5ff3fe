import Milp.Document.Config
import Milp.Toml.Document
import Milp.Yaml.Meaning

/-! Configurations from the texts of their file formats. A configuration read from a text is also
checked; one that is part of a JSON document is not. -/
namespace Milp.Config

def ofJson (j : Json) : Except ConfigError Config :=
  (Document.ofValue Document.readConfig j).mapError fun _ => .json

def checked (c : Config) : Except ConfigError Config :=
  match c.check with
  | .ok () => .ok c
  | .error e => .error e

/-- The configuration that a text describes, given its fields as one format's reader found them.
No field may be there twice. -/
def ofFields (error : ConfigError) : Option Json → Except ConfigError Config
  | none => .error error
  | some j =>
    match Document.readConfig .value j with
    | .ok c => c.checked
    | .error _ => .error error

def ofToml (text : String) : Except ConfigError Config :=
  ofFields .toml ((Toml.read text).bind fun es => Toml.toJson shape (.table .header es))

def ofYaml (text : String) : Except ConfigError Config :=
  ofFields .yaml ((Yaml.read text).bind fun d => Yaml.toJson d shape d.root)

end Milp.Config
