import Routing.Blank
import Routing.Toml.Document
import Routing.Utf8

/-! Settings of a router, fixed when it is made, and their form in a TOML file. -/

namespace Routing

structure Config where
  /-- Whether values of dynamic segments are percent-encoded in generated paths and decoded in
  resolved ones. Without it a path is only decoded as a whole, reserved escapes kept. -/
  encodeSegments : Bool := true
  deriving DecidableEq

/-- What stands in the place of a configuration file. -/
inductive ConfigFile where
  | missing
  /-- Something that has no contents, such as a directory. -/
  | unreadable
  | contents (bytes : List UInt8)

inductive ConfigError where
  | read (file : Text)
  | parse (file : Text)
  deriving DecidableEq

def ConfigError.message : ConfigError → Text
  | read file => "Failed to read recognizer config: \"".toList ++ file ++ ['"']
  | parse file => "Failed to parse recognizer config: \"".toList ++ file ++ ['"']

namespace Config

def key : Text := "encode_and_decode_path_segments".toList

def ofEntries? (es : Toml.Entries) : Option Config :=
  match es.find? key with
  | none => some {}
  | some (.boolean b) => some ⟨b⟩
  | some _ => none

/-- Reads TOML text. A blank text leaves everything as it is by default. -/
def ofToml? (s : Text) : Option Config :=
  if s.isBlank then some {} else (Toml.document? s).bind ofEntries?

def toToml (c : Config) : Text :=
  key ++ " = ".toList ++ (if c.encodeSegments then "true" else "false").toList ++ ['\n']

def load (file : Text) : ConfigFile → Except ConfigError Config
  | .missing => .ok {}
  | .unreadable => .error (.read file)
  | .contents bytes =>
    match Utf8.decode? bytes with
    | none => .error (.read file)
    | some s =>
      match ofToml? s with
      | none => .error (.parse file)
      | some c => .ok c

end Config
end Routing
