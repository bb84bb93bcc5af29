import Bindery.FileTree
import Bindery.Json.Parser
import Bindery.Project.Settings
import Bindery.Yaml.Value

/-!
Configuration files: where they are looked for, what they are written in, and the settings they
hold.
-/

namespace Bindery

inductive ConfigError where
  | unsupported (extension : String)
  | missing (path : Path)
  | unreadable (path : Path) (f : FileFault)
  | malformed (path : Path) (reason : String)
  /-- The file holds something other than an object. -/
  | badType (kind : String) (path : Path)
  | invalid (path : Path) (reason : String)
  deriving Repr, DecidableEq

namespace ConfigError

def message : ConfigError → String
  | unsupported extension => "unsupported config extension \"" ++ extension ++ "\""
  | missing path => "no config file found for " ++ path.text
  | unreadable path _ => "failed to read config " ++ path.text
  | malformed path _ => "failed to parse config " ++ path.text
  | badType kind path => "bad config type \"" ++ kind ++ "\" in " ++ path.text
  | invalid path _ => "invalid config " ++ path.text

/-- The message with what it came from. -/
def report (e : ConfigError) : String :=
  match e with
  | unreadable _ f => e.message ++ ": " ++ f.message
  | malformed _ reason | invalid _ reason => e.message ++ ": " ++ reason
  | e => e.message

end ConfigError

namespace Config

inductive Format where
  | json
  | yaml
  deriving Repr, DecidableEq

def Format.parse (f : Format) (text : String) : Except String Json :=
  match f with
  | .json => (Json.parse text).mapError (·.message)
  | .yaml => (Yaml.parse text).mapError (·.message)

def formatOf (path : Path) : Except ConfigError Format :=
  let extension := onChars Text.asciiLower (path.extension?.getD "")
  if extension == "json" then .ok .json
  else if extension == "yaml" || extension == "yml" then .ok .yaml
  else .error (.unsupported extension)

def candidates (path : Path) : List (Path × Format) :=
  [(path.withExtension "json", .json), (path.withExtension "yaml", .yaml)]

/-- The file a path names. A name without an extension may be that of either format. -/
def find (tree : FileTree) (path : Path) : Except ConfigError (Path × Format) :=
  if path.extension?.isNone then
    match (candidates path).find? fun (p, _) => tree.isFile p with
    | some found => .ok found
    | none => .error (.missing path)
  else (formatOf path).map fun f => (path, f)

/-- The object in a configuration file, and the path of that file. -/
def readObject (tree : FileTree) (path : Path) : Except ConfigError (Path × Json) := do
  let (path, format) ← find tree path
  let text ← (tree.read path).mapError (.unreadable path)
  let value ← (format.parse text).mapError (.malformed path)
  match value with
  | .obj fields => return (path, .obj fields)
  | value => throw (.badType value.kind path)

def settings (path : Path) (value : Json) : Except ConfigError Settings :=
  (Settings.ofJson value).mapError fun e => .invalid path e.message

def defaultName : Path := ⟨".sitcomrc.json"⟩

/-- The file to read: the one that is asked for, or the default one when it is there. -/
def locate (tree : FileTree) (asked : Option Path) (cwd : Path) : Option Path :=
  match asked with
  | some path => some (cwd.join path)
  | none =>
    let path := cwd.join defaultName
    if tree.isFile path then some path else none

def read (tree : FileTree) (path : Path) : Except ConfigError Settings := do
  let (path, value) ← readObject tree path
  settings path value

/-- The settings of a directory. -/
def load (tree : FileTree) (asked : Option Path) (cwd : Path) : Except ConfigError Settings :=
  match locate tree asked cwd with
  | some path => read tree path
  | none => .ok {}

end Config
end Bindery
