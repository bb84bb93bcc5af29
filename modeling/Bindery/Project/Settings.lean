import Bindery.Markdown.Options
import Bindery.Page.Plugin
import Bindery.Project.Output

/-!
All that is needed to compile an entry, and how it is read from a configuration.
-/

namespace Bindery

structure Settings where
  /-- What to compile. Nothing is compiled without it. -/
  input : Option Entry := none
  /-- The working root; the current directory when it is not set. -/
  root : Option Path := none
  /-- Markdown appended to every document. -/
  declare : Option Path := none
  mapping : Mapping := []
  /-- No advisories are given. -/
  silent : Option Bool := none
  marked : Markdown.Options := {}
  output : Output := {}
  plugins : List Plugin := []

namespace Settings

/-- Plugins are no part of a configuration. -/
def ofJson (v : Json) : Json.Reads Settings := do
  let fs ← v.record "SitcomOptions"
    ["input", "root", "declare", "mapping", "silent", "marked", "output"]
  return {
    input := ← fs.read "input" none (Json.nullable Entry.ofJson)
    root := ← fs.read "root" none (Json.nullable Output.path)
    declare := ← fs.read "declare" none (Json.nullable Output.path)
    mapping := ← fs.read "mapping" [] Mapping.ofJson
    silent := ← fs.read "silent" none (Json.nullable Json.boolean)
    marked := ← fs.read "marked" {} Markdown.Options.ofJson
    output := ← fs.read "output" {} Output.ofJson }

end Settings
end Bindery
