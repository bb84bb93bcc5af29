import Bindery.Markdown.Node
import Bindery.Markdown.Options
import Bindery.Text.Quoted

/-!
Plugins run in order over a document, once over its nodes and once over its HTML. Before each hook
the plugin adjusts the document's options. A hook lets the value pass, replaces it, or promises
either for later; the first one that fails or gives a value of the other kind ends the run.
-/

namespace Bindery

/-- What the plugins run over. -/
inductive Stage where
  | tokenize
  | transform
  deriving Repr, DecidableEq

def Stage.text : Stage → String
  | .tokenize => "tokenize"
  | .transform => "transform"

/-- What a hook hands back. -/
inductive Outcome where
  | pass
  | tokens (nodes : List Markdown.Node)
  | html (text : String)
  | pending (later : Except String Outcome)
  deriving Inhabited

structure Plugin where
  name : Option String := none
  setOptions : Markdown.Options → Markdown.Options := id
  tokenize : List Markdown.Node → Outcome := fun _ => .pass
  transform : String → Outcome := fun _ => .pass

inductive PluginError where
  /-- A hook gave a value of the other stage's kind. -/
  | badOutcome (plugin : String) (stage : Stage)
  /-- A promised outcome failed. -/
  | rejected (plugin : String) (stage : Stage) (reason : String)
  deriving Repr, DecidableEq

def PluginError.message : PluginError → String
  | .badOutcome plugin stage => s!"Bad {stage.text} for plugin {plugin}"
  | .rejected plugin stage reason => s!"plugin {plugin} failed during {stage.text}: {reason}"

/-- A call of a plugin, with what it was given. -/
inductive Call where
  | options (plugin : Option String) (given : Markdown.Options)
  | tokenize (plugin : Option String) (given : List Markdown.Node)
  | transform (plugin : Option String) (given : String)
  deriving Inhabited

namespace Plugin

def shownName (p : Plugin) : String := p.name.getD "anonymous"

/-- The names of a list of plugins. -/
def listing (ps : List Plugin) : String :=
  "[" ++ ", ".intercalate (ps.map fun p => Text.quoted p.shownName) ++ "]"

/-- How a stage treats its value. -/
structure Hook (α : Type) where
  stage : Stage
  run : Plugin → α → Outcome
  /-- The value in an outcome of the stage's own kind. -/
  accept : Outcome → Option α
  call : Option String → α → Call

def tokenizeHook : Hook (List Markdown.Node) where
  stage := .tokenize
  run p nodes := p.tokenize nodes
  accept
    | .tokens nodes => some nodes
    | _ => none
  call := .tokenize

def transformHook : Hook String where
  stage := .transform
  run p html := p.transform html
  accept
    | .html text => some text
    | _ => none
  call := .transform

/-- What an outcome comes to: a new value, none for a pass, or an error. -/
def settle {α : Type} (h : Hook α) (plugin : String) : Outcome → Except PluginError (Option α)
  | .pass => .ok none
  | .pending (.ok later) => settle h plugin later
  | .pending (.error reason) => .error (.rejected plugin h.stage reason)
  | .tokens nodes =>
    match h.accept (.tokens nodes) with
    | some a => .ok (some a)
    | none => .error (.badOutcome plugin h.stage)
  | .html text =>
    match h.accept (.html text) with
    | some a => .ok (some a)
    | none => .error (.badOutcome plugin h.stage)

/-- The end of a run: its value or error, the options as the plugins left them, and the calls. -/
structure Ran (α : Type) where
  result : Except PluginError α
  options : Markdown.Options
  calls : List Call

/-- Runs the plugins over a value, up to the first that ends the run. -/
def runAll {α : Type} (h : Hook α) : List Plugin → α → Markdown.Options → Ran α
  | [], value, options => ⟨.ok value, options, []⟩
  | p :: ps, value, options =>
    let calls := [.options p.name options, h.call p.name value]
    let options := p.setOptions options
    match settle h p.shownName (h.run p value) with
    | .error e => ⟨.error e, options, calls⟩
    | .ok next =>
      let rest := runAll h ps (next.getD value) options
      { rest with calls := calls ++ rest.calls }

end Plugin
end Bindery
