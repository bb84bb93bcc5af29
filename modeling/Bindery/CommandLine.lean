import Bindery.Project.Bundle
import Bindery.Project.Config

/-!
The command line: its arguments, the settings they override, and a run with all that it prints.
-/

namespace Bindery.CommandLine

/-- The options that take a value. -/
inductive Opt where
  | config
  | dist
  | file
  | intro
  | outro
  | declare
  | root
  deriving Repr, DecidableEq

inductive Flag where
  | silent
  | verbose
  deriving Repr, DecidableEq

/-- What an argument may ask for. -/
inductive Switch where
  | opt (o : Opt)
  | flag (f : Flag)
  | help
  | version
  deriving Repr, DecidableEq

def shortSwitch? : Char → Option Switch
  | 'c' => some (.opt .config)
  | 'd' => some (.opt .dist)
  | 'o' => some (.opt .file)
  | 'v' => some (.flag .verbose)
  | 'h' => some .help
  | 'V' => some .version
  | _ => none

def longSwitch? : String → Option Switch
  | "config" => some (.opt .config)
  | "dist" => some (.opt .dist)
  | "file" => some (.opt .file)
  | "intro" => some (.opt .intro)
  | "outro" => some (.opt .outro)
  | "declare" => some (.opt .declare)
  | "root" => some (.opt .root)
  | "silent" => some (.flag .silent)
  | "verbose" => some (.flag .verbose)
  | "help" => some .help
  | "version" => some .version
  | _ => none

/-- The value of an option is a path, and so it is not empty. -/
def Opt.takesPath : Opt → Bool
  | .intro | .outro => false
  | _ => true

structure Args where
  entry : Option String := none
  options : List (Opt × String) := []
  flags : List Flag := []
  deriving Repr, DecidableEq

/-- How reading the arguments may end without a run. -/
inductive Stop where
  | help
  | version
  | misuse
  deriving Repr, DecidableEq

namespace Args

def get? (a : Args) (o : Opt) : Option String := a.options.lookup o

def path? (a : Args) (o : Opt) : Option Path := (a.get? o).map Path.mk

/-- Gives an option its value, once. -/
def setOption (a : Args) (o : Opt) (value : String) : Except Stop Args :=
  if (a.get? o).isSome || (o.takesPath && value.isEmpty) then .error .misuse
  else .ok { a with options := (o, value) :: a.options }

def setFlag (a : Args) (f : Flag) : Except Stop Args :=
  if a.flags.contains f then .error .misuse else .ok { a with flags := f :: a.flags }

def setEntry (a : Args) (entry : String) : Except Stop Args :=
  if a.entry.isSome then .error .misuse else .ok { a with entry := some entry }

/-- Takes a switch that has no value. -/
def take (a : Args) : Switch → Except Stop Args
  | .flag f => a.setFlag f
  | .help => .error .help
  | .version => .error .version
  | .opt _ => .error .misuse

/-- Reads the letters of one argument; the last may be an option that waits for its value. -/
def letters (a : Args) : List Char → Except Stop (Args × Option Opt)
  | [] => .ok (a, none)
  | c :: cs =>
    match shortSwitch? c with
    | none => .error .misuse
    | some (.opt o) =>
      match cs with
      | [] => .ok (a, some o)
      | '=' :: value => (a.setOption o (String.ofList value)).map (·, none)
      | value => (a.setOption o (String.ofList value)).map (·, none)
    | some s => do letters (← a.take s) cs

/-- Reads an argument after two hyphens. -/
def long (a : Args) (cs : List Char) : Except Stop (Args × Option Opt) :=
  let name := cs.takeWhile (· != '=')
  let value := if name.length < cs.length then some (cs.drop (name.length + 1)) else none
  match longSwitch? (String.ofList name), value with
  | none, _ => .error .misuse
  | some (.opt o), some value => (a.setOption o (String.ofList value)).map (·, none)
  | some (.opt o), none => .ok (a, some o)
  | some _, some _ => .error .misuse
  | some s, none => (a.take s).map (·, none)

/-- Reads arguments. `waiting` is an option before its value; after two lone hyphens all is
entry. -/
def readFrom (a : Args) (waiting : Option Opt) (plain : Bool) : List String → Except Stop Args
  | [] => if waiting.isSome then .error .misuse else .ok a
  | arg :: rest =>
    match plain, waiting, arg.toList with
    | false, none, ['-', '-'] => readFrom a none true rest
    | false, none, '-' :: '-' :: cs => do
      let (a, waiting) ← a.long cs
      readFrom a waiting false rest
    | false, none, '-' :: c :: cs => do
      let (a, waiting) ← a.letters (c :: cs)
      readFrom a waiting false rest
    | false, some _, '-' :: _ :: _ => .error .misuse
    | false, some o, _ => do readFrom (← a.setOption o arg) none false rest
    | true, some _, _ => .error .misuse
    | _, none, _ => do readFrom (← a.setEntry arg) none plain rest

def read (args : List String) : Except Stop Args := readFrom {} none false args

/-- Settings with what the arguments put in the place of theirs. -/
def override (a : Args) (s : Settings) : Settings :=
  { s with
    input := (a.entry.map Entry.one).or s.input
    root := (a.path? .root).or s.root
    declare := (a.path? .declare).or s.declare
    silent := if a.flags.contains .silent then some true else s.silent
    output := { s.output with
      dist := (a.path? .dist).or s.output.dist
      file := (a.path? .file).or s.output.file
      intro := ((a.get? .intro).map Wrap.text).or s.output.intro
      outro := ((a.get? .outro).map Wrap.text).or s.output.outro } }

end Args

def versionText : String := "sitcom 0.0.1\n"

def helpText : String := "\n".intercalate [
  "Bundle markdown documents into HTML",
  "",
  "Usage: sitcom [OPTIONS] [ENTRY]",
  "",
  "Arguments:",
  "  [ENTRY]  Entry markdown file or mapping name",
  "",
  "Options:",
  "  -c, --config <FILE>   Use this config file (.json, .yaml or .yml) [default: .sitcomrc.json]",
  "  -d, --dist <DIR>      Output directory",
  "  -o, --file <OUTPUT>   Output file (if absent, prints to stdout)",
  "      --intro <INTRO>   Content to insert at the top of every document",
  "      --outro <OUTRO>   Content to insert at the end of every document",
  "      --silent          Don't print warnings to the console",
  "      --declare <FILE>  Markdown appended to every document, usually link definitions",
  "      --root <DIR>      Working directory",
  "  -v, --verbose         Print pipeline steps",
  "  -h, --help            Print help",
  "  -V, --version         Print version",
  ""]

def tag : Level → String
  | .error => "[err] "
  | .warning => "[warn]"
  | .info => "[ok]  "
  | .debug => "[log] "

/-- What an event prints. Steps are printed on request only. -/
def shown (verbose : Bool) : Event → String
  | .printed text => text
  | .logged level line =>
    if level = .debug && !verbose then "" else tag level ++ " " ++ line ++ "\n"

/-- A finished run. -/
structure Exit where
  code : Nat
  output : String
  tree : FileTree
  /-- The paths that were looked up. -/
  asked : List Path := []

/-- Compiles what the arguments ask for. -/
def work (args : Args) (cwd : Path) : ExceptT String (StateM Bench) Unit := do
  let compile (s : Settings) : Work Unit := do
    let bundle ← (args.override s).make cwd
    let report ← Making.within bundle Bundle.write
    match report.outfile with
    | some outfile => Work.log .info ("Success! " ++ outfile.text)
    | none => return
  let run {α : Type} (w : Work α) : ExceptT String (StateM Bench) α :=
    ExceptT.mk do return (← w.run).mapError Failure.report
  let config {α : Type} (e : Except ConfigError α) : ExceptT String (StateM Bench) α :=
    ExceptT.mk (pure (e.mapError ConfigError.report))
  let asked := cwd.join ((args.path? .config).getD Config.defaultName)
  run (Work.ask (asked :: (Config.candidates asked).map (·.1)))
  let tree := (← get).tree
  match Config.locate tree (args.path? .config) cwd with
  | none => run (compile {})
  | some path =>
    let (path, value) ← config (Config.readObject tree path)
    run (Work.log .debug ("loaded config " ++ path.text))
    let settings ← config (Config.settings path value)
    run (compile settings)

/-- Runs the command line over a tree. -/
def run (args : List String) (tree : FileTree) (cwd : Path) : Exit :=
  match Args.read args with
  | .error .help => { code := 0, output := helpText, tree }
  | .error .version => { code := 0, output := versionText, tree }
  | .error .misuse => { code := 2, output := "", tree }
  | .ok args =>
    let (result, bench) := (work args cwd).run.run ⟨tree, .fresh, []⟩
    let printed := String.join (bench.session.events.map (shown (args.flags.contains .verbose)))
    let exit : Exit := { code := 0, output := printed, tree := bench.tree, asked := bench.asked }
    match result with
    | .ok () => exit
    | .error report =>
      { exit with code := 1, output := printed ++ tag .error ++ " " ++ report ++ "\n" }

end Bindery.CommandLine
