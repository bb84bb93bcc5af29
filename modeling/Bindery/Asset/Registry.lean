import Bindery.Asset.Token
import Bindery.Path

/-!
Registries of the assets that documents refer to. Every registry but a root has a master, and an
entry put into a registry lands in all of its masters too, so a root holds every asset below it.
Entries are cells shared between registries: a change made through one shows in all.
-/

namespace Bindery

/-- What is known of one asset. -/
structure Asset where
  /-- Where it is read from. -/
  source : Path
  /-- Where it goes, once it is placed. -/
  target : Option Path := none
  /-- Its place below the output root, once it is placed. -/
  via : Option String := none
  token : Token
  /-- It has reached a registry without a master. -/
  isMaster : Bool := false
  /-- It is a document compiled to a page of its own. -/
  isMarked : Bool := false
  deriving Repr, DecidableEq, Inhabited

abbrev RegistryId := Nat

abbrev CellId := Nat

/-- One registry: its tokens in order of first insertion, each with its cell. -/
structure Registry where
  slots : List (Token × CellId) := []
  master : Option RegistryId := none
  /-- The table of origins it draws tokens from. -/
  memo : Nat
  deriving Repr, DecidableEq

def Registry.cell? (r : Registry) (t : Token) : Option CellId := r.slots.lookup t

/-- The token keeps its place when it is there already. -/
def putSlot (t : Token) (c : CellId) : List (Token × CellId) → List (Token × CellId)
  | [] => [(t, c)]
  | (u, d) :: rest => if u = t then (t, c) :: rest else (u, d) :: putSlot t c rest

def Registry.put (r : Registry) (t : Token) (c : CellId) : Registry :=
  { r with slots := putSlot t c r.slots }

/-- All registries of a run with the cells they share. -/
structure Store where
  registries : Array Registry := #[]
  cells : Array Asset := #[]
  /-- The origins whose tokens were asked for, by table. -/
  memos : Array (List String) := #[]
  deriving Repr, DecidableEq

namespace Store

def registry? (s : Store) (r : RegistryId) : Option Registry := s.registries[r]?

def asset? (s : Store) (c : CellId) : Option Asset := s.cells[c]?

def master? (s : Store) (r : RegistryId) : Option RegistryId := (s.registry? r).bind (·.master)

/-- A registry and its masters, at most `steps` of them. -/
def chainFrom (s : Store) : Nat → RegistryId → List RegistryId
  | 0, _ => []
  | steps + 1, r =>
    r :: match s.master? r with
      | some m => chainFrom s steps m
      | none => []

/-- A registry and all its masters, the root last. No chain visits a registry twice. -/
def chain (s : Store) (r : RegistryId) : List RegistryId := s.chainFrom s.registries.size r

def rootOf (s : Store) (r : RegistryId) : RegistryId := (s.chain r).getLast?.getD r

/-- A new root registry with a table of origins of its own. -/
def newRoot (s : Store) : Store × RegistryId :=
  ({ s with
      registries := s.registries.push { memo := s.memos.size }
      memos := s.memos.push [] },
    s.registries.size)

/-- A new root registry that draws its tokens from the table of `like`. -/
def newRootLike (s : Store) (like : RegistryId) : Store × RegistryId :=
  let memo := ((s.registry? like).map (·.memo)).getD 0
  ({ s with registries := s.registries.push { memo } }, s.registries.size)

def newChild (s : Store) (master : RegistryId) : Store × RegistryId :=
  let memo := ((s.registry? master).map (·.memo)).getD 0
  ({ s with registries := s.registries.push { master := some master, memo } }, s.registries.size)

def modifyCell (s : Store) (c : CellId) (f : Asset → Asset) : Store :=
  { s with cells := s.cells.modify c f }

/-- Puts a cell into one registry, and notes on it whether that registry is a root. -/
def insertAt (t : Token) (c : CellId) (s : Store) (r : RegistryId) : Store :=
  let s := s.modifyCell c fun a => { a with isMaster := (s.master? r).isNone }
  { s with registries := s.registries.modify r (·.put t c) }

/-- Puts a cell into a registry and all its masters. -/
def insert (s : Store) (r : RegistryId) (t : Token) (c : CellId) : Store :=
  (s.chain r).foldl (insertAt t c) s

def cellAt? (s : Store) (r : RegistryId) (t : Token) : Option CellId :=
  (s.registry? r).bind (·.cell? t)

/-- The cell of a token in a registry or the nearest of its masters. -/
def cellInChain? (s : Store) (r : RegistryId) (t : Token) : Option CellId :=
  (s.chain r).findSome? (s.cellAt? · t)

/-- The token of an origin; the registry's table remembers that it was asked for. -/
def tokenFor (s : Store) (r : RegistryId) (origin : String) : Store × Token :=
  let memo := ((s.registry? r).map (·.memo)).getD 0
  ({ s with memos := s.memos.modify memo fun seen =>
      if seen.contains origin then seen else seen ++ [origin] },
    Token.ofOrigin origin)

/-- What a registration did. -/
structure Registered where
  token : Token
  /-- No registry of the chain knew the origin. -/
  isNew : Bool
  deriving Repr, DecidableEq

/-- Registers an origin and gives its token. A known origin keeps its cell, in which an explicit
source replaces the old one. -/
def register (s : Store) (r : RegistryId) (origin : String) (source : Option Path) :
    Store × Registered :=
  let (s, t) := s.tokenFor r origin
  match s.cellInChain? r t with
  | some c =>
    let s := match source with
      | some p => s.modifyCell c fun a => { a with source := p }
      | none => s
    (s.insert r t c, ⟨t, false⟩)
  | none =>
    let c := s.cells.size
    let s := { s with cells := s.cells.push { source := source.getD ⟨origin⟩, token := t } }
    (s.insert r t c, ⟨t, true⟩)

/-- The cells of a registry in order of first insertion. -/
def snapshot (s : Store) (r : RegistryId) : List (Token × CellId) :=
  ((s.registry? r).map (·.slots)).getD []

def assetsOf (s : Store) (r : RegistryId) : List Asset :=
  (s.snapshot r).filterMap fun (_, c) => s.asset? c

def size (s : Store) (r : RegistryId) : Nat := (s.snapshot r).length

/-- Links a registry under a master and replays its entries there. Refused when the registry is
among the master's own masters. -/
def setMaster? (s : Store) (r master : RegistryId) : Option Store :=
  if (s.chain master).contains r then none
  else
    let entries := s.snapshot r
    let s := { s with registries := s.registries.modify r ({ · with master := some master }) }
    some (entries.foldl (fun s (t, c) => s.insert master t c) s)

end Store
end Bindery
