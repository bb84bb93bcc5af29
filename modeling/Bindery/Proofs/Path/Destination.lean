import Bindery.Proofs.Path.Canonical

/-! Where a path leads. It is walked piece by piece between its slashes, and a step up stays put at the
root of the file system. Normalization cancels a step up against the name before it, and against the
step up before it too, so of the steps that find no name it keeps one or none, as they are odd or even
in number. Two absolute paths that lead to one place may have different normal forms, and two relative
ones with the same normal form may lead to different places. -/

namespace Bindery.Path

/-- The directory that a piece of a path leads to. A directory is the list of its names, the deepest
first; nothing between two slashes and a dot stay there. -/
def enter (dir : List String) (piece : List Char) : List String :=
  if piece = [] ∨ piece = ['.'] then dir
  else if piece = ['.', '.'] then dir.tail
  else String.ofList piece :: dir

/-- The directory at the end of a list of pieces. -/
def follow (dir : List String) (pieces : List (List Char)) : List String := pieces.foldl enter dir

/-- No step up is taken at the root. -/
def StaysBelow : List String → List (List Char) → Prop
  | _, [] => True
  | dir, piece :: pieces => (piece = ['.', '.'] → dir ≠ []) ∧ StaysBelow (enter dir piece) pieces

/-- The directory that a path leads to. -/
def destination (p : Path) (dir : List String) : List String :=
  follow (if p.isAbsolute then [] else dir) p.pieces

/-- A relative path does not climb past the root from the directory. -/
def StartsFrom (p : Path) (dir : List String) : Prop :=
  p.isAbsolute = false → StaysBelow dir p.pieces

/-- The paths lead to the same place from every directory that is deep enough for both. -/
def SamePlace (p q : Path) : Prop :=
  ∀ dir, p.StartsFrom dir → q.StartsFrom dir → p.destination dir = q.destination dir

/-- The number of steps up that find no name to take back, where so many names were gone down. -/
def climbsFrom : Nat → List (List Char) → Nat
  | _, [] => 0
  | depth, piece :: pieces =>
    match component? piece with
    | some .up => if depth = 0 then climbsFrom 0 pieces + 1 else climbsFrom (depth - 1) pieces
    | some (.name _) => climbsFrom (depth + 1) pieces
    | _ => climbsFrom depth pieces

def climbs (p : Path) : Nat := climbsFrom 0 p.pieces

/-! A piece stays, goes up or goes down by a name. -/

inductive Turn (piece : List Char) : Prop
  | stay (hread : component? piece = none) (hup : piece ≠ ['.', '.'])
      (henter : ∀ dir, enter dir piece = dir)
  | up (h : piece = ['.', '.'])
  | down (s : String) (hread : component? piece = some (.name s)) (hup : piece ≠ ['.', '.'])
      (henter : ∀ dir, enter dir piece = s :: dir)

theorem turn (piece : List Char) : Turn piece := by
  by_cases hstay : piece = [] ∨ piece = ['.']
  · have hread : component? piece = none := by rcases hstay with rfl | rfl <;> rfl
    have hup : piece ≠ ['.', '.'] := by rcases hstay with rfl | rfl <;> decide
    exact .stay hread hup fun dir => if_pos hstay
  · by_cases hup : piece = ['.', '.']
    · exact .up hup
    · refine .down (String.ofList piece) (by simpa [component?, hup] using hstay) hup fun dir => ?_
      rw [enter, if_neg hstay, if_neg hup]

theorem follow_cons (dir : List String) (piece : List Char) (pieces : List (List Char)) :
    follow dir (piece :: pieces) = follow (enter dir piece) pieces := rfl

section Climbs

variable {piece : List Char} {pieces : List (List Char)}

theorem climbsFrom_stay (h : component? piece = none) (depth : Nat) :
    climbsFrom depth (piece :: pieces) = climbsFrom depth pieces := by
  rw [climbsFrom, h]

theorem climbsFrom_down {s : String} (h : component? piece = some (.name s)) (depth : Nat) :
    climbsFrom depth (piece :: pieces) = climbsFrom (depth + 1) pieces := by
  rw [climbsFrom, h]

end Climbs

/-! The walk from a directory goes on below it, but for what it climbs. -/

theorem follow_append (names dir : List String) (pieces : List (List Char)) :
    follow (names ++ dir) pieces =
      follow names pieces ++ dir.drop (climbsFrom names.length pieces) := by
  induction pieces generalizing names dir with
  | nil => rfl
  | cons piece pieces ih =>
    cases turn piece with
    | stay hread _ henter =>
      rw [follow_cons, follow_cons, henter, henter, climbsFrom_stay hread]
      exact ih names dir
    | down s hread _ henter =>
      rw [follow_cons, follow_cons, henter, henter, climbsFrom_down hread]
      exact ih (s :: names) dir
    | up h =>
      subst h
      cases names with
      | cons s names => exact ih names dir
      | nil =>
        have hdrop : dir.tail.drop (climbsFrom 0 pieces) = dir.drop (climbsFrom 0 pieces + 1) := by
          rw [← List.drop_one, List.drop_drop, Nat.add_comm]
        exact (ih [] dir.tail).trans (congrArg (follow [] pieces ++ ·) hdrop)

theorem staysBelow_append_iff (names dir : List String) (pieces : List (List Char)) :
    StaysBelow (names ++ dir) pieces ↔ climbsFrom names.length pieces ≤ dir.length := by
  induction pieces generalizing names dir with
  | nil => exact iff_of_true trivial (Nat.zero_le _)
  | cons piece pieces ih =>
    cases turn piece with
    | stay hread hup henter =>
      rw [StaysBelow, henter, climbsFrom_stay hread]
      exact (and_iff_right fun h => absurd h hup).trans (ih names dir)
    | down s hread hup henter =>
      rw [StaysBelow, henter, climbsFrom_down hread]
      exact (and_iff_right fun h => absurd h hup).trans (ih (s :: names) dir)
    | up h =>
      subst h
      cases names with
      | cons s names => exact (and_iff_right fun _ => List.cons_ne_nil _ _).trans (ih names dir)
      | nil =>
        have hrest := ih [] dir.tail
        rw [List.length_tail] at hrest
        constructor
        · rintro ⟨hne, hstays⟩
          have hpos : 0 < dir.length := List.length_pos_iff.2 (hne rfl)
          exact Nat.add_le_of_le_sub hpos (hrest.1 hstays)
        · intro hle
          have hpos : 0 < dir.length := Nat.lt_of_lt_of_le (Nat.succ_pos _) hle
          exact ⟨fun _ => List.length_pos_iff.1 hpos, hrest.2 (Nat.le_sub_of_add_le hle)⟩

/-! The stack of normalization: names, at most one step up, and the root of an absolute path. -/

/-- What lies below the names of a stack. -/
def ground (absolute : Bool) (climbs : Nat) : List Component :=
  List.replicate (climbs % 2) .up ++ if absolute then [.root] else []

theorem normalizeStep_ground (absolute : Bool) (climbs : Nat) :
    normalizeStep (ground absolute climbs) .up = ground absolute (climbs + 1) := by
  unfold ground
  rcases Nat.mod_two_eq_zero_or_one climbs with heven | hodd
  · rw [heven, show (climbs + 1) % 2 = 1 by omega]
    cases absolute <;> rfl
  · rw [hodd, show (climbs + 1) % 2 = 0 by omega]
    cases absolute <;> rfl

/-- Normalization keeps the names that the walk leaves, and of its climbs what is odd. -/
theorem walk_ground (absolute : Bool) (climbs : Nat) (names : List String)
    (pieces : List (List Char)) :
    walk (names.map .name ++ ground absolute climbs) (pieces.filterMap component?) =
      (follow names pieces).map .name ++ ground absolute (climbs + climbsFrom names.length pieces) := by
  induction pieces generalizing names climbs with
  | nil => rfl
  | cons piece pieces ih =>
    cases turn piece with
    | stay hread _ henter =>
      rw [List.filterMap_cons_none hread, follow_cons, henter, climbsFrom_stay hread]
      exact ih climbs names
    | down s hread _ henter =>
      rw [List.filterMap_cons_some hread, follow_cons, henter, climbsFrom_down hread]
      exact ih climbs (s :: names)
    | up h =>
      subst h
      rw [List.filterMap_cons_some (show component? ['.', '.'] = some .up from rfl), walk_cons]
      cases names with
      | cons s names => exact ih climbs names
      | nil =>
        -- No name is left, so the step turns over what lies below.
        have hsum : climbs + climbsFrom 0 (['.', '.'] :: pieces) =
            climbs + 1 + climbsFrom 0 pieces := by
          rw [Nat.add_assoc, Nat.add_comm 1]
          rfl
        rw [List.map_nil, List.nil_append, normalizeStep_ground, List.length_nil, hsum]
        exact ih (climbs + 1) []

theorem walk_components (p : Path) : walk [] p.components =
    (p.destination []).map .name ++ ground p.isAbsolute p.climbs := by
  have hwalk := walk_ground p.isAbsolute 0 [] p.pieces
  rw [Nat.zero_add] at hwalk
  unfold destination climbs
  rw [ite_self, ← List.length_nil, ← hwalk]
  cases h : p.isAbsolute with
  | true =>
    obtain ⟨cs, hcs⟩ := isAbsolute_iff.1 h
    rw [components_of_slash hcs, pieces_of_slash hcs]
    rfl
  | false =>
    rcases components_of_relative h with hcomponents | hcomponents
    · rw [hcomponents]
      rfl
    · rw [hcomponents]
      rfl

theorem stack_inj {names names' : List String} {absolute : Bool} {climbs climbs' : Nat} :
    names.map Component.name ++ ground absolute climbs =
        names'.map Component.name ++ ground absolute climbs' ↔
      names = names' ∧ climbs % 2 = climbs' % 2 := by
  constructor
  · intro h
    unfold ground at h
    rw [← List.append_assoc, ← List.append_assoc] at h
    have hstack := List.append_cancel_right h
    have hnone : ∀ names : List String, (names.map Component.name).count .up = 0 := fun names =>
      List.count_eq_zero.2 (by simp)
    have hcount := congrArg (List.count .up) hstack
    rw [List.count_append, List.count_append, hnone, hnone, List.count_replicate_self,
      List.count_replicate_self, Nat.zero_add, Nat.zero_add] at hcount
    rw [hcount] at hstack
    refine ⟨List.map_injective_iff.2 (fun s t hst => ?_) (List.append_cancel_right hstack), hcount⟩
    exact Component.name.inj hst
  · rintro ⟨rfl, hclimbs⟩
    rw [ground, ground, hclimbs]

variable {p q : Path}

/-- Normal forms tell the names that a path leaves and whether its climbs are even. -/
theorem normalize_eq_normalize_iff (h : p.isAbsolute = q.isAbsolute) :
    p.normalize = q.normalize ↔
      p.destination [] = q.destination [] ∧ p.climbs % 2 = q.climbs % 2 := by
  have hstack : p.normalize = q.normalize ↔ walk [] p.components = walk [] q.components := by
    constructor
    · intro heq
      have hcomponents := congrArg components heq
      rw [components_normalize, components_normalize] at hcomponents
      exact List.reverse_inj.1 hcomponents
    · intro heq
      rw [normalize_eq, normalize_eq, heq]
  rw [hstack, walk_components, walk_components, h]
  exact stack_inj

/-- An absolute path leads to one place from everywhere. -/
theorem destination_of_absolute (h : p.isAbsolute = true) (dir : List String) :
    p.destination dir = p.destination [] := by
  rw [destination, destination, h]
  rfl

theorem startsFrom_of_absolute (h : p.isAbsolute = true) (dir : List String) : p.StartsFrom dir :=
  fun hrelative => absurd (h.symm.trans hrelative) nofun

theorem samePlace_iff_of_absolute (hp : p.isAbsolute = true) (hq : q.isAbsolute = true) :
    p.SamePlace q ↔ p.destination [] = q.destination [] := by
  constructor
  · exact fun h => h [] (startsFrom_of_absolute hp []) (startsFrom_of_absolute hq [])
  · intro h dir _ _
    rw [destination_of_absolute hp, destination_of_absolute hq, h]

theorem destination_of_relative (h : p.isAbsolute = false) (dir : List String) :
    p.destination dir = p.destination [] ++ dir.drop p.climbs := by
  rw [destination, destination, h]
  exact follow_append [] dir p.pieces

theorem startsFrom_iff (h : p.isAbsolute = false) (dir : List String) :
    p.StartsFrom dir ↔ p.climbs ≤ dir.length :=
  (forall_prop_of_true h).trans (staysBelow_append_iff [] dir p.pieces)

/-- Names that stand before a repeated name do not make up for it, whichever name it is. -/
theorem le_of_append_replicate {names names' : List String} {m n : Nat}
    (h : ∀ s, names ++ List.replicate n s = names' ++ List.replicate m s) : m ≤ n := by
  by_contra hlt
  obtain ⟨k, rfl⟩ := Nat.exists_eq_add_of_lt (Nat.lt_of_not_le hlt)
  have hrest : ∀ s, names = names' ++ List.replicate (k + 1) s := by
    intro s
    have hs := h s
    rw [Nat.add_assoc, Nat.add_comm, List.replicate_add, ← List.append_assoc] at hs
    exact List.append_cancel_right hs
  have htwo := List.append_cancel_left ((hrest "x").symm.trans (hrest "y"))
  simp [List.replicate_succ] at htwo

/-- A relative path leads down to the names it leaves, from as far up as it climbs. -/
theorem samePlace_iff_of_relative (hp : p.isAbsolute = false) (hq : q.isAbsolute = false) :
    p.SamePlace q ↔ p.destination [] = q.destination [] ∧ p.climbs = q.climbs := by
  constructor
  · intro h
    -- A directory of one repeated name that is deep enough for both. Its rest tells the climbs, unless
    -- the names that a path leaves go on with this very name, and these cannot go on with two.
    have hfrom : ∀ s : String, p.destination [] ++ List.replicate q.climbs s =
        q.destination [] ++ List.replicate p.climbs s := by
      intro s
      have hdir := h (List.replicate (p.climbs + q.climbs) s)
        ((startsFrom_iff hp _).2 (by simp)) ((startsFrom_iff hq _).2 (by simp))
      rw [destination_of_relative hp, destination_of_relative hq, List.drop_replicate,
        List.drop_replicate, Nat.add_sub_cancel_left, Nat.add_sub_cancel] at hdir
      exact hdir
    have hclimbs := Nat.le_antisymm (le_of_append_replicate hfrom)
      (le_of_append_replicate fun s => (hfrom s).symm)
    refine ⟨?_, hclimbs⟩
    have hone := hfrom "x"
    rw [hclimbs] at hone
    exact List.append_cancel_right hone
  · rintro ⟨hnames, hclimbs⟩ dir _ _
    rw [destination_of_relative hp, destination_of_relative hq, hnames, hclimbs]

/-- Among absolute paths a normal form tells the place and whether the climbs are even, among relative
ones the place tells the normal form and the climbs. -/
theorem normalize_eq_iff_samePlace (h : p.isAbsolute = q.isAbsolute) :
    (p.isAbsolute = true →
      (p.normalize = q.normalize ↔ p.SamePlace q ∧ p.climbs % 2 = q.climbs % 2)) ∧
    (p.isAbsolute = false →
      (p.SamePlace q ↔ p.normalize = q.normalize ∧ p.climbs = q.climbs)) := by
  rw [normalize_eq_normalize_iff h]
  refine ⟨fun hp => ?_, fun hp => ?_⟩
  · rw [samePlace_iff_of_absolute hp (h ▸ hp)]
  · rw [samePlace_iff_of_relative hp (h ▸ hp)]
    constructor
    · rintro ⟨hnames, hclimbs⟩
      exact ⟨⟨hnames, by rw [hclimbs]⟩, hclimbs⟩
    · rintro ⟨⟨hnames, -⟩, hclimbs⟩
      exact ⟨hnames, hclimbs⟩

/-- A step up at the root of the file system leads nowhere else but stays in the normal form, and two
steps up from a directory are normalized away. -/
theorem normalize_eq_iff_samePlace_climbs :
    let down : Path := ⟨"/docs/../../a.md"⟩
    let plain : Path := ⟨"/./a.md"⟩
    let up : Path := ⟨"img/../../../a.md"⟩
    let here : Path := ⟨"a.md"⟩
    (down.isAbsolute = plain.isAbsolute ∧ down.SamePlace plain ∧
      down.normalize ≠ plain.normalize) ∧
    up.isAbsolute = here.isAbsolute ∧ up.normalize = here.normalize ∧ ¬ up.SamePlace here := by
  intro down plain up here
  have hdown : down.isAbsolute = true := by decide
  have hup : up.isAbsolute = false := by decide
  have habsolute := (normalize_eq_iff_samePlace (p := down) (q := plain) (by decide)).1 hdown
  have hrelative := (normalize_eq_iff_samePlace (p := up) (q := here) (by decide)).2 hup
  refine ⟨⟨by decide, ?_, fun hsame => ?_⟩, by decide, by decide +kernel, fun hsame => ?_⟩
  · exact (samePlace_iff_of_absolute hdown (by decide)).2 (by decide +kernel)
  · exact absurd (habsolute.1 hsame).2 (by decide +kernel)
  · exact absurd (hrelative.1 hsame).2 (by decide +kernel)

end Bindery.Path
