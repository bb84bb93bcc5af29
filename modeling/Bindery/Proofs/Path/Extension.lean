import Bindery.FileTree
import Bindery.Proofs.Path.Relative

/-! The page of a document. It lies beside the document, under a name that no Markdown document
has. -/

namespace Bindery.Path

/-! Absolute paths that end in a name. -/

theorem intercalate_concat (pieces : List (List Char)) :
    ∃ front : List Char, ∀ last, List.intercalate ['/'] (pieces ++ [last]) = front ++ last := by
  induction pieces with
  | nil => exact ⟨[], fun last => by simp [List.intercalate]⟩
  | cons piece pieces ih =>
    obtain ⟨front, hfront⟩ := ih
    refine ⟨piece ++ '/' :: front, fun last => ?_⟩
    have hne : pieces ++ [last] ≠ [] := by simp
    obtain ⟨next, rest, hnext⟩ := List.exists_cons_of_ne_nil hne
    have hstep := hfront last
    rw [hnext] at hstep
    rw [List.cons_append, hnext, List.intercalate_cons_cons, hstep]
    simp

/-- What stands before the last name is the same for every name. -/
theorem exists_front (steps : List Component) : ∃ front : List Char, ∀ s : String,
    (rooted (steps ++ [.name s])).text.toList = front ++ s.toList := by
  obtain ⟨front, hfront⟩ := intercalate_concat (steps.map fun c => c.text.toList)
  refine ⟨'/' :: front, fun s => ?_⟩
  have hslash : "/".toList = ['/'] := rfl
  have htext := hfront s.toList
  simp only [rooted, ofComponents, String.toList_append, String.toList_intercalate, hslash,
    List.map_map, List.map_append, List.map_cons, List.map_nil, Component.text]
  exact congrArg ('/' :: ·) htext

theorem dropTrail_reverse {s : String} (hs : (Component.name s).IsStep) (rest : List Char) :
    dropTrail (s.toList.reverse ++ rest) = s.toList.reverse ++ rest := by
  obtain ⟨hempty, hslash, hdot, -⟩ := hs
  have hslash' : '/' ∉ s.toList.reverse := by simpa using hslash
  have hsingle : s.toList.reverse ≠ ['.'] := by
    intro h
    have hlist : s.toList = ['.'] := by simpa using congrArg List.reverse h
    exact hdot (String.toList_inj.1 hlist)
  have hne : s.toList.reverse ≠ [] := by
    intro h
    exact hempty (String.toList_inj.1 (by simpa using h))
  match hrev : s.toList.reverse with
  | [] => exact absurd hrev hne
  | [c] =>
    rw [hrev] at hslash' hsingle
    have hc : c ≠ '/' := fun h => hslash' (h ▸ List.mem_cons_self)
    have hc' : c ≠ '.' := fun h => hsingle (h ▸ rfl)
    unfold dropTrail
    split
    · next heq => exact absurd (List.cons.inj heq).1 hc
    · next heq => exact absurd (List.cons.inj heq).1 hc'
    · rfl
  | c :: d :: cs =>
    rw [hrev] at hslash'
    have hc : c ≠ '/' := fun h => hslash' (h ▸ List.mem_cons_self)
    have hd : d ≠ '/' := fun h => hslash' (h ▸ List.mem_cons_of_mem _ List.mem_cons_self)
    unfold dropTrail
    split
    · next heq => exact absurd (List.cons.inj heq).1 hc
    · next heq => exact absurd (List.cons.inj (List.cons.inj heq).2).1 hd
    · rfl

theorem length_dropTrail_le (cs : List Char) : (dropTrail cs).length ≤ cs.length := by
  fun_induction dropTrail cs with
  | case1 rest ih => exact Nat.le_succ_of_le ih
  | case2 rest ih => exact Nat.le_succ_of_le (Nat.le_succ_of_le ih)
  | case3 => exact Nat.le_refl _

/-- A path that ends in a name is not written as that of a directory. -/
theorem endsInDirectory_rooted {steps : List Component} {s : String}
    (hs : (Component.name s).IsStep) : (rooted (steps ++ [.name s])).endsInDirectory = false := by
  obtain ⟨front, hfront⟩ := exists_front steps
  have hkept := dropTrail_reverse hs front.reverse
  rw [← List.reverse_append, ← hfront s] at hkept
  unfold endsInDirectory
  split
  · next rest heq =>
    have hlength := length_dropTrail_le rest
    rw [heq, dropTrail] at hkept
    rw [hkept, List.length_cons] at hlength
    omega
  · next rest heq =>
    have hlength := length_dropTrail_le rest
    rw [heq, dropTrail] at hkept
    rw [hkept, List.length_cons, List.length_cons] at hlength
    omega
  · rfl

theorem IsNormal.endsInDirectory_eq {p : Path} (h : p.IsNormal) {steps : List Component} {s : String}
    (hcomponents : p.components = .root :: (steps ++ [.name s])) : p.endsInDirectory = false := by
  obtain ⟨all, hall, hcomponents'⟩ := exists_steps h.absolute
  obtain rfl : all = steps ++ [.name s] := (List.cons.inj (hcomponents'.symm.trans hcomponents)).2
  rw [h.eq_ofComponents.2, hcomponents]
  exact endsInDirectory_rooted (hall (.name s) (List.mem_append_right _ List.mem_cons_self))

/-! A name below a directory. -/

theorem intercalate_append_singleton {pieces : List (List Char)} (hne : pieces ≠ [])
    (last : List Char) : List.intercalate ['/'] (pieces ++ [last]) =
      List.intercalate ['/'] pieces ++ '/' :: last := by
  induction pieces with
  | nil => exact absurd rfl hne
  | cons piece pieces ih =>
    cases pieces with
    | nil => simp [List.intercalate]
    | cons next pieces =>
      have hrest := ih (List.cons_ne_nil _ _)
      rw [List.cons_append, List.cons_append, List.intercalate_cons_cons, ← List.cons_append, hrest,
        List.intercalate_cons_cons]
      simp

theorem join_rooted {steps : List Component} (hsteps : ∀ c ∈ steps, c.IsStep) {s : String}
    (hs : (⟨s⟩ : Path).isAbsolute = false) :
    (rooted steps).join ⟨s⟩ = rooted (steps ++ [.name s]) := by
  have hslash : "/".toList = ['/'] := rfl
  unfold join
  rw [if_neg (by simp [hs])]
  rcases List.eq_nil_or_concat steps with rfl | ⟨front, c, rfl⟩
  · rfl
  · rw [List.concat_eq_append] at hsteps ⊢
    have hc : c.IsStep := hsteps c (by simp)
    have hne : (front ++ [c]).map (fun c => c.text.toList) ≠ [] := by simp
    have htext : (rooted (front ++ [c])).text.toList =
        '/' :: List.intercalate ['/'] ((front ++ [c]).map fun c => c.text.toList) := by
      simp only [rooted, ofComponents, String.toList_append, String.toList_intercalate, hslash,
        List.map_map]
      rfl
    have hlast : (rooted (front ++ [c])).text.toList.getLast? ≠ some '/' := by
      obtain ⟨before, hbefore⟩ := intercalate_concat (front.map fun c => c.text.toList)
      have hempty : c.text.toList ≠ [] := fun hnil => by
        have hread := component?_text hc
        rw [hnil] at hread
        cases hread
      rw [htext, List.map_append, List.map_singleton, hbefore, ← List.cons_append,
        List.getLast?_append_of_ne_nil _ hempty]
      exact fun hlast => hc.slash_not_mem (List.mem_of_getLast? hlast)
    have hwritten : (rooted (front ++ [c])).text.isEmpty = false := by
      rw [Bool.eq_false_iff]
      intro hempty
      rw [String.isEmpty_iff.1 hempty] at htext
      cases htext
    rw [hwritten, if_neg (by simpa using hlast)]
    have hfull : (rooted (front ++ [c] ++ [.name s])).text.toList = '/' ::
        List.intercalate ['/'] ((front ++ [c]).map (fun c => c.text.toList) ++ [s.toList]) := by
      simp only [rooted, ofComponents, String.toList_append, String.toList_intercalate, hslash,
        List.map_map, List.map_append, List.map_singleton]
      rfl
    have hjoin : (rooted (front ++ [c])).text ++ "/" ++ s = (rooted (front ++ [c] ++ [.name s])).text := by
      apply String.toList_inj.1
      rw [hfull, intercalate_append_singleton hne, String.toList_append, String.toList_append, htext,
        hslash]
      simp
    exact congrArg Path.mk hjoin

theorem IsNormal.isNormal_join {base : Path} (h : base.IsNormal) {s : String}
    (hs : (Component.name s).IsStep) (hrelative : (⟨s⟩ : Path).isAbsolute = false) :
    (base.join ⟨s⟩).IsNormal := by
  obtain ⟨steps, hall, hcomponents⟩ := exists_steps h.absolute
  obtain ⟨hpushes, hbase⟩ := h.eq_ofComponents
  rw [hcomponents] at hpushes hbase
  rw [show base = rooted steps from hbase, join_rooted hall hrelative]
  refine isNormal_rooted (fun c hc => ?_) ?_
  · rcases List.mem_append.1 hc with hc | hc
    · exact hall c hc
    · exact List.mem_singleton.1 hc ▸ hs
  · rw [Pushes, ← List.cons_append, walk_append, hpushes]
    simp [walk_cons, normalizeStep]

/-- A name without its extension. -/
def stem (s : String) : List Char :=
  match splitLastDot s.toList with
  | some (before, _) => before
  | none => s.toList

theorem mem_of_mem_stem {s : String} {c : Char} (h : c ∈ stem s) : c ∈ s.toList := by
  unfold stem splitLastDot at h
  dsimp only at h
  split at h
  · next before ext heq =>
    split at heq
    · obtain rfl := (Prod.mk.inj (Option.some.inj heq)).1
      exact List.mem_of_mem_take h
    · cases heq
  · exact h

/-- A name with another extension is the name of a file. -/
theorem isStep_withHtml {s : String} (hs : (Component.name s).IsStep) :
    (Component.name (String.ofList (stem s) ++ "." ++ "html")).IsStep := by
  have hlist : (String.ofList (stem s) ++ "." ++ "html").toList = stem s ++ ".html".toList := by
    simp
  have hlength : 5 ≤ (String.ofList (stem s) ++ "." ++ "html").toList.length := by
    rw [hlist]
    simp
  refine ⟨?_, ?_, ?_, ?_⟩
  · intro h
    rw [h] at hlength
    exact absurd hlength (by decide)
  · rw [hlist, List.mem_append]
    rintro (h | h)
    · exact hs.2.1 (mem_of_mem_stem h)
    · exact absurd h (by decide)
  · intro h
    rw [h] at hlength
    exact absurd hlength (by decide)
  · intro h
    rw [h] at hlength
    exact absurd hlength (by decide)

/-- The steps to a page are those to its document, but for the name in the end. -/
theorem isStep_page {steps : List Component} {s : String} (h : ∀ c ∈ steps ++ [.name s], c.IsStep) :
    ∀ c ∈ steps ++ [.name (String.ofList (stem s) ++ "." ++ "html")], c.IsStep := by
  obtain ⟨hsteps, hs⟩ := List.forall_mem_append.1 h
  refine List.forall_mem_append.2 ⟨hsteps, List.forall_mem_singleton.2 ?_⟩
  exact isStep_withHtml (List.forall_mem_singleton.1 hs)

theorem fileName?_eq {p : Path} {front : List Component} {s : String}
    (h : p.components = front ++ [.name s]) : p.fileName? = some s := by
  unfold fileName?
  rw [h, List.getLast?_concat]

/-- What stands before the name of a file stays. -/
theorem toList_withExtension {p : Path} {front : List Char} {s : String} (ext : String)
    (hs : (Component.name s).IsStep) (hfront : p.text.toList = front ++ s.toList)
    (hname : p.fileName? = some s) : (p.withExtension ext).text.toList =
      front ++ (String.ofList (stem s) ++ "." ++ ext).toList := by
  have hkept : (dropTrail p.text.toList.reverse).reverse = front ++ s.toList := by
    rw [hfront, List.reverse_append, dropTrail_reverse hs]
    simp
  have hdirectory : (front ++ s.toList).take ((front ++ s.toList).length - s.length) = front := by
    have hlength : (front ++ s.toList).length - s.length = front.length := by
      rw [List.length_append, String.length_toList]
      omega
    rw [hlength, List.take_left]
  unfold withExtension
  rw [hname]
  simp only [hkept, hdirectory, String.toList_append, String.toList_ofList, List.append_assoc]
  rfl

theorem eq_of_toList {p q : Path} (h : p.text.toList = q.text.toList) : p = q :=
  congrArg Path.mk (String.toList_inj.1 h)

theorem withExtension_rooted {steps : List Component} {s : String} (ext : String)
    (h : ∀ c ∈ steps ++ [.name s], c.IsStep) : (rooted (steps ++ [.name s])).withExtension ext =
      rooted (steps ++ [.name (String.ofList (stem s) ++ "." ++ ext)]) := by
  have hs : (Component.name s).IsStep := h _ (by simp)
  obtain ⟨front, hfront⟩ := exists_front steps
  have hcomponents : (rooted (steps ++ [.name s])).components = (.root :: steps) ++ [.name s] :=
    components_rooted h
  apply eq_of_toList
  rw [hfront]
  exact toList_withExtension ext hs (hfront s) (fileName?_eq hcomponents)

/-! Documents and pages. -/

theorem exists_name {p : Path} {s : String} (h : p.fileName? = some s) :
    ∃ front, p.components = front ++ [.name s] := by
  unfold fileName? at h
  split at h
  · next name hlast =>
    obtain rfl := Option.some.inj h
    obtain ⟨front, hfront⟩ := List.getLast?_eq_some_iff.1 hlast
    exact ⟨front, hfront⟩
  · cases h

theorem extension_of_isMarkdown {p : Path} (h : p.isMarkdown = true) : ∃ s before ext,
    p.fileName? = some s ∧ splitLastDot s.toList = some (before, ext) ∧
      Text.asciiLower ext = "md".toList := by
  unfold isMarkdown extension? at h
  cases hname : p.fileName? with
  | none => simp [hname] at h
  | some s =>
    rw [hname] at h
    cases hsplit : splitLastDot s.toList with
    | none => simp [hsplit] at h
    | some parts =>
      obtain ⟨before, ext⟩ := parts
      exact ⟨s, before, ext, rfl, hsplit, by simpa [hsplit] using h⟩

/-- The path ends in the name of a page. -/
def IsPage (p : Path) : Prop := ∃ (front : List Component) (s : String) (before : List Char),
  p.components = front ++ [.name s] ∧ s.toList = before ++ ".html".toList

/-- No Markdown document has the name of a page. -/
theorem IsPage.placeOf_ne {p d : Path} (hp : p.IsPage) (hd : d.isMarkdown = true) :
    FileTree.placeOf p ≠ FileTree.placeOf d := by
  obtain ⟨front, s, before, hcomponents, hs⟩ := hp
  obtain ⟨t, stem, ext, hname, hsplit, hext⟩ := extension_of_isMarkdown hd
  obtain ⟨front', hcomponents'⟩ := exists_name hname
  intro hplace
  unfold FileTree.placeOf at hplace
  rw [hcomponents, hcomponents', List.filterMap_append, List.filterMap_append] at hplace
  obtain rfl : s = t := by simpa using (List.append_inj' hplace rfl).2
  unfold splitLastDot at hsplit
  dsimp only at hsplit
  split at hsplit
  · have hhtml : ext = "html".toList := by
      have hlast : (s.toList.reverse.takeWhile (· != '.')).reverse = ext :=
        (Prod.mk.inj (Option.some.inj hsplit)).2
      rw [← hlast, hs]
      simp [List.takeWhile]
    rw [hhtml] at hext
    exact absurd hext (by decide)
  · cases hsplit

/-- The page of a Markdown document lies beside it. -/
theorem withExtension_html {d : Path} (h : d.IsNormal) (hd : d.isMarkdown = true) :
    ∃ (steps : List Component) (s t : String), d.components = .root :: (steps ++ [.name s]) ∧
      (d.withExtension "html").components = .root :: (steps ++ [.name t]) ∧
      (d.withExtension "html").IsNormal ∧ (d.withExtension "html").IsPage := by
  obtain ⟨s, -, -, hname, -, -⟩ := extension_of_isMarkdown hd
  obtain ⟨front, hfront⟩ := exists_name hname
  obtain ⟨all, hall, hcomponents⟩ := exists_steps h.absolute
  have hsplit : ∃ steps, all = steps ++ [.name s] := by
    rw [hfront] at hcomponents
    rcases List.eq_nil_or_concat all with rfl | ⟨steps, c, rfl⟩
    · cases front with
      | nil => cases hcomponents
      | cons x xs => simp at hcomponents
    · rw [List.concat_eq_append, ← List.cons_append] at hcomponents
      have hlast := (List.append_inj' hcomponents rfl).2
      exact ⟨steps, by rw [hlast, List.concat_eq_append]⟩
  obtain ⟨steps, rfl⟩ := hsplit
  have hd_eq : d = rooted (steps ++ [.name s]) := by
    rw [h.eq_ofComponents.2, hcomponents]
    rfl
  refine ⟨steps, s, String.ofList (stem s) ++ "." ++ "html", hcomponents, ?_⟩
  have hsteps := isStep_page hall
  have hpushes : Pushes [] (.root :: (steps ++ [.name (String.ofList (stem s) ++ "." ++ "html")])) := by
    have hd_pushes := h.eq_ofComponents.1
    rw [hcomponents, ← List.cons_append] at hd_pushes
    have hfirst := hd_pushes.append.1
    rw [Pushes, ← List.cons_append, walk_append, hfirst]
    simp [walk_cons, normalizeStep]
  have hpage := components_rooted hsteps
  rw [hd_eq, withExtension_rooted "html" hall]
  refine ⟨hpage, isNormal_rooted hsteps hpushes, .root :: steps, _, stem s, hpage, ?_⟩
  simp

end Bindery.Path
