import Bindery.Proofs.Markdown.LineEnds
import Mathlib.Data.List.TakeWhile

/-! The readers of link definitions on a text that goes on. What one reads of a text it reads again with
more behind it, and what it leaves is an end of the text. -/

namespace Bindery.Markdown

variable {cs rest more : List Char}

/-! The readers on a text that goes on. -/

theorem labelBody_append {escaped : Bool} {seen label : List Char}
    (h : labelBody escaped seen cs = some (label, rest)) (more : List Char) :
    labelBody escaped seen (cs ++ more) = some (label, rest ++ more) := by
  fun_induction labelBody escaped seen cs with
  | case1 => cases h
  | case2 => cases h
  | case3 escaped seen c cs hlimit hescaped ih =>
    rw [List.cons_append, labelBody, if_neg hlimit, if_pos hescaped, ih h]
  | case4 => cases h
  | case5 => cases h
  | case6 escaped seen cs hlimit hescaped hopen hgap =>
    cases h
    rw [List.cons_append, labelBody, if_neg hlimit, if_neg hescaped, if_neg hopen, if_pos rfl,
      if_neg hgap]
  | case7 escaped seen c cs hlimit hescaped hopen hclose ih =>
    rw [List.cons_append, labelBody, if_neg hlimit, if_neg hescaped, if_neg hopen, if_neg hclose, ih h]

theorem enclosedBody_append {escaped : Bool} {seen url : List Char}
    (h : enclosedBody escaped seen cs = some (url, rest)) (more : List Char) :
    enclosedBody escaped seen (cs ++ more) = some (url, rest ++ more) := by
  fun_induction enclosedBody escaped seen cs with
  | case1 => cases h
  | case2 => cases h
  | case3 escaped seen c cs heol hescaped ih =>
    rw [List.cons_append, enclosedBody, if_neg heol, if_pos hescaped, ih h]
  | case4 => cases h
  | case5 escaped seen cs heol hescaped hopen =>
    cases h
    rw [List.cons_append, enclosedBody, if_neg heol, if_neg hescaped, if_neg hopen, if_pos rfl]
  | case6 escaped seen c cs heol hescaped hopen hclose ih =>
    rw [List.cons_append, enclosedBody, if_neg heol, if_neg hescaped, if_neg hopen, if_neg hclose, ih h]

theorem titleBody_append {close : Char} {escaped : Bool} {seen title : List Char}
    (h : titleBody close escaped seen cs = some (title, rest)) (more : List Char) :
    titleBody close escaped seen (cs ++ more) = some (title, rest ++ more) := by
  fun_induction titleBody close escaped seen cs with
  | case1 => cases h
  | case2 escaped seen c cs hescaped ih =>
    rw [List.cons_append, titleBody, if_pos hescaped, ih h]
  | case3 escaped seen cs hescaped =>
    cases h
    rw [List.cons_append, titleBody, if_neg hescaped, if_pos rfl]
  | case4 escaped seen c cs hescaped hclose ih =>
    rw [List.cons_append, titleBody, if_neg hescaped, if_neg hclose, ih h]

/-- A bare destination ends where its text ended, when a line end follows. -/
theorem bareBody_append {limit limit' depth : Nat} {escaped : Bool} {seen url : List Char}
    (h : bareBody limit depth escaped seen cs = some (url, rest)) (hlimit : limit ≤ limit')
    (hmore : ∃ c ∈ more.head?, isEol c = true) :
    bareBody limit' depth escaped seen (cs ++ more) = some (url, rest ++ more) := by
  fun_induction bareBody limit depth escaped seen cs with
  | case1 escaped seen =>
    cases h
    obtain ⟨c, hc, heol⟩ := hmore
    obtain ⟨more, rfl⟩ := List.head?_eq_some_iff.1 hc
    have hescaped : (escaped && (c == '(' || c == ')' || c == '\\')) = false := by
      rw [isEol_iff] at heol
      rcases heol with rfl | rfl <;> cases escaped <;> rfl
    rw [List.nil_append, bareBody, hescaped, heol]
    simp
  | case2 => cases h
  | case3 depth escaped seen c cs hescaped ih =>
    rw [List.cons_append, bareBody, if_pos hescaped, ih h]
  | case4 depth escaped seen c cs hescaped hend =>
    cases h
    rw [List.cons_append, bareBody, if_neg hescaped, if_pos hend]
  | case5 depth escaped seen cs hdepth hescaped hend ih =>
    rw [List.cons_append, bareBody, if_neg hescaped, if_neg hend, if_pos rfl,
      if_pos (Nat.lt_of_lt_of_le hdepth hlimit), ih h]
  | case6 => cases h
  | case7 depth escaped seen cs hescaped hend hopen ih =>
    rw [List.cons_append, bareBody, if_neg hescaped, if_neg hend, if_neg hopen, if_pos rfl, ih h]
  | case8 => cases h
  | case9 depth escaped seen c cs hescaped hend hopen hclose hcontrol ih =>
    rw [List.cons_append, bareBody, if_neg hescaped, if_neg hend, if_neg hopen, if_neg hclose,
      if_neg hcontrol, ih h]

theorem destination?_append {limit limit' : Nat} {url : List Char}
    (h : destination? limit cs = some (url, rest)) (hlimit : limit ≤ limit')
    (hmore : ∃ c ∈ more.head?, isEol c = true) :
    destination? limit' (cs ++ more) = some (url, rest ++ more) := by
  unfold destination? at h ⊢
  cases cs with
  | nil => cases h
  | cons c cs =>
    dsimp only [List.cons_append] at h ⊢
    split at h
    · next hopen => rw [if_pos hopen, enclosedBody_append h]
    · next hopen =>
      split at h
      · cases h
      · next hcontrol =>
        rw [if_neg hopen, if_neg hcontrol]
        exact bareBody_append h hlimit hmore

theorem title?_append {title : List Char} (h : title? cs = some (title, rest)) (more : List Char) :
    title? (cs ++ more) = some (title, rest ++ more) := by
  unfold title? at h ⊢
  cases cs with
  | nil => cases h
  | cons c cs =>
    dsimp only [List.cons_append] at h ⊢
    split at h
    · next hquote => rw [if_pos hquote, titleBody_append h]
    · next hquote =>
      split at h
      · next hopen => rw [if_neg hquote, if_pos hopen, titleBody_append h]
      · cases h

theorem dropGap_append_of_ne_nil (h : dropGap cs ≠ []) (more : List Char) :
    dropGap (cs ++ more) = dropGap cs ++ more := by
  unfold dropGap at h ⊢
  rw [List.dropWhile_append, if_neg (by rwa [List.isEmpty_iff])]

theorem title?_dropGap_append {title : List Char} (h : title? (dropGap cs) = some (title, rest))
    (more : List Char) : title? (dropGap (cs ++ more)) = some (title, rest ++ more) := by
  have hne : dropGap cs ≠ [] := by
    intro hnil
    rw [hnil] at h
    cases h
  rw [dropGap_append_of_ne_nil hne, title?_append h]

theorem startsWithGap_append (h : startsWithGap cs = true) (more : List Char) :
    startsWithGap (cs ++ more) = true := by
  cases cs with
  | nil => cases h
  | cons c cs => exact h

theorem dropGap_append {gap : List Char} (h : ∀ c ∈ gap, isSpaceOrTab c = true ∨ isEol c = true)
    (cs : List Char) : dropGap (gap ++ cs) = dropGap cs :=
  List.dropWhile_append_of_pos fun c hc => Bool.or_eq_true_iff.2 (h c hc)

/-! What is left is an end of the text. -/

theorem suffix_labelBody {escaped : Bool} {seen label : List Char}
    (h : labelBody escaped seen cs = some (label, rest)) : rest <:+ cs := by
  fun_induction labelBody escaped seen cs with
  | case1 => cases h
  | case2 => cases h
  | case3 escaped seen c cs _ _ ih => exact (ih h).trans (List.suffix_cons _ _)
  | case4 => cases h
  | case5 => cases h
  | case6 =>
    cases h
    exact List.suffix_cons _ _
  | case7 escaped seen c cs _ _ _ _ ih => exact (ih h).trans (List.suffix_cons _ _)

theorem suffix_enclosedBody {escaped : Bool} {seen url : List Char}
    (h : enclosedBody escaped seen cs = some (url, rest)) : rest <:+ cs := by
  fun_induction enclosedBody escaped seen cs with
  | case1 => cases h
  | case2 => cases h
  | case3 escaped seen c cs _ _ ih => exact (ih h).trans (List.suffix_cons _ _)
  | case4 => cases h
  | case5 =>
    cases h
    exact List.suffix_cons _ _
  | case6 escaped seen c cs _ _ _ _ ih => exact (ih h).trans (List.suffix_cons _ _)

theorem suffix_bareBody {limit depth : Nat} {escaped : Bool} {seen url : List Char}
    (h : bareBody limit depth escaped seen cs = some (url, rest)) : rest <:+ cs := by
  fun_induction bareBody limit depth escaped seen cs with
  | case1 =>
    cases h
    exact List.suffix_rfl
  | case2 => cases h
  | case3 depth escaped seen c cs _ ih => exact (ih h).trans (List.suffix_cons _ _)
  | case4 =>
    cases h
    exact List.suffix_rfl
  | case5 depth escaped seen cs _ _ _ ih => exact (ih h).trans (List.suffix_cons _ _)
  | case6 => cases h
  | case7 depth escaped seen cs _ _ _ ih => exact (ih h).trans (List.suffix_cons _ _)
  | case8 => cases h
  | case9 depth escaped seen c cs _ _ _ _ _ ih => exact (ih h).trans (List.suffix_cons _ _)

theorem suffix_titleBody {close : Char} {escaped : Bool} {seen title : List Char}
    (h : titleBody close escaped seen cs = some (title, rest)) : rest <:+ cs := by
  fun_induction titleBody close escaped seen cs with
  | case1 => cases h
  | case2 escaped seen c cs _ ih => exact (ih h).trans (List.suffix_cons _ _)
  | case3 =>
    cases h
    exact List.suffix_cons _ _
  | case4 escaped seen c cs _ _ ih => exact (ih h).trans (List.suffix_cons _ _)

theorem suffix_title? {title : List Char} (h : title? cs = some (title, rest)) : rest <:+ cs := by
  unfold title? at h
  split at h
  · split at h
    · exact (suffix_titleBody h).trans (List.suffix_cons _ _)
    · split at h
      · exact (suffix_titleBody h).trans (List.suffix_cons _ _)
      · cases h
  · cases h

theorem suffix_destination? {limit : Nat} {url : List Char}
    (h : destination? limit cs = some (url, rest)) : rest <:+ cs := by
  unfold destination? at h
  split at h
  · cases h
  · split at h
    · exact (suffix_enclosedBody h).trans (List.suffix_cons _ _)
    · split at h
      · cases h
      · exact suffix_bareBody h

/-! A text and the lines behind it. -/

/-- What ends a line. -/
def IsLineEnd (eol : List Char) : Prop := eol = ['\n'] ∨ eol = ['\r'] ∨ eol = ['\r', '\n']

theorem IsLineEnd.begins {eol : List Char} (h : IsLineEnd eol) (more : List Char) :
    ∃ c ∈ (eol ++ more).head?, isEol c = true := by
  rcases h with rfl | rfl | rfl <;> exact ⟨_, rfl, rfl⟩

/-- What is left of a text is left with the further lines behind it, or these alone are left. -/
inductive LeftBehind (cs rest eol more : List Char) : List Char → Prop
  | rest (h : rest = [] → EndsLine cs) : LeftBehind cs rest eol more (rest ++ (eol ++ more))
  | more (h : rest = []) : LeftBehind cs rest eol more more

theorem blankLineEnd?_of_return (hcs : cs.head? ≠ some '\n') : blankLineEnd? ('\r' :: cs) = some cs := by
  cases cs with
  | nil => rfl
  | cons c cs =>
    have hc : c ≠ '\n' := fun heq => hcs (congrArg some heq)
    rw [blankLineEnd?, List.dropWhile_cons_of_neg (by decide)]
    split
    · next heq => cases heq
    · next heq =>
      cases heq
      exact absurd rfl hc
    · next heq =>
      cases heq
      rfl

theorem head_dropWhile (cs : List Char) : ∀ c ∈ (cs.dropWhile isSpaceOrTab).head?, isSpaceOrTab c = false := by
  intro c hc
  have hstop := List.head?_dropWhile_not isSpaceOrTab cs
  rw [Option.mem_def.1 hc] at hstop
  simpa using hstop

theorem blankLineEnd?_dropWhile (cs : List Char) :
    blankLineEnd? (cs.dropWhile isSpaceOrTab) = blankLineEnd? cs := by
  have hstay : (cs.dropWhile isSpaceOrTab).dropWhile isSpaceOrTab = cs.dropWhile isSpaceOrTab := by
    have hstop := head_dropWhile cs
    cases hw : cs.dropWhile isSpaceOrTab with
    | nil => rfl
    | cons c w =>
      rw [hw] at hstop
      exact List.dropWhile_cons_of_neg (by simp [hstop c rfl])
  rw [blankLineEnd?, blankLineEnd?, hstay]

theorem dropWhile_append_lineEnd {eol : List Char} (heol : IsLineEnd eol) (cs more : List Char) :
    (cs ++ (eol ++ more)).dropWhile isSpaceOrTab = cs.dropWhile isSpaceOrTab ++ (eol ++ more) := by
  rw [List.dropWhile_append]
  split
  · next hnone =>
    rw [List.isEmpty_iff.1 hnone]
    rcases heol with rfl | rfl | rfl <;> rfl
  · rfl

/-- The blanks and the line end that a blank line comes to its end with. -/
theorem exists_gap_of_blankLineEnd? (h : blankLineEnd? cs = some rest) :
    ∃ gap, cs = gap ++ rest ∧ (∀ c ∈ gap, isSpaceOrTab c = true ∨ isEol c = true) ∧
      (cs.dropWhile isSpaceOrTab ≠ [] → EndsLine gap) := by
  have hcut := (List.takeWhile_append_dropWhile (p := isSpaceOrTab) (l := cs)).symm
  have hblank : ∀ c ∈ cs.takeWhile isSpaceOrTab, isSpaceOrTab c = true := fun c hc =>
    List.mem_takeWhile_imp hc
  unfold blankLineEnd? at h
  generalize cs.takeWhile isSpaceOrTab = front at hcut hblank
  split at h
  · next hw =>
    cases h
    rw [hw] at hcut ⊢
    exact ⟨front, hcut, fun c hc => .inl (hblank c hc), fun hne => absurd rfl hne⟩
  · next more hw =>
    cases h
    rw [hw] at hcut ⊢
    refine ⟨front ++ ['\r', '\n'], by rw [hcut, List.append_assoc]; rfl, ?_, fun _ => ⟨'\n', ?_, rfl⟩⟩
    · intro c hc
      rcases List.mem_append.1 hc with hc | hc
      · exact .inl (hblank c hc)
      · rcases List.mem_cons.1 hc with rfl | hc
        · exact .inr rfl
        · cases List.mem_singleton.1 hc
          exact .inr rfl
    · rw [List.getLast?_append]
      rfl
  · next c more _ hw =>
    split at h
    · next heol =>
      cases h
      rw [hw] at hcut ⊢
      refine ⟨front ++ [c], by rw [hcut, List.append_assoc]; rfl, ?_, fun _ => ⟨c, ?_, heol⟩⟩
      · intro d hd
        rcases List.mem_append.1 hd with hd | hd
        · exact .inl (hblank d hd)
        · cases List.mem_singleton.1 hd
          exact .inr heol
      · rw [List.getLast?_append]
        rfl
    · cases h

theorem blankLineEnd?_append {eol : List Char} (heol : IsLineEnd eol) (hmore : more.head? ≠ some '\n')
    (h : blankLineEnd? cs = some rest) :
    ∃ rest', blankLineEnd? (cs ++ (eol ++ more)) = some rest' ∧ LeftBehind cs rest eol more rest' := by
  have hstop := head_dropWhile cs
  have hends (hne : cs.dropWhile isSpaceOrTab ≠ []) (hrest : rest = []) : EndsLine cs := by
    obtain ⟨gap, hcs, -, hgap⟩ := exists_gap_of_blankLineEnd? h
    rw [hcs, hrest, List.append_nil]
    exact hgap hne
  rw [← blankLineEnd?_dropWhile] at h
  rw [← blankLineEnd?_dropWhile, dropWhile_append_lineEnd heol]
  generalize cs.dropWhile isSpaceOrTab = w at h hstop hends
  cases w with
  | nil =>
    cases h
    refine ⟨more, ?_, .more rfl⟩
    rcases heol with rfl | rfl | rfl
    · rfl
    · exact blankLineEnd?_of_return hmore
    · rfl
  | cons c w =>
    have hc : isSpaceOrTab c = false := hstop c rfl
    replace hends := hends (List.cons_ne_nil c w)
    by_cases hreturn : c = '\r'
    · subst hreturn
      cases w with
      | nil =>
        cases h
        rcases heol with rfl | rfl | rfl
        · exact ⟨more, rfl, .more rfl⟩
        · exact ⟨['\r'] ++ more, blankLineEnd?_of_return nofun, .rest hends⟩
        · exact ⟨['\r', '\n'] ++ more, blankLineEnd?_of_return nofun, .rest hends⟩
      | cons d w =>
        by_cases hd : d = '\n'
        · subst hd
          cases h
          exact ⟨_, rfl, .rest hends⟩
        · have hne (w : List Char) : (d :: w).head? ≠ some '\n' := fun heq => hd (Option.some.inj heq)
          rw [blankLineEnd?_of_return (hne w)] at h
          cases h
          exact ⟨_, blankLineEnd?_of_return (hne _), .rest hends⟩
    · have hread (w : List Char) : blankLineEnd? (c :: w) = if isEol c then some w else none := by
        rw [blankLineEnd?, List.dropWhile_cons_of_neg (by simp [hc])]
        split
        · next heq => cases heq
        · next heq =>
          cases heq
          exact absurd rfl hreturn
        · next heq =>
          cases heq
          rfl
      rw [hread] at h
      rw [List.cons_append, hread]
      split at h
      · next hend =>
        cases h
        exact ⟨_, if_pos hend, .rest hends⟩
      · cases h

theorem suffix_blankLineEnd? (h : blankLineEnd? cs = some rest) : rest <:+ cs := by
  obtain ⟨gap, rfl, -⟩ := exists_gap_of_blankLineEnd? h
  exact List.suffix_append _ _

theorem EndsLine.of_suffix {u v : List Char} (h : EndsLine u) (hu : u <:+ v) : EndsLine v := by
  obtain ⟨c, hc, heol⟩ := h
  obtain ⟨front, rfl⟩ := hu
  refine ⟨c, ?_, heol⟩
  rw [List.getLast?_append, Option.mem_def.1 hc]
  rfl

theorem LeftBehind.of_suffix {front eol rest' : List Char} (h : LeftBehind front rest eol more rest')
    (hfront : front <:+ cs) : LeftBehind cs rest eol more rest' := by
  cases h with
  | rest h => exact .rest fun hnil => (h hnil).of_suffix hfront
  | more h => exact .more h

end Bindery.Markdown
