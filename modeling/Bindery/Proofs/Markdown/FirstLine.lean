import Bindery.Proofs.Markdown.Paragraphs

/-! The first line of a text that is not blank, and the blank lines in front of it. -/

namespace Bindery.Markdown

/-- A text begins with blank lines, and its first other line is `l`, which begins `d`. -/
structure FirstLine (cs gap d : List Char) (l : Line) : Prop where
  cut : cs = gap ++ d
  blank : ∀ c ∈ gap, isSpaceOrTab c = true ∨ isEol c = true
  ends : gap = [] ∨ EndsLine gap
  first : (splitLines [] d).head? = some l
  text : l.text.all isSpaceOrTab = false

theorem exists_line_of_ne_nil {line : List Char} (hline : line ≠ []) (cs : List Char) :
    ∃ l ∈ (splitLines line cs).head?, ∀ c ∈ line, c ∈ l.text := by
  have hmem (line : List Char) : ∀ c ∈ line, c ∈ line.reverse := fun c hc => List.mem_reverse.2 hc
  fun_induction splitLines line cs with
  | case1 line hnil => exact absurd (List.isEmpty_iff.1 hnil) hline
  | case2 line => exact ⟨_, rfl, hmem line⟩
  | case3 line => exact ⟨_, rfl, hmem line⟩
  | case4 line => exact ⟨_, rfl, hmem line⟩
  | case5 line => exact ⟨_, rfl, hmem line⟩
  | case6 line c cs _ _ _ ih =>
    obtain ⟨l, hl, hsub⟩ := ih (List.cons_ne_nil _ _)
    exact ⟨l, hl, fun d hd => hsub d (List.mem_cons_of_mem _ hd)⟩

theorem splitLines_blanks {u : List Char} (hu : ∀ c ∈ u, isSpaceOrTab c = true) (line v : List Char) :
    splitLines line (u ++ v) = splitLines (u.reverse ++ line) v := by
  induction u generalizing line with
  | nil => rfl
  | cons c u ih =>
    have hc : isEol c = false := by
      rcases isSpaceOrTab_iff.1 (hu c List.mem_cons_self) with rfl | rfl <;> rfl
    rw [List.cons_append, splitLines_of_not_isEol hc, ih fun d hd => hu d (List.mem_cons_of_mem _ hd),
      List.reverse_cons, List.append_assoc]
    rfl

/-- A text that begins with no blank line begins with a line that is not blank. -/
theorem exists_line_of_not_blank {cs : List Char} (h : blankLineEnd? cs = none) :
    ∃ l, (splitLines [] cs).head? = some l ∧ l.text.all isSpaceOrTab = false := by
  have hcut := (List.takeWhile_append_dropWhile (p := isSpaceOrTab) (l := cs)).symm
  have hblanks : ∀ c ∈ cs.takeWhile isSpaceOrTab, isSpaceOrTab c = true := fun c hc =>
    List.mem_takeWhile_imp hc
  have hstop := head_dropWhile cs
  rw [← blankLineEnd?_dropWhile] at h
  cases hw : cs.dropWhile isSpaceOrTab with
  | nil =>
    rw [hw] at h
    cases h
  | cons c rest =>
    rw [hw] at h hstop hcut
    have hc : isSpaceOrTab c = false := hstop c rfl
    have heol : isEol c = false := by
      rw [Bool.eq_false_iff]
      intro heol
      rw [isEol_iff] at heol
      rcases heol with rfl | rfl
      · cases h
      · by_cases hfeed : ∃ more, rest = '\n' :: more
        · obtain ⟨more, rfl⟩ := hfeed
          cases h
        · rw [blankLineEnd?_of_return] at h
          · cases h
          · intro hhead
            exact hfeed ((List.head?_eq_some_iff.1 hhead).imp fun _ heq => heq)
    rw [hcut, splitLines_blanks hblanks, splitLines_of_not_isEol heol]
    obtain ⟨l, hl, hsub⟩ := exists_line_of_ne_nil (List.cons_ne_nil c _) rest
    exact ⟨l, hl, List.all_eq_false.2 ⟨c, hsub c List.mem_cons_self, by simp [hc]⟩⟩

theorem exists_firstLine {cs : List Char} (h : ∃ c ∈ cs, isSpaceOrTab c = false ∧ isEol c = false) :
    ∃ gap d l, FirstLine cs gap d l := by
  -- Blank lines are cut off one by one, so the induction is on the length and not on the characters.
  induction hn : cs.length using Nat.strong_induction_on generalizing cs with
  | _ n ih =>
    cases hblank : blankLineEnd? cs with
    | none =>
      obtain ⟨l, hl, htext⟩ := exists_line_of_not_blank hblank
      exact ⟨[], cs, l, rfl, by simp, .inl rfl, hl, htext⟩
    | some rest =>
      obtain ⟨gap, rfl, hgap, hends⟩ := exists_gap_of_blankLineEnd? hblank
      obtain ⟨c, hc, hplain, heol⟩ := h
      have hend : EndsLine gap := hends fun hnil => by
        rw [List.dropWhile_eq_nil_iff.1 hnil c hc] at hplain
        cases hplain
      have hrest : c ∈ rest := by
        refine (List.mem_append.1 hc).resolve_left fun hmem => ?_
        rcases hgap c hmem with hblank | hblank
        · rw [hplain] at hblank
          cases hblank
        · rw [heol] at hblank
          cases hblank
      have hshort : rest.length < n := by
        have hne : gap ≠ [] := by
          rintro rfl
          obtain ⟨d, hd, -⟩ := hend
          cases hd
        rw [← hn, List.length_append]
        exact Nat.lt_add_of_pos_left (List.length_pos_iff.2 hne)
      obtain ⟨gap', d, l, hcut, hblank', hends', hfirst, htext⟩ :=
        ih rest.length hshort ⟨c, hrest, hplain, heol⟩ rfl
      refine ⟨gap ++ gap', d, l, ?_, ?_, .inr ?_, hfirst, htext⟩
      · rw [hcut, List.append_assoc]
      · intro c hc
        exact (List.mem_append.1 hc).elim (hgap c) (hblank' c)
      · rcases hends' with rfl | hends'
        · rwa [List.append_nil]
        · exact hends'.of_suffix (List.suffix_append _ _)

namespace FirstLine

variable {cs gap d : List Char} {l : Line}

theorem exists_lines (h : FirstLine cs gap d l) : ∃ ls, splitLines [] d = l :: ls :=
  (List.head?_eq_some_iff.1 h.first).imp fun _ heq => heq

theorem head_ne (h : FirstLine cs gap d l) : ∀ c ∈ d.head?, isEol c = false := by
  intro c hc
  obtain ⟨d', rfl⟩ := List.head?_eq_some_iff.1 hc
  rw [Bool.eq_false_iff]
  intro heol
  obtain ⟨eol, more, -, hcut⟩ := exists_splitLines_of_isEol heol [] d'
  have hfirst := h.first
  rw [hcut] at hfirst
  cases hfirst
  cases h.text

theorem cut_lines (h : FirstLine cs gap d l) {s : List Char} (hs : s = [] ∨ EndsLine s) :
    splitLines [] (s ++ d) = splitLines [] s ++ splitLines [] d :=
  splitLines_cut hs fun hhead => by
    have hc := h.head_ne '\n' hhead
    cases hc

theorem inked (h : FirstLine cs gap d l) : l.Inked := by
  obtain ⟨ls, hls⟩ := h.exists_lines
  refine ⟨h.text, @inner_of_splitLines [] d (by simp) l ?_⟩
  rw [hls]
  exact List.mem_cons_self

end FirstLine

end Bindery.Markdown
