import Bindery.Proofs.Asset.Substitution

/-! Relocation of a page part by part. Tokens are written in few characters, so a page may be cut at
any other character and its parts relocated apart. -/

namespace Bindery.Relocation

open Text Token

variable {plan : Relocation} {entries : List (Token × Asset)}

theorem substituteAll_cons (html : String) (e : Token × Asset) :
    plan.substituteAll html (e :: entries) =
      plan.substituteAll (e.1.substitute html (plan.pathOf e)) entries := rfl

theorem substituteAll_parted (horigin : ∀ e ∈ entries, ∃ origin, e.1 = ofOrigin origin) {c : Char}
    (hc : isTokenChar c = false) (u v : List Char) :
    (plan.substituteAll (String.ofList (u ++ c :: v)) entries).toList =
      (plan.substituteAll (String.ofList u) entries).toList ++
        c :: (plan.substituteAll (String.ofList v) entries).toList := by
  induction entries generalizing u v with
  | nil => simp [substituteAll]
  | cons e entries ih =>
    obtain ⟨origin, he⟩ := horigin e List.mem_cons_self
    have hsubstitute : ∀ cs : List Char, e.1.substitute (String.ofList cs) (plan.pathOf e) =
        String.ofList (replaceAll (ofOrigin origin).text.toList (plan.pathOf e).toList cs) := by
      intro cs
      unfold Token.substitute Bindery.substitute onChars
      rw [String.toList_ofList, he]
    rw [substituteAll_cons, substituteAll_cons, substituteAll_cons, hsubstitute, hsubstitute,
      hsubstitute, replaceAll_append_cons text_ofOrigin_ne_nil _
        ((tokenLike_ofOrigin origin).not_mem hc)]
    exact ih (fun e' he' => horigin e' (List.mem_cons_of_mem _ he')) _ _

theorem substituteAll_unmarked (horigin : ∀ e ∈ entries, ∃ origin, e.1 = ofOrigin origin)
    {cs : List Char} (h : ¬mark.toList <:+: cs) :
    plan.substituteAll (String.ofList cs) entries = String.ofList cs := by
  induction entries with
  | nil => rfl
  | cons e entries ih =>
    obtain ⟨origin, he⟩ := horigin e List.mem_cons_self
    have hsame : e.1.substitute (String.ofList cs) (plan.pathOf e) = String.ofList cs := by
      unfold Token.substitute Bindery.substitute onChars
      rw [String.toList_ofList, he,
        replaceAll_of_not_infix text_ofOrigin_ne_nil _ ((tokenLike_ofOrigin origin).absent h)]
    rw [substituteAll_cons, hsame]
    exact ih fun e' he' => horigin e' (List.mem_cons_of_mem _ he')

variable {s : Store}

/-- A page is relocated apart on both sides of a character that tokens are not written in. -/
theorem run_parted (plan : Relocation) (hs : s.Sound) (r : RegistryId) {c : Char}
    (hc : isTokenChar c = false) (u v : List Char) :
    (plan.run (String.ofList (u ++ c :: v)) s r).html.toList =
      (plan.run (String.ofList u) s r).html.toList ++
        c :: (plan.run (String.ofList v) s r).html.toList := by
  simp only [run_html_eq_substituteAll plan _ hs]
  exact substituteAll_parted (fun e he => hs.ofOrigin_of_mem_entries he) hc u v

/-- A part that holds no token's mark stays as it is. -/
theorem run_unmarked (plan : Relocation) (hs : s.Sound) (r : RegistryId) {cs : List Char}
    (h : ¬mark.toList <:+: cs) : (plan.run (String.ofList cs) s r).html.toList = cs := by
  rw [run_html_eq_substituteAll plan _ hs,
    substituteAll_unmarked (fun e he => hs.ofOrigin_of_mem_entries he) h, String.toList_ofList]

/-- A token that stands alone gives way to the path of its asset. -/
theorem run_token (plan : Relocation) (hs : s.Sound) {r : RegistryId} {e : Token × Asset}
    (he : e ∈ s.entries r) (hclean : ¬mark.toList <:+: (plan.pathOf e).toList) :
    (plan.run e.1.text s r).html = plan.pathOf e := by
  have hspaced : Spaced [] [(e, ([] : List Char))] := by
    refine ⟨fun gap hgap => ?_, by simp, by simp, by simp⟩
    have hnil : gap = [] := by simpa using hgap
    rw [hnil, List.infix_nil]
    decide
  have hrun : (plan.run (String.ofList (spell (·.1.text) [] [(e, [])])) s r).html =
      String.ofList (spell plan.pathOf [] [(e, [])]) :=
    hspaced.html_run hs r (by simpa using he) (by simpa using hclean)
  simpa [spell] using hrun

end Bindery.Relocation
