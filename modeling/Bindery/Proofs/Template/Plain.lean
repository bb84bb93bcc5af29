import Bindery.Proofs.Text.Trim
import Bindery.Template.Evaluation
import Mathlib.Data.List.Infix

/-! Texts as templates. A text in which no tag opens prints itself, without the line end it closes
with. One with tags of comments alone, or with blocks that do not close, prints less. -/

namespace Bindery

theorem Text.afterWord?_eq_some_iff {word cs rest : List Char} :
    afterWord? word cs = some rest ↔ cs = word ++ rest := by
  induction word generalizing cs with
  | nil => simp [afterWord?]
  | cons w word ih =>
    cases cs with
    | nil => simp [afterWord?]
    | cons c cs =>
      rw [afterWord?]
      split
      · next h => simp [ih, h]
      · next h => simp [Ne.symm h]

namespace Template

namespace Token

open Text

variable {m : Marks} {cs lead rest : List Char} {tag : Tag}

/-- The mark that opens a tag. -/
def Tag.opening (m : Marks) : Tag → List Char
  | .output => Marks.outputOpen
  | .block => m.blockOpen
  | .comment => m.commentOpen

/-- No tag opens in a text. -/
def Silent (m : Marks) (cs : List Char) : Prop := ∀ tag : Tag, ¬ tag.opening m <:+: cs

theorem eq_of_tagAt? (h : tagAt? m cs = some (tag, rest)) : cs = tag.opening m ++ rest := by
  unfold tagAt? at h
  split at h
  · next houtput =>
    cases h
    exact afterWord?_eq_some_iff.1 houtput
  · split at h
    · next hblock =>
      cases h
      exact afterWord?_eq_some_iff.1 hblock
    · obtain ⟨rest', hcomment, heq⟩ := Option.map_eq_some_iff.1 h
      cases heq
      exact afterWord?_eq_some_iff.1 hcomment

theorem tagAt?_isSome (tag : Tag) (rest : List Char) : (tagAt? m (tag.opening m ++ rest)).isSome := by
  have hsome : afterWord? (tag.opening m) (tag.opening m ++ rest) = some rest :=
    afterWord?_eq_some_iff.2 rfl
  unfold tagAt?
  split
  · rfl
  · next houtput =>
    split
    · rfl
    · next hblock =>
      cases tag with
      | output => exact absurd (houtput.symm.trans hsome) nofun
      | block => exact absurd (hblock.symm.trans hsome) nofun
      | comment =>
        rw [Option.isSome_map]
        exact Option.isSome_of_eq_some hsome

theorem eq_of_splitTag (h : splitTag m cs = (lead, some (tag, rest))) :
    cs = lead ++ (tag.opening m ++ rest) := by
  induction cs generalizing lead with
  | nil => cases h
  | cons c cs ih =>
    rw [splitTag] at h
    split at h
    · next found htag =>
      cases h
      exact eq_of_tagAt? htag
    · cases hsplit : splitTag m cs with
      | mk before found =>
        rw [hsplit] at h
        cases h
        rw [List.cons_append, ← ih hsplit]

theorem splitTag_silent (h : Silent m cs) : splitTag m cs = (cs, none) := by
  induction cs with
  | nil => rfl
  | cons c cs ih =>
    have hnone : tagAt? m (c :: cs) = none := by
      rw [Option.eq_none_iff_forall_ne_some]
      rintro ⟨tag, rest⟩ htag
      exact h tag ⟨[], rest, (eq_of_tagAt? htag).symm⟩
    have hrest := ih fun tag hpart => h tag (hpart.trans (List.suffix_cons c cs).isInfix)
    rw [splitTag, hnone, hrest]

theorem silent_of_splitTag (hm : ∀ tag : Tag, tag.opening m ≠ [])
    (h : splitTag m cs = (lead, none)) : lead = cs ∧ Silent m cs := by
  induction cs generalizing lead with
  | nil =>
    cases h
    exact ⟨rfl, fun tag hpart => hm tag (List.infix_nil.1 hpart)⟩
  | cons c cs ih =>
    rw [splitTag] at h
    split at h
    · cases h
    · next hnone =>
      cases hsplit : splitTag m cs with
      | mk before found =>
        rw [hsplit] at h
        cases h
        obtain ⟨rfl, hsilent⟩ := ih hsplit
        refine ⟨rfl, fun tag hpart => ?_⟩
        rcases List.infix_cons_iff.1 hpart with ⟨rest, hfront⟩ | hpart
        · have hsome := tagAt?_isSome (m := m) tag rest
          rw [hfront, hnone] at hsome
          cases hsome
        · exact hsilent tag hpart

/-! What a tag leaves of the text behind it. -/

theorem suffix_takeSign (cs : List Char) : (takeSign cs).2 <:+ cs := by
  unfold takeSign
  split
  · exact List.suffix_cons _ _
  · exact List.suffix_cons _ _
  · exact List.suffix_rfl

theorem suffix_quotedBody {quote : Char} {escaped : Bool} {body : List Char}
    (h : quotedBody quote escaped cs = some (body, rest)) : rest <:+ cs := by
  induction cs generalizing escaped body with
  | nil => cases h
  | cons c cs ih =>
    have hmore {escaped' : Bool} (hmap : (quotedBody quote escaped' cs).map
        (fun r => (c :: r.1, r.2)) = some (body, rest)) : rest <:+ c :: cs := by
      obtain ⟨⟨body', rest'⟩, hbody, heq⟩ := Option.map_eq_some_iff.1 hmap
      cases heq
      exact (ih hbody).trans (List.suffix_cons c cs)
    rw [quotedBody] at h
    split at h
    · exact hmore h
    · split at h
      · cases h
        exact List.suffix_cons _ _
      · exact hmore h

theorem suffix_number {n : Number} (h : number cs = .ok (n, rest)) : rest <:+ cs := by
  have hplain {more : List Char} (hmap : number.plain more = .ok (n, rest)) : rest <:+ more := by
    unfold number.plain at hmap
    dsimp only at hmap
    cases hnumber : numberOf 10 (more.take (numberLength 0 more)) with
    | error e =>
      rw [hnumber] at hmap
      cases hmap
    | ok x =>
      rw [hnumber] at hmap
      cases hmap
      exact List.drop_suffix _ _
  unfold number at h
  split at h
  · next c more =>
    split at h
    · next base hbase =>
      dsimp only at h
      cases hnumber : numberOf base
          (more.takeWhile fun d => d == '_' || (Text.hexDigit? d).any (· < base)) with
      | error e =>
        rw [hnumber] at h
        cases h
      | ok x =>
        rw [hnumber] at h
        cases h
        exact (List.drop_suffix _ _).trans ((List.suffix_cons _ _).trans (List.suffix_cons _ _))
    · exact hplain h
  · exact hplain h

theorem suffix_next {c : Char} {t : Token} (h : next c cs = .ok (t, rest)) : rest <:+ c :: cs := by
  have hcs : cs <:+ c :: cs := List.suffix_cons c cs
  unfold next at h
  split at h
  · cases h
    exact (List.drop_suffix _ _).trans hcs
  · split at h
    · cases hnumber : number (c :: cs) with
      | error e =>
        rw [hnumber] at h
        cases h
      | ok found =>
        rw [hnumber] at h
        cases h
        exact suffix_number hnumber
    · split at h
      · split at h
        · next body more hbody =>
          cases htext : unescape 0 body with
          | error e =>
            rw [htext] at h
            cases h
          | ok text =>
            rw [htext] at h
            cases h
            exact (suffix_quotedBody hbody).trans hcs
        · cases h
      · dsimp only at h
        split at h
        · cases h
          exact (List.drop_suffix _ _).trans hcs
        · split at h
          · cases h
            exact hcs
          · cases h

theorem infix_of_afterClose? {close : List Char} {trims : Bool}
    (h : afterClose? close cs = some (trims, rest)) : close <:+: cs := by
  unfold afterClose? at h
  split at h
  · next hplain =>
    rw [afterWord?_eq_some_iff.1 hplain]
    exact (List.prefix_append _ _).isInfix
  · split at h
    · next hsign =>
      rw [afterWord?_eq_some_iff.1 hsign]
      exact ⟨['-'], _, rfl⟩
    · obtain ⟨rest', hsign, -⟩ := Option.map_eq_some_iff.1 h
      rw [afterWord?_eq_some_iff.1 hsign]
      exact ⟨['+'], rest', rfl⟩

/-- A tag that is read closes. -/
theorem infix_of_inTag {close : List Char} {steps : Nat} {depth : Int} {ts : List Token}
    {trims : Bool} (h : inTag close steps depth cs = .ok (ts, trims, rest)) : close <:+: cs := by
  induction steps generalizing depth cs ts with
  | zero => cases h
  | succ steps ih =>
    cases cs with
    | nil => cases h
    | cons c cs =>
      rw [inTag] at h
      split at h
      · exact (ih h).trans (List.suffix_cons c cs).isInfix
      · split at h
        · next hclose =>
          split at hclose
          · exact infix_of_afterClose? hclose
          · cases hclose
        · cases hnext : next c cs with
          | error e =>
            rw [hnext] at h
            cases h
          | ok found =>
            obtain ⟨t, more⟩ := found
            rw [hnext] at h
            change (inTag close steps (deepen depth t) more >>= _) = _ at h
            cases htag : inTag close steps (deepen depth t) more with
            | error e =>
              rw [htag] at h
              cases h
            | ok found =>
              obtain ⟨ts', found⟩ := found
              rw [htag] at h
              cases h
              exact (ih htag).trans (suffix_next hnext).isInfix

theorem infix_of_afterWordBlock? {word : List Char} {trims : Bool}
    (h : afterWordBlock? m word cs = some (trims, rest)) : m.blockClose <:+: cs := by
  unfold afterWordBlock? at h
  obtain ⟨more, hword, hclose⟩ := Option.bind_eq_some_iff.1 h
  have hcs : more <:+ cs.dropWhile Text.isBlank := by
    rw [afterWord?_eq_some_iff.1 hword]
    exact List.suffix_append _ _
  exact (infix_of_afterClose? hclose).trans
    ((List.dropWhile_suffix _).trans (hcs.trans (List.dropWhile_suffix _))).isInfix

theorem suffix_afterComment? {trims : Bool} (h : afterComment? m cs = some (trims, rest)) :
    rest <:+ cs := by
  induction cs with
  | nil => cases h
  | cons c cs ih =>
    rw [afterComment?] at h
    split at h
    · next hclose =>
      cases h
      rw [afterWord?_eq_some_iff.1 hclose]
      exact List.suffix_append _ _
    · split at h
      · next hclose =>
        cases h
        rw [afterWord?_eq_some_iff.1 hclose]
        exact List.suffix_append _ _
      · exact (ih h).trans (List.suffix_cons c cs)

/-- Every tag of a text is a comment: it holds no output, and no block that closes. -/
structure Commented (m : Marks) (cs : List Char) : Prop where
  output : ¬ Marks.outputOpen <:+: cs
  block : ¬ (m.blockOpen <:+: cs ∧ m.blockClose <:+: cs)

theorem Commented.suffix (h : Commented m cs) (hrest : rest <:+ cs) : Commented m rest where
  output houtput := h.output (houtput.trans hrest.isInfix)
  block hblock := h.block ⟨hblock.1.trans hrest.isInfix, hblock.2.trans hrest.isInfix⟩

/-- Where every tag is a comment, the tokens are texts, and they are shorter by the comments. -/
theorem readFrom_commented (hm : ∀ tag : Tag, tag.opening m ≠ []) {steps : Nat} {trims : Bool}
    {ts : List Token} (hcs : Commented m cs) (h : readFrom m steps trims cs = .ok ts) :
    ∃ lines : List (List Char), ts = lines.map Token.text ∧ lines.flatten.length ≤ cs.length ∧
      (lines.flatten.length = cs.length → Silent m cs) := by
  induction steps generalizing cs trims ts with
  | zero => cases h
  | succ steps ih =>
    -- the text before the tag, as one more text if anything is left of it
    have hput (lead : List Char) (lines : List (List Char)) :
        ∃ lines' : List (List Char), (if lead.isEmpty then lines.map Token.text else
          .text lead :: lines.map Token.text) = lines'.map Token.text ∧
          lines'.flatten = lead ++ lines.flatten := by
      cases lead with
      | nil => exact ⟨lines, rfl, rfl⟩
      | cons c lead => exact ⟨(c :: lead) :: lines, rfl, rfl⟩
    rw [readFrom] at h
    cases hsplit : splitTag m cs with
    | mk lead found =>
      have hlead : (if trims then lead.dropWhile Text.isBlank else lead).length ≤ lead.length := by
        split
        · exact (List.dropWhile_suffix _).length_le
        · exact Nat.le_refl _
      rw [hsplit] at h
      dsimp only at h
      generalize (if trims then lead.dropWhile Text.isBlank else lead) = front at h hlead
      cases found with
      | none =>
        obtain ⟨rfl, hsilent⟩ := silent_of_splitTag hm hsplit
        obtain ⟨lines, hlines, hflatten⟩ := hput front []
        cases h
        refine ⟨lines, hlines, ?_, fun _ => hsilent⟩
        rw [hflatten, List.flatten_nil, List.append_nil]
        exact hlead
      | some found =>
        obtain ⟨tag, rest⟩ := found
        have heq := eq_of_splitTag hsplit
        have hrest : rest <:+ cs := by
          rw [heq, ← List.append_assoc]
          exact List.suffix_append _ _
        have hopening : tag.opening m <:+: cs := ⟨lead, rest, by rw [heq, List.append_assoc]⟩
        have hsign := suffix_takeSign rest
        dsimp only at h
        cases tag with
        | output => exact absurd hopening hcs.output
        | block =>
          -- a block that is read closes, and then the text has a block
          have hunclosed {more : List Char} (hmore : more <:+ (takeSign rest).2) :
              ¬ m.blockClose <:+: more := fun hclose =>
            hcs.block ⟨hopening, hclose.trans (hmore.trans (hsign.trans hrest)).isInfix⟩
          dsimp only at h
          split at h
          · next hraw => exact absurd (infix_of_afterWordBlock? hraw) (hunclosed List.suffix_rfl)
          · cases htag : inTag m.blockClose ((takeSign rest).2.length + 1) 0 (takeSign rest).2 with
            | error e =>
              rw [htag] at h
              cases h
            | ok found => exact absurd (infix_of_inTag htag) (hunclosed List.suffix_rfl)
        | comment =>
          dsimp only at h
          split at h
          · next trims' after hafter =>
            have hsuffix := (suffix_afterComment? hafter).trans hsign
            cases hread : readFrom m steps trims' after with
            | error e =>
              rw [hread] at h
              cases h
            | ok more =>
              obtain ⟨lines, rfl, hlength, -⟩ := ih (hcs.suffix (hsuffix.trans hrest)) hread
              rw [hread] at h
              obtain ⟨lines', hlines', hflatten⟩ :=
                hput (if (takeSign rest).1 then Text.trimEnd front else front) lines
              cases h
              have hfront : (if (takeSign rest).1 then Text.trimEnd front else front).length
                  ≤ lead.length := by
                split
                · exact (Text.length_trimEnd_le front).trans hlead
                · exact hlead
              have hcomment := List.length_pos_iff.2 (hm .comment)
              have hshorter : lines'.flatten.length < cs.length := by
                rw [hflatten, heq]
                simp only [List.length_append]
                have := hsuffix.length_le
                omega
              exact ⟨lines', hlines', hshorter.le, fun hlength' => absurd hlength' hshorter.ne⟩
          · cases h

end Token

/-! Templates of text alone. -/

theorem Statement.readAll_texts (lines : List (List Char)) {steps : Nat} (h : lines.length < steps) :
    readAll steps [] (lines.map Token.text) = some (lines.map Statement.text, []) := by
  induction lines generalizing steps with
  | nil =>
    obtain ⟨steps, rfl⟩ := Nat.exists_eq_succ_of_ne_zero (Nat.ne_of_gt h)
    rfl
  | cons line lines ih =>
    obtain ⟨steps, rfl⟩ := Nat.exists_eq_succ_of_ne_zero (Nat.ne_of_gt (Nat.zero_lt_of_lt h))
    rw [List.map_cons, readAll, ih (Nat.lt_of_succ_lt_succ h)]
    rfl

theorem runAll_texts (s : Scope) (lines : List (List Char)) :
    runAll s (lines.map Statement.text) = .ok (lines.flatten, s) := by
  induction lines with
  | nil => rfl
  | cons line lines ih =>
    rw [List.map_cons, runAll, run]
    show (runAll s (lines.map Statement.text) >>= fun r => pure (line ++ r.1, r.2)) = _
    rw [ih]
    rfl

theorem render_eq {m : Marks} {source : List Char} {ts : List Token} {statements : List Statement}
    (values : List (String × Value)) (hread : Token.read m source = .ok ts)
    (hstatements : Statement.ofTokens ts = .ok statements) : render m source values =
      (runAll { frames := [values], escaping := false } statements).map Prod.fst := by
  rw [render, hread]
  show (Statement.ofTokens ts >>= fun statements =>
    runAll { frames := [values], escaping := false } statements >>= fun r => pure r.1) = _
  rw [hstatements]
  cases hrun : runAll { frames := [values], escaping := false } statements with
  | error e => exact congrArg (· >>= fun r => pure r.1) hrun
  | ok r => exact congrArg (· >>= fun r => pure r.1) hrun

theorem render_texts {m : Marks} {source : List Char} {lines : List (List Char)}
    (values : List (String × Value)) (h : Token.read m source = .ok (lines.map Token.text)) :
    render m source values = .ok lines.flatten := by
  have hstatements : Statement.ofTokens (lines.map Token.text) = .ok (lines.map Statement.text) := by
    rw [Statement.ofTokens, Statement.readAll_texts lines (by rw [List.length_map]; omega)]
  rw [render_eq values h hstatements, runAll_texts]
  rfl

theorem render_silent {m : Marks} {source : List Char} (values : List (String × Value))
    (h : Token.Silent m (Token.dropFinalEol source)) :
    render m source values = .ok (Token.dropFinalEol source) := by
  have hread : Token.read m source = .ok ((if (Token.dropFinalEol source).isEmpty then []
      else [Token.dropFinalEol source]).map Token.text) := by
    rw [Token.read, Token.readFrom, Token.splitTag_silent h]
    simp only [Bool.false_eq_true, if_false]
    cases (Token.dropFinalEol source).isEmpty <;> rfl
  rw [render_texts values hread]
  split
  · next hempty => rw [List.isEmpty_iff.1 hempty, List.flatten_nil]
  · simp

/-- Among texts that hold comments at most, those that print themselves are those without. -/
theorem render_eq_source_iff {m : Marks} (hm : ∀ tag : Token.Tag, tag.opening m ≠ [])
    {source : List Char} (values : List (String × Value))
    (hcommented : Token.Commented m (Token.dropFinalEol source)) :
    render m source values = .ok (Token.dropFinalEol source) ↔
      Token.Silent m (Token.dropFinalEol source) := by
  refine ⟨fun h => ?_, render_silent values⟩
  cases hread : Token.read m source with
  | error e =>
    rw [render, hread] at h
    cases h
  | ok ts =>
    obtain ⟨lines, rfl, -, hsilent⟩ := Token.readFrom_commented hm hcommented hread
    rw [render_texts values hread] at h
    exact hsilent (congrArg List.length (Except.ok.inj h))

/-- The line end that a text closes with. -/
inductive FinalEol : List Char → List Char → Prop
  | none {cs : List Char} (h : cs.getLast? ≠ some '\n') : FinalEol cs cs
  | feed {cs : List Char} (h : cs.getLast? ≠ some '\r') : FinalEol cs (cs ++ ['\n'])
  | both {cs : List Char} : FinalEol cs (cs ++ ['\r', '\n'])

theorem finalEol_dropFinalEol (cs : List Char) : FinalEol (Token.dropFinalEol cs) cs := by
  unfold Token.dropFinalEol
  split
  · next rest hrest =>
    have hcs : cs = rest.reverse ++ ['\r', '\n'] := by
      rw [← List.reverse_reverse cs, hrest]
      simp
    rw [hcs]
    exact .both
  · next rest hother hrest =>
    have hcs : cs = rest.reverse ++ ['\n'] := by
      rw [← List.reverse_reverse cs, hrest]
      simp
    rw [hcs]
    refine .feed fun hlast => ?_
    rw [List.getLast?_reverse] at hlast
    obtain ⟨more, rfl⟩ := List.head?_eq_some_iff.1 hlast
    exact hother more rfl
  · next hboth hfeed =>
    refine .none fun hlast => ?_
    rw [← List.head?_reverse] at hlast
    obtain ⟨more, hmore⟩ := List.head?_eq_some_iff.1 hlast
    exact hfeed more hmore

theorem FinalEol.eq {u cs : List Char} (h : FinalEol u cs) : u = Token.dropFinalEol cs := by
  unfold Token.dropFinalEol
  cases h with
  | none h =>
    rw [← List.head?_reverse] at h
    split
    · next hcs => exact absurd (congrArg List.head? hcs) h
    · next hcs => exact absurd (congrArg List.head? hcs) h
    · rfl
  | feed h =>
    rw [← List.head?_reverse] at h
    simp only [List.reverse_append, List.reverse_cons, List.reverse_nil, List.nil_append,
      List.singleton_append]
    split
    · next hu => exact absurd (congrArg List.head? (List.cons.inj hu).2) h
    · next hu => rw [← (List.cons.inj hu).2, List.reverse_reverse]
    · next hfeed => exact absurd rfl (hfeed _)
  | both => simp

theorem infix_append_iff {w v : List Char} (hw : w ≠ []) (hv : ∀ c ∈ v, c ∉ w) (u : List Char) :
    w <:+: u ++ v ↔ w <:+: u := by
  induction v using List.reverseRecOn with
  | nil => rw [List.append_nil]
  | append_singleton v c ih =>
    rw [← List.append_assoc, List.infix_concat_iff, List.suffix_concat_iff,
      ih fun d hd => hv d (List.mem_append_left _ hd)]
    refine or_iff_right fun hsuffix => ?_
    rcases hsuffix with hnil | ⟨t, rfl, -⟩
    · exact hw hnil
    · exact hv c (by simp) (by simp)

/-- A word that holds no line end stands in a text with and without its final line end. -/
theorem FinalEol.infix_iff {u cs w : List Char} (h : FinalEol u cs) (hw : w ≠ [])
    (heol : '\n' ∉ w ∧ '\r' ∉ w) : w <:+: u ↔ w <:+: cs := by
  cases h with
  | none => exact Iff.rfl
  | feed =>
    refine (infix_append_iff hw (fun c hc => ?_) u).symm
    cases List.mem_singleton.1 hc
    exact heol.1
  | both =>
    refine (infix_append_iff hw (fun c hc => ?_) u).symm
    rcases List.mem_cons.1 hc with rfl | hc
    · exact heol.2
    · cases List.mem_singleton.1 hc
      exact heol.1

/-- Marks that are not empty and hold no line end. -/
def Marks.Inline (m : Marks) : Prop :=
  ∀ tag : Token.Tag, tag.opening m ≠ [] ∧ '\n' ∉ tag.opening m ∧ '\r' ∉ tag.opening m

theorem FinalEol.silent_iff {m : Marks} (hm : m.Inline) {u cs : List Char} (h : FinalEol u cs) :
    Token.Silent m u ↔ Token.Silent m cs :=
  forall_congr' fun tag => (h.infix_iff (hm tag).1 (hm tag).2).not

end Template
end Bindery
