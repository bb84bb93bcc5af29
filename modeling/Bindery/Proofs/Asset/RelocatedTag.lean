import Bindery.Proofs.Asset.Descent
import Bindery.Proofs.Asset.Parting
import Bindery.Proofs.Html.Flow
import Bindery.Proofs.Html.SelectorText

/-! The start tag of a link or an image once its page is relocated. The tag is written with a token,
which reads as it is written; the path that takes the token's place is not escaped. So the tag reads
with the path as its reference exactly when the path reads as it is written. -/

namespace Bindery

open Html (readAttributes readStartTag PlainName escapeAttr StartTag)
open Token (mark isTokenChar)

/-- What refers to a file: a link around HTML, or an image with a text in its place. -/
inductive Referrer where
  | anchor (html : List Char)
  | picture (alt : List Char)

namespace Referrer

def name : Referrer → List Char
  | .anchor _ => "a".toList
  | .picture _ => "img".toList

/-- The attribute that holds the reference. -/
def key : Referrer → List Char
  | .anchor _ => "href".toList
  | .picture _ => "src".toList

/-- What the productions write for it. -/
def produce {m : Type → Type} (p : Productions m) (href : List Char) (title : Option (List Char)) :
    Referrer → m (List Char)
  | .anchor html => p.link href title html
  | .picture alt => p.image href title alt

def write (options : Markdown.Options) (extra href : List Char) (title : Option (List Char)) :
    Referrer → List Char
  | .anchor html => Html.anchorTag extra href title html
  | .picture alt => Html.imageTag extra href title alt options.xhtml

/-- The tag up to the quote before the reference. -/
def front (extra : List Char) (x : Referrer) : List Char :=
  '<' :: x.name ++ extra ++ ' ' :: x.key ++ ['=']

/-- The tag from behind the reference up to its end. -/
def back (options : Markdown.Options) (title : Option (List Char)) : Referrer → List Char
  | .anchor _ => Html.titleAttribute title
  | .picture alt => Html.writeAttr "alt".toList alt ++ Html.titleAttribute title ++
      if options.xhtml then " /".toList else []

/-- What follows the start tag. -/
def tail : Referrer → List Char
  | .anchor html => html ++ "</a>".toList
  | .picture _ => []

/-- The attributes behind the reference. -/
def others (title : Option (List Char)) (x : Referrer) : List (List Char × List Char) :=
  (match x with
    | .anchor _ => []
    | .picture alt => [("alt".toList, escapeAttr alt)]) ++
  (title.map fun t => ("title".toList, escapeAttr t)).toList

/-- The element with a text where the reference stands, as it is. -/
def around (options : Markdown.Options) (extra : List Char) (title : Option (List Char))
    (x : Referrer) (value : List Char) : List Char :=
  x.front extra ++ '\x22' :: (value ++ '\x22' :: (x.back options title ++ '>' :: x.tail))

theorem write_eq_around (options : Markdown.Options) (extra href : List Char)
    (title : Option (List Char)) (x : Referrer) :
    x.write options extra href title = x.around options extra title (escapeAttr href) := by
  -- The equations of the tags are slow to come by, for their texts; `delta` does without them.
  cases x with
  | anchor html =>
    delta write Html.anchorTag
    simp [around, front, back, tail, name, key, Html.writeAttr]
  | picture alt =>
    delta write Html.imageTag
    cases hx : options.xhtml <;>
      simp [around, front, back, tail, name, key, Html.writeAttr, hx]

theorem escapeAttr_token {value : List Char} (h : ∀ c ∈ value, isTokenChar c = true) :
    escapeAttr value = value := by
  have hchar : ∀ c ∈ value, Html.escapeAttrChar c = [c] := by
    intro c hc
    have htoken := h c hc
    unfold Html.escapeAttrChar Html.escapeTextChar
    split
    · exact absurd htoken (by decide)
    · split
      · exact absurd htoken (by decide)
      · exact absurd htoken (by decide)
      · exact absurd htoken (by decide)
      · rfl
  calc escapeAttr value = value.flatMap fun c => [c] := List.flatMap_congr hchar
    _ = value := by simp

/-- Attributes that stand whole behind a tag's name. -/
structure Whole (extra : List Char) (pairs : List (List Char × List Char)) : Prop where
  head : ∀ c ∈ extra.head?, c = ' '
  reads : ∀ {c : Char}, Html.isTagSpace c = false → c ≠ '=' → ∀ rest,
    readAttributes (extra ++ ' ' :: c :: rest) =
      (readAttributes (c :: rest)).map fun found => (pairs ++ found.1, found.2)

theorem head_append {u v : List Char} (hu : ∀ c ∈ u.head?, c = ' ') (hv : ∀ c ∈ v.head?, c = ' ') :
    ∀ c ∈ (u ++ v).head?, c = ' ' := by
  cases u with
  | nil => exact hv
  | cons d u => exact hu

theorem head_flatMap {α : Type} {f : α → List Char} (hf : ∀ a, ∀ c ∈ (f a).head?, c = ' ')
    (as : List α) : ∀ c ∈ (as.flatMap f).head?, c = ' ' := by
  induction as with
  | nil => simp
  | cons a as ih =>
    rw [List.flatMap_cons]
    exact head_append (hf a) ih

theorem head_quoted (name value : List Char) : ∀ c ∈ (Selector.quoted name value).head?, c = ' ' := by
  rintro c ⟨⟩
  rfl

theorem whole_nil : Whole [] [] where
  head := by simp
  reads _ _ rest := by simp [Html.readAttributes_space]

theorem whole_attrText {s : Selector} (h : s.QuoteFree) (hnames : ∀ a ∈ s.attrs, PlainName a.1) :
    Whole s.attrText s.pairs where
  head := by
    unfold Selector.attrText
    refine head_append (head_append ?_ ?_) (head_flatMap ?_ _)
    · split
      · exact head_quoted _ _
      · simp
    · split
      · simp
      · exact head_quoted _ _
    · rintro ⟨name, value⟩
      cases value with
      | none => rintro c ⟨⟩; rfl
      | some value => exact head_quoted name value
  reads hspace hequals rest := Selector.readAttributes_attrText h hnames hspace hequals rest

theorem readAttributes_writeAttr {name : List Char} (h : PlainName name) (value rest : List Char) :
    readAttributes (Html.writeAttr name value ++ rest) =
      (readAttributes rest).map fun found => ((name, escapeAttr value) :: found.1, found.2) := by
  have htext : Html.writeAttr name value ++ rest =
      ' ' :: (name ++ '=' :: '\x22' :: (escapeAttr value ++ '\x22' :: rest)) := by
    simp [Html.writeAttr]
  rw [htext, Html.readAttributes_space,
    Html.readAttributes_quoted h (Html.quote_not_mem_escapeAttr value)]

theorem readAttributes_back (options : Markdown.Options) (title : Option (List Char))
    (x : Referrer) (rest : List Char) :
    readAttributes (x.back options title ++ '>' :: rest) = some (x.others title, rest) := by
  have htitle : ∀ rest, readAttributes (Html.titleAttribute title ++ rest) =
      (readAttributes rest).map fun found =>
        ((title.map fun t => ("title".toList, escapeAttr t)).toList ++ found.1, found.2) := by
    intro rest
    cases title with
    | none => simp [Html.titleAttribute]
    | some t =>
      have htitle : PlainName "title".toList := ⟨by simp, by simp [Html.endsName, Html.isTagSpace]⟩
      exact readAttributes_writeAttr htitle t rest
  cases x with
  | anchor html => simp [back, others, htitle, Html.readAttributes_close]
  | picture alt =>
    have halt : ∀ rest, readAttributes (Html.writeAttr "alt".toList alt ++ rest) = _ :=
      readAttributes_writeAttr ⟨by simp, by simp [Html.endsName, Html.isTagSpace]⟩ alt
    have hend : readAttributes ((if options.xhtml then " /".toList else []) ++ '>' :: rest) =
        some ([], rest) := by
      split
      · exact (Html.readAttributes_space _).trans
          ((Html.readAttributes_slash _).trans Html.readAttributes_close)
      · exact Html.readAttributes_close
    simp only [back, List.append_assoc, halt, htitle, hend]
    simp [others]

theorem plainName_key (x : Referrer) : PlainName x.key := by
  have hhref : PlainName "href".toList := ⟨by simp, by simp [Html.endsName, Html.isTagSpace]⟩
  have hsrc : PlainName "src".toList := ⟨by simp, by simp [Html.endsName, Html.isTagSpace]⟩
  cases x
  · exact hhref
  · exact hsrc

/-- A reference is read up to the first quote. -/
theorem readStartTag_front {extra : List Char} {pairs : List (List Char × List Char)}
    (h : Whole extra pairs) (x : Referrer) {value : List Char} (hvalue : '\x22' ∉ value)
    (rest : List Char) :
    readStartTag (x.front extra ++ '\x22' :: (value ++ '\x22' :: rest)) =
      (readAttributes rest).map fun found =>
        (⟨x.name, pairs ++ (x.key, value) :: found.1⟩, found.2) := by
  have hkey : PlainName x.key := x.plainName_key
  have hattrs : readAttributes (extra ++ ' ' :: (x.key ++ '=' :: '\x22' :: (value ++ '\x22' :: rest))) =
      (readAttributes rest).map fun found => (pairs ++ (x.key, value) :: found.1, found.2) := by
    obtain ⟨c, key, hc⟩ := List.exists_cons_of_ne_nil hkey.ne_nil
    have hplain := Html.endsName_eq_false.1 (hkey.plain c (by rw [hc]; exact List.mem_cons_self))
    have hquoted := Html.readAttributes_quoted hkey hvalue rest
    rw [hc, List.cons_append] at hquoted ⊢
    rw [h.reads hplain.1 hplain.2.2.2, hquoted]
    simp [Function.comp_def]
  obtain ⟨d, name, hname, halpha, hstays⟩ : ∃ d name, x.name = d :: name ∧ d.isAlpha ∧
      ∀ c ∈ name, (!(Html.isTagSpace c || c == '/' || c == '>')) = true := by
    cases x
    · exact ⟨'a', [], rfl, by decide, by simp⟩
    · exact ⟨'i', "mg".toList, rfl, by decide, by simp [Html.isTagSpace]⟩
  have hstop : ∀ c ∈ (extra ++ ' ' ::
      (x.key ++ '=' :: '\x22' :: (value ++ '\x22' :: rest))).head?,
      (!(Html.isTagSpace c || c == '/' || c == '>')) = false := by
    intro c hc
    rw [head_append h.head (by rintro c ⟨⟩; rfl) c hc]
    rfl
  have htake := Text.takeWhile_append_of_stop hstays hstop
  have hdrop := Text.dropWhile_append_of_stop hstays hstop
  have htext : x.front extra ++ '\x22' :: (value ++ '\x22' :: rest) =
      '<' :: d :: (name ++ (extra ++ ' ' ::
        (x.key ++ '=' :: '\x22' :: (value ++ '\x22' :: rest)))) := by
    simp [front, hname]
  rw [htext, readStartTag, if_pos halpha]
  simp only [htake, hdrop, hattrs, hname]
  simp [Function.comp_def]

end Referrer

namespace Rendering

open Markdown (Node)

/-- A link or an image as the walk meets it: how its content comes about, and where it leads. -/
def referrer? {m : Type → Type} [Monad m] (p : Productions m) (s : Scene) :
    Node → Option (m Referrer × Destination)
  | .link url title children => some (Referrer.anchor <$> nodes p s children, ⟨url, title⟩)
  | .linkReference identifier _ _ children =>
    (s.destination? identifier).map (Referrer.anchor <$> nodes p s children, ·)
  | .image url title alt => some (pure (.picture alt.toList), ⟨url, title⟩)
  | .imageReference identifier _ _ alt =>
    (s.destination? identifier).map (pure (.picture alt.toList), ·)
  | _ => none

theorem node_referrer {m : Type → Type} [Monad m] [LawfulMonad m] {p : Productions m} {s : Scene}
    {n : Node} {content : m Referrer} {d : Destination} (h : referrer? p s n = some (content, d)) :
    node p s n = content >>= (·.produce p d.url.toList (d.title.map String.toList)) := by
  unfold referrer? at h
  split at h
  · cases h
    simp [node, Referrer.produce]
  · obtain ⟨d', hd, heq⟩ := Option.map_eq_some_iff.1 h
    cases heq
    simp [node, hd, Referrer.produce]
  · cases h
    simp [node, Referrer.produce]
  · obtain ⟨d', hd, heq⟩ := Option.map_eq_some_iff.1 h
    cases heq
    simp [node, hd, Referrer.produce]
  · cases h

/-- The content of a link registers references in order and does nothing else to the registries. -/
theorem scripted_referrer {options : Markdown.Options} {r : RegistryId} {base : Path} {s : Scene}
    {n : Node} {content : Productions.Linking Referrer} {d : Destination}
    (h : referrer? (Productions.linking options r base) s n = some (content, d)) :
    ∃ x : RegistryId → Productions.Linking Referrer, x r = content ∧
      Productions.Scripted base Referrer x := by
  have hnodes : ∀ children, Productions.Scripted base Referrer fun r =>
      Referrer.anchor <$> nodes (Productions.linking options r base) s children := by
    intro children
    have hbind : Productions.Scripted base Referrer fun r => do
        let html ← nodes (Productions.linking options r base) s children
        return Referrer.anchor html :=
      Productions.sequential_scripted.bind
        (nodes_all Productions.sequential_scripted (Productions.all_linking options) s children)
        fun html => Productions.sequential_scripted.pure (Referrer.anchor html)
    simpa using hbind
  have hpure : ∀ x : Referrer, Productions.Scripted base Referrer fun _ => pure x :=
    fun x => Productions.sequential_scripted.pure x
  unfold referrer? at h
  split at h
  · cases h
    exact ⟨_, rfl, hnodes _⟩
  · obtain ⟨d', hd, heq⟩ := Option.map_eq_some_iff.1 h
    cases heq
    exact ⟨_, rfl, hnodes _⟩
  · cases h
    exact ⟨_, rfl, hpure _⟩
  · obtain ⟨d', hd, heq⟩ := Option.map_eq_some_iff.1 h
    cases heq
    exact ⟨_, rfl, hpure _⟩
  · cases h

end Rendering

namespace Store

theorem exists_entry_register {s : Store} (hs : s.Reachable) {r : RegistryId}
    (hr : r < s.registries.size) (origin : String) :
    ∃ a, (Token.ofOrigin origin, a) ∈ (s.register r origin none).1.entries r := by
  have hsound := (hs.register r origin none hr).sound
  obtain ⟨c, hslot⟩ : ∃ c, (Token.ofOrigin origin, c) ∈ (s.register r origin none).1.snapshot r := by
    obtain ⟨s₀, c, heq, hregistries, -⟩ := register_eq_insert s r origin none
    have hr₀ : r < s₀.registries.size := hregistries ▸ hr
    refine ⟨c, ?_⟩
    rw [heq, snapshot_insert_of_mem (self_mem_chain hr₀) hr₀]
    exact mem_of_lookup (by rw [lookup_putSlot, if_pos rfl])
  have hcell := hsound.cell_lt r _ hslot
  rw [← asset?_isSome, Option.isSome_iff_exists] at hcell
  obtain ⟨a, ha⟩ := hcell
  refine ⟨a, List.mem_filterMap.2 ⟨_, hslot, ?_⟩⟩
  rw [ha]
  rfl

end Store

namespace Productions

/-- The title is no selector, or one whose attribute names are names. -/
def ReadableTitle (title : Option (List Char)) : Prop :=
  ∀ t ∈ title, Selector.opens t = true → ∀ s, Selector.parse t = .ok s →
    ∀ a ∈ s.attrs, PlainName a.1

theorem exists_whole {title shown : Option (List Char)} {extra : List Char}
    (h : titleAttrs title = .ok (extra, shown)) (hreadable : ReadableTitle title) :
    ∃ pairs, Referrer.Whole extra pairs := by
  unfold titleAttrs at h
  split at h
  · split at h
    · rename_i t hopens
      split at h
      · rename_i s hparse
        cases h
        exact ⟨s.pairs, Referrer.whole_attrText (Selector.quoteFree_of_parse hparse)
          (hreadable t rfl hopens s hparse)⟩
      · cases h
    · cases h
      exact ⟨[], Referrer.whole_nil⟩
  · cases h
    exact ⟨[], Referrer.whole_nil⟩

theorem run_produce {options : Markdown.Options} {r : RegistryId} {base : Path}
    {href target extra : List Char} {title shown : Option (List Char)}
    (hlocal : Html.Reference.localTarget href = some target)
    (htitle : titleAttrs title = .ok (extra, shown)) (x : Referrer) (recording : Recording) :
    let origin := (base.resolve ⟨String.ofList target⟩).text
    (x.produce (linking options r base) href title).run.run recording =
      (.ok (x.write options extra (Token.ofOrigin origin).text.toList shown),
        ⟨(recording.store.register r origin none).1, recording.outline⟩) := by
  intro origin
  have htoken : (recording.store.register r origin none).2.token = Token.ofOrigin origin :=
    Store.token_register recording.store r origin none
  have hreference : reference r base href = linkFile r base target := by rw [reference, hlocal]
  rw [← htoken]
  cases x with
  | anchor html =>
    simp only [Referrer.produce, linking, hreference, htitle]
    rfl
  | picture alt =>
    simp only [Referrer.produce, linking, hreference, htitle]
    rfl

end Productions

namespace Relocation

open Productions (linking titleAttrs ReadableTitle Recording Linking)
open Html (ReferenceReader decode)

/-- Relocation puts the path of an asset where its token stands in a tag, and leaves the tag around
it as it is. -/
theorem run_around (plan : Relocation) {s : Store} (hs : s.Sound) {r : RegistryId}
    {e : Token × Asset} (he : e ∈ s.entries r) {options : Markdown.Options} {extra : List Char}
    {shown : Option (List Char)} {x : Referrer} (hfront : ¬mark.toList <:+: x.front extra)
    (hback : ¬mark.toList <:+: x.back options shown)
    (hclean : ¬mark.toList <:+: (plan.pathOf e).toList) :
    ∃ tail, (plan.run (String.ofList (x.around options extra shown e.1.text.toList)) s r).html.toList =
      x.front extra ++ '\x22' :: ((plan.pathOf e).toList ++
        '\x22' :: (x.back options shown ++ '>' :: tail)) := by
  refine ⟨(plan.run (String.ofList x.tail) s r).html.toList, ?_⟩
  have hquote : isTokenChar '\x22' = false := by decide
  have hclose : isTokenChar '>' = false := by decide
  have htoken : (plan.run (String.ofList e.1.text.toList) s r).html.toList =
      (plan.pathOf e).toList := by
    rw [String.ofList_toList, run_token plan hs he hclean]
  rw [Referrer.around, run_parted plan hs r hquote, run_parted plan hs r hquote,
    run_parted plan hs r hclose, run_unmarked plan hs r hfront, run_unmarked plan hs r hback, htoken]

variable {options : Markdown.Options} {scene : Rendering.Scene} {n : Markdown.Node}
  {r : RegistryId} {base : Path} {content : Linking Referrer} {d : Rendering.Destination}
  {recording recording' : Recording} {x : Referrer} {target extra : List Char}
  {shown : Option (List Char)}

/-- A link or an image with a local destination is written as an element whose reference is a token.
After relocation its start tag reads with the same attributes, and its reference stands for the
asset's path, exactly when no double quote is in the path and the path stands for itself as a value:
the path is written into the attribute as it is. -/
theorem run_tag_reads_iff
    (hn : Rendering.referrer? (linking options r base) scene n = some (content, d))
    (hcontent : content.run.run recording = (.ok x, recording'))
    (hlocal : Html.Reference.localTarget d.url.toList = some target)
    (htitle : titleAttrs (d.title.map String.toList) = .ok (extra, shown))
    (hreadable : ReadableTitle (d.title.map String.toList))
    (hreach : recording.store.Reachable) (hr : r < recording.store.registries.size)
    (hfront : ¬mark.toList <:+: x.front extra) (hback : ¬mark.toList <:+: x.back options shown)
    {reader : ReferenceReader} (hreader : reader.Short) :
    let origin := (base.resolve ⟨String.ofList target⟩).text
    let token := Token.ofOrigin origin
    let html := x.write options extra token.text.toList shown
    let store := (recording'.store.register r origin none).1
    (Rendering.node (linking options r base) scene n).run.run recording =
      (.ok html, ⟨store, recording'.outline⟩) ∧
    ∃ a attrs others, (token, a) ∈ store.entries r ∧
      (∃ rest, readStartTag html =
        some (⟨x.name, attrs ++ (x.key, token.text.toList) :: others⟩, rest)) ∧
      ∀ plan : Relocation, ¬mark.toList <:+: (plan.pathOf (token, a)).toList →
        let path := (plan.pathOf (token, a)).toList
        let page := (plan.run (String.ofList html) store r).html.toList
        (∃ value rest, readStartTag page =
            some (⟨x.name, attrs ++ (x.key, value) :: others⟩, rest) ∧ decode reader value = path) ↔
          '\x22' ∉ path ∧ decode reader path = path := by
  intro origin token html store
  have hstore : recording'.store.Reachable ∧ r < recording'.store.registries.size := by
    obtain ⟨c, rfl, result, origins, outline, -, hrun⟩ := Rendering.scripted_referrer hn
    rw [hrun r recording] at hcontent
    cases hcontent
    exact ⟨hreach.registerAll hr origins, Store.size_registerAll recording.store r origins ▸ hr⟩
  have hrun : (Rendering.node (linking options r base) scene n).run.run recording =
      (.ok html, ⟨store, recording'.outline⟩) := by
    rw [Rendering.node_referrer hn]
    show (ExceptT.bindCont _ (content.run.run recording).1 : StateM Recording _)
      (content.run.run recording).2 = _
    rw [hcontent]
    exact Productions.run_produce hlocal htitle x recording'
  obtain ⟨a, hentry⟩ := Store.exists_entry_register hstore.1 hstore.2 origin
  obtain ⟨pairs, hwhole⟩ := Productions.exists_whole htitle hreadable
  have hplain : '\x22' ∉ token.text.toList := fun hmem =>
    absurd (Token.isTokenChar_ofOrigin origin _ hmem) (by decide)
  have hhtml : html = x.around options extra shown token.text.toList := by
    rw [← Referrer.escapeAttr_token (Token.isTokenChar_ofOrigin origin)]
    exact Referrer.write_eq_around options extra _ shown x
  -- How the tag reads with a reference that holds no quote.
  have hread : ∀ {value : List Char}, '\x22' ∉ value → ∀ tail,
      readStartTag (x.front extra ++ '\x22' :: (value ++
        '\x22' :: (x.back options shown ++ '>' :: tail))) =
      some (⟨x.name, pairs ++ (x.key, value) :: x.others shown⟩, tail) := by
    intro value hvalue tail
    rw [Referrer.readStartTag_front hwhole x hvalue, Referrer.readAttributes_back]
    rfl
  refine ⟨hrun, a, pairs, x.others shown, hentry, ⟨x.tail, ?_⟩, fun plan hclean => ?_⟩
  · rw [hhtml]
    exact hread hplain x.tail
  · intro path page
    have hreach' : store.Reachable := hstore.1.register r origin none hstore.2
    obtain ⟨tail, hpage⟩ := run_around plan hreach'.sound hentry hfront hback hclean
    have hpage : page = x.front extra ++ '\x22' :: (path ++
        '\x22' :: (x.back options shown ++ '>' :: tail)) := by
      rw [← hpage, ← hhtml]
    constructor
    · rintro ⟨value, rest, hvalue, hdecode⟩
      have hquote : '\x22' ∉ path := by
        intro hmem
        -- The reference is read up to the first quote, and no text stands for a longer one.
        obtain ⟨before, after, hpath, hbefore⟩ := List.eq_append_cons_of_mem hmem
        rw [hpage, hpath, List.append_assoc, List.cons_append,
          Referrer.readStartTag_front hwhole x hbefore] at hvalue
        obtain ⟨found, -, hfound⟩ := Option.map_eq_some_iff.1 hvalue
        have hattrs := congrArg StartTag.attributes (Prod.mk.inj hfound).1
        obtain ⟨hsame, -⟩ : before = value ∧ found.1 = x.others shown := by
          simpa using List.append_cancel_left hattrs
        have hlength := hreader.length_decode value
        rw [hdecode, hpath, ← hsame, List.length_append, List.length_cons] at hlength
        omega
      have hread' := hread hquote tail
      rw [← hpage, hvalue] at hread'
      have hattrs := congrArg StartTag.attributes (Prod.mk.inj (Option.some.inj hread')).1
      obtain rfl : value = path := by simpa using List.append_cancel_left hattrs
      exact ⟨hquote, hdecode⟩
    · rintro ⟨hquote, hdecode⟩
      exact ⟨path, tail, by rw [hpage]; exact hread hquote tail, hdecode⟩

theorem run_tag_reads_iff_quoted :
    let e : Token × Asset := picture "/site/a\"b.png" "sitcom-asset-c33c74b4b91a9fea"
    let plan : Relocation := ⟨⟨"/site"⟩, ⟨"/site/out"⟩, none, none⟩
    let walk : Linking (List Char) := Rendering.node (linking {} 0 ⟨"/site"⟩)
      ⟨{}, [], false, true⟩ (.image "a\"b.png" none "A picture")
    ∃ html store attrs others,
      walk.run.run ⟨(Store.newRoot {}).1, []⟩ = (.ok html, ⟨store, []⟩) ∧ e ∈ store.entries 0 ∧
      (∃ rest, readStartTag html =
        some (⟨"img".toList, attrs ++ ("src".toList, e.1.text.toList) :: others⟩, rest)) ∧
      ¬∃ value rest, readStartTag (plan.run (String.ofList html) store 0).html.toList =
          some (⟨"img".toList, attrs ++ ("src".toList, value) :: others⟩, rest) ∧
        decode Html.readEscape value = (plan.pathOf e).toList := by
  intro e plan walk
  have hreach : (Store.newRoot {}).1.Reachable := Store.Reachable.empty.act .newRoot rfl
  have hn : Rendering.referrer? (linking {} 0 ⟨"/site"⟩) ⟨{}, [], false, true⟩
      (.image "a\"b.png" none "A picture") =
      some (pure (.picture "A picture".toList), ⟨"a\"b.png", none⟩) := rfl
  have hcontent : (pure (.picture "A picture".toList) : Linking Referrer).run.run
      ⟨(Store.newRoot {}).1, []⟩ =
      (.ok (.picture "A picture".toList), ⟨(Store.newRoot {}).1, []⟩) := rfl
  have hlocal : Html.Reference.localTarget "a\"b.png".toList = some "a\"b.png".toList := by
    decide +kernel
  obtain ⟨hrun, a, attrs, others, hentry, hhtml, hpage⟩ :=
    run_tag_reads_iff hn hcontent hlocal rfl (by nofun) hreach (by decide) (by decide +kernel)
      (by decide +kernel) Html.short_readEscape
  have hentries : ((Store.newRoot {}).1.register 0 "/site/a\"b.png" none).1.entries 0 = [e] := by
    decide +kernel
  have horigin : ((⟨"/site"⟩ : Path).resolve ⟨String.ofList "a\"b.png".toList⟩).text =
      "/site/a\"b.png" := by decide +kernel
  rw [horigin] at hrun hentry hhtml hpage
  rw [hentries] at hentry
  have he := List.mem_singleton.1 hentry
  have hpath : (plan.pathOf e).toList = "./a\"b.png".toList := by decide +kernel
  refine ⟨_, _, attrs, others, hrun, ?_, ?_, ?_⟩
  · rw [hentries]
    exact List.mem_singleton_self e
  · rw [← he]
    exact hhtml
  · rintro ⟨value, rest, hvalue, hdecode⟩
    rw [← he] at hpath hdecode
    have hclean : ¬mark.toList <:+: (plan.pathOf (Token.ofOrigin "/site/a\"b.png", a)).toList := by
      rw [hpath]
      decide +kernel
    obtain ⟨hquote, -⟩ := (hpage plan hclean).1 ⟨value, rest, hvalue, hdecode⟩
    rw [hpath] at hquote
    exact hquote (by decide)

end Relocation

end Bindery
