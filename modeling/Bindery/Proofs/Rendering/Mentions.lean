import Bindery.Proofs.Rendering.Related
import Bindery.Proofs.Rendering.References

/-! The destinations that a document names, in order. They are all that is registered for it, and in
another order they leave its outline and the faults in it as they are. -/

namespace Bindery

open Markdown
open Markdown.Node (relink relinkAll)

def Html.Reference.Piece.value? : Html.Reference.Piece → Option (List Char)
  | .text _ => none
  | .value cs => some cs

namespace Productions

def note (destinations : List (List Char)) : StateM (List (List Char)) Unit :=
  modify (· ++ destinations)

/-- Productions that note the destinations as they are written, and nothing else. -/
def noting : Productions (StateM (List (List Char))) where
  heading _ _ _ := pure []
  link href _ _ := do
    note [href]
    return []
  image src _ _ := do
    note [src]
    return []
  html markup := do
    note ((Html.Reference.scan markup).filterMap Html.Reference.Piece.value?)
    return []

/-- The files that destinations name, read from the directory `base`. -/
def originsOf (base : Path) (destinations : List (List Char)) : List String :=
  (destinations.filterMap Html.Reference.localTarget).map fun target =>
    (base.resolve ⟨String.ofList target⟩).text

theorem originsOf_append (base : Path) (u v : List (List Char)) :
    originsOf base (u ++ v) = originsOf base u ++ originsOf base v := by
  simp [originsOf]

variable {r : RegistryId} {base : Path} {α β : Type}

/-- A computation that registers what the other one notes, unless it finds a fault. -/
def Noted (r : RegistryId) (base : Path) (α β : Type) (x : Linking α)
    (y : StateM (List (List Char)) β) : Prop :=
  ∃ (result : Except MarkupError α) (origins : List String),
    (∀ recording, ∃ outline,
      x.run.run recording = (result, ⟨recording.store.registerAll r origins, outline⟩)) ∧
    ∀ a, result = .ok a → ∃ (b : β) (noted : List (List Char)),
      (∀ before, y.run before = (b, before ++ noted)) ∧ origins = originsOf base noted

theorem noted_of_result {x : Linking α} (result : Except MarkupError α)
    (h : ∀ recording, ∃ outline, x.run.run recording = (result, ⟨recording.store, outline⟩)) (b : β) :
    Noted r base _ _ x (pure b) := by
  refine ⟨result, [], h, fun a _ => ⟨b, [], fun before => ?_, rfl⟩⟩
  rw [List.append_nil]
  rfl

theorem relating_noted : Relating (Noted r base) where
  pure a b := noted_of_result (.ok a) (fun recording => ⟨recording.outline, rfl⟩) b
  bind {α β α' β' x y h k} hx hrest := by
    obtain ⟨result, origins, hrun, hnoted⟩ := hx
    have hbind : ∀ recording, ∃ outline, (x >>= h).run.run recording =
        (ExceptT.bindCont h result : StateM Recording _)
          ⟨recording.store.registerAll r origins, outline⟩ := by
      intro recording
      obtain ⟨outline, hout⟩ := hrun recording
      refine ⟨outline, ?_⟩
      show (ExceptT.bindCont h (x.run.run recording).1 : StateM Recording _)
        (x.run.run recording).2 = _
      rw [hout]
    cases result with
    | error e => exact ⟨.error e, origins, hbind, nofun⟩
    | ok a =>
      obtain ⟨b, noted, hy, horigins⟩ := hnoted a rfl
      obtain ⟨result', origins', hrun', hnoted'⟩ := hrest a b
      refine ⟨result', origins ++ origins', fun recording => ?_, fun a' ha' => ?_⟩
      · obtain ⟨outline, hout⟩ := hbind recording
        obtain ⟨outline', hout'⟩ := hrun' ⟨recording.store.registerAll r origins, outline⟩
        refine ⟨outline', (hout.trans hout').trans ?_⟩
        simp [Store.registerAll]
      · obtain ⟨b', noted', hy', horigins'⟩ := hnoted' a' ha'
        refine ⟨b', noted ++ noted', fun before => ?_, ?_⟩
        · show (k (y.run before).1).run (y.run before).2 = _
          rw [hy, ← List.append_assoc]
          exact hy' (before ++ noted)
        · rw [originsOf_append, horigins, horigins']

theorem noted_linkFile (cs target : List Char) (h : Html.Reference.localTarget cs = some target) :
    Noted r base _ _ (linkFile r base target) (note [cs]) := by
  refine ⟨.ok (Token.ofOrigin (base.resolve ⟨String.ofList target⟩).text).text.toList,
    [(base.resolve ⟨String.ofList target⟩).text], fun recording => ⟨recording.outline, ?_⟩,
    fun _ _ => ⟨(), [cs], fun _ => rfl, ?_⟩⟩
  · rw [← Store.token_register recording.store r (base.resolve ⟨String.ofList target⟩).text none]
    rfl
  · simp [originsOf, h]

theorem noted_reference (href : List Char) :
    Noted r base _ _ (reference r base href) (note [href]) := by
  unfold reference
  cases hlocal : Html.Reference.localTarget href with
  | none =>
    refine ⟨.ok href, [], fun recording => ⟨recording.outline, rfl⟩,
      fun _ _ => ⟨(), [href], fun _ => rfl, ?_⟩⟩
    simp [originsOf, hlocal]
  | some target => exact noted_linkFile href target hlocal

/-- What is noted in two steps may be noted in one. -/
theorem Noted.note_append {x : Linking α} {u v : List (List Char)} {b : β}
    (h : Noted r base _ _ x (do
      note u
      note v
      return b)) : Noted r base _ _ x (do
      note (u ++ v)
      return b) := by
  obtain ⟨result, origins, hrun, hnoted⟩ := h
  refine ⟨result, origins, hrun, fun a ha => ?_⟩
  obtain ⟨b', noted, hy, horigins⟩ := hnoted a ha
  refine ⟨b', noted, fun before => ?_, horigins⟩
  rw [← hy before]
  show (b, before ++ (u ++ v)) = (b, before ++ u ++ v)
  rw [List.append_assoc]

theorem noted_redirectPieces (pieces : List Html.Reference.Piece) :
    Noted r base _ _ (Html.Reference.redirectPieces (linkFile r base) pieces) (do
      note (pieces.filterMap Html.Reference.Piece.value?)
      return ([] : List Char)) := by
  induction pieces with
  | nil =>
    refine ⟨.ok [], [], fun recording => ⟨recording.outline, rfl⟩, fun _ _ => ⟨[], [], ?_, rfl⟩⟩
    exact fun before => rfl
  | cons piece rest ih =>
    have hrest : ∀ (cs : List Char), Noted r base _ _ (do
        let out ← Html.Reference.redirectPieces (linkFile r base) rest
        return cs ++ out) (do
        note (rest.filterMap Html.Reference.Piece.value?)
        return ([] : List Char)) := by
      intro cs
      have hbind := relating_noted.bind ih fun out (_ : List Char) =>
        relating_noted.pure (cs ++ out) ([] : List Char)
      simpa using hbind
    cases piece with
    | text cs => exact hrest cs
    | value cs =>
      have hvalues : (Html.Reference.Piece.value cs :: rest).filterMap Html.Reference.Piece.value? =
          [cs] ++ rest.filterMap Html.Reference.Piece.value? := rfl
      rw [hvalues]
      apply Noted.note_append
      simp only [Html.Reference.redirectPieces]
      cases hlocal : Html.Reference.localTarget cs with
      | none =>
        -- What is no local file is noted without a trace in the registries.
        have hnone : Noted r base _ _ (pure () : Linking Unit) (note [cs]) :=
          ⟨.ok (), [], fun recording => ⟨recording.outline, rfl⟩,
            fun _ _ => ⟨(), [cs], fun _ => rfl, by simp [originsOf, hlocal]⟩⟩
        have hbind := relating_noted.bind hnone fun _ _ => hrest cs
        rw [pure_bind] at hbind
        exact hbind
      | some target => exact relating_noted.bind (noted_linkFile cs target hlocal) fun new _ => hrest new

theorem noted_titled (title : Option (List Char))
    (tag : List Char → Option (List Char) → List Char) (b : β) :
    Noted r base _ _ (do
      let (attrs, title) ← titleAttrs title
      return tag attrs title : Linking (List Char)) (pure b) := by
  refine noted_of_result ((titleAttrs title).map fun x => tag x.1 x.2) (fun recording => ?_) b
  refine ⟨recording.outline, ?_⟩
  cases titleAttrs title <;> rfl

theorem noted_linking (options : Markdown.Options) (f : String → String) :
    Productions.Related (Noted r base) f f (linking options r base) noting where
  heading level html html' raw := by
    apply noted_of_result (.ok _)
    intro recording
    exact ⟨_, rfl⟩
  link url title html html' :=
    relating_noted.bind (noted_reference (f url).toList) fun href _ =>
      noted_titled title (fun attrs title => Html.anchorTag attrs href title html) []
  image url title alt :=
    relating_noted.bind (noted_reference (f url).toList) fun src _ =>
      noted_titled title (fun attrs title => Html.imageTag attrs src title alt options.xhtml) []
  html markup := noted_redirectPieces (Html.Reference.scan markup)

/-- Two computations that find the same faults and leave the same outline. -/
def Likewise (α β : Type) (x : Linking α) (y : Linking β) : Prop :=
  ∀ recording recording', recording.outline = recording'.outline →
    ((∃ e, (x.run.run recording).1 = .error e ∧ (y.run.run recording').1 = .error e) ∨
      ∃ a b, (x.run.run recording).1 = .ok a ∧ (y.run.run recording').1 = .ok b) ∧
    (x.run.run recording).2.outline = (y.run.run recording').2.outline

theorem relating_likewise : Relating Likewise where
  pure a b _ _ houtline := ⟨.inr ⟨a, b, rfl, rfl⟩, houtline⟩
  bind {α β α' β' x y h k} hx hrest recording recording' houtline := by
    have hleft : (x >>= h).run.run recording =
        (ExceptT.bindCont h (x.run.run recording).1 : StateM Recording _)
          (x.run.run recording).2 := rfl
    have hright : (y >>= k).run.run recording' =
        (ExceptT.bindCont k (y.run.run recording').1 : StateM Recording _)
          (y.run.run recording').2 := rfl
    obtain ⟨hresults, hsame⟩ := hx recording recording' houtline
    rw [hleft, hright]
    rcases hresults with ⟨e, he, he'⟩ | ⟨a, b, ha, hb⟩
    · rw [he, he']
      exact ⟨.inl ⟨e, rfl, rfl⟩, hsame⟩
    · rw [ha, hb]
      exact hrest a b _ _ hsame

/-- What finds no fault and leaves the outline is like any other such computation. -/
theorem likewise_of_ok {x : Linking α} {y : Linking β}
    (hx : ∀ recording, (∃ a, (x.run.run recording).1 = .ok a) ∧
      (x.run.run recording).2.outline = recording.outline)
    (hy : ∀ recording, (∃ b, (y.run.run recording).1 = .ok b) ∧
      (y.run.run recording).2.outline = recording.outline) : Likewise _ _ x y := by
  intro recording recording' houtline
  obtain ⟨⟨a, ha⟩, hsame⟩ := hx recording
  obtain ⟨⟨b, hb⟩, hsame'⟩ := hy recording'
  exact ⟨.inr ⟨a, b, ha, hb⟩, hsame.trans (houtline.trans hsame'.symm)⟩

theorem ok_reference (r : RegistryId) (base : Path) (href : List Char) (recording : Recording) :
    (∃ a, ((reference r base href).run.run recording).1 = .ok a) ∧
      ((reference r base href).run.run recording).2.outline = recording.outline := by
  unfold reference
  cases Html.Reference.localTarget href with
  | none => exact ⟨⟨href, rfl⟩, rfl⟩
  | some target => exact ⟨⟨_, rfl⟩, rfl⟩

theorem likewise_redirectPieces (r : RegistryId) (base : Path) (pieces : List Html.Reference.Piece) :
    Likewise _ _ (Html.Reference.redirectPieces (linkFile r base) pieces)
      (Html.Reference.redirectPieces (linkFile r base) pieces) := by
  induction pieces with
  | nil => exact relating_likewise.pure [] []
  | cons piece rest ih =>
    have hrest : ∀ cs cs' : List Char, Likewise _ _ (do
        let out ← Html.Reference.redirectPieces (linkFile r base) rest
        return cs ++ out) (do
        let out ← Html.Reference.redirectPieces (linkFile r base) rest
        return cs' ++ out) := fun cs cs' =>
      relating_likewise.bind ih fun out out' => relating_likewise.pure (cs ++ out) (cs' ++ out')
    cases piece with
    | text cs => exact hrest cs cs
    | value cs =>
      simp only [Html.Reference.redirectPieces]
      cases Html.Reference.localTarget cs with
      | none => exact hrest cs cs
      | some target =>
        have htarget : Likewise _ _ (linkFile r base target) (linkFile r base target) :=
          likewise_of_ok (fun _ => ⟨⟨_, rfl⟩, rfl⟩) fun _ => ⟨⟨_, rfl⟩, rfl⟩
        exact relating_likewise.bind htarget hrest

theorem likewise_titled (title : Option (List Char))
    (tag tag' : List Char → Option (List Char) → List Char) :
    Likewise _ _ (do
      let (attrs, title) ← titleAttrs title
      return tag attrs title : Linking (List Char)) (do
      let (attrs, title) ← titleAttrs title
      return tag' attrs title : Linking (List Char)) := by
  intro recording recording' houtline
  cases titleAttrs title with
  | error e => exact ⟨.inl ⟨e, rfl, rfl⟩, houtline⟩
  | ok x => exact ⟨.inr ⟨_, _, rfl, rfl⟩, houtline⟩

theorem likewise_linking (options : Markdown.Options) (r : RegistryId) (base : Path)
    (f g : String → String) :
    Productions.Related Likewise f g (linking options r base) (linking options r base) where
  heading level html html' raw := by
    intro recording recording' houtline
    refine ⟨.inr ⟨_, _, rfl, rfl⟩, ?_⟩
    show recording.outline ++ _ = recording'.outline ++ _
    rw [houtline]
  link url title html html' :=
    relating_likewise.bind (likewise_of_ok (ok_reference r base (f url).toList)
      (ok_reference r base (g url).toList)) fun href href' =>
      likewise_titled title (fun attrs title => Html.anchorTag attrs href title html)
        fun attrs title => Html.anchorTag attrs href' title html'
  image url title alt :=
    relating_likewise.bind (likewise_of_ok (ok_reference r base (f url).toList)
      (ok_reference r base (g url).toList)) fun src src' =>
      likewise_titled title (fun attrs title => Html.imageTag attrs src title alt options.xhtml)
        fun attrs title => Html.imageTag attrs src' title alt options.xhtml
  html markup := likewise_redirectPieces r base (Html.Reference.scan markup)

end Productions

namespace Rendering

open Productions (originsOf)

/-- The destinations that a document names, in order. -/
def mentions (tree : List Node) : List (List Char) :=
  ((document Productions.noting {} tree).run []).2

/-- Two documents with the same destinations in two orders, and with all else in common. -/
def Shuffled (tree tree' : List Node) : Prop :=
  ∃ (skeleton : List Node) (f g : String → String), tree = relinkAll f skeleton ∧
    tree' = relinkAll g skeleton ∧ (mentions tree).Perm (mentions tree')

theorem Shuffled.refl (tree : List Node) : Shuffled tree tree :=
  ⟨tree, id, id, (Node.relinkAll_id tree).symm, (Node.relinkAll_id tree).symm, .refl _⟩

variable {options : Markdown.Options} {r : RegistryId} {base : Path} {store : Store}

/-- A document without faults registers the files that its destinations name. -/
theorem store_linkedDocument {tree : List Node} {html : List Char}
    (h : (linkedDocument options r base store tree).1 = .ok html) :
    (linkedDocument options r base store tree).2.store =
      store.registerAll r (originsOf base (mentions tree)) := by
  have hnoted : Productions.Noted r base _ _
      (document (Productions.linking options r base) options (relinkAll id tree))
      (document Productions.noting {} (relinkAll id tree)) :=
    document_related Productions.relating_noted (Productions.noted_linking options id) options {} tree
  rw [Node.relinkAll_id] at hnoted
  obtain ⟨result, origins, hrun, hok⟩ := hnoted
  obtain ⟨outline, hout⟩ := hrun { store }
  have hresult : result = .ok html := by
    unfold linkedDocument at h
    rw [hout] at h
    exact h
  obtain ⟨b, noted, hnoted, rfl⟩ := hok html hresult
  have hmentions : mentions tree = noted := by
    unfold mentions
    rw [hnoted []]
    rfl
  unfold linkedDocument
  rw [hout, hmentions]

/-- Documents that are shuffled have the same faults and the same outline. -/
theorem Shuffled.likewise {tree tree' : List Node} (h : Shuffled tree tree') :
    ((∃ e, (linkedDocument options r base store tree).1 = .error e ∧
        (linkedDocument options r base store tree').1 = .error e) ∨
      ∃ html html', (linkedDocument options r base store tree).1 = .ok html ∧
        (linkedDocument options r base store tree').1 = .ok html') ∧
    (linkedDocument options r base store tree).2.outline =
      (linkedDocument options r base store tree').2.outline := by
  obtain ⟨skeleton, f, g, rfl, rfl, -⟩ := h
  exact document_related Productions.relating_likewise
    (Productions.likewise_linking options r base f g) options options skeleton { store } { store } rfl

/-- They name the same files. -/
theorem Shuffled.mem_originsOf {tree tree' : List Node} (h : Shuffled tree tree') (base : Path)
    (o : String) : o ∈ originsOf base (mentions tree) ↔ o ∈ originsOf base (mentions tree') := by
  obtain ⟨-, -, -, -, -, hperm⟩ := h
  have horigins := (hperm.filterMap Html.Reference.localTarget).map fun target =>
    (base.resolve ⟨String.ofList target⟩).text
  exact horigins.mem_iff

end Rendering
end Bindery
