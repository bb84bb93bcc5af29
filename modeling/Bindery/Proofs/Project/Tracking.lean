import Bindery.Proofs.Project.Operations
import Bindery.Proofs.Project.Reuse

/-! What a session does, done in a used session as in a fresh one: its files, its registrations, its
records, and with these the parts that pages are made of. -/

namespace Bindery

open FileTree (placeOf)

variable {α β : Type} {x : Reuse} {n : Nat}

theorem Session.printed_logged (s : Session) (level : α → Level) (line : α → String) (l : List α) :
    Session.printed { s with events := s.events ++ l.map fun a => .logged (level a) (line a) } =
      s.printed := by
  unfold Session.printed
  rw [List.filterMap_append, List.filterMap_map]
  simp

namespace Store

theorem askedIn_subset_registerAll (s : Store) (r : RegistryId) (origins : List String) (i : Nat) :
    s.askedIn i ⊆ (s.registerAll r origins).askedIn i := by
  induction origins generalizing s with
  | nil => exact List.Subset.refl _
  | cons origin origins ih =>
    refine List.Subset.trans ?_ (ih _)
    unfold askedIn
    rw [memos_register]
    unfold tokenFor
    rw [Array.getElem?_modify]
    split
    · cases s.memos[i]? with
      | none => exact List.Subset.refl _
      | some seen =>
        simp only [Option.map_some, Option.getD_some]
        split
        · exact List.Subset.refl _
        · exact List.subset_append_left _ _
    · exact List.Subset.refl _

theorem Young.mem_askedIn {s : Store} (h : s.Young) {r : RegistryId} (hr : r < s.registries.size)
    {origins : List String} {o : String} (ho : o ∈ origins) :
    o ∈ (s.registerAll r origins).askedIn 0 := by
  have htable := h.table r hr
  have hasked := mem_askedIn_registerAll (htable.symm ▸ h.memos) origins o
  rw [htable] at hasked
  exact hasked.2 (.inr ho)

end Store

namespace Work

/-! Records of the session. -/

theorem tracks_modifySession {f f' : Session → Session}
    (hlinked : ∀ s, s.linked ⊆ (f s).linked) (hstore : ∀ s, (f s).store = s.store)
    (hstore' : ∀ s, (f' s).store = s.store)
    (h : ∀ u v, x.Mirrors u v → x.Mirrors { u with session := f u.session }
      { v with session := f' v.session }) :
    Tracks x n Eq (modifySession f) (modifySession f') :=
  tracks_modify (fun u => .of_session (hlinked u.session) (hstore u.session))
    fun u v hmirrors _ _ =>
      ⟨h u v hmirrors, hstore u.session ▸ .refl _, hstore' v.session ▸ .refl _⟩

theorem tracks_log (level : Level) (line line' : String) :
    Tracks x n Eq (log level line) (log level line') := by
  unfold log put
  refine tracks_modifySession (fun _ => List.Subset.refl _) (fun _ => rfl) (fun _ => rfl) fun u v h => ?_
  refine { h with printed := ?_ }
  have hu := u.session.printed_logged (fun _ => level) id [line]
  have hv := v.session.printed_logged (fun _ => level) id [line']
  exact hv.trans (h.printed.trans (congrArg _ hu.symm))

theorem tracks_print (text : String) :
    Tracks x n Eq (put (.printed text)) (put (.printed text)) := by
  refine tracks_modifySession (fun _ => List.Subset.refl _) (fun _ => rfl) (fun _ => rfl) fun u v h => ?_
  refine { h with printed := ?_ }
  have happend (s : Session) :
      Session.printed { s with events := s.events ++ [.printed text] } = s.printed ++ [text] := by
    unfold Session.printed
    rw [List.filterMap_append]
    rfl
  rw [happend, happend, h.printed, List.append_assoc]

theorem tracks_noteLinked (source : Path) :
    Tracks x n Eq (noteLinked source) (noteLinked source) :=
  tracks_modifySession (fun _ => List.subset_append_left _ _) (fun _ => rfl) (fun _ => rfl)
    fun _ _ h => { h with }

theorem tracks_leave (source : Path) : Tracks x n Eq (leave source) (leave source) := by
  refine tracks_modifySession (fun _ => List.Subset.refl _) (fun _ => rfl) (fun _ => rfl) fun u v h => ?_
  exact { h with
    inFlight := congrArg (List.erase · source) h.inFlight
    finished := congrArg (List.cons source) h.finished }

theorem tracks_enter (source : Path) : Tracks x n Eq (enter source) (enter source) := by
  have hopen : Tracks x n Eq
      (modifySession fun s => { s with inFlight := source :: s.inFlight })
      (modifySession fun s => { s with inFlight := source :: s.inFlight }) :=
    tracks_modifySession (fun _ => List.Subset.refl _) (fun _ => rfl) (fun _ => rfl)
      fun u v h => { h with inFlight := congrArg (List.cons source) h.inFlight }
  unfold enter
  refine tracks_session (fun s u => ?_) fun u v h => ?_
  · split
    · exact .refl u
    · exact .of_session (List.Subset.refl _) rfl
  · rw [h.inFlight]
    split
    · exact tracks_throw _
    · exact hopen

theorem tracks_runPlugins (h : Plugin.Hook α) (plugins : List Plugin) (value : α)
    (options : Markdown.Options) :
    Tracks x n Eq (runPlugins h plugins value options) (runPlugins h plugins value options) := by
  unfold runPlugins
  refine Tracks.andThen ?_ fun _ => tracks_pure rfl
  exact tracks_modifySession (fun _ => List.Subset.refl _) (fun _ => rfl) (fun _ => rfl)
    fun _ _ h => { h with }

/-! Files. -/

theorem grown_ask (s : Bench) (paths : List Path) (tree : FileTree) :
    s.Grown { s with tree, asked := s.asked ++ paths } :=
  ⟨List.subset_append_left _ _, List.Subset.refl _, List.Subset.refl _, Nat.le_refl _⟩

theorem tracks_ask (paths : List Path) : Tracks x n Eq (ask paths) (ask paths) :=
  tracks_modify (fun u => grown_ask u paths u.tree) fun _ _ h _ _ => ⟨{ h with }, .refl _, .refl _⟩

theorem run_read (path : Path) (s : Bench) : (read path).run.run s =
    ((s.tree.read path).mapError (.file path), { s with asked := s.asked ++ [path] }) := by
  have hrun : (read path).run.run s = (ofExcept (.file path) (s.tree.read path)).run.run
    { s with asked := s.asked ++ [path] } := rfl
  rw [hrun]
  cases s.tree.read path <;> rfl

theorem tracks_read {path : Path} (hpath : path.IsNormal) (hreads : placeOf path ∈ x.reads) :
    Tracks x n Eq (read path) (read path) where
  grown u _ := by
    rw [run_read]
    exact grown_ask u [path] u.tree
  follows u v h _ := by
    unfold Follows
    rw [run_read, run_read]
    intro hin
    have hplace := hin.asked path (List.mem_append_right _ List.mem_cons_self)
    rw [h.trees.read_eq (.inl hreads) hpath hplace]
    refine ⟨?_, { h with }, .refl _, .refl _⟩
    cases u.tree.read path with
    | ok text => exact .ok rfl
    | error f => exact .error _

theorem run_write (path : Path) (text : String) (s : Bench) : (write path text).run.run s =
    match s.tree.write path (.text text) with
    | .ok tree => (.ok (), { s with tree, asked := s.asked ++ [path] })
    | .error f => (.error (.file path f), { s with asked := s.asked ++ [path] }) := by
  have hrun : (write path text).run.run s =
    ((ofExcept (.file path) (s.tree.write path (.text text)) >>= fun tree =>
      modify fun b => { b with tree } : Work Unit)).run.run
    { s with asked := s.asked ++ [path] } := rfl
  rw [hrun]
  cases s.tree.write path (.text text) <;> rfl

/-- A page that is written and noted. -/
theorem run_publish (path : Path) (text : String) (made : List (Token × String)) (s : Bench) :
    (write path text >>= fun _ => record ⟨path, made⟩).run.run s =
    match s.tree.write path (.text text) with
    | .ok tree => (.ok (), { s with
        tree
        asked := s.asked ++ [path]
        session := { s.session with pages := s.session.pages ++ [⟨path, made⟩] } })
    | .error f => (.error (.file path f), { s with asked := s.asked ++ [path] }) := by
  rw [run_bind, run_write]
  cases s.tree.write path (.text text) <;> rfl

theorem tracks_publish (path : Path) (text : String) (made : List (Token × String)) :
    Tracks x n Eq (write path text >>= fun _ => record ⟨path, made⟩)
      (write path text >>= fun _ => record ⟨path, made⟩) where
  grown u _ := by
    rw [run_publish]
    cases u.tree.write path (.text text) with
    | error f => exact grown_ask u [path] u.tree
    | ok tree => exact { grown_ask u [path] tree with }
  follows u v h _ := by
    unfold Follows
    rw [run_publish, run_publish]
    intro hin
    have hplace : placeOf path ∈ x.places := by
      refine hin.asked path ?_
      cases u.tree.write path (.text text) <;> exact List.mem_append_right _ List.mem_cons_self
    rcases h.trees.write_cases (.text text) hplace with ⟨e, he, he'⟩ | ⟨after, after', hok, hok', hagree⟩
    · rw [he, he']
      exact ⟨.error _, { h with }, .refl _, .refl _⟩
    · rw [hok, hok']
      refine ⟨.ok rfl, { h with pages := ?_, trees := hagree.mono ?_ (Set.Subset.refl _) }, .refl _, .refl _⟩
      · exact (congrArg (· ++ _) h.pages).trans (List.append_assoc _ _ _)
      · rintro p (hp | ⟨page, hpage, rfl⟩)
        · exact .inr (.inl hp)
        · rcases List.mem_append.1 hpage with hold | hnew
          · exact .inr (.inr ⟨page, hold, rfl⟩)
          · exact .inl (congrArg (fun page => placeOf page.file) (List.mem_singleton.1 hnew))

/-! Registrations. -/

theorem run_forM_log (level : Level) (line : α → String) (l : List α) (s : Bench) :
    (l.forM fun a => log level (line a)).run.run s = (.ok (), { s with session := { s.session with
      events := s.session.events ++ l.map fun a => .logged level (line a) } }) := by
  induction l generalizing s with
  | nil =>
    rw [List.map_nil, List.append_nil]
    rfl
  | cons a l ih =>
    rw [List.forM_eq_forM, List.forM_cons, ← List.forM_eq_forM]
    refine (ih _).trans ?_
    simp

theorem run_register (f : Store → α × Store) (s : Bench) : ∃ new : List Asset,
    (register f).run.run s = (.ok (f s.session.store).1, { s with session := { s.session with
      store := (f s.session.store).2
      events := s.session.events ++ new.map fun asset =>
        .logged .debug ("register " ++ asset.source.text ++ " as " ++ asset.token.text) } }) := by
  refine ⟨(f s.session.store).2.cells.toList.drop s.session.store.cells.size, ?_⟩
  have hlog := run_forM_log .debug
    (fun asset : Asset => "register " ++ asset.source.text ++ " as " ++ asset.token.text)
    ((f s.session.store).2.cells.toList.drop s.session.store.cells.size)
    (s.withStore (f s.session.store).2)
  have hrun : (register f).run.run s = (ExceptT.bindCont (fun _ => pure (f s.session.store).1)
      (((((f s.session.store).2.cells.toList.drop s.session.store.cells.size).forM
        fun asset : Asset => log .debug
          ("register " ++ asset.source.text ++ " as " ++ asset.token.text))).run.run
        (s.withStore (f s.session.store).2)).1 : StateM Bench _).run
      (((((f s.session.store).2.cells.toList.drop s.session.store.cells.size).forM
        fun asset : Asset => log .debug
          ("register " ++ asset.source.text ++ " as " ++ asset.token.text))).run.run
        (s.withStore (f s.session.store).2)).2 := rfl
  rw [hrun, hlog]
  rfl

/-- The same origins are registered below registries that stand for each other. -/
theorem tracks_register {f f' : Store → α × Store} {r : RegistryId} {a : α} (origins : List String)
    (hpos : 0 < r) (hr : r < n) (hf : ∀ s, f s = (a, s.registerAll r origins))
    (hf' : ∀ s, f' s = (a, s.registerAll (x.number r) origins)) :
    Tracks x n Eq (register f) (register f') where
  grown u _ := by
    obtain ⟨new, hrun⟩ := run_register f u
    rw [hrun, hf]
    have hasked := u.session.store.askedIn_subset_registerAll r origins 0
    have hsize := u.session.store.size_registerAll r origins
    exact ⟨List.Subset.refl _, List.Subset.refl _, hasked, Nat.le_of_eq hsize.symm⟩
  follows u v h hn := by
    unfold Follows
    obtain ⟨new, hrun⟩ := run_register f u
    obtain ⟨new', hrun'⟩ := run_register f' v
    rw [hrun, hf, hrun', hf']
    intro hin
    have hlt := Nat.lt_of_lt_of_le hr hn
    have hstore : Store.Mirrors x.number x.base.session.store
        (u.session.store.registerAll r origins) (v.session.store.registerAll (x.number r) origins) :=
      h.store.registerAll hpos hlt fun o ho =>
        x.offered o (hin.origins o (h.store.young.mem_askedIn hlt ho))
    have hu := Session.printed_logged
      { u.session with store := u.session.store.registerAll r origins } (fun _ => .debug)
      (fun asset => "register " ++ asset.source.text ++ " as " ++ asset.token.text) new
    have hv := Session.printed_logged
      { v.session with store := v.session.store.registerAll (x.number r) origins } (fun _ => .debug)
      (fun asset => "register " ++ asset.source.text ++ " as " ++ asset.token.text) new'
    obtain ⟨-, hfresh, -⟩ := h.store.young.descends.registerAll hlt origins
    obtain ⟨-, hused, -⟩ := h.store.descends.registerAll (h.store.number_lt hlt) origins
    refine ⟨.ok rfl, { h with store := hstore, printed := ?_ }, hfresh, hused⟩
    exact hv.trans (h.printed.trans (congrArg _ hu.symm))

/-- The last step decides on the result. -/
theorem Ends.last {w : Work α} {f : α → Work β} {s : Bench} {Q : β → Bench → Prop}
    (hf : ∀ a s, (f a).Ends s Q fun _ => True) : (w >>= f).Ends s Q fun _ => True := by
  rw [ends_bind]
  unfold Ends
  split
  · exact hf _ _
  · trivial

end Work

namespace Document

open Work

/-- What becomes of the text of a document. -/
def split (d : Document) (text : String) (plugins : List Plugin) (options : Markdown.Options) :
    Work Document := do
  let (nodes, options) ← Work.runPlugins Plugin.tokenizeHook plugins (Markdown.tokenize text options)
    options
  let nodes ← Work.ofExcept id nodes
  Work.log .debug s!"tokenized {d.source.text} ({nodes.length} nodes)"
  return { d with nodes, options }

theorem read_none (d : Document) (plugins : List Plugin) (options : Markdown.Options) :
    d.read none plugins options =
      Work.read d.source >>= fun body => d.split (body ++ "") plugins options := rfl

theorem read_some (d : Document) (path : Path) (plugins : List Plugin) (options : Markdown.Options) :
    d.read (some path) plugins options = Work.read d.source >>= fun body =>
      Work.read path >>= fun extra => d.split (body ++ extra) plugins options := rfl

theorem tracks_split (d : Document) (text : String) (plugins : List Plugin)
    (options : Markdown.Options) : Tracks x n (fun c c' => c' = x.onDocument c)
      (d.split text plugins options) ((x.onDocument d).split text plugins options) :=
  (tracks_runPlugins _ _ _ _).andThen fun _ => (tracks_ofExcept _ _).andThen fun _ =>
    (tracks_log _ _ _).andThen fun _ => tracks_pure rfl

theorem tracks_read {d : Document} {declaration : Option Path} (hd : d.source.IsNormal)
    (hreads : placeOf d.source ∈ x.reads)
    (hdeclaration : ∀ path ∈ declaration, path.IsNormal ∧ placeOf path ∈ x.reads)
    (plugins : List Plugin) (options : Markdown.Options) :
    Tracks x n (fun c c' => c' = x.onDocument c) (d.read declaration plugins options)
      ((x.onDocument d).read declaration plugins options) := by
  cases declaration with
  | none =>
    rw [read_none, read_none]
    exact (Work.tracks_read hd hreads).andThen fun _ => tracks_split d _ plugins options
  | some path =>
    obtain ⟨hnormal, hdeclared⟩ := hdeclaration path rfl
    rw [read_some, read_some]
    exact (Work.tracks_read hd hreads).andThen fun _ =>
      (Work.tracks_read hnormal hdeclared).andThen fun _ => tracks_split d _ plugins options

/-- Reading leaves a document the registry it has. -/
theorem ends_read_registry (d : Document) (declaration : Option Path) (plugins : List Plugin)
    (options : Markdown.Options) (s : Bench) :
    (d.read declaration plugins options).Ends s (fun c _ => c.registry = d.registry)
      fun _ => True := by
  have hsplit (text : String) (s : Bench) : (d.split text plugins options).Ends s
      (fun c _ => c.registry = d.registry) fun _ => True :=
    .last fun _ _ => .last fun _ _ => .last fun _ _ => rfl
  cases declaration with
  | none =>
    rw [read_none]
    exact .last fun _ => hsplit _
  | some path =>
    rw [read_some]
    exact .last fun _ _ => .last fun _ => hsplit _

theorem tracks_render {d : Document} (hpos : 0 < d.registry) (hlt : d.registry < n) :
    Tracks x n Eq d.render (x.onDocument d).render := by
  obtain ⟨result, origins, outline, -, hdocument⟩ :=
    Rendering.linkedDocument_eq d.options (d.source.parent?.getD ⟨"."⟩) d.nodes
  unfold Document.render
  refine Tracks.andThen ?_ fun rendered => (tracks_ofExcept _ _).andThen fun _ => tracks_pure rfl
  refine tracks_register (a := (result, outline)) origins hpos hlt (fun s => ?_) fun s => ?_
  · rw [hdocument]
  · exact congrArg (fun r : _ × Productions.Recording => ((r.1, r.2.outline), r.2.store))
      (hdocument (x.number d.registry) s)

end Document

namespace Layout

open Work

/-- What is read of a layout once its place is known. -/
def loadAt (path dir file : Path) (isFile : Bool) : Work Layout := do
  Work.ask [path, file]
  if isFile then
    return { dir := some dir, template := ← Work.read file }
  else
    Work.log .debug ("layout " ++ file.text ++ " not found, using the default page")
    return { dir := some dir }

theorem run_load (layout root : Path) (s : Bench) :
    (load (some layout) root).run.run s =
      (loadAt (root.resolve layout) (placeOf s.tree (root.resolve layout)).1
        (placeOf s.tree (root.resolve layout)).2
        (s.tree.isFile (placeOf s.tree (root.resolve layout)).2)).run.run s := by
  have hget (k : Bench → Work Layout) : ((get : Work Bench) >>= k).run.run s = (k s).run.run s := rfl
  unfold load
  dsimp only
  rw [hget]
  generalize placeOf s.tree (root.resolve layout) = place
  obtain ⟨dir, file⟩ := place
  rfl

theorem tracks_loadAt {file : Path} (hfile : file.IsNormal) (hreads : FileTree.placeOf file ∈ x.reads)
    (path dir : Path) (isFile : Bool) :
    Tracks x n Eq (loadAt path dir file isFile) (loadAt path dir file isFile) := by
  refine (tracks_ask _).andThen fun _ => ?_
  cases isFile with
  | true => exact (Work.tracks_read hfile hreads).andThen fun text => tracks_pure rfl
  | false => exact (tracks_log _ _ _).andThen fun _ => tracks_pure rfl

theorem ask_subset_loadAt (path dir file : Path) (isFile : Bool) (s : Bench) :
    [path, file] ⊆ ((loadAt path dir file isFile).run.run s).2.asked := by
  have hasked : ({ s with asked := s.asked ++ [path, file] } : Bench).asked ⊆
      ((loadAt path dir file isFile).run.run s).2.asked := by
    have hrun : (loadAt path dir file isFile).run.run s = (if isFile = true then
        Work.read file >>= fun template => pure { dir := some dir, template }
      else Work.log .debug ("layout " ++ file.text ++ " not found, using the default page") >>=
        fun _ => pure { dir := some dir }).run.run { s with asked := s.asked ++ [path, file] } := rfl
    rw [hrun]
    cases isFile with
    | true =>
      simp only [if_true]
      rw [run_bind, run_read]
      dsimp only
      cases s.tree.read file <;> exact List.subset_append_left _ _
    | false => exact List.Subset.refl _
  exact List.Subset.trans (List.subset_append_right _ _) hasked

theorem tracks_load : Tracks x n Eq (load x.layout x.brief.root) (load x.layout x.brief.root) := by
  cases hlayout : x.layout with
  | none => exact tracks_pure rfl
  | some layout =>
    obtain ⟨hpath, hindex⟩ := x.laid layout hlayout
    generalize hresolve : x.brief.root.resolve layout = path at hpath hindex
    have hnormal : path.IsNormal := hresolve ▸ Path.isNormal_resolve_of_absolute x.root.absolute layout
    have hreads (tree : FileTree) : FileTree.placeOf (placeOf tree path).2 ∈ x.reads := by
      unfold placeOf
      split
      · exact hindex
      · exact hpath
    have hat (u : Bench) (isFile : Bool) := tracks_loadAt (x := x) (n := n) (isNormal_file hnormal)
      (hreads u.tree) path (placeOf u.tree path).1 isFile
    constructor
    · intro u hn
      rw [run_load, hresolve]
      exact (hat u _).grown u hn
    · intro u v h hn
      unfold Follows
      rw [run_load, run_load, hresolve]
      intro hin
      have hasked := ask_subset_loadAt path (placeOf u.tree path).1 (placeOf u.tree path).2
        (u.tree.isFile (placeOf u.tree path).2) u
      have hplace : placeOf v.tree path = placeOf u.tree path := by
        unfold placeOf
        rw [h.trees.isDirectory_eq hnormal (hin.asked _ (hasked List.mem_cons_self))]
      have hfile : v.tree.isFile (placeOf u.tree path).2 = u.tree.isFile (placeOf u.tree path).2 :=
        h.trees.isFile_eq (.inl (hreads u.tree)) (isNormal_file hnormal)
          (hin.asked _ (hasked (List.mem_cons_of_mem _ List.mem_cons_self)))
      rw [hplace, hfile]
      exact (hat u _).follows u v h hn hin

theorem tracks_render (l : Layout) (content : String) (headings : List Heading)
    (data : Json.Fields) {r : RegistryId} (hpos : 0 < r) (hr : r < n) (root : Path) :
    Tracks x n Eq (l.render content headings data r root)
      (l.render content headings data (x.number r) root) := by
  unfold render
  obtain ⟨html, hhtml⟩ := l.run_withTokens root
  refine Tracks.andThen ?_ fun template => (tracks_ofExcept _ _).andThen fun _ => tracks_pure rfl
  exact tracks_register _ hpos hr (hhtml r) (hhtml (x.number r))

end Layout

end Bindery
