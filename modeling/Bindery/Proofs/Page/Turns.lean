import Bindery.Page.Plugin

/-! Plugins in a row. Each is given the value and the options that the one before it left. A run over two
lists goes over the second from what the first comes to, and the first plugin that breaks a promise or
hands back a value of the other stage ends the run. -/

namespace Bindery

/-- What a stage runs over. -/
def Stage.Carried : Stage → Type
  | .tokenize => List Markdown.Node
  | .transform => String

/-- The outcome with a value of the stage. -/
def Stage.handBack : (s : Stage) → s.Carried → Outcome
  | .tokenize, nodes => .tokens nodes
  | .transform, text => .html text

/-- The outcome behind so many promises that are kept. -/
def Outcome.promised (o : Outcome) : Nat → Outcome
  | 0 => o
  | n + 1 => .pending (.ok (o.promised n))

namespace Plugin

def hook : (s : Stage) → Hook s.Carried
  | .tokenize => tokenizeHook
  | .transform => transformHook

/-- What becomes of a value when it is a plugin's turn. -/
inductive Turns (s : Stage) (p : Plugin) (value : s.Carried) : Except PluginError s.Carried → Prop
  | passes (n : Nat) (h : (hook s).run p value = Outcome.pass.promised n) :
      Turns s p value (.ok value)
  | gives (n : Nat) {a : s.Carried} (h : (hook s).run p value = (s.handBack a).promised n) :
      Turns s p value (.ok a)
  | rejects (n : Nat) {reason : String}
      (h : (hook s).run p value = (Outcome.pending (.error reason)).promised n) :
      Turns s p value (.error (.rejected p.shownName s reason))
  | strays (n : Nat) {s' : Stage} {a : s'.Carried} (hs : s' ≠ s)
      (h : (hook s).run p value = (s'.handBack a).promised n) :
      Turns s p value (.error (.badOutcome p.shownName s))

/-- No plugin ends the run: `given` are the values that they are given, and the last one leaves
`last`. -/
inductive Through (s : Stage) : List Plugin → s.Carried → List s.Carried → s.Carried → Prop
  | nil (value : s.Carried) : Through s [] value [] value
  | cons {p : Plugin} {ps : List Plugin} {value next last : s.Carried} {given : List s.Carried}
      (h : Turns s p value (.ok next)) (hrest : Through s ps next given last) :
      Through s (p :: ps) value (value :: given) last

/-- The options that the plugins leave. -/
def adjusted (ps : List Plugin) (options : Markdown.Options) : Markdown.Options :=
  ps.foldl (fun o p => p.setOptions o) options

/-- The calls of plugins that are given these values: of each one first for its options, then for its
hook. -/
def visits (s : Stage) : List Plugin → List s.Carried → Markdown.Options → List Call
  | p :: ps, value :: given, options =>
    .options p.name options :: (hook s).call p.name value :: visits s ps given (p.setOptions options)
  | _, _, _ => []

/-- Goes on from where a run ended, unless it failed. -/
def Ran.andThen {α : Type} (r : Ran α) (next : α → Markdown.Options → Ran α) : Ran α :=
  match r.result with
  | .error _ => r
  | .ok value =>
    let more := next value r.options
    { more with calls := r.calls ++ more.calls }

/-! One plugin. -/

section Turn

variable {α : Type} {s : Stage} {p : Plugin} {ps : List Plugin}

theorem settle_promised (h : Hook α) (plugin : String) (o : Outcome) (n : Nat) :
    settle h plugin (o.promised n) = settle h plugin o := by
  induction n with
  | zero => rfl
  | succ n ih => exact ih

theorem settle_handBack (s : Stage) (plugin : String) (a : s.Carried) :
    settle (hook s) plugin (s.handBack a) = .ok (some a) := by
  cases s <;> rfl

theorem settle_foreign {s s' : Stage} (hs : s' ≠ s) (plugin : String) (a : s'.Carried) :
    settle (hook s) plugin (s'.handBack a) = .error (.badOutcome plugin s) := by
  cases s with
  | tokenize =>
    cases s' with
    | tokenize => exact absurd rfl hs
    | transform => rfl
  | transform =>
    cases s' with
    | tokenize => rfl
    | transform => exact absurd rfl hs

theorem settle_broken (s : Stage) (plugin reason : String) :
    settle (hook s) plugin (.pending (.error reason)) = .error (.rejected plugin s reason) := by
  cases s <;> rfl

/-- The value that a plugin leaves. -/
def turn (h : Hook α) (p : Plugin) (value : α) : Except PluginError α :=
  (settle h p.shownName (h.run p value)).map (·.getD value)

theorem Turns.turn_eq {value : s.Carried} {result : Except PluginError s.Carried}
    (h : Turns s p value result) : turn (hook s) p value = result := by
  unfold turn
  cases h with
  | passes n h =>
    rw [h, settle_promised]
    rfl
  | gives n h =>
    rw [h, settle_promised, settle_handBack]
    rfl
  | rejects n h =>
    rw [h, settle_promised, settle_broken]
    rfl
  | strays n hs h =>
    rw [h, settle_promised, settle_foreign hs]
    rfl

/-- Behind its kept promises an outcome is a pass, a value or a broken promise. -/
theorem exists_promised : ∀ o : Outcome, ∃ n, o = Outcome.pass.promised n ∨
    (∃ reason, o = (Outcome.pending (.error reason)).promised n) ∨
    ∃ (s : Stage) (a : s.Carried), o = (s.handBack a).promised n
  | .pass => ⟨0, .inl rfl⟩
  | .tokens nodes => ⟨0, .inr (.inr ⟨.tokenize, nodes, rfl⟩)⟩
  | .html text => ⟨0, .inr (.inr ⟨.transform, text, rfl⟩)⟩
  | .pending (.error reason) => ⟨0, .inr (.inl ⟨reason, rfl⟩)⟩
  | .pending (.ok later) => by
    obtain ⟨n, rfl | ⟨reason, rfl⟩ | ⟨s, a, rfl⟩⟩ := exists_promised later
    · exact ⟨n + 1, .inl rfl⟩
    · exact ⟨n + 1, .inr (.inl ⟨reason, rfl⟩)⟩
    · exact ⟨n + 1, .inr (.inr ⟨s, a, rfl⟩)⟩

theorem exists_turns (s : Stage) (p : Plugin) (value : s.Carried) :
    ∃ result, Turns s p value result := by
  -- A value is of the stage's own kind or of the other one.
  obtain ⟨n, h | ⟨reason, h⟩ | ⟨s', a, h⟩⟩ := exists_promised ((hook s).run p value)
  · exact ⟨_, .passes n h⟩
  · exact ⟨_, .rejects n h⟩
  · by_cases hs : s' = s
    · subst hs
      exact ⟨_, .gives n h⟩
    · exact ⟨_, .strays n hs h⟩

theorem runAll_cons_error {h : Hook α} {value : α} {e : PluginError}
    (hturn : turn h p value = .error e) (ps : List Plugin) (options : Markdown.Options) :
    runAll h (p :: ps) value options =
      ⟨.error e, p.setOptions options, [.options p.name options, h.call p.name value]⟩ := by
  unfold turn at hturn
  cases hsettle : settle h p.shownName (h.run p value) with
  | error e' =>
    rw [hsettle] at hturn
    obtain rfl := Except.error.inj hturn
    rw [runAll, hsettle]
  | ok next =>
    rw [hsettle] at hturn
    cases hturn

theorem runAll_cons_ok {h : Hook α} {value next : α} (hturn : turn h p value = .ok next)
    (ps : List Plugin) (options : Markdown.Options) :
    runAll h (p :: ps) value options =
      let rest := runAll h ps next (p.setOptions options)
      { rest with calls := .options p.name options :: h.call p.name value :: rest.calls } := by
  unfold turn at hturn
  cases hsettle : settle h p.shownName (h.run p value) with
  | error e =>
    rw [hsettle] at hturn
    cases hturn
  | ok kept =>
    rw [hsettle] at hturn
    obtain rfl := Except.ok.inj hturn
    rw [runAll, hsettle]
    rfl

end Turn

/-! A list of plugins. -/

theorem runAll_append {α : Type} (h : Hook α) (ps qs : List Plugin) (value : α)
    (options : Markdown.Options) :
    runAll h (ps ++ qs) value options = (runAll h ps value options).andThen (runAll h qs) := by
  induction ps generalizing value options with
  | nil => rfl
  | cons p ps ih =>
    rw [List.cons_append]
    cases hturn : turn h p value with
    | error e =>
      rw [runAll_cons_error hturn, runAll_cons_error hturn]
      rfl
    | ok next =>
      rw [runAll_cons_ok hturn, runAll_cons_ok hturn, ih]
      unfold Ran.andThen
      -- What the rest of the first list comes to decides for the whole of it.
      cases hrest : (runAll h ps next (p.setOptions options)).result with
      | error e => rfl
      | ok last => rfl

section Run

variable {s : Stage} {ps front : List Plugin} {p : Plugin} {value last : s.Carried}
  {given : List s.Carried}

theorem Through.runAll_append (h : Through s front value given last) (ps : List Plugin)
    (options : Markdown.Options) : runAll (hook s) (front ++ ps) value options =
      let rest := runAll (hook s) ps last (adjusted front options)
      { rest with calls := visits s front given options ++ rest.calls } := by
  induction h generalizing options with
  | nil value => rfl
  | cons hturn _ ih =>
    rw [List.cons_append, runAll_cons_ok hturn.turn_eq, ih]
    rfl

theorem Through.visits_append (h : Through s front value given last) (p : Plugin)
    (options : Markdown.Options) : visits s (front ++ [p]) (given ++ [last]) options =
      visits s front given options ++
        [.options p.name (adjusted front options), (hook s).call p.name last] := by
  induction h generalizing options with
  | nil value => rfl
  | @cons q ps value next last given _ _ ih =>
    exact congrArg (.options q.name options :: (hook s).call q.name value :: ·)
      (ih (q.setOptions options))

theorem Through.runAll_eq (h : Through s ps value given last) (options : Markdown.Options) :
    runAll (hook s) ps value options =
      ⟨.ok last, adjusted ps options, visits s ps given options⟩ := by
  have hrun := h.runAll_append [] options
  rw [List.append_nil] at hrun
  rw [hrun]
  simp [runAll]

theorem Through.runAll_error (h : Through s front value given last) {e : PluginError}
    (hturn : Turns s p last (.error e)) (rest : List Plugin) (options : Markdown.Options) :
    runAll (hook s) (front ++ p :: rest) value options = ⟨.error e, adjusted (front ++ [p]) options,
      visits s (front ++ [p]) (given ++ [last]) options⟩ := by
  have hoptions : adjusted (front ++ [p]) options = p.setOptions (adjusted front options) :=
    List.foldl_append
  rw [h.runAll_append, runAll_cons_error hturn.turn_eq, h.visits_append, hoptions]

/-- Every run goes through, or a first plugin ends it. -/
theorem through_or_ends (s : Stage) (ps : List Plugin) (value : s.Carried) :
    (∃ given last, Through s ps value given last) ∨
      ∃ front p rest given last e, ps = front ++ p :: rest ∧ Through s front value given last ∧
        Turns s p last (.error e) := by
  induction ps generalizing value with
  | nil => exact .inl ⟨[], value, .nil value⟩
  | cons p ps ih =>
    obtain ⟨result, hturn⟩ := exists_turns s p value
    cases result with
    | error e => exact .inr ⟨[], p, ps, [], value, e, rfl, .nil value, hturn⟩
    | ok next =>
      rcases ih next with ⟨given, last, hrest⟩ | ⟨front, q, rest, given, last, e, rfl, hrest, hend⟩
      · exact .inl ⟨value :: given, last, .cons hturn hrest⟩
      · exact .inr ⟨p :: front, q, rest, value :: given, last, e, rfl, .cons hturn hrest, hend⟩

end Run

/-- A run over a list of plugins is one over its beginning and, if that succeeds, one over the rest.
Promises that are kept do not count. A run succeeds when each plugin passes or hands back a value of
the stage, and otherwise ends with the fault of the first one that does not. The calls are those of
the plugins up to the end, and the options are as these left them. -/
theorem runAll_failFast (s : Stage) (value : s.Carried) (options : Markdown.Options) :
    (∀ ps qs, runAll (hook s) (ps ++ qs) value options =
      (runAll (hook s) ps value options).andThen (runAll (hook s) qs)) ∧
    (∀ plugin (o : Outcome) n, settle (hook s) plugin (o.promised n) = settle (hook s) plugin o) ∧
    (∀ ps given last, Through s ps value given last →
      runAll (hook s) ps value options =
        ⟨.ok last, adjusted ps options, visits s ps given options⟩) ∧
    (∀ front p rest given last e, Through s front value given last → Turns s p last (.error e) →
      runAll (hook s) (front ++ p :: rest) value options = ⟨.error e, adjusted (front ++ [p]) options,
        visits s (front ++ [p]) (given ++ [last]) options⟩) ∧
    ∀ ps, (∃ given last, Through s ps value given last) ∨
      ∃ front p rest given last e, ps = front ++ p :: rest ∧ Through s front value given last ∧
        Turns s p last (.error e) := by
  refine ⟨fun ps qs => runAll_append _ ps qs value options,
    fun plugin o n => settle_promised _ plugin o n, fun ps given last h => h.runAll_eq options, ?_,
    fun ps => through_or_ends s ps value⟩
  intro front p rest given last e h hturn
  exact h.runAll_error hturn rest options

/-- The third plugin breaks a promise behind a kept one, and the fourth is not called. -/
theorem runAll_failFast_rejected :
    let mark : Plugin := { name := some "mark", setOptions := fun o => { o with xhtml := true }
                           transform := fun html => .pending (.ok (.html (html ++ "!"))) }
    let rest : Plugin := {}
    let torn : Plugin := { transform := fun _ => .pending (.ok (.pending (.error "boom"))) }
    let late : Plugin := { name := some "late" }
    runAll transformHook [mark, rest, torn, late] "hi" {} =
      ⟨.error (.rejected "anonymous" .transform "boom"), { xhtml := true },
        [.options (some "mark") {}, .transform (some "mark") "hi",
          .options none { xhtml := true }, .transform none ("hi" ++ "!"),
          .options none { xhtml := true }, .transform none ("hi" ++ "!")]⟩ := by
  intro mark rest torn late
  have hthrough : Through .transform [mark, rest] "hi" ["hi", "hi" ++ "!"] ("hi" ++ "!") :=
    .cons (.gives 1 rfl) (.cons (.passes 0 rfl) (.nil _))
  have htorn : Turns .transform torn ("hi" ++ "!") (.error (.rejected "anonymous" .transform "boom")) :=
    .rejects 1 rfl
  exact (runAll_failFast .transform "hi" {}).2.2.2.1 [mark, rest] torn [late] _ _ _ hthrough htorn

end Plugin
end Bindery
