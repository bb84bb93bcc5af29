import Bindery.Proofs.Project.Sessions

/-! A page is always compiled to its end. Whatever a program did before and whatever the links of the
documents are, the depth that a run is given is never used up, no greater depth changes the run, and
no document is compiled for a link twice in a session. -/

namespace Bindery

namespace Bundle

/-- Writing a bundle comes to an end, the same within every depth from the one of its bench on, and
takes no document up for a link that was taken up before in the session. -/
theorem write_ends {s : Bench} {bs : List Bundle} {b : Bundle} (h : s.Arises bs) (hb : b ∈ bs) :
    ∃ r b' s', (write.run.run b).run s = ((r, b'), s') ∧ r ≠ .error .tooDeep ∧
      (∀ depth, s.depth b.brief.mapping ≤ depth →
        ((writeWithin depth).run.run b).run s = ((r, b'), s')) ∧
      s.session.linked <+: s'.session.linked ∧ s'.session.linked.Nodup := by
  obtain ⟨hregular, hall⟩ := h.regular
  have hexits := (hall b hb).exits_write hregular
  rcases hrun : (write.run.run b).run s with ⟨⟨r, b'⟩, s'⟩
  have hdeep : r ≠ .error .tooDeep := by
    rintro rfl
    exact (hexits.error hrun).2.depth rfl
  refine ⟨r, b', s', rfl, hdeep, fun depth hdepth => ?_, ?_⟩
  · have hwithin : ((writeWithin (s.depth b.brief.mapping)).run.run b).run s = ((r, b'), s') :=
      (run_write b s).symm.trans hrun
    rcases refines_writeWithin hdepth b s with hfails | hsame
    · rw [hwithin] at hfails
      exact absurd hfails hdeep
    · exact hsame.symm.trans hwithin
  · obtain ⟨honward, hs'⟩ := (hexits.mono (fun _ _ _ h => ⟨h.2.2, h.2.1⟩)
      fun _ _ _ h => ⟨h.2.onward, h.2.regular⟩).any (P := fun _ s' => s.Onward s' ∧ s'.Regular) hrun
    exact ⟨honward.linked, hs'.nodup⟩

/-- A document that leads to two others, which link to each other. -/
def ring : FileTree := { files := [
  (["a.md"], .text "[](b.md)"), (["b.md"], .text "[](c.md)"), (["c.md"], .text "[](b.md)"),
  (["page"], .text "")] }

def ringSettings : Settings :=
  { input := some (.one "a.md"), output := { dist := some ⟨"out"⟩, layout := some ⟨"page"⟩ } }

/-- Each of the two is compiled once. -/
theorem write_ends_ring : ∃ s b r b' s', Bench.Arises s [b] ∧
    s'.session.linked = [⟨"/b.md"⟩, ⟨"/c.md"⟩] ∧
    (write.run.run b).run s = ((r, b'), s') ∧ r ≠ .error .tooDeep ∧
    (∀ depth, s.depth b.brief.mapping ≤ depth →
      ((writeWithin depth).run.run b).run s = ((r, b'), s')) ∧
    s.session.linked <+: s'.session.linked ∧ s'.session.linked.Nodup := by
  have hlinked : let made := (ringSettings.make ⟨"/"⟩).run.run { tree := ring, session := .fresh }
      made.1.toOption.map (fun b => ((write.run.run b).run made.2).2.session.linked) =
        some [⟨"/b.md"⟩, ⟨"/c.md"⟩] := by
    decide +kernel
  generalize hmade : (ringSettings.make ⟨"/"⟩).run.run { tree := ring, session := .fresh } =
    made at hlinked
  obtain ⟨result, s⟩ := made
  cases result with
  | error f => cases hlinked
  | ok b =>
    have hcwd : (⟨"/"⟩ : Path).IsNormal := ⟨rfl, by decide +kernel⟩
    have harises : s.Arises [b] := .make (.fresh ring rfl) hcwd hmade
    obtain ⟨r, b', s', hwrite, hends⟩ := write_ends harises List.mem_cons_self
    refine ⟨s, b, r, b', s', harises, ?_, hwrite, hends⟩
    have hafter : ((write.run.run b).run s).2.session.linked = [⟨"/b.md"⟩, ⟨"/c.md"⟩] :=
      Option.some.inj hlinked
    rwa [hwrite] at hafter

end Bundle
end Bindery
