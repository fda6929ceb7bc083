import NbdVram.Safety

/-!
# What a connection has carried

A trace read from the client's side. Between two requests everything received is the
requests answered, cut as a plain sequential parser cuts it, and everything sent is
their replies in order; a DISC comes after the last reply; and a connection is
dropped only where its stream breaks off, a send fails or a block has failed.
-/

namespace NbdVram

open Interleave Span MutationLog

variable {cfg : Config} {md : Mode} {s : State} {w : ℕ} {x x₀ : Local} {hs : List Hap} {on : Bool}
  {p p' : Net} {gin gout : List UInt8}

/-- All that was received are the requests of `ds`, all that was sent are their answers, data
following exactly after a successful READ. -/
structure Talk (p : Net) (ds : List Done) : Prop where
  frames : Frames p.got (ds.map Done.req)
  out : p.out = ds.flatMap Done.reply
  data : ∀ d ∈ ds, d.out.length = if d.req.cmd = .read ∧ d.err = .ok then d.req.len else 0

/-- The requests are those that the sequential parser finds. -/
theorem Talk.parse {ds : List Done} (h : Talk p ds) : parse p.got = (ds.map Done.req, []) := by
  have hp : NbdVram.parse (p.got ++ []) =
      (ds.map Done.req ++ (NbdVram.parse []).1, (NbdVram.parse []).2) := h.frames.parse
  rwa [parse_nil, List.append_nil, List.append_nil] at hp

theorem Talk.append {ds ds' : List Done} {raw : List UInt8} (h : Talk p ds)
    (hf : Frames raw (ds'.map Done.req)) (ht : Talked p p' raw (ds'.flatMap Done.reply))
    (hd : ∀ d ∈ ds', d.out.length = if d.req.cmd = .read ∧ d.err = .ok then d.req.len else 0) :
    Talk p' (ds ++ ds') := by
  refine ⟨?_, ?_, fun d hmem => ?_⟩
  · rw [ht.got, List.map_append]
    exact h.frames.append hf
  · rw [ht.out, h.out, List.flatMap_append]
  · rcases List.mem_append.mp hmem with hmem | hmem
    · exact h.data d hmem
    · exact hd d hmem

theorem Carried.data {ds : List Done} {x' : Local} (h : Carried cfg md w x ds x') :
    ∀ d ∈ ds, d.out.length = if d.req.cmd = .read ∧ d.err = .ok then d.req.len else 0 := by
  intro d hd
  obtain ⟨i, hi⟩ := List.mem_iff_getElem?.mp hd
  exact h.out hi

/-- **Between two requests.** -/
theorem Trace.talk (h : Trace cfg md w false x₀ hs x) (hon : hs.foldl Hap.open false = true) :
    ∃ ds, Talk x.priv.net ds := by
  induction h with
  | nil => cases hon
  | accept inp eof _ _ => exact ⟨[], .nil, rfl, by simp⟩
  | group _ hon' hf hc _ htk ih =>
      obtain ⟨ds, hds⟩ := ih hon'
      exact ⟨_, hds.append hf htk hc.data⟩
  | disc _ _ _ _ _ | cut _ _ _ _ _ =>
      rw [List.foldl_append] at hon
      cases hon

/-- A worker at rest may have its trace counted from here. -/
theorem Daemon.Reachable.restart {S : Daemon cfg} (h : Daemon.Reachable cfg md S) (hs : md.since = 0)
    {ph : Phase} (hw : S.prog w = .ret ph) : ∃ base start,
      Safe (contract cfg md) (Post cfg md base start) S ∧ base w = S.st.known cfg w ∧ start w = ph := by
  obtain ⟨S₀, -, hsafe⟩ := h.safe hs
  obtain ⟨hq, hb⟩ := h.quiet hs hw
  refine ⟨Function.update (S₀.st.known cfg) w (S.st.known cfg w), Function.update S₀.phase w ph,
    hsafe.rebase fun v => ?_, Function.update_self .., Function.update_self ..⟩
  by_cases hv : v = w
  · subst hv
    refine .inr ⟨ph, hw, hq.post hb (by rw [hs]; exact Nat.zero_le _) ?_ ?_⟩
    · exact Function.update_self ..
    · exact Function.update_self ..
  · left
    funext ph' s'
    simp only [Post, Function.update_of_ne hv]

/-- What has happened to a worker since it was at rest. -/
theorem Daemon.Reachable.trace {S S' : Daemon cfg} (h : Daemon.Reachable cfg md S)
    (hs : md.since = 0) {ph ph' : Phase} (hw : S.prog w = .ret ph) (hrun : Daemon.Run cfg md S S')
    (hw' : S'.prog w = .ret ph') : ∃ hs x, Loc cfg w x S'.st ∧ x.Rest md ∧
      Trace cfg md w ph.open (S.st.known cfg w) hs x ∧ Phase.Fits ph hs ph' := by
  obtain ⟨base, start, hsafe, hb, hst⟩ := h.restart hs hw
  obtain ⟨hs, x, hx, hr, ht, hf⟩ := (hsafe.run (Daemon.rounds cfg md base start) hrun).post hw'
  rw [hb, hst] at ht
  rw [hst] at hf
  exact ⟨hs, x, hx, hr, ht, hf⟩

/-! ## Framing -/

/-- A worker's history from the start of the daemon, when no connection was open. -/
theorem Daemon.Reachable.history {S : Daemon cfg} (h : Daemon.Reachable cfg md S)
    (hs : md.since = 0) {ph : Phase} (hw : S.prog w = .ret ph) : ∃ x₀ hs x, x.priv = S.st.priv w ∧
      Trace cfg md w false x₀ hs x ∧ (ph.open = true → hs.foldl Hap.open false = true) ∧
      (∀ m, ph = .ended .disc m → ∃ hs', hs = hs' ++ [.disc]) ∧
      (∀ m, ph = .ended .drop m → ∃ hs', hs = hs' ++ [.cut]) := by
  obtain ⟨S₀, h0, hsafe⟩ := h.safe hs
  obtain ⟨hs, x, hx, -, ht, hfit⟩ := hsafe.post hw
  -- a daemon starts with all workers waiting
  have hstart : (S₀.phase w).open = false ∧ ∀ why m, S₀.phase w ≠ .ended why m := by
    rcases h0.2 w with hq | ⟨m, hq⟩ <;> rw [Daemon.phase_eq hq] <;> exact ⟨rfl, by simp⟩
  rw [hstart.1] at ht
  refine ⟨_, hs, x, hx.priv.symm, ht, fun ho => ?_, ?_, ?_⟩
  · cases ph with
    | serving m => rwa [Phase.Fits, hstart.1] at hfit
    | ended why m =>
        cases why with
        | stop => rwa [Phase.Fits, hstart.1] at hfit
        | disc | drop => cases ho
    | logging | waiting m | stopped m => cases ho
  · rintro m rfl
    exact hfit.resolve_right fun ⟨_, m', hm'⟩ => hstart.2 _ _ hm'
  · rintro m rfl
    exact hfit.resolve_right fun ⟨_, m', hm'⟩ => hstart.2 _ _ hm'

end NbdVram
