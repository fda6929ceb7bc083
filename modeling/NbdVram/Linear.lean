import NbdVram.Accounts

/-!
# Reads and instants

The log of mutations is the history of the blocks: a state of a run whose log has
length `t` is an instant at which every block holds what the first `t` mutations
made of it. So a page that agrees with a prefix of the log is what its block held
at an instant of the run, and the positions at which a request began and its op
was last looked up say between which instants that was.
-/

namespace NbdVram

open Interleave MutationLog

variable {cfg : Config} {md : Mode} {s s' : State} {w : ℕ}

/-! ## Instants of a run -/

/-- A step logs at most one mutation. -/
theorem exec_log {o : Op} {c : Choice} {r : o.Res} (he : exec cfg w o c s = some (r, s')) :
    s'.log = s.log ∨ ∃ m, s'.log = s.log ++ [m] := by
  rcases exec_store he with ⟨-, -, hl⟩ | ⟨req, b, e, -, rfl⟩
  · exact .inl hl
  · exact .inr ⟨_, rfl⟩

theorem Daemon.Step.log {S S' : Daemon cfg} (h : Sys.Step (md.Adm cfg) (fun _ => next cfg) S S') :
    S'.st.log = S.st.log ∨ ∃ m, S'.st.log = S.st.log ++ [m] := by
  cases h with
  | act _ _ he => exact exec_log he
  | tau ht =>
      cases ht with
      | move _ => exact .inl (move_log _)
      | stop => exact .inl rfl

/-- Every length between those of the log at the two ends of a run is that of some state on
the way, which has logged a prefix. -/
theorem Daemon.Run.instant {S S' : Daemon cfg} (hrun : Daemon.Run cfg md S S') :
    S.st.log <+: S'.st.log ∧ ∀ t, S.st.log.length ≤ t → t ≤ S'.st.log.length →
      ∃ T : Daemon cfg, Daemon.Run cfg md S T ∧ Daemon.Run cfg md T S' ∧
        T.st.log = S'.st.log.take t := by
  induction hrun with
  | refl =>
      refine ⟨List.prefix_rfl, fun t h1 h2 => ⟨S, .refl, .refl, ?_⟩⟩
      rw [List.take_of_length_le h1]
  | @tail S₁ S₂ hrun hstep ih =>
      obtain ⟨hpre, hinst⟩ := ih
      have hlog := Daemon.Step.log hstep
      have hle : S₁.st.log <+: S₂.st.log := by
        rcases hlog with hl | ⟨m, hl⟩
        · rw [hl]
        · rw [hl]
          exact List.prefix_append _ _
      refine ⟨hpre.trans hle, fun t h1 h2 => ?_⟩
      rcases Nat.lt_or_ge S₁.st.log.length t with hlt | hge
      · refine ⟨S₂, hrun.tail hstep, .refl, (List.take_of_length_le ?_).symm⟩
        rcases hlog with hl | ⟨m, hl⟩
        · rw [hl]
          exact hlt.le
        · rw [hl, List.length_append, List.length_singleton]
          exact hlt
      · obtain ⟨T, hT, hT', hl⟩ := hinst t h1 hge
        refine ⟨T, hT, hT'.tail hstep, ?_⟩
        rw [hl, take_of_prefix hle hge]

/-! ## Snapshots -/

/-- No snapshot is older than the request it belongs to. -/
def State.Timed (s : State) : Prop :=
  ∀ w i, (s.priv w).start ≤ s.log.length ∧ (s.priv w).start ≤ (s.priv w).snap i

theorem State.Timed.congr (h : s.Timed) (hl : s.log.length ≤ s'.log.length)
    (hst : ∀ v, (s'.priv v).start = (s.priv v).start)
    (hsn : ∀ v i, (s'.priv v).snap i = (s.priv v).snap i) : s'.Timed := by
  intro v i
  rw [hst, hsn]
  exact ⟨(h v i).1.trans hl, (h v i).2⟩

theorem State.Timed.setPriv {p : Priv} (h : s.Timed) (hst : p.start = (s.priv w).start)
    (hsn : p.snap = (s.priv w).snap) : (s.setPriv w p).Timed := by
  refine h.congr le_rfl (fun v => ?_) fun v i => ?_
  all_goals
    by_cases hv : v = w
    · subst hv
      simp only [State.setPriv_self, hst, hsn]
    · rw [State.setPriv_of_ne hv]

theorem moves_priv (l : List Move) (s : State) : (s.moves w l).priv = s.priv := by
  induction l generalizing s with
  | nil => rfl
  | cons mv l ih => rw [State.moves, ih, move_priv]

theorem exec_timed {o : Op} {c : Choice} {r : o.Res} (he : exec cfg w o c s = some (r, s'))
    (ht : s.Timed) : s'.Timed := by
  cases o with
  | idxStore req b e =>
      cases he
      refine ht.congr ?_ (fun v => ?_) fun v i => ?_
      · show s.log.length ≤ (s.log ++ [_]).length
        rw [List.length_append]
        exact Nat.le_add_right _ _
      all_goals
        simp only [State.store, Function.update_apply]
        split
        · rename_i hv
          rw [hv]
          rfl
        · rfl
  | idxLoad why b =>
      cases why with
      | snapshot i =>
          cases he
          intro v j
          by_cases hv : v = w
          · subst hv
            rw [State.setPriv_self]
            refine ⟨(ht v j).1, ?_⟩
            show (s.priv v).start ≤ Function.update (s.priv v).snap i s.log.length j
            rw [Function.update_apply]
            split
            · exact (ht v i).1
            · exact (ht v j).2
          · rw [State.setPriv_of_ne hv]
            exact ht v j
      | _ =>
          cases he
          exact ht
  | event e =>
      cases e with
      | begin reqs =>
          cases he
          intro v j
          by_cases hv : v = w
          · subst hv
            rw [State.setPriv_self]
            exact ⟨le_rfl, le_rfl⟩
          · rw [State.setPriv_of_ne hv]
            exact ht v j
      | _ =>
          cases he
          first
            | exact ht
            | exact ht.setPriv rfl rfl
  | sync =>
      simp only [exec] at he
      split at he
      · cases he
        exact ht
      · cases he
        exact ht.congr (by rw [(moves_same _ _).2.2]) (fun v => by rw [moves_priv])
          fun v i => by rw [moves_priv]
  | ctrAdd x n | ctrSub x n =>
      cases he
      refine State.Timed.setPriv (s := { s with ctr := _ }) ht ?_ ?_
      all_goals
        unfold Priv.pay
        split <;> rfl
  | _ =>
      simp only [exec] at he
      repeat' split at he
      all_goals cases he
      all_goals first
        | exact ht
        | exact ht.setPriv rfl rfl

theorem Daemon.Reachable.timed {S : Daemon cfg} (h : Daemon.Reachable cfg md S)
    (hs : md.since = 0) : S.st.Timed := by
  refine h.induct hs (fun s h0 w i => ?_) (fun w o c r s s' _ he ht => ?_) fun s s' h ht => ?_
  · rw [h0.start]
    exact ⟨Nat.zero_le _, Nat.zero_le _⟩
  · exact exec_timed he ht
  · cases h with
    | move _ =>
        exact ht.congr (by rw [move_log]) (fun v => by rw [move_priv]) fun v i => by rw [move_priv]
    | stop => exact ht.congr le_rfl (fun _ => rfl) fun _ _ => rfl

/-! ## Reads -/

/-- Copies and synchronizes succeed, and no generation wraps while a read looks away. -/
def Mode.reads : Mode := { Mode.any with sync := true, launch := true, gen := true }

/-- **The read path is linearizable per block.** In every run with any number of workers in which
copies and synchronizes succeed, the codec brings back what it compressed and fewer than `2 ^ 21`
mutations of a block come between a snapshot and its validation: when `do_blocks` completes a READ
op, the op has no error and its page is what its block held in some state of the run, reached after
the request had begun and the op had last been looked up. -/
theorem read_linearizable (hcodec : cfg.codec.RoundTrip) {S₀ S : Daemon cfg}
    (h0 : Daemon.Initial cfg S₀) (hrun : Daemon.Run cfg .reads S₀ S) {i b : ℕ} {p : Page} {err : Err}
    (hn : S.Next w (.event (.readDone i b p err))) :
    err = .ok ∧ ∃ T : Daemon cfg, Daemon.Run cfg .reads S₀ T ∧ Daemon.Run cfg .reads T S ∧
      (S.st.priv w).start ≤ (S.st.priv w).snap i ∧ (S.st.priv w).snap i ≤ T.st.log.length ∧
      T.st.content cfg b = p := by
  have h : Daemon.Reachable cfg .reads S := ⟨S₀, h0, hrun⟩
  obtain ⟨hok, hseen⟩ := h.next_pre rfl hn ⟨⟨rfl, hcodec⟩, .inl rfl⟩
  refine ⟨hok rfl, ?_⟩
  obtain ⟨t, h1, h2, rfl⟩ := hseen (hok rfl)
  obtain ⟨T, hT, hT', hl⟩ := hrun.instant.2 t (by rw [h0.1.log]; exact Nat.zero_le _) h2
  refine ⟨T, hT, hT', (h.timed rfl w i).2, ?_, ?_⟩
  · rwa [hl, List.length_take_of_le h2]
  · have hi : Inv cfg .reads T.st := Daemon.Reachable.inv ⟨S₀, h0, hT⟩ rfl
    rw [hi.content, hl]

/-! ## Runs without failures -/

/-- What the modes without demands on the allocator, on batches or on the other workers allow. -/
theorem Mode.plain_adm (hal : md.alloc = false) (hap : md.apart = false) (hso : md.solo = none)
    (o : Op) (c : Choice) (hc : c.fail = false) (hl : s.log.length < 2 ^ 21) :
    md.Adm cfg w o c s := by
  cases o with
  | sync | dtoh _ _ _ _ => exact fun _ => hc
  | htod _ _ _ _ => exact ⟨fun _ => hc, fun _ _ => hc⟩
  | slotAlloc _ _ =>
      intro h
      rw [hal] at h
      cases h
  | idxStore _ _ _ =>
      intro v hv
      rw [hso] at hv
      cases hv
  | idxLoad why b =>
      cases why with
      | recheck i =>
          refine ⟨fun v hv => ?_, fun _ => lt_of_le_of_lt (List.countP_le_length.trans ?_) hl⟩
          · rw [hso] at hv
            cases hv
          · rw [List.length_drop]
            exact Nat.sub_le _ _
      | _ => trivial
  | event e =>
      cases e with
      | begin _ =>
          intro h
          rw [hap] at h
          cases h
      | _ => trivial
  | _ => trivial

/-- Without failures a driven worker runs in all these modes. -/
theorem Daemon.drive_plain (hal : md.alloc = false) (hap : md.apart = false) (hso : md.solo = none)
    (cs : List Choice) (hcs : ∀ c ∈ cs, c.fail = false) (S : Daemon cfg)
    (hl : S.st.log.length + cs.length ≤ 2 ^ 21) : Daemon.Run cfg md S (Daemon.drive w cs S) := by
  induction cs generalizing S with
  | nil => exact .refl
  | cons c cs ih =>
      rw [List.length_cons] at hl
      rw [Daemon.drive]
      split
      · exact .refl
      · rename_i o k hk
        split
        · exact .refl
        · rename_i x he
          have hstep := Daemon.step hk (Mode.plain_adm hal hap hso o c
            (hcs c List.mem_cons_self) (by omega)) he
          refine .head hstep (ih (fun c' hc' => hcs c' (List.mem_cons_of_mem _ hc')) _ ?_)
          rcases exec_log he with h | ⟨m, h⟩
          · rw [h]
            omega
          · rw [h, List.length_append, List.length_singleton]
            omega

/-- A worker that completes the READ of a block nobody has written. -/
def Daemon.seeing : Daemon smallConfig :=
  Daemon.drive 0 (.client readHdr :: List.replicate 11 .plain) (Daemon.booted smallConfig)

theorem read_linearizable_seeing : ∃ p,
    Daemon.seeing.Next 0 (.event (.readDone 0 0 p .ok)) ∧
      ∃ T : Daemon smallConfig, T.st.content smallConfig 0 = p := by
  have hn : ∃ p, Daemon.seeing.Next 0 (.event (.readDone 0 0 p .ok)) := ⟨_, _, rfl⟩
  obtain ⟨p, hn⟩ := hn
  have hrun : Daemon.Run smallConfig .reads (Daemon.booted smallConfig) Daemon.seeing :=
    Daemon.drive_plain rfl rfl rfl _ (by decide) _ (by decide)
  obtain ⟨-, T, -, -, -, -, hT⟩ := read_linearizable (fun h => absurd rfl h)
    ⟨State.boot_initial smallConfig, fun _ => .inr ⟨.blank, rfl⟩⟩ hrun hn
  exact ⟨p, hn, T, hT⟩

end NbdVram
