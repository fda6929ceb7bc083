import NbdVram.Flat
import NbdVram.Safety

/-!
# One worker while the others stand still

From any reachable state, and whatever the others are in the middle of, a worker
that is between two requests may go on alone: the invariant holds in the stricter
mode in which only this worker mutates the index, and nothing but a mutex of
another worker can keep its program from coming to its end.
-/

namespace NbdVram

open Interleave Span MutationLog Relation

variable {cfg : Config} {md : Mode} {s s' : State} {w : ℕ} {x : Local}

/-- What the device shows at each address. -/
def State.bytes (cfg : Config) (s : State) : Disk :=
  fun a => (s.content cfg (a / 4096)).bytes.getD (a % 4096) default

theorem Inv.bytes (h : Inv cfg md s) : s.bytes cfg = disk s.log := by
  funext a
  rw [State.bytes, h.content, pageOf, Page.read_bytes, slice_getD (Nat.mod_lt _ (by decide))]
  congr 1
  omega

/-- A worker between two requests. -/
structure State.Idle (s : State) (w : ℕ) : Prop where
  lock : ∀ m, s.lock m ≠ some w
  pend : s.pend w = []
  disp : s.disp w = []
  busy : (s.priv w).busy = false

/-- The mode in which only worker `w` goes on from `s`. -/
def Mode.alone (md : Mode) (w : ℕ) (s : State) : Mode :=
  { md with solo := some w, since := s.log.length, left := s.resv w }

theorem Mode.Adm.alone {o : Op} {c : Choice} {s₀ : State} (h : md.Adm cfg w o c s) :
    (md.alone w s₀).Adm cfg w o c s := by
  cases o with
  | idxStore _ _ _ => exact fun v hv => Option.some.inj hv
  | idxLoad why b =>
      cases why with
      | recheck i => exact ⟨fun v hv => Option.some.inj hv, h.2⟩
      | plain | snapshot i => trivial
  | event e =>
      cases e with
      | begin reqs => exact h
      | _ => trivial
  | sync | htod _ _ _ _ | dtoh _ _ _ _ | slotAlloc _ _ => exact h
  | _ => trivial

theorem Mode.Adm.of_alone {o : Op} {c : Choice} {s₀ : State} (hs : md.solo = none)
    (h : (md.alone w s₀).Adm cfg w o c s) : md.Adm cfg w o c s := by
  have hno : ∀ v, md.solo = some v → w = v := fun v hv => by
    rw [hs] at hv
    cases hv
  cases o with
  | idxStore _ _ _ => exact hno
  | idxLoad why b =>
      cases why with
      | recheck i => exact ⟨hno, h.2⟩
      | plain | snapshot i => trivial
  | event e =>
      cases e with
      | begin reqs => exact h
      | _ => trivial
  | sync | htod _ _ _ _ | dtoh _ _ _ _ | slotAlloc _ _ => exact h
  | _ => trivial

theorem Inv.alone {md' : Mode} (h : Inv cfg md s) (hm : md'.Stores cfg → md.Stores cfg) :
    Inv cfg (md'.alone w s) s := by
  refine ⟨h.alloc, h.owned, h.resv_nodup, h.disp_nodup, h.entry, h.pend, h.content,
    fun hs => h.decodes (hm hs), fun v _ m hmem => ?_, h.books⟩
  have hnil : s.log.drop (md'.alone w s).since = [] := List.drop_length
  rw [hnil] at hmem
  cases hmem

namespace State.Idle

theorem quiet (h : s.Idle w) : Quiet (md.alone w s) w s := ⟨h.lock, h.pend, h.disp, fun _ _ hg => hg⟩

theorem loc (h : s.Idle w) : Loc cfg w (s.known cfg w) s := (@quiet .any _ _ h).loc

theorem rest (h : s.Idle w) : (s.known cfg w).Rest (md.alone w s) := h.quiet.rest h.busy le_rfl

end State.Idle

/-- Whoever is alone has all mutations in view. -/
theorem Loc.log_eq (hi : Inv cfg md s) (hx : Loc cfg w x s) (hs : md.solo = some w)
    (hl : md.since ≤ x.log.length) : s.log = x.log := by
  obtain ⟨new, hlog, hf⟩ := hx.log
  cases new with
  | nil => simpa using hlog
  | cons m new =>
      refine absurd (hi.solo w hs m ?_) (hf m List.mem_cons_self)
      rw [hlog, List.drop_append_of_le_length hl]
      exact List.mem_append_right _ List.mem_cons_self

/-- The mutations of others that a lone worker has met. -/
theorem Alien.nil_of_solo {new : List Mut} (hf : Alien w new) (hown : ∀ m ∈ new, m.who = w) :
    new = [] := by
  cases new with
  | nil => rfl
  | cons m new => exact absurd (hown m List.mem_cons_self) (hf m List.mem_cons_self)

/-- What one worker does leaves the slots of the others with them. -/
theorem env_held {v : ℕ} (h : ReflTransGen ((contract cfg md).Env v) s s') :
    s'.resv v = s.resv v ∧ s'.disp v = s.disp v := by
  induction h with
  | refl => exact ⟨rfl, rfl⟩
  | tail _ he ih =>
      rcases env_cases he with ho | ⟨mv, -, rfl⟩
      · exact ⟨ho.resv.trans ih.1, ho.disp.trans ih.2⟩
      · rw [move_resv, move_disp]
        exact ih

/-- Nobody else holds a mutex. -/
def State.Unlocked (w : ℕ) (s : State) : Prop := ∀ m v, s.lock m = some v → v = w

/-- From `s` worker `w` runs `p` to its end in `s'`, and nobody else steps. -/
abbrev RunsAlone {α : Type} (cfg : Config) (md : Mode) (w : ℕ) (p : Prog sig α) (s : State) (a : α)
    (s' : State) : Prop :=
  Alone (M := machine cfg) (md.Adm cfg) w p s a s'

/-- No `slot_alloc` that fails is excluded, and neither are generations or batches. -/
structure Mode.Lax (md : Mode) : Prop where
  alloc : md.alloc = false
  gen : md.gen = false
  apart : md.apart = false

/-- Only a mutex of another worker stops a worker; a receive may fail. -/
theorem Mode.Lax.enabled {o : Op} (hmd : md.Lax) (hs : ∀ v, md.solo = some v → w = v)
    (hp : Pre cfg md w o s) (hl : s.Unlocked w) :
    ∃ c r s', md.Adm cfg w o c s ∧ exec cfg w o c s = some (r, s') := by
  have hfree : ∀ m, s.lock m ≠ some w → s.lock m = none := by
    intro m hne
    cases hm : s.lock m with
    | none => rfl
    | some v => exact absurd (hl m v hm ▸ hm) hne
  cases o with
  | lock m =>
      refine ⟨.plain, (), _, trivial, if_pos (hfree m ?_)⟩
      cases m with
      | alloc => exact hp
      | stripe i => exact hp _
  | recv _ | recvNb _ => exact ⟨⟨true, 0, [], false⟩, _, _, trivial, rfl⟩
  | idxStore req b e => exact ⟨.plain, _, _, hs, rfl⟩
  | idxLoad why b =>
      cases why with
      | recheck i => exact ⟨.plain, _, _, ⟨hs, fun h => by simp [hmd.gen] at h⟩, rfl⟩
      | plain | snapshot i => exact ⟨.plain, _, _, trivial, rfl⟩
  | slotAlloc tag n =>
      have hsome : ∃ r s', exec cfg w (.slotAlloc tag n) .plain s = some (r, s') := by
        simp only [exec]
        split <;> exact ⟨_, _, rfl⟩
      obtain ⟨r, s', he⟩ := hsome
      refine ⟨.plain, r, s', fun h => ?_, he⟩
      rw [hmd.alloc] at h
      cases h
  | htod _ _ _ _ => exact ⟨.plain, _, _, ⟨fun _ => rfl, fun _ _ => rfl⟩, rfl⟩
  | dtoh _ _ _ _ | sync => exact ⟨.plain, _, _, fun _ => rfl, rfl⟩
  | event e =>
      cases e with
      | begin reqs =>
          refine ⟨.plain, _, _, fun h => ?_, rfl⟩
          rw [hmd.apart] at h
          cases h
      | _ => exact ⟨.plain, _, _, trivial, rfl⟩
  | _ => exact ⟨.plain, _, _, trivial, rfl⟩

/-- **Alone, a worker's program comes to its end.** -/
theorem wp_ends {α : Type} {p : Prog sig α} {Q : α → State → Prop} (hmd : md.Lax)
    (hs : ∀ v, md.solo = some v → w = v) (hi : Inv cfg md s) (hl : s.Unlocked w)
    (h : wp (contract cfg md) w p Q s) : ∃ a s', RunsAlone cfg md w p s a s' := by
  refine wp_alone_ends (C := contract cfg md) (State.Unlocked w) (fun o s hi hl hp => ?_) hi hl h
  obtain ⟨c, r, s', ha, he⟩ := hmd.enabled hs hp hl
  refine ⟨c, r, s', ha, he, fun m v hv => ?_⟩
  rcases exec_lock he with h | ⟨m', -, h⟩ | ⟨m', -, h⟩
  · rw [h] at hv
    exact hl m v hv
  · rw [h, Function.update_apply] at hv
    split at hv
    · exact (Option.some.inj hv).symm
    · exact hl m v hv
  · rw [h, Function.update_apply] at hv
    split at hv
    · cases hv
    · exact hl m v hv

/-- **What a specification says of a worker that has run alone.** -/
theorem wp_loc_alone {α : Type} {p : Prog sig α} {R : α → Local → Prop} {a : α} (hi : Inv cfg md s)
    (h : wp (contract cfg md) w p (fun a s' => ∃ x, Loc cfg w x s' ∧ x.Rest md ∧ R a x) s)
    (hrun : RunsAlone cfg md w p s a s') :
    Inv cfg md s' ∧ (∃ x, Loc cfg w x s' ∧ x.Rest md ∧ R a x) ∧
      ∀ v ≠ w, s'.resv v = s.resv v ∧ s'.disp v = s.disp v := by
  have hst : ∀ a, Stable (contract cfg md) w (fun s' => ∃ x, Loc cfg w x s' ∧ x.Rest md ∧ R a x) := by
    rintro a s₁ s₂ he ⟨x, hx, hr⟩
    exact ⟨x, Loc.stable cfg md w x s₁ s₂ he hx, hr⟩
  obtain ⟨hi', hQ⟩ := wp_alone hst hrun hi h
  exact ⟨hi', hQ, fun v hv => env_held (hrun.env hv.symm hst hi h)⟩

/-- Every slot that is allocated in the end is named by an entry, or was held before. -/
theorem Loc.live_cases {g : ℕ} (hi : Inv cfg md s') (hx : Loc cfg w x s') (hr : x.Rest md)
    (hb : md.batch = true) (hv : ∀ v ≠ w, s'.resv v = s.resv v ∧ s'.disp v = s.disp v)
    (hg : Alloc.Live cfg.heap s'.alloc g) :
    (∃ b, entClen (s'.index b) ≠ 0 ∧ entGrain (s'.index b) = g) ∨ g ∈ md.left ∨
      ∃ v ≠ w, g ∈ s.resv v ∨ g ∈ s.disp v := by
  obtain ⟨own, ho⟩ := hi.owned
  obtain ⟨o, hown⟩ := Option.ne_none_iff_exists'.mp ((ho.live g).mp hg)
  have hquiet := hx.quiet hr
  cases o with
  | entry b => exact .inl ⟨b, (ho.entry b g).mp hown⟩
  | resv v =>
      have hmem := (ho.resv v g).mp hown
      by_cases hvw : v = w
      · subst hvw
        exact .inr (.inl (hquiet.resv hb g hmem))
      · rw [(hv v hvw).1] at hmem
        exact .inr (.inr ⟨v, hvw, .inl hmem⟩)
  | disp v =>
      have hmem := (ho.disp v g).mp hown
      by_cases hvw : v = w
      · subst hvw
        rw [hquiet.disp] at hmem
        cases hmem
      · rw [(hv v hvw).2] at hmem
        exact .inr (.inr ⟨v, hvw, .inr hmem⟩)

end NbdVram
