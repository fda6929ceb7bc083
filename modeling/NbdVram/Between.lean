import NbdVram.Linear
import NbdVram.Session

/-!
# Between two rests

What a worker has done to the device from one moment of rest to another of the same
connection: one effect for every request it has answered, in order. Any other
workers may have been at work all the time.
-/

namespace NbdVram

open Interleave Span MutationLog

variable {cfg : Config} {md : Mode} {w : ℕ} {x x' x₀ : Local} {hs : List Hap} {on : Bool}
  {ds : List Done} {raw rest : List UInt8}

/-- A connection that a worker has not given up is open, or was ended by a DISC. -/
def Phase.Kept (ph : Phase) : Prop := ph.open = true ∨ ∃ m, ph = .ended .disc m

theorem Phase.Fits.not_cut {start ph : Phase} (h : Phase.Fits start hs ph) (hk : ph.Kept)
    (hs' : List Hap) : hs ≠ hs' ++ [.cut] := by
  rintro rfl
  rcases hk with ho | ⟨m, rfl⟩
  · have hopen : (hs' ++ [Hap.cut]).foldl Hap.open start.open = true := by
      cases ph with
      | serving m => exact h
      | ended why m =>
          cases why with
          | stop => exact h
          | disc | drop => cases ho
      | logging | waiting m | stopped m => cases ho
    rw [List.foldl_append] at hopen
    cases hopen
  · rcases h with ⟨hs'', heq⟩ | ⟨hnil, -⟩
    · cases (List.append_inj' heq rfl).2
    · simp at hnil

/-- The requests `ds` were received and answered, and behind them `rest` was received. -/
structure Between (cfg : Config) (md : Mode) (w : ℕ) (x : Local) (ds : List Done)
    (rest : List UInt8) (x' : Local) : Prop where
  framed : ∃ raw, Frames raw (ds.map Done.req) ∧
    Talked x.priv.net x'.priv.net (raw ++ rest) (ds.flatMap Done.reply)
  ok : ∀ d ∈ ds, d.Ok cfg md
  script : ∃ effs, List.Forall₂ (Effect cfg md) ds effs ∧ Script w x.log effs.flatten x'.log

theorem Between.refl (x : Local) : Between cfg md w x [] [] x :=
  ⟨⟨[], .nil, .refl⟩, by simp, [], .nil, .refl⟩

/-- A script whose first observations are forgotten. -/
theorem Script.drop_sees {log log' : List Mut} {is : List (Item Disk Mut)} {l : List (Disk → Prop)}
    (h : Script w log (.sees l :: is) log') : Script w log is log' := by
  obtain ⟨new, hlog, hlin⟩ := h
  have hnil : Lin Mut.who Mut.app w (disk log) (.sees [] :: is) new :=
    hlin.sees_mono fun P hP => (nomatch hP)
  exact ⟨new, hlog, hnil.sees_nil⟩

theorem Between.group {ds' : List Done} (h : Between cfg md w x₀ ds [] x)
    (hf : Frames raw (ds'.map Done.req)) (hc : Carried cfg md w x ds' x')
    (ht : Talked x.priv.net x'.priv.net raw (ds'.flatMap Done.reply)) :
    Between cfg md w x₀ (ds ++ ds') [] x' := by
  obtain ⟨raw₀, hf₀, ht₀⟩ := h.framed
  obtain ⟨effs, heff, hsc⟩ := h.script
  obtain ⟨is, hg, hsc'⟩ := hc.script
  cases hg with
  | @intro effs' hok _ heff' _ =>
      refine ⟨⟨raw₀ ++ raw, ?_, ?_⟩, ?_, effs ++ effs', List.rel_append heff heff', ?_⟩
      · rw [List.map_append]
        exact hf₀.append hf
      · rw [List.append_nil, List.flatMap_append]
        rw [List.append_nil] at ht₀
        exact ht₀.trans ht
      · intro d hd
        rcases List.mem_append.mp hd with hd | hd
        · exact h.ok d hd
        · exact hok d hd
      · rw [List.flatten_append]
        exact hsc.trans hsc'.drop_sees

theorem Trace.conn_le (h : Trace cfg md w on x₀ hs x) : x₀.priv.net.conn ≤ x.priv.net.conn := by
  induction h with
  | nil => exact le_rfl
  | accept _ _ _ ih => exact Nat.le_succ_of_le ih
  | group _ _ _ _ _ htk ih | cut _ _ htk _ ih =>
      rw [htk.conn]
      exact ih
  | disc _ _ _ htk ih =>
      rw [online_net, htk.conn]
      exact ih

/-- On a connection that is still open. -/
theorem Trace.between_open (h : Trace cfg md w on x₀ hs x)
    (hc : x.priv.net.conn = x₀.priv.net.conn) (ho : hs.foldl Hap.open on = true) :
    ∃ ds, Between cfg md w x₀ ds [] x := by
  induction h with
  | nil => exact ⟨[], .refl _⟩
  | accept _ _ ht _ =>
      have hle := ht.conn_le
      have heq : _ + 1 = _ := hc
      omega
  | group _ hon hf hcar _ htk ih =>
      obtain ⟨ds, hb⟩ := ih (htk.conn ▸ hc) hon
      exact ⟨_, hb.group hf hcar htk⟩
  | disc _ _ _ _ _ | cut _ _ _ _ _ =>
      rw [List.foldl_append] at ho
      cases ho

/-- **On one connection** that was not given up: everything received was answered, except for the
header of a DISC. -/
theorem Trace.between (h : Trace cfg md w on x₀ hs x) (hc : x.priv.net.conn = x₀.priv.net.conn)
    (hkeep : ∀ hs', hs ≠ hs' ++ [.cut]) :
    ∃ ds rest, Between cfg md w x₀ ds rest x ∧ (rest = [] ∨ DiscHdr rest) := by
  cases h with
  | nil => exact ⟨[], [], .refl _, .inl rfl⟩
  | accept _ _ ht =>
      have hle := ht.conn_le
      have heq : _ + 1 = _ := hc
      omega
  | group ht hon hf hcar heio htk =>
      have hopen := hon
      obtain ⟨ds, hb⟩ := ht.between_open (htk.conn ▸ hc) hon
      exact ⟨_, [], hb.group hf hcar htk, .inl rfl⟩
  | @disc hs x p raw ht hon hd htk =>
      obtain ⟨ds, hb⟩ := ht.between_open (htk.conn ▸ hc) hon
      obtain ⟨raw₀, hf₀, ht₀⟩ := hb.framed
      rw [List.append_nil] at ht₀
      have htalk := ht₀.trans htk
      rw [List.append_nil] at htalk
      exact ⟨ds, raw, ⟨⟨raw₀, hf₀, htalk⟩, hb.ok, hb.script⟩, .inr hd⟩
  | cut _ _ _ _ => exact absurd rfl (hkeep _)

/-- Where no connection is open nothing happens. -/
theorem Trace.idle (h : Trace cfg md w false x₀ hs x) (hc : x.priv.net.conn = x₀.priv.net.conn) :
    hs = [] := by
  induction h with
  | nil => rfl
  | accept _ _ ht _ =>
      have hle := ht.conn_le
      have heq : _ + 1 = _ := hc
      omega
  | group _ hon _ _ _ htk ih | cut _ hon htk _ ih =>
      rw [ih (htk.conn ▸ hc)] at hon
      cases hon
  | disc _ hon _ htk ih =>
      rw [ih (by rw [← hc, online_net, htk.conn])] at hon
      cases hon

/-- A worker at rest has its own mutations in view, the others are not its own. -/
theorem Between.script_to {s : State} (h : Between cfg md w x ds rest x') (hx : Loc cfg w x' s) :
    ∃ effs, List.Forall₂ (Effect cfg md) ds effs ∧ Script w x.log effs.flatten s.log := by
  obtain ⟨effs, heff, new, hnew, hlin⟩ := h.script
  obtain ⟨new', hlog, hal⟩ := hx.log
  refine ⟨effs, heff, new ++ new', ?_, hlin.foreign hal⟩
  rw [hlog, hnew, List.append_assoc]

/-- **Between two rests of a worker** on one connection that it has not given up. -/
theorem Daemon.Reachable.between {S S' : Daemon cfg} (h : Daemon.Reachable cfg md S)
    (hs : md.since = 0) {ph ph' : Phase} (hw : S.prog w = .ret ph) (hrun : Daemon.Run cfg md S S')
    (hw' : S'.prog w = .ret ph') (hc : (S'.st.priv w).net.conn = (S.st.priv w).net.conn)
    (hk : ph.open = true → ph'.Kept) : ∃ ds effs raw rest, Frames raw (ds.map Done.req) ∧
      (rest = [] ∨ DiscHdr rest) ∧
      Talked (S.st.priv w).net (S'.st.priv w).net (raw ++ rest) (ds.flatMap Done.reply) ∧
      (∀ d ∈ ds, d.Ok cfg md) ∧ List.Forall₂ (Effect cfg md) ds effs ∧
      Script w S.st.log effs.flatten S'.st.log := by
  obtain ⟨hs, x, hx, -, ht, hfit⟩ := h.trace hs hw hrun hw'
  have hconn : x.priv.net.conn = (S.st.known cfg w).priv.net.conn := by
    rw [← hx.priv]
    exact hc
  have hkeep : ∀ hs', hs ≠ hs' ++ [.cut] := by
    by_cases ho : ph.open = true
    · exact hfit.not_cut (hk ho)
    · rw [Bool.not_eq_true] at ho
      rw [ho] at ht
      rw [ht.idle hconn]
      simp
  obtain ⟨ds, rest, hb, hrest⟩ := ht.between hconn hkeep
  obtain ⟨effs, heff, hsc⟩ := hb.script_to hx
  obtain ⟨raw, hf, htk⟩ := hb.framed
  rw [← hx.priv] at htk
  exact ⟨ds, effs, raw, rest, hf, hrest, htk, hb.ok, heff, hsc⟩

/-! ## Runs without failures -/

/-- No `slot_alloc` and no CUDA call fails. -/
def Mode.flawless : Mode := { Mode.any with sync := true, launch := true, alloc := true }

theorem Mode.flawless_solo (w v : ℕ) (h : Mode.flawless.solo = some v) : w = v := by
  cases h

/-- Where nothing fails, slots are not refused and batches are apart. -/
def Op.calm (cfg : Config) (s : State) : Op → Bool
  | .slotAlloc _ n => decide ((Alloc.slotAlloc cfg.heap s.alloc n).1.1 ≠ slotNone)
  | .event (.begin reqs) => decide (reqs.length ≤ 1)
  | _ => true

theorem Op.calm.adm {o : Op} {c : Choice} {s : State} (hgen : md.gen = false)
    (hso : ∀ v, md.solo = some v → w = v) (h : o.calm cfg s = true) (hc : c.fail = false) :
    md.Adm cfg w o c s := by
  cases o with
  | sync | dtoh _ _ _ _ => exact fun _ => hc
  | htod _ _ _ _ => exact ⟨fun _ => hc, fun _ _ => hc⟩
  | slotAlloc _ n => exact fun _ => ⟨hc, of_decide_eq_true h⟩
  | idxStore _ _ _ => exact hso
  | idxLoad why b =>
      cases why with
      | recheck i =>
          refine ⟨hso, fun hg => ?_⟩
          rw [hgen] at hg
          cases hg
      | plain | snapshot i => trivial
  | event e =>
      cases e with
      | begin reqs =>
          intro _
          have hlen : reqs.length ≤ 1 := of_decide_eq_true h
          match reqs, hlen with
          | [], _ => exact .nil
          | [r], _ => exact List.pairwise_singleton _ r
      | _ => trivial
  | _ => trivial

/-- Whether all steps of a driven worker are of this kind. -/
def Daemon.calm (w : ℕ) : List Choice → Daemon cfg → Bool
  | [], _ => true
  | c :: cs, S =>
    match unfold (next cfg) (S.prog w) with
    | .ret _ => true
    | .act o k =>
      match exec cfg w o c S.st with
      | none => true
      | some x => Op.calm cfg S.st o && !c.fail &&
        Daemon.calm w cs ⟨x.2, Function.update S.prog w (k x.1)⟩

theorem Daemon.drive_calm (hgen : md.gen = false) (hso : ∀ v, md.solo = some v → w = v)
    (cs : List Choice) (S : Daemon cfg) (h : Daemon.calm w cs S = true) :
    Daemon.Run cfg md S (Daemon.drive w cs S) := by
  induction cs generalizing S with
  | nil => exact .refl
  | cons c cs ih =>
      rw [Daemon.drive]
      split
      · exact .refl
      · rename_i o k hk
        split
        · exact .refl
        · rename_i x he
          simp only [Daemon.calm, hk, he, Bool.and_eq_true, Bool.not_eq_true'] at h
          obtain ⟨⟨ho, hc⟩, hrest⟩ := h
          exact .head (Daemon.step hk (Op.calm.adm hgen hso ho hc) he) (ih _ hrest)

end NbdVram
