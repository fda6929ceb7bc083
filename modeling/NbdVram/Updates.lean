import NbdVram.Copies
import NbdVram.Alone
import NbdVram.Between

/-!
# No lost update

Between two moments at which all workers rest, any number of them have answered
requests to byte-disjoint ranges. A byte that one of the requests covers ends up with
that request's value, every other byte is what it was. The argument looks at one
address along the log: each mutation leaves its byte alone or gives it the value of
a request that covers it (`Tasks.step`), so a byte that has its value keeps it
(`Tasks.keep`), and each request that covers a byte has given it its value once
(`Tasks.reach`).
-/

namespace NbdVram

open Interleave Span MutationLog

variable {cfg : Config} {md : Mode} {w a : ℕ} {r : Req} {d : Done} {v : UInt8} {D : Disk}
  {is : List (Item Disk Mut)} {log new pre post : List Mut} {m : Mut}

/-- The value that a request gives to the byte at address `a`. -/
def Req.puts (cfg : Config) (r : Req) (a : ℕ) : Option UInt8 :=
  if r.Oob cfg then none
  else
    match r.cmd with
    | .write => if r.off ≤ a ∧ a < r.off + r.len then some (r.data.getD (a - r.off) default) else none
    | .trim =>
      if r.off ≤ a / 4096 * 4096 ∧ a / 4096 * 4096 + 4096 ≤ r.off + r.len then some 0 else none
    | _ => none

/-- A WRITE or a TRIM that lies on the device. -/
def Req.Mutates (cfg : Config) (r : Req) : Prop := (r.cmd = .write ∨ r.cmd = .trim) ∧ ¬ r.Oob cfg

/-- No byte is in both ranges. -/
def Req.Disjoint (r r' : Req) : Prop := ∀ a, r.off ≤ a → a < r.off + r.len →
  r'.off ≤ a → a < r'.off + r'.len → False

theorem Req.puts_range (h : r.puts cfg a = some v) :
    r.Mutates cfg ∧ r.off ≤ a ∧ a < r.off + r.len := by
  rw [Req.puts] at h
  split at h
  · cases h
  · rename_i ho
    split at h
    · rename_i hc
      split at h
      · rename_i hin
        exact ⟨⟨.inl hc, ho⟩, hin⟩
      · cases h
    · rename_i hc
      split at h
      · rename_i hin
        exact ⟨⟨.inr hc, ho⟩, by omega, by omega⟩
      · cases h
    · cases h

theorem Forall₂.mem_left {α β : Type} {R : α → β → Prop} {l : List α} {l' : List β} {x : α}
    (h : List.Forall₂ R l l') (hx : x ∈ l) : ∃ y ∈ l', R x y := by
  induction h with
  | nil => cases hx
  | cons hr _ ih =>
      rcases List.mem_cons.mp hx with rfl | hx
      · exact ⟨_, List.mem_cons_self, hr⟩
      · obtain ⟨y, hy, hxy⟩ := ih hx
        exact ⟨y, List.mem_cons_of_mem _ hy, hxy⟩

theorem Forall₂.mem_right {α β : Type} {R : α → β → Prop} {l : List α} {l' : List β} {y : β}
    (h : List.Forall₂ R l l') (hy : y ∈ l') : ∃ x ∈ l, R x y := Forall₂.mem_left h.flip hy

/-! ## One request -/

/-- A mutation on behalf of a request gives bytes the request's value and leaves the others. -/
theorem Effect.puts (he : Effect cfg md d is) (hm : md.Stores cfg)
    (hdata : d.req.cmd = .write → d.req.data.length = d.req.len) {c : Mut → Disk → Prop}
    (hc : .put c ∈ is) (hcm : c m D) (a : ℕ) :
    m.app D a = D a ∨ d.req.puts cfg a = some (m.app D a) := by
  cases he with
  | refused _ | other _ _ => cases hc
  | wrote i sub ho hcmd hsub _ =>
      obtain ⟨p, hp, heq⟩ := List.mem_map.mp hc
      cases heq
      obtain ⟨-, -, happ⟩ := hcm
      have hp := hsub.subset hp
      obtain ⟨-, -, hlo, hhi, -⟩ := mem_chop hp
      rw [happ hm]
      by_cases hin : p.1 ≤ a ∧ a < p.1 + p.2.length
      · right
        obtain ⟨k, rfl⟩ := Nat.exists_eq_add_of_le (show d.req.off ≤ a by omega)
        rw [splice_in hin.1 hin.2, mem_chop_getD hp hin.1 hin.2, Req.puts, if_neg ho, hcmd]
        dsimp only
        rw [if_pos (by have := hdata hcmd; omega), Nat.add_sub_cancel_left]
      · exact .inl (splice_out (by omega))
  | trimmed _ ho hcmd ht =>
      obtain ⟨b, hb, htr⟩ := Forall₂.mem_right ht hc
      have hno : ¬ oob cfg d.req.off d.req.len := fun h => ho ⟨.inr (.inr hcmd), h⟩
      rw [mem_trimBlocks hno] at hb
      rcases htr with heq | heq
      · cases heq
        obtain ⟨-, -, happ⟩ := hcm
        rw [happ hm]
        dsimp only
        by_cases hin : b * 4096 ≤ a ∧ a < b * 4096 + Page.zero.bytes.length
        · have hlen := Page.zero.length_eq
          have hblk : a / 4096 = b := by omega
          right
          rw [splice_in hin.1 hin.2, Page.zero_getD, Req.puts, if_neg ho, hcmd]
          dsimp only
          rw [hblk, if_pos hb]
        · exact .inl (splice_out (by omega))
      · cases heq

/-- Once a request has been answered without error it has given each of its bytes its value. -/
theorem Effect.reach (he : Effect cfg md d is) (hm : md.Stores cfg)
    (hdata : d.req.cmd = .write → d.req.data.length = d.req.len)
    (hok : d.req.cmd = .write → ¬ d.req.Oob cfg → d.err = .ok)
    {effs : List (List (Item Disk Mut))} (hmem : is ∈ effs)
    (hsc : Lin Mut.who Mut.app w (disk log) effs.flatten new) (hv : d.req.puts cfg a = some v) :
    ∃ pre, pre <+: new ∧ disk (log ++ pre) a = v := by
  obtain ⟨hmut, hlo, hhi⟩ := Req.puts_range hv
  cases he with
  | refused ho => exact absurd ho hmut.2
  | other h1 h2 => exact absurd hmut.1 (by simp [h1, h2])
  | wrote i sub ho hcmd _ hall =>
      obtain rfl := hall (hok hcmd ho)
      obtain ⟨k, rfl⟩ := Nat.exists_eq_add_of_le hlo
      have hlen := hdata hcmd
      obtain ⟨p, hp, h1, h2⟩ := @exists_mem_chop d.req.off d.req.data k (by omega)
      have hput : Piece.wrote cfg md i p ∈ effs.flatten :=
        List.mem_flatten.mpr ⟨_, hmem, List.mem_map_of_mem hp⟩
      obtain ⟨pre, m, post, rfl, -, -, -, happ⟩ := hsc.mem_put hput
      refine ⟨pre ++ [m], ⟨post, by simp⟩, ?_⟩
      rw [← List.append_assoc, disk_append, disk_append]
      show m.app (MutationLog.applyAll Mut.app (disk log) pre) _ = v
      rw [happ hm, splice_in h1 h2, mem_chop_getD hp h1 h2]
      rw [Req.puts, if_neg ho, hcmd] at hv
      dsimp only at hv
      rw [if_pos ⟨hlo, hhi⟩, Nat.add_sub_cancel_left] at hv
      exact Option.some.inj hv
  | trimmed _ ho hcmd ht =>
      have hno : ¬ oob cfg d.req.off d.req.len := fun h => ho ⟨.inr (.inr hcmd), h⟩
      rw [Req.puts, if_neg ho, hcmd] at hv
      dsimp only at hv
      split at hv
      swap
      · cases hv
      rename_i hin
      obtain rfl := Option.some.inj hv
      obtain ⟨it, hit, htr⟩ := Forall₂.mem_left ht ((mem_trimBlocks hno).mpr hin)
      have hmem' : it ∈ effs.flatten := List.mem_flatten.mpr ⟨_, hmem, hit⟩
      rcases htr with rfl | rfl
      · obtain ⟨pre, m, post, rfl, -, -, -, happ⟩ := hsc.mem_put hmem'
        refine ⟨pre ++ [m], ⟨post, by simp⟩, ?_⟩
        rw [← List.append_assoc, disk_append, disk_append]
        show m.app (MutationLog.applyAll Mut.app (disk log) pre) a = 0
        rw [happ hm, splice_in (by omega) (by rw [Page.length_eq]; omega)]
        exact Page.zero_getD _
      · obtain ⟨pre, hpre, hz⟩ := hsc.mem_sees hmem' List.mem_cons_self
        refine ⟨pre, hpre, ?_⟩
        rw [← disk_append] at hz
        rw [← pageOf_getD (disk (log ++ pre)) a, hz]
        exact Page.zero_getD _

/-! ## All requests -/

/-- Behind `log` the mutations `new` are what the workers have done for their requests `rs`. -/
structure Tasks (cfg : Config) (md : Mode) (log new : List Mut) (rs : ℕ → List Req) : Prop where
  done : ∀ w, ∃ ds effs, ds.map Done.req = rs w ∧ List.Forall₂ (Effect cfg md) ds effs ∧
    Lin Mut.who Mut.app w (disk log) effs.flatten new ∧
    (∀ d ∈ ds, d.req.cmd = .write → d.req.data.length = d.req.len) ∧
    ∀ d ∈ ds, d.req.cmd = .write → ¬ d.req.Oob cfg → d.err = .ok

/-- All requests that cover address `a` give it the value `v`. -/
def Agree (cfg : Config) (rs : ℕ → List Req) (a : ℕ) (v : UInt8) : Prop :=
  ∀ w, ∀ r ∈ rs w, ∀ v', r.puts cfg a = some v' → v' = v

variable {rs : ℕ → List Req}

/-- What one mutation does to one byte. -/
theorem Tasks.step (h : Tasks cfg md log new rs) (hm : md.Stores cfg) (hsplit : new = pre ++ m :: post)
    (a : ℕ) : disk (log ++ (pre ++ [m])) a = disk (log ++ pre) a ∨
      ∃ w, ∃ r ∈ rs w, r.puts cfg a = some (disk (log ++ (pre ++ [m])) a) := by
  obtain ⟨ds, effs, hreq, heff, hlin, hdata, -⟩ := h.done m.who
  rw [hsplit] at hlin
  obtain ⟨c, hc, hcm⟩ := hlin.put_of_split rfl
  obtain ⟨is, his, hc⟩ := List.mem_flatten.mp hc
  obtain ⟨d, hd, he⟩ := Forall₂.mem_right heff his
  have happ : disk (log ++ (pre ++ [m])) = m.app (disk (log ++ pre)) := by
    rw [← List.append_assoc, disk_append]
    rfl
  rw [happ]
  rw [← disk_append] at hcm
  refine (he.puts hm (hdata d hd) hc hcm a).imp_right fun hput => ⟨m.who, d.req, ?_, hput⟩
  rw [← hreq]
  exact List.mem_map_of_mem hd

/-- A byte that has the value of all requests that cover it keeps it. -/
theorem Tasks.keep (h : Tasks cfg md log new rs) (hm : md.Stores cfg) (hagree : Agree cfg rs a v)
    (hpre : pre <+: new) (hv : disk (log ++ pre) a = v) : disk (log ++ new) a = v := by
  obtain ⟨mid, rfl⟩ := hpre
  induction mid generalizing pre with
  | nil => rwa [List.append_nil]
  | cons m mid ih =>
      have hsplit : pre ++ m :: mid = pre ++ [m] ++ mid := by simp
      rw [hsplit] at h ⊢
      refine ih ?_ h
      rcases h.step hm hsplit.symm a with hstep | ⟨w, r, hr, hput⟩
      · rw [hstep, hv]
      · exact hagree w r hr _ hput

/-- A byte that no request covers is left alone. -/
theorem Tasks.spare (h : Tasks cfg md log new rs) (hm : md.Stores cfg)
    (hno : ∀ w, ∀ r ∈ rs w, r.puts cfg a = none) : disk (log ++ new) a = disk log a := by
  refine h.keep hm (fun w r hr v' hput => ?_) List.nil_prefix (by rw [List.append_nil])
  rw [hno w r hr] at hput
  cases hput

/-- A byte that a request covers gets its value. -/
theorem Tasks.reach (h : Tasks cfg md log new rs) (hm : md.Stores cfg) (hagree : Agree cfg rs a v)
    (hr : r ∈ rs w) (hput : r.puts cfg a = some v) : disk (log ++ new) a = v := by
  obtain ⟨ds, effs, hreq, heff, hlin, hdata, hok⟩ := h.done w
  rw [← hreq] at hr
  obtain ⟨d, hd, rfl⟩ := List.mem_map.mp hr
  obtain ⟨is, his, he⟩ := Forall₂.mem_left heff hd
  obtain ⟨pre, hpre, hv⟩ := he.reach hm (hdata d hd) (hok d hd) his hlin hput
  exact h.keep hm hagree hpre hv

/-- Whatever two requests mutate is disjoint. -/
def Spread (cfg : Config) (rs : ℕ → List Req) : Prop :=
  ∀ (w i w' i' : ℕ) (r r' : Req), (rs w)[i]? = some r → (rs w')[i']? = some r' →
    (w, i) ≠ (w', i') → r.Mutates cfg → r'.Mutates cfg → r.Disjoint r'

/-- Of disjoint requests only one covers a byte. -/
theorem Spread.agree (hdis : Spread cfg rs) (hr : r ∈ rs w) (hput : r.puts cfg a = some v) :
    Agree cfg rs a v := by
  intro w' r' hr' v' hput'
  obtain ⟨i, hi⟩ := List.mem_iff_getElem?.mp hr
  obtain ⟨i', hi'⟩ := List.mem_iff_getElem?.mp hr'
  obtain ⟨hmut, hlo, hhi⟩ := Req.puts_range hput
  obtain ⟨hmut', hlo', hhi'⟩ := Req.puts_range hput'
  by_cases hsame : (w, i) = (w', i')
  · cases hsame
    rw [hi, Option.some.injEq] at hi'
    rw [← hi', hput] at hput'
    exact (Option.some.inj hput').symm
  · exact (hdis w i w' i' r r' hi hi' hsame hmut hmut' a hlo hhi hlo' hhi').elim

/-! ## The device -/

/-- The workers rest in `S` and in `S'`, and in between each has received `raw` on the connection it
has, and answered all of it. -/
structure Daemon.Serves (cfg : Config) (md : Mode) (S S' : Daemon cfg) (raw : ℕ → List UInt8) :
    Prop where
  run : Daemon.Run cfg md S S'
  rest : ∀ w, ∃ ph, S.prog w = .ret ph ∧ ∃ ph', S'.prog w = .ret ph' ∧ (ph.open = true → ph'.Kept)
  conn : ∀ w, (S'.st.priv w).net.conn = (S.st.priv w).net.conn
  got : ∀ w, (S'.st.priv w).net.got = (S.st.priv w).net.got ++ raw w

variable {raw : ℕ → List UInt8}

theorem Daemon.Serves.tasks {S S' : Daemon cfg} (h : Daemon.Serves cfg .flawless S S' raw)
    (hcodec : cfg.codec.RoundTrip) (hreach : Daemon.Reachable cfg .flawless S) :
    ∃ new, S'.st.log = S.st.log ++ new ∧
      Tasks cfg .flawless S.st.log new fun w => (parse (raw w)).1 := by
  obtain ⟨new, hnew⟩ := h.run.instant.1
  refine ⟨new, hnew.symm, ⟨fun w => ?_⟩⟩
  obtain ⟨ph, hw, ph', hw', hk⟩ := h.rest w
  obtain ⟨ds, effs, raw', rest, hfs, hrest, htk, hok, heff, new', hlog, hlin⟩ :=
    hreach.between rfl hw h.run hw' (h.conn w) hk
  obtain rfl : new' = new := List.append_cancel_left (hlog.symm.trans hnew.symm)
  have hraw : raw w = raw' ++ rest := List.append_cancel_left ((h.got w).symm.trans htk.got)
  have hrest' : (parse rest).1 = [] := by
    rcases hrest with rfl | hd
    · rw [parse_nil]
    · rw [hd.parse]
  refine ⟨ds, effs, ?_, heff, hlin, fun d hd => hfs.data d.req (List.mem_map_of_mem hd),
    fun d hd hc ho => (hok d hd).ok ⟨rfl, hcodec⟩ (fun hr => ?_) rfl rfl ho⟩
  · rw [hraw, hfs.parse, hrest', List.append_nil]
  · rw [hr] at hc
    cases hc

/-- What becomes of a byte. -/
theorem Daemon.Serves.byte {S S' : Daemon cfg} (h : Daemon.Serves cfg .flawless S S' raw)
    (hcodec : cfg.codec.RoundTrip) (hreach : Daemon.Reachable cfg .flawless S)
    (hdis : Spread cfg fun w => (parse (raw w)).1) (a : ℕ) :
    (∀ w, ∀ r ∈ (parse (raw w)).1, ∀ v, r.puts cfg a = some v → S'.st.bytes cfg a = v) ∧
    ((∀ w, ∀ r ∈ (parse (raw w)).1, r.puts cfg a = none) → S'.st.bytes cfg a = S.st.bytes cfg a) := by
  obtain ⟨new, hlog, htasks⟩ := h.tasks hcodec hreach
  have hst : Mode.flawless.Stores cfg := ⟨rfl, hcodec⟩
  have hi : Inv cfg .flawless S.st := hreach.inv rfl
  have hreach' : Daemon.Reachable cfg .flawless S' := hreach.imp fun _ h0 => ⟨h0.1, h0.2.trans h.run⟩
  have hi' : Inv cfg .flawless S'.st := hreach'.inv rfl
  rw [hi.bytes, hi'.bytes, hlog]
  exact ⟨fun w r hr v hput => htasks.reach hst (hdis.agree hr hput) hr hput,
    fun hno => htasks.spare hst hno⟩

/-- **No lost update.** All workers rest, then serve any requests whose mutated ranges are pairwise
disjoint, in any interleaving in which no `slot_alloc` and no CUDA call fails, and rest again with all
of them answered. Then the bytes of every WRITE are on the device, every block that lies wholly inside a
TRIM is zero, every other byte is what it was; and it makes no difference how the workers were
interleaved. -/
theorem no_lost_update (hcodec : cfg.codec.RoundTrip) {S S' : Daemon cfg}
    (hreach : Daemon.Reachable cfg .flawless S) (h : Daemon.Serves cfg .flawless S S' raw)
    (hdis : Spread cfg fun w => (parse (raw w)).1) :
    (∀ w, ∀ r ∈ (parse (raw w)).1, r.cmd = .write → ¬ r.Oob cfg → ∀ k < r.len,
      S'.st.bytes cfg (r.off + k) = r.data.getD k default) ∧
    (∀ w, ∀ r ∈ (parse (raw w)).1, r.cmd = .trim → ¬ r.Oob cfg → ∀ a, r.off ≤ a / 4096 * 4096 →
      a / 4096 * 4096 + 4096 ≤ r.off + r.len → S'.st.bytes cfg a = 0) ∧
    (∀ a, (∀ w, ∀ r ∈ (parse (raw w)).1, r.Mutates cfg →
        (r.cmd = .write → ¬ (r.off ≤ a ∧ a < r.off + r.len)) ∧
        (r.cmd = .trim → ¬ (r.off ≤ a / 4096 * 4096 ∧ a / 4096 * 4096 + 4096 ≤ r.off + r.len))) →
      S'.st.bytes cfg a = S.st.bytes cfg a) ∧
    ∀ S'' : Daemon cfg, Daemon.Serves cfg .flawless S S'' raw → S''.st.bytes cfg = S'.st.bytes cfg := by
  have hbyte := h.byte hcodec hreach hdis
  have hreach' : Daemon.Reachable cfg .flawless S' := hreach.imp fun _ h0 => ⟨h0.1, h0.2.trans h.run⟩
  refine ⟨fun w r hr hc ho k hk => ?_, fun w r hr hc ho a h1 h2 => ?_, fun a hno => ?_,
    fun S'' h'' => ?_⟩
  · refine (hbyte _).1 w r hr _ ?_
    rw [Req.puts, if_neg ho, hc]
    dsimp only
    rw [if_pos ⟨Nat.le_add_right _ _, by omega⟩, Nat.add_sub_cancel_left]
  · refine (hbyte a).1 w r hr _ ?_
    rw [Req.puts, if_neg ho, hc]
    dsimp only
    rw [if_pos ⟨h1, h2⟩]
  · refine (hbyte a).2 fun w r hr => ?_
    by_contra hput
    obtain ⟨v, hput⟩ := Option.ne_none_iff_exists'.mp hput
    obtain ⟨hmut, -⟩ := Req.puts_range hput
    obtain ⟨hw, ht⟩ := hno w r hr hmut
    rw [Req.puts, if_neg hmut.2] at hput
    rcases hmut.1 with hc | hc
    · rw [hc] at hput
      dsimp only at hput
      rw [if_neg (hw hc)] at hput
      cases hput
    · rw [hc] at hput
      dsimp only at hput
      rw [if_neg (ht hc)] at hput
      cases hput
  · have hbyte' := h''.byte hcodec hreach hdis
    funext a
    by_cases hcov : ∀ w, ∀ r ∈ (parse (raw w)).1, r.puts cfg a = none
    · rw [(hbyte a).2 hcov, (hbyte' a).2 hcov]
    · push Not at hcov
      obtain ⟨w, r, hr, hput⟩ := hcov
      obtain ⟨v, hput⟩ := Option.ne_none_iff_exists'.mp hput
      rw [(hbyte a).1 w r hr v hput, (hbyte' a).1 w r hr v hput]

/-! ## Two clients -/

/-- A step of a worker leaves what is the other workers' own. -/
theorem exec_priv_of_ne {s s' : State} {u : ℕ} {o : Op} {c : Choice} {x : o.Res}
    (he : exec cfg w o c s = some (x, s')) (hu : u ≠ w) : s'.priv u = s.priv u := by
  have hset : ∀ p, Function.update s.priv w p u = s.priv u := fun p => Function.update_of_ne hu _ _
  cases o with
  | idxLoad why b => cases why <;> cases he <;> first | rfl | exact hset _
  | event e => cases e <;> cases he <;> first | rfl | exact hset _
  | sync =>
      simp only [exec] at he
      split at he <;> cases he
      · rfl
      · exact congrFun (moves_priv _ _) u
  | _ =>
      simp only [exec] at he
      repeat' split at he
      all_goals cases he
      all_goals first | rfl | exact hset _

theorem Daemon.drive_priv {u : ℕ} (hu : u ≠ w) (cs : List Choice) (S : Daemon cfg) :
    (Daemon.drive w cs S).st.priv u = S.st.priv u := by
  induction cs generalizing S with
  | nil => rfl
  | cons c cs ih =>
      rw [Daemon.drive]
      split
      · rfl
      · split
        · rfl
        · rename_i x hx
          rw [ih]
          exact exec_priv_of_ne hx hu

/-- A WRITE of the first byte of the second block. -/
def nextByteWrite : List UInt8 :=
  [0x25, 0x60, 0x95, 0x13, 0, 0, 0, 1, 0, 0, 0, 0, 0, 0, 0, 2, 0, 0, 0, 0, 0, 0, 16, 0, 0, 0, 0, 1, 9]

/-- What two clients send. -/
def twoWrites (w : ℕ) : List UInt8 :=
  if w = 0 then byteWrite else if w = 1 then nextByteWrite else []

/-- Two workers that have just got these clients. -/
def Daemon.pair : Daemon smallConfig :=
  Daemon.drive 1 [.client nextByteWrite, .plain]
    (Daemon.drive 0 [.client byteWrite, .plain] (Daemon.booted smallConfig))

/-- The first has received its header, then the second has served its client. -/
def Daemon.pairHalf : Daemon smallConfig :=
  Daemon.drive 1 (List.replicate 27 .plain) (Daemon.drive 0 (List.replicate 5 .plain) Daemon.pair)

/-- Both have. -/
def Daemon.pairDone : Daemon smallConfig :=
  Daemon.drive 0 (List.replicate 22 .plain) Daemon.pairHalf

theorem Daemon.pair_reachable : Daemon.Reachable smallConfig .flawless Daemon.pair := by
  refine ⟨Daemon.booted smallConfig,
    ⟨State.boot_initial smallConfig, fun _ => .inr ⟨.blank, rfl⟩⟩, ?_⟩
  have h0 : Daemon.Run smallConfig .flawless (Daemon.booted smallConfig)
      (Daemon.drive 0 [.client byteWrite, .plain] (Daemon.booted smallConfig)) :=
    Daemon.drive_calm rfl (Mode.flawless_solo 0) _ _ (by decide)
  exact h0.trans (Daemon.drive_calm rfl (Mode.flawless_solo 1) _ _ (by decide))

/-- What has to be looked up of worker `w`: it rests, its connection is open and still the one it had,
and it has received `raw`. -/
def Daemon.served (S S' : Daemon cfg) (w : ℕ) (raw : List UInt8) : Bool :=
  S.resting w && S'.resting w && (S'.phase w).open &&
    decide ((S'.st.priv w).net.conn = (S.st.priv w).net.conn ∧
      (S'.st.priv w).net.got = (S.st.priv w).net.got ++ raw)

theorem Daemon.served.elim {S S' : Daemon cfg} {raw : List UInt8} (h : Daemon.served S S' w raw = true) :
    (∃ ph, S.prog w = .ret ph ∧ ∃ ph', S'.prog w = .ret ph' ∧ (ph.open = true → ph'.Kept)) ∧
      (S'.st.priv w).net.conn = (S.st.priv w).net.conn ∧
      (S'.st.priv w).net.got = (S.st.priv w).net.got ++ raw := by
  simp only [Daemon.served, Bool.and_eq_true, decide_eq_true_eq] at h
  obtain ⟨⟨⟨hr, hr'⟩, ho⟩, hnet⟩ := h
  obtain ⟨ph, hp⟩ := Daemon.resting_iff.mp hr
  obtain ⟨ph', hp'⟩ := Daemon.resting_iff.mp hr'
  rw [Daemon.phase_eq hp'] at ho
  exact ⟨⟨ph, hp, ph', hp', fun _ => .inl ho⟩, hnet⟩

set_option maxRecDepth 100000 in
theorem Daemon.pair_serves :
    Daemon.Serves smallConfig .flawless Daemon.pair Daemon.pairDone twoWrites := by
  have h0 : Daemon.calm 0 (List.replicate 5 .plain) Daemon.pair = true := by decide
  have h1 : Daemon.calm 1 (List.replicate 27 .plain)
      (Daemon.drive 0 (List.replicate 5 .plain) Daemon.pair) = true := by decide
  have h2 : Daemon.calm 0 (List.replicate 22 .plain) Daemon.pairHalf = true := by decide
  have hboth : (Daemon.served Daemon.pair Daemon.pairDone 0 byteWrite &&
      Daemon.served Daemon.pair Daemon.pairDone 1 nextByteWrite) = true := by decide
  obtain ⟨hs0, hs1⟩ := Bool.and_eq_true _ _ ▸ hboth
  have hall : ∀ w, (∃ ph, Daemon.pair.prog w = .ret ph ∧ ∃ ph', Daemon.pairDone.prog w = .ret ph' ∧
      (ph.open = true → ph'.Kept)) ∧
      (Daemon.pairDone.st.priv w).net.conn = (Daemon.pair.st.priv w).net.conn ∧
      (Daemon.pairDone.st.priv w).net.got = (Daemon.pair.st.priv w).net.got ++ twoWrites w := by
    intro w
    by_cases hw0 : w = 0
    · subst hw0
      exact Daemon.served.elim hs0
    by_cases hw1 : w = 1
    · subst hw1
      exact Daemon.served.elim hs1
    -- the other workers wait all the time
    have hpriv : Daemon.pairDone.st.priv w = Daemon.pair.st.priv w := by
      rw [Daemon.pairDone, Daemon.drive_priv hw0, Daemon.pairHalf, Daemon.drive_priv hw1,
        Daemon.drive_priv hw0]
    refine ⟨⟨.waiting .blank, ?_, .waiting .blank, ?_, fun h => (nomatch h)⟩, ?_, ?_⟩
    · rw [Daemon.pair, Daemon.drive_rest hw1, Daemon.drive_rest hw0]
      rfl
    · rw [Daemon.pairDone, Daemon.drive_rest hw0, Daemon.pairHalf, Daemon.drive_rest hw1,
        Daemon.drive_rest hw0, Daemon.pair, Daemon.drive_rest hw1, Daemon.drive_rest hw0]
      rfl
    · rw [hpriv]
    · rw [hpriv, twoWrites, if_neg hw0, if_neg hw1, List.append_nil]
  exact ⟨((Daemon.drive_calm rfl (Mode.flawless_solo 0) _ _ h0).trans
    (Daemon.drive_calm rfl (Mode.flawless_solo 1) _ _ h1)).trans
      (Daemon.drive_calm rfl (Mode.flawless_solo 0) _ _ h2),
    fun w => (hall w).1, fun w => (hall w).2.1, fun w => (hall w).2.2⟩

/-- The request of a frame that stands alone. -/
theorem parse_one {raw : List UInt8} (hf : Frame raw r) : (parse raw).1 = [r] := by
  have hp : parse (raw ++ []) = ([r] ++ (parse []).1, (parse []).2) := (Frames.one hf).parse
  rw [List.append_nil, parse_nil] at hp
  rw [hp]
  rfl

/-- The request that these bytes are, taken as one frame. -/
def oneReq (raw : List UInt8) : Req := (parseHdr (raw.take 28)).req (raw.drop 28)

theorem parse_byteWrite : (parse byteWrite).1 = [oneReq byteWrite] :=
  parse_one ⟨by decide, by decide, by decide, by decide, rfl⟩

theorem parse_nextByteWrite : (parse nextByteWrite).1 = [oneReq nextByteWrite] :=
  parse_one ⟨by decide, by decide, by decide, by decide, rfl⟩

theorem byteWrite_fields : (oneReq byteWrite).cmd = .write ∧ (oneReq byteWrite).off = 0 ∧
    (oneReq byteWrite).len = 1 ∧ (oneReq byteWrite).data = [7] := by decide

theorem nextByteWrite_fields : (oneReq nextByteWrite).cmd = .write ∧
    (oneReq nextByteWrite).off = 4096 ∧ (oneReq nextByteWrite).len = 1 ∧
    (oneReq nextByteWrite).data = [9] := by decide

theorem twoWrites_spread : Spread smallConfig fun w => (parse (twoWrites w)).1 := by
  have hall : ∀ {w i : ℕ} {r : Req}, (parse (twoWrites w)).1[i]? = some r →
      i = 0 ∧ (w = 0 ∧ r.off = 0 ∧ r.len = 1 ∨ w = 1 ∧ r.off = 4096 ∧ r.len = 1) := by
    intro w i r hr
    by_cases hw0 : w = 0
    · subst hw0
      rw [twoWrites, if_pos rfl, parse_byteWrite, List.getElem?_singleton] at hr
      split at hr
      · rw [← Option.some.inj hr]
        exact ⟨‹_›, .inl ⟨rfl, byteWrite_fields.2.1, byteWrite_fields.2.2.1⟩⟩
      · cases hr
    by_cases hw1 : w = 1
    · subst hw1
      rw [twoWrites, if_neg (by decide), if_pos rfl, parse_nextByteWrite, List.getElem?_singleton] at hr
      split at hr
      · rw [← Option.some.inj hr]
        exact ⟨‹_›, .inr ⟨rfl, nextByteWrite_fields.2.1, nextByteWrite_fields.2.2.1⟩⟩
      · cases hr
    rw [twoWrites, if_neg hw0, if_neg hw1, parse_nil] at hr
    cases hr
  intro w i w' i' r r' hr hr' hne _ _ a h1 h2 h3 h4
  obtain ⟨rfl, hw⟩ := hall hr
  obtain ⟨rfl, hw'⟩ := hall hr'
  rcases hw with ⟨rfl, ho, hl⟩ | ⟨rfl, ho, hl⟩ <;> rcases hw' with ⟨rfl, ho', hl'⟩ | ⟨rfl, ho', hl'⟩
  · exact hne rfl
  · omega
  · omega
  · exact hne rfl

theorem no_lost_update_pair :
    Daemon.pairDone.st.bytes smallConfig 0 = 7 ∧ Daemon.pairDone.st.bytes smallConfig 4096 = 9 := by
  have hall := (no_lost_update (fun h => absurd rfl h) Daemon.pair_reachable Daemon.pair_serves
    twoWrites_spread).1
  have h0 : oneReq byteWrite ∈ (parse (twoWrites 0)).1 := by
    rw [twoWrites, if_pos rfl, parse_byteWrite]
    exact List.mem_singleton_self _
  have h1 : oneReq nextByteWrite ∈ (parse (twoWrites 1)).1 := by
    rw [twoWrites, if_neg (by decide), if_pos rfl, parse_nextByteWrite]
    exact List.mem_singleton_self _
  obtain ⟨hc, ho, hl, hd⟩ := byteWrite_fields
  obtain ⟨hc', ho', hl', hd'⟩ := nextByteWrite_fields
  have h7 := hall 0 _ h0 hc (by decide) 0 (by rw [hl]; decide)
  have h9 := hall 1 _ h1 hc' (by decide) 0 (by rw [hl']; decide)
  rw [ho, hd] at h7
  rw [ho', hd'] at h9
  exact ⟨h7, h9⟩

end NbdVram
