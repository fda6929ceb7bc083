import NbdVram.Copies
import NbdVram.Report

/-!
# The daemon under its own checker

`stats_log` prints the counters that the workers keep, and the gap checker reads the
lines back and raises an alarm when what is stored falls faster than the trims
explain. Here the four parts meet: the counters along a run of the daemon, the line
they are printed in, the parser, and the windows of the script.
-/

namespace NbdVram

open Interleave GapCheck

variable {cfg : Config}

/-- What `stats_log` loads, when nothing changes between its loads. -/
def State.figures (cfg : Config) (s : State) : Figures where
  blocks := s.ctr .blocksLive
  codec := s.ctr .codecBytes
  slots := s.alloc.slotBytes
  commit := Report.heapCommitted cfg.heap s.alloc
  extentsUsed := s.alloc.extentsUsed
  nExtents := cfg.heap.nExtents
  extentsPeak := s.alloc.extentsPeak
  vramSize := cfg.heap.vramSize
  rawBlocks := s.ctr .rawBlocks
  enospc := s.ctr .enospc
  trimBlocks := s.ctr .trimBlocks
  readRetry := s.ctr .readRetry

/-- Blocks and trims together count the births. -/
theorem Daemon.Reachable.born {S : Daemon cfg} (h : Daemon.Reachable cfg .any S) (hs : S.st.Settled)
    (hb : S.st.births < 2 ^ 64) :
    (S.st.figures cfg).blocks + (S.st.figures cfg).trimBlocks = S.st.births :=
  (h.inv rfl).books.births_exact hs (h.written_le rfl) hb

/-- **The daemon never trips its checker.** In every run, whatever fails in it and however many
workers take part: let the statistics be printed at any moments at which no index operation is in
progress, each with any tag, as long as fewer than `2 ^ 64` blocks have been born. On the log of
these lines the script reports no failure, whichever units the sizes are printed in. -/
theorem daemon_passes_gapcheck (samples : List (GapCheck.Tag × Daemon cfg))
    (hreach : ∀ x ∈ samples, Daemon.Reachable cfg .any x.2)
    (hrun : samples.Pairwise fun x y => Daemon.Run cfg .any x.2 y.2)
    (hsettled : ∀ x ∈ samples, x.2.st.Settled) (hborn : ∀ x ∈ samples, x.2.st.births < 2 ^ 64) :
    gapcheck (samples.map fun x => statsLog x.1 (x.2.st.figures cfg)) = false := by
  have hrise : (samples.map fun x => (x.1, x.2.st.figures cfg)).Pairwise fun l l' =>
      0 ≤ rise l.2 l'.2 := by
    rw [List.pairwise_map]
    refine hrun.imp_of_mem fun {x y} hx hy hxy => ?_
    have h1 := (hreach x hx).born (hsettled x hx) (hborn x hx)
    have h2 := (hreach y hy).born (hsettled y hy) (hborn y hy)
    have h3 := hxy.births
    show 0 ≤ rise (x.2.st.figures cfg) (y.2.st.figures cfg)
    unfold rise
    omega
  have hsilent := gapcheck_silent _ hrise
  rwa [List.map_map] at hsilent

set_option maxRecDepth 100000 in
/-- One line before the first request, one after it. -/
theorem daemon_passes_gapcheck_wrote :
    gapcheck [statsLog .stats ((Daemon.booted smallConfig).st.figures smallConfig),
      statsLog .final (Daemon.wrote.st.figures smallConfig)] = false := by
  have hreach : Daemon.Reachable smallConfig .any (Daemon.booted smallConfig) :=
    Daemon.booted_drive smallConfig 0 []
  have hwrote : Daemon.Reachable smallConfig .any Daemon.wrote := Daemon.booted_drive smallConfig 0 _
  have hp : Daemon.wrote.resting 0 = true := rfl
  have hsettled : Daemon.wrote.st.Settled := fun w => by
    obtain ⟨ph, hw⟩ := Daemon.booted_drive_rest hp w
    exact (hwrote.quiet rfl hw).2
  have hborn : Daemon.wrote.st.births = 1 := rfl
  have hrun : Daemon.Run smallConfig .any (Daemon.booted smallConfig) Daemon.wrote :=
    Daemon.drive_run 0 _ _
  refine daemon_passes_gapcheck [(.stats, Daemon.booted smallConfig), (.final, Daemon.wrote)]
    ?_ ?_ ?_ ?_
  · simp [hreach, hwrote]
  · simp [hrun]
  · simp only [List.mem_cons, List.not_mem_nil, or_false, forall_eq_or_imp, forall_eq]
    exact ⟨fun _ => rfl, hsettled⟩
  · simp only [List.mem_cons, List.not_mem_nil, or_false, forall_eq_or_imp, forall_eq]
    exact ⟨by decide, by rw [hborn]; decide⟩

end NbdVram
