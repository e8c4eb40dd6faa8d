import EsSensor.Library.PointerChain
import EsSensor.PsdPipeline

/-!
The segments of the spectrum pipeline in memory. The queues hold addresses: the blocks
change a segment where it is, the averaging block sends on the first segment of a batch and
deletes the others, and the file sink deletes what it has written.
-/
namespace EsSensor.SegmentOwnership

open Averaging FifoChain PointerChain PsdPipeline

/-- The segments that a block holds by their addresses, and how often it has warned. -/
structure Holding (P : Type) where
  batch : List P := []
  warnings : ℕ := 0

section Blocks

variable {P K : Type}

/-- The loop body of `RemoveDC::run` and of `Windowing::run`. -/
def editInPlace (f : SpectrumSegment K → SpectrumSegment K) (s : Holding P) (segment : P) :
    Program P (SpectrumSegment K) (Holding P) :=
  .read segment (fun v => .write segment (f v) (.give segment (.done s)))

variable (lib : Library K) (ctx : ElectrosenseContext)

/-- The loop body of `FFT::run`. -/
def fftInPlace (s : Holding P) (segment : P) : Program P (SpectrumSegment K) (Holding P) :=
  let mFFTBatch := s.batch ++ [segment]
  if mFFTBatch.length = ctx.fftBatchlen then
    .editAll (computeFFT lib ctx) mFFTBatch (.giveAll mFFTBatch (.done { s with batch := [] }))
  else .done { s with batch := mFFTBatch }

/-- What `Averaging::run` does with a batch of one centre frequency. -/
def averageInPlace (s : Holding P) (psdAvg : List K) :
    List P → Program P (SpectrumSegment K) (Holding P)
  | [] => .done { s with batch := [] }
  | first :: rest => .read first (fun v => .write first { v with psdValues := psdAvg }
      (.give first (.freeAll rest (.done { s with batch := [] }))))

variable [Field K] [LinearOrder K]

/-- The loop body of `Averaging::run`. -/
def averagingInPlace (s : Holding P) (segment : P) : Program P (SpectrumSegment K) (Holding P) :=
  let avgVector := s.batch ++ [segment]
  if avgVector.length = ctx.avgFactor then
    .readAll avgVector (fun segments =>
      if wrongCf segments then .done { batch := avgVector, warnings := s.warnings + 1 }
      else averageInPlace s (psdAvg lib.log10 ctx.fftSize ctx.avgFactor segments) avgVector)
  else .done { s with batch := avgVector }

end Blocks

section Owns

variable {P K : Type} {s : Holding P} {p : P}

/-- A block that puts all that it has been given into its batch. -/
theorem owns_batch {warnings : ℕ} (hnodup : (s.batch ++ [p]).Nodup) :
    (Program.done (V := SpectrumSegment K)
      { batch := s.batch ++ [p], warnings := warnings : Holding P }).Owns Holding.batch
      {q | q ∈ s.batch ++ [p]} :=
  ⟨hnodup, fun _ => Iff.rfl⟩

/-- A block that has handed on or freed all that it had. -/
theorem owns_cleared {mine : Set P} {ps : List P} (hmine : ∀ q ∈ mine, q ∈ ps) :
    (Program.done (V := SpectrumSegment K) { s with batch := [] }).Owns Holding.batch
      (mine \ {q | q ∈ ps}) := by
  refine ⟨List.nodup_nil, ?_⟩
  intro q
  constructor
  · intro hq
    exact absurd hq List.not_mem_nil
  · intro hq
    exact absurd (hmine q hq.1) hq.2

theorem owns_editInPlace (f : SpectrumSegment K → SpectrumSegment K)
    (hnodup : (s.batch ++ [p]).Nodup) :
    (editInPlace f s p).Owns Holding.batch {q | q ∈ s.batch ++ [p]} := by
  have hp : p ∈ s.batch ++ [p] := List.mem_append_right _ (List.mem_singleton_self p)
  have hsplit := List.nodup_append.mp hnodup
  refine ⟨hp, fun v => ⟨hp, hp, hsplit.1, ?_⟩⟩
  intro q
  constructor
  · intro hq
    exact ⟨List.mem_append_left _ hq, hsplit.2.2 q hq p (List.mem_singleton_self p)⟩
  · intro hq
    exact (List.mem_append.mp hq.1).resolve_right (fun hqp => hq.2 (List.mem_singleton.mp hqp))

theorem owns_fftInPlace (lib : Library K) (ctx : ElectrosenseContext)
    (hnodup : (s.batch ++ [p]).Nodup) :
    (fftInPlace lib ctx s p).Owns Holding.batch {q | q ∈ s.batch ++ [p]} := by
  unfold fftInPlace
  dsimp only
  split
  · apply Program.owns_editAll (fun q hq => hq)
    apply Program.owns_foldr (fun _ _ _ => Iff.rfl) hnodup (fun q hq => hq)
    exact owns_cleared (fun q hq => hq)
  · exact owns_batch hnodup

theorem owns_averageInPlace (s : Holding P) (psdAvg : List K) {ps : List P}
    (hnodup : ps.Nodup) :
    (averageInPlace s psdAvg ps).Owns Holding.batch {q | q ∈ ps} := by
  cases ps with
  | nil => exact ⟨List.nodup_nil, fun _ => Iff.rfl⟩
  | cons first rest =>
    obtain ⟨hfirst, hrest⟩ := List.nodup_cons.mp hnodup
    have hmem : first ∈ first :: rest := List.mem_cons_self
    refine ⟨hmem, fun v => ⟨hmem, hmem, ?_⟩⟩
    apply Program.owns_foldr (fun _ _ _ => Iff.rfl) hrest
    · intro q hq
      exact ⟨List.mem_cons_of_mem _ hq, fun heq => hfirst (heq ▸ hq)⟩
    · apply owns_cleared
      intro q hq
      exact (List.mem_cons.mp hq.1).resolve_left hq.2

variable [Field K] [LinearOrder K]

theorem owns_averagingInPlace (lib : Library K) (ctx : ElectrosenseContext)
    (hnodup : (s.batch ++ [p]).Nodup) :
    (averagingInPlace lib ctx s p).Owns Holding.batch {q | q ∈ s.batch ++ [p]} := by
  unfold averagingInPlace
  dsimp only
  split
  · apply Program.owns_readAll (fun q hq => hq)
    intro segments
    split
    · exact owns_batch hnodup
    · exact owns_averageInPlace s _ hnodup
  · exact owns_batch hnodup

end Owns

section Stages

variable (P : Type) {K : Type}

/-- A thread that starts without a segment. -/
def thread (body : Holding P → P → Program P (SpectrumSegment K) (Holding P))
    (howns : ∀ s p, (s.batch ++ [p]).Nodup →
      (body s p).Owns Holding.batch {q | q ∈ s.batch ++ [p]}) :
    Stage P (SpectrumSegment K) (Holding P) where
  init := {}
  body := body
  kept := Holding.batch
  kept_init := rfl
  owns := howns

variable [Field K] [LinearOrder K] (lib : Library K) (ctx : ElectrosenseContext)

/-- The four threads in the order of their queues. -/
def psdStages : List (Stage P (SpectrumSegment K) (Holding P)) :=
  [thread P (editInPlace removeDC) (fun _ _ => owns_editInPlace removeDC),
    thread P (editInPlace (windowing lib ctx)) (fun _ _ => owns_editInPlace _),
    thread P (fftInPlace lib ctx) (fun _ _ => owns_fftInPlace lib ctx),
    thread P (averagingInPlace lib ctx) (fun _ _ => owns_averagingInPlace lib ctx)]

variable {P lib ctx} in
theorem kept_eq_batch {i : ℕ} {stage : Stage P (SpectrumSegment K) (Holding P)}
    (hstage : (psdStages P lib ctx)[i]? = some stage) (s : Holding P) :
    stage.kept s = s.batch := by
  have hmem := List.mem_of_getElem? hstage
  simp only [psdStages, List.mem_cons, List.not_mem_nil, or_false] at hmem
  obtain rfl | rfl | rfl | rfl := hmem
  all_goals rfl

end Stages

/-- The state of a block, as the memory shows it. -/
def view {P K : Type} (heap : P → SpectrumSegment K) (s : Holding P) : BlockState K where
  held := s.batch.map heap
  warnings := s.warnings

section Implements

variable {P K : Type}

theorem view_congr (heap heap' : P → SpectrumSegment K) (s : Holding P)
    (h : ∀ p ∈ s.batch, heap p = heap' p) : view heap s = view heap' s := by
  rw [view, view, List.map_congr_left h]

theorem held_push (heap : P → SpectrumSegment K) (s : Holding P) (p : P) :
    (view heap s).held ++ [heap p] = (s.batch ++ [p]).map heap := by
  rw [List.map_append, List.map_singleton]
  rfl

variable [DecidableEq P]

theorem implements_editInPlace (f : SpectrumSegment K → SpectrumSegment K) :
    Implements view (thread P (editInPlace f) (fun _ _ => owns_editInPlace f))
      (Block.ofMap {} f) where
  init _ := rfl
  congr := view_congr
  step heap s p hnodup := by
    have hp : p ∉ s.batch := by
      intro hmem
      exact (List.nodup_append.mp hnodup).2.2 p hmem p (List.mem_singleton_self p) rfl
    have hsame : view heap s = view (Function.update heap p (f (heap p))) s := by
      apply view_congr
      intro q hq
      have hqp : q ≠ p := by
        rintro rfl
        exact hp hq
      exact (Function.update_of_ne hqp ..).symm
    have hgiven : Function.update heap p (f (heap p)) p = f (heap p) := Function.update_self ..
    show (view heap s, [f (heap p)]) = (view (Function.update heap p (f (heap p))) s,
      [Function.update heap p (f (heap p)) p])
    rw [hsame, hgiven]

theorem implements_fftInPlace (lib : Library K) (ctx : ElectrosenseContext) :
    Implements view (thread P (fftInPlace lib ctx) (fun _ _ => owns_fftInPlace lib ctx))
      (fft lib ctx) where
  init _ := rfl
  congr := view_congr
  step heap s p hnodup := by
    have hbatch : (s.batch ++ [p]).Nodup := hnodup
    show fftStep lib ctx (view heap s) (heap p) =
      (view ((fftInPlace lib ctx s p).outcome heap).heap
        ((fftInPlace lib ctx s p).outcome heap).state,
        ((fftInPlace lib ctx s p).outcome heap).given)
    unfold fftStep fftInPlace
    rw [held_push]
    dsimp only
    rw [List.length_map]
    split
    · rw [Program.outcome_editAll _ hbatch, Program.outcome_giveAll, Program.map_edited]
      simp only [Program.outcome, List.append_nil]
      rfl
    · rfl

theorem outcome_averageInPlace (s : Holding P) (psdAvg : List K) (ps : List P)
    (heap : P → SpectrumSegment K) :
    ((averageInPlace s psdAvg ps).outcome heap).state = { s with batch := [] } ∧
      ((averageInPlace s psdAvg ps).outcome heap).given =
        (ps.map heap).head?.toList.map (fun segment => { segment with psdValues := psdAvg }) := by
  cases ps with
  | nil => exact ⟨rfl, rfl⟩
  | cons first rest =>
    have hgiven : Function.update heap first { heap first with psdValues := psdAvg } first =
      { heap first with psdValues := psdAvg } := Function.update_self ..
    simp only [averageInPlace, Program.outcome, Program.outcome_freeAll, hgiven, true_and]
    rfl

variable [Field K] [LinearOrder K]

theorem implements_averagingInPlace (lib : Library K) (ctx : ElectrosenseContext) :
    Implements view
      (thread P (averagingInPlace lib ctx) (fun _ _ => owns_averagingInPlace lib ctx))
      (averaging lib.log10 ctx.fftSize ctx.avgFactor) where
  init _ := rfl
  congr := view_congr
  step heap s p _ := by
    show averagingStep lib.log10 ctx.fftSize ctx.avgFactor (view heap s) (heap p) =
      (view ((averagingInPlace lib ctx s p).outcome heap).heap
        ((averagingInPlace lib ctx s p).outcome heap).state,
        ((averagingInPlace lib ctx s p).outcome heap).given)
    unfold averagingStep averagingInPlace
    rw [held_push]
    dsimp only
    rw [List.length_map]
    split
    · rw [Program.outcome_readAll]
      split
      · rfl
      · obtain ⟨hstate, hgiven⟩ := outcome_averageInPlace s
          (psdAvg lib.log10 ctx.fftSize ctx.avgFactor ((s.batch ++ [p]).map heap))
          (s.batch ++ [p]) heap
        rw [hstate, hgiven]
        rfl
    · rfl

theorem implements_psdStages (lib : Library K) (ctx : ElectrosenseContext) :
    List.Forall₂ (Implements view) (psdStages P lib ctx) (psdBlocks lib ctx) :=
  .cons (implements_editInPlace removeDC) (.cons (implements_editInPlace (windowing lib ctx))
    (.cons (implements_fftInPlace lib ctx) (.cons (implements_averagingInPlace lib ctx) .nil)))

/-- Whatever the threads do to the segments, and in whatever order: no address is used that
is not in use, none by two of them at once, and none is lost. What the sink has written is
what the chain of the blocks gives that hands on the segments themselves. -/
theorem segments_owned (lib : Library K) (ctx : ElectrosenseContext)
    (source : List (SpectrumSegment K)) (heap : P → SpectrumSegment K)
    (actions : List (PointerChain.Action P)) :
    ∃ net, GuardedRun.run (PointerChain.act (psdStages P lib ctx)) actions
        (start (psdStages P lib ctx) source heap {}) = some net ∧
      Exclusive 4 net ∧
      ((∀ i < 4, ∃ s, net.running i = .done s) → ∀ p ∈ net.live,
        (∃ i ≤ 4, p ∈ net.queue i) ∨
          (∃ i s, net.running i = .done s ∧ p ∈ s.batch) ∨ net.last = some p) ∧
      ∃ chain, Reachable (psdBlocks lib ctx) source {} chain ∧
        net.delivered <+: chain.queue 4 := by
  obtain ⟨net, place, chain, hrun, hplaced, hreach, hrep⟩ :=
    run_spec (implements_psdStages lib ctx) source heap {} {} actions
  refine ⟨net, hrun, hplaced.exclusive, ?_, chain, hreach, ?_⟩
  · intro hidle p hp
    rcases hplaced.accounted hidle hp with hqueue | ⟨i, stage, s, hstage, hs, hkept⟩ | hlast
    · exact .inl hqueue
    · exact .inr (.inl ⟨i, s, hs, kept_eq_batch hstage s ▸ hkept⟩)
    · exact .inr (.inr hlast)
  · have hsink := hrep.sink
    exact ⟨_, hsink.symm⟩

end Implements

/-- Memory that no segment has been written to yet. -/
def blank : ℕ → SpectrumSegment ℚ := fun _ =>
  { sensorId := 0, timeStamp := ⟨0, 0⟩, centerFrequency := 0, samplingRate := 0, iqSamples := [] }

/-- Both windows of a hop go through the threads, one thread after the other. -/
def bothWindows : List (PointerChain.Action ℕ) :=
  [.produce 0, .produce 1] ++
    (List.range 4).flatMap (fun i => List.replicate 8 (.thread i)) ++ [.take, .finish]

theorem segments_owned_two_windows :
    ∃ net chain, GuardedRun.run (PointerChain.act (psdStages ℕ sizeOne twoWindows)) bothWindows
        (start (psdStages ℕ sizeOne twoWindows) (enqueuedBy ℚ singleHop) blank {}) = some net ∧
      net.live = ∅ ∧ net.delivered.length = 1 ∧
      Reachable (psdBlocks sizeOne twoWindows) (enqueuedBy ℚ singleHop) {} chain ∧
      net.delivered <+: chain.queue 4 := by
  have hend : (GuardedRun.run (PointerChain.act (psdStages ℕ sizeOne twoWindows)) bothWindows
      (start (psdStages ℕ sizeOne twoWindows) (enqueuedBy ℚ singleHop) blank {})).map
        (fun net => (net.live, net.delivered.length)) = some (∅, 1) := by
    decide +kernel
  obtain ⟨net, hrun, _, _, chain, hreach, hdelivered⟩ :=
    segments_owned sizeOne twoWindows (enqueuedBy ℚ singleHop) blank bothWindows
  rw [hrun, Option.map_some, Option.some_inj, Prod.mk.injEq] at hend
  exact ⟨net, chain, hrun, hend.1, hend.2, hreach, hdelivered⟩

end EsSensor.SegmentOwnership
