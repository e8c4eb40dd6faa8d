import Mathlib.Logic.Function.Basic
import Mathlib.Logic.Relation
import Mathlib.Data.List.Induction

/-!
A chain of blocks that are joined by lossless queues and run at their own pace.
Whatever the interleaving, the messages in each queue are those that the blocks
before it would produce one after the other, and each block is in the state
that the messages it has taken lead to.
-/
namespace EsSensor.FifoChain

/-- A block takes one message at a time and sends some on, in order. -/
structure Block (σ M : Type) where
  init : σ
  step : σ → M → σ × List M

namespace Block

variable {σ M : Type} (b : Block σ M)

def stateAfter (ms : List M) : σ := ms.foldl (fun s m => (b.step s m).1) b.init

/-- All that is sent on while `ms` is taken. -/
def outputs (ms : List M) : List M :=
  (ms.foldl (fun (acc : σ × List M) m =>
    ((b.step acc.1 m).1, acc.2 ++ (b.step acc.1 m).2)) (b.init, [])).2

@[simp] theorem stateAfter_nil : b.stateAfter [] = b.init := rfl

@[simp] theorem outputs_nil : b.outputs [] = [] := rfl

theorem stateAfter_concat (ms : List M) (m : M) :
    b.stateAfter (ms ++ [m]) = (b.step (b.stateAfter ms) m).1 := by
  simp [stateAfter]

private theorem foldl_fst (ms : List M) (acc : σ × List M) :
    (ms.foldl (fun (acc : σ × List M) m =>
      ((b.step acc.1 m).1, acc.2 ++ (b.step acc.1 m).2)) acc).1 =
      ms.foldl (fun s m => (b.step s m).1) acc.1 := by
  induction ms generalizing acc with
  | nil => rfl
  | cons m ms ih => exact ih _

theorem outputs_concat (ms : List M) (m : M) :
    b.outputs (ms ++ [m]) = b.outputs ms ++ (b.step (b.stateAfter ms) m).2 := by
  have hstate := b.foldl_fst ms (b.init, [])
  simp only [outputs, stateAfter, List.foldl_append, List.foldl_cons, List.foldl_nil, hstate]

/-- What was sent is never taken back. -/
theorem outputs_isPrefix {ms ns : List M} (h : ms <+: ns) : b.outputs ms <+: b.outputs ns := by
  obtain ⟨rest, rfl⟩ := h
  induction rest using List.reverseRecOn with
  | nil => simp
  | append_singleton rest m ih =>
    rw [← List.append_assoc, outputs_concat]
    exact ih.trans (List.prefix_append _ _)

/-- A block that changes each message and keeps nothing. -/
def ofMap (init : σ) (f : M → M) : Block σ M where
  init := init
  step s m := (s, [f m])

theorem outputs_ofMap (init : σ) (f : M → M) (ms : List M) :
    (ofMap init f).outputs ms = ms.map f := by
  induction ms using List.reverseRecOn with
  | nil => rfl
  | append_singleton ms m ih =>
    rw [outputs_concat, ih, List.map_append]
    rfl

variable {b} in
/-- A block that changes each of these messages and keeps nothing. -/
theorem run_of_map {f : M → M} {ms : List M} (hstep : ∀ m ∈ ms, ∀ s, b.step s m = (s, [f m])) :
    b.stateAfter ms = b.init ∧ b.outputs ms = ms.map f := by
  induction ms using List.reverseRecOn with
  | nil => exact ⟨rfl, rfl⟩
  | append_singleton ms m ih =>
    obtain ⟨hstate, houtputs⟩ := ih (fun m' hm' => hstep m' (List.mem_append_left _ hm'))
    have hlast := hstep m (List.mem_append_right _ (List.mem_singleton_self m))
    rw [stateAfter_concat, outputs_concat, hlast, hstate, houtputs, List.map_append]
    exact ⟨rfl, rfl⟩

end Block

variable {σ M : Type}

/-- Block i reads queue i and writes queue i + 1. Messages that it still has to
write are pending; what the producer still has to write is the source. -/
structure Network (σ M : Type) where
  source : List M
  queue : ℕ → List M
  held : ℕ → σ
  pending : ℕ → List M

def Network.start (blocks : List (Block σ M)) (source : List M) (init : σ) :
    Network σ M where
  source := source
  queue := fun _ => []
  held := fun i => (blocks[i]?).elim init Block.init
  pending := fun _ => []

/-- One atomic action of the producer or of one block. -/
inductive Step (blocks : List (Block σ M)) : Network σ M → Network σ M → Prop
  | produce (net : Network σ M) (m : M) (rest : List M) (hsource : net.source = m :: rest) :
    Step blocks net { net with
      source := rest
      queue := Function.update net.queue 0 (net.queue 0 ++ [m]) }
  | take (net : Network σ M) (i : ℕ) (b : Block σ M) (m : M) (rest : List M)
      (hb : blocks[i]? = some b) (hpending : net.pending i = [])
      (hqueue : net.queue i = m :: rest) :
    Step blocks net { net with
      queue := Function.update net.queue i rest
      held := Function.update net.held i (b.step (net.held i) m).1
      pending := Function.update net.pending i (b.step (net.held i) m).2 }
  | send (net : Network σ M) (i : ℕ) (b : Block σ M) (m : M) (rest : List M)
      (hb : blocks[i]? = some b) (hpending : net.pending i = m :: rest) :
    Step blocks net { net with
      queue := Function.update net.queue (i + 1) (net.queue (i + 1) ++ [m])
      pending := Function.update net.pending i rest }

def Reachable (blocks : List (Block σ M)) (source : List M) (init : σ)
    (net : Network σ M) : Prop :=
  Relation.ReflTransGen (Step blocks) (Network.start blocks source init) net

/-- The actions, for running a network: block i takes, or block i sends. -/
inductive Action
  | produce
  | take (i : ℕ)
  | send (i : ℕ)

/-- Does an action, or nothing when it is not enabled. -/
def act (blocks : List (Block σ M)) (net : Network σ M) : Action → Network σ M
  | .produce =>
    match net.source with
    | [] => net
    | m :: rest => { net with
        source := rest
        queue := Function.update net.queue 0 (net.queue 0 ++ [m]) }
  | .take i =>
    match blocks[i]?, net.pending i, net.queue i with
    | some b, [], m :: rest => { net with
        queue := Function.update net.queue i rest
        held := Function.update net.held i (b.step (net.held i) m).1
        pending := Function.update net.pending i (b.step (net.held i) m).2 }
    | _, _, _ => net
  | .send i =>
    match blocks[i]?, net.pending i with
    | some _, m :: rest => { net with
        queue := Function.update net.queue (i + 1) (net.queue (i + 1) ++ [m])
        pending := Function.update net.pending i rest }
    | _, _ => net

theorem step_act (blocks : List (Block σ M)) (net : Network σ M) (a : Action) :
    Relation.ReflTransGen (Step blocks) net (act blocks net a) := by
  cases a with
  | produce =>
    simp only [act]
    split
    · exact .refl
    · exact .single (.produce net _ _ ‹_›)
  | take i =>
    simp only [act]
    split
    · exact .single (.take net i _ _ _ ‹_› ‹_› ‹_›)
    · exact .refl
  | send i =>
    simp only [act]
    split
    · exact .single (.send net i _ _ _ ‹_› ‹_›)
    · exact .refl

/-- What an action leaves alone: only the queue that it writes or takes from,
and only what its own block has pending, may change. -/
theorem act_produce_frame (blocks : List (Block σ M)) (net : Network σ M) :
    (∀ j, j ≠ 0 → (act blocks net .produce).queue j = net.queue j) ∧
      (act blocks net .produce).pending = net.pending := by
  simp only [act]
  split
  · exact ⟨fun _ _ => rfl, rfl⟩
  · exact ⟨fun j hj => Function.update_of_ne hj .., rfl⟩

theorem act_take_frame (blocks : List (Block σ M)) (net : Network σ M) (i : ℕ) :
    ∀ j, j ≠ i → (act blocks net (.take i)).queue j = net.queue j ∧
      (act blocks net (.take i)).pending j = net.pending j := by
  intro j hj
  simp only [act]
  split
  · exact ⟨Function.update_of_ne hj .., Function.update_of_ne hj ..⟩
  · exact ⟨rfl, rfl⟩

theorem act_send_frame (blocks : List (Block σ M)) (net : Network σ M) (i : ℕ) :
    (∀ j, j ≠ i + 1 → (act blocks net (.send i)).queue j = net.queue j) ∧
      ∀ j, j ≠ i → (act blocks net (.send i)).pending j = net.pending j := by
  simp only [act]
  split
  · exact ⟨fun j hj => Function.update_of_ne hj .., fun j hj => Function.update_of_ne hj ..⟩
  · exact ⟨fun _ _ => rfl, fun _ _ => rfl⟩

theorem reachable_acts (blocks : List (Block σ M)) (source : List M) (init : σ)
    (actions : List Action) :
    Reachable blocks source init
      (actions.foldl (act blocks) (Network.start blocks source init)) := by
  induction actions using List.reverseRecOn with
  | nil => exact .refl
  | append_singleton actions a ih =>
    rw [List.foldl_append]
    exact ih.trans (step_act blocks _ a)

/-- A history that explains the network: what each queue was fed, and what each
block has taken of it. -/
structure Explains (blocks : List (Block σ M)) (source : List M) (fed taken : ℕ → List M)
    (net : Network σ M) : Prop where
  source_eq : source = fed 0 ++ net.source
  fed_eq : ∀ i, fed i = taken i ++ net.queue i
  last_eq : ∀ i, blocks.length ≤ i → taken i = []
  held_eq : ∀ i b, blocks[i]? = some b → net.held i = b.stateAfter (taken i)
  sent_eq : ∀ i b, blocks[i]? = some b → b.outputs (taken i) = fed (i + 1) ++ net.pending i

theorem explains_start (blocks : List (Block σ M)) (source : List M) (init : σ) :
    Explains blocks source (fun _ => []) (fun _ => []) (Network.start blocks source init) where
  source_eq := rfl
  fed_eq _ := rfl
  last_eq _ _ := rfl
  held_eq i b hb := by simp [Network.start, hb]
  sent_eq i b hb := rfl

theorem explains_step {blocks : List (Block σ M)} {source : List M} {fed taken : ℕ → List M}
    {net net' : Network σ M} (hnet : Explains blocks source fed taken net)
    (hstep : Step blocks net net') :
    ∃ fed' taken', Explains blocks source fed' taken' net' := by
  cases hstep with
  | produce m rest hsource =>
    refine ⟨Function.update fed 0 (fed 0 ++ [m]), taken, ?_, ?_, hnet.last_eq, hnet.held_eq, ?_⟩
    · simp [hnet.source_eq, hsource]
    · intro i
      by_cases hi : i = 0
      · subst hi
        simp [hnet.fed_eq 0]
      · simp [hi, hnet.fed_eq i]
    · intro i b hb
      simpa using hnet.sent_eq i b hb
  | take i b m rest hb hpending hqueue =>
    have hlen : i < blocks.length := (List.getElem?_eq_some_iff.mp hb).1
    refine ⟨fed, Function.update taken i (taken i ++ [m]), hnet.source_eq, ?_, ?_, ?_, ?_⟩
    · intro j
      by_cases hj : j = i
      · subst hj
        simp [hnet.fed_eq j, hqueue]
      · simp [hj, hnet.fed_eq j]
    · intro j hj
      have hne : j ≠ i := by omega
      simp [hne, hnet.last_eq j hj]
    · intro j c hc
      by_cases hj : j = i
      · subst hj
        obtain rfl := Option.some.inj (hb.symm.trans hc)
        simp [Block.stateAfter_concat, hnet.held_eq j b hb]
      · simpa [hj] using hnet.held_eq j c hc
    · intro j c hc
      by_cases hj : j = i
      · subst hj
        obtain rfl := Option.some.inj (hb.symm.trans hc)
        have hsent := hnet.sent_eq j b hb
        rw [hpending, List.append_nil] at hsent
        simp [Block.outputs_concat, hsent, hnet.held_eq j b hb]
      · simpa [hj] using hnet.sent_eq j c hc
  | send i b m rest hb hpending =>
    refine ⟨Function.update fed (i + 1) (fed (i + 1) ++ [m]), taken, ?_, ?_, hnet.last_eq,
      hnet.held_eq, ?_⟩
    · simpa using hnet.source_eq
    · intro j
      by_cases hj : j = i + 1
      · subst hj
        simp [hnet.fed_eq (i + 1)]
      · simp [hj, hnet.fed_eq j]
    · intro j c hc
      by_cases hj : j = i
      · subst hj
        simp [hnet.sent_eq j c hc, hpending]
      · simpa [hj] using hnet.sent_eq j c hc

theorem explains_of_reachable {blocks : List (Block σ M)} {source : List M} {init : σ}
    {net : Network σ M} (hnet : Reachable blocks source init net) :
    ∃ fed taken, Explains blocks source fed taken net := by
  induction hnet with
  | refl => exact ⟨_, _, explains_start blocks source init⟩
  | tail _ hstep ih =>
    obtain ⟨fed, taken, hexplains⟩ := ih
    exact explains_step hexplains hstep

/-- The stream that queue i carries when the blocks before it run to completion,
one after the other. -/
def through (blocks : List (Block σ M)) (source : List M) : ℕ → List M
  | 0 => source
  | i + 1 => (blocks[i]?).elim [] (fun b => b.outputs (through blocks source i))

theorem fed_isPrefix {blocks : List (Block σ M)} {source : List M} {fed taken : ℕ → List M}
    {net : Network σ M} (hnet : Explains blocks source fed taken net) (i : ℕ)
    (hi : i ≤ blocks.length) : fed i <+: through blocks source i := by
  induction i with
  | zero => exact ⟨net.source, hnet.source_eq.symm⟩
  | succ i ih =>
    have hb : blocks[i]? = some blocks[i] := List.getElem?_eq_getElem hi
    have htaken : taken i <+: through blocks source i := by
      refine List.IsPrefix.trans ?_ (ih (by omega))
      rw [hnet.fed_eq i]
      exact List.prefix_append _ _
    rw [through, hb, Option.elim_some]
    refine List.IsPrefix.trans ?_ (blocks[i].outputs_isPrefix htaken)
    rw [hnet.sent_eq i blocks[i] hb]
    exact List.prefix_append _ _

/-- At every moment of every run, each block has the state that a prefix of its
stream leads to. -/
theorem held_of_reachable {blocks : List (Block σ M)} {source : List M} {init : σ}
    {net : Network σ M} (hnet : Reachable blocks source init net) {i : ℕ} {b : Block σ M}
    (hb : blocks[i]? = some b) :
    ∃ taken, taken <+: through blocks source i ∧ net.held i = b.stateAfter taken := by
  obtain ⟨fed, taken, hexplains⟩ := explains_of_reachable hnet
  have hi : i < blocks.length := (List.getElem?_eq_some_iff.mp hb).1
  refine ⟨taken i, ?_, hexplains.held_eq i b hb⟩
  refine List.IsPrefix.trans ?_ (fed_isPrefix hexplains i (by omega))
  rw [hexplains.fed_eq i]
  exact List.prefix_append _ _

/-- At every moment of every run, what has left the chain is a prefix of its
stream. -/
theorem sink_of_reachable {blocks : List (Block σ M)} {source : List M} {init : σ}
    {net : Network σ M} (hnet : Reachable blocks source init net) :
    net.queue blocks.length <+: through blocks source blocks.length := by
  obtain ⟨fed, taken, hexplains⟩ := explains_of_reachable hnet
  have hsink := hexplains.fed_eq blocks.length
  rw [hexplains.last_eq _ (Nat.le_refl _), List.nil_append] at hsink
  rw [← hsink]
  exact fed_isPrefix hexplains _ (Nat.le_refl _)

/-- Where nothing is on its way any more, each block has taken the whole stream
that comes from what the producer has written, and the last one has sent all of it. -/
theorem held_of_empty {blocks : List (Block σ M)} {source : List M} {init : σ}
    {net : Network σ M} (hnet : Reachable blocks source init net)
    (hempty : ∀ i < blocks.length, net.queue i = [] ∧ net.pending i = []) :
    ∃ written, source = written ++ net.source ∧
      net.queue blocks.length = through blocks written blocks.length ∧
      ∀ i b, blocks[i]? = some b → net.held i = b.stateAfter (through blocks written i) := by
  obtain ⟨fed, taken, hexplains⟩ := explains_of_reachable hnet
  have htaken : ∀ i < blocks.length, fed i = taken i := by
    intro i hi
    rw [hexplains.fed_eq i, (hempty i hi).1, List.append_nil]
  have hfed : ∀ i ≤ blocks.length, fed i = through blocks (fed 0) i := by
    intro i hi
    induction i with
    | zero => rfl
    | succ i ih =>
      have hb : blocks[i]? = some blocks[i] := List.getElem?_eq_getElem hi
      have hsent := hexplains.sent_eq i blocks[i] hb
      rw [(hempty i hi).2, List.append_nil, ← htaken i hi, ih (by omega)] at hsent
      rw [through, hb, Option.elim_some, hsent]
  refine ⟨fed 0, hexplains.source_eq, ?_, ?_⟩
  · have hsink := hexplains.fed_eq blocks.length
    rw [hexplains.last_eq _ (Nat.le_refl _), List.nil_append] at hsink
    rw [← hsink, hfed _ (Nat.le_refl _)]
  · intro i b hb
    have hi : i < blocks.length := (List.getElem?_eq_some_iff.mp hb).1
    rw [hexplains.held_eq i b hb, ← htaken i hi, hfed i (by omega)]

end EsSensor.FifoChain
