import EsSensor.Library.FifoChain
import EsSensor.Library.GuardedRun
import Mathlib.Data.Finset.Basic
import Mathlib.Data.List.Forall2

/-!
A chain of threads that hand messages on by their address. A message is in one place at
a time: in a queue, with one thread, or with the last thread, which frees it. Threads that
use only what they have been given never meet at a message or use one that is freed, and
what they do to the memory is what a chain does that passes on the messages themselves.
-/
namespace EsSensor.PointerChain

/-- What a thread does until it looks at its queue again. -/
inductive Program (P V σ : Type)
  | done (s : σ)
  | read (p : P) (next : V → Program P V σ)
  | write (p : P) (v : V) (next : Program P V σ)
  | give (p : P) (next : Program P V σ)
  | free (p : P) (next : Program P V σ)

/-- How a program ends when nobody interferes, and the messages it has given on. -/
structure Outcome (P V σ : Type) where
  heap : P → V
  state : σ
  given : List V

variable {P V σ τ : Type}

namespace Program

section Outcome

variable [DecidableEq P]

def outcome : Program P V σ → (P → V) → Outcome P V σ
  | .done s, heap => ⟨heap, s, []⟩
  | .read p next, heap => (next (heap p)).outcome heap
  | .write p v next, heap => next.outcome (Function.update heap p v)
  | .give p next, heap =>
    let o := next.outcome heap
    { o with given := heap p :: o.given }
  | .free _ next, heap => next.outcome heap

end Outcome

/-- The program uses only these messages, none of them once it has given it on or freed
it, and those that are left over are the ones that its state keeps. -/
def Owns (kept : σ → List P) : Program P V σ → Set P → Prop
  | .done s, mine => (kept s).Nodup ∧ ∀ p, p ∈ kept s ↔ p ∈ mine
  | .read p next, mine => p ∈ mine ∧ ∀ v, (next v).Owns kept mine
  | .write p _ next, mine => p ∈ mine ∧ next.Owns kept mine
  | .give p next, mine => p ∈ mine ∧ next.Owns kept (mine \ {p})
  | .free p next, mine => p ∈ mine ∧ next.Owns kept (mine \ {p})

/-- The message that the next step of a program reads, writes, gives on or frees. -/
def uses : Program P V σ → Option P
  | .done _ => none
  | .read p _ | .write p _ _ | .give p _ | .free p _ => some p

variable {kept : σ → List P} {mine : Set P} {prog : Program P V σ}

theorem Owns.mem_of_uses (h : prog.Owns kept mine) {p : P} (huses : prog.uses = some p) :
    p ∈ mine := by
  cases prog with
  | done s => cases huses
  | read q next => exact Option.some.inj huses ▸ h.1
  | write q v next => exact Option.some.inj huses ▸ h.1
  | give q next => exact Option.some.inj huses ▸ h.1
  | free q next => exact Option.some.inj huses ▸ h.1

variable [DecidableEq P]

/-- Memory that the program does not own makes no difference to it. -/
theorem Owns.outcome_congr (h : prog.Owns kept mine) {heap heap' : P → V}
    (hagree : ∀ p ∈ mine, heap p = heap' p) :
    (prog.outcome heap).state = (prog.outcome heap').state ∧
      (prog.outcome heap).given = (prog.outcome heap').given ∧
      ∀ p ∈ kept (prog.outcome heap).state,
        (prog.outcome heap).heap p = (prog.outcome heap').heap p := by
  induction prog generalizing mine heap heap' with
  | done s => exact ⟨rfl, rfl, fun p hp => hagree p ((h.2 p).mp hp)⟩
  | read p next ih =>
    rw [outcome, outcome, ← hagree p h.1]
    exact ih (heap p) (h.2 (heap p)) hagree
  | write p v next ih =>
    refine ih h.2 ?_
    intro q hq
    by_cases hqp : q = p
    · rw [hqp, Function.update_self, Function.update_self]
    · rw [Function.update_of_ne hqp, Function.update_of_ne hqp]
      exact hagree q hq
  | give p next ih =>
    obtain ⟨hstate, hgiven, hheap⟩ := ih h.2 (fun q hq => hagree q hq.1)
    refine ⟨hstate, ?_, hheap⟩
    show heap p :: (next.outcome heap).given = heap' p :: (next.outcome heap').given
    rw [hagree p h.1, hgiven]
  | free p next ih => exact ih h.2 (fun q hq => hagree q hq.1)

/-- Reads all of these messages. -/
def readAll : List P → (List V → Program P V σ) → Program P V σ
  | [], next => next []
  | p :: ps, next => .read p (fun v => readAll ps (fun vs => next (v :: vs)))

def giveAll (ps : List P) (next : Program P V σ) : Program P V σ := ps.foldr .give next

def freeAll (ps : List P) (next : Program P V σ) : Program P V σ := ps.foldr .free next

/-- Changes each of these messages where it is. -/
def editAll (f : V → V) (ps : List P) (next : Program P V σ) : Program P V σ :=
  ps.foldr (fun p next => .read p (fun v => .write p (f v) next)) next

/-- The memory in which these messages are changed. -/
def edited (f : V → V) (ps : List P) (heap : P → V) : P → V :=
  fun q => if q ∈ ps then f (heap q) else heap q

theorem map_edited (f : V → V) (ps : List P) (heap : P → V) :
    ps.map (edited f ps heap) = (ps.map heap).map f := by
  rw [List.map_map]
  apply List.map_congr_left
  intro q hq
  exact if_pos hq

theorem outcome_editAll (f : V → V) {ps : List P} (hnodup : ps.Nodup) (next : Program P V σ)
    (heap : P → V) : (editAll f ps next).outcome heap = next.outcome (edited f ps heap) := by
  induction ps generalizing heap with
  | nil =>
    have hnone : edited f [] heap = heap := by
      funext q
      exact if_neg List.not_mem_nil
    rw [hnone]
    rfl
  | cons p ps ih =>
    obtain ⟨hp, hnodup⟩ := List.nodup_cons.mp hnodup
    have hcons : edited f ps (Function.update heap p (f (heap p))) = edited f (p :: ps) heap := by
      funext q
      by_cases hq : q = p
      · subst hq
        simp [edited, hp]
      · simp [edited, hq]
    rw [← hcons]
    exact ih hnodup _

theorem outcome_readAll (ps : List P) (next : List V → Program P V σ) (heap : P → V) :
    (readAll ps next).outcome heap = (next (ps.map heap)).outcome heap := by
  induction ps generalizing next with
  | nil => rfl
  | cons p ps ih => exact ih _

theorem outcome_giveAll (ps : List P) (next : Program P V σ) (heap : P → V) :
    (giveAll ps next).outcome heap =
      { next.outcome heap with given := ps.map heap ++ (next.outcome heap).given } := by
  induction ps with
  | nil => rfl
  | cons p ps ih =>
    have hgive : (giveAll (p :: ps) next).outcome heap =
        { (giveAll ps next).outcome heap with
          given := heap p :: ((giveAll ps next).outcome heap).given } := rfl
    rw [hgive, ih]
    rfl

theorem outcome_freeAll (ps : List P) (next : Program P V σ) (heap : P → V) :
    (freeAll ps next).outcome heap = next.outcome heap := by
  induction ps with
  | nil => rfl
  | cons p ps ih => exact ih

omit [DecidableEq P] in
theorem owns_readAll {ps : List P} {next : List V → Program P V σ} (hps : ∀ p ∈ ps, p ∈ mine)
    (hnext : ∀ vs, (next vs).Owns kept mine) : (readAll ps next).Owns kept mine := by
  induction ps generalizing next with
  | nil => exact hnext []
  | cons p ps ih =>
    exact ⟨hps p List.mem_cons_self, fun v => ih (fun q hq => hps q (List.mem_cons_of_mem _ hq))
      (fun vs => hnext (v :: vs))⟩

omit [DecidableEq P] in
theorem owns_editAll {f : V → V} {ps : List P} {next : Program P V σ} (hps : ∀ p ∈ ps, p ∈ mine)
    (hnext : next.Owns kept mine) : (editAll f ps next).Owns kept mine := by
  induction ps with
  | nil => exact hnext
  | cons p ps ih =>
    have hp := hps p List.mem_cons_self
    exact ⟨hp, fun _ => ⟨hp, ih (fun q hq => hps q (List.mem_cons_of_mem _ hq))⟩⟩

omit [DecidableEq P] in
/-- What is handed on, message by message, is all different. -/
theorem owns_foldr {op : P → Program P V σ → Program P V σ}
    (hop : ∀ p next mine, (op p next).Owns kept mine ↔ p ∈ mine ∧ next.Owns kept (mine \ {p}))
    {ps : List P} (hnodup : ps.Nodup) {next : Program P V σ} (hps : ∀ p ∈ ps, p ∈ mine)
    (hnext : next.Owns kept (mine \ {p | p ∈ ps})) : (ps.foldr op next).Owns kept mine := by
  induction ps generalizing mine with
  | nil =>
    have hnone : mine \ {p | p ∈ ([] : List P)} = mine := by
      ext p
      simp
    rwa [hnone] at hnext
  | cons p ps ih =>
    obtain ⟨hp, hnodup⟩ := List.nodup_cons.mp hnodup
    rw [List.foldr_cons, hop]
    refine ⟨hps p List.mem_cons_self, ih hnodup ?_ ?_⟩
    · intro q hq
      exact ⟨hps q (List.mem_cons_of_mem _ hq), fun hqp => hp (hqp ▸ hq)⟩
    · have hsplit : (mine \ {p}) \ {q | q ∈ ps} = mine \ {q | q ∈ p :: ps} := by
        ext q
        simp only [Set.mem_sdiff, Set.mem_singleton_iff, Set.mem_ofPred_eq, List.mem_cons, not_or,
          and_assoc]
      rwa [hsplit]

end Program

/-- A thread: for each message that it takes from its queue it runs the body of its loop. -/
structure Stage (P V σ : Type) where
  init : σ
  body : σ → P → Program P V σ
  kept : σ → List P
  kept_init : kept init = []
  owns : ∀ s p, (kept s ++ [p]).Nodup → (body s p).Owns kept {q | q ∈ kept s ++ [p]}

/-- The thread does to the messages in memory what the block does to messages. The state
of the block is seen in that of the thread and in the memory that it keeps. -/
structure Implements [DecidableEq P] (view : (P → V) → σ → τ) (stage : Stage P V σ)
    (b : FifoChain.Block τ V) : Prop where
  init : ∀ heap, view heap stage.init = b.init
  congr : ∀ heap heap' s, (∀ p ∈ stage.kept s, heap p = heap' p) → view heap s = view heap' s
  step : ∀ heap s p, (stage.kept s ++ [p]).Nodup → b.step (view heap s) (heap p) =
    (view ((stage.body s p).outcome heap).heap ((stage.body s p).outcome heap).state,
      ((stage.body s p).outcome heap).given)

/-- The memory, the addresses that are in use, and what the last thread has read of the
messages that it has freed. -/
structure Network (P V σ : Type) where
  source : List V
  heap : P → V
  live : Finset P
  queue : ℕ → List P
  running : ℕ → Program P V σ
  last : Option P
  delivered : List V

/-- The producer puts its next message at an address, thread i makes a step, or the last
thread takes a message or is done with it. -/
inductive Action (P : Type)
  | produce (p : P)
  | thread (i : ℕ)
  | take
  | finish

section Act

variable [DecidableEq P] (stages : List (Stage P V σ))

/-- One step; `none` when an address is used that is not in use. No address is given to
the producer that is. -/
def act (a : Action P) (net : Network P V σ) : Option (Network P V σ) :=
  match a with
  | .produce p =>
    match net.source with
    | [] => some net
    | v :: rest =>
      if p ∈ net.live then some net
      else some { net with
        source := rest
        heap := Function.update net.heap p v
        live := insert p net.live
        queue := Function.update net.queue 0 (net.queue 0 ++ [p]) }
  | .thread i =>
    match stages[i]?, net.running i with
    | none, _ => some net
    | some stage, .done s =>
      match net.queue i with
      | [] => some net
      | p :: rest => some { net with
          queue := Function.update net.queue i rest
          running := Function.update net.running i (stage.body s p) }
    | some _, .read p next =>
      if p ∈ net.live then
        some { net with running := Function.update net.running i (next (net.heap p)) }
      else none
    | some _, .write p v next =>
      if p ∈ net.live then
        some { net with
          heap := Function.update net.heap p v
          running := Function.update net.running i next }
      else none
    | some _, .give p next => some { net with
        queue := Function.update net.queue (i + 1) (net.queue (i + 1) ++ [p])
        running := Function.update net.running i next }
    | some _, .free p next =>
      if p ∈ net.live then
        some { net with
          live := net.live.erase p
          running := Function.update net.running i next }
      else none
  | .take =>
    match net.last, net.queue stages.length with
    | none, p :: rest => some { net with
        queue := Function.update net.queue stages.length rest
        last := some p }
    | _, _ => some net
  | .finish =>
    match net.last with
    | none => some net
    | some p =>
      if p ∈ net.live then
        some { net with
          live := net.live.erase p
          last := none
          delivered := net.delivered ++ [net.heap p] }
      else none

def start (source : List V) (heap : P → V) (idle : σ) : Network P V σ where
  source := source
  heap := heap
  live := ∅
  queue := fun _ => []
  running := fun i => .done ((stages[i]?).elim idle Stage.init)
  last := none
  delivered := []

end Act

/-- What one of the n threads is about to use is in use, and in no queue; no other thread
is about to use it, nor does the last one have it. -/
def Exclusive (n : ℕ) (net : Network P V σ) : Prop :=
  ∀ i < n, ∀ p, (net.running i).uses = some p → p ∈ net.live ∧ (∀ j, p ∉ net.queue j) ∧
    net.last ≠ some p ∧ ∀ j < n, j ≠ i → (net.running j).uses ≠ some p

/-- Where a message can be. -/
inductive Place
  | queue (i : ℕ)
  | thread (i : ℕ)
  | last
  deriving DecidableEq

/-- The places of a chain of n threads. -/
def Place.Inside (n : ℕ) : Place → Prop
  | .queue i => i ≤ n
  | .thread i => i < n
  | .last => True

/-- Every address in use is in one place, and each thread has a right to its own. -/
structure Placed (stages : List (Stage P V σ)) (place : P → Option Place)
    (net : Network P V σ) : Prop where
  live : ∀ p, p ∈ net.live ↔ place p ≠ none
  queue : ∀ i p, p ∈ net.queue i ↔ place p = some (.queue i)
  nodup : ∀ i, (net.queue i).Nodup
  owns : ∀ i stage, stages[i]? = some stage →
    (net.running i).Owns stage.kept {p | place p = some (.thread i)}
  last : ∀ p, net.last = some p ↔ place p = some .last
  inside : ∀ p l, place p = some l → l.Inside stages.length

/-- The chain of messages that is seen in the memory: each thread is at the end of its
program already, with what it still gives on pending. -/
structure Represents [DecidableEq P] (stages : List (Stage P V σ)) (view : (P → V) → σ → τ)
    (net : Network P V σ) (chain : FifoChain.Network τ V) : Prop where
  source : chain.source = net.source
  queue : ∀ i < stages.length, chain.queue i = (net.queue i).map net.heap
  sink : chain.queue stages.length =
    net.delivered ++ (net.last.toList ++ net.queue stages.length).map net.heap
  held : ∀ i, i < stages.length → chain.held i =
    view ((net.running i).outcome net.heap).heap ((net.running i).outcome net.heap).state
  pending : ∀ i, i < stages.length → chain.pending i = ((net.running i).outcome net.heap).given

section Moves

variable [DecidableEq P] {place : P → Option Place} {p : P} {l : Place} {dest : Option Place}
  {xs : List P}

omit [DecidableEq P] in
theorem nodup_push (hnodup : xs.Nodup) (hp : p ∉ xs) : (xs ++ [p]).Nodup := by
  rw [← List.concat_eq_append]
  exact hnodup.concat hp

theorem push_iff (h : ∀ q, q ∈ xs ↔ place q = some l) (q : P) :
    q ∈ xs ++ [p] ↔ Function.update place p (some l) q = some l := by
  rw [List.mem_append, List.mem_singleton]
  by_cases hq : q = p
  · simp [hq]
  · simp [hq, h q]

theorem pop_iff (h : ∀ q, q ∈ p :: xs ↔ place q = some l) (hnodup : (p :: xs).Nodup)
    (hdest : dest ≠ some l) (q : P) : q ∈ xs ↔ Function.update place p dest q = some l := by
  by_cases hq : q = p
  · subst hq
    rw [Function.update_self]
    exact ⟨fun hmem => absurd hmem (List.nodup_cons.mp hnodup).1, fun heq => absurd heq hdest⟩
  · rw [Function.update_of_ne hq, ← h q, List.mem_cons]
    exact ⟨Or.inr, fun hmem => hmem.resolve_left hq⟩

/-- Places that a message neither leaves nor comes to. -/
theorem update_iff (hp : place p ≠ some l) (hdest : dest ≠ some l) (q : P) :
    Function.update place p dest q = some l ↔ place q = some l := by
  by_cases hq : q = p
  · subst hq
    rw [Function.update_self]
    exact ⟨fun heq => absurd heq hdest, fun heq => absurd heq hp⟩
  · rw [Function.update_of_ne hq]

theorem set_of_left (hdest : dest ≠ some l) :
    {q | Function.update place p dest q = some l} = {q | place q = some l} \ {p} := by
  ext q
  by_cases hq : q = p
  · subst hq
    simp [hdest]
  · simp [hq]

theorem set_of_other (hp : place p ≠ some l) (hdest : dest ≠ some l) :
    {q | Function.update place p dest q = some l} = {q | place q = some l} := by
  ext q
  exact update_iff hp hdest q

theorem inside_update {n : ℕ} (h : ∀ q l, place q = some l → l.Inside n)
    (hdest : ∀ l, dest = some l → l.Inside n) (q : P) (l : Place)
    (hl : Function.update place p dest q = some l) : l.Inside n := by
  by_cases hq : q = p
  · subst hq
    rw [Function.update_self] at hl
    exact hdest l hl
  · rw [Function.update_of_ne hq] at hl
    exact h q l hl

end Moves

section Steps

variable [DecidableEq P] {stages : List (Stage P V σ)} {view : (P → V) → σ → τ}
  {blocks : List (FifoChain.Block τ V)} {place : P → Option Place} {net : Network P V σ}
  {chain : FifoChain.Network τ V} {i : ℕ} {p : P}

omit [DecidableEq P] in
theorem Placed.mem_live (h : Placed stages place net) {l : Place} (hp : place p = some l) :
    p ∈ net.live := by
  rw [h.live, hp]
  exact Option.some_ne_none l

omit [DecidableEq P] in
/-- What a thread is about to use is in its hands. -/
theorem Placed.place_of_uses (h : Placed stages place net) {stage : Stage P V σ}
    (hstage : stages[i]? = some stage) (huses : (net.running i).uses = some p) :
    place p = some (.thread i) :=
  (h.owns i stage hstage).mem_of_uses huses

theorem Placed.produce (h : Placed stages place net) (hp : p ∉ net.live) (v : V)
    (rest : List V) :
    Placed stages (Function.update place p (some (.queue 0))) { net with
      source := rest
      heap := Function.update net.heap p v
      live := insert p net.live
      queue := Function.update net.queue 0 (net.queue 0 ++ [p]) } where
  live q := by
    rw [Finset.mem_insert]
    by_cases hq : q = p
    · simp [hq]
    · simp [hq, h.live q]
  queue j q := by
    dsimp only
    by_cases hj : j = 0
    · subst hj
      rw [Function.update_self]
      exact push_iff (h.queue 0) q
    · rw [Function.update_of_ne hj, h.queue j q,
        update_iff (fun heq => hp (h.mem_live heq)) (by simp [Ne.symm hj])]
  nodup j := by
    dsimp only
    by_cases hj : j = 0
    · subst hj
      rw [Function.update_self]
      exact nodup_push (h.nodup 0) (fun hmem => hp (h.mem_live ((h.queue 0 p).mp hmem)))
    · rw [Function.update_of_ne hj]
      exact h.nodup j
  owns j stage hstage := by
    rw [set_of_other (fun heq => hp (h.mem_live heq)) (by simp)]
    exact h.owns j stage hstage
  last q := by
    rw [h.last q, update_iff (fun heq => hp (h.mem_live heq)) (by simp)]
  inside := by
    apply inside_update h.inside
    rintro _ ⟨⟩
    exact Nat.zero_le _

omit [DecidableEq P] in
/-- A step that moves no message. -/
theorem Placed.proceed (h : Placed stages place net) (heap : P → V) {prog : Program P V σ}
    (hprog : ∀ stage, stages[i]? = some stage →
      prog.Owns stage.kept {q | place q = some (.thread i)}) :
    Placed stages place { net with
      heap := heap
      running := Function.update net.running i prog } where
  live := h.live
  queue := h.queue
  nodup := h.nodup
  owns j stage hstage := by
    dsimp only
    by_cases hj : j = i
    · subst hj
      rw [Function.update_self]
      exact hprog stage hstage
    · rw [Function.update_of_ne hj]
      exact h.owns j stage hstage
  last := h.last
  inside := h.inside

theorem live_of_moved (h : Placed stages place net) {l l' : Place} (hp : place p = some l)
    (q : P) : q ∈ net.live ↔ Function.update place p (some l') q ≠ none := by
  by_cases hq : q = p
  · subst hq
    rw [Function.update_self, h.live q, hp]
    simp
  · rw [Function.update_of_ne hq, h.live q]

theorem live_of_freed (h : Placed stages place net) (q : P) :
    q ∈ net.live.erase p ↔ Function.update place p none q ≠ none := by
  rw [Finset.mem_erase]
  by_cases hq : q = p
  · simp [hq]
  · simp [hq, h.live q]

theorem Placed.take (h : Placed stages place net) (hi : i < stages.length) {rest : List P}
    (hqueue : net.queue i = p :: rest) {prog : Program P V σ}
    (hprog : ∀ stage, stages[i]? = some stage → prog.Owns stage.kept
      {q | Function.update place p (some (.thread i)) q = some (.thread i)}) :
    Placed stages (Function.update place p (some (.thread i))) { net with
      queue := Function.update net.queue i rest
      running := Function.update net.running i prog } := by
  have hnodup := h.nodup i
  have hmem := h.queue i
  rw [hqueue] at hnodup hmem
  have hp : place p = some (.queue i) := (hmem p).mp List.mem_cons_self
  constructor
  case live => exact live_of_moved h hp
  case queue =>
    intro j q
    dsimp only
    by_cases hj : j = i
    · subst hj
      rw [Function.update_self]
      exact pop_iff hmem hnodup (by simp) q
    · rw [Function.update_of_ne hj, h.queue j q,
        update_iff (by simp [hp, Ne.symm hj]) (by simp)]
  case nodup =>
    intro j
    dsimp only
    by_cases hj : j = i
    · subst hj
      rw [Function.update_self]
      exact (List.nodup_cons.mp hnodup).2
    · rw [Function.update_of_ne hj]
      exact h.nodup j
  case owns =>
    intro j stage hstage
    dsimp only
    by_cases hj : j = i
    · subst hj
      rw [Function.update_self]
      exact hprog stage hstage
    · rw [Function.update_of_ne hj, set_of_other (by simp [hp]) (by simp [Ne.symm hj])]
      exact h.owns j stage hstage
  case last =>
    intro q
    rw [h.last q, update_iff (by simp [hp]) (by simp)]
  case inside =>
    apply inside_update h.inside
    rintro _ ⟨⟩
    exact hi

theorem Placed.give (h : Placed stages place net) (hi : i < stages.length)
    (hp : place p = some (.thread i))
    {prog : Program P V σ} (hprog : ∀ stage, stages[i]? = some stage →
      prog.Owns stage.kept ({q | place q = some (.thread i)} \ {p})) :
    Placed stages (Function.update place p (some (.queue (i + 1)))) { net with
      queue := Function.update net.queue (i + 1) (net.queue (i + 1) ++ [p])
      running := Function.update net.running i prog } := by
  have hnot : p ∉ net.queue (i + 1) := by
    rw [h.queue, hp]
    simp
  constructor
  case live => exact live_of_moved h hp
  case queue =>
    intro j q
    dsimp only
    by_cases hj : j = i + 1
    · subst hj
      rw [Function.update_self]
      exact push_iff (h.queue (i + 1)) q
    · rw [Function.update_of_ne hj, h.queue j q,
        update_iff (by simp [hp]) (by simp [Ne.symm hj])]
  case nodup =>
    intro j
    dsimp only
    by_cases hj : j = i + 1
    · subst hj
      rw [Function.update_self]
      exact nodup_push (h.nodup (i + 1)) hnot
    · rw [Function.update_of_ne hj]
      exact h.nodup j
  case owns =>
    intro j stage hstage
    dsimp only
    by_cases hj : j = i
    · subst hj
      rw [Function.update_self, set_of_left (by simp)]
      exact hprog stage hstage
    · rw [Function.update_of_ne hj, set_of_other (by simp [hp, Ne.symm hj]) (by simp)]
      exact h.owns j stage hstage
  case last =>
    intro q
    rw [h.last q, update_iff (by simp [hp]) (by simp)]
  case inside =>
    apply inside_update h.inside
    rintro _ ⟨⟩
    exact hi

theorem Placed.free (h : Placed stages place net) (hp : place p = some (.thread i))
    {prog : Program P V σ} (hprog : ∀ stage, stages[i]? = some stage →
      prog.Owns stage.kept ({q | place q = some (.thread i)} \ {p})) :
    Placed stages (Function.update place p none) { net with
      live := net.live.erase p
      running := Function.update net.running i prog } := by
  constructor
  case live => exact live_of_freed h
  case queue =>
    intro j q
    rw [h.queue j q, update_iff (by simp [hp]) (by simp)]
  case nodup => exact h.nodup
  case owns =>
    intro j stage hstage
    dsimp only
    by_cases hj : j = i
    · subst hj
      rw [Function.update_self, set_of_left (by simp)]
      exact hprog stage hstage
    · rw [Function.update_of_ne hj, set_of_other (by simp [hp, Ne.symm hj]) (by simp)]
      exact h.owns j stage hstage
  case last =>
    intro q
    rw [h.last q, update_iff (by simp [hp]) (by simp)]
  case inside =>
    apply inside_update h.inside
    rintro _ ⟨⟩

theorem Placed.takeLast (h : Placed stages place net) {n : ℕ} {rest : List P}
    (hqueue : net.queue n = p :: rest) (hlast : net.last = none) :
    Placed stages (Function.update place p (some .last)) { net with
      queue := Function.update net.queue n rest
      last := some p } := by
  have hnodup := h.nodup n
  have hmem := h.queue n
  rw [hqueue] at hnodup hmem
  have hp : place p = some (.queue n) := (hmem p).mp List.mem_cons_self
  constructor
  case live => exact live_of_moved h hp
  case queue =>
    intro j q
    dsimp only
    by_cases hj : j = n
    · subst hj
      rw [Function.update_self]
      exact pop_iff hmem hnodup (by simp) q
    · rw [Function.update_of_ne hj, h.queue j q,
        update_iff (by simp [hp, Ne.symm hj]) (by simp)]
  case nodup =>
    intro j
    dsimp only
    by_cases hj : j = n
    · subst hj
      rw [Function.update_self]
      exact (List.nodup_cons.mp hnodup).2
    · rw [Function.update_of_ne hj]
      exact h.nodup j
  case owns =>
    intro j stage hstage
    rw [set_of_other (by simp [hp]) (by simp)]
    exact h.owns j stage hstage
  case last =>
    intro q
    have hnone := h.last q
    rw [hlast] at hnone
    by_cases hq : q = p
    · simp [hq]
    · rw [Function.update_of_ne hq, ← hnone]
      simp [Ne.symm hq]
  case inside =>
    apply inside_update h.inside
    rintro _ ⟨⟩
    trivial

theorem Placed.finish (h : Placed stages place net) (hlast : net.last = some p)
    (delivered : List V) :
    Placed stages (Function.update place p none) { net with
      live := net.live.erase p
      last := none
      delivered := delivered } := by
  have hp : place p = some .last := (h.last p).mp hlast
  constructor
  case live => exact live_of_freed h
  case queue =>
    intro j q
    rw [h.queue j q, update_iff (by simp [hp]) (by simp)]
  case nodup => exact h.nodup
  case owns =>
    intro j stage hstage
    rw [set_of_other (by simp [hp]) (by simp)]
    exact h.owns j stage hstage
  case last =>
    intro q
    have hsome := h.last q
    rw [hlast, Option.some_inj] at hsome
    by_cases hq : q = p
    · simp [hq]
    · rw [Function.update_of_ne hq, ← hsome]
      simp [Ne.symm hq]
  case inside =>
    apply inside_update h.inside
    rintro _ ⟨⟩

theorem exists_block (himpl : List.Forall₂ (Implements view) stages blocks)
    {stage : Stage P V σ} (hstage : stages[i]? = some stage) :
    ∃ b, blocks[i]? = some b ∧ Implements view stage b := by
  obtain ⟨hlength, hall⟩ := List.forall₂_iff_get.mp himpl
  obtain ⟨hi, rfl⟩ := List.getElem?_eq_some_iff.mp hstage
  exact ⟨_, List.getElem?_eq_getElem (hlength ▸ hi), hall i hi (hlength ▸ hi)⟩

/-- A thread ends as it would have if only the memory of others has changed. -/
theorem Placed.outcome_frame (h : Placed stages place net)
    (himpl : List.Forall₂ (Implements view) stages blocks) {j : ℕ} (hj : j < stages.length)
    {heap : P → V} (hagree : ∀ q, place q = some (.thread j) → net.heap q = heap q) :
    view ((net.running j).outcome net.heap).heap ((net.running j).outcome net.heap).state =
        view ((net.running j).outcome heap).heap ((net.running j).outcome heap).state ∧
      ((net.running j).outcome net.heap).given = ((net.running j).outcome heap).given := by
  have hstage : stages[j]? = some stages[j] := List.getElem?_eq_getElem hj
  obtain ⟨b, _, hb⟩ := exists_block himpl hstage
  obtain ⟨hstate, hgiven, hheap⟩ := (h.owns j _ hstage).outcome_congr hagree
  refine ⟨?_, hgiven⟩
  rw [← hstate]
  exact hb.congr _ _ _ hheap

omit [DecidableEq P] in
/-- What waits is not changed by the memory of a thread. -/
theorem Placed.map_heap (h : Placed stages place net) {heap : P → V} (j : ℕ)
    (hagree : ∀ q, place q = some (.queue j) → net.heap q = heap q) :
    (net.queue j).map net.heap = (net.queue j).map heap := by
  apply List.map_congr_left
  intro q hq
  exact hagree q ((h.queue j q).mp hq)

omit [DecidableEq P] in
theorem Placed.map_heap_last (h : Placed stages place net) {heap : P → V} (j : ℕ)
    (hagree : ∀ q, place q = some (.queue j) ∨ place q = some .last → net.heap q = heap q) :
    (net.last.toList ++ net.queue j).map net.heap = (net.last.toList ++ net.queue j).map heap := by
  apply List.map_congr_left
  intro q hq
  rcases List.mem_append.mp hq with hq | hq
  · exact hagree q (Or.inr ((h.last q).mp (Option.mem_toList.mp hq)))
  · exact hagree q (Or.inl ((h.queue j q).mp hq))

/-- A step within a program, which the chain does not see. -/
theorem Represents.proceed (hrep : Represents stages view net chain)
    (h : Placed stages place net) (himpl : List.Forall₂ (Implements view) stages blocks)
    (heap : P → V) (live : Finset P) {prog : Program P V σ}
    (hsame : (net.running i).outcome net.heap = prog.outcome heap)
    (hagree : ∀ q l, place q = some l → l ≠ .thread i → net.heap q = heap q) :
    Represents stages view { net with
      heap := heap
      live := live
      running := Function.update net.running i prog } chain where
  source := hrep.source
  queue j hj := by
    rw [hrep.queue j hj]
    exact h.map_heap j (fun q hq => hagree q _ hq (by simp))
  sink := by
    rw [hrep.sink, h.map_heap_last _ (fun q hq => ?_)]
    rcases hq with hq | hq
    · exact hagree q _ hq (by simp)
    · exact hagree q _ hq (by simp)
  held j hj := by
    dsimp only
    by_cases hji : j = i
    · subst hji
      rw [Function.update_self, ← hsame]
      exact hrep.held j hj
    · rw [Function.update_of_ne hji, hrep.held j hj]
      exact (h.outcome_frame himpl hj (fun q hq => hagree q _ hq (by simp [hji]))).1
  pending j hj := by
    dsimp only
    by_cases hji : j = i
    · subst hji
      rw [Function.update_self, ← hsame]
      exact hrep.pending j hj
    · rw [Function.update_of_ne hji, hrep.pending j hj]
      exact (h.outcome_frame himpl hj (fun q hq => hagree q _ hq (by simp [hji]))).2

theorem Represents.produce (hrep : Represents stages view net chain)
    (h : Placed stages place net) (himpl : List.Forall₂ (Implements view) stages blocks)
    (hp : p ∉ net.live) (v : V) (rest : List V) :
    Represents stages view { net with
        source := rest
        heap := Function.update net.heap p v
        live := insert p net.live
        queue := Function.update net.queue 0 (net.queue 0 ++ [p]) }
      { chain with
        source := rest
        queue := Function.update chain.queue 0 (chain.queue 0 ++ [v]) } := by
  have hagree : ∀ q l, place q = some l → net.heap q = Function.update net.heap p v q := by
    intro q l hq
    rw [Function.update_of_ne]
    rintro rfl
    exact hp (h.mem_live hq)
  have hmap := h.map_heap 0 (fun q hq => hagree q _ hq)
  constructor
  case source => rfl
  case queue =>
    intro j hj
    dsimp only
    by_cases hj0 : j = 0
    · subst hj0
      rw [Function.update_self, Function.update_self, hrep.queue 0 hj, List.map_append, hmap,
        List.map_singleton, Function.update_self]
    · rw [Function.update_of_ne hj0, Function.update_of_ne hj0, hrep.queue j hj]
      exact h.map_heap j (fun q hq => hagree q _ hq)
  case sink =>
    have hlast := h.map_heap_last stages.length (fun q hq => hq.elim (hagree q _) (hagree q _))
    dsimp only
    by_cases hn : stages.length = 0
    · rw [hn] at hlast ⊢
      have hsink := hrep.sink
      rw [hn, hlast] at hsink
      rw [Function.update_self, Function.update_self, hsink]
      simp only [List.map_append, List.map_cons, List.map_nil, Function.update_self,
        List.append_assoc]
    · rw [Function.update_of_ne hn, Function.update_of_ne hn, hrep.sink, hlast]
  case held =>
    intro j hj
    rw [hrep.held j hj]
    exact (h.outcome_frame himpl hj (fun q hq => hagree q _ hq)).1
  case pending =>
    intro j hj
    rw [hrep.pending j hj]
    exact (h.outcome_frame himpl hj (fun q hq => hagree q _ hq)).2

theorem Represents.take (hrep : Represents stages view net chain) {stage : Stage P V σ}
    {b : FifoChain.Block τ V} {s : σ} {rest : List P}
    (hstage : stages[i]? = some stage) (hb : Implements view stage b)
    (hnodup : (stage.kept s ++ [p]).Nodup) (hrunning : net.running i = .done s) :
    Represents stages view { net with
        queue := Function.update net.queue i rest
        running := Function.update net.running i (stage.body s p) }
      { chain with
        queue := Function.update chain.queue i (rest.map net.heap)
        held := Function.update chain.held i (b.step (chain.held i) (net.heap p)).1
        pending := Function.update chain.pending i (b.step (chain.held i) (net.heap p)).2 } := by
  have hi : i < stages.length := (List.getElem?_eq_some_iff.mp hstage).1
  have hheld := hrep.held i hi
  rw [hrunning] at hheld
  have hstep := hb.step net.heap s p hnodup
  rw [← show chain.held i = view net.heap s from hheld] at hstep
  constructor
  case source => exact hrep.source
  case queue =>
    intro j hj
    dsimp only
    by_cases hji : j = i
    · subst hji
      rw [Function.update_self, Function.update_self]
    · rw [Function.update_of_ne hji, Function.update_of_ne hji, hrep.queue j hj]
  case sink =>
    dsimp only
    have hni : stages.length ≠ i := by omega
    rw [Function.update_of_ne hni, Function.update_of_ne hni, hrep.sink]
  case held =>
    intro j hj
    dsimp only
    by_cases hji : j = i
    · subst hji
      rw [Function.update_self, Function.update_self, hstep]
    · rw [Function.update_of_ne hji, Function.update_of_ne hji, hrep.held j hj]
  case pending =>
    intro j hj
    dsimp only
    by_cases hji : j = i
    · subst hji
      rw [Function.update_self, Function.update_self, hstep]
    · rw [Function.update_of_ne hji, Function.update_of_ne hji, hrep.pending j hj]

theorem Represents.give (hrep : Represents stages view net chain) (hi : i < stages.length)
    {next : Program P V σ} (hrunning : net.running i = .give p next) :
    chain.pending i = net.heap p :: (next.outcome net.heap).given ∧
    Represents stages view { net with
        queue := Function.update net.queue (i + 1) (net.queue (i + 1) ++ [p])
        running := Function.update net.running i next }
      { chain with
        queue := Function.update chain.queue (i + 1) (chain.queue (i + 1) ++ [net.heap p])
        pending := Function.update chain.pending i (next.outcome net.heap).given } := by
  have hpending := hrep.pending i hi
  have hheld := hrep.held i hi
  rw [hrunning] at hpending hheld
  refine ⟨hpending, ?_⟩
  constructor
  case source => exact hrep.source
  case queue =>
    intro j hj
    dsimp only
    by_cases hji : j = i + 1
    · subst hji
      rw [Function.update_self, Function.update_self, hrep.queue _ hj, List.map_append,
        List.map_singleton]
    · rw [Function.update_of_ne hji, Function.update_of_ne hji, hrep.queue j hj]
  case sink =>
    dsimp only
    by_cases hn : stages.length = i + 1
    · have hsink := hrep.sink
      rw [hn] at hsink ⊢
      rw [Function.update_self, Function.update_self, hsink]
      simp only [List.map_append, List.map_cons, List.map_nil, List.append_assoc]
    · rw [Function.update_of_ne hn, Function.update_of_ne hn, hrep.sink]
  case held =>
    intro j hj
    dsimp only
    by_cases hji : j = i
    · subst hji
      rw [Function.update_self]
      exact hheld
    · rw [Function.update_of_ne hji, hrep.held j hj]
  case pending =>
    intro j hj
    dsimp only
    by_cases hji : j = i
    · subst hji
      rw [Function.update_self, Function.update_self]
    · rw [Function.update_of_ne hji, Function.update_of_ne hji, hrep.pending j hj]

theorem Represents.takeLast (hrep : Represents stages view net chain) {rest : List P}
    (hqueue : net.queue stages.length = p :: rest) (hlast : net.last = none) :
    Represents stages view { net with
      queue := Function.update net.queue stages.length rest
      last := some p } chain where
  source := hrep.source
  queue j hj := by
    dsimp only
    rw [Function.update_of_ne (by omega), hrep.queue j hj]
  sink := by
    dsimp only
    rw [hrep.sink, hqueue, hlast, Function.update_self]
    rfl
  held := hrep.held
  pending := hrep.pending

theorem Represents.finish (hrep : Represents stages view net chain)
    (hlast : net.last = some p) (live : Finset P) :
    Represents stages view { net with
      live := live
      last := none
      delivered := net.delivered ++ [net.heap p] } chain where
  source := hrep.source
  queue := hrep.queue
  sink := by
    dsimp only
    rw [hrep.sink, hlast, Option.toList_some, List.map_append, List.map_singleton,
      ← List.append_assoc]
    rfl
  held := hrep.held
  pending := hrep.pending

/-- What the network is after a step: its addresses are placed, and the chain has made the
steps that it may make. -/
def Kept (stages : List (Stage P V σ)) (view : (P → V) → σ → τ)
    (blocks : List (FifoChain.Block τ V)) (chain : FifoChain.Network τ V)
    (net : Network P V σ) : Prop :=
  ∃ place, Placed stages place net ∧ ∃ chain',
    Relation.ReflTransGen (FifoChain.Step blocks) chain chain' ∧
      Represents stages view net chain'

/-- A thread that takes a message and enters its body. -/
theorem kept_of_take (himpl : List.Forall₂ (Implements view) stages blocks)
    (h : Placed stages place net) (hrep : Represents stages view net chain)
    {stage : Stage P V σ} (hstage : stages[i]? = some stage) {s : σ} {rest : List P}
    (hrunning : net.running i = .done s) (hqueue : net.queue i = p :: rest) :
    Kept stages view blocks chain { net with
      queue := Function.update net.queue i rest
      running := Function.update net.running i (stage.body s p) } := by
  obtain ⟨b, hblock, hb⟩ := exists_block himpl hstage
  have hi : i < stages.length := (List.getElem?_eq_some_iff.mp hstage).1
  have howns := h.owns i stage hstage
  rw [hrunning] at howns
  have hp : place p = some (.queue i) := by
    rw [← h.queue, hqueue]
    exact List.mem_cons_self
  have hnew : p ∉ stage.kept s := by
    intro hmem
    have hmine : place p = some (.thread i) := (howns.2 p).mp hmem
    rw [hp] at hmine
    cases hmine
  have hnodup := nodup_push howns.1 hnew
  have hmine : {q | Function.update place p (some (.thread i)) q = some (.thread i)} =
      {q | q ∈ stage.kept s ++ [p]} := by
    ext q
    exact (push_iff howns.2 q).symm
  have hprog : ∀ stage', stages[i]? = some stage' → (stage.body s p).Owns stage'.kept
      {q | Function.update place p (some (.thread i)) q = some (.thread i)} := by
    intro stage' hstage'
    obtain rfl := Option.some.inj (hstage'.symm.trans hstage)
    rw [hmine]
    exact stage'.owns s p hnodup
  have hpending := hrep.pending i hi
  rw [hrunning] at hpending
  have hqueue' := hrep.queue i hi
  rw [hqueue] at hqueue'
  exact ⟨_, h.take hi hqueue hprog, _, .single (.take chain i b _ _ hblock hpending hqueue'),
    hrep.take hstage hb hnodup hrunning⟩

/-- A thread that hands a message to the next queue. -/
theorem kept_of_give (himpl : List.Forall₂ (Implements view) stages blocks)
    (h : Placed stages place net) (hrep : Represents stages view net chain)
    {stage : Stage P V σ} (hstage : stages[i]? = some stage) {next : Program P V σ}
    (hrunning : net.running i = .give p next) :
    Kept stages view blocks chain { net with
      queue := Function.update net.queue (i + 1) (net.queue (i + 1) ++ [p])
      running := Function.update net.running i next } := by
  obtain ⟨b, hblock, _⟩ := exists_block himpl hstage
  have hi : i < stages.length := (List.getElem?_eq_some_iff.mp hstage).1
  have howns : ∀ stage', stages[i]? = some stage' →
      (Program.give p next).Owns stage'.kept {q | place q = some (.thread i)} := by
    intro stage' hstage'
    rw [← hrunning]
    exact h.owns i stage' hstage'
  obtain ⟨hpending, hrep'⟩ := hrep.give hi hrunning
  exact ⟨_, h.give hi (howns stage hstage).1 (fun stage' hstage' => (howns stage' hstage').2), _,
    .single (.send chain i b _ _ hblock hpending), hrep'⟩

/-- A step of a thread, in its body or at its queue. -/
theorem thread_spec (himpl : List.Forall₂ (Implements view) stages blocks)
    (h : Placed stages place net) (hrep : Represents stages view net chain) (i : ℕ) :
    ∃ net', act stages (.thread i) net = some net' ∧ Kept stages view blocks chain net' := by
  have hsame : Kept stages view blocks chain net := ⟨place, h, chain, .refl, hrep⟩
  dsimp only [act]
  cases hstage : stages[i]? with
  | none => exact ⟨net, rfl, hsame⟩
  | some stage =>
    have howns : ∀ prog, net.running i = prog → ∀ stage', stages[i]? = some stage' →
        prog.Owns stage'.kept {q | place q = some (.thread i)} := by
      rintro _ rfl
      exact h.owns i
    cases hrunning : net.running i with
    | done s =>
      dsimp only
      cases hqueue : net.queue i with
      | nil => exact ⟨net, rfl, hsame⟩
      | cons p rest =>
        exact ⟨_, rfl, kept_of_take himpl h hrep hstage hrunning hqueue⟩
    | read p next =>
      have hmine := howns _ hrunning
      refine ⟨_, if_pos (h.mem_live (hmine stage hstage).1), place,
        h.proceed net.heap (fun stage' hstage' => (hmine stage' hstage').2 _), chain, .refl,
        hrep.proceed h himpl net.heap net.live ?_ (fun _ _ _ _ => rfl)⟩
      rw [hrunning]
      rfl
    | write p v next =>
      have hmine := howns _ hrunning
      have hp : place p = some (.thread i) := (hmine stage hstage).1
      refine ⟨_, if_pos (h.mem_live hp), place,
        h.proceed _ (fun stage' hstage' => (hmine stage' hstage').2), chain, .refl,
        hrep.proceed h himpl _ net.live ?_ ?_⟩
      · rw [hrunning]
        rfl
      · intro q l hq hl
        rw [Function.update_of_ne]
        rintro rfl
        exact hl (Option.some.inj (hq.symm.trans hp))
    | give p next => exact ⟨_, rfl, kept_of_give himpl h hrep hstage hrunning⟩
    | free p next =>
      have hmine := howns _ hrunning
      have hp : place p = some (.thread i) := (hmine stage hstage).1
      refine ⟨_, if_pos (h.mem_live hp), _,
        h.free hp (fun stage' hstage' => (hmine stage' hstage').2), chain, .refl,
        hrep.proceed h himpl net.heap _ ?_ (fun _ _ _ _ => rfl)⟩
      rw [hrunning]
      rfl

/-- Every step finds the addresses that it uses in use, and is a step of the chain or one
that the chain does not see. -/
theorem act_spec (himpl : List.Forall₂ (Implements view) stages blocks)
    (h : Placed stages place net) (hrep : Represents stages view net chain) (a : Action P) :
    ∃ net', act stages a net = some net' ∧ Kept stages view blocks chain net' := by
  have hsame : Kept stages view blocks chain net := ⟨place, h, chain, .refl, hrep⟩
  cases a with
  | produce p =>
    dsimp only [act]
    cases hsource : net.source with
    | nil => exact ⟨net, rfl, hsame⟩
    | cons v rest =>
      dsimp only
      by_cases hp : p ∈ net.live
      · exact ⟨net, if_pos hp, hsame⟩
      · refine ⟨_, if_neg hp, _, h.produce hp v rest, _, .single (.produce chain v rest ?_),
          hrep.produce h himpl hp v rest⟩
        rw [hrep.source, hsource]
  | thread i => exact thread_spec himpl h hrep i
  | take =>
    dsimp only [act]
    cases hlast : net.last with
    | some p => exact ⟨net, rfl, hsame⟩
    | none =>
      cases hqueue : net.queue stages.length with
      | nil => exact ⟨net, rfl, hsame⟩
      | cons p rest =>
        exact ⟨_, rfl, _, h.takeLast hqueue hlast, chain, .refl, hrep.takeLast hqueue hlast⟩
  | finish =>
    dsimp only [act]
    cases hlast : net.last with
    | none => exact ⟨net, rfl, hsame⟩
    | some p =>
      have hp : p ∈ net.live := h.mem_live ((h.last p).mp hlast)
      exact ⟨_, if_pos hp, _, h.finish hlast _, chain, .refl, hrep.finish hlast _⟩

omit [DecidableEq P] in
theorem placed_start (stages : List (Stage P V σ)) (source : List V) (heap : P → V) (idle : σ) :
    Placed stages (fun _ => none) (start stages source heap idle) where
  live p := by simp [start]
  queue i p := by simp [start]
  nodup i := List.nodup_nil
  owns i stage hstage := by
    simp only [start, hstage, Option.elim_some, Program.Owns, stage.kept_init]
    simp
  last p := by simp [start]
  inside := by
    rintro _ _ ⟨⟩

theorem represents_start (himpl : List.Forall₂ (Implements view) stages blocks)
    (source : List V) (heap : P → V) (idle : σ) (init : τ) :
    Represents stages view (start stages source heap idle)
      (FifoChain.Network.start blocks source init) where
  source := rfl
  queue i hi := rfl
  sink := rfl
  held i hi := by
    obtain ⟨b, hblock, hb⟩ := exists_block himpl (List.getElem?_eq_getElem hi)
    simp only [FifoChain.Network.start, start, hblock, List.getElem?_eq_getElem hi,
      Option.elim_some]
    exact (hb.init heap).symm
  pending i hi := rfl

/-- No run ever uses an address that is not in use, and whatever the interleaving, what is
in memory is a state of the chain that passes on the messages themselves. -/
theorem run_spec (himpl : List.Forall₂ (Implements view) stages blocks) (source : List V)
    (heap : P → V) (idle : σ) (init : τ) (actions : List (Action P)) :
    ∃ net place chain,
      GuardedRun.run (act stages) actions (start stages source heap idle) = some net ∧
      Placed stages place net ∧ FifoChain.Reachable blocks source init chain ∧
      Represents stages view net chain := by
  induction actions using List.reverseRecOn with
  | nil => exact ⟨_, _, _, rfl, placed_start .., .refl, represents_start himpl ..⟩
  | append_singleton actions a ih =>
    obtain ⟨net, place, chain, hrun, hplaced, hreach, hrep⟩ := ih
    obtain ⟨net', hact, place', hplaced', chain', hsteps, hrep'⟩ :=
      act_spec himpl hplaced hrep a
    refine ⟨net', place', chain', ?_, hplaced', hreach.trans hsteps, hrep'⟩
    rw [GuardedRun.run_append, hrun, Option.bind_some, GuardedRun.run_cons, hact,
      Option.bind_some, GuardedRun.run_nil]

omit [DecidableEq P] in
theorem Placed.exclusive (h : Placed stages place net) : Exclusive stages.length net := by
  intro i hi p huses
  have hp := h.place_of_uses (List.getElem?_eq_getElem hi) huses
  refine ⟨h.mem_live hp, ?_, ?_, ?_⟩
  · intro j hmem
    rw [h.queue, hp] at hmem
    cases hmem
  · intro hlast
    rw [h.last, hp] at hlast
    cases hlast
  · intro j hj hji huses'
    have hp' := h.place_of_uses (List.getElem?_eq_getElem hj) huses'
    rw [hp] at hp'
    exact hji (Place.thread.inj (Option.some.inj hp')).symm

omit [DecidableEq P] in
/-- When every thread looks at its queue, nothing in use is out of reach: it waits, a
thread keeps it, or the last thread has it. -/
theorem Placed.accounted (h : Placed stages place net)
    (hidle : ∀ i < stages.length, ∃ s, net.running i = .done s) (hp : p ∈ net.live) :
    (∃ i ≤ stages.length, p ∈ net.queue i) ∨
      (∃ i stage s, stages[i]? = some stage ∧ net.running i = .done s ∧ p ∈ stage.kept s) ∨
      net.last = some p := by
  obtain ⟨l, hl⟩ := Option.ne_none_iff_exists'.mp ((h.live p).mp hp)
  have hinside := h.inside p l hl
  cases l with
  | queue i => exact .inl ⟨i, hinside, (h.queue i p).mpr hl⟩
  | thread i =>
    obtain ⟨s, hs⟩ := hidle i hinside
    have hstage : stages[i]? = some stages[i] := List.getElem?_eq_getElem hinside
    have howns := h.owns i _ hstage
    rw [hs] at howns
    exact .inr (.inl ⟨i, _, s, hstage, hs, (howns.2 p).mpr hl⟩)
  | last => exact .inr (.inr ((h.last p).mpr hl))

end Steps

end EsSensor.PointerChain
