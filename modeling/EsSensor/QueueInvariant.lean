import EsSensor.QueueRing
import Mathlib.Algebra.Order.BigOperators.Group.List

/-!
What holds of the queue between any two steps, what each thread knows where it
stands, and what it promises to leave alone. The knowledge of one thread survives
the steps of the other because of that promise.
-/
namespace EsSensor.ReaderWriterQueue

open AtomicFifo LinkedRing MachineWord

variable {T : Type}

namespace Ghost

variable {g g' : Ghost T}

theorem items_congr (hfront : g'.front = g.front) (hahead : g'.ahead = g.ahead)
    (hlive : ∀ p ∈ g.front :: g.ahead, (g'.lane p).live = (g.lane p).live) :
    g'.items = g.items := by
  rw [items, items, hfront, hahead]
  exact List.flatMap_congr hlive

theorem items_setLane {p : ℕ} {l : Lane T} (hlive : l.live = (g.lane p).live) :
    (g.setLane p l).items = g.items := by
  refine items_congr rfl rfl ?_
  intro r _
  by_cases hr : r = p
  · subst hr
    rw [setLane_same, hlive]
  · rw [setLane_of_ne g hr]

/-- The tail block has got one more. -/
theorem items_publish (hnodup : (g.front :: g.ahead).Nodup) {l : Lane T} {x : T}
    (hlive : l.live = (g.lane g.last).live ++ [x]) :
    (g.setLane g.last l).items = g.items ++ [x] := by
  obtain ⟨before, hused⟩ := g.used_eq
  rw [hused, List.nodup_append] at hnodup
  have hbefore : before.flatMap (fun p => ((g.setLane g.last l).lane p).live) =
      before.flatMap (fun p => (g.lane p).live) := by
    refine List.flatMap_congr ?_
    intro p hp
    rw [setLane_of_ne g (hnodup.2.2 p hp g.last List.mem_cons_self)]
  rw [items, items, setLane_front, setLane_ahead, hused, List.flatMap_append,
    List.flatMap_append, hbefore, List.append_assoc]
  simp [hlive]

/-- The front block has lost its first. -/
theorem items_bump (hnodup : (g.front :: g.ahead).Nodup) {l : Lane T} {x : T}
    (hlive : (g.lane g.front).live = x :: l.live) : g.items = x :: (g.setLane g.front l).items := by
  have hahead : g.ahead.flatMap (fun p => ((g.setLane g.front l).lane p).live) =
      g.ahead.flatMap (fun p => (g.lane p).live) := by
    refine List.flatMap_congr ?_
    intro p hp
    have hne : p ≠ g.front := by
      rintro rfl
      exact (List.nodup_cons.mp hnodup).1 hp
    rw [setLane_of_ne g hne]
  rw [items, items, setLane_front, setLane_ahead, List.flatMap_cons, List.flatMap_cons, hahead,
    setLane_same, hlive, List.cons_append]

theorem items_enter (hfront : g'.front = g.front) {n : ℕ} (hahead : g'.ahead = g.ahead ++ [n])
    (hlane : g'.lane = g.lane) : g'.items = g.items ++ (g.lane n).live := by
  rw [items, items, hfront, hahead, hlane, ← List.cons_append, List.flatMap_append,
    List.flatMap_singleton]

theorem items_rotate {n : ℕ} {rest : List ℕ} (hahead : g.ahead = n :: rest)
    (hempty : (g.lane g.front).live = []) (hfront : g'.front = n) (hrest : g'.ahead = rest)
    (hlane : g'.lane = g.lane) : g'.items = g.items := by
  rw [items, items, hfront, hrest, hlane, hahead]
  conv_rhs => rw [List.flatMap_cons, hempty, List.nil_append]

/-- The producer is between two writes to blocks. -/
structure Quiet (g : Ghost T) : Prop where
  writing : g.writing = none
  entering : g.entering = none
  fresh : g.fresh = []

/-- The tail block was full when the producer last looked. -/
def Filled (g : Ghost T) : Prop :=
  (g.lane g.last).tail + 1 = (g.lane g.last).seenFront + (g.lane g.last).size

/-- The front block is empty. -/
def Drained (g : Ghost T) : Prop := (g.lane g.front).front = (g.lane g.front).tail

/-- What the producer offers. If the queue had room at the call, it has room still. -/
def Offering (capacity : ℕ) (g : Ghost T) (x : T) (full : Bool) : Prop :=
  g.fifo.offered = some (x, full) ∧ (full = false → g.fifo.items.length < capacity)

/-- If there is nothing in the queue, there was nothing when the consumer called. -/
def Asked (g : Ghost T) (atCall : ℕ) : Prop :=
  g.fifo.requested = some atCall ∧ (g.fifo.items = [] → atCall = 0)

/-- The elements in these blocks. -/
def count (g : Ghost T) (ps : List ℕ) : ℕ :=
  (ps.map (fun p => (g.lane p).tail - (g.lane p).front)).sum

end Ghost

/-- What holds of one block of the ring. Blocks ahead of the front one are as the
producer left them: not empty, and all but the tail block full. -/
structure LaneFact (least : ℕ) (g : Ghost T) (p : ℕ) : Prop where
  built : (g.lane p).history.length = (g.lane p).tail + if g.writing = some p then 1 else 0
  taken : (g.lane p).taken = (g.lane p).front + if g.taking = some p then 1 else 0
  free : p ∈ g.free → (g.lane p).tail = (g.lane p).front + if g.entering = some p then 1 else 0
  ahead : p ∈ g.ahead → (g.lane p).front < (g.lane p).tail ∧ (g.lane p).seenFront = (g.lane p).front
  full : p ∈ g.ahead.dropLast → (g.lane p).tail + 1 = (g.lane p).front + (g.lane p).size
  least : least ≤ (g.lane p).size

structure Facts (capacity least : ℕ) (g : Ghost T) : Prop where
  lanes : ∀ p ∈ g.ring, LaneFact least g p
  entering : ∀ p, g.entering = some p → p ∈ g.free
  taking : ∀ p, g.taking = some p → p = g.front
  offering : g.entering ≠ none → g.fifo.offered ≠ none
  room : capacity ≤ (least - 1) * max 1 (g.ring.length - 1)
  items : g.fifo.items = g.items

structure Inv (capacity least : ℕ) (s : Shared T) (g : Ghost T) : Prop where
  memory : Memory s.queue g
  facts : Facts capacity least g
  log : History capacity s.log g.fifo
  two_le : 2 ≤ least
  largest : least ≤ s.queue.largestBlockSize
  power : ∃ k ≤ 63, s.queue.largestBlockSize = 2 ^ k

/-- What the producer knows at each of its steps. -/
def ProducerKnows (capacity least : ℕ) (g : Ghost T) : Enqueue T → Prop
  | .idle => g.Quiet ∧ g.fifo.offered = none
  | .start _ x => g.Quiet ∧ ∃ full, g.Offering capacity x full
  | .readFront _ x t blockTail nextBlockTail => g.Quiet ∧ (∃ full, g.Offering capacity x full) ∧
      t = g.last ∧ blockTail = (g.lane g.last).tail % (g.lane g.last).size ∧
      nextBlockTail = ((g.lane g.last).tail + 1) % (g.lane g.last).size ∧ g.Filled
  | .construct x t blockTail nextBlockTail => g.Quiet ∧ (∃ full, g.Offering capacity x full) ∧
      t = g.last ∧ blockTail = (g.lane g.last).tail % (g.lane g.last).size ∧
      nextBlockTail = ((g.lane g.last).tail + 1) % (g.lane g.last).size ∧
      (g.lane g.last).tail + 1 < (g.lane g.last).seenFront + (g.lane g.last).size
  | .publish x t nextBlockTail => (g.writing = some g.last ∧ g.entering = none ∧ g.fresh = []) ∧
      (∃ full, g.Offering capacity x full) ∧
      t = g.last ∧ nextBlockTail = ((g.lane g.last).tail + 1) % (g.lane g.last).size ∧
      (g.lane g.last).history[(g.lane g.last).tail]? = some x
  | .compareNext _ x t => g.Quiet ∧
      (∃ full, g.Offering capacity x full ∧ (g.ring.length = 1 → full = true)) ∧
      t = g.last ∧ g.Filled
  | .enterNext x n => g.Quiet ∧ (∃ full, g.Offering capacity x full) ∧
      (∃ rest, g.free = n :: rest) ∧ g.Filled
  | .constructNext x n nextBlockTail => g.Quiet ∧ (∃ full, g.Offering capacity x full) ∧
      (∃ rest, g.free = n :: rest) ∧ g.Filled ∧
      nextBlockTail = (g.lane n).tail % (g.lane n).size ∧ (g.lane n).seenFront = (g.lane n).front
  | .publishNext x n nextBlockTail => (g.writing = some n ∧ g.entering = none ∧ g.fresh = []) ∧
      (∃ full, g.Offering capacity x full) ∧ (∃ rest, g.free = n :: rest) ∧ g.Filled ∧
      nextBlockTail = (g.lane n).tail % (g.lane n).size ∧
      (g.lane n).seenFront = (g.lane n).front ∧ (g.lane n).history[(g.lane n).front]? = some x
  | .allocate x t => g.Quiet ∧ g.Offering capacity x true ∧ t = g.last ∧ g.Filled
  | .link x t n => (g.writing = none ∧ g.entering = none ∧ g.fresh = [n]) ∧
      (∃ full, g.Offering capacity x full) ∧ t = g.last ∧ g.Filled ∧ least ≤ (g.lane n).size ∧
      (g.lane n).seenFront = 0 ∧ (g.lane n).front = 0 ∧ (g.lane n).taken = 0 ∧
      (g.lane n).tail = 1 ∧ (g.lane n).history = [x]
  | .advance x n => (g.writing = none ∧ g.entering = some n ∧ g.fresh = []) ∧
      (∃ full, g.Offering capacity x full) ∧ (∃ rest, g.free = n :: rest) ∧ g.Filled ∧
      (g.lane n).seenFront = (g.lane n).front ∧ (g.lane n).history[(g.lane n).front]? = some x

/-- What the consumer knows at each of its steps. -/
def ConsumerKnows (g : Ghost T) : Dequeue T → Prop
  | .idle => g.taking = none ∧ g.fifo.requested = none
  | .start _ => g.taking = none ∧ ∃ atCall, g.Asked atCall
  | .readTail _ f blockFront => g.taking = none ∧ (∃ atCall, g.Asked atCall) ∧
      f = g.front ∧ blockFront = (g.lane g.front).front % (g.lane g.front).size
  | .readTailBlock _ f => g.taking = none ∧
      (∃ atCall, g.Asked atCall ∧ (g.ahead = [] → atCall = 0)) ∧ f = g.front
  | .rereadTail _ => g.taking = none ∧ (∃ atCall, g.Asked atCall) ∧
      ∃ n rest, g.ahead = n :: rest
  | .readNext _ f => g.taking = none ∧ (∃ atCall, g.Asked atCall) ∧ f = g.front ∧
      (∃ n rest, g.ahead = n :: rest) ∧ g.Drained
  | .readNextTail _ n nextBlockFront => g.taking = none ∧ (∃ atCall, g.Asked atCall) ∧
      (∃ rest, g.ahead = n :: rest) ∧ g.Drained ∧
      nextBlockFront = (g.lane n).front % (g.lane n).size
  | .advance _ n nextBlockFront => g.taking = none ∧ (∃ atCall, g.Asked atCall) ∧
      (∃ rest, g.ahead = n :: rest) ∧ g.Drained ∧
      nextBlockFront = (g.lane n).front % (g.lane n).size ∧ (g.lane n).front < (g.lane n).seenTail
  | .look p blockFront => g.taking = none ∧ (∃ atCall, g.Asked atCall) ∧
      (p = g.front ∧ (g.lane p).front < (g.lane p).tail ∨
        (∃ rest, g.ahead = p :: rest) ∧ g.Drained) ∧
      blockFront = (g.lane p).front % (g.lane p).size
  | .take f blockFront => g.taking = none ∧ (∃ atCall, g.Asked atCall) ∧ f = g.front ∧
      blockFront = (g.lane g.front).front % (g.lane g.front).size ∧
      (g.lane g.front).front < (g.lane g.front).seenTail
  | .bump x f blockFront => g.taking = some g.front ∧ (∃ atCall, g.fifo.requested = some atCall) ∧
      f = g.front ∧ blockFront = ((g.lane g.front).front + 1) % (g.lane g.front).size ∧
      (g.lane g.front).history[(g.lane g.front).front]? = some x ∧
      (g.lane g.front).front < (g.lane g.front).tail
  | .measure f p result => g.taking = none ∧ ∃ atCall seen todo n, g.fifo.requested = some atCall ∧
      f = g.front ∧ g.ring = seen ++ p :: todo ∧ result = u64 n ∧ n ≤ g.count seen ∧
      atCall ≤ n + g.count (p :: todo)
  | .measureNext f p result => g.taking = none ∧ ∃ atCall seen todo n,
      g.fifo.requested = some atCall ∧ f = g.front ∧ g.ring = seen ++ p :: todo ∧
      result = u64 n ∧ n ≤ g.count (seen ++ [p]) ∧ atCall ≤ n + g.count todo

/-- What a step of the consumer leaves to the producer. -/
structure ConsumerKeeps (g g' : Ghost T) : Prop where
  last : g'.last = g.last
  ring_length : g'.ring.length = g.ring.length
  free : ∃ more, g'.free = g.free ++ more
  fresh : g'.fresh = g.fresh
  writing : g'.writing = g.writing
  entering : g'.entering = g.entering
  offered : g'.fifo.offered = g.fifo.offered
  items : g'.fifo.items.length ≤ g.fifo.items.length
  size : ∀ p, (g'.lane p).size = (g.lane p).size
  history : ∀ p, (g'.lane p).history = (g.lane p).history
  seenFront : ∀ p, (g'.lane p).seenFront = (g.lane p).seenFront
  tail : ∀ p, (g'.lane p).tail = (g.lane p).tail
  idle : ∀ p ∈ g.free ++ g.fresh, g'.lane p = g.lane p

/-- What a step of the producer leaves to the consumer. It writes to the front
block only where that is the tail block too. -/
structure ProducerKeeps (g g' : Ghost T) : Prop where
  front : g'.front = g.front
  ring : g.ring.Sublist g'.ring
  ahead : ∃ more, g'.ahead = g.ahead ++ more
  taking : g'.taking = g.taking
  requested : g'.fifo.requested = g.fifo.requested
  items : ∃ more, g'.fifo.items = g.fifo.items ++ more
  size : ∀ p ∈ g.ring, (g'.lane p).size = (g.lane p).size
  history : ∀ p ∈ g.ring, ∃ more, (g'.lane p).history = (g.lane p).history ++ more
  frontIndex : ∀ p ∈ g.ring, (g'.lane p).front = (g.lane p).front
  seenTail : ∀ p ∈ g.ring, (g'.lane p).seenTail = (g.lane p).seenTail
  tail : ∀ p ∈ g.ring, (g.lane p).tail ≤ (g'.lane p).tail
  idle : g.ahead ≠ [] → (g'.lane g.front).tail = (g.lane g.front).tail

theorem ConsumerKeeps.refl (g : Ghost T) : ConsumerKeeps g g :=
  ⟨rfl, rfl, ⟨[], (List.append_nil _).symm⟩, rfl, rfl, rfl, rfl, Nat.le_refl _, fun _ => rfl,
    fun _ => rfl, fun _ => rfl, fun _ => rfl, fun _ _ => rfl⟩

theorem ProducerKeeps.refl (g : Ghost T) : ProducerKeeps g g :=
  ⟨rfl, List.Sublist.refl _, ⟨[], (List.append_nil _).symm⟩, rfl, rfl,
    ⟨[], (List.append_nil _).symm⟩, fun _ _ => rfl,
    fun _ _ => ⟨[], (List.append_nil _).symm⟩, fun _ _ => rfl, fun _ _ => rfl,
    fun _ _ => Nat.le_refl _, fun _ => rfl⟩

section Stability

variable {capacity least : ℕ} {g g' : Ghost T}

theorem ConsumerKeeps.quiet (k : ConsumerKeeps g g') (h : g.Quiet) : g'.Quiet :=
  ⟨k.writing.trans h.writing, k.entering.trans h.entering, k.fresh.trans h.fresh⟩

theorem ConsumerKeeps.filled (k : ConsumerKeeps g g') (h : g.Filled) : g'.Filled := by
  rw [Ghost.Filled, k.last, k.tail, k.seenFront, k.size]
  exact h

theorem ConsumerKeeps.offering (k : ConsumerKeeps g g') {x : T} {full : Bool}
    (h : g.Offering capacity x full) : g'.Offering capacity x full :=
  ⟨k.offered.trans h.1, fun hfull => k.items.trans_lt (h.2 hfull)⟩

theorem ConsumerKeeps.freeHead (k : ConsumerKeeps g g') {n : ℕ}
    (h : ∃ rest, g.free = n :: rest) :
    (∃ rest, g'.free = n :: rest) ∧ g'.lane n = g.lane n := by
  obtain ⟨rest, hrest⟩ := h
  obtain ⟨more, hmore⟩ := k.free
  refine ⟨⟨rest ++ more, by rw [hmore, hrest, List.cons_append]⟩, k.idle n ?_⟩
  rw [hrest]
  exact List.mem_cons_self

/-- What the producer knows survives a step of the consumer. -/
theorem producer_stable :
    RelyGuarantee.Stable (Inv (T := T) capacity least) (ProducerKnows capacity least)
      ConsumerKeeps := by
  intro pc s g g' _ hknows k
  cases pc with
  | idle => exact ⟨k.quiet hknows.1, k.offered.trans hknows.2⟩
  | start mode x =>
    obtain ⟨hquiet, full, hoffer⟩ := hknows
    exact ⟨k.quiet hquiet, full, k.offering hoffer⟩
  | readFront mode x t blockTail nextBlockTail =>
    obtain ⟨hquiet, ⟨full, hoffer⟩, ht, hbt, hnt, hfilled⟩ := hknows
    refine ⟨k.quiet hquiet, ⟨full, k.offering hoffer⟩, ?_, ?_, ?_, k.filled hfilled⟩
    all_goals rw [k.last]
    · exact ht
    · rw [k.tail, k.size]
      exact hbt
    · rw [k.tail, k.size]
      exact hnt
  | construct x t blockTail nextBlockTail =>
    obtain ⟨hquiet, ⟨full, hoffer⟩, ht, hbt, hnt, hroom⟩ := hknows
    refine ⟨k.quiet hquiet, ⟨full, k.offering hoffer⟩, ?_, ?_, ?_, ?_⟩
    all_goals rw [k.last]
    · exact ht
    · rw [k.tail, k.size]
      exact hbt
    · rw [k.tail, k.size]
      exact hnt
    · rw [k.tail, k.size, k.seenFront]
      exact hroom
  | publish x t nextBlockTail =>
    obtain ⟨⟨hw, he, hf⟩, ⟨full, hoffer⟩, ht, hnt, hx⟩ := hknows
    refine ⟨⟨?_, k.entering.trans he, k.fresh.trans hf⟩, ⟨full, k.offering hoffer⟩, ?_, ?_, ?_⟩
    all_goals rw [k.last]
    · exact k.writing.trans hw
    · exact ht
    · rw [k.tail, k.size]
      exact hnt
    · rw [k.history, k.tail]
      exact hx
  | compareNext mode x t =>
    obtain ⟨hquiet, ⟨full, hoffer, hone⟩, ht, hfilled⟩ := hknows
    refine ⟨k.quiet hquiet, ⟨full, k.offering hoffer, ?_⟩, ht.trans k.last.symm,
      k.filled hfilled⟩
    rw [k.ring_length]
    exact hone
  | enterNext x n =>
    obtain ⟨hquiet, ⟨full, hoffer⟩, hfree, hfilled⟩ := hknows
    exact ⟨k.quiet hquiet, ⟨full, k.offering hoffer⟩, (k.freeHead hfree).1, k.filled hfilled⟩
  | constructNext x n nextBlockTail =>
    obtain ⟨hquiet, ⟨full, hoffer⟩, hfree, hfilled, hlane⟩ := hknows
    refine ⟨k.quiet hquiet, ⟨full, k.offering hoffer⟩, (k.freeHead hfree).1,
      k.filled hfilled, ?_⟩
    rw [(k.freeHead hfree).2]
    exact hlane
  | publishNext x n nextBlockTail =>
    obtain ⟨⟨hw, he, hf⟩, ⟨full, hoffer⟩, hfree, hfilled, hlane⟩ := hknows
    refine ⟨⟨k.writing.trans hw, k.entering.trans he, k.fresh.trans hf⟩,
      ⟨full, k.offering hoffer⟩, (k.freeHead hfree).1, k.filled hfilled, ?_⟩
    rw [(k.freeHead hfree).2]
    exact hlane
  | allocate x t =>
    obtain ⟨hquiet, hoffer, ht, hfilled⟩ := hknows
    exact ⟨k.quiet hquiet, k.offering hoffer, ht.trans k.last.symm, k.filled hfilled⟩
  | link x t n =>
    obtain ⟨⟨hw, he, hf⟩, ⟨full, hoffer⟩, ht, hfilled, hlane⟩ := hknows
    refine ⟨⟨k.writing.trans hw, k.entering.trans he, k.fresh.trans hf⟩,
      ⟨full, k.offering hoffer⟩, ht.trans k.last.symm, k.filled hfilled, ?_⟩
    rw [k.idle n (by rw [hf]; simp)]
    exact hlane
  | advance x n =>
    obtain ⟨⟨hw, he, hf⟩, ⟨full, hoffer⟩, hfree, hfilled, hlane⟩ := hknows
    refine ⟨⟨k.writing.trans hw, k.entering.trans he, k.fresh.trans hf⟩,
      ⟨full, k.offering hoffer⟩, (k.freeHead hfree).1, k.filled hfilled, ?_⟩
    rw [(k.freeHead hfree).2]
    exact hlane

theorem ProducerKeeps.asked (k : ProducerKeeps g g') {atCall : ℕ}
    (h : g.Asked atCall) : g'.Asked atCall := by
  obtain ⟨more, hmore⟩ := k.items
  refine ⟨k.requested.trans h.1, ?_⟩
  intro hnil
  rw [hmore] at hnil
  exact h.2 (List.append_eq_nil_iff.mp hnil).1

theorem ProducerKeeps.aheadHead (k : ProducerKeeps g g') {n : ℕ}
    (h : ∃ rest, g.ahead = n :: rest) :
    (∃ rest, g'.ahead = n :: rest) ∧ n ∈ g.ring := by
  obtain ⟨rest, hrest⟩ := h
  obtain ⟨more, hmore⟩ := k.ahead
  refine ⟨⟨rest ++ more, by rw [hmore, hrest, List.cons_append]⟩, ?_⟩
  rw [Ghost.ring, hrest]
  exact List.mem_cons_of_mem _ List.mem_cons_self

theorem ProducerKeeps.drained (k : ProducerKeeps g g') (hahead : ∃ n rest, g.ahead = n :: rest)
    (h : g.Drained) : g'.Drained := by
  obtain ⟨n, rest, hrest⟩ := hahead
  rw [Ghost.Drained, k.front, k.frontIndex g.front List.mem_cons_self,
    k.idle (by rw [hrest]; exact List.cons_ne_nil _ _)]
  exact h

/-- Where a block is in the ring, with what may have been linked in around it. -/
theorem ProducerKeeps.ring_split (k : ProducerKeeps g g') {p : ℕ} {seen todo : List ℕ}
    (h : g.ring = seen ++ p :: todo) :
    ∃ seen' todo', g'.ring = seen' ++ p :: todo' ∧ seen.Sublist seen' ∧ todo.Sublist todo' := by
  have hsub := k.ring
  rw [h] at hsub
  obtain ⟨before, after, hring, hseen, hafter⟩ := List.append_sublist_iff.mp hsub
  obtain ⟨here, more, hsplit, hp, htodo⟩ := List.cons_sublist_iff.mp hafter
  obtain ⟨a, b, hhere⟩ := List.append_of_mem hp
  refine ⟨before ++ a, b ++ more, ?_, hseen.trans (List.sublist_append_left _ _),
    htodo.trans (List.sublist_append_right _ _)⟩
  rw [hring, hsplit, hhere]
  simp

/-- Blocks only get fuller while the producer acts. -/
theorem ProducerKeeps.count_le (k : ProducerKeeps g g') {ps qs : List ℕ} (hsub : ps.Sublist qs)
    (hps : ∀ p ∈ ps, p ∈ g.ring) : g.count ps ≤ g'.count qs := by
  have hgrow : g.count ps ≤ g'.count ps := by
    refine List.sum_le_sum ?_
    intro p hp
    rw [k.frontIndex p (hps p hp)]
    exact Nat.sub_le_sub_right (k.tail p (hps p hp)) _
  exact hgrow.trans ((hsub.map _).sum_le_sum (fun _ _ => Nat.zero_le _))

/-- What the consumer knows survives a step of the producer. -/
theorem consumer_stable :
    RelyGuarantee.Stable (Inv (T := T) capacity least) ConsumerKnows ProducerKeeps := by
  intro pc s g g' _ hknows k
  have hmem : g.front ∈ g.ring := List.mem_cons_self
  cases pc with
  | idle => exact ⟨k.taking.trans hknows.1, k.requested.trans hknows.2⟩
  | start op =>
    obtain ⟨htaking, e, hasked⟩ := hknows
    exact ⟨k.taking.trans htaking, e, k.asked hasked⟩
  | readTail op f blockFront =>
    obtain ⟨htaking, ⟨e, hasked⟩, hf, hbf⟩ := hknows
    refine ⟨k.taking.trans htaking, ⟨e, k.asked hasked⟩, hf.trans k.front.symm, ?_⟩
    rw [k.front, k.frontIndex _ hmem, k.size _ hmem]
    exact hbf
  | readTailBlock op f =>
    obtain ⟨htaking, ⟨e, hasked, halone⟩, hf⟩ := hknows
    refine ⟨k.taking.trans htaking, ⟨e, k.asked hasked, ?_⟩, hf.trans k.front.symm⟩
    intro hnil
    obtain ⟨more, hmore⟩ := k.ahead
    rw [hmore] at hnil
    exact halone (List.append_eq_nil_iff.mp hnil).1
  | rereadTail op =>
    obtain ⟨htaking, ⟨e, hasked⟩, n, hahead⟩ := hknows
    exact ⟨k.taking.trans htaking, ⟨e, k.asked hasked⟩, n, (k.aheadHead hahead).1⟩
  | readNext op f =>
    obtain ⟨htaking, ⟨e, hasked⟩, hf, ⟨n, hahead⟩, hdrained⟩ := hknows
    exact ⟨k.taking.trans htaking, ⟨e, k.asked hasked⟩, hf.trans k.front.symm,
      ⟨n, (k.aheadHead hahead).1⟩, k.drained ⟨n, hahead⟩ hdrained⟩
  | readNextTail op n nextBlockFront =>
    obtain ⟨htaking, ⟨e, hasked⟩, hahead, hdrained, hbf⟩ := hknows
    obtain ⟨hahead', hn⟩ := k.aheadHead hahead
    refine ⟨k.taking.trans htaking, ⟨e, k.asked hasked⟩, hahead',
      k.drained ⟨n, hahead⟩ hdrained, ?_⟩
    rw [k.frontIndex n hn, k.size n hn]
    exact hbf
  | advance op n nextBlockFront =>
    obtain ⟨htaking, ⟨e, hasked⟩, hahead, hdrained, hbf, hseen⟩ := hknows
    obtain ⟨hahead', hn⟩ := k.aheadHead hahead
    refine ⟨k.taking.trans htaking, ⟨e, k.asked hasked⟩, hahead',
      k.drained ⟨n, hahead⟩ hdrained, ?_, ?_⟩
    · rw [k.frontIndex n hn, k.size n hn]
      exact hbf
    · rw [k.frontIndex n hn, k.seenTail n hn]
      exact hseen
  | look p blockFront =>
    obtain ⟨htaking, ⟨e, hasked⟩, hp, hbf⟩ := hknows
    have hused : p ∈ g.ring := by
      rcases hp with ⟨rfl, _⟩ | ⟨hahead, _⟩
      · exact hmem
      · exact (k.aheadHead hahead).2
    refine ⟨k.taking.trans htaking, ⟨e, k.asked hasked⟩, ?_, ?_⟩
    · rcases hp with ⟨hf, hlt⟩ | ⟨hahead, hdrained⟩
      · refine Or.inl ⟨hf.trans k.front.symm, ?_⟩
        rw [k.frontIndex p hused]
        exact hlt.trans_le (k.tail p hused)
      · exact Or.inr ⟨(k.aheadHead hahead).1, k.drained ⟨p, hahead⟩ hdrained⟩
    · rw [k.frontIndex p hused, k.size p hused]
      exact hbf
  | take f blockFront =>
    obtain ⟨htaking, ⟨e, hasked⟩, hf, hbf, hseen⟩ := hknows
    refine ⟨k.taking.trans htaking, ⟨e, k.asked hasked⟩, hf.trans k.front.symm, ?_, ?_⟩
    · rw [k.front, k.frontIndex _ hmem, k.size _ hmem]
      exact hbf
    · rw [k.front, k.frontIndex _ hmem, k.seenTail _ hmem]
      exact hseen
  | bump x f blockFront =>
    obtain ⟨htaking, ⟨e, hrequest⟩, hf, hbf, hx, hlt⟩ := hknows
    refine ⟨?_, ⟨e, k.requested.trans hrequest⟩, hf.trans k.front.symm, ?_, ?_, ?_⟩
    all_goals rw [k.front]
    · exact k.taking.trans htaking
    · rw [k.frontIndex _ hmem, k.size _ hmem]
      exact hbf
    · obtain ⟨more, hmore⟩ := k.history g.front hmem
      rw [k.frontIndex _ hmem, hmore,
        List.getElem?_append_left (List.getElem?_eq_some_iff.mp hx).1]
      exact hx
    · rw [k.frontIndex _ hmem]
      exact hlt.trans_le (k.tail _ hmem)
  | measure f p result =>
    obtain ⟨htaking, atCall, seen, todo, n, hrequest, hf, hring, hresult, hlow, hhigh⟩ := hknows
    obtain ⟨seen', todo', hring', hseen, htodo⟩ := k.ring_split hring
    refine ⟨k.taking.trans htaking, atCall, seen', todo', n, k.requested.trans hrequest,
      hf.trans k.front.symm, hring', hresult, hlow.trans (k.count_le hseen ?_),
      hhigh.trans (Nat.add_le_add_left (k.count_le (htodo.cons_cons p) ?_) n)⟩
    · intro r hr
      rw [hring]
      exact List.mem_append_left _ hr
    · intro r hr
      rw [hring]
      exact List.mem_append_right _ hr
  | measureNext f p result =>
    obtain ⟨htaking, atCall, seen, todo, n, hrequest, hf, hring, hresult, hlow, hhigh⟩ := hknows
    obtain ⟨seen', todo', hring', hseen, htodo⟩ := k.ring_split hring
    refine ⟨k.taking.trans htaking, atCall, seen', todo', n, k.requested.trans hrequest,
      hf.trans k.front.symm, hring', hresult, hlow.trans (k.count_le (hseen.append_right [p]) ?_),
      hhigh.trans (Nat.add_le_add_left (k.count_le htodo ?_) n)⟩
    · intro r hr
      rw [hring, List.append_cons]
      exact List.mem_append_left _ hr
    · intro r hr
      rw [hring, List.append_cons]
      exact List.mem_append_right _ hr

end Stability

section Steps

variable {capacity least : ℕ} {g g' : Ghost T} {q : Queue T} {s : Shared T}

/-- Flags and the abstract queue are not in memory. -/
theorem Memory.flags (h : Memory q g) (writing entering taking : Option ℕ) (fifo : Fifo T) :
    Memory q { g with writing := writing, entering := entering, taking := taking, fifo := fifo } :=
  ⟨h.ring, h.fresh, h.nodup, h.front, h.tail, h.all, h.blocks⟩

theorem LaneFact.congr {p : ℕ} (h : LaneFact least g p) (hlane : g'.lane p = g.lane p)
    (hwriting : g'.writing = some p ↔ g.writing = some p)
    (hentering : g'.entering = some p ↔ g.entering = some p)
    (htaking : g'.taking = some p ↔ g.taking = some p)
    (hfree : p ∈ g'.free → p ∈ g.free) (hahead : p ∈ g'.ahead → p ∈ g.ahead)
    (hfull : p ∈ g'.ahead.dropLast → p ∈ g.ahead.dropLast) : LaneFact least g' p := by
  refine ⟨?_, ?_, ?_, ?_, ?_, ?_⟩
  · simp only [hlane, hwriting]
    exact h.built
  · simp only [hlane, htaking]
    exact h.taken
  · intro hp
    simp only [hlane, hentering]
    exact h.free (hfree hp)
  · intro hp
    rw [hlane]
    exact h.ahead (hahead hp)
  · intro hp
    rw [hlane]
    exact h.full (hfull hp)
  · rw [hlane]
    exact h.least

theorem Memory.next_last (h : Memory q g) : q.nextOf g.last = some (g.free.headD g.front) := by
  obtain ⟨before, hused⟩ := g.used_eq
  have hpath := h.ring
  rw [Ghost.ring, ← List.cons_append, hused, List.append_assoc, path_append] at hpath
  exact hpath.2.1

theorem Queue.nextOf_eq {p : ℕ} {b : Block T} (hb : q.blocks[p]? = some b) :
    q.nextOf p = b.next := by
  rw [Queue.nextOf, hb, Option.bind_some]

theorem Memory.ring_nodup (h : Memory q g) : g.ring.Nodup := (List.nodup_append.mp h.nodup).1

theorem Memory.used_nodup (h : Memory q g) : (g.front :: g.ahead).Nodup := by
  have hring := h.ring_nodup
  rw [Ghost.ring, ← List.cons_append] at hring
  exact (List.nodup_append.mp hring).1

theorem Memory.not_mem_used (h : Memory q g) {p : ℕ} (hp : p ∈ g.free) :
    p ∉ g.front :: g.ahead := by
  have hring := h.ring_nodup
  rw [Ghost.ring, ← List.cons_append] at hring
  intro hused
  exact (List.nodup_append.mp hring).2.2 p hused p hp rfl

theorem Memory.front_ne_last (h : Memory q g) {n : ℕ} {rest : List ℕ}
    (hahead : g.ahead = n :: rest) : g.last ≠ g.front := by
  have hmem : g.last ∈ g.ahead := by
    rw [Ghost.last, hahead, List.getLastD_cons]
    exact List.getLastD_mem_cons
  rintro heq
  rw [heq] at hmem
  exact (List.nodup_cons.mp h.used_nodup).1 hmem

/-- A change inside one block, with the flags and the abstract queue after it. -/
def Ghost.put (g : Ghost T) (p : ℕ) (l : Lane T) (writing entering taking : Option ℕ)
    (fifo : Fifo T) : Ghost T :=
  { g.setLane p l with writing := writing, entering := entering, taking := taking, fifo := fifo }

section Put

variable {p : ℕ} {l : Lane T} {writing entering taking : Option ℕ} {fifo : Fifo T}

@[simp] theorem Ghost.put_same : (g.put p l writing entering taking fifo).lane p = l :=
  g.setLane_same p l

theorem Ghost.put_of_ne {r : ℕ} (hr : r ≠ p) :
    (g.put p l writing entering taking fifo).lane r = g.lane r :=
  g.setLane_of_ne hr l

@[simp] theorem Ghost.put_last : (g.put p l writing entering taking fifo).last = g.last := rfl

theorem LaneFact.put
    (hbuilt : l.history.length = l.tail + if writing = some p then 1 else 0)
    (htaken : l.taken = l.front + if taking = some p then 1 else 0)
    (hfree : p ∈ g.free → l.tail = l.front + if entering = some p then 1 else 0)
    (hahead : p ∈ g.ahead → l.front < l.tail ∧ l.seenFront = l.front)
    (hfull : p ∈ g.ahead.dropLast → l.tail + 1 = l.front + l.size) (hleast : least ≤ l.size) :
    LaneFact least (g.put p l writing entering taking fifo) p := by
  refine ⟨?_, ?_, ?_, ?_, ?_, ?_⟩
  all_goals rw [Ghost.put_same]
  · exact hbuilt
  · exact htaken
  · exact hfree
  · exact hahead
  · exact hfull
  · exact hleast

theorem Facts.put (h : Facts capacity least g)
    (hp : LaneFact least (g.put p l writing entering taking fifo) p)
    (hwriting : ∀ r, r ≠ p → (writing = some r ↔ g.writing = some r))
    (hentering : ∀ r, r ≠ p → (entering = some r ↔ g.entering = some r))
    (htaking : ∀ r, r ≠ p → (taking = some r ↔ g.taking = some r))
    (hfree : entering = some p → p ∈ g.free) (hfront : taking = some p → p = g.front)
    (hoffering : entering ≠ none → fifo.offered ≠ none)
    (hitems : fifo.items = (g.setLane p l).items) :
    Facts capacity least (g.put p l writing entering taking fifo) := by
  refine ⟨?_, ?_, ?_, hoffering, h.room, hitems⟩
  · intro r hr
    by_cases hrp : r = p
    · subst hrp
      exact hp
    · exact (h.lanes r hr).congr (g.setLane_of_ne hrp l) (hwriting r hrp) (hentering r hrp)
        (htaking r hrp) id id id
  · intro r hr
    by_cases hrp : r = p
    · subst hrp
      exact hfree hr
    · exact h.entering r ((hentering r hrp).mp hr)
  · intro r hr
    by_cases hrp : r = p
    · subst hrp
      exact hfront hr
    · exact h.taking r ((htaking r hrp).mp hr)

/-- A step that writes inside one block. -/
theorem Inv.put (h : Inv capacity least s g) {b b' : Block T} {events : List (Event T)}
    (hb : s.queue.blocks[p]? = some b) (hrep : Represents b' l) (hnext : b'.next = b.next)
    (hfacts : Facts capacity least (g.put p l writing entering taking fifo))
    (hlog : History capacity (s.log ++ events) fifo) :
    Inv capacity least { queue := s.queue.store p b', log := s.log ++ events }
      (g.put p l writing entering taking fifo) :=
  ⟨(h.memory.store hb hrep hnext).flags writing entering taking fifo, hfacts, hlog, h.two_le,
    h.largest, h.power⟩

end Put

/-- A step that writes nothing. -/
theorem Inv.silent (h : Inv capacity least s g) :
    Inv capacity least { queue := s.queue, log := s.log ++ [] } g := by
  rw [List.append_nil]
  exact h

theorem Inv.history (h : Inv capacity least s g) : History capacity (s.log ++ []) g.fifo := by
  rw [List.append_nil]
  exact h.log

theorem flag_set {p r : ℕ} {flag : Option ℕ} (hr : r ≠ p) (hnone : flag = none) :
    some p = some r ↔ flag = some r := by
  simp [hnone, hr.symm]

theorem flag_clear {p r : ℕ} {flag : Option ℕ} (hr : r ≠ p) (hsome : flag = some p) :
    none = some r ↔ flag = some r := by
  simp [hsome, hr.symm]

end Steps

end EsSensor.ReaderWriterQueue
