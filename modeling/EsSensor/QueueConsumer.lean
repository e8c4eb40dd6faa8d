import EsSensor.QueueInvariant

/-!
Every step of the consumer goes through from what it knows, keeps the invariant,
and leaves to the producer what it promises.
-/
namespace EsSensor.ReaderWriterQueue

open AtomicFifo LinkedRing MachineWord

variable {T : Type} {capacity least : ℕ} {g g' : Ghost T} {q : Queue T} {s : Shared T}

/-- The consumer's next step goes through, and all that it must leave is there. -/
def ConsumerGoes (capacity least : ℕ) (pc : Dequeue T) (s : Shared T) (g : Ghost T) : Prop :=
  ∃ pc' q' events g', consumerStep pc s.queue = some (pc', q', events) ∧
    Inv capacity least { queue := q', log := s.log ++ events } g' ∧
    ConsumerKnows g' pc' ∧ ConsumerKeeps g g'

/-- Of a block in use the consumer may see more of the tail, and move its front. -/
theorem ConsumerKeeps.put {p : ℕ} {l : Lane T} {taking : Option ℕ} {fifo : Fifo T}
    (hmemory : Memory q g) (hp : p ∈ g.front :: g.ahead) (hsize : l.size = (g.lane p).size)
    (hhistory : l.history = (g.lane p).history) (hseen : l.seenFront = (g.lane p).seenFront)
    (htail : l.tail = (g.lane p).tail) (hoffered : fifo.offered = g.fifo.offered)
    (hitems : fifo.items.length ≤ g.fifo.items.length) :
    ConsumerKeeps g (g.put p l g.writing g.entering taking fifo) := by
  have hcases : ∀ r, r = p ∧ (g.put p l g.writing g.entering taking fifo).lane r = l ∨
      (g.put p l g.writing g.entering taking fifo).lane r = g.lane r := by
    intro r
    by_cases hr : r = p
    · subst hr
      exact Or.inl ⟨rfl, Ghost.put_same⟩
    · exact Or.inr (Ghost.put_of_ne hr)
  refine ⟨rfl, rfl, ⟨[], (List.append_nil _).symm⟩, rfl, rfl, rfl, hoffered, hitems, ?_, ?_, ?_, ?_,
    ?_⟩
  · intro r
    rcases hcases r with ⟨rfl, hr⟩ | hr <;> simp only [hr, hsize]
  · intro r
    rcases hcases r with ⟨rfl, hr⟩ | hr <;> simp only [hr, hhistory]
  · intro r
    rcases hcases r with ⟨rfl, hr⟩ | hr <;> simp only [hr, hseen]
  · intro r
    rcases hcases r with ⟨rfl, hr⟩ | hr <;> simp only [hr, htail]
  · intro r hr
    have hnodup := hmemory.nodup
    rw [Ghost.ring, ← List.cons_append, List.append_assoc, List.nodup_append] at hnodup
    exact Ghost.put_of_ne (hnodup.2.2 p hp r hr).symm

section Steps

variable {op : Removal} {f n blockFront : ℕ} {x : T} {atCall : ℕ}

theorem Memory.front_block (h : Memory q g) :
    ∃ b, q.blocks[g.front]? = some b ∧ Represents b (g.lane g.front) :=
  h.block List.mem_cons_self

theorem Lane.Ordered.front_le_tail {l : Lane T} (h : l.Ordered) :
    l.front ≤ l.tail ∧ l.tail < l.front + l.size := by
  have := h.front_le
  have := h.taken_le
  have := h.seenTail_le
  have := h.tail_le
  have := h.history_lt
  have := h.seenFront_le
  omega

/-- The consumer sees something in a block exactly where there is something. -/
theorem Represents.front_ne_tail {b : Block T} {l : Lane T} (h : Represents b l) :
    b.front ≠ b.tail ↔ l.front < l.tail := by
  obtain ⟨hle, hlt⟩ := h.ordered.front_le_tail
  rw [h.front, h.tail, Ne, index_eq_iff hle hlt]
  omega

theorem found_knows (htaking : g.taking = none) (hasked : g.Asked atCall)
    (hordered : (g.lane g.front).Ordered)
    (hseen : (g.lane g.front).front < (g.lane g.front).seenTail) (op : Removal) :
    ConsumerKnows g (nonEmptyFrontBlock op g.front
      ((g.lane g.front).front % (g.lane g.front).size)) := by
  have htake : ConsumerKnows g (.take g.front
      ((g.lane g.front).front % (g.lane g.front).size)) :=
    ⟨htaking, ⟨atCall, hasked⟩, rfl, rfl, hseen⟩
  cases op with
  | tryDequeue => exact htake
  | pop => exact htake
  | peek =>
    exact ⟨htaking, ⟨atCall, hasked⟩, Or.inl ⟨rfl, hseen.trans_le hordered.seenTail_le⟩, rfl⟩

theorem request_goes (h : Inv capacity least s g) (hk : ConsumerKnows g (.start op)) :
    ConsumerGoes capacity least (.start op) s g := by
  obtain ⟨htaking, atCall, hasked⟩ := hk
  obtain ⟨b, hb, hrep⟩ := h.memory.front_block
  have ho := hrep.ordered
  have hle : (g.lane g.front).front ≤ (g.lane g.front).seenTail := ho.front_le.trans ho.taken_le
  have hlt : (g.lane g.front).seenTail < (g.lane g.front).front + (g.lane g.front).size :=
    ho.seenTail_le.trans_lt ho.front_le_tail.2
  have hne : b.front ≠ b.localTail ↔ (g.lane g.front).front < (g.lane g.front).seenTail := by
    rw [hrep.front, hrep.localTail, Ne, index_eq_iff hle hlt]
    omega
  by_cases hempty : b.front = b.localTail
  · refine ⟨.readTail op g.front b.front, s.queue, [], g, ?_, h.silent,
      ⟨htaking, ⟨atCall, hasked⟩, rfl, hrep.front⟩, ConsumerKeeps.refl g⟩
    simp [consumerStep, h.memory.front, hb, hempty]
  · refine ⟨nonEmptyFrontBlock op g.front b.front, s.queue, [], g, ?_, h.silent, ?_,
      ConsumerKeeps.refl g⟩
    · simp [consumerStep, h.memory.front, hb, hempty]
    · rw [hrep.front]
      exact found_knows htaking hasked ho (hne.mp hempty) op

/-- The consumer reads the tail of a block in use. -/
theorem Inv.see_tail (h : Inv capacity least s g) {p : ℕ} (hp : p ∈ g.front :: g.ahead)
    {b : Block T} (hb : s.queue.blocks[p]? = some b) (hrep : Represents b (g.lane p)) :
    Inv capacity least
        { queue := s.queue.store p { b with localTail := b.tail }, log := s.log ++ [] }
        (g.put p { g.lane p with seenTail := (g.lane p).tail }
          g.writing g.entering g.taking g.fifo) ∧
      ConsumerKeeps g (g.put p { g.lane p with seenTail := (g.lane p).tail }
        g.writing g.entering g.taking g.fifo) := by
  have hring : p ∈ g.ring := by
    rw [Ghost.ring, ← List.cons_append]
    exact List.mem_append_left _ hp
  have hlane := h.facts.lanes p hring
  have hlive : Lane.live { g.lane p with seenTail := (g.lane p).tail } = (g.lane p).live := rfl
  refine ⟨h.put hb hrep.see_tail rfl ?_ h.history,
    ConsumerKeeps.put h.memory hp rfl rfl rfl rfl rfl (Nat.le_refl _)⟩
  refine h.facts.put ?_ (fun _ _ => Iff.rfl) (fun _ _ => Iff.rfl) (fun _ _ => Iff.rfl)
    (h.facts.entering p) (h.facts.taking p) h.facts.offering
    (h.facts.items.trans (Ghost.items_setLane hlive).symm)
  exact LaneFact.put hlane.built hlane.taken hlane.free hlane.ahead hlane.full hlane.least

theorem Facts.empty (h : Facts capacity least g) (hahead : g.ahead = []) (hdrained : g.Drained) :
    g.fifo.items = [] := by
  rw [h.items, Ghost.items, hahead, List.flatMap_singleton, Lane.live_eq_nil hdrained]

/-- The front block as the consumer knows it after it has read the tail. -/
def Ghost.seeTail (g : Ghost T) (p : ℕ) : Ghost T :=
  g.put p { g.lane p with seenTail := (g.lane p).tail } g.writing g.entering g.taking g.fifo

theorem seen_knows (htaking : g.taking = none) (hasked : g.Asked atCall) {b : Block T}
    (hrep : Represents b (g.lane g.front)) (hne : b.front ≠ b.tail) (op : Removal) :
    ConsumerKnows (g.seeTail g.front) (nonEmptyFrontBlock op g.front b.front) := by
  have hsame : (g.seeTail g.front).lane g.front =
    { g.lane g.front with seenTail := (g.lane g.front).tail } := Ghost.put_same
  have hordered : ((g.seeTail g.front).lane g.front).Ordered := by
    rw [hsame]
    exact hrep.see_tail.ordered
  have hseen : ((g.seeTail g.front).lane g.front).front <
      ((g.seeTail g.front).lane g.front).seenTail := by
    rw [hsame]
    exact hrep.front_ne_tail.mp hne
  have hknows := found_knows (g := g.seeTail g.front) htaking hasked hordered hseen op
  change ConsumerKnows _ (nonEmptyFrontBlock op g.front (((g.seeTail g.front).lane g.front).front %
    ((g.seeTail g.front).lane g.front).size)) at hknows
  rw [hsame] at hknows
  rw [hrep.front]
  exact hknows

theorem Represents.drained {b : Block T} (hrep : Represents b (g.lane g.front))
    (hempty : b.front = b.tail) : g.Drained := by
  have hnot := mt hrep.front_ne_tail.mpr (not_not.mpr hempty)
  exact Nat.le_antisymm hrep.ordered.front_le_tail.1 (Nat.le_of_not_lt hnot)

theorem readTail_goes (h : Inv capacity least s g)
    (hk : ConsumerKnows g (.readTail op f blockFront)) :
    ConsumerGoes capacity least (.readTail op f blockFront) s g := by
  obtain ⟨htaking, ⟨atCall, hasked⟩, rfl, rfl⟩ := hk
  obtain ⟨b, hb, hrep⟩ := h.memory.front_block
  obtain ⟨hinv, hkeeps⟩ := h.see_tail List.mem_cons_self hb hrep
  rw [← hrep.front]
  by_cases hempty : b.front = b.tail
  · refine ⟨.readTailBlock op g.front, _, [], g.seeTail g.front, ?_, hinv,
      ⟨htaking, ⟨atCall, hasked, ?_⟩, rfl⟩, hkeeps⟩
    · simp [consumerStep, hb, hempty]
    · intro hahead
      exact hasked.2 (h.facts.empty hahead (hrep.drained hempty))
  · refine ⟨nonEmptyFrontBlock op g.front b.front, _, [], g.seeTail g.front, ?_, hinv,
      seen_knows htaking hasked hrep hempty op, hkeeps⟩
    simp [consumerStep, hb, hempty]

theorem Facts.answer (h : Facts capacity least g) :
    Facts capacity least { g with fifo := { g.fifo with requested := none } } :=
  ⟨fun p hp => (h.lanes p hp).congr rfl Iff.rfl Iff.rfl Iff.rfl id id id, h.entering, h.taking,
    h.offering, h.room, h.items⟩

theorem ConsumerKeeps.answer (g : Ghost T) :
    ConsumerKeeps g { g with fifo := { g.fifo with requested := none } } :=
  ⟨rfl, rfl, ⟨[], (List.append_nil _).symm⟩, rfl, rfl, rfl, rfl, Nat.le_refl _, fun _ => rfl,
    fun _ => rfl, fun _ => rfl, fun _ => rfl, fun _ _ => rfl⟩

theorem readTailBlock_goes (h : Inv capacity least s g)
    (hk : ConsumerKnows g (.readTailBlock op f)) :
    ConsumerGoes capacity least (.readTailBlock op f) s g := by
  obtain ⟨htaking, ⟨atCall, hasked, halone⟩, rfl⟩ := hk
  cases hahead : g.ahead with
  | nil =>
    have hlast : s.queue.tailBlock = g.front := by
      rw [h.memory.tail, Ghost.last, hahead, List.getLastD_nil]
    have hempty : g.fifo.requested = some 0 := by
      rw [hasked.1, halone hahead]
    refine ⟨.idle, s.queue, [.empty], { g with fifo := { g.fifo with requested := none } }, ?_,
      ⟨h.memory.flags _ _ _ _, h.facts.answer, h.log.snoc (Next.empty g.fifo hempty), h.two_le,
        h.largest, h.power⟩, ⟨htaking, rfl⟩, ConsumerKeeps.answer g⟩
    simp [consumerStep, hlast]
  | cons n rest =>
    have hlast : g.front ≠ s.queue.tailBlock := by
      rw [h.memory.tail]
      exact (h.memory.front_ne_last hahead).symm
    refine ⟨.rereadTail op, s.queue, [], g, ?_, h.silent,
      ⟨htaking, ⟨atCall, hasked⟩, n, rest, hahead⟩, ConsumerKeeps.refl g⟩
    simp [consumerStep, hlast]

theorem rereadTail_goes (h : Inv capacity least s g) (hk : ConsumerKnows g (.rereadTail op)) :
    ConsumerGoes capacity least (.rereadTail op) s g := by
  obtain ⟨htaking, ⟨atCall, hasked⟩, hahead⟩ := hk
  obtain ⟨b, hb, hrep⟩ := h.memory.front_block
  obtain ⟨hinv, hkeeps⟩ := h.see_tail List.mem_cons_self hb hrep
  by_cases hempty : b.front = b.tail
  · refine ⟨.readNext op g.front, _, [], g.seeTail g.front, ?_, hinv,
      ⟨htaking, ⟨atCall, hasked⟩, rfl, hahead, ?_⟩, hkeeps⟩
    · simp [consumerStep, h.memory.front, hb, hempty]
    · have hsame : (g.seeTail g.front).lane (g.seeTail g.front).front =
        { g.lane g.front with seenTail := (g.lane g.front).tail } := Ghost.put_same
      rw [Ghost.Drained, hsame]
      exact hrep.drained hempty
  · refine ⟨nonEmptyFrontBlock op g.front b.front, _, [], g.seeTail g.front, ?_, hinv,
      seen_knows htaking hasked hrep hempty op, hkeeps⟩
    simp [consumerStep, h.memory.front, hb, hempty]

theorem readNext_goes (h : Inv capacity least s g) (hk : ConsumerKnows g (.readNext op f)) :
    ConsumerGoes capacity least (.readNext op f) s g := by
  obtain ⟨htaking, ⟨atCall, hasked⟩, rfl, ⟨n, rest, hahead⟩, hdrained⟩ := hk
  obtain ⟨b, hb, hrep⟩ := h.memory.front_block
  have hmem : n ∈ g.ring := by
    rw [Ghost.ring, hahead]
    exact List.mem_cons_of_mem _ List.mem_cons_self
  obtain ⟨c, hc, hrepc⟩ := h.memory.block hmem
  have hnext : b.next = some n := by
    have hpath := h.memory.ring
    rw [Ghost.ring, hahead, List.cons_append] at hpath
    rw [← Queue.nextOf_eq hb]
    exact hpath.1
  refine ⟨.readNextTail op n c.front, s.queue, [], g, ?_, h.silent,
    ⟨htaking, ⟨atCall, hasked⟩, ⟨rest, hahead⟩, hdrained, hrepc.front⟩, ConsumerKeeps.refl g⟩
  simp [consumerStep, hb, hnext, hc]

theorem readNextTail_goes (h : Inv capacity least s g)
    (hk : ConsumerKnows g (.readNextTail op n blockFront)) :
    ConsumerGoes capacity least (.readNextTail op n blockFront) s g := by
  obtain ⟨htaking, ⟨atCall, hasked⟩, ⟨rest, hahead⟩, hdrained, rfl⟩ := hk
  have hmem : n ∈ g.ahead := by
    rw [hahead]
    exact List.mem_cons_self
  have hused : n ∈ g.front :: g.ahead := List.mem_cons_of_mem _ hmem
  have hring : n ∈ g.ring := List.mem_cons_of_mem _ (List.mem_append_left _ hmem)
  obtain ⟨c, hc, hrep⟩ := h.memory.block hring
  have hlt := ((h.facts.lanes n hring).ahead hmem).1
  have hne : (g.lane n).front % (g.lane n).size ≠ c.tail := by
    rw [← hrep.front]
    exact hrep.front_ne_tail.mpr hlt
  have hfront : g.front ≠ n := by
    rintro heq
    rw [← heq] at hmem
    exact (List.nodup_cons.mp h.memory.used_nodup).1 hmem
  obtain ⟨hinv, hkeeps⟩ := h.see_tail hused hc hrep
  have hadvance : ConsumerKnows (g.seeTail n)
      (.advance op n ((g.lane n).front % (g.lane n).size)) := by
    have hsame : (g.seeTail n).lane n = { g.lane n with seenTail := (g.lane n).tail } :=
      Ghost.put_same
    have hother : (g.seeTail n).lane (g.seeTail n).front = g.lane g.front := Ghost.put_of_ne hfront
    refine ⟨htaking, ⟨atCall, hasked⟩, ⟨rest, hahead⟩, ?_, ?_⟩
    · rw [Ghost.Drained, hother]
      exact hdrained
    · rw [hsame]
      exact ⟨rfl, hlt⟩
  cases op with
  | peek =>
    refine ⟨.look n ((g.lane n).front % (g.lane n).size), s.queue, [], g, ?_, h.silent,
      ⟨htaking, ⟨atCall, hasked⟩, Or.inr ⟨⟨rest, hahead⟩, hdrained⟩, rfl⟩, ConsumerKeeps.refl g⟩
    simp [consumerStep, hc, hne]
  | tryDequeue =>
    refine ⟨_, _, [], g.seeTail n, ?_, hinv, hadvance, hkeeps⟩
    simp [consumerStep, hc, hne]
  | pop =>
    refine ⟨_, _, [], g.seeTail n, ?_, hinv, hadvance, hkeeps⟩
    simp [consumerStep, hc, hne]

theorem next_goes (h : Inv capacity least s g) (hk : ConsumerKnows g (.advance op n blockFront)) :
    ConsumerGoes capacity least (.advance op n blockFront) s g := by
  obtain ⟨htaking, ⟨atCall, hasked⟩, ⟨rest, hahead⟩, hdrained, rfl, hseen⟩ := hk
  have hnodup := h.memory.ring_nodup
  have hringEq : g.ring = g.front :: n :: (rest ++ g.free) := by
    rw [Ghost.ring, hahead, List.cons_append]
  let g' : Ghost T := { g with front := n, ahead := rest, free := g.free ++ [g.front] }
  have hperm : g'.ring.Perm g.ring := by
    have hring' : g'.ring = n :: (rest ++ g.free) ++ [g.front] := by
      simp [g', Ghost.ring]
    rw [hring', hringEq]
    exact List.perm_append_singleton _ _
  have hfacts : Facts capacity least g' := by
    refine ⟨?_, ?_, ?_, ?_, ?_, ?_⟩
    · intro p hp
      have hpring := hperm.mem_iff.mp hp
      have hfact := h.facts.lanes p hpring
      refine ⟨hfact.built, hfact.taken, ?_, ?_, ?_, hfact.least⟩
      · intro hfree
        rcases List.mem_append.mp hfree with hold | hnew
        · exact hfact.free hold
        · obtain rfl := List.mem_singleton.mp hnew
          have hnot : g.entering ≠ some g.front := by
            intro henter
            exact h.memory.not_mem_used (h.facts.entering _ henter) List.mem_cons_self
          change (g.lane g.front).tail = (g.lane g.front).front + if g.entering = _ then 1 else 0
          rw [if_neg hnot, Nat.add_zero]
          exact hdrained.symm
      · intro hrest
        exact hfact.ahead (by rw [hahead]; exact List.mem_cons_of_mem n hrest)
      · intro hdrop
        refine hfact.full ?_
        change p ∈ rest.dropLast at hdrop
        rw [hahead]
        cases rest with
        | nil => simp at hdrop
        | cons m more =>
          rw [List.dropLast_cons_cons]
          exact List.mem_cons_of_mem n hdrop
    · intro p hp
      exact List.mem_append_left _ (h.facts.entering p hp)
    · intro p hp
      change g.taking = some p at hp
      rw [htaking] at hp
      exact absurd hp (by simp)
    · exact h.facts.offering
    · rw [hperm.length_eq]
      exact h.facts.room
    · have hfront' : g'.front = n := rfl
      have hrest' : g'.ahead = rest := rfl
      have hlane' : g'.lane = g.lane := rfl
      rw [Ghost.items_rotate hahead (Lane.live_eq_nil hdrained) hfront' hrest' hlane']
      exact h.facts.items
  have hkeeps : ConsumerKeeps g g' := by
    refine ⟨?_, hperm.length_eq, ⟨[g.front], rfl⟩, rfl, rfl, rfl, rfl, Nat.le_refl _, fun _ => rfl,
      fun _ => rfl, fun _ => rfl, fun _ => rfl, fun _ _ => rfl⟩
    simp only [g', Ghost.last, hahead, List.getLastD_cons]
  exact ⟨.take n _, _, [], g', rfl,
    ⟨h.memory.rotate hahead, hfacts, h.history, h.two_le, h.largest, h.power⟩,
    ⟨htaking, ⟨atCall, hasked⟩, rfl, rfl, hseen⟩, hkeeps⟩

theorem LaneFact.taken_of_none {p : ℕ} (h : LaneFact least g p) (htaking : g.taking = none) :
    (g.lane p).taken = (g.lane p).front := by
  have htaken := h.taken
  rwa [htaking, if_neg (by simp), Nat.add_zero] at htaken

/-- Below the tail every place of the history is there. -/
theorem Lane.Ordered.exists_front {l : Lane T} (h : l.Ordered) (hlt : l.front < l.tail) :
    ∃ x, l.history[l.front]? = some x := by
  exact ⟨_, List.getElem?_eq_getElem (hlt.trans_le h.tail_le)⟩

/-- The first element of the queue is at the front of the front block, or of the
next one when that is empty. -/
theorem Facts.items_head (h : Facts capacity least g) {p : ℕ}
    (hp : p = g.front ∨ (∃ rest, g.ahead = p :: rest) ∧ g.Drained)
    (hlt : (g.lane p).front < (g.lane p).tail)
    (hx : (g.lane p).history[(g.lane p).front]? = some x) :
    ∃ rest, g.fifo.items = x :: rest := by
  have hlive := Lane.live_eq_cons hx hlt
  rw [h.items, Ghost.items, List.flatMap_cons]
  rcases hp with rfl | ⟨⟨rest, hahead⟩, hdrained⟩
  · rw [hlive]
    exact ⟨_, rfl⟩
  · rw [Lane.live_eq_nil hdrained, List.nil_append, hahead, List.flatMap_cons, hlive]
    exact ⟨_, rfl⟩

theorem look_goes (h : Inv capacity least s g) (hk : ConsumerKnows g (.look f blockFront)) :
    ConsumerGoes capacity least (.look f blockFront) s g := by
  obtain ⟨htaking, ⟨atCall, hasked⟩, hf, rfl⟩ := hk
  have hused : f ∈ g.ring ∧ (g.lane f).front < (g.lane f).tail := by
    rcases hf with ⟨rfl, hlt⟩ | ⟨⟨rest, hahead⟩, _⟩
    · exact ⟨List.mem_cons_self, hlt⟩
    · have hmem : f ∈ g.ahead := by
        rw [hahead]
        exact List.mem_cons_self
      have hring : f ∈ g.ring := List.mem_cons_of_mem _ (List.mem_append_left _ hmem)
      exact ⟨hring, ((h.facts.lanes f hring).ahead hmem).1⟩
  obtain ⟨hring, hlt⟩ := hused
  obtain ⟨b, hb, hrep⟩ := h.memory.block hring
  obtain ⟨x, hx⟩ := hrep.ordered.exists_front hlt
  have htaken := (h.facts.lanes f hring).taken_of_none htaking
  obtain ⟨rest, hitems⟩ := h.facts.items_head (hf.imp And.left id) hlt hx
  refine ⟨.idle, s.queue, [.seen x], { g with fifo := { g.fifo with requested := none } }, ?_,
    ⟨h.memory.flags _ _ _ _, h.facts.answer,
      h.log.snoc (Next.seen g.fifo x rest atCall hasked.1 hitems), h.two_le, h.largest, h.power⟩,
    ⟨htaking, rfl⟩, ConsumerKeeps.answer g⟩
  simp [consumerStep, hb, hrep.look htaken hx]

theorem take_goes (h : Inv capacity least s g) (hk : ConsumerKnows g (.take f blockFront)) :
    ConsumerGoes capacity least (.take f blockFront) s g := by
  obtain ⟨htaking, ⟨atCall, hasked⟩, rfl, rfl, hseen⟩ := hk
  obtain ⟨b, hb, hrep⟩ := h.memory.front_block
  have hlt := hseen.trans_le hrep.ordered.seenTail_le
  obtain ⟨x, hx⟩ := hrep.ordered.exists_front hlt
  have hlane := h.facts.lanes g.front List.mem_cons_self
  have htaken := hlane.taken_of_none htaking
  obtain ⟨data, hdata, hrep'⟩ := hrep.destroy htaken hseen hx
  let l : Lane T := { g.lane g.front with taken := (g.lane g.front).taken + 1 }
  let g' : Ghost T := g.put g.front l g.writing g.entering (some g.front) g.fifo
  have hsame : g'.lane g'.front = l := Ghost.put_same
  have hlive : l.live = (g.lane g.front).live := rfl
  have hfacts : Facts capacity least g' := by
    refine h.facts.put ?_ (fun _ _ => Iff.rfl) (fun _ _ => Iff.rfl)
      (fun _ hr => flag_set hr htaking) (h.facts.entering g.front) (fun _ => rfl)
      h.facts.offering
      (h.facts.items.trans (Ghost.items_setLane hlive).symm)
    refine LaneFact.put hlane.built ?_ hlane.free hlane.ahead hlane.full hlane.least
    rw [if_pos rfl]
    exact congrArg Nat.succ htaken
  have hkeeps : ConsumerKeeps g g' :=
    ConsumerKeeps.put h.memory List.mem_cons_self rfl rfl rfl rfl rfl (Nat.le_refl _)
  refine ⟨.bump x g.front (((g.lane g.front).front + 1) % (g.lane g.front).size), _, [], g', ?_,
    h.put hb hrep' rfl hfacts h.history, ⟨rfl, ⟨atCall, hasked.1⟩, rfl, ?_⟩, hkeeps⟩
  · simp [consumerStep, hb, hdata, hrep.next_index]
  · rw [hsame]
    exact ⟨rfl, hx, hlt⟩

theorem bump_goes (h : Inv capacity least s g) (hk : ConsumerKnows g (.bump x f blockFront)) :
    ConsumerGoes capacity least (.bump x f blockFront) s g := by
  obtain ⟨htaking, ⟨atCall, hrequest⟩, rfl, rfl, hx, hlt⟩ := hk
  obtain ⟨b, hb, hrep⟩ := h.memory.front_block
  have hlane := h.facts.lanes g.front List.mem_cons_self
  have htaken := hlane.taken
  rw [if_pos htaking] at htaken
  have hnotfree : g.front ∉ g.free := fun hp => h.memory.not_mem_used hp List.mem_cons_self
  have hnotahead : g.front ∉ g.ahead := (List.nodup_cons.mp h.memory.used_nodup).1
  let l : Lane T := { g.lane g.front with front := (g.lane g.front).front + 1 }
  have hlive : (g.lane g.front).live = x :: l.live := Lane.live_eq_cons hx hlt
  have hitems := h.facts.items.trans (Ghost.items_bump h.memory.used_nodup hlive)
  let fifo : Fifo T := { g.fifo with items := (g.setLane g.front l).items, requested := none }
  let g' : Ghost T := g.put g.front l g.writing g.entering none fifo
  have hfacts : Facts capacity least g' := by
    refine h.facts.put ?_ (fun _ _ => Iff.rfl) (fun _ _ => Iff.rfl)
      (fun _ hr => flag_clear hr htaking) (h.facts.entering g.front) (fun hp => by simp at hp)
      h.facts.offering rfl
    refine LaneFact.put hlane.built ?_ (fun hp => absurd hp hnotfree)
      (fun hp => absurd hp hnotahead) (fun hp => absurd (List.mem_of_mem_dropLast hp) hnotahead)
      hlane.least
    rw [if_neg (by simp), Nat.add_zero]
    exact htaken
  have hkeeps : ConsumerKeeps g g' := by
    refine ConsumerKeeps.put h.memory List.mem_cons_self rfl rfl rfl rfl rfl ?_
    rw [hitems, List.length_cons]
    exact Nat.le_succ _
  refine ⟨.idle, _, [.taken x], g', ?_, h.put hb (hrep.bump (by omega)) rfl hfacts
    (h.log.snoc (Next.taken g.fifo x _ atCall hrequest hitems)), ⟨rfl, rfl⟩, hkeeps⟩
  simp [consumerStep, hb]

theorem Ghost.count_cons (g : Ghost T) (p : ℕ) (ps : List ℕ) :
    g.count (p :: ps) = (g.lane p).tail - (g.lane p).front + g.count ps := by
  rw [Ghost.count, List.map_cons, List.sum_cons, Ghost.count]

theorem Ghost.count_append (g : Ghost T) (ps qs : List ℕ) :
    g.count (ps ++ qs) = g.count ps + g.count qs := by
  rw [Ghost.count, List.map_append, List.sum_append, Ghost.count, Ghost.count]

/-- The blocks in use hold the elements of the queue. -/
theorem Facts.count_used (h : Facts capacity least g) (hmemory : Memory q g) :
    g.count (g.front :: g.ahead) = g.fifo.items.length := by
  rw [h.items, Ghost.items, List.length_flatMap, Ghost.count]
  congr 1
  refine List.map_congr_left ?_
  intro p hp
  have hring : p ∈ g.ring ++ g.fresh := by
    rw [Ghost.ring, ← List.cons_append, List.append_assoc]
    exact List.mem_append_left _ hp
  rw [Lane.live_length _ (hmemory.ordered hring)]

theorem Facts.length_le (h : Facts capacity least g) (hmemory : Memory q g) :
    g.fifo.items.length ≤ g.count (g.front :: (g.ahead ++ g.free)) := by
  rw [← List.cons_append, Ghost.count_append, h.count_used hmemory]
  exact Nat.le_add_right _ _

theorem sum_flag_le {ps : List ℕ} (hps : ps.Nodup) (flag : Option ℕ) :
    (ps.map (fun p => if flag = some p then 1 else 0)).sum ≤ 1 := by
  induction ps with
  | nil => exact Nat.zero_le 1
  | cons p ps ih =>
    obtain ⟨hp, hnodup⟩ := List.nodup_cons.mp hps
    rw [List.map_cons, List.sum_cons]
    by_cases hflag : flag = some p
    · have hzero : (ps.map (fun r => if flag = some r then 1 else 0)).sum = 0 := by
        refine List.sum_eq_zero ?_
        intro n hn
        obtain ⟨r, hr, rfl⟩ := List.mem_map.mp hn
        rw [hflag, if_neg]
        intro heq
        obtain rfl := Option.some.inj heq
        exact hp hr
      rw [if_pos hflag, hzero]
    · rw [if_neg hflag, Nat.zero_add]
      exact ih hnodup

/-- Beside the elements of the queue there may be one that is not entered yet. -/
theorem Facts.count_ring (h : Facts capacity least g) (hmemory : Memory q g) :
    g.count g.ring ≤ g.fifo.items.length + if g.fifo.offered.isSome then 1 else 0 := by
  rw [Ghost.ring, ← List.cons_append, Ghost.count_append, h.count_used hmemory]
  refine Nat.add_le_add_left ?_ _
  have hnodup : g.free.Nodup := by
    have hring := hmemory.ring_nodup
    rw [Ghost.ring, ← List.cons_append] at hring
    exact (List.nodup_append.mp hring).2.1
  have hsum : g.count g.free =
      (g.free.map (fun p => if g.entering = some p then 1 else 0)).sum := by
    rw [Ghost.count]
    congr 1
    refine List.map_congr_left ?_
    intro p hp
    have hring : p ∈ g.ring := List.mem_cons_of_mem _ (List.mem_append_right _ hp)
    rw [(h.lanes p hring).free hp, Nat.add_sub_cancel_left]
  rw [hsum]
  by_cases hentering : g.entering = none
  · simp [hentering]
  · rw [if_pos (Option.isSome_iff_ne_none.mpr (h.offering hentering))]
    exact sum_flag_le hnodup g.entering

/-- The elements of a block, from its indices in words. -/
theorem Represents.size_approx {b : Block T} {l : Lane T} (h : Represents b l) :
    u64Sub b.tail b.front &&& b.sizeMask = l.tail - l.front := by
  obtain ⟨k, hk, hsize⟩ := h.power
  obtain ⟨hle, hlt⟩ := h.ordered.front_le_tail
  have hpos : 0 < l.size := by omega
  have hdvd : l.size ∣ 2 ^ 64 := by
    rw [hsize]
    exact Nat.pow_dvd_pow 2 (by omega)
  have hword : l.size ≤ 2 ^ 63 := by
    rw [hsize]
    exact Nat.pow_le_pow_right (by omega) hk
  have hfront : l.front % l.size < 2 ^ 64 := (Nat.mod_lt _ hpos).trans (by omega)
  have hcancel : l.tail % l.size + (2 ^ 64 - l.front % l.size) ≡ l.tail - l.front [MOD l.size] := by
    refine Nat.ModEq.add_right_cancel' (l.front % l.size) ?_
    rw [Nat.add_assoc, Nat.sub_add_cancel hfront.le]
    calc l.tail % l.size + 2 ^ 64 ≡ l.tail + 0 [MOD l.size] :=
          (Nat.mod_modEq _ _).add (Nat.modEq_zero_iff_dvd.mpr hdvd)
      _ = l.tail - l.front + l.front := by omega
      _ ≡ l.tail - l.front + l.front % l.size [MOD l.size] :=
          Nat.ModEq.rfl.add (Nat.mod_modEq _ _).symm
  rw [h.mask, h.front, h.tail, u64Sub, u64_of_lt hfront, u64, hsize,
    Nat.and_two_pow_sub_one_eq_mod, ← hsize, Nat.mod_mod_of_dvd _ hdvd, hcancel,
    Nat.mod_eq_of_lt (by omega)]

theorem measure_goes (h : Inv capacity least s g) {p result : ℕ}
    (hk : ConsumerKnows g (.measure f p result)) :
    ConsumerGoes capacity least (.measure f p result) s g := by
  obtain ⟨htaking, atCall, seen, todo, n, hrequest, rfl, hring, rfl, hlow, hhigh⟩ := hk
  have hmem : p ∈ g.ring := by
    rw [hring]
    exact List.mem_append_right _ List.mem_cons_self
  obtain ⟨b, hb, hrep⟩ := h.memory.block hmem
  refine ⟨.measureNext g.front p (u64 (u64 n + (u64Sub b.tail b.front &&& b.sizeMask))),
    s.queue, [], g, ?_, h.silent, ⟨htaking, atCall, seen, todo,
      n + ((g.lane p).tail - (g.lane p).front), hrequest, rfl, hring, ?_, ?_, ?_⟩,
    ConsumerKeeps.refl g⟩
  · simp [consumerStep, hb]
  · rw [hrep.size_approx, u64_add_left]
  · rw [Ghost.count_append, Ghost.count_cons]
    change _ ≤ _ + (_ + 0)
    omega
  · rw [Ghost.count_cons] at hhigh
    omega

theorem measureNext_goes (h : Inv capacity least s g) {p result : ℕ}
    (hk : ConsumerKnows g (.measureNext f p result)) :
    ConsumerGoes capacity least (.measureNext f p result) s g := by
  obtain ⟨htaking, atCall, seen, todo, n, hrequest, rfl, hring, rfl, hlow, hhigh⟩ := hk
  have hmem : p ∈ g.ring := by
    rw [hring]
    exact List.mem_append_right _ List.mem_cons_self
  obtain ⟨b, hb, hrep⟩ := h.memory.block hmem
  have hpath := h.memory.ring
  rw [hring] at hpath
  have hnext : b.next = some (todo.headD g.front) := by
    rw [← Queue.nextOf_eq hb]
    exact (path_append.mp hpath).2.1
  cases todo with
  | nil =>
    rw [List.headD_nil] at hnext
    have hend : n ≤ g.fifo.items.length + if g.fifo.offered.isSome then 1 else 0 := by
      refine hlow.trans ?_
      rw [← hring]
      exact h.facts.count_ring h.memory
    refine ⟨.idle, s.queue, [.measured (u64 n)],
      { g with fifo := { g.fifo with requested := none } }, ?_,
      ⟨h.memory.flags _ _ _ _, h.facts.answer,
        h.log.snoc (Next.measured g.fifo n atCall hrequest hhigh hend), h.two_le, h.largest,
        h.power⟩, ⟨htaking, rfl⟩, ConsumerKeeps.answer g⟩
    simp [consumerStep, hb, hnext]
  | cons m more =>
    rw [List.headD_cons] at hnext
    have hne : m ≠ g.front := by
      have hnodup := h.memory.ring_nodup
      rintro rfl
      cases seen with
      | nil =>
        rw [List.nil_append, Ghost.ring, List.cons.injEq] at hring
        obtain ⟨rfl, htail⟩ := hring
        rw [Ghost.ring, htail] at hnodup
        exact (List.nodup_cons.mp hnodup).1 List.mem_cons_self
      | cons a seen =>
        rw [List.cons_append, Ghost.ring, List.cons.injEq] at hring
        obtain ⟨rfl, htail⟩ := hring
        rw [Ghost.ring, htail] at hnodup
        refine (List.nodup_cons.mp hnodup).1 ?_
        simp
    refine ⟨.measure g.front m (u64 n), s.queue, [], g, ?_, h.silent,
      ⟨htaking, atCall, seen ++ [p], more, n, hrequest, rfl, ?_, rfl, hlow, hhigh⟩,
      ConsumerKeeps.refl g⟩
    · simp [consumerStep, hb, hnext, hne]
    · rw [hring, List.append_assoc, List.singleton_append]

end Steps

/-- A call of the consumer says how many elements there are. -/
theorem Inv.request (h : Inv capacity least s g) (hidle : g.fifo.requested = none) :
    Inv capacity least { s with log := s.log ++ [.request] }
        { g with fifo := { g.fifo with requested := some g.fifo.items.length } } ∧
      ConsumerKeeps g { g with fifo := { g.fifo with requested := some g.fifo.items.length } } :=
  ⟨⟨h.memory.flags _ _ _ _,
      ⟨fun p hp => (h.facts.lanes p hp).congr rfl Iff.rfl Iff.rfl Iff.rfl id id id,
        h.facts.entering, h.facts.taking, h.facts.offering, h.facts.room, h.facts.items⟩,
      h.log.snoc (Next.request g.fifo hidle), h.two_le, h.largest, h.power⟩,
    ⟨rfl, rfl, ⟨[], (List.append_nil _).symm⟩, rfl, rfl, rfl, rfl, Nat.le_refl _, fun _ => rfl,
      fun _ => rfl, fun _ => rfl, fun _ => rfl, fun _ _ => rfl⟩⟩

theorem consumerStep_goes (h : Inv capacity least s g) {pc : Dequeue T}
    (hk : ConsumerKnows g pc) : ConsumerGoes capacity least pc s g := by
  cases pc with
  | idle => exact ⟨.idle, s.queue, [], g, rfl, h.silent, hk, ConsumerKeeps.refl g⟩
  | start op => exact request_goes h hk
  | readTail op f blockFront => exact readTail_goes h hk
  | readTailBlock op f => exact readTailBlock_goes h hk
  | rereadTail op => exact rereadTail_goes h hk
  | readNext op f => exact readNext_goes h hk
  | readNextTail op n blockFront => exact readNextTail_goes h hk
  | advance op n blockFront => exact next_goes h hk
  | look f blockFront => exact look_goes h hk
  | take f blockFront => exact take_goes h hk
  | bump x f blockFront => exact bump_goes h hk
  | measure f p result => exact measure_goes h hk
  | measureNext f p result => exact measureNext_goes h hk

/-- Whatever the consumer is to do next, it can do. -/
theorem consumer_sound (capacity least : ℕ) :
    RelyGuarantee.Sound (removeStep (T := T)) (Inv capacity least) ConsumerKnows
      ConsumerKeeps := by
  intro input pc s g h hk
  cases input with
  | none =>
    obtain ⟨pc', q', events, g', hstep, hinv, hk', hkeeps⟩ := consumerStep_goes h hk
    exact ⟨pc', _, g', by simp [removeStep, Shared.record, hstep], hinv, hk', hkeeps⟩
  | some call =>
    cases pc with
    | idle =>
      obtain ⟨hinv, hkeeps⟩ := h.request hk.2
      cases call with
      | remove op =>
        refine ⟨.start op, { s with log := s.log ++ [.request] }, _, rfl, hinv,
          ⟨hk.1, _, rfl, ?_⟩, hkeeps⟩
        intro hnil
        exact List.length_eq_zero_iff.mpr hnil
      | sizeApprox =>
        refine ⟨.measure s.queue.frontBlock s.queue.frontBlock 0,
          { s with log := s.log ++ [.request] }, _, rfl, hinv,
          ⟨hk.1, _, [], g.ahead ++ g.free, 0, rfl, h.memory.front, ?_, rfl, Nat.zero_le _, ?_⟩,
          hkeeps⟩
        · rw [h.memory.front]
          rfl
        · rw [h.memory.front, Nat.zero_add]
          exact h.facts.length_le h.memory
    | _ => exact ⟨_, s, g, by cases call <;> rfl, h, hk, ConsumerKeeps.refl g⟩

end EsSensor.ReaderWriterQueue
