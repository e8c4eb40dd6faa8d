import EsSensor.QueueInvariant

/-!
Every step of the producer goes through from what it knows, keeps the invariant,
and leaves to the consumer what it promises.
-/
namespace EsSensor.ReaderWriterQueue

open AtomicFifo

variable {T : Type} {capacity least : ℕ} {g g' : Ghost T} {q : Queue T} {s : Shared T}

section Put

variable {p : ℕ} {l : Lane T} {writing entering : Option ℕ} {fifo : Fifo T}

/-- Of a block the producer may see more of the front, and add to what is there. -/
theorem ProducerKeeps.put
    (hsize : l.size = (g.lane p).size) (hhistory : ∃ more, l.history = (g.lane p).history ++ more)
    (hfront : l.front = (g.lane p).front) (hseen : l.seenTail = (g.lane p).seenTail)
    (htail : (g.lane p).tail ≤ l.tail)
    (hidle : g.ahead ≠ [] → p = g.front → l.tail = (g.lane p).tail)
    (hitems : ∃ more, fifo.items = g.fifo.items ++ more)
    (hrequested : fifo.requested = g.fifo.requested) :
    ProducerKeeps g (g.put p l writing entering g.taking fifo) := by
  have hcases : ∀ r, r = p ∧ (g.put p l writing entering g.taking fifo).lane r = l ∨
      (g.put p l writing entering g.taking fifo).lane r = g.lane r := by
    intro r
    by_cases hr : r = p
    · subst hr
      exact Or.inl ⟨rfl, Ghost.put_same⟩
    · exact Or.inr (Ghost.put_of_ne hr)
  refine ⟨rfl, List.Sublist.refl _, ⟨[], (List.append_nil _).symm⟩, rfl, hrequested, hitems, ?_, ?_,
    ?_, ?_, ?_, ?_⟩
  · intro r _
    rcases hcases r with ⟨rfl, hr⟩ | hr <;> simp only [hr, hsize]
  · intro r _
    rcases hcases r with ⟨rfl, hr⟩ | hr <;> simp only [hr]
    · exact hhistory
    · exact ⟨[], (List.append_nil _).symm⟩
  · intro r _
    rcases hcases r with ⟨rfl, hr⟩ | hr <;> simp only [hr, hfront]
  · intro r _
    rcases hcases r with ⟨rfl, hr⟩ | hr <;> simp only [hr, hseen]
  · intro r _
    rcases hcases r with ⟨rfl, hr⟩ | hr <;> simp only [hr]
    · exact htail
    · exact Nat.le_refl _
  · intro hahead
    rcases hcases g.front with ⟨hp, hr⟩ | hr <;> simp only [hr]
    rw [hp]
    exact hidle hahead hp.symm

end Put

/-- The producer's next step goes through, and all that it must leave is there. -/
def ProducerGoes (MAX_BLOCK_SIZE capacity least : ℕ) (memory : Bool) (pc : Enqueue T)
    (s : Shared T) (g : Ghost T) : Prop :=
  ∃ pc' q' events g', innerEnqueue MAX_BLOCK_SIZE memory pc s.queue = some (pc', q', events) ∧
    Inv capacity least { queue := q', log := s.log ++ events } g' ∧
    ProducerKnows capacity least g' pc' ∧ ProducerKeeps g g'

variable {MAX_BLOCK_SIZE : ℕ} {memory : Bool}

section Steps

variable {mode : AllocationMode} {x : T} {t n blockTail nextBlockTail : ℕ}

theorem Memory.last_block (h : Memory q g) :
    ∃ b, q.blocks[g.last]? = some b ∧ Represents b (g.lane g.last) :=
  h.block g.last_mem_ring

/-- What the producer has room for, in counters and in indices. -/
theorem Represents.room_iff {b : Block T} {l : Lane T} (h : Represents b l) {seen : ℕ}
    (hseen : l.seenFront ≤ seen) (hle : seen ≤ l.tail) :
    (l.tail + 1) % l.size = seen % l.size ↔ l.tail + 1 = seen + l.size := by
  have ho := h.ordered
  have := ho.tail_le
  have := ho.history_lt
  exact index_full_iff hle (by omega)

theorem start_goes (h : Inv capacity least s g)
    (hk : ProducerKnows capacity least g (.start mode x)) :
    ProducerGoes MAX_BLOCK_SIZE capacity least memory (.start mode x) s g := by
  obtain ⟨hquiet, hoffer⟩ := hk
  obtain ⟨b, hb, hrep⟩ := h.memory.last_block
  have ho := hrep.ordered
  have hfront : (g.lane g.last).seenFront ≤ (g.lane g.last).tail :=
    ho.seenFront_le.trans (ho.front_le.trans (ho.taken_le.trans ho.seenTail_le))
  have hroom := hrep.room_iff (Nat.le_refl _) hfront
  have hindex : (b.tail + 1) &&& b.sizeMask =
      ((g.lane g.last).tail + 1) % (g.lane g.last).size := by
    rw [hrep.tail, hrep.next_index]
  by_cases hfull : (b.tail + 1) &&& b.sizeMask = b.localFront
  · refine ⟨.readFront mode x g.last b.tail ((b.tail + 1) &&& b.sizeMask), s.queue, [], g, ?_,
      h.silent, ?_, ProducerKeeps.refl g⟩
    · simp [innerEnqueue, h.memory.tail, hb, hfull]
    · refine ⟨hquiet, hoffer, rfl, hrep.tail, hindex, ?_⟩
      rw [hindex, hrep.localFront] at hfull
      exact hroom.mp hfull
  · refine ⟨.construct x g.last b.tail ((b.tail + 1) &&& b.sizeMask), s.queue, [], g, ?_,
      h.silent, ?_, ProducerKeeps.refl g⟩
    · simp [innerEnqueue, h.memory.tail, hb, hfull]
    · refine ⟨hquiet, hoffer, rfl, hrep.tail, hindex, ?_⟩
      rw [hindex, hrep.localFront] at hfull
      have hne := mt hroom.mpr hfull
      have := ho.tail_le
      have := ho.history_lt
      omega

/-- A block that is all there is, and full, holds as many as the queue has room for. -/
theorem Facts.full_alone (h : Facts capacity least g) (hordered : (g.lane g.front).Ordered)
    (hring : g.ring.length = 1)
    (hfull : (g.lane g.front).tail + 1 = (g.lane g.front).front + (g.lane g.front).size) :
    capacity ≤ g.fifo.items.length := by
  have hahead := (g.alone hring).1
  have hsize := (h.lanes g.front List.mem_cons_self).least
  have hroom := h.room
  rw [hring, Nat.sub_self, Nat.max_eq_left (Nat.zero_le 1), Nat.mul_one] at hroom
  rw [h.items, Ghost.items, hahead, List.flatMap_singleton, Lane.live_length _ hordered]
  omega

theorem readFront_goes (h : Inv capacity least s g)
    (hk : ProducerKnows capacity least g (.readFront mode x t blockTail nextBlockTail)) :
    ProducerGoes MAX_BLOCK_SIZE capacity least memory
      (.readFront mode x t blockTail nextBlockTail) s g := by
  obtain ⟨hquiet, ⟨full, hoffer⟩, rfl, rfl, rfl, hfilled⟩ := hk
  obtain ⟨b, hb, hrep⟩ := h.memory.last_block
  have ho := hrep.ordered
  have hroom := hrep.room_iff ho.seenFront_le
    (ho.front_le.trans (ho.taken_le.trans ho.seenTail_le))
  have hlane := h.facts.lanes g.last g.last_mem_ring
  let l : Lane T := { g.lane g.last with seenFront := (g.lane g.last).front }
  let g' : Ghost T := g.put g.last l g.writing g.entering g.taking g.fifo
  have hsame : g'.lane g'.last = l := Ghost.put_same
  have hlive : l.live = (g.lane g.last).live := rfl
  have hfacts : Facts capacity least g' := by
    refine h.facts.put ?_ (fun _ _ => Iff.rfl) (fun _ _ => Iff.rfl) (fun _ _ => Iff.rfl)
      (h.facts.entering g.last) (h.facts.taking g.last) h.facts.offering
      (h.facts.items.trans (Ghost.items_setLane hlive).symm)
    exact LaneFact.put hlane.built hlane.taken hlane.free (fun hp => ⟨(hlane.ahead hp).1, rfl⟩)
      hlane.full hlane.least
  have hinv := h.put hb hrep.see_front rfl hfacts h.history
  have hkeeps : ProducerKeeps g g' :=
    ProducerKeeps.put rfl ⟨[], (List.append_nil _).symm⟩ rfl rfl (Nat.le_refl _)
      (fun _ _ => rfl) ⟨[], (List.append_nil _).symm⟩ rfl
  have hquiet' : g'.Quiet := ⟨hquiet.writing, hquiet.entering, hquiet.fresh⟩
  by_cases hfull : ((g.lane g.last).tail + 1) % (g.lane g.last).size = b.front
  · refine ⟨.compareNext mode x g.last, _, [], g', ?_, hinv, ?_, hkeeps⟩
    · simp [innerEnqueue, hb, hfull]
    rw [hrep.front] at hfull
    have hcount := hroom.mp hfull
    have hfilled' : g'.Filled := by
      rw [Ghost.Filled, hsame]
      exact hcount
    refine ⟨hquiet', ⟨full, hoffer, ?_⟩, rfl, hfilled'⟩
    intro hring
    by_contra hnot
    have hless := hoffer.2 (Bool.eq_false_iff.mpr hnot)
    have hlast : g.last = g.front := by
      rw [Ghost.last, (g.alone hring).1, List.getLastD_nil]
    rw [hlast] at hcount ho
    have := h.facts.full_alone ho hring hcount
    omega
  · refine ⟨.construct x g.last ((g.lane g.last).tail % (g.lane g.last).size)
      (((g.lane g.last).tail + 1) % (g.lane g.last).size), _, [], g', ?_, hinv, ?_, hkeeps⟩
    · simp [innerEnqueue, hb, hfull]
    rw [hrep.front] at hfull
    have hne := mt hroom.mpr hfull
    rw [Ghost.Filled] at hfilled
    refine ⟨hquiet', ⟨full, hoffer⟩, rfl, ?_⟩
    rw [hsame]
    refine ⟨rfl, rfl, ?_⟩
    have := ho.seenFront_le
    change (g.lane g.last).tail + 1 < (g.lane g.last).front + (g.lane g.last).size
    omega

/-- An offer that ends without the element does not touch the blocks. -/
theorem Facts.refuse (h : Facts capacity least g) (hentering : g.entering = none) :
    Facts capacity least { g with fifo := { g.fifo with offered := none } } :=
  ⟨fun p hp => (h.lanes p hp).congr rfl Iff.rfl Iff.rfl Iff.rfl id id id, h.entering, h.taking,
    fun hne => absurd hentering hne, h.room, h.items⟩

theorem ProducerKeeps.refuse (k : ProducerKeeps g g') :
    ProducerKeeps g { g' with fifo := { g'.fifo with offered := none } } :=
  ⟨k.front, k.ring, k.ahead, k.taking, k.requested, k.items, k.size, k.history, k.frontIndex,
    k.seenTail, k.tail, k.idle⟩

theorem LaneFact.built_of_quiet {p : ℕ} (h : LaneFact least g p) (hquiet : g.writing = none) :
    (g.lane p).history.length = (g.lane p).tail := by
  have hbuilt := h.built
  rwa [hquiet, if_neg (by simp), Nat.add_zero] at hbuilt

theorem construct_goes (h : Inv capacity least s g)
    (hk : ProducerKnows capacity least g (.construct x t blockTail nextBlockTail)) :
    ProducerGoes MAX_BLOCK_SIZE capacity least memory
      (.construct x t blockTail nextBlockTail) s g := by
  obtain ⟨hquiet, ⟨full, hoffer⟩, rfl, rfl, rfl, hroom⟩ := hk
  obtain ⟨b, hb, hrep⟩ := h.memory.last_block
  have hlane := h.facts.lanes g.last g.last_mem_ring
  have hbuilt := hlane.built_of_quiet hquiet.writing
  obtain ⟨data, hdata, hrep'⟩ := hrep.construct (by rw [hbuilt]; exact hroom) x
  let l : Lane T := { g.lane g.last with history := (g.lane g.last).history ++ [x] }
  let g' : Ghost T := g.put g.last l (some g.last) g.entering g.taking g.fifo
  have hsame : g'.lane g'.last = l := Ghost.put_same
  have hlive : l.live = (g.lane g.last).live := Lane.live_construct hrep.ordered x
  have hfacts : Facts capacity least g' := by
    refine h.facts.put ?_ (fun _ hr => flag_set hr hquiet.writing) (fun _ _ => Iff.rfl)
      (fun _ _ => Iff.rfl) (h.facts.entering g.last) (h.facts.taking g.last) h.facts.offering
      (h.facts.items.trans (Ghost.items_setLane hlive).symm)
    refine LaneFact.put ?_ hlane.taken hlane.free hlane.ahead hlane.full hlane.least
    rw [if_pos rfl, List.length_append, hbuilt, List.length_singleton]
  have hkeeps : ProducerKeeps g g' :=
    ProducerKeeps.put rfl ⟨[x], rfl⟩ rfl rfl (Nat.le_refl _)
      (fun _ _ => rfl) ⟨[], (List.append_nil _).symm⟩ rfl
  refine ⟨.publish x g.last (((g.lane g.last).tail + 1) % (g.lane g.last).size), _, [], g', ?_,
    h.put hb hrep' rfl hfacts h.history, ?_, hkeeps⟩
  · rw [hbuilt] at hdata
    simp [innerEnqueue, hb, hdata]
  refine ⟨⟨rfl, hquiet.entering, hquiet.fresh⟩, ⟨full, hoffer⟩, rfl, ?_⟩
  rw [hsame]
  refine ⟨rfl, ?_⟩
  change ((g.lane g.last).history ++ [x])[(g.lane g.last).tail]? = some x
  rw [← hbuilt, List.getElem?_concat_length]

/-- The queue after the element that is offered has been accepted. -/
def accept (fifo : Fifo T) (x : T) : Fifo T :=
  { fifo with items := fifo.items ++ [x], offered := none }

theorem Inv.accept (h : Inv capacity least s g) {full : Bool}
    (hoffer : g.Offering capacity x full) :
    History capacity (s.log ++ [.accepted x]) (accept g.fifo x) :=
  h.log.snoc (Next.accepted g.fifo x full hoffer.1)

theorem Ghost.last_not_mem_dropLast (hnodup : (g.front :: g.ahead).Nodup) :
    g.last ∉ g.ahead.dropLast := by
  intro hmem
  cases hahead : g.ahead with
  | nil => simp [hahead] at hmem
  | cons n rest =>
    have hne : g.ahead ≠ [] := by rw [hahead]; exact List.cons_ne_nil n rest
    have hlast : g.ahead.getLast hne = g.last := by
      simp only [Ghost.last, hahead, List.getLastD_cons, List.getLast_eq_getLastD]
    have hsplit := List.dropLast_append_getLast hne
    have hnodup' := (List.nodup_cons.mp hnodup).2
    rw [← hsplit, List.nodup_append, hlast] at hnodup'
    exact hnodup'.2.2 g.last hmem g.last List.mem_cons_self rfl

theorem publish_goes (h : Inv capacity least s g)
    (hk : ProducerKnows capacity least g (.publish x t nextBlockTail)) :
    ProducerGoes MAX_BLOCK_SIZE capacity least memory (.publish x t nextBlockTail) s g := by
  obtain ⟨⟨hw, he, hf⟩, ⟨full, hoffer⟩, rfl, rfl, hx⟩ := hk
  obtain ⟨b, hb, hrep⟩ := h.memory.last_block
  have ho := hrep.ordered
  have hlane := h.facts.lanes g.last g.last_mem_ring
  have hnew : (g.lane g.last).tail < (g.lane g.last).history.length :=
    (List.getElem?_eq_some_iff.mp hx).1
  have hnotfree : g.last ∉ g.free := fun hfree => h.memory.not_mem_used hfree g.last_mem
  let l : Lane T := { g.lane g.last with tail := (g.lane g.last).tail + 1 }
  let g' : Ghost T := g.put g.last l none g.entering g.taking (accept g.fifo x)
  have hlive : l.live = (g.lane g.last).live ++ [x] := Lane.live_publish ho hx
  have hbuilt := hlane.built
  rw [if_pos hw] at hbuilt
  have hfacts : Facts capacity least g' := by
    refine h.facts.put ?_ (fun _ hr => flag_clear hr hw) (fun _ _ => Iff.rfl)
      (fun _ _ => Iff.rfl) (h.facts.entering g.last) (h.facts.taking g.last)
      (fun hne => absurd he hne) ?_
    · refine LaneFact.put ?_ hlane.taken (fun hfree => absurd hfree hnotfree) ?_ ?_ hlane.least
      · rw [if_neg (by simp), Nat.add_zero]
        exact hbuilt
      · exact fun hp => ⟨Nat.lt_succ_of_lt (hlane.ahead hp).1, (hlane.ahead hp).2⟩
      · exact fun hp => absurd hp (Ghost.last_not_mem_dropLast h.memory.used_nodup)
    · rw [Ghost.items_publish h.memory.used_nodup hlive, ← h.facts.items]
      rfl
  have hkeeps : ProducerKeeps g g' := by
    refine ProducerKeeps.put rfl ⟨[], (List.append_nil _).symm⟩ rfl rfl (Nat.le_succ _) ?_
      ⟨[x], rfl⟩ rfl
    intro hahead hlast
    obtain ⟨n, rest, hcons⟩ := List.exists_cons_of_ne_nil hahead
    exact absurd hlast (h.memory.front_ne_last hcons)
  refine ⟨.idle, _, [.accepted x], g', ?_,
    h.put hb (hrep.publish hnew) rfl hfacts (h.accept hoffer), ?_, hkeeps⟩
  · simp [innerEnqueue, hb]
  · exact ⟨⟨rfl, he, hf⟩, rfl⟩

/-- When there is no free block, and the tail block was full, all blocks ahead of
the front one are full, and hold what the queue has room for. -/
theorem Facts.full_around (h : Facts capacity least g) (hmemory : Memory q g)
    (hfree : g.free = []) (hfilled : g.Filled) (hring : g.ring.length ≠ 1) :
    capacity ≤ g.fifo.items.length := by
  have hlen : g.ring.length = g.ahead.length + 1 := by
    simp [Ghost.ring, hfree]
  have hpos : 1 ≤ g.ahead.length := by omega
  have hlive : ∀ p ∈ g.ahead, least - 1 ≤ (g.lane p).live.length := by
    intro p hp
    have hmem : p ∈ g.ring := List.mem_cons_of_mem _ (List.mem_append_left _ hp)
    have hfact := h.lanes p hmem
    have hsize := hfact.least
    rw [Lane.live_length _ (hmemory.ordered (List.mem_append_left _ hmem))]
    by_cases hlast : p = g.last
    · subst hlast
      have hseen := (hfact.ahead hp).2
      rw [Ghost.Filled, hseen] at hfilled
      omega
    · have hdrop := List.mem_dropLast_of_mem_of_ne_getLastD hp hlast
      have hfull := hfact.full hdrop
      omega
  have hsum : ∀ ps : List ℕ, (∀ p ∈ ps, least - 1 ≤ (g.lane p).live.length) →
      (least - 1) * ps.length ≤ (ps.flatMap (fun p => (g.lane p).live)).length := by
    intro ps
    induction ps with
    | nil => simp
    | cons p ps ih =>
      intro hps
      have hp := hps p List.mem_cons_self
      have hrest := ih (fun r hr => hps r (List.mem_cons_of_mem p hr))
      rw [List.flatMap_cons, List.length_append, List.length_cons, Nat.mul_succ]
      omega
  have hroom := h.room
  rw [hlen, Nat.add_sub_cancel, Nat.max_eq_right hpos] at hroom
  rw [h.items, Ghost.items, List.flatMap_cons, List.length_append]
  have := hsum g.ahead hlive
  omega

theorem compareNext_goes (h : Inv capacity least s g)
    (hk : ProducerKnows capacity least g (.compareNext mode x t)) :
    ProducerGoes MAX_BLOCK_SIZE capacity least memory (.compareNext mode x t) s g := by
  obtain ⟨hquiet, ⟨full, hoffer, halone⟩, rfl, hfilled⟩ := hk
  obtain ⟨b, hb, hrep⟩ := h.memory.last_block
  have hnext : b.next = some (g.free.headD g.front) := by
    rw [← Queue.nextOf_eq hb, h.memory.next_last]
  cases hfree : g.free with
  | cons n rest =>
    have hne : n ≠ g.front := by
      rintro rfl
      exact h.memory.not_mem_used (by rw [hfree]; exact List.mem_cons_self) List.mem_cons_self
    rw [hfree, List.headD_cons] at hnext
    refine ⟨.enterNext x n, s.queue, [], g, ?_, h.silent,
      ⟨hquiet, ⟨full, hoffer⟩, ⟨rest, hfree⟩, hfilled⟩, ProducerKeeps.refl g⟩
    simp [innerEnqueue, hb, hnext, h.memory.front, hne]
  | nil =>
    rw [hfree, List.headD_nil] at hnext
    have hfull : full = true := by
      by_contra hnot
      have hless := hoffer.2 (Bool.eq_false_iff.mpr hnot)
      have := h.facts.full_around h.memory hfree hfilled (fun hring => hnot (halone hring))
      omega
    subst hfull
    cases mode with
    | canAlloc =>
      refine ⟨.allocate x g.last, s.queue, [], g, ?_, h.silent, ⟨hquiet, hoffer, rfl, hfilled⟩,
        ProducerKeeps.refl g⟩
      simp [innerEnqueue, hb, hnext, h.memory.front]
    | cannotAlloc =>
      refine ⟨.idle, s.queue, [.refused], { g with fifo := { g.fifo with offered := none } }, ?_,
        ?_, ⟨⟨hquiet.writing, hquiet.entering, hquiet.fresh⟩, rfl⟩, ?_⟩
      · simp [innerEnqueue, hb, hnext, h.memory.front]
      · exact ⟨h.memory.flags _ _ _ _, h.facts.refuse hquiet.entering,
          h.log.snoc (Next.refused g.fifo x hoffer.1), h.two_le, h.largest, h.power⟩
      · exact (ProducerKeeps.refl g).refuse

theorem Ghost.free_mem_ring {n : ℕ} {rest : List ℕ} (hfree : g.free = n :: rest) :
    n ∈ g.free ∧ n ∈ g.ring := by
  have hmem : n ∈ g.free := by
    rw [hfree]
    exact List.mem_cons_self
  exact ⟨hmem, List.mem_cons_of_mem _ (List.mem_append_right _ hmem)⟩

/-- The tail block is not one of the free ones. -/
theorem Memory.free_ne_last (h : Memory q g) {n : ℕ} (hfree : n ∈ g.free) : g.last ≠ n := by
  rintro rfl
  exact h.not_mem_used hfree g.last_mem

theorem Ghost.filled_put {p : ℕ} {l : Lane T} {writing entering taking : Option ℕ} {fifo : Fifo T}
    (hne : g.last ≠ p) (h : g.Filled) : (g.put p l writing entering taking fifo).Filled := by
  rw [Ghost.Filled, Ghost.put_last, Ghost.put_of_ne hne]
  exact h

/-- Writing to a free block leaves the blocks in use as they are. -/
theorem Memory.items_free (h : Memory q g) {n : ℕ} (hfree : n ∈ g.free) (l : Lane T) :
    (g.setLane n l).items = g.items := by
  refine Ghost.items_congr rfl rfl ?_
  intro p hp
  rw [g.setLane_of_ne]
  rintro rfl
  exact h.not_mem_used hfree hp

theorem enterNext_goes (h : Inv capacity least s g)
    (hk : ProducerKnows capacity least g (.enterNext x n)) :
    ProducerGoes MAX_BLOCK_SIZE capacity least memory (.enterNext x n) s g := by
  obtain ⟨hquiet, ⟨full, hoffer⟩, ⟨rest, hfree⟩, hfilled⟩ := hk
  obtain ⟨hmem, hring⟩ := Ghost.free_mem_ring hfree
  obtain ⟨b, hb, hrep⟩ := h.memory.block hring
  have hlane := h.facts.lanes n hring
  have hempty : (g.lane n).tail = (g.lane n).front := by
    simpa [hquiet.entering] using hlane.free hmem
  let l : Lane T := { g.lane n with seenFront := (g.lane n).front }
  let g' : Ghost T := g.put n l g.writing g.entering g.taking g.fifo
  have hsame : g'.lane n = l := Ghost.put_same
  have hfacts : Facts capacity least g' := by
    refine h.facts.put ?_ (fun _ _ => Iff.rfl) (fun _ _ => Iff.rfl) (fun _ _ => Iff.rfl)
      (h.facts.entering n) (h.facts.taking n) h.facts.offering
      (h.facts.items.trans (h.memory.items_free hmem l).symm)
    exact LaneFact.put hlane.built hlane.taken hlane.free (fun hp => ⟨(hlane.ahead hp).1, rfl⟩)
      hlane.full hlane.least
  have hkeeps : ProducerKeeps g g' :=
    ProducerKeeps.put rfl ⟨[], (List.append_nil _).symm⟩ rfl rfl (Nat.le_refl _)
      (fun _ _ => rfl) ⟨[], (List.append_nil _).symm⟩ rfl
  refine ⟨.constructNext x n b.tail, _, [], g', ?_, h.put hb hrep.see_front rfl hfacts h.history,
    ?_, hkeeps⟩
  · simp [innerEnqueue, hb, hrep.front, hrep.tail, hempty]
  · refine ⟨⟨hquiet.writing, hquiet.entering, hquiet.fresh⟩, ⟨full, hoffer⟩, ⟨rest, hfree⟩,
      Ghost.filled_put (h.memory.free_ne_last hmem) hfilled, ?_⟩
    rw [hsame]
    exact ⟨hrep.tail, rfl⟩

theorem constructNext_goes (h : Inv capacity least s g)
    (hk : ProducerKnows capacity least g (.constructNext x n nextBlockTail)) :
    ProducerGoes MAX_BLOCK_SIZE capacity least memory (.constructNext x n nextBlockTail) s g := by
  obtain ⟨hquiet, ⟨full, hoffer⟩, ⟨rest, hfree⟩, hfilled, rfl, hseen⟩ := hk
  obtain ⟨hmem, hring⟩ := Ghost.free_mem_ring hfree
  obtain ⟨b, hb, hrep⟩ := h.memory.block hring
  have hlane := h.facts.lanes n hring
  have hbuilt := hlane.built_of_quiet hquiet.writing
  have hempty : (g.lane n).tail = (g.lane n).front := by
    simpa [hquiet.entering] using hlane.free hmem
  have hsize : (g.lane n).history.length + 1 < (g.lane n).seenFront + (g.lane n).size := by
    have := h.two_le
    have := hlane.least
    omega
  obtain ⟨data, hdata, hrep'⟩ := hrep.construct hsize x
  let l : Lane T := { g.lane n with history := (g.lane n).history ++ [x] }
  let g' : Ghost T := g.put n l (some n) g.entering g.taking g.fifo
  have hsame : g'.lane n = l := Ghost.put_same
  have hfacts : Facts capacity least g' := by
    refine h.facts.put ?_ (fun _ hr => flag_set hr hquiet.writing) (fun _ _ => Iff.rfl)
      (fun _ _ => Iff.rfl) (h.facts.entering n) (h.facts.taking n) h.facts.offering
      (h.facts.items.trans (h.memory.items_free hmem l).symm)
    refine LaneFact.put ?_ hlane.taken hlane.free hlane.ahead hlane.full hlane.least
    rw [if_pos rfl, List.length_append, hbuilt, List.length_singleton]
  have hkeeps : ProducerKeeps g g' :=
    ProducerKeeps.put rfl ⟨[x], rfl⟩ rfl rfl (Nat.le_refl _)
      (fun _ _ => rfl) ⟨[], (List.append_nil _).symm⟩ rfl
  refine ⟨.publishNext x n ((g.lane n).tail % (g.lane n).size), _, [], g', ?_,
    h.put hb hrep' rfl hfacts h.history, ?_, hkeeps⟩
  · rw [hbuilt] at hdata
    simp [innerEnqueue, hb, hdata]
  · refine ⟨⟨rfl, hquiet.entering, hquiet.fresh⟩, ⟨full, hoffer⟩, ⟨rest, hfree⟩,
      Ghost.filled_put (h.memory.free_ne_last hmem) hfilled, ?_⟩
    rw [hsame]
    refine ⟨rfl, hseen, ?_⟩
    change ((g.lane n).history ++ [x])[(g.lane n).front]? = some x
    rw [← hempty, ← hbuilt, List.getElem?_concat_length]

theorem publishNext_goes (h : Inv capacity least s g)
    (hk : ProducerKnows capacity least g (.publishNext x n nextBlockTail)) :
    ProducerGoes MAX_BLOCK_SIZE capacity least memory (.publishNext x n nextBlockTail) s g := by
  obtain ⟨⟨hw, he, hf⟩, ⟨full, hoffer⟩, ⟨rest, hfree⟩, hfilled, rfl, hseen, hx⟩ := hk
  obtain ⟨hmem, hring⟩ := Ghost.free_mem_ring hfree
  obtain ⟨b, hb, hrep⟩ := h.memory.block hring
  have hlane := h.facts.lanes n hring
  have hempty : (g.lane n).tail = (g.lane n).front := by
    simpa [he] using hlane.free hmem
  have hbuilt := hlane.built
  rw [if_pos hw] at hbuilt
  have hnot : n ∉ g.ahead := fun hp => h.memory.not_mem_used hmem (List.mem_cons_of_mem _ hp)
  let l : Lane T := { g.lane n with tail := (g.lane n).tail + 1 }
  let g' : Ghost T := g.put n l none (some n) g.taking g.fifo
  have hsame : g'.lane n = l := Ghost.put_same
  have hfacts : Facts capacity least g' := by
    refine h.facts.put ?_ (fun _ hr => flag_clear hr hw) (fun _ hr => flag_set hr he)
      (fun _ _ => Iff.rfl) (fun _ => hmem) (h.facts.taking n) (fun _ => by rw [hoffer.1]; simp)
      (h.facts.items.trans (h.memory.items_free hmem l).symm)
    refine LaneFact.put ?_ hlane.taken ?_ (fun hp => absurd hp hnot)
      (fun hp => absurd (List.mem_of_mem_dropLast hp) hnot) hlane.least
    · rw [if_neg (by simp), Nat.add_zero]
      exact hbuilt
    · intro _
      rw [if_pos rfl]
      exact congrArg Nat.succ hempty
  have hkeeps : ProducerKeeps g g' := by
    refine ProducerKeeps.put rfl ⟨[], (List.append_nil _).symm⟩ rfl rfl (Nat.le_succ _) ?_
      ⟨[], (List.append_nil _).symm⟩ rfl
    rintro _ rfl
    exact absurd List.mem_cons_self (h.memory.not_mem_used hmem)
  refine ⟨.advance x n, _, [], g', ?_,
    h.put hb (hrep.publish (by omega)) rfl hfacts h.history, ?_, hkeeps⟩
  · simp [innerEnqueue, hb, hrep.next_index]
  · refine ⟨⟨rfl, rfl, hf⟩, ⟨full, hoffer⟩, ⟨rest, hfree⟩,
      Ghost.filled_put (h.memory.free_ne_last hmem) hfilled, ?_⟩
    rw [hsame]
    exact ⟨hseen, hx⟩

theorem advance_goes (h : Inv capacity least s g)
    (hk : ProducerKnows capacity least g (.advance x n)) :
    ProducerGoes MAX_BLOCK_SIZE capacity least memory (.advance x n) s g := by
  obtain ⟨⟨hw, he, hf⟩, ⟨full, hoffer⟩, ⟨rest, hfree⟩, hfilled, hseen, hx⟩ := hk
  obtain ⟨hmem, hring⟩ := Ghost.free_mem_ring hfree
  have hlane := h.facts.lanes n hring
  have hone : (g.lane n).tail = (g.lane n).front + 1 := by
    simpa [he] using hlane.free hmem
  have hnotfree : n ∉ rest := by
    have hnodup := h.memory.ring_nodup
    rw [Ghost.ring, ← List.cons_append, hfree] at hnodup
    exact (List.nodup_cons.mp (List.nodup_append.mp hnodup).2.1).1
  have hnot : n ∉ g.ahead := fun hp => h.memory.not_mem_used hmem (List.mem_cons_of_mem _ hp)
  have hlive : (g.lane n).live = [x] := by
    rw [Lane.live_eq_cons hx (by omega), Lane.live_eq_nil hone.symm]
  let g' : Ghost T := { g with
    ahead := g.ahead ++ [n], free := rest, entering := none, fifo := accept g.fifo x }
  have hringEq : g'.ring = g.ring := by
    simp [g', Ghost.ring, hfree]
  have hfront' : g'.front = g.front := rfl
  have hahead' : g'.ahead = g.ahead ++ [n] := rfl
  have hlane' : g'.lane = g.lane := rfl
  have hitems := Ghost.items_enter hfront' hahead' hlane'
  have hfacts : Facts capacity least g' := by
    refine ⟨?_, ?_, h.facts.taking, fun hne => absurd rfl hne,
      by rw [hringEq]; exact h.facts.room, ?_⟩
    · intro p hp
      rw [hringEq] at hp
      have hfact := h.facts.lanes p hp
      refine ⟨hfact.built, hfact.taken, ?_, ?_, ?_, hfact.least⟩
      · intro hrest
        have hne : p ≠ n := by
          rintro rfl
          exact hnotfree hrest
        have hfreep := hfact.free (by rw [hfree]; exact List.mem_cons_of_mem n hrest)
        rw [he, if_neg (by simpa using hne.symm)] at hfreep
        exact hfreep
      · intro hahead
        rcases List.mem_append.mp hahead with hold | hnew
        · exact hfact.ahead hold
        · obtain rfl := List.mem_singleton.mp hnew
          change (g.lane p).front < (g.lane p).tail ∧ _
          exact ⟨by omega, hseen⟩
      · intro hdrop
        have hold : p ∈ g.ahead := by simpa [g'] using hdrop
        by_cases hlast : p = g.last
        · subst hlast
          have hfilled' : (g.lane g.last).tail + 1 =
            (g.lane g.last).seenFront + (g.lane g.last).size := hfilled
          rw [(hfact.ahead hold).2] at hfilled'
          exact hfilled'
        · exact hfact.full (List.mem_dropLast_of_mem_of_ne_getLastD hold hlast)
    · intro p hp
      exact absurd hp (by simp [g'])
    · rw [hitems, hlive, ← h.facts.items]
      rfl
  have hkeeps : ProducerKeeps g g' :=
    ⟨rfl, by rw [hringEq], ⟨[n], rfl⟩, rfl, rfl, ⟨[x], rfl⟩, fun _ _ => rfl,
      fun _ _ => ⟨[], (List.append_nil _).symm⟩, fun _ _ => rfl, fun _ _ => rfl,
      fun _ _ => Nat.le_refl _, fun _ => rfl⟩
  have hmemory := (h.memory.enter hfree hf).flags g.writing none g.taking (accept g.fifo x)
  exact ⟨.idle, _, [.accepted x], g', rfl,
    ⟨hmemory, hfacts, h.accept hoffer, h.two_le, h.largest, h.power⟩, ⟨⟨hw, rfl, hf⟩, rfl⟩, hkeeps⟩

theorem le_grownSize (MAX_BLOCK_SIZE largest : ℕ) : largest ≤ grownSize MAX_BLOCK_SIZE largest := by
  unfold grownSize
  split <;> omega

theorem grownSize_power {MAX_BLOCK_SIZE largest k : ℕ} (hmax : MAX_BLOCK_SIZE ≤ 2 ^ 62)
    (hk : k ≤ 63) (hlargest : largest = 2 ^ k) :
    ∃ j ≤ 63, grownSize MAX_BLOCK_SIZE largest = 2 ^ j := by
  unfold grownSize
  split
  · exact ⟨k, hk, hlargest⟩
  · have hlt : 2 ^ k < 2 ^ 62 := by omega
    have := (Nat.pow_lt_pow_iff_right (by omega)).mp hlt
    exact ⟨k + 1, by omega, by rw [hlargest, Nat.pow_succ]⟩

/-- A new block that holds one element. -/
def Lane.single (size : ℕ) (x : T) : Lane T where
  size := size
  history := [x]
  seenFront := 0
  front := 0
  taken := 0
  seenTail := 1
  tail := 1

/-- The new block with its first element, before the consumer can see it. -/
theorem represents_newBlock {size k : ℕ} (hk : k ≤ 63) (hsize : size = 2 ^ k) (htwo : 2 ≤ size)
    (x : T) (next : Option ℕ) :
    ∃ data, SlotWindow.construct (makeBlock size).data 0 x = some data ∧
      Represents
        { makeBlock (T := T) size with data := data, tail := 1, localTail := 1, next := next }
        (Lane.single size x) := by
  have hempty := represents_makeBlock (T := T) hk hsize next
  have hroom : ([] : List T).length + 1 < 0 + size := by
    rw [List.length_nil]
    omega
  obtain ⟨data, hdata, hrep⟩ := hempty.construct hroom x
  have hone : 1 % size = 1 := Nat.mod_eq_of_lt (by omega)
  rw [List.length_nil, Nat.zero_mod] at hdata
  have hpublish := (hrep.publish (Nat.lt_succ_self 0)).see_tail
  simp only [Nat.zero_add, hone] at hpublish
  exact ⟨data, hdata, hpublish⟩

theorem allocate_goes (hmax : MAX_BLOCK_SIZE ≤ 2 ^ 62) (h : Inv capacity least s g)
    (hk : ProducerKnows capacity least g (.allocate x t)) :
    ProducerGoes MAX_BLOCK_SIZE capacity least memory (.allocate x t) s g := by
  obtain ⟨hquiet, hoffer, rfl, hfilled⟩ := hk
  obtain ⟨b, hb, hrep⟩ := h.memory.last_block
  cases memory with
  | false =>
    refine ⟨.idle, s.queue, [.refused], { g with fifo := { g.fifo with offered := none } }, rfl,
      ?_, ⟨⟨hquiet.writing, hquiet.entering, hquiet.fresh⟩, rfl⟩, (ProducerKeeps.refl g).refuse⟩
    exact ⟨h.memory.flags _ _ _ _, h.facts.refuse hquiet.entering,
      h.log.snoc (Next.refused g.fifo x hoffer.1), h.two_le, h.largest, h.power⟩
  | true =>
    obtain ⟨k, hk, hpower⟩ := h.power
    obtain ⟨j, hj, hgrown⟩ := grownSize_power hmax hk hpower
    have hleast : least ≤ grownSize MAX_BLOCK_SIZE s.queue.largestBlockSize :=
      h.largest.trans (le_grownSize _ _)
    obtain ⟨data, hdata, hrepNew⟩ := represents_newBlock hj hgrown (h.two_le.trans hleast) x b.next
    let l : Lane T := Lane.single (grownSize MAX_BLOCK_SIZE s.queue.largestBlockSize) x
    let new := s.queue.blocks.length
    let g' : Ghost T := { g.setLane new l with fresh := [new] }
    have hnew : ∀ p ∈ g.ring, p ≠ new := by
      intro p hp
      obtain ⟨c, hc, _⟩ := h.memory.block hp
      exact (List.getElem?_eq_some_iff.mp hc).1.ne
    have hold : ∀ p ∈ g.ring, g'.lane p = g.lane p := fun p hp => g.setLane_of_ne (hnew p hp) l
    have hsame : g'.lane new = l := g.setLane_same new l
    have hfacts : Facts capacity least g' := by
      refine ⟨?_, h.facts.entering, h.facts.taking, h.facts.offering, h.facts.room, ?_⟩
      · exact fun p hp => (h.facts.lanes p hp).congr (hold p hp) Iff.rfl Iff.rfl Iff.rfl id id id
      · refine h.facts.items.trans (Eq.symm ?_)
        refine Ghost.items_congr rfl rfl ?_
        intro p hp
        refine congrArg Lane.live (hold p ?_)
        rw [Ghost.ring, ← List.cons_append]
        exact List.mem_append_left _ hp
    have hkeeps : ProducerKeeps g g' := by
      refine ⟨rfl, List.Sublist.refl _, ⟨[], (List.append_nil _).symm⟩, rfl, rfl,
        ⟨[], (List.append_nil _).symm⟩, ?_, ?_, ?_, ?_, ?_, ?_⟩
      · exact fun p hp => congrArg Lane.size (hold p hp)
      · exact fun p hp => ⟨[], by rw [hold p hp, List.append_nil]⟩
      · exact fun p hp => congrArg Lane.front (hold p hp)
      · exact fun p hp => congrArg Lane.seenTail (hold p hp)
      · exact fun p hp => (congrArg Lane.tail (hold p hp)).ge
      · exact fun _ => congrArg Lane.tail (hold g.front List.mem_cons_self)
    let q' : Queue T := { s.queue with
      blocks := s.queue.blocks ++
        [{ makeBlock (T := T) (grownSize MAX_BLOCK_SIZE s.queue.largestBlockSize) with
          data := data, tail := 1, localTail := 1, next := b.next }]
      largestBlockSize := grownSize MAX_BLOCK_SIZE s.queue.largestBlockSize }
    refine ⟨.link x g.last new, q', [.grown], g', ?_,
      ⟨?_, hfacts, ?_, h.two_le, hleast, ⟨j, hj, hgrown⟩⟩, ?_, hkeeps⟩
    · simp [innerEnqueue, hb, hdata, new, q']
    · exact h.memory.allocate hquiet.fresh (Queue.nextOf_eq hb).symm hrepNew
    · exact h.log.snoc (Next.grown g.fifo x hoffer.1)
    · refine ⟨⟨hquiet.writing, hquiet.entering, rfl⟩, ⟨true, hoffer⟩, rfl, ?_, ?_⟩
      · change (g'.lane g.last).tail + 1 = (g'.lane g.last).seenFront + (g'.lane g.last).size
        rw [hold g.last g.last_mem_ring]
        exact hfilled
      · rw [hsame]
        exact ⟨hleast, rfl, rfl, rfl, rfl, rfl⟩

theorem link_goes (h : Inv capacity least s g)
    (hk : ProducerKnows capacity least g (.link x t n)) :
    ProducerGoes MAX_BLOCK_SIZE capacity least memory (.link x t n) s g := by
  obtain ⟨⟨hw, he, hf⟩, ⟨full, hoffer⟩, rfl, hfilled, hleast, hseen, hfront, htaken, htail,
    hx⟩ := hk
  obtain ⟨b, hb, hrep⟩ := h.memory.last_block
  have hnew : n ∉ g.ring := by
    have hnodup := h.memory.nodup
    rw [hf, List.nodup_append] at hnodup
    exact fun hp => hnodup.2.2 n hp n List.mem_cons_self rfl
  have hahead : n ∉ g.ahead := fun hp => hnew (List.mem_cons_of_mem _ (List.mem_append_left _ hp))
  let g' : Ghost T := { g with free := n :: g.free, fresh := [], entering := some n }
  have hring : ∀ p, p ∈ g'.ring → p = n ∨ p ∈ g.ring := by
    intro p hp
    simp only [g', Ghost.ring, List.mem_cons, List.mem_append] at hp ⊢
    tauto
  have hfacts : Facts capacity least g' := by
    refine ⟨?_, ?_, h.facts.taking, fun _ => by simp [g', hoffer.1], ?_, h.facts.items⟩
    · intro p hp
      rcases hring p hp with rfl | hold
      · refine ⟨?_, ?_, ?_, fun hp => absurd hp hahead,
          fun hp => absurd (List.mem_of_mem_dropLast hp) hahead, hleast⟩
        · change (g.lane p).history.length = (g.lane p).tail + if g.writing = some p then 1 else 0
          rw [hx, htail, hw]
          rfl
        · have hnot : g.taking ≠ some p := by
            intro htake
            rw [h.facts.taking p htake] at hnew
            exact hnew List.mem_cons_self
          change (g.lane p).taken = (g.lane p).front + if g.taking = some p then 1 else 0
          rw [if_neg hnot, htaken, hfront]
        · intro _
          change (g.lane p).tail = (g.lane p).front + if some p = some p then 1 else 0
          rw [if_pos rfl, htail, hfront]
      · have hne : p ≠ n := by
          rintro rfl
          exact hnew hold
        refine (h.facts.lanes p hold).congr rfl Iff.rfl (flag_set hne he) Iff.rfl ?_ id id
        intro hfree
        exact (List.mem_cons.mp hfree).resolve_left hne
    · intro p hp
      obtain rfl := Option.some.inj hp
      exact List.mem_cons_self
    · refine h.facts.room.trans (Nat.mul_le_mul_left _ ?_)
      simp only [g', Ghost.ring, List.length_cons, List.length_append]
      omega
  have hsub : g.ring.Sublist g'.ring := by
    refine List.Sublist.cons_cons _ (List.Sublist.append_left ?_ _)
    exact List.sublist_cons_self n g.free
  have hkeeps : ProducerKeeps g g' :=
    ⟨rfl, hsub, ⟨[], (List.append_nil _).symm⟩, rfl, rfl, ⟨[], (List.append_nil _).symm⟩,
      fun _ _ => rfl, fun _ _ => ⟨[], (List.append_nil _).symm⟩, fun _ _ => rfl, fun _ _ => rfl,
      fun _ _ => Nat.le_refl _, fun _ => rfl⟩
  have hmemory := (h.memory.link hf hb).flags g.writing (some n) g.taking g.fifo
  refine ⟨.advance x n, s.queue.store g.last { b with next := some n }, [], g', ?_,
    ⟨hmemory, hfacts, h.history, h.two_le, h.largest, h.power⟩, ?_, hkeeps⟩
  · simp [innerEnqueue, hb]
  · refine ⟨⟨hw, rfl, rfl⟩, ⟨full, hoffer⟩, ⟨g.free, rfl⟩, hfilled, ?_⟩
    change (g.lane n).seenFront = (g.lane n).front ∧ (g.lane n).history[(g.lane n).front]? = some x
    rw [hseen, hfront, hx]
    exact ⟨rfl, rfl⟩

end Steps

theorem innerEnqueue_goes (hmax : MAX_BLOCK_SIZE ≤ 2 ^ 62) (h : Inv capacity least s g)
    {pc : Enqueue T} (hk : ProducerKnows capacity least g pc) :
    ProducerGoes MAX_BLOCK_SIZE capacity least memory pc s g := by
  cases pc with
  | idle => exact ⟨.idle, s.queue, [], g, rfl, h.silent, hk, ProducerKeeps.refl g⟩
  | start mode x => exact start_goes h hk
  | readFront mode x t blockTail nextBlockTail => exact readFront_goes h hk
  | construct x t blockTail nextBlockTail => exact construct_goes h hk
  | publish x t nextBlockTail => exact publish_goes h hk
  | compareNext mode x t => exact compareNext_goes h hk
  | enterNext x n => exact enterNext_goes h hk
  | constructNext x n nextBlockTail => exact constructNext_goes h hk
  | publishNext x n nextBlockTail => exact publishNext_goes h hk
  | allocate x t => exact allocate_goes hmax h hk
  | link x t n => exact link_goes h hk
  | advance x n => exact advance_goes h hk

/-- Whatever the producer is given next, it can do. -/
theorem producer_sound (capacity least : ℕ) (hmax : MAX_BLOCK_SIZE ≤ 2 ^ 62) :
    RelyGuarantee.Sound (enqueueStep (T := T) MAX_BLOCK_SIZE) (Inv capacity least)
      (ProducerKnows capacity least) ProducerKeeps := by
  intro input pc s g h hk
  cases input with
  | go memory =>
    have hgoes : ProducerGoes MAX_BLOCK_SIZE capacity least memory pc s g :=
      innerEnqueue_goes hmax h hk
    obtain ⟨pc', q', events, g', hstep, hinv, hk', hkeeps⟩ := hgoes
    exact ⟨pc', _, g', by simp [enqueueStep, Shared.record, hstep], hinv, hk', hkeeps⟩
  | call mode x =>
    cases pc with
    | idle =>
      let fifo : Fifo T := { g.fifo with offered := some (x, capacity ≤ g.fifo.items.length) }
      refine ⟨.start mode x, { s with log := s.log ++ [.offer x] }, { g with fifo := fifo }, rfl,
        ⟨h.memory.flags _ _ _ _, ?_, h.log.snoc (Next.offer g.fifo x hk.2), h.two_le, h.largest,
          h.power⟩, ⟨⟨hk.1.writing, hk.1.entering, hk.1.fresh⟩, _, rfl, ?_⟩, ?_⟩
      · exact ⟨fun p hp => (h.facts.lanes p hp).congr rfl Iff.rfl Iff.rfl Iff.rfl id id id,
          h.facts.entering, h.facts.taking, fun _ => by simp [fifo], h.facts.room, h.facts.items⟩
      · intro hfull
        exact Nat.lt_of_not_le (of_decide_eq_false hfull)
      · have k := ProducerKeeps.refl g
        exact ⟨k.front, k.ring, k.ahead, k.taking, k.requested, k.items, k.size, k.history,
          k.frontIndex, k.seenTail, k.tail, k.idle⟩
    | _ => exact ⟨_, s, g, rfl, h, hk, ProducerKeeps.refl g⟩

end EsSensor.ReaderWriterQueue
