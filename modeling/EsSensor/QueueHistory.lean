import EsSensor.QueueConstruction
import Mathlib.Data.List.Perm.Subperm

/-!
The queue over whole runs. Whatever the order of the steps, none fails, the calls
and answers are those of a queue that acts at once, and memory holds what has
entered and not left.
-/
namespace EsSensor.ReaderWriterQueue

open AtomicFifo MachineWord

variable {T : Type}

/-- The elements that live in a block, from its front to its tail. -/
def Block.elements (b : Block T) : List T :=
  (List.range ((b.tail + (b.sizeMask + 1) - b.front) &&& b.sizeMask)).filterMap
    (fun i => SlotWindow.look b.data ((b.front + i) &&& b.sizeMask))

/-- The elements from a block on to the tail block. -/
def Queue.elementsFrom (q : Queue T) : ℕ → ℕ → List T
  | 0, _ => []
  | fuel + 1, p =>
    match q.blocks[p]? with
    | none => []
    | some b => b.elements ++
        if p = q.tailBlock then [] else (b.next.map (q.elementsFrom fuel)).getD []

def Queue.elements (q : Queue T) : List T := q.elementsFrom q.blocks.length q.frontBlock

/-- The element that the consumer has moved out of its block and not yet returned. -/
def Dequeue.held : Dequeue T → List T
  | .bump element _ _ => [element]
  | _ => []

def contents (s : System T) : List T := s.right.held ++ s.shared.queue.elements

theorem filterMap_range_getElem? (xs : List T) (a k : ℕ) :
    (List.range k).filterMap (fun i => xs[a + i]?) = (xs.drop a).take k := by
  induction k with
  | zero => simp
  | succ k ih =>
    rw [List.range_succ, List.filterMap_append, ih, List.take_add_one, List.getElem?_drop]
    cases hx : xs[a + k]? <;> simp [hx]

variable {b : Block T} {l : Lane T} {g : Ghost T} {q : Queue T} {capacity least : ℕ}

/-- The number of elements between the indices of a block. -/
theorem Represents.span (h : Represents b l) :
    (b.tail + (b.sizeMask + 1) - b.front) &&& b.sizeMask = l.tail - l.front := by
  obtain ⟨k, _, hsize⟩ := h.power
  obtain ⟨hle, hlt⟩ := h.ordered.front_le_tail
  have hpos : 0 < l.size := by omega
  have hmask : b.sizeMask + 1 = l.size := by
    rw [h.mask]
    omega
  have hfront : l.front % l.size < l.size := Nat.mod_lt _ hpos
  have hcancel : l.tail % l.size + l.size - l.front % l.size ≡ l.tail - l.front [MOD l.size] := by
    refine Nat.ModEq.add_right_cancel' (l.front % l.size) ?_
    rw [Nat.sub_add_cancel (by omega)]
    calc l.tail % l.size + l.size ≡ l.tail + 0 [MOD l.size] :=
          (Nat.mod_modEq _ _).add (Nat.modEq_zero_iff_dvd.mpr (Nat.dvd_refl _))
      _ = l.tail - l.front + l.front := by omega
      _ ≡ l.tail - l.front + l.front % l.size [MOD l.size] :=
          Nat.ModEq.rfl.add (Nat.mod_modEq _ _).symm
  rw [hmask, h.mask, h.tail, h.front, hsize, Nat.and_two_pow_sub_one_eq_mod, ← hsize, hcancel,
    Nat.mod_eq_of_lt (by omega)]

theorem Represents.slot (h : Represents b l) (i : ℕ) :
    (b.front + i) &&& b.sizeMask = (l.front + i) % l.size := by
  obtain ⟨k, _, hsize⟩ := h.power
  rw [h.mask, h.front, hsize, Nat.and_two_pow_sub_one_eq_mod, ← hsize, Nat.mod_add_mod]

/-- What lives in a block, where nothing of it has been taken. -/
theorem Represents.elements_eq (h : Represents b l) (htaken : l.taken = l.front) :
    b.elements = l.live := by
  have ho := h.ordered
  have hlook : ∀ i ∈ List.range (l.tail - l.front),
      SlotWindow.look b.data ((b.front + i) &&& b.sizeMask) = l.history[l.front + i]? := by
    intro i hi
    rw [List.mem_range] at hi
    have hbound : l.front + i < l.history.length := by
      have := ho.tail_le
      omega
    have hlt : l.front + i < l.taken + b.data.length := by
      rw [h.data_length]
      have := ho.history_lt
      have := ho.seenFront_le
      omega
    rw [h.slot, List.getElem?_eq_getElem hbound]
    have hshow := h.shows.look (by omega) hlt (List.getElem?_eq_getElem hbound)
    rwa [h.data_length] at hshow
  rw [Block.elements, h.span, List.filterMap_congr hlook, filterMap_range_getElem?, Lane.live,
    List.drop_take]

/-- What lives in a block, where the front element has been taken. -/
theorem Represents.elements_tail (h : Represents b l) (htaken : l.taken = l.front + 1) {x : T}
    (hx : l.history[l.front]? = some x) (hlt : l.front < l.tail) :
    l.live = x :: b.elements := by
  have ho := h.ordered
  have hsize : l.taken ≤ l.front + l.size ∧ l.front + l.size < l.taken + l.size := by
    have := ho.front_le_tail
    omega
  obtain ⟨m, hm⟩ : ∃ m, l.tail - l.front = m + 1 := ⟨l.tail - l.front - 1, by omega⟩
  have hempty : SlotWindow.look b.data ((b.front + 0) &&& b.sizeMask) = none := by
    have hshow := h.shows (l.front + l.size) hsize.1 (by rw [h.data_length]; exact hsize.2)
    have hnone : l.history[l.front + l.size]? = none := by
      refine List.getElem?_eq_none ?_
      have := ho.history_lt
      have := ho.seenFront_le
      omega
    rw [h.data_length, Nat.add_mod_right, hnone] at hshow
    rw [h.slot, Nat.add_zero, SlotWindow.look, hshow]
  have hlook : ∀ i ∈ List.range m, SlotWindow.look b.data ((b.front + (i + 1)) &&& b.sizeMask) =
      l.history[l.front + 1 + i]? := by
    intro i hi
    rw [List.mem_range] at hi
    have hbound : l.front + 1 + i < l.history.length := by
      have := ho.tail_le
      omega
    have hroom : l.front + 1 + i < l.taken + b.data.length := by
      rw [h.data_length]
      have := ho.history_lt
      have := ho.seenFront_le
      omega
    rw [h.slot, ← Nat.add_assoc, Nat.add_right_comm, List.getElem?_eq_getElem hbound]
    have hshow := h.shows.look (by omega) hroom (List.getElem?_eq_getElem hbound)
    rwa [h.data_length] at hshow
  have helements : b.elements = (l.history.drop (l.front + 1)).take m := by
    rw [Block.elements, h.span, hm, List.range_succ_eq_map, List.filterMap_cons, hempty,
      List.filterMap_map, ← filterMap_range_getElem?]
    exact List.filterMap_congr hlook
  rw [Lane.live_eq_cons hx hlt, helements, Lane.live, List.drop_take]
  have hrest : l.tail - (l.front + 1) = m := by omega
  rw [hrest]

/-- Walking the ring from the front block comes by the blocks in use. -/
theorem Memory.elementsFrom_eq (h : Memory q g) {p : ℕ} {rest : List ℕ} {stop : ℕ}
    (hpath : LinkedRing.Path q.nextOf (p :: rest) stop) (hlast : rest.getLastD p = g.last)
    (hnodup : (p :: rest).Nodup) (fuel : ℕ) (hfuel : rest.length < fuel) :
    q.elementsFrom fuel p =
      (p :: rest).flatMap (fun r => ((q.blocks[r]?).map Block.elements).getD []) := by
  induction rest generalizing p fuel with
  | nil =>
    obtain ⟨fuel, rfl⟩ : ∃ n, fuel = n + 1 := ⟨fuel - 1, by simp at hfuel; omega⟩
    have hp : p = q.tailBlock := by
      rw [h.tail, ← hlast, List.getLastD_nil]
    rw [Queue.elementsFrom, List.flatMap_singleton]
    cases q.blocks[p]? with
    | none => rfl
    | some b => simp [← hp]
  | cons n rest ih =>
    obtain ⟨fuel, rfl⟩ : ∃ m, fuel = m + 1 := ⟨fuel - 1, by omega⟩
    obtain ⟨hlink, hrest⟩ := hpath
    have hne : p ≠ q.tailBlock := by
      rintro rfl
      refine (List.nodup_cons.mp hnodup).1 ?_
      rw [h.tail, ← hlast, List.getLastD_cons]
      exact List.getLastD_mem_cons
    rw [List.getLastD_cons] at hlast
    have hnext := ih hrest hlast (List.nodup_cons.mp hnodup).2 fuel
      (by rw [List.length_cons] at hfuel; omega)
    rw [Queue.elementsFrom, List.flatMap_cons, ← hnext]
    rw [Queue.nextOf, List.headD_cons] at hlink
    cases hb : q.blocks[p]? with
    | none => simp [hb] at hlink
    | some b =>
      rw [hb, Option.bind_some] at hlink
      simp [hne, hlink]

/-- What the consumer holds and what lives in memory are the elements of the queue. -/
theorem contents_eq {s : System T} (hinv : Inv capacity least s.shared g)
    (hknows : ConsumerKnows g s.right) : contents s = g.fifo.items := by
  have hmemory := hinv.memory
  have hlen : g.ahead.length < s.shared.queue.blocks.length := by
    have hsub : (g.front :: g.ahead) ⊆ List.range s.shared.queue.blocks.length := by
      intro p hp
      have hring : p ∈ g.ring := by
        rw [Ghost.ring, ← List.cons_append]
        exact List.mem_append_left _ hp
      obtain ⟨b, hb, _⟩ := hmemory.block hring
      exact List.mem_range.mpr (List.getElem?_eq_some_iff.mp hb).1
    have hle := (hmemory.used_nodup.subperm hsub).length_le
    rw [List.length_range, List.length_cons] at hle
    omega
  have hpath : LinkedRing.Path s.shared.queue.nextOf (g.front :: g.ahead)
      (g.free.headD g.front) := by
    have hring := hmemory.ring
    rw [Ghost.ring, ← List.cons_append] at hring
    exact (LinkedRing.path_append.mp hring).1
  have hwalk := hmemory.elementsFrom_eq hpath rfl hmemory.used_nodup
    s.shared.queue.blocks.length hlen
  have hahead : g.ahead.flatMap (fun r =>
      ((s.shared.queue.blocks[r]?).map Block.elements).getD []) =
        g.ahead.flatMap (fun p => (g.lane p).live) := by
    refine List.flatMap_congr ?_
    intro p hp
    have hring : p ∈ g.ring := List.mem_cons_of_mem _ (List.mem_append_left _ hp)
    obtain ⟨b, hb, hrep⟩ := hmemory.block hring
    have hne : g.taking ≠ some p := by
      intro htake
      rw [hinv.facts.taking p htake] at hp
      exact (List.nodup_cons.mp hmemory.used_nodup).1 hp
    have htaken := (hinv.facts.lanes p hring).taken
    rw [if_neg hne, Nat.add_zero] at htaken
    rw [hb, Option.map_some, Option.getD_some, hrep.elements_eq htaken]
  obtain ⟨b, hb, hrep⟩ := hmemory.front_block
  have hfront := hinv.facts.lanes g.front List.mem_cons_self
  rw [contents, Queue.elements, hmemory.front, hwalk, List.flatMap_cons, hahead, hb,
    Option.map_some, Option.getD_some, hinv.facts.items, Ghost.items, List.flatMap_cons,
    ← List.append_assoc]
  congr 1
  cases hpc : s.right with
  | bump x f blockFront =>
    rw [hpc] at hknows
    obtain ⟨htaking, _, _, _, hx, hlt⟩ := hknows
    have htaken := hfront.taken
    rw [if_pos htaking] at htaken
    rw [hrep.elements_tail htaken hx hlt]
    rfl
  | _ =>
    rw [hpc] at hknows
    rw [hrep.elements_eq (hfront.taken_of_none hknows.1)]
    rfl

/-- The whole invariant, in every state of every run. -/
theorem run_holds {MAX_BLOCK_SIZE maxSize : ℕ} (h : Sizes MAX_BLOCK_SIZE maxSize) :
    ∃ least, ∀ schedule : List (Action T), ∃ s, run MAX_BLOCK_SIZE maxSize schedule = some s ∧
      RelyGuarantee.Holds (Inv maxSize least) (ProducerKnows maxSize least) ConsumerKnows s := by
  obtain ⟨least, hstart⟩ := start_holds (T := T) h
  refine ⟨least, ?_⟩
  intro schedule
  exact RelyGuarantee.holds_run (producer_sound maxSize least h.block_le)
    (consumer_sound maxSize least) producer_stable consumer_stable hstart schedule

/-- The sizes that the program uses. -/
theorem sizes_program : Sizes 512 100 :=
  ⟨by norm_num, ⟨9, by norm_num⟩, by norm_num, by norm_num, by norm_num⟩

theorem sizes_small : Sizes 4 1 :=
  ⟨by norm_num, ⟨2, by norm_num⟩, by norm_num, by norm_num, by norm_num⟩

/-- In every interleaving no step fails, and the calls and answers are those of a
first-in first-out queue that acts at once and has room for `maxSize` elements. -/
theorem run_linearizable {MAX_BLOCK_SIZE maxSize : ℕ} (h : Sizes MAX_BLOCK_SIZE maxSize)
    (schedule : List (Action T)) :
    ∃ s fifo, run MAX_BLOCK_SIZE maxSize schedule = some s ∧
      History maxSize s.shared.log fifo ∧ contents s = fifo.items := by
  obtain ⟨least, hrun⟩ := run_holds (T := T) h
  obtain ⟨s, hs, g, hinv, _, hknows⟩ := hrun schedule
  exact ⟨s, g.fifo, hs, hinv.log, contents_eq hinv hknows⟩

theorem run_linearizable_program :
    ∃ s fifo, run 512 100 [.inr (some (.remove .peek)), .inl (.call .canAlloc 5), .inr none] =
        some s ∧ History 100 s.shared.log fifo ∧ contents s = fifo.items :=
  run_linearizable sizes_program _

section Results

variable {MAX_BLOCK_SIZE maxSize : ℕ} {schedule : List (Action T)} {s : System T}

theorem run_history (h : Sizes MAX_BLOCK_SIZE maxSize)
    (hrun : run MAX_BLOCK_SIZE maxSize schedule = some s) :
    ∃ fifo, History maxSize s.shared.log fifo ∧ contents s = fifo.items := by
  obtain ⟨least, hholds⟩ := run_holds (T := T) h
  obtain ⟨t, ht, g, hinv, _, hknows⟩ := hholds schedule
  obtain rfl := Option.some.inj (hrun.symm.trans ht)
  exact ⟨g.fifo, hinv.log, contents_eq hinv hknows⟩

/-- Nothing is lost, made up or put out of order: what has left, and then what is
in memory, is what has entered. -/
theorem run_fifo (h : Sizes MAX_BLOCK_SIZE maxSize) (schedule : List (Action T)) :
    ∃ s, run MAX_BLOCK_SIZE maxSize schedule = some s ∧
      entered s.shared.log = left s.shared.log ++ contents s := by
  obtain ⟨least, hholds⟩ := run_holds (T := T) h
  obtain ⟨s, hrun, _⟩ := hholds schedule
  obtain ⟨fifo, hlog, hcontents⟩ := run_history h hrun
  exact ⟨s, hrun, by rw [hcontents, hlog.entered_eq]⟩

theorem run_fifo_program :
    ∃ s, run 512 100 ([.inl (.call .cannotAlloc 5)] ++ List.replicate 3 (.inl (.go false))) =
        some s ∧ entered s.shared.log = left s.shared.log ++ contents s :=
  run_fifo sizes_program _

/-- A call of the consumer that fails was made when the queue was empty. -/
theorem tryDequeue_empty (h : Sizes MAX_BLOCK_SIZE maxSize)
    (hrun : run MAX_BLOCK_SIZE maxSize schedule = some s) {before during after : List (Event T)}
    (hlog : s.shared.log = before ++ .request :: during ++ .empty :: after)
    (hduring : ∀ e ∈ during, e.ofConsumer = false) : entered before = left before := by
  obtain ⟨fifo, hhistory, _⟩ := run_history h hrun
  rw [hlog] at hhistory
  exact hhistory.empty_answer hduring

/-- The consumer finds nothing where an element is offered after its call. -/
theorem tryDequeue_empty_overtaken :
    ∃ s : System ℕ, run 4 1 [.inr (some (.remove .tryDequeue)), .inl (.call .canAlloc 7),
        .inr none, .inr none, .inr none] = some s ∧
      s.shared.log = [] ++ .request :: [.offer 7] ++ .empty :: [] ∧
      entered ([] : List (Event ℕ)) = left [] := by
  obtain ⟨s, hrun, hlog⟩ : ∃ s : System ℕ,
      run 4 1 [.inr (some (.remove .tryDequeue)), .inl (.call .canAlloc 7),
        .inr none, .inr none, .inr none] = some s ∧
      s.shared.log = [] ++ .request :: [.offer 7] ++ .empty :: [] :=
    ⟨_, rfl, rfl⟩
  exact ⟨s, hrun, hlog, tryDequeue_empty sizes_small hrun hlog (by decide)⟩

/-- An element that is refused, or for which the queue takes memory, was offered
when there were `maxSize` elements in the queue. -/
theorem enqueue_full (h : Sizes MAX_BLOCK_SIZE maxSize)
    (hrun : run MAX_BLOCK_SIZE maxSize schedule = some s) {before during after : List (Event T)}
    {x : T} {e : Event T} (hlog : s.shared.log = before ++ .offer x :: during ++ e :: after)
    (hduring : ∀ e ∈ during, e.ofConsumer = true) (he : e = .refused ∨ e = .grown) :
    maxSize + (left before).length ≤ (entered before).length := by
  obtain ⟨fifo, hhistory, _⟩ := run_history h hrun
  rw [hlog] at hhistory
  exact hhistory.full_answer hduring he

theorem enqueue_full_two :
    ∃ s : System ℕ, run 4 1 ([.inl (.call .canAlloc 7)] ++ List.replicate 3 (.inl (.go true)) ++
        [.inl (.call .cannotAlloc 8)] ++ List.replicate 3 (.inl (.go true))) = some s ∧
      s.shared.log = [.offer 7, .accepted 7] ++ .offer 8 :: [] ++ .refused :: [] ∧
      1 + (left [.offer 7, .accepted 7]).length ≤ (entered [.offer 7, .accepted 7]).length := by
  obtain ⟨s, hrun, hlog⟩ : ∃ s : System ℕ,
      run 4 1 ([.inl (.call .canAlloc 7)] ++ List.replicate 3 (.inl (.go true)) ++
        [.inl (.call .cannotAlloc 8)] ++ List.replicate 3 (.inl (.go true))) = some s ∧
      s.shared.log = [.offer 7, .accepted 7] ++ .offer 8 :: [] ++ .refused :: [] :=
    ⟨_, rfl, rfl⟩
  exact ⟨s, hrun, hlog, enqueue_full sizes_small hrun hlog (by decide) (.inl rfl)⟩

/-- A size counts all that was in the queue at the call, and no more than what is
in it at the answer and one element that is being offered then. -/
theorem sizeApprox_bounds (h : Sizes MAX_BLOCK_SIZE maxSize)
    (hrun : run MAX_BLOCK_SIZE maxSize schedule = some s) {before during after : List (Event T)}
    {n : ℕ} (hlog : s.shared.log = before ++ .request :: during ++ .measured n :: after)
    (hduring : ∀ e ∈ during, e.ofConsumer = false) :
    ∃ m, n = u64 m ∧ (entered before).length ≤ (left before).length + m ∧
      (left before).length + m ≤ (entered (before ++ during)).length +
        if offering (before ++ .request :: during) then 1 else 0 := by
  obtain ⟨fifo, hhistory, _⟩ := run_history h hrun
  rw [hlog] at hhistory
  exact hhistory.measured_answer hduring

theorem sizeApprox_bounds_one :
    ∃ s : System ℕ, run 4 1 ([.inl (.call .canAlloc 7)] ++ List.replicate 3 (.inl (.go true)) ++
        [.inr (some .sizeApprox), .inl (.call .canAlloc 8), .inr none, .inr none]) = some s ∧
      s.shared.log = [.offer 7, .accepted 7] ++ .request :: [.offer 8] ++ .measured 1 :: [] ∧
      ∃ m, 1 = u64 m ∧
        (entered [.offer 7, .accepted 7]).length ≤ (left [.offer 7, .accepted 7]).length + m ∧
        (left [.offer 7, .accepted 7]).length + m ≤
          (entered ([.offer 7, .accepted 7] ++ [.offer 8])).length +
            if offering ([.offer 7, .accepted 7] ++ .request :: [.offer 8]) then 1 else 0 := by
  obtain ⟨s, hrun, hlog⟩ : ∃ s : System ℕ,
      run 4 1 ([.inl (.call .canAlloc 7)] ++ List.replicate 3 (.inl (.go true)) ++
        [.inr (some .sizeApprox), .inl (.call .canAlloc 8), .inr none, .inr none]) = some s ∧
      s.shared.log = [.offer 7, .accepted 7] ++ .request :: [.offer 8] ++ .measured 1 :: [] :=
    ⟨_, rfl, rfl⟩
  exact ⟨s, hrun, hlog, sizeApprox_bounds sizes_small hrun hlog (by decide)⟩

end Results

end EsSensor.ReaderWriterQueue
