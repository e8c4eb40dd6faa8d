import EsSensor.QueueHistory
import Mathlib.Data.List.Perm.Subperm

/-!
The destructor of the queue, with both threads done with it. It goes once round
the ring, destroys what lives in each block and frees the block.
-/
namespace EsSensor.ReaderWriterQueue

open AtomicFifo SlotWindow

variable {T : Type}

/-- `for (size_t i = blockFront; i != blockTail; i = (i + 1) & block->sizeMask)`:
the elements that are destroyed, and the slots after that. -/
def destroyElements (blockTail sizeMask : ℕ) :
    ℕ → ℕ → List (Option T) → Option (List T × List (Option T))
  | 0, i, data => if i = blockTail then some ([], data) else none
  | fuel + 1, i, data =>
    if i = blockTail then some ([], data)
    else do
      let (element, data) ← SlotWindow.destroy data i
      let (rest, data) ← destroyElements blockTail sizeMask fuel ((i + 1) &&& sizeMask) data
      some (element :: rest, data)

/-- The blocks as the destructor leaves them, what it has destroyed, the blocks that
it has freed, and what still lived in a block when it was freed. -/
structure Destruction (T : Type) where
  blocks : List (Option (Block T))
  destroyed : List T
  freed : List ℕ
  lost : List T

/-- `do ... while (block != frontBlock_)`. A block is not looked at after it is freed. -/
def destroyFrom (frontBlock_ : ℕ) : ℕ → ℕ → Destruction T → Option (Destruction T)
  | 0, _, _ => none
  | fuel + 1, block, d => do
    let b ← (d.blocks[block]?).join
    let nextBlock ← b.next
    let (elements, data) ←
      destroyElements b.tail b.sizeMask b.data.length b.front b.data
    let d' : Destruction T :=
      { blocks := d.blocks.set block none
        destroyed := d.destroyed ++ elements
        freed := d.freed ++ [block]
        lost := d.lost ++ data.filterMap id }
    if nextBlock ≠ frontBlock_ then destroyFrom frontBlock_ fuel nextBlock d' else some d'

/-- `~ReaderWriterQueue` -/
def Queue.destruct (q : Queue T) : Option (Destruction T) :=
  destroyFrom q.frontBlock q.blocks.length q.frontBlock
    { blocks := q.blocks.map some, destroyed := [], freed := [], lost := [] }

variable {b : Block T} {l : Lane T} {g : Ghost T} {q : Queue T} {capacity least : ℕ}

/-- From place `k` of the history on, what is left is destroyed in order. -/
theorem destroyElements_eq {size : ℕ} (hsize : ∃ j, size = 2 ^ j) {history : List T}
    (n k fuel : ℕ) (hlen : k + n = history.length) (hn : n < size) {data : List (Option T)}
    (hdata : data.length = size) (hshows : Shows data k history) (hfuel : n ≤ fuel) :
    ∃ data', destroyElements (history.length % size) (size - 1) fuel (k % size) data =
        some (history.drop k, data') ∧ data'.length = size ∧
      Shows data' history.length history := by
  induction n generalizing k data fuel with
  | zero =>
    obtain rfl : k = history.length := by omega
    refine ⟨data, ?_, hdata, hshows⟩
    rw [List.drop_length]
    cases fuel <;> simp [destroyElements]
  | succ n ih =>
    obtain ⟨fuel, rfl⟩ : ∃ m, fuel = m + 1 := ⟨fuel - 1, by omega⟩
    have hlt : k < history.length := by omega
    have hne : k % size ≠ history.length % size := mod_ne_of_lt hlt (by omega)
    obtain ⟨data₁, hdestroy, hlen₁, hshows₁⟩ :=
      hshows.destroy (by omega) (List.getElem?_eq_getElem hlt)
    rw [hdata] at hdestroy hlen₁
    obtain ⟨data', hrest, hlen', hshows'⟩ :=
      ih (k + 1) fuel (by omega) (by omega) hlen₁ hshows₁ (by omega)
    refine ⟨data', ?_, hlen', hshows'⟩
    obtain ⟨j, hj⟩ := hsize
    rw [destroyElements, if_neg hne, hdestroy, List.drop_eq_getElem_cons hlt]
    simp only [Option.bind_eq_bind, Option.bind_some, succ_and_mask hj k, hrest]

/-- A block that nobody works on is emptied of what lives there. -/
theorem Represents.destroyElements (h : Represents b l) (htaken : l.taken = l.front)
    (hbuilt : l.history.length = l.tail) :
    ∃ data, ReaderWriterQueue.destroyElements b.tail b.sizeMask b.data.length b.front b.data =
      some (l.live, data) ∧ data.filterMap id = [] := by
  obtain ⟨k, _, hk⟩ := h.power
  obtain ⟨hle, hlt⟩ := h.ordered.front_le_tail
  have hshows := h.shows
  rw [htaken] at hshows
  obtain ⟨data, hdata, _, hempty⟩ := destroyElements_eq ⟨k, hk⟩ (l.tail - l.front) l.front
    b.data.length (by omega) (by omega) h.data_length hshows (by rw [h.data_length]; omega)
  refine ⟨data, ?_, hempty.nothing_lives⟩
  rw [h.tail, h.mask, h.front, Lane.live, ← hbuilt, List.take_length]
  exact hdata

/-- What the destructor finds at a block of the ring. -/
def Settled (q : Queue T) (g : Ghost T) (p : ℕ) : Prop :=
  ∃ b, q.blocks[p]? = some b ∧ Represents b (g.lane p) ∧
    (g.lane p).taken = (g.lane p).front ∧ (g.lane p).history.length = (g.lane p).tail

/-- The destructor at a block of the ring: it is emptied and freed. -/
theorem destroyFrom_succ {stop p n fuel : ℕ} (hp : Settled q g p) (hn : q.nextOf p = some n)
    (d : Destruction T) (hd : d.blocks[p]? = (q.blocks[p]?).map some) :
    destroyFrom stop (fuel + 1) p d =
      (let d' : Destruction T :=
        { blocks := d.blocks.set p none
          destroyed := d.destroyed ++ (g.lane p).live
          freed := d.freed ++ [p]
          lost := d.lost }
      if n ≠ stop then destroyFrom stop fuel n d' else some d') := by
  obtain ⟨b, hb, hrep, htaken, hbuilt⟩ := hp
  obtain ⟨data, hdata, hnone⟩ := hrep.destroyElements htaken hbuilt
  have hnext : b.next = some n := by
    rw [← Queue.nextOf_eq hb]
    exact hn
  rw [destroyFrom, hd, hb]
  simp only [Option.map_some, Option.join_some, Option.bind_eq_bind, Option.bind_some, hnext,
    hdata, hnone, List.append_nil]

/-- From a block of the ring on, all of them are emptied and freed. -/
theorem destroyFrom_eq {stop : ℕ} (todo : List ℕ) (p fuel : ℕ)
    (hpath : LinkedRing.Path q.nextOf (p :: todo) stop) (hstop : stop ∉ todo)
    (hnodup : (p :: todo).Nodup) (hfuel : todo.length < fuel)
    (hsettled : ∀ r ∈ p :: todo, Settled q g r) (d : Destruction T)
    (hd : ∀ r ∈ p :: todo, d.blocks[r]? = (q.blocks[r]?).map some) :
    ∃ blocks, destroyFrom stop fuel p d = some
      { blocks := blocks
        destroyed := d.destroyed ++ (p :: todo).flatMap (fun r => (g.lane r).live)
        freed := d.freed ++ p :: todo
        lost := d.lost } := by
  induction todo generalizing p fuel d with
  | nil =>
    obtain ⟨fuel, rfl⟩ : ∃ m, fuel = m + 1 := ⟨fuel - 1, by simp at hfuel; omega⟩
    refine ⟨d.blocks.set p none, ?_⟩
    rw [destroyFrom_succ (hsettled p List.mem_cons_self) hpath.1 d (hd p List.mem_cons_self),
      List.flatMap_singleton]
    exact if_neg (by simp)
  | cons n todo ih =>
    obtain ⟨fuel, rfl⟩ : ∃ m, fuel = m + 1 := ⟨fuel - 1, by omega⟩
    have hne : n ≠ stop := by
      rintro rfl
      exact hstop List.mem_cons_self
    let d' : Destruction T :=
      { blocks := d.blocks.set p none
        destroyed := d.destroyed ++ (g.lane p).live
        freed := d.freed ++ [p]
        lost := d.lost }
    have hd' : ∀ r ∈ n :: todo, d'.blocks[r]? = (q.blocks[r]?).map some := by
      intro r hr
      have hpr : p ≠ r := by
        rintro rfl
        exact (List.nodup_cons.mp hnodup).1 hr
      rw [← hd r (List.mem_cons_of_mem p hr)]
      exact List.getElem?_set_ne hpr
    obtain ⟨blocks, hrest⟩ := ih n fuel hpath.2 (fun h => hstop (List.mem_cons_of_mem n h))
      (List.nodup_cons.mp hnodup).2 (by rw [List.length_cons] at hfuel; omega)
      (fun r hr => hsettled r (List.mem_cons_of_mem p hr)) d' hd'
    refine ⟨blocks, ?_⟩
    rw [destroyFrom_succ (n := n) (hsettled p List.mem_cons_self) hpath.1 d
      (hd p List.mem_cons_self)]
    simp only [if_pos hne]
    rw [hrest]
    simp only [d', List.flatMap_cons, List.append_assoc, List.cons_append, List.nil_append]

variable {MAX_BLOCK_SIZE maxSize : ℕ}

/-- When both threads are done, the destructor destroys exactly the elements that
have not left, in order and each once, and frees every block once. -/
theorem destruct_run (h : Sizes MAX_BLOCK_SIZE maxSize) {schedule : List (Action T)} {s : System T}
    (hrun : run MAX_BLOCK_SIZE maxSize schedule = some s) (hleft : s.left = .idle)
    (hright : s.right = .idle) :
    ∃ d, s.shared.queue.destruct = some d ∧
      entered s.shared.log = left s.shared.log ++ d.destroyed ∧
      d.lost = [] ∧ d.freed.Perm (List.range s.shared.queue.blocks.length) := by
  obtain ⟨least, hholds⟩ := run_holds (T := T) h
  obtain ⟨t, ht, g, hinv, hproducer, hconsumer⟩ := hholds schedule
  obtain rfl := Option.some.inj (hrun.symm.trans ht)
  rw [hleft] at hproducer
  rw [hright] at hconsumer
  have hmemory := hinv.memory
  have hfresh := hproducer.1.fresh
  have hall := hmemory.all
  rw [hfresh, List.append_nil] at hall
  have hsettled : ∀ p ∈ g.ring, Settled s.shared.queue g p := by
    intro p hp
    obtain ⟨b, hb, hrep⟩ := hmemory.block hp
    have hlane := hinv.facts.lanes p hp
    exact ⟨b, hb, hrep, hlane.taken_of_none hconsumer.1, hlane.built_of_quiet hproducer.1.writing⟩
  have hstop : g.front ∉ g.ahead ++ g.free := (List.nodup_cons.mp hmemory.ring_nodup).1
  have hfuel : (g.ahead ++ g.free).length < s.shared.queue.blocks.length := by
    rw [← hall, Ghost.ring, List.length_cons]
    exact Nat.lt_succ_self _
  obtain ⟨blocks, hdestroy⟩ := destroyFrom_eq (g.ahead ++ g.free) g.front _ hmemory.ring hstop
    hmemory.ring_nodup hfuel hsettled
    { blocks := s.shared.queue.blocks.map some, destroyed := [], freed := [], lost := [] }
    (fun r _ => List.getElem?_map ..)
  refine ⟨_, by rw [Queue.destruct, hmemory.front]; exact hdestroy, ?_, rfl, ?_⟩
  · have hfree : g.free.flatMap (fun r => (g.lane r).live) = [] := by
      refine List.flatMap_eq_nil_iff.mpr ?_
      intro p hp
      have hring : p ∈ g.ring := List.mem_cons_of_mem _ (List.mem_append_right _ hp)
      have hempty := (hinv.facts.lanes p hring).free hp
      rw [hproducer.1.entering, if_neg (by simp), Nat.add_zero] at hempty
      exact Lane.live_eq_nil hempty.symm
    rw [hinv.log.entered_eq, hinv.facts.items, Ghost.items, List.nil_append, ← List.cons_append,
      List.flatMap_append, hfree, List.append_nil]
  · have hsub : g.ring ⊆ List.range s.shared.queue.blocks.length := by
      intro p hp
      obtain ⟨b, hb, _⟩ := hmemory.block hp
      exact List.mem_range.mpr (List.getElem?_eq_some_iff.mp hb).1
    refine (hmemory.ring_nodup.subperm hsub).perm_of_length_le ?_
    rw [List.length_range]
    exact hall.ge

theorem destruct_run_one :
    ∃ s : System ℕ, run 4 1 ([.inl (.call .canAlloc 7)] ++ List.replicate 3 (.inl (.go true))) =
        some s ∧ ∃ d, s.shared.queue.destruct = some d ∧
      entered s.shared.log = left s.shared.log ++ d.destroyed ∧ d.lost = [] ∧
      d.freed.Perm (List.range s.shared.queue.blocks.length) := by
  obtain ⟨s, hrun, hleft, hright⟩ : ∃ s : System ℕ,
      run 4 1 ([.inl (.call .canAlloc 7)] ++ List.replicate 3 (.inl (.go true))) = some s ∧
      s.left = .idle ∧ s.right = .idle := ⟨_, rfl, rfl, rfl⟩
  exact ⟨s, hrun, destruct_run sizes_small hrun hleft hright⟩

end EsSensor.ReaderWriterQueue
