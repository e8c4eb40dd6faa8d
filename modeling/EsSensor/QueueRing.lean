import EsSensor.Library.LinkedRing
import EsSensor.QueueLanes
import Mathlib.Data.List.Nodup

/-!
The ring of blocks: from the front block to the tail block the elements are in
order, and the blocks behind the tail are free. Each write to memory is one
change of this picture.
-/
namespace EsSensor.ReaderWriterQueue

open AtomicFifo LinkedRing

variable {T : Type}

/-- The blocks ahead of the front block end with the tail block. A fresh block is
not linked yet. One block at a time may hold an element that is constructed and
not published (`writing`), be published and not entered (`entering`), or have its
front element taken (`taking`). -/
structure Ghost (T : Type) where
  lane : ℕ → Lane T
  front : ℕ
  ahead : List ℕ
  free : List ℕ
  fresh : List ℕ
  writing : Option ℕ
  entering : Option ℕ
  taking : Option ℕ
  fifo : Fifo T

namespace Ghost

def ring (g : Ghost T) : List ℕ := g.front :: (g.ahead ++ g.free)

def last (g : Ghost T) : ℕ := g.ahead.getLastD g.front

def setLane (g : Ghost T) (p : ℕ) (l : Lane T) : Ghost T :=
  { g with lane := Function.update g.lane p l }

/-- What the blocks hold, from the front on. -/
def items (g : Ghost T) : List T := (g.front :: g.ahead).flatMap (fun p => (g.lane p).live)

variable (g : Ghost T)

@[simp] theorem setLane_same (p : ℕ) (l : Lane T) : (g.setLane p l).lane p = l := by
  simp [setLane]

theorem setLane_of_ne {p r : ℕ} (hr : r ≠ p) (l : Lane T) :
    (g.setLane p l).lane r = g.lane r := by
  simp [setLane, hr]

@[simp] theorem setLane_front (p : ℕ) (l : Lane T) : (g.setLane p l).front = g.front := rfl

@[simp] theorem setLane_ahead (p : ℕ) (l : Lane T) : (g.setLane p l).ahead = g.ahead := rfl

@[simp] theorem setLane_free (p : ℕ) (l : Lane T) : (g.setLane p l).free = g.free := rfl

@[simp] theorem setLane_fresh (p : ℕ) (l : Lane T) : (g.setLane p l).fresh = g.fresh := rfl

@[simp] theorem setLane_last (p : ℕ) (l : Lane T) : (g.setLane p l).last = g.last := rfl

@[simp] theorem setLane_ring (p : ℕ) (l : Lane T) : (g.setLane p l).ring = g.ring := rfl

theorem last_mem : g.last ∈ g.front :: g.ahead := List.getLastD_mem_cons

theorem last_mem_ring : g.last ∈ g.ring := by
  have h := g.last_mem
  simp only [ring, List.mem_cons, List.mem_append] at h ⊢
  tauto

theorem alone (h : g.ring.length = 1) : g.ahead = [] ∧ g.free = [] := by
  have hlen : (g.ahead ++ g.free).length = 0 := by simpa [ring] using h
  exact List.append_eq_nil_iff.mp (List.length_eq_zero_iff.mp hlen)

/-- The tail block is the last of those in use. -/
theorem used_eq : ∃ before, g.front :: g.ahead = before ++ [g.last] := by
  refine ⟨(g.front :: g.ahead).dropLast, ?_⟩
  have hne : g.front :: g.ahead ≠ [] := List.cons_ne_nil _ _
  have hlast : (g.front :: g.ahead).getLast hne = g.last := List.getLast_eq_getLastD hne
  rw [← hlast, List.dropLast_append_getLast]

end Ghost

/-- Where a block links to. -/
def Queue.nextOf (q : Queue T) (p : ℕ) : Option ℕ := q.blocks[p]?.bind Block.next

/-- The memory of the queue is as the ghost state says. -/
structure Memory (q : Queue T) (g : Ghost T) : Prop where
  ring : Path q.nextOf g.ring g.front
  fresh : ∀ p ∈ g.fresh, q.nextOf p = q.nextOf g.last
  nodup : (g.ring ++ g.fresh).Nodup
  front : q.frontBlock = g.front
  tail : q.tailBlock = g.last
  all : (g.ring ++ g.fresh).length = q.blocks.length
  blocks : ∀ p ∈ g.ring ++ g.fresh, ∃ b, q.blocks[p]? = some b ∧ Represents b (g.lane p)

variable {q : Queue T} {g : Ghost T}

theorem Memory.block (h : Memory q g) {p : ℕ} (hp : p ∈ g.ring) :
    ∃ b, q.blocks[p]? = some b ∧ Represents b (g.lane p) := by
  exact h.blocks p (List.mem_append_left _ hp)

theorem Memory.ordered (h : Memory q g) {p : ℕ} (hp : p ∈ g.ring ++ g.fresh) :
    (g.lane p).Ordered := by
  obtain ⟨b, _, hb⟩ := h.blocks p hp
  exact hb.ordered

/-- Writing the inside of one block. -/
theorem Memory.store (h : Memory q g) {p : ℕ} {b b' : Block T} {l : Lane T}
    (hb : q.blocks[p]? = some b) (hrep : Represents b' l) (hnext : b'.next = b.next) :
    Memory (q.store p b') (g.setLane p l) := by
  have hlt : p < q.blocks.length := (List.getElem?_eq_some_iff.mp hb).1
  have hlinks : (q.store p b').nextOf = q.nextOf := by
    funext r
    by_cases hr : p = r
    · subst hr
      obtain ⟨_, rfl⟩ := List.getElem?_eq_some_iff.mp hb
      simp [Queue.nextOf, Queue.store, hlt, hnext]
    · simp [Queue.nextOf, Queue.store, hr]
  refine ⟨?_, ?_, h.nodup, h.front, h.tail, h.all.trans List.length_set.symm, ?_⟩
  · rw [hlinks]
    exact h.ring
  · rw [hlinks]
    exact h.fresh
  · intro r hr
    by_cases hrp : r = p
    · subst hrp
      exact ⟨b', by simp [Queue.store, hlt], by simpa using hrep⟩
    · obtain ⟨c, hc, hrepc⟩ := h.blocks r hr
      refine ⟨c, ?_, ?_⟩
      · rw [Queue.store, List.getElem?_set_ne (Ne.symm hrp), hc]
      · rw [Ghost.setLane_of_ne g hrp]
        exact hrepc

/-- The consumer goes on to the next block, and leaves its own to the producer. -/
theorem Memory.rotate (h : Memory q g) {n : ℕ} {rest : List ℕ} (hahead : g.ahead = n :: rest) :
    Memory { q with frontBlock := n }
      { g with front := n, ahead := rest, free := g.free ++ [g.front] } := by
  have hring : g.ring = g.front :: n :: (rest ++ g.free) := by
    simp [Ghost.ring, hahead]
  have hring' : Ghost.ring { g with front := n, ahead := rest, free := g.free ++ [g.front] } =
      n :: (rest ++ g.free ++ [g.front]) := by
    simp [Ghost.ring]
  have hlast : Ghost.last { g with front := n, ahead := rest, free := g.free ++ [g.front] } =
      g.last := by
    simp only [Ghost.last, hahead, List.getLastD_cons]
  have hperm : (n :: (rest ++ g.free ++ [g.front])).Perm (g.front :: n :: (rest ++ g.free)) := by
    rw [← List.cons_append]
    exact List.perm_append_singleton _ _
  refine ⟨?_, ?_, ?_, rfl, h.tail.trans hlast.symm, ?_, ?_⟩
  · rw [hring']
    have hpath := h.ring
    rw [hring] at hpath
    exact hpath.rotate
  · rw [hlast]
    exact h.fresh
  · rw [hring']
    have hnodup := h.nodup
    rw [hring] at hnodup
    exact (hperm.append_right g.fresh).nodup_iff.mpr hnodup
  · rw [hring', (hperm.append_right g.fresh).length_eq, ← hring]
    exact h.all
  · intro p hp
    rw [hring'] at hp
    refine h.blocks p ?_
    rw [hring]
    exact (hperm.append_right g.fresh).mem_iff.mp hp

/-- The producer goes on to the free block behind the tail. -/
theorem Memory.enter (h : Memory q g) {n : ℕ} {rest : List ℕ} (hfree : g.free = n :: rest)
    (hfresh : g.fresh = []) :
    Memory { q with tailBlock := n } { g with ahead := g.ahead ++ [n], free := rest } := by
  have hring : Ghost.ring { g with ahead := g.ahead ++ [n], free := rest } = g.ring := by
    simp [Ghost.ring, hfree]
  refine ⟨?_, ?_, ?_, h.front, ?_, ?_, ?_⟩
  · rw [hring]
    exact h.ring
  · simp [hfresh]
  · rw [hring]
    exact h.nodup
  · simp [Ghost.last]
  · rw [hring]
    exact h.all
  · rw [hring]
    exact h.blocks

/-- A new block that links to where the tail block does. -/
theorem Memory.allocate (h : Memory q g) (hfresh : g.fresh = []) {b : Block T} {l : Lane T}
    {largest : ℕ} (hnext : b.next = q.nextOf g.last) (hrep : Represents b l) :
    Memory { q with blocks := q.blocks ++ [b], largestBlockSize := largest }
      { g.setLane q.blocks.length l with fresh := [q.blocks.length] } := by
  have hold : ∀ p ∈ g.ring, p < q.blocks.length := by
    intro p hp
    obtain ⟨c, hc, _⟩ := h.block hp
    exact (List.getElem?_eq_some_iff.mp hc).1
  have hlinks : ∀ p ∈ g.ring, Queue.nextOf { q with
      blocks := q.blocks ++ [b], largestBlockSize := largest } p = q.nextOf p := by
    intro p hp
    simp [Queue.nextOf, List.getElem?_append_left (hold p hp)]
  refine ⟨h.ring.congr hlinks, ?_, ?_, h.front, h.tail, ?_, ?_⟩
  · intro p hp
    obtain rfl := List.mem_singleton.mp hp
    change _ = Queue.nextOf _ g.last
    rw [hlinks g.last g.last_mem_ring]
    simp [Queue.nextOf, hnext]
  · have hnodup := h.nodup
    rw [hfresh, List.append_nil] at hnodup
    refine List.nodup_append.mpr ⟨hnodup, List.nodup_singleton _, ?_⟩
    intro p hp r hr heq
    obtain rfl := List.mem_singleton.mp hr
    exact absurd (hold p hp) (by omega)
  · have hall := h.all
    rw [hfresh, List.append_nil] at hall
    simp only [List.length_append, List.length_singleton]
    exact congrArg Nat.succ hall
  · intro p hp
    rcases List.mem_append.mp hp with hp | hp
    · have hne : p ≠ q.blocks.length := (hold p hp).ne
      obtain ⟨c, hc, hrepc⟩ := h.block hp
      refine ⟨c, ?_, ?_⟩
      · rw [List.getElem?_append_left (hold p hp), hc]
      · change Represents c ((g.setLane q.blocks.length l).lane p)
        rw [Ghost.setLane_of_ne g hne]
        exact hrepc
    · obtain rfl := List.mem_singleton.mp hp
      refine ⟨b, by simp, ?_⟩
      change Represents b ((g.setLane q.blocks.length l).lane q.blocks.length)
      rw [Ghost.setLane_same]
      exact hrep

/-- The tail block links to the new block. -/
theorem Memory.link (h : Memory q g) {n : ℕ} (hfresh : g.fresh = [n]) {b : Block T}
    (hb : q.blocks[g.last]? = some b) :
    Memory (q.store g.last { b with next := some n })
      { g with free := n :: g.free, fresh := [] } := by
  have hlt : g.last < q.blocks.length := (List.getElem?_eq_some_iff.mp hb).1
  have hnodup := h.nodup
  have hlast : Queue.nextOf (q.store g.last { b with next := some n }) g.last = some n := by
    simp [Queue.nextOf, Queue.store, hlt]
  have hother : ∀ p, p ≠ g.last →
      Queue.nextOf (q.store g.last { b with next := some n }) p = q.nextOf p := by
    intro p hp
    simp [Queue.nextOf, Queue.store, hp.symm]
  obtain ⟨before, hused⟩ := g.used_eq
  have hring : g.ring = before ++ g.last :: g.free := by
    rw [Ghost.ring, ← List.cons_append, hused, List.append_assoc, List.singleton_append]
  have hring' : Ghost.ring { g with free := n :: g.free, fresh := [] } =
      before ++ g.last :: n :: g.free := by
    simp only [Ghost.ring]
    rw [← List.cons_append, hused, List.append_assoc, List.singleton_append]
  have hperm : (before ++ g.last :: n :: g.free).Perm (before ++ g.last :: g.free ++ [n]) := by
    rw [List.append_assoc]
    refine List.Perm.append_left before ?_
    rw [List.cons_append]
    exact List.Perm.cons _ (List.perm_append_singleton n g.free).symm
  have hne : n ≠ g.last := by
    rw [hfresh, List.nodup_append] at hnodup
    exact (hnodup.2.2 g.last g.last_mem_ring n List.mem_cons_self).symm
  rw [hring, hfresh] at hnodup
  refine ⟨?_, by simp, ?_, h.front, h.tail, ?_, ?_⟩
  · rw [hring']
    have hpath := h.ring
    rw [hring] at hpath
    have hsplit := List.nodup_append.mp (List.nodup_append.mp hnodup).1
    refine hpath.insert hlast ?_ ?_ ?_
    · rw [hother n hne]
      exact h.fresh n (by rw [hfresh]; exact List.mem_cons_self)
    · intro p hp
      exact hother p (hsplit.2.2 p hp g.last List.mem_cons_self)
    · intro p hp
      refine hother p ?_
      rintro rfl
      exact (List.nodup_cons.mp hsplit.2.1).1 hp
  · rw [hring', List.append_nil]
    exact hperm.nodup_iff.mpr hnodup
  · have hall := h.all
    rw [hring, hfresh] at hall
    rw [hring', List.append_nil, hperm.length_eq, hall]
    exact List.length_set.symm
  · intro p hp
    rw [hring', List.append_nil] at hp
    have hmem : p ∈ g.ring ++ g.fresh := by
      rw [hring, hfresh]
      exact hperm.mem_iff.mp hp
    by_cases hpl : p = g.last
    · subst hpl
      obtain ⟨c, hc, hrep⟩ := h.blocks g.last hmem
      obtain rfl := Option.some.inj (hc.symm.trans hb)
      refine ⟨{ c with next := some n }, by simp [Queue.store, hlt], ?_⟩
      exact ⟨hrep.data_length, hrep.power, hrep.mask, hrep.front, hrep.localTail, hrep.tail,
        hrep.localFront, hrep.shows, hrep.ordered⟩
    · obtain ⟨c, hc, hrep⟩ := h.blocks p hmem
      refine ⟨c, ?_, hrep⟩
      rw [Queue.store, List.getElem?_set_ne (Ne.symm hpl), hc]

end EsSensor.ReaderWriterQueue
