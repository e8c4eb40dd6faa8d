import EsSensor.ReaderWriterQueue

/-!
What stands behind one block: every element that was ever put there, and counters
that never wrap. The block's indices are the counters round its size, and its
slots are a window on the elements.
-/
namespace EsSensor.ReaderWriterQueue

open SlotWindow

/-- `seenFront` and `seenTail` are what each side last saw of the other. An element
is taken before `front` moves past it, and constructed before `tail` does. -/
structure Lane (T : Type) where
  size : ℕ
  history : List T
  seenFront : ℕ
  front : ℕ
  taken : ℕ
  seenTail : ℕ
  tail : ℕ

variable {T : Type} {b : Block T} {l : Lane T}

/-- The elements that the consumer may still take. -/
def Lane.live (l : Lane T) : List T := (l.history.take l.tail).drop l.front

structure Lane.Ordered (l : Lane T) : Prop where
  seenFront_le : l.seenFront ≤ l.front
  front_le : l.front ≤ l.taken
  taken_le : l.taken ≤ l.seenTail
  seenTail_le : l.seenTail ≤ l.tail
  tail_le : l.tail ≤ l.history.length
  history_lt : l.history.length < l.seenFront + l.size

structure Represents (b : Block T) (l : Lane T) : Prop where
  data_length : b.data.length = l.size
  power : ∃ k ≤ 63, l.size = 2 ^ k
  mask : b.sizeMask = l.size - 1
  front : b.front = l.front % l.size
  localTail : b.localTail = l.seenTail % l.size
  tail : b.tail = l.tail % l.size
  localFront : b.localFront = l.seenFront % l.size
  shows : Shows b.data l.taken l.history
  ordered : l.Ordered

theorem Represents.next_index (h : Represents b l) (n : ℕ) :
    (n % l.size + 1) &&& b.sizeMask = (n + 1) % l.size := by
  obtain ⟨k, _, hk⟩ := h.power
  rw [h.mask, succ_and_mask hk]

/-- Two counters of a lane that are less than a turn apart are equal when their
indices are. -/
theorem index_eq_iff {size m n : ℕ} (hmn : m ≤ n) (hn : n < m + size) :
    m % size = n % size ↔ m = n := by
  constructor
  · intro heq
    by_contra hne
    exact mod_ne_of_lt (by omega) hn heq
  · intro heq
    rw [heq]

/-- The producer sees room exactly where a turn is not complete. -/
theorem index_full_iff {size m n : ℕ} (hmn : m ≤ n) (hn : n < m + size) :
    (n + 1) % size = m % size ↔ n + 1 = m + size := by
  constructor
  · intro heq
    by_contra hne
    exact mod_ne_of_lt (by omega) (by omega) heq.symm
  · intro heq
    rw [heq, Nat.add_mod_right]

theorem Represents.see_front (h : Represents b l) :
    Represents { b with localFront := b.front } { l with seenFront := l.front } where
  data_length := h.data_length
  power := h.power
  mask := h.mask
  front := h.front
  localTail := h.localTail
  tail := h.tail
  localFront := h.front
  shows := h.shows
  ordered := by
    have ho := h.ordered
    exact ⟨Nat.le_refl _, ho.front_le, ho.taken_le, ho.seenTail_le, ho.tail_le,
      by have := ho.history_lt; have := ho.seenFront_le; dsimp only; omega⟩

theorem Represents.see_tail (h : Represents b l) :
    Represents { b with localTail := b.tail } { l with seenTail := l.tail } where
  data_length := h.data_length
  power := h.power
  mask := h.mask
  front := h.front
  localTail := h.tail
  tail := h.tail
  localFront := h.localFront
  shows := h.shows
  ordered := by
    have ho := h.ordered
    exact ⟨ho.seenFront_le, ho.front_le, ho.taken_le.trans ho.seenTail_le, Nat.le_refl _,
      ho.tail_le, ho.history_lt⟩

/-- Where the producer has seen room, the next slot is empty. -/
theorem Represents.construct (h : Represents b l)
    (hroom : l.history.length + 1 < l.seenFront + l.size) (x : T) :
    ∃ data, SlotWindow.construct b.data (l.history.length % l.size) x = some data ∧
      Represents { b with data := data } { l with history := l.history ++ [x] } := by
  have ho := h.ordered
  have hlow : l.taken ≤ l.history.length :=
    ho.taken_le.trans (ho.seenTail_le.trans ho.tail_le)
  have hspace : l.history.length < l.taken + b.data.length := by
    rw [h.data_length]
    have := ho.seenFront_le
    have := ho.front_le
    omega
  obtain ⟨data, hdata, hlen, hshows⟩ := h.shows.construct hlow hspace x
  rw [h.data_length] at hdata hlen
  refine ⟨data, hdata, hlen, h.power, h.mask, h.front, h.localTail, h.tail, h.localFront,
    hshows, ho.seenFront_le, ho.front_le, ho.taken_le, ho.seenTail_le, ?_, ?_⟩
  · change l.tail ≤ (l.history ++ [x]).length
    rw [List.length_append]
    exact Nat.le_add_right_of_le ho.tail_le
  · rw [List.length_append, List.length_singleton]
    exact hroom

theorem Represents.publish (h : Represents b l) (hnew : l.tail < l.history.length) :
    Represents { b with tail := (l.tail + 1) % l.size } { l with tail := l.tail + 1 } where
  data_length := h.data_length
  power := h.power
  mask := h.mask
  front := h.front
  localTail := h.localTail
  tail := rfl
  localFront := h.localFront
  shows := h.shows
  ordered := by
    have ho := h.ordered
    exact ⟨ho.seenFront_le, ho.front_le, ho.taken_le, Nat.le_succ_of_le ho.seenTail_le, hnew,
      ho.history_lt⟩

/-- What the consumer has seen behind the front is there to be looked at. -/
theorem Represents.look (h : Represents b l) (htaken : l.taken = l.front)
    {x : T} (hx : l.history[l.front]? = some x) :
    SlotWindow.look b.data (l.front % l.size) = some x := by
  have ho := h.ordered
  have hlt : l.front < l.history.length := (List.getElem?_eq_some_iff.mp hx).1
  have hsize : l.front < l.taken + b.data.length := by
    rw [h.data_length]
    have := ho.history_lt
    have := ho.seenFront_le
    have := ho.front_le
    omega
  have hlook := h.shows.look (by omega) hsize hx
  rwa [h.data_length] at hlook

theorem Represents.destroy (h : Represents b l) (htaken : l.taken = l.front)
    (hseen : l.front < l.seenTail) {x : T} (hx : l.history[l.front]? = some x) :
    ∃ data, SlotWindow.destroy b.data (l.front % l.size) = some (x, data) ∧
      Represents { b with data := data } { l with taken := l.taken + 1 } := by
  have ho := h.ordered
  rw [← htaken] at hx
  have hspace : l.history.length ≤ l.taken + b.data.length := by
    rw [h.data_length]
    have := ho.history_lt
    have := ho.seenFront_le
    have := ho.front_le
    omega
  obtain ⟨data, hdata, hlen, hshows⟩ := h.shows.destroy hspace hx
  rw [h.data_length] at hdata hlen
  rw [htaken] at hdata
  refine ⟨data, hdata, hlen, h.power, h.mask, h.front, h.localTail, h.tail, h.localFront,
    hshows, ho.seenFront_le, ?_, ?_, ho.seenTail_le, ho.tail_le, ho.history_lt⟩
  · exact Nat.le_succ_of_le ho.front_le
  · change l.taken + 1 ≤ l.seenTail
    omega

theorem Represents.bump (h : Represents b l) (htaken : l.front < l.taken) :
    Represents { b with front := (l.front + 1) % l.size } { l with front := l.front + 1 } where
  data_length := h.data_length
  power := h.power
  mask := h.mask
  front := rfl
  localTail := h.localTail
  tail := h.tail
  localFront := h.localFront
  shows := h.shows
  ordered := by
    have ho := h.ordered
    exact ⟨Nat.le_succ_of_le ho.seenFront_le, htaken, ho.taken_le, ho.seenTail_le, ho.tail_le,
      ho.history_lt⟩

/-- A block as `make_block` leaves it. -/
theorem represents_makeBlock {capacity k : ℕ} (hk : k ≤ 63) (hcapacity : capacity = 2 ^ k)
    (next : Option ℕ) :
    Represents { makeBlock (T := T) capacity with next := next }
      { size := capacity, history := [], seenFront := 0, front := 0, taken := 0, seenTail := 0,
        tail := 0 } := by
  have hpos : 0 < capacity := by rw [hcapacity]; exact Nat.two_pow_pos k
  refine ⟨List.length_replicate, ⟨k, hk, hcapacity⟩, rfl, ?_, ?_, ?_, ?_, shows_replicate capacity,
    ⟨Nat.le_refl _, Nat.le_refl _, Nat.le_refl _, Nat.le_refl _, Nat.le_refl _, ?_⟩⟩
  · exact (Nat.zero_mod capacity).symm
  · exact (Nat.zero_mod capacity).symm
  · exact (Nat.zero_mod capacity).symm
  · exact (Nat.zero_mod capacity).symm
  · simpa using hpos

theorem Lane.live_length (l : Lane T) (hl : l.Ordered) : l.live.length = l.tail - l.front := by
  rw [Lane.live, List.length_drop, List.length_take, Nat.min_eq_left hl.tail_le]

/-- An element that is constructed and not yet published is not live. -/
theorem Lane.live_construct (hl : l.Ordered) (x : T) :
    Lane.live { l with history := l.history ++ [x] } = l.live := by
  simp only [Lane.live]
  rw [List.take_append_of_le_length hl.tail_le]

theorem Lane.live_publish (hl : l.Ordered) {x : T} (hx : l.history[l.tail]? = some x) :
    Lane.live { l with tail := l.tail + 1 } = l.live ++ [x] := by
  have hle : l.front ≤ (l.history.take l.tail).length := by
    rw [List.length_take, Nat.min_eq_left hl.tail_le]
    exact hl.front_le.trans (hl.taken_le.trans hl.seenTail_le)
  simp only [Lane.live, List.take_add_one, hx, Option.toList_some]
  rw [List.drop_append_of_le_length hle]

theorem Lane.live_eq_cons {x : T} (hx : l.history[l.front]? = some x) (hlt : l.front < l.tail) :
    l.live = x :: Lane.live { l with front := l.front + 1 } := by
  have hget : (l.history.take l.tail)[l.front]? = some x := by
    rw [List.getElem?_take_of_lt hlt, hx]
  obtain ⟨hbound, rfl⟩ := List.getElem?_eq_some_iff.mp hget
  exact (List.drop_eq_getElem_cons hbound)

theorem Lane.live_eq_nil (h : l.front = l.tail) : l.live = [] := by
  rw [Lane.live, List.drop_eq_nil_iff, List.length_take, h]
  exact Nat.min_le_left _ _

end EsSensor.ReaderWriterQueue
