import EsSensor.Library.BitSmear
import EsSensor.QueueConsumer
import EsSensor.QueueProducer

/-!
The queue as its constructor leaves it: a ring of empty blocks of one size, with
room for as many elements as were asked for beside the block that is being read.
-/
namespace EsSensor.ReaderWriterQueue

open AtomicFifo BitSmear LinkedRing MachineWord

variable {T : Type}

/-- What the constructor asserts of its arguments, where their sum is no larger
than memory can be. -/
structure Sizes (MAX_BLOCK_SIZE maxSize : ℕ) : Prop where
  maxSize_pos : 0 < maxSize
  power : ∃ m, MAX_BLOCK_SIZE = 2 ^ m
  two_le : 2 ≤ MAX_BLOCK_SIZE
  block_le : MAX_BLOCK_SIZE ≤ 2 ^ 62
  maxSize_lt : maxSize < 2 ^ 63

/-- The shifts of `ceilToPow2` reach every bit of a word. -/
theorem ceilToPow2_eq {x : ℕ} (hx : 1 ≤ x) (hle : x ≤ 2 ^ 63) :
    ceilToPow2 x = 2 ^ (x - 1).size := by
  have hshifts : ceilToPow2Shifts = doublings 6 := by decide
  have hsub : u64Sub x 1 = x - 1 := by
    have hone : u64 1 = 1 := u64_of_lt (by norm_num)
    have hsum : x + (2 ^ 64 - 1) = x - 1 + 2 ^ 64 := by omega
    rw [u64Sub, hone, hsum, u64, Nat.add_mod_right, Nat.mod_eq_of_lt (by omega)]
  have hword : x - 1 < 2 ^ 2 ^ 6 := by
    have : (2 : ℕ) ^ 2 ^ 6 = 2 ^ 64 := by norm_num
    omega
  have hpos : 1 ≤ 2 ^ (x - 1).size := Nat.one_le_two_pow
  have hbound : 2 ^ (x - 1).size ≤ 2 ^ 63 := two_pow_size_le hx hle
  have hsmear := smear_eq hword
  rw [ceilToPow2, hshifts, hsub]
  change u64 (smear (doublings 6) (x - 1) + 1) = _
  rw [hsmear, Nat.sub_add_cancel hpos, u64_of_lt (by omega)]

/-- `ceilToPow2` is the least power of two that is not below its argument. -/
theorem ceilToPow2_least {x : ℕ} (hx : 1 ≤ x) (hle : x ≤ 2 ^ 63) :
    (∃ k ≤ 63, ceilToPow2 x = 2 ^ k) ∧ x ≤ ceilToPow2 x ∧
      ∀ k, x ≤ 2 ^ k → ceilToPow2 x ≤ 2 ^ k := by
  rw [ceilToPow2_eq hx hle]
  have hsize : (x - 1).size ≤ 63 := by
    rw [Nat.size_le]
    omega
  exact ⟨⟨_, hsize, rfl⟩, le_two_pow_size hx, fun k hk => two_pow_size_le hx hk⟩

/-- The ring of `n` blocks as the constructor's loop leaves it. -/
def emptyRing (capacity n : ℕ) : List (Block T) :=
  (List.range n).map (fun i =>
    { makeBlock capacity with next := some (if i + 1 = n then 0 else i + 1) })

theorem appendBlock_emptyRing (capacity n : ℕ) :
    appendBlock capacity (emptyRing (T := T) capacity n) = emptyRing capacity (n + 1) := by
  refine List.ext_getElem? ?_
  intro i
  have hlen : (emptyRing (T := T) capacity n).length = n := by simp [emptyRing]
  rw [appendBlock, hlen]
  rcases Nat.lt_trichotomy i n with hlt | rfl | hgt
  · rw [List.getElem?_append_left (by simpa [hlen] using hlt), List.getElem?_modify]
    by_cases hlast : i + 1 = n
    · have heq : n - 1 = i := by omega
      simp [emptyRing, hlt, hlast, heq, Nat.lt_succ_of_lt hlt]
      omega
    · have hne : n - 1 ≠ i := by omega
      simp [emptyRing, hlt, hlast, hne, Nat.lt_succ_of_lt hlt]
      omega
  · rw [List.getElem?_append_right (by simp [hlen])]
    simp [emptyRing]
  · rw [List.getElem?_eq_none (by simp [hlen]; omega),
      List.getElem?_eq_none (by simp [emptyRing]; omega)]

theorem iterate_appendBlock (capacity n : ℕ) :
    (appendBlock capacity)^[n] ([] : List (Block T)) = emptyRing capacity n := by
  induction n with
  | zero => rfl
  | succ n ih => rw [Function.iterate_succ_apply', ih, appendBlock_emptyRing]

/-- What the constructor builds, with `n` blocks of one size. -/
theorem construct_eq {MAX_BLOCK_SIZE maxSize : ℕ} (h : Sizes MAX_BLOCK_SIZE maxSize) :
    ∃ size n, (∃ k ≤ 63, size = 2 ^ k) ∧ 2 ≤ size ∧ 1 ≤ n ∧
      maxSize ≤ (size - 1) * max 1 (n - 1) ∧
      construct (T := T) MAX_BLOCK_SIZE maxSize =
        { blocks := emptyRing size n, frontBlock := 0, tailBlock := 0,
          largestBlockSize := size } := by
  have := h.maxSize_pos
  have := h.maxSize_lt
  have := h.block_le
  have := h.two_le
  have hplus : u64 (maxSize + 1) = maxSize + 1 := u64_of_lt (by omega)
  have hmax : u64 (MAX_BLOCK_SIZE * 2) = MAX_BLOCK_SIZE * 2 := u64_of_lt (by omega)
  obtain ⟨hpow, hle, hleast⟩ := ceilToPow2_least (x := maxSize + 1) (by omega) (by omega)
  unfold construct
  rw [hplus, hmax]
  by_cases hmany : MAX_BLOCK_SIZE * 2 < ceilToPow2 (maxSize + 1)
  · have hsum : u64 (maxSize + MAX_BLOCK_SIZE * 2) = maxSize + MAX_BLOCK_SIZE * 2 :=
      u64_of_lt (by omega)
    have hthree : u64 3 = 3 := u64_of_lt (by norm_num)
    have hsub : u64Sub (maxSize + MAX_BLOCK_SIZE * 2) 3 = maxSize + MAX_BLOCK_SIZE * 2 - 3 := by
      have hwrap : maxSize + MAX_BLOCK_SIZE * 2 + (2 ^ 64 - 3) =
        maxSize + MAX_BLOCK_SIZE * 2 - 3 + 2 ^ 64 := by omega
      rw [u64Sub, hthree, hwrap, u64, Nat.add_mod_right, Nat.mod_eq_of_lt (by omega)]
    let n := (maxSize + MAX_BLOCK_SIZE * 2 - 3) / (MAX_BLOCK_SIZE - 1)
    have hpower : ∃ k ≤ 63, MAX_BLOCK_SIZE = 2 ^ k := by
      obtain ⟨m, hm⟩ := h.power
      have hlt : 2 ^ m < 2 ^ 63 := by omega
      exact ⟨m, ((Nat.pow_lt_pow_iff_right (by omega)).mp hlt).le, hm⟩
    have hdiv := Nat.lt_mul_div_succ (maxSize + MAX_BLOCK_SIZE * 2 - 3)
      (show 0 < MAX_BLOCK_SIZE - 1 by omega)
    have hn : 1 ≤ n := (Nat.one_le_div_iff (by omega)).mpr (by omega)
    refine ⟨MAX_BLOCK_SIZE, n, hpower, h.two_le, hn, ?_, ?_⟩
    · have hstep : (MAX_BLOCK_SIZE - 1) * (n - 1 + 2) =
          (MAX_BLOCK_SIZE - 1) * (n - 1) + (MAX_BLOCK_SIZE - 1) * 2 := Nat.mul_add _ _ _
      have hsame : n - 1 + 2 = n + 1 := by omega
      rw [hsame] at hstep
      change _ < (MAX_BLOCK_SIZE - 1) * (n + 1) at hdiv
      have hmono : (MAX_BLOCK_SIZE - 1) * (n - 1) ≤ (MAX_BLOCK_SIZE - 1) * max 1 (n - 1) :=
        Nat.mul_le_mul_left _ (Nat.le_max_right _ _)
      omega
    · rw [if_pos hmany, hsum, hsub]
      simp only [iterate_appendBlock, n]
  · refine ⟨ceilToPow2 (maxSize + 1), 1, hpow, by omega, Nat.le_refl 1, by simp; omega, ?_⟩
    rw [if_neg hmany]
    rfl

/-- A stretch of blocks that each link to the one with the next number. -/
theorem path_range' {next : ℕ → Option ℕ} {stop n : ℕ} (a m : ℕ) (hm : a + m = n)
    (hnext : ∀ i, a ≤ i → i < n → next i = some (if i + 1 = n then stop else i + 1)) :
    Path next (List.range' a m) stop := by
  induction m generalizing a with
  | zero => exact trivial
  | succ m ih =>
    refine ⟨?_, ih (a + 1) (by omega) (fun i hi => hnext i (by omega))⟩
    rw [hnext a (Nat.le_refl a) (by omega)]
    cases m with
    | zero => simp [show a + 1 = n by omega]
    | succ m => simp [List.range'_succ, show a + 1 ≠ n by omega]

/-- The state of a ring of empty blocks. -/
def emptyGhost (size n : ℕ) : Ghost T where
  lane := fun _ =>
    { size := size, history := [], seenFront := 0, front := 0, taken := 0, seenTail := 0,
      tail := 0 }
  front := 0
  ahead := []
  free := List.range' 1 (n - 1)
  fresh := []
  writing := none
  entering := none
  taking := none
  fifo := AtomicFifo.start

theorem emptyGhost_ring (size : ℕ) {n : ℕ} (hn : 1 ≤ n) :
    (emptyGhost (T := T) size n).ring = List.range' 0 n := by
  obtain ⟨m, rfl⟩ : ∃ m, n = m + 1 := ⟨n - 1, by omega⟩
  rfl

theorem start_holds {MAX_BLOCK_SIZE maxSize : ℕ} (h : Sizes MAX_BLOCK_SIZE maxSize) :
    ∃ least, RelyGuarantee.Holds (Inv maxSize least) (ProducerKnows maxSize least) ConsumerKnows
      (start (T := T) MAX_BLOCK_SIZE maxSize) := by
  obtain ⟨size, n, ⟨k, hk63, hk⟩, htwo, hn, hroom, hconstruct⟩ :=
    construct_eq (T := T) h
  have hring := emptyGhost_ring (T := T) size hn
  have hblock : ∀ i, i < n → (emptyRing (T := T) size n)[i]? =
      some { makeBlock size with next := some (if i + 1 = n then 0 else i + 1) } := by
    intro i hi
    simp [emptyRing, hi]
  rw [start, hconstruct]
  refine ⟨size, emptyGhost size n,
    ⟨⟨?_, ?_, ?_, ?_, ?_, ?_, ?_⟩, ⟨?_, ?_, ?_, ?_, ?_, ?_⟩, ?_, htwo, ?_, ?_⟩,
    ⟨⟨rfl, rfl, rfl⟩, rfl⟩, rfl, rfl⟩
  · rw [hring]
    refine path_range' (n := n) 0 n (Nat.zero_add n) ?_
    intro i _ hi
    rw [Queue.nextOf, hblock i hi, Option.bind_some]
    rfl
  · simp [emptyGhost]
  · rw [hring]
    simpa [emptyGhost] using List.nodup_range'
  · rfl
  · rfl
  · rw [hring]
    simp [emptyGhost, emptyRing]
  · intro p hp
    rw [hring] at hp
    have hlt : p < n := by simpa [emptyGhost] using hp
    exact ⟨_, hblock p hlt, represents_makeBlock hk63 hk _⟩
  · intro p hp
    exact ⟨rfl, rfl, fun _ => rfl, fun hp => by simp [emptyGhost] at hp,
      fun hp => by simp [emptyGhost] at hp, Nat.le_refl _⟩
  · intro p hp
    simp [emptyGhost] at hp
  · intro p hp
    simp [emptyGhost] at hp
  · exact fun hne => absurd rfl hne
  · rw [hring, List.length_range']
    exact hroom
  · rfl
  · rfl
  · exact Nat.le_refl _
  · exact ⟨k, hk63, hk⟩

end EsSensor.ReaderWriterQueue
