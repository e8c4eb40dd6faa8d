import EsSensor.QueueHistory

/-!
No call waits for the other thread: each of its own steps brings it nearer to its
answer.
-/
namespace EsSensor.ReaderWriterQueue

open AtomicFifo

variable {T : Type}

/-- How many steps the producer's call has left at most. -/
def Enqueue.rank : Enqueue T → ℕ
  | .idle => 0
  | .publish .. | .advance .. => 1
  | .construct .. | .publishNext .. | .link .. => 2
  | .constructNext .. | .allocate .. => 3
  | .enterNext .. => 4
  | .compareNext .. => 5
  | .readFront .. => 6
  | .start .. => 7

/-- How many steps a removal has left at most; a size is not bounded so. -/
def Dequeue.rank : Dequeue T → ℕ
  | .idle | .measure .. | .measureNext .. => 0
  | .bump .. | .look .. => 1
  | .take .. => 2
  | .advance .. => 3
  | .readNextTail .. => 4
  | .readNext .. => 5
  | .rereadTail .. => 6
  | .readTailBlock .. => 7
  | .readTail .. => 8
  | .start .. => 9

/-- Where a step of `inner_enqueue` leads, and what it answers. -/
inductive EnqueueMove : Bool → Enqueue T → Enqueue T → List (Event T) → Prop
  | idle (memory) : EnqueueMove memory .idle .idle []
  | room (memory mode x t i n) : EnqueueMove memory (.start mode x) (.construct x t i n) []
  | full (memory mode x t i n) : EnqueueMove memory (.start mode x) (.readFront mode x t i n) []
  | moreRoom (memory mode x t i n) :
    EnqueueMove memory (.readFront mode x t i n) (.construct x t i n) []
  | stillFull (memory mode x t i n) :
    EnqueueMove memory (.readFront mode x t i n) (.compareNext mode x t) []
  | construct (memory x t i n) : EnqueueMove memory (.construct x t i n) (.publish x t n) []
  | publish (memory x t n) : EnqueueMove memory (.publish x t n) .idle [.accepted x]
  | freeBlock (memory mode x t n) : EnqueueMove memory (.compareNext mode x t) (.enterNext x n) []
  | noBlock (memory x t) : EnqueueMove memory (.compareNext .canAlloc x t) (.allocate x t) []
  | refuse (memory x t) : EnqueueMove memory (.compareNext .cannotAlloc x t) .idle [.refused]
  | enterNext (memory x n i) : EnqueueMove memory (.enterNext x n) (.constructNext x n i) []
  | constructNext (memory x n i) :
    EnqueueMove memory (.constructNext x n i) (.publishNext x n i) []
  | publishNext (memory x n i) : EnqueueMove memory (.publishNext x n i) (.advance x n) []
  | allocate (x t n) : EnqueueMove true (.allocate x t) (.link x t n) [.grown]
  | noMemory (x t) : EnqueueMove false (.allocate x t) .idle [.refused]
  | link (memory x t n) : EnqueueMove memory (.link x t n) (.advance x n) []
  | advance (memory x n) : EnqueueMove memory (.advance x n) .idle [.accepted x]

theorem innerEnqueue_move {MAX_BLOCK_SIZE : ℕ} {memory : Bool} {pc pc' : Enqueue T}
    {q q' : Queue T} {events : List (Event T)}
    (hstep : innerEnqueue MAX_BLOCK_SIZE memory pc q = some (pc', q', events)) :
    EnqueueMove memory pc pc' events := by
  cases pc with
  | idle =>
    cases hstep
    exact .idle memory
  | advance x n =>
    cases hstep
    exact .advance memory x n
  | allocate x t =>
    cases memory with
    | false =>
      cases hstep
      exact .noMemory x t
    | true =>
      obtain ⟨b, _, hrest⟩ := Option.bind_eq_some_iff.mp hstep
      obtain ⟨data, _, hend⟩ := Option.bind_eq_some_iff.mp hrest
      cases hend
      exact .allocate x t _
  | compareNext mode x t =>
    obtain ⟨b, _, hrest⟩ := Option.bind_eq_some_iff.mp hstep
    split at hrest
    · obtain ⟨n, _, hend⟩ := Option.bind_eq_some_iff.mp hrest
      cases hend
      exact .freeBlock memory mode x t n
    · cases mode <;> cases hrest
      · exact .noBlock memory x t
      · exact .refuse memory x t
  | start mode x =>
    obtain ⟨b, _, hrest⟩ := Option.bind_eq_some_iff.mp hstep
    dsimp only at hrest
    split at hrest <;> cases hrest
    · exact .room memory mode x _ _ _
    · exact .full memory mode x _ _ _
  | readFront mode x t i n =>
    obtain ⟨b, _, hrest⟩ := Option.bind_eq_some_iff.mp hstep
    split at hrest <;> cases hrest
    · exact .moreRoom memory mode x t i n
    · exact .stillFull memory mode x t i n
  | construct x t i n =>
    obtain ⟨b, _, hrest⟩ := Option.bind_eq_some_iff.mp hstep
    obtain ⟨data, _, hend⟩ := Option.bind_eq_some_iff.mp hrest
    cases hend
    exact .construct memory x t i n
  | constructNext x t n =>
    obtain ⟨b, _, hrest⟩ := Option.bind_eq_some_iff.mp hstep
    obtain ⟨data, _, hend⟩ := Option.bind_eq_some_iff.mp hrest
    cases hend
    exact .constructNext memory x t n
  | enterNext x t =>
    obtain ⟨b, _, hrest⟩ := Option.bind_eq_some_iff.mp hstep
    split at hrest <;> cases hrest
    exact .enterNext memory x t _
  | publish x t n =>
    obtain ⟨b, _, hrest⟩ := Option.bind_eq_some_iff.mp hstep
    cases hrest
    exact .publish memory x t n
  | publishNext x t n =>
    obtain ⟨b, _, hrest⟩ := Option.bind_eq_some_iff.mp hstep
    cases hrest
    exact .publishNext memory x t n
  | link x t n =>
    obtain ⟨b, _, hrest⟩ := Option.bind_eq_some_iff.mp hstep
    cases hrest
    exact .link memory x t n

/-- Every step of a call leaves fewer. -/
theorem EnqueueMove.rank_lt {memory : Bool} {pc pc' : Enqueue T} {events : List (Event T)}
    (h : EnqueueMove memory pc pc' events) (hpc : pc.rank ≠ 0) : pc'.rank < pc.rank := by
  cases h with
  | idle => exact absurd rfl hpc
  | _ => simp [Enqueue.rank]

/-- Where a step of the consumer leads, and what it answers. -/
inductive DequeueMove : Dequeue T → Dequeue T → List (Event T) → Prop
  | idle : DequeueMove .idle .idle []
  | known (op f i) : DequeueMove (.start op) (nonEmptyFrontBlock op f i) []
  | unknown (op f i) : DequeueMove (.start op) (.readTail op f i) []
  | found (op f i) : DequeueMove (.readTail op f i) (nonEmptyFrontBlock op f i) []
  | noneFound (op f i) : DequeueMove (.readTail op f i) (.readTailBlock op f) []
  | moreBlocks (op f) : DequeueMove (.readTailBlock op f) (.rereadTail op) []
  | empty (op f) : DequeueMove (.readTailBlock op f) .idle [.empty]
  | foundLate (op f i) : DequeueMove (.rereadTail op) (nonEmptyFrontBlock op f i) []
  | drained (op f) : DequeueMove (.rereadTail op) (.readNext op f) []
  | readNext (op f n i) : DequeueMove (.readNext op f) (.readNextTail op n i) []
  | peekNext (n i) : DequeueMove (.readNextTail .peek n i) (.look n i) []
  | enterNext (op n i) : DequeueMove (.readNextTail op n i) (.advance op n i) []
  | advance (op n i) : DequeueMove (.advance op n i) (.take n i) []
  | look (x f i) : DequeueMove (.look f i) .idle [.seen x]
  | take (x f i j) : DequeueMove (.take f i) (.bump x f j) []
  | bump (x f i) : DequeueMove (.bump x f i) .idle [.taken x]
  | measure (f p r r') : DequeueMove (.measure f p r) (.measureNext f p r') []
  | measureNext (f p n r) : DequeueMove (.measureNext f p r) (.measure f n r) []
  | measured (f p r) : DequeueMove (.measureNext f p r) .idle [.measured r]

theorem consumerStep_move {pc pc' : Dequeue T} {q q' : Queue T} {events : List (Event T)}
    (hstep : consumerStep pc q = some (pc', q', events)) : DequeueMove pc pc' events := by
  cases pc with
  | idle =>
    cases hstep
    exact .idle
  | start op =>
    obtain ⟨b, _, hrest⟩ := Option.bind_eq_some_iff.mp hstep
    split at hrest <;> cases hrest
    · exact .known op _ _
    · exact .unknown op _ _
  | readTail op f i =>
    obtain ⟨b, _, hrest⟩ := Option.bind_eq_some_iff.mp hstep
    split at hrest <;> cases hrest
    · exact .found op f i
    · exact .noneFound op f i
  | readTailBlock op f =>
    rw [consumerStep] at hstep
    split at hstep <;> cases hstep
    · exact .moreBlocks op f
    · exact .empty op f
  | rereadTail op =>
    obtain ⟨b, _, hrest⟩ := Option.bind_eq_some_iff.mp hstep
    split at hrest <;> cases hrest
    · exact .foundLate op _ _
    · exact .drained op _
  | readNext op f =>
    obtain ⟨b, _, hrest⟩ := Option.bind_eq_some_iff.mp hstep
    obtain ⟨n, _, hrest⟩ := Option.bind_eq_some_iff.mp hrest
    obtain ⟨c, _, hrest⟩ := Option.bind_eq_some_iff.mp hrest
    cases hrest
    exact .readNext op f n _
  | readNextTail op n i =>
    obtain ⟨c, _, hrest⟩ := Option.bind_eq_some_iff.mp hstep
    split at hrest
    · cases op <;> cases hrest
      · exact .enterNext _ n i
      · exact .enterNext _ n i
      · exact .peekNext n i
    · cases hrest
  | advance op n i =>
    cases hstep
    exact .advance op n i
  | look f i =>
    obtain ⟨b, _, hrest⟩ := Option.bind_eq_some_iff.mp hstep
    obtain ⟨x, _, hrest⟩ := Option.bind_eq_some_iff.mp hrest
    cases hrest
    exact .look x f i
  | take f i =>
    obtain ⟨b, _, hrest⟩ := Option.bind_eq_some_iff.mp hstep
    obtain ⟨x, _, hrest⟩ := Option.bind_eq_some_iff.mp hrest
    cases hrest
    exact .take x.1 f i _
  | bump x f i =>
    obtain ⟨b, _, hrest⟩ := Option.bind_eq_some_iff.mp hstep
    cases hrest
    exact .bump x f i
  | measure f p r =>
    obtain ⟨b, _, hrest⟩ := Option.bind_eq_some_iff.mp hstep
    cases hrest
    exact .measure f p r _
  | measureNext f p r =>
    obtain ⟨b, _, hrest⟩ := Option.bind_eq_some_iff.mp hstep
    obtain ⟨n, _, hrest⟩ := Option.bind_eq_some_iff.mp hrest
    split at hrest <;> cases hrest
    · exact .measureNext f p n r
    · exact .measured f p r

theorem nonEmptyFrontBlock_rank (op : Removal) (f n : ℕ) :
    (nonEmptyFrontBlock op f n : Dequeue T).rank ≤ 2 := by
  cases op <;> simp [nonEmptyFrontBlock, Dequeue.rank]

theorem DequeueMove.rank_lt {pc pc' : Dequeue T} {events : List (Event T)}
    (h : DequeueMove pc pc' events) (hpc : pc.rank ≠ 0) : pc'.rank < pc.rank := by
  have hfound := nonEmptyFrontBlock_rank (T := T)
  cases h with
  | idle => exact absurd rfl hpc
  | measure => exact absurd rfl hpc
  | measureNext => exact absurd rfl hpc
  | measured => exact absurd rfl hpc
  | known op f i => exact (hfound op f i).trans_lt (by simp [Dequeue.rank])
  | found op f i => exact (hfound op f i).trans_lt (by simp [Dequeue.rank])
  | foundLate op f i => exact (hfound op f i).trans_lt (by simp [Dequeue.rank])
  | _ => simp [Dequeue.rank]

theorem act_go {MAX_BLOCK_SIZE : ℕ} {memory : Bool} {s s' : System T}
    (hact : act MAX_BLOCK_SIZE (.inl (.go memory)) s = some s') :
    ∃ events, EnqueueMove memory s.left s'.left events ∧ s'.right = s.right ∧
      s'.shared.log = s.shared.log ++ events := by
  obtain ⟨r, hstep, rfl⟩ := Option.map_eq_some_iff.mp hact
  rw [enqueueStep] at hstep
  cases hinner : innerEnqueue MAX_BLOCK_SIZE memory s.left s.shared.queue with
  | none => simp [hinner, Shared.record] at hstep
  | some result =>
    obtain ⟨pc', q', events⟩ := result
    rw [hinner] at hstep
    cases hstep
    exact ⟨events, innerEnqueue_move hinner, rfl, rfl⟩

theorem act_none {MAX_BLOCK_SIZE : ℕ} {s s' : System T}
    (hact : act MAX_BLOCK_SIZE (.inr none) s = some s') :
    ∃ events, DequeueMove s.right s'.right events ∧ s'.left = s.left ∧
      s'.shared.log = s.shared.log ++ events := by
  obtain ⟨r, hstep, rfl⟩ := Option.map_eq_some_iff.mp hact
  rw [removeStep] at hstep
  cases hinner : consumerStep s.right s.shared.queue with
  | none => simp [hinner, Shared.record] at hstep
  | some result =>
    obtain ⟨pc', q', events⟩ := result
    rw [hinner] at hstep
    cases hstep
    exact ⟨events, consumerStep_move hinner, rfl, rfl⟩

/-- A step of the producer, or of the consumer, that is not a call. -/
def isProducerStep : Action T → Bool
  | .inl (.go _) => true
  | _ => false

def isConsumerStep : Action T → Bool
  | .inr none => true
  | _ => false

/-- The other thread, and a call that is not made, leave the count as it is. -/
theorem act_producer_rank {MAX_BLOCK_SIZE : ℕ} (a : Action T) (s s' : System T)
    (hact : act MAX_BLOCK_SIZE a s = some s') (hrank : s.left.rank ≠ 0) :
    s'.left.rank ≤ s.left.rank ∧ (isProducerStep a = true → s'.left.rank < s.left.rank) := by
  cases a with
  | inr input =>
    obtain ⟨r, _, rfl⟩ := Option.map_eq_some_iff.mp hact
    exact ⟨Nat.le_refl _, fun h => by simp [isProducerStep] at h⟩
  | inl input =>
    cases input with
    | go memory =>
      obtain ⟨events, hmove, _⟩ := act_go hact
      have hlt := hmove.rank_lt hrank
      exact ⟨hlt.le, fun _ => hlt⟩
    | call mode x =>
      obtain ⟨r, hstep, rfl⟩ := Option.map_eq_some_iff.mp hact
      have hsame : r.1 = s.left := by
        cases hpc : s.left with
        | idle => exact absurd (by rw [hpc]; rfl) hrank
        | _ =>
          rw [hpc] at hstep
          cases hstep
          rfl
      exact ⟨by rw [hsame], fun h => by simp [isProducerStep] at h⟩

theorem act_consumer_rank {MAX_BLOCK_SIZE : ℕ} (a : Action T) (s s' : System T)
    (hact : act MAX_BLOCK_SIZE a s = some s') (hrank : s.right.rank ≠ 0) :
    s'.right.rank ≤ s.right.rank ∧ (isConsumerStep a = true → s'.right.rank < s.right.rank) := by
  cases a with
  | inl input =>
    obtain ⟨r, _, rfl⟩ := Option.map_eq_some_iff.mp hact
    exact ⟨Nat.le_refl _, fun h => by simp [isConsumerStep] at h⟩
  | inr input =>
    cases input with
    | none =>
      obtain ⟨events, hmove, _⟩ := act_none hact
      have hlt := hmove.rank_lt hrank
      exact ⟨hlt.le, fun _ => hlt⟩
    | some call =>
      obtain ⟨r, hstep, rfl⟩ := Option.map_eq_some_iff.mp hact
      have hsame : r.1 = s.right := by
        cases hpc : s.right with
        | idle => exact absurd (by rw [hpc]; rfl) hrank
        | _ =>
          rw [hpc] at hstep
          cases call <;> cases hstep <;> rfl
      exact ⟨by rw [hsame], fun h => by simp [isConsumerStep] at h⟩

theorem Enqueue.rank_eq_zero {pc : Enqueue T} (h : pc.rank = 0) : pc = .idle := by
  cases pc <;> simp [Enqueue.rank] at h ⊢

theorem Enqueue.rank_le (pc : Enqueue T) : pc.rank ≤ 7 := by
  cases pc <;> simp [Enqueue.rank]

/-- Whether a removal is under way. -/
def Dequeue.removing : Dequeue T → Bool
  | .idle | .measure .. | .measureNext .. => false
  | _ => true

theorem Dequeue.removing_of_rank {pc : Dequeue T} (h : pc.rank = 0) : pc.removing = false := by
  cases pc <;> simp [Dequeue.rank] at h ⊢ <;> rfl

theorem Dequeue.rank_le (pc : Dequeue T) : pc.rank ≤ 9 := by
  cases pc <;> simp [Dequeue.rank]

variable {MAX_BLOCK_SIZE maxSize : ℕ}

/-- Whatever the other thread does meanwhile, a call of the producer is over after
seven of its steps, and a removal after nine of the consumer's. -/
theorem calls_finish (h : Sizes MAX_BLOCK_SIZE maxSize) (before after : List (Action T)) :
    (7 ≤ (after.filter isProducerStep).length →
      ∃ done s, done <+: after ∧ run MAX_BLOCK_SIZE maxSize (before ++ done) = some s ∧
        s.left = .idle) ∧
    (9 ≤ (after.filter isConsumerStep).length →
      ∃ done s, done <+: after ∧ run MAX_BLOCK_SIZE maxSize (before ++ done) = some s ∧
        s.right.removing = false) := by
  obtain ⟨least, hholds⟩ := run_holds (T := T) h
  obtain ⟨t, ht, _⟩ := hholds (before ++ after)
  rw [run, GuardedRun.run_append] at ht
  obtain ⟨s, hs, hafter⟩ := Option.bind_eq_some_iff.mp ht
  have hjoin : ∀ done s', GuardedRun.run (act MAX_BLOCK_SIZE) done s = some s' →
      run MAX_BLOCK_SIZE maxSize (before ++ done) = some s' := by
    intro done s' hdone
    rw [run, GuardedRun.run_append, hs, Option.bind_some, hdone]
  constructor
  · intro hsteps
    obtain ⟨done, hprefix, s', hdone, hzero⟩ :=
      GuardedRun.exists_rank_zero (fun s : System T => s.left.rank) isProducerStep
        act_producer_rank hafter (s.left.rank_le.trans hsteps)
    exact ⟨done, s', hprefix, hjoin done s' hdone, Enqueue.rank_eq_zero hzero⟩
  · intro hsteps
    obtain ⟨done, hprefix, s', hdone, hzero⟩ :=
      GuardedRun.exists_rank_zero (fun s : System T => s.right.rank) isConsumerStep
        act_consumer_rank hafter (s.right.rank_le.trans hsteps)
    exact ⟨done, s', hprefix, hjoin done s' hdone, Dequeue.removing_of_rank hzero⟩

theorem calls_finish_program :
    ∃ done s, done <+: List.replicate 7 (Sum.inl (EnqueueInput.go true)) ∧
      run 512 100 ([.inr (some (.remove .pop)), .inl (.call .canAlloc 5)] ++ done) = some s ∧
      s.left = .idle :=
  (calls_finish sizes_program _ _).1 (by decide)

end EsSensor.ReaderWriterQueue
