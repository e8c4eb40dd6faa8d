import EsSensor.Library.AtomicFifo
import EsSensor.Library.MachineWord
import EsSensor.Library.RelyGuarantee
import EsSensor.Library.SlotWindow

/-!
The queue between two processing blocks, with one producer thread and one
consumer thread. A step is one access to memory that the other thread also uses,
with the accesses to the thread's own memory around it; steps interleave in any
order and each sees all the earlier ones. A step without a result is undefined
behaviour or an assertion that fails.
-/
namespace EsSensor.ReaderWriterQueue

open AtomicFifo MachineWord SlotWindow

/-- A circular buffer. Pointers to blocks are their numbers, in order of allocation. -/
structure Block (T : Type) where
  front : ℕ
  localTail : ℕ
  tail : ℕ
  localFront : ℕ
  next : Option ℕ
  data : List (Option T)
  sizeMask : ℕ

structure Queue (T : Type) where
  blocks : List (Block T)
  frontBlock : ℕ
  tailBlock : ℕ
  largestBlockSize : ℕ

variable {T : Type}

def Queue.store (q : Queue T) (p : ℕ) (b : Block T) : Queue T :=
  { q with blocks := q.blocks.set p b }

def makeBlock (capacity : ℕ) : Block T where
  front := 0
  localTail := 0
  tail := 0
  localFront := 0
  next := none
  data := List.replicate capacity none
  sizeMask := capacity - 1

/-- The shifts of `x |= x >> s`, the last three from the loop over `size_t`. -/
def ceilToPow2Shifts : List ℕ := [1, 2, 4] ++ [1, 2, 4].map (fun i => i <<< 3)

def ceilToPow2 (x : ℕ) : ℕ :=
  u64 (ceilToPow2Shifts.foldl (fun x s => x ||| x >>> s) (u64Sub x 1) + 1)

/-- One turn of the constructor's loop: the last block links to the new one, and
that one to the first. -/
def appendBlock (capacity : ℕ) (blocks : List (Block T)) : List (Block T) :=
  blocks.modify (blocks.length - 1) (fun b => { b with next := some blocks.length }) ++
    [{ makeBlock capacity with next := some 0 }]

/-- The constructor, where memory for its blocks can be had. -/
def construct (MAX_BLOCK_SIZE maxSize : ℕ) : Queue T :=
  let largestBlockSize := ceilToPow2 (u64 (maxSize + 1))
  if u64 (MAX_BLOCK_SIZE * 2) < largestBlockSize then
    let initialBlockCount :=
      u64Sub (u64 (maxSize + u64 (MAX_BLOCK_SIZE * 2))) 3 / (MAX_BLOCK_SIZE - 1)
    { blocks := (appendBlock MAX_BLOCK_SIZE)^[initialBlockCount] []
      frontBlock := 0
      tailBlock := 0
      largestBlockSize := MAX_BLOCK_SIZE }
  else
    { blocks := [{ makeBlock largestBlockSize with next := some 0 }]
      frontBlock := 0
      tailBlock := 0
      largestBlockSize := largestBlockSize }

inductive AllocationMode
  | canAlloc
  | cannotAlloc
  deriving DecidableEq, Repr

/-- Where the producer is in `inner_enqueue`: what it does next, with its local
variables. -/
inductive Enqueue (T : Type)
  | idle
  | start (mode : AllocationMode) (element : T)
  | readFront (mode : AllocationMode) (element : T) (tailBlock_ blockTail nextBlockTail : ℕ)
  | construct (element : T) (tailBlock_ blockTail nextBlockTail : ℕ)
  | publish (element : T) (tailBlock_ nextBlockTail : ℕ)
  | compareNext (mode : AllocationMode) (element : T) (tailBlock_ : ℕ)
  | enterNext (element : T) (tailBlockNext : ℕ)
  | constructNext (element : T) (tailBlockNext nextBlockTail : ℕ)
  | publishNext (element : T) (tailBlockNext nextBlockTail : ℕ)
  | allocate (element : T) (tailBlock_ : ℕ)
  | link (element : T) (tailBlock_ newBlock : ℕ)
  | advance (element : T) (block : ℕ)
  deriving DecidableEq, Repr

/-- What the producer's next step is given: a call, or whether `malloc` finds memory. -/
inductive EnqueueInput (T : Type)
  | call (mode : AllocationMode) (element : T)
  | go (memory : Bool)

/-- `newBlockSize` -/
def grownSize (MAX_BLOCK_SIZE largestBlockSize : ℕ) : ℕ :=
  if MAX_BLOCK_SIZE ≤ largestBlockSize then largestBlockSize else largestBlockSize * 2

/-- One step of `inner_enqueue`. -/
def innerEnqueue (MAX_BLOCK_SIZE : ℕ) (memory : Bool) :
    Enqueue T → Queue T → Option (Enqueue T × Queue T × List (Event T))
  | .idle, q => some (.idle, q, [])
  | .start mode element, q => do
    let b ← q.blocks[q.tailBlock]?
    let nextBlockTail := (b.tail + 1) &&& b.sizeMask
    if nextBlockTail ≠ b.localFront then
      some (.construct element q.tailBlock b.tail nextBlockTail, q, [])
    else
      some (.readFront mode element q.tailBlock b.tail nextBlockTail, q, [])
  | .readFront mode element tailBlock_ blockTail nextBlockTail, q => do
    let b ← q.blocks[tailBlock_]?
    let q' := q.store tailBlock_ { b with localFront := b.front }
    if nextBlockTail ≠ b.front then
      some (.construct element tailBlock_ blockTail nextBlockTail, q', [])
    else
      some (.compareNext mode element tailBlock_, q', [])
  | .construct element tailBlock_ blockTail nextBlockTail, q => do
    let b ← q.blocks[tailBlock_]?
    let data ← SlotWindow.construct b.data blockTail element
    some (.publish element tailBlock_ nextBlockTail, q.store tailBlock_ { b with data := data }, [])
  | .publish element tailBlock_ nextBlockTail, q => do
    let b ← q.blocks[tailBlock_]?
    some (.idle, q.store tailBlock_ { b with tail := nextBlockTail }, [.accepted element])
  | .compareNext mode element tailBlock_, q => do
    let b ← q.blocks[tailBlock_]?
    if b.next ≠ some q.frontBlock then
      let tailBlockNext ← b.next
      some (.enterNext element tailBlockNext, q, [])
    else
      match mode with
      | .canAlloc => some (.allocate element tailBlock_, q, [])
      | .cannotAlloc => some (.idle, q, [.refused])
  | .enterNext element tailBlockNext, q => do
    let b ← q.blocks[tailBlockNext]?
    if b.front = b.tail then
      some (.constructNext element tailBlockNext b.tail,
        q.store tailBlockNext { b with localFront := b.front }, [])
    else
      none
  | .constructNext element tailBlockNext nextBlockTail, q => do
    let b ← q.blocks[tailBlockNext]?
    let data ← SlotWindow.construct b.data nextBlockTail element
    some (.publishNext element tailBlockNext nextBlockTail,
      q.store tailBlockNext { b with data := data }, [])
  | .publishNext element tailBlockNext nextBlockTail, q => do
    let b ← q.blocks[tailBlockNext]?
    some (.advance element tailBlockNext,
      q.store tailBlockNext { b with tail := (nextBlockTail + 1) &&& b.sizeMask }, [])
  | .allocate element tailBlock_, q => do
    if memory then
      let b ← q.blocks[tailBlock_]?
      let newBlockSize := grownSize MAX_BLOCK_SIZE q.largestBlockSize
      let newBlock := makeBlock newBlockSize
      let data ← SlotWindow.construct newBlock.data 0 element
      some (.link element tailBlock_ q.blocks.length,
        { q with
          blocks := q.blocks ++
            [{ newBlock with data := data, tail := 1, localTail := 1, next := b.next }]
          largestBlockSize := newBlockSize }, [.grown])
    else
      some (.idle, q, [.refused])
  | .link element tailBlock_ newBlock, q => do
    let b ← q.blocks[tailBlock_]?
    some (.advance element newBlock, q.store tailBlock_ { b with next := some newBlock }, [])
  | .advance element block, q => some (.idle, { q with tailBlock := block }, [.accepted element])

/-- The consumer's three functions differ in what they do with the element. -/
inductive Removal
  | tryDequeue
  | pop
  | peek
  deriving DecidableEq, Repr

/-- What the consumer may call. -/
inductive Call
  | remove (op : Removal)
  | sizeApprox
  deriving DecidableEq, Repr

/-- Where the consumer is in one of them. -/
inductive Dequeue (T : Type)
  | idle
  | start (op : Removal)
  | readTail (op : Removal) (frontBlock_ blockFront : ℕ)
  | readTailBlock (op : Removal) (frontBlock_ : ℕ)
  | rereadTail (op : Removal)
  | readNext (op : Removal) (frontBlock_ : ℕ)
  | readNextTail (op : Removal) (nextBlock nextBlockFront : ℕ)
  | advance (op : Removal) (nextBlock nextBlockFront : ℕ)
  | look (frontBlock_ blockFront : ℕ)
  | take (frontBlock_ blockFront : ℕ)
  | bump (element : T) (frontBlock_ blockFront : ℕ)
  | measure (frontBlock_ block result : ℕ)
  | measureNext (frontBlock_ block result : ℕ)
  deriving DecidableEq, Repr

/-- `non_empty_front_block` -/
def nonEmptyFrontBlock (op : Removal) (frontBlock_ blockFront : ℕ) : Dequeue T :=
  match op with
  | .peek => .look frontBlock_ blockFront
  | _ => .take frontBlock_ blockFront

/-- One step of `try_dequeue`, `pop`, `peek` or `size_approx`; the caller of `peek`
looks at the element before it calls again. -/
def consumerStep : Dequeue T → Queue T → Option (Dequeue T × Queue T × List (Event T))
  | .idle, q => some (.idle, q, [])
  | .start op, q => do
    let b ← q.blocks[q.frontBlock]?
    if b.front ≠ b.localTail then
      some (nonEmptyFrontBlock op q.frontBlock b.front, q, [])
    else
      some (.readTail op q.frontBlock b.front, q, [])
  | .readTail op frontBlock_ blockFront, q => do
    let b ← q.blocks[frontBlock_]?
    let q' := q.store frontBlock_ { b with localTail := b.tail }
    if blockFront ≠ b.tail then
      some (nonEmptyFrontBlock op frontBlock_ blockFront, q', [])
    else
      some (.readTailBlock op frontBlock_, q', [])
  | .readTailBlock op frontBlock_, q =>
    if frontBlock_ ≠ q.tailBlock then some (.rereadTail op, q, [])
    else some (.idle, q, [.empty])
  | .rereadTail op, q => do
    let b ← q.blocks[q.frontBlock]?
    let q' := q.store q.frontBlock { b with localTail := b.tail }
    if b.front ≠ b.tail then
      some (nonEmptyFrontBlock op q.frontBlock b.front, q', [])
    else
      some (.readNext op q.frontBlock, q', [])
  | .readNext op frontBlock_, q => do
    let b ← q.blocks[frontBlock_]?
    let nextBlock ← b.next
    let c ← q.blocks[nextBlock]?
    some (.readNextTail op nextBlock c.front, q, [])
  | .readNextTail op nextBlock nextBlockFront, q => do
    let c ← q.blocks[nextBlock]?
    if nextBlockFront ≠ c.tail then
      match op with
      | .peek => some (.look nextBlock nextBlockFront, q, [])
      | _ => some (.advance op nextBlock nextBlockFront,
          q.store nextBlock { c with localTail := c.tail }, [])
    else
      none
  | .advance _ nextBlock nextBlockFront, q =>
    some (.take nextBlock nextBlockFront, { q with frontBlock := nextBlock }, [])
  | .look frontBlock_ blockFront, q => do
    let b ← q.blocks[frontBlock_]?
    let element ← SlotWindow.look b.data blockFront
    some (.idle, q, [.seen element])
  | .take frontBlock_ blockFront, q => do
    let b ← q.blocks[frontBlock_]?
    let (element, data) ← destroy b.data blockFront
    some (.bump element frontBlock_ ((blockFront + 1) &&& b.sizeMask),
      q.store frontBlock_ { b with data := data }, [])
  | .bump element frontBlock_ blockFront, q => do
    let b ← q.blocks[frontBlock_]?
    some (.idle, q.store frontBlock_ { b with front := blockFront }, [.taken element])
  | .measure frontBlock_ block result, q => do
    let b ← q.blocks[block]?
    some (.measureNext frontBlock_ block
      (u64 (result + (u64Sub b.tail b.front &&& b.sizeMask))), q, [])
  | .measureNext frontBlock_ block result, q => do
    let b ← q.blocks[block]?
    let next ← b.next
    if next ≠ frontBlock_ then some (.measure frontBlock_ next result, q, [])
    else some (.idle, q, [.measured result])

/-- The memory of the queue, and the calls and answers so far. -/
structure Shared (T : Type) where
  queue : Queue T
  log : List (Event T)

def Shared.record {π : Type} (log : List (Event T)) :
    Option (π × Queue T × List (Event T)) → Option (π × Shared T)
  | some (pc, queue, events) => some (pc, { queue := queue, log := log ++ events })
  | none => none

/-- A call while a call is under way is not made. -/
def enqueueStep (MAX_BLOCK_SIZE : ℕ) (input : EnqueueInput T) (pc : Enqueue T) (s : Shared T) :
    Option (Enqueue T × Shared T) :=
  match input, pc with
  | .call mode element, .idle =>
    some (.start mode element, { s with log := s.log ++ [.offer element] })
  | .call _ _, pc => some (pc, s)
  | .go memory, pc => Shared.record s.log (innerEnqueue MAX_BLOCK_SIZE memory pc s.queue)

/-- The consumer's next step, or its next call. -/
def removeStep (input : Option Call) (pc : Dequeue T) (s : Shared T) :
    Option (Dequeue T × Shared T) :=
  match input, pc with
  | some (.remove op), .idle => some (.start op, { s with log := s.log ++ [.request] })
  | some .sizeApprox, .idle =>
    some (.measure s.queue.frontBlock s.queue.frontBlock 0, { s with log := s.log ++ [.request] })
  | some _, pc => some (pc, s)
  | none, pc => Shared.record s.log (consumerStep pc s.queue)

abbrev System (T : Type) := RelyGuarantee.System (Shared T) (Enqueue T) (Dequeue T)

/-- Steps of the producer on the left and of the consumer on the right. -/
abbrev Action (T : Type) := EnqueueInput T ⊕ Option Call

def act (MAX_BLOCK_SIZE : ℕ) : Action T → System T → Option (System T) :=
  RelyGuarantee.act (enqueueStep MAX_BLOCK_SIZE) removeStep

def start (MAX_BLOCK_SIZE maxSize : ℕ) : System T where
  shared := { queue := construct MAX_BLOCK_SIZE maxSize, log := [] }
  left := .idle
  right := .idle

def run (MAX_BLOCK_SIZE maxSize : ℕ) (schedule : List (Action T)) : Option (System T) :=
  GuardedRun.run (act MAX_BLOCK_SIZE) schedule (start MAX_BLOCK_SIZE maxSize)

end EsSensor.ReaderWriterQueue
