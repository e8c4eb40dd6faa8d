import EsSensor.Library.FifoChain
import EsSensor.QueueProgress

/-!
Threads that are joined by these queues. Each takes a message from the queue
before it, runs the body of its loop, and sends what comes of it to the queue
after it; all threads interleave at single accesses to memory. What they do is
what a chain of queues that act at once does.
-/
namespace EsSensor.QueueNetwork

open AtomicFifo ReaderWriterQueue

variable {σ M : Type}

def inCall : Enqueue M → Bool
  | .idle => false
  | _ => true

/-- One step of a thread that sends: it calls `enqueue`, or goes on with the call.
A message is sent when its call returns. Memory can be had. -/
def sendStep (MAX_BLOCK_SIZE : ℕ) (messages : List M) (q : System M) :
    Option (List M × System M) :=
  match q.left, messages with
  | .idle, [] => some ([], q)
  | .idle, m :: rest =>
    (ReaderWriterQueue.act MAX_BLOCK_SIZE (.inl (.call .canAlloc m)) q).map
      (fun q' => (m :: rest, q'))
  | _, messages =>
    (ReaderWriterQueue.act MAX_BLOCK_SIZE (.inl (.go true)) q).map
      (fun q' => (if inCall q'.left then messages else messages.tail, q'))

/-- The message that the call returns with its next step, if that is so. -/
def returning : Dequeue M → Option M
  | .bump m _ _ => some m
  | _ => none

/-- One step of a thread that takes: it calls `try_dequeue`, or goes on with the
call. When the call returns with a message, the body of the loop is run. -/
def takeStep (MAX_BLOCK_SIZE : ℕ) (b : FifoChain.Block σ M) (held : σ) (q : System M) :
    Option ((σ × List M) × System M) :=
  match q.right with
  | .idle =>
    (ReaderWriterQueue.act MAX_BLOCK_SIZE (.inr (some (.remove .tryDequeue))) q).map
      (fun q' => ((held, []), q'))
  | .bump m _ _ =>
    (ReaderWriterQueue.act MAX_BLOCK_SIZE (.inr none) q).map (fun q' => (b.step held m, q'))
  | _ =>
    (ReaderWriterQueue.act MAX_BLOCK_SIZE (.inr none) q).map (fun q' => ((held, []), q'))

/-- As in `FifoChain.Network`, with the queues as they are in memory. -/
structure Network (σ M : Type) where
  source : List M
  queue : ℕ → System M
  held : ℕ → σ
  pending : ℕ → List M

/-- The thread that is next. -/
inductive Action
  | produce
  | block (i : ℕ)

def act (MAX_BLOCK_SIZE : ℕ) (blocks : List (FifoChain.Block σ M)) (a : Action)
    (net : Network σ M) : Option (Network σ M) :=
  match a with
  | .produce => do
    let (source, q) ← sendStep MAX_BLOCK_SIZE net.source (net.queue 0)
    some { net with source := source, queue := Function.update net.queue 0 q }
  | .block i =>
    match blocks[i]?, net.pending i with
    | none, _ => some net
    | some b, [] => do
      let ((held, pending), q) ← takeStep MAX_BLOCK_SIZE b (net.held i) (net.queue i)
      some { net with
        queue := Function.update net.queue i q
        held := Function.update net.held i held
        pending := Function.update net.pending i pending }
    | some _, messages => do
      let (pending, q) ← sendStep MAX_BLOCK_SIZE messages (net.queue (i + 1))
      some { net with
        queue := Function.update net.queue (i + 1) q
        pending := Function.update net.pending i pending }

def start (MAX_BLOCK_SIZE maxSize : ℕ) (blocks : List (FifoChain.Block σ M)) (source : List M)
    (init : σ) : Network σ M where
  source := source
  queue := fun _ => ReaderWriterQueue.start MAX_BLOCK_SIZE maxSize
  held := fun i => (blocks[i]?).elim init FifoChain.Block.init
  pending := fun _ => []

/-- The chain that the network is seen as. -/
def Network.chain (net : Network σ M) : FifoChain.Network σ M where
  source := net.source
  queue := contents ∘ net.queue
  held := net.held
  pending := net.pending

/-- A queue as it may be in a run. -/
def Reached (MAX_BLOCK_SIZE maxSize : ℕ) (q : System M) : Prop :=
  ∃ schedule, ReaderWriterQueue.run MAX_BLOCK_SIZE maxSize schedule = some q

/-- The producer is in a call with this message, and may take memory. -/
def Offers (m : M) : Enqueue M → Prop
  | .idle => False
  | .start mode x | .readFront mode x .. | .compareNext mode x .. => mode = .canAlloc ∧ x = m
  | .construct x .. | .publish x .. | .enterNext x .. | .constructNext x ..
  | .publishNext x .. | .allocate x .. | .link x .. | .advance x .. => x = m

/-- What a thread in `enqueue` still has to send begins with that message. -/
def Sending (messages : List M) (pc : Enqueue M) : Prop :=
  pc = .idle ∨ ∃ m rest, messages = m :: rest ∧ Offers m pc

section Queue

variable {MAX_BLOCK_SIZE maxSize : ℕ} {q q' : System M} {m : M} {messages : List M}

theorem offers_move {pc pc' : Enqueue M} {events : List (Event M)} (hpc : Offers m pc)
    (hmove : EnqueueMove true pc pc' events) :
    (Offers m pc' ∧ entered events = [] ∧ left events = []) ∨
      (pc' = .idle ∧ events = [.accepted m]) := by
  cases hmove with
  | idle => exact absurd hpc id
  | publish =>
    obtain rfl := hpc
    exact Or.inr ⟨rfl, rfl⟩
  | advance =>
    obtain rfl := hpc
    exact Or.inr ⟨rfl, rfl⟩
  | refuse => cases hpc.1
  | room => exact Or.inl ⟨hpc.2, rfl, rfl⟩
  | moreRoom => exact Or.inl ⟨hpc.2, rfl, rfl⟩
  | freeBlock => exact Or.inl ⟨hpc.2, rfl, rfl⟩
  | noBlock => exact Or.inl ⟨hpc.2, rfl, rfl⟩
  | _ => exact Or.inl ⟨hpc, rfl, rfl⟩

/-- Only the last step of a removal takes something. -/
theorem answer_move {pc pc' : Dequeue M} {events : List (Event M)}
    (hmove : DequeueMove pc pc' events) :
    (∃ m, returning pc = some m ∧ pc' = .idle ∧ events = [.taken m]) ∨
      (returning pc = none ∧ entered events = [] ∧ left events = []) := by
  cases hmove with
  | bump x f i => exact Or.inl ⟨x, rfl, rfl, rfl⟩
  | _ => exact Or.inr ⟨rfl, rfl, rfl⟩

theorem Reached.act (h : Sizes MAX_BLOCK_SIZE maxSize) (hq : Reached MAX_BLOCK_SIZE maxSize q)
    (a : ReaderWriterQueue.Action M) :
    ∃ q', ReaderWriterQueue.act MAX_BLOCK_SIZE a q = some q' ∧
      Reached MAX_BLOCK_SIZE maxSize q' := by
  obtain ⟨schedule, hrun⟩ := hq
  obtain ⟨least, hholds⟩ := run_holds (T := M) h
  obtain ⟨q', hrun', _⟩ := hholds (schedule ++ [a])
  have hact := hrun'
  rw [ReaderWriterQueue.run, GuardedRun.run_append, ← ReaderWriterQueue.run, hrun,
    Option.bind_some, GuardedRun.run_cons] at hact
  obtain ⟨t, ht, hnil⟩ := Option.bind_eq_some_iff.mp hact
  obtain rfl := Option.some.inj hnil
  exact ⟨t, ht, schedule ++ [a], hrun'⟩

/-- What is in the queue after some events is what was in it, with what entered
and without what left. -/
theorem Reached.contents_eq (h : Sizes MAX_BLOCK_SIZE maxSize)
    (hq : Reached MAX_BLOCK_SIZE maxSize q) (hq' : Reached MAX_BLOCK_SIZE maxSize q')
    {events : List (Event M)} (hlog : q'.shared.log = q.shared.log ++ events) :
    contents q ++ entered events = left events ++ contents q' := by
  obtain ⟨schedule, hrun⟩ := hq
  obtain ⟨schedule', hrun'⟩ := hq'
  obtain ⟨fifo, hhistory, hcontents⟩ := run_history h hrun
  obtain ⟨fifo', hhistory', hcontents'⟩ := run_history h hrun'
  have hbefore := hhistory.entered_eq
  have hafter := hhistory'.entered_eq
  rw [hlog, entered, left, List.filterMap_append, List.filterMap_append, ← entered, ← left,
    hbefore, List.append_assoc, List.append_assoc] at hafter
  rw [hcontents, hcontents']
  exact List.append_cancel_left hafter

theorem call_offers {a : M} {q' : System M} (hidle : q.left = .idle)
    (hact : ReaderWriterQueue.act MAX_BLOCK_SIZE (.inl (.call .canAlloc a)) q = some q') :
    q'.left = .start .canAlloc a ∧ q'.right = q.right ∧
      q'.shared.log = q.shared.log ++ [.offer a] := by
  obtain ⟨r, hstep, rfl⟩ := Option.map_eq_some_iff.mp hact
  rw [hidle] at hstep
  cases hstep
  exact ⟨rfl, rfl, rfl⟩

theorem call_requests {call : Call} (hidle : q.right = .idle)
    (hact : ReaderWriterQueue.act MAX_BLOCK_SIZE (.inr (some call)) q = some q') :
    q'.left = q.left ∧ q'.shared.log = q.shared.log ++ [.request] := by
  obtain ⟨r, hstep, rfl⟩ := Option.map_eq_some_iff.mp hact
  rw [hidle] at hstep
  cases call <;> cases hstep <;> exact ⟨rfl, rfl⟩

/-- A step of a thread that sends: nothing is seen of it, or its first message has
gone to the end of the queue. -/
theorem sendStep_spec (h : Sizes MAX_BLOCK_SIZE maxSize) (hq : Reached MAX_BLOCK_SIZE maxSize q)
    (hsending : Sending messages q.left) :
    ∃ messages' q', sendStep MAX_BLOCK_SIZE messages q = some (messages', q') ∧
      Reached MAX_BLOCK_SIZE maxSize q' ∧ q'.right = q.right ∧ Sending messages' q'.left ∧
      ((messages' = messages ∧ contents q' = contents q) ∨
        ∃ m, messages = m :: messages' ∧ contents q' = contents q ++ [m]) := by
  obtain hidle | ⟨m, rest, rfl, hoffers⟩ := hsending
  · cases messages with
    | nil =>
      exact ⟨[], q, by simp [sendStep, hidle], hq, rfl, Or.inl hidle, Or.inl ⟨rfl, rfl⟩⟩
    | cons m rest =>
      obtain ⟨q', hact, hq'⟩ := hq.act h (.inl (.call .canAlloc m))
      obtain ⟨hstart, hright, hlog⟩ := call_offers hidle hact
      have hcontents := hq.contents_eq h hq' hlog
      refine ⟨m :: rest, q', by simp [sendStep, hidle, hact], hq', hright,
        Or.inr ⟨m, rest, rfl, ?_⟩, Or.inl ⟨rfl, ?_⟩⟩
      · rw [hstart]
        exact ⟨rfl, rfl⟩
      · simpa [entered, left] using hcontents.symm
  · obtain ⟨q', hact, hq'⟩ := hq.act h (.inl (.go true))
    obtain ⟨events, hmove, hright, hlog⟩ := act_go hact
    have hcontents := hq.contents_eq h hq' hlog
    have hstep : sendStep MAX_BLOCK_SIZE (m :: rest) q =
        some (if inCall q'.left then m :: rest else rest, q') := by
      cases hpc : q.left with
      | idle =>
        rw [hpc] at hoffers
        exact hoffers.elim
      | _ => simp [sendStep, hpc, hact]
    obtain ⟨hoffers', hentered, hleft⟩ | ⟨hidle, rfl⟩ := offers_move hoffers hmove
    · have hcall : inCall q'.left = true := by
        cases hpc : q'.left with
        | idle =>
          rw [hpc] at hoffers'
          exact hoffers'.elim
        | _ => rfl
      refine ⟨m :: rest, q', by rw [hstep, if_pos hcall], hq', hright,
        Or.inr ⟨m, rest, rfl, hoffers'⟩, Or.inl ⟨rfl, ?_⟩⟩
      rw [hentered, hleft, List.append_nil] at hcontents
      exact hcontents.symm
    · refine ⟨rest, q', by rw [hstep, hidle]; rfl, hq', hright, Or.inl hidle,
        Or.inr ⟨m, rfl, ?_⟩⟩
      simpa [entered, left] using hcontents.symm

/-- A step of a thread that takes: nothing is seen of it, or it is the last of its
call and the body of its loop is run on the message at the front. -/
theorem takeStep_spec (h : Sizes MAX_BLOCK_SIZE maxSize) (hq : Reached MAX_BLOCK_SIZE maxSize q)
    (b : FifoChain.Block σ M) (held : σ) :
    ∃ result q', takeStep MAX_BLOCK_SIZE b held q = some (result, q') ∧
      Reached MAX_BLOCK_SIZE maxSize q' ∧ q'.left = q.left ∧
      ((returning q.right = none ∧ result = (held, []) ∧ contents q' = contents q) ∨
        ∃ m, returning q.right = some m ∧ q'.right = .idle ∧ result = b.step held m ∧
          contents q = m :: contents q') := by
  by_cases hidle : q.right = .idle
  · obtain ⟨q', hact, hq'⟩ := hq.act h (.inr (some (.remove .tryDequeue)))
    obtain ⟨hleft, hlog⟩ := call_requests hidle hact
    have hcontents := hq.contents_eq h hq' hlog
    refine ⟨(held, []), q', by simp [takeStep, hidle, hact], hq', hleft,
      Or.inl ⟨by rw [hidle]; rfl, rfl, ?_⟩⟩
    simpa [entered, left] using hcontents.symm
  · obtain ⟨q', hact, hq'⟩ := hq.act h (.inr none)
    obtain ⟨events, hmove, hleft, hlog⟩ := act_none hact
    have hcontents := hq.contents_eq h hq' hlog
    have hstep : takeStep MAX_BLOCK_SIZE b held q =
        some (((returning q.right).map (b.step held)).getD (held, []), q') := by
      cases hpc : q.right with
      | idle => exact absurd hpc hidle
      | _ => simp [takeStep, returning, hpc, hact]
    obtain ⟨m, hreturning, hend, rfl⟩ | ⟨hreturning, hentered, hnone⟩ := answer_move hmove
    · refine ⟨b.step held m, q', by rw [hstep, hreturning]; rfl, hq', hleft,
        Or.inr ⟨m, hreturning, hend, rfl, ?_⟩⟩
      simpa [entered, left] using hcontents
    · refine ⟨(held, []), q', by rw [hstep, hreturning]; rfl, hq', hleft,
        Or.inl ⟨hreturning, rfl, ?_⟩⟩
      rw [hentered, hnone, List.append_nil] at hcontents
      exact hcontents.symm

end Queue

/-- The queues are in states of runs, and every thread in `enqueue` is there with its
first message. -/
structure Sound (MAX_BLOCK_SIZE maxSize : ℕ) (net : Network σ M) : Prop where
  reached : ∀ j, Reached MAX_BLOCK_SIZE maxSize (net.queue j)
  source : Sending net.source (net.queue 0).left
  pending : ∀ i, Sending (net.pending i) (net.queue (i + 1)).left

variable {MAX_BLOCK_SIZE maxSize : ℕ} {blocks : List (FifoChain.Block σ M)}
  {net : Network σ M}

theorem sending_nil {pc : Enqueue M} (h : Sending [] pc) : pc = .idle := by
  obtain hidle | ⟨m, rest, hnil, _⟩ := h
  · exact hidle
  · cases hnil

theorem sound_start (blocks : List (FifoChain.Block σ M)) (source : List M) (init : σ) :
    Sound MAX_BLOCK_SIZE maxSize (start MAX_BLOCK_SIZE maxSize blocks source init) :=
  ⟨fun _ => ⟨[], rfl⟩, Or.inl rfl, fun _ => Or.inl rfl⟩

/-- Changing one queue keeps the other ones in states of runs. -/
theorem Sound.reached_update (hnet : Sound MAX_BLOCK_SIZE maxSize net) {i : ℕ} {q : System M}
    (hq : Reached MAX_BLOCK_SIZE maxSize q) (j : ℕ) :
    Reached MAX_BLOCK_SIZE maxSize (Function.update net.queue i q j) := by
  by_cases hj : j = i
  · rw [hj, Function.update_self]
    exact hq
  · rw [Function.update_of_ne hj]
    exact hnet.reached j

theorem left_update {i : ℕ} {q : System M} (hq : q.left = (net.queue i).left) (j : ℕ) :
    (Function.update net.queue i q j).left = (net.queue j).left := by
  by_cases hj : j = i
  · rw [hj, Function.update_self, hq]
  · rw [Function.update_of_ne hj]

theorem chain_queue_update (queue : ℕ → System M) (i : ℕ) (q : System M) :
    contents ∘ Function.update queue i q =
      Function.update (contents ∘ queue) i (contents q) := Function.comp_update ..

/-- A queue whose contents stay as they are changes nothing. -/
theorem chain_queue_same {queue : ℕ → System M} {i : ℕ} {q : System M}
    (hq : contents q = contents (queue i)) :
    contents ∘ Function.update queue i q = contents ∘ queue := by
  rw [chain_queue_update, hq]
  exact Function.update_eq_self i (contents ∘ queue)

/-- The producer's step: nothing is seen of it, or it is the producer's step in the
chain. The consumer of the queue stays where it is. -/
theorem produce_spec (h : Sizes MAX_BLOCK_SIZE maxSize) (blocks : List (FifoChain.Block σ M))
    (hnet : Sound MAX_BLOCK_SIZE maxSize net) :
    ∃ net' q, act MAX_BLOCK_SIZE blocks .produce net = some net' ∧
      Sound MAX_BLOCK_SIZE maxSize net' ∧ net'.queue = Function.update net.queue 0 q ∧
      q.right = (net.queue 0).right ∧ (net'.chain = net.chain ∨
        net.source ≠ [] ∧ net'.chain = FifoChain.act blocks net.chain .produce) := by
  obtain ⟨source, q, hsend, hq, hright, hsending, heffect⟩ :=
    sendStep_spec h (hnet.reached 0) hnet.source
  refine ⟨{ net with source := source, queue := Function.update net.queue 0 q }, q,
    by simp [act, hsend], ⟨hnet.reached_update hq, ?_, ?_⟩, rfl, hright, ?_⟩
  · show Sending source (Function.update net.queue 0 q 0).left
    rwa [Function.update_self]
  · intro i
    show Sending (net.pending i) (Function.update net.queue 0 q (i + 1)).left
    rw [Function.update_of_ne (Nat.succ_ne_zero i)]
    exact hnet.pending i
  · obtain ⟨rfl, hsame⟩ | ⟨m, hsource, hmore⟩ := heffect
    · refine Or.inl ?_
      simp only [Network.chain, chain_queue_same hsame]
    · refine Or.inr ⟨by simp [hsource], ?_⟩
      simp only [Network.chain, FifoChain.act, hsource, chain_queue_update, hmore,
        Function.comp_apply]

/-- A step of a block that takes. Its producer stays where it is. -/
theorem take_spec (h : Sizes MAX_BLOCK_SIZE maxSize)
    (hnet : Sound MAX_BLOCK_SIZE maxSize net) {i : ℕ} {b : FifoChain.Block σ M}
    (hb : blocks[i]? = some b) (hpending : net.pending i = []) :
    ∃ net' q, act MAX_BLOCK_SIZE blocks (.block i) net = some net' ∧
      Sound MAX_BLOCK_SIZE maxSize net' ∧ net'.queue = Function.update net.queue i q ∧
      q.left = (net.queue i).left ∧
      ((returning (net.queue i).right = none ∧ net'.chain = net.chain) ∨
        ∃ m, returning (net.queue i).right = some m ∧ q.right = .idle ∧
          net.chain.queue i ≠ [] ∧ net'.chain = FifoChain.act blocks net.chain (.take i)) := by
  obtain ⟨⟨held, pending⟩, q, htake, hq, hleft, heffect⟩ :=
    takeStep_spec h (hnet.reached i) b (net.held i)
  have hidle : (net.queue (i + 1)).left = .idle := sending_nil (hpending ▸ hnet.pending i)
  refine ⟨{ net with
      queue := Function.update net.queue i q
      held := Function.update net.held i held
      pending := Function.update net.pending i pending }, q,
    by simp [act, hb, hpending, htake], ⟨hnet.reached_update hq, ?_, ?_⟩, rfl, hleft, ?_⟩
  · show Sending net.source (Function.update net.queue i q 0).left
    rw [left_update hleft]
    exact hnet.source
  · intro k
    show Sending (Function.update net.pending i pending k)
      (Function.update net.queue i q (k + 1)).left
    rw [left_update hleft]
    by_cases hk : k = i
    · rw [hk, hidle]
      exact Or.inl rfl
    · rw [Function.update_of_ne hk]
      exact hnet.pending k
  · obtain ⟨hnone, hresult, hsame⟩ | ⟨m, hreturning, hend, hresult, hfront⟩ := heffect
    · obtain ⟨rfl, rfl⟩ := Prod.mk.inj hresult
      refine Or.inl ⟨hnone, ?_⟩
      simp only [Network.chain, chain_queue_same hsame, Function.update_eq_self,
        ← hpending]
    · obtain ⟨rfl, rfl⟩ := Prod.mk.inj hresult
      refine Or.inr ⟨m, hreturning, hend, ?_, ?_⟩
      · show contents (net.queue i) ≠ []
        rw [hfront]
        exact List.cons_ne_nil _ _
      · simp only [Network.chain, FifoChain.act, hb, hpending, Function.comp_apply, hfront,
          chain_queue_update]

/-- A step of a block that sends. -/
theorem send_spec (h : Sizes MAX_BLOCK_SIZE maxSize)
    (hnet : Sound MAX_BLOCK_SIZE maxSize net) {i : ℕ} {b : FifoChain.Block σ M}
    (hb : blocks[i]? = some b) (hpending : net.pending i ≠ []) :
    ∃ net' q, act MAX_BLOCK_SIZE blocks (.block i) net = some net' ∧
      Sound MAX_BLOCK_SIZE maxSize net' ∧ net'.queue = Function.update net.queue (i + 1) q ∧
      q.right = (net.queue (i + 1)).right ∧ (net'.chain = net.chain ∨
        net'.chain = FifoChain.act blocks net.chain (.send i)) := by
  obtain ⟨m, rest, hcons⟩ := List.exists_cons_of_ne_nil hpending
  obtain ⟨pending, q, hsend, hq, hright, hsending, heffect⟩ :=
    sendStep_spec h (hnet.reached (i + 1)) (hnet.pending i)
  have hsend' := hsend
  rw [hcons] at hsend'
  refine ⟨{ net with
      queue := Function.update net.queue (i + 1) q
      pending := Function.update net.pending i pending }, q,
    by simp [act, hb, hcons, hsend'], ⟨hnet.reached_update hq, ?_, ?_⟩, rfl, hright, ?_⟩
  · show Sending net.source (Function.update net.queue (i + 1) q 0).left
    rw [Function.update_of_ne (Nat.succ_ne_zero i).symm]
    exact hnet.source
  · intro k
    show Sending (Function.update net.pending i pending k)
      (Function.update net.queue (i + 1) q (k + 1)).left
    by_cases hk : k = i
    · rw [hk, Function.update_self, Function.update_self]
      exact hsending
    · rw [Function.update_of_ne hk, Function.update_of_ne (by omega)]
      exact hnet.pending k
  · obtain ⟨rfl, hsame⟩ | ⟨m', hfirst, hmore⟩ := heffect
    · refine Or.inl ?_
      simp only [Network.chain, chain_queue_same hsame, Function.update_eq_self]
    · refine Or.inr ?_
      simp only [Network.chain, FifoChain.act, hb, hfirst, chain_queue_update, hmore,
        Function.comp_apply]

/-- Every step of every thread succeeds, and is no step of the chain or one. -/
theorem act_refines (h : Sizes MAX_BLOCK_SIZE maxSize) (blocks : List (FifoChain.Block σ M))
    (hnet : Sound MAX_BLOCK_SIZE maxSize net) (a : Action) :
    ∃ net', act MAX_BLOCK_SIZE blocks a net = some net' ∧ Sound MAX_BLOCK_SIZE maxSize net' ∧
      Relation.ReflTransGen (FifoChain.Step blocks) net.chain net'.chain := by
  cases a with
  | produce =>
    obtain ⟨net', q, hact, hsound, _, _, heffect⟩ := produce_spec h blocks hnet
    refine ⟨net', hact, hsound, ?_⟩
    obtain hsame | ⟨_, hstep⟩ := heffect
    · rw [hsame]
    · rw [hstep]
      exact FifoChain.step_act blocks net.chain .produce
  | block i =>
    cases hb : blocks[i]? with
    | none => exact ⟨net, by simp [act, hb], hnet, .refl⟩
    | some b =>
      by_cases hpending : net.pending i = []
      · obtain ⟨net', q, hact, hsound, _, _, heffect⟩ := take_spec h hnet hb hpending
        refine ⟨net', hact, hsound, ?_⟩
        obtain ⟨_, hsame⟩ | ⟨m, _, _, _, hstep⟩ := heffect
        · rw [hsame]
        · rw [hstep]
          exact FifoChain.step_act blocks net.chain (.take i)
      · obtain ⟨net', q, hact, hsound, _, _, heffect⟩ := send_spec h hnet hb hpending
        refine ⟨net', hact, hsound, ?_⟩
        obtain hsame | hstep := heffect
        · rw [hsame]
        · rw [hstep]
          exact FifoChain.step_act blocks net.chain (.send i)

/-- A new queue is empty. -/
theorem contents_start (h : Sizes MAX_BLOCK_SIZE maxSize) :
    contents (ReaderWriterQueue.start (T := M) MAX_BLOCK_SIZE maxSize) = [] := by
  have hrun : ReaderWriterQueue.run MAX_BLOCK_SIZE maxSize [] =
      some (ReaderWriterQueue.start (T := M) MAX_BLOCK_SIZE maxSize) := rfl
  obtain ⟨fifo, hhistory, hcontents⟩ := run_history h hrun
  have hlog : (ReaderWriterQueue.start (T := M) MAX_BLOCK_SIZE maxSize).shared.log = [] := rfl
  rw [hlog] at hhistory
  have hitems := hhistory.entered_eq
  rw [hcontents, (List.append_eq_nil_iff.mp hitems.symm).2]

theorem chain_start (h : Sizes MAX_BLOCK_SIZE maxSize) (blocks : List (FifoChain.Block σ M))
    (source : List M) (init : σ) :
    (start MAX_BLOCK_SIZE maxSize blocks source init).chain =
      FifoChain.Network.start blocks source init := by
  have hqueues :
      contents ∘ (fun _ : ℕ => ReaderWriterQueue.start (T := M) MAX_BLOCK_SIZE maxSize) =
        fun _ => [] := by
    funext i
    rw [Function.comp_apply, contents_start h]
  rw [Network.chain, start, hqueues, FifoChain.Network.start]

theorem run_sound (h : Sizes MAX_BLOCK_SIZE maxSize) (blocks : List (FifoChain.Block σ M))
    (schedule : List Action) (hnet : Sound MAX_BLOCK_SIZE maxSize net) :
    ∃ net', GuardedRun.run (act MAX_BLOCK_SIZE blocks) schedule net = some net' ∧
      Relation.ReflTransGen (FifoChain.Step blocks) net.chain net'.chain := by
  induction schedule generalizing net with
  | nil => exact ⟨net, rfl, .refl⟩
  | cons a schedule ih =>
    obtain ⟨middle, hact, hmiddle, hstep⟩ := act_refines h blocks hnet a
    obtain ⟨net', hrun, hchain⟩ := ih hmiddle
    exact ⟨net', by rw [GuardedRun.run_cons, hact, Option.bind_some, hrun], hstep.trans hchain⟩

/-- However the threads interleave at their accesses to memory, none of them fails,
and what is in the queues and in the blocks then is what a chain of queues that act
at once can come to. A queue that is full grows, and its allocations succeed. -/
theorem network_refines (h : Sizes MAX_BLOCK_SIZE maxSize)
    (blocks : List (FifoChain.Block σ M)) (source : List M) (init : σ) (schedule : List Action) :
    ∃ net, GuardedRun.run (act MAX_BLOCK_SIZE blocks) schedule
        (start MAX_BLOCK_SIZE maxSize blocks source init) = some net ∧
      FifoChain.Reachable blocks source init net.chain := by
  obtain ⟨net, hrun, hchain⟩ := run_sound h blocks schedule (sound_start blocks source init)
  refine ⟨net, hrun, ?_⟩
  rw [FifoChain.Reachable, ← chain_start h]
  exact hchain

/-- A message is written, taken and sent on. -/
theorem network_refines_program :
    ∃ net, GuardedRun.run (act 4 [FifoChain.Block.ofMap () (fun m : ℕ => m + 1)])
        (List.replicate 4 .produce ++ List.replicate 9 (.block 0))
        (start 4 1 [FifoChain.Block.ofMap () (fun m : ℕ => m + 1)] [5] ()) = some net ∧
      contents (net.queue 1) = [6] ∧
      FifoChain.Reachable [FifoChain.Block.ofMap () (fun m : ℕ => m + 1)] [5] () net.chain := by
  obtain ⟨net, hrun, hreachable⟩ := network_refines sizes_small
    [FifoChain.Block.ofMap () (fun m : ℕ => m + 1)] [5] ()
    (List.replicate 4 .produce ++ List.replicate 9 (.block 0))
  obtain ⟨net', hrun', hcontents⟩ :
      ∃ net, GuardedRun.run (act 4 [FifoChain.Block.ofMap () (fun m : ℕ => m + 1)])
          (List.replicate 4 .produce ++ List.replicate 9 (.block 0))
          (start 4 1 [FifoChain.Block.ofMap () (fun m : ℕ => m + 1)] [5] ()) = some net ∧
        contents (net.queue 1) = [6] := ⟨_, rfl, rfl⟩
  obtain rfl := Option.some.inj (hrun.symm.trans hrun')
  exact ⟨net, hrun, hcontents, hreachable⟩

end EsSensor.QueueNetwork
