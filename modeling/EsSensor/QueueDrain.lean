import EsSensor.Library.DrainChain
import EsSensor.QueueNetwork

/-!
The same threads with the loop `while (mRunning || mQueueIn->size_approx() != 0)`,
and the main thread that stops them one after the other. A size is counted block
by block while the producer may write; it is nevertheless exact where it decides
that the loop ends.
-/
namespace EsSensor.QueueDrain

open AtomicFifo DrainChain GuardedRun MachineWord QueueNetwork ReaderWriterQueue

variable {σ M : Type}

/-- As in `DrainChain.State`, with the queues as they are in memory. -/
structure State (σ M : Type) where
  net : Network σ M
  producerDone : Bool
  running : ℕ → Bool
  pc : ℕ → Pc
  stopping : ℕ
  told : Bool

def State.finished (s : State σ M) : ℕ → Bool
  | 0 => s.producerDone
  | i + 1 => s.pc i = .done

def State.goTo (s : State σ M) (i : ℕ) (pc : Pc) : State σ M :=
  { s with pc := Function.update s.pc i pc }

def isIdle : Dequeue M → Bool
  | .idle => true
  | _ => false

/-- One step of a thread in `size_approx`, and the size when the call returns. -/
def sizeStep (MAX_BLOCK_SIZE : ℕ) (q : System M) : Option (Option ℕ × System M) :=
  match q.right with
  | .idle =>
    (ReaderWriterQueue.act MAX_BLOCK_SIZE (.inr (some .sizeApprox)) q).map (fun q' => (none, q'))
  | .measureNext _ _ result =>
    (ReaderWriterQueue.act MAX_BLOCK_SIZE (.inr none) q).map
      (fun q' => (if isIdle q'.right then some result else none, q'))
  | _ => (ReaderWriterQueue.act MAX_BLOCK_SIZE (.inr none) q).map (fun q' => (none, q'))

/-- Where a step in `try_dequeue` leads: to the body of the loop, to its condition,
or on in the call. -/
def afterTake (before after : Dequeue M) : Pc :=
  if (returning before).isSome then .work
  else if isIdle before then .dequeue
  else if isIdle after then .test
  else .dequeue

theorem eq_idle {pc : Dequeue M} (h : isIdle pc = true) : pc = .idle := by
  cases pc with
  | idle => rfl
  | _ => cases h

theorem afterTake_some {before after : Dequeue M} {m : M} (h : returning before = some m) :
    afterTake before after = .work := by
  rw [afterTake, h]
  rfl

theorem afterTake_none (after : Dequeue M) {before : Dequeue M}
    (h : returning before = none) :
    afterTake before after = .dequeue ∨ (afterTake before after = .test ∧ after = .idle) := by
  rw [afterTake, h]
  by_cases hbefore : isIdle before = true
  · exact Or.inl (by simp [hbefore])
  · by_cases hafter : isIdle after = true
    · exact Or.inr ⟨by simp [hbefore, hafter], eq_idle hafter⟩
    · exact Or.inl (by simp [hbefore, hafter])

def threadStep (MAX_BLOCK_SIZE : ℕ) (blocks : List (FifoChain.Block σ M)) (i : ℕ)
    (s : State σ M) : Option (State σ M) :=
  match s.pc i with
  | .start => some ({ s with running := Function.update s.running i true }.goTo i .test)
  | .test => some (s.goTo i (if s.running i then .dequeue else .size))
  | .size => do
    let (size, q) ← sizeStep MAX_BLOCK_SIZE (s.net.queue i)
    let s := { s with net := { s.net with queue := Function.update s.net.queue i q } }
    match size with
    | none => some s
    | some n => some (s.goTo i (if n ≠ 0 then .dequeue else .done))
  | .dequeue => do
    let net ← QueueNetwork.act MAX_BLOCK_SIZE blocks (.block i) s.net
    some ({ s with net := net }.goTo i
      (afterTake (s.net.queue i).right (net.queue i).right))
  | .work =>
    if (s.net.pending i).isEmpty then some (s.goTo i .test)
    else do
      let net ← QueueNetwork.act MAX_BLOCK_SIZE blocks (.block i) s.net
      some { s with net := net }
  | .done => some s

/-- The thread that is next. The producer ends where it is in no call. -/
inductive Action
  | produce
  | finish
  | block (i : ℕ)
  | main

def act (MAX_BLOCK_SIZE : ℕ) (blocks : List (FifoChain.Block σ M)) (a : Action)
    (s : State σ M) : Option (State σ M) :=
  match a with
  | .produce =>
    if s.producerDone then some s
    else do
      let net ← QueueNetwork.act MAX_BLOCK_SIZE blocks .produce s.net
      some { s with net := net }
  | .finish =>
    if inCall (s.net.queue 0).left then some s else some { s with producerDone := true }
  | .block i => if i < blocks.length then threadStep MAX_BLOCK_SIZE blocks i s else some s
  | .main =>
    if s.told = false then
      if s.stopping ≤ blocks.length then
        some { s with told := true, running := clearFlag s.running s.stopping }
      else some s
    else
      if s.finished s.stopping then some { s with stopping := s.stopping + 1, told := false }
      else some s

def start (MAX_BLOCK_SIZE maxSize : ℕ) (blocks : List (FifoChain.Block σ M)) (source : List M)
    (init : σ) : State σ M where
  net := QueueNetwork.start MAX_BLOCK_SIZE maxSize blocks source init
  producerDone := false
  running := fun _ => false
  pc := fun _ => .start
  stopping := 0
  told := false

/-- The threads as they are seen with queues that act at once. -/
def State.chain (s : State σ M) : DrainChain.State σ M where
  net := s.net.chain
  producerDone := s.producerDone
  running := s.running
  pc := s.pc
  stopping := s.stopping
  told := s.told

theorem finished_chain (s : State σ M) (k : ℕ) : s.finished k = s.chain.finished k := by
  cases k <;> rfl

/-- A size is being counted, and nothing has happened to the queue since the call. -/
def Counting (q : System M) : Prop :=
  q.right.removing = false ∧ isIdle q.right = false ∧
    ∃ before, q.shared.log = before ++ [.request]

/-- Where the threads may be in their calls. -/
structure Sound (MAX_BLOCK_SIZE maxSize : ℕ) (s : State σ M) : Prop where
  net : QueueNetwork.Sound MAX_BLOCK_SIZE maxSize s.net
  producer : s.producerDone = true → (s.net.queue 0).left = .idle
  counting : ∀ i, s.pc i = .size → (s.net.queue i).right = .idle ∨ Counting (s.net.queue i)
  quiet : ∀ i, s.pc i ≠ .size → s.pc i ≠ .dequeue → (s.net.queue i).right = .idle

section Size

variable {MAX_BLOCK_SIZE maxSize : ℕ} {q q' : System M}

/-- Between its calls the producer has offered nothing that is not answered for. -/
theorem offering_eq_false (h : Sizes MAX_BLOCK_SIZE maxSize)
    (hq : Reached MAX_BLOCK_SIZE maxSize q) (hleft : q.left = .idle) :
    offering q.shared.log = false := by
  obtain ⟨schedule, hrun⟩ := hq
  obtain ⟨least, hholds⟩ := run_holds (T := M) h
  obtain ⟨t, ht, g, hinv, hproducer, _⟩ := hholds schedule
  obtain rfl := Option.some.inj (hrun.symm.trans ht)
  rw [hleft] at hproducer
  rw [← hinv.log.offering_eq, hproducer.2]
  rfl

theorem call_counts (hidle : q.right = .idle)
    (hact : ReaderWriterQueue.act MAX_BLOCK_SIZE (.inr (some .sizeApprox)) q = some q') :
    Counting q' := by
  obtain ⟨r, hstep, rfl⟩ := Option.map_eq_some_iff.mp hact
  rw [hidle] at hstep
  cases hstep
  exact ⟨rfl, rfl, q.shared.log, rfl⟩

/-- The size that is counted while the producer is in no call is that of the queue. -/
theorem measured_exact (h : Sizes MAX_BLOCK_SIZE maxSize) (hq : Reached MAX_BLOCK_SIZE maxSize q)
    (hleft : q.left = .idle) (hq' : Reached MAX_BLOCK_SIZE maxSize q') {before : List (Event M)}
    (hlog : q.shared.log = before ++ [.request]) {n : ℕ}
    (hlog' : q'.shared.log = q.shared.log ++ [.measured n])
    (hbound : (contents q).length < 2 ^ 64) : n = (contents q).length := by
  have hoffering := offering_eq_false h hq hleft
  obtain ⟨schedule, hrun⟩ := hq
  obtain ⟨schedule', hrun'⟩ := hq'
  obtain ⟨fifo, hhistory, hcontents⟩ := run_history h hrun
  obtain ⟨fifo', hhistory', _⟩ := run_history h hrun'
  rw [hlog', hlog] at hhistory'
  obtain ⟨m, rfl, hlow, hhigh⟩ := hhistory'.measured_answer (by simp)
  rw [hlog] at hoffering
  rw [hoffering, if_neg (by decide), List.append_nil] at hhigh
  have hitems := congrArg List.length hhistory.entered_eq
  rw [hlog, List.length_append, ← hcontents, entered, left, List.filterMap_append,
    List.filterMap_append, ← entered, ← left] at hitems
  simp only [List.filterMap_cons, List.filterMap_nil, List.append_nil] at hitems
  have hm : m = (contents q).length := by omega
  rw [hm, u64_of_lt hbound]

theorem sizeStep_spec (h : Sizes MAX_BLOCK_SIZE maxSize) (hq : Reached MAX_BLOCK_SIZE maxSize q)
    (hleft : q.left = .idle) (hright : q.right = .idle ∨ Counting q)
    (hbound : (contents q).length < 2 ^ 64) :
    ∃ size q', sizeStep MAX_BLOCK_SIZE q = some (size, q') ∧ Reached MAX_BLOCK_SIZE maxSize q' ∧
      q'.left = q.left ∧ contents q' = contents q ∧
      ((size = none ∧ Counting q') ∨
        (size = some (contents q).length ∧ q'.right = .idle)) := by
  obtain hidle | ⟨hremoving, hnotIdle, before, hlog⟩ := hright
  · obtain ⟨q', hact, hq'⟩ := hq.act h (.inr (some .sizeApprox))
    obtain ⟨hleft', hlog⟩ := call_requests hidle hact
    have hcontents := hq.contents_eq h hq' hlog
    refine ⟨none, q', by simp [sizeStep, hidle, hact], hq', hleft', ?_,
      Or.inl ⟨rfl, call_counts hidle hact⟩⟩
    simpa [entered, left] using hcontents.symm
  · obtain ⟨q', hact, hq'⟩ := hq.act h (.inr none)
    obtain ⟨events, hmove, hleft', hlog'⟩ := act_none hact
    have hcontents := hq.contents_eq h hq' hlog'
    cases hpc : q.right with
    | measure f p r =>
      rw [hpc] at hmove
      generalize hpc' : q'.right = pc' at hmove
      cases hmove
      refine ⟨none, q', by simp [sizeStep, hpc, hact], hq', hleft', ?_, Or.inl ⟨rfl, ?_⟩⟩
      · simpa [entered, left] using hcontents.symm
      · exact ⟨by rw [hpc']; rfl, by rw [hpc']; rfl, before, by rw [hlog', hlog, List.append_nil]⟩
    | measureNext f p r =>
      rw [hpc] at hmove
      generalize hpc' : q'.right = pc' at hmove
      cases hmove with
      | measureNext f p n r =>
        refine ⟨none, q', by simp [sizeStep, hpc, hact, hpc', isIdle], hq', hleft', ?_,
          Or.inl ⟨rfl, ?_⟩⟩
        · simpa [entered, left] using hcontents.symm
        · exact ⟨by rw [hpc']; rfl, by rw [hpc']; rfl, before,
            by rw [hlog', hlog, List.append_nil]⟩
      | measured f p r =>
        have hexact := measured_exact h hq hleft hq' hlog hlog' hbound
        refine ⟨some r, q', by simp [sizeStep, hpc, hact, hpc', isIdle], hq', hleft', ?_,
          Or.inr ⟨by rw [hexact], hpc'⟩⟩
        simpa [entered, left] using hcontents.symm
    | idle =>
      rw [hpc] at hnotIdle
      cases hnotIdle
    | _ =>
      rw [hpc] at hremoving
      cases hremoving

end Size

variable {MAX_BLOCK_SIZE maxSize : ℕ} {blocks : List (FifoChain.Block σ M)} {s : State σ M}
  {i : ℕ} {q : System M}

/-- The sender of a queue is in no call when it has ended. -/
theorem Sound.sender_idle (hs : Sound MAX_BLOCK_SIZE maxSize s) (hinv : Inv s.chain)
    (hfinished : s.chain.finished i = true) : (s.net.queue i).left = .idle := by
  cases i with
  | zero => exact hs.producer hfinished
  | succ k =>
    have hdone : s.pc k = .done := of_decide_eq_true hfinished
    have hpending : s.net.pending k = [] := hinv.idle k (by
      show s.pc k ≠ .work
      rw [hdone]
      decide)
    exact sending_nil (hpending ▸ hs.net.pending k)

theorem goTo_self {p : Pc} (hpc : s.pc i = p) : s.goTo i p = s := by
  rw [State.goTo, ← hpc, Function.update_eq_self]

/-- The thread of a block has worked on the queue before it. -/
theorem Sound.takes (hs : Sound MAX_BLOCK_SIZE maxSize s) {net : Network σ M} {p : Pc}
    (hnet : QueueNetwork.Sound MAX_BLOCK_SIZE maxSize net)
    (hqueue : net.queue = Function.update s.net.queue i q)
    (hleft : q.left = (s.net.queue i).left)
    (hcounting : p = .size → q.right = .idle ∨ Counting q)
    (hquiet : p ≠ .size → p ≠ .dequeue → q.right = .idle) :
    Sound MAX_BLOCK_SIZE maxSize ({ s with net := net }.goTo i p) where
  net := hnet
  producer hdone := by
    show (net.queue 0).left = .idle
    rw [hqueue, left_update hleft]
    exact hs.producer hdone
  counting j hpc := by
    show (net.queue j).right = .idle ∨ Counting (net.queue j)
    rw [hqueue]
    change Function.update s.pc i p j = .size at hpc
    by_cases hj : j = i
    · subst hj
      rw [Function.update_self] at hpc ⊢
      exact hcounting hpc
    · rw [Function.update_of_ne hj] at hpc ⊢
      exact hs.counting j hpc
  quiet j hsize hdequeue := by
    show (net.queue j).right = .idle
    rw [hqueue]
    change Function.update s.pc i p j ≠ .size at hsize
    change Function.update s.pc i p j ≠ .dequeue at hdequeue
    by_cases hj : j = i
    · subst hj
      rw [Function.update_self] at hsize hdequeue ⊢
      exact hquiet hsize hdequeue
    · rw [Function.update_of_ne hj] at hsize hdequeue ⊢
      exact hs.quiet j hsize hdequeue

/-- A thread has worked on the queue after it; nobody counts that one meanwhile. -/
theorem Sound.sends (hs : Sound MAX_BLOCK_SIZE maxSize s) (hinv : Inv s.chain)
    {net : Network σ M} (hnet : QueueNetwork.Sound MAX_BLOCK_SIZE maxSize net)
    (hqueue : net.queue = Function.update s.net.queue i q)
    (hright : q.right = (s.net.queue i).right) (hsender : s.chain.finished i = false) :
    Sound MAX_BLOCK_SIZE maxSize { s with net := net } where
  net := hnet
  producer hdone := by
    show (net.queue 0).left = .idle
    have hne : 0 ≠ i := by
      rintro rfl
      exact absurd (hdone.symm.trans hsender) (by decide)
    rw [hqueue, Function.update_of_ne hne]
    exact hs.producer hdone
  counting j hpc := by
    show (net.queue j).right = .idle ∨ Counting (net.queue j)
    have hne : j ≠ i := by
      rintro rfl
      exact absurd ((hinv.sized j hpc).symm.trans hsender) (by decide)
    rw [hqueue, Function.update_of_ne hne]
    exact hs.counting j hpc
  quiet j hsize hdequeue := by
    show (net.queue j).right = .idle
    rw [hqueue]
    by_cases hj : j = i
    · rw [hj, Function.update_self, hright, ← hj]
      exact hs.quiet j hsize hdequeue
    · rw [Function.update_of_ne hj]
      exact hs.quiet j hsize hdequeue

theorem Sound.goTo (hs : Sound MAX_BLOCK_SIZE maxSize s) {p : Pc}
    (hidle : (s.net.queue i).right = .idle) : Sound MAX_BLOCK_SIZE maxSize (s.goTo i p) :=
  hs.takes hs.net (Function.update_eq_self ..).symm rfl (fun _ => Or.inl hidle)
    (fun _ _ => hidle)

/-- A step of the threads succeeds, and is no step of the threads with queues that
act at once or one. -/
def Refines (MAX_BLOCK_SIZE maxSize : ℕ) (blocks : List (FifoChain.Block σ M)) (s : State σ M)
    (step : Option (State σ M)) : Prop :=
  ∃ s', step = some s' ∧ Sound MAX_BLOCK_SIZE maxSize s' ∧
    (s'.chain = s.chain ∨ ∃ a, DrainChain.act blocks a s.chain = some s'.chain)

theorem size_refines (h : Sizes MAX_BLOCK_SIZE maxSize) (hs : Sound MAX_BLOCK_SIZE maxSize s)
    (hinv : Inv s.chain) (hpc : s.pc i = .size)
    (hbound : (contents (s.net.queue i)).length < 2 ^ 64) :
    Refines MAX_BLOCK_SIZE maxSize blocks s (threadStep MAX_BLOCK_SIZE blocks i s) := by
  have hleft := hs.sender_idle hinv (hinv.sized i hpc)
  obtain ⟨size, q, hstep, hq, hleft', hcontents, hresult⟩ :=
    sizeStep_spec h (hs.net.reached i) hleft (hs.counting i hpc) hbound
  have hnet : QueueNetwork.Sound MAX_BLOCK_SIZE maxSize
      { s.net with queue := Function.update s.net.queue i q } := by
    refine ⟨hs.net.reached_update hq, ?_, ?_⟩
    · show Sending s.net.source (Function.update s.net.queue i q 0).left
      rw [left_update hleft']
      exact hs.net.source
    · intro k
      show Sending (s.net.pending k) (Function.update s.net.queue i q (k + 1)).left
      rw [left_update hleft']
      exact hs.net.pending k
  have hchain : { s.net with queue := Function.update s.net.queue i q }.chain = s.net.chain := by
    simp only [Network.chain, chain_queue_same hcontents]
  obtain ⟨rfl, hcounting⟩ | ⟨rfl, hidle⟩ := hresult
  · refine ⟨{ s with net := { s.net with queue := Function.update s.net.queue i q } },
      by simp [threadStep, hpc, hstep], ?_, Or.inl ?_⟩
    · have hsound := hs.takes (p := .size) hnet rfl hleft' (fun _ => Or.inr hcounting)
        (fun hne => absurd rfl hne)
      rwa [goTo_self (by exact hpc)] at hsound
    · simp only [State.chain, hchain]
  · refine ⟨{ s with net := { s.net with queue := Function.update s.net.queue i q } }.goTo i
      (if (contents (s.net.queue i)).length ≠ 0 then .dequeue else .done),
      by simp [threadStep, hpc, hstep], ?_, Or.inr ⟨.size i (contents (s.net.queue i)).isEmpty, ?_⟩⟩
    · exact hs.takes hnet rfl hleft' (fun _ => Or.inl hidle) (fun _ _ => hidle)
    · rw [DrainChain.act, if_pos ⟨hpc, fun _ => rfl⟩]
      cases hitems : contents (s.net.queue i) with
      | nil => simp [State.chain, State.goTo, DrainChain.State.goTo, hchain]
      | cons m rest => simp [State.chain, State.goTo, DrainChain.State.goTo, hchain]

theorem dequeue_refines (h : Sizes MAX_BLOCK_SIZE maxSize) (hs : Sound MAX_BLOCK_SIZE maxSize s)
    (hinv : Inv s.chain) {b : FifoChain.Block σ M} (hb : blocks[i]? = some b)
    (hpc : s.pc i = .dequeue) :
    Refines MAX_BLOCK_SIZE maxSize blocks s (threadStep MAX_BLOCK_SIZE blocks i s) := by
  have hpending : s.net.pending i = [] := hinv.idle i (by
    show s.pc i ≠ .work
    rw [hpc]
    decide)
  obtain ⟨net, q, hact, hnet, hqueue, hleft, heffect⟩ := take_spec h hs.net hb hpending
  have hafter : net.queue i = q := by rw [hqueue, Function.update_self]
  refine ⟨{ s with net := net }.goTo i (afterTake (s.net.queue i).right q.right),
    by simp [threadStep, hpc, hact, hafter], ?_, ?_⟩
  · refine hs.takes hnet hqueue hleft ?_ ?_
    · intro hsize
      obtain ⟨hnone, _⟩ | ⟨m, hreturning, _⟩ := heffect
      · obtain hgoOn | ⟨htest, _⟩ := afterTake_none q.right hnone
        · rw [hgoOn] at hsize
          cases hsize
        · rw [htest] at hsize
          cases hsize
      · rw [afterTake_some hreturning] at hsize
        cases hsize
    · intro _ hdequeue
      obtain ⟨hnone, _⟩ | ⟨m, _, hidle, _⟩ := heffect
      · obtain hgoOn | ⟨_, hidle⟩ := afterTake_none q.right hnone
        · exact absurd hgoOn hdequeue
        · exact hidle
      · exact hidle
  · have hpc' : s.chain.pc i = .dequeue := hpc
    obtain ⟨hnone, hsame⟩ | ⟨m, hreturning, _, hitems, hstep⟩ := heffect
    · obtain hgoOn | ⟨htest, _⟩ := afterTake_none q.right hnone
      · refine Or.inl ?_
        simp only [State.chain, State.goTo, hgoOn, hsame, ← hpc, Function.update_eq_self]
      · refine Or.inr ⟨.miss i, ?_⟩
        rw [DrainChain.act, if_pos hpc', htest]
        simp only [State.chain, State.goTo, DrainChain.State.goTo, hsame]
    · refine Or.inr ⟨.dequeue i, ?_⟩
      have hsome : (s.chain.net.queue i).isEmpty = false := List.isEmpty_eq_false_iff.mpr hitems
      rw [DrainChain.act, if_pos ⟨hpc', hsome⟩, afterTake_some hreturning]
      simp only [State.chain, State.goTo, DrainChain.State.goTo, hstep]

theorem work_refines (h : Sizes MAX_BLOCK_SIZE maxSize) (hs : Sound MAX_BLOCK_SIZE maxSize s)
    (hinv : Inv s.chain) {b : FifoChain.Block σ M} (hb : blocks[i]? = some b)
    (hpc : s.pc i = .work) :
    Refines MAX_BLOCK_SIZE maxSize blocks s (threadStep MAX_BLOCK_SIZE blocks i s) := by
  have hpc' : s.chain.pc i = .work := hpc
  by_cases hpending : s.net.pending i = []
  · have hidle := hs.quiet i (by rw [hpc]; decide) (by rw [hpc]; decide)
    have hempty : (s.chain.net.pending i).isEmpty = true := List.isEmpty_iff.mpr hpending
    refine ⟨s.goTo i .test, by simp [threadStep, hpc, hpending], hs.goTo hidle,
      Or.inr ⟨.send i, ?_⟩⟩
    rw [DrainChain.act, if_pos hpc', if_pos hempty]
    rfl
  · obtain ⟨net, q, hact, hnet, hqueue, hright, heffect⟩ := send_spec h hs.net hb hpending
    have hunfinished : s.chain.finished (i + 1) = false := by
      simp [DrainChain.State.finished, State.chain, hpc]
    have hsome : ¬ (s.chain.net.pending i).isEmpty = true := by
      rw [List.isEmpty_iff]
      exact hpending
    refine ⟨{ s with net := net }, by simp [threadStep, hpc, hpending, hact],
      hs.sends hinv hnet hqueue hright hunfinished, ?_⟩
    obtain hsame | hstep := heffect
    · refine Or.inl ?_
      simp only [State.chain, hsame]
    · refine Or.inr ⟨.send i, ?_⟩
      rw [DrainChain.act, if_pos hpc', if_neg hsome]
      simp only [State.chain, hstep]

theorem thread_refines (h : Sizes MAX_BLOCK_SIZE maxSize) (hs : Sound MAX_BLOCK_SIZE maxSize s)
    (hinv : Inv s.chain) {b : FifoChain.Block σ M} (hb : blocks[i]? = some b)
    (hbound : (contents (s.net.queue i)).length < 2 ^ 64) :
    Refines MAX_BLOCK_SIZE maxSize blocks s (threadStep MAX_BLOCK_SIZE blocks i s) := by
  cases hpc : s.pc i with
  | start =>
    have hidle := hs.quiet i (by rw [hpc]; decide) (by rw [hpc]; decide)
    have hset : Sound MAX_BLOCK_SIZE maxSize
        { s with running := Function.update s.running i true } :=
      ⟨hs.net, hs.producer, hs.counting, hs.quiet⟩
    have hpc' : s.chain.pc i = .start := hpc
    refine ⟨_, by rw [threadStep, hpc], hset.goTo hidle, Or.inr ⟨.enter i, ?_⟩⟩
    rw [DrainChain.act, if_pos hpc']
    rfl
  | test =>
    have hidle := hs.quiet i (by rw [hpc]; decide) (by rw [hpc]; decide)
    have hpc' : s.chain.pc i = .test := hpc
    refine ⟨_, by rw [threadStep, hpc], hs.goTo hidle, Or.inr ⟨.test i, ?_⟩⟩
    rw [DrainChain.act, if_pos hpc']
    rfl
  | size => exact size_refines h hs hinv hpc hbound
  | dequeue => exact dequeue_refines h hs hinv hb hpc
  | work => exact work_refines h hs hinv hb hpc
  | done => exact ⟨s, by rw [threadStep, hpc], hs, Or.inl rfl⟩

theorem act_refines (h : Sizes MAX_BLOCK_SIZE maxSize) (hs : Sound MAX_BLOCK_SIZE maxSize s)
    (hinv : Inv s.chain)
    (hbound : ∀ i < blocks.length, (contents (s.net.queue i)).length < 2 ^ 64) (a : Action) :
    Refines MAX_BLOCK_SIZE maxSize blocks s (act MAX_BLOCK_SIZE blocks a s) := by
  cases a with
  | produce =>
    cases hdone : s.producerDone with
    | true => exact ⟨s, by simp [act, hdone], hs, Or.inl rfl⟩
    | false =>
      obtain ⟨net, q, hact, hnet, hqueue, hright, heffect⟩ := produce_spec h blocks hs.net
      refine ⟨{ s with net := net }, by simp [act, hdone, hact],
        hs.sends hinv hnet hqueue hright hdone, ?_⟩
      obtain hsame | ⟨hsource, hstep⟩ := heffect
      · refine Or.inl ?_
        simp only [State.chain, hsame]
      · refine Or.inr ⟨.produce, ?_⟩
        rw [DrainChain.act, if_pos ⟨hdone, hsource⟩]
        simp only [State.chain, hstep]
  | finish =>
    cases hcall : inCall (s.net.queue 0).left with
    | true => exact ⟨s, by simp [act, hcall], hs, Or.inl rfl⟩
    | false =>
      refine ⟨{ s with producerDone := true }, by simp [act, hcall],
        ⟨hs.net, ?_, hs.counting, hs.quiet⟩, Or.inr ⟨.finish, rfl⟩⟩
      intro _
      show (s.net.queue 0).left = .idle
      cases hleft : (s.net.queue 0).left with
      | idle => rfl
      | _ =>
        rw [hleft] at hcall
        cases hcall
  | block i =>
    rw [act]
    split_ifs with hi
    · exact thread_refines h hs hinv (List.getElem?_eq_getElem hi) (hbound i hi)
    · exact ⟨s, rfl, hs, Or.inl rfl⟩
  | main =>
    rw [act]
    split_ifs with htold hstopping hfinished
    · refine ⟨_, rfl, ⟨hs.net, hs.producer, hs.counting, hs.quiet⟩, Or.inr ⟨.tell, ?_⟩⟩
      rw [DrainChain.act, if_pos ⟨htold, hstopping⟩]
      rfl
    · exact ⟨s, rfl, hs, Or.inl rfl⟩
    · refine ⟨_, rfl, ⟨hs.net, hs.producer, hs.counting, hs.quiet⟩, Or.inr ⟨.join, ?_⟩⟩
      have hjoined : s.chain.finished s.chain.stopping = true := by
        rw [← finished_chain]
        exact hfinished
      have htold' : s.told = true := by simpa using htold
      rw [DrainChain.act, if_pos ⟨show s.chain.told = true from htold', hjoined⟩]
      rfl
    · exact ⟨s, rfl, hs, Or.inl rfl⟩

theorem chain_start (h : Sizes MAX_BLOCK_SIZE maxSize) (blocks : List (FifoChain.Block σ M))
    (source : List M) (init : σ) :
    (start MAX_BLOCK_SIZE maxSize blocks source init).chain =
      DrainChain.start blocks source init := by
  rw [State.chain, start, QueueNetwork.chain_start h]
  rfl

theorem sound_start (blocks : List (FifoChain.Block σ M)) (source : List M) (init : σ) :
    Sound MAX_BLOCK_SIZE maxSize (start MAX_BLOCK_SIZE maxSize blocks source init) :=
  ⟨QueueNetwork.sound_start blocks source init, fun _ => rfl, fun _ _ => Or.inl rfl,
    fun _ _ _ => rfl⟩

/-- A queue never holds more than the blocks before it make of what the producer has. -/
theorem contents_lt {source : List M} {init : σ} {actions : List DrainChain.Action}
    (hrun : run (DrainChain.act blocks) actions (DrainChain.start blocks source init) =
      some s.chain)
    (hcount : ∀ i < blocks.length, (FifoChain.through blocks source i).length < 2 ^ 64) :
    ∀ i < blocks.length, (contents (s.net.queue i)).length < 2 ^ 64 := by
  intro i hi
  obtain ⟨fed, taken, hexplains⟩ :=
    FifoChain.explains_of_reachable (DrainChain.reachable_of_run hrun)
  have hfed := (FifoChain.fed_isPrefix hexplains i (by omega)).length_le
  have hqueue := congrArg List.length (hexplains.fed_eq i)
  rw [List.length_append] at hqueue
  have hcontents : (s.chain.net.queue i).length = (contents (s.net.queue i)).length := rfl
  have := hcount i hi
  omega

/-- However the threads interleave at their accesses to memory, none of them fails,
and they do what they could do with queues that act at once. -/
theorem run_refines (h : Sizes MAX_BLOCK_SIZE maxSize) (blocks : List (FifoChain.Block σ M))
    (source : List M) (init : σ)
    (hcount : ∀ i < blocks.length, (FifoChain.through blocks source i).length < 2 ^ 64)
    (schedule : List Action) :
    ∃ s actions, run (act MAX_BLOCK_SIZE blocks) schedule
        (start MAX_BLOCK_SIZE maxSize blocks source init) = some s ∧
      run (DrainChain.act blocks) actions (DrainChain.start blocks source init) =
        some s.chain := by
  have hall : ∀ (schedule : List Action) (s : State σ M) (before : List DrainChain.Action),
      Sound MAX_BLOCK_SIZE maxSize s →
      run (DrainChain.act blocks) before (DrainChain.start blocks source init) = some s.chain →
      ∃ s' actions, run (act MAX_BLOCK_SIZE blocks) schedule s = some s' ∧
        run (DrainChain.act blocks) actions (DrainChain.start blocks source init) =
          some s'.chain := by
    intro schedule
    induction schedule with
    | nil =>
      intro s before _ hbefore
      exact ⟨s, before, rfl, hbefore⟩
    | cons a schedule ih =>
      intro s before hs hbefore
      have hinv : Inv s.chain := inv_of_run (fun _ _ _ hs hact => inv_act hs hact)
        (inv_start blocks source init) hbefore
      obtain ⟨t, hact, ht, hsame | ⟨a', ha'⟩⟩ :=
        act_refines h hs hinv (contents_lt hbefore hcount) a
      · obtain ⟨s', actions, hrun, hchain⟩ := ih t before ht (by rw [hsame]; exact hbefore)
        exact ⟨s', actions, by rw [run_cons, hact, Option.bind_some, hrun], hchain⟩
      · have hafter : run (DrainChain.act blocks) (before ++ [a'])
            (DrainChain.start blocks source init) = some t.chain := by
          rw [GuardedRun.run_append, hbefore, Option.bind_some, run_cons, ha']
          rfl
        obtain ⟨s', actions, hrun, hchain⟩ := ih t (before ++ [a']) ht hafter
        exact ⟨s', actions, by rw [run_cons, hact, Option.bind_some, hrun], hchain⟩
  refine hall schedule _ [] (sound_start blocks source init) ?_
  rw [chain_start h, run_nil]

/-- When the main thread has joined every component, no block runs any more and no
element is left in the memory of a queue that a block reads. Each block has taken all
that comes from what the producer has sent, and the last one has sent on what follows
from it. The queues' allocations succeed. -/
theorem drained_of_stopped (h : Sizes MAX_BLOCK_SIZE maxSize)
    (blocks : List (FifoChain.Block σ M)) (source : List M) (init : σ)
    (hcount : ∀ i < blocks.length, (FifoChain.through blocks source i).length < 2 ^ 64)
    {schedule : List Action}
    (hrun : run (act MAX_BLOCK_SIZE blocks) schedule
      (start MAX_BLOCK_SIZE maxSize blocks source init) = some s)
    (hstopped : blocks.length < s.stopping) :
    (∀ i < blocks.length,
      s.pc i = .done ∧ contents (s.net.queue i) = [] ∧ s.net.pending i = []) ∧
    ∃ sent, source = sent ++ s.net.source ∧
      contents (s.net.queue blocks.length) = FifoChain.through blocks sent blocks.length ∧
      ∀ i b, blocks[i]? = some b →
        s.net.held i = b.stateAfter (FifoChain.through blocks sent i) := by
  obtain ⟨t, actions, hrun', hchain⟩ := run_refines h blocks source init hcount schedule
  obtain rfl := Option.some.inj (hrun.symm.trans hrun')
  exact ⟨fun i hi => empty_of_stopped hchain hstopped hi, held_of_stopped hchain hstopped⟩

/-- A block that keeps what it takes, and sends it on. -/
def keeping : FifoChain.Block (List ℕ) ℕ where
  init := []
  step kept m := (kept ++ [m], [m])

/-- One message goes through; then the producer ends, and the block with it. -/
def stopping : List Action :=
  [.block 0, .block 0] ++ List.replicate 4 .produce ++ [.finish, .main, .main] ++
    List.replicate 10 (.block 0) ++ [.main] ++ List.replicate 5 (.block 0) ++ [.main]

theorem drained_of_stopped_one :
    ∃ s, run (act 4 [keeping]) stopping (start 4 1 [keeping] [5] []) = some s ∧
      s.stopping = 2 ∧ s.net.source = [] ∧ contents (s.net.queue 0) = [] ∧
      contents (s.net.queue 1) = [5] ∧ s.net.held 0 = [5] := by
  obtain ⟨s, hrun, hstopping, hsource⟩ :
      ∃ s, run (act 4 [keeping]) stopping (start 4 1 [keeping] [5] []) = some s ∧
        s.stopping = 2 ∧ s.net.source = [] := ⟨_, rfl, rfl, rfl⟩
  obtain ⟨hempty, sent, hsent, hout, hheld⟩ := drained_of_stopped sizes_small [keeping] [5] []
    (fun i hi => by obtain rfl : i = 0 := Nat.lt_one_iff.mp hi; decide) hrun
    (by rw [hstopping]; decide)
  obtain rfl : sent = [5] := by rw [hsent, hsource, List.append_nil]
  exact ⟨s, hrun, hstopping, hsource, (hempty 0 Nat.one_pos).2.1, hout, hheld 0 keeping rfl⟩

end EsSensor.QueueDrain
