import EsSensor.Library.FifoChain
import EsSensor.Library.GuardedRun

/-!
Stopping a chain of threads from its producer to its end. Each thread runs
`while (running || size != 0) { if (try_dequeue) ... }`, where the flag, the size
and the queue are looked at one after the other while the thread before it may
still write. The main thread clears a flag, waits for that thread to end, and
goes on to the next one.
-/
namespace EsSensor.DrainChain

open FifoChain GuardedRun

/-- Where a thread is. -/
inductive Pc
  | start
  | test
  | size
  | dequeue
  | work
  | done
  deriving DecidableEq, Repr

/-- The queues and what the blocks hold, the flags, and how far the main thread
has come: the component that it stops, and whether that one has been told. -/
structure State (σ M : Type) where
  net : Network σ M
  producerDone : Bool
  running : ℕ → Bool
  pc : ℕ → Pc
  stopping : ℕ
  told : Bool

variable {σ M : Type}

/-- Component 0 is the producer, component i + 1 is block i. -/
def State.finished (s : State σ M) : ℕ → Bool
  | 0 => s.producerDone
  | i + 1 => s.pc i = .done

def State.goTo (s : State σ M) (i : ℕ) (pc : Pc) : State σ M :=
  { s with pc := Function.update s.pc i pc }

def start (blocks : List (Block σ M)) (source : List M) (init : σ) : State σ M where
  net := Network.start blocks source init
  producerDone := false
  running := fun _ => false
  pc := fun _ => .start
  stopping := 0
  told := false

/-- One step of one thread. A size that is read and an attempt to dequeue may be
wrong about messages under way; `size` says what was read. -/
inductive Action
  | produce
  | finish
  | enter (i : ℕ)
  | test (i : ℕ)
  | size (i : ℕ) (empty : Bool)
  | dequeue (i : ℕ)
  | miss (i : ℕ)
  | send (i : ℕ)
  | tell
  | join
  deriving DecidableEq, Repr

/-- The main thread clears the flag of the component; a producer has none here. -/
def clearFlag (running : ℕ → Bool) : ℕ → ℕ → Bool
  | 0 => running
  | i + 1 => Function.update running i false

/-- The thread and the state it must be in, and what it does. The size is exact
once the component before has finished. -/
def act (blocks : List (Block σ M)) (a : Action) (s : State σ M) : Option (State σ M) :=
  match a with
  | .produce =>
    if s.producerDone = false ∧ s.net.source ≠ [] then
      some { s with net := FifoChain.act blocks s.net .produce }
    else none
  | .finish => some { s with producerDone := true }
  | .enter i =>
    if s.pc i = .start then some ({ s with running := Function.update s.running i true }.goTo i .test)
    else none
  | .test i =>
    if s.pc i = .test then some (s.goTo i (if s.running i then .dequeue else .size)) else none
  | .size i empty =>
    if s.pc i = .size ∧ (s.finished i = true → empty = (s.net.queue i).isEmpty) then
      some (s.goTo i (if empty then .done else .dequeue))
    else none
  | .dequeue i =>
    if s.pc i = .dequeue ∧ (s.net.queue i).isEmpty = false then
      some ({ s with net := FifoChain.act blocks s.net (.take i) }.goTo i .work)
    else none
  | .miss i => if s.pc i = .dequeue then some (s.goTo i .test) else none
  | .send i =>
    if s.pc i = .work then
      if (s.net.pending i).isEmpty then some (s.goTo i .test)
      else some { s with net := FifoChain.act blocks s.net (.send i) }
    else none
  | .tell =>
    if s.told = false ∧ s.stopping ≤ blocks.length then
      some { s with told := true, running := clearFlag s.running s.stopping }
    else none
  | .join =>
    if s.told = true ∧ s.finished s.stopping = true then
      some { s with stopping := s.stopping + 1, told := false }
    else none

/-- What the flags and the order of the joins guarantee. A thread that sees its
flag cleared has no writer before it any more. -/
structure Inv (s : State σ M) : Prop where
  flagged : ∀ i, s.pc i ≠ .start → s.running i = false → i < s.stopping
  joined : ∀ k < s.stopping, s.finished k = true
  sized : ∀ i, s.pc i = .size → s.finished i = true
  idle : ∀ i, s.pc i ≠ .work → s.net.pending i = []
  drained : ∀ i, s.pc i = .done → s.finished i = true ∧ s.net.queue i = []

variable {blocks : List (Block σ M)} {s s' : State σ M} {i j k : ℕ} {p : Pc}

theorem inv_start (blocks : List (Block σ M)) (source : List M) (init : σ) :
    Inv (start blocks source init) where
  flagged i hpc := absurd rfl hpc
  joined k hk := absurd hk (Nat.not_lt_zero k)
  sized i hpc := by cases hpc
  idle i hpc := rfl
  drained i hpc := by cases hpc

@[simp] theorem goTo_pc_self (s : State σ M) (i : ℕ) (p : Pc) : (s.goTo i p).pc i = p :=
  Function.update_self ..

theorem goTo_pc_of_ne (s : State σ M) (p : Pc) (hj : j ≠ i) : (s.goTo i p).pc j = s.pc j :=
  Function.update_of_ne hj ..

/-- A thread that moves has not ended, so what has ended stays so. -/
theorem finished_goTo (hmoves : s.pc i ≠ .done) (hk : s.finished k = true) :
    (s.goTo i p).finished k = true := by
  cases k with
  | zero => exact hk
  | succ k =>
    have hdone : s.pc k = .done := by simpa [State.finished] using hk
    have hne : k ≠ i := by
      intro heq
      exact hmoves (heq ▸ hdone)
    simpa [State.finished, goTo_pc_of_ne s p hne] using hdone

theorem Inv.goTo (hs : Inv s) (hmoves : s.pc i ≠ .done)
    (hflagged : s.running i = false → i < s.stopping)
    (hsized : p = .size → s.finished i = true)
    (hidle : p ≠ .work → s.net.pending i = [])
    (hdrained : p = .done → s.finished i = true ∧ s.net.queue i = []) : Inv (s.goTo i p) where
  flagged j hpc hrunning := by
    by_cases hj : j = i
    · subst hj
      exact hflagged hrunning
    · rw [goTo_pc_of_ne s p hj] at hpc
      exact hs.flagged j hpc hrunning
  joined k hk := finished_goTo hmoves (hs.joined k hk)
  sized j hpc := by
    refine finished_goTo hmoves ?_
    by_cases hj : j = i
    · subst hj
      exact hsized (by rwa [goTo_pc_self] at hpc)
    · rw [goTo_pc_of_ne s p hj] at hpc
      exact hs.sized j hpc
  idle j hpc := by
    by_cases hj : j = i
    · subst hj
      exact hidle (by rwa [goTo_pc_self] at hpc)
    · rw [goTo_pc_of_ne s p hj] at hpc
      exact hs.idle j hpc
  drained j hpc := by
    have hbefore : s.finished j = true ∧ s.net.queue j = [] := by
      by_cases hj : j = i
      · subst hj
        exact hdrained (by rwa [goTo_pc_self] at hpc)
      · rw [goTo_pc_of_ne s p hj] at hpc
        exact hs.drained j hpc
    exact ⟨finished_goTo hmoves hbefore.1, hbefore.2⟩

/-- Messages may move as long as no queue behind which the reader has ended gets
one, and nothing becomes pending but in a thread at work. -/
theorem Inv.move (hs : Inv s) {net : Network σ M}
    (hqueue : ∀ j, s.pc j = .done → net.queue j = s.net.queue j)
    (hpending : ∀ j, s.pc j ≠ .work → net.pending j = s.net.pending j) :
    Inv { s with net := net } where
  flagged := hs.flagged
  joined := hs.joined
  sized := hs.sized
  idle j hpc := (hpending j hpc).trans (hs.idle j hpc)
  drained j hpc := ⟨(hs.drained j hpc).1, (hqueue j hpc).trans (hs.drained j hpc).2⟩

theorem Inv.finish (hs : Inv s) : Inv { s with producerDone := true } := by
  have hkept : ∀ k, s.finished k = true →
      State.finished { s with producerDone := true } k = true := by
    intro k hk
    cases k with
    | zero => rfl
    | succ k => exact hk
  exact {
    flagged := hs.flagged
    joined := fun k hk => hkept k (hs.joined k hk)
    sized := fun i hpc => hkept i (hs.sized i hpc)
    idle := hs.idle
    drained := fun i hpc => ⟨hkept i (hs.drained i hpc).1, (hs.drained i hpc).2⟩ }

theorem Inv.enter (hs : Inv s) (hpc : s.pc i = .start) :
    Inv ({ s with running := Function.update s.running i true }.goTo i .test) := by
  have hset : Inv { s with running := Function.update s.running i true } := by
    refine ⟨?_, hs.joined, hs.sized, hs.idle, hs.drained⟩
    intro j hstarted hrunning
    have hj : j ≠ i := by
      intro heq
      exact hstarted (heq ▸ hpc)
    exact hs.flagged j hstarted ((Function.update_of_ne hj ..).symm.trans hrunning)
  refine hset.goTo (by rw [hpc]; decide) ?_ nofun ?_ nofun
  · intro hrunning
    exact absurd hrunning (by simp)
  · intro _
    exact hs.idle i (by rw [hpc]; decide)

theorem Inv.tell (hs : Inv s) :
    Inv { s with told := true, running := clearFlag s.running s.stopping } := by
  refine ⟨?_, hs.joined, hs.sized, hs.idle, hs.drained⟩
  intro i hstarted hrunning
  show i < s.stopping
  cases hstopping : s.stopping with
  | zero =>
    simp only [hstopping, clearFlag] at hrunning
    exact hstopping ▸ hs.flagged i hstarted hrunning
  | succ k =>
    by_cases hi : i = k
    · omega
    · simp only [hstopping, clearFlag, Function.update_of_ne hi] at hrunning
      exact hstopping ▸ hs.flagged i hstarted hrunning

theorem Inv.join (hs : Inv s) (hfinished : s.finished s.stopping = true) :
    Inv { s with stopping := s.stopping + 1, told := false } := by
  refine ⟨?_, ?_, hs.sized, hs.idle, hs.drained⟩
  · intro i hstarted hrunning
    exact Nat.lt_succ_of_lt (hs.flagged i hstarted hrunning)
  · intro k hk
    rcases Nat.lt_succ_iff_lt_or_eq.mp hk with hlt | heq
    · exact hs.joined k hlt
    · exact heq ▸ hfinished

theorem Inv.test (hs : Inv s) (hpc : s.pc i = .test) :
    Inv (s.goTo i (if s.running i then .dequeue else .size)) := by
  have hflagged : s.running i = false → i < s.stopping := hs.flagged i (by rw [hpc]; decide)
  have hpending : s.net.pending i = [] := hs.idle i (by rw [hpc]; decide)
  refine hs.goTo (by rw [hpc]; decide) hflagged ?_ (fun _ => hpending) ?_
  · intro hsize
    -- the flag is read as cleared, so the component before was joined
    have hcleared : s.running i = false := by
      by_contra hset
      rw [if_pos (by simpa using hset)] at hsize
      cases hsize
    exact hs.joined i (hflagged hcleared)
  · intro hdone
    split at hdone <;> cases hdone

theorem Inv.size {empty : Bool} (hs : Inv s) (hpc : s.pc i = .size)
    (hexact : s.finished i = true → empty = (s.net.queue i).isEmpty) :
    Inv (s.goTo i (if empty then .done else .dequeue)) := by
  have hfinished := hs.sized i hpc
  have hpending : s.net.pending i = [] := hs.idle i (by rw [hpc]; decide)
  refine hs.goTo (by rw [hpc]; decide) (hs.flagged i (by rw [hpc]; decide))
    (fun _ => hfinished) (fun _ => hpending) ?_
  intro hdone
  have hempty : empty = true := by
    by_contra hnot
    rw [if_neg hnot] at hdone
    cases hdone
  rw [hempty] at hexact
  exact ⟨hfinished, List.isEmpty_iff.mp (hexact hfinished).symm⟩

theorem Inv.dequeue (hs : Inv s) (hpc : s.pc i = .dequeue) :
    Inv ({ s with net := FifoChain.act blocks s.net (.take i) }.goTo i .work) := by
  have hmoved : Inv (s.goTo i .work) :=
    hs.goTo (by rw [hpc]; decide) (hs.flagged i (by rw [hpc]; decide)) nofun
      (fun hne => absurd rfl hne) nofun
  have hframe := act_take_frame blocks s.net i
  refine hmoved.move ?_ ?_
  · intro j hdone
    have hj : j ≠ i := by
      intro heq
      subst heq
      rw [goTo_pc_self] at hdone
      cases hdone
    exact (hframe j hj).1
  · intro j hidle
    have hj : j ≠ i := by
      intro heq
      subst heq
      exact hidle (goTo_pc_self ..)
    exact (hframe j hj).2

theorem Inv.produce (hs : Inv s) (hproducing : s.producerDone = false) :
    Inv { s with net := FifoChain.act blocks s.net .produce } := by
  obtain ⟨hqueue, hpending⟩ := act_produce_frame blocks s.net
  refine hs.move ?_ (fun j _ => congrFun hpending j)
  intro j hdone
  refine hqueue j ?_
  intro heq
  subst heq
  have hended : s.producerDone = true := (hs.drained 0 hdone).1
  rw [hproducing] at hended
  cases hended

theorem Inv.send (hs : Inv s) (hpc : s.pc i = .work) :
    Inv { s with net := FifoChain.act blocks s.net (.send i) } := by
  obtain ⟨hqueue, hpending⟩ := act_send_frame blocks s.net i
  refine hs.move ?_ ?_
  · intro j hdone
    refine hqueue j ?_
    intro heq
    subst heq
    have hended : s.pc i = .done := by simpa [State.finished] using (hs.drained (i + 1) hdone).1
    rw [hpc] at hended
    cases hended
  · intro j hidle
    refine hpending j ?_
    intro heq
    exact hidle (heq ▸ hpc)

/-- Every step of every thread keeps the invariant. -/
theorem inv_act {a : Action} (hs : Inv s) (hact : act blocks a s = some s') : Inv s' := by
  cases a with
  | produce =>
    obtain ⟨hguard, hact⟩ := Option.ite_none_right_eq_some.mp hact
    obtain rfl := Option.some.inj hact
    exact hs.produce hguard.1
  | finish =>
    obtain rfl := Option.some.inj hact
    exact hs.finish
  | enter i =>
    obtain ⟨hpc, hact⟩ := Option.ite_none_right_eq_some.mp hact
    obtain rfl := Option.some.inj hact
    exact hs.enter hpc
  | test i =>
    obtain ⟨hpc, hact⟩ := Option.ite_none_right_eq_some.mp hact
    obtain rfl := Option.some.inj hact
    exact hs.test hpc
  | size i empty =>
    obtain ⟨hguard, hact⟩ := Option.ite_none_right_eq_some.mp hact
    obtain rfl := Option.some.inj hact
    exact hs.size hguard.1 hguard.2
  | dequeue i =>
    obtain ⟨hguard, hact⟩ := Option.ite_none_right_eq_some.mp hact
    obtain rfl := Option.some.inj hact
    exact hs.dequeue hguard.1
  | miss i =>
    obtain ⟨hpc, hact⟩ := Option.ite_none_right_eq_some.mp hact
    obtain rfl := Option.some.inj hact
    exact hs.goTo (by rw [hpc]; decide) (hs.flagged i (by rw [hpc]; decide)) nofun
      (fun _ => hs.idle i (by rw [hpc]; decide)) nofun
  | send i =>
    obtain ⟨hpc, hact⟩ := Option.ite_none_right_eq_some.mp hact
    split at hact
    · rename_i hempty
      obtain rfl := Option.some.inj hact
      exact hs.goTo (by rw [hpc]; decide) (hs.flagged i (by rw [hpc]; decide)) nofun
        (fun _ => List.isEmpty_iff.mp hempty) nofun
    · obtain rfl := Option.some.inj hact
      exact hs.send hpc
  | tell =>
    obtain ⟨_, hact⟩ := Option.ite_none_right_eq_some.mp hact
    obtain rfl := Option.some.inj hact
    exact hs.tell
  | join =>
    obtain ⟨hguard, hact⟩ := Option.ite_none_right_eq_some.mp hact
    obtain rfl := Option.some.inj hact
    exact hs.join hguard.2

/-- A step of a thread is at most one step of the chain without flags. -/
theorem net_act {a : Action} (hact : act blocks a s = some s') :
    Relation.ReflTransGen (Step blocks) s.net s'.net := by
  cases a with
  | produce =>
    obtain ⟨_, hact⟩ := Option.ite_none_right_eq_some.mp hact
    obtain rfl := Option.some.inj hact
    exact step_act blocks s.net .produce
  | dequeue i =>
    obtain ⟨_, hact⟩ := Option.ite_none_right_eq_some.mp hact
    obtain rfl := Option.some.inj hact
    exact step_act blocks s.net (.take i)
  | send i =>
    obtain ⟨_, hact⟩ := Option.ite_none_right_eq_some.mp hact
    split at hact
    · obtain rfl := Option.some.inj hact
      exact .refl
    · obtain rfl := Option.some.inj hact
      exact step_act blocks s.net (.send i)
  | finish =>
    obtain rfl := Option.some.inj hact
    exact .refl
  | _ =>
    obtain ⟨_, hact⟩ := Option.ite_none_right_eq_some.mp hact
    obtain rfl := Option.some.inj hact
    exact .refl

theorem reachable_of_run {source : List M} {init : σ} {actions : List Action}
    (hrun : run (act blocks) actions (start blocks source init) = some s) :
    Reachable blocks source init s.net := by
  have hkeeps : ∀ (a : Action) (t t' : State σ M), Reachable blocks source init t.net →
      act blocks a t = some t' → Reachable blocks source init t'.net :=
    fun _ _ _ ht hact => ht.trans (net_act hact)
  have hstart : Reachable blocks source init (start blocks source init).net := .refl
  exact inv_of_run hkeeps hstart hrun

section Stopped

variable {source : List M} {init : σ} {actions : List Action}

/-- When the main thread has joined every component, no block runs any more and
nothing is on its way. -/
theorem empty_of_stopped
    (hrun : run (act blocks) actions (start blocks source init) = some s)
    (hstopped : blocks.length < s.stopping) (hi : i < blocks.length) :
    s.pc i = .done ∧ s.net.queue i = [] ∧ s.net.pending i = [] := by
  have hs : Inv s := inv_of_run (fun _ _ _ hs hact => inv_act hs hact)
    (inv_start blocks source init) hrun
  have hdone : s.pc i = .done := by
    simpa [State.finished] using hs.joined (i + 1) (by omega)
  exact ⟨hdone, (hs.drained i hdone).2, hs.idle i (by rw [hdone]; decide)⟩

/-- Each block has then taken all that comes from what the producer has written. -/
theorem held_of_stopped
    (hrun : run (act blocks) actions (start blocks source init) = some s)
    (hstopped : blocks.length < s.stopping) :
    ∃ written, source = written ++ s.net.source ∧
      s.net.queue blocks.length = through blocks written blocks.length ∧
      ∀ i b, blocks[i]? = some b → s.net.held i = b.stateAfter (through blocks written i) :=
  held_of_empty (reachable_of_run hrun) fun _ hi => (empty_of_stopped hrun hstopped hi).2

end Stopped

end EsSensor.DrainChain
