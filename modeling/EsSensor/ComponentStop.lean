import EsSensor.ElectrosenseContext
import EsSensor.Library.FairSchedule

/-!
Starting and stopping a block of the pipeline. The thread of the block sets
`mRunning` itself, after some preparation of its own, while `stop` may clear it
at any moment after the thread was created.
-/
namespace EsSensor.ComponentStop

open FairSchedule GuardedRun MachineWord

/-- The blocks whose `stop` clears the flag and joins. -/
inductive Block
  | removeDC
  | windowing
  | fft
  | averaging
  | fileSink
  deriving DecidableEq

/-- The steps of `run` before it sets the flag: the reads of the context, and in
`Windowing` a round for each weight of the window. -/
def setupSteps (ctx : ElectrosenseContext) : Block → ℕ
  | .removeDC => 0
  | .windowing => 1 + (int32 ctx.fftSize).toNat
  | .fft => 1
  | .averaging => 2
  | .fileSink => 0

/-- Where the thread stands: so many steps before the store of the flag, before
the test of the queues, before the test of the flag, before `try_dequeue`, in a
round with so many steps left, and after the loop. -/
inductive Pc
  | none
  | setup (left : ℕ)
  | checkQueues
  | test
  | dequeue
  | body (left : ℕ)
  | close
  | ended
  deriving DecidableEq

/-- Where the main thread stands: before `start`, before the two parts of `stop`
and after its return. -/
inductive MainPc
  | start
  | stop
  | join
  | returned
  deriving DecidableEq

structure State where
  block : Block
  ctx : ElectrosenseContext
  queues : Bool
  mRunning : Bool
  thread : Pc
  main : MainPc

/-- A component before its start; its flag has no initial value. -/
def created (block : Block) (ctx : ElectrosenseContext) (queues mRunning : Bool) : State where
  block := block
  ctx := ctx
  queues := queues
  mRunning := mRunning
  thread := .none
  main := .start

/-- One step of `run`. The segment that is dequeued decides how long the round
takes; without one it sleeps. The exception for missing queues is caught by
nobody and ends the program. -/
def threadStep (segment : Option ℕ) (s : State) : Option State :=
  match s.thread with
  | .none => some s
  | .setup (left + 1) => some { s with thread := .setup left }
  | .setup 0 => some { s with mRunning := true, thread := .checkQueues }
  | .checkQueues => if s.queues then some { s with thread := .test } else none
  | .test =>
    some { s with thread :=
      if s.mRunning then .dequeue else if s.block = .fileSink then .close else .ended }
  | .dequeue => some { s with thread := .body (segment.getD 0) }
  | .body (left + 1) => some { s with thread := .body left }
  | .body 0 => some { s with thread := .test }
  | .close => some { s with thread := .ended }
  | .ended => some s

/-- `start` creates the thread; `stop` clears the flag and waits for its end. -/
def mainStep (s : State) : State :=
  match s.main with
  | .start => { s with thread := .setup (setupSteps s.ctx s.block), main := .stop }
  | .stop => { s with mRunning := false, main := .join }
  | .join => if s.thread = .ended then { s with main := .returned } else s
  | .returned => s

inductive Action
  | main
  | thread (segment : Option ℕ)

def act : Action → State → Option State
  | .main, s => some (mainStep s)
  | .thread segment, s => threadStep segment s

inductive Party
  | main
  | thread

def Action.party : Action → Party
  | .main => .main
  | .thread _ => .thread

/-- However the threads are scheduled, as long as none is left out, `stop` returns. -/
def Returns (s : State) : Prop :=
  ∀ schedule, Fair Action.party schedule →
    ∃ n s', after act schedule s n = some s' ∧ s'.main = .returned

/-- Once `stop` has cleared the flag, it is false and the join can return. -/
structure StopKept (s : State) : Prop where
  cleared : s.main = .join ∨ s.main = .returned → s.mRunning = false
  returns : s.main = .join ∨ s.main = .returned → Returns s

/-- The thread has set its flag, and no missing queue will end it. -/
def Stored (s : State) : Prop :=
  match s.thread with
  | .none => False
  | .setup _ => False
  | .checkQueues => s.queues = true
  | _ => True

/-- `stop` clears the flag only after the thread has set it. -/
def ClearsAfterStore : Action → State → Prop
  | .main, s => s.main = .stop → Stored s
  | .thread _, _ => True

section Returning

/-- The flag has been cleared after it was set. -/
structure Leaving (s : State) : Prop where
  stopped : s.main = .join ∨ s.main = .returned
  cleared : s.mRunning = false
  stored : Stored s

/-- What is left of the thread: the kind of its place, then the steps of the round. -/
def distance (s : State) : ℕ × ℕ :=
  if s.main = .returned then (0, 0)
  else
    match s.thread with
    | .ended => (1, 0)
    | .close => (2, 0)
    | .test => (3, 0)
    | .body left => (4, left + 1)
    | .checkQueues => (4, 0)
    | _ => (5, 0)

def Closer (s' s : State) : Prop := Prod.Lex (· < ·) (· < ·) (distance s') (distance s)

theorem closer_wf : WellFounded Closer :=
  InvImage.wf distance (Prod.lex Nat.lt_wfRel Nat.lt_wfRel).wf

variable {s s' : State} {segment : Option ℕ}

theorem threadStep_main (hstep : threadStep segment s = some s') : s'.main = s.main := by
  unfold threadStep at hstep
  split at hstep <;> try split_ifs at hstep
  all_goals (obtain rfl := Option.some.inj hstep; rfl)

/-- Once it is leaving, the thread goes on to its end. -/
theorem threadStep_leaving (hs : Leaving s) (hjoin : s.main = .join) (hend : s.thread ≠ .ended) :
    ∃ s', threadStep segment s = some s' ∧ Leaving s' ∧ Closer s' s := by
  have hstored := hs.stored
  have hstay : ∀ pc, Stored { s with thread := pc } → Leaving { s with thread := pc } :=
    fun pc hpc => ⟨hs.stopped, hs.cleared, hpc⟩
  unfold threadStep Closer distance
  cases hpc : s.thread with
  | none => simp [Stored, hpc] at hstored
  | setup left => simp [Stored, hpc] at hstored
  | checkQueues =>
    have hqueues : s.queues = true := by simpa [Stored, hpc] using hstored
    refine ⟨_, if_pos hqueues, hstay .test trivial, ?_⟩
    simp [hjoin, Prod.lex_def]
  | test =>
    by_cases hsink : s.block = .fileSink
    · refine ⟨{ s with thread := .close }, by simp [hs.cleared, hsink], hstay .close trivial, ?_⟩
      simp [hjoin, Prod.lex_def]
    · refine ⟨{ s with thread := .ended }, by simp [hs.cleared, hsink], hstay .ended trivial, ?_⟩
      simp [hjoin, Prod.lex_def]
  | dequeue =>
    refine ⟨_, rfl, hstay (.body _) trivial, ?_⟩
    simp [hjoin, Prod.lex_def]
  | body left =>
    cases left with
    | zero =>
      refine ⟨_, rfl, hstay .test trivial, ?_⟩
      simp [hjoin, Prod.lex_def]
    | succ left =>
      refine ⟨_, rfl, hstay (.body left) trivial, ?_⟩
      simp [hjoin, Prod.lex_def]
  | close =>
    refine ⟨_, rfl, hstay .ended trivial, ?_⟩
    simp [hjoin, Prod.lex_def]
  | ended => exact absurd hpc hend

theorem mainStep_join (hjoin : s.main = .join) :
    mainStep s = if s.thread = .ended then { s with main := .returned } else s := by
  simp only [mainStep, hjoin]

theorem mainStep_leaving (hs : Leaving s) (hjoin : s.main = .join) (hend : s.thread = .ended) :
    Leaving (mainStep s) ∧ Closer (mainStep s) s := by
  rw [mainStep_join hjoin, if_pos hend]
  refine ⟨⟨Or.inr rfl, hs.cleared, hs.stored⟩, ?_⟩
  simp [Closer, distance, hjoin, hend, Prod.lex_def]

/-- Until it ends the thread goes on; then the main thread does. -/
theorem leaving_progress :
    Progress act Action.party Leaving (fun s => s.main = .returned) Closer where
  wf := closer_wf
  step := by
    intro s a hs hnot
    have hjoin : s.main = .join := hs.stopped.resolve_right hnot
    by_cases hend : s.thread = .ended
    · cases a with
      | main =>
        obtain ⟨hs', hcloser⟩ := mainStep_leaving hs hjoin hend
        exact ⟨_, rfl, hs', Or.inr hcloser⟩
      | thread segment => exact ⟨s, by simp [act, threadStep, hend], hs, Or.inl rfl⟩
    · cases a with
      | main => exact ⟨s, by simp [act, mainStep_join hjoin, hend], hs, Or.inl rfl⟩
      | thread segment =>
        obtain ⟨s', hstep, hs', hcloser⟩ := @threadStep_leaving s segment hs hjoin hend
        exact ⟨s', hstep, hs', Or.inr hcloser⟩
  helpful := by
    intro s hs hnot
    have hjoin : s.main = .join := hs.stopped.resolve_right hnot
    have hirrefl : ¬ Closer s s := closer_wf.irrefl.irrefl s
    by_cases hend : s.thread = .ended
    · refine ⟨.main, fun a ha hact => ?_⟩
      cases a with
      | main =>
        have hcloser := (mainStep_leaving hs hjoin hend).2
        rw [Option.some.inj hact] at hcloser
        exact hirrefl hcloser
      | thread segment => cases ha
    · refine ⟨.thread, fun a ha hact => ?_⟩
      cases a with
      | main => cases ha
      | thread segment =>
        obtain ⟨s', hstep, _, hcloser⟩ := @threadStep_leaving s segment hs hjoin hend
        obtain rfl := Option.some.inj (hstep.symm.trans hact)
        exact hirrefl hcloser

theorem Leaving.returns (hs : Leaving s) : Returns s :=
  fun _ hfair => leaving_progress.reaches hfair hs after_zero

/-- The flag was cleared before it was set: now it is set for good, or never will
be read. -/
structure Lost (s : State) : Prop where
  joining : s.main = .join
  cause : ¬ Stored s ∨ (s.mRunning = true ∧ s.thread ≠ .close ∧ s.thread ≠ .ended)

/-- Before it has set the flag a thread can do nothing but set it. -/
theorem threadStep_unstored (hnot : ¬ Stored s) (hstep : threadStep segment s = some s') :
    ¬ Stored s' ∨ (s'.mRunning = true ∧ s'.thread ≠ .close ∧ s'.thread ≠ .ended) := by
  unfold threadStep at hstep
  cases hpc : s.thread with
  | none =>
    simp only [hpc, Option.some.injEq] at hstep
    exact Or.inl (hstep ▸ hnot)
  | setup left =>
    cases left with
    | zero =>
      simp only [hpc, Option.some.injEq] at hstep
      subst hstep
      exact Or.inr ⟨rfl, nofun, nofun⟩
    | succ left =>
      simp only [hpc, Option.some.injEq] at hstep
      subst hstep
      exact Or.inl id
  | checkQueues =>
    have hqueues : ¬ s.queues = true := by simpa [Stored, hpc] using hnot
    simp only [hpc, if_neg hqueues] at hstep
    cases hstep
  | _ => simp [Stored, hpc] at hnot

/-- A thread that finds its flag set does not leave its loop. -/
theorem threadStep_running (hrunning : s.mRunning = true) (hclose : s.thread ≠ .close)
    (hend : s.thread ≠ .ended) (hstep : threadStep segment s = some s') :
    s'.mRunning = true ∧ s'.thread ≠ .close ∧ s'.thread ≠ .ended := by
  unfold threadStep at hstep
  split at hstep
  case h_1 =>
    obtain rfl := Option.some.inj hstep
    exact ⟨hrunning, hclose, hend⟩
  case h_3 =>
    obtain rfl := Option.some.inj hstep
    exact ⟨rfl, nofun, nofun⟩
  case h_4 =>
    split_ifs at hstep
    obtain rfl := Option.some.inj hstep
    exact ⟨hrunning, nofun, nofun⟩
  case h_5 =>
    obtain rfl := Option.some.inj hstep
    simp [hrunning]
  case h_9 hpc => exact absurd hpc hclose
  case h_10 hpc => exact absurd hpc hend
  all_goals
    obtain rfl := Option.some.inj hstep
    exact ⟨hrunning, nofun, nofun⟩

theorem threadStep_lost (hs : Lost s) (hstep : threadStep segment s = some s') : Lost s' := by
  refine ⟨(threadStep_main hstep).trans hs.joining, ?_⟩
  rcases hs.cause with hnot | ⟨hrunning, hclose, hend⟩
  · exact threadStep_unstored hnot hstep
  · exact Or.inr (threadStep_running hrunning hclose hend hstep)

theorem act_lost {a : Action} (hs : Lost s) (hact : act a s = some s') : Lost s' := by
  cases a with
  | main =>
    obtain rfl : mainStep s = s' := Option.some.inj hact
    rw [mainStep_join hs.joining]
    split_ifs with hend
    · rcases hs.cause with hnot | ⟨_, _, hne⟩
      · simp [Stored, hend] at hnot
      · exact absurd hend hne
    · exact hs
  | thread segment => exact threadStep_lost hs hact

/-- The two threads in turn. -/
def inTurn (n : ℕ) : Action := if n % 2 = 0 then .main else .thread none

theorem fair_inTurn : Fair Action.party inTurn := by
  intro party n
  cases party with
  | main => exact ⟨2 * n, by omega, by simp [inTurn, Action.party]⟩
  | thread => exact ⟨2 * n + 1, by omega, by simp [inTurn, Action.party, Nat.add_mod]⟩

theorem Lost.not_returns (hs : Lost s) : ¬ Returns s := by
  intro hreturns
  obtain ⟨n, s', hafter, hreturned⟩ := hreturns inTurn fair_inTurn
  have hlost := after_inv (fun _ _ _ => act_lost) hs hafter
  rw [hlost.joining] at hreturned
  cases hreturned

end Returning

section Run

variable {a : Action} {s s' : State}

/-- The join returns only when the thread has ended. -/
def Joined (s : State) : Prop := s.main = .returned → s.thread = .ended

theorem act_joined (hs : Joined s) (hact : act a s = some s') : Joined s' := by
  cases a with
  | main =>
    obtain rfl : mainStep s = s' := Option.some.inj hact
    unfold mainStep
    cases hpc : s.main with
    | start => nofun
    | stop => nofun
    | join =>
      dsimp only
      split_ifs with hend
      · exact fun _ => hend
      · exact hs
    | returned => exact hs
  | thread segment =>
    intro hreturned
    have hend := hs ((threadStep_main hact).symm.trans hreturned)
    have hsame : some s = some s' := by simpa [act, threadStep, hend] using hact
    obtain rfl := Option.some.inj hsame
    exact hend

/-- Before the flag is cleared there is nothing to keep. -/
theorem stopKept_of_early (hmain : s.main = .start ∨ s.main = .stop) : StopKept s := by
  have hnot : ¬ (s.main = .join ∨ s.main = .returned) := by
    rcases hmain with hpc | hpc <;> simp [hpc]
  exact ⟨fun h => absurd h hnot, fun h => absurd h hnot⟩

theorem Leaving.stopKept (hs : Leaving s) : StopKept s :=
  ⟨fun _ => hs.cleared, fun _ => hs.returns⟩

/-- A request that is kept was made after the store. -/
theorem StopKept.leaving (hinv : Joined s) (hs : StopKept s)
    (hstopped : s.main = .join ∨ s.main = .returned) : Leaving s := by
  refine ⟨hstopped, hs.cleared hstopped, ?_⟩
  rcases hstopped with hjoin | hreturned
  · by_contra hnot
    have hlost : Lost s := ⟨hjoin, Or.inl hnot⟩
    exact hlost.not_returns (hs.returns (Or.inl hjoin))
  · simp [Stored, hinv hreturned]

/-- The step that clears the flag is the one that decides. -/
theorem clear_iff (hstop : s.main = .stop) : StopKept (mainStep s) ↔ Stored s := by
  have hstep : mainStep s = { s with mRunning := false, main := .join } := by
    simp only [mainStep, hstop]
  rw [hstep]
  constructor
  · intro hkept
    by_contra hnot
    have hlost : Lost { s with mRunning := false, main := .join } := ⟨rfl, Or.inl hnot⟩
    exact hlost.not_returns (hkept.returns (Or.inl rfl))
  · intro hstored
    have hleaving : Leaving { s with mRunning := false, main := .join } :=
      ⟨Or.inl rfl, rfl, hstored⟩
    exact hleaving.stopKept

/-- What is leaving goes on leaving. -/
theorem act_leaving (hinv : Joined s) (hs : Leaving s) (hact : act a s = some s') : Leaving s' := by
  rcases hs.stopped with hjoin | hreturned
  · obtain ⟨t, hstep, ht, _⟩ := leaving_progress.step s a hs (by simp [hjoin])
    obtain rfl := Option.some.inj (hstep.symm.trans hact)
    exact ht
  · have hsame : some s = some s' := by
      rw [← hact]
      cases a with
      | main => simp [act, mainStep, hreturned]
      | thread segment => simp [act, threadStep, hinv hreturned]
    obtain rfl := Option.some.inj hsame
    exact hs

theorem act_stopKept_iff (hinv : Joined s) (hs : StopKept s) (hact : act a s = some s') :
    StopKept s' ↔ ClearsAfterStore a s := by
  by_cases hstopped : s.main = .join ∨ s.main = .returned
  · have hleaving := act_leaving hinv (hs.leaving hinv hstopped) hact
    refine ⟨fun _ => ?_, fun _ => hleaving.stopKept⟩
    cases a with
    | main =>
      intro hstop
      rcases hstopped with hjoin | hreturned
      · cases hjoin.symm.trans hstop
      · cases hreturned.symm.trans hstop
    | thread segment => trivial
  cases a with
  | main =>
    obtain rfl : mainStep s = s' := Option.some.inj hact
    cases hpc : s.main with
    | start =>
      have hkept : StopKept (mainStep s) := stopKept_of_early (Or.inr (by simp [mainStep, hpc]))
      exact ⟨fun _ hstop => (by cases hpc.symm.trans hstop), fun _ => hkept⟩
    | stop =>
      rw [clear_iff hpc]
      exact ⟨fun hstored _ => hstored, fun hguard => hguard hpc⟩
    | join => exact absurd (Or.inl hpc) hstopped
    | returned => exact absurd (Or.inr hpc) hstopped
  | thread segment =>
    refine ⟨fun _ => trivial, fun _ => stopKept_of_early ?_⟩
    rw [threadStep_main hact]
    cases hpc : s.main with
    | start => exact Or.inl rfl
    | stop => exact Or.inr rfl
    | join => exact absurd (Or.inl hpc) hstopped
    | returned => exact absurd (Or.inr hpc) hstopped

end Run

/-- For every block and every interleaving: once `stop` has cleared the flag it
stays false and the join returns, exactly when it is cleared after the thread has
set it. -/
theorem stop_request_kept_iff (block : Block) (ctx : ElectrosenseContext)
    (queues mRunning : Bool) (actions : List Action) :
    Along act StopKept (created block ctx queues mRunning) actions ↔
      Meets act ClearsAfterStore (created block ctx queues mRunning) actions := by
  have hinv : Joined (created block ctx queues mRunning) := nofun
  have hkept : StopKept (created block ctx queues mRunning) := stopKept_of_early (Or.inl rfl)
  exact along_iff_meets
    (fun a _ s s' hs hp hact => ⟨act_joined hs hact, act_stopKept_iff hs hp hact⟩) hinv hkept

/-- Started and stopped before the thread has run at all. -/
def stoppedAtOnce : List Action := [.main, .main, .thread none]

/-- The thread sets the flag that was cleared, and the join never returns. -/
theorem stop_request_lost :
    (∃ s, run act stoppedAtOnce (created .removeDC {} true false) = some s ∧
      s.main = .join ∧ s.mRunning = true ∧ ¬ Returns s) ∧
    ¬ Along act StopKept (created .removeDC {} true false) stoppedAtOnce := by
  obtain ⟨s, hrun, hjoin, hrunning, hpc⟩ :
      ∃ s, run act stoppedAtOnce (created .removeDC {} true false) = some s ∧
        s.main = .join ∧ s.mRunning = true ∧ s.thread = .checkQueues := ⟨_, rfl, rfl, rfl, rfl⟩
  have hlost : Lost s := ⟨hjoin, Or.inr ⟨hrunning, by simp [hpc], by simp [hpc]⟩⟩
  refine ⟨⟨s, hrun, hjoin, hrunning, hlost.not_returns⟩, fun halong => ?_⟩
  have hkept := halong stoppedAtOnce List.prefix_rfl s hrun
  exact hlost.not_returns (hkept.returns (Or.inl hjoin))

end EsSensor.ComponentStop
