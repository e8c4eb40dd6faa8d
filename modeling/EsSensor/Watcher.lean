import EsSensor.Library.GuardedRun
import EsSensor.Library.MachineWord

/-!
The loop of `main` that watches the components once a second and restarts the
decoder. The flag that it watches is also cleared when it stops the decoder on
purpose, and the descriptor that is closed with the decoder is its connection
only if the decoder has connected.
-/
namespace EsSensor.Watcher

open GuardedRun MachineWord

/-- The decoder number -1, as the unsigned member holds it. -/
def noDecoder : ℕ := word (-1)

/-- The flags and descriptors of `IQStream`, and whether its thread is in the loop of
`run`. `m_fd` listens until the decoder is connected. -/
structure IQStream where
  mRunning : Bool
  mDecoderState : Bool
  inLoop : Bool
  mSocketEnable : Bool
  m_fd : ℤ
  m_cfd : ℤ
  deriving DecidableEq

namespace IQStream

/-- `start`, once the new thread has reached its loop. `m_cfd` is not set. -/
def start (socket : ℤ) (b : IQStream) : IQStream :=
  { b with
    mRunning := true
    mDecoderState := true
    inLoop := true
    mSocketEnable := false
    m_fd := socket }

/-- The decoder connects. -/
def accept (client : ℤ) (b : IQStream) : IQStream :=
  if b.inLoop && b.mRunning && !b.mSocketEnable then
    { b with m_cfd := client, mSocketEnable := true }
  else b

/-- A write to the dead child fails: the loop is left and the flag stays set. Nothing
is written before the decoder has connected. -/
def childDies (b : IQStream) : IQStream :=
  if b.inLoop && b.mRunning && b.mSocketEnable then
    { b with mDecoderState := false, inLoop := false }
  else b

/-- The thread waits at the socket that `close(m_cfd)` would close: `m_cfd` has the same
number from an earlier connection, or from the memory it was made in. -/
def ClosesListener (b : IQStream) : Prop :=
  b.inLoop = true ∧ b.mSocketEnable = false ∧ b.m_cfd = b.m_fd

instance (b : IQStream) : Decidable b.ClosesListener := inferInstanceAs (Decidable (_ ∧ _))

/-- The thread is joined only when the flag was set. Where its listening socket is closed
the thread ends the program, since `accept` fails. -/
def stop (b : IQStream) : Option IQStream :=
  if b.mRunning then
    if b.ClosesListener then none else some { b with mRunning := false, inLoop := false }
  else some b

def Active (b : IQStream) : Prop := b.mRunning = true ∧ b.inLoop = true

end IQStream

/-- What the watcher finds after one more second: the ends of threads, a connection of the
decoder, the death of its process, the decoder that is selected, and the descriptor that
the next listening socket gets. -/
structure Tick where
  rtlDriver : Bool
  psdFast : Bool
  client : Option ℤ
  childDied : Bool
  decoder : ℕ
  socket : ℤ

structure Watch where
  currentDec : ℕ
  iqStream : IQStream

/-- The state in which the loop is entered, with every component started. Nothing has
been written to `m_cfd`. -/
def started (socket uninitialized : ℤ) : Watch :=
  ⟨0, ⟨true, true, true, false, socket, uninitialized⟩⟩

/-- The block when the watcher looks at it again. -/
def Tick.before (t : Tick) (b : IQStream) : IQStream :=
  let b := t.client.elim b (fun client => b.accept client)
  if t.childDied then b.childDies else b

/-- Stopped, and started again if a decoder is selected. -/
def restart (t : Tick) (b : IQStream) : Option IQStream :=
  b.stop.map (fun b => if t.decoder ≠ noDecoder then b.start t.socket else b)

/-- The decoder has changed, or its death was noticed. -/
def Tick.Restarts (t : Tick) (w : Watch) : Prop :=
  t.decoder ≠ w.currentDec ∨ (t.before w.iqStream).mDecoderState = false

instance (t : Tick) (w : Watch) : Decidable (t.Restarts w) := inferInstanceAs (Decidable (_ ∨ _))

/-- One round of the loop in the DEC pipeline; `none` is the `break`, or the end of the
program. -/
def tick (t : Tick) (w : Watch) : Option Watch :=
  if !(t.rtlDriver && t.psdFast && (t.before w.iqStream).mRunning) then none
  else if t.Restarts w then
    (restart t (t.before w.iqStream)).map (fun b => ⟨t.decoder, b⟩)
  else some ⟨w.currentDec, t.before w.iqStream⟩

/-- Neither thread of the rest of the pipeline has ended. -/
def OthersRun (t : Tick) : Prop := t.rtlDriver = true ∧ t.psdFast = true

/-- A decoder that runs was selected, and its thread is in the loop unless the
death of its child has been noticed. -/
structure Inv (w : Watch) : Prop where
  selected : w.iqStream.mRunning = true → w.currentDec ≠ noDecoder
  inLoop : w.iqStream.mRunning = true → w.iqStream.mDecoderState = true →
    w.iqStream.inLoop = true

theorem started_inv (socket uninitialized : ℤ) : Inv (started socket uninitialized) :=
  ⟨fun _ => by show 0 ≠ noDecoder; decide, fun _ _ => rfl⟩

/-- A connection and a death between two ticks leave the flag that is watched. -/
theorem before_cases (t : Tick) (b : IQStream) :
    (t.before b).mRunning = b.mRunning ∧
      ((t.before b).mDecoderState = false ∨
        (t.before b).mDecoderState = b.mDecoderState ∧ (t.before b).inLoop = b.inLoop) := by
  have haccept : ∀ client, (b.accept client).mRunning = b.mRunning ∧
      (b.accept client).mDecoderState = b.mDecoderState ∧
      (b.accept client).inLoop = b.inLoop := by
    intro client
    unfold IQStream.accept
    split <;> exact ⟨rfl, rfl, rfl⟩
  have hdies : ∀ b : IQStream, b.childDies.mRunning = b.mRunning ∧
      (b.childDies.mDecoderState = false ∨ b.childDies = b) := by
    intro b
    unfold IQStream.childDies
    split
    · exact ⟨rfl, Or.inl rfl⟩
    · exact ⟨rfl, Or.inr rfl⟩
  have hconnected : (t.client.elim b (fun client => b.accept client)).mRunning = b.mRunning ∧
      (t.client.elim b (fun client => b.accept client)).mDecoderState = b.mDecoderState ∧
      (t.client.elim b (fun client => b.accept client)).inLoop = b.inLoop := by
    cases t.client with
    | none => exact ⟨rfl, rfl, rfl⟩
    | some client => exact haccept client
  obtain ⟨hflag, hstate, hloop⟩ := hconnected
  unfold Tick.before
  dsimp only
  split
  · obtain ⟨hkept, hdied | hsame⟩ := hdies (t.client.elim b (fun client => b.accept client))
    · exact ⟨hkept.trans hflag, Or.inl hdied⟩
    · rw [hsame]
      exact ⟨hflag, Or.inr ⟨hstate, hloop⟩⟩
  · exact ⟨hflag, Or.inr ⟨hstate, hloop⟩⟩

theorem before_mRunning (t : Tick) (b : IQStream) : (t.before b).mRunning = b.mRunning :=
  (before_cases t b).1

/-- Stopping does not take the listening socket from a thread that waits at it. -/
def KeepsListener (t : Tick) (w : Watch) : Prop :=
  t.Restarts w → ¬ (t.before w.iqStream).ClosesListener

instance (t : Tick) (w : Watch) : Decidable (KeepsListener t w) :=
  inferInstanceAs (Decidable (_ → _))

theorem restart_cases {t : Tick} {b : IQStream} (hkeeps : ¬ b.ClosesListener) :
    ∃ b', restart t b = some b' ∧
      ((t.decoder ≠ noDecoder ∧ b'.Active) ∨
        (t.decoder = noDecoder ∧ b'.mRunning = false)) := by
  obtain ⟨c, hstop, hflag⟩ : ∃ c, b.stop = some c ∧ c.mRunning = false := by
    unfold IQStream.stop
    by_cases hrunning : b.mRunning = true
    · rw [if_pos hrunning, if_neg hkeeps]
      exact ⟨_, rfl, rfl⟩
    · rw [if_neg hrunning]
      exact ⟨b, rfl, Bool.eq_false_iff.mpr hrunning⟩
  rw [restart, hstop, Option.map_some]
  by_cases hnone : t.decoder = noDecoder
  · rw [if_neg (not_not.mpr hnone)]
    exact ⟨c, rfl, Or.inr ⟨hnone, hflag⟩⟩
  · rw [if_pos hnone]
    exact ⟨_, rfl, Or.inl ⟨hnone, rfl, rfl⟩⟩

/-- What is watched is there, so the round is decided by the decoder. -/
theorem tick_of_running {w : Watch} {t : Tick} (hrunning : w.iqStream.mRunning = true)
    (ht : OthersRun t) :
    tick t w = if t.Restarts w then
        (restart t (t.before w.iqStream)).map (fun b => ⟨t.decoder, b⟩)
      else some ⟨w.currentDec, t.before w.iqStream⟩ := by
  have hwatch : (!(t.rtlDriver && t.psdFast && (t.before w.iqStream).mRunning)) = false := by
    rw [ht.1, ht.2, before_mRunning, hrunning]
    rfl
  rw [tick, hwatch, if_neg (by decide)]

/-- One tick of a decoder that runs: either it runs on as selected, or none is
selected and it is stopped. -/
theorem tick_running {w : Watch} {t : Tick} (hw : Inv w) (hrunning : w.iqStream.mRunning = true)
    (ht : OthersRun t) (hkeeps : KeepsListener t w) :
    ∃ w', tick t w = some w' ∧ Inv w' ∧
      ((t.decoder ≠ noDecoder ∧ w'.iqStream.Active) ∨
        (t.decoder = noDecoder ∧ w'.iqStream.mRunning = false)) := by
  rw [tick_of_running hrunning ht]
  by_cases hrestart : t.Restarts w
  · obtain ⟨b, hb, hcase⟩ := restart_cases (hkeeps hrestart)
    rw [if_pos hrestart, hb]
    refine ⟨_, rfl, ?_, hcase⟩
    rcases hcase with ⟨hsome, hactive⟩ | ⟨_, hstopped⟩
    · exact ⟨fun _ => hsome, fun _ _ => hactive.2⟩
    · exact ⟨fun h => absurd (hstopped.symm.trans h) (by decide),
        fun h => absurd (hstopped.symm.trans h) (by decide)⟩
  · rw [if_neg hrestart]
    obtain ⟨hsame, hstate⟩ := not_or.mp hrestart
    have hselected : t.decoder ≠ noDecoder := by
      rw [not_not.mp hsame]
      exact hw.selected hrunning
    -- no death was noticed, or the decoder would be restarted
    obtain ⟨hflag, hdied | ⟨hkept, hloop⟩⟩ := before_cases t w.iqStream
    · exact absurd hdied hstate
    · rw [hkept] at hstate
      have hinLoop := hw.inLoop hrunning (by simpa using hstate)
      exact ⟨_, rfl, ⟨fun _ => hw.selected hrunning, fun _ _ => hloop.trans hinLoop⟩,
        Or.inl ⟨hselected, hflag.trans hrunning, hloop.trans hinLoop⟩⟩

/-- A thread that loses its listening socket ends the sensor. -/
theorem tick_listener_closed {w : Watch} {t : Tick} (hrunning : w.iqStream.mRunning = true)
    (ht : OthersRun t) (hcloses : ¬ KeepsListener t w) : tick t w = none := by
  obtain ⟨hrestart, hcloses⟩ := Classical.not_imp.mp hcloses
  have hflag : (t.before w.iqStream).mRunning = true := by rw [before_mRunning, hrunning]
  rw [tick_of_running hrunning ht, if_pos hrestart, restart, IQStream.stop, if_pos hflag,
    if_pos (not_not.mp hcloses)]
  rfl

/-- A decoder that was stopped on purpose ends the sensor. -/
theorem tick_stopped {w : Watch} (t : Tick) (hstopped : w.iqStream.mRunning = false) :
    tick t w = none := by
  have hflag : (t.before w.iqStream).mRunning = false := by rw [before_mRunning, hstopped]
  unfold tick
  rw [hflag, Bool.and_false, if_pos (by decide)]

/-- The loop goes on at every tick, and after it `IQStream` is active exactly
when a decoder is selected. -/
def Continues (w : Watch) (ticks : List Tick) : Prop :=
  ∀ done t, done ++ [t] <+: ticks →
    ∃ w', run tick (done ++ [t]) w = some w' ∧
      (w'.iqStream.Active ↔ t.decoder ≠ noDecoder)

/-- No round of the run closes a socket at which the thread waits. -/
def ListenersKept (w : Watch) (ticks : List Tick) : Prop :=
  ∀ done t, done ++ [t] <+: ticks → ∀ w', run tick done w = some w' → KeepsListener t w'

theorem continues_cons {w : Watch} {t : Tick} {rest : List Tick} :
    Continues w (t :: rest) ↔
      ∃ w', tick t w = some w' ∧ (w'.iqStream.Active ↔ t.decoder ≠ noDecoder) ∧
        Continues w' rest := by
  constructor
  · intro h
    obtain ⟨w', hrun, hactive⟩ := h [] t (by simp)
    have htick : tick t w = some w' := by
      simpa [Option.bind_eq_some_iff] using hrun
    refine ⟨w', htick, hactive, ?_⟩
    intro done u hdone
    obtain ⟨v, hrun, hactive⟩ := h (t :: done) u (List.cons_prefix_cons.mpr ⟨rfl, hdone⟩)
    exact ⟨v, by simpa [htick] using hrun, hactive⟩
  · intro ⟨w', htick, hactive, hrest⟩ done u hdone
    cases done with
    | nil =>
      obtain ⟨rfl, _⟩ := List.cons_prefix_cons.mp hdone
      exact ⟨w', by simp [htick], hactive⟩
    | cons v done =>
      obtain ⟨rfl, hafter⟩ := List.cons_prefix_cons.mp hdone
      obtain ⟨x, hrun, hactive⟩ := hrest done u hafter
      exact ⟨x, by simpa [htick] using hrun, hactive⟩

theorem listenersKept_cons {w : Watch} {t : Tick} {rest : List Tick} :
    ListenersKept w (t :: rest) ↔
      KeepsListener t w ∧ ∀ w', tick t w = some w' → ListenersKept w' rest := by
  constructor
  · intro h
    refine ⟨h [] t (by simp) w rfl, ?_⟩
    intro w' htick done u hdone v hrun
    exact h (t :: done) u (List.cons_prefix_cons.mpr ⟨rfl, hdone⟩) v (by simp [htick, hrun])
  · intro ⟨hfirst, hrest⟩ done u hdone v hrun
    cases done with
    | nil =>
      obtain ⟨rfl, _⟩ := List.cons_prefix_cons.mp hdone
      obtain rfl := Option.some.inj hrun
      exact hfirst
    | cons x done =>
      obtain ⟨rfl, hafter⟩ := List.cons_prefix_cons.mp hdone
      obtain ⟨w', htick, hrun⟩ := Option.bind_eq_some_iff.mp hrun
      exact hrest w' htick done u hafter v hrun

theorem listenersKept_nil {w : Watch} : ListenersKept w [] := by
  intro done t hdone
  exact absurd (List.prefix_nil.mp hdone) (by simp)

theorem continues_iff {w : Watch} {ticks : List Tick} (hw : Inv w)
    (hrunning : w.iqStream.mRunning = true) (hothers : ∀ t ∈ ticks, OthersRun t) :
    Continues w ticks ↔
      (∀ t ∈ ticks.dropLast, t.decoder ≠ noDecoder) ∧ ListenersKept w ticks := by
  induction ticks generalizing w with
  | nil => simp [Continues, ListenersKept]
  | cons t rest ih =>
    have ht := hothers t List.mem_cons_self
    rw [continues_cons, listenersKept_cons]
    by_cases hkeeps : KeepsListener t w
    · obtain ⟨w', htick, hw', hcase⟩ := tick_running hw hrunning ht hkeeps
      have hactive : w'.iqStream.Active ↔ t.decoder ≠ noDecoder := by
        rcases hcase with ⟨hsome, hactive⟩ | ⟨hnone, hstopped⟩
        · exact iff_of_true hactive hsome
        · exact iff_of_false (fun h => absurd (hstopped.symm.trans h.1) (by decide))
            (not_not.mpr hnone)
      simp only [htick, Option.some.injEq, exists_eq_left', forall_eq', hactive, true_and,
        hkeeps]
      cases rest with
      | nil => simp [Continues, ListenersKept]
      | cons u rest =>
        rw [List.dropLast_cons_cons, List.forall_mem_cons]
        rcases hcase with ⟨hsome, hrun, _⟩ | ⟨hnone, hstopped⟩
        · have hrest := fun v hv => hothers v (List.mem_cons_of_mem t hv)
          rw [ih hw' hrun hrest, and_iff_right hsome]
        · refine iff_of_false ?_ (fun h => h.1.1 hnone)
          rw [continues_cons]
          intro ⟨v, hv, _⟩
          rw [tick_stopped u hstopped] at hv
          exact absurd hv (by simp)
    · refine iff_of_false ?_ (fun h => hkeeps h.2.1)
      rintro ⟨w', htick, _⟩
      rw [tick_listener_closed hrunning ht hkeeps] at htick
      exact absurd htick (by simp)

/-- A first decoder that is not connected, one whose process dies, and a third one. -/
def restarts : List Tick :=
  [⟨true, true, none, false, 1, 8⟩, ⟨true, true, some 9, true, 1, 8⟩,
    ⟨true, true, some 9, false, 3, 8⟩]

/-- The first stop closes the number that is in `m_cfd`, the new listening socket gets it,
and the second stop takes it from the thread. -/
theorem stale_descriptor_ends_sensor :
    ¬ Continues (started 7 0)
      [⟨true, true, none, false, 1, 0⟩, ⟨true, true, none, false, 1, 8⟩,
        ⟨true, true, none, false, 3, 8⟩] := by
  intro h
  rw [continues_cons] at h
  obtain ⟨w, hw, _, h⟩ := h
  obtain rfl := Option.some.inj hw
  obtain ⟨v, hv, _, h⟩ := continues_cons.mp h
  obtain rfl := Option.some.inj hv
  obtain ⟨_, hlast, _⟩ := continues_cons.mp h
  exact Option.some_ne_none _ (hlast.symm.trans rfl)

end EsSensor.Watcher
