import EsSensor.IqCapture
import EsSensor.Library.ThreadHandles
import EsSensor.PsdPipeline
import EsSensor.Watcher

/-!
What `main` builds and runs. It joins the components by their queues as the configuration
says, starts a thread for each, restarts the decoder's stream while it watches them, and
stops them in the order in which they were built. A queue is made for one reader and one
writer; nothing but the order of these calls keeps it so.
-/
namespace EsSensor.SensorAssembly

open FifoChain GuardedRun PsdPipeline Settings ThreadHandles Watcher

/-- The classes of the components. `main` makes at most one object of each. -/
inductive Kind
  | rtlsdrDriver
  | removeDC
  | windowing
  | fft
  | averaging
  | removeDCRTL
  | psdFast
  | iqStream
  | avroSerialization
  | transmission
  | fileSink
  | iqSink
  deriving DecidableEq

/-- The queues that the constructors make; the driver has a second one. -/
inductive Queue
  | mQueueOut (k : Kind)
  | mQueueOut2
  deriving DecidableEq

namespace Kind

/-- The queues that `run` writes to. `setQueueOut` does nothing anywhere, `PSDFast` leaves
its queue alone, and the driver waits for the thread that fills its queues. -/
def writes : Kind → List Queue
  | rtlsdrDriver => [.mQueueOut rtlsdrDriver, .mQueueOut2]
  | psdFast | iqStream | transmission | fileSink | iqSink => []
  | k => [.mQueueOut k]

end Kind

/-- A component as it stands in `vComponents`. -/
structure Component where
  kind : Kind
  mQueueIn : Option Queue
  deriving DecidableEq

/-- The component with its input set to the queue of another one. -/
def Component.behind (kind before : Kind) : Component := ⟨kind, some (.mQueueOut before)⟩

/-- The blocks that belong to the pipeline. -/
def processing (pipeline : String) : List Component :=
  if pipeline = "PSD" then
    [.behind .removeDC .rtlsdrDriver, .behind .windowing .removeDC, .behind .fft .windowing,
      .behind .averaging .fft]
  else if pipeline = "IQ" then []
  else if pipeline = "DEC" then [⟨.psdFast, some .mQueueOut2⟩, .behind .iqStream .rtlsdrDriver]
  else []

/-- The blocks that send to the server. -/
def sending (pipeline : String) : List Component :=
  (if pipeline = "PSD" then [.behind .avroSerialization .averaging]
    else if pipeline = "IQ" then
      [.behind .removeDCRTL .rtlsdrDriver, .behind .avroSerialization .removeDCRTL]
    else []) ++ [.behind .transmission .avroSerialization]

/-- The blocks that write a file. -/
def writing (pipeline : String) (outputType : ℕ) : List Component :=
  if pipeline = "PSD" then [.behind .fileSink .averaging]
  else if pipeline = "IQ" then
    if outputType = outputTypeByte then [.behind .iqSink .rtlsdrDriver]
    else [.behind .removeDCRTL .rtlsdrDriver, .behind .iqSink .removeDCRTL]
  else []

def output (s : Settings) : List Component :=
  if s.tlsHost ≠ "0" then sending s.pipeline
  else if s.outputFileName ≠ "" then writing s.pipeline s.outputType
  else []

/-- `vComponents` when `main` starts them. -/
def vComponents (s : Settings) : List Component :=
  ⟨.rtlsdrDriver, none⟩ :: processing s.pipeline ++ output s

/-- Where `main` stands: starting component i, in its watch loop, in the three parts of a
restart of the decoder's stream, stopping component i or joining it, or returned. -/
inductive Pc
  | starting (i : ℕ)
  | watching
  | stopDecoder
  | joinDecoder
  | startDecoder
  | stopping (i : ℕ)
  | joining (i : ℕ)
  | returned
  deriving DecidableEq

structure State where
  main : Pc := .starting 0
  threads : Threads Kind := {}
  currentDec : ℕ := 0

/-- What `main` finds at one step: whether the system gives it a thread, the flags of the
components, and the decoder that is selected. Every look is a new one. -/
structure Look where
  created : Bool := true
  allRunning : Bool := true
  iqRunning : Bool := true
  decoderState : Bool := true
  decoder : ℕ := 0

/-- `finish_ok` from its beginning. -/
def State.finishOk (s : State) : State := { s with main := .stopping 0 }

/-- `start` of a component. Without a thread it throws, which `main` catches to finish. -/
def startThread (kind : Kind) (next : Pc) (look : Look) (s : State) : Option State :=
  if look.created then
    (s.threads.create kind).map (fun threads => { s with main := next, threads := threads })
  else some s.finishOk

section Main

variable (settings : Settings)

/-- One step of `main`. A join that is refused throws: in the loop it is caught, while in
`finish_ok` it ends the program. `IQStream` joins only if its flag is set. -/
def mainStep (look : Look) (s : State) : Option State :=
  match s.main with
  | .starting i =>
    match (vComponents settings)[i]? with
    | none => some { s with main := .watching }
    | some c => startThread c.kind (.starting (i + 1)) look s
  | .watching =>
    if !look.allRunning then some s.finishOk
    else if settings.pipeline = "DEC" ∧ (look.decoder ≠ s.currentDec ∨ !look.decoderState) then
      some { s with main := .stopDecoder }
    else some s
  | .stopDecoder =>
    some { s with
      main := if look.iqRunning then .joinDecoder else .startDecoder
      currentDec := look.decoder }
  | .joinDecoder =>
    match s.threads.join .iqStream with
    | .waits => some s
    | .refused => some s.finishOk
    | .joined threads => some { s with main := .startDecoder, threads := threads }
  | .startDecoder =>
    if look.decoder ≠ noDecoder then startThread .iqStream .watching look s
    else some { s with main := .watching }
  | .stopping i =>
    match (vComponents settings)[i]? with
    | none => some { s with main := .returned }
    | some c =>
      if c.kind = .iqStream ∧ !look.iqRunning then some { s with main := .stopping (i + 1) }
      else some { s with main := .joining i }
  | .joining i =>
    match (vComponents settings)[i]? with
    | none => some s
    | some c =>
      match s.threads.join c.kind with
      | .waits => some s
      | .refused => none
      | .joined threads => some { s with main := .stopping (i + 1), threads := threads }
  | .returned => some s

/-- `main` makes a step or takes a signal, or a thread comes to its end. -/
inductive Action
  | main (look : Look)
  | signal
  | finish (t : ℕ)

def act : Action → State → Option State
  | .main look, s => mainStep settings look s
  | .signal, s => some s.finishOk
  | .finish t, s => some { s with threads := s.threads.finish t }

/-- A component of this class reads the queue. -/
def Reads (kind : Kind) (q : Queue) : Prop := ⟨kind, some q⟩ ∈ vComponents settings

/-- What the queues are made for, and the order in which `finish_ok` brings them to rest.
A restart of the decoder's stream stops it while the driver still writes to its queue. -/
structure Contract (s : State) : Prop where
  one_reader : ∀ q, ∀ x ∈ s.threads.live, ∀ y ∈ s.threads.live,
    Reads settings x.2 q → Reads settings y.2 q → x = y
  one_writer : ∀ q, ∀ x ∈ s.threads.live, ∀ y ∈ s.threads.live,
    q ∈ x.2.writes → q ∈ y.2.writes → x = y
  connected : ∀ x ∈ s.threads.live, x.2 ≠ .rtlsdrDriver → ∃ q, Reads settings x.2 q
  writer_stopped : ∀ i c q, s.main = .stopping i ∨ s.main = .joining i →
    (vComponents settings)[i]? = some c → c.mQueueIn = some q →
      ∀ x ∈ s.threads.live, q ∉ x.2.writes

end Main

/-- The owner of a queue, who alone writes to it. -/
def Queue.owner : Queue → Kind
  | mQueueOut k => k
  | mQueueOut2 => .rtlsdrDriver

theorem owner_of_mem_writes {k : Kind} {q : Queue} (hq : q ∈ k.writes) : q.owner = k := by
  cases k <;> simp only [Kind.writes, List.mem_cons, List.not_mem_nil, or_false] at hq
  case rtlsdrDriver =>
    rcases hq with rfl | rfl
    · rfl
    · rfl
  all_goals exact hq ▸ rfl

/-- A list of components that can be run: no class twice, no queue read twice, no input left
open, and none reads what it or a later one writes. -/
structure Sound (components : List Component) : Prop where
  kinds : (components.map Component.kind).Nodup
  readers : components.Pairwise (fun c c' => ∀ q ∈ c.mQueueIn, q ∉ c'.mQueueIn)
  connected : ∀ c ∈ components, c.kind ≠ .rtlsdrDriver → c.mQueueIn.isSome
  own : ∀ c ∈ components, ∀ q ∈ c.mQueueIn, q ∉ c.kind.writes
  order : components.Pairwise (fun c c' => ∀ q ∈ c.mQueueIn, q ∉ c'.kind.writes)

instance (components : List Component) : Decidable (Sound components) :=
  decidable_of_iff ((components.map Component.kind).Nodup ∧
      components.Pairwise (fun c c' => ∀ q ∈ c.mQueueIn, q ∉ c'.mQueueIn) ∧
      (∀ c ∈ components, c.kind ≠ .rtlsdrDriver → c.mQueueIn.isSome) ∧
      (∀ c ∈ components, ∀ q ∈ c.mQueueIn, q ∉ c.kind.writes) ∧
      components.Pairwise (fun c c' => ∀ q ∈ c.mQueueIn, q ∉ c'.kind.writes))
    ⟨fun ⟨hkinds, hreaders, hconnected, hown, horder⟩ =>
      ⟨hkinds, hreaders, hconnected, hown, horder⟩,
      fun h => ⟨h.kinds, h.readers, h.connected, h.own, h.order⟩⟩

theorem sound_vComponents (settings : Settings) : Sound (vComponents settings) := by
  unfold vComponents output processing sending writing
  split_ifs <;> first | contradiction | decide

/-- In the order of the list, the writer of a queue stands before its reader. -/
theorem Sound.writer_before {components : List Component} (h : Sound components) {i : ℕ}
    {c w : Component} {q : Queue} (hc : components[i]? = some c) (hq : c.mQueueIn = some q)
    (hw : w ∈ components) (hwrites : q ∈ w.kind.writes) :
    ∃ j < i, components[j]? = some w := by
  obtain ⟨j, hj⟩ := List.mem_iff_getElem?.mp hw
  refine ⟨j, ?_, hj⟩
  by_contra hle
  rcases Nat.lt_or_eq_of_le (Nat.le_of_not_lt hle) with hlt | heq
  · obtain ⟨hi, rfl⟩ := List.getElem?_eq_some_iff.mp hc
    obtain ⟨hj', rfl⟩ := List.getElem?_eq_some_iff.mp hj
    exact List.pairwise_iff_getElem.mp h.order i j hi hj' hlt q hq hwrites
  · subst heq
    obtain rfl : c = w := Option.some.inj (hc.symm.trans hj)
    exact h.own c hw q hq hwrites

theorem Sound.reader_unique {components : List Component} (h : Sound components)
    {k k' : Kind} {q : Queue} (hk : ⟨k, some q⟩ ∈ components) (hk' : ⟨k', some q⟩ ∈ components) :
    k = k' := by
  obtain ⟨i, hi, hik⟩ := List.getElem_of_mem hk
  obtain ⟨j, hj, hjk⟩ := List.getElem_of_mem hk'
  rcases Nat.lt_trichotomy i j with hlt | rfl | hlt
  · have hdisjoint := List.pairwise_iff_getElem.mp h.readers i j hi hj hlt q
    rw [hik, hjk] at hdisjoint
    exact absurd rfl (hdisjoint rfl)
  · exact congrArg Component.kind (hik.symm.trans hjk)
  · have hdisjoint := List.pairwise_iff_getElem.mp h.readers j i hj hi hlt q
    rw [hik, hjk] at hdisjoint
    exact absurd rfl (hdisjoint rfl)

/-- So many components have been stopped. -/
def Pc.stopped : Pc → ℕ
  | stopping i | joining i => i
  | _ => 0

/-- `main` is restarting the decoder's stream. -/
def Pc.restarts : Pc → Bool
  | stopDecoder | joinDecoder | startDecoder => true
  | _ => false

section Invariant

variable {settings : Settings} {s : State}

/-- What every step of `main` and of the threads keeps. -/
structure Inv (settings : Settings) (s : State) : Prop where
  owned : s.threads.Owned
  assembled : ∀ k, s.threads.handle k ≠ none → ∃ c ∈ vComponents settings, c.kind = k
  stopped : ∀ j < s.main.stopped, ∀ c, (vComponents settings)[j]? = some c →
    c.kind ≠ .iqStream → s.threads.handle c.kind = none
  decoding : s.main.restarts = true → settings.pipeline = "DEC"

theorem Inv.contract (h : Inv settings s) : Contract settings s := by
  have hsound := sound_vComponents settings
  constructor
  case one_reader =>
    intro q x hx y hy hreads hreads'
    exact h.owned.unique hx hy (hsound.reader_unique hreads hreads')
  case one_writer =>
    intro q x hx y hy hwrites hwrites'
    exact h.owned.unique hx hy
      ((owner_of_mem_writes hwrites).symm.trans (owner_of_mem_writes hwrites'))
  case connected =>
    intro x hx hdriver
    have hhandle : s.threads.handle x.2 ≠ none := by
      rw [h.owned x hx]
      exact Option.some_ne_none _
    obtain ⟨c, hc, hkind⟩ := h.assembled x.2 hhandle
    rw [← hkind] at hdriver ⊢
    obtain ⟨q, hq⟩ := Option.isSome_iff_exists.mp (hsound.connected c hc hdriver)
    exact ⟨q, by rwa [Reads, ← hq]⟩
  case writer_stopped =>
    intro i c q hmain hc hq x hx hwrites
    have hhandle : s.threads.handle x.2 ≠ none := by
      rw [h.owned x hx]
      exact Option.some_ne_none _
    obtain ⟨w, hw, hkind⟩ := h.assembled x.2 hhandle
    rw [← hkind] at hwrites hhandle
    obtain ⟨j, hj, hwj⟩ := hsound.writer_before hc hq hw hwrites
    have hstopped : s.main.stopped = i := by
      rcases hmain with hmain | hmain
      · rw [hmain, Pc.stopped]
      · rw [hmain, Pc.stopped]
    refine hhandle (h.stopped j (hstopped ▸ hj) w hwj ?_)
    intro hiq
    rw [hiq] at hwrites
    cases hwrites

theorem Inv.finishOk (h : Inv settings s) : Inv settings s.finishOk where
  owned := h.owned
  assembled := h.assembled
  stopped j hj := absurd hj (Nat.not_lt_zero j)
  decoding := nofun

/-- A step to a place where no more is known to be stopped. -/
theorem Inv.goto (h : Inv settings s) (next : Pc) (hstop : next.stopped = 0)
    (hrestarts : next.restarts = true → settings.pipeline = "DEC") (currentDec : ℕ) :
    Inv settings { s with main := next, currentDec := currentDec } where
  owned := h.owned
  assembled := h.assembled
  stopped j hj := absurd (hstop ▸ hj) (Nat.not_lt_zero j)
  decoding := hrestarts

theorem Inv.startThread (h : Inv settings s) {kind : Kind}
    (hkind : ∃ c ∈ vComponents settings, c.kind = kind) {next : Pc} (hstop : next.stopped = 0)
    (hrestarts : next.restarts = false) {look : Look} {s' : State}
    (hstart : startThread kind next look s = some s') : Inv settings s' := by
  unfold SensorAssembly.startThread at hstart
  split at hstart
  · obtain ⟨threads, hcreate, rfl⟩ := Option.map_eq_some_iff.mp hstart
    constructor
    case owned => exact h.owned.create hcreate
    case assembled =>
      intro k hk
      rcases Threads.handle_create hcreate hk with rfl | hk
      · exact hkind
      · exact h.assembled k hk
    case stopped =>
      intro j hj
      exact absurd (hstop ▸ hj) (Nat.not_lt_zero j)
    case decoding =>
      intro htrue
      exact absurd (hrestarts.symm.trans htrue) Bool.false_ne_true
  · obtain rfl := Option.some.inj hstart
    exact h.finishOk

/-- A component that has been joined. -/
theorem Inv.joined (h : Inv settings s) {kind : Kind} {threads : Threads Kind}
    (hjoin : s.threads.join kind = .joined threads) (next : Pc)
    (hstop : ∀ j < next.stopped, ∀ c, (vComponents settings)[j]? = some c →
      c.kind ≠ .iqStream → c.kind = kind ∨ s.threads.handle c.kind = none)
    (hrestarts : next.restarts = true → settings.pipeline = "DEC") :
    Inv settings { s with main := next, threads := threads } := by
  constructor
  case owned => exact h.owned.join hjoin
  case assembled =>
    intro k hk
    exact h.assembled k (Threads.handle_join hjoin hk).2
  case stopped =>
    intro j hj c hc hiq
    by_contra hhandle
    obtain ⟨hne, hhandle⟩ := Threads.handle_join hjoin hhandle
    rcases hstop j hj c hc hiq with heq | hnone
    · exact hne heq
    · exact hhandle hnone
  case decoding => exact hrestarts

theorem iqStream_mem (hdec : settings.pipeline = "DEC") :
    ∃ c ∈ vComponents settings, c.kind = .iqStream := by
  refine ⟨.behind .iqStream .rtlsdrDriver, ?_, rfl⟩
  rw [vComponents, processing, hdec]
  exact List.mem_append_left _ (by decide)

/-- What holds of the components before a place, and of the one there, holds before the next. -/
theorem before_succ {components : List Component} {p : Component → Prop} {i : ℕ} {c : Component}
    (hbefore : ∀ j < i, ∀ c', components[j]? = some c' → p c')
    (hc : components[i]? = some c) (hp : p c) :
    ∀ j < i + 1, ∀ c', components[j]? = some c' → p c' := by
  intro j hj c' hc'
  rcases Nat.lt_succ_iff_lt_or_eq.mp hj with hlt | rfl
  · exact hbefore j hlt c' hc'
  · obtain rfl : c = c' := Option.some.inj (hc.symm.trans hc')
    exact hp

theorem Inv.starting {look : Look} {s' : State} {i : ℕ} (h : Inv settings s)
    (hmain : s.main = .starting i) (hstep : mainStep settings look s = some s') :
    Inv settings s' := by
  unfold mainStep at hstep
  rw [hmain] at hstep
  dsimp only at hstep
  cases hc : (vComponents settings)[i]? with
  | none =>
    rw [hc] at hstep
    obtain rfl := Option.some.inj hstep
    exact h.goto .watching rfl nofun s.currentDec
  | some c =>
    rw [hc] at hstep
    exact h.startThread ⟨c, List.mem_of_getElem? hc, rfl⟩ rfl rfl hstep

theorem Inv.watching {look : Look} {s' : State} (h : Inv settings s)
    (hmain : s.main = .watching) (hstep : mainStep settings look s = some s') :
    Inv settings s' := by
  unfold mainStep at hstep
  rw [hmain] at hstep
  dsimp only at hstep
  split at hstep
  · obtain rfl := Option.some.inj hstep
    exact h.finishOk
  · split at hstep
    · rename_i hdec
      obtain rfl := Option.some.inj hstep
      exact h.goto .stopDecoder rfl (fun _ => hdec.1) s.currentDec
    · obtain rfl := Option.some.inj hstep
      exact h

/-- Only `IQStream` is stopped and started again, and that in its own pipeline. -/
theorem Inv.restarting {look : Look} {s' : State} (h : Inv settings s)
    (hmain : s.main.restarts = true) (hstep : mainStep settings look s = some s') :
    Inv settings s' := by
  have hdec := h.decoding hmain
  unfold mainStep at hstep
  cases hplace : s.main with
  | stopDecoder =>
    rw [hplace] at hstep
    obtain rfl := Option.some.inj hstep
    apply h.goto
    · split <;> rfl
    · exact fun _ => hdec
  | joinDecoder =>
    rw [hplace] at hstep
    dsimp only at hstep
    cases hjoin : s.threads.join .iqStream with
    | waits =>
      rw [hjoin] at hstep
      obtain rfl := Option.some.inj hstep
      exact h
    | refused =>
      rw [hjoin] at hstep
      obtain rfl := Option.some.inj hstep
      exact h.finishOk
    | joined threads =>
      rw [hjoin] at hstep
      obtain rfl := Option.some.inj hstep
      exact h.joined hjoin .startDecoder nofun (fun _ => hdec)
  | startDecoder =>
    rw [hplace] at hstep
    dsimp only at hstep
    split at hstep
    · exact h.startThread (iqStream_mem hdec) rfl rfl hstep
    · obtain rfl := Option.some.inj hstep
      exact h.goto .watching rfl nofun s.currentDec
  | starting | watching | stopping | joining | returned =>
    rw [hplace] at hmain
    cases hmain

theorem Inv.stopping {look : Look} {s' : State} {i : ℕ} (h : Inv settings s)
    (hmain : s.main = .stopping i) (hstep : mainStep settings look s = some s') :
    Inv settings s' := by
  have hstopped := h.stopped
  unfold mainStep at hstep
  rw [hmain] at hstep hstopped
  dsimp only at hstep
  cases hc : (vComponents settings)[i]? with
  | none =>
    rw [hc] at hstep
    obtain rfl := Option.some.inj hstep
    exact h.goto .returned rfl nofun s.currentDec
  | some c =>
    rw [hc] at hstep
    dsimp only at hstep
    split at hstep
    · rename_i hskip
      obtain rfl := Option.some.inj hstep
      refine ⟨h.owned, h.assembled, ?_, nofun⟩
      exact before_succ hstopped hc (fun hiq => absurd hskip.1 hiq)
    · obtain rfl := Option.some.inj hstep
      exact ⟨h.owned, h.assembled, hstopped, nofun⟩

theorem Inv.joining {look : Look} {s' : State} {i : ℕ} (h : Inv settings s)
    (hmain : s.main = .joining i) (hstep : mainStep settings look s = some s') :
    Inv settings s' := by
  have hstopped := h.stopped
  unfold mainStep at hstep
  rw [hmain] at hstep hstopped
  dsimp only at hstep
  cases hc : (vComponents settings)[i]? with
  | none =>
    rw [hc] at hstep
    obtain rfl := Option.some.inj hstep
    exact h
  | some c =>
    rw [hc] at hstep
    dsimp only at hstep
    cases hjoin : s.threads.join c.kind with
    | waits =>
      rw [hjoin] at hstep
      obtain rfl := Option.some.inj hstep
      exact h
    | refused =>
      rw [hjoin] at hstep
      cases hstep
    | joined threads =>
      rw [hjoin] at hstep
      obtain rfl := Option.some.inj hstep
      refine h.joined hjoin (.stopping (i + 1)) (before_succ ?_ hc ?_) nofun
      · intro j hj c' hc' hiq
        exact .inr (hstopped j hj c' hc' hiq)
      · exact fun _ => .inl rfl

theorem inv_mainStep {look : Look} {s' : State} (h : Inv settings s)
    (hstep : mainStep settings look s = some s') : Inv settings s' := by
  cases hmain : s.main with
  | starting i => exact h.starting hmain hstep
  | watching => exact h.watching hmain hstep
  | stopDecoder | joinDecoder | startDecoder => exact h.restarting (by rw [hmain]; rfl) hstep
  | stopping i => exact h.stopping hmain hstep
  | joining i => exact h.joining hmain hstep
  | returned =>
    unfold mainStep at hstep
    rw [hmain] at hstep
    obtain rfl := Option.some.inj hstep
    exact h

theorem inv_act (a : Action) (s s' : State) (h : Inv settings s)
    (hact : act settings a s = some s') : Inv settings s' := by
  cases a with
  | main look => exact inv_mainStep h hact
  | signal =>
    obtain rfl := Option.some.inj hact
    exact h.finishOk
  | finish t =>
    obtain rfl := Option.some.inj hact
    exact ⟨h.owned.finish t, h.assembled, h.stopped, h.decoding⟩

theorem inv_start (settings : Settings) : Inv settings {} where
  owned := Threads.owned_empty
  assembled _ hk := absurd rfl hk
  stopped j hj := absurd hj (Nat.not_lt_zero j)
  decoding := nofun

end Invariant

/-- Whatever the configuration, whatever `main` finds and whenever it is interrupted: no queue
ever has two readers or two writers, nobody reads from a queue that is not there, and
`finish_ok` stops a component only when nobody is left who writes to its queue. -/
theorem contract_kept (settings : Settings) (actions : List Action) (s : State)
    (hrun : run (act settings) actions {} = some s) : Contract settings s :=
  (inv_of_run inv_act (inv_start settings) hrun).contract

/-- The decoders' pipeline without outputs. -/
def decoding : Settings := { (default : Settings) with
  pipeline := "DEC"
  tlsHost := "0"
  outputFileName := "" }

/-- Another decoder is selected while `main` watches, and a signal ends the sensor. -/
def restarted : List Action :=
  List.replicate 4 (.main {}) ++
    [.main { decoder := 1 }, .main { decoder := 1 }, .finish 2, .main {}, .main { decoder := 1 },
      .signal, .finish 0, .finish 1, .finish 3] ++ List.replicate 7 (.main {})

theorem contract_kept_restarted :
    ∃ s, run (act decoding) restarted {} = some s ∧ s.main = .returned ∧
      s.threads.fresh = 4 ∧ s.threads.live = ∅ ∧ Contract decoding s := by
  have hend : (run (act decoding) restarted {}).map
      (fun s => (s.main, s.threads.fresh, s.threads.live)) = some (.returned, 4, ∅) := by
    decide +kernel
  obtain ⟨s, hrun, hs⟩ := Option.map_eq_some_iff.mp hend
  rw [Prod.mk.injEq, Prod.mk.injEq] at hs
  exact ⟨s, hrun, hs.1, hs.2.1, hs.2.2, contract_kept decoding restarted s hrun⟩

section Chains

variable {settings : Settings}

/-- In both recording pipelines each component reads what the one before it writes. -/
theorem chained (hpipeline : settings.pipeline = "PSD" ∨ settings.pipeline = "IQ") :
    (vComponents settings).IsChain (fun c c' => c'.mQueueIn = some (.mQueueOut c.kind)) := by
  unfold vComponents output processing sending writing
  rcases hpipeline with hpipeline | hpipeline
  · rw [hpipeline]
    split_ifs <;> first | contradiction | decide
  · rw [hpipeline]
    split_ifs <;> first | contradiction | decide

/-- The block whose loop body a component of the spectrum pipeline runs. -/
def Kind.psdBlock {K : Type} [Field K] [LinearOrder K] (lib : Library K)
    (ctx : ElectrosenseContext) : Kind → Option (Block (Averaging.BlockState K) (SpectrumSegment K))
  | removeDC => some (Block.ofMap {} PsdPipeline.removeDC)
  | windowing => some (Block.ofMap {} (PsdPipeline.windowing lib ctx))
  | fft => some (PsdPipeline.fft lib ctx)
  | averaging => some (Averaging.averaging lib.log10 ctx.fftSize ctx.avgFactor)
  | _ => none

/-- `main` builds the chain of the spectrum pipeline. -/
theorem psdBlocks_of_assembly {K : Type} [Field K] [LinearOrder K] (lib : Library K)
    (ctx : ElectrosenseContext) (hpipeline : settings.pipeline = "PSD") :
    (vComponents settings).filterMap (fun c => c.kind.psdBlock lib ctx) = psdBlocks lib ctx := by
  unfold vComponents output processing sending writing
  rw [hpipeline]
  split_ifs <;> first | contradiction | rfl

/-- The block whose loop body a component of the sample recording runs. -/
def Kind.captureBlock (single : ℚ → UInt32) (outputType : ℕ) :
    Kind → Option (Block IqCapture.Memory IqCapture.RawSegment)
  | removeDCRTL => some IqCapture.removeDCRTL
  | iqSink => some (IqCapture.iqSink single outputType)
  | _ => none

/-- `main` builds the chain that records samples to a file. -/
theorem captureBlocks_of_assembly (single : ℚ → UInt32) (hpipeline : settings.pipeline = "IQ")
    (htls : settings.tlsHost = "0") (hfile : settings.outputFileName ≠ "") :
    (vComponents settings).filterMap (fun c => c.kind.captureBlock single settings.outputType) =
      IqCapture.captureBlocks single settings.outputType := by
  have houtput : output settings = writing "IQ" settings.outputType := by
    rw [output, if_neg (not_not.mpr htls), if_pos hfile, hpipeline]
  rw [vComponents, houtput, hpipeline]
  unfold writing IqCapture.captureBlocks
  rw [if_neg (by decide), if_pos rfl]
  split_ifs
  · rfl
  · rfl

end Chains

end EsSensor.SensorAssembly
