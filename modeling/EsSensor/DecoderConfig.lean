import EsSensor.Library.GuardedRun
import EsSensor.Resampler

/-!
How `IQStream::run` configures its resamplers. The decoder is read from the
shared context for the branch and anew for every field, while control messages
change it and the main thread restarts the stream after reads of its own.
-/
namespace EsSensor.DecoderConfig

open GuardedRun MachineWord Resampler

/-! The tables; decoder d has row d - 1. -/

def rationalDec : List Bool := [true, true, true, true, true, true]

def fsOutput : List ℚ := [240000, 60000, 2400000, 1600000, 2000000, 1920000]

def ripple : List ℚ := [-40, -40, -40, -40, -40, -40]

def transition : List ℚ := [1 / 10, 1 / 5, 1 / 5, 1 / 5, 1 / 5, 1 / 5]

def cutoff : List ℚ := [2 / 5, 1 / 4, 1 / 5, 1 / 5, 1 / 5, 1 / 5]

/-- The fields that are read from the tables, in the order of their reads. -/
inductive Field
  | rational
  | outputRate
  | transitionWidthFraction
  | desiredRipple
  | cutoffFraction
  deriving DecidableEq

/-- The assignment of one field from row i; there are no rows after the last. -/
def Field.assign (i : ℕ) (cfg : ResamplerConfig) : Field → Option ResamplerConfig
  | .rational => rationalDec[i]?.map (fun v => { cfg with rational := v, inputRate := 2400000 })
  | .outputRate => fsOutput[i]?.map (fun v => { cfg with outputRate := v })
  | .transitionWidthFraction =>
    transition[i]?.map (fun v => { cfg with transitionWidthFraction := v })
  | .desiredRipple => ripple[i]?.map (fun v => { cfg with desiredRipple := v })
  | .cutoffFraction => cutoff[i]?.map (fun v => { cfg with cutoffFraction := v })

/-- `cfg` as it is declared; the rates, which have no initial value, are assigned
before they are used. -/
def unset : ResamplerConfig where
  inputRate := 0
  outputRate := 0

/-- What is assigned without a decoder; the cut-off keeps its initial value. -/
def defaults : ResamplerConfig where
  rational := true
  inputRate := 2400000
  outputRate := 6000
  transitionWidthFraction := 1 / 5
  desiredRipple := -40

/-- The configuration of the decoder with row k. -/
def row (k : ℕ) : Option ResamplerConfig := do
  let rational ← rationalDec[k]?
  let outputRate ← fsOutput[k]?
  let transitionWidthFraction ← transition[k]?
  let desiredRipple ← ripple[k]?
  let cutoffFraction ← cutoff[k]?
  some { rational, inputRate := 2400000, outputRate, transitionWidthFraction, desiredRipple,
         cutoffFraction }

/-- Where the thread of the stream stands. After an access outside a table
nothing can be said any more. -/
inductive Pc
  | stopped
  | entry
  | branch
  | read (field : Field)
  | configured
  | outside
  deriving DecidableEq

/-- What follows the assignment of a field. -/
def Field.next : Field → Pc
  | .rational => .read .outputRate
  | .outputRate => .read .transitionWidthFraction
  | .transitionWidthFraction => .read .desiredRipple
  | .desiredRipple => .read .cutoffFraction
  | .cutoffFraction => .configured

/-- Where the main thread stands in its watch over the decoder. -/
inductive MainPc
  | compare
  | remember
  | stop
  | join
  | check
  deriving DecidableEq

/-- The shared decoder, the thread of the stream and the main thread. `indices`
is not a variable of the source: it keeps the indices of this run's reads. -/
structure State where
  decoder : ℕ
  mRunning : Bool
  stream : Pc
  cfg : ResamplerConfig
  indices : List ℕ
  main : MainPc
  currentDec : ℕ

/-- Every read of the decoder is a step of its own. -/
def streamStep (s : State) : Option State :=
  match s.stream with
  | .entry => some { s with mRunning := true, stream := .branch }
  | .branch =>
    if s.decoder ≠ 0 then some { s with stream := .read .rational }
    else some { s with cfg := defaults, stream := .configured }
  | .read field =>
    let index := u32Sub s.decoder 1
    match field.assign index s.cfg with
    | some cfg =>
      some { s with cfg := cfg, indices := s.indices ++ [index], stream := field.next }
    | none => some { s with indices := s.indices ++ [index], stream := .outside }
  | .configured => some s
  | .stopped => some s
  | .outside => none

/-- The stream is restarted for a new decoder, or when the decoder's process has
died. The join waits for the thread; a start over a thread that has not been
joined ends the program. -/
def mainStep (decoderState : Bool) (s : State) : Option State :=
  match s.main with
  | .compare =>
    if s.decoder ≠ s.currentDec ∨ decoderState = false then some { s with main := .remember }
    else some s
  | .remember => some { s with currentDec := s.decoder, main := .stop }
  | .stop =>
    if s.mRunning then some { s with mRunning := false, main := .join }
    else some { s with main := .check }
  | .join =>
    if s.stream = .configured then some { s with stream := .stopped, main := .check }
    else some s
  | .check =>
    -- `!= -1` compares with the largest word
    if s.decoder ≠ 2 ^ 32 - 1 then
      if s.stream = .stopped then
        some { s with stream := .entry, cfg := unset, indices := [], main := .compare }
      else none
    else some { s with main := .compare }

inductive Action
  | setDecoder (decoder : ℤ)
  | stream
  | main (decoderState : Bool)

/-- A control message stores its integer as an unsigned word. -/
def act : Action → State → Option State
  | .setDecoder decoder, s => some { s with decoder := word decoder }
  | .stream, s => streamStep s
  | .main decoderState, s => mainStep decoderState s

/-- The components have just been started. -/
def start : State where
  decoder := 0
  mRunning := false
  stream := .entry
  cfg := unset
  indices := []
  main := .compare
  currentDec := 0

/-- Every index lies in the tables, and the configuration is one row or the
defaults. -/
structure Consistent (s : State) : Prop where
  inside : ∀ i ∈ s.indices, i < 6
  oneRow : ∀ i ∈ s.indices, ∀ j ∈ s.indices, i = j
  whole : s.stream = .configured →
    (s.indices = [] ∧ s.cfg = defaults) ∨ ∃ k ∈ s.indices, row k = some s.cfg

/-- A read for a field finds one of the six decoders, and the one that the reads
before it have found. -/
def SameDecoder : Action → State → Prop
  | .stream, s => ∀ field, s.stream = .read field →
    1 ≤ s.decoder ∧ s.decoder ≤ 6 ∧ ∀ i ∈ s.indices, s.decoder = i + 1
  | _, _ => True

/-! Reads of one row, one after the other. -/

/-- The fields that are assigned before the read for a field. -/
def Field.before : Field → List Field
  | .rational => []
  | .outputRate => [.rational]
  | .transitionWidthFraction => [.rational, .outputRate]
  | .desiredRipple => [.rational, .outputRate, .transitionWidthFraction]
  | .cutoffFraction => [.rational, .outputRate, .transitionWidthFraction, .desiredRipple]

/-- These fields of a configuration as row k has them. -/
def assignAll (k : ℕ) (fields : List Field) : Option ResamplerConfig :=
  fields.foldlM (fun cfg field => field.assign k cfg) unset

theorem assignAll_concat (k : ℕ) (fields : List Field) (field : Field) :
    assignAll k (fields ++ [field]) =
      (assignAll k fields).bind (fun cfg => field.assign k cfg) := by
  simp [assignAll, List.foldlM_append]

/-- All five assignments make the row. -/
theorem assignAll_eq_row (k : ℕ) : assignAll k (Field.before .cutoffFraction ++ [.cutoffFraction]) =
    row k := by
  unfold assignAll row Field.before Field.assign unset
  cases rationalDec[k]? <;> cases fsOutput[k]? <;> cases transition[k]? <;> cases ripple[k]? <;>
    cases cutoff[k]? <;> rfl

theorem next_before (field : Field) :
    (∃ next, field.next = .read next ∧ next.before = field.before ++ [field]) ∨
      (field.next = .configured ∧ field = .cutoffFraction) := by
  cases field
  case cutoffFraction => exact Or.inr ⟨rfl, rfl⟩
  all_goals exact Or.inl ⟨_, rfl, rfl⟩

theorem index_eq_iff {decoder i : ℕ} (hdecoder : decoder < 2 ^ 32) (hi : i < 6) :
    u32Sub decoder 1 = i ↔ decoder = i + 1 := by
  rcases Nat.eq_zero_or_pos decoder with rfl | hpos
  · rw [u32Sub_of_lt (by decide) (by decide)]
    omega
  · rw [u32Sub_of_le hpos hdecoder]
    omega

theorem index_lt_iff {decoder : ℕ} (hdecoder : decoder < 2 ^ 32) :
    u32Sub decoder 1 < 6 ↔ 1 ≤ decoder ∧ decoder ≤ 6 := by
  rcases Nat.eq_zero_or_pos decoder with rfl | hpos
  · rw [u32Sub_of_lt (by decide) (by decide)]
    omega
  · rw [u32Sub_of_le hpos hdecoder]
    omega

/-- What has been assigned so far is the row of any index that all reads had. -/
def Built (s : State) : Prop :=
  match s.stream with
  | .stopped => True
  | .entry => s.cfg = unset ∧ s.indices = []
  | .branch => s.cfg = unset ∧ s.indices = []
  | .read field => ∀ k, (∀ i ∈ s.indices, i = k) → assignAll k field.before = some s.cfg
  | .configured => (s.indices = [] ∧ s.cfg = defaults) ∨
      (s.indices ≠ [] ∧ ∀ k, (∀ i ∈ s.indices, i = k) → row k = some s.cfg)
  | .outside => True

structure Inv (s : State) : Prop where
  decoder_lt : s.decoder < 2 ^ 32
  built : Built s

theorem Built.consistent {s : State} (hs : Built s) (hinside : ∀ i ∈ s.indices, i < 6)
    (hone : ∀ i ∈ s.indices, ∀ j ∈ s.indices, i = j) : Consistent s := by
  refine ⟨hinside, hone, fun hpc => ?_⟩
  simp only [Built, hpc] at hs
  rcases hs with hdefault | ⟨hne, hrow⟩
  · exact Or.inl hdefault
  · obtain ⟨k, hk⟩ := List.exists_mem_of_ne_nil _ hne
    exact Or.inr ⟨k, hk, hrow k (fun i hi => hone i hi k hk)⟩

/-- The assignment of a field goes on with the row that has been begun. -/
theorem built_of_assign {s : State} {field : Field} {cfg : ResamplerConfig} {index : ℕ}
    (hpc : s.stream = .read field) (hs : Built s) (hassign : field.assign index s.cfg = some cfg) :
    Built { s with cfg := cfg, indices := s.indices ++ [index], stream := field.next } := by
  simp only [Built, hpc] at hs
  have hrow : ∀ k, (∀ i ∈ s.indices ++ [index], i = k) →
      assignAll k (field.before ++ [field]) = some cfg := by
    intro k hk
    have hindex : index = k := hk index (by simp)
    rw [assignAll_concat, hs k (fun i hi => hk i (List.mem_append_left _ hi)), Option.bind_some,
      ← hindex, hassign]
  rcases next_before field with ⟨next, hnext, hbefore⟩ | ⟨hnext, rfl⟩
  · simp only [Built, hnext, hbefore]
    exact hrow
  · simp only [Built, hnext, ← assignAll_eq_row]
    exact Or.inr ⟨by simp, hrow⟩

/-- One more index keeps the row exactly when it is the index of that row. -/
theorem indices_iff {indices : List ℕ} {decoder : ℕ} (hdecoder : decoder < 2 ^ 32)
    (hinside : ∀ i ∈ indices, i < 6) :
    ((∀ i ∈ indices ++ [u32Sub decoder 1], i < 6) ∧
      ∀ i ∈ indices ++ [u32Sub decoder 1], ∀ j ∈ indices ++ [u32Sub decoder 1], i = j) ↔
    1 ≤ decoder ∧ decoder ≤ 6 ∧ ∀ i ∈ indices, decoder = i + 1 := by
  constructor
  · rintro ⟨hin, heq⟩
    obtain ⟨hlow, hhigh⟩ := (index_lt_iff hdecoder).mp (hin _ (by simp))
    refine ⟨hlow, hhigh, fun i hi => ?_⟩
    exact (index_eq_iff hdecoder (hinside i hi)).mp (heq _ (by simp) i (List.mem_append_left _ hi))
  · rintro ⟨hlow, hhigh, heq⟩
    have hindex := (index_lt_iff hdecoder).mpr ⟨hlow, hhigh⟩
    have hsame : ∀ i ∈ indices ++ [u32Sub decoder 1], i = u32Sub decoder 1 := by
      intro i hi
      rcases List.mem_append.mp hi with hold | hnew
      · exact ((index_eq_iff hdecoder (hinside i hold)).mpr (heq i hold)).symm
      · exact List.mem_singleton.mp hnew
    refine ⟨fun i hi => by rw [hsame i hi]; exact hindex, fun i hi j hj => ?_⟩
    rw [hsame i hi, hsame j hj]

/-- Where nothing is read, the indices are those of before. -/
theorem streamStep_quiet {s s' : State} (hbuilt : Built s) (hpc : ∀ field, s.stream ≠ .read field)
    (hstep : streamStep s = some s') :
    s'.decoder = s.decoder ∧ s'.indices = s.indices ∧ Built s' := by
  unfold streamStep at hstep
  cases hstream : s.stream with
  | stopped =>
    simp only [hstream, Option.some.injEq] at hstep
    subst hstep
    exact ⟨rfl, rfl, hbuilt⟩
  | entry =>
    simp only [hstream, Option.some.injEq] at hstep
    subst hstep
    simp only [Built, hstream] at hbuilt
    exact ⟨rfl, rfl, hbuilt⟩
  | branch =>
    simp only [hstream] at hstep
    simp only [Built, hstream] at hbuilt
    obtain ⟨hcfg, hindices⟩ := hbuilt
    by_cases hzero : s.decoder ≠ 0
    · rw [if_pos hzero, Option.some.injEq] at hstep
      subst hstep
      refine ⟨rfl, rfl, fun k _ => ?_⟩
      rw [hcfg]
      rfl
    · rw [if_neg hzero, Option.some.injEq] at hstep
      subst hstep
      exact ⟨rfl, rfl, Or.inl ⟨hindices, rfl⟩⟩
  | read field => exact absurd hstream (hpc field)
  | configured =>
    simp only [hstream, Option.some.injEq] at hstep
    subst hstep
    exact ⟨rfl, rfl, hbuilt⟩
  | outside => simp [hstream] at hstep

/-- A read for a field adds one index, whether or not the tables have it. -/
theorem streamStep_read {s s' : State} {field : Field} (hbuilt : Built s)
    (hpc : s.stream = .read field) (hstep : streamStep s = some s') :
    s'.decoder = s.decoder ∧ s'.indices = s.indices ++ [u32Sub s.decoder 1] ∧ Built s' := by
  simp only [streamStep, hpc] at hstep
  cases hassign : field.assign (u32Sub s.decoder 1) s.cfg with
  | some cfg =>
    simp only [hassign, Option.some.injEq] at hstep
    subst hstep
    exact ⟨rfl, rfl, built_of_assign hpc hbuilt hassign⟩
  | none =>
    simp only [hassign, Option.some.injEq] at hstep
    subst hstep
    exact ⟨rfl, rfl, trivial⟩

/-- A step of the stream keeps the row exactly when its read finds its decoder. -/
theorem streamStep_consistent {s s' : State} (hinv : Inv s) (hs : Consistent s)
    (hstep : streamStep s = some s') : Inv s' ∧ (Consistent s' ↔ SameDecoder .stream s) := by
  by_cases hpc : ∃ field, s.stream = .read field
  · obtain ⟨field, hread⟩ := hpc
    obtain ⟨hdecoder, hindices, hbuilt'⟩ := streamStep_read hinv.built hread hstep
    have hguard : SameDecoder .stream s ↔
        1 ≤ s.decoder ∧ s.decoder ≤ 6 ∧ ∀ i ∈ s.indices, s.decoder = i + 1 := by
      simp [SameDecoder, hread]
    refine ⟨⟨by rw [hdecoder]; exact hinv.decoder_lt, hbuilt'⟩, ?_⟩
    rw [hguard, ← indices_iff hinv.decoder_lt hs.inside, ← hindices]
    exact ⟨fun h => ⟨h.inside, h.oneRow⟩, fun h => hbuilt'.consistent h.1 h.2⟩
  · have hnot : ∀ field, s.stream ≠ .read field := fun field hread => hpc ⟨field, hread⟩
    obtain ⟨hdecoder, hindices, hbuilt'⟩ := streamStep_quiet hinv.built hnot hstep
    have hconsistent : Consistent s' := hbuilt'.consistent
      (by rw [hindices]; exact hs.inside) (by rw [hindices]; exact hs.oneRow)
    exact ⟨⟨by rw [hdecoder]; exact hinv.decoder_lt, hbuilt'⟩,
      fun _ field hread => absurd hread (hnot field), fun _ => hconsistent⟩

/-- The main thread leaves the configuration alone, or starts a new one. -/
theorem mainStep_cases {decoderState : Bool} {s s' : State}
    (hstep : mainStep decoderState s = some s') :
    s'.decoder = s.decoder ∧
      ((s'.stream = s.stream ∧ s'.cfg = s.cfg ∧ s'.indices = s.indices) ∨
        (s'.stream = .stopped ∧ s'.indices = s.indices) ∨
        (s'.stream = .entry ∧ s'.cfg = unset ∧ s'.indices = [])) := by
  unfold mainStep at hstep
  cases hpc : s.main <;> simp only [hpc] at hstep
  case compare =>
    split_ifs at hstep <;> (obtain rfl := Option.some.inj hstep; exact ⟨rfl, Or.inl ⟨rfl, rfl, rfl⟩⟩)
  case remember =>
    obtain rfl := Option.some.inj hstep
    exact ⟨rfl, Or.inl ⟨rfl, rfl, rfl⟩⟩
  case stop =>
    split_ifs at hstep <;> (obtain rfl := Option.some.inj hstep; exact ⟨rfl, Or.inl ⟨rfl, rfl, rfl⟩⟩)
  case join =>
    split_ifs at hstep
    · obtain rfl := Option.some.inj hstep
      exact ⟨rfl, Or.inr (Or.inl ⟨rfl, rfl⟩)⟩
    · obtain rfl := Option.some.inj hstep
      exact ⟨rfl, Or.inl ⟨rfl, rfl, rfl⟩⟩
  case check =>
    split_ifs at hstep
    · obtain rfl := Option.some.inj hstep
      exact ⟨rfl, Or.inr (Or.inr ⟨rfl, rfl, rfl⟩)⟩
    · obtain rfl := Option.some.inj hstep
      exact ⟨rfl, Or.inl ⟨rfl, rfl, rfl⟩⟩

theorem mainStep_consistent {decoderState : Bool} {s s' : State} (hinv : Inv s)
    (hs : Consistent s) (hstep : mainStep decoderState s = some s') : Inv s' ∧ Consistent s' := by
  obtain ⟨hdecoder, hcase⟩ := mainStep_cases hstep
  have hlt : s'.decoder < 2 ^ 32 := by
    rw [hdecoder]
    exact hinv.decoder_lt
  rcases hcase with ⟨hstream, hcfg, hindices⟩ | ⟨hstream, hindices⟩ | ⟨hstream, hcfg, hindices⟩
  · have hbuilt : Built s' := by
      unfold Built
      rw [hstream, hcfg, hindices]
      exact hinv.built
    exact ⟨⟨hlt, hbuilt⟩, hbuilt.consistent (by rw [hindices]; exact hs.inside)
      (by rw [hindices]; exact hs.oneRow)⟩
  · have hbuilt : Built s' := by simp only [Built, hstream]
    exact ⟨⟨hlt, hbuilt⟩, hbuilt.consistent (by rw [hindices]; exact hs.inside)
      (by rw [hindices]; exact hs.oneRow)⟩
  · have hbuilt : Built s' := by
      simp only [Built, hstream]
      exact ⟨hcfg, hindices⟩
    exact ⟨⟨hlt, hbuilt⟩, hbuilt.consistent (by simp [hindices]) (by simp [hindices])⟩

/-- One action keeps the row exactly when it meets its guard. -/
theorem act_consistent (a : Action) (s s' : State) (hinv : Inv s) (hs : Consistent s)
    (hact : act a s = some s') : Inv s' ∧ (Consistent s' ↔ SameDecoder a s) := by
  cases a with
  | setDecoder decoder =>
    obtain rfl := Option.some.inj hact
    have hbuilt : Built { s with decoder := word decoder } := hinv.built
    exact ⟨⟨word_lt decoder, hbuilt⟩, fun _ => trivial,
      fun _ => hbuilt.consistent hs.inside hs.oneRow⟩
  | stream => exact streamStep_consistent hinv hs hact
  | main decoderState =>
    obtain ⟨hinv', hs'⟩ := mainStep_consistent hinv hs hact
    exact ⟨hinv', fun _ => trivial, fun _ => hs'⟩

theorem inv_start : Inv start := ⟨by decide, rfl, rfl⟩

theorem consistent_start : Consistent start := inv_start.built.consistent nofun nofun

/-- In every interleaving, the indices stay in the tables and every configuration
is one row or the defaults, exactly when each read for a field finds one of the
six decoders, and the one found by the reads before it. -/
theorem decoder_config_consistent_iff (actions : List Action) :
    Along act Consistent start actions ↔ Meets act SameDecoder start actions :=
  along_iff_meets (fun a _ => act_consistent a) inv_start consistent_start

/-- The decoder changes from FM to AM radio between two reads. -/
def mixing : List Action :=
  [.setDecoder 1, .stream, .stream, .stream, .stream, .setDecoder 2, .stream, .stream, .stream]

/-- The decoder is deselected while the stream starts. -/
def deselecting : List Action := [.setDecoder (-1), .stream, .stream, .stream]

/-- The output rate of FM radio with the filter of AM radio, and an index past all
tables. -/
theorem mixed_row_and_wild_index :
    (∃ s, run act mixing start = some s ∧ s.stream = .configured ∧ s.cfg.outputRate = 240000 ∧
      s.cfg.cutoffFraction = 1 / 4) ∧
    (∃ s, run act deselecting start = some s ∧ s.indices = [2 ^ 32 - 2]) ∧
    ¬ Along act Consistent start mixing ∧ ¬ Along act Consistent start deselecting := by
  obtain ⟨mixed, hmixed, hconfigured, hindices, hrate, hcutoff⟩ :
      ∃ s, run act mixing start = some s ∧ s.stream = .configured ∧
        s.indices = [0, 0, 1, 1, 1] ∧ s.cfg.outputRate = 240000 ∧ s.cfg.cutoffFraction = 1 / 4 :=
    ⟨_, rfl, rfl, rfl, rfl, rfl⟩
  obtain ⟨wild, hwild, hindex⟩ :
      ∃ s, run act deselecting start = some s ∧ s.indices = [2 ^ 32 - 2] := ⟨_, rfl, rfl⟩
  refine ⟨⟨mixed, hmixed, hconfigured, hrate, hcutoff⟩, ⟨wild, hwild, hindex⟩, ?_, ?_⟩
  · intro halong
    have hone := (halong mixing List.prefix_rfl mixed hmixed).oneRow
    rw [hindices] at hone
    exact absurd (hone 0 (by simp) 1 (by simp)) (by decide)
  · intro halong
    have hinside := (halong deselecting List.prefix_rfl wild hwild).inside
    rw [hindex] at hinside
    exact absurd (hinside (2 ^ 32 - 2) (by simp)) (by decide)

end EsSensor.DecoderConfig
