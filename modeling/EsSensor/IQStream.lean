import EsSensor.Library.ByteOrder
import EsSensor.Library.FrameCode
import EsSensor.Library.GuardedRun
import EsSensor.Resampler

/-!
The stream of samples to the child that decodes them. A header with the number
of samples goes out in one call with the samples, and of the result of that call
only its sign is looked at.
-/
namespace EsSensor.IQStream

open ByteOrder CheckedLoop GuardedRun MachineWord

/-- The arguments of `sendIQSamples`. -/
structure Request where
  centerFrequency : ℕ
  gain : ℕ
  nSamples : ℕ
  iq : List UInt8
  deriving DecidableEq, Repr

/-- What the two vectors gather: the packed `Header`, and so many samples. -/
def Request.message (q : Request) : List UInt8 :=
  littleEndian 8 q.centerFrequency ++ littleEndian 4 q.gain ++ littleEndian 4 q.nSamples ++
    q.iq.take q.nSamples

/-- What `sendmsg` may answer on a stream socket. -/
inductive SendResult
  | error
  | sent (count : ℕ)
  deriving DecidableEq, Repr

inductive Exit
  | stopped
  | broken
  deriving DecidableEq, Repr

/-- The conversion of the resampler's output to bytes, and fuel for its loops. -/
structure Conversion where
  fuel : ℕ
  toByte : ℚ → UInt8

/-- The members, the variables of `run`, and what the decoder has been given. -/
structure State where
  mRunning : Bool
  mSocketEnable : Bool
  mDecoderState : Bool
  ri : Resampler.Downsampler
  rq : Resampler.Downsampler
  outputVectorQ : List UInt8
  delivered : List UInt8
  exit : Option Exit

/-- What one round of the loop meets: whether `stop` was called by the time of
each test, whether the decoder has connected, the segment that is dequeued, the
settings at that moment, and the answer to the send. -/
structure Round where
  stopAtTest : Bool := false
  accepted : Bool := true
  segment : Option (List UInt8)
  stopAfterDequeue : Bool := false
  decoder : ℕ
  minFreq : ℕ
  gainDecoder : ℕ
  result : SendResult
  stopAfterSend : Bool := false

/-- The bytes of each of the vectors that `run` allocates. -/
def vectorSize : ℕ := 256 * 1024

def start (ri rq : Resampler.Downsampler) (outputVectorQ : List UInt8) : State where
  mRunning := true
  mSocketEnable := false
  mDecoderState := true
  ri := ri
  rq := rq
  outputVectorQ := outputVectorQ
  delivered := []
  exit := none

/-- The samples are separated; after an odd number the last read is outside. -/
def separate : List UInt8 → Except Fault (List UInt8 × List UInt8)
  | [] => .ok ([], [])
  | [_] => .error .outOfRange
  | i :: q :: rest => do
    let (is, qs) ← separate rest
    .ok (i :: is, q :: qs)

/-- The output is put together again, as long as the first vector. -/
def interleave : List UInt8 → List UInt8 → Except Fault (List UInt8)
  | [], _ => .ok []
  | _ :: _, [] => .error .outOfRange
  | i :: is, q :: qs => do
    let rest ← interleave is qs
    .ok (i :: q :: rest)

def checkSize (bytes : List UInt8) : Except Fault (List UInt8) :=
  if bytes.length ≤ vectorSize then .ok bytes else .error .outOfRange

/-- The branch with resampling, up to the send; `fbuffer` is returned. -/
def resample (conv : Conversion) (s : State) (sbuffer : List UInt8) :
    Except Fault (State × List UInt8) := do
  let (is, qs) ← separate sbuffer
  let inputVectorI ← checkSize is
  let inputVectorQ ← checkSize qs
  let (ri, outI) ← Resampler.filter conv.fuel s.ri inputVectorI
  let outputVectorI ← checkSize (outI.map conv.toByte)
  let (rq, outQ) ← Resampler.filter conv.fuel s.rq inputVectorQ
  let outputVectorQ ← storeAt s.outputVectorQ 0 (outQ.map conv.toByte)
  let samples ← interleave outputVectorI outputVectorQ
  let fbuffer ← checkSize samples
  .ok ({ s with ri := ri, rq := rq, outputVectorQ := outputVectorQ }, fbuffer)

/-- A round up to its send, with the request if there is one. -/
def beforeSend (conv : Conversion) (r : Round) (s : State) :
    Except Fault (State × Option Request) :=
  let s := { s with mRunning := s.mRunning && !r.stopAtTest }
  if s.mRunning then
    let s := { s with mSocketEnable := s.mSocketEnable || r.accepted }
    match r.segment with
    | none => .ok (s, none)
    | some sbuffer =>
      if s.mSocketEnable then
        let s := { s with mRunning := s.mRunning && !r.stopAfterDequeue }
        if !s.mRunning then .ok ({ s with exit := some .stopped }, none)
        -- ID=3 -> dump1090 does not need to perform resampling
        else if r.decoder = 3 then
          .ok (s, some ⟨u64 r.minFreq, u32 r.gainDecoder, u32 sbuffer.length, sbuffer⟩)
        else do
          let (s, fbuffer) ← resample conv s sbuffer
          .ok (s, some ⟨u64 r.minFreq, u32 r.gainDecoder, u32 fbuffer.length, fbuffer⟩)
      else .ok (s, none)
  else .ok ({ s with exit := some .stopped }, none)

/-- The send and the test of its result. An answer that the call cannot give
leads nowhere. -/
def afterSend (r : Round) (s : State) (message : List UInt8) : Option State :=
  let mRunning := s.mRunning && !r.stopAfterSend
  match r.result with
  | .error =>
    if mRunning then
      some { s with mRunning := mRunning, mDecoderState := false, exit := some .broken }
    else some { s with mRunning := mRunning }
  | .sent count =>
    if 1 ≤ count ∧ count ≤ message.length then
      some { s with mRunning := mRunning, delivered := s.delivered ++ message.take count }
    else none

/-- One round. There is none after the loop was left or memory was misused. -/
def step (conv : Conversion) (r : Round) (s : State) : Option State :=
  if s.exit.isSome then none
  else
    match beforeSend conv r s with
    | .error _ => none
    | .ok (s, none) => some s
    | .ok (s, some q) => afterSend r s q.message

/-- A header that says how many samples follow. -/
structure Request.Valid (q : Request) : Prop where
  centerFrequency_lt : q.centerFrequency < 2 ^ 64
  gain_lt : q.gain < 2 ^ 32
  nSamples_lt : q.nSamples < 2 ^ 32
  nSamples_eq : q.nSamples = q.iq.length

/-- The decoder's side: sixteen bytes of header, then the samples. -/
def receive (stream : List UInt8) : Option (Request × List UInt8) := do
  let (centerFrequency, stream) ← readBytes 8 stream
  let (gain, stream) ← readBytes 4 stream
  let (nSamples, stream) ← readBytes 4 stream
  let (iq, stream) ← readBytes (ofLittleEndian nSamples) stream
  some (⟨ofLittleEndian centerFrequency, ofLittleEndian gain, ofLittleEndian nSamples, iq⟩, stream)

theorem receive_message {q : Request} (hq : q.Valid) (rest : List UInt8) :
    receive (q.message ++ rest) = some (q, rest) := by
  have hfreq : ofLittleEndian (littleEndian 8 q.centerFrequency) = q.centerFrequency :=
    ofLittleEndian_littleEndian hq.centerFrequency_lt
  have hgain : ofLittleEndian (littleEndian 4 q.gain) = q.gain :=
    ofLittleEndian_littleEndian hq.gain_lt
  have hcount : ofLittleEndian (littleEndian 4 q.nSamples) = q.nSamples :=
    ofLittleEndian_littleEndian hq.nSamples_lt
  have hiq : q.iq.take q.nSamples = q.iq := List.take_of_length_le (by rw [hq.nSamples_eq])
  have hread := readBytes_append hq.nSamples_eq.symm rest
  simp only [receive, Request.message, List.append_assoc,
    readBytes_append (littleEndian_length 8 _), readBytes_append (littleEndian_length 4 _), hfreq,
    hgain, hcount, hiq, hread, Option.bind_eq_bind, Option.bind_some]

theorem receive_shorter {stream rest : List UInt8} {q : Request}
    (hreceive : receive stream = some (q, rest)) : rest.length < stream.length := by
  obtain ⟨⟨freq, afterFreq⟩, hfreq, hreceive⟩ := Option.bind_eq_some_iff.mp hreceive
  obtain ⟨⟨gain, afterGain⟩, hgain, hreceive⟩ := Option.bind_eq_some_iff.mp hreceive
  obtain ⟨⟨count, afterCount⟩, hcount, hreceive⟩ := Option.bind_eq_some_iff.mp hreceive
  obtain ⟨⟨iq, afterIq⟩, hiq, hreceive⟩ := Option.bind_eq_some_iff.mp hreceive
  obtain ⟨-, rfl⟩ := Prod.mk.inj (Option.some.inj hreceive)
  have hfreqLength := length_readBytes hfreq
  have hgainLength := length_readBytes hgain
  have hcountLength := length_readBytes hcount
  have hiqLength := length_readBytes hiq
  show afterIq.length < stream.length
  omega

/-- The frames of the stream as a code. -/
def frameCode : FrameCode Request UInt8 where
  frame := Request.message
  Valid := Request.Valid
  next := receive
  next_frame _ hq rest := receive_message hq rest
  next_shorter _ _ _ hreceive := receive_shorter hreceive

/-- Unless the loop was left through its error path, the decoder has been given
whole frames. -/
def InFrame (s : State) : Prop := s.exit ≠ some .broken → frameCode.Whole s.delivered

/-- What the round sends, if it sends something. -/
def request (conv : Conversion) (r : Round) (s : State) : Option Request :=
  match beforeSend conv r s with
  | .ok (_, q) => q
  | .error _ => none

/-- A send that the round makes fails or takes the whole frame. -/
def TakesAll (conv : Conversion) (r : Round) (s : State) : Prop :=
  ∀ q ∈ request conv r s, r.result = .error ∨ r.result = .sent q.message.length

instance (conv : Conversion) (r : Round) (s : State) : Decidable (TakesAll conv r s) :=
  inferInstanceAs (Decidable (∀ q ∈ request conv r s, _))

theorem checkSize_eq_ok {bytes checked : List UInt8} (hcheck : checkSize bytes = .ok checked) :
    checked = bytes ∧ checked.length ≤ vectorSize := by
  unfold checkSize at hcheck
  split at hcheck
  · obtain rfl := Except.ok.inj hcheck
    exact ⟨rfl, by assumption⟩
  · cases hcheck

theorem resample_spec {conv : Conversion} {s s' : State} {sbuffer fbuffer : List UInt8}
    (hresample : resample conv s sbuffer = .ok (s', fbuffer)) :
    s'.delivered = s.delivered ∧ s'.exit = s.exit ∧ fbuffer.length ≤ vectorSize := by
  obtain ⟨⟨is, qs⟩, _, hresample⟩ := bind_eq_ok.mp hresample
  obtain ⟨inputVectorI, _, hresample⟩ := bind_eq_ok.mp hresample
  obtain ⟨inputVectorQ, _, hresample⟩ := bind_eq_ok.mp hresample
  obtain ⟨⟨ri, outI⟩, _, hresample⟩ := bind_eq_ok.mp hresample
  obtain ⟨outputVectorI, _, hresample⟩ := bind_eq_ok.mp hresample
  obtain ⟨⟨rq, outQ⟩, _, hresample⟩ := bind_eq_ok.mp hresample
  obtain ⟨outputVectorQ, _, hresample⟩ := bind_eq_ok.mp hresample
  obtain ⟨samples, _, hresample⟩ := bind_eq_ok.mp hresample
  obtain ⟨checked, hcheck, hresample⟩ := bind_eq_ok.mp hresample
  obtain ⟨rfl, rfl⟩ := Prod.mk.inj (Except.ok.inj hresample)
  exact ⟨rfl, rfl, (checkSize_eq_ok hcheck).2⟩

theorem request_valid (minFreq gainDecoder : ℕ) {bytes : List UInt8}
    (hsize : bytes.length ≤ vectorSize) :
    Request.Valid ⟨u64 minFreq, u32 gainDecoder, u32 bytes.length, bytes⟩ where
  centerFrequency_lt := Nat.mod_lt _ (by decide)
  gain_lt := Nat.mod_lt _ (by decide)
  nSamples_lt := Nat.mod_lt _ (by decide)
  nSamples_eq := u32_of_lt (lt_of_le_of_lt hsize (by decide))

/-- Up to the send nothing is delivered, and what is to be sent is a frame. -/
theorem beforeSend_spec {conv : Conversion} {r : Round} {s s' : State} {request : Option Request}
    (hsize : ∀ sbuffer ∈ r.segment, sbuffer.length ≤ vectorSize)
    (hround : beforeSend conv r s = .ok (s', request)) :
    s'.delivered = s.delivered ∧ ∀ q ∈ request, q.Valid ∧ s'.exit = s.exit := by
  unfold beforeSend at hround
  dsimp only at hround
  split at hround
  · split at hround
    · obtain ⟨rfl, rfl⟩ := Prod.mk.inj (Except.ok.inj hround)
      exact ⟨rfl, by simp⟩
    · rename_i sbuffer hsegment
      have hbuffer := hsize sbuffer hsegment
      split at hround
      · split at hround
        · obtain ⟨rfl, rfl⟩ := Prod.mk.inj (Except.ok.inj hround)
          exact ⟨rfl, by simp⟩
        · split at hround
          · obtain ⟨rfl, rfl⟩ := Prod.mk.inj (Except.ok.inj hround)
            refine ⟨rfl, ?_⟩
            intro q hq
            obtain rfl := Option.some.inj hq
            exact ⟨request_valid _ _ hbuffer, rfl⟩
          · obtain ⟨⟨resampled, fbuffer⟩, hresample, hrest⟩ := bind_eq_ok.mp hround
            obtain ⟨rfl, rfl⟩ := Prod.mk.inj (Except.ok.inj hrest)
            obtain ⟨hdelivered, hexit, hlength⟩ := resample_spec hresample
            refine ⟨hdelivered, ?_⟩
            intro q hq
            obtain rfl := Option.some.inj hq
            exact ⟨request_valid _ _ hlength, hexit⟩
      · obtain ⟨rfl, rfl⟩ := Prod.mk.inj (Except.ok.inj hround)
        exact ⟨rfl, by simp⟩
  · obtain ⟨rfl, rfl⟩ := Prod.mk.inj (Except.ok.inj hround)
    exact ⟨rfl, by simp⟩

/-- So many bytes of a frame are whole frames exactly when they are all of it. -/
theorem whole_take_iff {q : Request} (hq : q.Valid) {count : ℕ} (hlow : 1 ≤ count)
    (hhigh : count ≤ q.message.length) :
    frameCode.Whole (q.message.take count) ↔ count = q.message.length := by
  constructor
  · intro hwhole
    by_contra hne
    have hcut : frameCode.frame q = q.message.take count ++ q.message.drop count :=
      (List.take_append_drop count q.message).symm
    refine FrameCode.not_whole_of_cut hq hcut ?_ ?_ hwhole
    · rw [← List.length_pos_iff, List.length_take]
      omega
    · rw [← List.length_pos_iff, List.length_drop]
      omega
  · intro hall
    have hone := FrameCode.Whole.cons (F := frameCode) hq FrameCode.whole_nil
    rw [List.append_nil] at hone
    rw [hall, List.take_length]
    exact hone

/-- An answer to a send keeps the stream in frame exactly when it is an error or
counts the whole frame: what was sent before does not make a cut frame whole. -/
theorem afterSend_keeps_iff {r : Round} {s s' : State} {q : Request} (hq : q.Valid)
    (hexit : s.exit = none) (hwhole : frameCode.Whole s.delivered)
    (hafter : afterSend r s q.message = some s') :
    InFrame s' ↔ r.result = .error ∨ r.result = .sent q.message.length := by
  cases hresult : r.result with
  | error =>
    simp only [afterSend, hresult] at hafter
    refine iff_of_true ?_ (Or.inl rfl)
    split at hafter
    · obtain rfl := Option.some.inj hafter
      intro hbroken
      exact absurd rfl hbroken
    · obtain rfl := Option.some.inj hafter
      exact fun _ => hwhole
  | sent count =>
    simp only [afterSend, hresult] at hafter
    split at hafter
    · rename_i hcount
      obtain rfl := Option.some.inj hafter
      have hsame : InFrame { s with
          mRunning := s.mRunning && !r.stopAfterSend
          delivered := s.delivered ++ q.message.take count } ↔
          frameCode.Whole (s.delivered ++ q.message.take count) := by
        constructor
        · intro hframe
          exact hframe (by simp [hexit])
        · intro hframe _
          exact hframe
      obtain ⟨items, hitems, hdelivered⟩ := hwhole
      rw [hsame, hdelivered, FrameCode.whole_frames_append_iff hitems,
        whole_take_iff hq hcount.1 hcount.2]
      simp
    · cases hafter

theorem step_keeps_iff {conv : Conversion} {r : Round} {s s' : State}
    (hsize : ∀ sbuffer ∈ r.segment, sbuffer.length ≤ vectorSize) (hs : InFrame s)
    (hstep : step conv r s = some s') : InFrame s' ↔ TakesAll conv r s := by
  unfold step at hstep
  split at hstep
  · cases hstep
  · rename_i hgoing
    have hexit : s.exit = none := by simpa using hgoing
    have hwhole : frameCode.Whole s.delivered := hs (by simp [hexit])
    unfold TakesAll request
    cases hround : beforeSend conv r s with
    | error e =>
      rw [hround] at hstep
      cases hstep
    | ok out =>
      obtain ⟨t, request⟩ := out
      obtain ⟨hdelivered, hrequest⟩ := beforeSend_spec hsize hround
      rw [hround] at hstep
      cases request with
      | none =>
        obtain rfl := Option.some.inj hstep
        refine iff_of_true ?_ (by simp)
        intro _
        rw [hdelivered]
        exact hwhole
      | some q =>
        obtain ⟨hq, hkept⟩ := hrequest q rfl
        have hiff := afterSend_keeps_iff hq (hkept.trans hexit) (hdelivered ▸ hwhole) hstep
        simpa using hiff

/-- In every run the stream stays in frame exactly when each send that does not
fail takes its whole frame. -/
theorem in_frame_iff (conv : Conversion) (ri rq : Resampler.Downsampler)
    (outputVectorQ : List UInt8) (rounds : List Round)
    (hsize : ∀ r ∈ rounds, ∀ sbuffer ∈ r.segment, sbuffer.length ≤ vectorSize) :
    Along (step conv) InFrame (start ri rq outputVectorQ) rounds ↔
      Meets (step conv) (TakesAll conv) (start ri rq outputVectorQ) rounds := by
  have hstep : ∀ r ∈ rounds, ∀ s s' : State, True → InFrame s → step conv r s = some s' →
      True ∧ (InFrame s' ↔ TakesAll conv r s) := by
    intro r hr s s' _ hs hrun
    exact ⟨trivial, step_keeps_iff (hsize r hr) hs hrun⟩
  have hstart : InFrame (start ri rq outputVectorQ) := fun _ => FrameCode.whole_nil
  exact along_iff_meets hstep trivial hstart

/-- A downsampler that would hand its input on. -/
def passThrough : Resampler.Downsampler where
  maxBlockLength := vectorSize
  cicR := 1
  cic := .new 32 0 1
  fir := .rational (RationalFilter.ofTable [1] 1 1)

/-- A round of the decoder that takes the samples as they are. -/
def rawRound (segment : List UInt8) (result : SendResult) : Round where
  segment := some segment
  decoder := 3
  minFreq := 1090000000
  gainDecoder := 33
  result := result

theorem in_frame_iff_two_rounds :
    Along (step ⟨0, fun _ => 0⟩) InFrame (start passThrough passThrough [])
      [rawRound [1, 2] (.sent 18), rawRound [3, 4] .error] :=
  (in_frame_iff ⟨0, fun _ => 0⟩ passThrough passThrough [] _
    (by simp [rawRound, vectorSize])).mpr (by decide)

/-- Ten bytes of eighteen are taken, and the loop goes on. -/
theorem short_write_breaks_frame :
    ¬ Along (step ⟨0, fun _ => 0⟩) InFrame (start passThrough passThrough [])
      [rawRound [1, 2] (.sent 10)] := by
  intro hall
  have hframe := hall _ (List.prefix_refl _) _ rfl (by decide)
  refine FrameCode.not_whole_of_cut (a := ⟨1090000000, 33, 2, [1, 2]⟩)
    (q := [0, 0, 2, 0, 0, 0, 1, 2]) ?_ ?_ ?_ ?_ hframe
  · exact ⟨by decide, by decide, by decide, rfl⟩
  · rfl
  · decide
  · decide

end EsSensor.IQStream
