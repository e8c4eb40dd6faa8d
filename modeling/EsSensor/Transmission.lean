import EsSensor.AvroSerialization
import EsSensor.Library.ByteOrder
import EsSensor.Library.FrameCode

/-!
Packets to the collector: the length of a record, for spectra the number of
bins, the record, and zeros up to a multiple of four. The buffer and its size
are kept from one packet to the next while the length stays the same.
-/
namespace EsSensor.Transmission

open CheckedLoop MachineWord ByteOrder

inductive ConnectionType
  | TCP
  | TLS
  deriving DecidableEq, Repr

/-- What the block reads before its loop and in it. The bytes of memory that was
just allocated are given by `fresh`. -/
structure Setup where
  ctx : ElectrosenseContext
  pipeline : String
  connection : ConnectionType
  fresh : ℕ → UInt8

namespace Setup

variable (cfg : Setup)

/-- The block computes the number of bins on its own. -/
def reducedFFTSize : ℕ :=
  let fftSize := u32 (2 ^ cfg.ctx.log2FftSize)
  let reducedFftSize := toUnsigned (cfg.ctx.keptPart (u32 (fftSize + 1)))
  if reducedFftSize % 2 = 0 then u32 (reducedFftSize + 1) else reducedFftSize

def payloadSize (dataSize : ℕ) : ℕ := u32 (dataSize + 3) - u32 (dataSize + 3) % 4

def packetSize (dataSize : ℕ) : ℕ :=
  if cfg.pipeline = "PSD" then u32 (2 * 4 + payloadSize dataSize)
  else u32 (1 * 4 + payloadSize dataSize)

def realloc (buf : List UInt8) (size : ℕ) : List UInt8 :=
  buf.take size ++ (List.range (size - buf.length)).map cfg.fresh

end Setup

/-- The variables of `run`, and what the collector has been sent. -/
structure State where
  prevDataSize : ℕ := 0
  packetSize : ℕ := 0
  buf : List UInt8 := []
  mRunning : Bool := true
  sent : List UInt8 := []

/-- Sizes and buffer are made anew only when the length is another one. -/
def State.resize (cfg : Setup) (s : State) (dataSize : ℕ) : State :=
  if dataSize ≠ s.prevDataSize then
    { s with
      packetSize := cfg.packetSize dataSize
      buf := cfg.realloc s.buf (cfg.packetSize dataSize)
      prevDataSize := dataSize }
  else s

/-- The packet is laid out in the buffer. -/
def fillPacket (cfg : Setup) (s : State) (avroBuffer : List UInt8) : Except Fault State := do
  let dataSize := u32 avroBuffer.length
  let s := s.resize cfg dataSize
  let buf ← storeAt s.buf 0 (List.replicate s.packetSize 0)
  if cfg.pipeline = "PSD" then
    let buf ← storeAt buf 0 (bigEndian 4 dataSize)
    let buf ← storeAt buf 4 (bigEndian 4 cfg.reducedFFTSize)
    let buf ← storeAt buf 8 (avroBuffer.take dataSize)
    .ok { s with buf := buf }
  else
    let buf ← storeAt buf 0 (bigEndian 4 dataSize)
    let buf ← storeAt buf 4 (avroBuffer.take dataSize)
    .ok { s with buf := buf }

/-- `tcp_write`: system calls are made until one fails or all is written. Beside
the result stand the bytes that the calls have taken. -/
def tcpWrite (msg : List UInt8) (bytesWritten : ℕ) : List ℤ → Except Fault (ℤ × List UInt8)
  | [] => .error .outOfFuel
  | b :: calls =>
    if b < 0 then .ok (-1, [])
    else
      let taken := (msg.drop bytesWritten).take b.toNat
      if bytesWritten + b.toNat = msg.length then .ok (0, taken)
      else do
        let (r, more) ← tcpWrite msg (bytesWritten + b.toNat) calls
        .ok (r, taken ++ more)

/-- `tls_write` makes one call, which must take everything. -/
def tlsWrite (msg : List UInt8) : List ℤ → Except Fault (ℤ × List UInt8)
  | [] => .error .outOfFuel
  | cnt :: _ => .ok (if cnt = msg.length then 0 else -1, msg.take cnt.toNat)

def write (connection : ConnectionType) (msg : List UInt8) (calls : List ℤ) :
    Except Fault (ℤ × List UInt8) :=
  match connection with
  | .TLS => tlsWrite msg calls
  | .TCP => tcpWrite msg 0 calls

/-- The loop over the records that are dequeued, each with the results of the
system calls that its packet meets. A failed write ends it. -/
def run (cfg : Setup) : State → List (List UInt8 × List ℤ) → Except Fault State
  | s, [] => .ok s
  | s, (avroBuffer, calls) :: rest => do
    let s ← fillPacket cfg s avroBuffer
    let (r, taken) ← write cfg.connection (s.buf.take s.packetSize) calls
    let s := { s with sent := s.sent ++ taken }
    if r ≠ 0 then .ok { s with mRunning := false } else run cfg s rest

/-- One packet as the collector sees it. -/
structure Packet where
  bins : Option ℕ
  payload : List UInt8
  padding : List UInt8
  deriving DecidableEq, Repr

/-- The bytes up to the next multiple of four. -/
def paddingSize (dataSize : ℕ) : ℕ := (4 - dataSize % 4) % 4

def Packet.bytes (p : Packet) : List UInt8 :=
  bigEndian 4 p.payload.length ++ p.bins.elim [] (bigEndian 4) ++ p.payload ++ p.padding

/-- The second word, which only spectra have. -/
def receiveBins (withBins : Bool) (stream : List UInt8) : Option (Option ℕ × List UInt8) :=
  if withBins then (readBytes 4 stream).map (fun r => (some (ofBigEndian r.1), r.2))
  else some (none, stream)

/-- The receiver's side: the length word, the number of bins, the payload, and
the padding. -/
def receive (withBins : Bool) (stream : List UInt8) : Option (Packet × List UInt8) := do
  let (word, stream) ← readBytes 4 stream
  let (bins, stream) ← receiveBins withBins stream
  let (payload, stream) ← readBytes (ofBigEndian word) stream
  let (padding, stream) ← readBytes (paddingSize (ofBigEndian word)) stream
  some (⟨bins, payload, padding⟩, stream)

structure Packet.Valid (withBins : Bool) (p : Packet) : Prop where
  payload_lt : p.payload.length < 2 ^ 32
  padding_length : p.padding.length = paddingSize p.payload.length
  bins_isSome : p.bins.isSome = withBins
  bins_lt : ∀ n ∈ p.bins, n < 2 ^ 32

theorem receiveBins_append {withBins : Bool} {bins : Option ℕ} (hsome : bins.isSome = withBins)
    (hlt : ∀ n ∈ bins, n < 2 ^ 32) (rest : List UInt8) :
    receiveBins withBins (bins.elim [] (bigEndian 4) ++ rest) = some (bins, rest) := by
  cases bins with
  | none =>
    obtain rfl : withBins = false := hsome.symm
    rfl
  | some n =>
    obtain rfl : withBins = true := hsome.symm
    have hword : ofBigEndian (bigEndian 4 n) = n := ofBigEndian_bigEndian (hlt n rfl)
    rw [receiveBins, if_pos rfl, Option.elim_some, readBytes_append (bigEndian_length 4 n),
      Option.map_some, hword]

theorem length_receiveBins {withBins : Bool} {stream rest : List UInt8} {bins : Option ℕ}
    (hread : receiveBins withBins stream = some (bins, rest)) : rest.length ≤ stream.length := by
  unfold receiveBins at hread
  split at hread
  · obtain ⟨⟨word, after⟩, hword, heq⟩ := Option.map_eq_some_iff.mp hread
    obtain ⟨-, rfl⟩ := Prod.mk.inj heq
    have hlength := length_readBytes hword
    show after.length ≤ stream.length
    omega
  · obtain ⟨-, rfl⟩ := Prod.mk.inj (Option.some.inj hread)
    exact Nat.le_refl _

theorem receive_bytes {withBins : Bool} {p : Packet} (hp : p.Valid withBins) (rest : List UInt8) :
    receive withBins (p.bytes ++ rest) = some (p, rest) := by
  have hword : ofBigEndian (bigEndian 4 p.payload.length) = p.payload.length :=
    ofBigEndian_bigEndian hp.payload_lt
  have hbins := receiveBins_append hp.bins_isSome hp.bins_lt (p.payload ++ (p.padding ++ rest))
  have hlength : p.payload.length = p.payload.length := rfl
  have hpayload := readBytes_append hlength (p.padding ++ rest)
  have hpadding := readBytes_append hp.padding_length rest
  simp only [receive, Packet.bytes, List.append_assoc, readBytes_append (bigEndian_length 4 _),
    hword, hbins, hpayload, Option.bind_eq_bind, Option.bind_some]
  rw [hpadding]
  rfl

theorem receive_shorter {withBins : Bool} {stream rest : List UInt8} {p : Packet}
    (hreceive : receive withBins stream = some (p, rest)) : rest.length < stream.length := by
  obtain ⟨⟨word, afterWord⟩, hword, hreceive⟩ := Option.bind_eq_some_iff.mp hreceive
  obtain ⟨⟨bins, afterBins⟩, hbins, hreceive⟩ := Option.bind_eq_some_iff.mp hreceive
  obtain ⟨⟨payload, afterPayload⟩, hpayload, hreceive⟩ := Option.bind_eq_some_iff.mp hreceive
  obtain ⟨⟨padding, afterPadding⟩, hpadding, hreceive⟩ := Option.bind_eq_some_iff.mp hreceive
  obtain ⟨-, rfl⟩ := Prod.mk.inj (Option.some.inj hreceive)
  have hwordLength := length_readBytes hword
  have hbinsLength := length_receiveBins hbins
  have hpayloadLength := length_readBytes hpayload
  have hpaddingLength := length_readBytes hpadding
  show afterPadding.length < stream.length
  omega

/-- The packets as a code on the connection. -/
def packetCode (withBins : Bool) : FrameCode Packet UInt8 where
  frame := Packet.bytes
  Valid := Packet.Valid withBins
  next := receive withBins
  next_frame _ hp rest := receive_bytes hp rest
  next_shorter _ _ _ hreceive := receive_shorter hreceive

variable {cfg : Setup} {s : State} {avroBuffer : List UInt8}

/-- What a record becomes, whatever was sent before. -/
def Setup.packet (cfg : Setup) (avroBuffer : List UInt8) : Packet where
  bins := if cfg.pipeline = "PSD" then some cfg.reducedFFTSize else none
  payload := avroBuffer
  padding := List.replicate (paddingSize avroBuffer.length) 0

theorem reducedFFTSize_eq (cfg : Setup) : cfg.reducedFFTSize = cfg.ctx.getReducedFFTSize := rfl

theorem reducedFFTSize_lt (cfg : Setup) : cfg.reducedFFTSize < 2 ^ 32 := by
  unfold Setup.reducedFFTSize toUnsigned u32
  dsimp only
  split <;> exact Nat.mod_lt _ (by decide)

theorem packet_valid (cfg : Setup) (hsize : avroBuffer.length ≤ 2 ^ 30) :
    (cfg.packet avroBuffer).Valid (cfg.pipeline = "PSD") where
  payload_lt := by
    show avroBuffer.length < 2 ^ 32
    omega
  padding_length := List.length_replicate
  bins_isSome := by
    show (if cfg.pipeline = "PSD" then some cfg.reducedFFTSize else none).isSome = _
    split <;> simp [*]
  bins_lt := by
    intro n hn
    change (if cfg.pipeline = "PSD" then some cfg.reducedFFTSize else none) = some n at hn
    split at hn
    · obtain rfl := Option.some.inj hn
      exact reducedFFTSize_lt cfg
    · cases hn

/-- The sizes that were kept belong to the length that was kept. -/
def Cached (cfg : Setup) (s : State) : Prop :=
  s.prevDataSize ≠ 0 →
    s.packetSize = cfg.packetSize s.prevDataSize ∧ s.buf.length = s.packetSize

theorem length_realloc (cfg : Setup) (buf : List UInt8) (size : ℕ) :
    (cfg.realloc buf size).length = size := by
  rw [Setup.realloc, List.length_append, List.length_take, List.length_map, List.length_range]
  omega

/-- After the sizes were looked at, they are those of the present record. -/
theorem resize_spec (hs : Cached cfg s) {dataSize : ℕ} (hsize : 1 ≤ dataSize) :
    (s.resize cfg dataSize).prevDataSize = dataSize ∧
      (s.resize cfg dataSize).packetSize = cfg.packetSize dataSize ∧
      (s.resize cfg dataSize).buf.length = cfg.packetSize dataSize ∧
      (s.resize cfg dataSize).mRunning = s.mRunning ∧
      (s.resize cfg dataSize).sent = s.sent := by
  unfold State.resize
  split
  · exact ⟨rfl, rfl, length_realloc cfg s.buf _, rfl, rfl⟩
  · rename_i hsame
    have heq : dataSize = s.prevDataSize := not_not.mp hsame
    obtain ⟨hpacket, hbuf⟩ := hs (by omega)
    rw [heq]
    exact ⟨rfl, hpacket, hbuf.trans hpacket, rfl, rfl⟩

theorem packetSize_eq (cfg : Setup) (hsize : avroBuffer.length ≤ 2 ^ 30) :
    cfg.packetSize avroBuffer.length = (cfg.packet avroBuffer).bytes.length := by
  have hword : u32 (avroBuffer.length + 3) = avroBuffer.length + 3 := u32_of_lt (by omega)
  have hpayload : Setup.payloadSize avroBuffer.length =
      avroBuffer.length + paddingSize avroBuffer.length := by
    rw [Setup.payloadSize, hword, paddingSize]
    omega
  have hpadding : paddingSize avroBuffer.length < 4 := Nat.mod_lt _ (by decide)
  unfold Setup.packetSize Setup.packet Packet.bytes
  rw [hpayload]
  split
  · rw [u32_of_lt (by omega)]
    simp only [Option.elim_some, List.length_append, bigEndian_length, List.length_replicate]
    omega
  · rw [u32_of_lt (by omega)]
    simp only [Option.elim_none, List.length_append, bigEndian_length, List.length_replicate,
      List.length_nil]
    omega

/-- The next bytes of a packet go over the zeros behind those already there. -/
theorem storeAt_next (written : List UInt8) {ys : List UInt8} {i k : ℕ} (n : ℕ)
    (hi : written.length = i) (hk : ys.length = k) :
    storeAt (written ++ List.replicate (k + n) 0) i ys =
      .ok (written ++ ys ++ List.replicate n 0) := by
  have hfits : ys.length ≤ (List.replicate (k + n) (0 : UInt8)).length := by
    rw [List.length_replicate]
    omega
  rw [storeAt_append hi hfits, List.drop_replicate, hk, Nat.add_sub_cancel_left]

theorem clear_spec {buf : List UInt8} {n : ℕ} (hbuf : buf.length = n) :
    storeAt buf 0 (List.replicate n 0) = .ok (List.replicate n (0 : UInt8)) := by
  have hfits : (List.replicate n (0 : UInt8)).length ≤ buf.length := by
    rw [List.length_replicate, hbuf]
  have hnone : ([] : List UInt8).length = 0 := rfl
  have hstore := storeAt_append hnone hfits
  rw [List.nil_append, List.nil_append, List.length_replicate,
    List.drop_of_length_le (by omega), List.append_nil] at hstore
  exact hstore

theorem fill_psd (hpsd : cfg.pipeline = "PSD") {n : ℕ}
    (hn : n = (cfg.packet avroBuffer).bytes.length) :
    ∃ header words,
      storeAt (List.replicate n 0) 0 (bigEndian 4 avroBuffer.length) = .ok header ∧
      storeAt header 4 (bigEndian 4 cfg.reducedFFTSize) = .ok words ∧
      storeAt words 8 avroBuffer = .ok (cfg.packet avroBuffer).bytes := by
  have hbytes : (cfg.packet avroBuffer).bytes = bigEndian 4 avroBuffer.length ++
      bigEndian 4 cfg.reducedFFTSize ++ avroBuffer ++
      List.replicate (paddingSize avroBuffer.length) 0 := by
    rw [Packet.bytes, Setup.packet, if_pos hpsd, Option.elim_some]
  have hsize : n = 4 + (4 + (avroBuffer.length + paddingSize avroBuffer.length)) := by
    rw [hn, hbytes]
    simp only [List.length_append, bigEndian_length, List.length_replicate]
    omega
  have hheader : (bigEndian 4 avroBuffer.length ++ bigEndian 4 cfg.reducedFFTSize).length = 8 := by
    rw [List.length_append, bigEndian_length, bigEndian_length]
  have hfirst := storeAt_next [] (4 + (avroBuffer.length + paddingSize avroBuffer.length)) rfl
    (bigEndian_length 4 avroBuffer.length)
  have hsecond := storeAt_next (bigEndian 4 avroBuffer.length)
    (avroBuffer.length + paddingSize avroBuffer.length) (bigEndian_length 4 _)
    (bigEndian_length 4 cfg.reducedFFTSize)
  have hthird := storeAt_next _ (paddingSize avroBuffer.length) hheader
    (Eq.refl avroBuffer.length)
  rw [List.nil_append, List.nil_append, List.length_nil] at hfirst
  rw [← hbytes] at hthird
  rw [hsize]
  exact ⟨_, _, hfirst, hsecond, hthird⟩

theorem fill_iq (hiq : cfg.pipeline ≠ "PSD") {n : ℕ}
    (hn : n = (cfg.packet avroBuffer).bytes.length) :
    ∃ header,
      storeAt (List.replicate n 0) 0 (bigEndian 4 avroBuffer.length) = .ok header ∧
      storeAt header 4 avroBuffer = .ok (cfg.packet avroBuffer).bytes := by
  have hbytes : (cfg.packet avroBuffer).bytes = bigEndian 4 avroBuffer.length ++ avroBuffer ++
      List.replicate (paddingSize avroBuffer.length) 0 := by
    rw [Packet.bytes, Setup.packet, if_neg hiq, Option.elim_none, List.append_nil]
  have hsize : n = 4 + (avroBuffer.length + paddingSize avroBuffer.length) := by
    rw [hn, hbytes]
    simp only [List.length_append, bigEndian_length, List.length_replicate]
    omega
  have hfirst := storeAt_next [] (avroBuffer.length + paddingSize avroBuffer.length) rfl
    (bigEndian_length 4 avroBuffer.length)
  have hsecond := storeAt_next _ (paddingSize avroBuffer.length)
    (bigEndian_length 4 avroBuffer.length) (Eq.refl avroBuffer.length)
  rw [List.nil_append, List.nil_append, List.length_nil] at hfirst
  rw [← hbytes] at hsecond
  rw [hsize]
  exact ⟨_, hfirst, hsecond⟩

/-- One packet: the buffer holds it whole, and nothing of an earlier one. -/
theorem fillPacket_spec (hs : Cached cfg s) (hlow : 1 ≤ avroBuffer.length)
    (hhigh : avroBuffer.length ≤ 2 ^ 30) :
    ∃ s', fillPacket cfg s avroBuffer = .ok s' ∧ Cached cfg s' ∧
      s'.buf.take s'.packetSize = (cfg.packet avroBuffer).bytes ∧
      s'.mRunning = s.mRunning ∧ s'.sent = s.sent := by
  obtain ⟨hprev, hpacket, hbuf, hrunning, hsent⟩ := resize_spec hs hlow
  have hword : u32 avroBuffer.length = avroBuffer.length := u32_of_lt (by omega)
  have hn := hpacket.trans (packetSize_eq cfg hhigh)
  have hclear := clear_spec (hbuf.trans hpacket.symm)
  have hall : avroBuffer.take avroBuffer.length = avroBuffer := List.take_length
  refine ⟨{ s.resize cfg avroBuffer.length with buf := (cfg.packet avroBuffer).bytes },
    ?_, ?_, ?_, hrunning, hsent⟩
  · unfold fillPacket
    simp only [hword, hclear, ok_bind, hall]
    by_cases hpsd : cfg.pipeline = "PSD"
    · obtain ⟨header, words, hfirst, hsecond, hthird⟩ := fill_psd hpsd hn
      rw [if_pos hpsd, hfirst, ok_bind, hsecond, ok_bind, hthird, ok_bind]
    · obtain ⟨header, hfirst, hsecond⟩ := fill_iq hpsd hn
      rw [if_neg hpsd, hfirst, ok_bind, hsecond, ok_bind]
  · intro _
    show _ = cfg.packetSize (s.resize cfg avroBuffer.length).prevDataSize ∧ _
    rw [hprev]
    exact ⟨hpacket, hn.symm⟩
  · show (cfg.packet avroBuffer).bytes.take (s.resize cfg avroBuffer.length).packetSize = _
    rw [hn, List.take_length]

/-- The calls of a write that succeeds have taken what was left. -/
theorem tcpWrite_spec (msg : List UInt8) (bytesWritten : ℕ) (calls : List ℤ) :
    Safe (fun out => out.1 = 0 → bytesWritten ≤ msg.length ∧ out.2 = msg.drop bytesWritten)
      (tcpWrite msg bytesWritten calls) := by
  induction calls generalizing bytesWritten with
  | nil => rfl
  | cons b calls ih =>
    rw [tcpWrite]
    split
    · intro hzero
      cases hzero
    · split
      · rename_i hall
        intro _
        refine ⟨by omega, List.take_of_length_le ?_⟩
        rw [List.length_drop]
        omega
      · refine (ih (bytesWritten + b.toNat)).bind ?_
        intro out hout hzero
        obtain ⟨hle, hmore⟩ := hout hzero
        refine ⟨by omega, ?_⟩
        show (msg.drop bytesWritten).take b.toNat ++ out.2 = msg.drop bytesWritten
        rw [hmore, ← List.drop_drop, List.take_append_drop]

theorem write_spec (connection : ConnectionType) (msg : List UInt8) (calls : List ℤ) :
    Safe (fun out => out.1 = 0 → out.2 = msg) (write connection msg calls) := by
  cases connection with
  | TCP => exact (tcpWrite_spec msg 0 calls).mono (fun out hout hzero => (hout hzero).2)
  | TLS =>
    cases calls with
    | nil => rfl
    | cons cnt calls =>
      show (if cnt = msg.length then (0 : ℤ) else -1) = 0 → msg.take cnt.toNat = msg
      split
      · rename_i hall
        intro _
        exact List.take_of_length_le (by omega)
      · intro hzero
        cases hzero

/-- Without a failed write the collector has been sent the packets of the
records, in order. No access of the buffer is out of its bounds. -/
theorem run_spec {items : List (List UInt8 × List ℤ)} (hs : Cached cfg s)
    (hsize : ∀ item ∈ items, 1 ≤ item.1.length ∧ item.1.length ≤ 2 ^ 30) :
    Safe (fun t => t.mRunning = true →
      t.sent = s.sent ++ items.flatMap (fun item => (cfg.packet item.1).bytes))
      (run cfg s items) := by
  induction items generalizing s with
  | nil => exact fun _ => (List.append_nil _).symm
  | cons item rest ih =>
    obtain ⟨avroBuffer, calls⟩ := item
    obtain ⟨hlow, hhigh⟩ := hsize _ (List.mem_cons_self ..)
    have hrest := fun item' h => hsize item' (List.mem_cons_of_mem _ h)
    obtain ⟨s', hfill, hcached, hpacket, _, hsent⟩ := fillPacket_spec hs hlow hhigh
    rw [run, hfill, ok_bind, hpacket]
    refine (write_spec cfg.connection _ calls).bind ?_
    intro out hout
    show Safe _ (if out.1 ≠ 0 then _ else _)
    split
    · intro hrunning
      cases hrunning
    · rename_i hzero
      have hmsg := hout (not_not.mp hzero)
      refine (ih (s := { s' with sent := s'.sent ++ out.2 }) hcached hrest).mono ?_
      intro t ht hrunning
      rw [ht hrunning, hmsg, hsent, List.append_assoc, List.flatMap_cons]

/-- The write of so many bytes succeeds when its calls have these results. -/
def Succeeds (connection : ConnectionType) (size : ℕ) (calls : List ℤ) : Prop :=
  ∀ msg : List UInt8, msg.length = size → ∃ taken, write connection msg calls = .ok (0, taken)

theorem run_returns {items : List (List UInt8 × List ℤ)} (hs : Cached cfg s)
    (hrunning : s.mRunning = true)
    (hsize : ∀ item ∈ items, 1 ≤ item.1.length ∧ item.1.length ≤ 2 ^ 30)
    (hwrites : ∀ item ∈ items,
      Succeeds cfg.connection (cfg.packetSize item.1.length) item.2) :
    ∃ t, run cfg s items = .ok t ∧ t.mRunning = true := by
  induction items generalizing s with
  | nil => exact ⟨s, rfl, hrunning⟩
  | cons item rest ih =>
    obtain ⟨avroBuffer, calls⟩ := item
    obtain ⟨hlow, hhigh⟩ := hsize _ (List.mem_cons_self ..)
    obtain ⟨s', hfill, hcached, hpacket, hkept, _⟩ := fillPacket_spec hs hlow hhigh
    obtain ⟨taken, hwrite⟩ := hwrites _ (List.mem_cons_self ..) (cfg.packet avroBuffer).bytes
      (packetSize_eq cfg hhigh).symm
    rw [run, hfill, ok_bind, hpacket, hwrite, ok_bind]
    exact ih (s := { s' with sent := s'.sent ++ taken }) hcached (hkept.trans hrunning)
      (fun item' h => hsize item' (List.mem_cons_of_mem _ h))
      (fun item' h => hwrites item' (List.mem_cons_of_mem _ h))

/-- What the collector is sent is taken apart into the records in order; the
padding is zero, spectra carry the number of their values, and a packet is made
from its own record alone. -/
theorem stream_decodes (cfg : Setup) (items : List (List UInt8 × List ℤ))
    (hsize : ∀ item ∈ items, 1 ≤ item.1.length ∧ item.1.length ≤ 2 ^ 30)
    (hwrites : ∀ item ∈ items,
      Succeeds cfg.connection (cfg.packetSize item.1.length) item.2) :
    ∃ t packets, run cfg {} items = .ok t ∧
      (packetCode (cfg.pipeline = "PSD")).decode t.sent = some packets ∧
      packets.map Packet.payload = items.map Prod.fst ∧
      (∀ p ∈ packets, ∀ byte ∈ p.padding, byte = 0) ∧
      (cfg.pipeline = "PSD" → ∀ p ∈ packets, ∀ single macEth0 segment r,
        AvroSerialization.psdSample single macEth0 cfg.ctx segment = .ok r →
          p.bins = some r.squaredMag.length) ∧
      t.sent = items.flatMap (fun item => (cfg.packet item.1).bytes) := by
  have hcached : Cached cfg {} := fun hprev => absurd rfl hprev
  obtain ⟨t, hrun, hrunning⟩ := run_returns hcached rfl hsize hwrites
  have hspec := run_spec hcached hsize
  rw [hrun] at hspec
  have hsent : t.sent = items.flatMap (fun item => (cfg.packet item.1).bytes) := hspec hrunning
  have hvalid : ∀ p ∈ items.map (fun item => cfg.packet item.1),
      (packetCode (cfg.pipeline = "PSD")).Valid p := by
    intro p hp
    obtain ⟨item, hitem, rfl⟩ := List.mem_map.mp hp
    exact packet_valid cfg (hsize item hitem).2
  have hdecode := FrameCode.decode_frames hvalid
  rw [List.flatMap_map] at hdecode
  refine ⟨t, items.map (fun item => cfg.packet item.1), hrun, ?_, ?_, ?_, ?_, hsent⟩
  · rw [hsent]
    exact hdecode
  · rw [List.map_map]
    rfl
  · intro p hp byte hbyte
    obtain ⟨item, _, rfl⟩ := List.mem_map.mp hp
    exact List.eq_of_mem_replicate hbyte
  · intro hpsd p hp single macEth0 segment r hsample
    obtain ⟨item, _, rfl⟩ := List.mem_map.mp hp
    rw [AvroSerialization.length_squaredMag hsample, ← reducedFFTSize_eq]
    exact if_pos hpsd

/-- Records of three, three and one bytes; the first packet takes two calls. -/
theorem stream_decodes_three_records :
    ∃ t packets, run ⟨{}, "PSD", .TCP, fun _ => 7⟩ {}
        [([1, 2, 3], [5, 7]), ([4, 5, 6], [12]), ([8], [12])] = .ok t ∧
      (packetCode true).decode t.sent = some packets ∧
      packets.map Packet.payload = [[1, 2, 3], [4, 5, 6], [8]] := by
  have hwrites : ∀ item ∈ [([1, 2, 3], [5, 7]), ([4, 5, 6], [12]), ([8], [12])],
      Succeeds .TCP (Setup.packetSize ⟨{}, "PSD", .TCP, fun _ => 7⟩ (item.1 : List UInt8).length)
        item.2 := by
    have hsize : Setup.packetSize ⟨{}, "PSD", .TCP, fun _ => 7⟩ 3 = 12 := by decide
    have hsize' : Setup.packetSize ⟨{}, "PSD", .TCP, fun _ => 7⟩ 1 = 12 := by decide
    simp only [List.forall_mem_cons, List.length_cons, List.length_nil, hsize, hsize']
    refine ⟨?_, ?_, ?_, by simp⟩
    · intro msg hmsg
      exact ⟨_, by simp [write, tcpWrite, hmsg]; rfl⟩
    · intro msg hmsg
      exact ⟨_, by simp [write, tcpWrite, hmsg]; rfl⟩
    · intro msg hmsg
      exact ⟨_, by simp [write, tcpWrite, hmsg]; rfl⟩
  obtain ⟨t, packets, hrun, hdecode, hpayload, _⟩ :=
    stream_decodes ⟨{}, "PSD", .TCP, fun _ => 7⟩ [([1, 2, 3], [5, 7]), ([4, 5, 6], [12]), ([8], [12])]
      (by decide) hwrites
  exact ⟨t, packets, hrun, hdecode, hpayload⟩

end EsSensor.Transmission
