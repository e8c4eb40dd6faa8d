import EsSensor.ControlChannel
import EsSensor.Library.Binary64
import EsSensor.Library.ByteOrder
import EsSensor.Library.PhasorSum
import EsSensor.PsdPipeline
import Mathlib.Analysis.Real.Sqrt
import Mathlib.Analysis.SpecialFunctions.Log.Base
import Mathlib.Analysis.SpecialFunctions.Trigonometric.Basic

/-!
The spectrum that the decoders' pipeline shows. Every buffer of the receiver gives one
datagram: the edges of the band around the frequency that the control channel has set last,
and the levels of 512 bins in whole decibels.
-/
namespace EsSensor.PsdFast

open Averaging ByteOrder CheckedLoop ControlChannel MachineWord PhasorSum
open PsdPipeline (Library)

def signalLen : ℕ := 1024

/-- The samples of a spectrum, and its bins. -/
def dataLen : ℕ := signalLen / 2

section Spectrum

variable {K : Type} [Field K] (lib : Library K)

/-- `W`, the sum of the squared weights. The weights themselves are not used. -/
def windowPower : K :=
  ((List.range dataLen).map (fun i => lib.hamming (i + 1) dataLen)).foldl
    (fun W w => W + w ^ 2) 0

def scale : K := lib.sqrt (dataLen / windowPower lib)

/-- The loop that prepares the data, at sample t. -/
def sampleAt (buf : List UInt8) (t : ℕ) : Except Fault (K × K) := do
  let i ← readAt buf (2 * t)
  let q ← readAt buf (2 * t + 1)
  .ok ((i.toNat - 127.4) / (128 : ℕ) * scale lib, (q.toNat - 127.4) / (128 : ℕ) * scale lib)

def signal (buf : List UInt8) : Except Fault (List (K × K)) :=
  (List.range dataLen).mapM (sampleAt lib buf)

variable [LinearOrder K] [FloorRing K]

/-- `round` of the C library: a half goes away from zero. -/
def roundAway (x : K) : ℤ := if x < 0 then -round (-x) else round x

/-- The conversion to `signed char` is undefined for what does not fit. -/
def signedChar (z : ℤ) : Except Fault ℤ :=
  if -128 ≤ z ∧ z ≤ 127 then .ok z else .error .outOfRange

/-- `power[t]` -/
def level (x : K × K) : Except Fault ℤ :=
  signedChar (roundAway (decibel lib.log10 (PhasorSum.power x)))

def levels (buf : List UInt8) : Except Fault (List ℤ) := do
  let signal ← signal lib buf
  (List.range dataLen).mapM (fun t => level lib (lib.fft dataLen signal t))

end Spectrum

/-- A `signed char` as it lies in memory. -/
def charByte (z : ℤ) : UInt8 := UInt8.ofNat (z % 256).toNat

/-- The buffer that is sent. The edges are computed in 64 bits without a sign, and words lie
with their lowest byte first. -/
def datagram (centerFreq : ℕ) (power : List ℤ) : Except Fault (List UInt8) := do
  let buffer := List.replicate (1 + 8 + 8 + 4 + dataLen) 0
  let buffer ← writeAt buffer 0 1
  let buffer ← storeAt buffer 1 (littleEndian 8 (Binary64.ofNat (u64Sub centerFreq 1200000)))
  let buffer ← storeAt buffer 9 (littleEndian 8 (Binary64.ofNat (u64 (centerFreq + 1200000))))
  let buffer ← storeAt buffer 17 (littleEndian 4 dataLen)
  storeAt buffer 21 (power.map charByte)

/-- One segment, and what `recvfrom` gets behind its datagram; nothing if it times out. -/
structure Round where
  buffer : List UInt8
  received : List UInt8 := []

section Run

variable {K V : Type} [Field K] [LinearOrder K] [FloorRing K] (lib : Library K)
  (json : JsonC V)

/-- The loop body of `PSDFast::run`. -/
def step (s : Shared) (r : Round) : Except Fault (Shared × List UInt8) := do
  let power ← levels lib r.buffer
  let buffer ← datagram s.context.minFreq power
  .ok (receive json r.received s, buffer)

def run : Shared → List Round → Except Fault (Shared × List (List UInt8))
  | s, [] => .ok (s, [])
  | s, r :: rounds => do
    let (s, buffer) ← step lib json s r
    let (s, buffers) ← run s rounds
    .ok (s, buffer :: buffers)

end Run

/-- What the datagram says. -/
structure Spectrum where
  id : ℕ
  minFreq : ℚ
  maxFreq : ℚ
  levels : List ℤ

/-- A receiver: the fields in their order, and as many levels as are announced. -/
def readSpectrum (bytes : List UInt8) : Option Spectrum := do
  let (id, rest) ← readBytes 1 bytes
  let (minFreq, rest) ← readBytes 8 rest
  let (maxFreq, rest) ← readBytes 8 rest
  let (dataLen, rest) ← readBytes 4 rest
  let minFreq ← Binary64.value (ofLittleEndian minFreq)
  let maxFreq ← Binary64.value (ofLittleEndian maxFreq)
  if rest.length = ofLittleEndian dataLen then
    some ⟨ofLittleEndian id, minFreq, maxFreq, rest.map (fun b => (b.toNat : ℤ).bmod 256)⟩
  else none

section Datagram

variable {centerFreq : ℕ} {power : List ℤ}

theorem bmod_charByte {z : ℤ} (hlow : -128 ≤ z) (hhigh : z ≤ 127) :
    ((charByte z).toNat : ℤ).bmod 256 = z := by
  have hbyte : (charByte z).toNat = (z % 256).toNat := by
    rw [charByte, UInt8.toNat_ofNat']
    omega
  rw [hbyte, Int.toNat_of_nonneg (by omega), Int.bmod_def]
  omega

/-- The next field behind those that have been written. -/
theorem storeAt_zeros {xs ys : List UInt8} {i n : ℕ} (hi : xs.length = i) (hn : ys.length ≤ n) :
    storeAt (xs ++ List.replicate n 0) i ys =
      .ok ((xs ++ ys) ++ List.replicate (n - ys.length) 0) := by
  have hzeros : ys.length ≤ (List.replicate n (0 : UInt8)).length := by
    rw [List.length_replicate]
    exact hn
  rw [storeAt_append hi hzeros, List.drop_replicate]

/-- The fields lie one behind the other. -/
theorem datagram_eq (centerFreq : ℕ) (hpower : power.length = dataLen) :
    datagram centerFreq power = .ok ([1] ++
      littleEndian 8 (Binary64.ofNat (u64Sub centerFreq 1200000)) ++
      littleEndian 8 (Binary64.ofNat (u64 (centerFreq + 1200000))) ++
      littleEndian 4 dataLen ++ power.map charByte) := by
  have hbytes : (power.map charByte).length = 512 := by
    rw [List.length_map]
    exact hpower
  have hfirst : writeAt (List.replicate (1 + 8 + 8 + 4 + dataLen) 0) 0 1 =
      .ok ([1] ++ List.replicate 532 (0 : UInt8)) := by
    rw [show 1 + 8 + 8 + 4 + dataLen = 532 + 1 by rfl, List.replicate_succ,
      writeAt_of_lt (by rw [List.length_cons]; omega), List.set_cons_zero, List.singleton_append]
  unfold datagram
  dsimp only
  rw [hfirst, ok_bind, storeAt_zeros List.length_singleton (by simp), ok_bind,
    storeAt_zeros (by simp) (by simp), ok_bind, storeAt_zeros (by simp) (by simp), ok_bind,
    storeAt_zeros (by simp) (by simp [hbytes])]
  simp only [littleEndian_length, hbytes, Nat.reduceSub, List.replicate_zero, List.append_nil]

theorem length_datagram (hpower : power.length = dataLen) {buffer : List UInt8}
    (hrun : datagram centerFreq power = .ok buffer) : buffer.length = 533 := by
  rw [datagram_eq centerFreq hpower] at hrun
  rw [← Except.ok.inj hrun]
  simp [hpower, dataLen, signalLen]

/-- The upper edge, as it is read. -/
theorem value_upper (hfits : centerFreq + 1200000 < 2 ^ 53) :
    Binary64.value (Binary64.ofNat (u64 (centerFreq + 1200000))) =
      some ((centerFreq : ℚ) + 1200000) := by
  rw [u64_of_lt (by omega), Binary64.value_ofNat_of_lt hfits]
  push_cast
  rfl

/-- The lower edge; below the width of half a band it is far above the upper one. -/
theorem exists_value_lower (hfits : centerFreq + 1200000 < 2 ^ 53) :
    ∃ x : ℚ, Binary64.value (Binary64.ofNat (u64Sub centerFreq 1200000)) = some x ∧
      (1200000 ≤ centerFreq → x = centerFreq - 1200000) ∧
      (centerFreq < 1200000 → (centerFreq : ℚ) + 1200000 < x) := by
  by_cases hle : 1200000 ≤ centerFreq
  · have hedge : u64Sub centerFreq 1200000 = centerFreq - 1200000 := by
      unfold u64Sub u64
      omega
    refine ⟨(centerFreq - 1200000 : ℕ), ?_, ?_, fun hlt => absurd hle (by omega)⟩
    · rw [hedge, Binary64.value_ofNat_of_lt (by omega)]
    · intro _
      rw [Nat.cast_sub hle]
      norm_num
  · have hlow : 2 ^ 63 ≤ u64Sub centerFreq 1200000 := by
      unfold u64Sub u64
      omega
    have hhigh : u64Sub centerFreq 1200000 < 2 ^ 64 := by
      unfold u64Sub u64
      omega
    have hpos : u64Sub centerFreq 1200000 ≠ 0 := by omega
    have hlog : 63 ≤ (u64Sub centerFreq 1200000).log2 := (Nat.le_log2 hpos).mpr hlow
    have hlog' : (u64Sub centerFreq 1200000).log2 < 64 := (Nat.log2_lt hpos).mpr hhigh
    obtain ⟨x, hx, hxlow, _⟩ := Binary64.exists_value_ofNat hpos (by omega)
    refine ⟨x, hx, fun hle' => absurd hle' hle, fun _ => ?_⟩
    have hpow : (2 : ℚ) ^ 63 ≤ 2 ^ (u64Sub centerFreq 1200000).log2 :=
      pow_le_pow_right₀ (by norm_num) hlog
    have hcenter : (centerFreq : ℚ) + 1200000 < 2 ^ 53 := by exact_mod_cast hfits
    have hgap : (2 : ℚ) ^ 53 < 2 ^ 63 := by norm_num
    linarith

/-- The levels are read as they were sent. -/
theorem map_bmod_charByte (hpower : ∀ z ∈ power, -128 ≤ z ∧ z ≤ 127) :
    (power.map charByte).map (fun b => (b.toNat : ℤ).bmod 256) = power := by
  rw [List.map_map]
  conv_rhs => rw [← List.map_id power]
  apply List.map_congr_left
  intro z hz
  obtain ⟨hlow, hhigh⟩ := hpower z hz
  rw [Function.comp_apply, bmod_charByte hlow hhigh, id]

theorem readSpectrum_fields {id lower upper count bytes : List UInt8} (hid : id.length = 1)
    (hlower : lower.length = 8) (hupper : upper.length = 8) (hcount : count.length = 4)
    {minFreq maxFreq : ℚ} (hmin : Binary64.value (ofLittleEndian lower) = some minFreq)
    (hmax : Binary64.value (ofLittleEndian upper) = some maxFreq)
    (hbytes : bytes.length = ofLittleEndian count) :
    readSpectrum (id ++ (lower ++ (upper ++ (count ++ bytes)))) =
      some ⟨ofLittleEndian id, minFreq, maxFreq,
        bytes.map (fun b => (b.toNat : ℤ).bmod 256)⟩ := by
  unfold readSpectrum
  simp only [readBytes_append hid, readBytes_append hlower, readBytes_append hupper,
    readBytes_append hcount, Option.bind_eq_bind, Option.bind_some, hmin, hmax, if_pos hbytes]

theorem ofLittleEndian_ofNat {n : ℕ} (hn : n < 2 ^ 64) :
    ofLittleEndian (littleEndian 8 (Binary64.ofNat n)) = Binary64.ofNat n := by
  have hlog : n.log2 ≤ 1022 := by
    by_cases hzero : n = 0
    · rw [hzero, Nat.log2_zero]
      omega
    · have hlt := (Nat.log2_lt hzero).mpr hn
      omega
  have hword := Binary64.ofNat_lt hlog
  exact ofLittleEndian_littleEndian (by omega)

theorem readSpectrum_datagram (hpower : power.length = dataLen)
    (hlevels : ∀ z ∈ power, -128 ≤ z ∧ z ≤ 127) {lower upper : ℚ} {buffer : List UInt8}
    (hlower : Binary64.value (Binary64.ofNat (u64Sub centerFreq 1200000)) = some lower)
    (hupper : Binary64.value (Binary64.ofNat (u64 (centerFreq + 1200000))) = some upper)
    (hrun : datagram centerFreq power = .ok buffer) :
    readSpectrum buffer = some ⟨1, lower, upper, power⟩ := by
  have hbytes : (power.map charByte).length = ofLittleEndian (littleEndian 4 dataLen) := by
    rw [List.length_map, hpower, ofLittleEndian_littleEndian (by decide)]
  have hfirst : u64Sub centerFreq 1200000 < 2 ^ 64 := Nat.mod_lt _ (Nat.two_pow_pos 64)
  have hlast : u64 (centerFreq + 1200000) < 2 ^ 64 := Nat.mod_lt _ (Nat.two_pow_pos 64)
  rw [← ofLittleEndian_ofNat hfirst] at hlower
  rw [← ofLittleEndian_ofNat hlast] at hupper
  rw [datagram_eq centerFreq hpower] at hrun
  rw [← Except.ok.inj hrun, List.append_assoc, List.append_assoc, List.append_assoc,
    readSpectrum_fields List.length_singleton (littleEndian_length 8 _)
      (littleEndian_length 8 _) (littleEndian_length 4 _) hlower hupper hbytes,
    map_bmod_charByte hlevels]
  rfl

end Datagram

/-- What the libraries document of the functions that are called. Under the window all
weights are positive, and the transform turns its samples. -/
structure Documented {K : Type} [Field K] [LinearOrder K] (lib : Library K) : Prop where
  hamming_ge : ∀ i, 1 / 16 ≤ lib.hamming i dataLen
  sqrt_sq : ∀ x, 0 ≤ x → lib.sqrt x ^ 2 = x
  log10_mono : ∀ x y, 0 < x → x ≤ y → lib.log10 x ≤ lib.log10 y
  log10_pow : ∀ n : ℕ, lib.log10 (10 ^ n) = n
  fft_eq : ∀ i, ∃ w, (∀ k, PhasorSum.power (w k) = 1) ∧ ∀ xs, xs.length = dataLen →
    lib.fft dataLen xs i = phasorSum dataLen w (fun k => xs.getD k (0, 0))

section Levels

variable {K : Type} [Field K] [LinearOrder K] [IsStrictOrderedRing K] {lib : Library K}

/-- The squares of the weights alone are added up. -/
theorem le_foldl_sq {c : K} {weights : List K} (hweights : ∀ w ∈ weights, c ≤ w ^ 2) (W : K) :
    W + weights.length * c ≤ weights.foldl (fun W w => W + w ^ 2) W := by
  induction weights generalizing W with
  | nil => simp
  | cons w weights ih =>
    have hfirst := hweights w List.mem_cons_self
    have hrest := ih (fun w' hw' => hweights w' (List.mem_cons_of_mem _ hw')) (W + w ^ 2)
    rw [List.foldl_cons, List.length_cons]
    push_cast
    linarith

theorem two_le_windowPower (hlib : Documented lib) : 2 ≤ windowPower lib := by
  have hweights : ∀ w ∈ (List.range dataLen).map (fun i => lib.hamming (i + 1) dataLen),
      (1 / 256 : K) ≤ w ^ 2 := by
    intro w hw
    obtain ⟨i, _, rfl⟩ := List.mem_map.mp hw
    have hge := hlib.hamming_ge (i + 1)
    nlinarith
  have hsum := le_foldl_sq hweights 0
  rw [List.length_map, List.length_range] at hsum
  have hcount : (dataLen : K) = 512 := by
    norm_num [dataLen, signalLen]
  rw [hcount] at hsum
  unfold windowPower
  linarith

theorem scale_sq_le (hlib : Documented lib) : scale lib ^ 2 ≤ 256 := by
  have hpower := two_le_windowPower hlib
  have hcount : (dataLen : K) = 512 := by
    norm_num [dataLen, signalLen]
  have hpos : 0 < windowPower lib := by linarith
  rw [scale, hcount, hlib.sqrt_sq _ (by positivity), div_le_iff₀ hpos]
  linarith

/-- A byte without its offset lies within one. -/
theorem sq_component_le (b : UInt8) : (((b.toNat : K) - 127.4) / (128 : ℕ)) ^ 2 ≤ 1 := by
  have hb : (b.toNat : K) ≤ 255 := by
    have hlt := b.toNat_lt
    exact_mod_cast (by omega : b.toNat ≤ 255)
  have hb' : (0 : K) ≤ b.toNat := Nat.cast_nonneg _
  rw [sq_le_one_iff_abs_le_one, abs_le]
  constructor
  · rw [le_div_iff₀ (by norm_num)]
    norm_num
    linarith
  · rw [div_le_iff₀ (by norm_num)]
    norm_num
    linarith

theorem power_sampleAt_le (hlib : Documented lib) {buf : List UInt8} {t : ℕ} {x : K × K}
    (hx : sampleAt lib buf t = .ok x) : PhasorSum.power x ≤ 512 := by
  obtain ⟨i, _, hx⟩ := bind_eq_ok.mp hx
  obtain ⟨q, _, hx⟩ := bind_eq_ok.mp hx
  rw [← Except.ok.inj hx, PhasorSum.power]
  dsimp only
  have hscale := scale_sq_le hlib
  have hi := sq_component_le (K := K) i
  have hq := sq_component_le (K := K) q
  rw [mul_pow, mul_pow, ← add_mul]
  nlinarith [sq_nonneg (scale lib)]

omit [LinearOrder K] [IsStrictOrderedRing K] in
theorem exists_signal (lib : Library K) {buf : List UInt8} (hbuf : signalLen ≤ buf.length) :
    ∃ xs, signal lib buf = .ok xs ∧ xs.length = dataLen := by
  have hall : ∀ t ∈ List.range dataLen, ∃ x, sampleAt lib buf t = .ok x := by
    intro t ht
    rw [List.mem_range] at ht
    unfold dataLen at ht
    obtain ⟨i, hi⟩ : ∃ i, readAt buf (2 * t) = .ok i := readAt_of_lt (by omega)
    obtain ⟨q, hq⟩ : ∃ q, readAt buf (2 * t + 1) = .ok q := readAt_of_lt (by omega)
    exact ⟨_, bind_eq_ok.mpr ⟨i, hi, bind_eq_ok.mpr ⟨q, hq, rfl⟩⟩⟩
  obtain ⟨xs, hxs⟩ := exists_mapM_eq_ok.mpr hall
  refine ⟨xs, hxs, ?_⟩
  rw [← (mapM_eq_ok_iff.mp hxs).length_eq, List.length_range]

theorem power_getD_le (hlib : Documented lib) {buf : List UInt8} {xs : List (K × K)}
    (hxs : signal lib buf = .ok xs) (k : ℕ) : PhasorSum.power (xs.getD k (0, 0)) ≤ 512 := by
  rcases Nat.lt_or_ge k xs.length with hk | hk
  · obtain ⟨t, _, ht⟩ := exists_of_mem_mapM hxs (List.getElem_mem hk)
    rw [List.getD_eq_getElem?_getD, List.getElem?_eq_getElem hk, Option.getD_some]
    exact power_sampleAt_le hlib ht
  · rw [List.getD_eq_getElem?_getD, List.getElem?_eq_none hk, Option.getD_none]
    norm_num [PhasorSum.power]

/-- No bin has more power than a full-scale signal in all samples. -/
theorem power_fft_le (hlib : Documented lib) {buf : List UInt8} {xs : List (K × K)}
    (hxs : signal lib buf = .ok xs) (hlength : xs.length = dataLen) (i : ℕ) :
    PhasorSum.power (lib.fft dataLen xs i) ≤ 10 ^ 12 := by
  obtain ⟨w, hw, hfft⟩ := hlib.fft_eq i
  have hbound := power_phasorSum_le_of_le dataLen hw (fun k _ => power_getD_le hlib hxs k)
  have hcount : (dataLen : K) = 512 := by
    norm_num [dataLen, signalLen]
  rw [hcount] at hbound
  rw [hfft xs hlength]
  linarith

theorem decibel_bounds (hlib : Documented lib) {p : K} (hpos : 0 ≤ p) (hle : p ≤ 10 ^ 12) :
    -100 ≤ decibel lib.log10 p ∧ decibel lib.log10 p ≤ 120 := by
  unfold decibel
  split
  · norm_num
  · rename_i hne
    have hlog := hlib.log10_mono p (10 ^ 12) (lt_of_le_of_ne hpos (Ne.symm hne)) hle
    rw [hlib.log10_pow] at hlog
    push_cast at hlog
    refine ⟨le_max_right _ _, max_le ?_ (by norm_num)⟩
    linarith

variable [FloorRing K]

theorem roundAway_near (x : K) : |(roundAway x : K) - x| ≤ 1 / 2 := by
  unfold roundAway
  split
  · have hnear := abs_sub_round (-x)
    rw [neg_sub_left, abs_neg] at hnear
    rwa [Int.cast_neg, neg_sub_left, abs_neg, add_comm]
  · rw [abs_sub_comm]
    exact abs_sub_round x

/-- A whole number is not passed by rounding. -/
theorem roundAway_bounds {x : K} (low high : ℤ) (hlow : low ≤ x) (hhigh : x ≤ high) :
    low ≤ roundAway x ∧ roundAway x ≤ high := by
  have hnear := roundAway_near x
  rw [abs_le] at hnear
  have hbelow : (low : K) - 1 < roundAway x := by linarith
  have habove : (roundAway x : K) < high + 1 := by linarith
  have hbelow' : low - 1 < roundAway x := by exact_mod_cast hbelow
  have habove' : roundAway x < high + 1 := by exact_mod_cast habove
  omega

/-- The levels of a spectrum: whole decibels, and each of them fits a character. -/
structure LevelsOf (lib : Library K) (buf : List UInt8) (power : List ℤ) : Prop where
  bins : power.length = dataLen
  fits : ∀ z ∈ power, -100 ≤ z ∧ z ≤ 120
  near : ∃ xs, signal lib buf = .ok xs ∧ ∀ t < dataLen, ∃ z, power[t]? = some z ∧
    |(z : K) - decibel lib.log10 (PhasorSum.power (lib.fft dataLen xs t))| ≤ 1 / 2

theorem level_eq (hlib : Documented lib) {x : K × K} (hle : PhasorSum.power x ≤ 10 ^ 12) :
    level lib x = .ok (roundAway (decibel lib.log10 (PhasorSum.power x))) ∧
      -100 ≤ roundAway (decibel lib.log10 (PhasorSum.power x)) ∧
      roundAway (decibel lib.log10 (PhasorSum.power x)) ≤ 120 := by
  obtain ⟨hlow, hhigh⟩ := decibel_bounds hlib (power_nonneg x) hle
  have hbounds := roundAway_bounds (-100) 120 (by push_cast; exact hlow)
    (by push_cast; exact hhigh)
  refine ⟨?_, hbounds⟩
  rw [level, signedChar, if_pos (by omega)]

theorem exists_levels (hlib : Documented lib) {buf : List UInt8}
    (hbuf : signalLen ≤ buf.length) :
    ∃ power, levels lib buf = .ok power ∧ LevelsOf lib buf power := by
  obtain ⟨xs, hxs, hlength⟩ := exists_signal lib hbuf
  have hlevel := fun t => level_eq hlib (power_fft_le hlib hxs hlength t)
  have hmap : (List.range dataLen).mapM (fun t => level lib (lib.fft dataLen xs t)) =
      .ok ((List.range dataLen).map (fun t =>
        roundAway (decibel lib.log10 (PhasorSum.power (lib.fft dataLen xs t))))) := by
    rw [mapM_eq_ok_iff, List.forall₂_map_right_iff, List.forall₂_same]
    exact fun t _ => (hlevel t).1
  refine ⟨_, by rw [levels, hxs, ok_bind, hmap], ?_, ?_, xs, hxs, ?_⟩
  · rw [List.length_map, List.length_range]
  · intro z hz
    obtain ⟨t, _, rfl⟩ := List.mem_map.mp hz
    exact (hlevel t).2
  · intro t ht
    refine ⟨_, by rw [List.getElem?_map, List.getElem?_range ht, Option.map_some], ?_⟩
    exact roundAway_near _

end Levels

section Runs

variable {K V : Type} [Field K] [LinearOrder K] [IsStrictOrderedRing K] [FloorRing K]
  {lib : Library K} {json : JsonC V}

/-- What a spectrum says of a buffer that came at a frequency. The edges are exact as far
as a double is, and a band that would begin below zero is shown upside down. -/
structure Shows (lib : Library K) (centerFreq : ℕ) (buf : List UInt8) (spectrum : Spectrum) :
    Prop where
  id : spectrum.id = 1
  maxFreq : spectrum.maxFreq = centerFreq + 1200000
  minFreq : 1200000 ≤ centerFreq → spectrum.minFreq = centerFreq - 1200000
  inverted : centerFreq < 1200000 → spectrum.maxFreq < spectrum.minFreq
  levels : LevelsOf lib buf spectrum.levels

/-- The settings when the messages of these rounds have been received. -/
def tuned (json : JsonC V) (s : Shared) (rounds : List Round) : Shared :=
  rounds.foldl (fun s r => receive json r.received s) s

theorem step_spec (hlib : Documented lib) (json : JsonC V) (s : Shared) {r : Round}
    (hbuf : signalLen ≤ r.buffer.length) :
    ∃ buffer, step lib json s r = .ok (receive json r.received s, buffer) ∧
      buffer.length = 533 ∧ (s.context.minFreq + 1200000 < 2 ^ 53 →
        ∃ spectrum, readSpectrum buffer = some spectrum ∧
          Shows lib s.context.minFreq r.buffer spectrum) := by
  obtain ⟨power, hpower, hof⟩ := exists_levels hlib hbuf
  have hrun := datagram_eq s.context.minFreq hof.bins
  refine ⟨_, by rw [step, hpower, ok_bind, hrun, ok_bind], length_datagram hof.bins hrun, ?_⟩
  intro hfits
  obtain ⟨lower, hlower, hexact, hinverted⟩ := exists_value_lower hfits
  have hlevels : ∀ z ∈ power, -128 ≤ z ∧ z ≤ 127 := by
    intro z hz
    obtain ⟨hlow, hhigh⟩ := hof.fits z hz
    omega
  exact ⟨_, readSpectrum_datagram hof.bins hlevels hlower (value_upper hfits) hrun,
    rfl, rfl, hexact, hinverted, hof⟩

/-- The window, the functions of libm and the shifted transform, in exact arithmetic. -/
noncomputable def liquid : Library ℝ where
  hamming i n := 0.53836 - 0.46164 * Real.cos ((2 : ℕ) * Real.pi * i / (n - 1))
  sqrt := Real.sqrt
  log10 := Real.logb (10 : ℕ)
  fft n xs i := phasorSum n (fun k =>
    (Real.cos ((2 : ℕ) * Real.pi * k * ((i + n / 2) % n : ℕ) / n),
      -Real.sin ((2 : ℕ) * Real.pi * k * ((i + n / 2) % n : ℕ) / n)))
    (fun k => xs.getD k (0, 0))

theorem documented_liquid : Documented liquid where
  hamming_ge i := by
    have hcos := Real.cos_le_one ((2 : ℕ) * Real.pi * i / ((dataLen : ℕ) - 1))
    show (1 / 16 : ℝ) ≤
      0.53836 - 0.46164 * Real.cos ((2 : ℕ) * Real.pi * i / ((dataLen : ℕ) - 1))
    norm_num
    linarith
  sqrt_sq x hx := Real.sq_sqrt hx
  log10_mono x y hx hxy := Real.logb_le_logb_of_le (by norm_num) hx hxy
  log10_pow n := by
    show Real.logb (10 : ℕ) (10 ^ n) = n
    rw [Nat.cast_ofNat, Real.logb_pow, Real.logb_self_eq_one (by norm_num), mul_one]
  fft_eq i := by
    refine ⟨_, fun k => ?_, fun xs _ => rfl⟩
    rw [PhasorSum.power, neg_sq]
    exact Real.cos_sq_add_sin_sq _

end Runs

end EsSensor.PsdFast
