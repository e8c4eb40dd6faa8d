import EsSensor.ElectrosenseContext

/-!
The control channel of `PSDFast::run`. Every datagram is taken for a JSON object
that names all of the settings; what it does not name is set to zero. The parser
and the getters are those of the library json-c.
-/
namespace EsSensor.ControlChannel

open MachineWord

/-- A json-c object by its pointer. `null` is NULL, which a failed parse gives and
which also stands for the JSON null; a value is anything but an object. -/
inductive Json (V : Type)
  | null
  | value (v : V)
  | object (fields : List (String × Json V))

namespace Json

variable {V : Type}

/-- The value that `json_object_object_get_ex` stores for a key: NULL if the key
is absent or there is no object. -/
def get (key : String) : Json V → Json V
  | .object fields => (fields.lookup key).getD .null
  | _ => .null

/-- The result of `json_object_object_get_ex`. -/
def Has (key : String) : Json V → Prop
  | .object fields => (fields.lookup key).isSome
  | _ => False

def IsObject : Json V → Prop
  | .object _ => True
  | _ => False

theorem get_of_not_has {key : String} {json : Json V} (hnot : ¬ json.Has key) :
    json.get key = .null := by
  cases json with
  | null => rfl
  | value v => rfl
  | object fields =>
    have hnone : fields.lookup key = none := Option.not_isSome_iff_eq_none.mp hnot
    rw [get, hnone]
    rfl

theorem not_has_of_not_object {json : Json V} (hnot : ¬ json.IsObject) (key : String) :
    ¬ json.Has key := by
  cases json with
  | null => exact id
  | value v => exact id
  | object fields => exact absurd trivial hnot

end Json

/-- The parts of json-c that are used; the numeric getters return 0 on NULL. -/
structure JsonC (V : Type) where
  tokenerParse : List UInt8 → Json V
  getInt64 : Json V → ℤ
  getInt : Json V → ℤ
  getInt64_null : getInt64 .null = 0
  getInt_null : getInt .null = 0

/-- The shared configuration with the members that only decoders use. -/
structure Shared where
  context : ElectrosenseContext
  decoder : ℕ
  gainDecoder : ℕ

namespace Shared

variable (s : Shared)

def setMinFreq (freq : ℕ) : Shared := { s with context := { s.context with minFreq := freq } }

def setDecoder (decoder : ℕ) : Shared := { s with decoder := decoder }

def setGain (gain : ℚ) : Shared := { s with context := { s.context with gain := gain } }

def setGainDecoder (gain : ℕ) : Shared := { s with gainDecoder := gain }

end Shared

/-- A C string ends before its first zero. -/
def cStr (bytes : List UInt8) : List UInt8 := bytes.takeWhile (fun b => b ≠ 0)

variable {V : Type}

/-- What is done with the bytes that `recvfrom` has returned, if any. -/
def receive (json : JsonC V) (bytes : List UInt8) (s : Shared) : Shared :=
  if bytes.length = 0 then s
  else
    let jobj := json.tokenerParse (cStr bytes)
    let freq := word64 (json.getInt64 (jobj.get "fc"))
    let s := s.setMinFreq freq
    let decoder := json.getInt (jobj.get "decoder")
    let s := s.setDecoder (word decoder)
    let gainRtl := json.getInt (jobj.get "gain")
    let s := s.setGain gainRtl
    match jobj.get "decoder_settings" with
    | .null => s
    | settings => s.setGainDecoder (word (json.getInt (settings.get "gain")))

/-- A setting that a message does not name is the one from before. -/
structure ChangesOnlyNamed (jobj : Json V) (s s' : Shared) : Prop where
  notObject : ¬ jobj.IsObject → s'.context.minFreq = s.context.minFreq ∧ s'.decoder = s.decoder ∧
    s'.context.gain = s.context.gain ∧ s'.gainDecoder = s.gainDecoder
  fc : ¬ jobj.Has "fc" → s'.context.minFreq = s.context.minFreq
  decoder : ¬ jobj.Has "decoder" → s'.decoder = s.decoder
  gain : ¬ jobj.Has "gain" → s'.context.gain = s.context.gain
  decoderSettings : ¬ jobj.Has "decoder_settings" → s'.gainDecoder = s.gainDecoder
  decoderGain : ¬ (jobj.get "decoder_settings").Has "gain" → s'.gainDecoder = s.gainDecoder

/-- What a message does not name is zero already; the gain of the decoder only
counts where there are settings of the decoder. -/
structure UnnamedAreZero (jobj : Json V) (s : Shared) : Prop where
  fc : ¬ jobj.Has "fc" → s.context.minFreq = 0
  decoder : ¬ jobj.Has "decoder" → s.decoder = 0
  gain : ¬ jobj.Has "gain" → s.context.gain = 0
  decoderGain : jobj.get "decoder_settings" ≠ .null →
    ¬ (jobj.get "decoder_settings").Has "gain" → s.gainDecoder = 0

section Receive

variable (json : JsonC V) {bytes : List UInt8} (s : Shared)

theorem receive_nil : receive json [] s = s := rfl

/-- The four settings after a message. -/
theorem receive_spec (hne : bytes ≠ []) :
    let jobj := json.tokenerParse (cStr bytes)
    (receive json bytes s).context.minFreq = word64 (json.getInt64 (jobj.get "fc")) ∧
    (receive json bytes s).decoder = word (json.getInt (jobj.get "decoder")) ∧
    (receive json bytes s).context.gain = json.getInt (jobj.get "gain") ∧
    (jobj.get "decoder_settings" = .null → (receive json bytes s).gainDecoder = s.gainDecoder) ∧
    (jobj.get "decoder_settings" ≠ .null → (receive json bytes s).gainDecoder =
      word (json.getInt ((jobj.get "decoder_settings").get "gain"))) := by
  have hlength : bytes.length ≠ 0 := by simpa using hne
  simp only [receive, if_neg hlength]
  cases (json.tokenerParse (cStr bytes)).get "decoder_settings" with
  | null => exact ⟨rfl, rfl, rfl, fun _ => rfl, fun hnull => absurd rfl hnull⟩
  | value v => exact ⟨rfl, rfl, rfl, nofun, fun _ => rfl⟩
  | object fields => exact ⟨rfl, rfl, rfl, nofun, fun _ => rfl⟩

end Receive

theorem word_zero : word 0 = 0 := by decide

theorem word64_zero : word64 0 = 0 := by decide

/-- A message, of whatever bytes, leaves the settings it does not name alone,
exactly when these are zero before. -/
theorem changes_only_named_iff (json : JsonC V) (bytes : List UInt8) (s : Shared) :
    ChangesOnlyNamed (json.tokenerParse (cStr bytes)) s (receive json bytes s) ↔
      (bytes ≠ [] → UnnamedAreZero (json.tokenerParse (cStr bytes)) s) := by
  by_cases hne : bytes = []
  · subst hne
    have hsame : ∀ jobj : Json V, ChangesOnlyNamed jobj s s := fun _ =>
      ⟨fun _ => ⟨rfl, rfl, rfl, rfl⟩, fun _ => rfl, fun _ => rfl, fun _ => rfl, fun _ => rfl,
        fun _ => rfl⟩
    rw [receive_nil]
    exact ⟨fun _ hnot => absurd rfl hnot, fun _ => hsame _⟩
  obtain ⟨hfc, hdecoder, hgain, hnoSettings, hsettings⟩ := receive_spec json s hne
  set jobj := json.tokenerParse (cStr bytes)
  set s' := receive json bytes s
  -- the value that is stored for a key that is not named
  have hfcZero : ¬ jobj.Has "fc" → s'.context.minFreq = 0 := by
    intro hnot
    rw [hfc, Json.get_of_not_has hnot, json.getInt64_null, word64_zero]
  have hdecoderZero : ¬ jobj.Has "decoder" → s'.decoder = 0 := by
    intro hnot
    rw [hdecoder, Json.get_of_not_has hnot, json.getInt_null, word_zero]
  have hgainZero : ¬ jobj.Has "gain" → s'.context.gain = 0 := by
    intro hnot
    rw [hgain, Json.get_of_not_has hnot, json.getInt_null, Int.cast_zero]
  have hdecoderGainZero : jobj.get "decoder_settings" ≠ .null →
      ¬ (jobj.get "decoder_settings").Has "gain" → s'.gainDecoder = 0 := by
    intro hnull hnot
    rw [hsettings hnull, Json.get_of_not_has hnot, json.getInt_null, word_zero]
  constructor
  · intro h _
    exact ⟨fun hnot => (h.fc hnot).symm.trans (hfcZero hnot),
      fun hnot => (h.decoder hnot).symm.trans (hdecoderZero hnot),
      fun hnot => (h.gain hnot).symm.trans (hgainZero hnot),
      fun hnull hnot => (h.decoderGain hnot).symm.trans (hdecoderGainZero hnull hnot)⟩
  · intro hzero
    have h := hzero hne
    have hfcSame : ¬ jobj.Has "fc" → s'.context.minFreq = s.context.minFreq :=
      fun hnot => (hfcZero hnot).trans (h.fc hnot).symm
    have hdecoderSame : ¬ jobj.Has "decoder" → s'.decoder = s.decoder :=
      fun hnot => (hdecoderZero hnot).trans (h.decoder hnot).symm
    have hgainSame : ¬ jobj.Has "gain" → s'.context.gain = s.context.gain :=
      fun hnot => (hgainZero hnot).trans (h.gain hnot).symm
    have hdecoderGainSame : ¬ (jobj.get "decoder_settings").Has "gain" →
        s'.gainDecoder = s.gainDecoder := by
      intro hnot
      by_cases hnull : jobj.get "decoder_settings" = .null
      · exact hnoSettings hnull
      · exact (hdecoderGainZero hnull hnot).trans (h.decoderGain hnull hnot).symm
    have hsettingsSame : ¬ jobj.Has "decoder_settings" → s'.gainDecoder = s.gainDecoder :=
      fun hnot => hnoSettings (Json.get_of_not_has hnot)
    refine ⟨?_, hfcSame, hdecoderSame, hgainSame, hsettingsSame, hdecoderGainSame⟩
    intro hobject
    have hnot := Json.not_has_of_not_object hobject
    exact ⟨hfcSame (hnot _), hdecoderSame (hnot _), hgainSame (hnot _), hsettingsSame (hnot _)⟩

/-- A parser that knows the empty object; other text is not JSON to it. -/
def emptyObjectOnly : JsonC ℤ where
  tokenerParse bytes := if bytes = [123, 125] then .object [] else .null
  getInt64 := fun | .value z => z | _ => 0
  getInt := fun | .value z => z | _ => 0
  getInt64_null := rfl
  getInt_null := rfl

/-- The receiver on FM radio at 100 MHz. -/
def listening : Shared where
  context := { minFreq := 100000000 }
  decoder := 1
  gainDecoder := 20

/-- A datagram of one letter, which is not JSON, and an object without any key:
each tunes to 0 Hz and deselects the decoder. -/
theorem stray_datagram_resets :
    (∀ bytes ∈ [[120], [123, 125]],
      (receive emptyObjectOnly bytes listening).context.minFreq = 0 ∧
      (receive emptyObjectOnly bytes listening).decoder = 0 ∧
      (receive emptyObjectOnly bytes listening).context.gain = 0) ∧
    ∀ bytes ∈ [[120], [123, 125]], ¬ ChangesOnlyNamed
      (emptyObjectOnly.tokenerParse (cStr bytes)) listening
        (receive emptyObjectOnly bytes listening) := by
  have hreset : ∀ bytes ∈ [[120], [123, 125]],
      (receive emptyObjectOnly bytes listening).context.minFreq = 0 ∧
      (receive emptyObjectOnly bytes listening).decoder = 0 ∧
      (receive emptyObjectOnly bytes listening).context.gain = 0 := by
    intro bytes hbytes
    rcases List.mem_pair.mp hbytes with rfl | rfl <;> decide +kernel
  refine ⟨hreset, fun bytes hbytes hkept => ?_⟩
  have hnot : ¬ (emptyObjectOnly.tokenerParse (cStr bytes)).Has "decoder" := by
    rcases List.mem_pair.mp hbytes with rfl | rfl
    · exact id
    · exact nofun
  exact absurd ((hreset bytes hbytes).2.1.symm.trans (hkept.decoder hnot)) (by decide)

end EsSensor.ControlChannel
