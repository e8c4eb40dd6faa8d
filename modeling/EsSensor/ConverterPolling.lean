import EsSensor.Library.EventLoop
import Mathlib.Data.List.Infix

/-!
How the frequency converter is waited for. Both loops poll the serial port and
read where something has come; a poll that reports neither input nor a timeout
leaves them waiting.
-/
namespace EsSensor.ConverterPolling

open CheckedLoop EventLoop

/-- A text of C: its bytes, and no zero among them. -/
def CString : Type := {bytes : List UInt8 // 0 ∉ bytes}

/-- One round with the serial device: what `poll` returns, whether `revents` has
`POLLIN`, and what a `read` would find, which is an error where there is `none`. -/
structure SerialEvent where
  poll : ℤ
  pollin : Bool
  input : Option (List UInt8)

/-- The result of `read`, and the bytes that it has stored. -/
def SerialEvent.read (e : SerialEvent) (size : ℕ) : ℤ × List UInt8 :=
  match e.input with
  | none => (-1, [])
  | some bytes => ((bytes.take size).length, bytes.take size)

def SerialEvent.ready (e : SerialEvent) : Prop := e.poll ≠ 0 ∧ e.pollin = true

instance (e : SerialEvent) : Decidable e.ready := inferInstanceAs (Decidable (_ ∧ _))

/-- The reply and its terminating zero, at the beginning of the buffer. -/
def receive (responseBuffer reply : List UInt8) : Except Fault (List UInt8) := do
  let responseBuffer ← storeAt responseBuffer 0 reply
  writeAt responseBuffer reply.length 0

/-- One round of the reply loop, which ends with the result and the buffer. -/
def replyRound (responseStart : CString) (responseBuffer : List UInt8) (e : SerialEvent) :
    Except Fault (Outcome (List UInt8) (Bool × List UInt8)) :=
  if e.ready then
    let (retVal, reply) := e.read (responseBuffer.length - 1)
    if retVal ≤ 0 then .ok (.done (false, responseBuffer))
    else do
      let responseBuffer ← receive responseBuffer reply
      if responseStart.val <+: responseBuffer then .ok (.done (true, responseBuffer))
      else .ok (.goOn responseBuffer)
  else if e.poll ≤ 0 then .ok (.done (false, responseBuffer))
  else .ok (.goOn responseBuffer)

/-- `converterDoCommand`, behind its two writes with their results. -/
def converterDoCommand (commandWritten endWritten : ℤ) (device : ℕ → SerialEvent)
    (responseStart : CString) (responseBuffer : List UInt8) (fuel : ℕ) :
    Except Fault (Bool × List UInt8) :=
  if 0 < commandWritten ∧ 0 < endWritten then
    loop (replyRound responseStart) device fuel 0 responseBuffer
  else .ok (false, responseBuffer)

/-- One round of the flush loop in `converterOpenPort`, which ends with what that
function returns. The loop knows whether the device has replied. -/
def flushRound (deviceReply : Bool) (e : SerialEvent) : Except Fault (Outcome Bool ℤ) :=
  if e.ready then
    let (retVal, _) := e.read 8
    if retVal ≤ 0 then .ok (.done retVal) else .ok (.goOn true)
  else if e.poll ≠ 0 then .ok (.goOn deviceReply)
  else .ok (.done (if deviceReply then 0 else -1))

/-- A timeout or an error of a poll without input, an error or an end of file of a
read, or the reply that is waited for. -/
def LastReply (responseStart : CString) (e : SerialEvent) : Prop :=
  if e.ready then (e.read 99).1 ≤ 0 ∨ responseStart.val <+: (e.read 99).2 else e.poll ≤ 0

/-- A timeout, or an error or an end of file of a read. -/
def LastFlush (e : SerialEvent) : Prop :=
  if e.ready then (e.read 8).1 ≤ 0 else e.poll = 0

instance (responseStart : CString) (e : SerialEvent) : Decidable (LastReply responseStart e) :=
  inferInstanceAs (Decidable (ite _ _ _))

instance (e : SerialEvent) : Decidable (LastFlush e) := inferInstanceAs (Decidable (ite _ _ _))

/-- From some poll on there is nothing but hang-ups. -/
def Unplugged (device : ℕ → SerialEvent) : Prop :=
  ∃ n, ∀ i, n ≤ i → 0 < (device i).poll ∧ (device i).pollin = false

variable {responseStart : CString} {responseBuffer reply : List UInt8} {e : SerialEvent}

theorem length_read_le (e : SerialEvent) (size : ℕ) : (e.read size).2.length ≤ size := by
  unfold SerialEvent.read
  cases e.input with
  | none => exact Nat.zero_le size
  | some bytes => exact List.length_take_le size bytes

theorem receive_eq (hfits : reply.length < responseBuffer.length) :
    receive responseBuffer reply =
      .ok (reply ++ 0 :: responseBuffer.drop (reply.length + 1)) := by
  have hstore : storeAt responseBuffer 0 reply =
      .ok (reply ++ responseBuffer.drop reply.length) := by
    simpa using storeAt_append (show ([] : List UInt8).length = 0 from rfl) hfits.le
  obtain ⟨b, hcell⟩ : ∃ b, responseBuffer.drop reply.length =
      b :: responseBuffer.drop (reply.length + 1) := ⟨_, List.drop_eq_getElem_cons hfits⟩
  have hlt : reply.length < (reply ++ b :: responseBuffer.drop (reply.length + 1)).length := by
    rw [List.length_append, List.length_cons]
    omega
  rw [receive, hstore, ok_bind, hcell, writeAt_of_lt hlt,
    List.set_append_right _ _ (Nat.le_refl _), Nat.sub_self, List.set_cons_zero]

/-- A text without a zero is not continued behind the zero of a reply. -/
theorem prefix_reply_iff (start : CString) (rest : List UInt8) :
    start.val <+: reply ++ 0 :: rest ↔ start.val <+: reply := by
  constructor
  · intro h
    rcases Nat.lt_or_ge reply.length start.val.length with hlong | hshort
    · -- the zero of the reply would be one of the text
      obtain ⟨t, ht⟩ := h
      have hzero : start.val[reply.length]? = some 0 := by
        rw [← List.getElem?_append_left hlong, ht, List.getElem?_append_right (Nat.le_refl _)]
        simp
      exact absurd (List.mem_of_getElem? hzero) start.property
    · exact List.prefix_of_prefix_length_le h (List.prefix_append reply _) hshort
  · intro h
    exact h.trans (List.prefix_append reply _)

theorem read_pos_length {size : ℕ} (hread : ¬(e.read size).1 ≤ 0) :
    (e.read size).1 = (e.read size).2.length := by
  unfold SerialEvent.read at hread ⊢
  cases hinput : e.input with
  | none => simp [hinput] at hread
  | some bytes => rfl

theorem receive_read (hlength : responseBuffer.length = 100) (e : SerialEvent) :
    receive responseBuffer (e.read 99).2 =
      .ok ((e.read 99).2 ++ 0 :: responseBuffer.drop ((e.read 99).2.length + 1)) := by
  refine receive_eq ?_
  have hle := length_read_le e 99
  omega

theorem replyRound_length (responseStart : CString) (responseBuffer : List UInt8)
    (e : SerialEvent) (next : List UInt8) (hlength : responseBuffer.length = 100)
    (hround : replyRound responseStart responseBuffer e = .ok (.goOn next)) : next.length = 100 := by
  unfold replyRound at hround
  rw [hlength] at hround
  split at hround
  · simp only [receive_read hlength, ok_bind] at hround
    split at hround
    · cases hround
    · split at hround
      · cases hround
      · obtain rfl := Outcome.goOn.inj (Except.ok.inj hround)
        have hle := length_read_le e 99
        simp only [List.length_append, List.length_cons, List.length_drop]
        omega
  · split at hround
    · cases hround
    · obtain rfl := Outcome.goOn.inj (Except.ok.inj hround)
      exact hlength

/-- The loop succeeds with a buffer that has received the reply. -/
theorem replyRound_suited (responseStart : CString) (responseBuffer : List UInt8)
    (e : SerialEvent) (result : Bool × List UInt8) (hlength : responseBuffer.length = 100)
    (hround : replyRound responseStart responseBuffer e = .ok (.done result))
    (hsuited : result.1 = true) :
    ∃ before reply : List UInt8, before.length = 100 ∧ 1 ≤ reply.length ∧ reply.length ≤ 99 ∧
      responseStart.val <+: reply ∧ receive before reply = .ok result.2 := by
  unfold replyRound at hround
  rw [hlength] at hround
  split at hround
  · simp only [receive_read hlength, ok_bind] at hround
    split at hround
    · obtain rfl := Outcome.done.inj (Except.ok.inj hround)
      cases hsuited
    · rename_i hread
      split at hround
      · rename_i hprefix
        obtain rfl := Outcome.done.inj (Except.ok.inj hround)
        change ¬(e.read 99).1 ≤ 0 at hread
        have hpos := read_pos_length hread
        refine ⟨responseBuffer, (e.read 99).2, hlength, by omega, length_read_le e 99,
          (prefix_reply_iff responseStart _).mp hprefix, receive_read hlength e⟩
      · cases hround
  · split at hround
    · obtain rfl := Outcome.done.inj (Except.ok.inj hround)
      cases hsuited
    · cases hround

theorem replyRound_decides (responseStart : CString) :
    Decides (replyRound responseStart) (fun responseBuffer => responseBuffer.length = 100)
      (LastReply responseStart) := by
  constructor
  · intro responseBuffer e hlength hlast
    unfold LastReply at hlast
    unfold replyRound
    rw [hlength]
    split at hlast
    · rename_i hready
      rw [if_pos hready]
      simp only [receive_read hlength, ok_bind, prefix_reply_iff]
      rcases hlast with hread | hsuited
      · exact ⟨_, if_pos hread⟩
      · rw [if_pos hsuited]
        split <;> exact ⟨_, rfl⟩
    · rename_i hready
      exact ⟨_, by rw [if_neg hready, if_pos hlast]⟩
  · intro responseBuffer e hlength hlast
    unfold LastReply at hlast
    unfold replyRound
    rw [hlength]
    split at hlast
    · rename_i hready
      obtain ⟨hread, hsuited⟩ := not_or.mp hlast
      rw [if_pos hready]
      simp only [receive_read hlength, ok_bind, prefix_reply_iff, if_neg hread,
        if_neg hsuited]
      refine ⟨_, rfl, ?_⟩
      have hle := length_read_le e 99
      simp only [List.length_append, List.length_cons, List.length_drop]
      omega
    · rename_i hready
      exact ⟨responseBuffer, by rw [if_neg hready, if_neg hlast], hlength⟩

theorem flushRound_decides : Decides flushRound (fun _ => True) LastFlush := by
  constructor
  · intro deviceReply e _ hlast
    unfold LastFlush at hlast
    unfold flushRound
    split at hlast
    · rename_i hready
      rw [if_pos hready]
      exact ⟨_, if_pos hlast⟩
    · rename_i hready
      rw [if_neg hready, if_neg (not_not.mpr hlast)]
      exact ⟨_, rfl⟩
  · intro deviceReply e _ hlast
    unfold LastFlush at hlast
    unfold flushRound
    split at hlast
    · rename_i hready
      rw [if_pos hready]
      exact ⟨_, if_neg hlast, trivial⟩
    · rename_i hready
      rw [if_neg hready, if_pos hlast]
      exact ⟨_, rfl, trivial⟩

/-- The reply loop ends exactly if a poll ever times out or fails, a read fails or
the reply comes; the flush loop, if a poll ever times out or a read fails. -/
theorem polling_ends_iff (responseStart : CString) (hbuffer : responseBuffer.length = 100)
    (device port : ℕ → SerialEvent) :
    (Ends (replyRound responseStart) device responseBuffer ↔
      ∃ i, LastReply responseStart (device i)) ∧
    (Ends flushRound port false ↔ ∃ i, LastFlush (port i)) :=
  ⟨ends_iff (replyRound_decides responseStart) hbuffer, ends_iff flushRound_decides trivial⟩

def ifFrequency : CString := ⟨"IF Frequency:".toList.map (fun c => UInt8.ofNat c.toNat), by decide⟩

/-- A converter that is asked twice in vain and then gone. -/
theorem polling_ends_iff_two_timeouts :
    (Ends (replyRound ifFrequency) (fun i => ⟨if i < 2 then 0 else 1, false, none⟩)
        (List.replicate 100 0) ↔
      ∃ i, LastReply ifFrequency ⟨if i < 2 then 0 else 1, false, none⟩) ∧
    (Ends flushRound (fun i => ⟨if i < 2 then 0 else 1, false, none⟩) false ↔
      ∃ i, LastFlush ⟨if i < 2 then 0 else 1, false, none⟩) :=
  polling_ends_iff ifFrequency (by decide) _ _

/-- Hang-ups from the start keep both loops waiting. -/
theorem unplugged_never_ends :
    Unplugged (fun _ => ⟨1, false, none⟩) ∧
      ¬ Ends (replyRound ifFrequency) (fun _ => ⟨1, false, none⟩) (List.replicate 100 0) ∧
      ¬ Ends flushRound (fun _ => ⟨1, false, none⟩) false := by
  refine ⟨⟨0, fun _ _ => ⟨Int.zero_lt_one, rfl⟩⟩, ?_, ?_⟩
  · rw [ends_iff (replyRound_decides ifFrequency) (by decide)]
    rintro ⟨_, hlast⟩
    exact absurd hlast (by decide)
  · rw [ends_iff flushRound_decides trivial]
    rintro ⟨_, hlast⟩
    exact absurd hlast (by decide)

end EsSensor.ConverterPolling
