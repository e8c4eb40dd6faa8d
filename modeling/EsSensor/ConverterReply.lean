import EsSensor.ConverterPolling
import EsSensor.Library.MachineWord

/-!
The two numbers in a reply of the frequency converter. They are looked for at
fixed distances, the second one behind the end of the first, in a buffer that
holds the command behind the reply.
-/
namespace EsSensor.ConverterReply

open CheckedLoop EventLoop MachineWord ConverterPolling

def isspace (c : UInt8) : Bool := c = 32 || (9 ≤ c && c ≤ 13)

def isdigit (c : UInt8) : Bool := 48 ≤ c && c ≤ 57

/-- The bytes up to the first one that fails the test, which has to be there. -/
def span (test : UInt8 → Bool) : List UInt8 → Except Fault (List UInt8 × List UInt8)
  | [] => .error .outOfRange
  | c :: rest =>
    if test c then do
      let (passed, behind) ← span test rest
      .ok (c :: passed, behind)
    else .ok ([], c :: rest)

/-- What a sign is worth: whether the number is negated, and its length. -/
def sign (c : UInt8) : Bool × ℕ :=
  if c = 45 then (true, 1) else if c = 43 then (false, 1) else (false, 0)

/-- The value as `unsigned long`. One that is too large is the largest one. -/
def ulong (negative : Bool) (digits : List UInt8) : ℕ :=
  let value := digits.foldl (fun value d => 10 * value + (d.toNat - 48)) 0
  if 2 ^ 64 ≤ value then 2 ^ 64 - 1 else if negative then u64 (2 ^ 64 - value) else value

/-- `strtoul` to the base 10: the value, and how far it has come. Without a digit
it stays where it was. -/
def strtoul (text : List UInt8) : Except Fault (ℕ × ℕ) := do
  let (blank, text) ← span isspace text
  let c ← readAt text 0
  let (negative, signLength) := sign c
  let (digits, _) ← span isdigit (text.drop signLength)
  if digits.isEmpty then .ok (0, 0)
  else .ok (ulong negative digits, blank.length + signLength + digits.length)

/-- The end of `converterTune`. -/
def parseReply (replyBuffer : List UInt8) : Except Fault (ℕ × Bool) := do
  let (tmp, nextPart) ← strtoul (replyBuffer.drop 14)
  let ifFrequency := u32 tmp
  let (tmp, _) ← strtoul (replyBuffer.drop (14 + nextPart + 16))
  .ok (ifFrequency, decide (u32 tmp ≠ 0))

def ascii (s : String) : List UInt8 := s.toList.map (fun c => UInt8.ofNat c.toNat)

/-- `converterTune`; `none` where the command has failed. -/
def converterTune (earlier : List UInt8) (commandWritten endWritten : ℤ)
    (device : ℕ → SerialEvent) (inputFrequency fuel : ℕ) : Except Fault (Option (ℕ × Bool)) := do
  let replyBuffer ← storeAt earlier 0 (ascii ("convert setup " ++ toString inputFrequency) ++ [0])
  let (suited, replyBuffer) ←
    converterDoCommand commandWritten endWritten device ifFrequency replyBuffer fuel
  if suited then do
    let answer ← parseReply replyBuffer
    .ok (some answer)
  else .ok none

/-- What is understood of a reply that came into a buffer with earlier contents. -/
def understood (earlier reply : List UInt8) : Except Fault (ℕ × Bool) := do
  let replyBuffer ← receive earlier reply
  parseReply replyBuffer

/-- No earlier contents of the buffer make a difference, and the reply with its
zero is all that is read. -/
structure FromReplyAlone (reply : List UInt8) : Prop where
  same : ∀ earlier earlier' : List UInt8, earlier.length = 100 → earlier'.length = 100 →
    understood earlier reply = understood earlier' reply
  within : parseReply (reply ++ [0]) ≠ .error .outOfRange

/-- The number at the beginning of a text: its value and its length. -/
def number (text : List UInt8) : ℕ × ℕ :=
  let rest := text.dropWhile isspace
  let (negative, signLength) := sign (rest.headD 0)
  let digits := (rest.drop signLength).takeWhile isdigit
  if digits.isEmpty then (0, 0)
  else (ulong negative digits, (text.takeWhile isspace).length + signLength + digits.length)

/-- Where the first number of a reply ends. -/
def numberEnd (reply : List UInt8) : ℕ := 14 + (number (reply.drop 14)).2

variable {reply : List UInt8}

/-- Every answer is understood from a reply that the command has accepted. -/
theorem converterTune_understood {earlier : List UInt8} {commandWritten endWritten : ℤ}
    {device : ℕ → SerialEvent} {inputFrequency fuel : ℕ} {answer : ℕ × Bool}
    (hearlier : earlier.length = 100)
    (hrun : converterTune earlier commandWritten endWritten device inputFrequency fuel =
      .ok (some answer)) :
    ∃ before reply : List UInt8, before.length = 100 ∧ 1 ≤ reply.length ∧ reply.length ≤ 99 ∧
      ifFrequency.val <+: reply ∧ understood before reply = .ok answer := by
  obtain ⟨replyBuffer, hcommand, hrun⟩ := bind_eq_ok.mp hrun
  obtain ⟨⟨suited, responseBuffer⟩, hdo, hrun⟩ := bind_eq_ok.mp hrun
  have hlength : replyBuffer.length = 100 := by
    unfold storeAt at hcommand
    split at hcommand
    · rename_i hfits
      obtain rfl := Except.ok.inj hcommand
      rw [List.length_append, List.length_append, List.length_take, List.length_drop]
      omega
    · cases hcommand
  cases suited with
  | false => cases hrun
  | true =>
    obtain ⟨answer', hparse, hanswer⟩ := bind_eq_ok.mp hrun
    obtain rfl := Option.some.inj (Except.ok.inj hanswer)
    unfold converterDoCommand at hdo
    split at hdo
    · obtain ⟨before, reply, hbefore, hpos, hle, hprefix, hreceive⟩ :=
        loop_inv (fun responseBuffer : List UInt8 => responseBuffer.length = 100)
          (replyRound_length ifFrequency) (replyRound_suited ifFrequency) hlength hdo rfl
      refine ⟨before, reply, hbefore, hpos, hle, hprefix, ?_⟩
      rw [understood, hreceive, ok_bind, hparse]
    · cases hdo

/-- A byte that fails the test keeps the search within the text before it. -/
theorem span_append {test : UInt8 → Bool} {stop : UInt8} (hstop : test stop = false)
    (text behind : List UInt8) :
    span test (text ++ stop :: behind) =
      .ok (text.takeWhile test, text.dropWhile test ++ stop :: behind) := by
  induction text with
  | nil => simp [span, hstop]
  | cons c text ih =>
    cases hc : test c with
    | true =>
      rw [List.cons_append, span, if_pos hc, ih, ok_bind]
      simp [hc]
    | false =>
      rw [List.cons_append, span, if_neg (by simp [hc])]
      simp [hc]

theorem readAt_zero_append (text behind : List UInt8) (stop : UInt8) :
    readAt (text ++ stop :: behind) 0 = .ok (text.headD stop) := by
  cases text <;> rfl

/-- What a sign takes away is in the text, and not the zero behind it. -/
theorem drop_sign (text behind : List UInt8) :
    (text ++ 0 :: behind).drop (sign (text.headD 0)).2 =
      text.drop (sign (text.headD 0)).2 ++ 0 :: behind := by
  cases text with
  | nil => rfl
  | cons c text =>
    show (c :: (text ++ 0 :: behind)).drop (sign c).2 = (c :: text).drop (sign c).2 ++ 0 :: behind
    unfold sign
    split
    · rfl
    · split <;> rfl

/-- A zero behind the text ends the number, whatever is behind the zero. -/
theorem strtoul_append (text behind : List UInt8) :
    strtoul (text ++ 0 :: behind) = .ok (number text) := by
  have hspace : isspace 0 = false := by decide
  have hdigit : isdigit 0 = false := by decide
  unfold strtoul number
  simp only [span_append hspace, ok_bind, readAt_zero_append, drop_sign, span_append hdigit]
  split <;> rfl

theorem strtoul_nil : strtoul [] = .error .outOfRange := rfl

theorem drop_reply {n : ℕ} (hn : n ≤ reply.length) (behind : List UInt8) :
    (reply ++ 0 :: behind).drop n = reply.drop n ++ 0 :: behind := by
  rw [List.drop_append_of_le_length hn]

/-- Where both numbers begin within the reply, it alone decides. -/
theorem parseReply_append (hstart : 14 ≤ reply.length) (hnext : numberEnd reply + 16 ≤ reply.length)
    (behind : List UInt8) :
    parseReply (reply ++ 0 :: behind) =
      .ok (u32 (number (reply.drop 14)).1,
        decide (u32 (number (reply.drop (numberEnd reply + 16))).1 ≠ 0)) := by
  unfold numberEnd at hnext ⊢
  simp only [parseReply, drop_reply hstart, strtoul_append, ok_bind, drop_reply hnext]

theorem fromReplyAlone_iff (hreply : reply.length ≤ 99) :
    FromReplyAlone reply ↔ 14 ≤ reply.length ∧ numberEnd reply + 16 ≤ reply.length := by
  constructor
  · intro h
    by_contra hcond
    refine h.within ?_
    by_cases hstart : 14 ≤ reply.length
    · -- the first number is read, and the second begins behind the zero
      have hnext : reply.length < numberEnd reply + 16 := by
        by_contra hle
        exact hcond ⟨hstart, by omega⟩
      have hnone : (reply ++ [0]).drop (numberEnd reply + 16) = [] :=
        List.drop_of_length_le (by simp; omega)
      unfold numberEnd at hnone
      simp only [parseReply, drop_reply hstart, strtoul_append, ok_bind, hnone, strtoul_nil,
        error_bind]
    · have hnone : (reply ++ [0]).drop 14 = [] := List.drop_of_length_le (by simp; omega)
      simp only [parseReply, hnone, strtoul_nil, error_bind]
  · rintro ⟨hstart, hnext⟩
    refine ⟨?_, ?_⟩
    · intro earlier earlier' hlength hlength'
      rw [understood, understood, receive_eq (by omega), receive_eq (by omega), ok_bind, ok_bind,
        parseReply_append hstart hnext, parseReply_append hstart hnext]
    · rw [parseReply_append hstart hnext []]
      simp

theorem fromReplyAlone_iff_full_reply :
    FromReplyAlone (ascii "IF Frequency: 1500000 kHz, inverted: 1") ↔
      14 ≤ (ascii "IF Frequency: 1500000 kHz, inverted: 1").length ∧
        numberEnd (ascii "IF Frequency: 1500000 kHz, inverted: 1") + 16 ≤
          (ascii "IF Frequency: 1500000 kHz, inverted: 1").length :=
  fromReplyAlone_iff (by decide)

/-- A reply that ends behind the colon is completed by the command before it. -/
theorem command_taken_for_reply :
    understood (ascii "convert setup 2400000" ++ List.replicate 79 0) (ascii "IF Frequency:") =
      .ok (2400000, false) ∧
    understood (List.replicate 100 0) (ascii "IF Frequency:") = .ok (0, false) ∧
    ¬ FromReplyAlone (ascii "IF Frequency:") := by
  refine ⟨by decide, by decide, ?_⟩
  intro h
  exact h.within (by decide)

end EsSensor.ConverterReply
