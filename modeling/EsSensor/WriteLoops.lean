import EsSensor.Library.PartialTransfer
import EsSensor.Transmission

/-!
The two loops that write a whole message to a descriptor: the one to the
collector and the one to the frequency converter. A write may take any part of
what it is given.
-/
namespace EsSensor.WriteLoops

open CheckedLoop PartialTransfer

/-- What `write` may answer: an error, or a part that is not empty. -/
structure Descriptor extends Peer where
  answer_ne_zero : ∀ i requested, 1 ≤ requested → answer i requested ≠ 0

/-- `written` is `bytes_written`, or `index`. The calls are kept with what they
asked for and what they were answered. -/
structure Writing where
  written : ℤ := 0
  calls : List Call := []
  returned : Option ℤ := none
  deriving DecidableEq, Repr

def defaultPktSizeB : ℤ := 512

def tcpWriteRound (d : Descriptor) (len : ℤ) (s : Writing) : Except Fault Writing :=
  let requested :=
    if defaultPktSizeB < len - s.written then defaultPktSizeB else len - s.written
  let b := d.answer s.calls.length requested
  let calls := s.calls ++ [⟨s.written, requested, b⟩]
  if b < 0 then .ok { s with calls := calls, returned := some (-1) }
  else
    .ok
      { written := s.written + b
        calls := calls
        returned := if s.written + b = len then some 0 else none }

def tcpWrite (d : Descriptor) (msg : List UInt8) (fuel : ℕ) : Except Fault Writing :=
  whileLoop (fun s => s.returned.isNone) (tcpWriteRound d msg.length) fuel {}

def converterWriteRound (d : Descriptor) (len : ℤ) (s : Writing) : Except Fault Writing :=
  let inc := d.answer s.calls.length (len - s.written)
  let calls := s.calls ++ [⟨s.written, len - s.written, inc⟩]
  if inc ≤ 0 then .ok { s with calls := calls, returned := some inc }
  else .ok { s with written := s.written + inc, calls := calls }

/-- The loop may return; behind it the length is returned. -/
def converterWrite (d : Descriptor) (buffer : List UInt8) (fuel : ℕ) : Except Fault Writing := do
  let s ← whileLoop (fun s => s.returned.isNone && decide (s.written < (buffer.length : ℤ)))
    (converterWriteRound d buffer.length) fuel {}
  .ok { s with returned := some (s.returned.getD (buffer.length : ℤ)) }

/-- What `tcp_write` asks for when so much is left. -/
def chunk (left : ℤ) : ℤ := min defaultPktSizeB left

/-- Every call was answered by the descriptor, and asked for what is left of the message
or for the packet that `ask` makes of it. After any number of calls a prefix of the
message was accepted. Success is the whole message, and nothing else than an error of the
last call keeps from it. -/
structure Delivers (d : Descriptor) (ask : ℤ → ℤ) (msg : List UInt8) (success : ℤ)
    (s : Writing) : Prop where
  answered : Answered d.toPeer s.calls
  requested_eq : ∀ (done : List Call) (c : Call), done ++ [c] <+: s.calls →
    c.requested = ask ((msg.length : ℤ) - (transferred msg done).length)
  accepted : ∀ done, done <+: s.calls → transferred msg done <+: msg
  requested_le : ∀ (done : List Call) (c : Call), done ++ [c] <+: s.calls →
    c.requested ≤ (msg.length : ℤ) - (transferred msg done).length
  success_iff : s.returned = some success ↔ transferred msg s.calls = msg
  failed : s.returned ≠ some success → ∃ c ∈ s.calls.getLast?, c.result < 0
  length_calls : s.calls.length ≤ msg.length + 1

variable {d : Descriptor} {ask : ℤ → ℤ} {msg : List UInt8} {s : Writing} {len : ℕ}

theorem delivers_of_fits {success : ℤ} (h : Fits msg.length s.calls)
    (hanswered : Answered d.toPeer s.calls) (hasks : Asks ask msg.length s.calls)
    (hcount : s.calls.length ≤ moved s.calls + 1)
    (hsuccess : s.returned = some success ↔ moved s.calls = msg.length)
    (hfailed : s.returned ≠ some success → ∃ c ∈ s.calls.getLast?, c.result < 0) :
    Delivers d ask msg success s := by
  have hle := h.moved_le
  refine ⟨hanswered, ?_, ?_, ?_, ?_, hfailed, by omega⟩
  · intro done c hdone
    have hfits := h.of_isPrefix ((List.prefix_append done [c]).trans hdone)
    rw [length_transferred hfits]
    exact hasks done c hdone
  · intro done hdone
    rw [transferred_eq_take msg (h.inOrder.of_isPrefix hdone)]
    exact List.take_prefix _ _
  · intro done c hdone
    have hfits := h.of_isPrefix ((List.prefix_append done [c]).trans hdone)
    rw [length_transferred hfits]
    exact h.requested_le done c hdone
  · rw [hsuccess, transferred_eq_take msg h.inOrder, List.take_eq_self_iff]
    omega

/-- What holds at the head of a round and behind it. Every call that did not
end the loop has moved a byte. -/
structure Sending (d : Descriptor) (ask : ℤ → ℤ) (len : ℕ) (s : Writing) : Prop where
  fits : Fits len s.calls
  answered : Answered d.toPeer s.calls
  asks : Asks ask len s.calls
  written_eq : s.written = moved s.calls
  length_calls : s.calls.length ≤ moved s.calls + if s.returned.isNone then 0 else 1

theorem sending_start (d : Descriptor) (ask : ℤ → ℤ) (len : ℕ) : Sending d ask len {} :=
  ⟨fits_nil len, answered_nil d.toPeer, asks_nil ask len, rfl, Nat.zero_le _⟩

/-- A call that is asked for as it should be. -/
theorem Sending.logged (hs : Sending d ask len s) {requested result : ℤ}
    (hrequested : requested ≤ len - s.written) (hask : requested = ask (len - s.written))
    (hresult : result = d.answer s.calls.length requested) :
    Fits len (s.calls ++ [⟨s.written, requested, result⟩]) ∧
      Answered d.toPeer (s.calls ++ [⟨s.written, requested, result⟩]) ∧
      Asks ask len (s.calls ++ [⟨s.written, requested, result⟩]) := by
  have hwritten := hs.written_eq
  have hle := d.answer_le s.calls.length requested
  refine ⟨hs.fits.append_singleton hwritten (hwritten ▸ hrequested) ?_,
    hs.answered.append_singleton hresult, hs.asks.append_singleton (hwritten ▸ hask)⟩
  simp only
  omega

/-- A call that failed has moved nothing. -/
theorem Sending.failed (hs : Sending d ask len s) (hopen : s.returned = none)
    {requested result : ℤ} (hrequested : requested ≤ len - s.written)
    (hask : requested = ask (len - s.written))
    (hanswer : result = d.answer s.calls.length requested) (hresult : result < 0) (r : ℤ) :
    Sending d ask len ⟨s.written, s.calls ++ [⟨s.written, requested, result⟩], some r⟩ ∧
      moved (s.calls ++ [⟨s.written, requested, result⟩]) = moved s.calls := by
  have hwritten := hs.written_eq
  have hcount := hs.length_calls
  obtain ⟨hfits, hanswered, hasks⟩ := hs.logged hrequested hask hanswer
  have hmoved : moved (s.calls ++ [⟨s.written, requested, result⟩]) = moved s.calls := by
    rw [moved_append_singleton, Call.count, Int.toNat_of_nonpos (by exact Int.le_of_lt hresult),
      Nat.add_zero]
  refine ⟨⟨hfits, hanswered, hasks, by rw [hmoved]; exact hwritten, ?_⟩, hmoved⟩
  rw [hmoved, List.length_append]
  simpa [hopen] using hcount

/-- A call that was answered with a part has moved that part. -/
theorem Sending.part (hs : Sending d ask len s) (hopen : s.returned = none)
    {requested result : ℤ} (hrequested : requested ≤ len - s.written)
    (hask : requested = ask (len - s.written))
    (hanswer : result = d.answer s.calls.length requested)
    (hresult : 1 ≤ result ∧ result ≤ requested) (returned : Option ℤ) :
    Sending d ask len ⟨s.written + result, s.calls ++ [⟨s.written, requested, result⟩], returned⟩ ∧
      (moved (s.calls ++ [⟨s.written, requested, result⟩]) : ℤ) = moved s.calls + result := by
  have hwritten := hs.written_eq
  have hcount := hs.length_calls
  obtain ⟨hfits, hanswered, hasks⟩ := hs.logged hrequested hask hanswer
  have hmoved : (moved (s.calls ++ [⟨s.written, requested, result⟩]) : ℤ) =
      moved s.calls + result := by
    rw [moved_append_singleton, Call.count]
    push_cast
    omega
  refine ⟨⟨hfits, hanswered, hasks, ?_, ?_⟩, hmoved⟩
  · rw [hmoved, ← hwritten]
  · rw [hopen] at hcount
    simp only [Option.isNone_none, if_true] at hcount
    show (s.calls ++ [_]).length ≤ moved (s.calls ++ [_]) + _
    rw [List.length_append, List.length_singleton]
    omega

/-- A write asks for something and is answered with an error or a part. -/
theorem Descriptor.answer_cases (d : Descriptor) (i : ℕ) {requested : ℤ} (h : 1 ≤ requested) :
    d.answer i requested < 0 ∨ 1 ≤ d.answer i requested ∧ d.answer i requested ≤ requested := by
  have hle := d.answer_le i requested
  have hne := d.answer_ne_zero i requested h
  omega

/-- What is left for the loop to do. -/
def remaining (len : ℕ) (s : Writing) : ℕ :=
  if s.returned.isNone then (len + 1 - s.written).toNat else 0

theorem remaining_le (len : ℕ) (s : Writing) : remaining len s ≤ (len + 1 - s.written).toNat := by
  unfold remaining
  split
  · exact Nat.le_refl _
  · exact Nat.zero_le _

/-- Where the loop of `tcp_write` stands: it goes on, all was written, or a write
has failed. -/
def TcpOutcome (len : ℕ) (s : Writing) : Prop :=
  s.returned = none ∧ s.written < len ∨ s.returned = some 0 ∧ s.written = len ∨
    s.returned = some (-1) ∧ s.written < len ∧ ∃ c ∈ s.calls.getLast?, c.result < 0

theorem tcpWriteRound_spec (d : Descriptor) (hs : Sending d chunk len s)
    (hout : TcpOutcome len s) (hgo : s.returned.isNone = true) :
    ∃ s', tcpWriteRound d len s = .ok s' ∧ (Sending d chunk len s' ∧ TcpOutcome len s') ∧
      remaining len s' < remaining len s := by
  have hopen : s.returned = none := Option.isNone_iff_eq_none.mp hgo
  have hrest : s.written < len := by
    rcases hout with ⟨_, hlt⟩ | ⟨hzero, _⟩ | ⟨_, hlt, _⟩
    · exact hlt
    · exact absurd (hzero.symm.trans hopen) (by simp)
    · exact hlt
  obtain ⟨requested, hrequested⟩ : ∃ requested : ℤ, requested =
      if defaultPktSizeB < len - s.written then defaultPktSizeB else len - s.written := ⟨_, rfl⟩
  have hbounds : 1 ≤ requested ∧ requested ≤ len - s.written := by
    rw [hrequested, defaultPktSizeB]
    split <;> omega
  have hask : requested = chunk (len - s.written) := by
    rw [hrequested, chunk]
    split <;> omega
  have hremaining : remaining len s = (len + 1 - s.written).toNat := by rw [remaining, if_pos hgo]
  unfold tcpWriteRound
  rw [← hrequested]
  rcases d.answer_cases s.calls.length hbounds.1 with hneg | hpart
  · obtain ⟨hsending, _⟩ := hs.failed hopen hbounds.2 hask rfl hneg (-1)
    have hlast : ∃ c ∈ (s.calls ++ [(⟨s.written, requested,
        d.answer s.calls.length requested⟩ : Call)]).getLast?, c.result < 0 :=
      ⟨_, List.getLast?_concat, hneg⟩
    refine ⟨_, if_pos hneg, ⟨hsending, Or.inr (Or.inr ⟨rfl, hrest, hlast⟩)⟩, ?_⟩
    rw [hremaining]
    show 0 < _
    omega
  · obtain ⟨hsending, _⟩ := hs.part hopen hbounds.2 hask rfl hpart
      (if s.written + d.answer s.calls.length requested = len then some 0 else none)
    refine ⟨_, if_neg (by omega), ⟨hsending, ?_⟩, ?_⟩
    · by_cases hall : s.written + d.answer s.calls.length requested = len
      · exact Or.inr (Or.inl ⟨if_pos hall, hall⟩)
      · refine Or.inl ⟨if_neg hall, ?_⟩
        show s.written + d.answer s.calls.length requested < len
        omega
    · rw [hremaining]
      refine Nat.lt_of_le_of_lt (remaining_le _ _) ?_
      simp only
      omega

/-- The loop before the length is returned: it goes on, or a write has failed. -/
def ConverterOutcome (len : ℕ) (s : Writing) : Prop :=
  s.returned = none ∧ s.written ≤ len ∨
    ∃ inc < 0, s.returned = some inc ∧ s.written < len ∧
      ∃ c ∈ s.calls.getLast?, c.result < 0

theorem converterWriteRound_spec (d : Descriptor) (hs : Sending d id len s)
    (hgo : (s.returned.isNone && decide (s.written < (len : ℤ))) = true) :
    ∃ s', converterWriteRound d len s = .ok s' ∧ (Sending d id len s' ∧ ConverterOutcome len s') ∧
      remaining len s' < remaining len s := by
  obtain ⟨hnone, hrest⟩ := Bool.and_eq_true_iff.mp hgo
  have hopen : s.returned = none := Option.isNone_iff_eq_none.mp hnone
  have hrest : s.written < len := of_decide_eq_true hrest
  have hremaining : remaining len s = (len + 1 - s.written).toNat := by
    rw [remaining, if_pos hnone]
  unfold converterWriteRound
  rcases d.answer_cases s.calls.length (show 1 ≤ len - s.written by omega) with hneg | hpart
  · obtain ⟨hsending, _⟩ := hs.failed hopen (Int.le_refl _) rfl rfl hneg
      (d.answer s.calls.length (len - s.written))
    have hlast : ∃ c ∈ (s.calls ++ [(⟨s.written, len - s.written,
        d.answer s.calls.length (len - s.written)⟩ : Call)]).getLast?, c.result < 0 :=
      ⟨_, List.getLast?_concat, hneg⟩
    refine ⟨_, if_pos (Int.le_of_lt hneg), ⟨hsending, Or.inr ⟨_, hneg, rfl, hrest, hlast⟩⟩, ?_⟩
    rw [hremaining]
    show 0 < _
    omega
  · obtain ⟨hsending, _⟩ := hs.part hopen (Int.le_refl _) rfl rfl hpart s.returned
    refine ⟨_, if_neg (by omega), ⟨hsending, Or.inl ⟨hopen, ?_⟩⟩, ?_⟩
    · show s.written + d.answer s.calls.length (len - s.written) ≤ len
      omega
    · rw [hremaining]
      refine Nat.lt_of_le_of_lt (remaining_le _ _) ?_
      simp only
      omega

theorem tcpWrite_delivers (d : Descriptor) (hmsg : msg ≠ []) {fuel : ℕ}
    (hfuel : msg.length + 1 ≤ fuel) :
    ∃ s, tcpWrite d msg fuel = .ok s ∧ Delivers d chunk msg 0 s := by
  have hpos := List.length_pos_iff.mpr hmsg
  obtain ⟨s, hrun, ⟨hs, hout⟩, hexit⟩ :=
    whileLoop_of_variant (fun s => Sending d chunk msg.length s ∧ TcpOutcome msg.length s)
      (remaining msg.length) (fun s hs hgo => tcpWriteRound_spec d hs.1 hs.2 hgo) fuel {}
      ⟨sending_start d chunk msg.length, Or.inl ⟨rfl, by simp only; omega⟩⟩
      (by simpa [remaining] using hfuel)
  have hwritten := hs.written_eq
  have hcount := hs.length_calls
  refine ⟨s, hrun, delivers_of_fits hs.fits hs.answered hs.asks ?_ ?_ ?_⟩
  · rw [hexit] at hcount
    simpa using hcount
  · rcases hout with ⟨hopen, _⟩ | ⟨hzero, hall⟩ | ⟨hfailed, hlt, _⟩
    · exact absurd hexit (by simp [hopen])
    · rw [hzero]
      simp only [true_iff]
      omega
    · rw [hfailed]
      simp only [Option.some.injEq]
      omega
  · intro hnot
    rcases hout with ⟨hopen, _⟩ | ⟨hzero, _⟩ | ⟨_, _, hlast⟩
    · exact absurd hexit (by simp [hopen])
    · exact absurd hzero hnot
    · exact hlast

theorem converterWrite_delivers (d : Descriptor) (hmsg : msg ≠ []) {fuel : ℕ}
    (hfuel : msg.length + 1 ≤ fuel) :
    ∃ s, converterWrite d msg fuel = .ok s ∧ Delivers d id msg msg.length s := by
  have hpos := List.length_pos_iff.mpr hmsg
  obtain ⟨s, hrun, ⟨hs, hout⟩, hexit⟩ :=
    whileLoop_of_variant (fun s => Sending d id msg.length s ∧ ConverterOutcome msg.length s)
      (remaining msg.length) (fun s hs hgo => converterWriteRound_spec d hs.1 hgo) fuel {}
      ⟨sending_start d id msg.length, Or.inl ⟨rfl, by simp only; omega⟩⟩
      (by simpa [remaining] using hfuel)
  have hwritten := hs.written_eq
  have hcount := hs.length_calls
  refine ⟨{ s with returned := some (s.returned.getD (msg.length : ℤ)) }, ?_,
    delivers_of_fits hs.fits hs.answered hs.asks ?_ ?_ ?_⟩
  · rw [converterWrite, hrun]
    rfl
  · show s.calls.length ≤ moved s.calls + 1
    split at hcount <;> omega
  · show some (s.returned.getD (msg.length : ℤ)) = some (msg.length : ℤ) ↔
      moved s.calls = msg.length
    rcases hout with ⟨hopen, hle⟩ | ⟨inc, hneg, hfailed, hlt, _⟩
    · -- the loop was left because everything is written
      have hall : ¬ s.written < msg.length := by simpa [hopen] using hexit
      rw [hopen]
      simp only [Option.getD_none, true_iff]
      omega
    · rw [hfailed]
      simp only [Option.getD_some, Option.some.injEq]
      omega
  · intro hnot
    rcases hout with ⟨hopen, _⟩ | ⟨_, _, _, _, hlast⟩
    · exact absurd (by rw [hopen]; rfl) hnot
    · exact hlast

/-- The loop so far, and the write of a packet that is given the same results. -/
structure Follows (msg : List UInt8) (s : Writing) : Prop where
  written_nonneg : 0 ≤ s.written
  running : s.returned = none → ∀ rest,
    Transmission.tcpWrite msg 0 (s.calls.map Call.result ++ rest) = (do
      let (r, more) ← Transmission.tcpWrite msg s.written.toNat rest
      .ok (r, transferred msg s.calls ++ more))
  ended : ∀ r, s.returned = some r →
    Transmission.tcpWrite msg 0 (s.calls.map Call.result) = .ok (r, transferred msg s.calls)

theorem follows_start (msg : List UInt8) : Follows msg {} := by
  refine ⟨Int.le_refl 0, ?_, fun r h => absurd h (by simp)⟩
  intro _ rest
  show Transmission.tcpWrite msg 0 rest = (do
    let (r, more) ← Transmission.tcpWrite msg 0 rest
    .ok (r, more))
  cases Transmission.tcpWrite msg 0 rest <;> rfl

theorem tcpWriteRound_follows {s' : Writing} (hs : Follows msg s)
    (hgo : s.returned.isNone = true) (hround : tcpWriteRound d msg.length s = .ok s') :
    Follows msg s' := by
  have hrunning := hs.running (Option.isNone_iff_eq_none.mp hgo)
  have hnonneg := hs.written_nonneg
  -- what is asked for and what is answered does not matter here
  simp only [tcpWriteRound] at hround
  generalize (if defaultPktSizeB < (msg.length : ℤ) - s.written then defaultPktSizeB
    else (msg.length : ℤ) - s.written) = requested at hround
  generalize d.answer s.calls.length requested = b at hround
  have hcalls : (s.calls ++ [(⟨s.written, requested, b⟩ : Call)]).map Call.result =
      s.calls.map Call.result ++ [b] := by simp
  split at hround
  · rename_i hneg
    obtain rfl := Except.ok.inj hround
    refine ⟨hnonneg, fun h => absurd h (by simp), ?_⟩
    rintro r hr
    obtain rfl := Option.some.inj hr
    show Transmission.tcpWrite msg 0 ((s.calls ++ [_]).map Call.result) = _
    rw [hcalls, hrunning, Transmission.tcpWrite, if_pos hneg, ok_bind,
      transferred_append_singleton, Call.count, Int.toNat_of_nonpos (Int.le_of_lt hneg),
      List.take_zero]
  · rename_i hpart
    obtain rfl := Except.ok.inj hround
    have hnext : (s.written + b).toNat = s.written.toNat + b.toNat := by omega
    have hall : s.written + b = msg.length ↔ s.written.toNat + b.toNat = msg.length := by omega
    refine ⟨by show 0 ≤ s.written + b; omega, ?_, ?_⟩
    · intro hopen rest
      have hmore : ¬(s.written.toNat + b.toNat = msg.length) := by
        intro h
        rw [if_pos (hall.mpr h)] at hopen
        cases hopen
      show Transmission.tcpWrite msg 0 ((s.calls ++ [_]).map Call.result ++ rest) = (do
        let (r, more) ← Transmission.tcpWrite msg (s.written + b).toNat rest
        .ok (r, transferred msg (s.calls ++ [_]) ++ more))
      rw [hcalls, List.append_assoc, hrunning, List.singleton_append, Transmission.tcpWrite,
        if_neg hpart, hnext, transferred_append_singleton, Call.count]
      simp only [if_neg hmore]
      cases Transmission.tcpWrite msg (s.written.toNat + b.toNat) rest with
      | error e => rfl
      | ok out => simp only [ok_bind, List.append_assoc]
    · intro r hr
      show Transmission.tcpWrite msg 0 ((s.calls ++ [_]).map Call.result) =
        .ok (r, transferred msg (s.calls ++ [_]))
      by_cases hlast : s.written + b = msg.length
      · rw [if_pos hlast] at hr
        obtain rfl := Option.some.inj hr
        rw [hcalls, hrunning, Transmission.tcpWrite, if_neg hpart, transferred_append_singleton,
          Call.count]
        simp only [if_pos (hall.mp hlast), ok_bind]
      · rw [if_neg hlast] at hr
        cases hr

/-- The write of a packet is this loop, seen from the results of its calls. -/
theorem tcpWrite_transmission {fuel : ℕ} (hrun : tcpWrite d msg fuel = .ok s) :
    ∃ r, s.returned = some r ∧
      Transmission.tcpWrite msg 0 (s.calls.map Call.result) = .ok (r, transferred msg s.calls) := by
  have hround : ∀ s s', Follows msg s → s.returned.isNone = true →
      tcpWriteRound d msg.length s = .ok s' → Follows msg s' :=
    fun s s' hs hgo h => tcpWriteRound_follows hs hgo h
  obtain ⟨hs, hexit⟩ := whileLoop_inv (Follows msg) hround (follows_start msg) hrun
  cases hreturned : s.returned with
  | none => simp [hreturned] at hexit
  | some r => exact ⟨r, rfl, hs.ended r hreturned⟩

/-- Both loops deliver exactly the message, or a part of it and no success, with
at most one call more than it has bytes. -/
theorem writes_deliver (d : Descriptor) (hmsg : msg ≠ []) {fuel : ℕ}
    (hfuel : msg.length + 1 ≤ fuel) :
    (∃ s, tcpWrite d msg fuel = .ok s ∧ Delivers d chunk msg 0 s) ∧
      ∃ s, converterWrite d msg fuel = .ok s ∧ Delivers d id msg msg.length s :=
  ⟨tcpWrite_delivers d hmsg hfuel, converterWrite_delivers d hmsg hfuel⟩

/-- A descriptor that takes two bytes at a time, and fails at its third call. -/
def twoBytes : Descriptor where
  answer i requested := if i = 2 then -1 else min requested 2
  answer_le i requested := by
    split
    · omega
    · omega
  answer_ne_zero i requested h := by
    split
    · decide
    · omega

theorem writes_deliver_three_bytes :
    (tcpWrite twoBytes [1, 2, 3] 4).map Writing.calls = .ok [⟨0, 3, 2⟩, ⟨2, 1, 1⟩] ∧
    (∃ s, tcpWrite twoBytes [1, 2, 3] 4 = .ok s ∧ Delivers twoBytes chunk [1, 2, 3] 0 s) ∧
      ∃ s, converterWrite twoBytes [1, 2, 3] 4 = .ok s ∧ Delivers twoBytes id [1, 2, 3] 3 s :=
  ⟨by decide, writes_deliver twoBytes (by decide) (by decide)⟩

end EsSensor.WriteLoops
