import EsSensor.Library.MachineWord
import EsSensor.Library.PartialTransfer

/-!
The two loops that read a message of a given length from the server. The one
under TLS counts in an `unsigned`, to which the code of an error is added, and
it has only one result.
-/
namespace EsSensor.ReadLoops

open CheckedLoop MachineWord PartialTransfer

/-- A connection answers with an `int`. -/
structure Connection extends Peer where
  le_answer : ∀ i requested, -2 ^ 31 ≤ answer i requested

structure Reading where
  bytesRead : ℤ := 0
  cnt : ℕ := 0
  calls : List Call := []
  returned : Option ℤ := none
  deriving DecidableEq, Repr

def tcpReadRound (c : Connection) (len : ℤ) (s : Reading) : Except Fault Reading :=
  let b := c.answer s.calls.length (len - s.bytesRead)
  let calls := s.calls ++ [⟨s.bytesRead, len - s.bytesRead, b⟩]
  if b < 0 then .ok { s with calls := calls, returned := some (-1) }
  else if b = 0 then
    if s.bytesRead = len then .ok { s with calls := calls, returned := some 0 }
    else .ok { s with calls := calls, cnt := s.cnt + 1 }
  else .ok { s with calls := calls, bytesRead := s.bytesRead + b }

def tcpRead (c : Connection) (len fuel : ℕ) : Except Fault Reading := do
  let s ← whileLoop (fun s => s.returned.isNone && decide (s.cnt < 5)) (tcpReadRound c len) fuel {}
  .ok { s with returned := some (s.returned.getD (-1)) }

/-- What is asked for is passed as an `int`. The test `cnt < 0` is never true of
an `unsigned`. -/
def tlsReadRound (c : Connection) (size : ℕ) (s : Reading) : Except Fault Reading :=
  let requested := int32 (size - s.bytesRead)
  let result := c.answer s.calls.length requested
  let cnt := word result
  let calls := s.calls ++ [⟨s.bytesRead, requested, result⟩]
  if cnt = 0 then .ok { s with calls := calls, cnt := cnt, returned := some 0 }
  else .ok { s with calls := calls, cnt := cnt, bytesRead := word (s.bytesRead + cnt) }

def tlsRead (c : Connection) (size fuel : ℕ) : Except Fault Reading := do
  let s ← whileLoop (fun s => s.returned.isNone && decide (s.bytesRead < (size : ℤ)))
    (tlsReadRound c size) fuel {}
  .ok { s with returned := some 0 }

/-- Exactly `n` bytes were stored, each behind the ones before it. -/
structure Complete (n : ℕ) (calls : List Call) : Prop where
  inOrder : InOrder calls
  moved_eq : moved calls = n

/-- The function returns, what it has stored are the answers of the connection, and it
reports success only for a complete message. -/
def Reads (c : Connection) (run : ℕ → Except Fault Reading) (n : ℕ) : Prop :=
  ∃ bound, ∀ fuel, bound ≤ fuel →
    ∃ s, run fuel = .ok s ∧ Answered c.toPeer s.calls ∧
      (s.returned = some 0 → Complete n s.calls)

/-- How many bytes have come after `k` answers, where each asks for the rest. -/
def arrived (c : Connection) (n : ℕ) : ℕ → ℕ
  | 0 => 0
  | k + 1 => arrived c n k + (c.answer k (n - arrived c n k)).toNat

/-- Every answer brings a byte at least, until exactly `n` have come. -/
def Fills (c : Connection) (n : ℕ) : Prop :=
  ∃ k, arrived c n k = n ∧ ∀ i < k, 0 < c.answer i (n - arrived c n i)

/-- The bytes of a complete message stand in their cells. -/
theorem Complete.cell {n : ℕ} {calls : List Call} (h : Complete n calls) {i : ℕ} (hi : i < n) :
    (received calls).cell i = some i :=
  cell_received h.inOrder (h.moved_eq ▸ hi)

section Tcp

variable {c : Connection} {len : ℕ} {s : Reading}

structure TcpReading (c : Connection) (len : ℕ) (s : Reading) : Prop where
  fits : Fits len s.calls
  answered : Answered c.toPeer s.calls
  bytesRead_eq : s.bytesRead = moved s.calls
  success : s.returned = some 0 → moved s.calls = len

/-- Zeros that are still put up with, and bytes that are missing. -/
def patience (len : ℕ) (s : Reading) : ℕ :=
  if s.returned.isNone then 1 + (5 - s.cnt) + (len - s.bytesRead).toNat else 0

/-- A call that asks for the rest, whatever it is answered. -/
theorem TcpReading.logged (hs : TcpReading c len s) {b : ℤ}
    (hb : b = c.answer s.calls.length (len - s.bytesRead)) :
    Fits len (s.calls ++ [⟨s.bytesRead, len - s.bytesRead, b⟩]) ∧
      Answered c.toPeer (s.calls ++ [⟨s.bytesRead, len - s.bytesRead, b⟩]) ∧
      (moved (s.calls ++ [⟨s.bytesRead, len - s.bytesRead, b⟩]) : ℤ) = s.bytesRead + b.toNat := by
  have hread := hs.bytesRead_eq
  have hroom : (len : ℤ) - s.bytesRead ≤ len - moved s.calls := by omega
  have hle := c.answer_le s.calls.length (len - s.bytesRead)
  rw [← hb] at hle
  refine ⟨hs.fits.append_singleton hread hroom hle, hs.answered.append_singleton hb, ?_⟩
  rw [moved_append_singleton, Call.count, hread, Nat.cast_add]

theorem tcpReadRound_spec (c : Connection) (hs : TcpReading c len s)
    (hgo : (s.returned.isNone && decide (s.cnt < 5)) = true) :
    ∃ s', tcpReadRound c len s = .ok s' ∧ TcpReading c len s' ∧
      patience len s' < patience len s := by
  obtain ⟨hnone, hcnt⟩ := Bool.and_eq_true_iff.mp hgo
  have hcnt : s.cnt < 5 := of_decide_eq_true hcnt
  have hread := hs.bytesRead_eq
  have hroom := hs.fits.moved_le
  have hle := c.answer_le s.calls.length (len - s.bytesRead)
  have hpatience : patience len s = 1 + (5 - s.cnt) + (len - s.bytesRead).toNat := if_pos hnone
  have hopen : s.returned ≠ some 0 := by
    rw [Option.isNone_iff_eq_none.mp hnone]
    exact (Option.some_ne_none 0).symm
  simp only [tcpReadRound]
  generalize hb : c.answer s.calls.length (len - s.bytesRead) = b at hle ⊢
  obtain ⟨hfits, hanswered, hmoved⟩ := hs.logged hb.symm
  split
  · refine ⟨_, rfl, ⟨hfits, hanswered, ?_, fun h => absurd h (by simp)⟩, ?_⟩
    · simp only
      omega
    · rw [hpatience]
      show 0 < _
      omega
  · split
    · split
      · refine ⟨_, rfl, ⟨hfits, hanswered, ?_, fun _ => ?_⟩, ?_⟩
        · simp only
          omega
        · simp only
          omega
        · rw [hpatience]
          show 0 < _
          omega
      · refine ⟨_, rfl, ⟨hfits, hanswered, ?_, fun h => absurd h hopen⟩, ?_⟩
        · simp only
          omega
        · rw [hpatience, patience, if_pos hnone]
          simp only
          omega
    · refine ⟨_, rfl, ⟨hfits, hanswered, ?_, fun h => absurd h hopen⟩, ?_⟩
      · simp only
        omega
      · rw [hpatience, patience, if_pos hnone]
        simp only
        omega

theorem tcpRead_reads (c : Connection) (len : ℕ) : Reads c (tcpRead c len) len := by
  refine ⟨6 + len, ?_⟩
  intro fuel hfuel
  obtain ⟨s, hrun, hs, _⟩ := whileLoop_of_variant (TcpReading c len) (patience len)
    (fun s hs hgo => tcpReadRound_spec c hs hgo) fuel {}
    ⟨fits_nil len, answered_nil c.toPeer, rfl, fun h => absurd h (by simp)⟩
    (by simp [patience]; omega)
  refine ⟨{ s with returned := some (s.returned.getD (-1)) }, by rw [tcpRead, hrun, ok_bind],
    hs.answered, ?_⟩
  intro hzero
  have hreturned : s.returned = some 0 := by
    cases hr : s.returned with
    | none => simp [hr] at hzero
    | some r => simpa [hr] using hzero
  exact ⟨hs.fits.inOrder, hs.success hreturned⟩

end Tcp

section Tls

variable {c : Connection} {n : ℕ} {s : Reading}

theorem int32_sub {z m : ℤ} (hm : 0 ≤ m) (hle : m ≤ max (int32 z) 0) :
    int32 (z - m) = int32 z - m := by
  unfold int32 at hle ⊢
  rw [Int.bmod_def] at hle
  rw [Int.bmod_def, Int.bmod_def]
  omega

theorem word_pos {z : ℤ} (hz : 0 < z) (hlt : z < 2 ^ 31) : (word z : ℤ) = z := by
  unfold word
  omega

theorem word_neg {z : ℤ} (hz : z < 0) (hle : -2 ^ 31 ≤ z) : (word z : ℤ) = 2 ^ 32 + z := by
  unfold word
  omega

theorem tlsReadRound_calls {s' : Reading} (hround : tlsReadRound c n s = .ok s') :
    s.calls <+: s'.calls := by
  simp only [tlsReadRound] at hround
  split at hround <;> obtain rfl := Except.ok.inj hround <;> exact List.prefix_append _ _

/-- No more bytes come in order than the first call can ask for. -/
def InReach (n : ℕ) (s : Reading) : Prop :=
  InOrder s.calls → (moved s.calls : ℤ) ≤ max (int32 n) 0

theorem tlsReadRound_inReach {s' : Reading} (hs : InReach n s)
    (hround : tlsReadRound c n s = .ok s') : InReach n s' := by
  have hle := c.answer_le s.calls.length (int32 (n - s.bytesRead))
  simp only [tlsReadRound] at hround
  generalize c.answer s.calls.length (int32 (n - s.bytesRead)) = result at hround hle
  have hcalls : s'.calls = s.calls ++ [⟨s.bytesRead, int32 (n - s.bytesRead), result⟩] := by
    split at hround <;> obtain rfl := Except.ok.inj hround <;> rfl
  intro horder
  rw [hcalls] at horder ⊢
  obtain ⟨hbefore, hoffset⟩ := inOrder_append_singleton.mp horder
  have hreach := hs hbefore
  rw [moved_append_singleton, Call.count]
  by_cases hpos : 0 < result
  · have hstart : s.bytesRead = moved s.calls := hoffset hpos
    have hsub := int32_sub (Int.natCast_nonneg _) hreach
    rw [hstart, hsub] at hle
    push_cast
    omega
  · simp only
    omega

/-- All answers have brought something, and they are counted right. -/
structure Filling (c : Connection) (n : ℕ) (s : Reading) : Prop where
  inOrder : InOrder s.calls
  answered : Answered c.toPeer s.calls
  bytesRead_eq : s.bytesRead = moved s.calls
  moved_eq : moved s.calls = arrived c n s.calls.length
  moved_le : moved s.calls ≤ n
  answers : ∀ i < s.calls.length, 0 < c.answer i (n - arrived c n i)
  returned_eq : s.returned = none

/-- Some answer brought nothing. The message is not complete, and if the loop
goes on, then with a count that is too low. -/
structure Fallen (n : ℕ) (s : Reading) : Prop where
  moved_lt : moved s.calls < n
  low : s.returned.isNone = true → s.bytesRead < (n : ℤ) → s.bytesRead < moved s.calls
  nonneg : 0 ≤ s.bytesRead

theorem filling_start (c : Connection) (n : ℕ) : Filling c n {} :=
  ⟨inOrder_nil, answered_nil c.toPeer, rfl, rfl, Nat.zero_le n,
    fun i hi => absurd hi (Nat.not_lt_zero i), rfl⟩

/-- A round that begins with a right count: the answer brings some of the bytes
that are missing, or the loop has lost its count for good. -/
theorem tlsReadRound_filling (hn : n < 2 ^ 31) (hs : Filling c n s) (hrest : s.bytesRead < n) :
    ∃ s', tlsReadRound c n s = .ok s' ∧ s'.calls.length = s.calls.length + 1 ∧
      (0 < c.answer s.calls.length (n - arrived c n s.calls.length) → Filling c n s') ∧
      (c.answer s.calls.length (n - arrived c n s.calls.length) ≤ 0 → Fallen n s') := by
  have hread := hs.bytesRead_eq
  have hmoved := hs.moved_eq
  have hrequested : int32 (n - s.bytesRead) = (n : ℤ) - arrived c n s.calls.length := by
    have hsub := int32_sub (show (0 : ℤ) ≤ moved s.calls from Int.natCast_nonneg _)
      (show (moved s.calls : ℤ) ≤ max (int32 n) 0 by rw [int32_of_lt hn]; omega)
    rw [hread, hsub, int32_of_lt hn, hmoved]
  have hle := c.answer_le s.calls.length (n - arrived c n s.calls.length)
  have hint := c.le_answer s.calls.length (n - arrived c n s.calls.length)
  have harrived : arrived c n (s.calls.length + 1) = arrived c n s.calls.length +
    (c.answer s.calls.length (n - arrived c n s.calls.length)).toNat := rfl
  simp only [tlsReadRound, hrequested]
  generalize hresult : c.answer s.calls.length (n - arrived c n s.calls.length) = result at *
  have hcount := moved_append_singleton s.calls
    ⟨s.bytesRead, n - arrived c n s.calls.length, result⟩
  rw [Call.count] at hcount
  simp only at hcount
  rcases Int.lt_trichotomy result 0 with hneg | hzero | hpos
  · have hword := word_neg hneg hint
    refine ⟨_, if_neg (by omega), by simp, fun h => absurd h (by omega), fun _ => ⟨?_, ?_, ?_⟩⟩
    · show moved (s.calls ++ [_]) < n
      omega
    · intro _ hlow
      show (word (s.bytesRead + word result) : ℤ) < moved (s.calls ++ [_])
      change (word (s.bytesRead + word result) : ℤ) < n at hlow
      rw [hword] at hlow ⊢
      unfold word at hlow ⊢
      omega
    · exact Int.natCast_nonneg _
  · refine ⟨_, if_pos (by rw [hzero]; rfl), by simp, fun h => absurd h (by omega),
      fun _ => ⟨?_, fun h => absurd h (by simp), ?_⟩⟩
    · show moved (s.calls ++ [_]) < n
      omega
    · show 0 ≤ s.bytesRead
      omega
  · have hword := word_pos hpos (by omega)
    refine ⟨_, if_neg (by omega), by simp, fun _ => ⟨?_, ?_, ?_, ?_, ?_, ?_, hs.returned_eq⟩,
      fun h => absurd h (by omega)⟩
    · exact inOrder_append_singleton.mpr ⟨hs.inOrder, fun _ => hread⟩
    · exact hs.answered.append_singleton hresult.symm
    · show (word (s.bytesRead + word result) : ℤ) = moved (s.calls ++ [_])
      rw [hword, word_pos (by omega) (by omega)]
      omega
    · show moved (s.calls ++ [_]) = arrived c n (s.calls ++ [_]).length
      rw [List.length_append, List.length_singleton]
      omega
    · show moved (s.calls ++ [_]) ≤ n
      omega
    · intro i hi
      rcases Nat.lt_succ_iff_lt_or_eq.mp (show i < s.calls.length + 1 by simpa using hi) with
        hbefore | rfl
      · exact hs.answers i hbefore
      · rw [hresult]
        exact hpos

/-- Once the count is too low, no call begins where it should. -/
theorem tlsReadRound_fallen {s' : Reading} (hn : n < 2 ^ 31) (hs : Fallen n s)
    (hgo : (s.returned.isNone && decide (s.bytesRead < (n : ℤ))) = true)
    (hround : tlsReadRound c n s = .ok s') (horder : InOrder s'.calls) : Fallen n s' := by
  obtain ⟨hopen, hrest⟩ := Bool.and_eq_true_iff.mp hgo
  have hrest : s.bytesRead < n := of_decide_eq_true hrest
  have hlow := hs.low hopen hrest
  have hnonneg := hs.nonneg
  have hmissing := hs.moved_lt
  have hint := c.le_answer s.calls.length (int32 (n - s.bytesRead))
  simp only [tlsReadRound] at hround
  generalize c.answer s.calls.length (int32 (n - s.bytesRead)) = result at hround hint
  have hcalls : s'.calls = s.calls ++ [⟨s.bytesRead, int32 (n - s.bytesRead), result⟩] := by
    split at hround <;> obtain rfl := Except.ok.inj hround <;> rfl
  have hnone : result ≤ 0 := by
    by_contra hpos
    rw [hcalls] at horder
    have hoffset := (inOrder_append_singleton.mp horder).2 (by simp only; omega)
    simp only at hoffset
    omega
  have hmoved : moved s'.calls = moved s.calls := by
    rw [hcalls, moved_append_singleton, Call.count, Int.toNat_of_nonpos hnone, Nat.add_zero]
  split at hround
  · obtain rfl := Except.ok.inj hround
    exact ⟨by rw [hmoved]; exact hmissing, fun h => absurd h (by simp), hnonneg⟩
  · rename_i hword
    obtain rfl := Except.ok.inj hround
    refine ⟨by rw [hmoved]; exact hmissing, ?_, Int.natCast_nonneg _⟩
    intro _ hstill
    rw [hmoved]
    change (word (s.bytesRead + word result) : ℤ) < n at hstill
    show (word (s.bytesRead + word result) : ℤ) < moved s.calls
    unfold word at hword hstill ⊢
    omega

theorem tlsRead_of_loop {fuel : ℕ}
    (hrun : whileLoop (fun s => s.returned.isNone && decide (s.bytesRead < (n : ℤ)))
      (tlsReadRound c n) fuel {} = .ok s) :
    tlsRead c n fuel = .ok { s with returned := some 0 } := by
  rw [tlsRead, hrun, ok_bind]

/-- A run that has stored a complete message was given it without a gap. -/
theorem fills_of_complete {fuel : ℕ}
    (hrun : whileLoop (fun s => s.returned.isNone && decide (s.bytesRead < (n : ℤ)))
      (tlsReadRound c n) fuel {} = .ok s) (hcomplete : Complete n s.calls) :
    n < 2 ^ 31 ∧ Fills c n := by
  have hstart : InReach n {} := by
    intro _
    simp [moved]
  have hreach : InReach n s :=
    (whileLoop_inv (InReach n) (fun s s' hs _ hround => tlsReadRound_inReach hs hround) hstart
      hrun).1
  have hn : n < 2 ^ 31 := by
    have hle := hreach hcomplete.inOrder
    have hint := int32_bounds n
    rw [hcomplete.moved_eq] at hle
    omega
  have hround : ∀ s s', (InOrder s.calls → Filling c n s ∨ Fallen n s) →
      (s.returned.isNone && decide (s.bytesRead < (n : ℤ))) = true →
      tlsReadRound c n s = .ok s' → InOrder s'.calls → Filling c n s' ∨ Fallen n s' := by
    intro s s' hs hgo hround horder
    have hbefore : InOrder s.calls := horder.of_isPrefix (tlsReadRound_calls hround)
    rcases hs hbefore with hfilling | hfallen
    · have hrest : s.bytesRead < n := of_decide_eq_true (Bool.and_eq_true_iff.mp hgo).2
      obtain ⟨t, ht, _, hpos, hnone⟩ := tlsReadRound_filling hn hfilling hrest
      obtain rfl := Except.ok.inj (hround.symm.trans ht)
      rcases Int.lt_or_le 0 (c.answer s.calls.length (n - arrived c n s.calls.length)) with h | h
      · exact Or.inl (hpos h)
      · exact Or.inr (hnone h)
    · exact Or.inr (tlsReadRound_fallen hn hfallen hgo hround horder)
  have hend := (whileLoop_inv (fun s => InOrder s.calls → Filling c n s ∨ Fallen n s) hround
    (fun _ => Or.inl (filling_start c n)) hrun).1
  refine ⟨hn, ?_⟩
  rcases hend hcomplete.inOrder with hfilling | hfallen
  · refine ⟨s.calls.length, ?_, hfilling.answers⟩
    rw [← hfilling.moved_eq, hcomplete.moved_eq]
  · have hlt := hfallen.moved_lt
    rw [hcomplete.moved_eq] at hlt
    exact absurd hlt (Nat.lt_irrefl n)

theorem arrived_lt {i k : ℕ} (hik : i < k) (hpos : ∀ j < k, 0 < c.answer j (n - arrived c n j)) :
    arrived c n i < arrived c n k := by
  induction k with
  | zero => exact absurd hik (Nat.not_lt_zero i)
  | succ k ih =>
    have hlast := hpos k (Nat.lt_succ_self k)
    have hstep : arrived c n (k + 1) =
      arrived c n k + (c.answer k (n - arrived c n k)).toNat := rfl
    rcases Nat.lt_succ_iff_lt_or_eq.mp hik with hlt | rfl
    · have hbefore := ih hlt (fun j hj => hpos j (Nat.lt_succ_of_lt hj))
      omega
    · omega

/-- Answers without a gap are put together to the whole message. -/
theorem complete_of_fills (hn : n < 2 ^ 31) (hfills : Fills c n) :
    Reads c (tlsRead c n) n := by
  obtain ⟨k, hk, hpos⟩ := hfills
  have hround : ∀ m s, (s.calls.length = m ∧ Filling c n s) →
      (s.returned.isNone && decide (s.bytesRead < (n : ℤ))) = true →
      m < k ∧ ∃ s', tlsReadRound c n s = .ok s' ∧ s'.calls.length = m + 1 ∧ Filling c n s' := by
    rintro m s ⟨rfl, hs⟩ hgo
    have hrest : s.bytesRead < n := of_decide_eq_true (Bool.and_eq_true_iff.mp hgo).2
    have hread := hs.bytesRead_eq
    have hmoved := hs.moved_eq
    have hm : s.calls.length < k := by
      rcases Nat.lt_trichotomy s.calls.length k with hlt | heq | hgt
      · exact hlt
      · rw [← heq] at hk
        omega
      · have hmore := arrived_lt hgt hs.answers
        omega
    obtain ⟨s', hround, hlength, hfilling, _⟩ := tlsReadRound_filling hn hs hrest
    exact ⟨hm, s', hround, hlength, hfilling (hpos _ hm)⟩
  have hexit : ∀ m s, (s.calls.length = m ∧ Filling c n s) →
      (s.returned.isNone && decide (s.bytesRead < (n : ℤ))) = false → m = k := by
    rintro m s ⟨rfl, hs⟩ hend
    have hread := hs.bytesRead_eq
    have hmoved := hs.moved_eq
    have hle := hs.moved_le
    have hall : ¬ s.bytesRead < n := by simpa [hs.returned_eq] using hend
    rcases Nat.lt_trichotomy s.calls.length k with hlt | heq | hgt
    · have hmore := arrived_lt hlt hpos
      omega
    · exact heq
    · have hmore := arrived_lt hgt hs.answers
      omega
  refine ⟨k, ?_⟩
  intro fuel hfuel
  obtain ⟨s, hrun, ⟨hlength, hs⟩, _⟩ := whileLoop_counts hround hexit
    (show _ ∧ Filling c n {} from ⟨rfl, filling_start c n⟩) (by omega : k ≤ 0 + fuel)
  refine ⟨{ s with returned := some 0 }, tlsRead_of_loop hrun, hs.answered,
    fun _ => ⟨hs.inOrder, ?_⟩⟩
  show moved s.calls = n
  rw [hs.moved_eq, hlength, hk]

theorem tlsRead_reads_iff : Reads c (tlsRead c n) n ↔ n < 2 ^ 31 ∧ Fills c n := by
  constructor
  · rintro ⟨bound, hreads⟩
    obtain ⟨s, hrun, _, hcomplete⟩ := hreads bound (Nat.le_refl bound)
    obtain ⟨t, hloop, hlast⟩ := bind_eq_ok.mp hrun
    obtain rfl := Except.ok.inj hlast
    exact fills_of_complete hloop (hcomplete rfl)
  · rintro ⟨hn, hfills⟩
    exact complete_of_fills hn hfills

end Tls

/-- The loop over TCP reports success only for a complete message. The one under
TLS does so exactly where every read brings something until all has come. -/
theorem reads_complete_iff (socket ssl : Connection) (n : ℕ) :
    Reads socket (tcpRead socket n) n ∧
      (Reads ssl (tlsRead ssl n) n ↔ n < 2 ^ 31 ∧ Fills ssl n) :=
  ⟨tcpRead_reads socket n, tlsRead_reads_iff⟩

def failing : Connection where
  answer _ _ := -1
  answer_le _ requested := by omega
  le_answer _ _ := by decide

/-- An error in the first read of four bytes is taken for 4294967295 bytes. -/
theorem failed_read_succeeds :
    (tlsRead failing 4 1).map (fun s => (s.returned, s.bytesRead, moved s.calls)) =
      .ok (some 0, 4294967295, 0) ∧ ¬ Reads failing (tlsRead failing 4) 4 := by
  refine ⟨by decide, ?_⟩
  rw [tlsRead_reads_iff]
  rintro ⟨_, k, hk, hpos⟩
  cases k with
  | zero => exact absurd hk (by decide)
  | succ k => exact absurd (hpos 0 (Nat.succ_pos k)) (by decide)

end EsSensor.ReadLoops
