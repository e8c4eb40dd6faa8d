import EsSensor.Library.DelimitedText
import EsSensor.Transmission
import Mathlib.Data.List.TakeWhile

/-!
The specification of the collector, `host:port#ca#cert#key`, and how it is taken
apart. The loop has a round for every `#`, also for those in the key, and keeps
its position in 32 bits.
-/
namespace EsSensor.ServerSpecification

open CheckedLoop DelimitedText MachineWord Transmission

/-- The members that the rounds of the loop fill. -/
structure Fields where
  mHost : List Char := []
  mPort : List Char := []
  mCACert : List Char := []
  mCert : List Char := []
  mKey : List Char := []
  deriving DecidableEq, Repr

structure Server extends Fields where
  mConnection : ConnectionType
  deriving DecidableEq, Repr

/-- The variables of `parse_tls_hosts`. -/
structure Scan where
  start : ℕ
  endPos : Option ℕ
  iter : ℕ
  fields : Fields

def npos : ℕ := 2 ^ 64 - 1

/-- What a round takes from the text. The host is cut with the position in the
whole text, which is zero where there is a host to cut. -/
def takeFields (hosts : List Char) (start endPos iter : ℕ) (fields : Fields) :
    Except Fault Fields :=
  if iter = 0 then do
    let host ← substr hosts start (endPos - start)
    let end2 := (find ':' host 0).getD npos
    let mHost ← substr host start end2
    let mPort ← substr host (u64 (end2 + 1)) endPos
    .ok { fields with mHost := mHost, mPort := mPort }
  else if iter = 1 then do
    let mCACert ← substr hosts start (endPos - start)
    .ok { fields with mCACert := mCACert }
  else if iter = 2 then do
    let mCert ← substr hosts start (endPos - start)
    let mKey ← substr hosts (endPos + 1) (hosts.length - endPos)
    .ok { fields with mCert := mCert, mKey := mKey }
  else .ok fields

/-- `iter++` on an `int`, which has no value behind the largest one. -/
def increment (iter : ℕ) : Except Fault ℕ :=
  if iter < 2 ^ 31 - 1 then .ok (iter + 1) else .error .outOfRange

def parseRound (hosts : List Char) (s : Scan) : Except Fault Scan :=
  match s.endPos with
  | none => .ok s
  | some endPos => do
    let fields ← takeFields hosts s.start endPos s.iter s.fields
    let iter ← increment s.iter
    let start := u32 (endPos + 1)
    .ok { start := start, endPos := find '#' hosts start, iter := iter, fields := fields }

/-- `parse_tls_hosts`. The text is compared as a C string, up to its first zero. -/
def parseTlsHosts (fuel : ℕ) (hosts : List Char) : Except Fault Server :=
  if hosts.takeWhile (fun c => c ≠ '\x00') ≠ ['0'] then do
    let s ← whileLoop (fun s => s.endPos.isSome) (parseRound hosts) fuel
      { start := 0, endPos := find '#' hosts 0, iter := 0, fields := {} }
    .ok
      { s.fields with
        mConnection := if s.fields.mCACert.length = 0 then .TCP else .TLS }
  else .error (.thrown "Transmission - No information about server\n")

def specification (host port ca cert key : List Char) : List Char :=
  host ++ ':' :: port ++ '#' :: ca ++ '#' :: cert ++ '#' :: key

section Rounds

variable {host port ca cert key : List Char}

/-- Where the loop is and what it has taken, by the number of its rounds. -/
inductive Progress (host port ca cert key : List Char) : ℕ → ℕ → Fields → Prop
  | first : Progress host port ca cert key 0 0 {}
  | address : Progress host port ca cert key 1 (host ++ ':' :: port ++ ['#']).length
      { mHost := host, mPort := port }
  | authority : Progress host port ca cert key 2 (host ++ ':' :: port ++ '#' :: ca ++ ['#']).length
      { mHost := host, mPort := port, mCACert := ca }
  | complete {iter : ℕ} (hiter : 3 ≤ iter) (start : ℕ) : Progress host port ca cert key iter start
      { mHost := host, mPort := port, mCACert := ca, mCert := cert, mKey := key }

theorem takeFields_address (hhost : ':' ∉ host) (hlen : host.length < npos) (rest : List Char) :
    takeFields (host ++ ':' :: port ++ rest) 0 (host ++ ':' :: port).length 0 {} =
      .ok { mHost := host, mPort := port } := by
  have hcut := substr_piece [] (host ++ ':' :: port) rest
  have hcolon : find ':' (host ++ ':' :: port) 0 = some host.length := by
    have hfind := @find_behind _ _ ':' [] host port hhost
    simpa using hfind
  have hhostcut := substr_piece [] host (':' :: port)
  have hcount : port.length ≤ (host ++ ':' :: port).length := by
    simp only [List.length_append, List.length_cons]
    omega
  have hportcut := substr_rest (host ++ [':']) port hcount
  have hnext : u64 (host.length + 1) = (host ++ [':']).length := by
    rw [u64_of_lt (by unfold npos at hlen; omega), List.length_append, List.length_singleton]
  simp only [List.nil_append, List.length_nil] at hcut hhostcut
  rw [List.append_assoc, List.singleton_append] at hportcut
  rw [takeFields, if_pos rfl, Nat.sub_zero, hcut, ok_bind, hcolon]
  simp only [Option.getD_some, hhostcut, ok_bind, hnext, hportcut]

/-- A delimiter that is found behind a piece ends that piece. -/
theorem end_of_piece {before piece rest : List Char} {endPos : ℕ} (hpiece : '#' ∉ piece)
    (hfind : find '#' (before ++ piece ++ '#' :: rest) before.length = some endPos) :
    endPos = before.length + piece.length ∧
      endPos + 1 = (before ++ piece ++ ['#']).length ∧
      substr (before ++ piece ++ '#' :: rest) before.length (endPos - before.length) =
        .ok piece := by
  rw [find_behind hpiece] at hfind
  obtain rfl := Option.some.inj hfind
  refine ⟨rfl, by simp [Nat.add_assoc], ?_⟩
  rw [Nat.add_sub_cancel_left, substr_piece]

/-- What is behind the delimiter, cut with any length that is large enough. -/
theorem rest_of_piece {before piece rest : List Char} {endPos : ℕ}
    (hnext : endPos + 1 = (before ++ piece ++ ['#']).length) :
    substr (before ++ piece ++ '#' :: rest) (endPos + 1)
      ((before ++ piece ++ '#' :: rest).length - endPos) = .ok rest := by
  have henough : rest.length ≤ (before ++ piece ++ '#' :: rest).length - endPos := by
    simp only [List.length_append, List.length_cons, List.length_nil] at hnext ⊢
    omega
  have hrest := substr_rest (before ++ piece ++ ['#']) rest henough
  rw [hnext]
  rwa [List.append_assoc _ ['#'], List.singleton_append] at hrest

/-- A round takes the next fields, and from the fourth on none. -/
theorem takeFields_progress (hhost : ':' ∉ host ∧ '#' ∉ host) (hport : '#' ∉ port)
    (hca : '#' ∉ ca) (hcert : '#' ∉ cert) {iter start endPos : ℕ} {fields : Fields}
    (hprogress : Progress host port ca cert key iter start fields)
    (hfind : find '#' (specification host port ca cert key) start = some endPos)
    (hend : endPos + 1 < 2 ^ 32) :
    ∃ fields', takeFields (specification host port ca cert key) start endPos iter fields =
        .ok fields' ∧
      Progress host port ca cert key (iter + 1) (endPos + 1) fields' := by
  cases hprogress with
  | first =>
    have hshape : specification host port ca cert key =
        [] ++ (host ++ ':' :: port) ++ '#' :: (ca ++ '#' :: cert ++ '#' :: key) := by
      simp [specification]
    rw [hshape] at hfind ⊢
    have hpiece : '#' ∉ host ++ ':' :: port := by simp [hhost.2, hport]
    obtain ⟨hpos, hnext, _⟩ := end_of_piece hpiece hfind
    rw [List.length_nil, Nat.zero_add] at hpos
    have hlen : host.length < npos := by
      rw [hpos, List.length_append] at hend
      unfold npos
      omega
    rw [hnext, hpos, List.nil_append]
    exact ⟨_, takeFields_address hhost.1 hlen _, .address⟩
  | address =>
    have hshape : specification host port ca cert key =
        (host ++ ':' :: port ++ ['#']) ++ ca ++ '#' :: (cert ++ '#' :: key) := by
      simp [specification]
    rw [hshape] at hfind ⊢
    obtain ⟨_, hnext, hcut⟩ := end_of_piece hca hfind
    refine ⟨{ mHost := host, mPort := port, mCACert := ca }, ?_, ?_⟩
    · rw [takeFields, if_neg (by decide), if_pos rfl, hcut, ok_bind]
    · have hstart : endPos + 1 = (host ++ ':' :: port ++ '#' :: ca ++ ['#']).length := by
        rw [hnext]
        simp
      rw [hstart]
      exact .authority
  | authority =>
    have hshape : specification host port ca cert key =
        (host ++ ':' :: port ++ '#' :: ca ++ ['#']) ++ cert ++ '#' :: key := by
      simp [specification]
    rw [hshape] at hfind ⊢
    obtain ⟨_, hnext, hcut⟩ := end_of_piece hcert hfind
    refine ⟨{ mHost := host, mPort := port, mCACert := ca, mCert := cert, mKey := key }, ?_,
      .complete (Nat.le_refl 3) _⟩
    rw [takeFields, if_neg (by decide), if_neg (by decide), if_pos rfl, hcut, ok_bind,
      rest_of_piece hnext, ok_bind]
  | complete hiter =>
    refine ⟨_, ?_, .complete (Nat.le_succ_of_le hiter) _⟩
    rw [takeFields, if_neg (by omega), if_neg (by omega), if_neg (by omega)]

/-- At the head of a round: its end is the next delimiter, and every delimiter
that is passed has been counted. -/
structure Scanning (host port ca cert key : List Char) (s : Scan) : Prop where
  endPos_eq : s.endPos = find '#' (specification host port ca cert key) s.start
  counted : s.iter + ((specification host port ca cert key).drop s.start).count '#' =
    (specification host port ca cert key).count '#'
  progress : Progress host port ca cert key s.iter s.start s.fields

/-- Every position behind a delimiter fits the 32 bits of `start`, and the number
of delimiters fits an `int`. -/
structure Countable (hosts : List Char) : Prop where
  count_lt : hosts.count '#' < 2 ^ 31
  position : ∀ q, 2 ^ 32 - 1 ≤ q → hosts[q]? ≠ some '#'

theorem parseRound_spec (hhost : ':' ∉ host ∧ '#' ∉ host) (hport : '#' ∉ port) (hca : '#' ∉ ca)
    (hcert : '#' ∉ cert) (hcountable : Countable (specification host port ca cert key)) {s : Scan}
    (hs : Scanning host port ca cert key s) (hend : s.endPos.isSome = true) :
    ∃ s', parseRound (specification host port ca cert key) s = .ok s' ∧
      Scanning host port ca cert key s' ∧
      ((specification host port ca cert key).drop s'.start).count '#' <
        ((specification host port ca cert key).drop s.start).count '#' := by
  obtain ⟨endPos, hend⟩ := Option.isSome_iff_exists.mp hend
  have hfind : find '#' (specification host port ca cert key) s.start = some endPos := by
    rw [← hs.endPos_eq, hend]
  have hcount := count_of_find hfind
  have hcounted := hs.counted
  have hfew := hcountable.count_lt
  have hnear : endPos + 1 < 2 ^ 32 := by
    by_contra hfar
    exact hcountable.position endPos (by omega) (getElem?_of_find hfind)
  obtain ⟨fields, htake, hprogress⟩ :=
    takeFields_progress hhost hport hca hcert hs.progress hfind hnear
  have hstart : u32 (endPos + 1) = endPos + 1 := u32_of_lt hnear
  refine ⟨⟨endPos + 1, find '#' (specification host port ca cert key) (endPos + 1), s.iter + 1,
    fields⟩, ?_, ⟨rfl, ?_, hprogress⟩, ?_⟩
  · rw [parseRound, hend]
    simp only [htake, ok_bind, increment, if_pos (show s.iter < 2 ^ 31 - 1 by omega), hstart]
  · show s.iter + 1 + ((specification host port ca cert key).drop (endPos + 1)).count '#' = _
    omega
  · show ((specification host port ca cert key).drop (endPos + 1)).count '#' < _
    omega

theorem three_le_count : 3 ≤ (specification host port ca cert key).count '#' := by
  simp only [specification, List.count_append, List.count_cons_self]
  omega

theorem parse_countable (hhost : ':' ∉ host ∧ '#' ∉ host) (hport : '#' ∉ port)
    (hca : '#' ∉ ca) (hcert : '#' ∉ cert)
    (hserver : (specification host port ca cert key).takeWhile (fun c => c ≠ '\x00') ≠ ['0'])
    (hcountable : Countable (specification host port ca cert key)) {fuel : ℕ}
    (hfuel : (specification host port ca cert key).count '#' ≤ fuel) :
    parseTlsHosts fuel (specification host port ca cert key) = .ok
      { mHost := host
        mPort := port
        mCACert := ca
        mCert := cert
        mKey := key
        mConnection := if ca = [] then .TCP else .TLS } := by
  have hstart : Scanning host port ca cert key
      { start := 0, endPos := find '#' (specification host port ca cert key) 0, iter := 0,
        fields := {} } :=
    ⟨rfl, by rw [List.drop_zero, Nat.zero_add], .first⟩
  obtain ⟨s, hrun, hs, hexit⟩ := whileLoop_of_variant (Scanning host port ca cert key)
    (fun s => ((specification host port ca cert key).drop s.start).count '#')
    (fun s hs hend => parseRound_spec hhost hport hca hcert hcountable hs hend) fuel _ hstart hfuel
  have hnone : find '#' (specification host port ca cert key) s.start = none := by
    rw [← hs.endPos_eq]
    exact Option.not_isSome_iff_eq_none.mp (by simp [hexit])
  -- no delimiter is left, so at least three rounds were made
  have hiter : 3 ≤ s.iter := by
    have hleft := List.count_eq_zero_of_not_mem (find_eq_none.mp hnone)
    have hcounted := hs.counted
    have hthree := @three_le_count host port ca cert key
    omega
  have hfields : s.fields =
      { mHost := host, mPort := port, mCACert := ca, mCert := cert, mKey := key } := by
    obtain ⟨start, endPos, iter, fields⟩ := s
    cases hs.progress with
    | first => exact absurd hiter (by simp)
    | address => exact absurd hiter (by simp)
    | authority => exact absurd hiter (by simp)
    | complete => rfl
  rw [parseTlsHosts, if_pos hserver, hrun, ok_bind, hfields]
  simp only [List.length_eq_zero_iff]

/-- An argument of a command line: no zero is in it, and an `int` holds its length. -/
structure Argument (text : List Char) : Prop where
  no_zero : '\x00' ∉ text
  length_lt : text.length < 2 ^ 31

theorem Argument.countable {text : List Char} (h : Argument text) : Countable text := by
  refine ⟨Nat.lt_of_le_of_lt List.count_le_length h.length_lt, ?_⟩
  intro q hq
  have hlength := h.length_lt
  rw [List.getElem?_eq_none (by omega)]
  exact (Option.some_ne_none _).symm

/-- The five fields are recovered, and TLS is chosen for a CA path that is not
empty. -/
theorem parse_specification (hhost : ':' ∉ host ∧ '#' ∉ host) (hport : '#' ∉ port)
    (hca : '#' ∉ ca) (hcert : '#' ∉ cert) (hargument : Argument (specification host port ca cert key))
    {fuel : ℕ} (hfuel : (specification host port ca cert key).count '#' ≤ fuel) :
    parseTlsHosts fuel (specification host port ca cert key) = .ok
      { mHost := host
        mPort := port
        mCACert := ca
        mCert := cert
        mKey := key
        mConnection := if ca = [] then .TCP else .TLS } := by
  refine parse_countable hhost hport hca hcert ?_ hargument.countable hfuel
  -- without a zero the whole text is compared, and it has a delimiter
  have hwhole : (specification host port ca cert key).takeWhile (fun c => c ≠ '\x00') =
      specification host port ca cert key := by
    rw [List.takeWhile_eq_self_iff]
    intro c hc
    exact decide_eq_true (ne_of_mem_of_not_mem hc hargument.no_zero)
  rw [hwhole]
  intro hzero
  have hdelimiter : ':' ∈ specification host port ca cert key := by simp [specification]
  rw [hzero] at hdelimiter
  exact absurd hdelimiter (by decide)

theorem parse_specification_hash_in_key :
    parseTlsHosts 4 (specification "a.b".toList "80".toList [] [] "k#1".toList) = .ok
      { mHost := "a.b".toList
        mPort := "80".toList
        mCACert := []
        mCert := []
        mKey := "k#1".toList
        mConnection := if ([] : List Char) = [] then .TCP else .TLS } :=
  parse_specification (by decide) (by decide) (by decide) (by decide)
    ⟨by decide, by decide⟩ (by decide)

end Rounds

/-- A delimiter from the last 32-bit position on is always still ahead. -/
theorem parse_never_returns {hosts : List Char} {q : ℕ} (hq : 2 ^ 32 - 1 ≤ q)
    (hget : hosts[q]? = some '#') (fuel : ℕ) (server : Server) :
    parseTlsHosts fuel hosts ≠ .ok server := by
  have hahead : ∀ start, start ≤ q → (find '#' hosts start).isSome = true := by
    intro start hle
    rw [Option.isSome_iff_ne_none]
    intro hnone
    refine find_eq_none.mp hnone (List.mem_of_getElem? (i := q - start) ?_)
    rw [List.getElem?_drop, Nat.add_sub_cancel' hle, hget]
  intro hparse
  unfold parseTlsHosts at hparse
  split at hparse
  · obtain ⟨s, hrun, _⟩ := bind_eq_ok.mp hparse
    have hround : ∀ s s', s.endPos.isSome = true → s.endPos.isSome = true →
        parseRound hosts s = .ok s' → s'.endPos.isSome = true := by
      intro s s' hs _ hstep
      obtain ⟨endPos, hend⟩ := Option.isSome_iff_exists.mp hs
      rw [parseRound, hend] at hstep
      obtain ⟨fields, _, hstep⟩ := bind_eq_ok.mp hstep
      obtain ⟨iter, _, hstep⟩ := bind_eq_ok.mp hstep
      obtain rfl := Except.ok.inj hstep
      refine hahead _ ?_
      have hword : u32 (endPos + 1) < 2 ^ 32 := Nat.mod_lt _ (by decide)
      omega
    have hexit := whileLoop_inv (fun s : Scan => s.endPos.isSome = true) hround
      (hahead 0 (Nat.zero_le q)) hrun
    exact absurd (hexit.1.symm.trans hexit.2) (by decide)
  · exact absurd hparse (by simp)

end EsSensor.ServerSpecification
