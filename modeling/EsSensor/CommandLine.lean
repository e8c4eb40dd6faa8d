import EsSensor.SegmentOverlap

/-!
The options of the command line. What a set of options asks for can be said
without an order; reading them one by one gives the same configuration as long
as the segment overlap is checked alike before and after a new FFT size.
-/
namespace EsSensor.CommandLine

open FloatRounding MachineWord GuardedRun Settings

/-- The conversions of the C library, and that of a double to a float. -/
structure Libc where
  atoi : String → ℤ
  atol : String → ℤ
  atoll : String → ℤ
  atof : String → ℚ
  toFloat : ℚ → ℚ

/-- `atol` of digits. -/
def decimal (s : String) : ℤ :=
  (s.toList.takeWhile Char.isDigit).foldl (fun n c => 10 * n + (c.toNat - '0'.toNat : ℕ)) 0

/-- The conversions as they are for arguments that consist of digits. -/
def Libc.ofDigits : Libc where
  atoi := decimal
  atol := decimal
  atoll := decimal
  atof optarg := binary64.round (decimal optarg)
  toFloat := binary32.round

/-- What `getopt` reports. -/
structure Opt where
  opt : Char
  optarg : String
  deriving DecidableEq

/-- The switch of `parse_args`; `none` is `usage`, which ends the program. -/
def call (libc : Libc) (o : Opt) : Option SetterCall :=
  match o.opt with
  | 'h' => none
  | 'd' => some (.setDevIndex (libc.atoi o.optarg))
  | 'c' => some (.setClkOff (libc.atoi o.optarg))
  | 'z' => some (.setPipeline o.optarg)
  | 'k' => some (.setClkCorrPerior (word (libc.atoi o.optarg)))
  | 'g' =>
    if libc.atof o.optarg < -1 then none
    else some (.setGain (libc.toFloat (libc.atof o.optarg)))
  | 'y' => some (.setHoppingStrategy o.optarg)
  | 's' => some (.setSamplingRate (word (libc.atol o.optarg)))
  | 'f' => some (.setLog2FftSize (word (libc.atol o.optarg)))
  | 'b' => some (.setFFTbatchlen (word (libc.atol o.optarg)))
  | 'a' => some (.setAvgFactor (word (libc.atol o.optarg)))
  | 'o' => some (.setSoverlap (word (libc.atol o.optarg)))
  | 'q' => some (.setFreqOverlap (libc.toFloat (libc.atof o.optarg)))
  | 't' => some (.setMonitorTime (word (libc.atol o.optarg)))
  | 'r' => some (.setMinTimeRes (word (libc.atol o.optarg)))
  | 'w' => some (.setWindowing o.optarg)
  | 'l' => some (.setComprLevel (word (libc.atol o.optarg)))
  | 'm' => some (.setTcpHosts o.optarg)
  | 'n' => some (.setTlsHosts o.optarg)
  | 'p' => some (.setFifoPriority true)
  | 'u' => some (.setOutputFileName o.optarg)
  | 'x' => some (.setStartTimeSampling (word (libc.atol o.optarg)))
  | _ => none

def applyOpt (libc : Libc) (shifter : Shifter) (o : Opt) (s : Settings) : Option Settings :=
  (call libc o).bind (fun c => c.apply shifter s)

/-- The options, and then the two operands. -/
def parseArgs (libc : Libc) (shifter : Shifter) (opts : List Opt) (operands : List String)
    (s : Settings) : Option Settings :=
  (run (applyOpt libc shifter) opts s).bind fun s =>
    match operands with
    | [minFreq, maxFreq] =>
      some { s with
        minFreq := word64 (libc.atoll minFreq), maxFreq := word64 (libc.atoll maxFreq) }
    | _ => none

/-- The argument of the option with this letter. -/
def given (opts : List Opt) (letter : Char) : Option String :=
  (opts.find? (fun o => o.opt = letter)).map Opt.optarg

/-- The configuration that the given options ask for, in no order. -/
def configured (libc : Libc) (shifter : Shifter) (given : Char → Option String)
    (s : Settings) : Settings :=
  let number (letter : Char) (default : ℕ) : ℕ :=
    (given letter).elim default (fun optarg => word (libc.atol optarg))
  let written := ((given 'u').bind s.setOutputFileName).getD s
  { s with
    devIndex := (given 'd').elim s.devIndex libc.atoi
    clkOff := (given 'c').elim s.clkOff libc.atoi
    pipeline := (given 'z').getD s.pipeline
    clkCorrPerior := (given 'k').elim s.clkCorrPerior (fun optarg => word (libc.atoi optarg))
    gain := (given 'g').elim s.gain (fun optarg => libc.toFloat (libc.atof optarg))
    hoppingStrategy := (given 'y').getD s.hoppingStrategy
    hoppingStrategyId :=
      (given 'y').elim s.hoppingStrategyId (fun y => (s.setHoppingStrategy y).hoppingStrategyId)
    samplingRate := number 's' s.samplingRate
    log2FftSize := number 'f' s.log2FftSize
    fftBatchlen := number 'b' s.fftBatchlen
    avgFactor :=
      (given 'a').elim s.avgFactor (fun a => (s.setAvgFactor (word (libc.atol a))).avgFactor)
    soverlap :=
      (given 'o').elim s.soverlap
        (fun o => clampSoverlap shifter (number 'f' s.log2FftSize) (word (libc.atol o)))
    freqOverlap := (given 'q').elim s.freqOverlap (fun q => libc.toFloat (libc.atof q))
    monitorTime := number 't' s.monitorTime
    minTimeRes := number 'r' s.minTimeRes
    windowing := (given 'w').getD s.windowing
    windowingId := (given 'w').elim s.windowingId (fun w => (s.setWindowing w).windowingId)
    comprLevel :=
      (given 'l').elim s.comprLevel (fun l => (s.setComprLevel (word (libc.atol l))).comprLevel)
    tcpHost := (given 'm').getD s.tcpHost
    tlsHost := (given 'n').getD s.tlsHost
    fifoPriority := (given 'p').elim s.fifoPriority (fun _ => true)
    outputType := written.outputType
    outputFileName := written.outputFileName
    startTimeSampling := number 'x' s.startTimeSampling }

/-- The overlap is checked alike against the size at the start and against a
size that is given. -/
def SameClamp (libc : Libc) (shifter : Shifter) (given : Char → Option String)
    (s : Settings) : Prop :=
  ∀ f o, given 'f' = some f → given 'o' = some o →
    clampSoverlap shifter (word (libc.atol f)) (word (libc.atol o)) =
      clampSoverlap shifter s.log2FftSize (word (libc.atol o))

section Lookup

variable {opts opts' : List Opt}

theorem given_eq_some_iff (hnodup : (opts.map Opt.opt).Nodup) (letter : Char) (optarg : String) :
    given opts letter = some optarg ↔ ⟨letter, optarg⟩ ∈ opts := by
  induction opts with
  | nil => simp [given]
  | cons o rest ih =>
    rw [List.map_cons, List.nodup_cons] at hnodup
    by_cases hletter : o.opt = letter
    · subst hletter
      have hnot : ⟨o.opt, optarg⟩ ∉ rest := by
        intro hmem
        exact hnodup.1 (List.mem_map.mpr ⟨_, hmem, rfl⟩)
      have hgiven : given (o :: rest) o.opt = some o.optarg := by simp [given]
      rw [hgiven, List.mem_cons, or_iff_left hnot, Option.some.injEq]
      constructor
      · rintro rfl
        rfl
      · intro heq
        rw [← heq]
    · have hgiven : given (o :: rest) letter = given rest letter := by simp [given, hletter]
      rw [hgiven, ih hnodup.2, List.mem_cons]
      constructor
      · exact Or.inr
      · rintro (heq | hmem)
        · exact absurd (congrArg Opt.opt heq).symm hletter
        · exact hmem

theorem given_perm (hperm : opts'.Perm opts) (hnodup : (opts.map Opt.opt).Nodup) :
    given opts' = given opts := by
  have hnodup' := (hperm.map Opt.opt).nodup_iff.mpr hnodup
  funext letter
  ext optarg
  rw [given_eq_some_iff hnodup', given_eq_some_iff hnodup, hperm.mem_iff]

theorem given_append_singleton (o : Opt) (hnew : given opts o.opt = none) :
    given (opts ++ [o]) = Function.update (given opts) o.opt (some o.optarg) := by
  funext letter
  by_cases hletter : letter = o.opt
  · subst hletter
    have hfind : opts.find? (fun p => p.opt = o.opt) = none := Option.map_eq_none_iff.mp hnew
    simp [given, List.find?_append, hfind]
  · have hother : ¬ o.opt = letter := Ne.symm hletter
    simp [given, List.find?_append, Function.update_of_ne hletter, hother]

/-- Used as a rewrite: the kernel would unfold the arithmetic of words on both
sides before it reduced the option. -/
theorem update_elim_self (given : Char → Option String) (letter : Char) (optarg : String) (d : ℕ)
    (f : String → ℕ) :
    (Function.update given letter (some optarg) letter).elim d f = f optarg := by
  rw [Function.update_self, Option.elim_some]

end Lookup

section Order

variable {libc : Libc} {shifter : Shifter}

/-- An overlap that was given before is now checked against the new size. -/
theorem configured_newSize {given : Char → Option String} {s : Settings} {optarg : String}
    (hnew : given 'f' = none)
    (hsame : SameClamp libc shifter (Function.update given 'f' (some optarg)) s) :
    { configured libc shifter given s with log2FftSize := word (libc.atol optarg) } =
      configured libc shifter (Function.update given 'f' (some optarg)) s := by
  have hother : ∀ letter, letter ≠ 'f' →
      Function.update given 'f' (some optarg) letter = given letter :=
    fun letter hne => Function.update_of_ne hne _ _
  have hold : ∀ (d : ℕ) (f : String → ℕ), (given 'f').elim d f = d := by
    intro d f
    rw [hnew, Option.elim_none]
  have hoverlap : (given 'o').elim s.soverlap
      (fun o => clampSoverlap shifter (word (libc.atol optarg)) (word (libc.atol o))) =
      (given 'o').elim s.soverlap
        (fun o => clampSoverlap shifter s.log2FftSize (word (libc.atol o))) := by
    cases ho : given 'o' with
    | none => rw [Option.elim_none, Option.elim_none]
    | some v =>
      have hgiven : Function.update given 'f' (some optarg) 'o' = some v := by
        rw [hother 'o' (by decide), ho]
      rw [Option.elim_some, Option.elim_some]
      exact hsame optarg v (Function.update_self _ _ _) hgiven
  unfold configured
  simp only [update_elim_self, hother, hold, hoverlap, ne_eq, Char.reduceEq, not_false_eq_true]

theorem configured_newOverlap (given : Char → Option String) (s : Settings) (optarg : String) :
    (configured libc shifter given s).setSoverlap shifter (word (libc.atol optarg)) =
      configured libc shifter (Function.update given 'o' (some optarg)) s := by
  have hother : ∀ letter, letter ≠ 'o' →
      Function.update given 'o' (some optarg) letter = given letter :=
    fun letter hne => Function.update_of_ne hne _ _
  unfold configured setSoverlap
  simp only [update_elim_self, hother, ne_eq, Char.reduceEq, not_false_eq_true]

/-- One more option: the configuration is that of the options with this one. -/
theorem applyOpt_configured {given : Char → Option String} {o : Opt} {s s' : Settings}
    (hnew : given o.opt = none)
    (hsame : SameClamp libc shifter (Function.update given o.opt (some o.optarg)) s)
    (h : applyOpt libc shifter o (configured libc shifter given s) = some s') :
    s' = configured libc shifter (Function.update given o.opt (some o.optarg)) s := by
  obtain ⟨opt, optarg⟩ := o
  unfold applyOpt call at h
  dsimp only at h hnew hsame ⊢
  split at h
  case h_1 | h_23 => exact absurd h (by simp)
  case h_6 =>
    split at h
    · exact absurd h (by simp)
    · obtain rfl := Option.some.inj h
      simp [configured, Function.update, hnew]
  case h_9 =>
    obtain rfl := Option.some.inj h
    exact configured_newSize hnew hsame
  case h_12 =>
    obtain rfl := Option.some.inj h
    exact configured_newOverlap given s optarg
  case h_21 =>
    obtain ⟨hempty, rfl⟩ | ⟨type, name, rfl, hsets⟩ := setOutputFileName_cases h
    · simp [configured, Function.update, hnew, hempty, setOutputFileName]
    · simp [configured, Function.update, hnew, hsets]
  all_goals
    obtain rfl := Option.some.inj h
    simp [configured, Function.update, hnew, setAvgFactor, setComprLevel, setHoppingStrategy,
      setWindowing]

/-- Options that are accepted, in this order, give what they ask for. -/
theorem run_configured {opts : List Opt} {s s' : Settings} (hnodup : (opts.map Opt.opt).Nodup)
    (hsame : SameClamp libc shifter (given opts) s)
    (hrun : run (applyOpt libc shifter) opts s = some s') :
    s' = configured libc shifter (given opts) s := by
  induction opts using List.reverseRecOn generalizing s' with
  | nil =>
    obtain rfl := Option.some.inj hrun
    rfl
  | append_singleton opts o ih =>
    rw [run_append] at hrun
    obtain ⟨t, hfirst, hlast⟩ := Option.bind_eq_some_iff.mp hrun
    have happly : applyOpt libc shifter o t = some s' := by
      simpa [Option.bind_eq_some_iff] using hlast
    rw [List.map_append, List.nodup_append] at hnodup
    obtain ⟨hfront, _, hdisjoint⟩ := hnodup
    have hnew : given opts o.opt = none := by
      cases hgiven : given opts o.opt with
      | none => rfl
      | some optarg =>
        have hmem := (given_eq_some_iff hfront o.opt optarg).mp hgiven
        exact absurd rfl (hdisjoint _ (List.mem_map.mpr ⟨_, hmem, rfl⟩) _ (by simp))
    rw [given_append_singleton o hnew] at hsame ⊢
    have hsameFront : SameClamp libc shifter (given opts) s := by
      have hkept : ∀ letter optarg, given opts letter = some optarg →
          Function.update (given opts) o.opt (some o.optarg) letter = some optarg := by
        intro letter optarg hgiven
        have hne : letter ≠ o.opt := by
          rintro rfl
          rw [hnew] at hgiven
          exact absurd hgiven (by simp)
        rw [Function.update_of_ne hne, hgiven]
      intro f v hf hv
      exact hsame f v (hkept 'f' f hf) (hkept 'o' v hv)
    obtain rfl := ih hfront hsameFront hfirst
    exact applyOpt_configured hnew hsame happly

theorem apply_isSome (c : SetterCall) (s t : Settings) :
    (c.apply shifter s).isSome → (c.apply shifter t).isSome := by
  intro hsome
  cases c with
  | setOutputFileName fileName =>
    obtain ⟨s', hs'⟩ := Option.isSome_iff_exists.mp hsome
    obtain ⟨rfl, _⟩ | ⟨type, name, _, hsets⟩ := setOutputFileName_cases hs'
    · simp [SetterCall.apply, setOutputFileName]
    · simp [SetterCall.apply, hsets]
  | _ => rfl

/-- Whether an option is accepted does not depend on the options before it. -/
theorem applyOpt_isSome (o : Opt) (s t : Settings) :
    (applyOpt libc shifter o s).isSome = (applyOpt libc shifter o t).isSome := by
  unfold applyOpt
  cases call libc o with
  | none => rfl
  | some c =>
    rw [Option.bind_some, Option.bind_some, Bool.eq_iff_iff]
    exact ⟨apply_isSome c s t, apply_isSome c t s⟩

theorem run_isSome_perm {opts opts' : List Opt} (hperm : opts'.Perm opts) (s : Settings) :
    (run (applyOpt libc shifter) opts' s).isSome ↔ (run (applyOpt libc shifter) opts s).isSome := by
  rw [run_isSome_iff applyOpt_isSome, run_isSome_iff applyOpt_isSome]
  simp only [hperm.mem_iff]

theorem applyOpt_soverlap {o : Opt} (ho : o.opt ≠ 'o') {s s' : Settings}
    (h : applyOpt libc shifter o s = some s') : s'.soverlap = s.soverlap := by
  obtain ⟨c, hcall, happly⟩ := Option.bind_eq_some_iff.mp h
  rw [SegmentOverlap.apply_overlap happly]
  unfold call at hcall
  split at hcall
  case h_1 | h_23 => exact absurd hcall (by simp)
  case h_6 =>
    split at hcall
    · exact absurd hcall (by simp)
    · obtain rfl := Option.some.inj hcall
      rfl
  case h_12 heq => exact absurd heq ho
  all_goals
    obtain rfl := Option.some.inj hcall
    rfl

/-- Two checks store the same overlap when both let it pass or the sizes agree. -/
theorem clampSoverlap_eq_iff {k v : ℕ} (hv : v < 2 ^ 32) :
    clampSoverlap shifter k v = clampSoverlap shifter 8 v ↔
      shifter.count k = 8 ∨ (v < 256 ∧ v < 2 ^ shifter.count k) := by
  rw [clampSoverlap_of_lt shifter (by decide : 8 < 31)]
  rcases lt_trichotomy (shifter.count k) 31 with hcount | hcount | hcount
  · rw [clampSoverlap_of_count_lt shifter hcount]
    have height : shifter.count k = 8 ↔ 2 ^ shifter.count k = 2 ^ 8 :=
      (Nat.pow_right_injective (le_refl 2)).eq_iff.symm
    have hpos : 1 ≤ 2 ^ shifter.count k := Nat.one_le_two_pow
    have heven : 2 ^ shifter.count k = 1 ∨ 2 ^ shifter.count k % 2 = 0 := by
      rcases Nat.eq_zero_or_pos (shifter.count k) with hzero | hpositive
      · exact Or.inl (by rw [hzero, pow_zero])
      · exact Or.inr (Nat.mod_eq_zero_of_dvd (dvd_pow_self 2 (by omega)))
    rw [height]
    generalize 2 ^ shifter.count k = n at hpos heven ⊢
    split <;> split <;> omega
  · have hone : shifter.one k = -2 ^ 31 := by
      rw [Shifter.one, hcount]
      decide
    have hlimit : u32Sub (word (-2 ^ 31)) 1 = 2 ^ 31 - 1 := by decide
    have hhalf : word ((-2 ^ 31 : ℤ).tdiv 2) = 3 * 2 ^ 30 := by decide
    rw [clampSoverlap, hone, hlimit, hhalf, hcount]
    split <;> split <;> omega
  · have hlimit : u32Sub (word 0) 1 = 2 ^ 32 - 1 := by decide
    have hpow : 2 ^ 32 ≤ 2 ^ shifter.count k := Nat.pow_le_pow_right (by decide) hcount
    rw [clampSoverlap, shifter.one_of_le_count hcount, hlimit]
    split <;> split <;> omega

/-- The size and the overlap that are given do not interfere: the size is the
one that the constructor has set, or the overlap is below both sizes. -/
def OverlapFits (libc : Libc) (shifter : Shifter) (opts : List Opt) : Prop :=
  ∀ f o, ⟨'f', f⟩ ∈ opts → ⟨'o', o⟩ ∈ opts →
    shifter.count (word (libc.atol f)) = 8 ∨
      (word (libc.atol o) < 256 ∧ word (libc.atol o) < 2 ^ shifter.count (word (libc.atol f)))

theorem sameClamp_iff {opts : List Opt} (hnodup : (opts.map Opt.opt).Nodup) {s : Settings}
    (hsize : s.log2FftSize = 8) :
    SameClamp libc shifter (given opts) s ↔ OverlapFits libc shifter opts := by
  unfold SameClamp OverlapFits
  simp only [given_eq_some_iff hnodup, hsize, clampSoverlap_eq_iff (word_lt _)]

theorem parseArgs_eq_some {opts : List Opt} {operands : List String} {s s' : Settings} :
    parseArgs libc shifter opts operands s = some s' ↔
      ∃ t minFreq maxFreq, run (applyOpt libc shifter) opts s = some t ∧
        operands = [minFreq, maxFreq] ∧
        s' = { t with
          minFreq := word64 (libc.atoll minFreq), maxFreq := word64 (libc.atoll maxFreq) } := by
  unfold parseArgs
  rw [Option.bind_eq_some_iff]
  constructor
  · rintro ⟨t, hrun, hoperands⟩
    split at hoperands
    · rename_i minFreq maxFreq
      exact ⟨t, minFreq, maxFreq, hrun, rfl, (Option.some.inj hoperands).symm⟩
    · exact absurd hoperands (by simp)
  · rintro ⟨t, minFreq, maxFreq, hrun, rfl, rfl⟩
    exact ⟨t, hrun, rfl⟩

theorem applyOpt_size {f : String} {s s' : Settings}
    (h : applyOpt libc shifter ⟨'f', f⟩ s = some s') :
    s'.log2FftSize = word (libc.atol f) ∧ s'.soverlap = s.soverlap := by
  have happly : (SetterCall.setLog2FftSize (word (libc.atol f))).apply shifter s = some s' := h
  exact ⟨SegmentOverlap.apply_size happly, SegmentOverlap.apply_overlap happly⟩

theorem applyOpt_overlap {v : String} {s s' : Settings}
    (h : applyOpt libc shifter ⟨'o', v⟩ s = some s') :
    s'.soverlap = clampSoverlap shifter s.log2FftSize (word (libc.atol v)) := by
  have happly : (SetterCall.setSoverlap (word (libc.atol v))).apply shifter s = some s' := h
  exact SegmentOverlap.apply_overlap happly

/-- Orders that start with the size and the overlap, either way round. -/
theorem sameClamp_of_orders {opts : List Opt} (hnodup : (opts.map Opt.opt).Nodup) {s : Settings}
    (haccepted : (run (applyOpt libc shifter) opts s).isSome)
    (horders : ∀ opts₁ opts₂ t₁ t₂, opts₁.Perm opts → opts₂.Perm opts →
      run (applyOpt libc shifter) opts₁ s = some t₁ →
      run (applyOpt libc shifter) opts₂ s = some t₂ → t₁.soverlap = t₂.soverlap) :
    SameClamp libc shifter (given opts) s := by
  intro f v hf hv
  rw [given_eq_some_iff hnodup] at hf hv
  obtain ⟨rest, hperm⟩ : ∃ rest, (⟨'f', f⟩ :: ⟨'o', v⟩ :: rest : List Opt).Perm opts := by
    have hv' : (⟨'o', v⟩ : Opt) ∈ opts.erase ⟨'f', f⟩ :=
      (List.mem_erase_of_ne (by simp)).mpr hv
    exact ⟨_, ((List.perm_cons_erase hf).trans ((List.perm_cons_erase hv').cons _)).symm⟩
  have hswap := (List.Perm.swap _ _ _).trans hperm
  have hrest : ∀ o ∈ rest, o.opt ≠ 'o' := by
    have hnodup' := (hperm.map Opt.opt).nodup_iff.mpr hnodup
    simp only [List.map_cons, List.nodup_cons] at hnodup'
    intro o ho hletter
    exact hnodup'.2.1 (List.mem_map.mpr ⟨o, ho, hletter⟩)
  have hkeeps : ∀ {t t' : Settings}, run (applyOpt libc shifter) rest t = some t' →
      t'.soverlap = t.soverlap :=
    fun hrun => run_keeps (fun o ho _ _ => applyOpt_soverlap (hrest o ho)) hrun
  obtain ⟨t₁, hrun₁⟩ := Option.isSome_iff_exists.mp ((run_isSome_perm hperm s).mpr haccepted)
  obtain ⟨t₂, hrun₂⟩ := Option.isSome_iff_exists.mp ((run_isSome_perm hswap s).mpr haccepted)
  have heq := horders _ _ t₁ t₂ hperm hswap hrun₁ hrun₂
  obtain ⟨a₁, hsize₁, hrun₁⟩ := Option.bind_eq_some_iff.mp hrun₁
  obtain ⟨b₁, hoverlap₁, hrun₁⟩ := Option.bind_eq_some_iff.mp hrun₁
  obtain ⟨a₂, hoverlap₂, hrun₂⟩ := Option.bind_eq_some_iff.mp hrun₂
  obtain ⟨b₂, hsize₂, hrun₂⟩ := Option.bind_eq_some_iff.mp hrun₂
  rw [hkeeps hrun₁, hkeeps hrun₂, applyOpt_overlap hoverlap₁, (applyOpt_size hsize₁).1,
    (applyOpt_size hsize₂).2, applyOpt_overlap hoverlap₂] at heq
  exact heq

/-- Options given once each give the same configuration in every order exactly
when the size and the overlap do not interfere. -/
theorem order_irrelevant_iff (libc : Libc) (shifter : Shifter) (memory : Settings)
    (opts : List Opt) (operands : List String) {s s' : Settings}
    (hnodup : (opts.map Opt.opt).Nodup) (hs : construct shifter memory = some s)
    (haccepted : parseArgs libc shifter opts operands s = some s') :
    (∀ opts₁ opts₂, opts₁.Perm opts → opts₂.Perm opts →
      parseArgs libc shifter opts₁ operands s = parseArgs libc shifter opts₂ operands s) ↔
      OverlapFits libc shifter opts := by
  have hsize : s.log2FftSize = 8 := by
    rw [construct_eq] at hs
    obtain rfl := Option.some.inj hs
    rfl
  obtain ⟨t, minFreq, maxFreq, hrun, rfl, _⟩ := parseArgs_eq_some.mp haccepted
  have hsome : (run (applyOpt libc shifter) opts s).isSome := by rw [hrun, Option.isSome_some]
  rw [← sameClamp_iff hnodup hsize]
  constructor
  · intro hall
    refine sameClamp_of_orders hnodup hsome ?_
    intro opts₁ opts₂ t₁ t₂ hperm₁ hperm₂ hrun₁ hrun₂
    have heq := hall opts₁ opts₂ hperm₁ hperm₂
    rw [parseArgs, parseArgs, hrun₁, hrun₂] at heq
    have hsame := Option.some.inj heq
    have hoverlap := congrArg (fun r : Settings => r.soverlap) hsame
    exact hoverlap
  · intro hsame opts₁ opts₂ hperm₁ hperm₂
    have hresult : ∀ opts', opts'.Perm opts →
        run (applyOpt libc shifter) opts' s = some (configured libc shifter (given opts) s) := by
      intro opts' hperm
      obtain ⟨t', hrun'⟩ := Option.isSome_iff_exists.mp ((run_isSome_perm hperm s).mpr hsome)
      have hgiven := given_perm hperm hnodup
      have hnodup' := (hperm.map Opt.opt).nodup_iff.mpr hnodup
      rw [hrun', run_configured hnodup' (hgiven ▸ hsame) hrun', hgiven]
    rw [parseArgs, parseArgs, hresult opts₁ hperm₁, hresult opts₂ hperm₂]

theorem order_irrelevant_iff_small_overlap :
    parseArgs .ofDigits default [⟨'f', "9"⟩, ⟨'o', "100"⟩] ["1", "2"] (initial default) =
      parseArgs .ofDigits default [⟨'o', "100"⟩, ⟨'f', "9"⟩] ["1", "2"] (initial default) := by
  have haccepted : (parseArgs .ofDigits default [⟨'f', "9"⟩, ⟨'o', "100"⟩] ["1", "2"]
      (initial default)).isSome := by decide +kernel
  refine (order_irrelevant_iff .ofDigits default default [⟨'f', "9"⟩, ⟨'o', "100"⟩] ["1", "2"]
    (by decide) (construct_eq default default) (Option.some_get haccepted).symm).mpr ?_ _ _
    (List.Perm.refl _) (List.Perm.swap _ _ _)
  intro f o hf ho
  have hf' : f = "9" := by simpa using hf
  have ho' : o = "100" := by simpa using ho
  subst hf' ho'
  exact Or.inr (by decide +kernel)

/-- An overlap of 300 samples is kept after `-f 9` and replaced before it. -/
theorem overlap_before_size_replaced :
    (parseArgs .ofDigits default [⟨'f', "9"⟩, ⟨'o', "300"⟩] ["1", "2"]
      (initial default)).isSome ∧
    ([⟨'o', "300"⟩, ⟨'f', "9"⟩] : List Opt).Perm [⟨'f', "9"⟩, ⟨'o', "300"⟩] ∧
    parseArgs .ofDigits default [⟨'f', "9"⟩, ⟨'o', "300"⟩] ["1", "2"] (initial default) ≠
      parseArgs .ofDigits default [⟨'o', "300"⟩, ⟨'f', "9"⟩] ["1", "2"] (initial default) := by
  refine ⟨by decide +kernel, List.Perm.swap _ _ _, ?_⟩
  intro heq
  have hoverlap := congrArg (Option.map (fun s : Settings => s.soverlap)) heq
  exact absurd hoverlap (by decide +kernel)

end Order

end EsSensor.CommandLine
