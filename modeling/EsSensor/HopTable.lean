import EsSensor.FileSink
import EsSensor.HopRecords

/-!
From the hops of the sampling loop to the rows of the file. Without a host the averages
go to a text file, and whoever reads it back finds a row for each hop, with the seconds and
the nanoseconds as two numbers.
-/
namespace EsSensor.HopTable

open DecimalText FifoChain FileSink HopRecords LoopTrace PsdPipeline RtlsdrDriver

/-- What is read of a line; the values are left as text. -/
structure Row where
  sec : ℕ
  nsec : ℕ
  centerFreq : ℕ
  values : List (List Char)

/-- The columns of a line. Each of them ends with a comma. -/
def columns (line : List Char) : List (List Char) := (line.splitOn ',').dropLast

def readRow (line : List Char) : Option Row :=
  match columns line with
  | time :: freq :: values => some {
      sec := Nat.ofDigitChars 10 (before '.' time) 0
      nsec := Nat.ofDigitChars 10 (behind '.' time) 0
      centerFreq := Nat.ofDigitChars 10 freq 0
      values := values }
  | _ => none

def readTable (file : List Char) : Option (List Row) :=
  (file.splitOn '\n').dropLast.mapM readRow

/-- What the file says about a hop. -/
structure RowOf (lib : Library ℚ) (ctx : ElectrosenseContext) (text : FloatText) (c : Capture)
    (row : Row) : Prop where
  segments : (c.enqueued ℚ).length = ctx.avgFactor
  sec : (row.sec : ℤ) = c.currentTime.sec
  nsec : (row.nsec : ℤ) = c.currentTime.nsec
  centerFreq : row.centerFreq = c.centerFreq
  values : row.values = (List.range ctx.fftSize).map (fun i =>
    text.write (Averaging.decibel lib.log10 (meanPower lib ctx (c.enqueued ℚ) i)))

variable {text : FloatText}

/-- A line is its columns. -/
theorem line_eq (text : FloatText) (segment : SpectrumSegment ℚ) :
    line text segment = (timeColumn segment.timeStamp ::
      Nat.toDigits 10 segment.centerFrequency :: segment.psdValues.map text.write).flatMap
        (fun column => column ++ [',']) := by
  rw [line, List.flatMap_cons, List.flatMap_cons, List.flatMap_map]
  simp only [List.append_assoc, List.singleton_append]

theorem columns_line (hcomma : ∀ x, ',' ∉ text.write x) (segment : SpectrumSegment ℚ) :
    columns (line text segment) = timeColumn segment.timeStamp ::
      Nat.toDigits 10 segment.centerFrequency :: segment.psdValues.map text.write := by
  have hcolumns : ∀ column ∈ timeColumn segment.timeStamp ::
      Nat.toDigits 10 segment.centerFrequency :: segment.psdValues.map text.write,
      ',' ∉ column := by
    intro column hcolumn
    rcases List.mem_cons.mp hcolumn with rfl | hcolumn
    · exact notMem_timeColumn (by decide) (by decide) (by decide) _
    · rcases List.mem_cons.mp hcolumn with rfl | hcolumn
      · exact notMem_toDigits (by decide) _
      · obtain ⟨x, _, rfl⟩ := List.mem_map.mp hcolumn
        exact hcomma x
  have hsplit := splitOn_lines (fun column => column) _ hcolumns
  rw [columns, line_eq, hsplit, List.map_id', List.dropLast_concat]

/-- The row of a segment. -/
def rowOf (text : FloatText) (segment : SpectrumSegment ℚ) : Row where
  sec := segment.timeStamp.sec.toNat
  nsec := segment.timeStamp.nsec.toNat
  centerFreq := segment.centerFrequency
  values := segment.psdValues.map text.write

theorem readRow_line (hcomma : ∀ x, ',' ∉ text.write x) {segment : SpectrumSegment ℚ}
    (htime : ClockTime segment.timeStamp) :
    readRow (line text segment) = some (rowOf text segment) := by
  obtain ⟨sec, hsec⟩ := Int.eq_ofNat_of_zero_le htime.sec_nonneg
  obtain ⟨nsec, hnsec⟩ := Int.eq_ofNat_of_zero_le htime.nsec_nonneg
  have hpoint := notMem_toDigits (x := '.') (by decide) sec
  have htimeColumn : timeColumn segment.timeStamp =
      Nat.toDigits 10 sec ++ '.' :: Nat.toDigits 10 nsec := by
    rw [timeColumn, hsec, hnsec, ofInt_natCast, ofInt_natCast]
  rw [readRow, columns_line hcomma, htimeColumn]
  dsimp only
  rw [before_append hpoint, behind_append hpoint, Nat.ofDigitChars_ten_toDigits,
    Nat.ofDigitChars_ten_toDigits, Nat.ofDigitChars_ten_toDigits, rowOf, hsec, hnsec,
    Int.toNat_natCast, Int.toNat_natCast]

/-- A file is read back, row for row. -/
theorem readTable_stateAfter (hcomma : ∀ x, ',' ∉ text.write x)
    {segments : List (SpectrumSegment ℚ)}
    (hclock : ∀ segment ∈ segments, ClockTime segment.timeStamp) :
    readTable ((fileSink text).stateAfter segments) = some (segments.map (rowOf text)) := by
  rw [readTable, stateAfter_fileSink,
    splitOn_lines (line text) segments (fun segment _ => newline_notMem_line text segment),
    List.dropLast_concat]
  induction segments with
  | nil => rfl
  | cons segment rest ih =>
    have hfirst := readRow_line hcomma (hclock segment List.mem_cons_self)
    have hrest := ih (fun segment' hsegment' => hclock segment' (List.mem_cons_of_mem _ hsegment'))
    rw [List.map_cons, List.mapM_cons, hfirst, hrest]
    rfl

/-- However the threads interleave and however much of the averages has been written: the
file is read back as one row for each hop, in the order of the hops. The powers are exact. -/
theorem table_follows_hops (lib : Library ℚ) (text : FloatText)
    (hcomma : ∀ x, ',' ∉ text.write x) {ctx : ElectrosenseContext}
    (hfactor : 1 ≤ ctx.avgFactor) (hbatch : 1 ≤ ctx.fftBatchlen) (converterEnabled : Bool)
    (s : SyncState) (answers : List Answers)
    (hanswers : ∀ a ∈ answers, a.context.avgFactor = ctx.avgFactor)
    (hclock : ∀ c ∈ hops (SyncSampling converterEnabled s answers), ClockTime c.currentTime)
    (net : Network (Averaging.BlockState ℚ) (SpectrumSegment ℚ))
    (hnet : Reachable (psdBlocks lib ctx)
      (enqueuedBy ℚ (SyncSampling converterEnabled s answers)) {} net)
    (taken : List (SpectrumSegment ℚ)) (htaken : taken <+: net.queue 4) :
    ∃ rows, readTable ((fileSink text).stateAfter taken) = some rows ∧
      rows.length = taken.length ∧ ∀ k, (hk : k < rows.length) →
        ∃ hk' : k < (hops (SyncSampling converterEnabled s answers)).length,
          RowOf lib ctx text (hops (SyncSampling converterEnabled s answers))[k] rows[k] := by
  obtain ⟨averages, haverages, hsink⟩ :=
    sink_follows_hops lib hfactor hbatch converterEnabled s answers hanswers hnet
  have hinitial := htaken.trans hsink
  have hof := getElem_of_isPrefix haverages hinitial
  have hclock' : ∀ segment ∈ taken, ClockTime segment.timeStamp := by
    intro segment hsegment
    obtain ⟨k, hk, rfl⟩ := List.getElem_of_mem hsegment
    obtain ⟨hk', haveraged⟩ := hof k hk
    rw [haveraged.timeStamp]
    exact hclock _ (List.getElem_mem hk')
  refine ⟨_, readTable_stateAfter hcomma hclock', List.length_map _, ?_⟩
  intro k hk
  rw [List.length_map] at hk
  obtain ⟨hk', haveraged⟩ := hof k hk
  have htime := hclock' _ (List.getElem_mem hk)
  refine ⟨hk', ?_⟩
  rw [List.getElem_map]
  constructor
  case segments => exact haveraged.segments
  case sec =>
    rw [← haveraged.timeStamp]
    exact Int.toNat_of_nonneg htime.sec_nonneg
  case nsec =>
    rw [← haveraged.timeStamp]
    exact Int.toNat_of_nonneg htime.nsec_nonneg
  case centerFreq => exact haveraged.centerFrequency
  case values =>
    show taken[k].psdValues.map text.write = _
    rw [haveraged.psdValues, List.map_map]
    rfl

theorem table_follows_hops_one_window :
    ∃ file c row, (hops oneHop)[0]? = some c ∧ readTable file = some [row] ∧
      RowOf sizeOne oneWindow default c row := by
  have hnet := reachable_acts (psdBlocks sizeOne oneWindow) (enqueuedBy ℚ oneHop) {} passage
  have hlength : (passed.queue 4).length = 1 := by decide +kernel
  have hclock : ∀ c ∈ hops oneHop, ClockTime c.currentTime := by decide +kernel
  obtain ⟨rows, hread, hrows, hhops⟩ := table_follows_hops sizeOne default
    (fun _ => show ',' ∉ ['0'] by decide) (by decide) (by decide) false _ _
    (fun a ha => congrArg (fun a : Answers => a.context.avgFactor) (List.mem_singleton.mp ha))
    hclock passed hnet (passed.queue 4) (List.prefix_refl _)
  obtain ⟨row, rfl⟩ := List.length_eq_one_iff.mp (hrows.trans hlength)
  obtain ⟨hlt, hrow⟩ := hhops 0 Nat.one_pos
  exact ⟨_, _, row, List.getElem?_eq_getElem hlt, hread, hrow⟩

end EsSensor.HopTable
