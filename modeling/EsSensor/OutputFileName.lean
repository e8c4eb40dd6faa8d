import EsSensor.Library.DelimitedText
import EsSensor.Settings

/-!
The output file name on its way through `split`. The name is one of the pieces
between the colons, so a name that holds a colon itself is cut.
-/
namespace EsSensor.OutputFileName

open CheckedLoop DelimitedText Settings

structure Slices where
  current : ℕ
  p : Option ℕ
  result : List (List Char)

/-- One round of the loop in `split`; there is one only where `p` is not `npos`. -/
def splitRound (s : List Char) (delimiter : Char) (slices : Slices) : Except Fault Slices :=
  match slices.p with
  | none => .ok slices
  | some p => do
    let slice ← substr s slices.current (p - slices.current)
    .ok
      { current := p + 1
        p := find delimiter s (p + 1)
        result := slices.result ++ [slice] }

/-- `split`, whose loop has a round for each delimiter. -/
def splitLoop (s : List Char) (delimiter : Char) : Except Fault (List (List Char)) := do
  let slices ← whileLoop (fun slices => slices.p.isSome) (splitRound s delimiter) s.length
    { current := 0, p := find delimiter s 0, result := [] }
  let slice ← substr s slices.current s.length
  .ok (slices.result ++ [slice])

/-- `setOutputFileName`; `none` is its `exit`. -/
def setOutputFileName (s : Settings) (fileName : String) : Except Fault (Option Settings) :=
  if fileName.toList.isEmpty then .ok (some s)
  else do
    let slices ← splitLoop fileName.toList ':'
    if 1 < slices.length then
      let slice ← readAt slices 0
      let name ← readAt slices 1
      if slice = "BYTE".toList then
        .ok (some { s with outputType := outputTypeByte, outputFileName := String.ofList name })
      else if slice = "FLOAT".toList then
        .ok (some { s with outputType := outputTypeFloat, outputFileName := String.ofList name })
      else .ok none
    else .ok (some { s with outputType := outputTypeByte, outputFileName := fileName })

variable {s : List Char} {delimiter : Char}

/-- What is cut off already and the pieces of the rest are all the pieces. -/
structure Cutting (s : List Char) (delimiter : Char) (slices : Slices) : Prop where
  current_le : slices.current ≤ s.length
  p_eq : slices.p = find delimiter s slices.current
  pieces : slices.result ++ (s.drop slices.current).splitOn delimiter = s.splitOn delimiter

theorem splitRound_spec {slices : Slices} (hs : Cutting s delimiter slices)
    (hp : slices.p.isSome = true) :
    ∃ slices', splitRound s delimiter slices = .ok slices' ∧ Cutting s delimiter slices' ∧
      (s.drop slices'.current).count delimiter < (s.drop slices.current).count delimiter := by
  obtain ⟨p, hp⟩ := Option.isSome_iff_exists.mp hp
  have hfind : find delimiter s slices.current = some p := by rw [← hs.p_eq, hp]
  obtain ⟨_, hlt, _, _⟩ := drop_of_find hfind
  refine ⟨⟨p + 1, find delimiter s (p + 1),
    slices.result ++ [(s.drop slices.current).take (p - slices.current)]⟩, ?_, ⟨hlt, rfl, ?_⟩, ?_⟩
  · rw [splitRound, hp]
    simp only [substr_of_le hs.current_le, ok_bind]
  · show slices.result ++ [(s.drop slices.current).take (p - slices.current)] ++
      (s.drop (p + 1)).splitOn delimiter = s.splitOn delimiter
    rw [← hs.pieces, splitOn_of_find hfind, List.append_assoc, List.singleton_append]
  · have hcount := count_of_find hfind
    show (s.drop (p + 1)).count delimiter < (s.drop slices.current).count delimiter
    omega

/-- The loop returns, with the pieces between the delimiters. -/
theorem splitLoop_eq (s : List Char) (delimiter : Char) :
    splitLoop s delimiter = .ok (s.splitOn delimiter) := by
  have hstart : Cutting s delimiter ⟨0, find delimiter s 0, []⟩ := ⟨Nat.zero_le _, rfl, rfl⟩
  obtain ⟨slices, hrun, hs, hexit⟩ := whileLoop_of_variant (Cutting s delimiter)
    (fun slices => (s.drop slices.current).count delimiter)
    (fun slices hs hp => splitRound_spec hs hp) s.length _ hstart List.count_le_length
  have hnone : find delimiter s slices.current = none := by
    rw [← hs.p_eq]
    exact Option.not_isSome_iff_eq_none.mp (by simp [hexit])
  have hpieces := hs.pieces
  rw [splitOn_of_find_eq_none hnone] at hpieces
  have hlast : (s.drop slices.current).take s.length = s.drop slices.current :=
    List.take_of_length_le (by simp)
  rw [splitLoop, hrun, ok_bind, substr_of_le hs.current_le, ok_bind, hlast, hpieces]

/-- The setter of the configuration is what the loop computes. -/
theorem setOutputFileName_eq (s : Settings) (fileName : String) :
    setOutputFileName s fileName = .ok (s.setOutputFileName fileName) := by
  unfold setOutputFileName Settings.setOutputFileName Settings.split
  have hempty : fileName.toList.isEmpty = true ↔ fileName = "" := by
    rw [List.isEmpty_iff, String.toList_eq_nil_iff]
  by_cases hname : fileName = ""
  · rw [if_pos (hempty.mpr hname), if_pos hname]
  · rw [if_neg (hempty.not.mpr hname), if_neg hname, splitLoop_eq, ok_bind]
    cases hslices : fileName.toList.splitOn ':' with
    | nil => exact absurd hslices (List.splitOn_ne_nil _ _)
    | cons slice rest =>
      cases rest with
      | nil => rfl
      | cons name rest =>
        have hbyte : String.ofList slice = "BYTE" ↔ slice = "BYTE".toList := by
          rw [← String.ofList_inj, String.ofList_toList]
        have hfloat : String.ofList slice = "FLOAT" ↔ slice = "FLOAT".toList := by
          rw [← String.ofList_inj, String.ofList_toList]
        simp only [List.map_cons, hbyte, hfloat]
        rw [if_pos (by simp)]
        show (if slice = _ then _ else if slice = _ then _ else _) = _
        split
        · rfl
        · split <;> rfl

/-- The formats that a prefix of the name can ask for. -/
inductive OutputFormat
  | byte
  | float
  deriving DecidableEq, Repr

namespace OutputFormat

def name : OutputFormat → String
  | byte => "BYTE"
  | float => "FLOAT"

def outputType : OutputFormat → ℕ
  | byte => outputTypeByte
  | float => outputTypeFloat

theorem colon_notMem_name (format : OutputFormat) : ':' ∉ format.name.toList := by
  cases format <;> decide

end OutputFormat

/-- Behind a format stands what the name has up to its first colon. -/
theorem setOutputFileName_prefixed (s : Settings) (format : OutputFormat) (f : String) :
    ∃ name rest, f.toList.splitOn ':' = name :: rest ∧
      setOutputFileName s (format.name ++ ":" ++ f) = .ok (some { s with
        outputType := format.outputType
        outputFileName := String.ofList name }) := by
  obtain ⟨name, rest, hname⟩ := List.exists_cons_of_ne_nil (List.splitOn_ne_nil ':' f.toList)
  have hlist : (format.name ++ ":" ++ f).toList = format.name.toList ++ ':' :: f.toList := by
    simp
  have hslices : splitLoop (format.name ++ ":" ++ f).toList ':' =
      .ok (format.name.toList :: name :: rest) := by
    rw [splitLoop_eq, hlist,
      List.splitOn_append_cons_self_of_not_mem format.colon_notMem_name, hname]
  refine ⟨name, rest, hname, ?_⟩
  unfold setOutputFileName
  rw [if_neg (by rw [hlist]; simp), hslices]
  cases format <;> rfl

theorem setOutputFileName_plain (s : Settings) {f : String} (hf : f ≠ "") (hcolon : ':' ∉ f.toList) :
    setOutputFileName s f = .ok (some { s with
      outputType := outputTypeByte
      outputFileName := f }) := by
  unfold setOutputFileName
  rw [if_neg (by simpa using hf), splitLoop_eq, List.splitOn_eq_singleton hcolon]
  rfl

/-- The setter returns, with this name and this type. -/
def SetsTo (s : Settings) (fileName name : String) (outputType : ℕ) : Prop :=
  ∃ s', setOutputFileName s fileName = .ok (some s') ∧
    s'.outputFileName = name ∧ s'.outputType = outputType

/-- A name behind a format is kept as it is, and so is a name without a colon,
exactly when the name has none. -/
theorem fileName_survives_iff (s : Settings) (format : OutputFormat) {f : String} (hf : f ≠ "") :
    (SetsTo s (format.name ++ ":" ++ f) f format.outputType ∧
      (':' ∉ f.toList → SetsTo s f f outputTypeByte)) ↔ ':' ∉ f.toList := by
  obtain ⟨name, rest, hname, hset⟩ := setOutputFileName_prefixed s format f
  constructor
  · rintro ⟨⟨s', hs', hkept, _⟩, _⟩ hcolon
    rw [hset] at hs'
    obtain rfl := Option.some.inj (Except.ok.inj hs')
    have hwhole : name = f.toList := by
      rw [← String.toList_ofList (l := name)]
      exact congrArg String.toList hkept
    obtain ⟨piece, after, hcut, hpiece⟩ := List.eq_append_cons_of_mem hcolon
    rw [hcut, List.splitOn_append_cons_self_of_not_mem hpiece] at hname
    obtain ⟨rfl, _⟩ := List.cons.inj hname
    exact hpiece (hwhole ▸ hcolon)
  · intro hcolon
    rw [List.splitOn_eq_singleton hcolon] at hname
    obtain ⟨rfl, _⟩ := List.cons.inj hname
    rw [String.ofList_toList] at hset
    exact ⟨⟨_, hset, rfl, rfl⟩, fun _ => ⟨_, setOutputFileName_plain s hf hcolon, rfl, rfl⟩⟩

theorem fileName_survives_iff_dump :
    (SetsTo default ("FLOAT" ++ ":" ++ "dump") "dump" outputTypeFloat ∧
      (':' ∉ "dump".toList → SetsTo default "dump" "dump" outputTypeByte)) ↔ ':' ∉ "dump".toList :=
  fileName_survives_iff default .float (by decide)

/-- Of a name with a colon only the part before it is left. -/
theorem fileName_with_colon_cut :
    SetsTo default "BYTE:/tmp/a:b" "/tmp/a" outputTypeByte ∧
      ¬ SetsTo default "BYTE:/tmp/a:b" "/tmp/a:b" outputTypeByte := by
  have hset : setOutputFileName default "BYTE:/tmp/a:b" = .ok (some { (default : Settings) with
      outputType := outputTypeByte
      outputFileName := "/tmp/a" }) := by
    rw [setOutputFileName_eq]
    rfl
  refine ⟨⟨_, hset, rfl, rfl⟩, ?_⟩
  rintro ⟨s', hs', hname, _⟩
  rw [hset] at hs'
  obtain rfl := Option.some.inj (Except.ok.inj hs')
  exact absurd hname (by decide)

end EsSensor.OutputFileName
