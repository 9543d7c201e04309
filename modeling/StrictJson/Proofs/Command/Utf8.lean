import StrictJson.Proofs.Command.Outcome
import StrictJson.Proofs.Utf8.Synchronization

/-!
# UTF-8 on the Command Line

The command that looks at UTF-8 does not check its input: it decodes one character after the other
and looks where that ends. That it accepts what the checker accepts, and otherwise reports the end
of the longest text, is a matter of where a walk stops. A walk stops at the last boundary, and the
input is well-formed exactly if its end is one.

## Main results

* `utf8Text_of_walk`: the report of the command, told from a walk.
* `run_utf8`: what the command line does with its input.
-/

namespace StrictJson.Command

variable {raw stdin : List UInt8} {chars : List Char} {index : ℕ}

/-- A walk that stops at the end has found a text. -/
theorem isValid_iff_of_walk (h : Utf8.Walk raw 0 chars index) :
    Utf8.isValid raw = true ↔ index = raw.length := by
  have hgreatest := h.isGreatest
  constructor
  · intro hvalid
    refine le_antisymm hgreatest.1.le_length (hgreatest.2 ⟨le_rfl, ?_⟩)
    rwa [List.take_length]
  · intro hindex
    have htake := hgreatest.1.isValid_take
    rwa [hindex, List.take_length] at htake

/-- **The report on an input is told by a walk** from its start: how long the input is and how many
characters were found if the walk stops at the end, and where it stops if it does not. -/
theorem utf8Text_of_walk (h : Utf8.Walk raw 0 chars index) :
    utf8Text raw =
      if index = raw.length then
        .ok ("valid UTF-8: ".toList ++ Nat.toDigits 10 raw.length ++ " bytes, ".toList ++
          Nat.toDigits 10 chars.length ++ " code points\n".toList)
      else .error (.malformed index) := by
  obtain ⟨rfl, rfl⟩ := h.unique (Utf8.walk_decodePrefix raw)
  have hbytes := congrArg List.length (Utf8.encodeChars_decodePrefix raw)
  rw [List.length_append] at hbytes
  rw [utf8Text]
  split
  · next chars hall =>
    rw [hall, List.length_nil, Nat.add_zero] at hbytes
    rw [hall, if_pos hbytes]
  · next chars rest hne hall =>
    have hrest : rest.length ≠ 0 := by
      intro hnil
      obtain rfl := List.length_eq_zero_iff.1 hnil
      exact hne rfl
    simp only [hall] at hbytes ⊢
    rw [if_neg (by omega), show raw.length - rest.length = (Utf8.encodeChars chars).length by omega]

/-- **The command that looks at UTF-8** succeeds exactly on well-formed input, and then it tells how
many bytes the input has and how many characters they encode. Otherwise it reports the length of the
longest well-formed start, which is where repeated decoding stops, before the end of the input. -/
theorem run_utf8 {arguments : List String} {input : Option String} {o : Syntax.Options}
    {files : Files} (harguments : Invocation.ofArguments arguments = .ok ⟨.utf8 input, o⟩)
    (hinput : (Task.utf8 input).readInput stdin files = .ok raw) :
    ((run arguments stdin files).exit = 0 ↔ Utf8.isValid raw = true) ∧
    (Utf8.isValid raw = true → ∃ chars, Utf8.Encodes chars raw ∧
      run arguments stdin files =
        { exit := 0
          output := "valid UTF-8: ".toList ++ Nat.toDigits 10 raw.length ++ " bytes, ".toList ++
            Nat.toDigits 10 chars.length ++ " code points\n".toList
          files }) ∧
    (Utf8.isValid raw = false → ∃ chars index, Utf8.Walk raw 0 chars index ∧
      IsGreatest {k | Utf8.IsBoundary raw k} index ∧ index < raw.length ∧
      run arguments stdin files =
        { exit := 1
          report := some ("Error: Invalid UTF-8 at byte " ++ toString index ++ "\n")
          files }) := by
  have hwalk := Utf8.walk_decodePrefix raw
  have hvalid := isValid_iff_of_walk hwalk
  have htext := utf8Text_of_walk hwalk
  generalize (Utf8.decodePrefix raw).1 = chars at hwalk hvalid htext
  generalize (Utf8.encodeChars chars).length = index at hwalk hvalid htext
  have hrun : run arguments stdin files =
      conclude files (.utf8 input) (utf8Text raw) := by
    rw [run, harguments]
    simp only [Invocation.run_eq, hinput]
    rfl
  rw [hrun, htext]
  by_cases hindex : index = raw.length
  · rw [if_pos hindex]
    have hending : (Task.utf8 input).ending = [] := rfl
    rw [conclude_eq_printed rfl, hending, List.append_nil]
    refine ⟨iff_of_true rfl (hvalid.2 hindex), fun _ => ⟨chars, ?_, rfl⟩, fun hno => ?_⟩
    · rw [hindex, Utf8.walk_iff] at hwalk
      exact Utf8.encodes_iff.2 hwalk
    · exact absurd (hvalid.2 hindex) (Bool.not_eq_true _ ▸ hno)
  · have hno := mt hvalid.1 hindex
    rw [if_neg hindex]
    refine ⟨iff_of_false Nat.one_ne_zero hno, fun h => absurd h hno, fun _ => ?_⟩
    exact ⟨chars, index, hwalk, hwalk.isGreatest,
      lt_of_le_of_ne hwalk.isGreatest.1.le_length hindex, rfl⟩

/-- The input ends inside the letter é, behind another letter. -/
theorem run_utf8_cut :
    (run ["utf8"] [0x61, 0xc3] {}).exit = 1 ∧
      (run ["utf8"] [0x61, 0xc3] {}).report = some "Error: Invalid UTF-8 at byte 1\n" := by
  have harguments : Invocation.ofArguments ["utf8"] = .ok ⟨.utf8 none, {}⟩ := by decide +kernel
  have hinput : (Task.utf8 none).readInput [0x61, 0xc3] {} = .ok [0x61, 0xc3] := rfl
  have hinvalid : Utf8.isValid [0x61, 0xc3] = false := by
    rw [Utf8.isValid_cons_of_lt (by decide), Utf8.isValid]
    rfl
  obtain ⟨-, -, hreport⟩ := run_utf8 harguments hinput
  obtain ⟨chars, index, -, hgreatest, hlt, hrun⟩ := hreport hinvalid
  have hone : Utf8.IsBoundary [0x61, 0xc3] 1 := ⟨by decide, Utf8.isValid_iff.2 ⟨['a'], rfl⟩⟩
  obtain rfl : index = 1 := le_antisymm (Nat.le_of_lt_succ hlt) (hgreatest.2 hone)
  rw [hrun]
  exact ⟨rfl, by decide⟩

end StrictJson.Command
