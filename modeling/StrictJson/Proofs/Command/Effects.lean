import StrictJson.Proofs.Command.Outcome
import StrictJson.Proofs.Command.Reading
import StrictJson.Proofs.Files.Update
import StrictJson.Proofs.Value.RoundTrip

/-!
# The Effects of a Command

A command line has an effect only if it succeeds, and then it has one effect: either it shows its
text on the standard output, or it writes the text to the one file that was named and shows nothing.
The text is the same in both cases but for the line feed at the end of a document that is shown. It
is made of the files as they were, also where the file that is written is the one that is read.

Whether a file was named is told by the arguments alone. Arguments that ask for no command change no
file either.

## Main definitions

* `Verb.ending`: what the standard output has at the end and a file has not.

## Main results

* `Asks.output_task`: the file that is written is the one that was named.
* `Asks.run_cases`: the three ways in which a command line can end.
* `run_effect`: what a command line changes.
-/

namespace StrictJson.Command

variable {arguments : List String} {a : Asked} {stdin : List UInt8} {files : Files}

/-! ### What is asked for and what is done -/

/-- What the standard output has **at the end** and a file has not: the line feed after a
document. -/
def Verb.ending : Verb → List Char
  | .dump => ['\n']
  | .check | .stats | .pack | .unpack | .utf8 => []

/-- A command that has no file to write has not been given one. -/
theorem Asks.output_eq_none (h : Asks arguments a)
    (hverb : ¬ (a.verb = .dump ∨ a.verb = .pack ∨ a.verb = .unpack)) : a.output = none := by
  obtain ⟨c, -, hgives⟩ := h
  rw [Option.eq_none_iff_forall_ne_some]
  intro path hpath
  have hallowed := hgives.allowed_after _ ((hgives.output path).1 hpath)
  simp only [Said.Allowed, Option.some.injEq, ← hgives.verb] at hallowed
  exact hverb hallowed

/-- The file that is written is the one that was named. -/
theorem Asks.output_task (h : Asks arguments a) : a.invocation.task.output = a.output := by
  obtain ⟨verb, flags, input, output, tag⟩ := a
  cases verb with
  | dump | pack | unpack => rfl
  | check | stats | utf8 => exact (h.output_eq_none (by simp)).symm

theorem ending_task (a : Asked) : a.invocation.task.ending = a.verb.ending := by
  obtain ⟨verb, flags, input, output, tag⟩ := a
  cases verb <;> rfl

/-- The text does not depend on where it is to go. -/
theorem text_task_shown (a : Asked) (o : Syntax.Options) (input : Input) :
    ({ a with output := none } : Asked).invocation.task.text o input =
      a.invocation.task.text o input := by
  obtain ⟨verb, flags, input, output, tag⟩ := a
  cases verb <;> rfl

/-! ### Ways to end -/

/-- **A command line ends in one of three ways**: it fails, it shows its text, or it writes the text
that it would have shown. -/
theorem Asks.run_cases (h : Asks arguments a) (stdin : List UInt8) (files : Files) :
    (∃ e, run arguments stdin files = failed files e) ∨
      ∃ text, (∀ shownArguments, Asks shownArguments { a with output := none } →
          run shownArguments stdin files =
            { exit := 0, output := text ++ a.verb.ending, files }) ∧
        (a.output = none ∧ run arguments stdin files =
            { exit := 0, output := text ++ a.verb.ending, files } ∨
          ∃ path files', a.output = some path ∧
            files.write path (Utf8.encodeChars text) = .ok files' ∧
            run arguments stdin files = { exit := 0, files := files' }) := by
  rw [h.run_eq]
  cases htext : a.invocation.task.text a.flags.options (inputFrom stdin files a.input) with
  | error e => exact .inl ⟨e, rfl⟩
  | ok text =>
      have hshown : ∀ shownArguments, Asks shownArguments { a with output := none } →
          run shownArguments stdin files =
            { exit := 0, output := text ++ a.verb.ending, files } := by
        intro shownArguments hshown
        rw [hshown.run_eq, text_task_shown, htext, conclude_eq_printed hshown.output_task,
          ending_task]
      cases houtput : a.output with
      | none =>
          refine .inr ⟨text, hshown, .inl ⟨rfl, ?_⟩⟩
          rw [conclude_eq_printed (h.output_task.trans houtput), ending_task]
      | some path =>
          have htask := h.output_task.trans houtput
          cases hwrite : files.write path (Utf8.encodeChars text) with
          | ok files' =>
              exact .inr ⟨text, hshown, .inr ⟨path, files', rfl, hwrite,
                conclude_eq_written htask hwrite⟩⟩
          | error fault =>
              refine .inl ⟨a.invocation.task.writeFault path fault, ?_⟩
              rw [conclude, deliver, htask]
              simp only [hwrite]

/-- **Arguments that ask for no command** do not fit, or there is a request among them. -/
theorem run_of_not_asks (h : ∀ a, ¬ Asks arguments a) (stdin : List UInt8) (files : Files) :
    (run arguments stdin files).files = files ∧
      ((run arguments stdin files).exit = 2 ∧ (run arguments stdin files).output = [] ∨
        (run arguments stdin files).exit = 0 ∧ ∃ argument ∈ arguments, IsRequest argument) := by
  rw [run]
  cases hargs : Invocation.ofArguments arguments with
  | ok i =>
      obtain ⟨a, ha, -⟩ := ofArguments_eq_ok_iff.1 hargs
      exact absurd ha (h a)
  | error stop =>
      cases stop with
      | usage => exact ⟨rfl, .inl ⟨rfl, rfl⟩⟩
      | version => exact ⟨rfl, .inr ⟨rfl, Reading.exists_isRequest hargs (by simp)⟩⟩
      | help => exact ⟨rfl, .inr ⟨rfl, Reading.exists_isRequest hargs (by simp)⟩⟩

/-! ### What is changed -/

/-- **A command line that fails changes nothing and shows nothing.** One that succeeds and has not
been given a file to write changes no file. One that succeeds and has been given one shows nothing
and changes this file only, which holds the text that is shown where the same is asked for without
the file, over the files as they were. Arguments that ask for no command change no file, and succeed
only with a request for help or for the version among them. -/
theorem run_effect (arguments : List String) (stdin : List UInt8) (files : Files) :
    ((run arguments stdin files).exit ≠ 0 →
      (run arguments stdin files).output = [] ∧ (run arguments stdin files).files = files) ∧
    (∀ a, Asks arguments a → (run arguments stdin files).exit = 0 →
      (a.output = none → (run arguments stdin files).files = files) ∧
      ∀ path, a.output = some path →
        (run arguments stdin files).output = [] ∧
        (∃ shownArguments, Asks shownArguments { a with output := none }) ∧
        ∃ text, files.IsUpdate path (Utf8.encodeChars text) (run arguments stdin files).files ∧
          ∀ shownArguments, Asks shownArguments { a with output := none } →
            run shownArguments stdin files =
              { exit := 0, output := text ++ a.verb.ending, files }) ∧
    ((∀ a, ¬ Asks arguments a) →
      (run arguments stdin files).files = files ∧
      ((run arguments stdin files).exit = 0 → ∃ argument ∈ arguments, IsRequest argument)) := by
  refine ⟨fun hexit => ?_, fun a ha => ?_, fun hno => ?_⟩
  · by_cases hasks : ∃ a, Asks arguments a
    · obtain ⟨a, ha⟩ := hasks
      rcases ha.run_cases stdin files with ⟨e, he⟩ | ⟨text, -, ⟨-, hrun⟩ |
        ⟨path, files', -, -, hrun⟩⟩
      · rw [he]
        exact ⟨rfl, rfl⟩
      · exact absurd (congrArg Outcome.exit hrun) hexit
      · exact absurd (congrArg Outcome.exit hrun) hexit
    · obtain ⟨hfiles, ⟨-, houtput⟩ | ⟨hzero, -⟩⟩ :=
        run_of_not_asks (not_exists.1 hasks) stdin files
      · exact ⟨houtput, hfiles⟩
      · exact absurd hzero hexit
  · rcases ha.run_cases stdin files with ⟨e, he⟩ | ⟨text, hshown, ⟨hnone, hrun⟩ |
      ⟨path, files', hpath, hwrite, hrun⟩⟩
    · rw [he]
      exact fun h => absurd h Nat.one_ne_zero
    · rw [hrun]
      refine fun _ => ⟨fun _ => rfl, fun path hpath => ?_⟩
      rw [hnone] at hpath
      simp at hpath
    · rw [hrun]
      refine fun _ => ⟨fun hnone => ?_, fun path' hpath' => ?_⟩
      · rw [hnone] at hpath
        simp at hpath
      · obtain rfl := Option.some.inj (hpath.symm.trans hpath')
        exact ⟨rfl, ha.exists_shown, text, Files.isUpdate_of_write hwrite, hshown⟩
  · obtain ⟨hfiles, ⟨htwo, -⟩ | ⟨-, hrequest⟩⟩ := run_of_not_asks hno stdin files
    · exact ⟨hfiles, fun hzero => absurd (htwo.symm.trans hzero) (Nat.succ_ne_zero 1)⟩
    · exact ⟨hfiles, fun _ => hrequest⟩

/-- The file that is read is the one that is written: it holds null, and then the unit of null. -/
theorem run_effect_same_file :
    (run ["pack", "-i", "a", "-o", "a"] []
        { entries := [(["a"], .file (Value.dumpBytes .null))] }).output = [] ∧
    (run ["pack", "-i", "a", "-o", "a"] []
        { entries := [(["a"], .file (Value.dumpBytes .null))] }).files.read "a" =
      .ok (Utf8.ofString "4e\n") := by
  have ha : StandsApart ['a'] := by simp [StandsApart]
  have hargs : Asks ["pack", "-i", "a", "-o", "a"] ⟨.pack, {}, some "a", some "a", none⟩ :=
    ⟨_, ⟨[], _, .nil, .item (.letters (.apart rfl ha) nofun)
      (.item (.letters (.apart rfl ha) nofun) .nil), .inl rfl⟩, gives_of_foldlM_say
        (c := ⟨[], .pack, [.setting .input ['a'], .setting .output ['a']]⟩) rfl rfl⟩
  have hshown : Asks ["pack", "-i", "a"] ⟨.pack, {}, some "a", none, none⟩ :=
    ⟨_, ⟨[], _, .nil, .item (.letters (.apart rfl ha) nofun) .nil, .inl rfl⟩,
      gives_of_foldlM_say (c := ⟨[], .pack, [.setting .input ['a']]⟩) rfl rfl⟩
  let files : Files := { entries := [(["a"], .file (Value.dumpBytes .null))] }
  have hinput : inputFrom [] files (some "a") = .ok (Value.dumpBytes .null) := by rfl
  have hparse : parse {} (Value.dumpBytes .null) = .ok .null :=
    (parse_dumpBytes_eq_ok_iff (v := .null) trivial).2 ⟨Nat.zero_le _, nofun⟩
  have htext : ∀ output, (Task.pack (some "a") output none).text ({} : Flags).options
      (inputFrom [] files (some "a")) = .ok "4e\n".toList := by
    intro output
    have hloaded : loaded ({} : Flags).options (some "a") (.ok (Value.dumpBytes .null)) =
        .ok .null := by
      have hparse' : parse ({} : Flags).options (Value.dumpBytes .null) = .ok .null := hparse
      rw [loaded, parsed, hparse']
    rw [hinput, Task.text, hloaded]
    decide +kernel
  have hwrite : ∃ files', files.write "a" (Utf8.encodeChars "4e\n".toList) = .ok files' :=
    ⟨_, rfl⟩
  obtain ⟨files', hwrite⟩ := hwrite
  have hexit : (run ["pack", "-i", "a", "-o", "a"] [] files).exit = 0 := by
    rw [hargs.run_eq, Asked.invocation, htext, conclude_eq_written rfl hwrite]
  obtain ⟨-, hasked, -⟩ := run_effect ["pack", "-i", "a", "-o", "a"] [] files
  obtain ⟨houtput, -, text, hupdate, hshow⟩ := (hasked _ hargs hexit).2 "a" rfl
  have hprinted := congrArg Outcome.output (hshow _ hshown)
  rw [hshown.run_eq, Asked.invocation, htext, conclude_eq_printed rfl] at hprinted
  have hsame : text = "4e\n".toList := (List.append_cancel_right hprinted).symm
  rw [hsame] at hupdate
  exact ⟨houtput, hupdate.read⟩

end StrictJson.Command
