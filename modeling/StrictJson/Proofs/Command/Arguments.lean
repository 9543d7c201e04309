import StrictJson.Proofs.Command.Record

/-!
# Command Lines Are Read as They Are Spelled

The reader of arguments goes from left to right. An item of the grammar is taken as the things that
it says, so a command line is read as the row of things that is said before the command and the row
that is said after it. What is asked for is therefore read, and nothing but what the record of the
two sides comes to.

## Main results

* `Reading.takeAll_item`: an item is taken as what it says.
* `ofArguments_of_spelledBy`: a command line is read as it is spelled.
* `ofArguments_of_asks`: what is asked for is read.
* `CommandLine.Gives.change`: what is asked for when the file to write or the type is changed.
* `AsksTyped.asks`, `AsksTyped.ofArguments_eq_usage`: a type that is asked for besides.
* `Asks.exists_shown`: the same can be asked for without a file to write.
-/

namespace StrictJson.Command

variable {r : Reading} {said past : List Said}

/-! ### Items are taken -/

namespace Reading

variable {row : List Char} {chunk next : List (List Char)} {argument : String}
  {rest : List String}

/-- A value counts for the setting that waits for it as if it were attached. -/
theorem set_pending (r : Reading) (pending : Option Setting) (s : Setting) (value : List Char) :
    ({ r with pending } : Reading).set s value = r.set s value := by
  cases s <;> rfl

theorem foldlM_say_singleton {x : Said} : [x].foldlM say r = r.say x := by
  rw [List.foldlM_cons]
  cases r.say x <;> rfl

/-- What is said first is taken first. -/
theorem foldlM_say_append (first last : List Said) (r : Reading) :
    (first ++ last).foldlM say r = (first.foldlM say r).bind fun r' => last.foldlM say r' :=
  List.foldlM_append ..

/-- The letter of a setting is none of a switch. -/
theorem ofLetter?_of_letter? {s : Setting} {c : Char} (h : s.letter? = some c) :
    Switch.ofLetter? c = none ∧ Setting.ofLetter? c = some s := by
  cases s <;> cases h <;> exact ⟨rfl, rfl⟩

/-- A row of letters is taken as what it says; the last one may wait for its value. -/
theorem takeLetters_of_letters (h : Letters row next said) :
    (next = [] ∧ ∀ r : Reading, r.takeLetters row = said.foldlM say r) ∨
      ∃ (s : Setting) (value : List Char) (first : List Said), next = [value] ∧
        StandsApart value ∧ said = first ++ [.setting s value] ∧
        ∀ r : Reading, r.takeLetters row = (first.foldlM say r).bind fun r' => r'.await s := by
  induction h with
  | nil => exact .inl ⟨rfl, fun _ => rfl⟩
  | @switch s c row next said hc _ ih =>
      have hrow : ∀ r : Reading,
          r.takeLetters (c :: row) = (r.turnOn s).bind fun r' => r'.takeLetters row := by
        intro r
        simp only [takeLetters, Switch.ofLetter?_eq_some_iff.2 hc]
        cases r.turnOn s <;> rfl
      rcases ih with ⟨hnext, ih⟩ | ⟨s', value, first, hnext, hvalue, rfl, ih⟩
      · refine .inl ⟨hnext, fun r => ?_⟩
        simp only [hrow, ih]
        rfl
      · refine .inr ⟨s', value, .switch s :: first, hnext, hvalue, rfl, fun r => ?_⟩
        simp only [hrow, ih]
        exact (bind_assoc (m := Except Stop) (r.turnOn s) _ _).symm
  | @equals s c value hc =>
      obtain ⟨hswitch, hsetting⟩ := ofLetter?_of_letter? hc
      refine .inl ⟨rfl, fun r => ?_⟩
      simp only [foldlM_say_singleton, takeLetters, hswitch, hsetting]
      rfl
  | @attached s c d value hc hd =>
      obtain ⟨hswitch, hsetting⟩ := ofLetter?_of_letter? hc
      refine .inl ⟨rfl, fun r => ?_⟩
      simp only [foldlM_say_singleton, takeLetters, hswitch, hsetting]
      split
      · next h => cases h
      · next h =>
        obtain ⟨rfl, -⟩ := List.cons.inj h
        exact absurd rfl hd
      · rfl
  | @apart s c value hc hvalue =>
      obtain ⟨hswitch, hsetting⟩ := ofLetter?_of_letter? hc
      refine .inr ⟨s, value, [], rfl, hvalue, rfl, fun r => ?_⟩
      simp only [takeLetters, hswitch, hsetting]
      rfl

/-- An argument that is no word is taken as it is, whatever comes behind it. -/
theorem takeAll_cons (hdashes : r.pending = none → argument ≠ "--")
    (hhelp : r.pending = none → argument ≠ helpWord) :
    r.takeAll (argument :: rest) =
      (r.take argument.toList).bind fun r => r.takeAll rest := by
  have hno : ¬ (r.pending.isNone = true ∧ argument = "--") := by
    rintro ⟨hp, hargument⟩
    exact hdashes (Option.isNone_iff_eq_none.1 hp) hargument
  have hhelp' : r.asksForHelp argument = false := by
    cases hp : r.pending with
    | none => simp [asksForHelp, hhelp hp]
    | some s => simp [asksForHelp, hp]
  rw [takeAll, if_neg hno, hhelp']
  cases r.take argument.toList <;> rfl

/-- A dash with something behind it is no word, unless that is another dash alone. -/
theorem takeAll_dash {c : Char} {cs : List Char} (hdashes : '-' :: c :: cs ≠ ['-', '-']) :
    r.takeAll (String.ofList ('-' :: c :: cs) :: rest) =
      (r.take ('-' :: c :: cs)).bind fun r' => r'.takeAll rest := by
  rw [takeAll_cons, String.toList_ofList]
  · intro _ h
    exact hdashes (by simpa using congrArg String.toList h)
  · intro _ h
    have hword := congrArg String.toList h
    simp [helpWord] at hword

/-- A value in an argument of its own is taken by the setting that waits for it. -/
theorem take_value {s : Setting} {value : List Char} (hvalue : StandsApart value) :
    ({ r with pending := some s } : Reading).take value = r.set s value := by
  unfold take
  split
  · next c cs _ => exact absurd rfl (hvalue c cs)
  · next s' hs _ =>
    obtain rfl := Option.some.inj hs
    exact set_pending ..
  all_goals simp at *

/-- A setting that has waited for its value is set to it. Where it has no place it is refused
either way. -/
theorem await_bind_takeAll {s : Setting} {value : List Char} (hvalue : StandsApart value) :
    ((r.await s).bind fun r' => r'.takeAll (String.ofList value :: rest)) =
      (r.set s value).bind fun r' => r'.takeAll rest := by
  cases hfits : s.fits r.verb with
  | true =>
      have hpending : ({ r with pending := some s } : Reading).pending ≠ none :=
        Option.some_ne_none s
      rw [await, hfits, if_pos rfl, Except.bind, takeAll_cons (absurd · hpending)
        (absurd · hpending), String.toList_ofList, take_value hvalue]
  | false => simp [await, set, hfits, Except.bind]

/-- A switch is taken by its long name. -/
theorem take_dashed_switch (hp : r.pending = none) (s : Switch) :
    r.take (dashed s.name) = r.turnOn s := by
  have hname : s.name.toList.takeWhile (· ≠ '=') = s.name.toList := by cases s <;> rfl
  have hrest : s.name.toList.dropWhile (· ≠ '=') = [] := by cases s <;> rfl
  have hswitch : Switch.ofName? s.name.toList = some s := Switch.ofName?_eq_some_iff.2 rfl
  rw [dashed, take.eq_def]
  simp only [hp, takeName, hname, hrest, hswitch]

/-- The long name of a setting is none of a switch. -/
theorem ofName?_of_setting (s : Setting) : Switch.ofName? s.name.toList = none := by
  cases s <;> decide

/-- A setting is taken by its long name with an attached value. -/
theorem take_dashed_equals (hp : r.pending = none) (s : Setting) (value : List Char) :
    r.take (dashed s.name ++ '=' :: value) = r.set s value := by
  have hname : (s.name.toList ++ '=' :: value).takeWhile (· ≠ '=') = s.name.toList := by
    cases s <;> rfl
  have hrest : (s.name.toList ++ '=' :: value).dropWhile (· ≠ '=') = '=' :: value := by
    cases s <;> rfl
  have hsetting : Setting.ofName? s.name.toList = some s := Setting.ofName?_eq_some_iff.2 rfl
  rw [dashed, take.eq_def]
  simp only [hp, List.cons_append, takeName, hname, hrest, ofName?_of_setting, hsetting]

/-- A setting with a long name alone waits for its value. -/
theorem take_dashed_setting (hp : r.pending = none) (s : Setting) :
    r.take (dashed s.name) = r.await s := by
  have hname : s.name.toList.takeWhile (· ≠ '=') = s.name.toList := by cases s <;> rfl
  have hrest : s.name.toList.dropWhile (· ≠ '=') = [] := by cases s <;> rfl
  have hsetting : Setting.ofName? s.name.toList = some s := Setting.ofName?_eq_some_iff.2 rfl
  rw [dashed, take.eq_def]
  simp only [hp, takeName, hname, hrest, ofName?_of_setting, hsetting]

/-- A letter in a row is no dash. -/
theorem ne_dash_of_letters {c : Char} (h : Letters (c :: row) next said) : c ≠ '-' := by
  have hswitch : ∀ s : Switch, s.letter? ≠ some '-' := by
    intro s
    cases s <;> decide
  have hsetting : ∀ s : Setting, s.letter? ≠ some '-' := by
    intro s
    cases s <;> decide
  rintro rfl
  cases h with
  | switch h => exact hswitch _ h
  | equals _ h | attached _ h | apart h => exact hsetting _ h

/-- **An item is taken as what it says.** -/
theorem takeAll_item (h : Item chunk said) (hp : r.pending = none) :
    r.takeAll (chunk.map String.ofList ++ rest) =
      (said.foldlM say r).bind fun r' => r'.takeAll rest := by
  cases h with
  | switch s =>
      have hdashes : dashed s.name ≠ ['-', '-'] := by cases s <;> decide
      rw [foldlM_say_singleton]
      exact (takeAll_dash hdashes).trans (congrArg (Except.bind · _) (take_dashed_switch hp s))
  | equals s value =>
      have hdashes : dashed s.name ++ '=' :: value ≠ ['-', '-'] := by
        cases s <;> simp [dashed, Setting.name]
      rw [foldlM_say_singleton]
      exact (takeAll_dash hdashes).trans
        (congrArg (Except.bind · _) (take_dashed_equals hp s value))
  | @apart s value hvalue =>
      have hdashes : dashed s.name ≠ ['-', '-'] := by cases s <;> decide
      rw [foldlM_say_singleton]
      refine Eq.trans ?_ (await_bind_takeAll hvalue)
      exact (takeAll_dash hdashes).trans (congrArg (Except.bind · _) (take_dashed_setting hp s))
  | @letters row next _ hletters hrow =>
      obtain ⟨c, row, rfl⟩ := List.exists_cons_of_ne_nil hrow
      have hc := ne_dash_of_letters hletters
      have htake : r.take ('-' :: c :: row) = r.takeLetters (c :: row) := by
        rw [take.eq_def]
        simp [hp]
      have hdashes : '-' :: c :: row ≠ ['-', '-'] := by simp [hc]
      rcases takeLetters_of_letters hletters with
        ⟨rfl, hrow⟩ | ⟨s, value, first, rfl, hvalue, rfl, hrow⟩
      · rw [← hrow, ← htake]
        exact takeAll_dash hdashes
      · refine (takeAll_dash hdashes).trans ?_
        rw [htake, hrow, foldlM_say_append]
        cases first.foldlM say r with
        | error e => rfl
        | ok r' =>
            simp only [Except.bind, foldlM_say_singleton]
            exact await_bind_takeAll hvalue

/-- **Items are taken one after the other**, as what they say. -/
theorem takeAll_spells (h : Spells chunk said) (hr : r.here.Holds r.verb past)
    (hp : r.pending = none) :
    r.takeAll (chunk.map String.ofList ++ rest) =
      (said.foldlM say r).bind fun r' => r'.takeAll rest := by
  induction h generalizing r past with
  | nil => rfl
  | @item chunk more said said' hitem _ ih =>
      rw [List.map_append, List.append_assoc, takeAll_item hitem hp, foldlM_say_append]
      cases hfirst : said.foldlM say r with
      | error e => rfl
      | ok r₁ =>
          obtain ⟨g, rfl, hg⟩ := hr.foldlM_say hp hfirst
          exact ih hg hp

end Reading

/-! ### What is asked for -/

variable {c : CommandLine} {before here : Given}

/-- A command line gives no more than one thing that is asked for. -/
theorem CommandLine.Gives.unique {a a' : Asked} (h : c.Gives a) (h' : c.Gives a') : a = a' := by
  obtain ⟨verb, ⟨maxDepth, rejectDuplicates, noNul⟩, input, output, tag⟩ := a
  obtain ⟨verb', ⟨maxDepth', rejectDuplicates', noNul'⟩, input', output', tag'⟩ := a'
  obtain rfl : verb = verb' := h.verb.trans h'.verb.symm
  obtain rfl : rejectDuplicates = rejectDuplicates' :=
    Bool.eq_iff_iff.2 (h.rejectDuplicates.trans h'.rejectDuplicates.symm)
  obtain rfl : noNul = noNul' := Bool.eq_iff_iff.2 (h.noNul.trans h'.noNul.symm)
  obtain rfl : maxDepth = maxDepth' :=
    Option.ext fun n => (h.maxDepth n).trans (h'.maxDepth n).symm
  obtain rfl : input = input' := Option.ext fun path => (h.input path).trans (h'.input path).symm
  obtain rfl : output = output' :=
    Option.ext fun path => (h.output path).trans (h'.output path).symm
  obtain rfl : tag = tag' := Option.ext fun tag => (h.tag tag).trans (h'.tag tag).symm
  rfl

/-- What the records of both sides come to. -/
def asked (verb : Verb) (before here : Given) : Asked :=
  { verb
    flags :=
      { maxDepth := here.maxDepth.or before.maxDepth
        rejectDuplicates := (here.switches ++ before.switches).contains .rejectDuplicates
        noNul := (here.switches ++ before.switches).contains .noNul }
    input := here.input
    output := here.output
    tag := here.tag }

theorem switches_contains_iff (hbefore : before.Holds none c.before)
    (hhere : here.Holds (some c.verb) c.after) (s : Switch) :
    (here.switches ++ before.switches).contains s = true ↔ .switch s ∈ c.before ++ c.after := by
  rw [List.contains_iff_mem, List.mem_append, List.mem_append, hbefore.switches, hhere.switches,
    or_comm]

/-- The depth limit behind the command counts, if there is one. -/
theorem maxDepth_or_eq_some_iff (hbefore : before.Holds none c.before)
    (hhere : here.Holds (some c.verb) c.after) (n : ℕ) :
    here.maxDepth.or before.maxDepth = some n ↔
      (∃ text, .setting .maxDepth text ∈ c.after ∧ IsWord text n) ∨
      (∀ text, .setting .maxDepth text ∉ c.after) ∧
        ∃ text, .setting .maxDepth text ∈ c.before ∧ IsWord text n := by
  rw [Option.or_eq_some_iff, hhere.maxDepth, hbefore.maxDepth, hhere.maxDepth_eq_none_iff,
    setting_mem_subjects_iff, not_exists]

/-- **The records give what they come to.** -/
theorem gives_asked (hbefore : before.Holds none c.before)
    (hhere : here.Holds (some c.verb) c.after) : c.Gives (asked c.verb before here) where
  verb := rfl
  allowed_before := hbefore.allowed
  allowed_after := hhere.allowed
  once_before := hbefore.once
  once_after := hhere.once
  rejectDuplicates := switches_contains_iff hbefore hhere _
  noNul := switches_contains_iff hbefore hhere _
  maxDepth := maxDepth_or_eq_some_iff hbefore hhere
  input := hhere.input
  output := hhere.output
  tag := hhere.tag

theorem finish_eq_asked (verb : Verb) (before here : Given) :
    ({ verb := some verb, before, here } : Reading).finish =
      .ok (asked verb before here).invocation := by
  cases verb <;> rfl

/-! ### Whole command lines -/

/-- The name of a command is taken for the command, if none has been named. -/
theorem take_verb (hverb : r.verb = none) (hp : r.pending = none) (verb : Verb) :
    r.take verb.name.toList = .ok { verb := some verb, before := r.here } := by
  have htake : r.take verb.name.toList = r.takeWord verb.name.toList := by
    rw [Reading.take.eq_def]
    cases verb <;> simp [hp, Verb.name]
  have hname : Verb.ofName? verb.name = some verb := Verb.ofName?_eq_some_iff.2 rfl
  rw [htake, Reading.takeWord, hverb, String.ofList_toList, hname]
  rfl

theorem takeAll_verb (hverb : r.verb = none) (hp : r.pending = none) (verb : Verb)
    (rest : List String) :
    r.takeAll (verb.name :: rest) =
      ({ verb := some verb, before := r.here } : Reading).takeAll rest := by
  rw [Reading.takeAll_cons, take_verb hverb hp]
  · rfl
  · cases verb <;> simp [Verb.name]
  · cases verb <;> simp [Verb.name, helpWord]

/-- **A command line is read as it is spelled**: what is said before the command, the command, and
what is said after it. -/
theorem ofArguments_of_spelledBy {arguments : List String} (h : c.SpelledBy arguments) :
    Invocation.ofArguments arguments =
      (c.before.foldlM Reading.say {}).bind fun r =>
        (c.after.foldlM Reading.say { verb := some c.verb, before := r.here }).bind
          Reading.finish := by
  obtain ⟨first, last, hfirst, hlast, harguments⟩ := h
  have htexts : arguments = (arguments.map String.toList).map String.ofList := by
    have hid : String.ofList ∘ String.toList = id := funext fun _ => String.ofList_toList
    rw [List.map_map, hid, List.map_id]
  obtain ⟨ending, hending, harguments⟩ : ∃ ending : List (List Char),
      (ending = [] ∨ ending = [['-', '-']]) ∧
        arguments.map String.toList = first ++ c.verb.name.toList :: (last ++ ending) := by
    rcases harguments with harguments | harguments
    · exact ⟨[], .inl rfl, by rw [List.append_nil, harguments]⟩
    · exact ⟨_, .inr rfl, harguments⟩
  rw [htexts, harguments, Invocation.ofArguments, List.map_append, List.map_cons,
    String.ofList_toList, Reading.takeAll_spells hfirst Given.holds_nil rfl]
  cases hbefore : c.before.foldlM Reading.say {} with
  | error e => rfl
  | ok r =>
      obtain ⟨before, rfl, -⟩ := Given.holds_nil.foldlM_say rfl hbefore
      simp only [Except.bind]
      rw [takeAll_verb rfl rfl, List.map_append,
        Reading.takeAll_spells hlast Given.holds_nil rfl]
      cases hafter : c.after.foldlM Reading.say { verb := some c.verb, before } with
      | error e => rfl
      | ok r' =>
          obtain ⟨here, rfl, -⟩ := Given.holds_nil.foldlM_say rfl hafter
          rcases hending with rfl | rfl <;> rfl

/-- **What is asked for is read.** -/
theorem ofArguments_of_asks {arguments : List String} {a : Asked} (h : Asks arguments a) :
    Invocation.ofArguments arguments = .ok a.invocation := by
  obtain ⟨c, hspelled, hgives⟩ := h
  obtain ⟨before, hsaid, hbefore⟩ := Given.holds_nil.exists_foldlM_say (r := {}) rfl
    hgives.allowed_before hgives.once_before
  obtain ⟨here, hsaid', hhere⟩ := Given.holds_nil.exists_foldlM_say
    (r := { verb := some c.verb, before }) rfl hgives.allowed_after hgives.once_after
  obtain rfl := hgives.unique (gives_asked hbefore hhere)
  rw [ofArguments_of_spelledBy hspelled, hsaid, ← finish_eq_asked]
  simp only [Except.bind, hsaid']

/-- **A command line gives what its records come to** when all that is said has been taken. -/
theorem gives_of_foldlM_say (hbefore : c.before.foldlM Reading.say {} = .ok { here := before })
    (hafter : c.after.foldlM Reading.say { verb := some c.verb, before } =
      .ok { verb := some c.verb, before, here }) : c.Gives (asked c.verb before here) := by
  obtain ⟨g, hg, hholds⟩ := Given.holds_nil.foldlM_say (r := {}) rfl hbefore
  obtain ⟨g', hg', hholds'⟩ := Given.holds_nil.foldlM_say
    (r := { verb := some c.verb, before }) rfl hafter
  obtain rfl := congrArg Reading.here hg
  obtain rfl := congrArg Reading.here hg'
  exact gives_asked hholds hholds'

/-- **What is said after the command is changed** in what it says about the file to write and about
the type. All else is given as before. -/
theorem CommandLine.Gives.change {a : Asked} {after : List Said} {output : Option String}
    {tag : Option Packed.Tag} (h : c.Gives a) (hallowed : ∀ x ∈ after, x.Allowed (some c.verb))
    (honce : (after.map Said.subject).Nodup)
    (hmem : ∀ x : Said, x.subject ≠ .inr .output → x.subject ≠ .inr .tag →
      (x ∈ after ↔ x ∈ c.after))
    (houtput : ∀ path, output = some path ↔ .setting .output path.toList ∈ after)
    (htag : ∀ t : Packed.Tag, tag = some t ↔ .setting .tag t.name.toList ∈ after) :
    ({ c with after } : CommandLine).Gives { a with output, tag } := by
  have hswitch : ∀ s, .switch s ∈ c.before ++ after ↔ .switch s ∈ c.before ++ c.after := by
    intro s
    rw [List.mem_append, List.mem_append, hmem _ (by simp [Said.subject]) (by simp [Said.subject])]
  have hsetting : ∀ s value, s ≠ .output → s ≠ .tag →
      (.setting s value ∈ after ↔ .setting s value ∈ c.after) := by
    intro s value hs hs'
    exact hmem _ (by simp [Said.subject, hs]) (by simp [Said.subject, hs'])
  exact
    { verb := h.verb
      allowed_before := h.allowed_before
      allowed_after := hallowed
      once_before := h.once_before
      once_after := honce
      rejectDuplicates := h.rejectDuplicates.trans (hswitch _).symm
      noNul := h.noNul.trans (hswitch _).symm
      maxDepth := by simpa only [hsetting .maxDepth _ (by simp) (by simp)] using h.maxDepth
      input := fun path => (h.input path).trans (hsetting .input _ (by simp) (by simp)).symm
      output := houtput
      tag := htag }

/-! ### A type besides -/

section

variable {arguments : List String} {a : Asked} {tag : Packed.Tag} {name : String}

/-- No type is asked for where none is said. -/
theorem CommandLine.Gives.tag_eq_none_iff (h : c.Gives a) :
    a.tag = none ↔ ∀ value, .setting .tag value ∉ c.after := by
  rw [Option.eq_none_iff_forall_ne_some]
  constructor
  · intro hnone value hvalue
    obtain ⟨-, tag, -, rfl⟩ := h.allowed_after _ hvalue
    exact hnone tag ((h.tag tag).2 hvalue)
  · exact fun hno tag htag => hno _ ((h.tag tag).1 htag)

/-- What has the name of a type, and none besides, is asked for with this type. -/
theorem AsksTyped.asks (h : AsksTyped arguments a tag.name) (hverb : a.verb = .pack)
    (hnone : a.tag = none) (htag : tag ≠ .error) : Asks arguments { a with tag := some tag } := by
  obtain ⟨c, first, last, hgives, hafter, hspelled⟩ := h
  have hnew := hgives.tag_eq_none_iff.1 hnone
  have hmem : ∀ x, x ∈ first ++ .setting .tag tag.name.toList :: last ↔
      x = .setting .tag tag.name.toList ∨ x ∈ c.after := by
    intro x
    rw [hafter, List.perm_middle.mem_iff, List.mem_cons]
  refine ⟨_, hspelled, hgives.change ?_ ?_ ?_ ?_ ?_⟩
  · intro x hx
    rcases (hmem x).1 hx with rfl | hx
    · exact ⟨congrArg some (hgives.verb.symm.trans hverb), tag, htag, rfl⟩
    · exact hgives.allowed_after x hx
  · rw [(List.perm_middle.map Said.subject).nodup_iff, ← hafter, List.map_cons, List.nodup_cons]
    refine ⟨?_, hgives.once_after⟩
    rw [Said.subject, setting_mem_subjects_iff, not_exists]
    exact hnew
  · intro x _ hx
    rw [hmem]
    refine or_iff_right ?_
    rintro rfl
    exact hx rfl
  · intro path
    rw [hmem, hgives.output]
    exact (or_iff_right (by simp)).symm
  · intro t
    rw [hmem]
    simp [hnew, String.toList_inj, tag_name_inj, eq_comm]

/-- **What has the name of no type** does not fit. -/
theorem AsksTyped.ofArguments_eq_usage (h : AsksTyped arguments a name)
    (hname : ∀ tag : Packed.Tag, tag ≠ .error → name ≠ tag.name) :
    Invocation.ofArguments arguments = .error .usage := by
  obtain ⟨c, first, last, hgives, hafter, hspelled⟩ := h
  obtain ⟨before, hsaid, -⟩ := Given.holds_nil.exists_foldlM_say (r := {}) rfl
    hgives.allowed_before hgives.once_before
  have hallowed : ∀ x ∈ first, x.Allowed (some c.verb) := fun x hx =>
    hgives.allowed_after x (hafter ▸ List.mem_append_left last hx)
  have honce : (first.map Said.subject).Nodup := by
    have honce := hgives.once_after
    rw [hafter, List.map_append] at honce
    exact (List.nodup_append.1 honce).1
  obtain ⟨here, hsaid', -⟩ := Given.holds_nil.exists_foldlM_say
    (r := { verb := some c.verb, before }) rfl hallowed honce
  have hunread : tagOfName? name = none := by
    rw [Option.eq_none_iff_forall_ne_some]
    intro tag htag
    obtain ⟨hne, heq⟩ := tagOfName?_eq_some_iff.1 htag
    exact hname tag hne heq
  have hrefused : ∀ r : Reading, r.say (.setting .tag name.toList) = .error .usage := by
    intro r
    simp only [Reading.say, Reading.set, String.ofList_toList, hunread]
    split_ifs
    · rfl
    · cases r.here.tag <;> rfl
  rw [ofArguments_of_spelledBy hspelled, hsaid]
  simp only [Except.bind, Reading.foldlM_say_append, hsaid', List.foldlM_cons, hrefused]
  rfl

end

/-! ### Without a file to write -/

/-- The argument with a long name that says something. -/
def Said.spelled : Said → List Char
  | .switch s => dashed s.name
  | .setting s value => dashed s.name ++ '=' :: value

theorem spells_map_spelled (said : List Said) : Spells (said.map Said.spelled) said := by
  induction said with
  | nil => exact .nil
  | cons x said ih =>
      cases x with
      | switch s => exact .item (.switch s) ih
      | setting s value => exact .item (.equals s value) ih

/-- **The same can be asked for without a file to write**, by leaving out what says its name. -/
theorem Asks.exists_shown {arguments : List String} {a : Asked} (h : Asks arguments a) :
    ∃ shownArguments, Asks shownArguments { a with output := none } := by
  obtain ⟨c, -, hgives⟩ := h
  let after := c.after.filter fun x => x.subject ≠ .inr .output
  have hmem : ∀ x : Said, x ∈ after ↔ x ∈ c.after ∧ x.subject ≠ .inr .output := by
    intro x
    rw [List.mem_filter, decide_eq_true_eq]
  let first := c.before.map Said.spelled
  let last := after.map Said.spelled
  refine ⟨(first ++ c.verb.name.toList :: last).map String.ofList, ⟨c.before, c.verb, after⟩,
    ⟨first, last, spells_map_spelled _, spells_map_spelled _, .inl ?_⟩,
    hgives.change ?_ ?_ ?_ ?_ ?_⟩
  · have hid : String.toList ∘ String.ofList = id := funext fun _ => String.toList_ofList
    rw [List.map_map, hid, List.map_id]
  · exact fun x hx => hgives.allowed_after x (List.mem_of_mem_filter hx)
  · exact hgives.once_after.sublist (List.filter_sublist.map _)
  · exact fun x hx _ => (hmem x).trans (and_iff_left hx)
  · simp [hmem, Said.subject]
  · intro t
    rw [hmem, hgives.tag]
    simp [Said.subject]

end StrictJson.Command
