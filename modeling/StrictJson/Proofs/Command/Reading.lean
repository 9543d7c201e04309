import StrictJson.Proofs.Command.Arguments

/-!
# What Is Read Is Asked For

Whatever the reader takes from the front of the arguments is an item of the grammar, so arguments
that are read as an invocation ask for it. Arguments that are not read do not fit, or there is one
among them that can be a request for help or for the version.

## Main results

* `ofArguments_eq_ok_iff`: the invocations that are read are those that are asked for.
* `Reading.exists_isRequest`: what stops the reading and fits is a request.
-/

namespace StrictJson.Command

variable {r r' : Reading} {said past : List Said}

/-! ### What is read is an item -/

namespace Reading

variable {row : List Char} {argument : String} {rest : List String} {i : Invocation}

/-- A setting that waits for its value is followed by a value. -/
theorem exists_value_of_takeAll {s : Setting}
    (h : ({ r with pending := some s } : Reading).takeAll rest = .ok i) :
    ∃ (value : List Char) (following : List String) (r₁ : Reading),
      rest = String.ofList value :: following ∧ StandsApart value ∧ r.set s value = .ok r₁ ∧
        r₁.takeAll following = .ok i := by
  have hpending : ({ r with pending := some s } : Reading).pending ≠ none := Option.some_ne_none s
  cases rest with
  | nil => cases h
  | cons argument following =>
      rw [takeAll_cons (absurd · hpending) (absurd · hpending)] at h
      have hvalue : StandsApart argument.toList := by
        intro c cs hdash
        rw [hdash] at h
        cases h
      rw [take_value hvalue] at h
      cases hset : r.set s argument.toList with
      | error e =>
          rw [hset] at h
          cases h
      | ok r₁ =>
          rw [hset] at h
          exact ⟨_, following, r₁, by rw [String.ofList_toList], hvalue, hset, h⟩

/-- **A row of letters that is taken** is one of the grammar, with or without a value to come. -/
theorem letters_of_takeLetters (h : r.takeLetters row = .ok r') :
    (∃ said, Letters row [] said ∧ said.foldlM say r = .ok r') ∨
      ∃ (said : List Said) (s : Setting) (r₁ : Reading), r' = { r₁ with pending := some s } ∧
        said.foldlM say r = .ok r₁ ∧
        ∀ value, StandsApart value → Letters row [value] (said ++ [.setting s value]) := by
  induction row generalizing r with
  | nil => exact .inl ⟨[], .nil, h⟩
  | cons c row ih =>
      rw [takeLetters] at h
      split at h
      · next _ _ s hletter =>
        have hc := Switch.ofLetter?_eq_some_iff.1 hletter
        split at h
        · next r₂ hturn =>
          have hsay : r.say (.switch s) = .ok r₂ := hturn
          rcases ih h with ⟨said, hrow, hsaid⟩ | ⟨said, s', r₁, hr', hsaid, hrow⟩
          · refine .inl ⟨_, .switch hc hrow, ?_⟩
            rw [List.foldlM_cons, hsay]
            exact hsaid
          · refine .inr ⟨.switch s :: said, s', r₁, hr', ?_, fun value hvalue => ?_⟩
            · rw [List.foldlM_cons, hsay]
              exact hsaid
            · exact .switch hc (hrow value hvalue)
        · cases h
      · next s _ hletter =>
        have hc := Setting.ofLetter?_eq_some_iff.1 hletter
        split at h
        · rw [await] at h
          split_ifs at h
          obtain rfl := Except.ok.inj h
          exact .inr ⟨[], s, r, rfl, rfl, fun value hvalue => .apart hc hvalue⟩
        · next value => exact .inl ⟨_, .equals value hc, foldlM_say_singleton.trans h⟩
        · next hne hequals =>
          obtain ⟨d, value, rfl⟩ := List.exists_cons_of_ne_nil hne
          have hd : d ≠ '=' := fun hd => hequals value (by rw [hd])
          exact .inl ⟨_, .attached value hc hd, foldlM_say_singleton.trans h⟩
      · cases h

/-- The reading of some arguments **begins with an item**, and goes on behind it. -/
def BeginsWithItem (r : Reading) (arguments : List String) (i : Invocation) : Prop :=
  ∃ (chunk : List (List Char)) (following : List String) (said : List Said) (r₁ : Reading),
    arguments = chunk.map String.ofList ++ following ∧ Item chunk said ∧
      said.foldlM say r = .ok r₁ ∧ r₁.takeAll following = .ok i ∧
      following.length < arguments.length

/-- What is taken for a long name is an item. -/
theorem beginsWithItem_of_takeName {name : List Char} {r₁ : Reading}
    (htake : r.takeName name = .ok r₁) (h : r₁.takeAll rest = .ok i) :
    r.BeginsWithItem (String.ofList ('-' :: '-' :: name) :: rest) i := by
  have hparts := List.takeWhile_append_dropWhile (p := (· ≠ '=')) (l := name)
  rw [takeName] at htake
  split at htake
  · next s hname hend =>
    rw [hend, List.append_nil, Switch.ofName?_eq_some_iff.1 hname] at hparts
    subst hparts
    exact ⟨[dashed s.name], rest, _, r₁, rfl, .switch s, foldlM_say_singleton.trans htake, h,
      Nat.lt_succ_self _⟩
  · next s _ hname hend =>
    rw [hend, List.append_nil, Setting.ofName?_eq_some_iff.1 hname] at hparts
    subst hparts
    rw [await] at htake
    split_ifs at htake
    obtain rfl := Except.ok.inj htake
    obtain ⟨value, following, r₂, rfl, hvalue, hset, hrest⟩ := exists_value_of_takeAll h
    exact ⟨[dashed s.name, value], following, _, r₂, rfl, .apart s hvalue,
      foldlM_say_singleton.trans hset, hrest, by simp only [List.length_cons]; omega⟩
  · next s d value _ hname hend =>
    have hd : d = '=' := by
      have hhead := List.head?_dropWhile_not (· ≠ '=') name
      rw [hend] at hhead
      simpa using hhead
    rw [hend, hd, Setting.ofName?_eq_some_iff.1 hname] at hparts
    subst hparts
    exact ⟨[dashed s.name ++ '=' :: value], rest, _, r₁, rfl, .equals s value,
      foldlM_say_singleton.trans htake, h, Nat.lt_succ_self _⟩
  · cases htake

/-- What is taken for a row of letters is an item. -/
theorem beginsWithItem_of_takeLetters {r₁ : Reading} (hrow : row ≠ [])
    (htake : r.takeLetters row = .ok r₁) (h : r₁.takeAll rest = .ok i) :
    r.BeginsWithItem (String.ofList ('-' :: row) :: rest) i := by
  rcases letters_of_takeLetters htake with ⟨said, hletters, hsaid⟩ |
    ⟨said, s, r₂, rfl, hsaid, hletters⟩
  · exact ⟨['-' :: row], rest, said, r₁, rfl, .letters hletters hrow, hsaid, h,
      Nat.lt_succ_self _⟩
  · obtain ⟨value, following, r₃, rfl, hvalue, hset, hrest⟩ := exists_value_of_takeAll h
    refine ⟨['-' :: row, value], following, _, r₃, rfl, .letters (hletters value hvalue) hrow, ?_,
      hrest, by simp only [List.length_cons]; omega⟩
    rw [List.foldlM_append, hsaid]
    exact foldlM_say_singleton.trans hset

/-- Nothing is read behind the word for help. -/
theorem takeAll_helpWord (hp : r.pending = none) :
    r.takeAll (helpWord :: rest) =
      .error (if r.verb = none then Stop.ofTopics rest else .usage) := by
  have hword : r.take helpWord.toList = r.takeWord helpWord.toList := by
    rw [take.eq_def]
    simp [hp, helpWord]
  have hdashes : ¬ (r.pending.isNone = true ∧ helpWord = "--") := fun h => absurd h.2 (by decide)
  rw [takeAll, if_neg hdashes, hword]
  cases hverb : r.verb with
  | none => simp [asksForHelp, hp, hverb]
  | some verb => simp [asksForHelp, hp, hverb, takeWord]

/-- **The next argument** is two dashes at the end, the command, or the beginning of an item. -/
theorem next_cases (hp : r.pending = none) (h : r.takeAll (argument :: rest) = .ok i) :
    (argument = "--" ∧ rest = [] ∧ r.finish = .ok i) ∨
      (∃ verb : Verb, argument = verb.name ∧ r.verb = none ∧
        ({ verb := some verb, before := r.here } : Reading).takeAll rest = .ok i) ∨
      r.BeginsWithItem (argument :: rest) i := by
  by_cases hdashes : argument = "--"
  · subst hdashes
    rw [takeAll, if_pos ⟨Option.isNone_iff_eq_none.2 hp, rfl⟩] at h
    split_ifs at h with hrest
    exact .inl ⟨rfl, List.isEmpty_iff.1 hrest, h⟩
  · right
    have hhelp : argument ≠ helpWord := by
      rintro rfl
      rw [takeAll_helpWord hp] at h
      split_ifs at h
    rw [takeAll_cons (fun _ => hdashes) fun _ => hhelp] at h
    cases htake : r.take argument.toList with
    | error e =>
        rw [htake] at h
        cases h
    | ok r₁ =>
        rw [htake] at h
        have hargument : argument = String.ofList argument.toList := String.ofList_toList.symm
        generalize argument.toList = text at htake hargument
        subst hargument
        rw [take.eq_def] at htake
        simp only [hp] at htake
        split at htake
        · next hsome => cases hsome
        · next hsome _ => cases hsome
        · next name => exact .inr (beginsWithItem_of_takeName htake h)
        · next letter letters _ _ =>
          exact .inr (beginsWithItem_of_takeLetters (List.cons_ne_nil _ _) htake h)
        · rw [takeWord] at htake
          split_ifs at htake with hverb
          split at htake
          · next verb hname =>
            obtain rfl := Except.ok.inj htake
            have hnone : r.verb = none := by simpa using hverb
            exact .inl ⟨verb, Verb.ofName?_eq_some_iff.1 hname, hnone, h⟩
          · cases htake

/-- **One side of the command** has been read: what is said there, and the record that holds it. It
ends with the arguments, with two dashes, or with the command. -/
theorem exists_side {arguments : List String} (hr : r.here.Holds r.verb past)
    (hp : r.pending = none) (h : r.takeAll arguments = .ok i) :
    ∃ (chunk : List (List Char)) (said : List Said) (g : Given), Spells chunk said ∧
      g.Holds r.verb (past ++ said) ∧
      (((arguments = chunk.map String.ofList ∨ arguments = chunk.map String.ofList ++ ["--"]) ∧
          ({ r with here := g } : Reading).finish = .ok i) ∨
        ∃ (verb : Verb) (rest : List String), r.verb = none ∧
          arguments = chunk.map String.ofList ++ verb.name :: rest ∧
          ({ verb := some verb, before := g } : Reading).takeAll rest = .ok i) := by
  induction hn : arguments.length using Nat.strong_induction_on generalizing r past arguments with
  | _ n ih =>
      have hnil : r.here.Holds r.verb (past ++ []) := by rwa [List.append_nil]
      cases arguments with
      | nil => exact ⟨[], [], r.here, .nil, hnil, .inl ⟨.inl rfl, h⟩⟩
      | cons argument rest =>
          rcases next_cases hp h with ⟨rfl, rfl, hfinish⟩ | ⟨verb, rfl, hverb, hrest⟩ |
            ⟨chunk, following, said, r₁, harguments, hitem, hsaid, hrest, hlt⟩
          · exact ⟨[], [], r.here, .nil, hnil, .inl ⟨.inr rfl, hfinish⟩⟩
          · exact ⟨[], [], r.here, .nil, hnil, .inr ⟨verb, rest, hverb, rfl, hrest⟩⟩
          · obtain ⟨g, rfl, hg⟩ := hr.foldlM_say hp hsaid
            obtain ⟨chunk', said', g', hspells, hg', hend⟩ :=
              ih following.length (hn ▸ hlt) (r := { r with here := g }) hg hp hrest rfl
            refine ⟨chunk ++ chunk', said ++ said', g', .item hitem hspells, ?_, ?_⟩
            · rwa [List.append_assoc] at hg'
            · rw [harguments, List.map_append]
              rcases hend with ⟨rfl | rfl, hfinish⟩ | ⟨verb, rest', hverb, rfl, hrest'⟩
              · exact .inl ⟨.inl rfl, hfinish⟩
              · exact .inl ⟨.inr (List.append_assoc ..).symm, hfinish⟩
              · exact .inr ⟨verb, rest', hverb, (List.append_assoc ..).symm, hrest'⟩

end Reading

/-- **What is read is asked for.** -/
theorem exists_asks_of_ofArguments {arguments : List String} {i : Invocation}
    (h : Invocation.ofArguments arguments = .ok i) :
    ∃ a, Asks arguments a ∧ a.invocation = i := by
  obtain ⟨first, before, g, hfirst, hbefore, ⟨-, hfinish⟩ | ⟨verb, rest, -, rfl, hrest⟩⟩ :=
    Reading.exists_side (r := {}) Given.holds_nil rfl h
  · cases hfinish
  · obtain ⟨last, after, g', hlast, hafter, ⟨hend, hfinish⟩ | ⟨verb', rest', hverb, -⟩⟩ :=
      Reading.exists_side (r := { verb := some verb, before := g }) Given.holds_nil rfl hrest
    · have hgives := gives_asked (c := ⟨before, verb, after⟩) hbefore hafter
      refine ⟨_, ⟨_, ⟨first, last, hfirst, hlast, ?_⟩, hgives⟩, ?_⟩
      · have hid : String.toList ∘ String.ofList = id := funext fun _ => String.toList_ofList
        rcases hend with rfl | rfl
        · left
          simp [hid]
        · right
          simp [hid]
      · exact Except.ok.inj ((finish_eq_asked ..).symm.trans hfinish)
    · cases hverb

/-- **The invocations that are read are those that are asked for.** -/
theorem ofArguments_eq_ok_iff {arguments : List String} {i : Invocation} :
    Invocation.ofArguments arguments = .ok i ↔ ∃ a, Asks arguments a ∧ a.invocation = i := by
  refine ⟨exists_asks_of_ofArguments, ?_⟩
  rintro ⟨a, ha, rfl⟩
  exact ofArguments_of_asks ha

/-! ### Requests -/

namespace Reading

variable {stop : Stop} {arguments : List String}

/-- Only two switches stop the reading otherwise than by not fitting. -/
theorem eq_of_turnOn_eq_error {s : Switch} (h : r.turnOn s = .error stop) (hstop : stop ≠ .usage) :
    s = .help ∨ s = .version := by
  unfold turnOn at h
  split_ifs at h with hfits hversion hhelp hold
  · exact absurd (Except.error.inj h).symm hstop
  · exact .inr hversion
  · exact .inl hhelp
  · exact absurd (Except.error.inj h).symm hstop

theorem eq_usage_of_set {s : Setting} {value : List Char} (h : r.set s value = .error stop) :
    stop = .usage := by
  cases s <;> simp only [set] at h <;> repeat' split at h
  all_goals cases h <;> rfl

theorem eq_usage_of_await {s : Setting} (h : r.await s = .error stop) : stop = .usage := by
  rw [await] at h
  split_ifs at h
  exact (Except.error.inj h).symm

theorem eq_usage_of_finish (h : r.finish = .error stop) : stop = .usage := by
  rw [finish] at h
  split_ifs at h
  · exact (Except.error.inj h).symm
  · split at h <;> cases h
    rfl

/-- A row of letters that stops the reading is a request. -/
theorem exists_letter_of_takeLetters {row : List Char} (h : r.takeLetters row = .error stop)
    (hstop : stop ≠ .usage) :
    ∃ (n : ℕ) (c : Char) (rest : List Char), (c = 'h' ∨ c = 'V') ∧
      row = List.replicate n 'v' ++ c :: rest := by
  induction row generalizing r with
  | nil => cases h
  | cons c row ih =>
      rw [takeLetters] at h
      split at h
      · next _ _ s hletter =>
        have hc := Switch.ofLetter?_eq_some_iff.1 hletter
        split at h
        · next r₁ hturn =>
          obtain ⟨n, d, rest, hd, rfl⟩ := ih h
          cases s with
          | verbose =>
              obtain rfl := Option.some.inj hc
              exact ⟨n + 1, d, rest, hd, rfl⟩
          | version =>
              obtain rfl := Option.some.inj hc
              exact ⟨0, 'V', _, .inr rfl, rfl⟩
          | help =>
              obtain rfl := Option.some.inj hc
              exact ⟨0, 'h', _, .inl rfl, rfl⟩
          | rejectDuplicates | noNul => cases hc
        · next e hturn =>
          obtain rfl := Except.error.inj h
          rcases eq_of_turnOn_eq_error hturn hstop with rfl | rfl
          · obtain rfl := Option.some.inj hc
            exact ⟨0, 'h', row, .inl rfl, rfl⟩
          · obtain rfl := Option.some.inj hc
            exact ⟨0, 'V', row, .inr rfl, rfl⟩
      · split at h
        · exact absurd (eq_usage_of_await h) hstop
        · exact absurd (eq_usage_of_set h) hstop
        · exact absurd (eq_usage_of_set h) hstop
      · exact absurd (Except.error.inj h).symm hstop

/-- An argument that stops the reading is a request, if it is not one that does not fit. -/
theorem isRequest_of_take {argument : String} (h : r.take argument.toList = .error stop)
    (hstop : stop ≠ .usage) : IsRequest argument := by
  have hargument : argument = String.ofList argument.toList := String.ofList_toList.symm
  generalize argument.toList = text at h hargument
  subst hargument
  rw [take.eq_def] at h
  split at h
  · exact absurd (Except.error.inj h).symm hstop
  · exact absurd (eq_usage_of_set h) hstop
  · next name _ =>
    rw [takeName] at h
    have hparts := List.takeWhile_append_dropWhile (p := (· ≠ '=')) (l := name)
    split at h
    · next s hname hend =>
      rw [hend, List.append_nil, Switch.ofName?_eq_some_iff.1 hname] at hparts
      subst hparts
      rcases eq_of_turnOn_eq_error h hstop with rfl | rfl
      · exact .inr (.inl rfl)
      · exact .inr (.inr (.inl rfl))
    · exact absurd (eq_usage_of_await h) hstop
    · exact absurd (eq_usage_of_set h) hstop
    · exact absurd (Except.error.inj h).symm hstop
  · next letter letters _ _ =>
    obtain ⟨n, c, row, hc, hrow⟩ := exists_letter_of_takeLetters h hstop
    exact .inr (.inr (.inr ⟨n, c, row, hc, by rw [String.toList_ofList, hrow]⟩))
  · rw [takeWord] at h
    split_ifs at h
    · exact absurd (Except.error.inj h).symm hstop
    · split at h
      · cases h
      · exact absurd (Except.error.inj h).symm hstop

/-- **Arguments that stop the reading** hold a request, or they do not fit. -/
theorem exists_isRequest (h : r.takeAll arguments = .error stop) (hstop : stop ≠ .usage) :
    ∃ argument ∈ arguments, IsRequest argument := by
  induction arguments generalizing r with
  | nil => exact absurd (eq_usage_of_finish h) hstop
  | cons argument rest ih =>
      rw [takeAll] at h
      split_ifs at h with hdashes hrest hhelp
      · exact absurd (eq_usage_of_finish h) hstop
      · exact absurd (Except.error.inj h).symm hstop
      · simp only [asksForHelp, Bool.and_eq_true, decide_eq_true_eq] at hhelp
        exact ⟨argument, List.mem_cons_self, .inl hhelp.2⟩
      · split at h
        · obtain ⟨request, hmem, hrequest⟩ := ih h
          exact ⟨request, List.mem_cons_of_mem _ hmem, hrequest⟩
        · next e htake =>
          obtain rfl := Except.error.inj h
          exact ⟨argument, List.mem_cons_self, isRequest_of_take htake hstop⟩

end Reading

end StrictJson.Command
