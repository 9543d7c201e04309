import Mathlib.Data.List.Induction
import StrictJson.Proofs.Command.Grammar

/-!
# What Is Said Is Recorded

The reader of arguments keeps a record for either side of the command. The invariant of a side is
that its record holds what has been said there, all of it allowed and nothing twice
(`Given.Holds`). One thing more is taken exactly if it is allowed and new, and the record then holds
it too. So the reader takes a row of things exactly if the grammar has them, whatever the arguments
were that said them.

## Main definitions

* `Reading.say`: takes one thing that is said.
* `Given.Holds`: a record of what has been said.

## Main results

* `Given.Holds.exists_say`, `Given.Holds.mayFollow_of_say`: when one thing more is taken.
* `Given.Holds.exists_foldlM_say`, `Given.Holds.foldlM_say`: when a row of things is taken.
-/

namespace StrictJson.Command

variable {r r' : Reading} {verb : Option Verb} {g : Given} {said past : List Said}

/-! ### Names -/

theorem Verb.ofName?_eq_some_iff {name : String} {verb : Verb} :
    Verb.ofName? name = some verb ↔ name = verb.name := by
  constructor
  · intro h
    unfold Verb.ofName? at h
    split_ifs at h <;> (obtain rfl := Option.some.inj h; assumption)
  · rintro rfl
    cases verb <;> rfl

theorem Switch.ofName?_eq_some_iff {name : List Char} {s : Switch} :
    Switch.ofName? name = some s ↔ name = s.name.toList := by
  constructor
  · intro h
    unfold Switch.ofName? at h
    split_ifs at h <;> (obtain rfl := Option.some.inj h; assumption)
  · rintro rfl
    cases s <;> decide

theorem Switch.ofLetter?_eq_some_iff {c : Char} {s : Switch} :
    Switch.ofLetter? c = some s ↔ s.letter? = some c := by
  constructor
  · intro h
    unfold Switch.ofLetter? at h
    split_ifs at h <;> (obtain rfl := Option.some.inj h; exact (congrArg some ‹c = _›).symm)
  · intro h
    cases s <;> cases h <;> rfl

theorem Setting.ofName?_eq_some_iff {name : List Char} {s : Setting} :
    Setting.ofName? name = some s ↔ name = s.name.toList := by
  constructor
  · intro h
    unfold Setting.ofName? at h
    split_ifs at h <;> (obtain rfl := Option.some.inj h; assumption)
  · rintro rfl
    cases s <;> decide

theorem Setting.ofLetter?_eq_some_iff {c : Char} {s : Setting} :
    Setting.ofLetter? c = some s ↔ s.letter? = some c := by
  constructor
  · intro h
    unfold Setting.ofLetter? at h
    split_ifs at h <;> (obtain rfl := Option.some.inj h; exact (congrArg some ‹c = _›).symm)
  · intro h
    cases s <;> cases h <;> rfl

theorem tagOfName?_eq_some_iff {name : String} {tag : Packed.Tag} :
    tagOfName? name = some tag ↔ tag ≠ .error ∧ name = tag.name := by
  constructor
  · intro h
    unfold tagOfName? at h
    split_ifs at h <;> (obtain rfl := Option.some.inj h; exact ⟨nofun, by assumption⟩)
  · rintro ⟨htag, rfl⟩
    cases tag <;> first | rfl | exact absurd rfl htag

theorem tag_name_inj {tag tag' : Packed.Tag} : tag.name = tag'.name ↔ tag = tag' := by
  cases tag <;> cases tag' <;> decide

/-- The number that is gathered from digits is the one that they spell. -/
theorem foldl_digits_eq_ofDigits (digits : List Char) :
    digits.foldl (fun n c => n * 10 + (c.toNat - '0'.toNat)) 0 =
      Nat.ofDigits 10 (digits.reverse.map fun c => c.toNat - '0'.toNat) := by
  induction digits using List.reverseRecOn with
  | nil => rfl
  | append_singleton digits c ih =>
      rw [List.foldl_append, List.foldl_cons, List.foldl_nil, ih, List.reverse_append,
        List.reverse_singleton, List.singleton_append, List.map_cons, Nat.ofDigits_cons]
      omega

/-- Digits are read as the number that they spell. -/
theorem wordOfDigits?_eq_some_iff {digits : List Char} {n : ℕ} :
    wordOfDigits? digits = some n ↔ digits ≠ [] ∧ (∀ c ∈ digits, c.isDigit = true) ∧
      n = Nat.ofDigits 10 (digits.reverse.map fun c => c.toNat - '0'.toNat) ∧
      n < 0x10000000000000000 := by
  simp only [wordOfDigits?, foldl_digits_eq_ofDigits, List.isEmpty_iff, Bool.not_eq_true',
    List.all_eq_false]
  split_ifs with hdigits hn
  · refine iff_of_false nofun ?_
    rintro ⟨hne, hall, -⟩
    rcases hdigits with hnil | ⟨c, hc, hno⟩
    · exact hne hnil
    · exact hno (hall c hc)
  · simp only [not_or, not_exists, not_and, not_not] at hdigits
    simp only [Option.some.injEq]
    constructor
    · rintro rfl
      exact ⟨hdigits.1, hdigits.2, rfl, hn⟩
    · rintro ⟨-, -, rfl, -⟩
      rfl
  · refine iff_of_false nofun ?_
    rintro ⟨-, -, rfl, hlt⟩
    exact hn hlt

/-- **A word is read as the number that its digits spell.** -/
theorem wordOfText?_eq_some_iff {text : List Char} {n : ℕ} :
    wordOfText? text = some n ↔ IsWord text n := by
  constructor
  · intro h
    rw [wordOfText?.eq_def] at h
    split at h
    · next digits => exact ⟨digits, .inr rfl, wordOfDigits?_eq_some_iff.1 h⟩
    · exact ⟨text, .inl rfl, wordOfDigits?_eq_some_iff.1 h⟩
  · rintro ⟨digits, rfl | rfl, h⟩
    · rw [wordOfText?]
      · exact wordOfDigits?_eq_some_iff.2 h
      · rintro rest rfl
        exact absurd (h.2.1 '+' List.mem_cons_self) (by decide)
    · exact wordOfDigits?_eq_some_iff.2 h

/-! ### What has been said -/

/-- Takes one thing that is **said**. -/
def Reading.say (r : Reading) : Said → Except Stop Reading
  | .switch s => r.turnOn s
  | .setting s value => r.set s value

/-- The record of one side **holds** what has been said there: all of it is allowed, nothing is said
twice about one thing, and each entry of the record has been said. -/
structure Given.Holds (verb : Option Verb) (g : Given) (said : List Said) : Prop where
  allowed : ∀ x ∈ said, x.Allowed verb
  once : (said.map Said.subject).Nodup
  switches : ∀ s, s ∈ g.switches ↔ .switch s ∈ said
  input : ∀ path, g.input = some path ↔ .setting .input path.toList ∈ said
  output : ∀ path, g.output = some path ↔ .setting .output path.toList ∈ said
  tag : ∀ tag : Packed.Tag, g.tag = some tag ↔ .setting .tag tag.name.toList ∈ said
  maxDepth : ∀ n, g.maxDepth = some n ↔ ∃ text, .setting .maxDepth text ∈ said ∧ IsWord text n

/-- At first nothing has been said. -/
theorem Given.holds_nil : Given.Holds verb {} [] where
  allowed := by simp
  once := List.nodup_nil
  switches := by simp
  input := by simp
  output := by simp
  tag := by simp
  maxDepth := by simp

theorem switch_mem_subjects_iff {s : Switch} :
    Sum.inl s ∈ said.map Said.subject ↔ .switch s ∈ said := by
  rw [List.mem_map]
  constructor
  · rintro ⟨x, hx, hs⟩
    cases x with
    | switch s' =>
        obtain rfl := Sum.inl.inj hs
        exact hx
    | setting s' value => cases hs
  · exact fun h => ⟨_, h, rfl⟩

theorem setting_mem_subjects_iff {s : Setting} :
    Sum.inr s ∈ said.map Said.subject ↔ ∃ value, .setting s value ∈ said := by
  rw [List.mem_map]
  constructor
  · rintro ⟨x, hx, hs⟩
    cases x with
    | switch s' => cases hs
    | setting s' value =>
        obtain rfl := Sum.inr.inj hs
        exact ⟨value, hx⟩
  · rintro ⟨value, h⟩
    exact ⟨_, h, rfl⟩

/-- One thing more is **new** and allowed. -/
def Said.MayFollow (verb : Option Verb) (said : List Said) (x : Said) : Prop :=
  x.Allowed verb ∧ x.subject ∉ said.map Said.subject

namespace Given.Holds

/-- A record holds one thing more if this is new and allowed and each entry has been said. -/
theorem snoc {g' : Given} {x : Said} (h : g.Holds verb said) (hx : x.MayFollow verb said)
    (hswitches : ∀ s, s ∈ g'.switches ↔ s ∈ g.switches ∨ x = .switch s)
    (hinput : ∀ path, g'.input = some path ↔
      g.input = some path ∨ x = .setting .input path.toList)
    (houtput : ∀ path, g'.output = some path ↔
      g.output = some path ∨ x = .setting .output path.toList)
    (htag : ∀ tag : Packed.Tag, g'.tag = some tag ↔
      g.tag = some tag ∨ x = .setting .tag tag.name.toList)
    (hdepth : ∀ n, g'.maxDepth = some n ↔
      g.maxDepth = some n ∨ ∃ text, x = .setting .maxDepth text ∧ IsWord text n) :
    g'.Holds verb (said ++ [x]) where
  allowed := by
    simp only [List.mem_append, List.mem_singleton]
    rintro y (hy | rfl)
    · exact h.allowed y hy
    · exact hx.1
  once := by
    rw [List.map_append, List.map_singleton]
    exact List.nodup_append.2 ⟨h.once, List.nodup_singleton _, by
      rintro a ha b hb rfl
      exact hx.2 (List.mem_singleton.1 hb ▸ ha)⟩
  switches s := by
    rw [hswitches, h.switches, List.mem_append, List.mem_singleton, eq_comm (a := x)]
  input path := by
    rw [hinput, h.input, List.mem_append, List.mem_singleton, eq_comm (a := x)]
  output path := by
    rw [houtput, h.output, List.mem_append, List.mem_singleton, eq_comm (a := x)]
  tag tag := by
    rw [htag, h.tag, List.mem_append, List.mem_singleton, eq_comm (a := x)]
  maxDepth n := by
    simp only [hdepth, h.maxDepth, List.mem_append, List.mem_singleton, or_and_right, exists_or,
      eq_comm (a := x)]

/-! An entry is empty as long as nothing has been said about its setting. -/

theorem input_eq_none_iff (h : g.Holds verb said) :
    g.input = none ↔ Sum.inr .input ∉ said.map Said.subject := by
  rw [setting_mem_subjects_iff, Option.eq_none_iff_forall_ne_some, not_exists]
  constructor
  · intro hnone value hvalue
    exact hnone (String.ofList value) ((h.input _).2 (by rwa [String.toList_ofList]))
  · exact fun hno path hpath => hno _ ((h.input path).1 hpath)

theorem output_eq_none_iff (h : g.Holds verb said) :
    g.output = none ↔ Sum.inr .output ∉ said.map Said.subject := by
  rw [setting_mem_subjects_iff, Option.eq_none_iff_forall_ne_some, not_exists]
  constructor
  · intro hnone value hvalue
    exact hnone (String.ofList value) ((h.output _).2 (by rwa [String.toList_ofList]))
  · exact fun hno path hpath => hno _ ((h.output path).1 hpath)

theorem tag_eq_none_iff (h : g.Holds verb said) :
    g.tag = none ↔ Sum.inr .tag ∉ said.map Said.subject := by
  rw [setting_mem_subjects_iff, Option.eq_none_iff_forall_ne_some, not_exists]
  constructor
  · intro hnone value hvalue
    obtain ⟨-, tag, -, rfl⟩ := h.allowed _ hvalue
    exact hnone tag ((h.tag tag).2 hvalue)
  · exact fun hno tag htag => hno _ ((h.tag tag).1 htag)

theorem maxDepth_eq_none_iff (h : g.Holds verb said) :
    g.maxDepth = none ↔ Sum.inr .maxDepth ∉ said.map Said.subject := by
  rw [setting_mem_subjects_iff, Option.eq_none_iff_forall_ne_some, not_exists]
  constructor
  · intro hnone value hvalue
    obtain ⟨n, hn⟩ := h.allowed _ hvalue
    exact hnone n ((h.maxDepth n).2 ⟨value, hvalue, hn⟩)
  · intro hno n hn
    obtain ⟨value, hvalue, -⟩ := (h.maxDepth n).1 hn
    exact hno value hvalue

/-! ### One thing more -/

/-- A switch is taken if it is new and allowed. -/
theorem exists_turnOn (h : r.here.Holds r.verb said) {s : Switch}
    (hs : (Said.switch s).MayFollow r.verb said) :
    ∃ g, r.turnOn s = .ok { r with here := g } ∧ g.Holds r.verb (said ++ [.switch s]) := by
  have hnew : s ∉ r.here.switches := by
    rw [h.switches, ← switch_mem_subjects_iff]
    exact hs.2
  refine ⟨{ r.here with switches := s :: r.here.switches }, ?_, ?_⟩
  · cases s with
    | version | help => exact absurd hs.1 id
    | verbose | rejectDuplicates | noNul => simp [Reading.turnOn, Switch.fits, hnew]
  · refine h.snoc hs ?_ ?_ ?_ ?_ ?_ <;> simp [or_comm, eq_comm]

/-- A setting is taken if it is new and allowed. -/
theorem exists_set (h : r.here.Holds r.verb said) (hp : r.pending = none) {s : Setting}
    {value : List Char} (hs : (Said.setting s value).MayFollow r.verb said) :
    ∃ g, r.set s value = .ok { r with here := g } ∧
      g.Holds r.verb (said ++ [.setting s value]) := by
  cases s with
  | input =>
      have hnone := h.input_eq_none_iff.2 hs.2
      have hverb : r.verb.isSome = true := Option.isSome_iff_ne_none.2 hs.1
      refine ⟨{ r.here with input := some (String.ofList value) }, ?_, ?_⟩
      · simp [Reading.set, Setting.fits, hnone, hverb, hp]
      · refine h.snoc hs ?_ ?_ ?_ ?_ ?_ <;> simp [hnone, String.ext_iff, eq_comm]
  | output =>
      have hnone := h.output_eq_none_iff.2 hs.2
      have hverb : r.verb = some .dump ∨ r.verb = some .pack ∨ r.verb = some .unpack := hs.1
      refine ⟨{ r.here with output := some (String.ofList value) }, ?_, ?_⟩
      · simp [Reading.set, Setting.fits, hnone, hverb, hp]
      · refine h.snoc hs ?_ ?_ ?_ ?_ ?_ <;> simp [hnone, String.ext_iff, eq_comm]
  | tag =>
      have hnone := h.tag_eq_none_iff.2 hs.2
      obtain ⟨hverb, tag, htag, rfl⟩ := hs.1
      have hread : tagOfName? tag.name = some tag := tagOfName?_eq_some_iff.2 ⟨htag, rfl⟩
      refine ⟨{ r.here with tag := some tag }, ?_, ?_⟩
      · simp [Reading.set, Setting.fits, hnone, hverb, hp, hread]
      · refine h.snoc hs ?_ ?_ ?_ ?htag ?_
        case htag => simp [hnone, String.toList_inj, tag_name_inj]
        all_goals simp
  | maxDepth =>
      have hnone := h.maxDepth_eq_none_iff.2 hs.2
      obtain ⟨n, hn⟩ := hs.1
      have hread := wordOfText?_eq_some_iff.2 hn
      refine ⟨{ r.here with maxDepth := some n }, ?_, ?_⟩
      · simp [Reading.set, Setting.fits, hnone, hp, hread]
      · refine h.snoc hs ?_ ?_ ?_ ?_ ?hdepth
        case hdepth => simp [hnone, ← wordOfText?_eq_some_iff, hread]
        all_goals simp

/-- **One thing more is taken** if it is new and allowed, and then the record holds it too. -/
theorem exists_say (h : r.here.Holds r.verb said) (hp : r.pending = none) {x : Said}
    (hx : x.MayFollow r.verb said) :
    ∃ g, r.say x = .ok { r with here := g } ∧ g.Holds r.verb (said ++ [x]) := by
  cases x with
  | switch s => exact h.exists_turnOn hx
  | setting s value => exact h.exists_set hp hx

/-- A switch that is taken is new and allowed. -/
theorem mayFollow_of_turnOn (h : r.here.Holds r.verb said) {s : Switch}
    (hs : r.turnOn s = .ok r') : (Said.switch s).MayFollow r.verb said := by
  unfold Reading.turnOn at hs
  split_ifs at hs with hfits hversion hhelp hold
  refine ⟨?_, ?_⟩
  · cases s with
    | version => exact absurd rfl hversion
    | help => exact absurd rfl hhelp
    | verbose | rejectDuplicates | noNul => trivial
  · rw [Said.subject, switch_mem_subjects_iff, ← h.switches]
    exact hold

/-- A setting that is taken is new and allowed. -/
theorem mayFollow_of_set (h : r.here.Holds r.verb said) {s : Setting} {value : List Char}
    (hs : r.set s value = .ok r') : (Said.setting s value).MayFollow r.verb said := by
  cases s with
  | input =>
      simp only [Reading.set] at hs
      split_ifs at hs with hfits hold
      have hverb : r.verb ≠ none := by simpa [Setting.fits] using hfits
      exact ⟨hverb, h.input_eq_none_iff.1 (by simpa using hold)⟩
  | output =>
      simp only [Reading.set] at hs
      split_ifs at hs with hfits hold
      have hverb : r.verb = some .dump ∨ r.verb = some .pack ∨ r.verb = some .unpack := by
        simpa [Setting.fits, or_iff_not_imp_left] using hfits
      exact ⟨hverb, h.output_eq_none_iff.1 (by simpa using hold)⟩
  | tag =>
      simp only [Reading.set] at hs
      split_ifs at hs with hfits
      have hverb : r.verb = some .pack := by simpa [Setting.fits] using hfits
      split at hs
      · next tag hnone hread =>
        obtain ⟨htag, hname⟩ := tagOfName?_eq_some_iff.1 hread
        refine ⟨⟨hverb, tag, htag, ?_⟩, h.tag_eq_none_iff.1 hnone⟩
        rw [← hname, String.toList_ofList]
      · simp at hs
  | maxDepth =>
      simp only [Reading.set] at hs
      split_ifs at hs with hfits
      split at hs
      · next n hnone hread =>
        exact ⟨⟨n, wordOfText?_eq_some_iff.1 hread⟩, h.maxDepth_eq_none_iff.1 hnone⟩
      · simp at hs

/-- **What is taken is new and allowed.** -/
theorem mayFollow_of_say (h : r.here.Holds r.verb said) {x : Said} (hx : r.say x = .ok r') :
    x.MayFollow r.verb said := by
  cases x with
  | switch s => exact h.mayFollow_of_turnOn hx
  | setting s value => exact h.mayFollow_of_set hx

/-! ### All that is said -/

/-- **All that is said is taken** if it is allowed and nothing is said twice. -/
theorem exists_foldlM_say (h : r.here.Holds r.verb past) (hp : r.pending = none)
    (hallowed : ∀ x ∈ said, x.Allowed r.verb) (honce : ((past ++ said).map Said.subject).Nodup) :
    ∃ g, said.foldlM Reading.say r = .ok { r with here := g } ∧ g.Holds r.verb (past ++ said) := by
  induction said generalizing r past with
  | nil => exact ⟨r.here, rfl, by rwa [List.append_nil]⟩
  | cons x said ih =>
      obtain ⟨hx, hsaid⟩ := List.forall_mem_cons.1 hallowed
      have hnew : x.subject ∉ past.map Said.subject := by
        rw [List.map_append, List.map_cons] at honce
        intro hold
        exact (List.nodup_append.1 honce).2.2 _ hold _ List.mem_cons_self rfl
      obtain ⟨g, hsay, hg⟩ := h.exists_say hp ⟨hx, hnew⟩
      obtain ⟨g', hmore, hg'⟩ := ih (r := { r with here := g }) hg hp hsaid
        (by rwa [List.append_assoc, List.singleton_append])
      refine ⟨g', ?_, by rwa [List.append_assoc, List.singleton_append] at hg'⟩
      rw [List.foldlM_cons, hsay]
      exact hmore

/-- **What has been taken has been said**, and the record holds it. -/
theorem foldlM_say (h : r.here.Holds r.verb past) (hp : r.pending = none)
    (hsaid : said.foldlM Reading.say r = .ok r') :
    ∃ g, r' = { r with here := g } ∧ g.Holds r.verb (past ++ said) := by
  induction said generalizing r past with
  | nil =>
      obtain rfl := Except.ok.inj hsaid
      exact ⟨r.here, rfl, by rwa [List.append_nil]⟩
  | cons x said ih =>
      rw [List.foldlM_cons] at hsaid
      cases hsay : r.say x with
      | error e => simp [hsay, bind, Except.bind] at hsaid
      | ok r₁ =>
          obtain ⟨g, hsay', hg⟩ := h.exists_say hp (h.mayFollow_of_say hsay)
          obtain rfl := Except.ok.inj (hsay.symm.trans hsay')
          rw [hsay'] at hsaid
          obtain ⟨g', rfl, hg'⟩ := ih (r := { r with here := g }) hg hp hsaid
          exact ⟨g', rfl, by rwa [List.append_assoc, List.singleton_append] at hg'⟩

end Given.Holds

end StrictJson.Command
