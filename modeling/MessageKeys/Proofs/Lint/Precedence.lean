import Mathlib.Data.List.Infix
import MessageKeys.Lint.Options
import MessageKeys.Proofs.Files.Patterns

/-!
# Where the options of a rule come from

The options of a rule and the section of the settings are checked as a whole: every name in them
must be known and every value must be a text (`checkOptions_eq_ok_iff`).  Of what they give, a field
takes the first text that is not empty, the option before the setting before the default
(`resolve_eq_ok_iff`), and only the locale that is taken is checked further.  So a locale of the
settings that leads out of the messages directory does no harm under an option that hides it
(`resolve_precedence`).
-/

namespace MessageKeys

theorem exists_error_iff {ε α : Type} {x : Except ε α} :
    (∃ e, x = .error e) ↔ ¬∃ a, x = .ok a := by
  cases x <;> simp

theorem Text.includes_iff (part text : Text) :
    Text.includes part text = true ↔ part <:+: text := by
  induction text with
  | nil => simp [Text.includes]
  | cons c rest ih =>
      rw [Text.includes, Bool.or_eq_true, List.isPrefixOf_iff_prefix, ih, List.infix_cons_iff]

/-- A locale code with something in it that leads to another directory. -/
def Locale.LeadsOut (code : Text) : Prop :=
  PathName.up <:+: code ∨ PathName.slash ∈ code ∨ CodePoint.ofChar '\\' ∈ code

instance (code : Text) : Decidable (Locale.LeadsOut code) :=
  inferInstanceAs (Decidable (_ ∨ _ ∨ _))

theorem Locale.fault?_eq_none_iff_not_leadsOut (code : Text) :
    Locale.fault? code = none ↔ code ≠ [] ∧ ¬Locale.LeadsOut code := by
  have hempty : code.isEmpty = true ↔ code = [] := List.isEmpty_iff
  have hup := Text.includes_iff PathName.up code
  have hslash : code.contains PathName.slash = true ↔ PathName.slash ∈ code :=
    List.contains_iff_mem
  have hbackslash : code.contains (CodePoint.ofChar '\\') = true ↔ CodePoint.ofChar '\\' ∈ code :=
    List.contains_iff_mem
  unfold Locale.fault? Locale.LeadsOut
  rw [← hup, ← hslash, ← hbackslash, ← Bool.or_eq_true, Ne, ← hempty]
  split_ifs <;> simp_all

theorem Locale.LeadsOut.ne_nil {code : Text} (h : Locale.LeadsOut code) : code ≠ [] := by
  rintro rfl
  rcases h with hup | hslash | hbackslash
  · exact absurd (List.infix_nil.mp hup) (by decide)
  · exact List.not_mem_nil hslash
  · exact List.not_mem_nil hbackslash

namespace RuleOptions

/-! ## Checked options -/

/-- A member that may stand among options: its name is known and its value is a text. -/
def IsOption (member : Text × Json) : Prop :=
  (member.1 = directoryName ∨ member.1 = localeName) ∧ ∃ text, member.2 = .str text

theorem checkOption_eq_ok_iff {origin : OptionOrigin} {name : Text} {value : Json}
    {option : Text × Text} :
    checkOption origin name value = .ok option ↔
      IsOption (name, value) ∧ (name, value) = (option.1, Json.str option.2) := by
  obtain ⟨given, text⟩ := option
  unfold checkOption IsOption
  by_cases hname : name = directoryName ∨ name = localeName
  · rw [if_pos (by simpa using hname)]
    cases value <;> simp [hname]
  · rw [if_neg (by simpa using hname)]
    simp [hname]

/-- Options are accepted exactly if each of them is, and keep their names and texts. -/
theorem checkOptions_eq_ok_iff {origin : OptionOrigin} {members : List (Text × Json)}
    {options : List (Text × Text)} :
    checkOptions origin members = .ok options ↔
      (∀ member ∈ members, IsOption member) ∧
        members = options.map fun option => (option.1, Json.str option.2) := by
  unfold checkOptions
  induction members generalizing options with
  | nil =>
      rw [List.mapM_nil, List.nil_eq, List.map_eq_nil_iff]
      simp [pure, Except.pure, eq_comm]
  | cons member members ih =>
      obtain ⟨name, value⟩ := member
      rw [List.mapM_cons, bind_eq_ok_iff, List.forall_mem_cons]
      constructor
      · rintro ⟨option, hoption, h⟩
        obtain ⟨rest, hrest, h⟩ := bind_eq_ok_iff.mp h
        obtain rfl := Except.ok.inj h
        obtain ⟨hmember, hmember_eq⟩ := checkOption_eq_ok_iff.mp hoption
        obtain ⟨hmembers, hmembers_eq⟩ := ih.mp hrest
        exact ⟨⟨hmember, hmembers⟩, List.cons_eq_cons.mpr ⟨hmember_eq, hmembers_eq⟩⟩
      · rintro ⟨⟨hmember, hmembers⟩, heq⟩
        obtain ⟨option, rest, rfl, hmember_eq, hmembers_eq⟩ := List.map_eq_cons_iff.mp heq.symm
        have hrest := ih.mpr ⟨hmembers, hmembers_eq.symm⟩
        have hoption : checkOption origin name value = .ok option :=
          checkOption_eq_ok_iff.mpr ⟨hmember, hmember_eq.symm⟩
        exact ⟨option, hoption, bind_eq_ok_iff.mpr ⟨rest, hrest, rfl⟩⟩

theorem exists_checkOptions_iff (origin : OptionOrigin) {members : List (Text × Json)} :
    (∃ options, checkOptions origin members = .ok options) ↔
      ∀ member ∈ members, IsOption member := by
  constructor
  · rintro ⟨options, h⟩
    exact (checkOptions_eq_ok_iff.mp h).1
  · intro h
    have htexts : ∃ options : List (Text × Text),
        members = options.map fun option => (option.1, Json.str option.2) := by
      induction members with
      | nil => exact ⟨[], rfl⟩
      | cons member members ih =>
          obtain ⟨⟨-, text, htext⟩, hmembers⟩ := List.forall_mem_cons.mp h
          obtain ⟨options, rfl⟩ := ih hmembers
          refine ⟨(member.1, text) :: options, List.cons_eq_cons.mpr ⟨?_, rfl⟩⟩
          exact Prod.ext rfl htext
    obtain ⟨options, hoptions⟩ := htexts
    exact ⟨options, checkOptions_eq_ok_iff.mpr ⟨h, hoptions⟩⟩

/-- What checked options give for a name is the text of the member of that name. -/
theorem get?_of_checkOptions {origin : OptionOrigin} {members : List (Text × Json)}
    {options : List (Text × Text)} (h : checkOptions origin members = .ok options) (name : Text) :
    Assoc.get? name options = (Assoc.get? name members).bind Json.text? := by
  rw [(checkOptions_eq_ok_iff.mp h).2, Assoc.get?_map]
  cases Assoc.get? name options <;> rfl

/-! ## The section of the settings -/

/-- What the settings have under the name of the section. -/
def sectionValue? (settings : Option (List (Text × Json))) : Option Json :=
  settings.bind (Assoc.get? sectionName)

/-- The members of the section of the settings, none if it is no mapping. -/
def sectionMembers (settings : Option (List (Text × Json))) : List (Text × Json) :=
  ((sectionValue? settings).bind Json.members?).getD []

/-- A section that is there and is neither null nor a mapping. -/
def BadSection (settings : Option (List (Text × Json))) : Prop :=
  ∃ value, sectionValue? settings = some value ∧ value ≠ .null ∧ value.members? = none

theorem settingsSection_eq_ok_iff {settings : Option (List (Text × Json))}
    {members : List (Text × Json)} :
    settingsSection settings = .ok members ↔
      ¬BadSection settings ∧ members = sectionMembers settings := by
  unfold settingsSection BadSection sectionMembers sectionValue?
  cases settings.bind (Assoc.get? sectionName) with
  | none => simp [eq_comm]
  | some value => cases value <;> simp [Json.members?, eq_comm]

theorem shared_eq_ok_iff {settings : Option (List (Text × Json))} {common : List (Text × Text)} :
    shared settings = .ok common ↔
      ¬BadSection settings ∧ checkOptions .setting (sectionMembers settings) = .ok common := by
  unfold shared
  rw [bind_eq_ok_iff]
  simp only [settingsSection_eq_ok_iff, and_assoc, exists_and_left, exists_eq_left]

/-! ## The text that a field takes -/

/-- The text that the options of a rule have for a name. -/
def optionText? (options : Option (List (Text × Json))) (name : Text) : Option Text :=
  (Assoc.get? name (options.getD [])).bind Json.text?

/-- The text that the settings have for a name. -/
def settingText? (settings : Option (List (Text × Json))) (name : Text) : Option Text :=
  (Assoc.get? name (sectionMembers settings)).bind Json.text?

/-- The texts for a name, the option before the setting before the default. -/
def candidates (options settings : Option (List (Text × Json))) (name fallback : Text) :
    List Text :=
  (optionText? options name).toList ++ ((settingText? settings name).toList ++ [fallback])

/-- The first of the candidates that is not empty. -/
def Takes (options settings : Option (List (Text × Json))) (name fallback text : Text) : Prop :=
  (candidates options settings name fallback).find? (fun candidate => !candidate.isEmpty) =
    some text

theorem Takes.ne_nil {options settings : Option (List (Text × Json))} {name fallback text : Text}
    (h : Takes options settings name fallback text) : text ≠ [] := by
  have hfound := List.find?_some (p := fun candidate : Text => !candidate.isEmpty) h
  simpa using hfound

theorem Takes.unique {options settings : Option (List (Text × Json))}
    {name fallback text other : Text} (h : Takes options settings name fallback text)
    (hother : Takes options settings name fallback other) : text = other :=
  Option.some.inj (h.symm.trans hother)

theorem find?_toList (given : Option Text) :
    given.toList.find? (fun candidate => !candidate.isEmpty) =
      given.filter fun candidate => !candidate.isEmpty := by
  cases given with
  | none => rfl
  | some text => cases text <;> rfl

theorem takes_iff {options settings : Option (List (Text × Json))} {name fallback text : Text}
    (hfallback : fallback ≠ []) :
    Takes options settings name fallback text ↔
      (((optionText? options name).filter fun candidate => !candidate.isEmpty).or
        ((settingText? settings name).filter fun candidate => !candidate.isEmpty)).getD fallback =
          text := by
  have hdefault : [fallback].find? (fun candidate => !candidate.isEmpty) = some fallback :=
    List.find?_cons_of_pos (by simpa using hfallback)
  unfold Takes candidates
  rw [List.find?_append, List.find?_append, find?_toList, find?_toList, hdefault, ← Option.or_assoc,
    Option.or_some, Option.some_inj]

theorem exists_takes (options settings : Option (List (Text × Json))) (name : Text)
    {fallback : Text} (hfallback : fallback ≠ []) :
    ∃ text, Takes options settings name fallback text :=
  ⟨_, (takes_iff hfallback).mpr rfl⟩

theorem takes_of_optionText? {options settings : Option (List (Text × Json))}
    {name fallback text : Text} (hoption : optionText? options name = some text)
    (htext : text ≠ []) : Takes options settings name fallback text := by
  unfold Takes candidates
  rw [hoption]
  exact List.find?_cons_of_pos (by simpa using htext)

/-- An empty option is as good as none. -/
theorem takes_of_settingText? {options settings : Option (List (Text × Json))}
    {name fallback text : Text} (hoption : ∀ own, optionText? options name = some own → own = [])
    (hsetting : settingText? settings name = some text) (htext : text ≠ []) :
    Takes options settings name fallback text := by
  have hnone : (optionText? options name).toList.find? (fun candidate => !candidate.isEmpty) =
      none := by
    rw [List.find?_eq_none]
    intro own hown
    rw [hoption own (Option.mem_toList.mp hown)]
    decide
  unfold Takes candidates
  rw [List.find?_append, hnone, Option.none_or, hsetting]
  exact List.find?_cons_of_pos (by simpa using htext)

/-- Looking a name up in the checked options and then in the checked settings finds the text that
is taken. -/
theorem takes_given {options settings : Option (List (Text × Json))}
    {own common : List (Text × Text)} {fallback : Text} (hfallback : fallback ≠ [])
    (hown : checkOptions .ruleOption (options.getD []) = .ok own)
    (hcommon : checkOptions .setting (sectionMembers settings) = .ok common) (name : Text) :
    Takes options settings name fallback
      (((given? name own).or (given? name common)).getD fallback) := by
  rw [takes_iff hfallback]
  unfold given? optionText? settingText?
  rw [get?_of_checkOptions hown, get?_of_checkOptions hcommon]

/-! ## What is refused -/

/-- Options or settings that are refused whatever the texts in them say. -/
inductive Malformed (options settings : Option (List (Text × Json))) : Prop
  | badSection (hsection : BadSection settings)
  | unknownName {name : Text} {value : Json}
      (hmember : (name, value) ∈ sectionMembers settings ∨ (name, value) ∈ options.getD [])
      (hname : name ≠ directoryName ∧ name ≠ localeName)
  | notText {name : Text} {value : Json}
      (hmember : (name, value) ∈ sectionMembers settings ∨ (name, value) ∈ options.getD [])
      (hvalue : value.text? = none)

theorem not_malformed_iff {options settings : Option (List (Text × Json))} :
    ¬Malformed options settings ↔
      ¬BadSection settings ∧ (∀ member ∈ sectionMembers settings, IsOption member) ∧
        ∀ member ∈ options.getD [], IsOption member := by
  constructor
  · intro h
    have hoption {member : Text × Json}
        (hmember : member ∈ sectionMembers settings ∨ member ∈ options.getD []) :
        IsOption member := by
      constructor
      · by_contra hname
        exact h (.unknownName hmember (not_or.mp hname))
      · cases hvalue : member.2 with
        | str text => exact ⟨text, rfl⟩
        | _ => exact absurd (.notText hmember (by rw [hvalue]; rfl)) h
    exact ⟨fun hsection => h (.badSection hsection), fun member hmember => hoption (.inl hmember),
      fun member hmember => hoption (.inr hmember)⟩
  · rintro ⟨hsection, hcommon, hown⟩ hmalformed
    cases hmalformed with
    | badSection hbad => exact hsection hbad
    | unknownName hmember hname =>
        have hoption := hmember.elim (hcommon _) (hown _)
        exact hoption.1.elim hname.1 hname.2
    | notText hmember hvalue =>
        obtain ⟨-, text, rfl⟩ := hmember.elim (hcommon _) (hown _)
        contradiction

/-- The options that a rule works with are those that it takes, as long as nothing is malformed and
the locale stays in the messages directory. -/
theorem resolve_eq_ok_iff {options settings : Option (List (Text × Json))}
    {resolved : RuleOptions} :
    resolve options settings = .ok resolved ↔
      ¬Malformed options settings ∧
        Takes options settings directoryName CheckConfig.defaultDirectory
          resolved.messagesDirectory ∧
        Takes options settings localeName CheckConfig.defaultLocale resolved.sourceLocale ∧
        ¬Locale.LeadsOut resolved.sourceLocale := by
  have hdirectory : CheckConfig.defaultDirectory ≠ [] := by decide
  have hlocale : CheckConfig.defaultLocale ≠ [] := by decide
  rw [not_malformed_iff]
  unfold resolve
  rw [bind_eq_ok_iff]
  simp only [shared_eq_ok_iff, bind_eq_ok_iff]
  constructor
  · rintro ⟨common, ⟨hsection, hcommon⟩, own, hown, h⟩
    split at h
    · contradiction
    · rename_i hfault
      obtain rfl := Except.ok.inj h
      exact ⟨⟨hsection, (exists_checkOptions_iff .setting).mp ⟨common, hcommon⟩,
        (exists_checkOptions_iff .ruleOption).mp ⟨own, hown⟩⟩,
        takes_given hdirectory hown hcommon directoryName,
        takes_given hlocale hown hcommon localeName,
        ((Locale.fault?_eq_none_iff_not_leadsOut _).mp hfault).2⟩
  · rintro ⟨⟨hsection, hcommon, hown⟩, htakesDirectory, htakesLocale, hstays⟩
    obtain ⟨common, hcommon⟩ := (exists_checkOptions_iff .setting).mpr hcommon
    obtain ⟨own, hown⟩ := (exists_checkOptions_iff .ruleOption).mpr hown
    refine ⟨common, ⟨hsection, hcommon⟩, own, hown, ?_⟩
    rw [← htakesDirectory.unique (takes_given hdirectory hown hcommon directoryName),
      ← htakesLocale.unique (takes_given hlocale hown hcommon localeName),
      (Locale.fault?_eq_none_iff_not_leadsOut _).mpr ⟨htakesLocale.ne_nil, hstays⟩]

theorem exists_resolve_ok_iff {options settings : Option (List (Text × Json))} :
    (∃ resolved, resolve options settings = .ok resolved) ↔
      ¬Malformed options settings ∧
        ∃ code, Takes options settings localeName CheckConfig.defaultLocale code ∧
          ¬Locale.LeadsOut code := by
  constructor
  · rintro ⟨resolved, h⟩
    obtain ⟨hformed, -, hlocale, hstays⟩ := resolve_eq_ok_iff.mp h
    exact ⟨hformed, resolved.sourceLocale, hlocale, hstays⟩
  · rintro ⟨hformed, code, hlocale, hstays⟩
    have hdefault : CheckConfig.defaultDirectory ≠ [] := by decide
    obtain ⟨directory, hdirectory⟩ := exists_takes options settings directoryName hdefault
    exact ⟨⟨directory, code⟩, resolve_eq_ok_iff.mpr ⟨hformed, hdirectory, hlocale, hstays⟩⟩

/-- The options of a rule are refused exactly if the section of the settings is neither absent nor
null nor a mapping, a name in it or in the options is unknown, a value is no text, or the locale
that is taken leads out of the messages directory.  Otherwise each field is the first text that is
not empty among the option, the setting and the default.  So settings whose locale leads out are
accepted exactly under an option that is not empty and stays inside. -/
theorem resolve_precedence (options settings : Option (List (Text × Json))) :
    ((∃ fault, resolve options settings = .error fault) ↔
      Malformed options settings ∨
        ∃ code, Takes options settings localeName CheckConfig.defaultLocale code ∧
          Locale.LeadsOut code) ∧
    (∀ resolved, resolve options settings = .ok resolved →
      Takes options settings directoryName CheckConfig.defaultDirectory
          resolved.messagesDirectory ∧
        Takes options settings localeName CheckConfig.defaultLocale resolved.sourceLocale) ∧
    (∀ code, settingText? settings localeName = some code → Locale.LeadsOut code →
      ((∃ resolved, resolve options settings = .ok resolved) ↔
        ¬Malformed options settings ∧
          ∃ own, optionText? options localeName = some own ∧ own ≠ [] ∧
            ¬Locale.LeadsOut own)) := by
  refine ⟨?_, ?_, ?_⟩
  · have hdefault : CheckConfig.defaultLocale ≠ [] := by decide
    obtain ⟨taken, htaken⟩ := exists_takes options settings localeName hdefault
    have hcode {P : Text → Prop} :
        (∃ code, Takes options settings localeName CheckConfig.defaultLocale code ∧ P code) ↔
          P taken := by
      constructor
      · rintro ⟨code, hcode, hP⟩
        rwa [htaken.unique hcode]
      · exact fun hP => ⟨taken, htaken, hP⟩
    rw [exists_error_iff, exists_resolve_ok_iff, hcode, hcode, not_and_or, not_not, not_not]
  · intro resolved h
    obtain ⟨-, hdirectory, hlocale, -⟩ := resolve_eq_ok_iff.mp h
    exact ⟨hdirectory, hlocale⟩
  · intro code hsetting hout
    rw [exists_resolve_ok_iff, and_congr_right_iff]
    intro hformed
    constructor
    · rintro ⟨taken, htaken, hstays⟩
      by_cases hoption : ∀ own, optionText? options localeName = some own → own = []
      · rw [htaken.unique (takes_of_settingText? hoption hsetting hout.ne_nil)] at hstays
        exact absurd hout hstays
      · push Not at hoption
        obtain ⟨own, hown, hne⟩ := hoption
        rw [htaken.unique (takes_of_optionText? hown hne)] at hstays
        exact ⟨own, hown, hne, hstays⟩
    · rintro ⟨own, hown, hne, hstays⟩
      exact ⟨own, takes_of_optionText? hown hne, hstays⟩

theorem resolve_precedence_hidden_setting :
    let settings := some [(sectionName, Json.obj [(localeName, .str "../de")])]
    (∃ resolved, resolve (some [(localeName, .str "fr")]) settings = .ok resolved) ∧
      ¬∃ resolved, resolve (some [(localeName, .str "")]) settings = .ok resolved := by
  have hout : Locale.LeadsOut "../de" := by decide
  constructor
  · have hformed : ¬Malformed (some [(localeName, .str "fr")])
        (some [(sectionName, Json.obj [(localeName, .str "../de")])]) := by
      refine not_malformed_iff.mpr ⟨?_, ?_, ?_⟩
      · rintro ⟨value, hvalue, -, hmapping⟩
        obtain rfl := Option.some.inj hvalue
        contradiction
      · exact List.forall_mem_singleton.mpr ⟨.inr rfl, "../de", rfl⟩
      · exact List.forall_mem_singleton.mpr ⟨.inr rfl, "fr", rfl⟩
    exact ((resolve_precedence _ _).2.2 _ rfl hout).mpr
      ⟨hformed, "fr", rfl, by decide, by decide⟩
  · rw [(resolve_precedence _ _).2.2 _ rfl hout]
    rintro ⟨-, own, hown, hne, -⟩
    exact hne (Option.some.inj hown).symm

end RuleOptions

end MessageKeys
