import WireParity.CommandLine.Arguments
import WireParity.Proofs.Corpus.Inclusion

/-!
# Which configuration counts

Three layers make up the configuration of a run: the defaults, the settings of the manifests in the
order in which these were read, and the options of the command. `RunOptions.chosen` says what comes
of them when each field is taken from the topmost layer that has it. The command arrives at the same
by first merging the manifests, then reading the result into a configuration, and then putting the
options over it.

The two differ in one respect. The mode of the manifests is a text, and it is read even where an
option replaces it. If it is not the name of a mode, the command fails with that and with nothing
else.
-/

namespace WireParity

namespace Settings

/-- Merging more manifests into settings leaves what is set, and takes the rest from the first that
has it. -/
theorem foldl_mergeMissing (s : Settings) (all : List Settings) :
    all.foldl mergeMissing s =
      { mode := s.mode.or (all.findSome? mode)
        timeoutMs := s.timeoutMs.or (all.findSome? timeoutMs)
        roundtrip := s.roundtrip.or (all.findSome? roundtrip) } := by
  induction all generalizing s with
  | nil => simp
  | cons first rest ih =>
    rw [List.foldl_cons, ih, List.findSome?_cons, List.findSome?_cons, List.findSome?_cons]
    simp only [mergeMissing, Option.or_assoc]
    cases first.mode <;> cases first.timeoutMs <;> cases first.roundtrip <;> rfl

/-- Merged settings have every field from the first manifest that sets it. -/
theorem merged_eq (all : List Settings) :
    merged all = ⟨all.findSome? mode, all.findSome? timeoutMs, all.findSome? roundtrip⟩ := by
  rw [merged, foldl_mergeMissing]
  rfl

/-- The settings without the mode. -/
def withoutMode (s : Settings) : Settings := { s with mode := none }

/-- The settings without the time limit. -/
def withoutTimeout (s : Settings) : Settings := { s with timeoutMs := none }

/-- A field that some change of settings keeps is first set alike before and after it. -/
theorem findSome?_of_map_eq {α : Type} {field : Settings → Option α} {change : Settings → Settings}
    {all others : List Settings} (hsame : all.map change = others.map change)
    (hkept : ∀ s, field (change s) = field s) : all.findSome? field = others.findSome? field := by
  have h := congrArg (List.findSome? field) hsame
  rw [List.findSome?_map, List.findSome?_map] at h
  rwa [show field ∘ change = field from funext hkept] at h

/-- The mode of the first manifest that sets one, or else the default. -/
def firstMode (all : List Settings) : Except ConfigFault Mode :=
  match all.findSome? mode with
  | some text => Mode.parse text
  | none => .ok Config.default.mode

/-- A configuration from merged settings fails just where the first mode cannot be read, and
otherwise has every field from the first manifest that sets it. -/
theorem ofSettings_merged (all : List Settings) :
    Config.ofSettings (merged all) = (firstMode all).map fun mode =>
      { mode
        timeout := ((all.findSome? timeoutMs).map .ofMs).getD Config.default.timeout
        jobs := Config.default.jobs
        roundtrip := (all.findSome? roundtrip).getD Config.default.roundtrip } := by
  rw [merged_eq, Config.ofSettings, firstMode]
  cases all.findSome? mode with
  | none => rfl
  | some text =>
    simp only
    cases Mode.parse text <;> rfl

end Settings

namespace Corpus

variable {tree : FileTree} {path : String} {files : List ManifestFile} {corpus : Corpus}

/-- A corpus that is made of manifests has their settings, merged in the order of the manifests. -/
theorem settings_of_ofManifests (hcorpus : ofManifests tree path files = .ok corpus) :
    corpus.settings = Settings.merged (files.map fun file => file.manifest.settings) := by
  rw [ofManifests] at hcorpus
  obtain ⟨table, -, hcorpus⟩ := bind_eq_ok_iff.mp hcorpus
  generalize Resolver.all table (Table.keys table) .fresh = outcome at hcorpus
  obtain ⟨types, r⟩ := outcome
  cases types with
  | error fault => cases hcorpus
  | ok types =>
    obtain ⟨vectors, -, hcorpus⟩ := bind_eq_ok_iff.mp hcorpus
    exact congrArg Corpus.settings (Except.ok.inj hcorpus).symm

/-- A corpus that loads has the settings of all the manifests that includes lead to, merged in the
order of the includes. -/
theorem settings_of_load (hload : load tree path = .ok corpus)
    (hfiles : Collection.Lists tree [manifestPath tree path] files) :
    corpus.settings = Settings.merged (files.map fun file => file.manifest.settings) := by
  have hmanifests := load_eq_ok hload
  rw [Collection.loadFrom_fst] at hmanifests
  rw [hfiles.unique (Collection.lists_ofPath (Collection.ofPath_eq_none_of_load hload))]
  exact settings_of_ofManifests hmanifests

end Corpus

namespace CommandLine.RunOptions

variable (o : RunOptions) (all : List Settings)

/-- The mode of the options, or else the first that a manifest sets, or else the default. -/
def chosenMode : Except ConfigFault Mode :=
  if o.parity then .ok .parity
  else match o.mode with
    | some text => Mode.parse text
    | none => Settings.firstMode all

/-- The configuration with every field from the options, or else from the first manifest that sets
it, or else from the defaults. The options can only turn the round trip on. -/
def chosen : Except ConfigFault Config :=
  (o.chosenMode all).map fun mode =>
    { mode
      timeout := ((o.timeoutMs.or (all.findSome? Settings.timeoutMs)).map .ofMs).getD
        Config.default.timeout
      jobs := o.jobs
      roundtrip := o.roundtrip ||
        (all.findSome? Settings.roundtrip).getD Config.default.roundtrip }

/-- Whether the options ask for a mode. -/
def AsksMode : Prop := o.parity = true ∨ o.mode.isSome = true

variable {o all}

/-- Options that ask for a mode leave the modes of the manifests out of the choice. -/
theorem chosenMode_of_asksMode (hasks : o.AsksMode) (others : List Settings) :
    o.chosenMode all = o.chosenMode others := by
  rw [chosenMode, chosenMode]
  rcases hasks with hparity | hmode
  · rw [if_pos hparity, if_pos hparity]
  · obtain ⟨text, htext⟩ := Option.isSome_iff_exists.mp hmode
    rw [htext]

/-- Settings that differ only in their modes are one choice for options that ask for a mode. -/
theorem chosen_of_asksMode (hasks : o.AsksMode) {others : List Settings}
    (hsame : all.map Settings.withoutMode = others.map Settings.withoutMode) :
    o.chosen all = o.chosen others := by
  have htimeout : all.findSome? Settings.timeoutMs = others.findSome? Settings.timeoutMs :=
    Settings.findSome?_of_map_eq hsame fun _ => rfl
  have hroundtrip : all.findSome? Settings.roundtrip = others.findSome? Settings.roundtrip :=
    Settings.findSome?_of_map_eq hsame fun _ => rfl
  rw [chosen, chosen, chosenMode_of_asksMode hasks others, htimeout, hroundtrip]

/-- The mode over the first that a manifest sets is the chosen one. -/
theorem modeOver_eq_chosenMode {base : Mode} (hbase : Settings.firstMode all = .ok base) :
    o.modeOver base = o.chosenMode all := by
  cases hmode : o.mode with
  | none => simp only [modeOver, chosenMode, hmode, hbase]
  | some text => simp only [modeOver, chosenMode, hmode]

/-- A first mode that cannot be read is what the command fails with. -/
theorem config_of_firstMode_error {fault : ConfigFault}
    (hfault : Settings.firstMode all = .error fault) :
    o.config (Settings.merged all) = .error fault := by
  rw [config, Settings.ofSettings_merged, hfault]
  rfl

/-- Where the first mode can be read, the configuration is the chosen one. -/
theorem config_of_firstMode_ok {base : Mode} (hbase : Settings.firstMode all = .ok base) :
    o.config (Settings.merged all) = o.chosen all := by
  rw [config, chosen, Settings.ofSettings_merged, hbase, ← modeOver_eq_chosenMode hbase]
  simp only [Except.map, bind, Except.bind]
  cases o.modeOver base with
  | error fault => rfl
  | ok mode => simp [Option.getD_or, Option.map_or, Config.default, pure, Except.pure]

/-- Settings that are the same but for their time limits are one configuration for options with a
time limit. -/
theorem config_of_timeoutMs {ms : Nat} (htimeout : o.timeoutMs = some ms) {others : List Settings}
    (hsame : all.map Settings.withoutTimeout = others.map Settings.withoutTimeout) :
    o.config (Settings.merged all) = o.config (Settings.merged others) := by
  have hmode : all.findSome? Settings.mode = others.findSome? Settings.mode :=
    Settings.findSome?_of_map_eq hsame fun _ => rfl
  have hroundtrip : all.findSome? Settings.roundtrip = others.findSome? Settings.roundtrip :=
    Settings.findSome?_of_map_eq hsame fun _ => rfl
  have hfirst : Settings.firstMode all = Settings.firstMode others := by
    rw [Settings.firstMode, Settings.firstMode, hmode]
  -- Time limits have no part in whether the first mode can be read, so both fail or neither does.
  cases hread : Settings.firstMode all with
  | error fault =>
    rw [config_of_firstMode_error hread, config_of_firstMode_error (hfirst ▸ hread)]
  | ok base =>
    rw [config_of_firstMode_ok hread, config_of_firstMode_ok (hfirst ▸ hread), chosen, chosen,
      chosenMode, chosenMode, hfirst, hroundtrip, htimeout]
    rfl

/-- The configuration of a run is the chosen one exactly if the first mode that a manifest sets can
be read, or if the choice fails with the very fault that it has; that fault is what the command
fails with, whatever the options. The choice does not depend on the modes of the manifests where the
options ask for one, nor does the configuration as long as modes can be read. It never depends on
the time limits of the manifests where the options have one. The settings of a corpus are those of
all its manifests, merged in the order of the includes. -/
theorem config_merged (o : RunOptions) (all : List Settings) :
    (o.config (Settings.merged all) = o.chosen all ↔
      ∀ fault, Settings.firstMode all = .error fault → o.chosen all = .error fault) ∧
    (∀ fault, Settings.firstMode all = .error fault →
      o.config (Settings.merged all) = .error fault) ∧
    (o.AsksMode → ∀ others,
      all.map Settings.withoutMode = others.map Settings.withoutMode →
        o.chosen all = o.chosen others ∧
        ((∃ mode, Settings.firstMode all = .ok mode) →
          (∃ mode, Settings.firstMode others = .ok mode) →
            o.config (Settings.merged all) = o.config (Settings.merged others))) ∧
    (o.timeoutMs.isSome = true → ∀ others,
      all.map Settings.withoutTimeout = others.map Settings.withoutTimeout →
        o.config (Settings.merged all) = o.config (Settings.merged others)) ∧
    (∀ tree path corpus files, Corpus.load tree path = .ok corpus →
      Collection.Lists tree [Corpus.manifestPath tree path] files →
        corpus.settings = Settings.merged (files.map fun file => file.manifest.settings)) := by
  refine ⟨⟨fun h fault hfault => ?_, fun h => ?_⟩, fun fault => config_of_firstMode_error,
    fun hasks others hsame => ⟨chosen_of_asksMode hasks hsame, ?_⟩, fun htimeout others hsame => ?_,
    fun _ _ _ _ => Corpus.settings_of_load⟩
  · rw [← h, config_of_firstMode_error hfault]
  · cases hread : Settings.firstMode all with
    | error fault => rw [h fault hread, config_of_firstMode_error hread]
    | ok base => exact config_of_firstMode_ok hread
  · rintro ⟨base, hbase⟩ ⟨other, hother⟩
    rw [config_of_firstMode_ok hbase, config_of_firstMode_ok hother,
      chosen_of_asksMode hasks hsame]
  · obtain ⟨ms, hms⟩ := Option.isSome_iff_exists.mp htimeout
    exact config_of_timeoutMs hms hsame

/-- The options of a command that asks for a mode and has a time limit. -/
def asking (mode : String) : RunOptions where
  corpus := "corpus.json"
  parity := false
  mode := some mode
  adapters := []
  reference := true
  timeoutMs := some 250
  jobs := none
  roundtrip := false
  start := none
  output := none

/-- A mode that is asked for replaces those of two manifests. The round trip is the one of the
second, which is the only one to set it. -/
theorem config_merged_asking :
    let all : List Settings := [⟨some "parity", none, none⟩, ⟨some "validate", some 5, some true⟩]
    let others : List Settings := [⟨none, none, none⟩, ⟨some "Parity", some 5, some true⟩]
    (asking "validate").AsksMode ∧ (∃ mode, Settings.firstMode all = .ok mode) ∧
      (∃ mode, Settings.firstMode others = .ok mode) ∧
      all.map Settings.withoutMode = others.map Settings.withoutMode ∧
      (asking "validate").config (Settings.merged all) = .ok ⟨.validate, .ofMs 250, none, true⟩ ∧
      (asking "validate").config (Settings.merged others) = .ok ⟨.validate, .ofMs 250, none, true⟩ := by
  intro all others
  have hasks : (asking "validate").AsksMode := Or.inr rfl
  have hall : Settings.firstMode all = .ok .parity := rfl
  have hothers : Settings.firstMode others = .ok .parity := rfl
  have hsame : all.map Settings.withoutMode = others.map Settings.withoutMode := rfl
  obtain ⟨hchosen, _, hmodes, _⟩ := config_merged (asking "validate") all
  have hconfig : (asking "validate").config (Settings.merged all) =
      .ok ⟨.validate, .ofMs 250, none, true⟩ := by
    rw [hchosen.mpr (by rw [hall]; exact fun _ h => nomatch h)]
    rfl
  refine ⟨hasks, ⟨_, hall⟩, ⟨_, hothers⟩, hsame, hconfig, ?_⟩
  rw [← (hmodes hasks others hsame).2 ⟨_, hall⟩ ⟨_, hothers⟩, hconfig]

/-- The mode of a manifest, which is none, decides what a command does that asks for another. -/
theorem config_merged_strict :
    let all : List Settings := [⟨some "strict", none, none⟩]
    let others : List Settings := [⟨none, none, none⟩]
    (asking "validate").AsksMode ∧
      all.map Settings.withoutMode = others.map Settings.withoutMode ∧
      (asking "validate").config (Settings.merged all) = .error (.unknownMode "strict") ∧
      (asking "validate").config (Settings.merged others) = .ok ⟨.validate, .ofMs 250, none, false⟩ :=
  ⟨Or.inr rfl, rfl, rfl, rfl⟩

end CommandLine.RunOptions

end WireParity
