import WireParity.Parity.Run
import Mathlib.Data.List.Nodup

/-!
# Who a finding is about

The findings of a vector are one list: the canonical codec's, each adapter's, then those between
adapters. Each check puts its phase and its subject on what it finds, so the list can be taken apart
again. `select` picks the findings of one phase about one subject; where the names of adapters are
distinct, what it picks is exactly what one check found.
-/

namespace WireParity

/-- The finding is about a subject in a phase. -/
def Finding.concerns (phase : Phase) (subject : Subject) (f : Finding) : Bool :=
  decide (f.phase = phase ∧ f.subject = subject)

/-- The findings of a phase about a subject. -/
def select (phase : Phase) (subject : Subject) (findings : List Finding) : List Finding :=
  findings.filter (Finding.concerns phase subject)

/-- The findings of a result, of a phase and about a subject. -/
def VectorResult.about (r : VectorResult) (phase : Phase) (subject : Subject) : List Finding :=
  select phase subject r.findings

/-- All findings are of one phase and about one subject. -/
def About (phase : Phase) (subject : Subject) (findings : List Finding) : Prop :=
  ∀ f ∈ findings, f.phase = phase ∧ f.subject = subject

section Selecting

variable {phase : Phase} {subject : Subject} {findings : List Finding}

/-- What is selected was found. -/
theorem mem_select {f : Finding} :
    f ∈ select phase subject findings ↔ f ∈ findings ∧ f.phase = phase ∧ f.subject = subject := by
  rw [select, List.mem_filter, Finding.concerns, decide_eq_true_iff]

/-- Parts of a list are selected from one by one. -/
@[simp] theorem select_append {others : List Finding} :
    select phase subject (findings ++ others) =
      select phase subject findings ++ select phase subject others :=
  List.filter_append ..

/-- Parts of a list are selected from one by one. -/
theorem select_flatMap {α : Type} {entries : List α} {found : α → List Finding} :
    select phase subject (entries.flatMap found) =
      entries.flatMap fun entry => select phase subject (found entry) :=
  List.filter_flatMap

/-- All findings of one phase about one subject are selected for these. -/
theorem About.select_self (h : About phase subject findings) :
    select phase subject findings = findings :=
  List.filter_eq_self.mpr fun f hf => decide_eq_true (h f hf)

/-- No findings of one phase about one subject are selected for others. -/
theorem About.select_of_ne (h : About phase subject findings) {phase' : Phase} {subject' : Subject}
    (hne : phase ≠ phase' ∨ subject ≠ subject') : select phase' subject' findings = [] := by
  refine List.filter_eq_nil_iff.mpr fun f hf => ?_
  obtain ⟨rfl, rfl⟩ := h f hf
  rw [Finding.concerns, decide_eq_true_iff]
  exact fun hboth => hne.elim (fun h => h hboth.1) fun h => h hboth.2

/-- Nothing is selected where no finding is about the subject. -/
theorem select_eq_nil (h : ∀ f ∈ findings, f.subject ≠ subject) :
    select phase subject findings = [] := by
  refine List.filter_eq_nil_iff.mpr fun f hf => ?_
  rw [Finding.concerns, decide_eq_true_iff]
  exact fun hboth => h f hf hboth.2

end Selecting

/-- No findings are about anything. -/
theorem about_nil (phase : Phase) (subject : Subject) : About phase subject [] := by
  intro f hf
  cases hf

/-- A single finding is about its own subject. -/
theorem about_singleton (f : Finding) : About f.phase f.subject [f] := by
  intro g hg
  cases List.mem_singleton.mp hg
  exact ⟨rfl, rfl⟩

/-- What a mismatch is made into is about what it is made to be. -/
theorem about_toList {α : Type} (phase : Phase) (subject : Subject) (mismatch : Option α)
    (detail : α → Detail) :
    About phase subject (mismatch.map fun m => ⟨phase, subject, detail m⟩).toList := by
  cases mismatch with
  | none => exact about_nil phase subject
  | some m => exact about_singleton ⟨phase, subject, detail m⟩

namespace TestVector

variable (v : TestVector)

/-- The canonical codec's findings when it encodes. -/
theorem about_oracleEncode : About .encode .oracle v.oracleEncode := by
  rw [oracleEncode]
  cases v.shape.encode v.value v.selections with
  | ok bytes => exact about_toList _ _ _ _
  | error e => exact about_singleton (codecFinding .encode e)

/-- The canonical codec's findings when it decodes. -/
theorem about_oracleDecode : About .decode .oracle v.oracleDecode := by
  rw [oracleDecode]
  cases v.shape.decodeFront v.bytes v.selections with
  | ok result =>
    intro f hf
    rcases List.mem_append.mp hf with hvalue | hrest
    · exact about_toList _ _ _ _ f hvalue
    · split at hrest
      · exact about_singleton ⟨.decode, .oracle, _⟩ f hrest
      · cases hrest
  | error e => exact about_singleton (codecFinding .decode e)

end TestVector

namespace Exercise

variable (v : TestVector) (name : String)

/-- The findings of a call that had to produce bytes. -/
theorem about_bytesFindings (phase : Phase) (outcome : Except AdapterFailure Bytes) :
    About phase (.adapter name) (bytesFindings v phase name outcome) := by
  cases outcome with
  | ok bytes => exact about_toList _ _ _ _
  | error failure => exact about_singleton (v.failureFinding phase name failure)

/-- The findings of a call that had to produce a value. -/
theorem about_valueFindings (outcome : Except AdapterFailure Value) :
    About .decode (.adapter name) (valueFindings v name outcome) := by
  cases outcome with
  | ok value => exact about_toList _ _ _ _
  | error failure => exact about_singleton (v.failureFinding .decode name failure)

/-- The findings of the third call, if it was made. -/
def reencodeFindings (e : Exercise) : List Finding :=
  (e.reencoded.map (bytesFindings v .reencode name)).getD []

/-- The findings of the third call. -/
theorem about_reencodeFindings (e : Exercise) :
    About .reencode (.adapter name) (reencodeFindings v name e) := by
  rw [reencodeFindings]
  cases e.reencoded with
  | none => exact about_nil _ _
  | some outcome => exact about_bytesFindings v name .reencode outcome

variable (e : Exercise)

/-- All findings about an adapter carry its name. -/
theorem subject_of_mem_findings {f : Finding} (hf : f ∈ findings v name e) :
    f.subject = .adapter name ∧ (f.phase = .encode ∨ f.phase = .decode ∨ f.phase = .reencode) := by
  rcases List.mem_append.mp hf with hf | hf
  · rcases List.mem_append.mp hf with hf | hf
    · obtain ⟨hphase, hsubject⟩ := about_bytesFindings v name .encode e.encoded f hf
      exact ⟨hsubject, Or.inl hphase⟩
    · obtain ⟨hphase, hsubject⟩ := about_valueFindings v name e.decoded f hf
      exact ⟨hsubject, Or.inr (Or.inl hphase)⟩
  · obtain ⟨hphase, hsubject⟩ := about_reencodeFindings v name e f hf
    exact ⟨hsubject, Or.inr (Or.inr hphase)⟩

/-- An adapter's findings of one phase are those of one call. -/
theorem select_findings (phase : Phase) :
    select phase (.adapter name) (findings v name e) =
      match phase with
      | .encode => bytesFindings v .encode name e.encoded
      | .decode => valueFindings v name e.decoded
      | .reencode => reencodeFindings v name e
      | _ => [] := by
  have hencode := about_bytesFindings v name .encode e.encoded
  have hdecode := about_valueFindings v name e.decoded
  have hreencode := about_reencodeFindings v name e
  have hsplit : findings v name e = bytesFindings v .encode name e.encoded ++
    valueFindings v name e.decoded ++ reencodeFindings v name e := rfl
  rw [hsplit, select_append, select_append]
  cases phase with
  | encode =>
    simp [hencode.select_self, hdecode.select_of_ne, hreencode.select_of_ne]
  | decode =>
    simp [hencode.select_of_ne, hdecode.select_self, hreencode.select_of_ne]
  | reencode =>
    simp [hencode.select_of_ne, hdecode.select_of_ne, hreencode.select_self]
  | crossEncode =>
    simp [hencode.select_of_ne, hdecode.select_of_ne, hreencode.select_of_ne]
  | crossDecode =>
    simp [hencode.select_of_ne, hdecode.select_of_ne, hreencode.select_of_ne]

/-- The findings between the encodings of two adapters, as far as there are both. -/
def crossEncodeFindings (first second : String × Exercise) : List Finding :=
  match first.2.encoded, second.2.encoded with
  | .ok a, .ok b => TestVector.byteFindings .crossEncode (.pair first.1 second.1) a b
  | _, _ => []

/-- The findings between the values that two adapters decoded, as far as there are both. -/
def crossDecodeFindings (first second : String × Exercise) : List Finding :=
  match first.2.decoded, second.2.decoded with
  | .ok a, .ok b => v.valueFindings .crossDecode (.pair first.1 second.1) a b
  | _, _ => []

variable (first second : String × Exercise)

/-- The findings between two encodings are about the pair. -/
theorem about_crossEncodeFindings :
    About .crossEncode (.pair first.1 second.1) (crossEncodeFindings first second) := by
  rw [crossEncodeFindings]
  split
  · exact about_toList _ _ _ _
  · exact about_nil _ _

/-- The findings between two decoded values are about the pair. -/
theorem about_crossDecodeFindings :
    About .crossDecode (.pair first.1 second.1) (crossDecodeFindings v first second) := by
  rw [crossDecodeFindings]
  split
  · exact about_toList _ _ _ _
  · exact about_nil _ _

/-- All findings between two adapters carry both names. -/
theorem subject_of_mem_crossFindings {f : Finding} (hf : f ∈ crossFindings v first second) :
    f.subject = .pair first.1 second.1 ∧ (f.phase = .crossEncode ∨ f.phase = .crossDecode) := by
  rcases List.mem_append.mp hf with hf | hf
  · obtain ⟨hphase, hsubject⟩ := about_crossEncodeFindings first second f hf
    exact ⟨hsubject, Or.inl hphase⟩
  · obtain ⟨hphase, hsubject⟩ := about_crossDecodeFindings v first second f hf
    exact ⟨hsubject, Or.inr hphase⟩

/-- The findings of one phase between two adapters are those of one comparison. -/
theorem select_crossFindings (phase : Phase) :
    select phase (.pair first.1 second.1) (crossFindings v first second) =
      match phase with
      | .crossEncode => crossEncodeFindings first second
      | .crossDecode => crossDecodeFindings v first second
      | _ => [] := by
  have hencode := about_crossEncodeFindings first second
  have hdecode := about_crossDecodeFindings v first second
  have hsplit : crossFindings v first second =
    crossEncodeFindings first second ++ crossDecodeFindings v first second := rfl
  rw [hsplit, select_append]
  cases phase with
  | encode => simp [hencode.select_of_ne, hdecode.select_of_ne]
  | decode => simp [hencode.select_of_ne, hdecode.select_of_ne]
  | reencode => simp [hencode.select_of_ne, hdecode.select_of_ne]
  | crossEncode => simp [hencode.select_self, hdecode.select_of_ne]
  | crossDecode => simp [hencode.select_of_ne, hdecode.select_self]

/-- Findings between adapters are between one and another that comes after it. -/
theorem exists_pair_of_mem_allCrossFindings {done : List (String × Exercise)} {f : Finding}
    (hf : f ∈ allCrossFindings v done) :
    ∃ first second, [first, second].Sublist done ∧ f ∈ crossFindings v first second := by
  induction done with
  | nil => cases hf
  | cons first rest ih =>
    rcases List.mem_append.mp hf with hf | hf
    · obtain ⟨second, hsecond, hf⟩ := List.mem_flatMap.mp hf
      exact ⟨first, second, (List.singleton_sublist.mpr hsecond).cons_cons first, hf⟩
    · obtain ⟨first', second, hpair, hf⟩ := ih hf
      exact ⟨first', second, hpair.cons first, hf⟩

end Exercise

/-- Where only one entry of a list has anything to show under a name, the list shows what that entry
does. -/
theorem flatMap_eq_of_mem {α : Type} {done : List (String × Exercise)}
    (hnames : (done.map Prod.fst).Nodup) {entry : String × Exercise} (hentry : entry ∈ done)
    {shown : String × Exercise → List α}
    (hothers : ∀ other ∈ done, other.1 ≠ entry.1 → shown other = []) :
    done.flatMap shown = shown entry := by
  induction done with
  | nil => cases hentry
  | cons first rest ih =>
    rw [List.map_cons, List.nodup_cons] at hnames
    rw [List.forall_mem_cons] at hothers
    rw [List.flatMap_cons]
    rcases List.mem_cons.mp hentry with rfl | hrest
    · have hnone : rest.flatMap shown = [] := by
        refine List.flatMap_eq_nil_iff.mpr fun other hother => hothers.2 other hother ?_
        intro hsame
        exact hnames.1 (hsame ▸ List.mem_map_of_mem hother)
      rw [hnone, List.append_nil]
    · have hfirst : shown first = [] := by
        refine hothers.1 fun hsame => ?_
        exact hnames.1 (hsame ▸ List.mem_map_of_mem hrest)
      rw [hfirst, List.nil_append]
      exact ih hnames.2 hrest hothers.2

/-- Between adapters of distinct names, the findings about a pair are those of its comparison. -/
theorem Exercise.select_allCrossFindings (v : TestVector) {done : List (String × Exercise)}
    (hnames : (done.map Prod.fst).Nodup) {first second : String × Exercise}
    (hpair : [first, second].Sublist done) (phase : Phase) :
    select phase (.pair first.1 second.1) (allCrossFindings v done) =
      select phase (.pair first.1 second.1) (crossFindings v first second) := by
  induction done with
  | nil => cases hpair
  | cons entry rest ih =>
    rw [List.map_cons, List.nodup_cons] at hnames
    rw [allCrossFindings, select_append, select_flatMap]
    cases hpair with
    | cons _ hpair =>
      -- Both stand in the rest, so the entry before it is neither.
      have hne : entry.1 ≠ first.1 := by
        intro hsame
        exact hnames.1 (hsame ▸ List.mem_map_of_mem (hpair.subset List.mem_cons_self))
      have hentry : (rest.flatMap fun other =>
          select phase (.pair first.1 second.1) (crossFindings v entry other)) = [] := by
        refine List.flatMap_eq_nil_iff.mpr fun other _ => select_eq_nil fun f hf => ?_
        rw [(subject_of_mem_crossFindings v entry other hf).1]
        exact fun hsame => hne (Subject.pair.inj hsame).1
      rw [hentry, List.nil_append, ih hnames.2 hpair]
    | cons_cons _ hpair =>
      have hsecond : second ∈ rest := List.singleton_sublist.mp hpair
      have hrest : select phase (.pair first.1 second.1) (allCrossFindings v rest) = [] := by
        refine select_eq_nil fun f hf hsame => ?_
        obtain ⟨other, another, hothers, hf⟩ := exists_pair_of_mem_allCrossFindings v hf
        rw [(subject_of_mem_crossFindings v other another hf).1] at hsame
        have hother : other.1 ∈ rest.map Prod.fst :=
          List.mem_map_of_mem (hothers.subset List.mem_cons_self)
        exact hnames.1 ((Subject.pair.inj hsame).1 ▸ hother)
      rw [hrest, List.append_nil]
      refine flatMap_eq_of_mem hnames.2 hsecond fun other _ hne => select_eq_nil fun f hf => ?_
      rw [(subject_of_mem_crossFindings v first other hf).1]
      exact fun hsame => hne (Subject.pair.inj hsame).2

namespace TestVector

variable (v : TestVector) (c : Config) {done : List (String × Exercise)}

/-- All findings of the canonical codec carry it as their subject. -/
theorem subject_of_mem_oracleFindings {f : Finding} (hf : f ∈ v.oracleFindings) :
    f.subject = .oracle ∧ (f.phase = .encode ∨ f.phase = .decode) := by
  rcases List.mem_append.mp hf with hf | hf
  · obtain ⟨hphase, hsubject⟩ := v.about_oracleEncode f hf
    exact ⟨hsubject, Or.inl hphase⟩
  · obtain ⟨hphase, hsubject⟩ := v.about_oracleDecode f hf
    exact ⟨hsubject, Or.inr hphase⟩

/-- Every finding is about the canonical codec, about an adapter, or in parity mode about two. -/
theorem exists_subject_of_mem_findingsOf {f : Finding} (hf : f ∈ v.findingsOf c done) :
    (f.subject = .oracle ∧ (f.phase = .encode ∨ f.phase = .decode)) ∨
    (∃ entry ∈ done, f.subject = .adapter entry.1 ∧
      (f.phase = .encode ∨ f.phase = .decode ∨ f.phase = .reencode)) ∨
    (c.mode = .parity ∧ ∃ first second, [first, second].Sublist done ∧
      f.subject = .pair first.1 second.1 ∧ (f.phase = .crossEncode ∨ f.phase = .crossDecode)) := by
  rcases List.mem_append.mp hf with hf | hf
  · rcases List.mem_append.mp hf with hf | hf
    · exact Or.inl (v.subject_of_mem_oracleFindings hf)
    · obtain ⟨entry, hentry, hf⟩ := List.mem_flatMap.mp hf
      exact Or.inr (Or.inl ⟨entry, hentry, Exercise.subject_of_mem_findings v entry.1 entry.2 hf⟩)
  · by_cases hmode : c.mode = .parity
    · rw [if_pos hmode] at hf
      obtain ⟨first, second, hpair, hf⟩ := Exercise.exists_pair_of_mem_allCrossFindings v hf
      have hsubject := Exercise.subject_of_mem_crossFindings v first second hf
      exact Or.inr (Or.inr ⟨hmode, first, second, hpair, hsubject⟩)
    · rw [if_neg hmode] at hf
      cases hf

/-- Findings are selected from the three parts of the list one by one. -/
theorem select_findingsOf (phase : Phase) (subject : Subject) :
    select phase subject (v.findingsOf c done) =
      select phase subject v.oracleFindings ++
        (done.flatMap fun entry => select phase subject (entry.2.findings v entry.1)) ++
        if c.mode = .parity then select phase subject (Exercise.allCrossFindings v done) else [] := by
  rw [findingsOf, select_append, select_append, select_flatMap]
  by_cases hmode : c.mode = .parity
  · rw [if_pos hmode, if_pos hmode]
  · rw [if_neg hmode, if_neg hmode]
    rfl

/-- The canonical codec's findings are about no one else. -/
theorem select_oracleFindings_of_ne (phase : Phase) {subject : Subject}
    (hne : subject ≠ .oracle) : select phase subject v.oracleFindings = [] := by
  refine select_eq_nil fun f hf => ?_
  rw [(v.subject_of_mem_oracleFindings hf).1]
  exact hne.symm

/-- The findings of adapters are about no one but adapters. -/
theorem select_adapters_of_ne (phase : Phase) {subject : Subject}
    (hne : ∀ name, subject ≠ .adapter name) :
    (done.flatMap fun entry => select phase subject (entry.2.findings v entry.1)) = [] := by
  refine List.flatMap_eq_nil_iff.mpr fun entry _ => select_eq_nil fun f hf => ?_
  rw [(Exercise.subject_of_mem_findings v entry.1 entry.2 hf).1]
  exact (hne entry.1).symm

/-- The findings between adapters are about no one but pairs. -/
theorem select_allCrossFindings_of_ne (phase : Phase) {subject : Subject}
    (hne : ∀ a b, subject ≠ .pair a b) :
    select phase subject (Exercise.allCrossFindings v done) = [] := by
  refine select_eq_nil fun f hf => ?_
  obtain ⟨first, second, _, hf⟩ := Exercise.exists_pair_of_mem_allCrossFindings v hf
  rw [(Exercise.subject_of_mem_crossFindings v first second hf).1]
  exact (hne first.1 second.1).symm

/-- The findings about the canonical codec are its own. -/
theorem select_oracle_findingsOf (phase : Phase) :
    select phase .oracle (v.findingsOf c done) =
      match phase with
      | .encode => v.oracleEncode
      | .decode => v.oracleDecode
      | _ => [] := by
  have hencode := v.about_oracleEncode
  have hdecode := v.about_oracleDecode
  rw [select_findingsOf, v.select_adapters_of_ne phase (by simp),
    v.select_allCrossFindings_of_ne phase (by simp), ite_self, List.append_nil, List.append_nil,
    oracleFindings, select_append]
  cases phase with
  | encode => simp [hencode.select_self, hdecode.select_of_ne]
  | decode => simp [hencode.select_of_ne, hdecode.select_self]
  | reencode => simp [hencode.select_of_ne, hdecode.select_of_ne]
  | crossEncode => simp [hencode.select_of_ne, hdecode.select_of_ne]
  | crossDecode => simp [hencode.select_of_ne, hdecode.select_of_ne]

/-- The findings about an adapter are those of its calls. -/
theorem select_adapter_findingsOf (hnames : (done.map Prod.fst).Nodup)
    {entry : String × Exercise} (hentry : entry ∈ done) (phase : Phase) :
    select phase (.adapter entry.1) (v.findingsOf c done) =
      select phase (.adapter entry.1) (entry.2.findings v entry.1) := by
  rw [select_findingsOf, v.select_oracleFindings_of_ne phase (by simp),
    v.select_allCrossFindings_of_ne phase (by simp), ite_self, List.append_nil, List.nil_append]
  refine flatMap_eq_of_mem hnames hentry fun other _ hne => select_eq_nil fun f hf => ?_
  rw [(Exercise.subject_of_mem_findings v other.1 other.2 hf).1]
  exact fun hsame => hne (Subject.adapter.inj hsame)

/-- The findings about a pair are those of its comparison, in parity mode. -/
theorem select_pair_findingsOf (hnames : (done.map Prod.fst).Nodup)
    {first second : String × Exercise} (hpair : [first, second].Sublist done) (phase : Phase) :
    select phase (.pair first.1 second.1) (v.findingsOf c done) =
      if c.mode = .parity then
        select phase (.pair first.1 second.1) (Exercise.crossFindings v first second)
      else [] := by
  rw [select_findingsOf, v.select_oracleFindings_of_ne phase (by simp),
    v.select_adapters_of_ne phase (by simp), List.nil_append, List.nil_append,
    Exercise.select_allCrossFindings v hnames hpair]

end TestVector

end WireParity
