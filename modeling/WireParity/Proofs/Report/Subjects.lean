import WireParity.Proofs.Report.Counts

/-!
# Who is named in a report

A finding is about the canonical codec, about an adapter or about two. In the log and in the
document this is one text: a word of its own for the codec, the name of an adapter, or two names
with a mark between them. Names are free but for being distinct, so a text tells who is meant only
up to what `Confused` lists: an adapter may be called like the codec or like a pair, and names that
have the mark in them leave it open where a pair is divided. Where no adapter is called so, texts
tell all parties apart.
-/

namespace WireParity

namespace Subject

/-- Two subjects have one text although they are not the same. -/
inductive Confused : Subject → Subject → Prop
  /-- An adapter is called like the canonical codec. -/
  | oracle : Confused .oracle (.adapter "oracle")
  /-- An adapter is called like a pair of others. -/
  | pair (first second : String) :
      Confused (.pair first second) (.adapter (first ++ "<>" ++ second))
  /-- Two pairs are divided at different marks. -/
  | pairs (first middle last : String) :
      Confused (.pair first (middle ++ "<>" ++ last)) (.pair (first ++ "<>" ++ middle) last)

/-- Confused subjects have one text. -/
theorem Confused.text_eq {s t : Subject} (h : Confused s t) : s.text = t.text := by
  cases h with
  | oracle => rfl
  | pair first second => rfl
  | pairs first middle last => simp only [text, String.append_assoc]

/-- Where one text is divided at a mark after which the other goes on, the two are divided at one
mark or the first is divided earlier. -/
theorem eq_or_confused_of_toList {a b c d : String} {m : List Char}
    (hfront : c.toList = a.toList ++ m)
    (hback : "<>".toList ++ b.toList = m ++ ("<>".toList ++ d.toList)) :
    (a = c ∧ b = d) ∨ Confused (.pair a b) (.pair c d) := by
  -- A mark does not overlap another, so what lies between begins with one if there is anything.
  match m with
  | [] =>
    rw [List.append_nil, String.toList_inj] at hfront
    rw [List.nil_append, List.append_cancel_left_eq, String.toList_inj] at hback
    exact Or.inl ⟨hfront.symm, hback⟩
  | [x] => simp at hback
  | x :: y :: middle =>
    simp only [String.reduceToList, List.cons_append, List.nil_append, List.cons.injEq] at hback
    obtain ⟨rfl, rfl, hback⟩ := hback
    have hc : c = a ++ "<>" ++ String.ofList middle := by
      rw [← String.toList_inj, hfront]
      simp
    have hb : b = String.ofList middle ++ "<>" ++ d := by
      rw [← String.toList_inj, hback]
      simp
    subst hc hb
    exact Or.inr (.pairs a (String.ofList middle) d)

/-- Texts that are divided by a mark are the same where their parts are, or where one is divided at
an earlier mark than the other. -/
theorem eq_or_confused_of_append_eq {a b c d : String} (h : a ++ "<>" ++ b = c ++ "<>" ++ d) :
    (a = c ∧ b = d) ∨ Confused (.pair a b) (.pair c d) ∨ Confused (.pair c d) (.pair a b) := by
  have hchars := congrArg String.toList h
  simp only [String.toList_append, List.append_assoc] at hchars
  rcases List.append_eq_append_iff.mp hchars with ⟨m, hfront, hback⟩ | ⟨m, hfront, hback⟩
  · exact (eq_or_confused_of_toList hfront hback).imp_right Or.inl
  · rcases eq_or_confused_of_toList hfront hback with ⟨hc, hd⟩ | hconfused
    · exact Or.inl ⟨hc.symm, hd.symm⟩
    · exact Or.inr (Or.inr hconfused)

/-- The word for the canonical codec has no mark in it. -/
theorem oracle_ne_append (a b : String) : "oracle" ≠ a ++ "<>" ++ b := by
  intro h
  have hmark : '<' ∈ "oracle".toList := by
    rw [h]
    simp
  exact absurd hmark (by decide)

/-- Texts of subjects are the same exactly if the subjects are, or are confused. -/
theorem text_eq_iff {s t : Subject} : s.text = t.text ↔ s = t ∨ Confused s t ∨ Confused t s := by
  refine ⟨fun h => ?_, ?_⟩
  · cases s with
    | oracle =>
      cases t with
      | oracle => exact Or.inl rfl
      | adapter name =>
        cases h
        exact Or.inr (Or.inl .oracle)
      | pair c d => exact absurd h (oracle_ne_append c d)
    | adapter name =>
      cases t with
      | oracle =>
        cases h
        exact Or.inr (Or.inr .oracle)
      | adapter other => exact Or.inl (congrArg adapter h)
      | pair c d =>
        cases h
        exact Or.inr (Or.inr (.pair c d))
    | pair a b =>
      cases t with
      | oracle => exact absurd h.symm (oracle_ne_append a b)
      | adapter other =>
        cases h
        exact Or.inr (Or.inl (.pair a b))
      | pair c d =>
        refine (eq_or_confused_of_append_eq h).imp_left ?_
        rintro ⟨rfl, rfl⟩
        rfl
  · rintro (rfl | h | h)
    · rfl
    · exact h.text_eq
    · exact h.text_eq.symm

/-- A name that is not taken for another subject: it is not that of the canonical codec, and has no
mark in it. -/
structure Plain (name : String) : Prop where
  ne_oracle : name ≠ "oracle"
  ne_append : ∀ first second, name ≠ first ++ "<>" ++ second

end Subject

/-- Who a finding can be about: the canonical codec, or adapters by their positions in a run. -/
inductive Party
  | oracle
  | adapter (index : Nat)
  | pair (first second : Nat)
deriving Repr, DecidableEq

namespace Party

/-- A party goes by a subject where adapters have these names. -/
inductive GoesBy (names : List String) : Party → Subject → Prop
  /-- The canonical codec goes by a subject of its own. -/
  | oracle : GoesBy names .oracle .oracle
  /-- An adapter goes by its name. -/
  | adapter {index : Nat} {name : String} :
      names[index]? = some name → GoesBy names (.adapter index) (.adapter name)
  /-- Two adapters go by both names. -/
  | pair {first second : Nat} {a b : String} :
      names[first]? = some a → names[second]? = some b →
      GoesBy names (.pair first second) (.pair a b)

variable {names : List String} {p q : Party} {s t : Subject}

/-- Distinct names leave no two positions to one of them. -/
theorem index_eq (hdistinct : names.Nodup) {i j : Nat} {name : String}
    (hi : names[i]? = some name) (hj : names[j]? = some name) : i = j := by
  obtain ⟨hlt, _⟩ := List.getElem?_eq_some_iff.mp hi
  exact (List.getElem?_inj hlt hdistinct).mp (hi.trans hj.symm)

/-- Where names are distinct, no two parties go by one subject. -/
theorem GoesBy.unique (hdistinct : names.Nodup) (hp : p.GoesBy names s) (hq : q.GoesBy names s) :
    q = p := by
  cases hp with
  | oracle =>
    cases hq
    rfl
  | adapter hi =>
    cases hq with
    | adapter hj => rw [index_eq hdistinct hj hi]
  | pair hi hj =>
    cases hq with
    | pair hi' hj' => rw [index_eq hdistinct hi' hi, index_eq hdistinct hj' hj]

/-- A party goes by one subject. -/
theorem GoesBy.subject_eq (hs : p.GoesBy names s) (ht : p.GoesBy names t) : s = t := by
  cases hs with
  | oracle =>
    cases ht
    rfl
  | adapter hi =>
    cases ht with
    | adapter hi' =>
      cases hi.symm.trans hi'
      rfl
  | pair hi hj =>
    cases ht with
    | pair hi' hj' =>
      cases hi.symm.trans hi'
      cases hj.symm.trans hj'
      rfl

/-- Parties of adapters with plain names are not confused. -/
theorem GoesBy.not_confused (hplain : ∀ name ∈ names, Subject.Plain name)
    (hs : p.GoesBy names s) (ht : q.GoesBy names t) : ¬Subject.Confused s t := by
  intro h
  cases h with
  | oracle =>
    cases ht with
    | adapter hi => exact (hplain _ (List.mem_of_getElem? hi)).ne_oracle rfl
  | pair first second =>
    cases ht with
    | adapter hi => exact (hplain _ (List.mem_of_getElem? hi)).ne_append first second rfl
  | pairs first middle last =>
    -- What lies between the marks belongs to the second name of the one pair, mark and all.
    cases hs with
    | pair _ hj => exact (hplain _ (List.mem_of_getElem? hj)).ne_append middle last rfl

end Party

/-- A document names the subject of a finding by its text. -/
theorem Document.subject_finding (f : Finding) :
    (Document.finding f).textUnder? "subject" = some f.subject.text := by
  simp [Document.finding, WrittenJson.textUnder?, WrittenJson.member?, Table.find?, Document.text]

namespace Parity

variable {c : Config} {adapters : List Adapter} {answers : Nat → TestVector → Adapter → Answers}
  {corpus : Corpus} {report : Report} {f g : Finding}

/-- Every finding of a run is about a party to it. -/
theorem exists_goesBy (hrun : runAnswered c adapters answers corpus = .returned (.ok report))
    (hf : f ∈ report.findings) : ∃ p : Party, p.GoesBy (names adapters) f.subject := by
  have hindex : ∀ {entry : String × Exercise} {index : Nat} {v : TestVector},
      entry ∈ adapters.map (fun a => (a.name, Exercise.ofAnswers c (answers index v a))) →
        ∃ i : Nat, (names adapters)[i]? = some entry.1 := by
    intro entry index v hentry
    obtain ⟨a, ha, rfl⟩ := List.mem_map.mp hentry
    exact List.mem_iff_getElem?.mp (List.mem_map_of_mem ha)
  obtain ⟨index, v, _, hf⟩ := (mem_findings_iff hrun).mp hf
  rcases v.exists_subject_of_mem_findingsOf c hf with
    ⟨hsubject, _⟩ | ⟨entry, hentry, hsubject, _⟩ | ⟨_, first, second, hpair, hsubject, _⟩
  · exact ⟨.oracle, hsubject ▸ .oracle⟩
  · obtain ⟨i, hi⟩ := hindex hentry
    exact ⟨.adapter i, hsubject ▸ .adapter hi⟩
  · obtain ⟨i, hi⟩ := hindex (hpair.subset List.mem_cons_self)
    obtain ⟨j, hj⟩ := hindex (hpair.subset (List.mem_cons_of_mem _ List.mem_cons_self))
    exact ⟨.pair i j, hsubject ▸ .pair hi hj⟩

/-- Any two findings of a run are each about exactly one party. The texts by which the log and the
document name them are the same exactly if these are the same party, or if the names of adapters are
such that their subjects are confused; which they are not where every name is a plain one. -/
theorem subject_text_eq_iff (c : Config) (adapters : List Adapter)
    (answers : Nat → TestVector → Adapter → Answers) (corpus : Corpus) (report : Report)
    (f g : Finding) (hrun : runAnswered c adapters answers corpus = .returned (.ok report))
    (hf : f ∈ report.findings) (hg : g ∈ report.findings) :
    (Document.finding f).textUnder? "subject" = some f.subject.text ∧
    (Document.finding g).textUnder? "subject" = some g.subject.text ∧
    ∃ p q : Party,
      (∀ x : Party, x.GoesBy (names adapters) f.subject ↔ x = p) ∧
      (∀ x : Party, x.GoesBy (names adapters) g.subject ↔ x = q) ∧
      (f.subject.text = g.subject.text ↔
        p = q ∨ f.subject.Confused g.subject ∨ g.subject.Confused f.subject) ∧
      ((∀ a ∈ adapters, Subject.Plain a.name) → (f.subject.text = g.subject.text ↔ p = q)) := by
  have hdistinct : (names adapters).Nodup :=
    (Config.check_eq_ok_iff.mp (results_of_runAnswered hrun).1).2.2.1
  obtain ⟨p, hp⟩ := exists_goesBy hrun hf
  obtain ⟨q, hq⟩ := exists_goesBy hrun hg
  have hsame : f.subject = g.subject ↔ p = q := by
    refine ⟨fun h => ?_, ?_⟩
    · exact hq.unique hdistinct (h ▸ hp)
    · rintro rfl
      exact hp.subject_eq hq
  refine ⟨Document.subject_finding f, Document.subject_finding g, p, q,
    fun x => ⟨hp.unique hdistinct, fun h => h ▸ hp⟩,
    fun x => ⟨hq.unique hdistinct, fun h => h ▸ hq⟩, ?_, fun hplain => ?_⟩
  · rw [Subject.text_eq_iff, hsame]
  · have hplain' : ∀ name ∈ names adapters, Subject.Plain name := List.forall_mem_map.mpr hplain
    rw [Subject.text_eq_iff, hsame, or_iff_left]
    rintro (h | h)
    · exact hp.not_confused hplain' hq h
    · exact hq.not_confused hplain' hp h

/-- A vector of two bytes of which there is one. -/
def shortCorpus : Corpus :=
  ⟨"", .unset, [], [{ Samples.vectorOfU16 "seven" 7 with bytes := [7] }]⟩

/-- The finding that a subject encodes the vector to a byte too many. -/
def excess (subject : Subject) : Finding where
  phase := .encode
  subject
  detail := .bytes
    { offset := 1
      expectedByte := none
      actualByte := some 0
      expectedLength := 1
      actualLength := 2
      expectedHex := "07"
      actualHex := "0700" }

/-- An adapter with a plain name is told from the canonical codec, which has encoded to the same
byte too many. -/
theorem subject_text_eq_iff_one :
    let adapters : List Adapter := [.reference "one"]
    ∃ report : Report,
      runAnswered .default adapters (fun _ v a => a.answers v) shortCorpus =
        .returned (.ok report) ∧
      excess .oracle ∈ report.findings ∧ excess (.adapter "one") ∈ report.findings ∧
      (∀ a ∈ adapters, Subject.Plain a.name) ∧
      (Document.finding (excess .oracle)).textUnder? "subject" ≠
        (Document.finding (excess (.adapter "one"))).textUnder? "subject" := by
  intro adapters
  obtain ⟨report, hrun⟩ := (exists_report_iff .default adapters (fun _ v a => a.answers v)
    shortCorpus).mpr ⟨by decide, by decide, Or.inr (by decide)⟩
  obtain ⟨second, last, hfindings⟩ : ∃ second last, report.findings =
      [excess .oracle, second, excess (.adapter "one"), last] := by
    rw [findings_of_runAnswered hrun]
    exact ⟨_, _, rfl⟩
  have hf : excess .oracle ∈ report.findings := by simp [hfindings]
  have hg : excess (.adapter "one") ∈ report.findings := by simp [hfindings]
  have hplain : ∀ a ∈ adapters, Subject.Plain a.name := by
    refine List.forall_mem_singleton.mpr ⟨by decide, fun first second h => ?_⟩
    have hmark : '<' ∈ "one".toList := by
      rw [show "one" = first ++ "<>" ++ second from h]
      simp
    exact absurd hmark (by decide)
  obtain ⟨hfirst, hsecond, p, q, hp, hq, _, hsame⟩ := subject_text_eq_iff .default adapters
    (fun _ v a => a.answers v) shortCorpus report _ _ hrun hf hg
  refine ⟨report, hrun, hf, hg, hplain, fun h => ?_⟩
  rw [hfirst, hsecond, Option.some.injEq, hsame hplain, ← (hp .oracle).mp .oracle,
    ← (hq (.adapter 0)).mp (.adapter rfl)] at h
  cases h

/-- An adapter that is called like the canonical codec is told from it by nothing in the log or in
the document. -/
theorem subject_text_eq_oracle :
    ∃ report : Report, run .default [.reference "oracle"] shortCorpus = .returned (.ok report) ∧
      excess .oracle ∈ report.findings ∧ excess (.adapter "oracle") ∈ report.findings ∧
      (excess .oracle).subject ≠ (excess (.adapter "oracle")).subject ∧
      (excess .oracle).text = (excess (.adapter "oracle")).text ∧
      Document.finding (excess .oracle) = Document.finding (excess (.adapter "oracle")) := by
  obtain ⟨report, hrun⟩ := (exists_report_iff .default [.reference "oracle"]
    (fun _ v a => a.answers v) shortCorpus).mpr ⟨by decide, by decide, Or.inr (by decide)⟩
  obtain ⟨second, last, hfindings⟩ : ∃ second last, report.findings =
      [excess .oracle, second, excess (.adapter "oracle"), last] := by
    rw [findings_of_runAnswered hrun]
    exact ⟨_, _, rfl⟩
  exact ⟨report, hrun, by simp [hfindings], by simp [hfindings], by decide, rfl, rfl⟩

end Parity

end WireParity
