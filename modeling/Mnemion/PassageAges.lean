/-
  Mnemion/PassageAges.lean
  ========================
  **The age of an unchanged passage along the revisions of a memory.**

  `capture` keeps, for each fingerprint, the earliest time of the previous revision.  A
  passage that stands under a date label compares that label with the kept time first,
  and a label older than the kept time that the previous revision already had is taken
  for an old heading over a changed statement: the passage gets the time of the update,
  changed or not.  This is the one way in which an unchanged passage becomes younger.
-/
import Mnemion.PassageChronology

namespace Mnemion.PassageTime

open PythonText JsonText

/-! ### The kept times -/

section Prior

variable {Digest : Type} [DecidableEq Digest]

theorem Prior.find_append {prior : Prior Digest} {digest : Digest} (h : prior.find digest = none)
    (value : Datetime × Basis) (other : Digest) :
    Prior.find (prior ++ [(digest, value)]) other =
      if other = digest then some value else prior.find other := by
  unfold Prior.find at h ⊢
  rw [List.find?_append]
  by_cases hother : other = digest
  · subst hother
    rw [if_pos rfl, Option.map_eq_none_iff.mp h]
    simp
  · rw [if_neg hother]
    have : List.find? (fun entry => decide (entry.1 = other)) [(digest, value)] = none := by
      simp [Ne.symm hother]
    rw [this, Option.or_none]

theorem Prior.find_replace_other {digest other : Digest} (hother : other ≠ digest)
    (prior : Prior Digest) (value : Datetime × Basis) :
    Prior.find (prior.map fun entry => if entry.1 = digest then (digest, value) else entry) other =
      prior.find other := by
  unfold Prior.find
  induction prior with
  | nil => rfl
  | cons entry prior ih =>
    rw [List.map_cons, List.find?_cons, List.find?_cons]
    by_cases hentry : entry.1 = digest
    · simp only [hentry, if_true, decide_eq_false (Ne.symm hother)]
      exact ih
    · rw [if_neg hentry]
      by_cases hfound : entry.1 = other
      · simp only [decide_eq_true hfound]
      · simp only [decide_eq_false hfound]
        exact ih

theorem Prior.find_replace {prior : Prior Digest} {digest : Digest} {old : Datetime × Basis}
    (h : prior.find digest = some old) (value : Datetime × Basis) :
    Prior.find (prior.map fun entry => if entry.1 = digest then (digest, value) else entry) digest =
      some value := by
  unfold Prior.find at h ⊢
  induction prior with
  | nil => cases h
  | cons entry prior ih =>
    rw [List.find?_cons] at h
    rw [List.map_cons, List.find?_cons]
    by_cases hentry : entry.1 = digest
    · rw [if_pos hentry]
      simp
    · rw [decide_eq_false hentry] at h
      rw [if_neg hentry, decide_eq_false hentry]
      exact ih h

/-- What is kept of the passages seen so far: for each fingerprint the earliest time. -/
structure Prior.Keeps (prior : Prior Digest) (fingerprint : Timed → Digest) (seen : List Timed) :
    Prop where
  absent : ∀ {digest}, prior.find digest = none → ∀ timed ∈ seen, fingerprint timed ≠ digest
  attained : ∀ {digest old}, prior.find digest = some old →
    ∃ timed ∈ seen, fingerprint timed = digest ∧ timed.date.instant = old.1.instant
  earliest : ∀ {digest old}, prior.find digest = some old →
    ∀ timed ∈ seen, fingerprint timed = digest → old.1.instant ≤ timed.date.instant

/-- One round of `capture` over the previous revision. -/
theorem Prior.Keeps.add {sha256 : List Char → Digest} {text : List Char} {prior : Prior Digest}
    {seen : List Timed} (h : prior.Keeps (fun timed => sha256 (content text timed.part)) seen)
    (timed : Timed) :
    Prior.Keeps (Prior.add sha256 text prior timed)
      (fun timed => sha256 (content text timed.part)) (seen ++ [timed]) := by
  -- what the round leaves under the passage's own fingerprint, and under the others
  obtain ⟨hsome, hother⟩ : (∃ kept, (Prior.add sha256 text prior timed).find
        (sha256 (content text timed.part)) = some kept ∧ kept.1.instant ≤ timed.date.instant ∧
        (kept.1.instant = timed.date.instant ∨
          prior.find (sha256 (content text timed.part)) = some kept) ∧
        ∀ old, prior.find (sha256 (content text timed.part)) = some old →
          kept.1.instant ≤ old.1.instant) ∧
      ∀ other, other ≠ sha256 (content text timed.part) →
        (Prior.add sha256 text prior timed).find other = prior.find other := by
    unfold Prior.add
    generalize sha256 (content text timed.part) = digest
    cases hfind : prior.find digest with
    | none =>
      refine ⟨⟨(timed.date, timed.basis), ?_, le_refl _, Or.inl rfl, fun _ h => nomatch h⟩,
        fun other hother => ?_⟩
      · simp only [hfind, Prior.find_append hfind, if_true]
      · simp only [hfind, Prior.find_append hfind, if_neg hother]
    | some old =>
      by_cases hless : timed.date.instant < old.1.instant
      · refine ⟨⟨(timed.date, timed.basis), ?_, le_refl _, Or.inl rfl, ?_⟩, fun other hother => ?_⟩
        · simp only [hfind, if_pos hless, Prior.find_replace hfind]
        · rintro _ ⟨⟩
          exact Nat.le_of_lt hless
        · simp only [hfind, if_pos hless, Prior.find_replace_other hother]
      · refine ⟨⟨old, ?_, Nat.le_of_not_lt hless, Or.inr rfl, ?_⟩, fun other hother => ?_⟩
        · simp only [hfind, if_neg hless]
        · rintro _ ⟨⟩
          exact le_refl _
        · simp only [hfind, if_neg hless]
  obtain ⟨kept, hkept, hle, hfrom, hbelow⟩ := hsome
  constructor
  · intro digest hnone other hmem hdigest
    by_cases hown : digest = sha256 (content text timed.part)
    · rw [hown, hkept] at hnone
      cases hnone
    · rw [hother digest hown] at hnone
      rcases List.mem_append.mp hmem with hmem | hmem
      · exact h.absent hnone other hmem hdigest
      · rw [List.mem_singleton.mp hmem] at hdigest
        exact hown hdigest.symm
  · intro digest old hold
    by_cases hown : digest = sha256 (content text timed.part)
    · rw [hown, hkept, Option.some_inj] at hold
      rw [← hold, hown]
      rcases hfrom with hnew | hkeep
      · exact ⟨timed, by simp, rfl, hnew.symm⟩
      · obtain ⟨first, hfirst, hsame, hinstant⟩ := h.attained hkeep
        exact ⟨first, List.mem_append_left _ hfirst, hsame, hinstant⟩
    · rw [hother digest hown] at hold
      obtain ⟨first, hfirst, hsame, hinstant⟩ := h.attained hold
      exact ⟨first, List.mem_append_left _ hfirst, hsame, hinstant⟩
  · intro digest old hold other hmem hdigest
    by_cases hown : digest = sha256 (content text timed.part)
    · rw [hown, hkept, Option.some_inj] at hold
      rw [← hold]
      rcases List.mem_append.mp hmem with hmem | hmem
      · cases hfind : prior.find (sha256 (content text timed.part)) with
        | none => exact absurd (hdigest.trans hown) (h.absent hfind other hmem)
        | some before =>
          exact (hbelow before hfind).trans (h.earliest hfind other hmem (hdigest.trans hown))
      · rw [List.mem_singleton.mp hmem]
        exact hle
    · rw [hother digest hown] at hold
      rcases List.mem_append.mp hmem with hmem | hmem
      · exact h.earliest hold other hmem hdigest
      · rw [List.mem_singleton.mp hmem] at hdigest
        exact absurd hdigest.symm hown

theorem prior_keeps (sha256 : List Char → Digest) (text : List Char) (before : List Timed) :
    Prior.Keeps (before.foldl (Prior.add sha256 text) [])
      (fun timed => sha256 (content text timed.part)) before := by
  induction before using List.reverseRecOn with
  | nil => exact ⟨fun _ _ h => (nomatch h), fun h => (nomatch h), fun h => (nomatch h)⟩
  | append_singleton before timed ih =>
    rw [List.foldl_append]
    exact ih.add timed

end Prior

/-! ### One edit -/

/-- What a new revision is captured from. -/
structure Edit where
  text : List Char
  metadata : Metadata
  recordedAt : Datetime

/-- The times recorded for the passages of a revision. -/
def Library.recorded (library : Library) (revision : Revision) : List Timed :=
  library.times revision.content revision.passageTimes revision.metadata revision.recordedAt

/-- The instants recorded in a revision for one whitespace-normalised statement. -/
def Library.instants (library : Library) (revision : Revision) (statement : List Char) :
    List Instant :=
  ((library.recorded revision).filter fun timed =>
    decide (content revision.content timed.part = statement)).map (·.date.instant)

section Edits

variable {Digest : Type} [DecidableEq Digest] (library : Library) (sha256 : List Char → Digest)

/-- The revision that an edit leaves. -/
def Library.revise (previous : Revision) (edit : Edit) : Revision where
  content := edit.text
  metadata := edit.metadata
  passageTimes := library.capture sha256 edit.text edit.metadata edit.recordedAt (some previous)
  recordedAt := edit.recordedAt

/-- Every passage with the content of an earlier one is captured with a time that is not
    later than any recorded for it. -/
def KeepsAges (previous : Revision) (edit : Edit) : Prop :=
  ∀ timed ∈ library.observed sha256 edit.text edit.metadata edit.recordedAt (some previous),
    ∀ instant ∈ library.instants previous (content edit.text timed.part),
      timed.date.instant ≤ instant

/-- The passage stands under a label that the previous revision had too and that is older
    than all it recorded of the passage, while some record of it is older than the source. -/
def Overtaken (previous : Revision) (edit : Edit) (part : Passage) : Prop :=
  ∃ label, part.declaredAt = some label ∧
    (∃ before ∈ library.recorded previous,
      before.part.declaredAt.map (·.instant) = some label.instant) ∧
    (∀ before ∈ library.recorded previous,
      sha256 (content previous.content before.part) = sha256 (content edit.text part) →
        label.instant < before.date.instant) ∧
    ∃ instant ∈ library.instants previous (content edit.text part),
      instant < (library.sourceTime edit.metadata edit.recordedAt).1.instant

variable {library} {sha256}

theorem mem_instants {revision : Revision} {statement : List Char} {instant : Instant} :
    instant ∈ library.instants revision statement ↔
      ∃ timed ∈ library.recorded revision, content revision.content timed.part = statement ∧
        timed.date.instant = instant := by
  unfold Library.instants
  rw [List.mem_map]
  constructor
  · rintro ⟨timed, htimed, rfl⟩
    rw [List.mem_filter, decide_eq_true_eq] at htimed
    exact ⟨timed, htimed.1, htimed.2, rfl⟩
  · rintro ⟨timed, htimed, hcontent, rfl⟩
    exact ⟨timed, List.mem_filter.mpr ⟨htimed, decide_eq_true hcontent⟩, rfl⟩

/-- Without a stored value a labelled passage has the time of its label. -/
theorem base_declared {text : List Char} {metadata : Metadata} {recordedAt : Datetime} {timed : Timed}
    (h : timed ∈ library.times text .null metadata recordedAt) {label : Datetime}
    (hlabel : timed.part.declaredAt = some label) : timed.date = label := by
  rw [Library.times, stored_null, timesFrom_nil] at h
  obtain ⟨part, -, rfl⟩ := List.mem_map.mp h
  rw [timeOf_nil] at hlabel ⊢
  cases hpart : part.declaredAt with
  | none =>
    rw [hpart] at hlabel
    exact absurd (hpart.symm.trans hlabel) (fun h => by cases h)
  | some date =>
    rw [hpart] at hlabel
    exact Option.some.inj (hpart.symm.trans hlabel)

/-- A label of a passage is among those of the previous revision. -/
theorem declared_before {previous : Revision} {label : Datetime} :
    ((library.retained sha256 (some previous)).declared.contains label.instant) = true ↔
      ∃ before ∈ library.recorded previous,
        before.part.declaredAt.map (·.instant) = some label.instant := by
  rw [List.contains_iff_mem]
  exact List.mem_filterMap

/-- **The exact age of one passage**: it keeps every recorded time unless its label
    overtakes them. -/
theorem captured_keeps {previous : Revision} {edit : Edit} {timed : Timed}
    (hbase : timed ∈ library.times edit.text .null edit.metadata edit.recordedAt) :
    (∀ instant ∈ library.instants previous (content edit.text timed.part),
      ((library.retained sha256 (some previous)).captured sha256 edit.text
        (library.sourceTime edit.metadata edit.recordedAt) timed).date.instant ≤ instant) ↔
      ¬ Overtaken library sha256 previous edit timed.part := by
  have hprior : (library.retained sha256 (some previous)).prior.Keeps
      (fun before => sha256 (content previous.content before.part)) (library.recorded previous) :=
    prior_keeps sha256 previous.content (library.recorded previous)
  unfold Retained.captured
  cases hfind : (library.retained sha256 (some previous)).prior.find
      (sha256 (content edit.text timed.part)) with
  | none =>
    -- nothing with this content was recorded
    have hempty : ∀ instant, instant ∉ library.instants previous (content edit.text timed.part) := by
      intro instant hinstant
      obtain ⟨before, hbefore, hcontent, -⟩ := mem_instants.mp hinstant
      exact hprior.absent hfind before hbefore (congrArg sha256 hcontent)
    apply iff_of_true
    · exact fun instant hinstant => absurd hinstant (hempty instant)
    · rintro ⟨label, -, -, -, instant, hinstant, -⟩
      exact hempty instant hinstant
  | some old =>
    have hearliest : ∀ instant ∈ library.instants previous (content edit.text timed.part),
        old.1.instant ≤ instant := by
      intro instant hinstant
      obtain ⟨before, hbefore, hcontent, rfl⟩ := mem_instants.mp hinstant
      exact hprior.earliest hfind before hbefore (congrArg sha256 hcontent)
    obtain ⟨first, hfirst, hsame, hattained⟩ := hprior.attained hfind
    dsimp only
    by_cases hretained : old.1.instant ≤ timed.date.instant
    · -- the kept time is taken
      rw [if_pos hretained]
      apply iff_of_true hearliest
      rintro ⟨label, hlabel, -, hyounger, -⟩
      have hlater := hyounger first hfirst hsame
      rw [base_declared hbase hlabel, ← hattained] at hretained
      exact absurd hlater (Nat.not_lt.mpr hretained)
    · rw [if_neg hretained]
      by_cases hknown : (timed.part.declaredAt.any fun date =>
          (library.retained sha256 (some previous)).declared.contains date.instant) = true
      · -- the label is an old one, and the passage gets the time of the update
        rw [if_pos hknown]
        obtain ⟨label, hlabel, hcontains⟩ := (Option.any_eq_true _ _).mp hknown
        have hdate := base_declared hbase hlabel
        constructor
        · rintro hkeeps ⟨_, -, -, -, instant, hinstant, hlater⟩
          exact absurd (hkeeps instant hinstant) (Nat.not_le.mpr hlater)
        · intro hnot instant hinstant
          by_contra hlater
          refine hnot ⟨label, hlabel, declared_before.mp hcontains, ?_, instant, hinstant,
            Nat.not_le.mp hlater⟩
          intro before hbefore hdigest
          rw [← hdate]
          exact Nat.lt_of_lt_of_le (Nat.not_le.mp hretained)
            (hprior.earliest hfind before hbefore hdigest)
      · -- the label is new, and older than the kept time
        rw [if_neg hknown]
        apply iff_of_true
        · exact fun instant hinstant =>
            (Nat.le_of_lt (Nat.not_le.mp hretained)).trans (hearliest instant hinstant)
        · rintro ⟨label, hlabel, hbefore, -⟩
          apply hknown
          rw [hlabel]
          exact declared_before.mpr hbefore

/-- One edit keeps the ages of what it leaves unchanged exactly when no passage of the new
    text is overtaken by an old label. -/
theorem keepsAges_iff {previous : Revision} {edit : Edit} :
    KeepsAges library sha256 previous edit ↔
      ∀ part ∈ library.passages edit.text edit.recordedAt,
        ¬ Overtaken library sha256 previous edit part := by
  have hparts := observed_parts library sha256 edit.text edit.metadata edit.recordedAt (some previous)
  constructor
  · intro hkeeps part hpart
    rw [← hparts] at hpart
    obtain ⟨observed, hobserved, rfl⟩ := List.mem_map.mp hpart
    have hinstants := hkeeps observed hobserved
    obtain ⟨timed, htimed, rfl⟩ := List.mem_map.mp hobserved
    rw [captured_part] at hinstants ⊢
    exact (captured_keeps htimed).mp hinstants
  · intro hnot observed hobserved
    have hpart := hnot observed.part (hparts ▸ List.mem_map_of_mem hobserved)
    obtain ⟨timed, htimed, rfl⟩ := List.mem_map.mp hobserved
    rw [captured_part] at hpart ⊢
    exact (captured_keeps htimed).mpr hpart

/-! ### A run of edits -/

variable (library) (sha256)

/-- The revisions of a memory along some edits, the first one included. -/
def revisions (first : Revision) : List Edit → List Revision
  | [] => [first]
  | edit :: edits => first :: revisions (library.revise sha256 first edit) edits

/-- No edit of the run overtakes a passage. -/
def Undisturbed (first : Revision) : List Edit → Prop
  | [] => True
  | edit :: edits =>
    (∀ part ∈ library.passages edit.text edit.recordedAt,
      ¬ Overtaken library sha256 first edit part) ∧
      Undisturbed (library.revise sha256 first edit) edits

variable {library} {sha256}

/-- What a revision records is what it was captured with. -/
theorem mem_instants_revise {previous : Revision} {edit : Edit} (htext : edit.text ≠ [])
    {statement : List Char} {instant : Instant} :
    instant ∈ library.instants (library.revise sha256 previous edit) statement →
      ∃ timed ∈ library.observed sha256 edit.text edit.metadata edit.recordedAt (some previous),
        content edit.text timed.part = statement ∧ timed.date.instant = instant := by
  intro h
  obtain ⟨read, hread, hcontent, hinstant⟩ := mem_instants.mp h
  have htimes := capture_times library sha256 edit.metadata edit.recordedAt (some previous) htext
  have hkey : read.key ∈
      (library.observed sha256 edit.text edit.metadata edit.recordedAt (some previous)).map
        Timed.key := by
    rw [← htimes]
    exact List.mem_map_of_mem hread
  obtain ⟨timed, htimed, hsame⟩ := List.mem_map.mp hkey
  obtain ⟨hpart, hdate, -⟩ : timed.part = read.part ∧ timed.date.instant = read.date.instant ∧
      timed.basis = read.basis := by
    simpa [Timed.key] using hsame
  refine ⟨timed, htimed, ?_, hdate.trans hinstant⟩
  rw [hpart]
  exact hcontent

theorem revise_keeps {previous : Revision} {edit : Edit} (htext : edit.text ≠ [])
    (hnot : ∀ part ∈ library.passages edit.text edit.recordedAt,
      ¬ Overtaken library sha256 previous edit part) {statement : List Char} {before after : Instant}
    (hbefore : before ∈ library.instants previous statement)
    (hafter : after ∈ library.instants (library.revise sha256 previous edit) statement) :
    after ≤ before := by
  obtain ⟨timed, htimed, hcontent, rfl⟩ := mem_instants_revise htext hafter
  apply keepsAges_iff.mpr hnot timed htimed
  rw [hcontent]
  exact hbefore

theorem revisions_head (first : Revision) (edits : List Edit) :
    ∃ rest, revisions library sha256 first edits = first :: rest := by
  cases edits with
  | nil => exact ⟨[], rfl⟩
  | cons edit edits => exact ⟨_, rfl⟩

/-- Along an undisturbed run no later revision records a later time of a statement that all
    of them contain. -/
theorem revisions_keep {statement : List Char} (edits : List Edit) : ∀ {first : Revision},
    (∀ edit ∈ edits, edit.text ≠ []) → Undisturbed library sha256 first edits →
      (∀ revision ∈ revisions library sha256 first edits, library.instants revision statement ≠ []) →
      (revisions library sha256 first edits).Pairwise fun earlier later =>
        ∀ before ∈ library.instants earlier statement,
          ∀ after ∈ library.instants later statement, after ≤ before := by
  induction edits with
  | nil => exact fun _ _ _ => List.pairwise_singleton _ _
  | cons edit edits ih =>
    intro first htexts hundisturbed hpresent
    obtain ⟨hnot, hrest⟩ := hundisturbed
    have htext := htexts edit List.mem_cons_self
    have hlater := ih (fun other hother => htexts other (List.mem_cons_of_mem _ hother)) hrest
      fun revision hrevision => hpresent revision (List.mem_cons_of_mem _ hrevision)
    rw [revisions, List.pairwise_cons]
    refine ⟨fun revision hrevision before hbefore after hafter => ?_, hlater⟩
    obtain ⟨rest, hrevisions⟩ :=
      @revisions_head _ _ library sha256 (library.revise sha256 first edit) edits
    rw [hrevisions] at hlater hrevision
    rcases List.mem_cons.mp hrevision with rfl | hrevision
    · exact revise_keeps htext hnot hbefore hafter
    · -- through a time that the next revision records
      obtain ⟨between, hbetween⟩ := List.exists_mem_of_ne_nil _
        (hpresent (library.revise sha256 first edit) (List.mem_cons_of_mem _ (by
          rw [hrevisions]
          exact List.mem_cons_self)))
      exact ((List.pairwise_cons.mp hlater).1 revision hrevision between hbetween after hafter).trans
        (revise_keeps htext hnot hbefore hbetween)

/-- **An edit makes an unchanged passage younger exactly when an old label overtakes it**,
    and a run without such edits never moves the age of a statement forward. -/
theorem captured_ages (library : Library) (sha256 : List Char → Digest) :
    (∀ previous edit, KeepsAges library sha256 previous edit ↔
      ∀ part ∈ library.passages edit.text edit.recordedAt,
        ¬ Overtaken library sha256 previous edit part) ∧
      ∀ first edits, (∀ edit ∈ edits, edit.text ≠ []) → Undisturbed library sha256 first edits →
        ∀ statement,
          (∀ revision ∈ revisions library sha256 first edits,
            library.instants revision statement ≠ []) →
          (revisions library sha256 first edits).Pairwise fun earlier later =>
            ∀ before ∈ library.instants earlier statement,
              ∀ after ∈ library.instants later statement, after ≤ before :=
  ⟨fun _ _ => keepsAges_iff, fun _ edits htexts hundisturbed _ hpresent =>
    revisions_keep edits htexts hundisturbed hpresent⟩

end Edits

instance {Digest : Type} [DecidableEq Digest] (library : Library) (sha256 : List Char → Digest)
    (previous : Revision) (edit : Edit) : Decidable (KeepsAges library sha256 previous edit) :=
  inferInstanceAs (Decidable (∀ timed ∈ _, ∀ instant ∈ _, _ ≤ _))

def movedAt : Datetime :=
  ⟨63927000000000000, 0, 63927000000000000, by decide, by decide, by decide, zero_offset⟩

/-- A first revision of a text. -/
def firstOf (text : List Char) : Revision where
  content := text
  metadata := fun _ => none
  passageTimes := asciiLibrary.capture id text (fun _ => none) writtenAt none
  recordedAt := writtenAt

def heading : List Char := ['#', ' ', '2', '0', '2', '0', '-', '0', '1', '-', '0', '1']

/-- A statement that is moved under an old heading gets the time of the move. -/
theorem captured_ages_fails :
    ¬ KeepsAges asciiLibrary id (firstOf (['X', '\n'] ++ heading))
      ⟨heading ++ ['\n', 'X'], fun _ => none, movedAt⟩ := by
  decide +kernel

/-- A statement without a heading keeps its time. -/
theorem captured_ages_plain :
    (revisions asciiLibrary id (firstOf ['X']) [⟨['X', '\n', 'Y'], fun _ => none, movedAt⟩]).Pairwise
      fun earlier later => ∀ before ∈ asciiLibrary.instants earlier ['X'],
        ∀ after ∈ asciiLibrary.instants later ['X'], after ≤ before := by
  apply (captured_ages asciiLibrary id).2
  · decide
  · refine ⟨fun part hpart => ?_, trivial⟩
    have hnone : ∀ part ∈ asciiLibrary.passages ['X', '\n', 'Y'] movedAt,
        part.declaredAt.isNone = true := by
      decide +kernel
    rintro ⟨label, hlabel, -⟩
    have := hnone part hpart
    rw [hlabel] at this
    cases this
  · decide +kernel

end Mnemion.PassageTime
