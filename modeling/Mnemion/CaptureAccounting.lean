/-
  Mnemion/CaptureAccounting.lean
  ==============================
  **The capture summary is an exact account of the observations.**  Every call adds to each
  counter what the written observation contributes and takes away what the one it replaces
  did (`replace_balanced`), so that each counter stays the sum over all observations, and
  the consistency checks of the summary cannot fail.
-/
import Mnemion.CaptureObservations
import Mnemion.CaptureFence
import Mnemion.Postcondition
import Mnemion.Machine
import Mathlib.Algebra.Order.BigOperators.Group.List

namespace Mnemion.Coverage

open Outcome Assoc Capture

/-! ### Accounts -/

/-- Each counter is the sum of the contributions. -/
def Accounts (observations : List (String × PrefixObservation)) (counts : Counter → Int) : Prop :=
  ∀ counter, counts counter = (observations.map fun row => contribution (some row.2) counter).sum

/-- The counters of the stored summary; without one they are zero. -/
def summaryCounts (summary : Option CaptureCoverage) : Counter → Int :=
  match summary with
  | some summary => summary.counts
  | none => fun _ => 0

/-- What holds of a store between the calls. -/
structure Balanced {Digest : Type} (store : Store Digest) : Prop where
  unique : (store.observations.map (·.1)).Nodup
  account : Accounts store.observations (summaryCounts store.summary)
  -- a checkpoint older than its observation has its prefix within the file
  older : ∀ row ∈ store.checkpoints, ∀ prior ∈ row.2, lookup row.1 store.observations = none →
    prior.completeEnd ≤ prior.statSize

theorem Accounts.upsert {observations : List (String × PrefixObservation)} {counts : Counter → Int}
    (h : Accounts observations counts) (scope : String) (after : PrefixObservation) :
    Accounts (upsert scope after observations) fun field =>
      counts field + (contribution (some after) field - contribution (lookup scope observations) field) := by
  intro counter
  dsimp only
  rw [h counter]
  exact (sum_upsert (fun value => contribution value counter) rfl scope after observations).symm

/-- The inequalities of one observation add up. -/
theorem Accounts.le {observations : List (String × PrefixObservation)} {counts : Counter → Int}
    (h : Accounts observations counts) {small large : List Counter}
    (hone : ∀ value : PrefixObservation, (small.map (contribution (some value))).sum ≤
      (large.map (contribution (some value))).sum) :
    (small.map counts).sum ≤ (large.map counts).sum := by
  have hsum : ∀ fields : List Counter, (fields.map counts).sum =
      (observations.map fun row => (fields.map (contribution (some row.2))).sum).sum := by
    intro fields
    induction fields with
    | nil => simp
    | cons field fields ih =>
      simp only [List.map_cons, List.sum_cons]
      rw [ih, h field, List.sum_map_add]
  rw [hsum small, hsum large]
  exact List.sum_le_sum fun row _ => hone row.2

theorem indicator_le (c : Prop) [Decidable c] : indicator c ≤ 1 := by
  unfold indicator
  split <;> decide

/-- **An exact account is consistent.** -/
theorem Accounts.consistent {observations : List (String × PrefixObservation)}
    {summary : CoverageFields} (h : Accounts observations summary.counts)
    (hindex : summary.index.Consistent) : summary.Consistent := by
  have houtcome := @Accounts.le _ _ h [.checkingScopes, .failedScopes, .missingScopes]
    [.trackedScopes] fun value => by
      show indicator (value.outcome = .checking ∨ value.outcome = .deferred) +
        (indicator (value.outcome = .failed) + (indicator (value.outcome = .missing) + 0)) ≤ 1 + 0
      cases value.outcome <;> decide
  have huncertain := @Accounts.le _ _ h [.uncertainScopes] [.trackedScopes] fun value => by
    have := indicator_le (value.uncertain = true)
    show indicator (value.uncertain = true) + 0 ≤ 1 + 0
    omega
  have hunknown := @Accounts.le _ _ h [.unknownPrefixScopes] [.trackedScopes] fun value => by
    have := indicator_le (value.records = none)
    show indicator (value.records = none) + 0 ≤ 1 + 0
    omega
  have hbytes : ∀ value : PrefixObservation,
      value.examinedBytes + (value.observedBytes - value.examinedBytes + 0) = value.observedBytes + 0 := by
    intro value
    omega
  have hbytesLe := @Accounts.le _ _ h [.examinedPrefixBytes, .unacceptedObservedBytes]
    [.observedBytes] fun value => (hbytes value).le
  have hbytesGe := @Accounts.le _ _ h [.observedBytes]
    [.examinedPrefixBytes, .unacceptedObservedBytes] fun value => (hbytes value).ge
  -- each observation's records are a partition of its lines
  have hrecords : ∀ value : PrefixObservation, contribution (some value) .lines + 0 =
      contribution (some value) .selected +
        (contribution (some value) .omitted + (contribution (some value) .unsupported + 0)) := by
    intro value
    have hvalid := value.valid.2.2.2.2
    show (value.records.map Selection.lines).getD 0 + 0 = (value.records.map Selection.selected).getD 0 +
      ((value.records.map Selection.omitted).getD 0 +
        ((value.records.map Selection.unsupported).getD 0 + 0))
    cases hrecords : value.records with
    | none => rfl
    | some records =>
      have := (hvalid records (Option.mem_def.mpr hrecords)).2
      simp only [Option.map_some, Option.getD_some]
      omega
  have hlinesLe := @Accounts.le _ _ h [.lines] [.selected, .omitted, .unsupported]
    fun value => (hrecords value).le
  have hlinesGe := @Accounts.le _ _ h [.selected, .omitted, .unsupported] [.lines]
    fun value => (hrecords value).ge
  simp only [List.map_cons, List.map_nil, List.sum_cons, List.sum_nil] at houtcome huncertain hunknown
  simp only [List.map_cons, List.map_nil, List.sum_cons, List.sum_nil] at hbytesLe hbytesGe
  simp only [List.map_cons, List.map_nil, List.sum_cons, List.sum_nil] at hlinesLe hlinesGe
  exact ⟨by omega, by omega, by omega, by omega, by omega, hindex⟩

/-! ### Calls -/

/-- Every error but a failed consistency check. -/
def Sane (error : CoverageError) : Prop := error ≠ .inconsistent

/-- What holds of a store and the summary at hand inside a transaction. -/
structure Open {Digest : Type} (store : Store Digest) (summary : CoverageFields) : Prop where
  unique : (store.observations.map (·.1)).Nodup
  account : Accounts store.observations summary.counts
  index : summary.index.Consistent
  older : ∀ row ∈ store.checkpoints, ∀ prior ∈ row.2, lookup row.1 store.observations = none →
    prior.completeEnd ≤ prior.statSize

section Calls

variable {Digest : Type} {binding : Binding Digest} {moment : Moment} {store : Store Digest}
  {summary : CoverageFields}

theorem readSummary_ensures (h : Balanced store) :
    Ensures Sane (Open store) (store.readSummary binding) := by
  unfold Store.readSummary
  have haccount := h.account
  cases hsummary : store.summary with
  | none =>
    rw [hsummary] at haccount
    dsimp only
    split
    · exact ⟨h.unique, haccount, ⟨⟨rfl, rfl, rfl⟩, fun _ h => (nomatch h), fun _ h => (nomatch h)⟩,
        h.older⟩
    · exact fun h => (nomatch h)
  | some summary =>
    rw [hsummary] at haccount
    dsimp only
    split
    · exact ⟨h.unique, haccount, summary.consistent.2.2.2.2.2, h.older⟩
    · exact fun h => (nomatch h)

theorem scope_ensures (store : Store Digest) (scope : String) :
    Ensures Sane (fun before => before = lookup scope store.observations) (store.scope scope) := by
  unfold Store.scope
  split
  · rfl
  · exact fun h => by cases h

theorem validate_ensures {o : ObservationFields} (h : o.examinedBytes ≤ o.observedBytes) :
    Ensures Sane (fun _ => True) o.validate := by
  unfold ObservationFields.validate
  split
  · exact trivial
  · exact fun h => (nomatch h)

/-- **One observation is replaced**, and the counters follow. -/
theorem replace_ensures (h : Open store summary) {scope : String} {before : Option PrefixObservation}
    (hbefore : before = lookup scope store.observations) {after : ObservationFields}
    (hwithin : after.examinedBytes ≤ after.observedBytes) :
    Ensures Sane (fun result => Open result.1 result.2 ∧ lookup scope result.1.observations ≠ none)
      (store.replace summary scope before after) := by
  subst hbefore
  unfold Store.replace
  apply (validate_ensures hwithin).bind
  intro value _
  apply ensures_pure
  refine ⟨⟨nodup_upsert h.unique, h.account.upsert scope value, h.index, ?_⟩, ?_⟩
  · intro row hrow prior hprior hnone
    apply h.older row hrow prior hprior
    rw [lookup_upsert] at hnone
    split at hnone
    · cases hnone
    · exact hnone
  · rw [lookup_upsert, if_pos rfl]
    exact fun h => by cases h

theorem finish_ensures (h : Open store summary) :
    Ensures Sane (fun store' => Balanced store' ∧ store'.observations = store.observations)
      (store.finish summary) := by
  have hconsistent := h.account.consistent h.index
  unfold Store.finish CoverageFields.validate
  split
  · exact ⟨⟨h.unique, h.account, h.older⟩, rfl⟩
  · exact fun h => (nomatch h)

/-- The counters and the index sweep are all that a summary is checked for. -/
theorem Open.congr (h : Open store summary) {store' : Store Digest} {summary' : CoverageFields}
    (hobservations : store'.observations = store.observations)
    (hcheckpoints : store'.checkpoints = store.checkpoints)
    (hcounts : summary'.counts = summary.counts) (hindex : summary'.index.Consistent) :
    Open store' summary' where
  unique := hobservations ▸ h.unique
  account := by
    rw [hobservations, hcounts]
    exact h.account
  index := hindex
  older := by
    rw [hobservations, hcheckpoints]
    exact h.older

theorem within_fieldsOf (before : Option PrefixObservation) :
    (fieldsOf before).examinedBytes ≤ (fieldsOf before).observedBytes := by
  cases before with
  | none => exact le_refl _
  | some before => exact before.within

theorem lostPrefix_bytes (before : Option PrefixObservation) (changed : Bool) (observed : Int) :
    (lostPrefix before changed observed).examinedBytes = (fieldsOf before).examinedBytes := by
  unfold lostPrefix
  cases before with
  | none => rfl
  | some before =>
    dsimp only
    split
    · rfl
    · split <;> rfl

/-! ### The catalog -/

theorem Balanced.withSchedule (h : Balanced store) (schedule : Option (CaptureSchedule Digest)) :
    Balanced { store with schedule := schedule } := ⟨h.unique, h.account, h.older⟩

theorem knownFields_within (h : Open store summary) (scope : String) :
    (store.knownFields scope (lookup scope store.observations)).examinedBytes ≤
      (store.knownFields scope (lookup scope store.observations)).observedBytes := by
  unfold Store.knownFields
  split
  · rename_i prior hnone hprior
    exact h.older (scope, some prior) (lookup_mem hprior) prior rfl hnone
  · exact within_fieldsOf _

theorem catalogAfter_within (h : Open store summary) (current : List String) (scheduled reset : Bool)
    (scope : String) :
    (catalogAfter store current scheduled reset scope (lookup scope store.observations)).examinedBytes ≤
      (catalogAfter store current scheduled reset scope
        (lookup scope store.observations)).observedBytes := by
  have hwithin := knownFields_within h scope
  unfold catalogAfter
  dsimp only
  split
  · exact hwithin
  · split
    · exact hwithin
    · split <;> exact hwithin

theorem catalogScope_ensures (current : List String) (scheduled reset : Bool)
    {listing : Listing Digest} (h : Open listing.store listing.summary) (scope : String) :
    Ensures Sane (fun listing => Open listing.store listing.summary)
      (catalogScope current scheduled reset listing scope) := by
  unfold catalogScope
  apply (scope_ensures listing.store scope).bind
  rintro before rfl
  apply (replace_ensures h rfl (catalogAfter_within h current scheduled reset scope)).bind
  exact fun _ hreplaced => ensures_pure hreplaced.1

theorem planned_ensures [DecidableEq Digest] (h : Balanced store) (scopes : List String) (scheduled : Bool) :
    Ensures Sane (fun result => Balanced result.2) (store.planned binding scopes scheduled) := by
  unfold Store.planned
  split
  · have hturn : Ensures Sane (fun _ => True) (store.turn binding scopes) := by
      unfold Store.turn
      exact (ensures_check fun h => nomatch h).bind fun _ _ => ensures_pure trivial
    exact hturn.bind fun _ _ => ensures_pure (h.withSchedule _)
  · exact h

theorem catalog_ensures [DecidableEq Digest] (h : Balanced store) (scopes : List String) (scheduled : Bool) :
    Ensures Sane (fun result => Balanced result.2)
      (store.catalog binding moment scopes scheduled) := by
  unfold Store.catalog
  apply (ensures_check fun h => nomatch h).bind
  intro _ _
  apply (ensures_check fun h => nomatch h).bind
  intro _ _
  apply (planned_ensures h scopes scheduled).bind
  rintro ⟨work, turned⟩ hbalanced
  apply (readSummary_ensures hbalanced).bind
  intro summary hopen
  apply (ensures_foldlM (fun _ listing => Open listing.store listing.summary)
    (fun scope _ listing hlisting => catalogScope_ensures scopes scheduled _ hlisting scope)
    (hopen.congr rfl rfl rfl hopen.index)).bind
  intro listing hlisting
  refine (finish_ensures ?_).bind fun finished hfinished => ?_
  · exact hlisting.congr rfl rfl rfl hlisting.index
  exact (ensures_check fun h => nomatch h).bind fun _ _ => ensures_pure hfinished.1

theorem scanStarted_ensures (h : Balanced store) (scope : String) :
    Ensures Sane Balanced (store.scanStarted binding scope) := by
  unfold Store.scanStarted
  apply (scope_ensures store scope).bind
  rintro before hbefore
  cases before with
  | none => exact fun h => (nomatch h)
  | some before =>
    cases hschedule : store.schedule with
    | none => exact fun h => (nomatch h)
    | some schedule =>
      dsimp only
      apply (ensures_check fun h => nomatch h).bind
      intro _ _
      apply (readSummary_ensures (h.withSchedule _)).bind
      intro summary hopen
      refine (replace_ensures hopen hbefore ?_).bind fun _ hreplaced =>
        (finish_ensures hreplaced.1).mono fun _ hfinished => hfinished.1
      exact before.within

/-- A call that only writes fields of the summary that are not checked, or the sweep. -/
theorem summary_ensures (h : Balanced store) {f : CoverageFields → CoverageFields}
    (hcounts : ∀ summary, (f summary).counts = summary.counts)
    (hindex : ∀ summary, summary.index.Consistent → (f summary).index.Consistent) :
    Ensures Sane Balanced (store.readSummary binding >>= fun summary => store.finish (f summary)) := by
  apply (readSummary_ensures h).bind
  intro summary hopen
  exact (finish_ensures (hopen.congr rfl rfl (hcounts summary) (hindex summary hopen.index))).mono
    fun _ hfinished => hfinished.1

theorem catalogUnavailable_ensures (h : Balanced store) :
    Ensures Sane Balanced (store.catalogUnavailable binding moment) :=
  summary_ensures h (fun _ => rfl) fun _ hindex => hindex

/-! ### Scans -/

/-- What the scans promise of a report and a checkpoint. -/
def Ready.Within (checkpoint : Ready) (report : Report) : Prop :=
  ∀ observed ∈ report.observedSizeBytes, checkpoint.completeEnd ≤ observed

theorem accepted_ensures (h : Balanced store) (scope : String) {checkpoint : Ready} {report : Report}
    (hreport : checkpoint.Within report) :
    Ensures Sane Balanced (store.accepted binding moment scope checkpoint report) := by
  unfold Store.accepted
  apply (scope_ensures store scope).bind
  intro before hbefore
  cases hobserved : report.observedSizeBytes with
  | none => exact fun h => (nomatch h)
  | some observed =>
    cases hcurrent : checkpoint.current with
    | none => exact fun h => (nomatch h)
    | some current =>
      dsimp only
      apply (readSummary_ensures h).bind
      intro summary hopen
      refine (replace_ensures hopen hbefore ?_).bind fun result hreplaced => ?_
      · exact hreport observed hobserved
      · refine (finish_ensures ?_).bind fun finished hfinished => ensures_pure ?_
        · exact hreplaced.1.congr rfl rfl rfl hreplaced.1.index
        · refine ⟨hfinished.1.unique, hfinished.1.account, fun row hrow prior hprior hnone => ?_⟩
          rcases mem_upsert hrow with rfl | hrow
          · -- the scope has an observation now, whatever its checkpoint says
            rw [hfinished.2] at hnone
            exact absurd hnone hreplaced.2
          · exact hfinished.1.older row hrow prior hprior hnone

theorem failedAfter_within (before : Option PrefixObservation) (report : Option Report) :
    (failedAfter before report).examinedBytes ≤ (failedAfter before report).observedBytes := by
  unfold failedAfter
  split
  · exact within_fieldsOf before
  · exact le_max_right _ _

theorem failed_ensures (h : Balanced store) (scope : String) (report : Option Report) :
    Ensures Sane Balanced (store.failed binding scope report) := by
  unfold Store.failed
  apply (scope_ensures store scope).bind
  intro before hbefore
  apply (readSummary_ensures h).bind
  intro summary hopen
  exact (replace_ensures hopen hbefore (failedAfter_within before report)).bind fun _ hreplaced =>
    (finish_ensures hreplaced.1).mono fun _ hfinished => hfinished.1

/-! ### Delivery -/

theorem queued_ensures (h : Balanced store) (previousBytes addedBytes : Nat) :
    Ensures Sane Balanced (store.queued binding moment previousBytes addedBytes) := by
  unfold Store.queued
  split
  · exact summary_ensures h (fun _ => rfl) fun _ hindex => hindex
  · exact h

theorem Partition.add {a b : IndexCounter → Int} (ha : Partition a) (hb : Partition b) :
    Partition fun key => a key + b key := by
  obtain ⟨haEvents, haLexical⟩ := ha
  obtain ⟨hbEvents, hbLexical⟩ := hb
  refine ⟨?_, ?_⟩ <;> dsimp only <;> omega

theorem sweepPage_partition {active : Option IndexSweep} (h : ∀ sweep ∈ active, Partition sweep.counts)
    (page : IndexPage) : Partition (sweepPage active page).counts := by
  unfold sweepPage
  cases active with
  | none => exact Partition.add ⟨rfl, rfl⟩ page.partition
  | some sweep => exact Partition.add (h sweep rfl) page.partition

theorem indexUnavailable_ensures (h : Balanced store) (unsupported : Bool) :
    Ensures Sane Balanced (store.indexUnavailable binding moment unsupported) := by
  refine summary_ensures h (fun _ => rfl) fun summary hindex => ⟨?_, hindex.2⟩
  cases unsupported <;> exact fun h => (nomatch h)

theorem indexed_ensures (h : Balanced store) (page : IndexPage) :
    Ensures Sane (fun result => Balanced result.1) (store.indexed binding moment page) := by
  unfold Store.indexed
  apply (ensures_check fun h => nomatch h).bind
  intro _ _
  apply (readSummary_ensures h).bind
  intro summary hopen
  apply (ensures_check fun h => nomatch h).bind
  intro _ _
  obtain ⟨-, hactive, hcompleted⟩ := hopen.index
  have hattempt : some moment.now ≠ none := fun h => (nomatch h)
  split
  · -- another generation: the sweep starts again
    refine (finish_ensures ?_).bind fun _ hfinished => ensures_pure hfinished.1
    refine hopen.congr rfl rfl rfl ⟨hattempt, fun _ h => (nomatch h), hcompleted⟩
  · have hpartition := sweepPage_partition (fun sweep hsweep => (hactive sweep hsweep).2) page
    refine (finish_ensures ?_).bind fun _ hfinished => ensures_pure hfinished.1
    refine hopen.congr rfl rfl rfl ?_
    by_cases hlast : page.nextCursor = none
    · rw [if_pos hlast]
      refine ⟨hattempt, fun _ h => (nomatch h), ?_⟩
      rintro sweep ⟨⟩
      exact ⟨hlast, hpartition⟩
    · rw [if_neg hlast]
      refine ⟨hattempt, ?_, hcompleted⟩
      rintro sweep ⟨⟩
      exact ⟨hlast, hpartition⟩

end Calls

/-! ### Runs -/

/-- The scans keep their prefix within the file. -/
def Call.Within : Call → Prop
  | .accepted _ _ checkpoint report => checkpoint.Within report
  | .older _ prior => ∀ held ∈ prior, held.completeEnd ≤ held.statSize
  | _ => True

section Runs

variable {Digest : Type} [DecidableEq Digest] {binding : Binding Digest} {store : Store Digest}

/-- **One call**: an exact account stays exact, and no consistency check fails. -/
theorem call_ensures (h : Balanced store) {call : Call} (hcall : call.Within) :
    Ensures Sane Balanced (store.call binding call) := by
  cases call with
  | catalog moment scopes scheduled =>
    exact (catalog_ensures h scopes scheduled).map fun _ hresult => hresult
  | scanStarted scope => exact scanStarted_ensures h scope
  | catalogUnavailable moment => exact catalogUnavailable_ensures h
  | accepted moment scope checkpoint report => exact accepted_ensures h scope hcall
  | failed scope report => exact failed_ensures h scope report
  | queued moment previousBytes addedBytes => exact queued_ensures h previousBytes addedBytes
  | acknowledged moment => exact summary_ensures h (fun _ => rfl) fun _ hindex => hindex
  | contacted moment => exact summary_ensures h (fun _ => rfl) fun _ hindex => hindex
  | indexUnavailable moment unsupported => exact indexUnavailable_ensures h unsupported
  | indexed moment page => exact (indexed_ensures h page).map fun _ hresult => hresult
  | older scope prior =>
    refine ⟨h.unique, h.account, fun row hrow old hold hnone => ?_⟩
    rcases mem_upsert hrow with rfl | hrow
    · exact hcall old hold
    · exact h.older row hrow old hold hnone

theorem balanced_run (calls : List Call) (hcalls : ∀ call ∈ calls, call.Within) :
    Balanced ((coverageMachine binding).run calls) := by
  apply Machine.run_invariant _ Balanced Call.Within _ _ calls hcalls
  · exact ⟨List.nodup_nil, fun _ => rfl, fun _ h => (nomatch h)⟩
  · intro store call hcall h
    show Balanced (Store.next binding store call)
    unfold Store.next
    split
    · rename_i next hnext
      exact (call_ensures h hcall).of_ok hnext
    · exact h

/-- **Coverage accounting is conserved**: after every run each counter of the summary is the
    sum over the observations, and no call fails a consistency check. -/
theorem coverage_conserved (binding : Binding Digest) (calls : List Call)
    (hcalls : ∀ call ∈ calls, call.Within) :
    let store := (coverageMachine binding).run calls
    (∀ counter, summaryCounts store.summary counter =
        (store.observations.map fun row => contribution (some row.2) counter).sum) ∧
      ∀ call : Call, call.Within → store.call binding call ≠ .error .inconsistent := by
  have h : Balanced ((coverageMachine binding).run calls) := balanced_run calls hcalls
  exact ⟨h.account, fun call hcall herror => (call_ensures h hcall).of_error herror rfl⟩

end Runs

/-- A scope that is listed and then scanned. -/
theorem coverage_conserved_scan :
    let binding : Binding (List String) := ⟨.complete, "", "", fun scopes => scopes⟩
    let store := (coverageMachine binding).run
      [.catalog ⟨1, 10, true⟩ [sampleScope] true, .scanStarted sampleScope]
    store.call binding (.failed sampleScope none) ≠ .error .inconsistent :=
  (coverage_conserved ⟨.complete, "", "", fun scopes => scopes⟩
    [.catalog ⟨1, 10, true⟩ [sampleScope] true, .scanStarted sampleScope]
    (fun call hcall => by
      rcases List.mem_cons.mp hcall with rfl | hcall
      · trivial
      · rw [List.mem_singleton.mp hcall]
        trivial)).2 _ trivial

end Mnemion.Coverage
