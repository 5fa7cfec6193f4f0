/-
  Mnemion/JournalHistory.lean
  ===========================
  **Any number of publishers on one remote branch.**  The remote head is a commit
  replaced by an atomic compare-and-swap (Git's fast-forward check); every
  publisher keeps its own delivery index and `publication.json`, works on the
  head it fetched and tries at most three times.  Publication batches, folds,
  lost acknowledgements and aborted calls interleave freely.

  `journal_tree_refinement` says what every head reached stores.
-/
import Mnemion.JournalRepresents
import Mnemion.Machine

namespace Mnemion.Journal

open Outcome ByteLines

/-! ### Publishers and the remote branch -/

/-- A commit and its tree; the number keeps commits with equal trees apart. -/
structure Commit where
  number : Nat
  tree : Tree
deriving DecidableEq

inductive Job where
  | publish (entries : List Entry)
  | fold (cutoff : Day)

/-- The entries a job adds once it succeeds. -/
def Job.entries : Job → List Entry
  | .publish entries => entries
  | .fold _ => []

/-- Where a publisher stands inside `publish` or `fold`.  The delivery index of a
    running call is the open SQLite transaction. -/
inductive Phase where
  | idle
  | working (job : Job) (attempt : Nat) (index : DeliveryIndex) (metrics : Metrics)
  | pushing (job : Job) (attempt : Nat) (index : DeliveryIndex) (metrics : Metrics)
      (base : Option Commit) (updates : List Update)

structure Publisher where
  index : DeliveryIndex
  publication : Option Tree
  phase : Phase

def Publisher.fresh : Publisher := ⟨.empty, none, .idle⟩

variable {ι : Type} [DecidableEq ι]

/-- The remote branch and its publishers.  `published` is the history variable
    of the refinement: the entries of the successful publishes so far. -/
structure World (ι : Type) where
  head : Option Commit
  commits : Nat
  publishers : ι → Publisher
  published : Finset Entry

def World.start : World ι := ⟨none, 0, fun _ => .fresh, ∅⟩

/-- What can happen next.  `push` tells whether the answer reaches the publisher;
    `abort` is any exception or crash in between. -/
inductive Event (ι : Type) where
  | begin (publisher : ι) (job : Job)
  | attempt (publisher : ι)
  | push (publisher : ι) (confirmed : Bool)
  | abort (publisher : ι)

section

variable (codec : LineCodec) (destination : ι → Destination)

/-- One round of the retry loop of a job, up to the push. -/
def attemptJob (d : Destination) (previous head : Option Tree) (job : Job)
    (index : DeliveryIndex) (metrics : Metrics) :
    Except JournalError (List Update × DeliveryIndex × Metrics) :=
  match job with
  | .publish entries => do
    let state ← publishAttempt codec d previous head entries index metrics
    return (state.updates, state.index, state.metrics)
  | .fold cutoff => do
    check (head = none → previous = none) .journalRemoteBranchDisappeared
    match head with
    | none => return ([], index, metrics)
    | some tree =>
      protectPrevious previous (some tree)
      let (updates, _) ← plan codec d tree cutoff
      return (updates, index, metrics)

def World.set (world : World ι) (p : ι) (publisher : Publisher) : World ι :=
  { world with publishers := Function.update world.publishers p publisher }

/-- The call ends without committing its index transaction. -/
def World.drop (world : World ι) (p : ι) : World ι :=
  world.set p { world.publishers p with phase := .idle }

/-- `for attempt in range(3)`: go round again, or raise after the third time. -/
def World.retry (world : World ι) (p : ι) (job : Job) (attempt : Nat) (index : DeliveryIndex)
    (metrics : Metrics) : World ι :=
  if attempt + 1 < 3 then
    world.set p { world.publishers p with phase := .working job (attempt + 1) index metrics }
  else world.drop p

/-- The call returns: index committed, `publication.json` written. -/
def World.finish (world : World ι) (p : ι) (index : DeliveryIndex) (tree : Tree) : World ι :=
  world.set p ⟨index, some tree, .idle⟩

def World.next (world : World ι) : Event ι → World ι
  | .begin p job =>
    match (world.publishers p).phase, job with
    | .idle, .publish entries =>
      match checkBatch codec (destination p) entries with
      | .error _ => world
      | .ok _ => world.set p { world.publishers p with
          phase := .working job 0 (world.publishers p).index .zero }
    | .idle, .fold _ => world.set p { world.publishers p with
        phase := .working job 0 (world.publishers p).index .zero }
    | _, _ => world
  | .attempt p =>
    match (world.publishers p).phase with
    | .working job attempt index metrics =>
      match attemptJob codec (destination p) (world.publishers p).publication
          (world.head.map (·.tree)) job index metrics with
      | .error _ => world.drop p
      | .ok (updates, index, metrics) =>
        if updates = [] then
          -- nothing to push: `_commit_push` returns the fetched head
          match world.head, job with
          | some commit, _ =>
            { world.finish p index commit.tree with
              published := world.published ∪ job.entries.toFinset }
          | none, .publish _ => world.retry p job attempt index metrics
          | none, .fold _ => world.drop p
        else
          world.set p { world.publishers p with
            phase := .pushing job attempt index metrics world.head updates }
    | _ => world
  | .push p confirmed =>
    match (world.publishers p).phase with
    | .pushing job attempt index metrics base updates =>
      if world.head = base then
        let tree := (headTree (base.map (·.tree))).apply updates
        let world := { world with
          head := some ⟨world.commits, tree⟩
          commits := world.commits + 1
          published := world.published ∪ job.entries.toFinset }
        if confirmed then world.finish p index tree else world.drop p
      else world.retry p job attempt index metrics
    | _ => world
  | .abort p => world.drop p

/-- The branch and its publishers as a machine, starting from a missing branch. -/
def journalMachine : Machine (World ι) (Event ι) where
  init := .start
  next := World.next codec destination

end

/-! ### What a head stores -/

/-- The entries in the `.jsonl` files of a tree, live and archived. -/
def Tree.entries (codec : LineCodec) (tree : Tree) : List Entry :=
  tree.listing.flatMap fun row =>
    match row.1 with
    | .journal _ _ => (parseFile codec row.2).toOption.getD []
    | .note _ => []

/-- The tree is the refinement of a set of published entries. -/
structure Tree.StoresExactly (codec : LineCodec) (tree : Tree) (published : Finset Entry) :
    Prop where
  /-- every journal file reads completely, lies where its records belong and is bounded -/
  readable : ∀ archived relative content, tree.blob (.journal archived relative) = some content →
    content.length ≤ MAX_FILE_BYTES ∧
      ∃ entries, parseFile codec content = .ok entries ∧
        ∀ e ∈ entries, matchesPath e relative
  /-- no entry is lost, altered or invented -/
  entries : ∀ e, e ∈ tree.entries codec ↔ e ∈ published
  /-- the catalog counts the distinct entries, and only its version 2 has continuations -/
  catalog : ∃ c, tree.catalog = some c ∧ c.records = (tree.entries codec).toFinset.card ∧
    ∀ archived relative, relative.part ≠ 0 → (tree.blob (.journal archived relative)).isSome →
      c.schemaVersion = 2
  /-- the parts of each day and writer are numbered without gaps -/
  parts : ∀ day writer, ∃ count, count ≤ MAX_SERIES_FILES ∧ ∀ part,
    (∃ archived, (tree.blob (.journal archived ⟨day, writer, part⟩)).isSome) ↔ part < count

/-- The head of the branch stores exactly the published entries; without a branch
    nothing was published. -/
structure World.StoresPublished (codec : LineCodec) (world : World ι) : Prop where
  missing : world.head = none → world.published = ∅
  stored : ∀ commit, world.head = some commit →
    commit.tree.StoresExactly codec world.published

section

variable {codec : LineCodec} {S : Set Entry}

theorem Series.Ok.recordable {day : Day} {writer : UUID} {series : Series}
    (h : series.Ok codec S day writer) (hrec : ∀ e ∈ S, Recordable codec e) {p : Part}
    (hp : p ∈ series) : parseFile codec (fileOf codec p.entries) = .ok p.entries :=
  parseFile_fileOf
    (fun e he => hrec e (h.submitted e (Series.mem_entries.mpr ⟨p, hp, he⟩))) (h.size p hp)

/-- **From the abstract journal to the files.** -/
theorem Represents.storesExactly (hrec : ∀ e ∈ S, Recordable codec e) {tree : Tree}
    {published : Finset Entry} {series : SeriesMap}
    (h : Represents codec S tree published series) : tree.StoresExactly codec published := by
  have hpart : ∀ archived day writer part content,
      tree.blob (.journal archived ⟨day, writer, part⟩) = some content →
        ∃ p ∈ series day writer, (series day writer)[part]? = some p ∧
          content = fileOf codec p.entries := by
    intro archived day writer part content hblob
    rw [h.stores.files day writer archived part, Series.view_eq_some] at hblob
    obtain ⟨p, hp, -, rfl⟩ := hblob
    exact ⟨p, List.mem_of_getElem? hp, hp, rfl⟩
  have hentries : ∀ e, e ∈ tree.entries codec ↔ e ∈ published := by
    intro e
    rw [h.stores.published, Tree.entries, List.mem_flatMap]
    constructor
    · rintro ⟨⟨path, content⟩, hmem, he⟩
      cases path with
      | note m => simp at he
      | journal archived relative =>
        obtain ⟨p, hp, -, rfl⟩ := hpart archived _ _ _ _ (Tree.mem_listing.mp hmem)
        rw [((h.stores.ok _ _).recordable hrec hp)] at he
        have he' : e ∈ (series relative.day relative.writer).entries :=
          Series.mem_entries.mpr ⟨p, hp, he⟩
        obtain ⟨hday, hwriter⟩ := (h.stores.ok _ _).placed e he'
        rw [hday, hwriter]
        exact he'
    · intro he
      obtain ⟨p, hp, hep⟩ := Series.mem_entries.mp he
      obtain ⟨k, hk⟩ := List.getElem?_of_mem hp
      refine ⟨(.journal p.archived ⟨e.date, e.writer, k⟩, fileOf codec p.entries), ?_, ?_⟩
      · rw [Tree.mem_listing, h.stores.files, Series.view_eq_some]
        exact ⟨p, hk, rfl, rfl⟩
      · rw [((h.stores.ok _ _).recordable hrec hp)]
        exact hep
  obtain ⟨c, hc, hcount, hversion⟩ := h.counts.catalog
  refine ⟨?_, hentries, ⟨c, hc, ?_, ?_⟩, ?_⟩
  · rintro archived ⟨day, writer, part⟩ content hblob
    obtain ⟨p, hp, -, rfl⟩ := hpart archived day writer part content hblob
    refine ⟨(h.stores.ok day writer).size p hp, p.entries,
      (h.stores.ok day writer).recordable hrec hp, ?_⟩
    intro e he
    obtain ⟨hday, hwriter⟩ :=
      (h.stores.ok day writer).placed e (Series.mem_entries.mpr ⟨p, hp, he⟩)
    exact ⟨hday.symm, hwriter.symm⟩
  · rw [hcount]
    congr 1
    ext e
    rw [List.mem_toFinset, hentries]
  · rintro archived ⟨day, writer, part⟩ hne hsome
    obtain ⟨content, hcontent⟩ := Option.isSome_iff_exists.mp hsome
    obtain ⟨p, -, hk, -⟩ := hpart archived day writer part content hcontent
    obtain ⟨hlt, -⟩ := List.getElem?_eq_some_iff.mp hk
    have hpos : part ≠ 0 := hne
    exact hversion ⟨day, writer, by omega⟩
  · intro day writer
    refine ⟨(series day writer).length, (h.stores.ok day writer).length, fun part => ?_⟩
    constructor
    · rintro ⟨archived, hsome⟩
      obtain ⟨content, hcontent⟩ := Option.isSome_iff_exists.mp hsome
      obtain ⟨p, -, hk, -⟩ := hpart archived day writer part content hcontent
      exact (List.getElem?_eq_some_iff.mp hk).1
    · intro hlt
      refine ⟨(series day writer)[part].archived, ?_⟩
      rw [h.stores.files]
      simp [Series.view, List.getElem?_eq_getElem hlt]

end

/-! ### Every run -/

/-- The event submits only entries of `S`. -/
def Event.Submits (S : Set Entry) : Event ι → Prop
  | .begin _ job => ∀ e ∈ job.entries, e ∈ S
  | _ => True

/-- What a phase carries: a sound index, submitted entries and, before a push,
    updates that turn any journal below the fetched head into that journal with
    the job's entries. -/
def PhaseOk (codec : LineCodec) (S : Set Entry) : Phase → Prop
  | .idle => True
  | .working job _ index _ => index.Sound codec S ∧ ∀ e ∈ job.entries, e ∈ S
  | .pushing job _ index _ base updates =>
    index.Sound codec S ∧ (∀ e ∈ job.entries, e ∈ S) ∧
      ∀ published series, HeadRepresents codec S (base.map (·.tree)) published series →
        ∃ series', Represents codec S ((headTree (base.map (·.tree))).apply updates)
          (published ∪ job.entries.toFinset) series'

/-- **The invariant of every run.** -/
structure WorldOk (codec : LineCodec) (S : Set Entry) (world : World ι) : Prop where
  head : ∃ series, HeadRepresents codec S (world.head.map (·.tree)) world.published series
  index : ∀ p, (world.publishers p).index.Sound codec S
  phase : ∀ p, PhaseOk codec S (world.publishers p).phase

section

variable {codec : LineCodec} {S : Set Entry} {destination : ι → Destination} {world : World ι}

theorem WorldOk.set (h : WorldOk codec S world) (p : ι) {publisher : Publisher}
    (hindex : publisher.index.Sound codec S) (hphase : PhaseOk codec S publisher.phase) :
    WorldOk codec S (world.set p publisher) := by
  refine ⟨h.head, fun q => ?_, fun q => ?_⟩ <;>
  · simp only [World.set]
    by_cases hq : q = p
    · subst hq
      simpa
    · rw [Function.update_of_ne hq]
      first | exact h.index q | exact h.phase q

theorem WorldOk.drop (h : WorldOk codec S world) (p : ι) : WorldOk codec S (world.drop p) :=
  h.set p (h.index p) trivial

theorem WorldOk.retry (h : WorldOk codec S world) (p : ι) {job : Job} {attempt : Nat}
    {index : DeliveryIndex} {metrics : Metrics}
    (hphase : PhaseOk codec S (.working job (attempt + 1) index metrics)) :
    WorldOk codec S (world.retry p job attempt index metrics) := by
  unfold World.retry
  split
  · exact h.set p (h.index p) hphase
  · exact h.drop p

/-- Publishing entries that are already there changes nothing. -/
theorem union_eq_self {published : Finset Entry} {entries : List Entry}
    (h : ∀ e ∈ entries, e ∈ published) : published ∪ entries.toFinset = published := by
  rw [Finset.union_eq_left]
  intro e he
  exact h e (List.mem_toFinset.mp he)

/-- One attempt of either job, against any head it may have fetched. -/
theorem attemptJob_spec (hrec : ∀ e ∈ S, Recordable codec e) (hS : DistinctIdentities S)
    {d : Destination} {previous head : Option Tree} {job : Job} {index index' : DeliveryIndex}
    {metrics metrics' : Metrics} {updates : List Update} (hentries : ∀ e ∈ job.entries, e ∈ S)
    (hsound : index.Sound codec S) {published : Finset Entry} {series : SeriesMap}
    (hhead : HeadRepresents codec S head published series)
    (h : attemptJob codec d previous head job index metrics = .ok (updates, index', metrics')) :
    index'.Sound codec S ∧ (updates = [] → ∀ e ∈ job.entries, e ∈ published) ∧
      (updates ≠ [] → ∃ series', Represents codec S ((headTree head).apply updates)
        (published ∪ job.entries.toFinset) series') := by
  cases job with
  | publish entries =>
    simp only [attemptJob, bind_eq_ok, pure_eq_ok, Prod.mk.injEq] at h
    obtain ⟨state, hstate, rfl, rfl, rfl⟩ := h
    exact publishAttempt_represents hrec hS hentries hsound hhead hstate
  | fold cutoff =>
    simp only [attemptJob, bind_eq_ok] at h
    obtain ⟨-, -, h⟩ := h
    cases head with
    | none =>
      simp only [pure_eq_ok, Prod.mk.injEq] at h
      obtain ⟨rfl, rfl, rfl⟩ := h
      exact ⟨hsound, by simp [Job.entries], by simp⟩
    | some tree =>
      simp only [bind_eq_ok, pure_eq_ok, Prod.mk.injEq] at h
      obtain ⟨-, -, ⟨_, report⟩, hplan, rfl, rfl, rfl⟩ := h
      refine ⟨hsound, by simp [Job.entries], fun _ => ?_⟩
      simpa [Job.entries, headTree] using plan_represents hhead hplan

/-- **One event.** -/
theorem WorldOk.next (hrec : ∀ e ∈ Fitting codec S, Recordable codec e)
    (hS : DistinctIdentities (Fitting codec S)) {event : Event ι} (hevent : event.Submits S)
    (h : WorldOk codec (Fitting codec S) world) :
    WorldOk codec (Fitting codec S) (world.next codec destination event) := by
  cases event with
  | begin p job =>
    simp only [World.next]
    split
    · next entries hidle =>
      split
      · exact h
      · -- every line of an accepted batch was produced, so it fits
        next hcheck =>
        refine h.set p (h.index p) ⟨h.index p, ?_⟩
        intro e he
        simp only [checkBatch, bind_eq_ok] at hcheck
        obtain ⟨lines, hlines, -⟩ := hcheck
        obtain ⟨line, hline⟩ := mapM_forall hlines e he
        obtain ⟨rfl, hfits⟩ := line_eq_ok.mp hline
        exact ⟨hevent e he, hfits⟩
    · exact h.set p (h.index p) ⟨h.index p, by simp [Job.entries]⟩
    · exact h
  | attempt p =>
    simp only [World.next]
    split
    · next job attempt index metrics hworking =>
      have hphase := h.phase p
      rw [hworking] at hphase
      obtain ⟨hsound, hentries⟩ := hphase
      obtain ⟨series, hhead⟩ := h.head
      split
      · exact h.drop p
      · next updates index' metrics' hattempt =>
        have hspec := fun published series
            (hhead : HeadRepresents codec (Fitting codec S) (world.head.map (·.tree)) published
              series) =>
          attemptJob_spec hrec hS hentries hsound hhead hattempt
        obtain ⟨hindex', hnone, -⟩ := hspec _ _ hhead
        split
        · next hempty =>
          split
          · next commit hcommit =>
            have hfinish : WorldOk codec (Fitting codec S)
                (world.set p ⟨index', some commit.tree, .idle⟩) := h.set p hindex' trivial
            refine ⟨⟨series, ?_⟩, hfinish.index, hfinish.phase⟩
            show HeadRepresents codec _ _ (world.published ∪ (Job.entries _).toFinset) series
            rw [union_eq_self (hnone hempty)]
            exact hhead
          · exact h.retry p ⟨hindex', hentries⟩
          · exact h.drop p
        · next hsome =>
          refine h.set p (h.index p) ⟨hindex', hentries, ?_⟩
          intro published series hbase
          exact (hspec published series hbase).2.2 hsome
    · exact h
  | push p confirmed =>
    simp only [World.next]
    split
    · next job attempt index metrics base updates hpushing =>
      have hphase := h.phase p
      rw [hpushing] at hphase
      obtain ⟨hsound, hentries, hgood⟩ := hphase
      split
      · -- the swap succeeds: the new head is the plan applied to the old one
        next hbase =>
        obtain ⟨series, hhead⟩ := h.head
        obtain ⟨series', hnew⟩ := hgood world.published series (hbase ▸ hhead)
        have hmoved : WorldOk codec (Fitting codec S) { world with
            head := some ⟨world.commits, (headTree (base.map (·.tree))).apply updates⟩
            commits := world.commits + 1
            published := world.published ∪ job.entries.toFinset } :=
          ⟨⟨series', hnew⟩, h.index, h.phase⟩
        split
        · exact hmoved.set p hsound trivial
        · exact hmoved.drop p
      · exact h.retry p ⟨hsound, hentries⟩
    · exact h
  | abort p => exact h.drop p

omit [DecidableEq ι] in
theorem WorldOk.start : WorldOk codec S (World.start : World ι) :=
  ⟨⟨fun _ _ => [], rfl, rfl⟩, fun _ => DeliveryIndex.sound_empty, fun _ => trivial⟩

end

/-- **Journal tree refinement.**  In every interleaving of publication batches and
    folds by any publishers, with retries, rejected pushes, lost
    acknowledgements and aborted calls, every head reached stores exactly the
    entries of the successful publishes: nothing lost or altered, counted by the
    catalog, every file readable, in its place and bounded, parts without gaps
    and continuations only under catalog version 2. -/
theorem journal_tree_refinement (codec : LineCodec) (destination : ι → Destination)
    (S : Set Entry) (hcodec : ∀ e ∈ S, codec.Faithful e) (hS : DistinctIdentities S)
    (events : List (Event ι)) (hevents : ∀ event ∈ events, event.Submits S) :
    ((journalMachine codec destination).run events).StoresPublished codec := by
  have hrec : ∀ e ∈ Fitting codec S, Recordable codec e := fun e he =>
    { hcodec e he.1 with fits := he.2 }
  have hS' : DistinctIdentities (Fitting codec S) := fun a ha b hb => hS a ha.1 b hb.1
  have hok := (journalMachine codec destination).run_invariant
    (WorldOk codec (Fitting codec S)) (Event.Submits S) WorldOk.start
    (fun world event hevent h => h.next hrec hS' hevent) events hevents
  obtain ⟨series, hhead⟩ := hok.head
  refine ⟨fun hnone => ?_, fun commit hcommit => ?_⟩
  · rw [hnone] at hhead
    exact hhead.1
  · rw [hcommit] at hhead
    exact Represents.storesExactly hrec hhead

def sampleDestination : Destination where
  tenantId := 2
  spaceId := 3
  maxBatchEntries := 250
  maxBatchBytes := 8 * 1024 ^ 2
  scan _ := .ok ()
  renderNote _ _ _ := .ok []
  validateNote _ _ _ := .ok ()

/-- Two publishers race with the same entry, the first acknowledgement is lost. -/
def sampleEvents : List (Event Bool) :=
  [.begin false (.publish [sampleEntry]), .begin true (.publish [sampleEntry]), .attempt false,
    .attempt true, .push false false, .push true true, .attempt true, .begin false (.fold 738890),
    .attempt false, .push false true]

theorem journal_tree_refinement_race :
    ((journalMachine sampleCodec fun _ => sampleDestination).run sampleEvents).StoresPublished
      sampleCodec :=
  journal_tree_refinement sampleCodec (fun _ => sampleDestination) {sampleEntry}
    (fun e he => Set.mem_singleton_iff.mp he ▸ sampleCodec_faithful)
    (fun a ha b hb _ => (Set.mem_singleton_iff.mp ha).trans (Set.mem_singleton_iff.mp hb).symm)
    sampleEvents (by simp [sampleEvents, Event.Submits, Job.entries])

end Mnemion.Journal
