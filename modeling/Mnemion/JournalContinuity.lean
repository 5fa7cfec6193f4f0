/-
  Mnemion/JournalContinuity.lean
  ==============================
  **Every head continues what its publishers recorded.**  When all destinations
  have one tenant and space, publishes and folds in any interleaving keep the
  head a journal of that scope, and `_protect_previous` accepts it against the
  commit any publisher wrote into `publication.json` before
  (`run_continues`).
-/
import Mnemion.JournalFiling
import Mnemion.JournalVisits

namespace Mnemion.Journal

open Outcome ByteLines

/-! ### Trees that grow -/

/-- Every file grew or moved into the archive, and the catalog advanced. -/
structure Tree.Grows (old head : Tree) : Prop where
  files : ∀ relative, Evolves (old.blob (.journal false relative)) (old.blob (.journal true relative))
    (head.blob (.journal false relative)) (head.blob (.journal true relative))
  catalog : ∀ c, old.catalog = some c → ∃ c', head.catalog = some c' ∧ c.Advances c'

theorem Tree.Grows.trans {a b c : Tree} (h : a.Grows b) (h' : b.Grows c) : a.Grows c where
  files := fun relative => (h.files relative).trans (h'.files relative)
  catalog := by
    intro prior hprior
    obtain ⟨mid, hmid, hadvance⟩ := h.catalog prior hprior
    obtain ⟨last, hlast, hadvance'⟩ := h'.catalog mid hmid
    exact ⟨last, hlast, hadvance.trans hadvance'⟩

theorem Tree.Grows.refl {tree : Tree} (hsize : ∀ archived relative content,
    tree.blob (.journal archived relative) = some content → content.length ≤ MAX_FILE_BYTES) :
    tree.Grows tree where
  files := fun relative => {
    fits := by
      rintro content (hc | hc | hc | hc)
      · exact hsize _ _ _ hc
      · exact hsize _ _ _ hc
      · exact hsize _ _ _ hc
      · exact hsize _ _ _ hc
    grows := fun content hc => ⟨content, hc, List.prefix_refl _⟩
    moves := fun content hc => Or.inl ⟨content, hc, List.prefix_refl _⟩
    stays := fun hl _ => hl }
  catalog := fun c hc => ⟨c, hc, rfl, le_rfl, le_rfl⟩

/-- **A tree that grew is accepted.** -/
theorem Tree.Grows.protectPrevious {old head : Tree} (h : old.Grows head) :
    protectPrevious (some old) (some head) = .ok () := by
  have hblob : ∀ path content, head.blob path = some content → content.length ≤ MAX_FILE_BYTES →
      Journal.blob (some head) path = .ok (some content) := by
    intro path content hpath hsize
    simp only [Journal.blob, headTree, Option.getD_some, hpath, bind_eq_ok, check_eq_ok, pure_eq_ok]
    exact ⟨(), hsize, trivial⟩
  have hmissing : ∀ path, head.blob path = none → Journal.blob (some head) path = .ok none := by
    intro path hpath
    simp only [Journal.blob, headTree, Option.getD_some, hpath]
  have hfiles : (changedPaths old head).forM (protectFile head) = .ok () := by
    rw [forM_eq_ok]
    rintro ⟨path, before⟩ hrow
    obtain ⟨hold, -⟩ := List.mem_filter.mp hrow
    have hbefore := Tree.mem_listing.mp hold
    simp only [protectFile, bind_eq_ok, check_eq_ok]
    cases path with
    | note m => simp [changedPaths] at hrow
    | journal archived relative =>
      have hevolves := h.files relative
      cases archived with
      | true =>
        refine ⟨(), hevolves.fits before (Or.inr (Or.inl hbefore)), ?_⟩
        obtain ⟨after, hafter, hgrow⟩ := hevolves.grows before hbefore
        refine ⟨_, hblob _ _ hafter (hevolves.fits after (Or.inr (Or.inr (Or.inr hafter)))), ?_⟩
        exact check_eq_ok.mpr hgrow
      | false =>
        refine ⟨(), hevolves.fits before (Or.inl hbefore), ?_⟩
        rcases hevolves.moves before hbefore with ⟨after, hafter, hgrow⟩ | ⟨hgone, moved, hmoved, hheld⟩
        · refine ⟨_, hblob _ _ hafter (hevolves.fits after (Or.inr (Or.inr (Or.inl hafter)))), ?_⟩
          exact check_eq_ok.mpr hgrow
        · refine ⟨none, hmissing _ hgone, ?_⟩
          rw [bind_eq_ok]
          refine ⟨some moved, ?_, ?_⟩
          · exact hblob _ _ hmoved (hevolves.fits moved (Or.inr (Or.inr (Or.inr hmoved))))
          · rw [check_eq_ok]
            exact hheld
  have hcatalog : protectCatalog old.catalog head.catalog = .ok () := by
    cases hprior : old.catalog with
    | none => rfl
    | some prior =>
      obtain ⟨current, hcurrent, hadvance⟩ := h.catalog prior hprior
      rw [hcurrent]
      exact check_eq_ok.mpr hadvance
  simp only [Journal.protectPrevious, bind_eq_ok]
  exact ⟨_, hfiles, hcatalog⟩

/-! ### What a commit does to a tree -/

section

variable {codec : LineCodec} {tree : Tree} {updates : List Update}

theorem Tree.catalog_cases (tree : Tree) (updates : List Update) :
    (tree.apply updates).catalog = tree.catalog ∨
      ∃ c, Update.catalog c ∈ updates ∧ (tree.apply updates).catalog = some c := by
  induction updates using List.reverseRecOn with
  | nil => exact Or.inl rfl
  | append_singleton us u ih =>
    rw [Tree.apply_append, Tree.apply_cons, Tree.apply_nil]
    cases u with
    | catalog c => exact Or.inr ⟨c, by simp, rfl⟩
    | write p content => exact ih.imp id fun ⟨c, hc, hsome⟩ => ⟨c, List.mem_append_left _ hc, hsome⟩
    | delete p => exact ih.imp id fun ⟨c, hc, hsome⟩ => ⟨c, List.mem_append_left _ hc, hsome⟩

theorem grows_of_publishes {entries : List Entry} (hpublishes : ∀ u ∈ updates, u.Publishes tree entries)
    (hsize : ∀ archived relative content, tree.blob (.journal archived relative) = some content →
      content.length ≤ MAX_FILE_BYTES)
    (hversion : ∀ c, tree.catalog = some c → c.schemaVersion ≤ 2) :
    tree.Grows (tree.apply updates) where
  files := by
    intro relative
    have hrewritten : ∀ archived, Rewritten tree archived relative
        ((tree.apply updates).blob (.journal archived relative)) := by
      intro archived
      rcases tree.blob_apply updates (.journal archived relative) with ⟨hsame, -⟩ | ⟨u, hu, hresult⟩
      · exact Or.inl hsame
      · have hpublish := hpublishes u hu
        cases u with
        | catalog c => cases hresult
        | delete path => exact hpublish.elim
        | write path content =>
          simp only [Update.result, Option.some.injEq, Prod.mk.injEq] at hresult
          obtain ⟨rfl, hcontent⟩ := hresult
          exact Or.inr ⟨content, hcontent.symm, hpublish.2⟩
    exact evolves_of_rewritten (fun archived before hbefore => hsize archived relative before hbefore)
      (hrewritten false) (hrewritten true)
  catalog := by
    intro prior hprior
    rcases tree.catalog_cases updates with hsame | ⟨c, hc, hsome⟩
    · exact ⟨prior, hsame.trans hprior, rfl, le_rfl, le_rfl⟩
    · exact ⟨c, hsome, hpublishes _ hc prior hprior (hversion prior hprior)⟩

theorem grows_of_plan {destination : Destination} {cutoff : Day} {report : FoldReport}
    (hplan : plan codec destination tree cutoff = .ok (updates, report)) :
    tree.Grows (tree.apply updates) := by
  obtain ⟨hfiles, hread⟩ := plan_files hplan
  refine ⟨fun relative => evolves_of_filed hfiles hread ?_ ?_, ?_⟩
  · rcases tree.blob_apply updates (.journal false relative) with ⟨hsame, -⟩ | ⟨u, hu, hresult⟩
    · exact Or.inl hsame
    · have hfile := hfiles u hu
      cases u with
      | catalog c => cases hresult
      | write path content =>
        simp only [Update.result, Option.some.injEq, Prod.mk.injEq] at hresult
        obtain ⟨rfl, -⟩ := hresult
        exact hfile.elim
      | delete path =>
        simp only [Update.result, Option.some.injEq, Prod.mk.injEq] at hresult
        obtain ⟨rfl, hgone⟩ := hresult
        exact Or.inr ⟨hgone.symm, hu⟩
  · rcases tree.blob_apply updates (.journal true relative) with ⟨hsame, hnone⟩ | ⟨u, hu, hresult⟩
    · exact Or.inl ⟨hsame, fun content hmem => hnone _ hmem (some content) rfl⟩
    · have hfile := hfiles u hu
      cases u with
      | catalog c => cases hresult
      | delete path =>
        simp only [Update.result, Option.some.injEq, Prod.mk.injEq] at hresult
        obtain ⟨rfl, -⟩ := hresult
        exact hfile.elim
      | write path content =>
        simp only [Update.result, Option.some.injEq, Prod.mk.injEq] at hresult
        obtain ⟨rfl, hcontent⟩ := hresult
        obtain ⟨hsize, addition, hlive, rfl⟩ := hfile
        exact Or.inr ⟨addition, hlive, hcontent.symm, hsize⟩
  · intro prior hprior
    rcases tree.catalog_cases updates with hsame | ⟨c, hc, -⟩
    · exact ⟨prior, hsame.trans hprior, rfl, le_rfl, le_rfl⟩
    · exact (hfiles _ hc).elim

end

/-! ### Catalogs keep their scope -/

/-- The catalog of a scope, in a layout that exists. -/
def Catalog.Of (nameSpace : UUID × UUID) (c : Catalog) : Prop :=
  c.nameSpace = nameSpace ∧ c.schemaVersion ≤ 2

section

variable {codec : LineCodec} {destination : Destination} {head : Option Tree}

theorem readCatalog_of {c : Catalog}
    (hhead : ∀ c, (headTree head).catalog = some c →
      c.Of (destination.tenantId, destination.spaceId))
    (h : readCatalog destination head = .ok c) : c.Of (destination.tenantId, destination.spaceId) := by
  unfold readCatalog at h
  split at h
  · simp only [bind_eq_ok, pure_eq_ok] at h
    obtain ⟨-, -, rfl⟩ := h
    exact ⟨rfl, Nat.le_succ 1⟩
  · next catalog hcatalog =>
    simp only [bind_eq_ok, pure_eq_ok] at h
    obtain ⟨-, -, rfl⟩ := h
    exact hhead catalog hcatalog

/-- A publish writes a catalog of the scope. -/
theorem publishAttempt_catalog {previous : Option Tree} {entries : List Entry}
    {index : DeliveryIndex} {metrics : Metrics} {state : PublishState}
    (hhead : ∀ c, (headTree head).catalog = some c →
      c.Of (destination.tenantId, destination.spaceId))
    (h : publishAttempt codec destination previous head entries index metrics = .ok state)
    {c : Catalog} (hc : Update.catalog c ∈ state.updates) :
    c.Of (destination.tenantId, destination.spaceId) := by
  simp only [publishAttempt, bind_eq_ok] at h
  obtain ⟨-, -, -, -, catalog, hcatalog, planned, hplanned, h⟩ := h
  obtain ⟨hscope, hversion⟩ := readCatalog_of hhead hcatalog
  have hplannedCatalog : ∀ c, Update.catalog c ∉ planned.updates := by
    refine foldlM_invariant (fun s : PublishState => ∀ c, Update.catalog c ∉ s.updates) ?_ (by simp)
      hplanned
    rintro s ⟨day, writer⟩ s' - hs hstep c hmem
    simp only [publishGroup, bind_eq_ok, pure_eq_ok] at hstep
    obtain ⟨out, hout, rfl⟩ := hstep
    have hgroup : ∀ e ∈ entries.filter (fun e => e.series = (day, writer)), e.writer = writer := by
      intro e he
      have hseries := (List.mem_filter.mp he).2
      simp only [Entry.series, Prod.mk.injEq, decide_eq_true_eq] at hseries
      exact hseries.2
    have happends := append_appends hgroup hout
    rcases List.mem_append.mp hmem with hmem | hmem
    · exact hs c hmem
    · exact (happends _ hmem).elim
  split at h
  · simp only [pure_eq_ok] at h
    exact absurd (h ▸ hc) (hplannedCatalog c)
  · simp only [bind_eq_ok, pure_eq_ok] at h
    obtain ⟨current, hcurrent, notes, hnotes, rfl⟩ := h
    simp only [List.mem_append, List.mem_singleton] at hc
    rcases hc with (hc | hc) | hc
    · exact absurd hc (hplannedCatalog c)
    · cases hc
      simp only [Catalog.validated, bind_eq_ok, pure_eq_ok] at hcurrent
      obtain ⟨-, -, rfl⟩ := hcurrent
      refine ⟨hscope, ?_⟩
      dsimp only
      split
      · exact le_rfl
      · exact hversion
    · exact (invalidatedNotes_isNote hnotes _ hc).elim

end

/-! ### Every run -/

/-- What a push may do to its base. -/
structure Pushable (nameSpace : UUID × UUID) (base : Option Commit) (updates : List Update) : Prop where
  grows : ∀ commit, base = some commit → commit.tree.Grows (commit.tree.apply updates)
  catalog : ∀ c, ((headTree (base.map (·.tree))).apply updates).catalog = some c → c.Of nameSpace

/-- The head is of the scope and continues every recorded publication. -/
structure World.Continues {ι : Type} (nameSpace : UUID × UUID) (world : World ι) : Prop where
  catalog : ∀ commit, world.head = some commit → ∀ c, commit.tree.catalog = some c → c.Of nameSpace
  publication : ∀ p t, (world.publishers p).publication = some t →
    ∃ commit, world.head = some commit ∧ t.Grows commit.tree
  pushing : ∀ p job attempt index metrics base updates,
    (world.publishers p).phase = .pushing job attempt index metrics base updates →
      Pushable nameSpace base updates

section

variable {ι : Type} [DecidableEq ι] {codec : LineCodec} {S T : Set Entry} {nameSpace : UUID × UUID}
  {destination : ι → Destination} {world : World ι}

theorem World.Continues.set (h : world.Continues nameSpace) (p : ι) {publisher : Publisher}
    (hpublication : ∀ t, publisher.publication = some t →
      ∃ commit, world.head = some commit ∧ t.Grows commit.tree)
    (hphase : ∀ job attempt index metrics base updates,
      publisher.phase = .pushing job attempt index metrics base updates →
        Pushable nameSpace base updates) :
    (world.set p publisher).Continues nameSpace where
  catalog := h.catalog
  publication := by
    intro q t hq
    simp only [World.set] at hq
    by_cases hsame : q = p
    · subst hsame
      rw [Function.update_self] at hq
      exact hpublication t hq
    · rw [Function.update_of_ne hsame] at hq
      exact h.publication q t hq
  pushing := by
    intro q job attempt index metrics base updates hq
    simp only [World.set] at hq
    by_cases hsame : q = p
    · subst hsame
      rw [Function.update_self] at hq
      exact hphase job attempt index metrics base updates hq
    · rw [Function.update_of_ne hsame] at hq
      exact h.pushing q job attempt index metrics base updates hq

theorem World.Continues.working (h : world.Continues nameSpace) (p : ι) {job : Job} {attempt : Nat}
    {index : DeliveryIndex} {metrics : Metrics} :
    (world.set p { world.publishers p with phase := .working job attempt index metrics }).Continues
      nameSpace :=
  h.set p (h.publication p) fun _ _ _ _ _ _ hphase => by cases hphase

theorem World.Continues.drop (h : world.Continues nameSpace) (p : ι) :
    (world.drop p).Continues nameSpace :=
  h.set p (h.publication p) fun _ _ _ _ _ _ hphase => by cases hphase

theorem World.Continues.retry (h : world.Continues nameSpace) (p : ι) {job : Job} {attempt : Nat}
    {index : DeliveryIndex} {metrics : Metrics} :
    (world.retry p job attempt index metrics).Continues nameSpace := by
  unfold World.retry
  split
  · exact h.working p
  · exact h.drop p

omit [DecidableEq ι] in
/-- The head of a world can be read whole. -/
theorem WorldOk.sizes (hrec : ∀ e ∈ T, Recordable codec e) (h : WorldOk codec T world)
    {commit : Commit} (hcommit : world.head = some commit) : ∀ archived relative content,
      commit.tree.blob (.journal archived relative) = some content →
        content.length ≤ MAX_FILE_BYTES := by
  obtain ⟨series, hhead⟩ := h.head
  rw [hcommit] at hhead
  intro archived relative content hblob
  exact ((Represents.storesExactly hrec hhead).readable archived relative content hblob).1

omit [DecidableEq ι] in
/-- What a planned job may push. -/
theorem attemptJob_pushable {d : Destination} (hd : (d.tenantId, d.spaceId) = nameSpace)
    (hrec : ∀ e ∈ T, Recordable codec e) (hok : WorldOk codec T world)
    (h : world.Continues nameSpace) {previous : Option Tree} {job : Job} {index index' : DeliveryIndex}
    {metrics metrics' : Metrics} {updates : List Update}
    (hattempt : attemptJob codec d previous (world.head.map (·.tree)) job index metrics =
      .ok (updates, index', metrics')) : Pushable nameSpace world.head updates := by
  have hcatalog : ∀ c, (headTree (world.head.map (·.tree))).catalog = some c → c.Of nameSpace := by
    intro c hc
    cases hhead : world.head with
    | none =>
      rw [hhead] at hc
      cases hc
    | some commit =>
      rw [hhead] at hc
      exact h.catalog commit hhead c hc
  have hafter : (∀ c, Update.catalog c ∈ updates → c.Of nameSpace) → ∀ c,
      ((headTree (world.head.map (·.tree))).apply updates).catalog = some c → c.Of nameSpace := by
    intro hupdates c hc
    rcases Tree.catalog_cases (headTree (world.head.map (·.tree))) updates with hsame | ⟨c', hc', hsome⟩
    · exact hcatalog c (hsame ▸ hc)
    · rw [hsome] at hc
      exact Option.some.inj hc ▸ hupdates c' hc'
  cases job with
  | publish entries =>
    simp only [attemptJob, bind_eq_ok, pure_eq_ok, Prod.mk.injEq] at hattempt
    obtain ⟨state, hstate, rfl, -, -⟩ := hattempt
    refine ⟨?_, hafter fun c hc => hd ▸ publishAttempt_catalog (hd ▸ hcatalog) hstate hc⟩
    intro commit hcommit
    rw [hcommit] at hstate
    exact grows_of_publishes (publishAttempt_publishes hstate) (hok.sizes hrec hcommit)
      fun c hc => (h.catalog commit hcommit c hc).2
  | fold cutoff =>
    simp only [attemptJob, bind_eq_ok] at hattempt
    obtain ⟨-, -, hattempt⟩ := hattempt
    cases hhead : world.head with
    | none =>
      rw [hhead] at hattempt
      simp only [Option.map_none, pure_eq_ok, Prod.mk.injEq] at hattempt
      obtain ⟨rfl, -, -⟩ := hattempt
      exact ⟨by simp, fun c hc => by cases hc⟩
    | some commit =>
      rw [hhead] at hattempt hafter
      simp only [Option.map_some, bind_eq_ok, pure_eq_ok, Prod.mk.injEq] at hattempt
      obtain ⟨-, -, ⟨_, report⟩, hplan, rfl, -, -⟩ := hattempt
      refine ⟨?_, hafter fun c hc => ((plan_files hplan).1 _ hc).elim⟩
      rintro _ ⟨⟩
      exact grows_of_plan hplan

/-- **One event.** -/
theorem World.Continues.next (hd : ∀ p, ((destination p).tenantId, (destination p).spaceId) = nameSpace)
    (hrec : ∀ e ∈ T, Recordable codec e) {event : Event ι} (hok : WorldOk codec T world)
    (hok' : WorldOk codec T (world.next codec destination event)) (h : world.Continues nameSpace) :
    (world.next codec destination event).Continues nameSpace := by
  cases event with
  | begin p job =>
    simp only [World.next]
    split
    · split
      · exact h
      · exact h.working p
    · exact h.working p
    · exact h
  | attempt p =>
    simp only [World.next]
    split
    · next job attempt index metrics hworking =>
      split
      · exact h.drop p
      · next updates index' metrics' hattempt =>
        split
        · split
          · next commit hcommit =>
            have hgrows : commit.tree.Grows commit.tree := Tree.Grows.refl (hok.sizes hrec hcommit)
            have hset : (world.set p ⟨index', some commit.tree, .idle⟩).Continues nameSpace :=
              h.set p (fun t ht => ⟨commit, hcommit, Option.some.inj ht ▸ hgrows⟩)
                fun _ _ _ _ _ _ hphase => by cases hphase
            exact ⟨hset.catalog, hset.publication, hset.pushing⟩
          · exact h.retry p
          · exact h.drop p
        · refine h.set p (h.publication p) ?_
          rintro job' attempt' index'' metrics'' base updates' ⟨⟩
          exact attemptJob_pushable (hd p) hrec hok h hattempt
    · exact h
  | push p confirmed =>
    have hphase' := hok'
    simp only [World.next] at hphase' ⊢
    split
    · next job attempt index metrics base updates hpushing =>
      have hpush := h.pushing p job attempt index metrics base updates hpushing
      split
      · next hbase =>
        -- the new head continues the old one, and so every recorded publication
        have hmoved : World.Continues nameSpace { world with
            head := some ⟨world.commits, (headTree (base.map (·.tree))).apply updates⟩
            commits := world.commits + 1
            published := world.published ∪ job.entries.toFinset } := by
          refine ⟨?_, ?_, h.pushing⟩
          · rintro _ ⟨⟩
            exact hpush.catalog
          · intro q t hq
            obtain ⟨commit, hcommit, hgrows⟩ := h.publication q t hq
            have hbase' : base = some commit := hbase.symm.trans hcommit
            refine ⟨_, rfl, hgrows.trans ?_⟩
            subst hbase'
            exact hpush.grows commit rfl
        rw [hpushing] at hphase'
        simp only [if_pos hbase] at hphase'
        split
        · next hconfirmed =>
          refine hmoved.set p ?_ fun _ _ _ _ _ _ hphase => by cases hphase
          rintro t ⟨⟩
          rw [if_pos hconfirmed] at hphase'
          exact ⟨_, rfl, Tree.Grows.refl (hphase'.sizes hrec rfl)⟩
        · exact hmoved.drop p
      · exact h.retry p
    · exact h
  | abort p => exact h.drop p

end

/-! ### Runs of one scope -/

section

variable {ι : Type} [DecidableEq ι] {codec : LineCodec} {S : Set Entry} {nameSpace : UUID × UUID}
  {destination : ι → Destination}

/-- The entries of a scope. -/
def InScope (nameSpace : UUID × UUID) (S : Set Entry) : Set Entry :=
  {e | e ∈ S ∧ e.nameSpace = nameSpace}

/-- Entries of another scope are refused. -/
theorem World.next_refused {world : World ι} {p : ι} {entries : List Entry}
    (hd : ((destination p).tenantId, (destination p).spaceId) = nameSpace)
    (h : ¬ ∀ e ∈ entries, e.nameSpace = nameSpace) :
    world.next codec destination (.begin p (.publish entries)) = world := by
  simp only [World.next]
  split
  · next entries' hidle hjob =>
    cases hjob
    split
    · rfl
    · next hcheck =>
      refine absurd ?_ h
      intro e he
      simp only [checkBatch, bind_eq_ok] at hcheck
      obtain ⟨-, -, -, -, hloop⟩ := hcheck
      have hentry := forM_eq_ok.mp hloop e he
      simp only [Destination.scope, bind_eq_ok, check_eq_ok] at hentry
      obtain ⟨-, ⟨htenant, hspace⟩, -⟩ := hentry
      rw [← hd, Entry.nameSpace, htenant, hspace]
  · next hjob => cases hjob
  · rfl

/-- **Every run keeps the head a journal of its scope, which every publisher's
    check of the history accepts.** -/
theorem run_continues (codec : LineCodec) (destination : ι → Destination)
    (hcodec : ∀ e ∈ S, codec.Faithful e) (hS : DistinctIdentities S)
    (hd : ∀ p, ((destination p).tenantId, (destination p).spaceId) = nameSpace)
    (events : List (Event ι)) (hevents : ∀ event ∈ events, event.Submits S) :
    WorldOk codec (Fitting codec (InScope nameSpace S)) ((journalMachine codec destination).run events) ∧
      ((journalMachine codec destination).run events).Continues nameSpace := by
  have hrec : ∀ e ∈ Fitting codec (InScope nameSpace S), Recordable codec e := fun e he =>
    { hcodec e he.1.1 with fits := he.2 }
  have hS' : DistinctIdentities (Fitting codec (InScope nameSpace S)) :=
    fun a ha b hb => hS a ha.1.1 b hb.1.1
  refine (journalMachine codec destination).run_invariant
    (fun world => WorldOk codec (Fitting codec (InScope nameSpace S)) world ∧ world.Continues nameSpace)
    (Event.Submits S) ⟨WorldOk.start, ?_⟩ ?_ events hevents
  · refine ⟨?_, ?_, ?_⟩
    · rintro _ ⟨⟩
    · rintro p t ⟨⟩
    · rintro p job attempt index metrics base updates ⟨⟩
  · rintro world event hevent ⟨hok, hcontinues⟩
    by_cases hscope : event.Submits (InScope nameSpace S)
    · have hnext : WorldOk codec (Fitting codec (InScope nameSpace S))
          (World.next codec destination world event) := hok.next hrec hS' hscope
      exact ⟨hnext, hcontinues.next hd hrec hok hnext⟩
    · cases event with
      | begin p job =>
        cases job with
        | publish entries =>
          have hsame : (journalMachine codec destination).next world (.begin p (.publish entries)) =
              world :=
            World.next_refused (hd p) fun hall => hscope fun e he => ⟨hevent e he, hall e he⟩
          rw [hsame]
          exact ⟨hok, hcontinues⟩
        | fold cutoff => exact absurd (by simp [Event.Submits, Job.entries]) hscope
      | attempt p => exact absurd trivial hscope
      | push p confirmed => exact absurd trivial hscope
      | abort p => exact absurd trivial hscope

end

end Mnemion.Journal
