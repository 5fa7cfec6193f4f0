/-
  Mnemion/JournalConvergence.lean
  ===============================
  **Repeated folds settle** (`journal/folding.py`, `fold`).  While nobody else
  publishes, the commit of a fold is the next fold's head.  Each round keeps the
  records, the state of every memory and the notes it calls for, and lowers the
  number of outdated notes and live day files; with none of either left a fold
  has no update to make.
-/
import Mnemion.JournalContinuity
import Mnemion.JournalRefresh

namespace Mnemion.Journal

open Outcome ByteLines PythonText

/-! ### A fold with nobody else around -/

/-- The commit recorded in `publication.json` and the branch's head. -/
structure Checkout where
  publication : Option Tree
  head : Tree

/-- `fold` on a branch that nobody else pushes to: its commit becomes the head and
    the recorded publication. -/
def fold (codec : LineCodec) (destination : Destination) (cutoff : Day) (checkout : Checkout) :
    Except JournalError (Checkout × FoldReport) := do
  protectPrevious checkout.publication (some checkout.head)
  let (updates, report) ← plan codec destination checkout.head cutoff
  let head := checkout.head.apply updates
  return (⟨some head, head⟩, report)

/-- The checkout after some folds. -/
def foldTimes (codec : LineCodec) (destination : Destination) (cutoff : Day) (rounds : Nat)
    (checkout : Checkout) : Except JournalError Checkout :=
  repeatM (fun c => Prod.fst <$> fold codec destination cutoff c) rounds checkout

/-- Every memory that needs a note has that of its current state. -/
def Tree.Filed (codec : LineCodec) (destination : Destination) (cutoff : Day) (tree : Tree) : Prop :=
  ∀ e, Newest (tree.entries codec) e → tree.Required codec cutoff e → ∃ content,
    destination.currentNote (tree.entries codec) e = .ok content ∧
      tree.blob (.note e.memoryId) = some content

/-- The notes of forgotten and quarantined memories are the same for every text and
    subject their record could have. -/
def Tree.Withholds (codec : LineCodec) (destination : Destination) (tree : Tree) : Prop :=
  ∀ e, Newest (tree.entries codec) e → memoryState (tree.entries codec) e ≠ .active →
    ∀ data, tree.blob (.note e.memoryId) = some data → ∀ f : Entry, f.id = e.id → f.ts = e.ts →
      f.origin = e.origin → f.version = e.version →
        destination.renderNote f (memoryState (tree.entries codec) e) true = .ok data

/-- Every file of a day before the cutoff lies in the archive. -/
def Tree.Archived (cutoff : Day) (tree : Tree) : Prop :=
  ∀ relative, (tree.blob (.journal false relative)).isSome → cutoff ≤ relative.day

/-- A day file leaves its place. -/
def Moves (tree tree' : Tree) : Prop :=
  ∃ relative, (tree.blob (.journal false relative)).isSome ∧
    tree'.blob (.journal false relative) = none

/-- **Repeated folds settle.** -/
structure Converges (codec : LineCodec) (destination : Destination) (cutoff : Day)
    (start : Checkout) : Prop where
  /-- after finitely many folds nothing is pending and a fold has no update to make -/
  settles : ∃ rounds last report, foldTimes codec destination cutoff rounds start = .ok last ∧
    plan codec destination last.head cutoff = .ok ([], report) ∧
    report.pendingNotes = 0 ∧ report.pendingFiles = 0 ∧
    last.head.Filed codec destination cutoff ∧ last.head.Withholds codec destination ∧
    last.head.Archived cutoff
  /-- no day file moves while a note is missing -/
  ordered : ∀ rounds before after report, foldTimes codec destination cutoff rounds start = .ok before →
    fold codec destination cutoff before = .ok (after, report) →
      Moves before.head after.head → after.head.Filed codec destination cutoff

/-! ### What a round keeps -/

section

variable {codec : LineCodec} {T : Set Entry} {destination : Destination} {cutoff : Day}
  {tree : Tree} {updates : List Update} {report : FoldReport} {chosen : List (Relative × Bytes)}

/-- Every file is still there, and no older file became young. -/
theorem Round.file (hround : Round codec destination cutoff tree updates report chosen)
    (hfree : ∀ relative content, tree.blob (.journal false relative) = some content →
      tree.blob (.journal true relative) = none) {file : Bool × Relative × Bytes}
    (hfile : file ∈ tree.journalFiles) :
    ∃ file' ∈ (tree.apply updates).journalFiles, file'.2 = file.2 ∧
      (oldFile cutoff file = true → oldFile cutoff file' = true) := by
  obtain ⟨archived, relative, content⟩ := file
  have hblob := Tree.mem_journalFiles.mp hfile
  dsimp only at hblob
  by_cases hmem : relative ∈ chosen.map (·.1)
  · obtain ⟨f, hf, rfl⟩ := List.mem_map.mp hmem
    have hlive := (Tree.mem_dayFiles.mp (hround.old f hf)).1
    cases archived with
    | true =>
      rw [hfree _ _ hlive] at hblob
      cases hblob
    | false =>
      refine ⟨(true, f.1, content), Tree.mem_journalFiles.mpr ?_, rfl, fun _ => ?_⟩
      · exact (hround.archive f.1).trans ((if_pos hmem).trans hblob)
      · simp [oldFile]
  · refine ⟨(archived, relative, content), Tree.mem_journalFiles.mpr ?_, rfl, id⟩
    dsimp only
    cases archived with
    | true => exact (hround.archive relative).trans ((if_neg hmem).trans hblob)
    | false => exact (hround.live relative).trans ((if_neg hmem).trans hblob)

/-- Every file was there, and an old one was old. -/
theorem Round.file_from (hround : Round codec destination cutoff tree updates report chosen)
    {file : Bool × Relative × Bytes} (hfile : file ∈ (tree.apply updates).journalFiles) :
    ∃ file' ∈ tree.journalFiles, file'.2 = file.2 ∧
      (oldFile cutoff file = true → oldFile cutoff file' = true) := by
  obtain ⟨archived, relative, content⟩ := file
  have hblob := Tree.mem_journalFiles.mp hfile
  dsimp only at hblob
  by_cases hmem : relative ∈ chosen.map (·.1)
  · obtain ⟨f, hf, rfl⟩ := List.mem_map.mp hmem
    obtain ⟨hlive, hday⟩ := Tree.mem_dayFiles.mp (hround.old f hf)
    cases archived with
    | true =>
      rw [hround.archive, if_pos hmem] at hblob
      refine ⟨(false, f.1, content), Tree.mem_journalFiles.mpr hblob, rfl, fun _ => ?_⟩
      simp [oldFile, hday]
    | false =>
      rw [hround.live, if_pos hmem] at hblob
      cases hblob
  · refine ⟨(archived, relative, content), Tree.mem_journalFiles.mpr ?_, rfl, id⟩
    cases archived with
    | true =>
      rw [hround.archive, if_neg hmem] at hblob
      exact hblob
    | false =>
      rw [hround.live, if_neg hmem] at hblob
      exact hblob

theorem fileEntries_congr {file file' : Bool × Relative × Bytes} (h : file'.2 = file.2) :
    fileEntries codec file' = fileEntries codec file := by
  rw [fileEntries, fileEntries, h]

theorem mem_oldRecords {e : Entry} : e ∈ tree.oldRecords codec cutoff ↔
    ∃ file ∈ tree.journalFiles, oldFile cutoff file = true ∧ e ∈ fileEntries codec file := by
  simp only [Tree.oldRecords, List.mem_flatMap, List.mem_filter, and_assoc]

/-- The records and their age stay. -/
theorem Round.records (hround : Round codec destination cutoff tree updates report chosen)
    (hfree : ∀ relative content, tree.blob (.journal false relative) = some content →
      tree.blob (.journal true relative) = none) (e : Entry) :
    (e ∈ (tree.apply updates).entries codec ↔ e ∈ tree.entries codec) ∧
      (e ∈ (tree.apply updates).oldRecords codec cutoff ↔ e ∈ tree.oldRecords codec cutoff) := by
  simp only [Tree.entries_eq, List.mem_flatMap, mem_oldRecords]
  refine ⟨⟨?_, ?_⟩, ⟨?_, ?_⟩⟩
  · rintro ⟨file, hfile, he⟩
    obtain ⟨file', hfile', hsame, -⟩ := hround.file_from hfile
    exact ⟨file', hfile', fileEntries_congr hsame ▸ he⟩
  · rintro ⟨file, hfile, he⟩
    obtain ⟨file', hfile', hsame, -⟩ := hround.file hfree hfile
    exact ⟨file', hfile', fileEntries_congr hsame ▸ he⟩
  · rintro ⟨file, hfile, hold, he⟩
    obtain ⟨file', hfile', hsame, holder⟩ := hround.file_from hfile
    exact ⟨file', hfile', holder hold, fileEntries_congr hsame ▸ he⟩
  · rintro ⟨file, hfile, hold, he⟩
    obtain ⟨file', hfile', hsame, holder⟩ := hround.file hfree hfile
    exact ⟨file', hfile', holder hold, fileEntries_congr hsame ▸ he⟩

/-- The newest records and the states depend on what records there are. -/
theorem newest_congr {records records' : List Entry} (h : ∀ e, e ∈ records' ↔ e ∈ records)
    (e : Entry) : Newest records' e ↔ Newest records e :=
  ⟨fun he => ⟨(h e).mp he.mem, fun f hf => he.highest f ((h f).mpr hf)⟩,
    fun he => ⟨(h e).mpr he.mem, fun f hf => he.highest f ((h f).mp hf)⟩⟩

theorem currentNote_congr {records records' : List Entry} (h : ∀ e, e ∈ records' ↔ e ∈ records)
    (e : Entry) : destination.currentNote records' e = destination.currentNote records e := by
  have hstate : memoryState records' e = memoryState records e := by
    unfold memoryState
    simp only [h]
  rw [Destination.currentNote, Destination.currentNote, hstate]

end

/-! ### Journals that a fold accepts -/

/-- A represented journal within the limits, with notes that may be replaced. -/
structure Fileable (codec : LineCodec) (T : Set Entry) (destination : Destination) (cutoff : Day)
    (published : Finset Entry) (tree : Tree) : Prop where
  represents : ∃ series, Represents codec T tree published series
  bounded : tree.Bounded codec cutoff
  catalog : ∀ c, tree.catalog = some c →
    c.tenantId = destination.tenantId ∧ c.spaceId = destination.spaceId
  views : ∀ m data, tree.blob (.note m) = some data → data.length ≤ MAX_FILE_BYTES
  validated : tree.Validated codec destination

section

variable {codec : LineCodec} {T : Set Entry} {destination : Destination} {cutoff : Day}
  {published : Finset Entry} {tree : Tree} {updates : List Update} {report : FoldReport}
  {chosen : List (Relative × Bytes)}

theorem Fileable.submitted (hsuits : Suits codec T destination)
    (h : Fileable codec T destination cutoff published tree) : ∀ e ∈ tree.entries codec, e ∈ T := by
  obtain ⟨series, hrepresents⟩ := h.represents
  intro e he
  rw [hrepresents.mem_entries hsuits.digestible.recordable, hrepresents.stores.published] at he
  exact (hrepresents.stores.ok _ _).submitted e he

theorem Fileable.free (h : Fileable codec T destination cutoff published tree)
    (relative : Relative) (content : Bytes)
    (hlive : tree.blob (.journal false relative) = some content) :
    tree.blob (.journal true relative) = none := by
  obtain ⟨series, hrepresents⟩ := h.represents
  exact hrepresents.free hlive

theorem Round.required (hround : Round codec destination cutoff tree updates report chosen)
    (hsuits : Suits codec T destination)
    (h : Fileable codec T destination cutoff published tree) {e : Entry}
    (he : Newest (tree.entries codec) e) :
    (tree.apply updates).Required codec cutoff e ↔ tree.Required codec cutoff e := by
  unfold Tree.Required
  simp only [fun f => (hround.records h.free f).2]
  rcases hround.note e.memoryId with hsame | ⟨f, content, hdue, hmemory, -, hnote⟩
  · rw [hsame]
  · -- a note was written, so the memory needed one
    obtain rfl := hdue.newest.unique hsuits (h.submitted hsuits) he hmemory
    rw [hnote]
    exact ⟨fun _ => hdue.required, fun _ => Or.inr rfl⟩

/-- A memory whose note is due after a round was due before. -/
theorem Round.due (hround : Round codec destination cutoff tree updates report chosen)
    (hsuits : Suits codec T destination)
    (h : Fileable codec T destination cutoff published tree) {e : Entry}
    (hdue : (tree.apply updates).Due codec destination cutoff e) :
    tree.Due codec destination cutoff e ∧
      (tree.apply updates).blob (.note e.memoryId) = tree.blob (.note e.memoryId) := by
  have hsame := fun f => (hround.records h.free f).1
  have he := (newest_congr hsame e).mp hdue.newest
  have houtdated := hdue.outdated
  rw [currentNote_congr hsame] at houtdated
  rcases hround.note e.memoryId with hnote | ⟨f, content, hdue', hmemory, hcontent, hnote⟩
  · rw [hnote] at houtdated
    exact ⟨⟨he, (hround.required hsuits h he).mp hdue.required, houtdated⟩, hnote⟩
  · obtain rfl := hdue'.newest.unique hsuits (h.submitted hsuits) he hmemory
    exact absurd hnote (houtdated content hcontent)

theorem nodup_dayFiles (tree : Tree) : (tree.dayFiles cutoff).Nodup := by
  have hnodup : tree.journalFiles.Nodup := tree.nodup_journalFiles.of_map
  refine hnodup.filterMap ?_
  rintro ⟨archived, file⟩ ⟨archived', file'⟩ c hc hc'
  obtain ⟨⟨-, hlive⟩, heq⟩ := Option.ite_none_right_eq_some.mp hc
  obtain ⟨⟨-, hlive'⟩, heq'⟩ := Option.ite_none_right_eq_some.mp hc'
  dsimp only at hlive hlive' heq heq'
  rw [hlive, hlive', Option.some.inj (heq.trans heq'.symm)]

theorem Round.dayFiles (hround : Round codec destination cutoff tree updates report chosen)
    {file : Relative × Bytes} : file ∈ (tree.apply updates).dayFiles cutoff ↔
      file ∈ tree.dayFiles cutoff ∧ file.1 ∉ chosen.map (·.1) := by
  rw [Tree.mem_dayFiles, Tree.mem_dayFiles, hround.live]
  by_cases hmem : file.1 ∈ chosen.map (·.1)
  · rw [if_pos hmem]
    simp [hmem]
  · rw [if_neg hmem]
    simp [hmem]

/-- Each path below the journal folder is one file, live or archived. -/
theorem nodup_relatives (hfree : ∀ relative content, tree.blob (.journal false relative) =
      some content → tree.blob (.journal true relative) = none) :
    (tree.journalFiles.map (·.2.1)).Nodup := by
  refine List.Nodup.map_on ?_ tree.nodup_journalFiles.of_map
  rintro ⟨archived, relative, content⟩ hfile ⟨archived', relative', content'⟩ hfile' hsame
  dsimp only at hsame
  subst hsame
  have hblob := Tree.mem_journalFiles.mp hfile
  have hblob' := Tree.mem_journalFiles.mp hfile'
  dsimp only at hblob hblob'
  have hflags : archived = archived' := by
    cases archived <;> cases archived'
    · rfl
    · rw [hfree _ _ hblob] at hblob'
      cases hblob'
    · rw [hfree _ _ hblob'] at hblob
      cases hblob
    · rfl
  subst hflags
  rw [Option.some.inj (hblob.symm.trans hblob')]

/-- **A round leaves a journal that the next fold accepts.** -/
theorem Fileable.round (hsuits : Suits codec T destination)
    (h : Fileable codec T destination cutoff published tree)
    (hplan : plan codec destination tree cutoff = .ok (updates, report))
    (hround : Round codec destination cutoff tree updates report chosen) :
    Fileable codec T destination cutoff published (tree.apply updates) := by
  have hrec := hsuits.digestible.recordable
  obtain ⟨series, hrepresents⟩ := h.represents
  obtain ⟨series', hrepresents'⟩ := plan_represents hrepresents hplan
  have hsame := fun f => (hround.records h.free f).1
  have hperm : ((tree.apply updates).entries codec).Perm (tree.entries codec) :=
    (List.perm_ext_iff_of_nodup (hrepresents'.nodup_entries hrec)
      (hrepresents.nodup_entries hrec)).mpr hsame
  refine ⟨⟨series', hrepresents'⟩, ⟨?_, ?_, ?_⟩, ?_, ?_, ?_⟩
  · rw [hperm.length_eq]
    exact h.bounded.records
  · rw [(hperm.map _).sum_eq]
    exact h.bounded.bytes
  · have hfiles : (tree.apply updates).journalFiles.length ≤ tree.journalFiles.length := by
      have hnodup : ((tree.apply updates).journalFiles.map (·.2.1)).Nodup :=
        nodup_relatives fun _ _ => hrepresents'.free
      have hlength : tree.journalFiles.length = (tree.journalFiles.map (·.2.1)).length :=
        List.length_map _ |>.symm
      rw [← List.length_map (·.2.1), ← List.toFinset_card_of_nodup hnodup, hlength]
      refine le_trans (Finset.card_le_card ?_) (List.toFinset_card_le _)
      intro relative hrelative
      rw [List.mem_toFinset, List.mem_map] at hrelative ⊢
      obtain ⟨file, hfile, rfl⟩ := hrelative
      obtain ⟨file', hfile', heq, -⟩ := hround.file_from hfile
      exact ⟨file', hfile', by rw [heq]⟩
    have hnoted : (tree.apply updates).noted codec cutoff ⊆ tree.noted codec cutoff := by
      intro m hm
      simp only [Tree.noted, Finset.mem_union, List.mem_toFinset, List.mem_map] at hm ⊢
      rcases hm with ⟨view, hview, rfl⟩ | ⟨e, he, rfl⟩
      · have hblob := Tree.mem_views.mp hview
        rcases hround.note view.1 with hnote | ⟨e, content, hdue, hmemory, -, -⟩
        · exact Or.inl ⟨view, Tree.mem_views.mpr (hnote ▸ hblob), rfl⟩
        · rcases hdue.required with ⟨f, hf, horigin⟩ | hsome
          · refine Or.inr ⟨f, hf, ?_⟩
            rw [← hmemory]
            exact congrArg (fun origin => origin.2.2) horigin
          · obtain ⟨data, hdata⟩ := Option.isSome_iff_exists.mp hsome
            exact Or.inl ⟨(e.memoryId, data), Tree.mem_views.mpr hdata, hmemory⟩
      · exact Or.inr ⟨e, (hround.records h.free e).2.mp he, rfl⟩
    exact le_trans (Nat.add_le_add hfiles (Finset.card_le_card hnoted)) h.bounded.files
  · intro c hc
    exact h.catalog c (hround.catalog ▸ hc)
  · intro m data hdata
    rcases hround.note m with hnote | ⟨e, content, hdue, -, hcontent, hnote⟩
    · exact h.views m data (hnote ▸ hdata)
    · obtain ⟨content', hcontent', -, hsize⟩ := hsuits.renders e
        (h.submitted hsuits e hdue.newest.mem) (memoryState (tree.entries codec) e)
      cases hdata.symm.trans hnote
      cases hcontent.symm.trans hcontent'
      exact hsize
  · intro e he data hdata
    have he' := (newest_congr hsame e).mp he
    rw [currentNote_congr hsame]
    rcases hround.note e.memoryId with hnote | ⟨f, content, hdue, hmemory, hcontent, hnote⟩
    · exact h.validated e he' data (hnote ▸ hdata)
    · obtain rfl := hdue.newest.unique hsuits (h.submitted hsuits) he' hmemory
      cases hdata.symm.trans hnote
      exact Or.inl hcontent

end

/-! ### Counting what is left -/

open Classical in
/-- Notes that are due and day files that are live. -/
noncomputable def Tree.left (codec : LineCodec) (destination : Destination) (cutoff : Day)
    (published : Finset Entry) (tree : Tree) : Nat :=
  {e ∈ published | tree.Due codec destination cutoff e}.card + (tree.dayFiles cutoff).toFinset.card

section

variable {codec : LineCodec} {T : Set Entry} {destination : Destination} {cutoff : Day}
  {published : Finset Entry} {tree : Tree} {updates : List Update} {report : FoldReport}
  {chosen : List (Relative × Bytes)}

theorem Fileable.due_published (hsuits : Suits codec T destination)
    (h : Fileable codec T destination cutoff published tree) {e : Entry}
    (hdue : tree.Due codec destination cutoff e) : e ∈ published := by
  obtain ⟨series, hrepresents⟩ := h.represents
  exact (hrepresents.mem_entries hsuits.digestible.recordable).mp hdue.newest.mem

theorem Fileable.left_eq_zero (hsuits : Suits codec T destination)
    (h : Fileable codec T destination cutoff published tree) :
    tree.left codec destination cutoff published = 0 ↔
      (∀ e, ¬ tree.Due codec destination cutoff e) ∧ tree.dayFiles cutoff = [] := by
  classical
  unfold Tree.left
  rw [Nat.add_eq_zero_iff, Finset.card_eq_zero, Finset.card_eq_zero, List.toFinset_eq_empty_iff,
    Finset.filter_eq_empty_iff]
  refine and_congr_left fun _ => ⟨fun hnone e hdue => ?_, fun hnone e _ => hnone e⟩
  exact hnone (h.due_published hsuits hdue) hdue

/-- **A round with something left to do does some of it.** -/
theorem Round.left_lt (hround : Round codec destination cutoff tree updates report chosen)
    (hsuits : Suits codec T destination)
    (h : Fileable codec T destination cutoff published tree)
    (hleft : tree.left codec destination cutoff published ≠ 0) :
    (tree.apply updates).left codec destination cutoff published <
      tree.left codec destination cutoff published := by
  classical
  have hdays : ((tree.apply updates).dayFiles cutoff).toFinset ⊆ (tree.dayFiles cutoff).toFinset := by
    intro file hfile
    rw [List.mem_toFinset] at hfile ⊢
    exact (hround.dayFiles.mp hfile).1
  have hnotes : {e ∈ published | (tree.apply updates).Due codec destination cutoff e} ⊆
      {e ∈ published | tree.Due codec destination cutoff e} := by
    intro e he
    rw [Finset.mem_filter] at he ⊢
    exact ⟨he.1, (hround.due hsuits h he.2).1⟩
  unfold Tree.left
  by_cases hdue : ∃ e, tree.Due codec destination cutoff e
  · -- at least one note is written
    obtain ⟨e, content, he, hcontent, hnote⟩ := hround.progress hdue
    refine Nat.add_lt_add_of_lt_of_le (Finset.card_lt_card ?_) (Finset.card_le_card hdays)
    refine (Finset.ssubset_iff_of_subset hnotes).mpr ⟨e, ?_, ?_⟩
    · exact Finset.mem_filter.mpr ⟨h.due_published hsuits he, he⟩
    · intro hmem
      obtain ⟨hbefore, hsame⟩ := hround.due hsuits h (Finset.mem_filter.mp hmem).2
      exact hbefore.outdated content hcontent (hsame ▸ hnote)
  · -- at least one file is moved
    have hnone : ∀ e, ¬ tree.Due codec destination cutoff e := fun e he => hdue ⟨e, he⟩
    have hfiles : tree.dayFiles cutoff ≠ [] := fun hempty =>
      hleft ((h.left_eq_zero hsuits).mpr ⟨hnone, hempty⟩)
    obtain ⟨file, hfile⟩ := List.exists_mem_of_ne_nil _ (hround.moves (hround.settled hnone) hfiles)
    refine Nat.add_lt_add_of_le_of_lt (Finset.card_le_card hnotes) (Finset.card_lt_card ?_)
    refine (Finset.ssubset_iff_of_subset hdays).mpr ⟨file, ?_, ?_⟩
    · exact List.mem_toFinset.mpr (hround.old file hfile)
    · rw [List.mem_toFinset, hround.dayFiles]
      exact fun hmem => hmem.2 (List.mem_map_of_mem hfile)

/-! ### Every round -/

theorem filed_of_settled (hsuits : Suits codec T destination)
    (hT : ∀ e ∈ tree.entries codec, e ∈ T) (hnone : ∀ e, ¬ tree.Due codec destination cutoff e) :
    tree.Filed codec destination cutoff := by
  intro e he hrequired
  obtain ⟨content, hcontent, -⟩ := hsuits.renders e (hT e he.mem) (memoryState (tree.entries codec) e)
  refine ⟨content, hcontent, ?_⟩
  by_contra hne
  refine hnone e ⟨he, hrequired, fun c hc => ?_⟩
  rw [Destination.currentNote, hcontent] at hc
  exact Except.ok.inj hc ▸ hne

/-- A head is what the last publication recorded, or continues it. -/
theorem protectPrevious_self (tree : Tree) : protectPrevious (some tree) (some tree) = .ok () := by
  have hnone : changedPaths tree tree = [] := by
    unfold changedPaths
    rw [List.filter_eq_nil_iff]
    rintro ⟨path, content⟩ hrow
    cases path with
    | note m => simp
    | journal archived relative =>
      have hblob := Tree.mem_listing.mp hrow
      simp [hblob]
  have hcatalog : protectCatalog tree.catalog tree.catalog = .ok () := by
    cases tree.catalog with
    | none => rfl
    | some c => exact check_eq_ok.mpr ⟨rfl, le_rfl, le_rfl⟩
  simp only [protectPrevious, hnone]
  exact hcatalog

/-- The head of a checkout is fileable, and continues the recorded publication. -/
structure Checkout.Fileable (codec : LineCodec) (T : Set Entry) (destination : Destination)
    (cutoff : Day) (published : Finset Entry) (checkout : Checkout) : Prop where
  head : Journal.Fileable codec T destination cutoff published checkout.head
  continues : protectPrevious checkout.publication (some checkout.head) = .ok ()

/-- **One fold of a checkout.** -/
theorem Checkout.Fileable.fold (hsuits : Suits codec T destination) {checkout : Checkout}
    (h : checkout.Fileable codec T destination cutoff published) :
    ∃ updates report chosen,
      plan codec destination checkout.head cutoff = .ok (updates, report) ∧
      Round codec destination cutoff checkout.head updates report chosen ∧
      Journal.fold codec destination cutoff checkout =
        .ok (⟨some (checkout.head.apply updates), checkout.head.apply updates⟩, report) ∧
      (⟨some (checkout.head.apply updates), checkout.head.apply updates⟩ : Checkout).Fileable codec T
        destination cutoff published := by
  obtain ⟨series, hrepresents⟩ := h.head.represents
  obtain ⟨updates, report, chosen, hplan, hround⟩ := plan_round hsuits hrepresents h.head.bounded
    h.head.catalog h.head.views h.head.validated
  refine ⟨updates, report, chosen, hplan, hround, ?_, ?_⟩
  · simp only [Journal.fold, h.continues, hplan, bind, Except.bind, pure, Except.pure]
  · exact ⟨h.head.round hsuits hplan hround, protectPrevious_self _⟩

/-- **Repeated folds settle on every journal that a fold accepts.** -/
theorem Checkout.Fileable.converges (hsuits : Suits codec T destination)
    (hwithheld : ∀ e f : Entry, f.id = e.id → f.ts = e.ts → f.origin = e.origin →
      f.version = e.version → ∀ state, state ≠ .active →
        destination.renderNote f state true = destination.renderNote e state true)
    {checkout : Checkout} (h : checkout.Fileable codec T destination cutoff published) :
    Converges codec destination cutoff checkout := by
  constructor
  · obtain ⟨rounds, -, last, hlast, hfileable, hzero⟩ := repeatM_reaches
      (fun c : Checkout => c.Fileable codec T destination cutoff published)
      (fun c => c.head.left codec destination cutoff published)
      (f := fun c => Prod.fst <$> Journal.fold codec destination cutoff c)
      (by
        intro c hc
        obtain ⟨updates, report, chosen, -, hround, hfold, hnext⟩ := hc.fold hsuits
        exact ⟨_, map_eq_ok.mpr ⟨_, hfold, rfl⟩, hnext, hround.left_lt hsuits hc.head⟩) h
    obtain ⟨hnone, hdays⟩ := (hfileable.head.left_eq_zero hsuits).mp hzero
    obtain ⟨updates, report, chosen, hplan, hround, -, -⟩ := hfileable.fold hsuits
    have hT := hfileable.head.submitted hsuits
    have hfiled := filed_of_settled hsuits hT hnone
    obtain rfl := hround.idle hnone hdays
    refine ⟨rounds, last, report, hlast, hplan, hround.settled hnone, ?_, hfiled, ?_, ?_⟩
    · rw [hround.pendingFiles, hdays]
      exact Nat.zero_sub _
    · intro e he hstate data hdata f hid hts horigin hversion
      obtain ⟨content, hcontent, hnote⟩ := hfiled e he (Or.inr (by rw [hdata]; rfl))
      rw [hwithheld e f hid hts horigin hversion _ hstate]
      rw [Option.some.inj (hdata.symm.trans hnote)]
      exact hcontent
    · intro relative hlive
      obtain ⟨content, hcontent⟩ := Option.isSome_iff_exists.mp hlive
      by_contra hday
      have hmem : (relative, content) ∈ last.head.dayFiles cutoff :=
        Tree.mem_dayFiles.mpr ⟨hcontent, Nat.lt_of_not_le hday⟩
      simp [hdays] at hmem
  · intro rounds before after report hbefore hfold hmoves
    have hfileable := repeatM_invariant
      (fun c : Checkout => c.Fileable codec T destination cutoff published)
      (by
        intro c c' hc hstep
        obtain ⟨updates, report, chosen, -, -, hfold, hnext⟩ := hc.fold hsuits
        obtain ⟨result, hresult, rfl⟩ := map_eq_ok.mp hstep
        cases hfold.symm.trans hresult
        exact hnext) h hbefore
    obtain ⟨updates, report', chosen, -, hround, hfold', hnext⟩ := hfileable.fold hsuits
    cases hfold.symm.trans hfold'
    -- a file moved, so no note was left for later
    obtain ⟨relative, hlive, hgone⟩ := hmoves
    have hchosen : chosen ≠ [] := by
      rintro rfl
      dsimp only at hgone
      rw [hround.live, if_neg (by simp)] at hgone
      rw [hgone] at hlive
      cases hlive
    refine filed_of_settled hsuits (hnext.head.submitted hsuits) fun e hdue => ?_
    obtain ⟨hbefore', hsame⟩ := hround.due hsuits hfileable.head hdue
    obtain ⟨content, hcontent, -⟩ := hsuits.renders e
      (hfileable.head.submitted hsuits e hbefore'.newest.mem) (memoryState (before.head.entries codec) e)
    have hwritten := hround.written (hround.gate hchosen) e hbefore' content hcontent
    exact hbefore'.outdated content hcontent (hsame ▸ hwritten)

end

/-! ### Links of a configured journal -/

/-- What the settings promise of the journal's folder: a relative path of at most
    200 characters without hidden parts. -/
structure NoteFolder.Portable (folder : NoteFolder) : Prop where
  length : folder.journal.length ≤ 200
  relative : folder.journal.head? ≠ some '/'
  parts : ∀ part ∈ folder.journal.splitOn '/', part.head? ≠ some '.'

theorem pathParts_plain (cwd : List (List Char)) {path : List Char} (hrelative : path.head? ≠ some '/')
    (hparts : ∀ part ∈ path.splitOn '/', part.head? ≠ some '.') :
    pathParts cwd path = cwd ++ (path.splitOn '/').filter (· ≠ []) := by
  unfold pathParts
  rw [if_neg hrelative]
  generalize path.splitOn '/' = parts at hparts
  induction parts generalizing cwd with
  | nil => simp
  | cons part parts ih =>
    have hpart := hparts part List.mem_cons_self
    have hdots : part ≠ ['.'] ∧ part ≠ ['.', '.'] := by
      refine ⟨?_, ?_⟩
      · rintro rfl
        exact hpart rfl
      · rintro rfl
        exact hpart rfl
    rw [List.foldl_cons, ih _ fun p hp => hparts p (List.mem_cons_of_mem _ hp)]
    by_cases hempty : part = []
    · simp [hempty]
    · simp [hempty, hdots.1, hdots.2]

theorem commonLength_append (shared a b : List (List Char)) :
    commonLength (shared ++ a) (shared ++ b) = shared.length + commonLength a b := by
  induction shared with
  | nil => simp
  | cons part shared ih =>
    rw [List.cons_append, List.cons_append, commonLength, if_pos rfl, ih, List.length_cons]
    omega

/-- A relative path is as long as its two ends. -/
theorem length_relpath_le (cwd : List (List Char)) {path start : List Char}
    (hpath : path.head? ≠ some '/') (hpathParts : ∀ part ∈ path.splitOn '/', part.head? ≠ some '.')
    (hstart : start.head? ≠ some '/')
    (hstartParts : ∀ part ∈ start.splitOn '/', part.head? ≠ some '.') :
    (relpath cwd path start).length ≤ 3 * (start.length + 1) + (path.length + 1) := by
  have hsum : ∀ text : List Char, (((text.splitOn '/').filter (· ≠ [])).map fun part =>
      part.length + 1).sum ≤ text.length + 1 := by
    intro text
    rw [← sum_splitOnP (· == '/') text]
    exact (List.filter_sublist.map _).sum_le_sum fun n _ => Nat.zero_le n
  have hcount : ∀ parts : List (List Char), parts.length ≤ (parts.map fun part =>
      part.length + 1).sum := by
    intro parts
    induction parts with
    | nil => exact Nat.zero_le _
    | cons part parts ih =>
      rw [List.map_cons, List.sum_cons, List.length_cons]
      omega
  unfold relpath
  rw [pathParts_plain cwd hpath hpathParts, pathParts_plain cwd hstart hstartParts]
  dsimp only
  rw [commonLength_append, List.length_append, Nat.add_sub_add_left, List.drop_append,
    List.drop_eq_nil_of_le (Nat.le_add_right _ _), List.nil_append, Nat.add_sub_cancel_left]
  have hstartSum := hsum start
  have hstartCount := hcount ((start.splitOn '/').filter (· ≠ []))
  have hpathSum := hsum path
  generalize (start.splitOn '/').filter (· ≠ []) = ups at *
  generalize (path.splitOn '/').filter (· ≠ []) = downs at *
  split
  · rw [List.length_singleton]
    omega
  · refine Nat.le_trans (length_intercalate_le '/' _) ?_
    have hdrop : ((downs.drop (commonLength ups downs)).map fun part => part.length + 1).sum ≤
        (downs.map fun part => part.length + 1).sum :=
      ((List.drop_sublist _ _).map _).sum_le_sum fun n _ => Nat.zero_le n
    rw [List.map_append, List.sum_append, List.map_replicate, List.sum_replicate]
    simp only [List.length_cons, List.length_nil, smul_eq_mul]
    omega

theorem splitOn_append {text more : List Char} (hmore : '/' ∉ more) :
    ∃ init last, text.splitOn '/' = init ++ [last] ∧ (text ++ more).splitOn '/' = init ++ [last ++ more] := by
  induction text with
  | nil =>
    refine ⟨[], [], rfl, ?_⟩
    rw [List.nil_append, List.nil_append]
    apply List.splitOnP_eq_singleton
    intro c hc
    rw [beq_eq_false_iff_ne]
    rintro rfl
    exact hmore hc
  | cons c text ih =>
    obtain ⟨init, last, htext, hmoreText⟩ := ih
    unfold List.splitOn at htext hmoreText ⊢
    rw [List.cons_append, List.splitOnP_cons_eq_if_modifyHead, List.splitOnP_cons_eq_if_modifyHead,
      htext, hmoreText]
    by_cases hslash : (c == '/') = true
    · rw [if_pos hslash, if_pos hslash]
      exact ⟨[] :: init, last, rfl, rfl⟩
    · rw [if_neg hslash, if_neg hslash]
      cases init with
      | nil => exact ⟨[], c :: last, rfl, rfl⟩
      | cons part init => exact ⟨(c :: part) :: init, last, rfl, rfl⟩

theorem utf8Size_quote_le (text : List Char) : utf8Size (quote text) ≤ 48 * text.length := by
  have hbytes : (quote text).length ≤ 3 * (utf8 text).length := by
    unfold quote
    induction utf8 text with
    | nil => simp
    | cons b bytes ih =>
      have hb : (quoteByte b).length ≤ 3 := by
        unfold quoteByte
        dsimp only
        split <;> simp
      rw [List.flatMap_cons, List.length_append, List.length_cons]
      omega
  have hquote := utf8Size_le (quote text)
  have htext := utf8Size_le text
  rw [length_utf8] at hbytes
  omega

/-- The link of a view to its journal is short. -/
theorem NoteFolder.Portable.link {folder : NoteFolder} (h : folder.Portable) :
    utf8Size (noteLink folder (some folder.journal)) ≤ 100000 := by
  have hnotes : folder.notes.length ≤ 214 := by
    have hlength := h.length
    have hsuffix : "-mnemion-notes".toList.length = 14 := rfl
    rw [NoteFolder.notes, List.length_append]
    omega
  have hnotesRelative : folder.notes.head? ≠ some '/' := by
    have hrelative := h.relative
    unfold NoteFolder.notes
    cases hjournal : folder.journal with
    | nil => decide
    | cons c text =>
      rw [hjournal] at hrelative
      exact hrelative
  have hnotesParts : ∀ part ∈ folder.notes.splitOn '/', part.head? ≠ some '.' := by
    obtain ⟨init, last, hjournal, hextended⟩ := @splitOn_append folder.journal "-mnemion-notes".toList
      (by decide)
    intro part hpart
    rw [NoteFolder.notes, hextended] at hpart
    have hold := h.parts
    rw [hjournal] at hold
    rcases List.mem_append.mp hpart with hpart | hpart
    · exact hold part (List.mem_append_left _ hpart)
    · rw [List.mem_singleton.mp hpart]
      have hlast := hold last (by simp)
      cases last with
      | nil => decide
      | cons c text => exact hlast
  have hpath := length_relpath_le folder.cwd h.relative h.parts hnotesRelative hnotesParts
  have hquote := utf8Size_quote_le (relpath folder.cwd folder.journal folder.notes)
  have hlength := h.length
  have hopen : utf8Size "\n[Original journal record](".toList ≤ 100 := by decide
  have hclose : utf8Size ")\n".toList ≤ 10 := by decide
  unfold noteLink
  dsimp only
  split
  · exact Nat.zero_le _
  · rw [utf8Size_append, utf8Size_append]
    omega

/-! ### Reachable journals -/

/-- What the settings of a destination promise. -/
structure Configured (folder : NoteFolder) (destination : Destination) : Prop where
  entries : 1 ≤ destination.maxBatchEntries
  bytes : 384 * 1024 ≤ destination.maxBatchBytes
  portable : folder.Portable

/-- A note without text is the same for every text. -/
theorem renderNote_withheld (hash : NoteHash) (folder : NoteFolder) {e f : Entry} (hid : f.id = e.id)
    (hts : f.ts = e.ts) (horigin : f.origin = e.origin) (hversion : f.version = e.version)
    {state : NoteState} (hstate : state ≠ .active) (source : Option (List Char)) :
    renderNote hash folder f state source = renderNote hash folder e state source := by
  simp only [Entry.origin, Prod.mk.injEq] at horigin
  obtain ⟨htenant, hspace, hmemory⟩ := horigin
  simp only [renderNote, noteBody, noteHeader, noteFields, noteTitle, if_neg hstate, hid, hts, htenant,
    hspace, hmemory, hversion]

section

variable {codec : LineCodec} {S T : Set Entry} {tree : Tree} {published : Finset Entry}
  {series : SeriesMap}

/-- The published entries are a submitted set of their own. -/
theorem Represents.own (h : Represents codec T tree published series) :
    Represents codec {e | e ∈ published} tree published series where
  stores := {
    files := h.stores.files
    ok := by
      intro day writer
      refine { h.stores.ok day writer with submitted := fun e he => ?_ }
      obtain ⟨rfl, rfl⟩ := (h.stores.ok day writer).placed e he
      exact (h.stores.published e).mpr he
    published := h.stores.published }
  counts := h.counts

theorem noteDestination_renders (hash : NoteHash) {folder : NoteFolder} {base : Destination}
    (hconfigured : Configured folder base) {e : Entry} (he : Accepted e) (state : NoteState) :
    ∃ content, (noteDestination hash folder base).renderNote e state true = .ok content ∧
      content.length ≤ (noteDestination hash folder base).maxBatchBytes ∧
      content.length ≤ MAX_FILE_BYTES := by
  have hline := noteBytes_le_line he folder state hconfigured.portable.link
  refine ⟨_, renderNote_eq_ok.mpr ⟨?_, rfl⟩, ?_, ?_⟩
  · exact Nat.le_trans hline (Nat.le_add_right _ _)
  · rw [if_pos rfl, length_noteText]
    exact Nat.le_trans hline hconfigured.bytes
  · rw [if_pos rfl, length_noteText]
    exact Nat.le_trans hline (by decide)

/-- A note that validates is short. -/
theorem validateNote_length {hash : NoteHash} {tenantId spaceId memoryId : UUID} {data : Bytes}
    {flag : Bool} {values : NoteValues}
    (h : validateNote hash tenantId spaceId data memoryId flag = .ok values) :
    data.length ≤ MAX_FILE_BYTES := by
  have hread : readNote hash tenantId spaceId data memoryId flag = some values := by
    unfold validateNote at h
    split at h
    · next hread => exact Except.ok.inj h ▸ hread
    · cases h
  unfold readNote at hread
  obtain ⟨_, hguard, _⟩ := Option.bind_eq_some_iff.mp hread
  have hsize : data.length ≤ NOTE_MAX_BYTES := by
    by_contra hlong
    simp [guard, hlong] at hguard
  exact Nat.le_trans hsize (by decide)

end

section

variable {ι : Type} [DecidableEq ι]

/-- The events of one undisturbed fold. -/
def foldEvents (p : ι) (cutoff : Day) : List (Event ι) :=
  [.begin p (.fold cutoff), .attempt p, .push p true]

/-- **`fold` is the fold of the machine**: when nothing else happens, its events take
    the branch and the publisher's record where `fold` says. -/
theorem fold_run {codec : LineCodec} {destination : ι → Destination} {world : World ι} {p : ι}
    {cutoff : Day} {commit : Commit} (hidle : (world.publishers p).phase = .idle)
    (hhead : world.head = some commit) {checkout : Checkout} {report : FoldReport}
    (hfold : fold codec (destination p) cutoff ⟨(world.publishers p).publication, commit.tree⟩ =
      .ok (checkout, report)) :
    ∃ commit', ((foldEvents p cutoff).foldl (World.next codec destination) world).head = some commit' ∧
      commit'.tree = checkout.head ∧
      (((foldEvents p cutoff).foldl (World.next codec destination) world).publishers p).publication =
        checkout.publication ∧
      (((foldEvents p cutoff).foldl (World.next codec destination) world).publishers p).phase = .idle := by
  simp only [fold, bind_eq_ok, pure_eq_ok, Prod.mk.injEq] at hfold
  obtain ⟨_, hprotect, ⟨updates, report'⟩, hplan, rfl, _⟩ := hfold
  have hattempt : attemptJob codec (destination p) (world.publishers p).publication (some commit.tree)
      (.fold cutoff) (world.publishers p).index .zero =
        .ok (updates, (world.publishers p).index, .zero) := by
    simp only [attemptJob, bind_eq_ok, check_eq_ok, pure_eq_ok]
    exact ⟨(), by simp, _, hprotect, _, hplan, rfl⟩
  simp only [foldEvents, List.foldl_cons, List.foldl_nil, World.next, hidle, World.set,
    Function.update_self, hhead, Option.map_some, hattempt]
  by_cases hempty : updates = []
  · subst hempty
    simp [World.finish, World.set]
  · simp [hempty, World.finish, World.set, headTree]

end

end Mnemion.Journal
