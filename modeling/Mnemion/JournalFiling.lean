/-
  Mnemion/JournalFiling.lean
  ==========================
  **What one fold does to a journal.**  Below a head that represents published
  entries, `_plan` succeeds as soon as the journal and its notes fit the limits
  (`plan_files_journal`): it brings notes up to date as far as the batch allows
  and, once none is left over, moves old day files to paths of the archive that
  are free.

  The state of a memory and the notes a tree owes are stated on the tree alone,
  without the index that `_plan` reads it into.
-/
import Mathlib.Algebra.GroupWithZero.Nat
import Mnemion.JournalHistory
import Mnemion.JournalOrder

namespace Mnemion.Journal

open Outcome ByteLines

/-! ### What a tree owes -/

/-- The journal files of a tree, in path order. -/
def Tree.journalFiles (tree : Tree) : List (Bool × Relative × Bytes) :=
  tree.listing.filterMap fun row =>
    match row.1 with | .journal archived relative => some (archived, relative, row.2) | _ => none

/-- The entries of one file. -/
def fileEntries (codec : LineCodec) (file : Bool × Relative × Bytes) : List Entry :=
  (parseFile codec file.2.2).toOption.getD []

/-- A file of a day before the cutoff or in the archive. -/
def oldFile (cutoff : Day) (file : Bool × Relative × Bytes) : Bool :=
  file.2.1.day < cutoff || file.1

/-- The records of a day before the cutoff or in the archive. -/
def Tree.oldRecords (codec : LineCodec) (cutoff : Day) (tree : Tree) : List Entry :=
  (tree.journalFiles.filter (oldFile cutoff)).flatMap (fileEntries codec)

/-- The live files of days before the cutoff. -/
def Tree.dayFiles (cutoff : Day) (tree : Tree) : List (Relative × Bytes) :=
  tree.journalFiles.filterMap fun file =>
    if file.2.1.day < cutoff ∧ file.1 = false then some file.2 else none

/-- The newest record of a memory. -/
structure Newest (records : List Entry) (e : Entry) : Prop where
  mem : e ∈ records
  highest : ∀ f ∈ records, f.origin = e.origin → f.version ≤ e.version

/-- The state of the memory whose newest record is `e`: a forget sticks. -/
def memoryState (records : List Entry) (e : Entry) : NoteState :=
  if ∃ f ∈ records, f.origin = e.origin ∧ f.action = .forget then .forgotten
  else if e.action = .quarantine then .quarantined
  else .active

/-- The memory needs a note: it has an old record or a note already. -/
def Tree.Required (codec : LineCodec) (cutoff : Day) (tree : Tree) (e : Entry) : Prop :=
  (∃ f ∈ tree.oldRecords codec cutoff, f.origin = e.origin) ∨
    (tree.blob (.note e.memoryId)).isSome

/-- The note of the memory's current state. -/
def Destination.currentNote (destination : Destination) (records : List Entry) (e : Entry) :
    Except JournalError Bytes :=
  destination.renderNote e (memoryState records e) true

/-- The note of a memory that needs one is not that of its current state. -/
structure Tree.Due (codec : LineCodec) (destination : Destination) (cutoff : Day) (tree : Tree)
    (e : Entry) : Prop where
  newest : Newest (tree.entries codec) e
  required : tree.Required codec cutoff e
  outdated : ∀ content, destination.currentNote (tree.entries codec) e = .ok content →
    tree.blob (.note e.memoryId) ≠ some content

/-! ### The listing -/

section

variable {codec : LineCodec} {tree : Tree}

theorem Tree.nodup_listing (tree : Tree) : (tree.listing.map Prod.fst).Nodup := by
  have hperm : tree.listing.Perm (tree.files.entries.map fun entry => (entry.1, entry.2)) :=
    List.mergeSort_perm _ _
  rw [(hperm.map Prod.fst).nodup_iff, List.map_map]
  exact tree.files.nodupKeys

theorem Tree.mem_journalFiles {file : Bool × Relative × Bytes} :
    file ∈ tree.journalFiles ↔ tree.blob (.journal file.1 file.2.1) = some file.2.2 := by
  rw [← Tree.mem_listing, Tree.journalFiles, List.mem_filterMap]
  constructor
  · rintro ⟨⟨path, content⟩, hmem, hrow⟩
    cases path with
    | note m => cases hrow
    | journal archived relative => exact Option.some.inj hrow ▸ hmem
  · exact fun hmem => ⟨_, hmem, rfl⟩

def Path.isJournal : Path → Bool
  | .journal _ _ => true
  | .note _ => false

/-- Every file of the journal is listed once. -/
theorem Tree.nodup_journalFiles (tree : Tree) :
    (tree.journalFiles.map fun file => Path.journal file.1 file.2.1).Nodup := by
  have hpaths : tree.journalFiles.map (fun file => Path.journal file.1 file.2.1) =
      (tree.listing.map Prod.fst).filter Path.isJournal := by
    unfold Tree.journalFiles
    induction tree.listing with
    | nil => rfl
    | cons row rows ih =>
      obtain ⟨path, content⟩ := row
      cases path with
      | note m => simpa [Path.isJournal] using ih
      | journal archived relative =>
        rw [List.map_cons, List.filter_cons_of_pos (by exact rfl), ← ih]
        rfl
  rw [hpaths]
  exact (tree.nodup_listing).filter _

theorem Tree.entries_eq (codec : LineCodec) (tree : Tree) :
    tree.entries codec = tree.journalFiles.flatMap (fileEntries codec) := by
  unfold Tree.entries Tree.journalFiles
  induction tree.listing with
  | nil => rfl
  | cons row rows ih =>
    obtain ⟨path, content⟩ := row
    cases path with
    | note m => simpa using ih
    | journal archived relative => simpa [fileEntries] using ih

/-- The views of an inventory. -/
def Tree.views (tree : Tree) : List (UUID × Bytes) :=
  tree.listing.filterMap fun row =>
    match row.1 with | .note memoryId => some (memoryId, row.2) | _ => none

theorem Tree.mem_views {view : UUID × Bytes} :
    view ∈ tree.views ↔ tree.blob (.note view.1) = some view.2 := by
  rw [← Tree.mem_listing, Tree.views, List.mem_filterMap]
  constructor
  · rintro ⟨⟨path, content⟩, hmem, hrow⟩
    cases path with
    | note m => exact Option.some.inj hrow ▸ hmem
    | journal archived relative => cases hrow
  · exact fun hmem => ⟨_, hmem, rfl⟩

/-- `views.get(path)` -/
theorem Tree.find_view (tree : Tree) (m : UUID) :
    (tree.views.find? (·.1 = m)).map (·.2) = tree.blob (.note m) := by
  cases hfind : tree.views.find? (·.1 = m) with
  | some view =>
    have hm : view.1 = m := by simpa using List.find?_some hfind
    rw [← hm]
    exact (Tree.mem_views.mp (List.mem_of_find?_eq_some hfind)).symm
  | none =>
    cases hblob : tree.blob (.note m) with
    | none => rfl
    | some data =>
      have hmem : (m, data) ∈ tree.views := Tree.mem_views.mpr hblob
      have hno := List.find?_eq_none.mp hfind _ hmem
      simp at hno

end

/-! ### The files of a represented tree -/

section

variable {codec : LineCodec} {S : Set Entry} {tree : Tree} {published : Finset Entry}
  {series : SeriesMap}

/-- A file of the tree is a part of its series. -/
theorem Represents.file (hrec : ∀ e ∈ S, Recordable codec e)
    (h : Represents codec S tree published series) {file : Bool × Relative × Bytes}
    (hfile : file ∈ tree.journalFiles) :
    ∃ p, (series file.2.1.day file.2.1.writer)[file.2.1.part]? = some p ∧ p.archived = file.1 ∧
      file.2.2 = fileOf codec p.entries ∧ fileEntries codec file = p.entries := by
  obtain ⟨archived, ⟨day, writer, part⟩, content⟩ := file
  have hblob := Tree.mem_journalFiles.mp hfile
  rw [h.stores.files day writer archived part, Series.view_eq_some] at hblob
  obtain ⟨p, hp, harchived, hcontent⟩ := hblob
  refine ⟨p, hp, harchived, hcontent, ?_⟩
  have hread := (h.stores.ok day writer).recordable hrec (List.mem_of_getElem? hp)
  dsimp only at hcontent
  simp only [fileEntries, hcontent, hread]
  rfl

theorem Represents.mem_entries (hrec : ∀ e ∈ S, Recordable codec e)
    (h : Represents codec S tree published series) {e : Entry} :
    e ∈ tree.entries codec ↔ e ∈ published := (h.storesExactly hrec).entries e

/-- Every record is in the tree once. -/
theorem Represents.nodup_entries (hrec : ∀ e ∈ S, Recordable codec e)
    (h : Represents codec S tree published series) : (tree.entries codec).Nodup := by
  have hparts : ∀ day writer, (∀ p ∈ series day writer, p.entries.Nodup) ∧
      (series day writer).Pairwise (Function.onFun List.Disjoint Part.entries) :=
    fun day writer => List.nodup_flatMap.mp (h.stores.ok day writer).nodup
  rw [Tree.entries_eq, List.nodup_flatMap]
  constructor
  · intro file hfile
    obtain ⟨p, hp, -, -, heq⟩ := h.file hrec hfile
    rw [heq]
    exact (hparts _ _).1 p (List.mem_of_getElem? hp)
  · refine (tree.nodup_journalFiles.of_map).pairwise_of_forall_ne ?_
    intro file hfile file' hfile' hne e he he'
    obtain ⟨p, hp, harchived, hcontent, heq⟩ := h.file hrec hfile
    obtain ⟨p', hp', harchived', hcontent', heq'⟩ := h.file hrec hfile'
    rw [heq] at he
    rw [heq'] at he'
    -- an entry names its series
    have hplace := (h.stores.ok _ _).placed e
      (Series.mem_entries.mpr ⟨p, List.mem_of_getElem? hp, he⟩)
    have hplace' := (h.stores.ok _ _).placed e
      (Series.mem_entries.mpr ⟨p', List.mem_of_getElem? hp', he'⟩)
    rw [← hplace.1, ← hplace.2] at hp
    rw [← hplace'.1, ← hplace'.2] at hp'
    by_cases hpart : file.2.1.part = file'.2.1.part
    · -- one part cannot be two files
      rw [hpart, hp'] at hp
      cases hp
      apply hne
      obtain ⟨archived, ⟨day, writer, part⟩, content⟩ := file
      obtain ⟨archived', ⟨day', writer', part'⟩, content'⟩ := file'
      dsimp only at *
      rw [← harchived, ← harchived', hcontent, hcontent', ← hplace.1, ← hplace.2, ← hplace'.1,
        ← hplace'.2, hpart]
    · obtain ⟨hlt, hget⟩ := List.getElem?_eq_some_iff.mp hp
      obtain ⟨hlt', hget'⟩ := List.getElem?_eq_some_iff.mp hp'
      have hdisjoint := List.pairwise_iff_getElem.mp (hparts e.date e.writer).2
      rcases Nat.lt_or_gt_of_ne hpart with hless | hless
      · refine hdisjoint _ _ hlt hlt' hless (hget ▸ he) (hget' ▸ he')
      · refine hdisjoint _ _ hlt' hlt hless (hget' ▸ he') (hget ▸ he)

/-- The parts of a series that have files. -/
theorem Represents.parts (hrec : ∀ e ∈ S, Recordable codec e)
    (h : Represents codec S tree published series) (day : Day) (writer : UUID) (part : Nat) :
    (∃ file ∈ tree.journalFiles, file.2.1 = ⟨day, writer, part⟩) ↔
      part < (series day writer).length := by
  constructor
  · rintro ⟨file, hfile, hrelative⟩
    obtain ⟨p, hp, -⟩ := h.file hrec hfile
    rw [hrelative] at hp
    exact (List.getElem?_eq_some_iff.mp hp).1
  · intro hlt
    refine ⟨((series day writer)[part].archived, ⟨day, writer, part⟩,
      fileOf codec (series day writer)[part].entries), ?_, rfl⟩
    rw [Tree.mem_journalFiles, h.stores.files, Series.view_eq_some]
    exact ⟨_, List.getElem?_eq_getElem hlt, rfl, rfl⟩

end

/-! ### Reading the journal -/

/-- The destination is one of these entries' journal, its batches can hold any
    one note, and no scan stops an entry. -/
structure Suits (codec : LineCodec) (T : Set Entry) (destination : Destination) : Prop where
  digestible : Digestible codec T
  identities : DistinctIdentities T
  scope : ∀ e ∈ T, e.tenantId = destination.tenantId ∧ e.spaceId = destination.spaceId
  batch : 1 ≤ destination.maxBatchEntries
  renders : ∀ e ∈ T, ∀ state, ∃ content, destination.renderNote e state true = .ok content ∧
    content.length ≤ destination.maxBatchBytes ∧ content.length ≤ MAX_FILE_BYTES
  scans : ∀ e ∈ T, destination.scan e = .ok ()

/-- The memories that have or need a note. -/
def Tree.noted (codec : LineCodec) (cutoff : Day) (tree : Tree) : Finset UUID :=
  (tree.views.map (·.1)).toFinset ∪ ((tree.oldRecords codec cutoff).map (·.memoryId)).toFinset

/-- The journal, with a note for every memory that needs one, is within the limits
    of `_inventory` and of the index. -/
structure Tree.Bounded (codec : LineCodec) (cutoff : Day) (tree : Tree) : Prop where
  records : (tree.entries codec).length ≤ 1000000
  bytes : ((tree.entries codec).map fun e => (codec.dump e ++ [newline]).length).sum ≤ 2 * 1024 ^ 3
  files : tree.journalFiles.length + (tree.noted codec cutoff).card ≤ 50000

/-- The entries of a file with its path. -/
def locatedEntries (codec : LineCodec) (file : Bool × Relative × Bytes) :
    List (Entry × Option Path) :=
  (fileEntries codec file).map fun e => (e, some (.journal file.1 file.2.1))

/-- What the first loop has after some files. -/
structure ReadFiles (codec : LineCodec) (cutoff : Day) (done : List (Bool × Relative × Bytes))
    (read : ReadJournal) : Prop where
  index : IndexesAll codec 1000000 (2 * 1024 ^ 3) (done.flatMap (locatedEntries codec)) read.index
  origins : ∀ o, o ∈ read.foldOrigins ↔
    ∃ e ∈ (done.filter (oldFile cutoff)).flatMap (fileEntries codec), e.origin = o
  eligible : read.eligible = done.filterMap fun file =>
    if file.2.1.day < cutoff ∧ file.1 = false then some file.2 else none
  series : read.series = done.map fun file =>
    ((file.2.1.day, file.2.1.writer), file.2.1.part)

section

variable {codec : LineCodec} {T : Set Entry} {destination : Destination} {cutoff : Day}
  {tree : Tree} {published : Finset Entry} {series : SeriesMap}

theorem IndexesAll.add_ok {υ : Type} {maxRecords maxBytes : Nat} {added : List (Entry × Option υ)}
    {index : JournalIndex υ} {entry : Entry} (uri : Option υ) (hT : Digestible codec T)
    (hadded : ∀ p ∈ added, p.1 ∈ T) (hentry : entry ∈ T) (hS : DistinctIdentities T)
    (h : IndexesAll codec maxRecords maxBytes added index) (hroom : index.Room codec entry) :
    ∃ index', index.add codec entry uri = .ok index' ∧
      IndexesAll codec maxRecords maxBytes (added ++ [(entry, uri)]) index' := by
  have houtcome := h.tables.outcome uri hT hadded hentry
  have hsome : ∃ index', index.add codec entry uri = .ok index' := by
    generalize index.add codec entry uri = result at houtcome
    cases houtcome with
    | full hfull => exact absurd hroom hfull
    | again _ _ => exact ⟨_, rfl⟩
    | taken _ _ => exact ⟨_, rfl⟩
    | entryConflict hconflict =>
      obtain ⟨p, hp, hid, hne⟩ := hconflict
      exact absurd (hS p.1 (hadded p hp) entry hentry (Or.inl hid)) hne
    | versionConflict hconflict =>
      obtain ⟨p, hp, horigin, hversion, hne⟩ := hconflict
      exact absurd (hS p.1 (hadded p hp) entry hentry (Or.inr ⟨horigin, hversion⟩)) hne
  obtain ⟨index', hindex'⟩ := hsome
  exact ⟨index', hindex', h.add hT hadded hentry hindex'⟩

theorem flatMap_located (files : List (Bool × Relative × Bytes)) :
    (files.flatMap (locatedEntries codec)).map Prod.fst = files.flatMap (fileEntries codec) := by
  induction files with
  | nil => rfl
  | cons file files ih =>
    rw [List.flatMap_cons, List.map_append, ih, List.flatMap_cons]
    simp [locatedEntries, Function.comp_def]

/-- The index has room for the whole tree. -/
theorem Tree.Bounded.within (h : tree.Bounded codec cutoff) :
    Within codec 1000000 (2 * 1024 ^ 3) (tree.journalFiles.flatMap (locatedEntries codec)) := by
  have hentries := @flatMap_located codec tree.journalFiles
  rw [← Tree.entries_eq] at hentries
  constructor
  · rw [← List.length_map Prod.fst, hentries]
    exact h.records
  · have hbytes := h.bytes
    rw [← hentries, List.map_map] at hbytes
    exact hbytes

/-- One entry of a file. -/
theorem readJournalEntry_ok (hsuits : Suits codec T destination) {archived old : Bool}
    {relative : Relative} {added : List (Entry × Option Path)} {state : ReadJournal} {entry : Entry}
    (hadded : ∀ p ∈ added, p.1 ∈ T) (hentry : entry ∈ T) (hplace : matchesPath entry relative)
    (hindex : IndexesAll codec 1000000 (2 * 1024 ^ 3) added state.index)
    (hroom : state.index.Room codec entry) :
    ∃ state', readJournalEntry codec destination archived relative old state entry = .ok state' ∧
      IndexesAll codec 1000000 (2 * 1024 ^ 3)
        (added ++ [(entry, some (.journal archived relative))]) state'.index ∧
      (∀ o, o ∈ state'.foldOrigins ↔
        o ∈ state.foldOrigins ∨ ((old || archived) = true ∧ entry.origin = o)) ∧
      state'.eligible = state.eligible ∧ state'.series = state.series := by
  obtain ⟨index', hadd, hindex'⟩ := hindex.add_ok (some (.journal archived relative))
    hsuits.digestible hadded hentry hsuits.identities hroom
  refine ⟨{ state with
    index := index'
    foldOrigins :=
      if (old || archived) && !state.foldOrigins.contains entry.origin then
        state.foldOrigins ++ [entry.origin]
      else state.foldOrigins }, ?_, hindex', ?_, rfl, rfl⟩
  · simp only [readJournalEntry, Destination.scope, bind_eq_ok, check_eq_ok, pure_eq_ok]
    exact ⟨(), hsuits.scope entry hentry, (), hplace, index', hadd, rfl⟩
  · intro o
    dsimp only
    cases hold : (old || archived) with
    | false => simp
    | true =>
      by_cases hmem : entry.origin ∈ state.foldOrigins
      · have hcontains : state.foldOrigins.contains entry.origin = true :=
          List.contains_iff_mem.mpr hmem
        simp only [hcontains, Bool.not_true, Bool.and_false, Bool.false_eq_true, if_false,
          true_and, iff_self_or]
        exact fun heq => heq ▸ hmem
      · have hcontains : state.foldOrigins.contains entry.origin = false := by
          simpa using hmem
        simp only [hcontains, Bool.not_false, Bool.and_true, if_true, List.mem_append,
          List.mem_singleton, true_and, eq_comm]

/-- **The first loop reads a represented tree**, whatever its order. -/
theorem readJournalFiles_ok (hsuits : Suits codec T destination)
    (h : Represents codec T tree published series) (hbounded : tree.Bounded codec cutoff)
    {catalog : Catalog}
    (hversion : (∃ day writer, 1 < (series day writer).length) → catalog.schemaVersion = 2) :
    ∃ read, tree.journalFiles.foldlM (readJournalFile codec destination catalog cutoff)
      ⟨.empty, [], [], []⟩ = .ok read ∧ ReadFiles codec cutoff tree.journalFiles read := by
  have hrec := hsuits.digestible.recordable
  have hpart : ∀ file ∈ tree.journalFiles, ∀ e ∈ fileEntries codec file,
      e ∈ T ∧ matchesPath e file.2.1 := by
    intro file hfile e he
    obtain ⟨p, hp, -, -, heq⟩ := h.file hrec hfile
    have hmem : e ∈ (series file.2.1.day file.2.1.writer).entries :=
      Series.mem_entries.mpr ⟨p, List.mem_of_getElem? hp, heq ▸ he⟩
    obtain ⟨hday, hwriter⟩ := (h.stores.ok _ _).placed e hmem
    exact ⟨(h.stores.ok _ _).submitted e hmem, hday.symm, hwriter.symm⟩
  refine foldlM_succeeds (ReadFiles codec cutoff) ?_
    ⟨indexesAll_limited, by simp, rfl, rfl⟩
  rintro done ⟨archived, relative, data⟩ rest state hsplit hdone
  have hfile : (archived, relative, data) ∈ tree.journalFiles := by simp [hsplit]
  obtain ⟨p, hp, -, hcontent, hentries⟩ := h.file hrec hfile
  dsimp only at hp hcontent
  have hparts := List.mem_of_getElem? hp
  have hlt : relative.part < (series relative.day relative.writer).length :=
    (List.getElem?_eq_some_iff.mp hp).1
  have hok := h.stores.ok relative.day relative.writer
  have hpath : journalPath relative = .ok relative := by
    simp only [journalPath, bind_eq_ok, check_eq_ok, pure_eq_ok]
    exact ⟨(), Nat.lt_of_lt_of_le hlt hok.length, trivial⟩
  have hlayout : check (relative.part ≠ 0 → 2 ≤ catalog.schemaVersion)
      JournalError.journalCatalogLayoutMismatch = .ok () := by
    rw [check_eq_ok]
    intro hne
    exact (hversion ⟨relative.day, relative.writer, by omega⟩).ge
  have hentryRec : ∀ e ∈ p.entries, Recordable codec e := fun e he =>
    hrec e (hpart _ hfile e (hentries ▸ he)).1
  -- the file is read entry by entry
  set old : Bool := decide (relative.day < cutoff) with hold
  set start : ReadJournal := { state with
    series := state.series ++ [((relative.day, relative.writer), relative.part)]
    eligible := if old && !archived then state.eligible ++ [(relative, data)]
      else state.eligible } with hstart
  have hloop := foldlM_succeeds
    (fun (read : List Entry) (t : ReadJournal) =>
      IndexesAll codec 1000000 (2 * 1024 ^ 3) (done.flatMap (locatedEntries codec) ++
        read.map fun e => (e, some (.journal archived relative))) t.index ∧
      (∀ o, o ∈ t.foldOrigins ↔ o ∈ state.foldOrigins ∨
        ((old || archived) = true ∧ ∃ e ∈ read, e.origin = o)) ∧
      t.eligible = start.eligible ∧ t.series = start.series)
    (f := readJournalEntry codec destination archived relative old) (l := p.entries) (s := start)
    ?_ ?_
  · obtain ⟨last, hlast, hindex, horigins, heligible, hseries⟩ := hloop
    refine ⟨last, ?_, ?_, ?_, ?_, ?_⟩
    · simp only [readJournalFile, hpath, bind, Except.bind, hlayout]
      rw [hcontent, forParseFile_fileOf _ _ hentryRec (hok.size p hparts)]
      exact hcontent ▸ hlast
    · rw [List.flatMap_append, List.flatMap_singleton, locatedEntries, hentries]
      exact hindex
    · intro o
      rw [horigins, hdone.origins]
      have holdFile : oldFile cutoff (archived, relative, data) = (old || archived) := rfl
      rw [List.filter_append, List.flatMap_append]
      cases hb : (old || archived) with
      | false => simp [holdFile, hb]
      | true => simp [holdFile, hb, hentries, or_and_right, exists_or]
    · rw [heligible, hstart]
      dsimp only
      rw [hdone.eligible, List.filterMap_append]
      by_cases hday : relative.day < cutoff <;> cases archived <;> simp [hold, hday]
    · rw [hseries, hstart]
      dsimp only
      rw [hdone.series, List.map_append]
      rfl
  · rintro read entry rest' t hsplit' ⟨hindex, horigins, heligible, hseries⟩
    have hentry : entry ∈ fileEntries codec (archived, relative, data) := by
      rw [hentries, hsplit']
      simp
    have hadded : ∀ q ∈ done.flatMap (locatedEntries codec) ++
        read.map (fun e => (e, some (Path.journal archived relative))), q.1 ∈ T := by
      intro q hq
      rcases List.mem_append.mp hq with hq | hq
      · obtain ⟨file, hf, hq⟩ := List.mem_flatMap.mp hq
        obtain ⟨e, he, rfl⟩ := List.mem_map.mp hq
        exact (hpart file (by rw [hsplit]; exact List.mem_append_left _ hf) e he).1
      · obtain ⟨e, he, rfl⟩ := List.mem_map.mp hq
        refine (hpart _ hfile e ?_).1
        rw [hentries, hsplit']
        exact List.mem_append_left _ he
    have hwithin := hbounded.within
    rw [hsplit, List.flatMap_append, List.flatMap_cons, locatedEntries, hentries, hsplit',
      List.map_append, List.map_cons, List.append_assoc, List.cons_append, ← List.append_assoc]
      at hwithin
    obtain ⟨t', ht', hindex', horigins', heligible', hseries'⟩ := @readJournalEntry_ok _ _ _
      hsuits archived old _ _ _ _ hadded (hpart _ hfile entry hentry).1
      (hpart _ hfile entry hentry).2 hindex (hindex.room hwithin)
    refine ⟨t', ht', ?_, ?_, heligible'.trans heligible, hseries'.trans hseries⟩
    · rw [List.map_append, ← List.append_assoc]
      exact hindex'
    · intro o
      rw [horigins', horigins]
      simp only [List.mem_append, List.mem_singleton, or_and_right, exists_or, exists_eq_left,
        and_or_left, or_assoc]
  · rw [List.map_nil, List.append_nil]
    exact ⟨hdone.index, by simp [hstart], rfl, rfl⟩

end

/-! ### The inventory and the catalog -/

section

variable {codec : LineCodec} {T : Set Entry} {destination : Destination} {cutoff : Day}
  {tree : Tree} {published : Finset Entry} {series : SeriesMap}

theorem Tree.nodup_views (tree : Tree) : (tree.views.map (·.1)).Nodup := by
  have hpaths : (tree.views.map fun view => Path.note view.1) =
      (tree.listing.map Prod.fst).filter fun path => !path.isJournal := by
    unfold Tree.views
    induction tree.listing with
    | nil => rfl
    | cons row rows ih =>
      obtain ⟨path, content⟩ := row
      cases path with
      | note m => simpa [Path.isJournal] using ih
      | journal archived relative => simpa [Path.isJournal] using ih
  have hnodup : (tree.views.map fun view => Path.note view.1).Nodup := by
    rw [hpaths]
    exact tree.nodup_listing.filter _
  rw [← Function.comp_def Path.note, ← List.map_map] at hnodup
  exact hnodup.of_map

/-- A file is as long as the lines of its entries. -/
theorem length_fileOf (entries : List Entry) : (fileOf codec entries).length =
    (entries.map fun e => (codec.dump e ++ [newline]).length).sum := by
  rw [fileOf, List.length_flatten, List.map_map]
  rfl

theorem foldInventory_ok (hrec : ∀ e ∈ T, Recordable codec e)
    (h : Represents codec T tree published series) (hbounded : tree.Bounded codec cutoff)
    (hviews : ∀ m data, tree.blob (.note m) = some data → data.length ≤ MAX_FILE_BYTES) :
    foldInventory tree = .ok (tree.journalFiles, tree.views) := by
  have hsizes : ∀ row ∈ tree.listing, row.2.length ≤ MAX_FILE_BYTES := by
    rintro ⟨path, content⟩ hrow
    have hblob := Tree.mem_listing.mp hrow
    cases path with
    | note m => exact hviews m content hblob
    | journal archived relative => exact ((h.storesExactly hrec).readable _ _ _ hblob).1
  have hcount : tree.journalFiles.length + tree.views.length ≤ 50000 := by
    have hle : tree.views.length ≤ (tree.noted codec cutoff).card := by
      rw [← List.length_map (·.1), ← List.toFinset_card_of_nodup tree.nodup_views]
      exact Finset.card_le_card Finset.subset_union_left
    have := hbounded.files
    omega
  have hbytes : (tree.journalFiles.map (·.2.2.length)).sum ≤ 2 * 1024 ^ 3 := by
    have hsum : ∀ files : List (Bool × Relative × Bytes), (∀ file ∈ files, file ∈ tree.journalFiles) →
        (files.map (·.2.2.length)).sum =
          ((files.flatMap (fileEntries codec)).map fun e => (codec.dump e ++ [newline]).length).sum := by
      intro files hfiles
      induction files with
      | nil => rfl
      | cons file files ih =>
        obtain ⟨p, -, -, hcontent, hentries⟩ := h.file hrec (hfiles file List.mem_cons_self)
        rw [List.map_cons, List.sum_cons, List.flatMap_cons, List.map_append, List.sum_append,
          ih fun f hf => hfiles f (List.mem_cons_of_mem _ hf), hcontent, hentries, length_fileOf]
    rw [hsum _ fun _ hf => hf, ← Tree.entries_eq]
    exact hbounded.bytes
  simp only [foldInventory, bind_eq_ok, check_eq_ok, pure_eq_ok, Prod.mk.injEq]
  exact ⟨(), hsizes, (), hcount, (), hbytes, rfl, rfl⟩

theorem foldr_max_le {parts : List Nat} {n : Nat} (h : ∀ part ∈ parts, part ≤ n) :
    parts.foldr max 0 ≤ n := by
  induction parts with
  | nil => exact Nat.zero_le n
  | cons part parts ih =>
    exact Nat.max_le.mpr ⟨h part List.mem_cons_self, ih fun p hp => h p (List.mem_cons_of_mem _ hp)⟩

/-- Every series that was read is complete. -/
theorem completeSeries_read (hrec : ∀ e ∈ T, Recordable codec e)
    (h : Represents codec T tree published series) {read : ReadJournal}
    (hread : ReadFiles codec cutoff tree.journalFiles read) : completeSeries read.series := by
  intro row hrow
  have hmem : ∀ part, part ∈ (read.series.filter (·.1 = row.1)).map (·.2) ↔
      ∃ file ∈ tree.journalFiles, file.2.1 = ⟨row.1.1, row.1.2, part⟩ := by
    intro part
    rw [hread.series, List.mem_map]
    constructor
    · rintro ⟨r, hr, rfl⟩
      obtain ⟨hr, hkey⟩ := List.mem_filter.mp hr
      obtain ⟨file, hfile, rfl⟩ := List.mem_map.mp hr
      refine ⟨file, hfile, ?_⟩
      rw [← of_decide_eq_true hkey]
    · rintro ⟨file, hfile, hrelative⟩
      refine ⟨((file.2.1.day, file.2.1.writer), file.2.1.part), ?_, by rw [hrelative]⟩
      refine List.mem_filter.mpr ⟨List.mem_map_of_mem hfile, ?_⟩
      rw [hrelative]
      exact decide_eq_true rfl
  have hlt : ∀ part, part ∈ (read.series.filter (·.1 = row.1)).map (·.2) ↔
      part < (series row.1.1 row.1.2).length := fun part =>
    (hmem part).trans (h.parts hrec row.1.1 row.1.2 part)
  intro hne part hpart
  obtain ⟨first, hfirst⟩ := List.exists_mem_of_ne_nil _ hne
  have hpos := (hlt first).mp hfirst
  have hmax : ((read.series.filter (·.1 = row.1)).map (·.2)).foldr max 0 ≤
      (series row.1.1 row.1.2).length - 1 := by
    apply foldr_max_le
    intro k hk
    have := (hlt k).mp hk
    omega
  have := List.mem_range.mp hpart
  rw [hlt]
  omega

/-- The index counts the published entries. -/
theorem ReadFiles.records (hrec : ∀ e ∈ T, Recordable codec e)
    (h : Represents codec T tree published series) {read : ReadJournal}
    (hread : ReadFiles codec cutoff tree.journalFiles read) :
    read.index.records = published.card := by
  have hseen := hread.index.tables.seen_perm.length_eq
  rw [List.length_map, flatMap_located, ← Tree.entries_eq, (h.nodup_entries hrec).dedup] at hseen
  rw [hread.index.records]
  refine hseen.trans ?_
  rw [← List.toFinset_card_of_nodup (h.nodup_entries hrec)]
  congr 1
  ext e
  rw [List.mem_toFinset, h.mem_entries hrec]

end

/-! ### The rows of the index -/

/-- The row of the memory whose newest record is `e`. -/
structure RowOf (codec : LineCodec) (tree : Tree) (row : LatestRow) (e : Entry) : Prop where
  newest : Newest (tree.entries codec) e
  origin : row.origin = e.origin
  line : row.line = codec.dump e ++ [newline]
  denied : row.denied = true ↔ ∃ f ∈ tree.entries codec, f.origin = e.origin ∧ f.action = .forget

section

variable {codec : LineCodec} {T : Set Entry} {destination : Destination} {cutoff : Day}
  {tree : Tree} {published : Finset Entry} {series : SeriesMap} {read : ReadJournal}

theorem mem_located {P : Entry → Prop} :
    (∃ p ∈ tree.journalFiles.flatMap (locatedEntries codec), P p.1) ↔
      ∃ e ∈ tree.entries codec, P e := by
  rw [Tree.entries_eq, ← flatMap_located]
  simp only [List.mem_map]
  constructor
  · rintro ⟨p, hp, hP⟩
    exact ⟨p.1, ⟨p, hp, rfl⟩, hP⟩
  · rintro ⟨-, ⟨p, hp, rfl⟩, hP⟩
    exact ⟨p, hp, hP⟩

theorem forall_located {P : Entry → Prop} :
    (∀ p ∈ tree.journalFiles.flatMap (locatedEntries codec), P p.1) ↔
      ∀ e ∈ tree.entries codec, P e := by
  have h : (∃ p ∈ tree.journalFiles.flatMap (locatedEntries codec), ¬ P p.1) ↔
      ∃ e ∈ tree.entries codec, ¬ P e :=
    mem_located (P := fun e => ¬ P e)
  rw [← not_iff_not]
  push Not
  exact h

/-- Every row is the row of a memory. -/
theorem ReadFiles.row (hread : ReadFiles codec cutoff tree.journalFiles read) {row : LatestRow}
    (hrow : row ∈ read.index.latest) : ∃ e, RowOf codec tree row e := by
  obtain ⟨p, hp, horigin, hversion, -, hline⟩ := hread.index.tables.latestRow row hrow
  have hmax := (forall_located (P := fun e => e.origin = row.origin → e.version ≤ row.version)).mp
    (hread.index.tables.latestMax row hrow)
  have hdenied := (hread.index.tables.latestDenied row hrow).trans
    (mem_located (P := fun e => e.origin = row.origin ∧ e.action = .forget))
  rw [horigin] at hdenied hmax
  obtain ⟨e, he, rfl⟩ := mem_located.mp ⟨p, hp, rfl⟩
  exact ⟨p.1, ⟨he, fun f hf hsame => hversion ▸ hmax f hf hsame⟩, horigin, hline, hdenied⟩

/-- Every memory has a row. -/
theorem ReadFiles.row_of (hS : DistinctIdentities T) (hT : ∀ e ∈ tree.entries codec, e ∈ T)
    (hread : ReadFiles codec cutoff tree.journalFiles read) {e : Entry}
    (he : Newest (tree.entries codec) e) : ∃ row ∈ read.index.latest, RowOf codec tree row e := by
  obtain ⟨p, hp, rfl⟩ := mem_located.mpr ⟨e, he.mem, rfl⟩
  obtain ⟨row, hrow, horigin⟩ := hread.index.tables.latestAll p hp
  obtain ⟨e', he'⟩ := hread.row hrow
  have hsame : e'.origin = p.1.origin := he'.origin.symm.trans horigin
  have heq : e' = p.1 := by
    apply hS e' (hT _ he'.newest.mem) p.1 (hT _ he.mem)
    refine Or.inr ⟨hsame, Nat.le_antisymm ?_ ?_⟩
    · exact he.highest e' he'.newest.mem hsame
    · exact he'.newest.highest p.1 he.mem hsame.symm
  exact ⟨row, hrow, heq ▸ he'⟩

/-- An old record, as the first loop noted it. -/
theorem ReadFiles.contains_origin (hread : ReadFiles codec cutoff tree.journalFiles read)
    {e : Entry} : read.foldOrigins.contains e.origin = true ↔
      ∃ f ∈ tree.oldRecords codec cutoff, f.origin = e.origin := by
  rw [List.contains_iff_mem, hread.origins]
  rfl

theorem RowOf.state {row : LatestRow} {e : Entry} (h : RowOf codec tree row e) :
    (if row.denied then NoteState.forgotten
      else if e.action = .quarantine then .quarantined
      else .active) = memoryState (tree.entries codec) e := by
  unfold memoryState
  by_cases hdenied : row.denied = true
  · rw [if_pos hdenied, if_pos (h.denied.mp hdenied)]
  · rw [if_neg hdenied, if_neg fun hforget => hdenied (h.denied.mpr hforget)]

/-! ### Bringing notes up to date -/

/-- What `validate_note` may refuse: a stored note that is not current. -/
def Tree.Validated (codec : LineCodec) (destination : Destination) (tree : Tree) : Prop :=
  ∀ e, Newest (tree.entries codec) e → ∀ data, tree.blob (.note e.memoryId) = some data →
    destination.currentNote (tree.entries codec) e = .ok data ∨
      destination.validateNote data e.memoryId false = .ok ()

/-- A note that is not due costs nothing. -/
theorem planNote_settled (hsuits : Suits codec T destination)
    (hT : ∀ e ∈ tree.entries codec, e ∈ T)
    (hread : ReadFiles codec cutoff tree.journalFiles read) {row : LatestRow} {e : Entry}
    (hrow : RowOf codec tree row e) (hdue : ¬ tree.Due codec destination cutoff e)
    (state : NotesState) :
    planNote codec destination tree.views read.foldOrigins state row = .ok state := by
  have hparse := parseLine_dump (hsuits.digestible.recordable e (hT e hrow.newest.mem))
  obtain ⟨content, hcontent, -⟩ := hsuits.renders e (hT e hrow.newest.mem)
    (memoryState (tree.entries codec) e)
  unfold planNote
  rw [hrow.line, hparse]
  simp only [bind, Except.bind, Tree.find_view, hrow.origin, hrow.state]
  by_cases hold : ∃ f ∈ tree.oldRecords codec cutoff, f.origin = e.origin
  · rw [hread.contains_origin.mpr hold, hcontent]
    have hcurrent : tree.blob (.note e.memoryId) = some content := by
      by_contra hne
      refine hdue ⟨hrow.newest, Or.inl hold, fun c hc => ?_⟩
      rw [Destination.currentNote, hcontent] at hc
      exact Except.ok.inj hc ▸ hne
    simp [hcurrent, pure, Except.pure]
  · have hcontains : read.foldOrigins.contains e.origin = false := by
      rw [← Bool.not_eq_true, hread.contains_origin]
      exact hold
    rw [hcontains]
    cases hblob : tree.blob (.note e.memoryId) with
    | none => simp [pure, Except.pure]
    | some data =>
      have hcurrent : data = content := by
        by_contra hne
        refine hdue ⟨hrow.newest, Or.inr (by rw [hblob]; rfl), fun c hc => ?_⟩
        rw [Destination.currentNote, hcontent] at hc
        rw [hblob, ← Except.ok.inj hc]
        exact fun heq => hne (Option.some.inj heq)
      rw [hcontent]
      simp [hcurrent, pure, Except.pure]

/-- A note that is due is written or left for the next round. -/
theorem planNote_due (hsuits : Suits codec T destination)
    (hT : ∀ e ∈ tree.entries codec, e ∈ T)
    (hread : ReadFiles codec cutoff tree.journalFiles read)
    (hvalid : tree.Validated codec destination) {row : LatestRow} {e : Entry}
    (hrow : RowOf codec tree row e) (hdue : tree.Due codec destination cutoff e)
    {content : Bytes} (hcontent : destination.currentNote (tree.entries codec) e = .ok content)
    (state : NotesState) :
    planNote codec destination tree.views read.foldOrigins state row =
      if destination.maxBatchEntries ≤ state.notes ∨
          destination.maxBatchBytes < state.writtenBytes + content.length then
        .ok { state with pendingNotes := state.pendingNotes + 1 }
      else .ok {
        updates := state.updates ++ [.write (.note e.memoryId) content]
        pendingNotes := state.pendingNotes
        writtenBytes := state.writtenBytes + content.length
        notes := state.notes + 1 } := by
  have hparse := parseLine_dump (hsuits.digestible.recordable e (hT e hrow.newest.mem))
  have hrequired : (!read.foldOrigins.contains e.origin && (tree.blob (.note e.memoryId)).isNone) =
      false := by
    rw [Bool.and_eq_false_iff]
    rcases hdue.required with hold | hnote
    · rw [hread.contains_origin.mpr hold]
      exact Or.inl rfl
    · obtain ⟨data, hdata⟩ := Option.isSome_iff_exists.mp hnote
      rw [hdata]
      exact Or.inr rfl
  have hne := hdue.outdated content hcontent
  have hvalidated : (tree.blob (.note e.memoryId)).elim (.ok ())
      (fun data => destination.validateNote data e.memoryId false) = .ok () := by
    cases hblob : tree.blob (.note e.memoryId) with
    | none => rfl
    | some data =>
      refine (hvalid e hrow.newest data hblob).resolve_left fun hcurrent => hne ?_
      rw [hblob, Except.ok.inj (hcurrent.symm.trans hcontent)]
  have hscan := hsuits.scans e (hT e hrow.newest.mem)
  unfold planNote
  rw [hrow.line, hparse]
  rw [Destination.currentNote] at hcontent
  simp only [bind, Except.bind, Tree.find_view, hrow.origin, hrow.state, hcontent]
  rw [hrequired, if_neg (by simp), if_neg hne, hvalidated]
  by_cases hfull : destination.maxBatchEntries ≤ state.notes ∨
      destination.maxBatchBytes < state.writtenBytes + content.length
  · rw [if_pos hfull, if_pos hfull]
    rfl
  · rw [if_neg hfull, if_neg hfull, hscan]
    cases memoryState (tree.entries codec) e <;> rfl

/-- What the notes loop has after some rows. -/
structure Noting (codec : LineCodec) (destination : Destination) (cutoff : Day) (tree : Tree)
    (done : List LatestRow) (state : NotesState) : Prop where
  writes : ∀ u ∈ state.updates, ∃ e content, tree.Due codec destination cutoff e ∧
    destination.currentNote (tree.entries codec) e = .ok content ∧
    u = .write (.note e.memoryId) content
  complete : state.pendingNotes = 0 → ∀ row ∈ done, ∀ e, RowOf codec tree row e →
    tree.Due codec destination cutoff e → ∀ content,
      destination.currentNote (tree.entries codec) e = .ok content →
        Update.write (.note e.memoryId) content ∈ state.updates
  progress : (∃ row ∈ done, ∃ e, RowOf codec tree row e ∧ tree.Due codec destination cutoff e) →
    state.updates ≠ []
  idle : (∀ row ∈ done, ∀ e, RowOf codec tree row e → ¬ tree.Due codec destination cutoff e) →
    state = ⟨[], 0, 0, 0⟩
  unspent : state.updates = [] → state.notes = 0 ∧ state.writtenBytes = 0

/-- **The notes loop** writes what fits of the notes that are due, at least the
    first, and nothing else. -/
theorem planNotes_ok (hsuits : Suits codec T destination)
    (hT : ∀ e ∈ tree.entries codec, e ∈ T)
    (hread : ReadFiles codec cutoff tree.journalFiles read)
    (hvalid : tree.Validated codec destination) {rows : List LatestRow}
    (hrows : ∀ row ∈ rows, row ∈ read.index.latest) :
    ∃ state, rows.foldlM (planNote codec destination tree.views read.foldOrigins) ⟨[], 0, 0, 0⟩ =
      .ok state ∧ Noting codec destination cutoff tree rows state := by
  refine foldlM_succeeds (Noting codec destination cutoff tree) ?_ ?_
  · intro done row rest state hsplit hdone
    obtain ⟨e, hrow⟩ := hread.row (hrows row (by simp [hsplit]))
    have hunique : ∀ e', RowOf codec tree row e' → e' = e := by
      intro e' hrow'
      have hline := hrow'.line.symm.trans hrow.line
      have hparse := parseLine_dump (hsuits.digestible.recordable e' (hT e' hrow'.newest.mem))
      rw [hline, parseLine_dump (hsuits.digestible.recordable e (hT e hrow.newest.mem))] at hparse
      exact (Except.ok.inj hparse).symm
    by_cases hdue : tree.Due codec destination cutoff e
    · obtain ⟨content, hcontent, hbytes, -⟩ := hsuits.renders e (hT e hrow.newest.mem)
        (memoryState (tree.entries codec) e)
      have hstep := planNote_due hsuits hT hread hvalid hrow hdue hcontent state
      have hnotIdle : ¬ ∀ r ∈ done ++ [row], ∀ e', RowOf codec tree r e' →
          ¬ tree.Due codec destination cutoff e' :=
        fun hnone => hnone row (by simp) e hrow hdue
      split at hstep
      · -- no room: some note was written before this one
        next hfull =>
        refine ⟨_, hstep, hdone.writes, fun hzero => absurd hzero (Nat.succ_ne_zero _), ?_,
          fun hnone => absurd hnone hnotIdle, hdone.unspent⟩
        intro _ hempty
        obtain ⟨hnotes, hwritten⟩ := hdone.unspent hempty
        have := hsuits.batch
        rcases hfull with hfull | hfull <;> omega
      · refine ⟨_, hstep, ?_, ?_, by simp, fun hnone => absurd hnone hnotIdle, by simp⟩
        · intro u hu
          rcases List.mem_append.mp hu with hu | hu
          · exact hdone.writes u hu
          · exact ⟨e, content, hdue, hcontent, List.mem_singleton.mp hu⟩
        · intro hzero r hr e' hr' hdue' content' hcontent'
          rcases List.mem_append.mp hr with hr | hr
          · exact List.mem_append_left _ (hdone.complete hzero r hr e' hr' hdue' content' hcontent')
          · obtain rfl := List.mem_singleton.mp hr
            obtain rfl := hunique e' hr'
            cases hcontent'.symm.trans hcontent
            simp
    · refine ⟨state, planNote_settled hsuits hT hread hrow hdue state, hdone.writes, ?_, ?_, ?_,
        hdone.unspent⟩
      · intro hzero r hr e' hr' hdue'
        rcases List.mem_append.mp hr with hr | hr
        · exact hdone.complete hzero r hr e' hr' hdue'
        · obtain rfl := List.mem_singleton.mp hr
          exact absurd (hunique e' hr' ▸ hdue') hdue
      · rintro ⟨r, hr, e', hr', hdue'⟩
        rcases List.mem_append.mp hr with hr | hr
        · exact hdone.progress ⟨r, hr, e', hr', hdue'⟩
        · obtain rfl := List.mem_singleton.mp hr
          exact absurd (hunique e' hr' ▸ hdue') hdue
      · exact fun hnone => hdone.idle fun r hr => hnone r (List.mem_append_left _ hr)
  · exact ⟨by simp, by simp, by simp, fun _ => rfl, fun _ => ⟨rfl, rfl⟩⟩

end

/-! ### The tree after a fold -/

/-- What an update leaves at the path it is about. -/
def Update.result : Update → Option (Path × Option Bytes)
  | .write path content => some (path, some content)
  | .delete path => some (path, none)
  | .catalog _ => none

theorem Tree.blob_update (tree : Tree) (u : Update) (path : Path) :
    (tree.update u).blob path =
      match u.result with
      | some (p, value) => if path = p then value else tree.blob path
      | none => tree.blob path := by
  cases u with
  | write p content => exact Tree.blob_write tree p path content
  | delete p => exact Tree.blob_delete tree p path
  | catalog c => rfl

/-- **A path after some updates**: what it held, or what one of them left there. -/
theorem Tree.blob_apply (tree : Tree) (updates : List Update) (path : Path) :
    ((tree.apply updates).blob path = tree.blob path ∧
        ∀ u ∈ updates, ∀ value, u.result ≠ some (path, value)) ∨
      ∃ u ∈ updates, u.result = some (path, (tree.apply updates).blob path) := by
  induction updates using List.reverseRecOn with
  | nil => exact Or.inl ⟨rfl, by simp⟩
  | append_singleton us u ih =>
    rw [Tree.apply_append, Tree.apply_cons, Tree.apply_nil, Tree.blob_update]
    by_cases hmatch : ∃ value, u.result = some (path, value)
    · obtain ⟨value, hvalue⟩ := hmatch
      refine Or.inr ⟨u, by simp, ?_⟩
      simp [hvalue]
    · have hkeep : (match u.result with
          | some (p, value) => if path = p then value else (tree.apply us).blob path
          | none => (tree.apply us).blob path) = (tree.apply us).blob path := by
        split
        · next p value hresult =>
          rw [if_neg]
          rintro rfl
          exact hmatch ⟨value, hresult⟩
        · rfl
      rw [hkeep]
      rcases ih with ⟨hsame, hnone⟩ | ⟨u', hu', hresult⟩
      · refine Or.inl ⟨hsame, fun u' hu' value => ?_⟩
        rcases List.mem_append.mp hu' with hu' | hu'
        · exact hnone u' hu' value
        · rw [List.mem_singleton.mp hu']
          exact fun hresult => hmatch ⟨value, hresult⟩
      · exact Or.inr ⟨u', List.mem_append_left _ hu', hresult⟩

/-- A path no update is about. -/
theorem Tree.blob_apply_untouched {updates : List Update} {path : Path}
    (h : ∀ u ∈ updates, ∀ value, u.result ≠ some (path, value)) (tree : Tree) :
    (tree.apply updates).blob path = tree.blob path := by
  rcases tree.blob_apply updates path with ⟨hsame, -⟩ | ⟨u, hu, hresult⟩
  · exact hsame
  · exact absurd hresult (h u hu _)

/-- A path the updates agree on. -/
theorem Tree.blob_apply_touched {updates : List Update} {path : Path} {value : Option Bytes}
    (hall : ∀ u ∈ updates, ∀ v, u.result = some (path, v) → v = value)
    (hmem : ∃ u ∈ updates, u.result = some (path, value)) (tree : Tree) :
    (tree.apply updates).blob path = value := by
  rcases tree.blob_apply updates path with ⟨-, hnone⟩ | ⟨u, hu, hresult⟩
  · obtain ⟨u, hu, hresult⟩ := hmem
    exact absurd hresult (hnone u hu value)
  · exact hall u hu _ hresult

/-- The catalog changes with its own update only. -/
theorem Tree.catalog_apply {updates : List Update} (h : ∀ u ∈ updates, u.result ≠ none)
    (tree : Tree) : (tree.apply updates).catalog = tree.catalog := by
  induction updates generalizing tree with
  | nil => rfl
  | cons u us ih =>
    rw [Tree.apply_cons, ih fun u' hu' => h u' (List.mem_cons_of_mem _ hu')]
    cases u with
    | write p content => rfl
    | delete p => rfl
    | catalog c => exact absurd rfl (h _ List.mem_cons_self)

/-- The two updates of an archive move. -/
def archiveUpdates (file : Relative × Bytes) : List Update :=
  [.write (.journal true file.1) file.2, .delete (.journal false file.1)]

section

variable {codec : LineCodec} {T : Set Entry} {destination : Destination} {cutoff : Day}
  {tree : Tree} {published : Finset Entry} {series : SeriesMap}

/-- Moves to free paths of the archive. -/
theorem moveFiles_ok {chosen : List (Relative × Bytes)}
    (hfree : ∀ file ∈ chosen, tree.blob (.journal true file.1) = none) (state : MoveState) :
    ∃ state', chosen.foldlM (moveFile destination tree.journalFiles) state = .ok state' ∧
      state'.updates = state.updates ++ chosen.flatMap archiveUpdates ∧
      state'.archivedFiles = state.archivedFiles + chosen.length := by
  induction chosen generalizing state with
  | nil => exact ⟨state, rfl, by simp, rfl⟩
  | cons file chosen ih =>
    obtain ⟨relative, addition⟩ := file
    have hnone : tree.journalFiles.find? (fun f => f.1 = true ∧ f.2.1 = relative) = none := by
      rw [List.find?_eq_none]
      intro f hf hmatch
      obtain ⟨harchived, hrelative⟩ := of_decide_eq_true hmatch
      have hblob := Tree.mem_journalFiles.mp hf
      rw [harchived, hrelative, hfree (relative, addition) List.mem_cons_self] at hblob
      cases hblob
    obtain ⟨state', hstate', hupdates, hcount⟩ := ih
      (fun f hf => hfree f (List.mem_cons_of_mem _ hf)) { state with
        updates := state.updates ++ [.write (.journal true relative) addition] ++
          [.delete (.journal false relative)]
        archivedFiles := state.archivedFiles + 1
        archivedBytes := state.archivedBytes + addition.length }
    refine ⟨state', ?_, ?_, ?_⟩
    · rw [List.foldlM_cons, bind_eq_ok]
      refine ⟨_, ?_, hstate'⟩
      simp only [moveFile, hnone, Option.map_none]
    · rw [hupdates, List.flatMap_cons]
      simp [archiveUpdates]
    · rw [hcount, List.length_cons]
      dsimp only
      omega

theorem Tree.mem_dayFiles {file : Relative × Bytes} : file ∈ tree.dayFiles cutoff ↔
    tree.blob (.journal false file.1) = some file.2 ∧ file.1.day < cutoff := by
  unfold Tree.dayFiles
  rw [List.mem_filterMap]
  constructor
  · rintro ⟨⟨archived, relative, content⟩, hf, hsome⟩
    obtain ⟨⟨hday, hlive⟩, heq⟩ := Option.ite_none_right_eq_some.mp hsome
    dsimp only at hlive
    subst hlive
    have hblob := Tree.mem_journalFiles.mp hf
    exact Option.some.inj heq ▸ ⟨hblob, hday⟩
  · rintro ⟨hblob, hday⟩
    refine ⟨(false, file), Tree.mem_journalFiles.mpr hblob, ?_⟩
    exact if_pos ⟨hday, rfl⟩

/-- A live file has no archived copy. -/
theorem Represents.free (h : Represents codec T tree published series) {relative : Relative}
    {content : Bytes} (hlive : tree.blob (.journal false relative) = some content) :
    tree.blob (.journal true relative) = none := by
  obtain ⟨day, writer, part⟩ := relative
  rw [h.stores.files day writer false part, Series.view_eq_some] at hlive
  obtain ⟨p, hp, hlive, -⟩ := hlive
  rw [h.stores.files day writer true part, Series.view, hp]
  simp [hlive]

/-- **One round.**  What `_plan` makes of a tree: the notes it brings up to date and
    the day files `chosen` that it moves. -/
structure Round (codec : LineCodec) (destination : Destination) (cutoff : Day) (tree : Tree)
    (updates : List Update) (report : FoldReport) (chosen : List (Relative × Bytes)) : Prop where
  old : ∀ file ∈ chosen, file ∈ tree.dayFiles cutoff
  live : ∀ relative, (tree.apply updates).blob (.journal false relative) =
    if relative ∈ chosen.map (·.1) then none else tree.blob (.journal false relative)
  archive : ∀ relative, (tree.apply updates).blob (.journal true relative) =
    if relative ∈ chosen.map (·.1) then tree.blob (.journal false relative)
    else tree.blob (.journal true relative)
  catalog : (tree.apply updates).catalog = tree.catalog
  note : ∀ m, (tree.apply updates).blob (.note m) = tree.blob (.note m) ∨
    ∃ e content, tree.Due codec destination cutoff e ∧ e.memoryId = m ∧
      destination.currentNote (tree.entries codec) e = .ok content ∧
      (tree.apply updates).blob (.note m) = some content
  written : report.pendingNotes = 0 → ∀ e, tree.Due codec destination cutoff e → ∀ content,
    destination.currentNote (tree.entries codec) e = .ok content →
      (tree.apply updates).blob (.note e.memoryId) = some content
  progress : (∃ e, tree.Due codec destination cutoff e) →
    ∃ e content, tree.Due codec destination cutoff e ∧
      destination.currentNote (tree.entries codec) e = .ok content ∧
      (tree.apply updates).blob (.note e.memoryId) = some content
  gate : chosen ≠ [] → report.pendingNotes = 0
  moves : report.pendingNotes = 0 → tree.dayFiles cutoff ≠ [] → chosen ≠ []
  pendingFiles : report.pendingFiles = (tree.dayFiles cutoff).length - chosen.length
  settled : (∀ e, ¬ tree.Due codec destination cutoff e) → report.pendingNotes = 0
  idle : (∀ e, ¬ tree.Due codec destination cutoff e) → tree.dayFiles cutoff = [] → updates = []

/-- A memory has one newest record. -/
theorem Newest.unique (hsuits : Suits codec T destination) (hT : ∀ e ∈ tree.entries codec, e ∈ T)
    {e f : Entry} (he : Newest (tree.entries codec) e) (hf : Newest (tree.entries codec) f)
    (hmemory : e.memoryId = f.memoryId) : e = f := by
  have hscope := hsuits.scope e (hT e he.mem)
  have hscope' := hsuits.scope f (hT f hf.mem)
  have horigin : e.origin = f.origin := by
    simp only [Entry.origin, hscope.1, hscope.2, hscope'.1, hscope'.2, hmemory]
  apply hsuits.identities e (hT e he.mem) f (hT f hf.mem)
  refine Or.inr ⟨horigin, Nat.le_antisymm ?_ ?_⟩
  · exact hf.highest e he.mem horigin
  · exact he.highest f hf.mem horigin.symm

/-- **The tree after a list of notes and moves.** -/
theorem blob_filed (hsuits : Suits codec T destination) (hT : ∀ e ∈ tree.entries codec, e ∈ T)
    {notes : List Update} {chosen : List (Relative × Bytes)}
    (hnotes : ∀ u ∈ notes, ∃ e content, tree.Due codec destination cutoff e ∧
      destination.currentNote (tree.entries codec) e = .ok content ∧
      u = .write (.note e.memoryId) content)
    (hchosen : ∀ file ∈ chosen, tree.blob (.journal false file.1) = some file.2) :
    (∀ relative, (tree.apply (notes ++ chosen.flatMap archiveUpdates)).blob (.journal false relative) =
      if relative ∈ chosen.map (·.1) then none else tree.blob (.journal false relative)) ∧
    (∀ relative, (tree.apply (notes ++ chosen.flatMap archiveUpdates)).blob (.journal true relative) =
      if relative ∈ chosen.map (·.1) then tree.blob (.journal false relative)
      else tree.blob (.journal true relative)) ∧
    (∀ e content, tree.Due codec destination cutoff e →
      destination.currentNote (tree.entries codec) e = .ok content →
        Update.write (.note e.memoryId) content ∈ notes →
          (tree.apply (notes ++ chosen.flatMap archiveUpdates)).blob (.note e.memoryId) =
            some content) ∧
    (∀ m, (∀ content, Update.write (.note m) content ∉ notes) →
      (tree.apply (notes ++ chosen.flatMap archiveUpdates)).blob (.note m) = tree.blob (.note m)) := by
  -- what each update is about
  have hcases : ∀ u ∈ notes ++ chosen.flatMap archiveUpdates, ∀ path value,
      u.result = some (path, value) →
        (∃ e content, tree.Due codec destination cutoff e ∧
          destination.currentNote (tree.entries codec) e = .ok content ∧
          Update.write (.note e.memoryId) content ∈ notes ∧
          path = .note e.memoryId ∧ value = some content) ∨
        (∃ file ∈ chosen, path = .journal true file.1 ∧ value = some file.2) ∨
        ∃ file ∈ chosen, path = .journal false file.1 ∧ value = none := by
    intro u hu path value hresult
    rcases List.mem_append.mp hu with hu | hu
    · obtain ⟨e, content, hdue, hcontent, rfl⟩ := hnotes u hu
      cases hresult
      exact Or.inl ⟨e, content, hdue, hcontent, hu, rfl, rfl⟩
    · obtain ⟨file, hfile, hu⟩ := List.mem_flatMap.mp hu
      rcases List.mem_cons.mp hu with rfl | hu
      · cases hresult
        exact Or.inr (Or.inl ⟨file, hfile, rfl, rfl⟩)
      · rw [List.mem_singleton.mp hu] at hresult
        cases hresult
        exact Or.inr (Or.inr ⟨file, hfile, rfl, rfl⟩)
  have hmoved : ∀ file ∈ chosen, ∀ u ∈ archiveUpdates file,
      u ∈ notes ++ chosen.flatMap archiveUpdates := fun file hfile u hu =>
    List.mem_append_right _ (List.mem_flatMap.mpr ⟨file, hfile, hu⟩)
  refine ⟨fun relative => ?_, fun relative => ?_, ?_, ?_⟩
  · split
    · next hmem =>
      obtain ⟨file, hfile, rfl⟩ := List.mem_map.mp hmem
      refine Tree.blob_apply_touched ?_
        ⟨.delete (.journal false file.1), hmoved file hfile _ (by simp [archiveUpdates]), rfl⟩ tree
      intro u hu value hresult
      rcases hcases u hu _ _ hresult with ⟨e, c, -, -, -, hpath, -⟩ | ⟨f, -, hpath, -⟩ | ⟨f, -, -, hvalue⟩
      · cases hpath
      · cases hpath
      · exact hvalue
    · next hmem =>
      refine Tree.blob_apply_untouched ?_ tree
      intro u hu value hresult
      rcases hcases u hu _ _ hresult with ⟨e, c, -, -, -, hpath, -⟩ | ⟨f, -, hpath, -⟩ | ⟨f, hf, hpath, -⟩
      · cases hpath
      · cases hpath
      · cases hpath
        exact hmem (List.mem_map_of_mem hf)
  · split
    · next hmem =>
      obtain ⟨file, hfile, rfl⟩ := List.mem_map.mp hmem
      rw [hchosen file hfile]
      refine Tree.blob_apply_touched ?_
        ⟨.write (.journal true file.1) file.2, hmoved file hfile _ (by simp [archiveUpdates]), rfl⟩ tree
      intro u hu value hresult
      rcases hcases u hu _ _ hresult with ⟨e, c, -, -, -, hpath, -⟩ | ⟨f, hf, hpath, rfl⟩ | ⟨f, -, hpath, -⟩
      · cases hpath
      · have hsame : f.1 = file.1 := (Path.journal.inj hpath).2.symm
        rw [← hchosen f hf, hsame, hchosen file hfile]
      · cases hpath
    · next hmem =>
      refine Tree.blob_apply_untouched ?_ tree
      intro u hu value hresult
      rcases hcases u hu _ _ hresult with ⟨e, c, -, -, -, hpath, -⟩ | ⟨f, hf, hpath, -⟩ | ⟨f, -, hpath, -⟩
      · cases hpath
      · cases hpath
        exact hmem (List.mem_map_of_mem hf)
      · cases hpath
  · intro e content hdue hcontent hwrite
    refine Tree.blob_apply_touched ?_ ⟨_, List.mem_append_left _ hwrite, rfl⟩ tree
    intro u hu value hresult
    rcases hcases u hu _ _ hresult with ⟨f, c, hdue', hc, -, hpath, rfl⟩ | ⟨f, -, hpath, -⟩ | ⟨f, -, hpath, -⟩
    · obtain rfl := hdue.newest.unique hsuits hT hdue'.newest (Path.note.inj hpath)
      rw [Except.ok.inj (hc.symm.trans hcontent)]
    · cases hpath
    · cases hpath
  · intro m hno
    refine Tree.blob_apply_untouched ?_ tree
    intro u hu value hresult
    rcases hcases u hu _ _ hresult with ⟨f, c, -, -, hwrite, hpath, -⟩ | ⟨f, -, hpath, -⟩ | ⟨f, -, hpath, -⟩
    · cases hpath
      exact hno c hwrite
    · cases hpath
    · cases hpath

/-- **A fold succeeds and does one round.** -/
theorem plan_round (hsuits : Suits codec T destination)
    (h : Represents codec T tree published series) (hbounded : tree.Bounded codec cutoff)
    (hcatalog : ∀ c, tree.catalog = some c →
      c.tenantId = destination.tenantId ∧ c.spaceId = destination.spaceId)
    (hviews : ∀ m data, tree.blob (.note m) = some data → data.length ≤ MAX_FILE_BYTES)
    (hvalid : tree.Validated codec destination) :
    ∃ updates report chosen, plan codec destination tree cutoff = .ok (updates, report) ∧
      Round codec destination cutoff tree updates report chosen := by
  have hrec := hsuits.digestible.recordable
  have hT : ∀ e ∈ tree.entries codec, e ∈ T := by
    intro e he
    rw [h.mem_entries hrec, h.stores.published] at he
    exact (h.stores.ok _ _).submitted e he
  obtain ⟨c, hc, hcount, hversion⟩ := h.counts.catalog
  have hread : readCatalog destination (some tree) = .ok c := by
    simp only [readCatalog, headTree, Option.getD_some, hc, bind_eq_ok, check_eq_ok, pure_eq_ok]
    exact ⟨(), hcatalog c hc, trivial⟩
  obtain ⟨read, hreadFiles, hfiles⟩ := readJournalFiles_ok hsuits h hbounded hversion
  have hrows : ∀ row, row ∈ noteOrder read.index.latest ↔ row ∈ read.index.latest :=
    fun row => List.mem_mergeSort
  obtain ⟨noted, hnoted, hnotes⟩ := planNotes_ok hsuits hT hfiles hvalid
    fun row (hrow : row ∈ noteOrder read.index.latest) => (hrows row).mp hrow
  have hrow : ∀ e, tree.Due codec destination cutoff e →
      ∃ row ∈ noteOrder read.index.latest, RowOf codec tree row e := by
    intro e hdue
    obtain ⟨row, hmem, hrow⟩ := hfiles.row_of hsuits.identities hT hdue.newest
    exact ⟨row, (hrows row).mpr hmem, hrow⟩
  have hday : read.eligible = tree.dayFiles cutoff := hfiles.eligible
  set chosen := if noted.pendingNotes = 0 then
      (read.eligible.mergeSort fun a b =>
        (Path.journal false a.1).le (.journal false b.1)).take destination.maxBatchEntries
    else [] with hchosen
  have hold : ∀ file ∈ chosen, file ∈ tree.dayFiles cutoff := by
    intro file hfile
    rw [hchosen] at hfile
    split at hfile
    · rw [← hday]
      exact List.mem_mergeSort.mp (List.mem_of_mem_take hfile)
    · simp at hfile
  have hlive : ∀ file ∈ chosen, tree.blob (.journal false file.1) = some file.2 :=
    fun file hfile => (Tree.mem_dayFiles.mp (hold file hfile)).1
  obtain ⟨moved, hmoved, hupdates, hcountMoved⟩ := @moveFiles_ok destination _ _
    (fun file hfile => h.free (hlive file hfile)) ⟨noted.updates, noted.writtenBytes, 0, 0⟩
  dsimp only at hupdates hcountMoved
  obtain ⟨htreeLive, htreeArchive, htreeNote, htreeOther⟩ :=
    blob_filed hsuits hT hnotes.writes hlive
  rw [← hupdates] at htreeLive htreeArchive htreeNote htreeOther
  have hwrites : ∀ e, tree.Due codec destination cutoff e → ∃ content,
      destination.currentNote (tree.entries codec) e = .ok content := by
    intro e hdue
    obtain ⟨content, hcontent, -⟩ := hsuits.renders e (hT e hdue.newest.mem) _
    exact ⟨content, hcontent⟩
  refine ⟨moved.updates, {
    notes := noted.notes
    archivedFiles := moved.archivedFiles
    archivedBytes := moved.archivedBytes
    pendingNotes := noted.pendingNotes
    pendingFiles := read.eligible.length - moved.archivedFiles
    readBytes := (tree.journalFiles.map (·.2.2.length)).sum
    writtenBytes := moved.writtenBytes
    description := read.index.describe }, chosen, ?_, ?_⟩
  · simp only [plan, bind_eq_ok, check_eq_ok, pure_eq_ok]
    exact ⟨(tree.journalFiles, tree.views), foldInventory_ok hrec h hbounded hviews, c, hread, read,
      hreadFiles, (), completeSeries_read hrec h hfiles, (), (hfiles.records hrec h).trans hcount.symm,
      noted, hnoted, moved, hmoved, rfl⟩
  · refine ⟨hold, htreeLive, htreeArchive, ?_, ?_, ?_, ?_, ?_, ?_, ?_, ?_, ?_⟩
    · apply Tree.catalog_apply
      intro u hu
      rw [hupdates] at hu
      rcases List.mem_append.mp hu with hu | hu
      · obtain ⟨e, content, -, -, rfl⟩ := hnotes.writes u hu
        simp [Update.result]
      · obtain ⟨file, -, hu⟩ := List.mem_flatMap.mp hu
        rcases List.mem_cons.mp hu with rfl | hu
        · simp [Update.result]
        · rw [List.mem_singleton.mp hu]
          simp [Update.result]
    · intro m
      by_cases hwritten : ∃ content, Update.write (.note m) content ∈ noted.updates
      · obtain ⟨content, hmem⟩ := hwritten
        obtain ⟨e, content', hdue, hcontent, heq⟩ := hnotes.writes _ hmem
        cases heq
        exact Or.inr ⟨e, content, hdue, rfl, hcontent, htreeNote e content hdue hcontent hmem⟩
      · exact Or.inl (htreeOther m fun content hmem => hwritten ⟨content, hmem⟩)
    · intro hzero e hdue content hcontent
      obtain ⟨row, hmem, hrowOf⟩ := hrow e hdue
      exact htreeNote e content hdue hcontent
        (hnotes.complete hzero row hmem e hrowOf hdue content hcontent)
    · rintro ⟨e, hdue⟩
      obtain ⟨row, hmem, hrowOf⟩ := hrow e hdue
      obtain ⟨u, hu⟩ := List.exists_mem_of_ne_nil _ (hnotes.progress ⟨row, hmem, e, hrowOf, hdue⟩)
      obtain ⟨f, content, hdue', hcontent, rfl⟩ := hnotes.writes u hu
      exact ⟨f, content, hdue', hcontent, htreeNote f content hdue' hcontent hu⟩
    · intro hne
      by_contra hpending
      exact hne (hchosen.trans (if_neg hpending))
    · intro hzero hne hnone
      rw [hchosen, if_pos hzero, List.take_eq_nil_iff] at hnone
      rcases hnone with hnone | hnone
      · have := hsuits.batch
        omega
      · rw [← List.length_eq_zero_iff, List.length_mergeSort, List.length_eq_zero_iff, hday] at hnone
        exact hne hnone
    · dsimp only
      rw [hday, hcountMoved, Nat.zero_add]
    · intro hnone
      have hidle := hnotes.idle fun row _ e _ => hnone e
      rw [hidle]
    · intro hnone hempty
      have hidle := hnotes.idle fun row _ e _ => hnone e
      have hno : chosen = [] := List.eq_nil_iff_forall_not_mem.mpr fun file hfile => by
        have := hold file hfile
        simp [hempty] at this
      rw [hupdates, hidle, hno]
      rfl

end

end Mnemion.Journal
