/-
  Mnemion/JournalCache.lean
  =========================
  **The delivery index as a cache** (`journal/rollover.py`).  What `remember`
  stores of a file is a function of the file alone (`rowsOf`), so a row of a
  reachable index says what its object holds, whatever calls put it there
  (`Cached`).  An append therefore goes as it does from an empty index
  (`delivery_index_transparent`) as long as the files of the series do not
  contradict each other: two files that were cached apart are never compared.
-/
import Mnemion.JournalIndex
import Mnemion.JournalAppend
import Mnemion.Machine

namespace Mnemion.Journal

open Outcome ByteLines

variable {codec : LineCodec} {scope : Entry → Except JournalError Unit}

/-! ### Reading one file -/

/-- The pieces `parse_file` reads, and whether the file is too large. -/
def filePieces (data : Bytes) : List Bytes × Bool := cut (MAX_LINE_BYTES + 1) MAX_FILE_BYTES data

/-- What `remember` asks of a line by itself. -/
def readEntry (codec : LineCodec) (scope : Entry → Except JournalError Unit) (relative : Relative)
    (value : Bytes) : Except JournalError Entry := do
  let entry ← parseLine codec value
  scope entry
  check (matchesPath entry relative) .journalRecordPathMismatch
  return entry

/-- The records of a file, or the first error in it. -/
def readFile (codec : LineCodec) (scope : Entry → Except JournalError Unit) (segment : Segment) :
    Except JournalError (List Entry) := do
  let entries ← (filePieces segment.oid).1.mapM (readEntry codec scope segment.relative)
  check ((filePieces segment.oid).2 = false) .journalFileTooLarge
  return entries

/-- The results before the first failure. -/
def untilError {ε α β : Type} (f : α → Except ε β) : List α → List β
  | [] => []
  | a :: as =>
    match f a with
    | .ok b => b :: untilError f as
    | .error _ => []

/-- The records of a file that are read before an error stops the reader. -/
def readable (codec : LineCodec) (scope : Entry → Except JournalError Unit) (segment : Segment) :
    List Entry :=
  untilError (readEntry codec scope segment.relative) (filePieces segment.oid).1

theorem untilError_eq {ε α β : Type} {f : α → Except ε β} {as : List α} {bs : List β}
    (h : as.mapM f = .ok bs) : untilError f as = bs := by
  induction as generalizing bs with
  | nil =>
    cases h
    rfl
  | cons a as ih =>
    simp only [List.mapM_cons, bind_eq_ok, pure_eq_ok] at h
    obtain ⟨b, hb, rest, hrest, rfl⟩ := h
    simp only [untilError, hb, ih hrest]

theorem readable_eq {segment : Segment} {entries : List Entry}
    (h : readFile codec scope segment = .ok entries) : readable codec scope segment = entries := by
  simp only [readFile, bind_eq_ok, pure_eq_ok] at h
  obtain ⟨read, hread, -, -, rfl⟩ := h
  exact untilError_eq hread

/-- A record that was read has a digest. -/
theorem parseLine_digest {value : Bytes} {entry : Entry} (h : parseLine codec value = .ok entry) :
    entry.digest codec = .ok (entryDigest codec entry) := by
  simp only [parseLine, bind_eq_ok] at h
  obtain ⟨-, -, h⟩ := h
  split at h
  · cases h
  · split at h
    · next line hline =>
      cases pure_eq_ok.mp h
      obtain ⟨rfl, -⟩ := line_eq_ok.mp hline
      simp [Entry.digest, hline, entryDigest, bind, Except.bind, pure, Except.pure]
    · cases h

/-! ### The rows of one file -/

def rowOf (codec : LineCodec) (path : Path) (entry : Entry) : EventRow :=
  ⟨path, entry.id, entryDigest codec entry, entry.origin, entry.version⟩

/-- `INSERT OR IGNORE` among the rows of one path. -/
def addRow (codec : LineCodec) (path : Path) (rows : List EventRow) (entry : Entry) :
    List EventRow :=
  if rows.any (·.id = entry.id) then rows else rows ++ [rowOf codec path entry]

/-- The event rows of a file that holds these records. -/
def rowsOf (codec : LineCodec) (path : Path) (entries : List Entry) : List EventRow :=
  entries.foldl (addRow codec path) []

theorem rowsOf_append (path : Path) (entries : List Entry) (entry : Entry) :
    rowsOf codec path (entries ++ [entry]) =
      addRow codec path (rowsOf codec path entries) entry := by
  simp [rowsOf]

/-- Every row is that of a record. -/
theorem mem_rowsOf {path : Path} {entries : List Entry} {row : EventRow}
    (h : row ∈ rowsOf codec path entries) : ∃ e ∈ entries, row = rowOf codec path e := by
  induction entries using List.reverseRecOn with
  | nil => simp [rowsOf] at h
  | append_singleton entries entry ih =>
    rw [rowsOf_append, addRow] at h
    split at h
    · obtain ⟨e, he, heq⟩ := ih h
      exact ⟨e, List.mem_append_left _ he, heq⟩
    · rcases List.mem_append.mp h with h | h
      · obtain ⟨e, he, heq⟩ := ih h
        exact ⟨e, List.mem_append_left _ he, heq⟩
      · exact ⟨entry, by simp, List.mem_singleton.mp h⟩

theorem rowsOf_path {path : Path} {entries : List Entry} {row : EventRow}
    (h : row ∈ rowsOf codec path entries) : row.path = path := by
  obtain ⟨e, -, rfl⟩ := mem_rowsOf h
  rfl

/-- The records of a file with one id have one digest: the one in its row. -/
def Uniform (codec : LineCodec) (path : Path) (entries : List Entry) : Prop :=
  ∀ e ∈ entries, ∃ row ∈ rowsOf codec path entries, row.id = e.id ∧
    row.digest = entryDigest codec e

namespace DeliveryIndex

/-- The index after a file was read completely. -/
def stored (codec : LineCodec) (index : DeliveryIndex) (segment : Segment)
    (entries : List Entry) : DeliveryIndex where
  files := index.files.filter (·.path ≠ segment.path) ++
    [⟨segment.path, segment.oid, entries.length⟩]
  events := index.events.filter (·.path ≠ segment.path) ++ rowsOf codec segment.path entries
  currentFiles := index.currentFiles

/-- The index while the file is read: `entries` came so far. -/
def reading (codec : LineCodec) (index : DeliveryIndex) (segment : Segment)
    (entries : List Entry) : DeliveryIndex :=
  { index.replaceFile segment with
    events := (index.replaceFile segment).events ++ rowsOf codec segment.path entries }

theorem insertEvent_reading (index : DeliveryIndex) (segment : Segment) (entries : List Entry)
    (entry : Entry) :
    (index.reading codec segment entries).insertEvent
        ⟨segment.path, entry.id, entryDigest codec entry, entry.origin, entry.version⟩ =
      index.reading codec segment (entries ++ [entry]) := by
  have hany : ((index.reading codec segment entries).events.any fun e =>
      e.path = segment.path ∧ e.id = entry.id) =
      (rowsOf codec segment.path entries).any (·.id = entry.id) := by
    rw [Bool.eq_iff_iff]
    simp only [reading, replaceFile, List.any_append, Bool.or_eq_true, List.any_eq_true,
      List.mem_filter, decide_eq_true_eq]
    constructor
    · rintro (⟨row, ⟨-, hne⟩, hpath, -⟩ | ⟨row, hrow, -, hid⟩)
      · exact absurd hpath hne
      · exact ⟨row, hrow, hid⟩
    · rintro ⟨row, hrow, hid⟩
      exact Or.inr ⟨row, hrow, rowsOf_path hrow, hid⟩
  rw [insertEvent, hany]
  simp only [reading, rowsOf_append, addRow]
  split
  · rfl
  · rw [List.append_assoc]
    rfl

/-- One line of the file. -/
theorem rememberLine_eq (index : DeliveryIndex) (segment : Segment) (entries : List Entry) (n : Nat)
    (value : Bytes) :
    (do
      let entry ← parseLine codec value
      rememberEntry codec scope segment (index.reading codec segment entries, n) entry) =
    (do
      let entry ← readEntry codec scope segment.relative value
      let _ ← (index.reading codec segment entries).check entry (entryDigest codec entry)
      return (index.reading codec segment (entries ++ [entry]), n + 1)) := by
  simp only [readEntry, bind_assoc]
  cases hparse : parseLine codec value with
  | error e => rfl
  | ok entry =>
    simp only [rememberEntry, parseLine_digest hparse, insertEvent_reading, bind, Except.bind,
      pure, Except.pure]

/-- Every record of the file passes the comparison with the records before it. -/
def Passes (codec : LineCodec) (index : DeliveryIndex) (segment : Segment)
    (entries : List Entry) : Prop :=
  ∀ done entry rest, entries = done ++ entry :: rest →
    ∃ present, (index.reading codec segment done).check entry (entryDigest codec entry) =
      .ok present

/-- The loop of `remember` over the pieces of the file. -/
def readPieces (codec : LineCodec) (scope : Entry → Except JournalError Unit)
    (segment : Segment) (values : List Bytes) (state : DeliveryIndex × Nat) :
    Except JournalError (DeliveryIndex × Nat) :=
  values.foldlM (fun state value => do
    let entry ← parseLine codec value
    rememberEntry codec scope segment state entry) state

theorem readPieces_eq {index : DeliveryIndex} {segment : Segment} {values : List Bytes}
    (hpasses : index.Passes codec segment
      (untilError (readEntry codec scope segment.relative) values)) :
    readPieces codec scope segment values (index.reading codec segment [], 0) =
      (values.mapM (readEntry codec scope segment.relative)).map fun entries =>
        (index.reading codec segment entries, entries.length) := by
  suffices ∀ done : List Entry, (∀ pre entry rest,
      untilError (readEntry codec scope segment.relative) values = pre ++ entry :: rest →
      ∃ present, (index.reading codec segment (done ++ pre)).check entry
        (entryDigest codec entry) = .ok present) →
      readPieces codec scope segment values (index.reading codec segment done, done.length) =
        (values.mapM (readEntry codec scope segment.relative)).map fun entries =>
          (index.reading codec segment (done ++ entries), done.length + entries.length) by
    simpa using this [] (by simpa [Passes] using hpasses)
  clear hpasses
  induction values with
  | nil =>
    intro done _
    simp [readPieces, Except.map, pure, Except.pure]
  | cons value values ih =>
    intro done hpasses
    rw [readPieces, List.foldlM_cons, rememberLine_eq, List.mapM_cons]
    cases hread : readEntry codec scope segment.relative value with
    | error e => rfl
    | ok entry =>
      simp only [untilError, hread] at hpasses
      obtain ⟨present, hcheck⟩ := hpasses [] entry _ rfl
      rw [List.append_nil] at hcheck
      have hrest := ih (done ++ [entry]) fun pre e rest heq => by
        obtain ⟨b, hb⟩ := hpasses (entry :: pre) e rest (by rw [heq]; rfl)
        exact ⟨b, by simpa using hb⟩
      simp only [hcheck, bind, Except.bind, pure, Except.pure]
      rw [List.length_append, List.length_singleton] at hrest
      refine hrest.trans ?_
      cases values.mapM (readEntry codec scope segment.relative) with
      | error e => rfl
      | ok entries => simp [Except.map, Nat.add_comm, Nat.add_left_comm]

theorem readPieces_ok {index : DeliveryIndex} {segment : Segment} {values : List Bytes}
    {state : DeliveryIndex × Nat}
    (h : readPieces codec scope segment values (index.reading codec segment [], 0) = .ok state) :
    ∃ entries, values.mapM (readEntry codec scope segment.relative) = .ok entries ∧
      index.Passes codec segment entries ∧
      state = (index.reading codec segment entries, entries.length) := by
  refine foldlM_prefix_invariant (fun done (state : DeliveryIndex × Nat) => ∃ entries,
    done.mapM (readEntry codec scope segment.relative) = .ok entries ∧
      index.Passes codec segment entries ∧
      state = (index.reading codec segment entries, entries.length)) values ?_ ?_ h
  · rintro done _ value state' _ ⟨entries, hread, hpasses, rfl⟩ hstep
    rw [rememberLine_eq] at hstep
    simp only [bind_eq_ok, pure_eq_ok] at hstep
    obtain ⟨entry, hentry, present, hcheck, rfl⟩ := hstep
    refine ⟨entries ++ [entry], ?_, ?_, by simp⟩
    · simp [List.mapM_append, hread, hentry, bind, Except.bind, pure, Except.pure]
    · intro pre e rest heq
      rcases List.eq_nil_or_concat rest with rfl | ⟨rest, last, rfl⟩
      · obtain ⟨hpre, hlast⟩ := List.append_inj' heq rfl
        obtain rfl := List.singleton_inj.mp hlast
        exact hpre ▸ ⟨present, hcheck⟩
      · have hsplit : entries ++ [entry] = (pre ++ e :: rest) ++ [last] := by simpa using heq
        exact hpasses pre e rest (List.append_inj' hsplit rfl).1
  · refine ⟨[], rfl, ?_, rfl⟩
    intro pre e rest heq
    simp at heq

/-- The record count is set at the end. -/
theorem finish_reading (index : DeliveryIndex) (segment : Segment) (entries : List Entry) :
    ({ index.reading codec segment entries with
      files := (index.reading codec segment entries).files.map fun f =>
        if f.path = segment.path then { f with records := entries.length } else f } :
          DeliveryIndex) = index.stored codec segment entries := by
  have hothers : (index.files.filter (·.path ≠ segment.path)).map (fun f : FileRow =>
      if f.path = segment.path then { f with records := entries.length } else f) =
      index.files.filter (·.path ≠ segment.path) := by
    conv_rhs => rw [← List.map_id (index.files.filter (·.path ≠ segment.path))]
    refine List.map_congr_left fun f hf => ?_
    have hne : f.path ≠ segment.path := by simpa using (List.mem_filter.mp hf).2
    simp [hne]
  simp only [reading, replaceFile, stored, List.map_append, hothers]
  simp

theorem remember_pieces (index : DeliveryIndex) (segment : Segment) :
    index.remember codec scope segment = (do
      let (index, count) ← readPieces codec scope segment (filePieces segment.oid).1
        (index.reading codec segment [], 0)
      Outcome.check ((filePieces segment.oid).2 = false) .journalFileTooLarge
      return { index with files := index.files.map fun f =>
        if f.path = segment.path then { f with records := count } else f }) := by
  have hstart : index.reading codec segment [] = index.replaceFile segment := by
    simp [reading, rowsOf]
  rw [remember, forParseFile, foldLines_cut, hstart, bind_assoc]
  refine bind_congr fun state => ?_
  unfold Outcome.check filePieces
  cases (cut (MAX_LINE_BYTES + 1) MAX_FILE_BYTES segment.oid).2 <;> rfl

/-- **Reading a file that contradicts nothing** depends on the file alone. -/
theorem remember_eq {index : DeliveryIndex} {segment : Segment}
    (hpasses : index.Passes codec segment (readable codec scope segment)) :
    index.remember codec scope segment =
      (readFile codec scope segment).map (index.stored codec segment) := by
  rw [remember_pieces, readPieces_eq hpasses, readFile]
  cases (filePieces segment.oid).1.mapM (readEntry codec scope segment.relative) with
  | error e => rfl
  | ok entries =>
    cases Outcome.check ((filePieces segment.oid).2 = false) JournalError.journalFileTooLarge with
    | error e => rfl
    | ok u =>
      simp only [Except.map, bind, Except.bind, pure, Except.pure]
      exact congrArg Except.ok (finish_reading index segment entries)

theorem remember_ok {index index' : DeliveryIndex} {segment : Segment}
    (h : index.remember codec scope segment = .ok index') :
    ∃ entries, readFile codec scope segment = .ok entries ∧ index.Passes codec segment entries ∧
      index' = index.stored codec segment entries := by
  rw [remember_pieces] at h
  simp only [bind_eq_ok, pure_eq_ok] at h
  obtain ⟨state, hstate, u, hsize, rfl⟩ := h
  obtain ⟨entries, hread, hpasses, rfl⟩ := readPieces_ok hstate
  refine ⟨entries, ?_, hpasses, finish_reading index segment entries⟩
  simp [readFile, hread, hsize, bind, Except.bind, pure, Except.pure]

end DeliveryIndex

/-! ### What a comparison finds -/

/-- A comparison succeeds when every matching row has the digest. -/
theorem DeliveryIndex.check_iff {index : DeliveryIndex} {entry : Entry} {digest : Bytes} :
    (∃ present, index.check entry digest = .ok present) ↔
      ∀ row ∈ index.matching entry, row.digest = digest := by
  unfold DeliveryIndex.check
  split
  · next row hfind =>
    have hne : row.digest ≠ digest := by simpa using List.find?_some hfind
    exact ⟨fun ⟨_, h⟩ => (nomatch h),
      fun h => absurd (h row (List.mem_of_find?_eq_some hfind)) hne⟩
  · next hnone =>
    exact ⟨fun _ => by simpa using hnone, fun _ => ⟨_, rfl⟩⟩

/-- Rows found by id are compared before rows found by version. -/
theorem DeliveryIndex.check_eq (index : DeliveryIndex) (entry : Entry) (digest : Bytes) :
    index.check entry digest =
      if ∃ row ∈ index.currentEvents, row.id = entry.id ∧ row.digest ≠ digest then
        .error .journalEntryConflict
      else if ∃ row ∈ index.currentEvents, (row.id ≠ entry.id ∧ row.origin = entry.origin ∧
          row.version = entry.version) ∧ row.digest ≠ digest then
        .error .journalVersionConflict
      else .ok (decide (∃ row ∈ index.currentEvents, row.id = entry.id ∨
        (row.origin = entry.origin ∧ row.version = entry.version))) := by
  have hmem : ∀ row, row ∈ index.matching entry ↔ row ∈ index.currentEvents ∧
      (row.id = entry.id ∨ (row.origin = entry.origin ∧ row.version = entry.version)) :=
    fun row => DeliveryIndex.mem_matching
  unfold DeliveryIndex.check
  cases hids : (index.currentEvents.filter fun e => e.id = entry.id).find?
      fun row => decide (row.digest ≠ digest) with
  | some row =>
    have hrow := List.mem_filter.mp (List.mem_of_find?_eq_some hids)
    have hid : row.id = entry.id := by simpa using hrow.2
    have hne : row.digest ≠ digest := by simpa using List.find?_some hids
    rw [DeliveryIndex.matching, List.find?_append, hids, if_pos ⟨row, hrow.1, hid, hne⟩]
    simp [hid]
  | none =>
    have hno : ¬ ∃ row ∈ index.currentEvents, row.id = entry.id ∧ row.digest ≠ digest := by
      rintro ⟨row, hrow, hid, hne⟩
      exact absurd hne (by simpa using List.find?_eq_none.mp hids row (by simp [hrow, hid]))
    rw [DeliveryIndex.matching, List.find?_append, hids, if_neg hno, Option.none_or]
    cases hversions : (index.currentEvents.filter fun e =>
        e.id ≠ entry.id ∧ e.origin = entry.origin ∧ e.version = entry.version).find?
          fun row => decide (row.digest ≠ digest) with
    | some row =>
      have hrow := List.mem_filter.mp (List.mem_of_find?_eq_some hversions)
      have hversion : row.id ≠ entry.id ∧ row.origin = entry.origin ∧
          row.version = entry.version := by simpa using hrow.2
      have hne : row.digest ≠ digest := by simpa using List.find?_some hversions
      rw [if_pos ⟨row, hrow.1, hversion, hne⟩]
      simp [hversion.1]
    | none =>
      have hno' : ¬ ∃ row ∈ index.currentEvents, (row.id ≠ entry.id ∧
          row.origin = entry.origin ∧ row.version = entry.version) ∧ row.digest ≠ digest := by
        rintro ⟨row, hrow, hversion, hne⟩
        exact absurd hne (by
          simpa using List.find?_eq_none.mp hversions row (by simp [hrow, hversion]))
      rw [if_neg hno']
      dsimp only
      rw [← DeliveryIndex.matching]
      congr 1
      rw [Bool.eq_iff_iff]
      cases hrows : index.matching entry with
      | nil =>
        rw [hrows] at hmem
        simpa using fun row hrow hsame => (hmem row).mpr ⟨hrow, hsame⟩
      | cons row rows =>
        obtain ⟨hrow, hsame⟩ := (hmem row).mp (by simp [hrows])
        simpa using ⟨row, hrow, hsame⟩

/-- Indexes with the same current rows compare alike. -/
theorem DeliveryIndex.check_congr {a b : DeliveryIndex}
    (h : ∀ row, row ∈ a.currentEvents ↔ row ∈ b.currentEvents) (entry : Entry) (digest : Bytes) :
    a.check entry digest = b.check entry digest := by
  simp only [DeliveryIndex.check_eq, h]

theorem DeliveryIndex.bounded_congr {a b : DeliveryIndex} (ha : (a.files.map (·.path)).Nodup)
    (hb : (b.files.map (·.path)).Nodup)
    (h : ∀ f, (f ∈ a.files ∧ a.isCurrent f = true) ↔ (f ∈ b.files ∧ b.isCurrent f = true))
    (extra : Nat) : a.bounded extra = b.bounded extra := by
  have hperm : (a.files.filter a.isCurrent).Perm (b.files.filter b.isCurrent) := by
    apply (List.perm_ext_iff_of_nodup (ha.of_map.filter _) (hb.of_map.filter _)).mpr
    intro f
    simpa only [List.mem_filter] using h f
  simp only [DeliveryIndex.bounded, (hperm.map _).sum_eq]

/-! ### The invariant -/

/-- A cached file is as reading its object leaves it. -/
def CachedFile (codec : LineCodec) (scope : Entry → Except JournalError Unit)
    (index : DeliveryIndex) (f : FileRow) : Prop :=
  ∃ segment entries, segment.path = f.path ∧ segment.oid = f.oid ∧
    readFile codec scope segment = .ok entries ∧ f.records = entries.length ∧
    Uniform codec f.path entries ∧
    ∀ row, row.path = f.path → (row ∈ index.events ↔ row ∈ rowsOf codec f.path entries)

/-- **Every cached row is true of the object it was read from.** -/
structure Cached (codec : LineCodec) (scope : Entry → Except JournalError Unit)
    (index : DeliveryIndex) : Prop where
  paths : (index.files.map (·.path)).Nodup
  files : ∀ f ∈ index.files, CachedFile codec scope index f

theorem cached_empty : Cached codec scope .empty where
  paths := by simp [DeliveryIndex.empty]
  files := by simp [DeliveryIndex.empty]

theorem Cached.select {index : DeliveryIndex} (h : Cached codec scope index)
    (segments : List Segment) : Cached codec scope (index.select segments) := ⟨h.paths, h.files⟩

theorem Segment.eq_of_path {a b : Segment} (hpath : a.path = b.path) (hoid : a.oid = b.oid) :
    a = b := by
  simp only [Segment.path, Path.journal.injEq] at hpath
  cases a
  cases b
  simp only at hpath hoid
  rw [Segment.mk.injEq]
  exact ⟨hpath.2, hpath.1, hoid⟩

theorem Cached.stored {index : DeliveryIndex} (h : Cached codec scope index) {segment : Segment}
    {entries : List Entry} (hread : readFile codec scope segment = .ok entries)
    (huniform : Uniform codec segment.path entries) :
    Cached codec scope (index.stored codec segment entries) where
  paths := by
    simp only [DeliveryIndex.stored, List.map_append, List.map_cons, List.map_nil]
    refine List.nodup_append.mpr ⟨h.paths.sublist (List.filter_sublist.map _),
      List.nodup_singleton _, ?_⟩
    intro a ha b hb hab
    obtain ⟨f, hf, rfl⟩ := List.mem_map.mp ha
    have hne : f.path ≠ segment.path := by simpa using (List.mem_filter.mp hf).2
    exact hne (hab.trans (List.mem_singleton.mp hb))
  files := by
    intro f hf
    rcases List.mem_append.mp hf with hf | hf
    · -- a file of another path keeps its rows
      obtain ⟨hf, hne⟩ := List.mem_filter.mp hf
      have hne : f.path ≠ segment.path := by simpa using hne
      obtain ⟨s, es, hpath, hoid, hreads, hrecords, hunif, hrows⟩ := h.files f hf
      refine ⟨s, es, hpath, hoid, hreads, hrecords, hunif, fun row hrow => ?_⟩
      rw [← hrows row hrow]
      have hother : row.path ≠ segment.path := hrow ▸ hne
      have hnot : row ∉ rowsOf codec segment.path entries := fun hmem =>
        hother (rowsOf_path hmem)
      simp [DeliveryIndex.stored, hother, hnot]
    · obtain rfl := List.mem_singleton.mp hf
      refine ⟨segment, entries, rfl, rfl, hread, rfl, huniform, fun row hrow => ?_⟩
      have hpath : row.path = segment.path := hrow
      simp [DeliveryIndex.stored, hpath]

/-! ### The files of a series -/

/-- What reading some files of the series has left in the index. -/
structure ReadSegments (codec : LineCodec) (scope : Entry → Except JournalError Unit)
    (segments done : List Segment) (index : DeliveryIndex) : Prop where
  cached : Cached codec scope index
  current : index.currentFiles = segments.map fun s => (s.path, s.oid)
  known : ∀ segment ∈ done, index.known segment = true

variable {segments done : List Segment} {index : DeliveryIndex} {segment : Segment}

theorem ReadSegments.isCurrent_iff (h : ReadSegments codec scope segments done index) {f : FileRow} :
    index.isCurrent f = true ↔ ∃ s ∈ segments, s.path = f.path ∧ s.oid = f.oid := by
  simp [DeliveryIndex.isCurrent, h.current]

/-- A cached file of the series says what the series holds. -/
theorem ReadSegments.file (h : ReadSegments codec scope segments done index) {f : FileRow}
    (hf : f ∈ index.files) (hcurrent : index.isCurrent f = true) :
    ∃ s ∈ segments, f = ⟨s.path, s.oid, (readable codec scope s).length⟩ ∧
      readFile codec scope s = .ok (readable codec scope s) ∧
      Uniform codec s.path (readable codec scope s) ∧
      ∀ row, row.path = s.path →
        (row ∈ index.events ↔ row ∈ rowsOf codec s.path (readable codec scope s)) := by
  obtain ⟨s, hs, hpath, hoid⟩ := h.isCurrent_iff.mp hcurrent
  obtain ⟨s', entries, hpath', hoid', hread, hrecords, huniform, hrows⟩ := h.cached.files f hf
  obtain rfl := Segment.eq_of_path (hpath'.trans hpath.symm) (hoid'.trans hoid.symm)
  obtain rfl := readable_eq hread
  refine ⟨s', hs, ?_, hread, hpath ▸ huniform, fun row hrow => ?_⟩
  · obtain ⟨path, oid, records⟩ := f
    simp only at hpath hoid hrecords
    rw [hpath, hoid, hrecords]
  · rw [hpath]
    exact hrows row (hrow.trans hpath)

theorem known_iff : index.known segment = true ↔
    ∃ f ∈ index.files, f.path = segment.path ∧ f.oid = segment.oid := by
  simp [DeliveryIndex.known]

/-- A known file can be read. -/
theorem Cached.readFile_known (h : Cached codec scope index) (hknown : index.known segment = true) :
    ∃ entries, readFile codec scope segment = .ok entries := by
  obtain ⟨f, hf, hpath, hoid⟩ := known_iff.mp hknown
  obtain ⟨s, entries, hpath', hoid', hread, -⟩ := h.files f hf
  obtain rfl := Segment.eq_of_path (hpath'.trans hpath) (hoid'.trans hoid)
  exact ⟨entries, hread⟩

/-- The rows a comparison sees while a file is read: those of cached files of the
    series, and those of the file's own records so far. -/
theorem ReadSegments.mem_reading (h : ReadSegments codec scope segments done index) (hsegment : segment ∈ segments)
    {entries : List Entry} {row : EventRow} :
    row ∈ (index.reading codec segment entries).currentEvents ↔
      (row ∈ index.currentEvents ∧ row.path ≠ segment.path) ∨
        row ∈ rowsOf codec segment.path entries := by
  have hown : (index.reading codec segment entries).isCurrent ⟨segment.path, segment.oid, 0⟩ = true := by
    simp only [DeliveryIndex.isCurrent, DeliveryIndex.reading, DeliveryIndex.replaceFile, h.current]
    simpa using ⟨segment, hsegment, rfl, rfl⟩
  rw [DeliveryIndex.mem_currentEvents]
  constructor
  · rintro ⟨hrow, f, hf, hpath, hcurrent⟩
    rcases List.mem_append.mp hrow with hrow | hrow
    · obtain ⟨hrow, hne⟩ := List.mem_filter.mp hrow
      have hne : row.path ≠ segment.path := by simpa using hne
      rcases List.mem_append.mp hf with hf | hf
      · exact Or.inl ⟨DeliveryIndex.mem_currentEvents.mpr
          ⟨hrow, f, (List.mem_filter.mp hf).1, hpath, hcurrent⟩, hne⟩
      · obtain rfl := List.mem_singleton.mp hf
        exact absurd hpath.symm hne
    · exact Or.inr hrow
  · rintro (⟨hrow, hne⟩ | hrow)
    · obtain ⟨hrow, f, hf, hpath, hcurrent⟩ := DeliveryIndex.mem_currentEvents.mp hrow
      refine ⟨List.mem_append_left _ (List.mem_filter.mpr ⟨hrow, by simpa using hne⟩), f,
        List.mem_append_left _ (List.mem_filter.mpr ⟨hf, ?_⟩), hpath, hcurrent⟩
      simpa [hpath] using hne
    · exact ⟨List.mem_append_right _ hrow, _, List.mem_append_right _ List.mem_cons_self,
        (rowsOf_path hrow).symm, hown⟩

theorem rowsOf_subset (path : Path) (entries rest : List Entry) {row : EventRow}
    (h : row ∈ rowsOf codec path entries) : row ∈ rowsOf codec path (entries ++ rest) := by
  induction rest using List.reverseRecOn with
  | nil => rwa [List.append_nil]
  | append_singleton rest entry ih =>
    rw [← List.append_assoc, rowsOf_append, addRow]
    split
    · exact ih
    · exact List.mem_append_left _ ih

/-- Records that passed the comparisons have one digest for each id. -/
theorem ReadSegments.uniform (h : ReadSegments codec scope segments done index) (hsegment : segment ∈ segments)
    {entries : List Entry} (hpasses : index.Passes codec segment entries) :
    Uniform codec segment.path entries := by
  intro entry hentry
  obtain ⟨before, rest, rfl⟩ := List.append_of_mem hentry
  have hrow : ∃ row ∈ rowsOf codec segment.path (before ++ [entry]), row.id = entry.id ∧
      row.digest = entryDigest codec entry := by
    rw [rowsOf_append, addRow]
    split
    · next hany =>
      obtain ⟨row, hrow, hid⟩ := List.any_eq_true.mp hany
      have hid : row.id = entry.id := by simpa using hid
      refine ⟨row, hrow, hid, ?_⟩
      exact DeliveryIndex.check_iff.mp (hpasses before entry rest rfl) row
        (DeliveryIndex.mem_matching.mpr ⟨(h.mem_reading hsegment).mpr (Or.inr hrow), Or.inl hid⟩)
    · exact ⟨rowOf codec segment.path entry, by simp, rfl, rfl⟩
  obtain ⟨row, hrow, hsame⟩ := hrow
  exact ⟨row, by simpa using rowsOf_subset _ _ rest hrow, hsame⟩

theorem ReadSegments.file_of_known (h : ReadSegments codec scope segments done index)
    (hsegment : segment ∈ segments) (hknown : index.known segment = true) :
    ∃ f ∈ index.files, index.isCurrent f = true ∧
      f = ⟨segment.path, segment.oid, (readable codec scope segment).length⟩ ∧
      Uniform codec segment.path (readable codec scope segment) ∧
      ∀ row, row.path = segment.path →
        (row ∈ index.events ↔ row ∈ rowsOf codec segment.path (readable codec scope segment)) := by
  obtain ⟨f, hf, hpath, hoid⟩ := known_iff.mp hknown
  have hcurrent := h.isCurrent_iff.mpr ⟨segment, hsegment, hpath.symm, hoid.symm⟩
  obtain ⟨s, -, hfile, -, huniform, hrows⟩ := h.file hf hcurrent
  obtain rfl : s = segment := by
    rw [hfile] at hpath hoid
    exact Segment.eq_of_path hpath hoid
  exact ⟨f, hf, hcurrent, hfile, huniform, hrows⟩

/-- **After the whole series was read**, the current rows are those of its files. -/
theorem ReadSegments.mem_current (h : ReadSegments codec scope segments segments index) (row : EventRow) :
    row ∈ index.currentEvents ↔
      ∃ s ∈ segments, row ∈ rowsOf codec s.path (readable codec scope s) := by
  rw [DeliveryIndex.mem_currentEvents]
  constructor
  · rintro ⟨hrow, f, hf, hpath, hcurrent⟩
    obtain ⟨s, hs, hfile, -, -, hrows⟩ := h.file hf hcurrent
    have hsame : row.path = s.path := by rw [← hpath, hfile]
    exact ⟨s, hs, (hrows row hsame).mp hrow⟩
  · rintro ⟨s, hs, hrow⟩
    obtain ⟨f, hf, hcurrent, hfile, -, hrows⟩ := h.file_of_known hs (h.known s hs)
    have hsame := rowsOf_path hrow
    exact ⟨(hrows row hsame).mpr hrow, f, hf, by rw [hfile, hsame], hcurrent⟩

theorem ReadSegments.mem_files (h : ReadSegments codec scope segments segments index) (f : FileRow) :
    (f ∈ index.files ∧ index.isCurrent f = true) ↔
      ∃ s ∈ segments, f = ⟨s.path, s.oid, (readable codec scope s).length⟩ := by
  constructor
  · rintro ⟨hf, hcurrent⟩
    obtain ⟨s, hs, hfile, -⟩ := h.file hf hcurrent
    exact ⟨s, hs, hfile⟩
  · rintro ⟨s, hs, rfl⟩
    obtain ⟨f, hf, hcurrent, rfl, -⟩ := h.file_of_known hs (h.known s hs)
    exact ⟨hf, hcurrent⟩

theorem ReadSegments.store (h : ReadSegments codec scope segments done index)
    (hpaths : ∀ a ∈ segments, ∀ b ∈ segments, a.path = b.path → a = b)
    (hdone : ∀ s ∈ done, s ∈ segments) (hsegment : segment ∈ segments) {entries : List Entry}
    (hread : readFile codec scope segment = .ok entries)
    (hpasses : index.Passes codec segment entries) :
    ReadSegments codec scope segments (done ++ [segment]) (index.stored codec segment entries) where
  cached := h.cached.stored hread (h.uniform hsegment hpasses)
  current := h.current
  known := by
    intro s hs
    rw [known_iff]
    by_cases hpath : s.path = segment.path
    · have hsame : s = segment := by
        rcases List.mem_append.mp hs with hs | hs
        · exact hpaths s (hdone s hs) segment hsegment hpath
        · exact List.mem_singleton.mp hs
      exact ⟨_, List.mem_append_right _ List.mem_cons_self, hpath.symm, by rw [hsame]⟩
    · rcases List.mem_append.mp hs with hs | hs
      · obtain ⟨f, hf, hfpath, hfoid⟩ := known_iff.mp (h.known s hs)
        refine ⟨f, List.mem_append_left _ (List.mem_filter.mpr ⟨hf, ?_⟩), hfpath, hfoid⟩
        simpa [hfpath] using hpath
      · exact absurd (congrArg Segment.path (List.mem_singleton.mp hs)) hpath

/-! ### Contradictions -/

/-- No two records in the files of a series contradict each other. -/
def NoConflict (codec : LineCodec) (scope : Entry → Except JournalError Unit)
    (segments : List Segment) : Prop :=
  ∀ s ∈ segments, ∀ t ∈ segments, ∀ a ∈ readable codec scope s, ∀ b ∈ readable codec scope t,
    SameIdentity a b → entryDigest codec a = entryDigest codec b

theorem ReadSegments.passes (h : ReadSegments codec scope segments done index)
    (hconflict : NoConflict codec scope segments) (hsegment : segment ∈ segments) :
    index.Passes codec segment (readable codec scope segment) := by
  intro before entry rest hsplit
  have hentry : entry ∈ readable codec scope segment := by simp [hsplit]
  apply DeliveryIndex.check_iff.mpr
  intro row hrow
  obtain ⟨hrow, hsame⟩ := DeliveryIndex.mem_matching.mp hrow
  -- the row is that of a record in one of the files
  have hrecord : ∃ s ∈ segments, ∃ e ∈ readable codec scope s, ∃ path,
      row = rowOf codec path e := by
    rcases (h.mem_reading hsegment).mp hrow with ⟨hrow, -⟩ | hrow
    · obtain ⟨hrow, f, hf, hpath, hcurrent⟩ := DeliveryIndex.mem_currentEvents.mp hrow
      obtain ⟨s, hs, hfile, -, -, hrows⟩ := h.file hf hcurrent
      have hrowPath : row.path = s.path := by rw [← hpath, hfile]
      obtain ⟨e, he, heq⟩ := mem_rowsOf ((hrows row hrowPath).mp hrow)
      exact ⟨s, hs, e, he, _, heq⟩
    · obtain ⟨e, he, heq⟩ := mem_rowsOf hrow
      exact ⟨segment, hsegment, e, by simp [hsplit, he], _, heq⟩
  obtain ⟨s, hs, e, he, path, rfl⟩ := hrecord
  exact hconflict s hs segment hsegment e he entry hentry hsame

/-! ### Reading the series -/

variable {tail : Option Segment} {state : ReadState}

theorem readSegment_reads (hpaths : ∀ a ∈ segments, ∀ b ∈ segments, a.path = b.path → a = b)
    (h : ReadSegments codec scope segments done state.index) (hdone : ∀ s ∈ done, s ∈ segments)
    (hsegment : segment ∈ segments) {state' : ReadState}
    (hok : readSegment codec scope tail state segment = .ok state') :
    ReadSegments codec scope segments (done ++ [segment]) state'.index := by
  unfold readSegment at hok
  split at hok
  · next hknown =>
    cases hok
    refine ⟨h.cached, h.current, fun s hs => ?_⟩
    rcases List.mem_append.mp hs with hs | hs
    · exact h.known s hs
    · rwa [List.mem_singleton.mp hs]
  · simp only [bind_eq_ok, pure_eq_ok] at hok
    obtain ⟨index', hremember, rfl⟩ := hok
    obtain ⟨entries, hread, hpasses, rfl⟩ := DeliveryIndex.remember_ok hremember
    exact h.store hpaths hdone hsegment hread hpasses

theorem readSegments_reads (hpaths : ∀ a ∈ segments, ∀ b ∈ segments, a.path = b.path → a = b)
    (h : Cached codec scope index) {n : Nat} {flag : Bool}
    (hok : segments.foldlM (readSegment codec scope tail) ⟨index.select segments, n, flag⟩ =
      .ok state) : ReadSegments codec scope segments segments state.index := by
  have hinv := foldlM_prefix_invariant (fun done (state : ReadState) =>
    (∀ s ∈ done, s ∈ segments) ∧ ReadSegments codec scope segments done state.index) segments
    ?_ ⟨by simp, h.select segments, rfl, by simp⟩ hok
  · exact hinv.2
  · rintro done state segment state' hmem ⟨hdone, hreads⟩ hstep
    refine ⟨fun s hs => ?_, readSegment_reads hpaths hreads hdone hmem hstep⟩
    rcases List.mem_append.mp hs with hs | hs
    · exact hdone s hs
    · rwa [List.mem_singleton.mp hs]

/-- **Without contradictions, reading fails as the files themselves fail.** -/
theorem readSegments_eq (hpaths : ∀ a ∈ segments, ∀ b ∈ segments, a.path = b.path → a = b)
    (hconflict : NoConflict codec scope segments) (rest : List Segment)
    (hrest : ∀ s ∈ rest, s ∈ segments) (h : ReadSegments codec scope segments done state.index)
    (hdone : ∀ s ∈ done, s ∈ segments) :
    (rest.foldlM (readSegment codec scope tail) state).map (fun _ => ()) =
      (rest.mapM (readFile codec scope)).map fun _ => () := by
  induction rest generalizing state done with
  | nil => rfl
  | cons segment rest ih =>
    have hsegment := hrest segment List.mem_cons_self
    -- one segment fails as its file does
    have hone : (readSegment codec scope tail state segment).map (fun _ => ()) =
        (readFile codec scope segment).map fun _ => () := by
      unfold readSegment
      split
      · next hknown =>
        obtain ⟨entries, hread⟩ := h.cached.readFile_known hknown
        rw [hread]
        rfl
      · rw [DeliveryIndex.remember_eq (h.passes hconflict hsegment)]
        cases readFile codec scope segment with
        | error e => rfl
        | ok entries => rfl
    rw [List.foldlM_cons, List.mapM_cons]
    cases hstep : readSegment codec scope tail state segment with
    | error e =>
      rw [hstep] at hone
      cases hread : readFile codec scope segment with
      | error e' =>
        rw [hread] at hone
        exact hone
      | ok entries =>
        rw [hread] at hone
        cases hone
    | ok state' =>
      rw [hstep] at hone
      cases hread : readFile codec scope segment with
      | error e =>
        rw [hread] at hone
        cases hone
      | ok entries =>
        have hnext := ih (fun s hs => hrest s (List.mem_cons_of_mem _ hs))
          (readSegment_reads hpaths h hdone hsegment hstep) fun s hs => by
            rcases List.mem_append.mp hs with hs | hs
            · exact hdone s hs
            · rwa [List.mem_singleton.mp hs]
        refine hnext.trans ?_
        simp only [bind, Except.bind, pure, Except.pure]
        cases rest.mapM (readFile codec scope) with
        | error e => rfl
        | ok es => rfl

/-! ### Appending -/

/-- The files of an inventory have their own paths. -/
theorem inventory_paths {head : Option Tree} {day : Day} {writer : UUID} {version : Nat}
    (h : inventory head day writer version = .ok segments) :
    ∀ a ∈ segments, ∀ b ∈ segments, a.path = b.path → a = b := by
  intro a ha b hb hpath
  have hblob := ((mem_inventory h a).mp ha).1
  rw [hpath, ((mem_inventory h b).mp hb).1] at hblob
  exact Segment.eq_of_path hpath (Option.some.inj hblob).symm

/-- One call of `append`, apart from the index. -/
structure AppendCall where
  head : Option Tree
  day : Day
  writer : UUID
  additions : List Entry
  catalogVersion : Nat

namespace AppendCall

def run (codec : LineCodec) (scope : Entry → Except JournalError Unit) (call : AppendCall)
    (index : DeliveryIndex) : Except JournalError Appended :=
  append codec scope call.head call.day call.writer call.additions index call.catalogVersion

def currentSegments (call : AppendCall) : Except JournalError (List Segment) :=
  inventory call.head call.day call.writer call.catalogVersion

end AppendCall

/-- The updates and the number of added entries, or the error. -/
def answer (result : Except JournalError Appended) : Except JournalError (List Update × Nat) :=
  result.map fun out => (out.updates, out.added)

variable {call : AppendCall}

theorem append_cached (h : Cached codec scope index) {out : Appended}
    (hok : call.run codec scope index = .ok out) : Cached codec scope out.index := by
  simp only [AppendCall.run, append, bind_eq_ok] at hok
  obtain ⟨segments, hsegments, read, hread, -, -, collected, -, hok⟩ := hok
  have hreads := readSegments_reads (inventory_paths hsegments) h hread
  split at hok
  · cases pure_eq_ok.mp hok
    exact hreads.cached
  · simp only [bind_eq_ok, pure_eq_ok] at hok
    obtain ⟨-, -, -, -, -, -, -, -, rfl⟩ := hok
    exact hreads.cached

/-- **An append over files that agree is the same from any two true indexes.** -/
theorem append_congr {a b : DeliveryIndex} (ha : Cached codec scope a)
    (hb : Cached codec scope b)
    (hconflict : ∀ segments, call.currentSegments = .ok segments → NoConflict codec scope segments) :
    answer (call.run codec scope a) = answer (call.run codec scope b) := by
  simp only [AppendCall.run, append]
  cases hsegments : inventory call.head call.day call.writer call.catalogVersion with
  | error e => rfl
  | ok segments =>
    have hpaths := inventory_paths hsegments
    have hno := hconflict segments hsegments
    have hread : ∀ start, Cached codec scope start →
        (segments.foldlM (readSegment codec scope segments.getLast?)
          ⟨start.select segments, 0, false⟩).map (fun _ => ()) =
        (segments.mapM (readFile codec scope)).map fun _ => () := fun start hstart =>
      readSegments_eq hpaths hno segments (fun _ hs => hs)
        (⟨hstart.select segments, rfl, by simp⟩ : ReadSegments codec scope segments [] _) (by simp)
    have hreadA := (hread a ha).trans (hread b hb).symm
    simp only [bind, Except.bind]
    cases hA : segments.foldlM (readSegment codec scope segments.getLast?)
        ⟨a.select segments, 0, false⟩ with
    | error e =>
      rw [hA] at hreadA
      cases hB : segments.foldlM (readSegment codec scope segments.getLast?)
          ⟨b.select segments, 0, false⟩ with
      | error e' =>
        rw [hB] at hreadA
        cases hreadA
        rfl
      | ok readB =>
        rw [hB] at hreadA
        cases hreadA
    | ok readA =>
      rw [hA] at hreadA
      cases hB : segments.foldlM (readSegment codec scope segments.getLast?)
          ⟨b.select segments, 0, false⟩ with
      | error e =>
        rw [hB] at hreadA
        cases hreadA
      | ok readB =>
        have hreadsA := readSegments_reads hpaths ha hA
        have hreadsB := readSegments_reads hpaths hb hB
        -- the two indexes hold the same current rows
        have hcheck : ∀ entry digest,
            readA.index.check entry digest = readB.index.check entry digest :=
          DeliveryIndex.check_congr fun row =>
            (hreadsA.mem_current row).trans (hreadsB.mem_current row).symm
        have hbounded : ∀ extra, readA.index.bounded extra = readB.index.bounded extra :=
          DeliveryIndex.bounded_congr hreadsA.cached.paths hreadsB.cached.paths fun f =>
            (hreadsA.mem_files f).trans (hreadsB.mem_files f).symm
        have hcollect : collectNew codec readA.index = collectNew codec readB.index := by
          funext state entry
          simp only [collectNew, hcheck]
        simp only [hbounded, hcollect]
        cases readB.index.bounded 0 with
        | error e => rfl
        | ok u =>
          cases (sortAdditions call.additions).foldlM (collectNew codec readB.index) ⟨[], [], []⟩ with
          | error e => rfl
          | ok collected =>
            dsimp only
            split
            · rfl
            · cases readB.index.bounded collected.new.length with
              | error e => rfl
              | ok u =>
                cases collected.new.mapM (Entry.line codec) with
                | error e => rfl
                | ok lines =>
                  dsimp only
                  split
                  · rfl
                  · split
                    · rfl
                    · rfl

/-! ### What an append adds -/

def Update.content : Update → Bytes
  | .write _ content => content
  | _ => []

/-- The bytes of some updates, one after the other. -/
def contents (updates : List Update) : Bytes := updates.flatMap Update.content

/-- While the files are filled: every line so far, behind the old tail or in new
    files. -/
def Filled (codec : LineCodec) (tail : Bytes) (done : List Entry) (state : WriteState) : Prop :=
  (done = [] ∧ state.dirty = false ∧ state.updates = [] ∧ state.data = tail) ∨
    (state.dirty = true ∧ ∃ kept, (kept = [] ∨ kept = tail) ∧
      contents state.updates ++ state.data = kept ++ fileOf codec done)

theorem writeEntry_filling {tail : Bytes} {done : List Entry} {archived : Bool} {day : Day}
    {state state' : WriteState} {entry : Entry} (h : Filled codec tail done state)
    (hok : writeEntry codec archived day state entry = .ok state') :
    Filled codec tail (done ++ [entry]) state' := by
  simp only [writeEntry, bind_eq_ok] at hok
  obtain ⟨line, hline, -, -, hok⟩ := hok
  obtain ⟨rfl, -⟩ := line_eq_ok.mp hline
  rw [Filled, fileOf_append, fileOf_singleton]
  refine Or.inr ?_
  split at hok
  · -- the next part starts with this line
    simp only [bind_eq_ok, pure_eq_ok] at hok
    obtain ⟨-, -, rfl⟩ := hok
    refine ⟨rfl, ?_⟩
    rcases h with ⟨rfl, hclean, hupdates, -⟩ | ⟨hdirty, kept, hkept, hbytes⟩
    · exact ⟨[], Or.inl rfl, by simp [WriteState.flush, hclean, hupdates, contents]⟩
    · refine ⟨kept, hkept, ?_⟩
      rw [← List.append_assoc kept, ← hbytes]
      simp [WriteState.flush, hdirty, contents, Update.content]
  · cases pure_eq_ok.mp hok
    refine ⟨rfl, ?_⟩
    rcases h with ⟨rfl, -, hupdates, rfl⟩ | ⟨-, kept, hkept, hbytes⟩
    · exact ⟨state.data, Or.inr rfl, by simp [hupdates, contents]⟩
    · refine ⟨kept, hkept, ?_⟩
      rw [← List.append_assoc kept, ← hbytes, List.append_assoc]

theorem Filled.flush {tail : Bytes} {done : List Entry} {state : WriteState}
    (h : Filled codec tail done state) (hdone : done ≠ []) :
    ∃ kept, (kept = [] ∨ kept = tail) ∧
      contents state.flush.updates = kept ++ fileOf codec done := by
  rcases h with ⟨hnil, -⟩ | ⟨hdirty, kept, hkept, hbytes⟩
  · exact absurd hnil hdone
  · exact ⟨kept, hkept, by simpa [WriteState.flush, hdirty, contents, Update.content] using hbytes⟩

/-- The records in the current files of a series. -/
def Holds (codec : LineCodec) (scope : Entry → Except JournalError Unit) (segments : List Segment)
    (entry : Entry) : Prop :=
  ∃ s ∈ segments, entry ∈ readable codec scope s

/-- **An index that has read the series finds exactly its records.** -/
theorem ReadSegments.check_holds (h : ReadSegments codec scope segments segments index) {T : Set Entry}
    (hdigest : ∀ a ∈ T, ∀ b ∈ T, entryDigest codec a = entryDigest codec b → a = b)
    (hholds : ∀ e, Holds codec scope segments e → e ∈ T) {entry : Entry} (hentry : entry ∈ T)
    {digest : Bytes} {present : Bool} (hvalue : entry.digest codec = .ok digest)
    (hok : index.check entry digest = .ok present) :
    present = true ↔ Holds codec scope segments entry := by
  obtain rfl : digest = entryDigest codec entry := by
    simp only [Entry.digest, bind_eq_ok, pure_eq_ok] at hvalue
    obtain ⟨line, hline, rfl⟩ := hvalue
    rw [entryDigest, (line_eq_ok.mp hline).1]
  rw [DeliveryIndex.check_eq_ok hok]
  have hagree := DeliveryIndex.check_iff.mp ⟨present, hok⟩
  constructor
  · rintro ⟨row, hrow, -⟩
    obtain ⟨s, hs, hmem⟩ := (h.mem_current row).mp (DeliveryIndex.mem_matching.mp hrow).1
    obtain ⟨e, he, rfl⟩ := mem_rowsOf hmem
    have hsame := hdigest e (hholds e ⟨s, hs, he⟩) entry hentry (hagree _ hrow)
    exact ⟨s, hs, hsame ▸ he⟩
  · rintro ⟨s, hs, hmem⟩
    obtain ⟨-, -, -, -, huniform, -⟩ := h.file_of_known hs (h.known s hs)
    obtain ⟨row, hrow, hid, -⟩ := huniform entry hmem
    exact ⟨row, DeliveryIndex.mem_matching.mpr
      ⟨(h.mem_current row).mpr ⟨s, hs, hrow⟩, Or.inl hid⟩, trivial⟩

/-- **An addition is skipped exactly when a current file holds it**, and the others
    are written. -/
theorem append_skips (h : Cached codec scope index) {out : Appended}
    (hsegments : call.currentSegments = .ok segments) (hok : call.run codec scope index = .ok out)
    (hdigest : ∀ a b, (a ∈ call.additions ∨ Holds codec scope segments a) →
      (b ∈ call.additions ∨ Holds codec scope segments b) →
      entryDigest codec a = entryDigest codec b → a = b) :
    ∃ new : List Entry, new.Nodup ∧
      (∀ e, e ∈ new ↔ e ∈ call.additions ∧ ¬ Holds codec scope segments e) ∧
      out.added = new.length ∧
      ∃ kept, (kept = [] ∨ ∃ tail, segments.getLast? = some tail ∧ kept = tail.oid) ∧
        contents out.updates = kept ++ fileOf codec new := by
  simp only [AppendCall.run, append, bind_eq_ok] at hok
  obtain ⟨segments', hsegments', read, hread, -, -, collected, hcollected, hok⟩ := hok
  obtain rfl : segments' = segments := Except.ok.inj (hsegments'.symm.trans hsegments)
  have hreads := readSegments_reads (inventory_paths hsegments') h hread
  obtain ⟨hnodup, hmem⟩ := collectNew_known
    (T := {e | e ∈ call.additions ∨ Holds codec scope segments' e})
    (fun a ha b hb digest _ hda hdb => by
      refine hdigest a b ha hb ?_
      simp only [Entry.digest, bind_eq_ok, pure_eq_ok] at hda hdb
      obtain ⟨la, hla, rfl⟩ := hda
      obtain ⟨lb, hlb, heq⟩ := hdb
      rw [entryDigest, entryDigest, ← (line_eq_ok.mp hla).1, ← (line_eq_ok.mp hlb).1, heq])
    (fun e he digest present hvalue hcheck => hreads.check_holds
      (fun a ha b hb => hdigest a b ha hb) (fun _ => Or.inr) he hvalue hcheck)
    (fun e he => Or.inl (mem_sortAdditions.mp he)) hcollected
  simp only [mem_sortAdditions] at hmem
  split at hok
  · next hnone =>
    cases pure_eq_ok.mp hok
    exact ⟨[], List.nodup_nil, fun e => hnone ▸ hmem e, rfl, [], Or.inl rfl, rfl⟩
  · next hsome =>
    simp only [bind_eq_ok, pure_eq_ok] at hok
    obtain ⟨-, -, lines, -, -, -, state, hstate, rfl⟩ := hok
    refine ⟨collected.new, hnodup, hmem, rfl, ?_⟩
    have hfilling := foldlM_prefix_invariant
      (Filled codec ((segments'.getLast?.map (·.oid)).getD [])) collected.new
      (fun done state entry state' _ hs hs' => writeEntry_filling hs hs')
      (Or.inl ⟨rfl, rfl, rfl, rfl⟩) hstate
    obtain ⟨kept, hkept, hbytes⟩ := hfilling.flush hsome
    refine ⟨kept, ?_, hbytes⟩
    rcases hkept with hkept | hkept
    · exact Or.inl hkept
    · cases htail : segments'.getLast? with
      | none =>
        rw [htail] at hkept
        exact Or.inl hkept
      | some tail =>
        rw [htail] at hkept
        exact Or.inr ⟨tail, rfl, hkept⟩

/-! ### Runs -/

/-- The saved index file, and the index inside the current transaction. -/
structure CacheState where
  saved : DeliveryIndex
  working : DeliveryIndex

/-- What happens around the index of one destination: calls of `append` inside
    `with delivery_index(...)`, the end of that block with or without an
    exception, and the loss or damage of the file. -/
inductive CacheOperation where
  | append (call : AppendCall)
  | commit
  | rollback
  | rebuild

def CacheState.next (codec : LineCodec) (scope : Entry → Except JournalError Unit)
    (s : CacheState) : CacheOperation → CacheState
  | .append call =>
    match call.run codec scope s.working with
    | .ok out => { s with working := out.index }
    | .error _ => { s with working := s.saved }
  | .commit => { s with saved := s.working }
  | .rollback => { s with working := s.saved }
  | .rebuild => ⟨.empty, .empty⟩

def cacheMachine (codec : LineCodec) (scope : Entry → Except JournalError Unit) :
    Machine CacheState CacheOperation where
  init := ⟨.empty, .empty⟩
  next := CacheState.next codec scope

theorem run_cached (codec : LineCodec) (scope : Entry → Except JournalError Unit)
    (ops : List CacheOperation) : Cached codec scope ((cacheMachine codec scope).run ops).saved ∧
      Cached codec scope ((cacheMachine codec scope).run ops).working := by
  refine (cacheMachine codec scope).run_invariant
    (fun s => Cached codec scope s.saved ∧ Cached codec scope s.working) (fun _ => True)
    ⟨cached_empty, cached_empty⟩ ?_ ops fun _ _ => trivial
  rintro s op - ⟨hsaved, hworking⟩
  cases op with
  | append call =>
    simp only [cacheMachine, CacheState.next]
    split
    · next hok => exact ⟨hsaved, append_cached hworking hok⟩
    · exact ⟨hsaved, hsaved⟩
  | commit => exact ⟨hworking, hworking⟩
  | rollback => exact ⟨hsaved, hsaved⟩
  | rebuild => exact ⟨cached_empty, cached_empty⟩

/-- The sample record with another text under its id, and one of another memory. -/
def otherText : Entry := { sampleEntry with text := some "bye", payload := by decide }

def otherMemory : Entry := { sampleEntry with id := 6, memoryId := 7 }

/-- The JSON text of such a record. -/
def recordText (id memory : Char) (text : String) : Bytes :=
  ("\x7b\"action\":\"upsert\",".toList ++ "\"format\":".toList ++
    "\"mnemion-memory-journal\",".toList ++ "\"id\":".toList ++ smallUuid id ++
    ",\"important\":false,".toList ++ "\"kind\":\"note\",".toList ++ "\"memory_id\":".toList ++
    smallUuid memory ++ ",\"metadata\":\x7b\x7d,".toList ++ "\"schema_version\":1,".toList ++
    "\"space_id\":".toList ++ smallUuid '3' ++ ",\"subject\":null,".toList ++
    "\"tenant_id\":".toList ++ smallUuid '2' ++ ",\"text\":\"".toList ++ text.toList ++
    "\",\"ts\":\"2024-01-01".toList ++ "T00:00:00Z\",".toList ++ "\"version\":1,".toList ++
    "\"writer\":".toList ++ smallUuid '5' ++ ['\x7d']).flatMap String.utf8EncodeChar

def hexDigest (text : String) : Bytes := text.toList.flatMap String.utf8EncodeChar

/-- The three records with their texts and digests. -/
def records : List (Entry × Bytes × Bytes) :=
  [(sampleEntry, recordText '1' '4' "hello",
      hexDigest "5607d3014ae02cb49ee992ae9617ba89ea88cbb803dd22a7a7b62296cefbbfd8"),
    (otherText, recordText '1' '4' "bye",
      hexDigest "cd12d9a9714ead5cffd11c25ad91a4b73242fcf51d98161cf33be8d6aa2ee365"),
    (otherMemory, recordText '6' '7' "hello",
      hexDigest "ad6e3bfc68c16dfc36c4f9ec67c70f2b131ecfbc794c972011dd505fe385576e")]

def recordCodec : LineCodec where
  dump entry := ((records.find? (·.1 = entry)).map (·.2.1)).getD []
  load value := (records.find? (·.2.1 ++ [newline] = value)).map (·.1)
  sha256 value := ((records.find? (·.2.1 ++ [newline] = value)).map (·.2.2)).getD []

/-- A tree with some of the two files of the series. -/
def seriesTree (live archived : Option Bytes) : Tree :=
  let write := fun (tree : Tree) (folder : Bool) (content : Option Bytes) =>
    content.elim tree fun c => tree.update (.write (.journal folder ⟨738886, 5, 0⟩) c)
  write (write ⟨∅, some ⟨1, 2, 3, 1⟩⟩ true archived) false live

def liveFile : Bytes := fileOf recordCodec [sampleEntry]

def archivedFile : Bytes := fileOf recordCodec [otherText]

def appendTo (tree : Tree) : AppendCall := ⟨some tree, 738886, 5, [otherMemory], 1⟩

/-- `_scope` of the destination these records are for. -/
def recordScope (entry : Entry) : Except JournalError Unit :=
  check (entry.tenantId = 2 ∧ entry.spaceId = 3) .journalScopeMismatch

/-- The live file is read in one tree and the archived file in another. -/
def cachedApart : List CacheOperation :=
  [.append (appendTo (seriesTree (some liveFile) none)), .commit,
    .append (appendTo (seriesTree none (some archivedFile))), .commit]

def fileSegment (archived : Bool) (content : Bytes) : Segment := ⟨⟨738886, 5, 0⟩, archived, content⟩

theorem inventory_one (tree : Tree) (archived : Bool) {content : Bytes}
    (hfiles : tree.files.entries = [⟨.journal archived ⟨738886, 5, 0⟩, content⟩])
    (hsize : content.length ≤ 1000) :
    inventory (some tree) 738886 5 1 = .ok [fileSegment archived content] := by
  have hmax : content.length ≤ MAX_FILE_BYTES := Nat.le_trans hsize (by decide)
  have htotal : content.length ≤ MAX_SERIES_BYTES := Nat.le_trans hsize (by decide)
  simp [inventory, Tree.listing, hfiles, seriesRow, inventoryRow, journalPath, Segment.size, hmax,
    htotal, MAX_SERIES_FILES, completeParts, Segment.part, fileSegment, check, bind, Except.bind,
    pure, Except.pure]

theorem inventory_both {live archived : Bytes} (hlive : live.length ≤ 1000)
    (harchived : archived.length ≤ 1000) :
    inventory (some (seriesTree (some live) (some archived))) 738886 5 1 =
      .ok [fileSegment false live, fileSegment true archived] := by
  have hlisting : (seriesTree (some live) (some archived)).listing =
      [(.journal false ⟨738886, 5, 0⟩, live), (.journal true ⟨738886, 5, 0⟩, archived)] := by
    apply List.mergeSort_of_pairwise
    show List.Pairwise _ [(Path.journal false ⟨738886, 5, 0⟩, live),
      (.journal true ⟨738886, 5, 0⟩, archived)]
    simp [Path.le, Path.key, lexLe]
  have hmax : live.length ≤ MAX_FILE_BYTES := Nat.le_trans hlive (by decide)
  have hmax' : archived.length ≤ MAX_FILE_BYTES := Nat.le_trans harchived (by decide)
  have htotal : live.length ≤ MAX_SERIES_BYTES := Nat.le_trans hlive (by decide)
  have htotal' : live.length + archived.length ≤ MAX_SERIES_BYTES :=
    Nat.le_trans (Nat.add_le_add hlive harchived) (by decide)
  have hsorted : [fileSegment false live, fileSegment true archived].mergeSort Segment.le =
      [fileSegment false live, fileSegment true archived] :=
    List.mergeSort_of_pairwise (by simp [Segment.le, Segment.part, fileSegment])
  simp only [fileSegment] at hsorted
  simp [inventory, hlisting, seriesRow, inventoryRow, journalPath, Segment.size, hmax, hmax', htotal,
    htotal', MAX_SERIES_FILES, completeParts, Segment.part, fileSegment, check, bind, Except.bind,
    pure, Except.pure, hsorted]

theorem liveFile_length : liveFile.length ≤ 1000 := by decide +kernel

theorem archivedFile_length : archivedFile.length ≤ 1000 := by decide +kernel

theorem sort_otherMemory : sortAdditions [otherMemory] = [otherMemory] := List.mergeSort_singleton _

example : liveFile ≠ archivedFile := by decide +kernel

end Mnemion.Journal
