/-
  Mnemion/UploadInventory.lean
  ============================
  **The index and the direct inventory of complete files.**  The tables of an upload hold
  what the journal index computes of the same records (`Holds`); an accepted direct
  inventory says the same of its files (`Direct`).
-/
import Mnemion.UploadContents

namespace Mnemion.JournalStaging

open Outcome ByteLines Journal

variable {codec : LineCodec} {T : Set Entry} {catalog : Catalog} {withdrawn : List UUID}

/-! ### The index and the tables -/

/-- **The tables hold these pairs**: the latest entry of every memory with its denial, the
    withdrawn identities denied as well, and what is denied or held first. -/
structure Holds (codec : LineCodec) (withdrawn : List UUID) (pairs : List (Entry × Bool))
    (latest : List StagedRow) : Prop where
  keys : (latest.map StagedRow.originalId).Nodup
  pair : ∀ pair ∈ pairs, ∃ row ∈ latest, row.originalId = pair.1.memoryId ∧
    row.sourceVersion = pair.1.version ∧ row.action = some pair.1.action ∧
    row.line = some (codec.dump pair.1 ++ [newline]) ∧
    (row.denied = true ↔ pair.2 = true ∨ pair.1.memoryId ∈ withdrawn)
  row : ∀ row ∈ latest, (∃ pair ∈ pairs, pair.1.memoryId = row.originalId) ∨
    row.originalId ∈ withdrawn ∧ row.line = none ∧ row.denied = true
  withdrawals : ∀ id ∈ withdrawn, ∃ row ∈ latest, row.originalId = id
  priority : ∀ row ∈ latest, row.priority = 0 ↔ row.denied = true ∨ row.action = some .quarantine

theorem latestPairs_mem {index : JournalIndex Unit} {added : List (Entry × Option Unit)}
    (hT : Digestible codec T) (hadded : ∀ p ∈ added, p.1 ∈ T) (h : Indexes codec added index) :
    (∃ pairs, latestPairs codec index = .ok pairs) ∧ ∀ pairs, latestPairs codec index = .ok pairs →
      (∀ pair ∈ pairs, ∃ row ∈ index.latest, row.origin = pair.1.origin ∧ row.version = pair.1.version ∧
        pair.2 = row.denied ∧ ∃ p ∈ added, p.1 = pair.1) ∧
      ∀ row ∈ index.latest, ∃ pair ∈ pairs, row.origin = pair.1.origin := by
  have hrow : ∀ row ∈ index.latest, ∃ p ∈ added, row.origin = p.1.origin ∧ row.version = p.1.version ∧
      parseLine codec row.line = .ok p.1 := by
    intro row hrow
    obtain ⟨p, hp, horigin, hversion, _, hline⟩ := h.latestRow row hrow
    exact ⟨p, hp, horigin, hversion, hline ▸ parseLine_dump (hT.recordable p.1 (hadded p hp))⟩
  unfold latestPairs
  constructor
  · apply mapM_succeeds
    intro row hmem
    obtain ⟨p, _, _, _, hparse⟩ := hrow row hmem
    exact ⟨_, bind_eq_ok.mpr ⟨_, hparse, rfl⟩⟩
  · intro pairs hpairs
    have hpair : ∀ row ∈ index.latest, ∀ pair,
        (parseLine codec row.line >>= fun entry => pure (entry, row.denied)) = .ok pair →
          row.origin = pair.1.origin ∧ row.version = pair.1.version ∧ pair.2 = row.denied ∧
            ∃ p ∈ added, p.1 = pair.1 := by
      intro row hmem pair hok
      obtain ⟨p, hp, horigin, hversion, hparse⟩ := hrow row hmem
      simp only [bind_eq_ok, pure_eq_ok] at hok
      obtain ⟨e, he, rfl⟩ := hok
      rw [hparse] at he
      cases he
      exact ⟨horigin, hversion, rfl, p, hp, rfl⟩
    constructor
    · intro pair hpair'
      obtain ⟨row, hmem, hok⟩ := mapM_mem hpairs pair hpair'
      exact ⟨row, hmem, hpair row hmem pair hok⟩
    · intro row hmem
      obtain ⟨pair, hpair', hok⟩ := mapM_image hpairs row hmem
      exact ⟨pair, hpair', (hpair row hmem pair hok).1⟩

/-- **The index of the same records** computes what the tables hold. -/
theorem Stages.holds {staged : List Entry} {staging : Staging} {index : JournalIndex Unit}
    {added : List (Entry × Option Unit)} {pairs : List (Entry × Bool)} (hT : Digestible codec T)
    (hadded : ∀ p ∈ added, p.1 ∈ T) (h : Stages codec withdrawn staged staging)
    (hindex : Indexes codec added index) (hperm : (added.map Prod.fst).Perm staged)
    (hscope : ∀ e ∈ staged, e.nameSpace = catalog.nameSpace) (hpairs : latestPairs codec index = .ok pairs) :
    Holds codec withdrawn pairs staging.latest := by
  obtain ⟨hpair, hcover⟩ := (latestPairs_mem hT hadded hindex).2 pairs hpairs
  have hmem : ∀ e, e ∈ staged ↔ ∃ p ∈ added, p.1 = e := by
    intro e
    rw [← hperm.mem_iff, List.mem_map]
  have horigin : ∀ a ∈ staged, ∀ b ∈ staged, (a.origin = b.origin ↔ a.memoryId = b.memoryId) := by
    intro a ha b hb
    have hspace := (hscope a ha).trans (hscope b hb).symm
    constructor
    · exact fun heq => congrArg (fun origin => origin.2.2) heq
    · intro hmemory
      have htenant : a.tenantId = b.tenantId := congrArg Prod.fst hspace
      have hspaceId : a.spaceId = b.spaceId := congrArg Prod.snd hspace
      exact Prod.ext htenant (Prod.ext hspaceId hmemory)
  constructor
  · exact h.keys
  · intro pair hmem'
    obtain ⟨irow, hirow, hiorigin, hiversion, hdenied, hread⟩ := hpair pair hmem'
    have hstaged : pair.1 ∈ staged := (hmem _).mpr hread
    obtain ⟨row, hrow, hkey⟩ := h.memories pair.1 hstaged
    refine ⟨row, hrow, hkey, ?_⟩
    rcases h.row row hrow with ⟨_, _, _, _, hnone⟩ | ⟨e, he, hid, hversion, haction, hline, hmax⟩
    · exact absurd hkey.symm (hnone pair.1 hstaged)
    · -- the newest record of both is the same
      have hsame : e = pair.1 := by
        have hmemory : e.memoryId = pair.1.memoryId := hid.trans hkey
        have hle := hmax pair.1 hstaged hkey.symm
        obtain ⟨p, hp, hpe⟩ := (hmem e).mp he
        have hge := hindex.latestMax irow hirow p hp (by
          rw [hpe, hiorigin]
          exact (horigin e he pair.1 hstaged).mpr hmemory)
        rw [hpe] at hge
        exact h.consistent e he pair.1 hstaged (Or.inr ⟨hmemory, by omega⟩)
      subst hsame
      refine ⟨hversion, haction, hline, ?_⟩
      rw [h.denied row hrow, hdenied, hindex.latestDenied irow hirow, hkey, or_comm]
      refine or_congr ?_ Iff.rfl
      constructor
      · rintro ⟨other, hother, hmemory, hforget⟩
        obtain ⟨p, hp, rfl⟩ := (hmem other).mp hother
        exact ⟨p, hp, ((horigin p.1 hother pair.1 hstaged).mpr hmemory).trans hiorigin.symm, hforget⟩
      · rintro ⟨p, hp, hsame, hforget⟩
        have hpstaged : p.1 ∈ staged := (hmem p.1).mpr ⟨p, hp, rfl⟩
        exact ⟨p.1, hpstaged, (horigin p.1 hpstaged pair.1 hstaged).mp (hsame.trans hiorigin), hforget⟩
  · intro row hrow
    rcases h.row row hrow with ⟨hid, _, _, hline, _⟩ | ⟨e, he, hid, _⟩
    · exact Or.inr ⟨hid, hline, (h.denied row hrow).mpr (Or.inl hid)⟩
    · left
      obtain ⟨p, hp, rfl⟩ := (hmem e).mp he
      obtain ⟨irow, hirow, hsame⟩ := hindex.latestAll p hp
      obtain ⟨pair, hmem', hpairorigin⟩ := hcover irow hirow
      refine ⟨pair, hmem', ?_⟩
      rw [← hid]
      exact (congrArg (fun origin => origin.2.2) (hpairorigin.symm.trans hsame) :)
  · exact h.withdrawals
  · intro row hrow
    rw [h.priority row hrow]
    unfold priorityOf
    split
    · rename_i hfirst
      exact iff_of_true rfl hfirst
    · rename_i hlater
      exact iff_of_false (by decide) hlater

/-! ### The direct inventory -/

variable {υ : Type} {index index' : JournalIndex υ} {entry : Entry} {uri : Option υ}

/-- The index with the default limits. -/
def raised (index : JournalIndex υ) : JournalIndex υ :=
  { index with maxRecords := 1000000, maxBytes := 2 * 1024 ^ 3 }

/-- What an index takes within smaller limits, it takes within the default ones. -/
theorem add_raised (hrecords : index.maxRecords ≤ 1000000) (hbytes : index.maxBytes ≤ 2 * 1024 ^ 3)
    (h : index.add codec entry uri = .ok index') :
    (raised index).add codec entry uri = .ok (raised index') ∧ index'.maxRecords = index.maxRecords ∧
      index'.maxBytes = index.maxBytes ∧ index'.observedRecords = index.observedRecords + 1 ∧
      index'.observedRecords ≤ index'.maxRecords := by
  unfold JournalIndex.add at h ⊢
  simp only [bind_eq_ok, check_eq_ok] at h ⊢
  obtain ⟨line, hline, digest, hdigest, _, hlimits, h⟩ := h
  have hraised : index.observedRecords + 1 ≤ 1000000 ∧ index.observedBytes + line.length ≤ 2 * 1024 ^ 3 :=
    ⟨hlimits.1.trans hrecords, hlimits.2.trans hbytes⟩
  cases hfind : index.seen.find? (·.id = entry.id) with
  | some previous =>
    rw [hfind] at h
    simp only [bind_eq_ok, check_eq_ok, pure_eq_ok] at h
    obtain ⟨_, hsame, rfl⟩ := h
    refine ⟨⟨line, hline, digest, hdigest, (), hraised, ?_⟩, rfl, rfl, rfl, hlimits.1⟩
    unfold raised
    dsimp only
    rw [hfind]
    simp only [bind_eq_ok, check_eq_ok, pure_eq_ok]
    exact ⟨(), hsame, trivial⟩
  | none =>
    rw [hfind] at h
    simp only [bind_eq_ok, check_eq_ok, pure_eq_ok] at h
    obtain ⟨_, hversion, rfl⟩ := h
    refine ⟨⟨line, hline, digest, hdigest, (), hraised, ?_⟩, rfl, rfl, rfl, hlimits.1⟩
    unfold raised
    dsimp only
    rw [hfind]
    simp only [bind_eq_ok, check_eq_ok, pure_eq_ok]
    exact ⟨(), hversion, trivial⟩

/-- The limits of an inventory, and what it has counted within them. -/
structure Limited (index : JournalIndex υ) : Prop where
  records : index.maxRecords = MAX_RECOVERY_RECORDS
  bytes : index.maxBytes = MAX_RECOVERY_BYTES
  observed : index.observedRecords ≤ index.maxRecords

variable {relative : Relative} {entries : List Entry} {added : List (Entry × Option Unit)}

theorem readEntries_indexes {index index' : JournalIndex Unit} (hT : Digestible codec T)
    (hentries : ∀ e ∈ entries, e ∈ T) (hadded : ∀ p ∈ added, p.1 ∈ T) (hlimited : Limited index)
    (h : Indexes codec added (raised index))
    (hfold : entries.foldlM (readEntry codec catalog relative) index = .ok index') :
    Indexes codec (added ++ entries.map fun e => (e, none)) (raised index') ∧ Limited index' ∧
      ∀ e ∈ entries, e.nameSpace = catalog.nameSpace ∧ matchesPath e relative := by
  induction entries generalizing index added with
  | nil =>
    rw [List.foldlM_nil, pure_eq_ok] at hfold
    subst hfold
    exact ⟨by simpa using h, hlimited, by simp⟩
  | cons e entries ih =>
    simp only [List.foldlM_cons, bind_eq_ok, readEntry, check_eq_ok] at hfold
    obtain ⟨next, ⟨_, hscope, hadd⟩, hrest⟩ := hfold
    obtain ⟨hraised, hrecords, hbytes, _, hobserved⟩ := add_raised
      (by rw [hlimited.records]; decide) (by rw [hlimited.bytes]; decide) hadd
    have he := hentries e List.mem_cons_self
    obtain ⟨_, hindexes⟩ := (Indexes.add none hT hadded he h).2 _ hraised
    have hadded' : ∀ p ∈ added ++ [(e, none)], p.1 ∈ T := by
      intro p hp
      rcases List.mem_append.mp hp with hold | hnew
      · exact hadded p hold
      · rw [List.mem_singleton] at hnew
        exact hnew ▸ he
    obtain ⟨hfinal, hlimited', hscope'⟩ := ih (fun e' he' => hentries e' (List.mem_cons_of_mem _ he')) hadded'
      ⟨hrecords.trans hlimited.records, hbytes.trans hlimited.bytes, hobserved⟩ hindexes hrest
    refine ⟨by simpa using hfinal, hlimited', ?_⟩
    intro e' he'
    rcases List.mem_cons.mp he' with rfl | he'
    · exact hscope
    · exact hscope' e' he'

/-- **A file of an accepted inventory**: complete lines of records of its path. -/
structure Whole (codec : LineCodec) (catalog : Catalog) (file : Path × Bytes) : Prop where
  tail : (splitLines file.2).2 = []
  reads : (completeLines file.2).mapM (parseLine codec) = .ok (readEntries codec file.2)
  scope : ∀ e ∈ readEntries codec file.2, e.nameSpace = catalog.nameSpace ∧ matchesPath e file.1.relative

theorem readFile_ok {reading reading' : Reading} {file : Path × Bytes}
    (h : readFile codec catalog reading file = .ok reading') :
    file.1 ∉ reading.paths ∧ reading'.paths = reading.paths ++ [file.1] ∧ (splitLines file.2).2 = [] ∧
      (completeLines file.2).mapM (parseLine codec) = .ok (readEntries codec file.2) ∧
      (readEntries codec file.2).foldlM (readEntry codec catalog file.1.relative) reading.index =
        .ok reading'.index := by
  unfold readFile at h
  simp only [bind_eq_ok, check_eq_ok, pure_eq_ok, mapError_eq_ok] at h
  obtain ⟨_, hpath, _, _, _, _, index, hread, rfl⟩ := h
  rw [foldLines_eq_ok] at hread
  obtain ⟨values, hvalues, hfold⟩ := hread
  obtain ⟨entries, hentries, hadd⟩ := foldlM_convert.mp hfold
  obtain ⟨hlines, htail⟩ := pieces_complete hvalues (by
    intro value hvalue
    obtain ⟨e, he⟩ := mapM_forall hentries value hvalue
    unfold parseLine at he
    simp only [bind_eq_ok, check_eq_ok] at he
    obtain ⟨_, hshape, _⟩ := he
    exact hshape.2.2)
  have hreads : (completeLines file.2).mapM (parseLine codec) = .ok entries := by
    unfold completeLines
    rw [hlines]
    exact hentries
  have hsame := readEntries_ok hreads
  exact ⟨hpath, rfl, htail, hsame ▸ hreads, hsame ▸ hadd⟩

/-- The records of all files. -/
def allEntries (codec : LineCodec) (files : List (Path × Bytes)) : List Entry :=
  files.flatMap fun file => readEntries codec file.2

/-- **What an accepted direct inventory says of its files.** -/
structure Direct (codec : LineCodec) (catalog : Catalog) (files : List (Path × Bytes)) (withdrawn : List UUID)
    (pairs : List (Entry × Bool)) : Prop where
  paths : (files.map Prod.fst).Nodup
  whole : ∀ file ∈ files, Whole codec catalog file
  index : ∃ index : JournalIndex Unit, Indexes codec ((allEntries codec files).map fun e => (e, none)) index ∧
    latestPairs codec index = .ok pairs
  physical : (allEntries codec files).length ≤ MAX_RECOVERY_RECORDS
  records : (allEntries codec files).dedup.length = catalog.records
  identities : (withdrawn ++ (allEntries codec files).map Entry.memoryId).dedup.length ≤ MAX_RECOVERY_IDENTITIES

/-- The distinct records of an index. -/
theorem indexes_distinct {index : JournalIndex Unit} {staged : List Entry}
    (h : Indexes codec (staged.map fun e => (e, none)) index) : index.seen.length = staged.dedup.length := by
  have hmem : ∀ e ∈ staged, (e, none) ∈ staged.map fun e => ((e, none) : Entry × Option Unit) :=
    fun e he => List.mem_map_of_mem he
  have hids : (staged.dedup.map Entry.id).Nodup := by
    refine List.Nodup.map_on ?_ (List.nodup_dedup staged)
    intro a ha b hb hid
    exact h.consistent _ (hmem a (List.mem_dedup.mp ha)) _ (hmem b (List.mem_dedup.mp hb)) (Or.inl hid)
  have hperm : (index.seen.map (·.id)).Perm (staged.dedup.map Entry.id) := by
    refine (List.perm_ext_iff_of_nodup h.seenNodup hids).mpr ?_
    intro id
    rw [List.mem_map, List.mem_map]
    constructor
    · rintro ⟨row, hrow, rfl⟩
      obtain ⟨p, hp, rfl⟩ := h.seenRow row hrow
      obtain ⟨e, he, rfl⟩ := List.mem_map.mp hp
      exact ⟨e, List.mem_dedup.mpr he, rfl⟩
    · rintro ⟨e, he, rfl⟩
      exact h.seenAll _ (hmem e (List.mem_dedup.mp he))
  have hlength := hperm.length_eq
  rwa [List.length_map, List.length_map] at hlength

/-- **An accepted direct inventory.** -/
theorem inventory_direct {catalogBytes : Nat} {files : List (Path × Bytes)} {pairs : List (Entry × Bool)}
    (hT : Digestible codec T) (hfiles : ∀ e ∈ allEntries codec files, e ∈ T)
    (h : inventory codec catalog catalogBytes files withdrawn = .ok pairs) :
    Direct codec catalog files withdrawn pairs := by
  unfold inventory at h
  simp only [bind_eq_ok, check_eq_ok, pure_eq_ok, mapError_eq_ok] at h
  obtain ⟨_, _, reading, hread, _, hexpected, latest, hlatest, _, hidentities, rfl⟩ := h
  -- the files read so far are whole and indexed
  have hstate : reading.paths = files.map Prod.fst ∧ reading.paths.Nodup ∧
      (∀ file ∈ files, Whole codec catalog file) ∧ Limited reading.index ∧
      Indexes codec ((allEntries codec files).map fun e => (e, none)) (raised reading.index) := by
    refine foldlM_split_invariant (fun (done : List (Path × Bytes)) (reading : Reading) =>
      reading.paths = done.map Prod.fst ∧ reading.paths.Nodup ∧ (∀ file ∈ done, Whole codec catalog file) ∧
        Limited reading.index ∧
        Indexes codec ((allEntries codec done).map fun e => (e, none)) (raised reading.index)) ?_ ?_ hread
    · rintro done file rest current next hsplit ⟨hpaths, hnodup, hwhole, hlimited, hindexes⟩ hnext
      obtain ⟨hnew, hpaths', htail, hreads, hfold⟩ := readFile_ok hnext
      have hentries : ∀ e ∈ readEntries codec file.2, e ∈ T := by
        intro e he
        apply hfiles
        rw [hsplit]
        exact List.mem_flatMap.mpr ⟨file, by simp, he⟩
      have hdone : ∀ p ∈ (allEntries codec done).map fun e => ((e, none) : Entry × Option Unit), p.1 ∈ T := by
        intro p hp
        obtain ⟨e, he, rfl⟩ := List.mem_map.mp hp
        apply hfiles
        rw [hsplit]
        obtain ⟨other, hother, he'⟩ := List.mem_flatMap.mp he
        exact List.mem_flatMap.mpr ⟨other, List.mem_append_left _ hother, he'⟩
      obtain ⟨hindexes', hlimited', hscope⟩ := readEntries_indexes hT hentries hdone hlimited hindexes hfold
      refine ⟨?_, ?_, ?_, hlimited', ?_⟩
      · rw [hpaths', hpaths, List.map_append]
        rfl
      · rw [hpaths', List.nodup_append]
        refine ⟨hnodup, List.nodup_singleton _, ?_⟩
        rintro a ha b hb rfl
        rw [List.mem_singleton] at hb
        exact hnew (hb ▸ ha)
      · intro other hother
        rcases List.mem_append.mp hother with hold | hlast
        · exact hwhole other hold
        · rw [List.mem_singleton] at hlast
          exact hlast ▸ ⟨htail, hreads, hscope⟩
      · have hall : allEntries codec (done ++ [file]) = allEntries codec done ++ readEntries codec file.2 := by
          simp [allEntries]
        rw [hall, List.map_append]
        exact hindexes'
    · refine ⟨rfl, List.nodup_nil, by simp, ⟨rfl, rfl, Nat.zero_le _⟩, ?_⟩
      exact indexes_empty
  obtain ⟨hpaths, hnodup, hwhole, hlimited, hindexes⟩ := hstate
  have hseen := indexes_distinct hindexes
  have hspace : ∀ row ∈ reading.index.seen, row.nameSpace = catalog.nameSpace := by
    intro row hrow
    obtain ⟨p, hp, rfl⟩ := hindexes.seenRow row hrow
    obtain ⟨e, he, rfl⟩ := List.mem_map.mp hp
    obtain ⟨file, hfile, he'⟩ := List.mem_flatMap.mp he
    exact ((hwhole file hfile).scope e he').1
  constructor
  · rw [← hpaths]
    exact hnodup
  · exact hwhole
  · exact ⟨raised reading.index, hindexes, hlatest⟩
  · have hobserved := hindexes.observedRecords
    rw [List.length_map] at hobserved
    rw [← hobserved, ← hlimited.records]
    exact hlimited.observed
  · rw [← hseen]
    have hall : reading.index.seen.filter (fun row => decide (row.nameSpace = catalog.nameSpace)) =
        reading.index.seen := by
      rw [List.filter_eq_self]
      exact fun row hrow => decide_eq_true (hspace row hrow)
    have hcount := hexpected.2
    unfold JournalIndex.inventories expectedOf at hcount
    rw [hall] at hcount
    dsimp only at hcount
    show reading.index.seen.length = catalog.records
    by_cases hzero : catalog.records = 0
    · rw [if_pos hzero] at hcount
      rw [hzero]
      by_contra hne
      rw [if_neg hne] at hcount
      cases hcount
    · rw [if_neg hzero, if_pos rfl] at hcount
      split at hcount
      · cases hcount
      · exact Option.some.inj hcount
  · refine Eq.trans_le (List.Perm.length_eq ?_) hidentities
    have hadded : ∀ p ∈ (allEntries codec files).map fun e => ((e, none) : Entry × Option Unit), p.1 ∈ T := by
      intro p hp
      obtain ⟨e, he, rfl⟩ := List.mem_map.mp hp
      exact hfiles e he
    obtain ⟨hpair, hcover⟩ := (latestPairs_mem hT hadded hindexes).2 _ hlatest
    refine (List.perm_ext_iff_of_nodup (List.nodup_dedup _) (List.nodup_dedup _)).mpr ?_
    intro id
    simp only [List.mem_dedup, List.mem_append]
    rw [or_comm]
    refine or_congr ?_ Iff.rfl
    rw [List.mem_map, List.mem_map]
    constructor
    · rintro ⟨e, he, rfl⟩
      obtain ⟨row, hrow, horigin⟩ := hindexes.latestAll (e, none) (List.mem_map_of_mem he)
      obtain ⟨pair, hmem, hsame⟩ := hcover row hrow
      exact ⟨pair, hmem, (congrArg (fun origin => origin.2.2) (hsame.symm.trans horigin) :)⟩
    · rintro ⟨pair, hmem, rfl⟩
      obtain ⟨_, _, _, _, _, p, hp, heq⟩ := hpair pair hmem
      obtain ⟨e, he, rfl⟩ := List.mem_map.mp hp
      exact ⟨e, he, congrArg Entry.memoryId heq⟩

end Mnemion.JournalStaging
