/-
  Mnemion/UploadEquality.lean
  ===========================
  **A finished upload.**  Whatever the order of the chunks, it holds what the index computes
  of the complete files, in any order of the files (`Uploaded`).
-/
import Mathlib.Algebra.GroupWithZero.Nat
import Mnemion.UploadInventory

namespace Mnemion.JournalStaging

open Outcome ByteLines Journal

variable {codec : LineCodec} {T : Set Entry} {catalog : Catalog} {withdrawn : List UUID}
  {declared : List (Path × Nat)} {staging sealed : Staging} {entries : List Entry}

/-! ### The index over complete files -/

theorem claims_of_sameIdentity {a b : Entry} (h : SameIdentity a b) : Claims a b :=
  h.imp id fun hsame => ⟨congrArg (fun origin => origin.2.2) hsame.1, hsame.2⟩

/-- **The index takes consistent records** within its limits, and then says what it should. -/
theorem fold_indexes (hT : Digestible codec T) (hentries : ∀ e ∈ entries, e ∈ T) :
    ((∀ a ∈ entries, ∀ b ∈ entries, Claims a b → a = b) → entries.length ≤ 1000000 →
        (entries.map fun e => (codec.dump e ++ [newline]).length).sum ≤ 2 * 1024 ^ 3 →
        ∃ index, entries.foldlM (fun index e => index.add codec e none) (JournalIndex.empty : JournalIndex Unit) =
          .ok index) ∧
      ∀ index, entries.foldlM (fun index e => index.add codec e none) (JournalIndex.empty : JournalIndex Unit) =
          .ok index → Indexes codec (entries.map fun e => (e, none)) index := by
  have hdone : ∀ {done rest : List Entry} {e : Entry}, entries = done ++ e :: rest →
      (∀ p ∈ done.map fun e => ((e, none) : Entry × Option Unit), p.1 ∈ T) ∧ e ∈ T := by
    rintro done rest e rfl
    refine ⟨?_, hentries e (by simp)⟩
    intro p hp
    obtain ⟨a, ha, rfl⟩ := List.mem_map.mp hp
    exact hentries a (List.mem_append_left _ ha)
  constructor
  · intro hconsistent hlength hbytes
    obtain ⟨index, hindex, _⟩ := foldlM_succeeds
      (f := fun (index : JournalIndex Unit) e => index.add codec e none) (l := entries) (s := JournalIndex.empty)
      (fun done index => Indexes codec (done.map fun e => (e, none)) index) (by
        intro done e rest current hsplit hcurrent
        obtain ⟨hold, he⟩ := hdone hsplit
        obtain ⟨hok, hspec⟩ := Indexes.add none hT hold he hcurrent
        have haddable : Addable codec (done.map fun e => ((e, none) : Entry × Option Unit)) e := by
          constructor
          · rw [List.length_map]
            rw [hsplit, List.length_append, List.length_cons] at hlength
            omega
          · rw [List.map_map]
            rw [hsplit, List.map_append, List.sum_append, List.map_cons, List.sum_cons] at hbytes
            refine le_trans ?_ hbytes
            show (done.map fun e => (codec.dump e ++ [newline]).length).sum + _ ≤ _
            omega
          · intro p hp hsame
            obtain ⟨a, ha, rfl⟩ := List.mem_map.mp hp
            exact hconsistent a (by rw [hsplit]; simp [ha]) e (by rw [hsplit]; simp)
              (claims_of_sameIdentity hsame)
        obtain ⟨next, hnext⟩ := hok haddable
        refine ⟨next, hnext, ?_⟩
        rw [List.map_append]
        exact (hspec next hnext).2) indexes_empty
    exact ⟨index, hindex⟩
  · intro index hindex
    refine foldlM_split_invariant (fun done index => Indexes codec (done.map fun e => (e, none)) index) ?_
      indexes_empty hindex
    intro done e rest current next hsplit hcurrent hnext
    obtain ⟨hold, he⟩ := hdone hsplit
    rw [List.map_append]
    exact ((Indexes.add none hT hold he hcurrent).2 next hnext).2

/-! ### A finished upload -/

/-- The files of an upload, with the bytes that were accepted. -/
def Staging.contents (staging : Staging) : List (Path × Bytes) :=
  staging.files.map fun file => (file.path, file.content)

/-- **What a finished upload holds.** -/
structure Uploaded (codec : LineCodec) (catalog : Catalog) (declared : List (Path × Nat))
    (withdrawn : List UUID) (sealed : Staging) : Prop where
  /-- The uploaded bytes are the declared files. -/
  declared : sealed.contents.map (fun file => (file.1, file.2.length)) =
    Paging.sorted (fun file => file.1.key) declared
  whole : ∀ file ∈ sealed.contents, Whole codec catalog file
  completedFiles : sealed.completedFiles = sealed.files.length
  received : sealed.received = (sealed.contents.map fun file => file.2.length).sum
  totalBytes : sealed.received = sealed.totalBytes
  /-- The counters are exact. -/
  records : sealed.records = (allEntries codec sealed.contents).dedup.length
  expected : sealed.records = catalog.records
  duplicates : sealed.duplicates =
    (allEntries codec sealed.contents).length - (allEntries codec sealed.contents).dedup.length
  identities : sealed.identities =
    (withdrawn ++ (allEntries codec sealed.contents).map Entry.memoryId).dedup.length
  consistent : ∀ a ∈ allEntries codec sealed.contents, ∀ b ∈ allEntries codec sealed.contents,
    Claims a b → a = b
  /-- The index takes the records of the files, in any order of the files, and the tables
      hold what it computes. -/
  index : ∀ files, files.Perm sealed.contents →
    (((allEntries codec files).map fun e => (codec.dump e ++ [newline]).length).sum ≤ 2 * 1024 ^ 3 →
      ∃ index, (allEntries codec files).foldlM (fun index e => index.add codec e none)
        (JournalIndex.empty : JournalIndex Unit) = .ok index) ∧
    ∀ index, (allEntries codec files).foldlM (fun index e => index.add codec e none)
        (JournalIndex.empty : JournalIndex Unit) = .ok index →
      ∃ pairs, latestPairs codec index = .ok pairs ∧ Holds codec withdrawn pairs sealed.latest
  /-- So does the direct inventory. -/
  direct : ∀ files, files.Perm sealed.contents → ∀ catalogBytes pairs,
    inventory codec catalog catalogBytes files withdrawn = .ok pairs →
      Holds codec withdrawn pairs sealed.latest

theorem allEntries_contents : allEntries codec staging.contents = staging.entries codec := by
  unfold allEntries Staging.contents Staging.entries
  rw [List.flatMap_map]

theorem allEntries_perm {files files' : List (Path × Bytes)} (h : files.Perm files') :
    (allEntries codec files).Perm (allEntries codec files') := h.flatMap_right _

theorem finish_ok {chain : Bytes → Nat → Bytes → Bytes} {now : Time} {authorized : Bool} {expectedVersion : Nat}
    (h : staging.finish chain now authorized expectedVersion = .ok sealed) :
    staging.completedFiles = staging.files.length ∧ staging.records = staging.expectedRecords ∧
      sealed.contents = staging.contents ∧ sealed.latest = staging.latest ∧ sealed.files = staging.files ∧
      sealed.records = staging.records ∧ sealed.duplicates = staging.duplicates ∧
      sealed.identities = staging.identities ∧ sealed.received = staging.received ∧
      sealed.totalBytes = staging.totalBytes ∧ sealed.completedFiles = staging.completedFiles := by
  unfold Staging.finish at h
  simp only [bind_eq_ok, check_eq_ok, pure_eq_ok] at h
  obtain ⟨_, _, _, _, _, _, _, _, _, hcomplete, rfl⟩ := h
  exact ⟨hcomplete.1, hcomplete.2, rfl, rfl, rfl, rfl, rfl, rfl, rfl, rfl, rfl⟩

/-- **A finished upload.** -/
theorem finish_uploaded {chain : Bytes → Nat → Bytes → Bytes} {now : Time} {authorized : Bool}
    {expectedVersion : Nat} (hT : Digestible codec T)
    (h : Contents codec T catalog declared withdrawn staging) (hentries : ∀ e ∈ staging.entries codec, e ∈ T)
    (hfinish : staging.finish chain now authorized expectedVersion = .ok sealed) :
    Uploaded codec catalog declared withdrawn sealed := by
  obtain ⟨hcompleted, hexpected, hcontents, hlatest, hfiles, hrecords, hduplicates, hidentities, hreceived,
    htotal, hcompletedFiles⟩ := finish_ok hfinish
  have hstages := h.stages hentries
  -- every file is complete
  have hcomplete : ∀ file ∈ staging.files, file.complete = true := by
    rw [h.completedFiles, List.countP_eq_length] at hcompleted
    exact hcompleted
  have hfull : ∀ file ∈ staging.files, file.received = file.totalBytes ∧ file.content.length = file.totalBytes := by
    intro file hfile
    have hok := h.files file hfile
    have hdone := hcomplete file hfile
    rw [hok.complete, decide_eq_true_eq] at hdone
    exact ⟨hdone, hok.received.trans hdone⟩
  have hall : allEntries codec staging.contents = staging.entries codec := allEntries_contents
  have hscope : ∀ e ∈ staging.entries codec, e.nameSpace = catalog.nameSpace := by
    intro e he
    obtain ⟨file, hfile, he'⟩ := List.mem_flatMap.mp he
    rw [← h.nameSpace]
    exact ((h.files file hfile).scope e he').1
  have hin : ∀ files, files.Perm staging.contents → ∀ e ∈ allEntries codec files, e ∈ T := by
    intro files hperm e he
    apply hentries
    rw [← hall]
    exact (allEntries_perm hperm).mem_iff.mp he
  have hadded : ∀ files, files.Perm staging.contents →
      ∀ p ∈ (allEntries codec files).map fun e => ((e, none) : Entry × Option Unit), p.1 ∈ T := by
    intro files hperm p hp
    obtain ⟨e, he, rfl⟩ := List.mem_map.mp hp
    exact hin files hperm e he
  have hfst : ∀ files, files.Perm staging.contents →
      (((allEntries codec files).map fun e => ((e, none) : Entry × Option Unit)).map Prod.fst).Perm
        (staging.entries codec) := by
    intro files hperm
    rw [List.map_map, ← hall]
    exact (List.map_id _).symm ▸ allEntries_perm hperm
  constructor
  · rw [hcontents, ← h.declared]
    unfold Staging.contents
    rw [List.map_map]
    refine List.map_congr_left fun file hfile => ?_
    exact Prod.ext rfl (hfull file hfile).2
  · rw [hcontents]
    intro file hfile
    obtain ⟨row, hrow, rfl⟩ := List.mem_map.mp hfile
    have hok := h.files row hrow
    refine ⟨?_, hok.reads, ?_⟩
    · rw [← hok.tail]
      exact hok.whole (hcomplete row hrow)
    · rw [← h.nameSpace]
      exact hok.scope
  · rw [hcompletedFiles, hfiles, hcompleted]
  · rw [hreceived, hcontents, h.received]
    unfold Staging.contents
    rw [List.map_map]
    refine congrArg List.sum (List.map_congr_left fun file hfile => ?_)
    exact (h.files file hfile).received.symm
  · rw [hreceived, htotal, h.received, h.totalBytes]
    exact congrArg List.sum (List.map_congr_left fun file hfile => (hfull file hfile).1)
  · rw [hrecords, hcontents, hall, hstages.distinct]
  · rw [hrecords, hexpected, h.expected]
  · rw [hduplicates, hcontents, hall, hstages.duplicates, hstages.physical, hstages.distinct]
  · rw [hidentities, hcontents, hall, hstages.memories_distinct]
  · rw [hcontents, hall]
    exact hstages.consistent
  · rw [hcontents, hlatest]
    intro files hperm
    have hmem : ∀ e, e ∈ allEntries codec files ↔ e ∈ staging.entries codec := by
      intro e
      rw [← hall]
      exact (allEntries_perm hperm).mem_iff
    obtain ⟨hok, hspec⟩ := fold_indexes hT (hin files hperm)
    constructor
    · apply hok
      · intro a ha b hb
        exact hstages.consistent a ((hmem a).mp ha) b ((hmem b).mp hb)
      · rw [(allEntries_perm hperm).length_eq, hall, ← hstages.physical]
        exact h.limit
    · intro index hindex
      have hindexes := hspec index hindex
      obtain ⟨pairs, hpairs⟩ := (latestPairs_mem hT (hadded files hperm) hindexes).1
      exact ⟨pairs, hpairs, hstages.holds hT (hadded files hperm) hindexes (hfst files hperm) hscope hpairs⟩
  · rw [hcontents, hlatest]
    intro files hperm catalogBytes pairs hinventory
    obtain ⟨index, hindexes, hpairs⟩ := (inventory_direct hT (hin files hperm) hinventory).index
    exact hstages.holds hT (hadded files hperm) hindexes (hfst files hperm) hscope hpairs

end Mnemion.JournalStaging
