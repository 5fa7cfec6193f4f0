/-
  Mnemion/UploadContents.lean
  ===========================
  **What the files of an upload hold** at every point (`Contents`): the bytes accepted so
  far, their complete lines read as records, the rest in the tail, and the staging tables
  of all the records.
-/
import Mathlib.Algebra.GroupWithZero.Nat
import Mathlib.Algebra.BigOperators.Group.List.Basic
import Mnemion.UploadRecords

namespace Mnemion.JournalStaging

open Outcome ByteLines Journal

variable {codec : LineCodec} {T : Set Entry} {withdrawn : List UUID} {staging staging' : Staging}
  {file : FileRow} {call : Chunk} {declared : List (Path × Nat)} {catalog : Catalog}

/-! ### The records of a file -/

/-- The records of the complete lines of a file. -/
def readEntries (codec : LineCodec) (content : Bytes) : List Entry :=
  match (completeLines content).mapM (parseLine codec) with
  | .ok entries => entries
  | .error _ => []

theorem readEntries_ok {content : Bytes} {entries : List Entry}
    (h : (completeLines content).mapM (parseLine codec) = .ok entries) : readEntries codec content = entries := by
  unfold readEntries
  rw [h]

def Staging.entries (codec : LineCodec) (staging : Staging) : List Entry :=
  staging.files.flatMap fun file => readEntries codec file.content

/-- **A file**: its bytes so far are complete lines of readable records of its path, and a
    tail. -/
structure FileOk (codec : LineCodec) (nameSpace : UUID × UUID) (file : FileRow) : Prop where
  received : file.content.length = file.received
  bound : file.received ≤ file.totalBytes
  tail : file.tail = (splitLines file.content).2
  reads : (completeLines file.content).mapM (parseLine codec) = .ok (readEntries codec file.content)
  scope : ∀ entry ∈ readEntries codec file.content,
    entry.nameSpace = nameSpace ∧ matchesPath entry file.path.relative
  complete : file.complete = decide (file.received = file.totalBytes)
  whole : file.complete = true → file.tail = []

/-- The file after a chunk. -/
def FileRow.after (codec : LineCodec) (file : FileRow) (call : Chunk) : FileRow :=
  { file with
    received := file.received + call.data.length
    tail := (splitLines (file.tail ++ call.data)).2
    transportSha256 := transportDigest codec file.transportSha256 call.offset call.data
    complete := decide (file.received + call.data.length = file.totalBytes)
    content := file.content ++ call.data }

/-- **What an accepted chunk passed.** -/
structure Accepts (codec : LineCodec) (staging : Staging) (call : Chunk) (file : FileRow)
    (entries : List Entry) (staged : Staging) : Prop where
  phase : staging.phase = .uploading
  offset : call.offset = file.received
  length : call.data.length = min CHUNK_BYTES (file.totalBytes - file.received)
  tail : ¬(MAX_LINE_BYTES ≤ (splitLines (file.tail ++ call.data)).2.length ∨
    (file.received + call.data.length = file.totalBytes ∧ (splitLines (file.tail ++ call.data)).2 ≠ []))
  reads : (splitLines (file.tail ++ call.data)).1.mapM (parseLine codec) = .ok entries
  scope : ∀ entry ∈ entries, entry.nameSpace = staging.nameSpace ∧ matchesPath entry file.path.relative
  stages : staging.stage codec entries = .ok staged

/-- The upload after a chunk whose records are staged. -/
def Staging.received' (codec : LineCodec) (staged : Staging) (call : Chunk) (file : FileRow) : Staging :=
  { staged with
    files := staged.files.set call.index (file.after codec call)
    chunks := staged.chunks ++ [⟨call.index, call.offset, call.data.length, call.sha256⟩]
    received := staged.received + call.data.length
    completedFiles := staged.completedFiles + (file.after codec call).complete.toNat
    version := staged.version + 1
    expires := call.now + RETENTION }

theorem accept_ok : staging.accept codec call file = .ok staging' ↔
    ∃ entries staged, Accepts codec staging call file entries staged ∧
      staging' = staged.received' codec call file := by
  unfold Staging.accept
  simp only [bind_eq_ok, check_eq_ok, pure_eq_ok, mapError_eq_ok]
  constructor
  · rintro ⟨_, hphase, _, ⟨hoffset, hlength⟩, _, htail, entries, hreads, _, hscope, staged, hstage, rfl⟩
    exact ⟨entries, staged, ⟨hphase, hoffset, hlength, htail, hreads, hscope, hstage⟩, rfl⟩
  · rintro ⟨entries, staged, h, rfl⟩
    exact ⟨(), h.phase, (), ⟨h.offset, h.length⟩, (), h.tail, entries, h.reads, (), h.scope, staged, h.stages,
      rfl⟩

/-- A call either repeats an accepted chunk or is accepted. -/
theorem chunk_ok (h : staging.chunk codec call = .ok staging') :
    0 < call.data.length ∧ codec.sha256 call.data = call.sha256 ∧
      ∃ file, staging.files[call.index]? = some file ∧
        (staging' = staging ∧ (∃ row ∈ staging.chunks, row.fileIndex = call.index ∧
            row.fileOffset = call.offset ∧ row.bytes = call.data.length ∧ row.sha256 = call.sha256) ∨
          ∃ entries staged, Accepts codec staging call file entries staged ∧
            staging' = staged.received' codec call file) := by
  unfold Staging.chunk at h
  simp only [bind_eq_ok, check_eq_ok] at h
  obtain ⟨_, ⟨hpos, _, hsha⟩, _, _, _, _, h⟩ := h
  split at h
  · simp at h
  · rename_i file hfile
    refine ⟨hpos, hsha, file, hfile, ?_⟩
    split at h
    · rename_i previous hprevious
      simp only [bind_eq_ok, check_eq_ok, pure_eq_ok] at h
      obtain ⟨_, hsame, rfl⟩ := h
      have hkey := List.find?_some hprevious
      rw [decide_eq_true_eq] at hkey
      exact Or.inl ⟨rfl, previous, List.mem_of_find?_eq_some hprevious, hkey.1, hkey.2, hsame.1, hsame.2⟩
    · exact Or.inr (accept_ok.mp h)

/-- **A chunk extends its file** by its records. -/
theorem FileOk.after {entries : List Entry} {staged : Staging} (h : FileOk codec staging.nameSpace file)
    (haccepts : Accepts codec staging call file entries staged) :
    FileOk codec staging.nameSpace (file.after codec call) ∧
      readEntries codec (file.content ++ call.data) = readEntries codec file.content ++ entries := by
  obtain ⟨hlines, htail⟩ := splitLines_append file.content call.data
  rw [← h.tail] at hlines htail
  have hreads : (completeLines (file.content ++ call.data)).mapM (parseLine codec) =
      .ok (readEntries codec file.content ++ entries) := by
    have hold := h.reads
    unfold completeLines at hold ⊢
    rw [hlines, List.mapM_append, hold, haccepts.reads]
    rfl
  have hentries := readEntries_ok hreads
  refine ⟨?_, hentries⟩
  constructor
  · show (file.content ++ call.data).length = file.received + call.data.length
    rw [List.length_append, h.received]
  · show file.received + call.data.length ≤ file.totalBytes
    have hlength := haccepts.length
    have hbound := h.bound
    omega
  · exact htail.symm
  · show (completeLines (file.content ++ call.data)).mapM (parseLine codec) =
      .ok (readEntries codec (file.content ++ call.data))
    rw [hentries]
    exact hreads
  · show ∀ entry ∈ readEntries codec (file.content ++ call.data), _
    rw [hentries]
    intro entry hentry
    rcases List.mem_append.mp hentry with hold | hnew
    · exact h.scope entry hold
    · exact haccepts.scope entry hnew
  · rfl
  · intro hcomplete
    by_contra hne
    exact haccepts.tail (Or.inr ⟨of_decide_eq_true hcomplete, hne⟩)

/-! ### The upload -/

/-- Staging leaves the files and the counters of the transport alone. -/
theorem after_rest (entries unique : List Entry) (latest : List Summary) :
    (staging.after codec entries unique latest).files = staging.files := rfl

theorem set_perm {α β : Type*} (g : α → List β) {l : List α} {n : Nat} {a b : α} {more : List β}
    (ha : l[n]? = some a) (hb : g b = g a ++ more) : ((l.set n b).flatMap g).Perm (l.flatMap g ++ more) := by
  obtain ⟨hn, rfl⟩ := List.getElem?_eq_some_iff.mp ha
  have hset : l.set n b = l.take n ++ b :: l.drop (n + 1) := List.set_eq_take_append_cons_drop.trans (if_pos hn)
  have hsplit : l.flatMap g = (l.take n).flatMap g ++ (g l[n] ++ (l.drop (n + 1)).flatMap g) := by
    conv_lhs => rw [← List.take_append_drop n l, List.drop_eq_getElem_cons hn]
    rw [List.flatMap_append, List.flatMap_cons]
  rw [hset, hsplit, List.flatMap_append, List.flatMap_cons, hb, List.append_assoc, List.append_assoc,
    List.append_assoc]
  refine List.Perm.append_left _ (List.Perm.append_left _ ?_)
  exact List.perm_append_comm

theorem sum_toNat (p : FileRow → Bool) (l : List FileRow) :
    (l.map fun file => (p file).toNat).sum = l.countP p := by
  induction l with
  | nil => rfl
  | cons file l ih =>
    rw [List.map_cons, List.sum_cons, ih, List.countP_cons, Nat.add_comm]
    cases p file <;> rfl

theorem set_sum (g : FileRow → Nat) {l : List FileRow} {n : Nat} {a b : FileRow} {more : Nat}
    (ha : l[n]? = some a) (hb : g b = g a + more) : ((l.set n b).map g).sum = (l.map g).sum + more := by
  obtain ⟨hn, rfl⟩ := List.getElem?_eq_some_iff.mp ha
  have hset : l.set n b = l.take n ++ b :: l.drop (n + 1) := List.set_eq_take_append_cons_drop.trans (if_pos hn)
  have hsplit : (l.map g).sum = ((l.take n).map g).sum + (g l[n] + ((l.drop (n + 1)).map g).sum) := by
    conv_lhs => rw [← List.take_append_drop n l, List.drop_eq_getElem_cons hn]
    rw [List.map_append, List.sum_append, List.map_cons, List.sum_cons]
  rw [hset, hsplit, List.map_append, List.sum_append, List.map_cons, List.sum_cons, hb]
  omega

/-- **Every upload in progress.** -/
structure Contents (codec : LineCodec) (T : Set Entry) (catalog : Catalog) (declared : List (Path × Nat))
    (withdrawn : List UUID) (staging : Staging) : Prop where
  nameSpace : staging.nameSpace = catalog.nameSpace
  phase : staging.phase = .uploading
  expected : staging.expectedRecords = catalog.records
  limit : staging.physicalRecords ≤ UPLOAD_RECORDS
  declared : staging.files.map (fun file => (file.path, file.totalBytes)) =
    Paging.sorted (fun file => file.1.key) declared
  files : ∀ file ∈ staging.files, FileOk codec staging.nameSpace file
  totalBytes : staging.totalBytes = (staging.files.map FileRow.totalBytes).sum
  received : staging.received = (staging.files.map FileRow.received).sum
  completedFiles : staging.completedFiles = staging.files.countP FileRow.complete
  /-- An accepted chunk is a stretch of its file. -/
  chunks : ∀ row ∈ staging.chunks, ∃ file, staging.files[row.fileIndex]? = some file ∧
    0 < row.bytes ∧ row.fileOffset + row.bytes ≤ file.received ∧
    row.bytes = min CHUNK_BYTES (file.totalBytes - row.fileOffset) ∧
    row.sha256 = codec.sha256 ((file.content.drop row.fileOffset).take row.bytes)
  stages : (∀ entry ∈ staging.entries codec, entry ∈ T) →
    Stages codec withdrawn (staging.entries codec) staging

/-- An upload begins with its withdrawn identities. -/
theorem stages_start (hphysical : staging.physicalRecords = 0) (hrecords : staging.records = 0)
    (hduplicates : staging.duplicates = 0) (hevents : staging.events = [])
    (hidentities : staging.identities = withdrawn.dedup.length)
    (hlatest : staging.latest = withdrawn.dedup.map fun original => ⟨original, 0, true, none, 0, none⟩) :
    Stages codec withdrawn [] staging := by
  have hrow : ∀ row ∈ staging.latest, row.originalId ∈ withdrawn ∧
      row = ⟨row.originalId, 0, true, none, 0, none⟩ := by
    intro row hrow
    rw [hlatest] at hrow
    obtain ⟨id, hid, rfl⟩ := List.mem_map.mp hrow
    exact ⟨List.mem_dedup.mp hid, rfl⟩
  constructor
  · exact hphysical
  · rw [hrecords, hevents]
    rfl
  · rw [hduplicates, hphysical]
    exact (Nat.zero_sub _).symm
  · rw [hidentities, hlatest, List.length_map]
  · simp [hevents]
  · simp
  · simp [hevents]
  · simp
  · intro row hmem
    obtain ⟨hid, heq⟩ := hrow row hmem
    exact Or.inl ⟨hid, congrArg StagedRow.sourceVersion heq, congrArg StagedRow.action heq,
      congrArg StagedRow.line heq, by simp⟩
  · intro row hmem
    obtain ⟨hid, heq⟩ := hrow row hmem
    exact iff_of_true (congrArg StagedRow.denied heq) (Or.inl hid)
  · intro row hmem
    obtain ⟨_, heq⟩ := hrow row hmem
    rw [heq]
    rfl
  · simp
  · intro id hid
    rw [hlatest]
    exact ⟨_, List.mem_map_of_mem (List.mem_dedup.mpr hid), rfl⟩
  · rw [hlatest, List.map_map]
    exact (List.map_id _).symm ▸ List.nodup_dedup withdrawn

theorem start_contents {catalogBytes : Nat} {declaration : Bytes} {now : Time}
    (h : start catalog catalogBytes declared withdrawn declaration now = .ok staging) :
    Contents codec T catalog declared withdrawn staging := by
  unfold start at h
  simp only [bind_eq_ok, check_eq_ok, pure_eq_ok] at h
  obtain ⟨_, _, _, _, _, _, rfl⟩ := h
  have hempty : ∀ file ∈ (Paging.sorted (fun file : Path × Nat => file.1.key) declared).map (fun file =>
      (⟨file.1, file.2, 0, [], List.replicate 32 0, file.2 == 0, []⟩ : FileRow)),
      file.content = [] ∧ file.received = 0 ∧ file.tail = [] ∧ file.complete = decide (0 = file.totalBytes) := by
    intro file hfile
    obtain ⟨pair, _, rfl⟩ := List.mem_map.mp hfile
    refine ⟨rfl, rfl, rfl, ?_⟩
    rw [Bool.eq_iff_iff, beq_iff_eq, decide_eq_true_eq, eq_comm]
  have hentries : readEntries codec [] = [] := rfl
  constructor
  · rfl
  · rfl
  · rfl
  · exact Nat.zero_le _
  · dsimp only
    rw [List.map_map]
    exact List.map_id _
  · intro file hfile
    obtain ⟨hcontent, hreceived, htail, hcomplete⟩ := hempty file hfile
    constructor
    · rw [hcontent, hreceived]
      rfl
    · rw [hreceived]
      exact Nat.zero_le _
    · rw [hcontent, htail]
      rfl
    · rw [hcontent]
      rfl
    · rw [hcontent, hentries]
      simp
    · rw [hreceived, hcomplete]
    · exact fun _ => htail
  · dsimp only
    rw [List.map_map]
    rfl
  · dsimp only
    rw [List.map_map, List.sum_eq_zero]
    intro n hn
    obtain ⟨_, _, rfl⟩ := List.mem_map.mp hn
    rfl
  · dsimp only
    rw [List.countP_map]
    rfl
  · simp
  · intro _
    have hnone : ∀ {l : List FileRow}, (∀ file ∈ l, file.content = []) →
        (l.flatMap fun file => readEntries codec file.content) = [] := by
      intro l hl
      rw [List.flatMap_eq_nil_iff]
      intro file hfile
      rw [hl file hfile]
      exact hentries
    unfold Staging.entries
    rw [hnone fun file hfile => (hempty file hfile).1]
    exact stages_start rfl rfl rfl rfl rfl rfl

/-- What staging a chunk leaves alone. -/
structure SameUpload (before after : Staging) : Prop where
  nameSpace : after.nameSpace = before.nameSpace
  phase : after.phase = before.phase
  totalBytes : after.totalBytes = before.totalBytes
  received : after.received = before.received
  completedFiles : after.completedFiles = before.completedFiles
  expectedRecords : after.expectedRecords = before.expectedRecords
  files : after.files = before.files
  chunks : after.chunks = before.chunks
  limit : after.physicalRecords ≤ UPLOAD_RECORDS

theorem stage_same {entries : List Entry} (h : staging.stage codec entries = .ok staging') :
    SameUpload staging staging' := by
  unfold Staging.stage at h
  simp only [bind_eq_ok, check_eq_ok, pure_eq_ok] at h
  obtain ⟨_, hlimit, _, _, _, _, _, _, _, _, _, _, _, _, rfl⟩ := h
  exact ⟨rfl, rfl, rfl, rfl, rfl, rfl, rfl, rfl, hlimit⟩

/-- The records of an upload after a chunk. -/
theorem received_entries {entries : List Entry} {staged : Staging} (hfile : staging.files[call.index]? = some file)
    (hok : FileOk codec staging.nameSpace file) (haccepts : Accepts codec staging call file entries staged) :
    ((staged.received' codec call file).entries codec).Perm (staging.entries codec ++ entries) := by
  obtain ⟨_, hreads⟩ := hok.after haccepts
  show ((staged.files.set call.index (file.after codec call)).flatMap _).Perm _
  rw [(stage_same haccepts.stages).files]
  exact set_perm (fun file : FileRow => readEntries codec file.content) hfile hreads

/-- **An accepted chunk keeps what the files hold.** -/
theorem received_contents {entries : List Entry} {staged : Staging} (hT : Digestible codec T)
    (h : Contents codec T catalog declared withdrawn staging) (hpos : 0 < call.data.length)
    (hsha : codec.sha256 call.data = call.sha256) (hfile : staging.files[call.index]? = some file)
    (haccepts : Accepts codec staging call file entries staged) :
    Contents codec T catalog declared withdrawn (staged.received' codec call file) := by
  have hsame := stage_same haccepts.stages
  have hok := h.files file (List.mem_of_getElem? hfile)
  obtain ⟨hafter, _⟩ := hok.after haccepts
  have hperm := received_entries hfile hok haccepts
  have hbound : call.index < staging.files.length := (List.getElem?_eq_some_iff.mp hfile).1
  constructor
  · exact hsame.nameSpace.trans h.nameSpace
  · exact hsame.phase.trans h.phase
  · exact hsame.expectedRecords.trans h.expected
  · exact hsame.limit
  · show (staged.files.set call.index (file.after codec call)).map _ = _
    rw [hsame.files, ← h.declared, List.map_set]
    have hmapped : call.index < (staging.files.map fun file => (file.path, file.totalBytes)).length := by
      rw [List.length_map]
      exact hbound
    have hget : (staging.files.map fun file => (file.path, file.totalBytes))[call.index] =
        (file.path, file.totalBytes) := by
      rw [List.getElem_map, (List.getElem?_eq_some_iff.mp hfile).2]
    exact hget ▸ List.set_getElem_self hmapped
  · intro other hother
    show FileOk codec staged.nameSpace other
    rw [hsame.nameSpace]
    have hmem : other ∈ staged.files.set call.index (file.after codec call) := hother
    rw [hsame.files] at hmem
    rcases List.mem_or_eq_of_mem_set hmem with hold | rfl
    · exact h.files other hold
    · exact hafter
  · show staged.totalBytes = ((staged.files.set call.index (file.after codec call)).map _).sum
    rw [hsame.totalBytes, hsame.files, h.totalBytes,
      set_sum FileRow.totalBytes hfile (show (file.after codec call).totalBytes = _ + 0 from rfl), Nat.add_zero]
  · show staged.received + call.data.length = ((staged.files.set call.index (file.after codec call)).map _).sum
    rw [hsame.received, hsame.files, h.received, set_sum FileRow.received hfile rfl]
  · show staged.completedFiles + (file.after codec call).complete.toNat =
      (staged.files.set call.index (file.after codec call)).countP _
    -- a file that takes a chunk was not complete
    have hopen : file.complete = false := by
      rw [hok.complete, decide_eq_false_iff_not]
      have hlength := haccepts.length
      intro heq
      omega
    rw [hsame.completedFiles, hsame.files, h.completedFiles, ← sum_toNat, ← sum_toNat,
      set_sum (fun file => file.complete.toNat) hfile (by rw [hopen, Bool.toNat_false, Nat.zero_add])]
  · intro row hrow
    show ∃ found, (staged.files.set call.index (file.after codec call))[row.fileIndex]? = some found ∧ _
    rw [hsame.files]
    rcases List.mem_append.mp hrow with hold | hnew
    · rw [hsame.chunks] at hold
      obtain ⟨found, hfound, hbytes, hle, hlength, hdigest⟩ := h.chunks row hold
      by_cases hindex : call.index = row.fileIndex
      · rw [← hindex, hfile] at hfound
        cases hfound
        refine ⟨file.after codec call, ?_, hbytes, ?_, hlength, ?_⟩
        · rw [← hindex, List.getElem?_set_self hbound]
        · exact hle.trans (Nat.le_add_right _ _)
        · rw [hdigest]
          show _ = codec.sha256 (((file.content ++ call.data).drop row.fileOffset).take row.bytes)
          rw [List.drop_append_of_le_length (by rw [hok.received]; omega), List.take_append_of_le_length]
          rw [List.length_drop, hok.received]
          omega
      · exact ⟨found, by rw [List.getElem?_set_ne hindex]; exact hfound, hbytes, hle, hlength, hdigest⟩
    · rw [List.mem_singleton] at hnew
      subst hnew
      refine ⟨file.after codec call, List.getElem?_set_self hbound, hpos, ?_, ?_, ?_⟩
      · show call.offset + call.data.length ≤ file.received + call.data.length
        rw [haccepts.offset]
      · show call.data.length = min CHUNK_BYTES (file.totalBytes - call.offset)
        rw [haccepts.offset]
        exact haccepts.length
      · show call.sha256 = codec.sha256 (((file.content ++ call.data).drop call.offset).take call.data.length)
        rw [haccepts.offset, ← hok.received, List.drop_left, List.take_length, hsha]
  · intro hmem
    have hall : ∀ entry ∈ staging.entries codec ++ entries, entry ∈ T :=
      fun entry hentry => hmem entry (hperm.mem_iff.mpr hentry)
    have hstaged : ∀ entry ∈ staging.entries codec, entry ∈ T :=
      fun entry hentry => hall entry (List.mem_append_left _ hentry)
    obtain ⟨hstages, _⟩ := stage_ok hT hstaged (fun entry hentry => hall entry (List.mem_append_right _ hentry))
      (h.stages hstaged) haccepts.stages
    have hpermuted := hstages.perm hperm.symm
    exact ⟨hpermuted.physical, hpermuted.records, hpermuted.duplicates, hpermuted.identities,
      hpermuted.eventRow, hpermuted.eventAll, hpermuted.eventKeys, hpermuted.consistent, hpermuted.row,
      hpermuted.denied, hpermuted.priority, hpermuted.memories, hpermuted.withdrawals, hpermuted.keys⟩

theorem chunk_contents (hT : Digestible codec T) (h : Contents codec T catalog declared withdrawn staging)
    (hchunk : staging.chunk codec call = .ok staging') :
    Contents codec T catalog declared withdrawn staging' := by
  obtain ⟨hpos, hsha, file, hfile, ⟨rfl, _⟩ | ⟨entries, staged, haccepts, rfl⟩⟩ := chunk_ok hchunk
  · exact h
  · exact received_contents hT h hpos hsha hfile haccepts

/-- **Every upload in progress** holds what it was sent. -/
theorem uploading_contents (hT : Digestible codec T) (h : Contents codec T catalog declared withdrawn staging)
    (calls : List Chunk) :
    Contents codec T catalog declared withdrawn ((uploading codec staging).run calls) := by
  refine (uploading codec staging).run_invariant (Contents codec T catalog declared withdrawn) (fun _ => True)
    h ?_ calls fun _ _ => trivial
  intro current call _ hcurrent
  dsimp only [uploading]
  split
  · rename_i after hafter
    exact chunk_contents hT hcurrent hafter
  · exact hcurrent

end Mnemion.JournalStaging
