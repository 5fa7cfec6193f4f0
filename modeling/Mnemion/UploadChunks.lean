/-
  Mnemion/UploadChunks.lean
  =========================
  **The chunks of declared files.**  While every accepted chunk is a stretch of its file,
  what is staged of a file is a part of it (`Follows`).  Where the direct inventory takes
  the files, every such chunk is taken in its turn, again when it is repeated, and the
  upload can be finished (`upload_equals_recovery`).
-/
import Mathlib.Algebra.Order.Group.Nat
import Mnemion.UploadEquality

namespace Mnemion.JournalStaging

open Outcome ByteLines Journal

variable {codec : LineCodec} {T : Set Entry} {catalog : Catalog} {withdrawn : List UUID}
  {declared : List (Path × Nat)} {staging staging' sealed : Staging} {files : List (Path × Bytes)}
  {file : FileRow} {call : Chunk} {pairs : List (Entry × Bool)}

/-! ### A part of a stream -/

/-- What follows the last newline of a part is shorter than its line in the whole. -/
theorem tail_lt_line {tail more : Bytes} {lines : List Bytes} (hnewline : newline ∉ tail)
    (hlines : ∀ line ∈ lines, IsLine line) (h : tail ++ more = lines.flatten) :
    tail = [] ∨ ∃ line ∈ lines, tail.length < line.length := by
  cases lines with
  | nil =>
    rw [List.flatten_nil, List.append_eq_nil_iff] at h
    exact Or.inl h.1
  | cons line lines =>
    right
    refine ⟨line, List.mem_cons_self, ?_⟩
    obtain ⟨body, _, rfl⟩ := hlines line List.mem_cons_self
    by_contra hle
    rw [not_lt] at hle
    -- a longer tail begins with the line and holds its newline
    have hfront : (body ++ [newline]) <+: tail := by
      rw [List.flatten_cons] at h
      exact List.prefix_of_prefix_length_le (List.prefix_append _ lines.flatten) (h ▸ List.prefix_append tail more) hle
    exact hnewline (hfront.subset (by simp))

theorem take_take_length {α : Type*} (n : Nat) (l : List α) : l.take (l.take n).length = l.take n := by
  rw [List.length_take, List.take_eq_take_iff]
  omega

/-! ### Parts of the declared files -/

/-- The bytes of the file with a path. -/
def wholeOf (files : List (Path × Bytes)) (path : Path) : Bytes :=
  ((files.find? fun file => decide (file.1 = path)).map Prod.snd).getD []

theorem wholeOf_eq {path : Path} {content : Bytes} (hpaths : (files.map Prod.fst).Nodup)
    (h : (path, content) ∈ files) : wholeOf files path = content := by
  unfold wholeOf
  cases hfound : files.find? fun file => decide (file.1 = path) with
  | none =>
    have hnone := List.find?_eq_none.mp hfound _ h
    simp at hnone
  | some found =>
    have hkey : found.1 = path := of_decide_eq_true (List.find?_some hfound :)
    have hsame := List.inj_on_of_nodup_map hpaths (List.mem_of_find?_eq_some hfound) h hkey
    rw [hsame]
    rfl

/-- **A correct call** sends a full stretch of a declared file, or the end of it. -/
structure Correct (codec : LineCodec) (declared : List (Path × Nat)) (files : List (Path × Bytes))
    (call : Chunk) : Prop where
  stretch : ∃ path content, (Paging.sorted (fun file : Path × Nat => file.1.key) declared)[call.index]? =
      some (path, content.length) ∧ (path, content) ∈ files ∧
    call.data = (content.drop call.offset).take CHUNK_BYTES
  nonempty : call.data ≠ []
  sha256 : codec.sha256 call.data = call.sha256
  authorized : call.authorized = true

/-- A call that is correct, or that the upload rejects. -/
def Sent (codec : LineCodec) (declared : List (Path × Nat)) (files : List (Path × Bytes))
    (staging : Staging) (call : Chunk) : Prop :=
  Correct codec declared files call ∨ ∃ e, staging.chunk codec call = .error e

/-- **What is staged of the files is a part of them.** -/
structure Follows (files : List (Path × Bytes)) (rows : List FileRow) : Prop where
  arranged : (rows.map fun row => (row.path, wholeOf files row.path)).Perm files
  length : ∀ row ∈ rows, (wholeOf files row.path).length = row.totalBytes
  content : ∀ row ∈ rows, row.content = (wholeOf files row.path).take row.received

theorem declared_paths (hfiles : (files.map fun file => (file.1, file.2.length)).Perm declared)
    (hnodup : ((Paging.sorted (fun file : Path × Nat => file.1.key) declared).map Prod.fst).Nodup) :
    (files.map Prod.fst).Nodup := by
  have hperm := ((Paging.sorted_perm (fun file : Path × Nat => file.1.key) declared).trans hfiles.symm).map Prod.fst
  rw [List.map_map] at hperm
  exact hperm.nodup_iff.mp hnodup

theorem start_follows {catalogBytes : Nat} {declaration : Bytes} {now : Time}
    (hfiles : (files.map fun file => (file.1, file.2.length)).Perm declared)
    (h : start catalog catalogBytes declared withdrawn declaration now = .ok staging) :
    (files.map Prod.fst).Nodup ∧ Follows files staging.files := by
  unfold start at h
  simp only [bind_eq_ok, check_eq_ok, pure_eq_ok] at h
  obtain ⟨_, _, _, hnodup, _, _, rfl⟩ := h
  have hpaths := declared_paths hfiles hnodup
  have hsorted := (Paging.sorted_perm (fun file : Path × Nat => file.1.key) declared).trans hfiles.symm
  refine ⟨hpaths, ?_⟩
  constructor
  · dsimp only
    rw [List.map_map]
    refine (hsorted.map _).trans ?_
    rw [List.map_map]
    refine List.Perm.of_eq ((List.map_congr_left fun file hfile => ?_).trans (List.map_id _))
    exact Prod.ext rfl (wholeOf_eq hpaths hfile)
  · intro row hrow
    obtain ⟨pair, hpair, rfl⟩ := List.mem_map.mp hrow
    obtain ⟨file, hfile, rfl⟩ := List.mem_map.mp (hsorted.mem_iff.mp hpair)
    show (wholeOf files file.1).length = file.2.length
    rw [wholeOf_eq hpaths hfile]
  · intro row hrow
    obtain ⟨pair, _, rfl⟩ := List.mem_map.mp hrow
    rfl

/-- The stretch that a correct call sends of its file. -/
theorem Correct.data (hpaths : (files.map Prod.fst).Nodup) (hcall : Correct codec declared files call)
    (h : Contents codec T catalog declared withdrawn staging) :
    ∃ file, staging.files[call.index]? = some file ∧
      call.data = ((wholeOf files file.path).drop call.offset).take CHUNK_BYTES := by
  obtain ⟨path, content, hindex, hmem, hdata⟩ := hcall.stretch
  rw [← h.declared, List.getElem?_map, Option.map_eq_some_iff] at hindex
  obtain ⟨file, hfile, heq⟩ := hindex
  have hpath : file.path = path := congrArg Prod.fst heq
  refine ⟨file, hfile, ?_⟩
  rw [hpath, wholeOf_eq hpaths hmem]
  exact hdata

/-- A file that takes the next stretch of itself. -/
theorem Follows.after (hrows : Follows files staging.files) (hfile : staging.files[call.index]? = some file)
    (hoffset : call.offset = file.received)
    (hdata : call.data = ((wholeOf files file.path).drop call.offset).take CHUNK_BYTES) :
    Follows files (staging.files.set call.index (file.after codec call)) := by
  have hmem := List.mem_of_getElem? hfile
  obtain ⟨hbound, hget⟩ := List.getElem?_eq_some_iff.mp hfile
  constructor
  · rw [List.map_set]
    have hmapped : call.index < (staging.files.map fun row => (row.path, wholeOf files row.path)).length := by
      rw [List.length_map]
      exact hbound
    have hsame : (staging.files.map fun row => (row.path, wholeOf files row.path))[call.index] =
        (file.path, wholeOf files file.path) := by
      rw [List.getElem_map, hget]
    have hset : (staging.files.map fun row => (row.path, wholeOf files row.path)).set call.index
        (file.path, wholeOf files file.path) = staging.files.map fun row => (row.path, wholeOf files row.path) :=
      hsame ▸ List.set_getElem_self hmapped
    exact hset.symm ▸ hrows.arranged
  · intro row hrow
    rcases List.mem_or_eq_of_mem_set hrow with hold | rfl
    · exact hrows.length row hold
    · exact hrows.length file hmem
  · intro row hrow
    rcases List.mem_or_eq_of_mem_set hrow with hold | rfl
    · exact hrows.content row hold
    · show file.content ++ call.data = (wholeOf files file.path).take (file.received + call.data.length)
      rw [List.take_add, hrows.content file hmem, ← hoffset]
      congr 1
      rw [hdata]
      exact (take_take_length _ _).symm

/-- **A correct call keeps to the files.** -/
theorem chunk_follows (hpaths : (files.map Prod.fst).Nodup) (h : Contents codec T catalog declared withdrawn staging)
    (hrows : Follows files staging.files) (hcall : Correct codec declared files call)
    (hchunk : staging.chunk codec call = .ok staging') : Follows files staging'.files := by
  obtain ⟨_, _, file, hfile, ⟨rfl, _⟩ | ⟨entries, staged, haccepts, rfl⟩⟩ := chunk_ok hchunk
  · exact hrows
  · obtain ⟨found, hfound, hdata⟩ := hcall.data hpaths h
    rw [hfile] at hfound
    cases hfound
    show Follows files (staged.files.set call.index (file.after codec call))
    rw [(stage_same haccepts.stages).files]
    exact hrows.after hfile haccepts.offset hdata

/-- **Every upload of these files** holds a part of each of them. -/
theorem uploading_follows (hT : Digestible codec T) (hpaths : (files.map Prod.fst).Nodup)
    (h : Contents codec T catalog declared withdrawn staging) (hrows : Follows files staging.files)
    (calls : List Chunk) (hmeets : (uploading codec staging).Meets (Sent codec declared files) calls) :
    Contents codec T catalog declared withdrawn ((uploading codec staging).run calls) ∧
      Follows files ((uploading codec staging).run calls).files := by
  refine (uploading codec staging).run_invariant_of_meets
    (fun current => Contents codec T catalog declared withdrawn current ∧ Follows files current.files)
    (Sent codec declared files) ⟨h, hrows⟩ ?_ calls hmeets
  rintro current call hsent ⟨hcurrent, hfollows⟩
  dsimp only [uploading]
  split
  · rename_i after hafter
    refine ⟨chunk_contents hT hcurrent hafter, ?_⟩
    rcases hsent with hcorrect | ⟨e, herror⟩
    · exact chunk_follows hpaths hcurrent hfollows hcorrect hafter
    · rw [hafter] at herror
      cases herror
  · exact ⟨hcurrent, hfollows⟩

/-- When every file is complete, the files are there. -/
theorem Follows.complete (hrows : Follows files staging.files)
    (h : Contents codec T catalog declared withdrawn staging)
    (hcomplete : staging.completedFiles = staging.files.length) : staging.contents.Perm files := by
  rw [h.completedFiles, List.countP_eq_length] at hcomplete
  refine List.Perm.trans (List.Perm.of_eq ?_) hrows.arranged
  refine List.map_congr_left fun row hrow => ?_
  have hdone := hcomplete row hrow
  rw [(h.files row hrow).complete, decide_eq_true_eq] at hdone
  rw [hrows.content row hrow, hdone, ← hrows.length row hrow, List.take_length]

/-! ### Files that the direct inventory takes -/

/-- Records of an accepted inventory agree. -/
theorem direct_consistent (hdirect : Direct codec catalog files withdrawn pairs) :
    ∀ a ∈ allEntries codec files, ∀ b ∈ allEntries codec files, Claims a b → a = b := by
  obtain ⟨index, hindexes, _⟩ := hdirect.index
  have hspace : ∀ e ∈ allEntries codec files, e.nameSpace = catalog.nameSpace := by
    intro e he
    obtain ⟨file, hfile, he'⟩ := List.mem_flatMap.mp he
    exact ((hdirect.whole file hfile).scope e he').1
  intro a ha b hb hclaims
  refine hindexes.consistent (a, none) (List.mem_map_of_mem ha) (b, none) (List.mem_map_of_mem hb) ?_
  rcases hclaims with hid | ⟨hmemory, hversion⟩
  · exact Or.inl hid
  · right
    have hsame := (hspace a ha).trans (hspace b hb).symm
    have htenant : a.tenantId = b.tenantId := congrArg Prod.fst hsame
    have hspaceId : a.spaceId = b.spaceId := congrArg Prod.snd hsame
    exact ⟨Prod.ext htenant (Prod.ext hspaceId hmemory), hversion⟩

theorem Follows.whole {rows : List FileRow} {row : FileRow} (hrows : Follows files rows) (hrow : row ∈ rows)
    (hdirect : Direct codec catalog files withdrawn pairs) :
    Whole codec catalog (row.path, wholeOf files row.path) :=
  hdirect.whole _ (hrows.arranged.mem_iff.mp (List.mem_map_of_mem hrow))

/-- The lines of a part of a file are read as the first records of the file. -/
theorem part_reads {path : Path} {content : Bytes} (hwhole : Whole codec catalog (path, content)) (n : Nat) :
    readEntries codec (content.take n) <+: readEntries codec content ∧
      (completeLines (content.take n)).mapM (parseLine codec) = .ok (readEntries codec (content.take n)) := by
  obtain ⟨later, hlater⟩ := completeLines_append (content.take n) (content.drop n)
  rw [List.take_append_drop] at hlater
  have hreads := hwhole.reads
  dsimp only at hreads
  rw [hlater, List.mapM_append] at hreads
  simp only [bind_eq_ok, pure_eq_ok] at hreads
  obtain ⟨first, hfirst, rest, _, hboth⟩ := hreads
  have hsame := readEntries_ok hfirst
  rw [hsame]
  exact ⟨⟨rest, hboth⟩, hfirst⟩

/-- The tail of a part of a file is short, and there is none at the end. -/
theorem part_tail {path : Path} {content : Bytes} (hwhole : Whole codec catalog (path, content)) (n : Nat) :
    (splitLines (content.take n)).2.length < MAX_LINE_BYTES ∧
      (n = content.length → (splitLines (content.take n)).2 = []) := by
  constructor
  · obtain ⟨hlines, htail⟩ := splitLines_append (content.take n) (content.drop n)
    rw [List.take_append_drop] at hlines htail
    obtain ⟨hbytes, hspec, _⟩ := splitLines_spec ((splitLines (content.take n)).2 ++ content.drop n)
    have hnone : (splitLines content).2 = [] := hwhole.tail
    rw [← htail, hnone, List.append_nil] at hbytes
    rcases tail_lt_line (splitLines_spec (content.take n)).2.2 hspec hbytes.symm with hempty | ⟨line, hline, hlt⟩
    · rw [hempty]
      decide
    · have hmem : line ∈ completeLines content := by
        unfold completeLines
        rw [hlines]
        exact List.mem_append_right _ hline
      obtain ⟨e, he⟩ := mapM_forall hwhole.reads line hmem
      unfold parseLine at he
      simp only [bind_eq_ok, check_eq_ok] at he
      obtain ⟨_, hshape, _⟩ := he
      exact hlt.trans_le hshape.2.1
  · rintro rfl
    rw [List.take_length]
    exact hwhole.tail

/-- The records of parts of the files are no more than those of the files. -/
theorem parts_le {rows : List FileRow} (hrows : Follows files rows)
    (hdirect : Direct codec catalog files withdrawn pairs) :
    (rows.flatMap fun row => readEntries codec row.content).length ≤ (allEntries codec files).length ∧
      ∀ e ∈ rows.flatMap fun row => readEntries codec row.content, e ∈ allEntries codec files := by
  have hperm : (allEntries codec files).Perm
      (rows.flatMap fun row => readEntries codec (wholeOf files row.path)) := by
    refine (allEntries_perm hrows.arranged.symm).trans (List.Perm.of_eq ?_)
    unfold allEntries
    rw [List.flatMap_map]
  have hpart : ∀ row ∈ rows, readEntries codec row.content <+: readEntries codec (wholeOf files row.path) := by
    intro row hrow
    rw [hrows.content row hrow]
    exact (part_reads (hrows.whole hrow hdirect) row.received).1
  constructor
  · rw [hperm.length_eq, List.length_flatMap, List.length_flatMap]
    exact List.sum_le_sum fun row hrow => (hpart row hrow).length_le
  · intro e he
    obtain ⟨row, hrow, he'⟩ := List.mem_flatMap.mp he
    rw [hperm.mem_iff]
    exact List.mem_flatMap.mpr ⟨row, hrow, (hpart row hrow).subset he'⟩

theorem dedup_length_le {α : Type*} [DecidableEq α] {l l' : List α} (h : ∀ a ∈ l, a ∈ l') :
    l.dedup.length ≤ l'.dedup.length := by
  apply List.Subperm.length_le
  refine List.subperm_of_subset (List.nodup_dedup l) fun a ha => ?_
  exact List.mem_dedup.mpr (h a (List.mem_dedup.mp ha))

section Accepted

variable (hT : Digestible codec T) (hfiles : ∀ e ∈ allEntries codec files, e ∈ T)
  (hdirect : Direct codec catalog files withdrawn pairs)
  (h : Contents codec T catalog declared withdrawn staging) (hrows : Follows files staging.files)

include hT hfiles hdirect h hrows

/-- **The next stretch of a file is accepted.** -/
theorem next_accepted (hfile : staging.files[call.index]? = some file) (hoffset : call.offset = file.received)
    (hdata : call.data = ((wholeOf files file.path).drop call.offset).take CHUNK_BYTES) :
    ∃ after, staging.accept codec call file = .ok after := by
  have hmem := List.mem_of_getElem? hfile
  have hok := h.files file hmem
  have hwhole := hrows.whole hmem hdirect
  have hlength : call.data.length = min CHUNK_BYTES (file.totalBytes - file.received) := by
    rw [hdata, List.length_take, List.length_drop, hrows.length file hmem, hoffset]
  have hafter : Follows files (staging.files.set call.index (file.after codec call)) :=
    hrows.after hfile hoffset hdata
  have hcontent : file.content ++ call.data =
      (wholeOf files file.path).take (file.received + call.data.length) :=
    hafter.content (file.after codec call) (List.mem_set (List.getElem?_eq_some_iff.mp hfile).1 _)
  obtain ⟨hlines, htail⟩ := splitLines_append file.content call.data
  rw [← hok.tail, hcontent] at hlines htail
  -- the lines of the chunk are lines of the file
  obtain ⟨_, hreads⟩ := part_reads hwhole (file.received + call.data.length)
  unfold completeLines at hreads
  rw [hlines, List.mapM_append] at hreads
  simp only [bind_eq_ok, pure_eq_ok] at hreads
  obtain ⟨first, hfirst, entries, hentries, hboth⟩ := hreads
  have hfirst' : readEntries codec file.content = first := readEntries_ok hfirst
  have hnew : readEntries codec (file.content ++ call.data) = readEntries codec file.content ++ entries := by
    rw [hcontent, hfirst', hboth]
  -- and the records of the upload remain records of the files
  have hperm : ((staging.files.set call.index (file.after codec call)).flatMap fun row =>
      readEntries codec row.content).Perm (staging.entries codec ++ entries) :=
    set_perm (fun row : FileRow => readEntries codec row.content) hfile hnew
  obtain ⟨hle, hall⟩ := parts_le hafter hdirect
  have hin : ∀ e ∈ staging.entries codec ++ entries, e ∈ allEntries codec files :=
    fun e he => hall e (hperm.mem_iff.mpr he)
  have hstaged : ∀ e ∈ staging.entries codec, e ∈ T := fun e he => hfiles e (hin e (List.mem_append_left _ he))
  have hconsistent := direct_consistent hdirect
  obtain ⟨staged, hstage⟩ := stage_succeeds hT hstaged
    (fun e he => hfiles e (hin e (List.mem_append_right _ he))) (h.stages hstaged)
    (fun a ha b hb => hconsistent a (hin a ha) b (hin b hb))
    (by
      rw [← hperm.length_eq]
      exact hle.trans (hdirect.physical.trans (by decide)))
    (by
      rw [h.expected, ← hdirect.records]
      exact dedup_length_le hin)
    (by
      refine le_trans (dedup_length_le fun id hid => ?_) (hdirect.identities.trans (by decide))
      rcases List.mem_append.mp hid with hold | hmemory
      · exact List.mem_append_left _ hold
      · obtain ⟨e, he, rfl⟩ := List.mem_map.mp hmemory
        exact List.mem_append_right _ (List.mem_map_of_mem (hin e he)))
  refine ⟨_, accept_ok.mpr ⟨entries, staged, ?_, rfl⟩⟩
  constructor
  · exact h.phase
  · exact hoffset
  · exact hlength
  · obtain ⟨hshort, hend⟩ := part_tail hwhole (file.received + call.data.length)
    rw [← htail]
    rintro (hlong | ⟨hlast, htail'⟩)
    · exact absurd hlong (not_le.mpr hshort)
    · exact htail' (hend (hlast.trans (hrows.length file hmem).symm))
  · exact hentries
  · intro e he
    rw [h.nameSpace]
    obtain ⟨hpart, _⟩ := part_reads hwhole (file.received + call.data.length)
    refine hwhole.scope e (hpart.subset ?_)
    rw [← hcontent, hnew]
    exact List.mem_append_right _ he
  · exact hstage

end Accepted

/-- **A chunk that was accepted before** is acknowledged again. -/
theorem repeated_accepted (hpaths : (files.map Prod.fst).Nodup)
    (h : Contents codec T catalog declared withdrawn staging) (hrows : Follows files staging.files)
    (hcall : Correct codec declared files call) (hfile : staging.files[call.index]? = some file) {row : ChunkRow}
    (hrow : row ∈ staging.chunks) (hindex : row.fileIndex = call.index) (hoffset : row.fileOffset = call.offset) :
    row.bytes = call.data.length ∧ row.sha256 = call.sha256 := by
  obtain ⟨found, hfound, _, hle, hbytes, hdigest⟩ := h.chunks row hrow
  rw [hindex, hfile] at hfound
  cases hfound
  obtain ⟨found, hfound, hdata⟩ := hcall.data hpaths h
  rw [hfile] at hfound
  cases hfound
  have hmem := List.mem_of_getElem? hfile
  have hlength : row.bytes = call.data.length := by
    rw [hbytes, hdata, List.length_take, List.length_drop, hrows.length file hmem, hoffset]
  refine ⟨hlength, ?_⟩
  have hsame : (file.content.drop row.fileOffset).take row.bytes = call.data := by
    rw [hrows.content file hmem, List.drop_take, List.take_take, min_eq_left (by omega), hoffset, hlength, hdata]
    exact take_take_length _ _
  rw [hdigest, hsame, hcall.sha256]

/-- A call whose turn it is: the file goes on at its offset, or went on there before. -/
def Due (staging : Staging) (call : Chunk) : Prop :=
  (∃ file, staging.files[call.index]? = some file ∧ call.offset = file.received) ∨
    ∃ row ∈ staging.chunks, row.fileIndex = call.index ∧ row.fileOffset = call.offset

section Accepted

variable (hT : Digestible codec T) (hfiles : ∀ e ∈ allEntries codec files, e ∈ T)
  (hdirect : Direct codec catalog files withdrawn pairs)
  (h : Contents codec T catalog declared withdrawn staging) (hrows : Follows files staging.files)

include hT hfiles hdirect h hrows

/-- **Every due chunk is acknowledged.** -/
theorem due_acknowledged (hcall : Correct codec declared files call) (hdue : Due staging call)
    (hnow : call.now < staging.expires) : ∃ after, staging.chunk codec call = .ok after := by
  obtain ⟨file, hfile, hdata⟩ := hcall.data hdirect.paths h
  have hshort : 0 < call.data.length ∧ call.data.length ≤ CHUNK_BYTES := by
    refine ⟨List.length_pos_of_ne_nil hcall.nonempty, ?_⟩
    rw [hdata, List.length_take]
    exact min_le_left _ _
  unfold Staging.chunk
  simp only [bind_eq_ok, check_eq_ok]
  rw [hfile]
  dsimp only
  cases hprevious : staging.chunks.find? fun row =>
      decide (row.fileIndex = call.index ∧ row.fileOffset = call.offset) with
  | some previous =>
    have hkey := List.find?_some hprevious
    rw [decide_eq_true_eq] at hkey
    refine ⟨staging, (), ⟨hshort.1, hshort.2, hcall.sha256⟩, (), hcall.authorized, (), hnow,
      bind_eq_ok.mpr ⟨(), check_eq_ok.mpr ?_, rfl⟩⟩
    exact repeated_accepted hdirect.paths h hrows hcall hfile (List.mem_of_find?_eq_some hprevious) hkey.1 hkey.2
  | none =>
    have haccepted : ∃ after, staging.accept codec call file = .ok after := by
      rcases hdue with ⟨found, hfound, hoffset⟩ | ⟨row, hrow, hindex, hoffset⟩
      · rw [hfile] at hfound
        cases hfound
        exact next_accepted hT hfiles hdirect h hrows hfile hoffset hdata
      · have hno := List.find?_eq_none.mp hprevious row hrow
        exact absurd (decide_eq_true ⟨hindex, hoffset⟩) hno
    obtain ⟨after, hafter⟩ := haccepted
    exact ⟨after, (), ⟨hshort.1, hshort.2, hcall.sha256⟩, (), hcall.authorized, (), hnow, hafter⟩

omit hT in
/-- **The upload of all files can be finished.** -/
theorem complete_finishes {chain : Bytes → Nat → Bytes → Bytes} {now : Time}
    (hcomplete : staging.completedFiles = staging.files.length) (hnow : now < staging.expires) :
    ∃ sealed, staging.finish chain now true staging.version = .ok sealed := by
  have hperm := hrows.complete h hcomplete
  have hentries : (staging.entries codec).Perm (allEntries codec files) := by
    rw [← allEntries_contents]
    exact allEntries_perm hperm
  have hrecords : staging.records = staging.expectedRecords := by
    rw [(h.stages fun e he => hfiles e (hentries.mem_iff.mp he)).distinct, h.expected, ← hdirect.records]
    exact hentries.dedup.length_eq
  unfold Staging.finish
  simp only [bind_eq_ok, check_eq_ok, pure_eq_ok]
  exact ⟨_, (), trivial, (), hnow, (), trivial, (), h.phase, (), ⟨hcomplete, hrecords⟩, rfl⟩

end Accepted

/-! ### The upload and the direct recovery -/

/-- **A resumable upload equals a direct recovery.**  A call that raises leaves the upload
    as it was; whatever was sent before it, an accepted finish holds what the index computes
    of the complete files.  For declared files: a finished upload holds these files, and
    no two of their records claim one identity; where the direct inventory takes them,
    every due chunk is acknowledged, and the upload of all of them can be finished. -/
theorem upload_equals_recovery {begun : Staging} {catalogBytes : Nat} {declaration : Bytes} {beganAt : Time}
    (hT : Digestible codec T)
    (hstart : start catalog catalogBytes declared withdrawn declaration beganAt = .ok begun) :
    (∀ calls call e, ((uploading codec begun).run calls).chunk codec call = .error e →
      (uploading codec begun).run (calls ++ [call]) = (uploading codec begun).run calls) ∧
    (∀ calls, (∀ e ∈ ((uploading codec begun).run calls).entries codec, e ∈ T) →
      ∀ chain now authorized version sealed,
        ((uploading codec begun).run calls).finish chain now authorized version = .ok sealed →
          Uploaded codec catalog declared withdrawn sealed) ∧
    ∀ files, (files.map fun file => (file.1, file.2.length)).Perm declared →
      (∀ e ∈ allEntries codec files, e ∈ T) →
      ∀ calls, (uploading codec begun).Meets (Sent codec declared files) calls →
        (∀ chain now authorized version sealed,
          ((uploading codec begun).run calls).finish chain now authorized version = .ok sealed →
            sealed.contents.Perm files ∧ (∀ file ∈ files, Whole codec catalog file) ∧
              ∀ a ∈ allEntries codec files, ∀ b ∈ allEntries codec files, Claims a b → a = b) ∧
        ∀ recoveryBytes pairs, inventory codec catalog recoveryBytes files withdrawn = .ok pairs →
          (∀ call, Correct codec declared files call → Due ((uploading codec begun).run calls) call →
            call.now < ((uploading codec begun).run calls).expires →
              ∃ after, ((uploading codec begun).run calls).chunk codec call = .ok after) ∧
          (((uploading codec begun).run calls).completedFiles =
              ((uploading codec begun).run calls).files.length →
            ∀ chain now, now < ((uploading codec begun).run calls).expires →
              ∃ sealed, ((uploading codec begun).run calls).finish chain now true
                ((uploading codec begun).run calls).version = .ok sealed) := by
  have hbegun : Contents codec T catalog declared withdrawn begun := start_contents hstart
  refine ⟨?_, ?_, ?_⟩
  · intro calls call e herror
    rw [Machine.run_concat]
    generalize hheld : (uploading codec begun).run calls = held at herror ⊢
    dsimp only [uploading]
    rw [herror]
  · intro calls hentries chain now authorized version sealed hfinish
    exact finish_uploaded hT (uploading_contents hT hbegun calls) hentries hfinish
  · intro files hdeclared hfiles calls hmeets
    obtain ⟨hpaths, hbegins⟩ := start_follows hdeclared hstart
    obtain ⟨hcontents, hfollows⟩ := uploading_follows hT hpaths hbegun hbegins calls hmeets
    refine ⟨?_, ?_⟩
    · intro chain now authorized version sealed hfinish
      obtain ⟨hcomplete, _, hsealed, _⟩ := finish_ok hfinish
      have hperm := hfollows.complete hcontents hcomplete
      have hentries : ∀ e ∈ ((uploading codec begun).run calls).entries codec, e ∈ T := by
        intro e he
        rw [← allEntries_contents] at he
        exact hfiles e ((allEntries_perm hperm).mem_iff.mp he)
      have huploaded := finish_uploaded hT hcontents hentries hfinish
      rw [← hsealed] at hperm
      refine ⟨hperm, fun file hfile => huploaded.whole file (hperm.mem_iff.mpr hfile), ?_⟩
      intro a ha b hb
      exact huploaded.consistent a ((allEntries_perm hperm).mem_iff.mpr ha) b
        ((allEntries_perm hperm).mem_iff.mpr hb)
    · intro recoveryBytes pairs hinventory
      have hdirect := inventory_direct hT hfiles hinventory
      refine ⟨?_, ?_⟩
      · intro call hcall hdue hnow
        exact due_acknowledged hT hfiles hdirect hcontents hfollows hcall hdue hnow
      · intro hcomplete chain now hnow
        exact complete_finishes hfiles hdirect hcontents hfollows hcomplete hnow

/-- The journal file with the one entry of the sample. -/
def sampleFile : Path × Bytes :=
  (⟨false, ⟨sampleEntry.date, 5, 0⟩⟩, sampleBytes ++ [newline])

theorem upload_equals_recovery_sample :
    ∃ begun, start ⟨1, 2, 3, 1⟩ 0 [(sampleFile.1, sampleFile.2.length)] [] [] 0 = .ok begun ∧
      ∀ calls, (∀ e ∈ ((uploading sampleCodec begun).run calls).entries sampleCodec, e ∈ ({sampleEntry} : Set Entry)) →
        ∀ chain now authorized version sealed,
          ((uploading sampleCodec begun).run calls).finish chain now authorized version = .ok sealed →
            Uploaded sampleCodec ⟨1, 2, 3, 1⟩ [(sampleFile.1, sampleFile.2.length)] [] sealed := by
  have hsorted : Paging.sorted (fun file : Path × Nat => file.1.key) [(sampleFile.1, sampleFile.2.length)] =
      [(sampleFile.1, sampleFile.2.length)] := List.mergeSort_singleton _
  obtain ⟨begun, hstart⟩ : ∃ begun,
      start ⟨1, 2, 3, 1⟩ 0 [(sampleFile.1, sampleFile.2.length)] [] [] 0 = .ok begun := by
    unfold start
    rw [hsorted]
    simp only [bind_eq_ok, check_eq_ok, pure_eq_ok]
    refine ⟨_, (), by decide +kernel, (), List.nodup_singleton _, (), ?_, rfl⟩
    decide +kernel
  exact ⟨begun, hstart, (upload_equals_recovery (sampleCodec_digestible fun _ he => Set.mem_singleton_iff.mp he) hstart).2.1⟩

end Mnemion.JournalStaging
