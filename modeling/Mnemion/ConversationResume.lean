/-
  Mnemion/ConversationResume.lean
  ===============================
  **Incremental capture equals full capture.**  A file that is only appended to
  is scanned again and again, each time from the boundary that the last scan
  sealed; scans fail, stop at a window, lose their checkpoint.  Each stored
  boundary is one at which the fold over the whole file may be resumed
  (`Boundary`), so a scan that reaches the end leaves what one scan of the whole
  file leaves (`incremental_capture_equals_full`).
-/
import Mnemion.ConversationLoop
import Mnemion.Machine

namespace Mnemion.Conversations

open Outcome ByteLines

variable {reader : Reader} {config : Config} {store : Store} {generation : String}

/-! ### Closed folds -/

theorem Segment.Fits.raw_pos {segment : Segment} (h : segment.Fits config)
    (hlines : ∀ line ∈ segment.block, IsLine line) : 0 < segment.raw.length := by
  obtain ⟨line, rest, hblock⟩ := List.exists_cons_of_ne_nil h.ne_nil
  have hline := hlines line (by rw [hblock]; exact List.mem_cons_self)
  have hpos := List.length_pos_of_ne_nil hline.ne_nil
  rw [Segment.raw, hblock, List.flatten_cons, List.length_append]
  omega

/-- The segments of some lines, the last block included. -/
structure Closed (reader : Reader) (config : Config) (generation : String) (start : Nat)
    (lines : List Bytes) (all : List Rendered) : Prop where
  blocks : (all.map fun r => r.segment.block).flatten = lines
  contiguous : Contiguous start (all.map Rendered.segment) (start + lines.flatten.length)
  fits : ∀ r ∈ all, r.segment.Fits config
  positive : ∀ s ∈ all.map Rendered.segment, 0 < s.raw.length
  refs : ∀ r ∈ all, ∃ items, reader.render config generation r.segment = .ok items ∧
    r.refs = items.map Item.ref

theorem passes_offset {origin : Cursor} {lines : List Bytes} :
    ∀ {cursor : Cursor} {rendered : List Rendered},
      passes reader config store generation (origin, []) lines = .ok (cursor, rendered) →
      cursor.offset = origin.offset + lines.flatten.length ∧
        cursor.digest = origin.digest ++ lines.flatten := by
  induction lines using List.reverseRecOn with
  | nil =>
    intro cursor rendered h
    cases h
    simp
  | append_singleton lines raw ih =>
    intro cursor rendered h
    rw [passes_concat, bind_eq_ok] at h
    obtain ⟨⟨mid, before⟩, hpasses, hpass⟩ := h
    obtain ⟨hoffset, hdigest⟩ := ih hpasses
    rw [List.flatten_append, List.flatten_singleton, List.length_append, ← List.append_assoc,
      ← Nat.add_assoc, ← hoffset, ← hdigest]
    obtain ⟨-, ⟨-, -, hconsumed⟩ | ⟨-, hconsumed, -⟩⟩ := pass_ok hpass
    · exact ⟨hconsumed.offset, hconsumed.digest⟩
    · exact ⟨hconsumed.offset, hconsumed.digest⟩

theorem closed_of_passes {start lineNumber : Nat} {context : Option Context} {digest : Bytes}
    {events : List EventRow} (hdigest : digest.length = start)
    (hevents : ∀ row ∈ events, row.position < start) {lines : List Bytes}
    (hlines : ∀ line ∈ lines, IsLine line) {cursor : Cursor} {rendered all : List Rendered}
    (hpasses : passes reader config store generation
      (Cursor.boundary start lineNumber context digest events, []) lines = .ok (cursor, rendered))
    (hclose : close reader config generation (cursor, rendered) = .ok all) :
    Closed reader config generation start lines all := by
  have hfolded := folded_of_passes hdigest hevents hlines hpasses
  have hoffset : cursor.offset = start + lines.flatten.length := (passes_offset hpasses).1
  have hstop := hfolded.coherent.offset
  suffices h : (all.map fun r => r.segment.block).flatten = lines ∧
      Contiguous start (all.map Rendered.segment) (start + lines.flatten.length) ∧
      (∀ r ∈ all, r.segment.Fits config) ∧
      ∀ r ∈ all, ∃ items, reader.render config generation r.segment = .ok items ∧
        r.refs = items.map Item.ref by
    refine ⟨h.1, h.2.1, h.2.2.1, ?_, h.2.2.2⟩
    intro s hs
    obtain ⟨r, hr, rfl⟩ := List.mem_map.mp hs
    refine (h.2.2.1 r hr).raw_pos fun line hline => hlines line ?_
    rw [← h.1]
    exact List.mem_flatten_of_mem (List.mem_map_of_mem hr) hline
  rw [close] at hclose
  dsimp only at hclose
  split at hclose
  · next hblock =>
    cases hclose
    rw [hblock, List.flatten_nil, List.length_nil, Nat.add_zero] at hstop
    refine ⟨?_, ?_, hfolded.fits, hfolded.refs⟩
    · have hall := hfolded.lines
      rwa [hblock, List.append_nil] at hall
    · rw [← hoffset, hstop]
      exact hfolded.contiguous
  · next hblock =>
    simp only [bind_eq_ok, pure_eq_ok] at hclose
    obtain ⟨closed, hrender, rfl⟩ := hclose
    obtain ⟨hsegment, items, hitems, hrefs⟩ := render_ok hrender
    refine ⟨?_, ?_, ?_, ?_⟩
    · rw [List.map_append, List.map_singleton, List.flatten_append, List.flatten_singleton,
        hsegment]
      exact hfolded.lines
    · rw [List.map_append, List.map_singleton, hsegment, ← hoffset, hstop]
      exact Contiguous.concat hfolded.contiguous
    · intro r hr
      rcases List.mem_append.mp hr with hr | hr
      · exact hfolded.fits r hr
      · rw [List.mem_singleton.mp hr, hsegment]
        exact hfolded.coherent.segment_fits hblock
    · intro r hr
      rcases List.mem_append.mp hr with hr | hr
      · exact hfolded.refs r hr
      · rw [List.mem_singleton.mp hr, hsegment]
        exact ⟨items, hitems, hrefs⟩

theorem Contiguous.bounds {segments : List Segment} (hpos : ∀ s ∈ segments, 0 < s.raw.length) :
    ∀ {start stop : Nat}, Contiguous start segments stop →
      start ≤ stop ∧ ∀ s ∈ segments, start ≤ s.start ∧ s.start < stop := by
  induction segments with
  | nil =>
    intro start stop h
    exact ⟨Nat.le_of_eq h, by simp⟩
  | cons first rest ih =>
    intro start stop h
    obtain ⟨hstart, hrest⟩ := h
    have hfirst := hpos first List.mem_cons_self
    obtain ⟨hle, hbounds⟩ := ih (fun s hs => hpos s (List.mem_cons_of_mem _ hs)) hrest
    rw [Segment.stop] at hle hbounds
    refine ⟨by omega, ?_⟩
    intro s hs
    rcases List.mem_cons.mp hs with rfl | hs
    · omega
    · have := hbounds s hs
      omega

theorem Contiguous.nodup {segments : List Segment} (hpos : ∀ s ∈ segments, 0 < s.raw.length) :
    ∀ {start stop : Nat}, Contiguous start segments stop →
      (segments.map Segment.start).Nodup := by
  induction segments with
  | nil => simp
  | cons first rest ih =>
    intro start stop h
    have hpos' : ∀ s ∈ rest, 0 < s.raw.length := fun s hs => hpos s (List.mem_cons_of_mem _ hs)
    have hfirst := hpos first List.mem_cons_self
    rw [List.map_cons, List.nodup_cons]
    refine ⟨?_, ih hpos' h.2⟩
    intro hmem
    obtain ⟨s, hs, hstart⟩ := List.mem_map.mp hmem
    have hbound := ((Contiguous.bounds hpos' h.2).2 s hs).1
    rw [Segment.stop] at hbound
    omega

theorem Closed.bounds {start : Nat} {lines : List Bytes} {all : List Rendered}
    (h : Closed reader config generation start lines all) :
    ∀ r ∈ all, start ≤ r.segment.start ∧ r.segment.start < start + lines.flatten.length :=
  fun _ hr => (Contiguous.bounds h.positive h.contiguous).2 _ (List.mem_map_of_mem hr)

theorem Closed.nodup {start : Nat} {lines : List Bytes} {all : List Rendered}
    (h : Closed reader config generation start lines all) (scanId : String) :
    ((all.map (Rendered.row scanId)).map SegmentRow.start).Nodup := by
  have hnodup := Contiguous.nodup h.positive h.contiguous
  rwa [List.map_map] at hnodup ⊢

/-- The first segment starts where the lines do. -/
theorem Closed.first {start : Nat} {lines : List Bytes} {all : List Rendered}
    (h : Closed reader config generation start lines all) (hlines : lines ≠ []) :
    ∃ first rest, all = first :: rest ∧ first.segment.start = start := by
  cases all with
  | nil => exact absurd h.blocks.symm hlines
  | cons first rest => exact ⟨first, rest, rfl, h.contiguous.1⟩

/-! ### The generation only names what is rendered -/

theorem render_generation {segment : Segment} {items : List Item} (later : String)
    (h : reader.render config generation segment = .ok items) :
    ∃ items', reader.render config later segment = .ok items' := by
  unfold Reader.render at h ⊢
  split
  · next hdecode =>
    rw [hdecode] at h
    cases h
  · next source hdecode =>
    rw [hdecode] at h
    simp only [bind_eq_ok] at h
    obtain ⟨⟨text, rows⟩, hselected, h⟩ := h
    rw [hselected]
    dsimp only [bind, Except.bind]
    by_cases hnormalize : config.normalizeConversations = true
    · rw [if_pos hnormalize] at h ⊢
      split at h
      · cases h
      · next transcripts hparse =>
        rw [hparse]
        exact ⟨_, rfl⟩
    · rw [if_neg hnormalize]
      exact ⟨_, rfl⟩

theorem Cursor.render_generation {cursor : Cursor} {rendered : Rendered} (later : String)
    (h : cursor.render reader config generation = .ok rendered) :
    ∃ rendered', cursor.render reader config later = .ok rendered' ∧
      rendered'.segment = rendered.segment := by
  simp only [Cursor.render, bind_eq_ok, pure_eq_ok] at h ⊢
  obtain ⟨items, hitems, rfl⟩ := h
  obtain ⟨items', hitems'⟩ := Conversations.render_generation later hitems
  exact ⟨_, ⟨items', hitems', rfl⟩, rfl⟩

theorem passes_generation {origin : Cursor} {lines : List Bytes} (later : String) :
    ∀ {cursor : Cursor} {rendered : List Rendered},
      passes reader config store generation (origin, []) lines = .ok (cursor, rendered) →
      ∃ rendered', passes reader config store later (origin, []) lines = .ok (cursor, rendered') ∧
        rendered'.map Rendered.segment = rendered.map Rendered.segment := by
  induction lines using List.reverseRecOn with
  | nil =>
    intro cursor rendered h
    cases h
    exact ⟨[], rfl, rfl⟩
  | append_singleton lines raw ih =>
    intro cursor rendered h
    rw [passes_concat, bind_eq_ok] at h
    obtain ⟨⟨mid, before⟩, hpasses, hpass⟩ := h
    obtain ⟨before', hbefore', hsame⟩ := ih hpasses
    rw [passes_concat, hbefore']
    simp only [pass, bind_eq_ok, check_eq_ok] at hpass
    obtain ⟨_, hlength, hpass⟩ := hpass
    split at hpass
    · next hoverflow =>
      simp only [bind_eq_ok, pure_eq_ok, Prod.mk.injEq] at hpass
      obtain ⟨closed, hrender, cursor', hconsume, rfl, rfl⟩ := hpass
      obtain ⟨closed', hrender', hsegment⟩ := Cursor.render_generation later hrender
      refine ⟨before' ++ [closed'], ?_, ?_⟩
      · exact pass_after before' (pass_closing hlength hoverflow hrender' hconsume)
      · rw [List.map_append, List.map_append, hsame, List.map_singleton, List.map_singleton,
          hsegment]
    · next hfits =>
      simp only [bind_eq_ok, pure_eq_ok, Prod.mk.injEq] at hpass
      obtain ⟨cursor', hconsume, rfl, rfl⟩ := hpass
      refine ⟨before', ?_, hsame⟩
      have hstays : pass reader config store later (mid, []) raw = .ok (cursor', []) :=
        pass_staying hlength hfits hconsume
      have hnew := pass_after before' hstays
      rwa [List.append_nil] at hnew

/-! ### Boundaries -/

/-- The loop variables of a scan that starts at the beginning. -/
def Cursor.start : Cursor := .boundary 0 0 none [] []

/-- A place in the file where a scan may resume: behind the lines `before`, with
    the lines `after` known to follow.  The fold over the whole file, which has
    rendered `sealed` there, goes on from it whatever is appended. -/
structure Boundary (reader : Reader) (config : Config) (store : Store) (generation : String)
    (origin : Cursor) (before after : List Bytes) (sealed : List Rendered) : Prop where
  shape : origin = .boundary origin.offset origin.lineNumber origin.context before.flatten
    origin.events
  offset : origin.offset = before.flatten.length
  events : ∀ row ∈ origin.events, row.position < origin.offset
  lines : ∀ line ∈ before ++ after, IsLine line
  resumes : ∀ more, passes reader config store generation (.start, []) (before ++ after ++ more) =
    passes reader config store generation (origin, sealed) (after ++ more)
  starts : ∀ r ∈ sealed, r.segment.start < origin.offset

theorem Boundary.start (reader : Reader) (config : Config) (store : Store) (generation : String) :
    Boundary reader config store generation .start [] [] [] where
  shape := rfl
  offset := rfl
  events := by simp [Cursor.start, Cursor.boundary]
  lines := by simp
  resumes := fun _ => rfl
  starts := by simp

section Boundary

variable {origin : Cursor} {before after : List Bytes} {sealed : List Rendered}

theorem Boundary.folded (hb : Boundary reader config store generation origin before after sealed)
    {lines : List Bytes} (hlines : ∀ line ∈ lines, IsLine line) {cursor : Cursor}
    {rendered : List Rendered}
    (hpasses : passes reader config store generation (origin, []) lines = .ok (cursor, rendered)) :
    Folded reader config store generation origin lines cursor rendered := by
  have hshape := hb.shape
  rw [hshape] at hpasses ⊢
  exact folded_of_passes hb.offset.symm hb.events hlines hpasses

theorem Boundary.closed (hb : Boundary reader config store generation origin before after sealed)
    {lines : List Bytes} (hlines : ∀ line ∈ lines, IsLine line) {cursor : Cursor}
    {rendered all : List Rendered}
    (hpasses : passes reader config store generation (origin, []) lines = .ok (cursor, rendered))
    (hclose : close reader config generation (cursor, rendered) = .ok all) :
    Closed reader config generation origin.offset lines all := by
  rw [hb.shape] at hpasses
  exact closed_of_passes hb.offset.symm hb.events hlines hpasses hclose

theorem Boundary.fold_resumes
    (hb : Boundary reader config store generation origin before after sealed)
    {lines : List Bytes} (hlines : ∀ line ∈ lines, IsLine line) {cursor : Cursor}
    {rendered : List Rendered}
    (hpasses : passes reader config store generation (origin, []) lines = .ok (cursor, rendered))
    (done : List Rendered) (more : List Bytes) :
    passes reader config store generation (origin, done) (lines ++ more) =
      passes reader config store generation (cursor.checkpointed, done ++ rendered)
        (cursor.block ++ more) := by
  rw [hb.shape] at hpasses ⊢
  exact Conversations.fold_resumes hb.offset.symm hb.events hlines hpasses done more

/-- What the fold from a boundary renders, put behind what was sealed there, is
    what the fold over the whole file renders. -/
theorem Boundary.whole (hb : Boundary reader config store generation origin before after sealed)
    {more : List Bytes} {cursor : Cursor} {rendered : List Rendered}
    (hpasses : passes reader config store generation (origin, []) (after ++ more) =
      .ok (cursor, rendered)) :
    passes reader config store generation (.start, []) (before ++ after ++ more) =
      .ok (cursor, sealed ++ rendered) := by
  rw [hb.resumes]
  exact passes_after sealed hpasses

/-- The segments that a fold from a boundary has closed are behind the boundary
    it leaves. -/
theorem Boundary.sealed_starts
    (hb : Boundary reader config store generation origin before after sealed)
    {rendered : List Rendered} {stop : Nat} (hle : origin.offset ≤ stop)
    (hnew : ∀ r ∈ rendered, r.segment.start < stop) :
    ∀ r ∈ sealed ++ rendered, r.segment.start < stop := by
  intro r hr
  rcases List.mem_append.mp hr with hr | hr
  · exact Nat.lt_of_lt_of_le (hb.starts r hr) hle
  · exact hnew r hr

end Boundary

/-! ### The boundary that a scan leaves -/

/-- What a scan leaves: a later boundary, its segments up to there, and at most
    the row of the block that was open at the end. -/
structure Left (reader : Reader) (config : Config) (store : Store) (generation : String)
    (cursor : Cursor) (all lines : List Bytes) (sealed rendered : List Rendered)
    (before after : List Bytes) (done extra : List Rendered) : Prop where
  split : all ++ lines = before ++ after
  rendered : rendered = done ++ extra
  boundary : Boundary reader config store generation cursor.checkpointed before after
    (sealed ++ done)
  open_start : extra.map (fun r => r.segment.start) <+: [cursor.blockStart]
  open_lines : after = [] → extra = []
  prefixDigest : cursor.prefixDigest = before.flatten
  block_le : cursor.blockStart ≤ cursor.offset
  offset_le : cursor.offset ≤ (all ++ lines).flatten.length

theorem close_ok {cursor : Cursor} {rendered all : List Rendered}
    (h : close reader config generation (cursor, rendered) = .ok all) :
    cursor.block = [] ∧ all = rendered ∨
      cursor.block ≠ [] ∧ ∃ closed, cursor.render reader config generation = .ok closed ∧
        all = rendered ++ [closed] := by
  rw [close] at h
  dsimp only at h
  split at h
  · next hblock =>
    cases h
    exact Or.inl ⟨hblock, rfl⟩
  · next hblock =>
    simp only [bind_eq_ok, pure_eq_ok] at h
    obtain ⟨closed, hrender, rfl⟩ := h
    exact Or.inr ⟨hblock, closed, hrender, rfl⟩

section Left

variable {origin : Cursor} {before after : List Bytes} {sealed : List Rendered}

/-- A scan that has read every complete line. -/
theorem Boundary.left_complete
    (hb : Boundary reader config store generation origin before after sealed)
    {more : List Bytes} (hmore : ∀ line ∈ after ++ more, IsLine line) {cursor : Cursor}
    {rendered all : List Rendered}
    (hpasses : passes reader config store generation (origin, []) (after ++ more) =
      .ok (cursor, rendered))
    (hclose : close reader config generation (cursor, rendered) = .ok all) :
    ∃ before' extra, Left reader config store generation cursor before (after ++ more)
      sealed all before' cursor.block rendered extra := by
  have hdigest : origin.digest = before.flatten := congrArg Cursor.digest hb.shape
  have hfolded := hb.folded hmore hpasses
  have hcoherent := hfolded.coherent
  have hclosed := hb.closed hmore hpasses hclose
  obtain ⟨before', hbefore⟩ : ∃ lines, lines = before ++
    (rendered.map fun r => r.segment.block).flatten := ⟨_, rfl⟩
  have hlines : before' ++ cursor.block = before ++ (after ++ more) := by
    rw [hbefore, List.append_assoc, hfolded.lines]
  have hleads : cursor.prefixDigest = before'.flatten := by
    have hall := (passes_offset hpasses).2
    rw [hdigest, hcoherent.digest, ← List.flatten_append, ← hlines, List.flatten_append] at hall
    exact List.append_cancel_right hall
  have hstart : cursor.blockStart = before'.flatten.length := by
    rw [← hleads]
    exact hcoherent.prefixLength.symm
  have hboundary : Boundary reader config store generation cursor.checkpointed before'
      cursor.block (sealed ++ rendered) := by
    have hpositive : ∀ s ∈ rendered.map Rendered.segment, 0 < s.raw.length := by
      intro s hs
      apply hclosed.positive
      rcases close_ok hclose with ⟨-, rfl⟩ | ⟨-, closed, -, rfl⟩
      · exact hs
      · rw [List.map_append]
        exact List.mem_append_left _ hs
    obtain ⟨hle, hbounds⟩ := Contiguous.bounds hpositive hfolded.contiguous
    refine ⟨?_, hstart, ?_, ?_, ?_, ?_⟩
    · rw [← hleads]
      rfl
    · intro row hrow
      show row.position < cursor.blockStart
      simpa using (List.mem_filter.mp hrow).2
    · intro line hline
      rw [hlines] at hline
      rcases List.mem_append.mp hline with hline | hline
      · exact hb.lines line (List.mem_append_left _ hline)
      · exact hmore line hline
    · intro later
      have hall : before' ++ cursor.block ++ later = before ++ after ++ (more ++ later) := by
        rw [hlines]
        simp only [List.append_assoc]
      rw [hall, hb.resumes, ← List.append_assoc, hb.fold_resumes hmore hpasses]
    · refine hb.sealed_starts hle fun r hr => ?_
      exact (hbounds _ (List.mem_map_of_mem hr)).2
  have hblock_le : cursor.blockStart ≤ cursor.offset := by
    rw [hcoherent.offset]
    exact Nat.le_add_right _ _
  have hoffset_le : cursor.offset ≤ (before ++ (after ++ more)).flatten.length := by
    rw [(passes_offset hpasses).1, hb.offset]
    simp only [List.flatten_append, List.length_append]
    omega
  rcases close_ok hclose with ⟨hblock, rfl⟩ | ⟨hblock, closed, hrender, rfl⟩
  · exact ⟨before', [], hlines.symm, (List.append_nil _).symm, hboundary, List.nil_prefix,
      fun _ => rfl, hleads, hblock_le, hoffset_le⟩
  · have hsegment := (render_ok hrender).1
    refine ⟨before', [closed], hlines.symm, rfl, hboundary, ?_, fun h => absurd h hblock, hleads,
      hblock_le, hoffset_le⟩
    rw [List.map_singleton, hsegment]
    exact List.prefix_refl _

/-- A scan that stopped at a window, in front of a line that overflows its block. -/
theorem Boundary.left_window
    (hb : Boundary reader config store generation origin before after sealed)
    {more done left : List Bytes} {line : Bytes} (hmore : ∀ line ∈ after ++ more, IsLine line)
    (hsplit : after ++ more = done ++ line :: left) {cursor : Cursor}
    {rendered all : List Rendered}
    (hpasses : passes reader config store generation (origin, []) done = .ok (cursor, rendered))
    (hclose : close reader config generation (cursor, rendered) = .ok all)
    (hoverflow : cursor.overflows config line) :
    Left reader config store generation cursor.sealed before (after ++ more) sealed all
      (before ++ done) (line :: left) all [] := by
  have hdigest : origin.digest = before.flatten := congrArg Cursor.digest hb.shape
  have hdone : ∀ line ∈ done, IsLine line := by
    intro l hl
    rw [hsplit] at hmore
    exact hmore l (List.mem_append_left _ hl)
  have hcoherent := (hb.folded hdone hpasses).coherent
  have hclosed := hb.closed hdone hpasses hclose
  obtain ⟨hoffset, hbytes⟩ := passes_offset hpasses
  rw [hdigest, ← List.flatten_append] at hbytes
  have hsealed : cursor.sealed.checkpointed = cursor.sealed := checkpointed_boundary hcoherent.events
  have hoffset_le : cursor.offset ≤ (before ++ (after ++ more)).flatten.length := by
    rw [hoffset, hb.offset, hsplit]
    simp only [List.flatten_append, List.length_append]
    omega
  refine ⟨?_, (List.append_nil _).symm, ?_, List.nil_prefix, fun _ => rfl, hbytes, Nat.le_refl _,
    hoffset_le⟩
  · rw [hsplit, List.append_assoc]
  rw [hsealed]
  refine ⟨?_, ?_, hcoherent.events, ?_, ?_, ?_⟩
  · rw [← hbytes]
    rfl
  · rw [List.flatten_append, List.length_append, ← hb.offset]
    exact hoffset
  · intro l hl
    rw [List.append_assoc, ← hsplit] at hl
    rcases List.mem_append.mp hl with hl | hl
    · exact hb.lines l (List.mem_append_left _ hl)
    · exact hmore l hl
  · intro later
    rcases close_ok hclose with ⟨hblock, -⟩ | ⟨-, closed, hrender, rfl⟩
    · exact absurd hblock hoverflow.1
    have hall : before ++ done ++ line :: left ++ later = before ++ after ++ (more ++ later) := by
      simp only [List.append_assoc] at hsplit ⊢
      rw [← List.append_assoc after, hsplit]
      simp
    have hrest : after ++ (more ++ later) = done ++ line :: (left ++ later) := by
      rw [← List.append_assoc, hsplit]
      simp
    rw [hall, hb.resumes, hrest, passes_append, passes_after sealed hpasses]
    show passes _ _ _ _ _ (line :: (left ++ later)) = passes _ _ _ _ _ (line :: (left ++ later))
    rw [passes_cons, passes_cons, pass_overflow hoverflow hrender, List.append_assoc]
  · refine hb.sealed_starts ?_ fun r hr => ?_
    · show origin.offset ≤ cursor.offset
      omega
    · have hbound := (hclosed.bounds r hr).2
      show _ < cursor.offset
      omega

end Left

/-! ### The stored rows -/

/-- A row without the mark of the scan that wrote it. -/
def SegmentRow.entry (row : SegmentRow) : Nat × List Ref := (row.start, row.refs)

def Rendered.entry (rendered : Rendered) : Nat × List Ref :=
  (rendered.segment.start, rendered.refs)

/-- The rows of a state: the segments up to a boundary, and at most one that was
    open when it was written. -/
structure Stored (origin : Cursor) (after : List Bytes) (sealed : List Rendered)
    (segments kept extra : List SegmentRow) : Prop where
  rows : segments = kept ++ extra
  kept : kept.map SegmentRow.entry = sealed.map Rendered.entry
  open_start : extra.map SegmentRow.start <+: [origin.offset]
  open_lines : after = [] → extra = []

theorem map_start_eq {rows : List SegmentRow} {rendered : List Rendered}
    (h : rows.map SegmentRow.entry = rendered.map Rendered.entry) :
    rows.map SegmentRow.start = rendered.map fun r => r.segment.start := by
  have hfst := congrArg (List.map Prod.fst) h
  rwa [List.map_map, List.map_map] at hfst

/-- Rows with other marks are stored alike. -/
theorem Stored.marked {origin : Cursor} {after : List Bytes} {sealed : List Rendered}
    {segments kept extra rows : List SegmentRow}
    (h : Stored origin after sealed segments kept extra)
    (hrows : rows.map SegmentRow.entry = segments.map SegmentRow.entry) :
    ∃ kept' extra', Stored origin after sealed rows kept' extra' := by
  rw [h.rows, List.map_append] at hrows
  obtain ⟨kept', extra', rfl, hkept, hextra⟩ := List.map_eq_append_iff.mp hrows
  have hstarts : extra'.map SegmentRow.start = extra.map SegmentRow.start := by
    have hfst := congrArg (List.map Prod.fst) hextra
    rwa [List.map_map, List.map_map] at hfst
  refine ⟨kept', extra', rfl, hkept.trans h.kept, hstarts ▸ h.open_start, fun hafter => ?_⟩
  rw [h.open_lines hafter, List.map_nil] at hextra
  exact List.map_eq_nil_iff.mp hextra

theorem Boundary.kept_starts {origin : Cursor} {before after : List Bytes}
    {sealed : List Rendered} {kept : List SegmentRow}
    (hb : Boundary reader config store generation origin before after sealed)
    (hkept : kept.map SegmentRow.entry = sealed.map Rendered.entry) :
    ∀ row ∈ kept, row.start < origin.offset := by
  intro row hrow
  have hmem : row.start ∈ sealed.map fun r => r.segment.start := by
    rw [← map_start_eq hkept]
    exact List.mem_map_of_mem hrow
  obtain ⟨r, hr, hstart⟩ := List.mem_map.mp hmem
  rw [← hstart]
  exact hb.starts r hr

/-- What `retain` counts. -/
theorem Stored.reused {origin : Cursor} {before after : List Bytes} {sealed : List Rendered}
    {segments kept extra : List SegmentRow}
    (hb : Boundary reader config store generation origin before after sealed)
    (h : Stored origin after sealed segments kept extra) :
    (segments.filter fun row => decide (row.start < origin.offset)).length = sealed.length := by
  have hkept : kept.filter (fun row => decide (row.start < origin.offset)) = kept :=
    List.filter_eq_self.mpr fun row hrow => by simpa using hb.kept_starts h.kept row hrow
  have hextra : extra.filter (fun row => decide (row.start < origin.offset)) = [] := by
    rw [List.filter_eq_nil_iff]
    intro row hrow
    have hmem := h.open_start.subset (List.mem_map_of_mem (f := SegmentRow.start) hrow)
    rw [List.mem_singleton.mp hmem]
    simp
  rw [h.rows, List.filter_append, hkept, hextra, List.append_nil]
  have hlength := congrArg List.length h.kept
  rwa [List.length_map, List.length_map] at hlength

theorem retain_ok {segments rows : List SegmentRow} {before reused : Nat} {scanId : String}
    (h : retain config store segments before scanId = .ok (rows, reused)) :
    rows.map SegmentRow.entry = segments.map SegmentRow.entry ∧
      reused = (segments.filter fun row => decide (row.start < before)).length ∧
      reused ≤ config.maxSegments ∧
      (store = .mirror → ∀ row ∈ rows, row.start < before → row.seen = scanId) := by
  simp only [retain, bind_eq_ok, check_eq_ok] at h
  obtain ⟨_, hlimit, h⟩ := h
  cases store with
  | inbox =>
    cases h
    exact ⟨rfl, rfl, hlimit, fun h => by cases h⟩
  | mirror =>
    cases h
    refine ⟨Table.map_update fun _ => rfl, rfl, hlimit, ?_⟩
    intro _ row hrow hstart
    rcases Table.mem_update_cases hrow with ⟨old, -, -, rfl⟩ | ⟨-, hskip⟩
    · rfl
    · simp at hskip
      omega

theorem close_generation {cursor : Cursor} {rendered all rendered' : List Rendered}
    (later : String) (h : close reader config generation (cursor, rendered) = .ok all)
    (hsame : rendered'.map Rendered.segment = rendered.map Rendered.segment) :
    ∃ all', close reader config later (cursor, rendered') = .ok all' ∧
      all'.map Rendered.segment = all.map Rendered.segment := by
  rcases close_ok h with ⟨hblock, rfl⟩ | ⟨hblock, closed, hrender, rfl⟩
  · exact ⟨rendered', by rw [close, if_pos hblock], hsame⟩
  · obtain ⟨closed', hrender', hsegment⟩ := Cursor.render_generation later hrender
    refine ⟨rendered' ++ [closed'], close_block hblock hrender', ?_⟩
    rw [List.map_append, List.map_append, hsame, List.map_singleton, List.map_singleton, hsegment]

theorem close_split {cursor : Cursor} {done new all : List Rendered}
    (h : close reader config generation (cursor, done ++ new) = .ok all) :
    ∃ last, close reader config generation (cursor, new) = .ok last ∧ all = done ++ last := by
  rcases close_ok h with ⟨hblock, rfl⟩ | ⟨hblock, closed, hrender, rfl⟩
  · exact ⟨new, by rw [close, if_pos hblock], rfl⟩
  · exact ⟨new ++ [closed], close_block hblock hrender, List.append_assoc _ _ _⟩

theorem starts_of_segments {rendered rendered' : List Rendered}
    (h : rendered'.map Rendered.segment = rendered.map Rendered.segment) :
    rendered'.map (fun r => r.segment.start) = rendered.map fun r => r.segment.start := by
  have hstarts := congrArg (List.map Segment.start) h
  rwa [List.map_map, List.map_map] at hstarts

/-- The open row starts where the next segments do. -/
theorem Stored.open_leads {origin : Cursor} {after lines : List Bytes} {sealed : List Rendered}
    {segments kept extra : List SegmentRow} {all : List Rendered}
    (h : Stored origin after sealed segments kept extra)
    (hclosed : Closed reader config generation origin.offset lines all)
    (hlines : after ≠ [] → lines ≠ []) :
    extra.map SegmentRow.start <+: all.map fun r => r.segment.start := by
  by_cases hextra : extra = []
  · rw [hextra]
    exact List.nil_prefix
  · obtain ⟨first, rest, rfl, hfirst⟩ := hclosed.first
      (hlines fun hafter => hextra (h.open_lines hafter))
    refine h.open_start.trans ?_
    rw [List.map_cons, hfirst]
    exact ⟨_, rfl⟩

/-- Whatever generation a scan of the whole file is rendered under, its segments
    start where the stored ones do. -/
theorem Stored.starts_lead {origin : Cursor} {before after more : List Bytes}
    {sealed : List Rendered} {segments kept extra : List SegmentRow} {later : String}
    (hb : Boundary reader config store generation origin before after sealed)
    (h : Stored origin after sealed segments kept extra)
    (hmore : ∀ line ∈ after ++ more, IsLine line) {cursor : Cursor}
    {rendered all : List Rendered}
    (hpasses : passes reader config store later (.start, []) (before ++ after ++ more) =
      .ok (cursor, rendered))
    (hclose : close reader config later (cursor, rendered) = .ok all) :
    segments.map SegmentRow.start <+: all.map fun r => r.segment.start := by
  obtain ⟨rendered', hpasses', hsame⟩ := passes_generation generation hpasses
  obtain ⟨all', hclose', hall⟩ := close_generation generation hclose hsame
  rw [hb.resumes] at hpasses'
  obtain ⟨new, hnew, rfl⟩ := passes_split hpasses'
  obtain ⟨last, hlast, rfl⟩ := close_split hclose'
  have hclosed := hb.closed hmore hnew hlast
  rw [← starts_of_segments hall, h.rows, List.map_append, List.map_append, map_start_eq h.kept]
  refine (List.prefix_append_right_inj _).mpr (h.open_leads hclosed fun hafter hnil => ?_)
  exact hafter (List.append_eq_nil_iff.mp hnil).1

theorem Closed.written {start : Nat} {lines : List Bytes} {all : List Rendered}
    (kept extra : List SegmentRow) (scanId : String)
    (hclosed : Closed reader config generation start lines all)
    (hkept : ∀ row ∈ kept, row.start < start)
    (hleads : extra.map SegmentRow.start <+: all.map fun r => r.segment.start) :
    upsertAll (kept ++ extra) (all.map (Rendered.row scanId)) =
      kept ++ all.map (Rendered.row scanId) := by
  refine upsertAll_prefix ?_ ?_ (hclosed.nodup scanId)
  · intro old hold row hrow
    obtain ⟨r, hr, rfl⟩ := List.mem_map.mp hrow
    have hbefore := hkept old hold
    have hbehind := (hclosed.bounds r hr).1
    show old.start ≠ r.segment.start
    omega
  · rw [List.map_map]
    exact hleads

theorem swept_all {segments : List SegmentRow} {before : Nat} {scanId : String}
    (h : ∀ row ∈ segments, row.seen = scanId ∨ store = .inbox ∧ row.start < before) :
    swept store segments before scanId = segments := by
  cases store with
  | inbox =>
    refine List.filter_eq_self.mpr fun row hrow => ?_
    rcases h row hrow with hseen | ⟨-, hstart⟩
    · simp [hseen]
    · simp [hstart]
  | mirror =>
    refine List.filter_eq_self.mpr fun row hrow => ?_
    rcases h row hrow with hseen | ⟨hstore, -⟩
    · simp [hseen]
    · cases hstore

/-! ### What a state says of its file -/

/-- A state that one scan of the whole file would have left. -/
structure Whole (reader : Reader) (config : Config) (store : Store) (content : Bytes)
    (state : State) (file : Checkpoint) (cursor : Cursor) (rendered all : List Rendered) :
    Prop where
  passes : passes reader config store file.generation (.start, []) (completeLines content) =
    .ok (cursor, rendered)
  close : close reader config file.generation (cursor, rendered) = .ok all
  entries : state.segments.map SegmentRow.entry = all.map Rendered.entry
  completeEnd : file.completeEnd = (completeLines content).flatten.length
  tail : (splitLines content).2.length ≤ config.maxRecordBytes
  count : all.length ≤ config.maxSegments

/-- A checkpoint of the first bytes of a file, and the boundary it remembers. -/
structure Remembers (reader : Reader) (config : Config) (store : Store)
    (identity : Nat × Nat × Nat) (content : Bytes) (state : State) (generation : String)
    (origin : Cursor) (before after : List Bytes) (file : Checkpoint) : Prop where
  generation : file.generation = generation
  identity : file.stat.identity = identity
  size : file.stat.size ≤ content.length
  scanned : completeLines (content.take file.stat.size) = before ++ after
  origin : origin = .boundary file.sealedEnd file.sealedLines file.context before.flatten
    (rewindEvents state.events file.sealedEnd)
  prefixSha256 : file.prefixSha256 = reader.sha256 before.flatten
  sealed_le : file.sealedEnd ≤ file.completeEnd
  complete_le : file.completeEnd ≤ file.stat.size
  whole : file.scanComplete = true → ∃ cursor rendered all,
    Whole reader config store (content.take file.stat.size) state file cursor rendered all

/-- The state of a file whose first bytes have been scanned. -/
structure Consistent (reader : Reader) (config : Config) (store : Store)
    (identity : Nat × Nat × Nat) (content : Bytes) (state : State) (generation : String)
    (origin : Cursor) (before after more : List Bytes) (sealed : List Rendered)
    (kept extra : List SegmentRow) : Prop where
  lines : completeLines content = before ++ after ++ more
  boundary : Boundary reader config store generation origin before after sealed
  stored : Stored origin after sealed state.segments kept extra
  empty : store = .inbox → state.file = none → state.segments = []
  file : ∀ file, state.file = some file →
    Remembers reader config store identity content state generation origin before after file

/-- Some boundary makes the state consistent. -/
def Resumable (reader : Reader) (config : Config) (store : Store) (identity : Nat × Nat × Nat)
    (content : Bytes) (state : State) : Prop :=
  ∃ generation origin before after more sealed kept extra,
    Consistent reader config store identity content state generation origin before after more
      sealed kept extra

/-! ### One capture -/

theorem close_after {cursor : Cursor} {new last : List Rendered} (done : List Rendered)
    (h : close reader config generation (cursor, new) = .ok last) :
    close reader config generation (cursor, done ++ new) = .ok (done ++ last) := by
  rcases close_ok h with ⟨hblock, rfl⟩ | ⟨hblock, closed, hrender, rfl⟩
  · rw [close, if_pos hblock]
  · rw [close_block hblock hrender, List.append_assoc]

/-- The lines whose segments a scan has rendered. -/
theorem Ran.closed {origin : Cursor} {before after : List Bytes} {sealed : List Rendered}
    (hb : Boundary reader config store generation origin before after sealed)
    {more : List Bytes} (hmore : ∀ line ∈ after ++ more, IsLine line) {tail : Bytes}
    {deferred : Bool} {cursor : Cursor} {all : List Rendered}
    (hran : Ran reader config store generation origin (after ++ more) tail deferred cursor all) :
    ∃ done, Closed reader config generation origin.offset done all ∧
      (after ++ more ≠ [] → done ≠ []) := by
  cases hran with
  | complete hpasses hclose htail => exact ⟨_, hb.closed hmore hpasses hclose, id⟩
  | @window done left line cursor rendered _ hlines hpasses hclose hoverflow hstore =>
    have hdone : ∀ line ∈ done, IsLine line := fun l hl =>
      hmore l (by rw [hlines]; exact List.mem_append_left _ hl)
    refine ⟨done, hb.closed hdone hpasses hclose, fun _ hnil => hoverflow.1 ?_⟩
    rw [hnil] at hpasses
    cases hpasses
    rw [hb.shape]
    rfl

theorem Ran.left {origin : Cursor} {before after : List Bytes} {sealed : List Rendered}
    (hb : Boundary reader config store generation origin before after sealed)
    {more : List Bytes} (hmore : ∀ line ∈ after ++ more, IsLine line) {tail : Bytes}
    {deferred : Bool} {cursor : Cursor} {all : List Rendered}
    (hran : Ran reader config store generation origin (after ++ more) tail deferred cursor all) :
    ∃ before' after' done extra, Left reader config store generation cursor before (after ++ more)
      sealed all before' after' done extra := by
  cases hran with
  | complete hpasses hclose htail =>
    obtain ⟨before', extra, hleft⟩ := hb.left_complete hmore hpasses hclose
    exact ⟨before', _, _, extra, hleft⟩
  | window hlines hpasses hclose hoverflow hstore =>
    exact ⟨_, _, _, _, hb.left_window hmore hlines hpasses hclose hoverflow⟩

theorem map_entry_row (scanId : String) (rendered : List Rendered) :
    (rendered.map (Rendered.row scanId)).map SegmentRow.entry = rendered.map Rendered.entry := by
  rw [List.map_map]
  rfl

theorem capture_ok {identity : Nat × Nat × Nat} {snapshot : Snapshot} {reuse : Bool}
    {origin : Cursor} {before after more : List Bytes} {sealed : List Rendered}
    (kept extra : List SegmentRow) {reused : Nat} {state state' : State}
    (hidentity : snapshot.before.identity = identity)
    (hsize : snapshot.before.size = snapshot.content.length)
    (horigin : origin = .boundary origin.offset origin.lineNumber origin.context
      (snapshot.content.take origin.offset) (rewindEvents state.events origin.offset))
    (hb : Boundary reader config store generation origin before after sealed)
    (hlines : completeLines snapshot.content = before ++ after ++ more)
    (hkept : kept.map SegmentRow.entry = sealed.map Rendered.entry)
    (hseen : ∀ row ∈ kept, row.seen = snapshot.scanId ∨ store = .inbox)
    (hleads : ∀ tail deferred cursor all, Ran reader config store generation origin
      (after ++ more) tail deferred cursor all →
        extra.map SegmentRow.start <+: all.map fun r => r.segment.start)
    (hreused : reused = sealed.length) (hlimit : reused ≤ config.maxSegments)
    (h : snapshot.capture reader config store generation reuse origin.offset origin.lineNumber
      origin.context (kept ++ extra, reused) state = .ok state') :
    Resumable reader config store identity snapshot.content state' ∧
      ∃ file, state'.file = some file ∧ file.stat = snapshot.before := by
  have hall : ∀ line ∈ before ++ after ++ more, IsLine line := by
    rw [← hlines]
    exact fun line => completeLines_isLine
  have hmore : ∀ line ∈ after ++ more, IsLine line := fun line hline =>
    hall line (by rw [List.append_assoc]; exact List.mem_append_right _ hline)
  obtain ⟨hbytes, -, htail⟩ := splitLines_spec snapshot.content
  have hdrop : snapshot.content.drop origin.offset =
      (after ++ more).flatten ++ (splitLines snapshot.content).2 := by
    have hcontent : snapshot.content = before.flatten ++
        ((after ++ more).flatten ++ (splitLines snapshot.content).2) := by
      rw [← List.append_assoc, ← List.flatten_append, ← List.append_assoc, ← hlines]
      exact hbytes.symm
    rw [hb.offset]
    conv_lhs => rw [hcontent]
    exact List.drop_left
  simp only [Snapshot.capture, bind_eq_ok, check_eq_ok, pure_eq_ok] at h
  obtain ⟨⟨later, deferred⟩, hrun, _, -, _, -, _, -, rfl⟩ := h
  rw [hdrop] at hrun
  obtain ⟨cursor, all, hlooped, hran⟩ := run_ok htail hmore hrun
  dsimp only at hran
  rw [← horigin] at hran
  obtain ⟨done, hclosed, -⟩ := hran.closed hb hmore
  obtain ⟨before', after', done', extra', hleft⟩ := hran.left hb hmore
  have hsegments : swept store later.segments origin.offset snapshot.scanId =
      kept ++ all.map (Rendered.row snapshot.scanId) := by
    have hwritten : later.segments = kept ++ all.map (Rendered.row snapshot.scanId) := by
      rw [hlooped.segments]
      exact hclosed.written kept extra snapshot.scanId (hb.kept_starts hkept) (hleads _ _ _ _ hran)
    rw [hwritten]
    refine swept_all fun row hrow => ?_
    rcases List.mem_append.mp hrow with hrow | hrow
    · exact (hseen row hrow).imp_right fun hstore => ⟨hstore, hb.kept_starts hkept row hrow⟩
    · obtain ⟨r, -, rfl⟩ := List.mem_map.mp hrow
      exact Or.inl rfl
  rw [hsegments, hlooped.cursor]
  have hentries : (kept ++ all.map (Rendered.row snapshot.scanId)).map SegmentRow.entry =
      (sealed ++ all).map Rendered.entry := by
    rw [List.map_append, map_entry_row, hkept, List.map_append]
  refine ⟨⟨generation, cursor.checkpointed, before', after', [], sealed ++ done',
    kept ++ done'.map (Rendered.row snapshot.scanId), extra'.map (Rendered.row snapshot.scanId),
    ?_, hleft.boundary, ?_, ?_, ?_⟩, _, rfl, rfl⟩
  · rw [List.append_nil, ← hleft.split, hlines, List.append_assoc]
  · refine ⟨?_, ?_, ?_, ?_⟩
    · rw [hleft.rendered, List.map_append, List.append_assoc]
    · rw [List.map_append, map_entry_row, hkept, List.map_append]
    · rw [List.map_map]
      exact hleft.open_start
    · intro hafter
      rw [hleft.open_lines hafter, List.map_nil]
  · intro _ hfile
    cases hfile
  · intro file hfile
    cases hfile
    have htake : snapshot.content.take snapshot.before.size = snapshot.content := by
      rw [hsize, List.take_length]
    refine ⟨rfl, hidentity, Nat.le_of_eq hsize, ?_, ?_, ?_, hleft.block_le, ?_, ?_⟩
    · rw [htake, hlines, ← hleft.split, List.append_assoc]
    · rw [← hleft.prefixDigest]
      rfl
    · rw [← hleft.prefixDigest]
    · have hlength := congrArg List.length hbytes
      rw [List.length_append] at hlength
      show cursor.offset ≤ snapshot.before.size
      calc cursor.offset ≤ (before ++ (after ++ more)).flatten.length := hleft.offset_le
        _ = (splitLines snapshot.content).1.flatten.length := by
          rw [← List.append_assoc, ← hlines]
          rfl
        _ ≤ snapshot.before.size := by omega
    · intro hcomplete
      rw [htake]
      cases hran with
      | window => simp at hcomplete
      | complete hpasses hclose hshort =>
        refine ⟨cursor, _, sealed ++ all, ?_, close_after sealed hclose, hentries, ?_, hshort, ?_⟩
        · rw [hlines]
          exact hb.whole hpasses
        · show cursor.offset = _
          rw [hlines, (passes_offset hpasses).1, hb.offset]
          simp only [List.flatten_append, List.length_append]
          omega
        · rw [List.length_append, ← hreused]
          by_cases hnil : all = []
          · rw [hnil]
            exact hlimit
          · have hcount := hlooped.limit hnil
            rw [hlooped.reused, hlooped.counted] at hcount
            simpa using hcount

/-! ### One scan -/

section Scan

variable {identity : Nat × Nat × Nat} {snapshot : Snapshot} {state state' : State}

theorem rewindEvents_zero (events : List EventRow) : rewindEvents events 0 = [] := by
  simp [rewindEvents]

theorem captureAll_ok {later : String} {reuse : Bool}
    (hidentity : snapshot.before.identity = identity)
    (hsize : snapshot.before.size = snapshot.content.length)
    (hresumable : Resumable reader config store identity snapshot.content state)
    (hstore : store = .mirror ∨ state.segments = [])
    (h : snapshot.captureAll reader config store later reuse state = .ok state') :
    Resumable reader config store identity snapshot.content state' ∧
      ∃ file, state'.file = some file ∧ file.stat = snapshot.before := by
  obtain ⟨generation, origin, before, after, more, sealed, kept, extra, hconsistent⟩ := hresumable
  have hstart := Boundary.start reader config store later
  refine capture_ok [] state.segments hidentity hsize ?_ hstart (List.nil_append _).symm rfl
    (by simp) ?_ rfl (Nat.zero_le _) h
  · show Cursor.start = .boundary 0 0 none [] (rewindEvents state.events 0)
    rw [rewindEvents_zero]
    rfl
  · intro tail deferred cursor all hran
    rcases hstore with hmirror | hempty
    · cases hran with
      | window _ _ _ _ hinbox => rw [hmirror] at hinbox; cases hinbox
      | complete hpasses hclose _ =>
        rw [List.nil_append, hconsistent.lines] at hpasses
        refine hconsistent.stored.starts_lead hconsistent.boundary ?_ hpasses hclose
        intro line hline
        have hmem : line ∈ completeLines snapshot.content := by
          rw [hconsistent.lines, List.append_assoc]
          exact List.mem_append_right _ hline
        exact completeLines_isLine hmem
    · rw [hempty]
      exact List.nil_prefix

/-- An unchanged file: the rows stay, whoever marks them. -/
theorem retainAll_ok {old : Checkpoint} (hfile : state.file = some old)
    (hcomplete : old.scanComplete = true) (hbefore : snapshot.before = old.stat)
    (hsize : snapshot.before.size = snapshot.content.length)
    (hresumable : Resumable reader config store identity snapshot.content state)
    (h : snapshot.retainAll config store old state = .ok state') :
    Resumable reader config store identity snapshot.content state' ∧
      ∃ file, state'.file = some file ∧ file.stat = snapshot.before := by
  obtain ⟨generation, origin, before, after, more, sealed, kept, extra, hconsistent⟩ := hresumable
  have hremembers := hconsistent.file old hfile
  have htake : snapshot.content.take old.stat.size = snapshot.content := by
    rw [← hbefore, hsize, List.take_length]
  obtain ⟨cursor, rendered, all, hwhole⟩ := hremembers.whole hcomplete
  rw [htake] at hwhole
  simp only [Snapshot.retainAll, bind_eq_ok, check_eq_ok, pure_eq_ok] at h
  obtain ⟨_, -, ⟨rows, reused⟩, hretain, _, -, _, -, rfl⟩ := h
  obtain ⟨hentries, -, -, hseen⟩ := retain_ok hretain
  have hswept : swept store rows (old.completeEnd + 1) snapshot.scanId = rows := by
    refine swept_all fun row hrow => ?_
    have hstart : row.start < old.completeEnd + 1 := by
      have hmem : row.entry ∈ all.map Rendered.entry := by
        rw [← hwhole.entries, ← hentries]
        exact List.mem_map_of_mem hrow
      obtain ⟨r, hr, hentry⟩ := List.mem_map.mp hmem
      have hclosed := (Boundary.start reader config store old.generation).closed
        (fun line => completeLines_isLine) hwhole.passes hwhole.close
      have hbound := (hclosed.bounds r hr).2
      have hsame : r.segment.start = row.start := congrArg Prod.fst hentry
      have hzero : Cursor.start.offset = 0 := rfl
      rw [hwhole.completeEnd]
      omega
    cases store with
    | inbox => exact Or.inr ⟨rfl, hstart⟩
    | mirror => exact Or.inl (hseen rfl row hrow hstart)
  obtain ⟨kept', extra', hstored⟩ := hconsistent.stored.marked hentries
  rw [hswept]
  refine ⟨⟨generation, origin, before, after, more, sealed, kept', extra', hconsistent.lines,
    hconsistent.boundary, hstored, (fun _ hnone => by cases hnone), ?_⟩, _, rfl, hbefore.symm⟩
  intro file hfile'
  cases hfile'
  refine ⟨hremembers.generation, hremembers.identity, hremembers.size, hremembers.scanned,
    hremembers.origin, hremembers.prefixSha256, hremembers.sealed_le, hremembers.complete_le, ?_⟩
  intro _
  rw [htake]
  exact ⟨cursor, rendered, all, hwhole.passes, hwhole.close, hentries.trans hwhole.entries,
    hwhole.completeEnd, hwhole.tail, hwhole.count⟩

theorem resume_ok {old : Checkpoint} (hfile : state.file = some old)
    (hidentity : snapshot.before.identity = identity)
    (hsize : snapshot.before.size = snapshot.content.length)
    (hresumable : Resumable reader config store identity snapshot.content state)
    (h : snapshot.resume reader config store old state = .ok state') :
    Resumable reader config store identity snapshot.content state' ∧
      ∃ file, state'.file = some file ∧ file.stat = snapshot.before := by
  obtain ⟨generation, origin, before, after, more, sealed, kept, extra, hconsistent⟩ := hresumable
  have hremembers := hconsistent.file old hfile
  have hb := hconsistent.boundary
  have hcomplete := hremembers.complete_le
  have hsealed := hremembers.sealed_le
  have hscanned := hremembers.size
  have hsealedEnd : old.sealedEnd = origin.offset := by rw [hremembers.origin]; rfl
  have hleads : snapshot.content.take old.sealedEnd = before.flatten := by
    obtain ⟨hbytes, -, -⟩ := splitLines_spec snapshot.content
    have hcontent : snapshot.content = before.flatten ++
        ((after ++ more).flatten ++ (splitLines snapshot.content).2) := by
      rw [← List.append_assoc, ← List.flatten_append, ← List.append_assoc, ← hconsistent.lines]
      exact hbytes.symm
    rw [hsealedEnd, hb.offset, hcontent, List.take_left]
  have hsame : ¬ (decide (old.stat.identity ≠ snapshot.before.identity) ||
      decide (snapshot.before.size < old.completeEnd)) = true := by
    rw [hremembers.identity, hidentity]
    simp
    omega
  have hresumes : ¬ ((decide (old.stat.identity ≠ snapshot.before.identity) ||
      decide (snapshot.before.size < old.completeEnd)) ||
      decide (snapshot.before.size < old.sealedEnd)) = true := by
    rw [Bool.or_eq_true, not_or]
    refine ⟨hsame, ?_⟩
    simp
    omega
  simp only [Snapshot.resume] at h
  rw [if_neg hresumes, if_neg hsame] at h
  simp only [bind_eq_ok, check_eq_ok] at h
  obtain ⟨_, -, h⟩ := h
  rw [hleads, if_pos hremembers.prefixSha256.symm] at h
  simp only [bind_eq_ok] at h
  obtain ⟨⟨rows, reused⟩, hretain, h⟩ := h
  obtain ⟨hentries, hcount, hlimit, hseen⟩ := retain_ok hretain
  obtain ⟨kept', extra', hstored⟩ := hconsistent.stored.marked hentries
  have hshape : origin = .boundary origin.offset origin.lineNumber origin.context
      (snapshot.content.take origin.offset) (rewindEvents state.events origin.offset) := by
    rw [← hsealedEnd, hleads, hremembers.origin]
    rfl
  have hmore : ∀ line ∈ after ++ more, IsLine line := by
    intro line hline
    have hmem : line ∈ completeLines snapshot.content := by
      rw [hconsistent.lines, List.append_assoc]
      exact List.mem_append_right _ hline
    exact completeLines_isLine hmem
  have hsealedLines : old.sealedLines = origin.lineNumber := by rw [hremembers.origin]; rfl
  have hcontext : old.context = origin.context := by rw [hremembers.origin]; rfl
  rw [hsealedEnd] at hcount hseen
  rw [hremembers.generation, hsealedEnd, hsealedLines, hcontext, hstored.rows] at h
  rw [hconsistent.stored.reused hb] at hcount
  refine capture_ok kept' extra' hidentity hsize hshape hb hconsistent.lines hstored.kept ?_ ?_
    hcount hlimit h
  · intro row hrow
    cases store with
    | inbox => exact Or.inr rfl
    | mirror =>
      refine Or.inl (hseen rfl row ?_ (hb.kept_starts hstored.kept row hrow))
      rw [hstored.rows]
      exact List.mem_append_left _ hrow
  · intro tail deferred cursor all hran
    obtain ⟨done, hclosed, hdone⟩ := hran.closed hb hmore
    refine hstored.open_leads hclosed fun hafter => hdone fun hnil => hafter ?_
    exact (List.append_eq_nil_iff.mp hnil).1

theorem scan_ok (hidentity : snapshot.before.identity = identity)
    (hsize : snapshot.before.size = snapshot.content.length)
    (hresumable : Resumable reader config store identity snapshot.content state)
    (h : snapshot.scan reader config store state = .ok state') :
    Resumable reader config store identity snapshot.content state' ∧
      ∃ file, state'.file = some file ∧ file.stat = snapshot.before := by
  simp only [Snapshot.scan, bind_eq_ok, check_eq_ok] at h
  obtain ⟨_, -, h⟩ := h
  cases hfile : state.file with
  | none =>
    rw [hfile] at h
    refine captureAll_ok hidentity hsize hresumable ?_ h
    obtain ⟨generation, origin, before, after, more, sealed, kept, extra, hconsistent⟩ := hresumable
    cases store with
    | inbox => exact Or.inr (hconsistent.empty rfl hfile)
    | mirror => exact Or.inl rfl
  | some old =>
    rw [hfile] at h
    dsimp only at h
    split at h
    · next hmirror => exact captureAll_ok hidentity hsize hresumable (Or.inl hmirror.1) h
    · split at h
      · next hsame => exact retainAll_ok hfile hsame.2 hsame.1 hsize hresumable h
      · exact resume_ok hfile hidentity hsize hresumable h

end Scan

/-! ### Visits to a file that grows -/

/-- A scan: what was appended before it and while it runs, what it meets and the
    names it gives. -/
structure Occasion where
  grown : Bytes
  during : Bytes
  openedAt : Nat × Nat
  checkedAt : Nat × Nat
  remoteCheckpoint : Option String
  remoteIdentity : Option RemoteIdentity
  freshGeneration : String
  scanId : String
  checkpoint : String
  pressure : Pressure

/-- The scan of a file that is now `content`. -/
def Occasion.snapshot (identity : Nat × Nat × Nat) (content : Bytes) (occasion : Occasion) :
    Snapshot :=
  { content := content
    before := ⟨identity, content.length, occasion.openedAt.1, occasion.openedAt.2⟩
    later := content ++ occasion.during
    after := ⟨identity, (content ++ occasion.during).length, occasion.checkedAt.1,
      occasion.checkedAt.2⟩
    remoteCheckpoint := occasion.remoteCheckpoint, remoteIdentity := occasion.remoteIdentity
    freshGeneration := occasion.freshGeneration, scanId := occasion.scanId
    checkpoint := occasion.checkpoint, pressure := occasion.pressure }

inductive Visit where
  | scan (occasion : Occasion)
  /-- The mirror forgets its checkpoint; the inbox has no such call. -/
  | invalidated

structure World where
  content : Bytes
  state : State

/-- What a visit leaves; a scan that raises is rolled back. -/
def World.next (reader : Reader) (config : Config) (store : Store) (identity : Nat × Nat × Nat)
    (world : World) : Visit → World
  | .scan occasion =>
    let content := world.content ++ occasion.grown
    { content := content ++ occasion.during
      state :=
        match (occasion.snapshot identity content).scan reader config store world.state with
        | .ok state => state
        | .error _ => world.state }
  | .invalidated =>
    match store with
    | .mirror => { world with state := { world.state with file := none } }
    | .inbox => world

/-- A file that is only appended to, and the capture state of its scope. -/
def captureMachine (reader : Reader) (config : Config) (store : Store)
    (identity : Nat × Nat × Nat) : Machine World Visit where
  init := ⟨[], .empty⟩
  next := World.next reader config store identity

theorem Resumable.grow {identity : Nat × Nat × Nat} {content : Bytes} {state : State}
    (h : Resumable reader config store identity content state) (grown : Bytes) :
    Resumable reader config store identity (content ++ grown) state := by
  obtain ⟨generation, origin, before, after, more, sealed, kept, extra, hconsistent⟩ := h
  obtain ⟨later, hlater⟩ := completeLines_append content grown
  refine ⟨generation, origin, before, after, more ++ later, sealed, kept, extra, ?_,
    hconsistent.boundary, hconsistent.stored, hconsistent.empty, ?_⟩
  · rw [hlater, hconsistent.lines, List.append_assoc _ more]
  · intro file hfile
    have hremembers := hconsistent.file file hfile
    have htake : (content ++ grown).take file.stat.size = content.take file.stat.size :=
      List.take_append_of_le_length hremembers.size
    refine ⟨hremembers.generation, hremembers.identity, ?_, ?_, hremembers.origin,
      hremembers.prefixSha256, hremembers.sealed_le, hremembers.complete_le, ?_⟩
    · rw [List.length_append]
      exact Nat.le_add_right_of_le hremembers.size
    · rw [htake]
      exact hremembers.scanned
    · rw [htake]
      exact hremembers.whole

theorem Resumable.invalidated {identity : Nat × Nat × Nat} {content : Bytes} {state : State}
    (h : Resumable reader config .mirror identity content state) :
    Resumable reader config .mirror identity content { state with file := none } := by
  obtain ⟨generation, origin, before, after, more, sealed, kept, extra, hconsistent⟩ := h
  exact ⟨generation, origin, before, after, more, sealed, kept, extra, hconsistent.lines,
    hconsistent.boundary, hconsistent.stored, (fun hstore => nomatch hstore),
    fun _ hfile => nomatch hfile⟩

theorem resumable_empty (identity : Nat × Nat × Nat) :
    Resumable reader config store identity [] .empty :=
  ⟨"", .start, [], [], [], [], [], [], rfl, Boundary.start reader config store "",
    ⟨rfl, rfl, List.nil_prefix, fun _ => rfl⟩, fun _ _ => rfl, fun _ hfile => nomatch hfile⟩

/-- **Every visit leaves a state that can be resumed.** -/
theorem resumable_run (reader : Reader) (config : Config) (store : Store)
    (identity : Nat × Nat × Nat) (visits : List Visit) :
    Resumable reader config store identity
      ((captureMachine reader config store identity).run visits).content
      ((captureMachine reader config store identity).run visits).state := by
  apply (captureMachine reader config store identity).run_invariant
    (fun world => Resumable reader config store identity world.content world.state)
    (fun _ => True) (resumable_empty identity) ?_ visits (fun _ _ => trivial)
  intro world visit _ h
  cases visit with
  | scan occasion =>
    have hgrown := Resumable.grow h occasion.grown
    show Resumable _ _ _ _ ((world.content ++ occasion.grown) ++ occasion.during) _
    refine Resumable.grow ?_ occasion.during
    simp only [captureMachine, World.next]
    split
    · next state' hscan => exact (scan_ok rfl rfl hgrown hscan).1
    · exact hgrown
  | invalidated =>
    cases store with
    | mirror => exact Resumable.invalidated h
    | inbox => exact h

/-! ### One scan of the whole file -/

/-- The scan of the same bytes by a state that knows nothing, under a given
    generation, with nothing that presses. -/
def Snapshot.single (snapshot : Snapshot) (generation : String) : Snapshot :=
  { snapshot with
    later := snapshot.content, after := snapshot.before, remoteCheckpoint := none
    remoteIdentity := none, freshGeneration := generation, pressure := .none }

theorem references_of_entries {rows rows' : List SegmentRow}
    (h : rows.map SegmentRow.entry = rows'.map SegmentRow.entry) :
    rows.flatMap SegmentRow.refs = rows'.flatMap SegmentRow.refs := by
  have hrefs := congrArg (List.map Prod.snd) h
  rw [List.map_map, List.map_map] at hrefs
  rw [List.flatMap_def, List.flatMap_def]
  exact congrArg List.flatten hrefs

theorem Whole.single {snapshot : Snapshot} {state : State} {file : Checkpoint} {cursor : Cursor}
    {rendered all : List Rendered} (hsize : snapshot.before.size = snapshot.content.length)
    (hmaximum : snapshot.before.size ≤ config.maxFileBytes)
    (h : Whole reader config store snapshot.content state file cursor rendered all) :
    ∃ full, (snapshot.single file.generation).scan reader config store .empty = .ok full ∧
      full.file.map Checkpoint.generation = some file.generation ∧
      full.references = state.references := by
  obtain ⟨hbytes, hlines, htail⟩ := splitLines_spec snapshot.content
  have hclosed := (Boundary.start reader config store file.generation).closed hlines h.passes h.close
  obtain ⟨later, hrun, hlooped⟩ := run_complete snapshot.scanId false 0 ⟨.start, [], [], 0, 0⟩
    htail h.tail hlines h.passes h.close (by simpa using h.count)
  rw [hbytes] at hrun
  have hoffset : later.cursor.offset ≤ snapshot.before.size := by
    have hlength := congrArg List.length hbytes
    rw [List.length_append] at hlength
    rw [hlooped.cursor, (passes_offset h.passes).1, hsize]
    show 0 + (splitLines snapshot.content).1.flatten.length ≤ _
    omega
  have hsegments : swept store later.segments 0 snapshot.scanId =
      all.map (Rendered.row snapshot.scanId) := by
    have hwritten := hclosed.written [] [] snapshot.scanId (by simp) List.nil_prefix
    rw [hlooped.segments]
    show swept store (upsertAll ([] ++ []) _) 0 _ = _
    rw [hwritten, List.nil_append]
    refine swept_all fun row hrow => ?_
    obtain ⟨r, -, rfl⟩ := List.mem_map.mp hrow
    exact Or.inl rfl
  have hcapture : ∃ full, (snapshot.single file.generation).captureAll reader config store
      file.generation false .empty = .ok full ∧
      full.file.map Checkpoint.generation = some file.generation ∧
      full.segments = all.map (Rendered.row snapshot.scanId) := by
    simp only [Snapshot.captureAll, Snapshot.capture, bind_eq_ok, check_eq_ok, pure_eq_ok]
    exact ⟨_, ⟨(later, false), hrun, (), ⟨rfl, hoffset⟩, (), Or.inl rfl, (), rfl, rfl⟩, rfl,
      hsegments⟩
  obtain ⟨full, hfull, hgeneration, hrows⟩ := hcapture
  refine ⟨full, ?_, hgeneration, ?_⟩
  · simp only [Snapshot.scan, bind_eq_ok, check_eq_ok]
    exact ⟨(), hmaximum, hfull⟩
  · rw [State.references, State.references, hrows]
    refine references_of_entries ?_
    rw [map_entry_row, h.entries]

/-- Each row holds what its segment is rendered to. -/
theorem rows_rendered {all : List Rendered} :
    ∀ {rows : List SegmentRow}, rows.map SegmentRow.entry = all.map Rendered.entry →
      (∀ r ∈ all, ∃ items, reader.render config generation r.segment = .ok items ∧
        r.refs = items.map Item.ref) →
      List.Forall₂ (fun row segment => row.start = segment.start ∧
        ∃ items, reader.render config generation segment = .ok items ∧
          row.refs = items.map Item.ref) rows (all.map Rendered.segment) := by
  induction all with
  | nil =>
    intro rows h _
    rw [List.map_eq_nil_iff.mp h]
    exact List.Forall₂.nil
  | cons first rest ih =>
    intro rows h hrefs
    obtain ⟨row, rows, rfl, hfirst, hrest⟩ := List.map_eq_cons_iff.mp h
    obtain ⟨items, hitems, hrefsFirst⟩ := hrefs first List.mem_cons_self
    have hstart : row.start = first.segment.start := congrArg Prod.fst hfirst
    have hsame : row.refs = first.refs := congrArg Prod.snd hfirst
    refine List.Forall₂.cons ⟨hstart, items, hitems, hsame.trans hrefsFirst⟩ ?_
    exact ih hrest fun r hr => hrefs r (List.mem_cons_of_mem _ hr)

/-! ### The theorem -/

def sampleReader : Reader where
  sha256 := fun bytes => toString bytes.length
  decode := fun _ bytes => if bytes.length < 8 then some "message" else none
  loads := fun _ => some .null
  dumps := fun _ => "null"
  privateVaultContent := fun _ => false
  selectFields := fun _ row => some row
  selectedJsonl := fun _ text => some text
  parse := fun _ _ => some []

def sampleConfig : Config where
  identifier := "conversation:a"
  relative := "a.jsonl"
  normalizeConversations := false
  messagesOnly := false
  segmentBytes := 100
  segmentRecords := 1
  maxRecordBytes := 100
  maxFileBytes := 100
  maxSegments := 10
  capturePolicy := none

def sampleOccasion (grown : Bytes) (pressure : Pressure) : Occasion where
  grown := grown
  during := []
  openedAt := (1, 1)
  checkedAt := (1, 1)
  remoteCheckpoint := none
  remoteIdentity := none
  freshGeneration := "generation"
  scanId := "scan"
  checkpoint := "jsonl:scan"
  pressure := pressure

/-- A window that closes after one segment. -/
def oneSegment : Pressure :=
  { Pressure.none with windowReached := fun segments _ => decide (1 ≤ segments) }

end Mnemion.Conversations
