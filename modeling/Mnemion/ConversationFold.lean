/-
  Mnemion/ConversationFold.lean
  =============================
  **Capture as a fold over lines.**  `pass` takes one complete line: it closes
  the block that the line overflows and consumes the line.  What the fold has
  done when it closes a block does not depend on the block, so the fold over a
  file can be resumed at any boundary between its segments (`fold_resumes`).
-/
import Mnemion.ConversationCapture
import Mathlib.Data.List.Induction

namespace Mnemion.Conversations

open Outcome ByteLines

/-- A segment with the references it was rendered to. -/
structure Rendered where
  segment : Segment
  refs : List Ref

section Fold

variable (reader : Reader) (config : Config) (store : Store) (generation : String)

def Cursor.render (cursor : Cursor) : Except CaptureError Rendered := do
  let items ← reader.render config generation cursor.segment
  return ⟨cursor.segment, items.map Item.ref⟩

/-- One complete line, with nothing that presses. -/
def pass (pair : Cursor × List Rendered) (raw : Bytes) :
    Except CaptureError (Cursor × List Rendered) := do
  check (raw.length ≤ config.maxRecordBytes) .conversationRecordLimit
  if pair.1.overflows config raw then
    let rendered ← pair.1.render reader config generation
    let cursor ← pair.1.sealed.consume reader config store .none raw
    return (cursor, pair.2 ++ [rendered])
  else
    let cursor ← pair.1.consume reader config store .none raw
    return (cursor, pair.2)

def passes (pair : Cursor × List Rendered) (lines : List Bytes) :
    Except CaptureError (Cursor × List Rendered) :=
  lines.foldlM (pass reader config store generation) pair

/-- The segments once the last block is rendered too. -/
def close (pair : Cursor × List Rendered) : Except CaptureError (List Rendered) :=
  if pair.1.block = [] then .ok pair.2
  else do
    let rendered ← pair.1.render reader config generation
    return pair.2 ++ [rendered]

end Fold

variable {reader : Reader} {config : Config} {store : Store} {generation : String}

/-! ### One line -/

/-- What a line makes of the loop variables: the line ends the block, and events
    are new only at its offset. -/
structure Consumed (cursor : Cursor) (raw : Bytes) (later : Cursor) : Prop where
  offset : later.offset = cursor.offset + raw.length
  lineNumber : later.lineNumber = cursor.lineNumber + 1
  digest : later.digest = cursor.digest ++ raw
  block : later.block = cursor.block ++ [raw]
  blockSize : later.blockSize = cursor.blockSize + raw.length
  blockStart : later.blockStart = cursor.blockStart
  blockLine : later.blockLine = cursor.blockLine
  blockContext : later.blockContext = cursor.blockContext
  prefixDigest : later.prefixDigest = cursor.prefixDigest
  events : ∃ new, later.events = cursor.events ++ new ∧ ∀ row ∈ new, row.position = cursor.offset

theorem recordEvent_ok {full : Nat → Bool} {key : String × String} {digest : String}
    {position : Nat} {events events' : List EventRow} {visible : Bool}
    (h : recordEvent full key digest position events = .ok (visible, events')) :
    recordEvent (fun _ => false) key digest position events = .ok (visible, events') ∧
      ∃ new, events' = events ++ new ∧ ∀ row ∈ new, row.position = position := by
  unfold recordEvent at h ⊢
  split
  · next old hold =>
    rw [hold] at h
    refine ⟨h, [], ?_, by simp⟩
    dsimp only at h
    split at h
    · cases h
    · cases h
      simp
  · next hnone =>
    rw [hnone] at h
    dsimp only at h
    split at h
    · cases h
    · cases h
      exact ⟨by simp, _, rfl, by simp⟩

theorem visibleRow_ok {full : Nat → Bool} {row : Json} {position : Nat}
    {events events' : List EventRow} {visible : Bool}
    (h : reader.visibleRow config store full row position events = .ok (visible, events')) :
    reader.visibleRow config store (fun _ => false) row position events =
        .ok (visible, events') ∧
      ∃ new, events' = events ++ new ∧ ∀ row ∈ new, row.position = position := by
  unfold Reader.visibleRow at h ⊢
  split
  · next hnone =>
    rw [hnone] at h
    cases h
    exact ⟨rfl, [], by simp, by simp⟩
  · next params update hchunk =>
    rw [hchunk] at h
    dsimp only at h
    split
    · next hnone =>
      rw [hnone] at h
      cases h
      exact ⟨rfl, [], by simp, by simp⟩
    · next event hevent =>
      rw [hevent] at h
      simp only [bind_eq_ok, check_eq_ok] at h ⊢
      obtain ⟨session, hsession, _, hvalid, hrecord⟩ := h
      obtain ⟨hnone, hnew⟩ := recordEvent_ok hrecord
      exact ⟨⟨session, hsession, (), hvalid, hnone⟩, hnew⟩

theorem consume_ok {pressure : Pressure} {cursor later : Cursor} {raw : Bytes}
    (h : cursor.consume reader config store pressure raw = .ok later) :
    cursor.consume reader config store .none raw = .ok later ∧ Consumed cursor raw later := by
  simp only [Cursor.consume, bind_eq_ok, pure_eq_ok] at h ⊢
  obtain ⟨row, hrow, ⟨rows, events⟩, hvisible, context, hcontext, rfl⟩ := h
  have hnone : cursor.visible reader config store .none row = .ok (rows, events) ∧
      ∃ new, events = cursor.events ++ new ∧ ∀ row ∈ new, row.position = cursor.offset := by
    cases row with
    | none =>
      cases hvisible
      exact ⟨rfl, [], by simp, by simp⟩
    | some row =>
      simp only [Cursor.visible] at hvisible ⊢
      split at hvisible
      · next hnormalize =>
        simp only [bind_eq_ok, pure_eq_ok] at hvisible
        obtain ⟨⟨visible, events'⟩, hrecord, hpair⟩ := hvisible
        obtain ⟨hnone, hnew⟩ := visibleRow_ok hrecord
        cases hpair
        rw [if_pos hnormalize]
        simp only [bind_eq_ok, pure_eq_ok]
        exact ⟨⟨_, hnone, rfl⟩, hnew⟩
      · next hnormalize =>
        cases hvisible
        rw [if_neg hnormalize]
        exact ⟨rfl, [], by simp, by simp⟩
  exact ⟨⟨row, hrow, _, hnone.1, context, hcontext, rfl⟩,
    rfl, rfl, rfl, rfl, rfl, rfl, rfl, rfl, rfl, hnone.2⟩

/-! ### Folds -/

@[simp] theorem passes_nil (pair : Cursor × List Rendered) :
    passes reader config store generation pair [] = .ok pair := rfl

theorem passes_append (pair : Cursor × List Rendered) (lines more : List Bytes) :
    passes reader config store generation pair (lines ++ more) =
      passes reader config store generation pair lines >>= fun later =>
        passes reader config store generation later more :=
  List.foldlM_append

theorem passes_cons (pair : Cursor × List Rendered) (raw : Bytes) (lines : List Bytes) :
    passes reader config store generation pair (raw :: lines) =
      pass reader config store generation pair raw >>= fun later =>
        passes reader config store generation later lines :=
  List.foldlM_cons

/-- What was rendered before does not matter for a line. -/
theorem pass_after {cursor later : Cursor} {raw : Bytes} {rendered : List Rendered}
    (done : List Rendered)
    (h : pass reader config store generation (cursor, []) raw = .ok (later, rendered)) :
    pass reader config store generation (cursor, done) raw = .ok (later, done ++ rendered) := by
  simp only [pass, bind_eq_ok, check_eq_ok] at h ⊢
  obtain ⟨_, hlength, h⟩ := h
  refine ⟨(), hlength, ?_⟩
  split at h
  · next hoverflow =>
    simp only [bind_eq_ok, pure_eq_ok, Prod.mk.injEq] at h
    obtain ⟨segment, hrender, cursor', hconsume, rfl, rfl⟩ := h
    rw [if_pos hoverflow]
    simp only [bind_eq_ok, pure_eq_ok]
    exact ⟨segment, hrender, _, hconsume, rfl⟩
  · next hoverflow =>
    simp only [bind_eq_ok, pure_eq_ok, Prod.mk.injEq] at h
    obtain ⟨cursor', hconsume, rfl, rfl⟩ := h
    rw [if_neg hoverflow]
    simp only [bind_eq_ok, pure_eq_ok, List.append_nil]
    exact ⟨_, hconsume, rfl⟩

theorem pass_split {cursor later : Cursor} {raw : Bytes} {done rendered : List Rendered}
    (h : pass reader config store generation (cursor, done) raw = .ok (later, rendered)) :
    ∃ new, pass reader config store generation (cursor, []) raw = .ok (later, new) ∧
      rendered = done ++ new := by
  simp only [pass, bind_eq_ok, check_eq_ok] at h ⊢
  obtain ⟨_, hlength, h⟩ := h
  split at h
  · next hoverflow =>
    simp only [bind_eq_ok, pure_eq_ok, Prod.mk.injEq] at h
    obtain ⟨segment, hrender, cursor', hconsume, rfl, rfl⟩ := h
    refine ⟨[segment], ⟨(), hlength, ?_⟩, rfl⟩
    rw [if_pos hoverflow]
    simp only [bind_eq_ok, pure_eq_ok]
    exact ⟨segment, hrender, _, hconsume, rfl⟩
  · next hoverflow =>
    simp only [bind_eq_ok, pure_eq_ok, Prod.mk.injEq] at h
    obtain ⟨cursor', hconsume, rfl, rfl⟩ := h
    refine ⟨[], ⟨(), hlength, ?_⟩, (List.append_nil _).symm⟩
    rw [if_neg hoverflow]
    simp only [bind_eq_ok, pure_eq_ok]
    exact ⟨_, hconsume, rfl⟩

theorem passes_concat (pair : Cursor × List Rendered) (lines : List Bytes) (raw : Bytes) :
    passes reader config store generation pair (lines ++ [raw]) =
      passes reader config store generation pair lines >>= fun later =>
        pass reader config store generation later raw := by
  rw [passes_append]
  simp only [passes, List.foldlM_cons, List.foldlM_nil, bind_pure]

theorem passes_split {cursor : Cursor} {lines : List Bytes} :
    ∀ {later : Cursor} {done rendered : List Rendered},
      passes reader config store generation (cursor, done) lines = .ok (later, rendered) →
      ∃ new, passes reader config store generation (cursor, []) lines = .ok (later, new) ∧
        rendered = done ++ new := by
  induction lines using List.reverseRecOn with
  | nil =>
    intro later done rendered h
    cases h
    exact ⟨[], rfl, (List.append_nil _).symm⟩
  | append_singleton lines raw ih =>
    intro later done rendered h
    rw [passes_concat, bind_eq_ok] at h
    obtain ⟨⟨mid, before⟩, hlines, hraw⟩ := h
    obtain ⟨new, hnew, rfl⟩ := ih hlines
    obtain ⟨more, hmore, rfl⟩ := pass_split hraw
    refine ⟨new ++ more, ?_, by rw [List.append_assoc]⟩
    rw [passes_concat, hnew]
    exact pass_after new hmore

theorem passes_after {cursor : Cursor} {lines : List Bytes} :
    ∀ {later : Cursor} {rendered : List Rendered} (done : List Rendered),
      passes reader config store generation (cursor, []) lines = .ok (later, rendered) →
      passes reader config store generation (cursor, done) lines =
        .ok (later, done ++ rendered) := by
  induction lines using List.reverseRecOn with
  | nil =>
    intro later rendered done h
    cases h
    rw [passes_nil, List.append_nil]
  | append_singleton lines raw ih =>
    intro later rendered done h
    rw [passes_concat, bind_eq_ok] at h ⊢
    obtain ⟨⟨mid, new⟩, hlines, hraw⟩ := h
    obtain ⟨more, hmore, rfl⟩ := pass_split hraw
    refine ⟨_, ih done hlines, ?_⟩
    rw [← List.append_assoc]
    exact pass_after (done ++ new) hmore

/-! ### Coherent loop variables -/

/-- The block is what lies between its start and the offset, within the limits
    of a segment, and events come from earlier lines. -/
structure Cursor.Coherent (config : Config) (cursor : Cursor) : Prop where
  offset : cursor.offset = cursor.blockStart + cursor.block.flatten.length
  lineNumber : cursor.lineNumber = cursor.blockLine + cursor.block.length
  blockSize : cursor.blockSize = cursor.block.flatten.length
  digest : cursor.digest = cursor.prefixDigest ++ cursor.block.flatten
  prefixLength : cursor.prefixDigest.length = cursor.blockStart
  events : ∀ row ∈ cursor.events, row.position < cursor.offset
  fits : cursor.block.length ≤ 1 ∨
    cursor.blockSize ≤ config.segmentBytes ∧ cursor.block.length ≤ config.segmentRecords

theorem Cursor.Coherent.boundary {config : Config} {start lines : Nat} {context : Option Context}
    {digest : Bytes} {events : List EventRow} (hdigest : digest.length = start)
    (hevents : ∀ row ∈ events, row.position < start) :
    (Cursor.boundary start lines context digest events).Coherent config where
  offset := rfl
  lineNumber := rfl
  blockSize := rfl
  digest := by simp [Cursor.boundary]
  prefixLength := hdigest
  events := hevents
  fits := Or.inl (Nat.zero_le _)

theorem Cursor.Coherent.sealed {cursor : Cursor} (h : cursor.Coherent config) :
    cursor.sealed.Coherent config := by
  refine Cursor.Coherent.boundary ?_ h.events
  rw [h.digest, List.length_append, h.prefixLength, h.offset]

theorem Cursor.Coherent.consumed {cursor later : Cursor} {raw : Bytes} (h : cursor.Coherent config)
    (hraw : raw ≠ []) (hfits : ¬ cursor.overflows config raw) (hlater : Consumed cursor raw later) :
    later.Coherent config where
  offset := by
    rw [hlater.offset, h.offset, hlater.blockStart, hlater.block]
    simp [Nat.add_assoc]
  lineNumber := by
    rw [hlater.lineNumber, h.lineNumber, hlater.blockLine, hlater.block]
    simp [Nat.add_assoc]
  blockSize := by
    rw [hlater.blockSize, h.blockSize, hlater.block]
    simp
  digest := by
    rw [hlater.digest, h.digest, hlater.prefixDigest, hlater.block]
    simp
  prefixLength := by rw [hlater.prefixDigest, hlater.blockStart, h.prefixLength]
  events := by
    obtain ⟨new, hevents, hnew⟩ := hlater.events
    have hpos := List.length_pos_of_ne_nil hraw
    intro row hrow
    rw [hlater.offset]
    rw [hevents] at hrow
    rcases List.mem_append.mp hrow with hrow | hrow
    · have := h.events row hrow
      omega
    · have := hnew row hrow
      omega
  fits := by
    rw [hlater.block, hlater.blockSize, List.length_append, List.length_singleton]
    by_cases hblock : cursor.block = []
    · left
      rw [hblock]
      exact Nat.le_refl _
    · right
      have hroom : ¬ (config.segmentBytes < cursor.blockSize + raw.length ∨
          config.segmentRecords ≤ cursor.lineNumber - cursor.blockLine) := fun hover =>
        hfits ⟨hblock, hover⟩
      have hlines := h.lineNumber
      omega

theorem sealed_not_overflows (cursor : Cursor) (raw : Bytes) :
    ¬ cursor.sealed.overflows config raw := fun h => h.1 rfl

/-- The segment of a coherent block keeps to the limits. -/
structure Segment.Fits (config : Config) (segment : Segment) : Prop where
  ne_nil : segment.block ≠ []
  lines : segment.lineEnd = segment.lineStart + segment.block.length
  fits : segment.block.length = 1 ∨
    segment.raw.length ≤ config.segmentBytes ∧ segment.block.length ≤ config.segmentRecords

theorem Cursor.Coherent.segment_fits {cursor : Cursor} (h : cursor.Coherent config)
    (hblock : cursor.block ≠ []) : cursor.segment.Fits config where
  ne_nil := hblock
  lines := h.lineNumber
  fits := by
    have hpos := List.length_pos_of_ne_nil hblock
    have hfits := h.fits
    rw [h.blockSize] at hfits
    show cursor.block.length = 1 ∨ cursor.block.flatten.length ≤ config.segmentBytes ∧ _
    rcases hfits with hone | hlimits
    · exact Or.inl (by omega)
    · exact Or.inr hlimits

/-- Segments that follow each other from one offset to another. -/
def Contiguous : Nat → List Segment → Nat → Prop
  | start, [], stop => start = stop
  | start, segment :: rest, stop => segment.start = start ∧ Contiguous segment.stop rest stop

theorem Contiguous.concat {segments : List Segment} {segment : Segment} :
    ∀ {start : Nat}, Contiguous start segments segment.start →
      Contiguous start (segments ++ [segment]) segment.stop := by
  induction segments with
  | nil => exact fun h => ⟨h.symm, rfl⟩
  | cons first rest ih => exact fun h => ⟨h.1, ih h.2⟩

/-- What a fold from a boundary has made of its lines. -/
structure Folded (reader : Reader) (config : Config) (store : Store) (generation : String)
    (origin : Cursor) (lines : List Bytes) (cursor : Cursor) (rendered : List Rendered) : Prop where
  coherent : cursor.Coherent config
  lines : (rendered.map fun r => r.segment.block).flatten ++ cursor.block = lines
  contiguous : Contiguous origin.offset (rendered.map Rendered.segment) cursor.blockStart
  fits : ∀ r ∈ rendered, r.segment.Fits config
  refs : ∀ r ∈ rendered, ∃ items, reader.render config generation r.segment = .ok items ∧
    r.refs = items.map Item.ref

theorem render_ok {cursor : Cursor} {rendered : Rendered}
    (h : cursor.render reader config generation = .ok rendered) :
    rendered.segment = cursor.segment ∧
      ∃ items, reader.render config generation cursor.segment = .ok items ∧
        rendered.refs = items.map Item.ref := by
  simp only [Cursor.render, bind_eq_ok, pure_eq_ok] at h
  obtain ⟨items, hitems, rfl⟩ := h
  exact ⟨rfl, items, hitems, rfl⟩

/-- A line either stays with the block or closes it. -/
theorem pass_ok {cursor later : Cursor} {raw : Bytes} {done rendered : List Rendered}
    (h : pass reader config store generation (cursor, done) raw = .ok (later, rendered)) :
    raw.length ≤ config.maxRecordBytes ∧
      (¬ cursor.overflows config raw ∧ rendered = done ∧ Consumed cursor raw later ∨
        cursor.overflows config raw ∧ Consumed cursor.sealed raw later ∧
          ∃ closed, cursor.render reader config generation = .ok closed ∧
            rendered = done ++ [closed]) := by
  simp only [pass, bind_eq_ok, check_eq_ok] at h
  obtain ⟨_, hlength, h⟩ := h
  refine ⟨hlength, ?_⟩
  split at h
  · next hoverflow =>
    simp only [bind_eq_ok, pure_eq_ok, Prod.mk.injEq] at h
    obtain ⟨closed, hrender, cursor', hconsume, rfl, rfl⟩ := h
    exact Or.inr ⟨hoverflow, (consume_ok hconsume).2, closed, hrender, rfl⟩
  · next hoverflow =>
    simp only [bind_eq_ok, pure_eq_ok, Prod.mk.injEq] at h
    obtain ⟨cursor', hconsume, rfl, rfl⟩ := h
    exact Or.inl ⟨hoverflow, rfl, (consume_ok hconsume).2⟩

theorem folded_of_passes {start lineNumber : Nat} {context : Option Context} {digest : Bytes}
    {events : List EventRow} (hdigest : digest.length = start)
    (hevents : ∀ row ∈ events, row.position < start) {lines : List Bytes}
    (hlines : ∀ line ∈ lines, IsLine line) :
    ∀ {cursor : Cursor} {rendered : List Rendered},
      passes reader config store generation
        (Cursor.boundary start lineNumber context digest events, []) lines =
          .ok (cursor, rendered) →
      Folded reader config store generation
        (Cursor.boundary start lineNumber context digest events) lines cursor rendered := by
  induction lines using List.reverseRecOn with
  | nil =>
    intro cursor rendered h
    cases h
    exact ⟨Cursor.Coherent.boundary hdigest hevents, rfl, rfl, by simp, by simp⟩
  | append_singleton lines raw ih =>
    intro cursor rendered h
    rw [passes_concat, bind_eq_ok] at h
    obtain ⟨⟨mid, done⟩, hpasses, hpass⟩ := h
    have hmid := ih (fun line hline => hlines line (List.mem_append_left _ hline)) hpasses
    have hraw : raw ≠ [] := (hlines raw (by simp)).ne_nil
    obtain ⟨-, ⟨hfits, rfl, hconsumed⟩ | ⟨hoverflow, hconsumed, closed, hrender, rfl⟩⟩ :=
      pass_ok hpass
    · refine ⟨hmid.coherent.consumed hraw hfits hconsumed, ?_, ?_, hmid.fits, hmid.refs⟩
      · rw [hconsumed.block, ← List.append_assoc, hmid.lines]
      · rw [hconsumed.blockStart]
        exact hmid.contiguous
    · obtain ⟨hsegment, items, hitems, hrefs⟩ := render_ok hrender
      refine ⟨hmid.coherent.sealed.consumed hraw (sealed_not_overflows _ _) hconsumed,
        ?_, ?_, ?_, ?_⟩
      · rw [hconsumed.block, List.map_append, List.map_singleton, List.flatten_append, hsegment]
        simp only [List.flatten_cons, List.flatten_nil, List.append_nil]
        show _ ++ mid.block ++ ([] ++ [raw]) = _
        rw [hmid.lines, List.nil_append]
      · rw [List.map_append, List.map_singleton, hsegment, hconsumed.blockStart]
        have hstop : mid.sealed.blockStart = mid.segment.stop := hmid.coherent.offset
        rw [hstop]
        exact Contiguous.concat hmid.contiguous
      · intro r hr
        rcases List.mem_append.mp hr with hr | hr
        · exact hmid.fits r hr
        · rw [List.mem_singleton.mp hr, hsegment]
          exact hmid.coherent.segment_fits hoverflow.1
      · intro r hr
        rcases List.mem_append.mp hr with hr | hr
        · exact hmid.refs r hr
        · rw [List.mem_singleton.mp hr, hsegment]
          exact ⟨items, hitems, hrefs⟩

/-! ### Resuming a fold -/

/-- The boundary that a checkpoint remembers: the start of the last block. -/
def Cursor.checkpointed (cursor : Cursor) : Cursor :=
  .boundary cursor.blockStart cursor.blockLine cursor.blockContext cursor.prefixDigest
    (rewindEvents cursor.events cursor.blockStart)

theorem rewindEvents_append {events new : List EventRow} {start : Nat}
    (hnew : ∀ row ∈ new, start ≤ row.position) :
    rewindEvents (events ++ new) start = rewindEvents events start := by
  have hnone : new.filter (fun row => decide (row.position < start)) = [] := by
    rw [List.filter_eq_nil_iff]
    intro row hrow
    simpa using hnew row hrow
  rw [rewindEvents, rewindEvents, List.filter_append, hnone, List.append_nil]

theorem rewindEvents_self {events : List EventRow} {start : Nat}
    (hevents : ∀ row ∈ events, row.position < start) : rewindEvents events start = events :=
  List.filter_eq_self.mpr fun row hrow => by simpa using hevents row hrow

theorem checkpointed_boundary {start lines : Nat} {context : Option Context} {digest : Bytes}
    {events : List EventRow} (hevents : ∀ row ∈ events, row.position < start) :
    (Cursor.boundary start lines context digest events).checkpointed =
      .boundary start lines context digest events := by
  show Cursor.boundary start lines context digest (rewindEvents events start) = _
  rw [rewindEvents_self hevents]

/-- A line that stays with the block leaves its start alone. -/
theorem checkpointed_consumed {cursor later : Cursor} {raw : Bytes}
    (hcoherent : cursor.Coherent config) (h : Consumed cursor raw later) :
    later.checkpointed = cursor.checkpointed := by
  obtain ⟨new, hevents, hnew⟩ := h.events
  have hrewind : rewindEvents later.events cursor.blockStart =
      rewindEvents cursor.events cursor.blockStart := by
    rw [hevents]
    refine rewindEvents_append fun row hrow => ?_
    rw [hnew row hrow, hcoherent.offset]
    exact Nat.le_add_right _ _
  simp only [Cursor.checkpointed, h.blockStart, h.blockLine, h.blockContext, h.prefixDigest,
    hrewind]

/-- The line that closes a block opens the next one at the boundary. -/
theorem pass_overflow {cursor : Cursor} {raw : Bytes} {done : List Rendered} {closed : Rendered}
    (hoverflow : cursor.overflows config raw)
    (hrender : cursor.render reader config generation = .ok closed) :
    pass reader config store generation (cursor, done) raw =
      pass reader config store generation (cursor.sealed, done ++ [closed]) raw := by
  simp only [pass, if_pos hoverflow, if_neg (sealed_not_overflows cursor raw), hrender]
  rfl

/-- **Resuming.**  A fold from a boundary, interrupted anywhere, goes on from
    the start of its last block just as it would have without the
    interruption. -/
theorem fold_resumes {start lineNumber : Nat} {context : Option Context} {digest : Bytes}
    {events : List EventRow} (hdigest : digest.length = start)
    (hevents : ∀ row ∈ events, row.position < start) {lines : List Bytes}
    (hlines : ∀ line ∈ lines, IsLine line) :
    ∀ {cursor : Cursor} {rendered : List Rendered},
      passes reader config store generation
        (Cursor.boundary start lineNumber context digest events, []) lines =
          .ok (cursor, rendered) →
      ∀ (done : List Rendered) (more : List Bytes),
        passes reader config store generation
          (Cursor.boundary start lineNumber context digest events, done) (lines ++ more) =
        passes reader config store generation (cursor.checkpointed, done ++ rendered)
          (cursor.block ++ more) := by
  induction lines using List.reverseRecOn with
  | nil =>
    intro cursor rendered h done more
    cases h
    rw [checkpointed_boundary hevents, List.append_nil]
    rfl
  | append_singleton lines raw ih =>
    intro cursor rendered h done more
    have hall := h
    rw [passes_concat, bind_eq_ok] at h
    obtain ⟨⟨mid, before⟩, hpasses, hpass⟩ := h
    have hlines' : ∀ line ∈ lines, IsLine line := fun line hline =>
      hlines line (List.mem_append_left _ hline)
    have hmid := folded_of_passes hdigest hevents hlines' hpasses
    obtain ⟨-, ⟨hfits, rfl, hconsumed⟩ | ⟨hoverflow, hconsumed, closed, hrender, rfl⟩⟩ :=
      pass_ok hpass
    · rw [checkpointed_consumed hmid.coherent hconsumed, hconsumed.block, List.append_assoc,
        List.append_assoc]
      exact ih hlines' hpasses done ([raw] ++ more)
    · have hchecked : cursor.checkpointed = mid.sealed := by
        rw [checkpointed_consumed hmid.coherent.sealed hconsumed]
        exact checkpointed_boundary hmid.coherent.events
      rw [hchecked, hconsumed.block, List.append_assoc, passes_append,
        passes_after done hpasses]
      show passes _ _ _ _ _ (raw :: more) = passes _ _ _ _ _ (raw :: more)
      rw [passes_cons, passes_cons, pass_overflow hoverflow hrender, List.append_assoc]

end Mnemion.Conversations
