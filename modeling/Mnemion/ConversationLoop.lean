/-
  Mnemion/ConversationLoop.lean
  =============================
  **The scan loop is the fold over complete lines** (`loop_ok`, `loop_complete`):
  it consumes the complete lines of the stream in order, writes one row for each
  segment, and leaves the bytes after the last newline alone; a window only cuts
  it short at a boundary.
-/
import Mnemion.ConversationFold

namespace Mnemion.Conversations

open Outcome ByteLines

/-! ### Segment rows -/

def Rendered.row (scanId : String) (rendered : Rendered) : SegmentRow :=
  ⟨rendered.segment.start, rendered.refs, scanId⟩

def upsertAll (rows new : List SegmentRow) : List SegmentRow := new.foldl upsert rows

theorem upsert_new {rows : List SegmentRow} {row : SegmentRow}
    (h : ∀ old ∈ rows, old.start ≠ row.start) : upsert rows row = rows ++ [row] := by
  unfold upsert
  rw [if_neg]
  simpa using h

theorem update_skip {rows : List SegmentRow} {start : Nat} {row : SegmentRow}
    (h : ∀ old ∈ rows, old.start ≠ start) :
    Table.update rows (fun old => decide (old.start = start)) (fun _ => row) = rows := by
  unfold Table.update
  rw [List.map_congr_left (g := id), List.map_id]
  intro old hold
  simp [h old hold]

theorem upsert_old {before after : List SegmentRow} {old row : SegmentRow}
    (hstart : old.start = row.start) (hbefore : ∀ r ∈ before, r.start ≠ row.start)
    (hafter : ∀ r ∈ after, r.start ≠ row.start) :
    upsert (before ++ old :: after) row = before ++ row :: after := by
  unfold upsert
  rw [if_pos (by simp [hstart])]
  have hupdate : Table.update (before ++ old :: after) (fun r => decide (r.start = row.start))
      (fun _ => row) = Table.update before (fun r => decide (r.start = row.start)) (fun _ => row) ++
        row :: Table.update after (fun r => decide (r.start = row.start)) (fun _ => row) := by
    simp [Table.update, hstart]
  rw [hupdate, update_skip hbefore, update_skip hafter]

/-- Rows that are written again, with rows that are new behind them. -/
theorem upsertAll_prefix {new : List SegmentRow} :
    ∀ {kept old : List SegmentRow}, (∀ r ∈ kept, ∀ n ∈ new, r.start ≠ n.start) →
      old.map SegmentRow.start <+: new.map SegmentRow.start →
      (new.map SegmentRow.start).Nodup → upsertAll (kept ++ old) new = kept ++ new := by
  induction new with
  | nil =>
    intro kept old _ hleads _
    have hold : old = [] := by simpa using List.prefix_nil.mp hleads
    rw [hold]
    rfl
  | cons row new ih =>
    intro kept old hkept hleads hnodup
    have hkept' : ∀ r ∈ kept ++ [row], ∀ n ∈ new, r.start ≠ n.start := by
      intro r hr n hn
      rcases List.mem_append.mp hr with hr | hr
      · exact hkept r hr n (List.mem_cons_of_mem _ hn)
      · rw [List.mem_singleton.mp hr]
        rw [List.map_cons, List.nodup_cons] at hnodup
        exact fun h => hnodup.1 (List.mem_map.mpr ⟨n, hn, h.symm⟩)
    rw [List.map_cons, List.nodup_cons] at hnodup
    have hfirst : ∀ r ∈ kept, r.start ≠ row.start := fun r hr => hkept r hr row List.mem_cons_self
    cases old with
    | nil =>
      have hnil : ([] : List SegmentRow).map SegmentRow.start <+: new.map SegmentRow.start :=
        List.nil_prefix
      show upsertAll (upsert (kept ++ []) row) new = _
      rw [List.append_nil, upsert_new hfirst, ← List.append_nil (kept ++ [row]),
        ih hkept' hnil hnodup.2]
      simp
    | cons first old =>
      rw [List.map_cons, List.map_cons, List.cons_prefix_cons] at hleads
      have hlater : ∀ r ∈ old, r.start ≠ row.start := by
        intro r hr h
        refine hnodup.1 (hleads.2.subset ?_)
        rw [← h]
        exact List.mem_map_of_mem hr
      show upsertAll (upsert (kept ++ first :: old) row) new = _
      rw [upsert_old hleads.1 hfirst hlater, ← List.singleton_append, ← List.append_assoc,
        ih hkept' hleads.2 hnodup.2]
      simp

/-! ### One segment -/

variable {reader : Reader} {config : Config} {store : Store} {pressure : Pressure}
  {generation scanId : String} {reuse : Bool} {start : Nat}

/-- What rendering the block changes in a scan. -/
structure Emitted (config : Config) (scanId : String) (scan : Scan) (rendered : Rendered)
    (later : Scan) : Prop where
  cursor : later.cursor = scan.cursor
  segments : later.segments = upsert scan.segments (rendered.row scanId)
  reused : later.segmentsReused = scan.segmentsReused
  counted : later.segmentsRendered = scan.segmentsRendered + 1
  limit : later.segmentsReused + later.segmentsRendered ≤ config.maxSegments

theorem emit_ok {scan later : Scan}
    (h : scan.emit reader config pressure generation scanId reuse = .ok later) :
    ∃ rendered, scan.cursor.render reader config generation = .ok rendered ∧
      Emitted config scanId scan rendered later := by
  simp only [Scan.emit, bind_eq_ok, check_eq_ok, pure_eq_ok] at h
  obtain ⟨_, hlimit, items, hitems, _, -, rfl⟩ := h
  refine ⟨⟨scan.cursor.segment, items.map Item.ref⟩, ?_, rfl, rfl, rfl, rfl, hlimit⟩
  simp only [Cursor.render, bind_eq_ok, pure_eq_ok]
  exact ⟨items, hitems, rfl⟩

theorem emit_none (scanId : String) (reuse : Bool) {scan : Scan} {rendered : Rendered}
    (hrender : scan.cursor.render reader config generation = .ok rendered)
    (hlimit : scan.segmentsReused + (scan.segmentsRendered + 1) ≤ config.maxSegments) :
    ∃ later, scan.emit reader config .none generation scanId reuse = .ok later ∧
      Emitted config scanId scan rendered later := by
  have hemitted : ∃ later, scan.emit reader config .none generation scanId reuse = .ok later := by
    simp only [Cursor.render, bind_eq_ok, pure_eq_ok] at hrender
    obtain ⟨items, hitems, -⟩ := hrender
    simp only [Scan.emit, bind_eq_ok, check_eq_ok, pure_eq_ok]
    exact ⟨_, (), hlimit, items, hitems, (), Or.inr rfl, rfl⟩
  obtain ⟨later, hlater⟩ := hemitted
  obtain ⟨rendered', hrender', hemits⟩ := emit_ok hlater
  rw [hrender, Except.ok.injEq] at hrender'
  exact ⟨later, hlater, hrender' ▸ hemits⟩

/-! ### The loop -/

/-- What the loop changes in a scan when it has read some lines. -/
structure Looped (config : Config) (scanId : String) (scan : Scan) (rendered : List Rendered)
    (cursor : Cursor) (later : Scan) : Prop where
  cursor : later.cursor = cursor
  segments : later.segments = upsertAll scan.segments (rendered.map (Rendered.row scanId))
  reused : later.segmentsReused = scan.segmentsReused
  counted : later.segmentsRendered = scan.segmentsRendered + rendered.length
  limit : rendered ≠ [] → later.segmentsReused + later.segmentsRendered ≤ config.maxSegments

theorem Looped.refl (config : Config) (scanId : String) (scan : Scan) :
    Looped config scanId scan [] scan.cursor scan :=
  ⟨rfl, rfl, rfl, rfl, fun h => absurd rfl h⟩

/-- A segment that is rendered before the rest of the loop. -/
theorem Emitted.looped {scan mid later : Scan} {closed : Rendered} {rendered : List Rendered}
    {first cursor : Cursor} (hemits : Emitted config scanId scan closed mid)
    (hloop : Looped config scanId { mid with cursor := first } rendered cursor later) :
    Looped config scanId scan (closed :: rendered) cursor later where
  cursor := hloop.cursor
  segments := by
    rw [hloop.segments, hemits.segments]
    rfl
  reused := hloop.reused.trans hemits.reused
  counted := by
    rw [hloop.counted, hemits.counted, List.length_cons]
    omega
  limit := by
    intro _
    by_cases hrendered : rendered = []
    · have hlimit := hemits.limit
      rw [hloop.reused, hloop.counted, hrendered]
      exact hlimit
    · exact hloop.limit hrendered

/-- Where the loop stops: at the end of the complete lines, or at a window, on
    the boundary before a line that overflows the block. -/
inductive Stops (reader : Reader) (config : Config) (store : Store) (generation : String)
    (origin : Cursor) (lines : List Bytes) (tail : Bytes) : Bool → Cursor → List Rendered → Prop
  | complete {cursor : Cursor} {rendered : List Rendered}
      (hpasses : passes reader config store generation (origin, []) lines =
        .ok (cursor, rendered)) (htail : tail.length ≤ config.maxRecordBytes) :
      Stops reader config store generation origin lines tail false cursor rendered
  | window {done left : List Bytes} {line : Bytes} {cursor : Cursor} {rendered : List Rendered}
      {closed : Rendered} (hlines : lines = done ++ line :: left)
      (hpasses : passes reader config store generation (origin, []) done =
        .ok (cursor, rendered)) (hoverflow : cursor.overflows config line)
      (hrender : cursor.render reader config generation = .ok closed) (hstore : store = .inbox) :
      Stops reader config store generation origin lines tail true cursor.sealed
        (rendered ++ [closed])

theorem Stops.cons {origin mid : Cursor} {raw : Bytes} {lines : List Bytes} {tail : Bytes}
    {deferred : Bool} {cursor : Cursor} {new rendered : List Rendered}
    (hpass : pass reader config store generation (origin, []) raw = .ok (mid, new))
    (h : Stops reader config store generation mid lines tail deferred cursor rendered) :
    Stops reader config store generation origin (raw :: lines) tail deferred cursor
      (new ++ rendered) := by
  cases h with
  | complete hpasses htail =>
    refine .complete ?_ htail
    rw [passes_cons, hpass]
    exact passes_after new hpasses
  | @window done left line cursor before closed hlines hpasses hoverflow hrender hstore =>
    rw [← List.append_assoc]
    have hdone : passes reader config store generation (origin, []) (raw :: done) =
        .ok (cursor, new ++ before) := by
      rw [passes_cons, hpass]
      exact passes_after new hpasses
    exact .window (by rw [hlines]; rfl) hdone hoverflow hrender hstore

theorem IsLine.getLast {line : Bytes} (h : IsLine line) : line.getLast? = some newline := by
  obtain ⟨body, -, rfl⟩ := h
  simp

/-- A whole line comes back if no more than `maximum` bytes do. -/
theorem readline_whole {raw rest : Bytes} {maximum : Nat} (hraw : IsLine raw)
    (h : (readline (min (maximum + 1) (raw ++ rest).length) (raw ++ rest)).1.length ≤ maximum) :
    raw.length ≤ maximum ∧
      readline (min (maximum + 1) (raw ++ rest).length) (raw ++ rest) = (raw, rest) := by
  have hwhole : (raw ++ rest).length = raw.length + rest.length := List.length_append
  by_cases hfits : raw.length ≤ min (maximum + 1) (raw ++ rest).length
  · have hread := readline_line rest hraw hfits
    rw [hread] at h
    exact ⟨h, hread⟩
  · have hlong := readline_long rest hraw (Nat.lt_of_not_le hfits)
    omega

theorem pass_closing {cursor later : Cursor} {raw : Bytes} {closed : Rendered}
    (hlength : raw.length ≤ config.maxRecordBytes) (hoverflow : cursor.overflows config raw)
    (hrender : cursor.render reader config generation = .ok closed)
    (hconsume : cursor.sealed.consume reader config store .none raw = .ok later) :
    pass reader config store generation (cursor, []) raw = .ok (later, [closed]) := by
  simp only [pass, bind_eq_ok, check_eq_ok]
  refine ⟨(), hlength, ?_⟩
  rw [if_pos hoverflow]
  simp only [bind_eq_ok, pure_eq_ok]
  exact ⟨closed, hrender, later, hconsume, rfl⟩

theorem pass_staying {cursor later : Cursor} {raw : Bytes}
    (hlength : raw.length ≤ config.maxRecordBytes) (hfits : ¬ cursor.overflows config raw)
    (hconsume : cursor.consume reader config store .none raw = .ok later) :
    pass reader config store generation (cursor, []) raw = .ok (later, []) := by
  simp only [pass, bind_eq_ok, check_eq_ok]
  refine ⟨(), hlength, ?_⟩
  rw [if_neg hfits]
  simp only [bind_eq_ok, pure_eq_ok]
  exact ⟨later, hconsume, rfl⟩

/-- **The loop reads complete lines.** -/
theorem loop_ok {lines : List Bytes} {tail : Bytes} (htail : newline ∉ tail) :
    ∀ {fuel : Nat} {scan later : Scan} {deferred : Bool}, (∀ line ∈ lines, IsLine line) →
      (lines.flatten ++ tail).length < fuel →
      scan.loop reader config store pressure generation scanId reuse start fuel
        (lines.flatten ++ tail) = .ok (later, deferred) →
      ∃ cursor rendered, Looped config scanId scan rendered cursor later ∧
        Stops reader config store generation scan.cursor lines tail deferred cursor rendered := by
  induction lines with
  | nil =>
    intro fuel scan later deferred _ hfuel h
    rw [List.flatten_nil, List.nil_append] at h hfuel
    obtain ⟨fuel, rfl⟩ := Nat.exists_eq_succ_of_ne_zero (Nat.ne_of_gt (Nat.zero_lt_of_lt hfuel))
    rw [Scan.loop] at h
    split at h
    · next hempty =>
      cases h
      exact ⟨_, [], Looped.refl config scanId scan, .complete rfl (by simp [hempty])⟩
    · simp only [bind_eq_ok, check_eq_ok, readline_partial htail] at h
      obtain ⟨_, -, _, hlength, h⟩ := h
      have hshort : tail.length ≤ config.maxRecordBytes := by
        rw [List.length_take] at hlength
        omega
      have hlast : (tail.take (min (config.maxRecordBytes + 1) tail.length)).getLast? ≠
          some newline := fun hnewline =>
        htail (List.mem_of_mem_take (List.mem_of_getLast? hnewline))
      rw [if_pos hlast] at h
      cases h
      exact ⟨_, [], Looped.refl config scanId scan, .complete rfl hshort⟩
  | cons raw lines ih =>
    intro fuel scan later deferred hlines hfuel h
    have hraw := hlines raw List.mem_cons_self
    have hlines' : ∀ line ∈ lines, IsLine line := fun line hline =>
      hlines line (List.mem_cons_of_mem _ hline)
    have hpos := List.length_pos_of_ne_nil hraw.ne_nil
    rw [List.flatten_cons, List.append_assoc] at h hfuel
    rw [List.length_append] at hfuel
    obtain ⟨fuel, rfl⟩ := Nat.exists_eq_succ_of_ne_zero (Nat.ne_of_gt (Nat.zero_lt_of_lt hfuel))
    rw [Scan.loop, if_neg (by simp [hraw.ne_nil])] at h
    simp only [bind_eq_ok, check_eq_ok] at h
    obtain ⟨_, -, _, hlength, h⟩ := h
    obtain ⟨hshort, hread⟩ := readline_whole hraw hlength
    rw [hread, if_neg (by rw [IsLine.getLast hraw]; simp)] at h
    split at h
    · next hoverflow =>
      simp only [bind_eq_ok] at h
      obtain ⟨mid, hemit, h⟩ := h
      obtain ⟨closed, hrender, hemits⟩ := emit_ok hemit
      split at h
      · next hwindow =>
        cases h
        have hlooped := hemits.looped (Looped.refl config scanId
          { mid with cursor := mid.cursor.sealed })
        refine ⟨_, _, hlooped, ?_⟩
        show Stops _ _ _ _ _ _ _ _ mid.cursor.sealed _
        rw [hemits.cursor]
        exact .window (List.nil_append _).symm rfl hoverflow hrender hwindow.1
      · simp only [bind_eq_ok] at h
        obtain ⟨next, hconsume, h⟩ := h
        obtain ⟨cursor, rendered, hlooped, hstops⟩ := ih hlines' (by omega) h
        rw [hemits.cursor] at hconsume
        exact ⟨cursor, _, hemits.looped hlooped,
          hstops.cons (pass_closing hshort hoverflow hrender (consume_ok hconsume).1)⟩
    · next hfits =>
      simp only [bind_eq_ok] at h
      obtain ⟨next, hconsume, h⟩ := h
      obtain ⟨cursor, rendered, hlooped, hstops⟩ := ih hlines' (by omega) h
      exact ⟨cursor, rendered,
        ⟨hlooped.cursor, hlooped.segments, hlooped.reused, hlooped.counted, hlooped.limit⟩,
        hstops.cons (pass_staying hshort hfits (consume_ok hconsume).1)⟩

/-- With nothing that presses, the loop takes every line the fold takes. -/
theorem loop_complete (scanId : String) (reuse : Bool) (start : Nat) {lines : List Bytes} {tail : Bytes} (htail : newline ∉ tail)
    (hshort : tail.length ≤ config.maxRecordBytes) :
    ∀ {fuel : Nat} (scan : Scan) {cursor : Cursor} {rendered : List Rendered},
      (∀ line ∈ lines, IsLine line) → (lines.flatten ++ tail).length < fuel →
      passes reader config store generation (scan.cursor, []) lines = .ok (cursor, rendered) →
      scan.segmentsReused + (scan.segmentsRendered + rendered.length) ≤ config.maxSegments →
      ∃ later, scan.loop reader config store .none generation scanId reuse start fuel
          (lines.flatten ++ tail) = .ok (later, false) ∧
        Looped config scanId scan rendered cursor later := by
  induction lines with
  | nil =>
    intro fuel scan cursor rendered _ hfuel hpasses _
    cases hpasses
    rw [List.flatten_nil, List.nil_append] at hfuel ⊢
    obtain ⟨fuel, rfl⟩ := Nat.exists_eq_succ_of_ne_zero (Nat.ne_of_gt (Nat.zero_lt_of_lt hfuel))
    refine ⟨scan, ?_, Looped.refl config scanId scan⟩
    rw [Scan.loop]
    split
    · rfl
    · simp only [bind_eq_ok, check_eq_ok, readline_partial htail]
      have hlast : (tail.take (min (config.maxRecordBytes + 1) tail.length)).getLast? ≠
          some newline := fun hnewline =>
        htail (List.mem_of_mem_take (List.mem_of_getLast? hnewline))
      refine ⟨(), rfl, (), ?_, ?_⟩
      · rw [List.length_take]
        omega
      · rw [if_pos hlast]
        rfl
  | cons raw lines ih =>
    intro fuel scan cursor rendered hlines hfuel hpasses hcount
    have hraw := hlines raw List.mem_cons_self
    have hlines' : ∀ line ∈ lines, IsLine line := fun line hline =>
      hlines line (List.mem_cons_of_mem _ hline)
    have hpos := List.length_pos_of_ne_nil hraw.ne_nil
    rw [List.flatten_cons, List.append_assoc] at hfuel ⊢
    rw [List.length_append] at hfuel
    obtain ⟨fuel, rfl⟩ := Nat.exists_eq_succ_of_ne_zero (Nat.ne_of_gt (Nat.zero_lt_of_lt hfuel))
    have hfuel' : (lines.flatten ++ tail).length < fuel := by omega
    rw [passes_cons, bind_eq_ok] at hpasses
    obtain ⟨⟨next, new⟩, hpass, hrest⟩ := hpasses
    have hread : readline (min (config.maxRecordBytes + 1) (raw ++ (lines.flatten ++ tail)).length)
        (raw ++ (lines.flatten ++ tail)) = (raw, lines.flatten ++ tail) := by
      refine readline_line _ hraw ?_
      have hlength := (pass_ok hpass).1
      rw [List.length_append]
      omega
    rw [Scan.loop, if_neg (by simp [hraw.ne_nil])]
    simp only [bind_eq_ok, check_eq_ok, hread]
    simp only [pass, bind_eq_ok, check_eq_ok] at hpass
    obtain ⟨_, hlength, hpass⟩ := hpass
    have hnewline : ¬ raw.getLast? ≠ some newline := by
      rw [IsLine.getLast hraw]
      simp
    split at hpass
    · next hoverflow =>
      simp only [bind_eq_ok, pure_eq_ok, Prod.mk.injEq] at hpass
      obtain ⟨closed, hrender, next', hconsume, rfl, rfl⟩ := hpass
      obtain ⟨last, hlast, rfl⟩ := passes_split hrest
      rw [List.nil_append, List.length_append, List.length_singleton] at hcount
      obtain ⟨mid, hemit, hemits⟩ := emit_none scanId reuse hrender (by omega)
      obtain ⟨later, hloop, hlooped⟩ := ih { mid with cursor := next' } hlines' hfuel'
        hlast (by
          show mid.segmentsReused + (mid.segmentsRendered + last.length) ≤ _
          rw [hemits.reused, hemits.counted]
          omega)
      refine ⟨later, ⟨(), rfl, (), hlength, ?_⟩, hemits.looped hlooped⟩
      rw [if_neg hnewline, if_pos hoverflow]
      simp only [bind_eq_ok]
      refine ⟨mid, hemit, ?_⟩
      rw [if_neg (by simp [Pressure.none]), hemits.cursor]
      simp only [bind_eq_ok]
      exact ⟨next', hconsume, hloop⟩
    · next hfits =>
      simp only [bind_eq_ok, pure_eq_ok, Prod.mk.injEq] at hpass
      obtain ⟨next', hconsume, rfl, rfl⟩ := hpass
      obtain ⟨later, hloop, hlooped⟩ := ih { scan with cursor := next' } hlines' hfuel'
        hrest hcount
      refine ⟨later, ⟨(), rfl, (), hlength, ?_⟩, hlooped.cursor, hlooped.segments, hlooped.reused,
        hlooped.counted, hlooped.limit⟩
      rw [if_neg hnewline, if_neg hfits]
      simp only [bind_eq_ok]
      exact ⟨next', hconsume, hloop⟩

/-! ### The whole scan -/

/-- What a scan has rendered when it ends, its last block included: everything,
    or what lies before the line at which the window closed. -/
inductive Ran (reader : Reader) (config : Config) (store : Store) (generation : String)
    (origin : Cursor) (lines : List Bytes) (tail : Bytes) : Bool → Cursor → List Rendered → Prop
  | complete {cursor : Cursor} {rendered all : List Rendered}
      (hpasses : passes reader config store generation (origin, []) lines =
        .ok (cursor, rendered))
      (hclose : close reader config generation (cursor, rendered) = .ok all)
      (htail : tail.length ≤ config.maxRecordBytes) :
      Ran reader config store generation origin lines tail false cursor all
  | window {done left : List Bytes} {line : Bytes} {cursor : Cursor}
      {rendered all : List Rendered} (hlines : lines = done ++ line :: left)
      (hpasses : passes reader config store generation (origin, []) done =
        .ok (cursor, rendered))
      (hclose : close reader config generation (cursor, rendered) = .ok all)
      (hoverflow : cursor.overflows config line) (hstore : store = .inbox) :
      Ran reader config store generation origin lines tail true cursor.sealed all

theorem close_block {cursor : Cursor} {rendered : List Rendered} {closed : Rendered}
    (hblock : cursor.block ≠ []) (hrender : cursor.render reader config generation = .ok closed) :
    close reader config generation (cursor, rendered) = .ok (rendered ++ [closed]) := by
  rw [close, if_neg hblock]
  simp only [bind_eq_ok, pure_eq_ok]
  exact ⟨closed, hrender, rfl⟩

theorem upsertAll_concat (rows new : List SegmentRow) (row : SegmentRow) :
    upsertAll rows (new ++ [row]) = upsert (upsertAll rows new) row := by
  rw [upsertAll, List.foldl_append]
  rfl

/-- The segment of the last block, after the loop. -/
theorem Looped.emitted {scan mid later : Scan} {cursor : Cursor} {rendered : List Rendered}
    {closed : Rendered} (hloop : Looped config scanId scan rendered cursor mid)
    (hemits : Emitted config scanId mid closed later) :
    Looped config scanId scan (rendered ++ [closed]) cursor later where
  cursor := hemits.cursor.trans hloop.cursor
  segments := by
    rw [hemits.segments, hloop.segments, List.map_append, List.map_singleton, upsertAll_concat]
  reused := hemits.reused.trans hloop.reused
  counted := by
    rw [hemits.counted, hloop.counted, List.length_append, List.length_singleton, Nat.add_assoc]
  limit := fun _ => hemits.limit

theorem run_ok {scan later : Scan} {deferred : Bool} {lines : List Bytes} {tail : Bytes}
    (htail : newline ∉ tail) (hlines : ∀ line ∈ lines, IsLine line)
    (h : scan.run reader config store pressure generation scanId reuse start
      (lines.flatten ++ tail) = .ok (later, deferred)) :
    ∃ cursor all, Looped config scanId scan all cursor later ∧
      Ran reader config store generation scan.cursor lines tail deferred cursor all := by
  simp only [Scan.run, bind_eq_ok] at h
  obtain ⟨⟨mid, deferred'⟩, hloop, h⟩ := h
  obtain ⟨cursor, rendered, hlooped, hstops⟩ := loop_ok htail hlines (Nat.lt_succ_self _) hloop
  by_cases hblock : mid.cursor.block = []
  · rw [if_pos hblock] at h
    cases h
    rw [hlooped.cursor] at hblock
    refine ⟨cursor, rendered, hlooped, ?_⟩
    cases hstops with
    | complete hpasses htail =>
      refine .complete hpasses ?_ htail
      rw [close, if_pos hblock]
    | window hlines hpasses hoverflow hrender hstore =>
      exact .window hlines hpasses (close_block hoverflow.1 hrender) hoverflow hstore
  · rw [if_neg hblock] at h
    simp only [bind_eq_ok, pure_eq_ok, Prod.mk.injEq] at h
    obtain ⟨last, hemit, rfl, rfl⟩ := h
    obtain ⟨closed, hrender, hemits⟩ := emit_ok hemit
    rw [hlooped.cursor] at hblock hrender
    refine ⟨cursor, rendered ++ [closed], hlooped.emitted hemits, ?_⟩
    cases hstops with
    | complete hpasses htail =>
      exact .complete hpasses (close_block hblock hrender) htail
    | window => exact absurd rfl hblock

/-- With nothing that presses, the scan ends with every segment of the fold. -/
theorem run_complete (scanId : String) (reuse : Bool) (start : Nat) (scan : Scan) {lines : List Bytes} {tail : Bytes} {cursor : Cursor}
    {rendered all : List Rendered} (htail : newline ∉ tail)
    (hshort : tail.length ≤ config.maxRecordBytes) (hlines : ∀ line ∈ lines, IsLine line)
    (hpasses : passes reader config store generation (scan.cursor, []) lines =
      .ok (cursor, rendered))
    (hclose : close reader config generation (cursor, rendered) = .ok all)
    (hcount : scan.segmentsReused + (scan.segmentsRendered + all.length) ≤ config.maxSegments) :
    ∃ later, scan.run reader config store .none generation scanId reuse start
        (lines.flatten ++ tail) = .ok (later, false) ∧
      Looped config scanId scan all cursor later := by
  have hlength : rendered.length ≤ all.length := by
    rw [close] at hclose
    split at hclose
    · cases hclose
      exact Nat.le_refl _
    · simp only [bind_eq_ok, pure_eq_ok] at hclose
      obtain ⟨closed, -, rfl⟩ := hclose
      simp
  obtain ⟨mid, hloop, hlooped⟩ := loop_complete scanId reuse start
    htail hshort scan hlines (Nat.lt_succ_self _) hpasses (by omega)
  simp only [Scan.run, bind_eq_ok]
  rw [close] at hclose
  dsimp only at hclose
  split at hclose
  · next hblock =>
    cases hclose
    refine ⟨mid, ⟨(mid, false), hloop, ?_⟩, hlooped⟩
    rw [← hlooped.cursor] at hblock
    rw [if_pos hblock]
    rfl
  · next hblock =>
    simp only [bind_eq_ok, pure_eq_ok] at hclose
    obtain ⟨closed, hrender, rfl⟩ := hclose
    rw [← hlooped.cursor] at hblock hrender
    rw [List.length_append, List.length_singleton] at hcount
    obtain ⟨last, hemit, hemits⟩ := emit_none scanId reuse hrender (by
      rw [hlooped.reused, hlooped.counted]
      omega)
    refine ⟨last, ⟨(mid, false), hloop, ?_⟩, hlooped.emitted hemits⟩
    rw [if_neg hblock]
    simp only [bind_eq_ok, pure_eq_ok]
    exact ⟨last, hemit, rfl⟩

end Mnemion.Conversations
