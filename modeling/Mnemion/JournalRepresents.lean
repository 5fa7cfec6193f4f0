/-
  Mnemion/JournalRepresents.lean
  ==============================
  **What a journal tree stands for.**  `Represents` relates a tree to the
  abstract journal: one series for each day and writer, and the finite set of
  entries they hold.  A planned batch extends the set by its entries
  (`publishAttempt_represents`); a fold only moves files (`plan_represents`).
-/
import Mathlib.Data.Finset.Card
import Mathlib.Tactic.Tauto
import Mnemion.JournalAppend
import Mnemion.JournalFolding

namespace Mnemion.Journal

open Outcome ByteLines

/-! ### The abstract journal -/

/-- The series of every day and writer. -/
abbrev SeriesMap := Day → UUID → Series

/-- The entries of the submitted set that some journal line can hold. -/
def Fitting (codec : LineCodec) (S : Set Entry) : Set Entry :=
  {e | e ∈ S ∧ (codec.dump e ++ [newline]).length ≤ MAX_LINE_BYTES}

/-- The files of the tree are those of the series, and the series hold exactly
    the published entries. -/
structure Stores (codec : LineCodec) (S : Set Entry) (tree : Tree) (published : Finset Entry)
    (series : SeriesMap) : Prop where
  files : ∀ day writer, tree.HasSeries codec day writer (series day writer)
  ok : ∀ day writer, (series day writer).Ok codec S day writer
  published : ∀ e, e ∈ published ↔ e ∈ (series e.date e.writer).entries

/-- The catalog counts the published entries and declares continuations. -/
structure Counts (tree : Tree) (published : Finset Entry) (series : SeriesMap) : Prop where
  catalog : ∃ c, tree.catalog = some c ∧ c.records = published.card ∧
    ((∃ day writer, 1 < (series day writer).length) → c.schemaVersion = 2)

structure Represents (codec : LineCodec) (S : Set Entry) (tree : Tree) (published : Finset Entry)
    (series : SeriesMap) : Prop where
  stores : Stores codec S tree published series
  counts : Counts tree published series

/-- A head represents its published entries; a missing branch has none. -/
def HeadRepresents (codec : LineCodec) (S : Set Entry) (head : Option Tree)
    (published : Finset Entry) (series : SeriesMap) : Prop :=
  match head with
  | none => published = ∅ ∧ series = fun _ _ => []
  | some tree => Represents codec S tree published series

section

variable {codec : LineCodec} {S : Set Entry}

theorem stores_empty : Stores codec S .empty ∅ (fun _ _ => []) where
  files := by intro day writer a k; simp [Series.view]
  ok := fun day writer => Series.ok_nil codec S day writer
  published := by simp

theorem HeadRepresents.stores {head : Option Tree} {published : Finset Entry}
    {series : SeriesMap} (h : HeadRepresents codec S head published series) :
    Stores codec S (headTree head) published series := by
  cases head with
  | none =>
    obtain ⟨rfl, rfl⟩ := h
    exact stores_empty
  | some tree => exact Represents.stores h

/-- The catalog a publisher reads agrees with the abstract journal. -/
theorem readCatalog_counts {destination : Destination} {head : Option Tree}
    {published : Finset Entry} {series : SeriesMap} {catalog : Catalog}
    (h : HeadRepresents codec S head published series)
    (hread : readCatalog destination head = .ok catalog) :
    catalog.records = published.card ∧
      ((∃ day writer, 1 < (series day writer).length) → catalog.schemaVersion = 2) := by
  cases head with
  | none =>
    obtain ⟨rfl, rfl⟩ := h
    simp only [readCatalog, headTree, Option.getD_none, Tree.empty, bind_eq_ok,
      pure_eq_ok] at hread
    obtain ⟨-, -, rfl⟩ := hread
    simp
  | some tree =>
    obtain ⟨c, hc, hcount, hversion⟩ := (Represents.counts h).catalog
    simp only [readCatalog, headTree, Option.getD_some, hc, bind_eq_ok, pure_eq_ok] at hread
    obtain ⟨-, -, rfl⟩ := hread
    exact ⟨hcount, hversion⟩

/-! ### Notes and the catalog leave the series alone -/

/-- An update of a note. -/
def Update.IsNote : Update → Prop
  | .write (.note _) _ => True
  | _ => False

theorem Tree.apply_notes (tree : Tree) {updates : List Update} (h : ∀ u ∈ updates, u.IsNote) :
    (tree.apply updates).catalog = tree.catalog ∧ ∀ archived relative,
      (tree.apply updates).blob (.journal archived relative) =
        tree.blob (.journal archived relative) := by
  induction updates generalizing tree with
  | nil => exact ⟨rfl, fun _ _ => rfl⟩
  | cons u us ih =>
    have hu := h u List.mem_cons_self
    obtain ⟨hcat, hblob⟩ := ih (tree.update u) fun u' hu' => h u' (List.mem_cons_of_mem _ hu')
    cases u with
    | delete path => exact absurd hu (by simp [Update.IsNote])
    | catalog c => exact absurd hu (by simp [Update.IsNote])
    | write path content =>
      cases path with
      | journal archived relative => exact absurd hu (by simp [Update.IsNote])
      | note m =>
        refine ⟨hcat, fun archived relative => ?_⟩
        rw [Tree.apply_cons, hblob, Tree.blob_write, if_neg (by simp)]

theorem Stores.congr {tree tree' : Tree} {published : Finset Entry} {series : SeriesMap}
    (h : Stores codec S tree published series)
    (hblob : ∀ archived relative,
      tree'.blob (.journal archived relative) = tree.blob (.journal archived relative)) :
    Stores codec S tree' published series where
  files := fun day writer a k => (hblob a _).trans (h.files day writer a k)
  ok := h.ok
  published := h.published

theorem invalidatedNotes_isNote {destination : Destination} {head : Option Tree}
    {entries : List Entry} {updates : List Update}
    (h : invalidatedNotes destination head entries = .ok updates) :
    ∀ u ∈ updates, u.IsNote := by
  refine foldlM_invariant (fun updates : List Update => ∀ u ∈ updates, u.IsNote) ?_ (by simp) h
  intro us entry us' _ hus hstep
  simp only [invalidatedNote, bind_eq_ok] at hstep
  obtain ⟨data, -, hstep⟩ := hstep
  cases data with
  | none =>
    simp only [pure_eq_ok] at hstep
    exact hstep ▸ hus
  | some data =>
    simp only [bind_eq_ok, pure_eq_ok] at hstep
    obtain ⟨-, -, note, -, rfl⟩ := hstep
    split
    · exact hus
    · intro u hu
      rcases List.mem_append.mp hu with hu | hu
      · exact hus u hu
      · rw [List.mem_singleton] at hu
        rw [hu]; trivial

/-! ### Publishing -/

/-- Replace one series. -/
def SeriesMap.set (series : SeriesMap) (key : Day × UUID) (value : Series) : SeriesMap :=
  fun day writer => if (day, writer) = key then value else series day writer

theorem SeriesMap.set_self (series : SeriesMap) (day : Day) (writer : UUID) (value : Series) :
    series.set (day, writer) value day writer = value := by simp [SeriesMap.set]

theorem SeriesMap.set_ne (series : SeriesMap) {key : Day × UUID} {day : Day} {writer : UUID}
    (h : (day, writer) ≠ key) (value : Series) :
    series.set key value day writer = series day writer := by simp [SeriesMap.set, h]

/-- Applying an append to any tree that stores the journal. -/
theorem Stores.extend {tree : Tree} {published : Finset Entry} {series : SeriesMap} {day : Day}
    {writer : UUID} {additions : List Entry} {out : Appended} {series' : Series}
    {new : List Entry} (h : Stores codec S tree published series)
    (hadd : ∀ e ∈ additions, e.date = day ∧ e.writer = writer)
    (hext : Extends codec S day writer (series day writer) additions out series' new) :
    Stores codec S (tree.apply out.updates) (published ∪ additions.toFinset)
      (series.set (day, writer) series') := by
  have hframe := (Tree.apply_inSeries tree hext.inSeries).2
  refine ⟨?_, ?_, ?_⟩
  · intro d w
    by_cases hkey : (d, w) = (day, writer)
    · simp only [Prod.mk.injEq] at hkey
      obtain ⟨rfl, rfl⟩ := hkey
      rw [SeriesMap.set_self]
      exact hext.stored tree (h.files d w)
    · rw [SeriesMap.set_ne series hkey]
      intro a k
      rw [hframe _ ?_, h.files d w a k]
      intro archived relative heq hin
      simp only [Path.journal.injEq] at heq
      obtain ⟨-, rfl⟩ := heq
      exact hkey (Prod.ext hin.1 hin.2)
  · intro d w
    by_cases hkey : (d, w) = (day, writer)
    · simp only [Prod.mk.injEq] at hkey
      obtain ⟨rfl, rfl⟩ := hkey
      rw [SeriesMap.set_self]
      exact hext.ok
    · rw [SeriesMap.set_ne series hkey]
      exact h.ok d w
  · intro e
    rw [Finset.mem_union, List.mem_toFinset, h.published]
    by_cases hkey : (e.date, e.writer) = (day, writer)
    · simp only [Prod.mk.injEq] at hkey
      obtain ⟨hday, hwriter⟩ := hkey
      rw [hday, hwriter, SeriesMap.set_self, hext.entries, List.mem_append, hext.mem]
      tauto
    · rw [SeriesMap.set_ne series hkey]
      refine ⟨fun hor => hor.resolve_right ?_, Or.inl⟩
      intro he
      exact hkey (Prod.ext (hadd e he).1 (hadd e he).2)

/-- The count of an extended journal. -/
theorem card_extend {tree : Tree} {published : Finset Entry} {series : SeriesMap} {day : Day}
    {writer : UUID} {additions : List Entry} {out : Appended} {series' : Series}
    {new : List Entry} (h : Stores codec S tree published series)
    (hadd : ∀ e ∈ additions, e.date = day ∧ e.writer = writer)
    (hext : Extends codec S day writer (series day writer) additions out series' new) :
    (published ∪ additions.toFinset).card = published.card + out.added := by
  have hsame : published ∪ additions.toFinset = published ∪ new.toFinset := by
    ext e
    simp only [Finset.mem_union, List.mem_toFinset, hext.mem]
    by_cases he : e ∈ additions
    · have := h.published e
      rw [(hadd e he).1, (hadd e he).2] at this
      tauto
    · simp [he]
  have hdisjoint : Disjoint published new.toFinset := by
    rw [Finset.disjoint_left]
    intro e hpub hnew
    have hmem := (hext.mem e).mp (List.mem_toFinset.mp hnew)
    have := (h.published e).mp hpub
    rw [(hadd e hmem.1).1, (hadd e hmem.1).2] at this
    exact hmem.2 this
  rw [hsame, Finset.card_union_of_disjoint hdisjoint, List.toFinset_card_of_nodup hext.nodup,
    hext.added]

/-- **The invariant of the loop over the groups**, after the groups `done` were
    planned against the head: what the updates so far make of the head's tree. -/
structure Planned (codec : LineCodec) (S : Set Entry) (tree : Tree) (published : Finset Entry)
    (series : SeriesMap) (entries : List Entry) (done : List (Day × UUID)) (rollovers : Nat)
    (state : PublishState) (series' : SeriesMap) : Prop where
  index : state.index.Sound codec S
  stores : Stores codec S (tree.apply state.updates)
    (published ∪ (entries.filter fun e => e.series ∈ done).toFinset) series'
  count : (published ∪ (entries.filter fun e => e.series ∈ done).toFinset).card =
    published.card + state.addedRecords
  untouched : ∀ day writer, (day, writer) ∉ done → series' day writer = series day writer
  catalog : (tree.apply state.updates).catalog = tree.catalog
  rollover : state.metrics.rolloverFiles = 0 →
    ∀ day writer, (series' day writer).length ≤ max 1 (series day writer).length
  unchanged : state.addedRecords = 0 → state.updates = []
  metrics : rollovers ≤ state.metrics.rolloverFiles

theorem publishGroups_planned (hrec : ∀ e ∈ S, Recordable codec e) (hS : DistinctIdentities S)
    {destination : Destination} {head : Option Tree} {version : Nat} {published : Finset Entry}
    {series : SeriesMap} {entries : List Entry} {index : DeliveryIndex} {metrics : Metrics}
    {state : PublishState} {keys : List (Day × UUID)} (hkeys : keys.Nodup)
    (hentries : ∀ e ∈ entries, e ∈ S) (hsound : index.Sound codec S)
    (hstores : Stores codec S (headTree head) published series)
    (h : keys.foldlM (publishGroup codec destination head version entries)
      ⟨[], 0, metrics, index⟩ = .ok state) :
    ∃ series', Planned codec S (headTree head) published series entries keys
      metrics.rolloverFiles state series' := by
  refine foldlM_split_invariant
    (fun done (state : PublishState) => ∃ series', Planned codec S (headTree head) published
      series entries done metrics.rolloverFiles state series') ?_ ?_ h
  · rintro done ⟨day, writer⟩ rest state state' hsplit ⟨mid, hp⟩ hstep
    have hfresh : (day, writer) ∉ done := by
      rw [hsplit, List.nodup_append] at hkeys
      exact fun hmem => hkeys.2.2 _ hmem _ List.mem_cons_self rfl
    simp only [publishGroup, bind_eq_ok, pure_eq_ok] at hstep
    obtain ⟨out, happend, rfl⟩ := hstep
    have hadditions : ∀ e ∈ entries.filter (fun e => e.series = (day, writer)),
        e ∈ S ∧ e.date = day ∧ e.writer = writer := by
      intro e he
      simp only [List.mem_filter, Entry.series, Prod.mk.injEq, decide_eq_true_eq] at he
      exact ⟨hentries e he.1, he.2⟩
    obtain ⟨hindex, series', new, hext⟩ := append_spec hrec hS (hstores.files day writer)
      (hstores.ok day writer) hp.index hadditions happend
    -- the head's series is still the one of the tree planned so far
    rw [← hp.untouched day writer hfresh] at hext
    have hplaced := fun e he => (hadditions e he).2
    have hunion : published ∪ (entries.filter fun e => e.series ∈ done).toFinset ∪
          (entries.filter fun e => e.series = (day, writer)).toFinset =
        published ∪ (entries.filter fun e => e.series ∈ done ++ [(day, writer)]).toFinset := by
      ext e
      simp only [Finset.mem_union, List.mem_toFinset, List.mem_filter, List.mem_append,
        List.mem_singleton, decide_eq_true_eq]
      tauto
    have hroll : (state.metrics.add out.progress).rolloverFiles =
        state.metrics.rolloverFiles + out.progress.rolloverFiles := rfl
    refine ⟨mid.set (day, writer) series',
      { index := hindex
        stores := ?_, count := ?_, untouched := ?_, catalog := ?_, rollover := ?_
        unchanged := ?_, metrics := by rw [hroll]; have := hp.metrics; omega }⟩
    · rw [Tree.apply_append, ← hunion]
      exact hp.stores.extend hplaced hext
    · rw [← hunion, card_extend hp.stores hplaced hext, hp.count]
      simp only [Nat.add_assoc]
    · intro d w hnot
      simp only [List.mem_append, List.mem_singleton, not_or] at hnot
      rw [SeriesMap.set_ne mid hnot.2, hp.untouched d w hnot.1]
    · rw [Tree.apply_append, (Tree.apply_inSeries _ hext.inSeries).1, hp.catalog]
    · intro h0 d w
      rw [hroll] at h0
      by_cases hkey : (d, w) = (day, writer)
      · simp only [Prod.mk.injEq] at hkey
        obtain ⟨rfl, rfl⟩ := hkey
        rw [SeriesMap.set_self, ← hp.untouched d w hfresh]
        exact hext.rollover (by omega)
      · rw [SeriesMap.set_ne mid hkey]
        exact hp.rollover (by omega) d w
    · intro h0
      have hzero : state.addedRecords + out.added = 0 := h0
      rw [hp.unchanged (by omega), hext.unchanged (by omega)]
      rfl
  · refine ⟨series, ⟨hsound, ?_, by simp, fun _ _ _ => rfl, rfl, fun _ d w => by omega,
      fun _ => rfl, Nat.le_refl _⟩⟩
    simpa using hstores

theorem nodup_groupKeys (entries : List Entry) : (groupKeys entries).Nodup :=
  (List.mergeSort_perm _ _).nodup_iff.mpr (List.nodup_dedup _)

theorem mem_groupKeys {entries : List Entry} {entry : Entry} (h : entry ∈ entries) :
    entry.series ∈ groupKeys entries := by
  unfold groupKeys
  rw [List.mem_mergeSort, List.mem_dedup]
  exact List.mem_map_of_mem h

/-- **One planned batch.**  Below a head that represents `published`, an attempt
    either finds every entry published and changes nothing, or its updates make
    the tree represent the published entries and the batch. -/
theorem publishAttempt_represents (hrec : ∀ e ∈ S, Recordable codec e)
    (hS : DistinctIdentities S) {destination : Destination} {previous head : Option Tree}
    {entries : List Entry} {index : DeliveryIndex} {metrics : Metrics} {state : PublishState}
    (hentries : ∀ e ∈ entries, e ∈ S) (hsound : index.Sound codec S)
    {published : Finset Entry} {series : SeriesMap}
    (hhead : HeadRepresents codec S head published series)
    (h : publishAttempt codec destination previous head entries index metrics = .ok state) :
    state.index.Sound codec S ∧ (state.updates = [] → ∀ e ∈ entries, e ∈ published) ∧
      (state.updates ≠ [] → ∃ series', Represents codec S ((headTree head).apply state.updates)
        (published ∪ entries.toFinset) series') := by
  simp only [publishAttempt, bind_eq_ok] at h
  obtain ⟨-, -, -, -, catalog, hcatalog, planned, hgroups, h⟩ := h
  obtain ⟨series', hp⟩ := publishGroups_planned hrec hS (nodup_groupKeys entries) hentries hsound
    hhead.stores hgroups
  have hall : entries.filter (fun e => e.series ∈ groupKeys entries) = entries := by
    rw [List.filter_eq_self]
    intro e he
    simpa using mem_groupKeys he
  have hstores := hp.stores
  have hcount := hp.count
  rw [hall] at hstores hcount
  split at h
  · next hzero =>
    simp only [pure_eq_ok] at h
    subst h
    refine ⟨hp.index, fun _ e he => ?_, fun hne => absurd (hp.unchanged hzero) hne⟩
    have hsub : published = published ∪ entries.toFinset :=
      Finset.eq_of_subset_of_card_le Finset.subset_union_left (by omega)
    rw [hsub, Finset.mem_union, List.mem_toFinset]
    exact Or.inr he
  · next hadded =>
    simp only [bind_eq_ok, pure_eq_ok, Catalog.validated] at h
    obtain ⟨catalog', ⟨-, -, hcatalog'⟩, notes, hnotes, rfl⟩ := h
    have hisnote := invalidatedNotes_isNote hnotes
    refine ⟨hp.index, by simp, fun _ => ⟨series', ?_, ?_⟩⟩
    · refine hstores.congr fun archived relative => ?_
      rw [Tree.apply_append, (Tree.apply_notes _ hisnote).2, Tree.apply_append, Tree.apply_cons,
        Tree.apply_nil, Tree.blob_catalog]
    · obtain ⟨hrecords, hversion⟩ := readCatalog_counts hhead hcatalog
      refine ⟨⟨catalog', ?_, ?_, ?_⟩⟩
      · rw [Tree.apply_append, (Tree.apply_notes _ hisnote).1, Tree.apply_append, Tree.apply_cons,
          Tree.apply_nil]
        rfl
      · rw [← hcatalog', hcount, ← hrecords]
      · rintro ⟨day, writer, hlong⟩
        rw [← hcatalog']
        show (if planned.metrics.rolloverFiles ≠ 0 then 2 else catalog.schemaVersion) = 2
        split
        · rfl
        · next hroll =>
          have hle := hp.rollover (by simpa using hroll) day writer
          exact hversion ⟨day, writer, by omega⟩

/-! ### Folding -/

/-- A series with one part moved to the archive. -/
def Series.archive (series : Series) (part : Nat) : Series :=
  series.modify part fun p => { p with archived := true }

theorem Series.entries_eq_of_map {a b : Series} (h : a.map Part.entries = b.map Part.entries) :
    a.entries = b.entries := by
  rw [Series.entries, Series.entries, List.flatMap_def, List.flatMap_def, h]

theorem Series.map_entries_archive (series : Series) (part : Nat) :
    (series.archive part).map Part.entries = series.map Part.entries := by
  apply List.ext_getElem?
  intro k
  simp only [Series.archive, List.getElem?_map, List.getElem?_modify]
  cases series[k]? with
  | none => rfl
  | some p => by_cases hk : part = k <;> simp [hk]

/-- Parts keep their entries when only archive flags change. -/
theorem Series.Ok.of_map {day : Day} {writer : UUID} {a b : Series}
    (h : a.Ok codec S day writer) (heq : b.map Part.entries = a.map Part.entries) :
    b.Ok codec S day writer := by
  have hentries := Series.entries_eq_of_map heq
  refine ⟨by rw [hentries]; exact h.submitted, by rw [hentries]; exact h.placed,
    by rw [hentries]; exact h.nodup, ?_, ?_⟩
  · intro p hp
    have hmem : p.entries ∈ a.map Part.entries := heq ▸ List.mem_map_of_mem hp
    obtain ⟨q, hq, hqe⟩ := List.mem_map.mp hmem
    exact hqe ▸ h.size q hq
  · have := congrArg List.length heq
    simp only [List.length_map] at this
    exact this ▸ h.length

/-- The invariant of the archive loop: only flags differ from the head. -/
structure Moved (codec : LineCodec) (S : Set Entry) (head : Tree) (published : Finset Entry)
    (series : SeriesMap) (state : MoveState) (series' : SeriesMap) : Prop where
  stores : Stores codec S (head.apply state.updates) published series'
  same : ∀ day writer, (series' day writer).map Part.entries =
    (series day writer).map Part.entries
  catalog : (head.apply state.updates).catalog = head.catalog

theorem Moved.step {head : Tree} {published : Finset Entry} {series series' : SeriesMap}
    {destination : Destination} {files : List (Bool × Relative × Bytes)}
    {state state' : MoveState} {relative : Relative} {addition : Bytes}
    (hhead : Stores codec S head published series)
    (hfiles : ∀ f ∈ files, head.blob (.journal f.1 f.2.1) = some f.2.2)
    (hlive : head.blob (.journal false relative) = some addition)
    (h : Moved codec S head published series state series')
    (hstep : moveFile destination files state (relative, addition) = .ok state') :
    ∃ series'', Moved codec S head published series state' series'' := by
  obtain ⟨day, writer, part⟩ := relative
  -- the head has this part live, so its archive path is free
  rw [hhead.files day writer false part, Series.view_eq_some] at hlive
  obtain ⟨p, hp, hplive, rfl⟩ := hlive
  have hfree : files.find? (fun f => f.1 = true ∧ f.2.1 = ⟨day, writer, part⟩) = none := by
    rw [List.find?_eq_none]
    rintro ⟨a, r, c⟩ hf hmatch
    simp only [decide_eq_true_eq] at hmatch
    obtain ⟨rfl, rfl⟩ := hmatch
    have hblob := hfiles _ hf
    simp only [hhead.files day writer true part, Series.view_eq_some, hp, Option.some.injEq] at hblob
    obtain ⟨q, rfl, hq, -⟩ := hblob
    simp [hplive] at hq
  simp only [moveFile, hfree, Option.map_none, Except.ok.injEq] at hstep
  subst hstep
  have hp' : ((series' day writer)[part]?).map Part.entries = some p.entries := by
    have := congrArg (fun l => l[part]?) (h.same day writer)
    simpa only [List.getElem?_map, hp, Option.map_some] using this
  refine ⟨series'.set (day, writer) ((series' day writer).archive part), ?_, ?_, ?_⟩
  · refine ⟨?_, ?_, ?_⟩
    · intro d w a k
      simp only [List.append_assoc, List.cons_append, List.nil_append, Tree.apply_append,
        Tree.apply_cons, Tree.apply_nil, Tree.blob_delete, Tree.blob_write, Path.journal.injEq,
        Relative.mk.injEq, h.stores.files d w a k]
      by_cases hkey : (d, w) = (day, writer)
      · simp only [Prod.mk.injEq] at hkey
        obtain ⟨rfl, rfl⟩ := hkey
        rw [SeriesMap.set_self]
        obtain ⟨q, hq, hqe⟩ := Option.map_eq_some_iff.mp hp'
        by_cases hk : k = part
        · subst hk
          cases a <;>
            simp [Series.view, Series.archive, hq, hqe]
        · have hk' : ¬ part = k := fun h' => hk h'.symm
          simp [hk, hk', Series.view, Series.archive]
      · rw [SeriesMap.set_ne _ hkey]
        simp only [Prod.mk.injEq] at hkey
        rw [if_neg (by tauto), if_neg (by tauto)]
    · intro d w
      by_cases hkey : (d, w) = (day, writer)
      · simp only [Prod.mk.injEq] at hkey
        obtain ⟨rfl, rfl⟩ := hkey
        rw [SeriesMap.set_self]
        exact (h.stores.ok d w).of_map (Series.map_entries_archive _ _)
      · rw [SeriesMap.set_ne _ hkey]
        exact h.stores.ok d w
    · intro e
      rw [h.stores.published]
      by_cases hkey : (e.date, e.writer) = (day, writer)
      · simp only [Prod.mk.injEq] at hkey
        obtain ⟨rfl, rfl⟩ := hkey
        rw [SeriesMap.set_self, Series.entries_eq_of_map (Series.map_entries_archive _ _)]
      · rw [SeriesMap.set_ne _ hkey]
  · intro d w
    by_cases hkey : (d, w) = (day, writer)
    · simp only [Prod.mk.injEq] at hkey
      obtain ⟨rfl, rfl⟩ := hkey
      rw [SeriesMap.set_self, Series.map_entries_archive, h.same]
    · rw [SeriesMap.set_ne _ hkey, h.same]
  · simp only [List.append_assoc, List.cons_append, List.nil_append, Tree.apply_append,
      Tree.apply_cons, Tree.apply_nil]
    exact h.catalog

theorem planNote_isNote {destination : Destination} {views : List (UUID × Bytes)}
    {foldOrigins : List (UUID × UUID × UUID)} {rows : List LatestRow} {state : NotesState}
    (h : rows.foldlM (planNote codec destination views foldOrigins) ⟨[], 0, 0, 0⟩ = .ok state) :
    ∀ u ∈ state.updates, u.IsNote := by
  refine foldlM_invariant (fun state : NotesState => ∀ u ∈ state.updates, u.IsNote) ?_ (by simp) h
  intro state row state' _ hstate hstep
  simp only [planNote, bind_eq_ok] at hstep
  obtain ⟨entry, -, hstep⟩ := hstep
  split at hstep
  · simp only [pure_eq_ok] at hstep
    exact hstep ▸ hstate
  · simp only [bind_eq_ok] at hstep
    obtain ⟨content, -, hstep⟩ := hstep
    split at hstep
    · simp only [pure_eq_ok] at hstep
      exact hstep ▸ hstate
    · split at hstep
      · simp only [pure_eq_ok] at hstep
        exact hstep ▸ hstate
      · obtain ⟨-, -, hstep⟩ := bind_eq_ok.mp hstep
        obtain ⟨-, -, hstep⟩ := bind_eq_ok.mp hstep
        cases pure_eq_ok.mp hstep
        intro u hu
        rcases List.mem_append.mp hu with hu | hu
        · exact hstate u hu
        · rw [List.mem_singleton] at hu
          rw [hu]; trivial

/-- The files of a fold's inventory are those of the head. -/
theorem foldInventory_files {head : Tree} {files : List (Bool × Relative × Bytes)}
    {views : List (UUID × Bytes)} (h : foldInventory head = .ok (files, views)) :
    ∀ f ∈ files, head.blob (.journal f.1 f.2.1) = some f.2.2 := by
  simp only [foldInventory, bind_eq_ok, pure_eq_ok, Prod.mk.injEq] at h
  obtain ⟨-, -, -, -, -, -, rfl, -⟩ := h
  intro f hf
  obtain ⟨⟨path, content⟩, hmem, hrow⟩ := List.mem_filterMap.mp hf
  cases path with
  | note m => simp at hrow
  | journal archived relative =>
    simp only [Option.some.injEq] at hrow
    subst hrow
    exact Tree.mem_listing.mp hmem

theorem readJournalEntry_eligible {destination : Destination} {archived old : Bool}
    {relative : Relative} {state state' : ReadJournal} {entry : Entry}
    (h : readJournalEntry codec destination archived relative old state entry = .ok state') :
    state'.eligible = state.eligible := by
  simp only [readJournalEntry, bind_eq_ok, pure_eq_ok] at h
  obtain ⟨-, -, -, -, -, -, rfl⟩ := h
  rfl

theorem readJournalFile_eligible {destination : Destination} {catalog : Catalog} {cutoff : Day}
    {state state' : ReadJournal} {file : Bool × Relative × Bytes}
    (h : readJournalFile codec destination catalog cutoff state file = .ok state') :
    ∀ f ∈ state'.eligible, f ∈ state.eligible ∨ (false, f) = file := by
  obtain ⟨archived, relative, data⟩ := file
  simp only [readJournalFile, journalPath, bind_eq_ok, pure_eq_ok] at h
  obtain ⟨_, ⟨-, -, rfl⟩, -, -, h⟩ := h
  have hsame := forParseFile_invariant (fun t : ReadJournal => t.eligible = _)
    (fun t entry t' ht hstep => (readJournalEntry_eligible hstep).trans ht) rfl h
  rw [hsame]
  intro f hf
  cases archived with
  | true => exact Or.inl (by simpa using hf)
  | false =>
    split at hf
    · rcases List.mem_append.mp hf with hf | hf
      · exact Or.inl hf
      · rw [List.mem_singleton] at hf
        exact Or.inr (by rw [hf])
    · exact Or.inl hf

/-- **A fold only files what is there.**  Its updates keep the published entries,
    the count and the layout of the journal. -/
theorem plan_represents {destination : Destination} {head : Tree} {cutoff : Day}
    {published : Finset Entry} {series : SeriesMap} {updates : List Update} {report : FoldReport}
    (hhead : Represents codec S head published series)
    (h : plan codec destination head cutoff = .ok (updates, report)) :
    ∃ series', Represents codec S (head.apply updates) published series' := by
  simp only [plan, bind_eq_ok, pure_eq_ok, Prod.mk.injEq] at h
  obtain ⟨⟨files, views⟩, hinventory, catalog, -, read, hread, -, -, -, -, noted, hnoted, moved,
    hmoved, rfl, -⟩ := h
  have hfiles := foldInventory_files hinventory
  have hnotes := planNote_isNote hnoted
  have heligible : ∀ f ∈ read.eligible, (false, f) ∈ files := by
    refine foldlM_invariant (fun t : ReadJournal => ∀ f ∈ t.eligible, (false, f) ∈ files)
      ?_ (by simp) hread
    intro t file t' hfile ht hstep f hf
    rcases readJournalFile_eligible hstep f hf with hold | heq
    · exact ht f hold
    · exact heq ▸ hfile
  have hstart : Moved codec S head published series ⟨noted.updates, noted.writtenBytes, 0, 0⟩
      series :=
    ⟨hhead.stores.congr (Tree.apply_notes _ hnotes).2, fun _ _ => rfl, (Tree.apply_notes _ hnotes).1⟩
  have hend : ∃ series', Moved codec S head published series moved series' := by
    refine foldlM_invariant (fun t => ∃ series', Moved codec S head published series t series')
      ?_ ⟨series, hstart⟩ hmoved
    rintro t ⟨relative, addition⟩ t' hmem ⟨mid, ht⟩ hstep
    refine ht.step hhead.stores hfiles ?_ hstep
    split at hmem
    · have := heligible _ (List.mem_mergeSort.mp (List.mem_of_mem_take hmem))
      exact hfiles _ this
    · simp at hmem
  obtain ⟨series', hmove⟩ := hend
  refine ⟨series', hmove.stores, ⟨?_⟩⟩
  obtain ⟨c, hc, hcount, hversion⟩ := hhead.counts.catalog
  refine ⟨c, hmove.catalog.trans hc, hcount, ?_⟩
  rintro ⟨day, writer, hlong⟩
  have := congrArg List.length (hmove.same day writer)
  simp only [List.length_map] at this
  exact hversion ⟨day, writer, this ▸ hlong⟩

end

end Mnemion.Journal
