/-
  Mnemion/JournalAppend.lean
  ==========================
  **`append` extends a series.**  The two remaining loops of `append`: which
  additions are new (`collectNew_new`), and filling the tail and rolling over
  into numbered parts (`Writing`).  `append_spec` puts them together: applied
  to a tree with a series, the planned updates give the tree with that series
  and the new entries, in order, behind it.
-/
import Mnemion.JournalSeries

namespace Mnemion.Journal

open Outcome ByteLines

variable {codec : LineCodec} {S : Set Entry} {day : Day} {writer : UUID} {series : Series}
  {segments : List Segment}

/-! ### Which additions are new -/

/-- After the additions `done`: the new ones are those not known yet. -/
structure Gathered (codec : LineCodec) (known : Entry → Prop) (done : List Entry)
    (state : NewState) : Prop where
  nodup : state.new.Nodup
  mem : ∀ e, e ∈ state.new ↔ e ∈ done ∧ ¬ known e
  seenRow : ∀ row ∈ state.seen, ∃ e ∈ done, e.id = row.1 ∧ e.digest codec = .ok row.2
  seenAll : ∀ e ∈ done, ∃ row ∈ state.seen, row.1 = e.id

variable {known : Entry → Prop}

theorem Gathered.duplicate {done : List Entry} {state : NewState} {entry : Entry}
    (h : Gathered codec known done state) (hmem : entry ∈ done) :
    Gathered codec known (done ++ [entry]) state := by
  have hiff : ∀ e, e ∈ done ++ [entry] ↔ e ∈ done := by
    intro e
    simp only [List.mem_append, List.mem_singleton, or_iff_left_iff_imp]
    rintro rfl
    exact hmem
  exact ⟨h.nodup, by simpa only [hiff] using h.mem, by simpa only [hiff] using h.seenRow,
    by simpa only [hiff] using h.seenAll⟩

/-- **The second loop**, as soon as the index decides what is known and a digest
    tells entries with one id apart. -/
theorem collectNew_known {index : DeliveryIndex} {T : Set Entry}
    (hsame : ∀ a ∈ T, ∀ b ∈ T, ∀ digest, a.id = b.id → a.digest codec = .ok digest →
      b.digest codec = .ok digest → a = b)
    (hcheck : ∀ e ∈ T, ∀ digest present, e.digest codec = .ok digest →
      index.check e digest = .ok present → (present = true ↔ known e))
    {additions : List Entry} (hadditions : ∀ e ∈ additions, e ∈ T) {state : NewState}
    (h : additions.foldlM (collectNew codec index) ⟨[], [], []⟩ = .ok state) :
    state.new.Nodup ∧ ∀ e, e ∈ state.new ↔ e ∈ additions ∧ ¬ known e := by
  have hinv := foldlM_prefix_invariant
    (fun done (state : NewState) => (∀ e ∈ done, e ∈ T) ∧ Gathered codec known done state)
    additions ?_ ?_ h
  · exact ⟨hinv.2.nodup, hinv.2.mem⟩
  · rintro done state entry state' hmem ⟨hdone, hcol⟩ hstep
    have hentry := hadditions entry hmem
    have hdone' : ∀ e ∈ done ++ [entry], e ∈ T := by
      intro e he
      rcases List.mem_append.mp he with he | he
      · exact hdone e he
      · rw [List.mem_singleton] at he; exact he ▸ hentry
    refine ⟨hdone', ?_⟩
    simp only [collectNew, bind_eq_ok] at hstep
    obtain ⟨digest, hdigest, hstep⟩ := hstep
    split at hstep
    · -- an id seen before in this batch is the same entry
      next previous hprev =>
      simp only [bind_eq_ok, check_eq_ok, pure_eq_ok] at hstep
      obtain ⟨-, hprevious, rfl⟩ := hstep
      have hid : previous.1 = entry.id := by simpa using List.find?_some hprev
      obtain ⟨e, he, heid, hedigest⟩ := hcol.seenRow previous (List.mem_of_find?_eq_some hprev)
      have heq : e = entry := hsame e (hdone e he) entry hentry digest (heid.trans hid)
        (hprevious ▸ hedigest) hdigest
      exact hcol.duplicate (heq ▸ he)
    · next hnone =>
      simp only [bind_eq_ok, pure_eq_ok] at hstep
      obtain ⟨-, -, present, hpresent, rfl⟩ := hstep
      have hknown := hcheck entry hentry digest present hdigest hpresent
      have hfresh : entry ∉ done := by
        intro hmem'
        obtain ⟨row, hrow, hid⟩ := hcol.seenAll entry hmem'
        have := List.find?_eq_none.mp hnone row hrow
        simp [hid] at this
      have hseenRow : ∀ row ∈ state.seen ++ [(entry.id, digest)], ∃ e ∈ done ++ [entry],
          e.id = row.1 ∧ e.digest codec = .ok row.2 := by
        intro row hrow
        rcases List.mem_append.mp hrow with hrow | hrow
        · obtain ⟨e, he, hrest⟩ := hcol.seenRow row hrow
          exact ⟨e, List.mem_append_left _ he, hrest⟩
        · obtain rfl := List.mem_singleton.mp hrow
          exact ⟨entry, by simp, rfl, hdigest⟩
      have hseenAll : ∀ e ∈ done ++ [entry], ∃ row ∈ state.seen ++ [(entry.id, digest)],
          row.1 = e.id := by
        intro e he
        rcases List.mem_append.mp he with he | he
        · obtain ⟨row, hrow, hid⟩ := hcol.seenAll e he
          exact ⟨row, List.mem_append_left _ hrow, hid⟩
        · obtain rfl := List.mem_singleton.mp he
          exact ⟨(e.id, digest), by simp, rfl⟩
      cases present with
      | true =>
        have hmem' := hknown.mp rfl
        refine ⟨by simpa using hcol.nodup, ?_, hseenRow, hseenAll⟩
        intro e
        simp only [if_true, hcol.mem, List.mem_append, List.mem_singleton]
        constructor
        · rintro ⟨he, hnot⟩; exact ⟨Or.inl he, hnot⟩
        · rintro ⟨he | rfl, hnot⟩
          · exact ⟨he, hnot⟩
          · exact absurd hmem' hnot
      | false =>
        have hmem' : ¬ known entry := fun hm => by simpa using hknown.mpr hm
        refine ⟨?_, ?_, hseenRow, hseenAll⟩
        · simp only [Bool.false_eq_true, if_false]
          refine List.nodup_append.mpr ⟨hcol.nodup, List.nodup_singleton _, ?_⟩
          intro a ha b hb hab
          rw [List.mem_singleton] at hb
          exact hfresh (hb ▸ hab ▸ ((hcol.mem a).mp ha).1)
        · intro e
          simp only [Bool.false_eq_true, if_false, List.mem_append, List.mem_singleton, hcol.mem]
          constructor
          · rintro (⟨he, hnot⟩ | rfl)
            · exact ⟨Or.inl he, hnot⟩
            · exact ⟨Or.inr rfl, hmem'⟩
          · rintro ⟨he | rfl, hnot⟩
            · exact Or.inl ⟨he, hnot⟩
            · exact Or.inr rfl
  · exact ⟨by simp, ⟨by simp, by simp, by simp, by simp⟩⟩

theorem collectNew_new (hrec : ∀ e ∈ S, Recordable codec e) (hS : DistinctIdentities S)
    (hok : series.Ok codec S day writer) (hlisted : Listed codec day writer series segments)
    {index : DeliveryIndex} (hsel : Selected codec S segments segments index)
    {additions : List Entry} (hadditions : ∀ e ∈ additions, e ∈ S) {state : NewState}
    (h : additions.foldlM (collectNew codec index) ⟨[], [], []⟩ = .ok state) :
    state.new.Nodup ∧ ∀ e, e ∈ state.new ↔ e ∈ additions ∧ e ∉ series.entries :=
  collectNew_known (fun a ha b hb _ hid _ _ => hS a ha b hb (Or.inl hid))
    (fun _ he _ _ _ hcheck => hsel.check_iff hrec hS hok hlisted he hcheck) hadditions h

/-! ### Filling the tail and rolling over -/

/-- An update of a journal file of this series. -/
def Update.InSeries (day : Day) (writer : UUID) : Update → Prop
  | .write (.journal _ relative) _ => relative.day = day ∧ relative.writer = writer
  | _ => False

/-- Writing a series does not touch any other path or the catalog. -/
theorem Tree.apply_inSeries (tree : Tree) {updates : List Update}
    (h : ∀ u ∈ updates, u.InSeries day writer) :
    (tree.apply updates).catalog = tree.catalog ∧
      ∀ path, (∀ archived relative, path = .journal archived relative →
        ¬ (relative.day = day ∧ relative.writer = writer)) →
        (tree.apply updates).blob path = tree.blob path := by
  induction updates generalizing tree with
  | nil => exact ⟨rfl, fun _ _ => rfl⟩
  | cons u us ih =>
    have hu := h u List.mem_cons_self
    obtain ⟨hcat, hblob⟩ := ih (tree.update u) fun u' hu' => h u' (List.mem_cons_of_mem _ hu')
    cases u with
    | delete path => exact absurd hu (by simp [Update.InSeries])
    | catalog c => exact absurd hu (by simp [Update.InSeries])
    | write path content =>
      cases path with
      | note m => exact absurd hu (by simp [Update.InSeries])
      | journal archived relative =>
        refine ⟨hcat, ?_⟩
        intro path hpath
        rw [Tree.apply_cons, hblob path hpath, Tree.blob_write, if_neg]
        rintro rfl
        exact hpath _ _ rfl hu

/-- **The loop invariant of the writing loop.**  `init` are the finished parts and
    `es` the entries of the open one; together they hold the series' entries and
    the additions written so far.  What the flushed updates make of a tree with
    the series is `init` followed by the original parts. -/
structure Writing (codec : LineCodec) (day : Day) (writer : UUID) (series : Series)
    (archived : Bool) (done : List Entry) (state : WriteState) (init : Series)
    (es : List Entry) : Prop where
  part : state.part = init.length
  target : state.target = .journal archived ⟨day, writer, init.length⟩
  data : state.data = fileOf codec es
  fits : state.data.length ≤ MAX_FILE_BYTES
  limit : init.length < MAX_SERIES_FILES
  entries : init.entries ++ es = series.entries ++ done
  size : ∀ p ∈ init, (fileOf codec p.entries).length ≤ MAX_FILE_BYTES
  inSeries : ∀ u ∈ state.updates, u.InSeries day writer
  stored : ∀ tree : Tree, tree.HasSeries codec day writer series → ∀ a k,
    (tree.apply state.updates).blob (.journal a ⟨day, writer, k⟩) =
      if k < init.length then init.view codec a k else series.view codec a k
  covers : series.length ≤ init.length + 1
  openPart : ∀ p, series[init.length]? = some p → p.archived = archived
  clean : state.dirty = false →
    series = init ++ [⟨archived, es⟩] ∨ (series = [] ∧ init = [] ∧ es = [])
  rollovers : init.length + 1 = max 1 series.length + state.rollovers

/-- Once the open part is written, the tree has the parts `init ++ [open]`. -/
theorem Writing.flush {archived : Bool} {done : List Entry} {state : WriteState}
    {init : Series} {es : List Entry}
    (h : Writing codec day writer series archived done state init es)
    (hfull : state.dirty = true ∨ series = init ++ [⟨archived, es⟩]) :
    (∀ u ∈ state.flush.updates, u.InSeries day writer) ∧
      ∀ tree : Tree, tree.HasSeries codec day writer series →
        (tree.apply state.flush.updates).HasSeries codec day writer
          (init ++ [⟨archived, es⟩]) := by
  have hopen : ∀ a k, init.length ≤ k →
      Series.view codec (init ++ [⟨archived, es⟩]) a k =
        if a = archived ∧ k = init.length then some state.data
        else series.view codec a k := by
    intro a k hk
    rw [Series.view_append, if_neg (Nat.not_lt.mpr hk)]
    rcases Nat.eq_or_lt_of_le hk with rfl | hlt
    · simp only [Nat.sub_self, and_true]
      by_cases ha : a = archived
      · simp [Series.view, ha, h.data]
      · rw [if_neg ha]
        have hne : ¬ archived = a := fun h' => ha h'.symm
        simp only [Series.view, List.getElem?_cons_zero, Option.bind_some, hne, if_false]
        cases hp : series[init.length]? with
        | none => rfl
        | some p => simp [h.openPart p hp, hne]
    · have hlen : [(⟨archived, es⟩ : Part)].length ≤ k - init.length := by
        simp only [List.length_singleton]; omega
      rw [Series.view_eq_none hlen, if_neg (by omega),
        Series.view_eq_none (Nat.le_trans h.covers hlt)]
  unfold WriteState.flush
  cases hdirty : state.dirty with
  | true =>
    simp only [if_true]
    refine ⟨?_, ?_⟩
    · intro u hu
      rcases List.mem_append.mp hu with hu | hu
      · exact h.inSeries u hu
      · rw [List.mem_singleton] at hu
        rw [hu, h.target]
        exact ⟨rfl, rfl⟩
    · intro tree htree a k
      rw [Tree.apply_append, Tree.apply_cons, Tree.apply_nil, Tree.blob_write, h.target,
        h.stored tree htree]
      simp only [Path.journal.injEq, Relative.mk.injEq, true_and]
      by_cases hk : k < init.length
      · rw [if_neg (by omega), if_pos hk, Series.view_append, if_pos hk]
      · rw [hopen a k (Nat.not_lt.mp hk), if_neg hk]
  | false =>
    simp only [Bool.false_eq_true, if_false]
    refine ⟨h.inSeries, ?_⟩
    have hsame := hfull.resolve_left (by simp [hdirty])
    intro tree htree a k
    rw [h.stored tree htree a k]
    split
    · next hk => rw [Series.view_append, if_pos hk]
    · rw [← hsame]

theorem fileOf_length_append (as : List Entry) (entry : Entry) :
    (fileOf codec (as ++ [entry])).length =
      (fileOf codec as).length + (codec.dump entry ++ [newline]).length := by
  rw [fileOf_append, fileOf_singleton, List.length_append]

/-- One round of the writing loop. -/
theorem Writing.step {archived : Bool} {done : List Entry}
    {state state' : WriteState} {init : Series} {es : List Entry} {entry : Entry}
    (h : Writing codec day writer series archived done state init es)
    (hwriter : entry.writer = writer)
    (hstep : writeEntry codec archived day state entry = .ok state') :
    state'.dirty = true ∧ ∃ init' es',
      Writing codec day writer series archived (done ++ [entry]) state' init' es' := by
  simp only [writeEntry, bind_eq_ok, check_eq_ok] at hstep
  obtain ⟨line, hline, -, hlinemax, hstep⟩ := hstep
  obtain ⟨rfl, -⟩ := line_eq_ok.mp hline
  split at hstep
  · -- the open part is full: flush it and start the next one
    next hfull =>
    simp only [bind_eq_ok, check_eq_ok, pure_eq_ok] at hstep
    obtain ⟨-, hlimit, rfl⟩ := hstep
    have hflushed : state.dirty = true ∨ series = init ++ [⟨archived, es⟩] := by
      cases hdirty : state.dirty with
      | true => exact Or.inl rfl
      | false =>
        rcases h.clean hdirty with hsame | ⟨-, -, rfl⟩
        · exact Or.inr hsame
        · -- an empty part takes any line, so it was not full
          rw [h.data, fileOf_nil, List.length_nil, Nat.zero_add] at hfull
          exact absurd hlinemax (Nat.not_le.mpr hfull)
    obtain ⟨hin, hstored⟩ := h.flush hflushed
    have hpart : state.flush.part = state.part := by unfold WriteState.flush; split <;> rfl
    have hroll : state.flush.rollovers = state.rollovers := by
      unfold WriteState.flush; split <;> rfl
    refine ⟨rfl, init ++ [⟨archived, es⟩], [entry], ?_⟩
    refine
      { part := by simp [hpart, h.part]
        target := by simp [hpart, h.part, hwriter]
        data := (fileOf_singleton entry).symm
        fits := hlinemax
        limit := by simpa [hpart, h.part] using hlimit
        entries := by
          have := h.entries
          simp only [Series.entries_append, Series.entries_singleton] at this ⊢
          rw [this, List.append_assoc]
        size := ?_
        inSeries := hin
        stored := ?_
        covers := by
          have := h.covers
          simp only [List.length_append, List.length_singleton]; omega
        openPart := ?_
        clean := by simp
        rollovers := by
          have := h.rollovers
          simp only [List.length_append, List.length_singleton, hroll]; omega }
    · intro p hp
      rcases List.mem_append.mp hp with hp | hp
      · exact h.size p hp
      · rw [List.mem_singleton] at hp
        rw [hp, ← h.data]
        exact h.fits
    · intro tree htree a k
      rw [hstored tree htree a k]
      split
      · rfl
      · next hk =>
        have hle : (init ++ [(⟨archived, es⟩ : Part)]).length ≤ k := Nat.not_lt.mp hk
        rw [Series.view_eq_none hle, Series.view_eq_none]
        simp only [List.length_append, List.length_singleton] at hle
        exact Nat.le_trans h.covers hle
    · intro p hp
      have hlen : series.length ≤ (init ++ [(⟨archived, es⟩ : Part)]).length := by
        simpa using h.covers
      rw [List.getElem?_eq_none hlen] at hp
      exact absurd hp (by simp)
  · -- the line fits into the open part
    next hroom =>
    simp only [pure_eq_ok] at hstep
    subst hstep
    refine ⟨rfl, init, es ++ [entry], ?_⟩
    exact
      { part := h.part
        target := h.target
        data := by simp [h.data, fileOf_append, fileOf_singleton]
        fits := by
          have := Nat.not_lt.mp hroom
          simpa using this
        limit := h.limit
        entries := by rw [← List.append_assoc, h.entries, List.append_assoc]
        size := h.size
        inSeries := h.inSeries
        stored := h.stored
        covers := h.covers
        openPart := h.openPart
        clean := by simp
        rollovers := h.rollovers }

/-- The whole writing loop: after at least one entry the open part is dirty. -/
theorem writeEntries_writing {archived : Bool} {start state : WriteState}
    {init : Series} {es new : List Entry}
    (h : Writing codec day writer series archived [] start init es)
    (hwriter : ∀ e ∈ new, e.writer = writer) (hnew : new ≠ [])
    (hfold : new.foldlM (writeEntry codec archived day) start = .ok state) :
    state.dirty = true ∧ ∃ init' es',
      Writing codec day writer series archived new state init' es' := by
  have hinv := foldlM_prefix_invariant
    (fun done (state : WriteState) => (done ≠ [] → state.dirty = true) ∧ ∃ init' es',
      Writing codec day writer series archived done state init' es') new ?_ ?_ hfold
  · exact ⟨hinv.1 hnew, hinv.2⟩
  · rintro done state entry state' hmem ⟨-, init', es', hw⟩ hstep
    obtain ⟨hdirty, hnext⟩ := hw.step (hwriter entry hmem) hstep
    exact ⟨fun _ => hdirty, hnext⟩
  · exact ⟨by simp, init, es, h⟩

/-! ### The specification of `append` -/

/-- What the updates of one `append` do to a tree that stores `series`. -/
structure Extends (codec : LineCodec) (S : Set Entry) (day : Day) (writer : UUID)
    (series : Series) (additions : List Entry) (out : Appended) (series' : Series)
    (new : List Entry) : Prop where
  ok : series'.Ok codec S day writer
  entries : series'.entries = series.entries ++ new
  nodup : new.Nodup
  mem : ∀ e, e ∈ new ↔ e ∈ additions ∧ e ∉ series.entries
  added : out.added = new.length
  inSeries : ∀ u ∈ out.updates, u.InSeries day writer
  stored : ∀ tree : Tree, tree.HasSeries codec day writer series →
    (tree.apply out.updates).HasSeries codec day writer series'
  rollover : out.progress.rolloverFiles = 0 → series'.length ≤ max 1 series.length
  unchanged : out.added = 0 → out.updates = []
  grows : series.length ≤ series'.length

theorem mem_sortAdditions {additions : List Entry} {entry : Entry} :
    entry ∈ sortAdditions additions ↔ entry ∈ additions := List.mem_mergeSort

/-- The part an append starts from is the last one of the series, or an empty
    live part 0. -/
theorem Writing.start (hok : series.Ok codec S day writer)
    (hlisted : Listed codec day writer series segments)
    (hlast : ∀ segment ∈ segments, ∀ tail, segments.getLast? = some tail →
      segment.part ≤ tail.part) :
    ∃ init es, Writing codec day writer series
      ((segments.getLast?.map (·.archived)).getD false) []
      { part := (segments.getLast?.map (·.part)).getD 0
        target := (segments.getLast?.map (·.path)).getD (.journal false ⟨day, writer, 0⟩)
        data := (segments.getLast?.map (·.oid)).getD []
        updates := [], written := 0, rollovers := 0, dirty := false } init es := by
  cases htail : segments.getLast? with
  | none =>
    have hsegments : segments = [] := List.getLast?_eq_none_iff.mp htail
    have hseries : series = [] := by
      cases hs : series with
      | nil => rfl
      | cons p ps =>
        have := hlisted.mem (show series[0]? = some p by simp [hs])
        simp [hsegments] at this
    subst hseries
    exact ⟨[], [],
      { part := rfl, target := rfl, data := rfl, fits := by simp, limit := by decide
        entries := by simp, size := by simp, inSeries := by simp
        stored := fun tree htree a k => by simpa using htree a k
        covers := by simp, openPart := by simp
        clean := fun _ => Or.inr ⟨rfl, rfl, rfl⟩, rollovers := by simp }⟩
  | some tail =>
    have htmem : tail ∈ segments := List.mem_of_getLast? htail
    obtain ⟨p, hp, heq⟩ := (hlisted tail).mp htmem
    obtain ⟨hk, hpk⟩ := List.getElem?_eq_some_iff.mp hp
    -- the tail has the greatest part, so it is the last one of the series
    have hlen : series.length = tail.part + 1 := by
      refine Nat.le_antisymm ?_ hk
      have hmem := hlisted.mem
        (List.getElem?_eq_getElem (show series.length - 1 < series.length by omega))
      have := hlast _ hmem tail htail
      simp only [Segment.part] at this hk ⊢
      omega
    have hsplit : series = series.take tail.part ++ [p] := by
      conv_lhs => rw [← List.take_append_drop tail.part series]
      rw [List.drop_eq_getElem_cons hk, hpk, List.drop_eq_nil_of_le (by omega)]
    have hinit : (series.take tail.part).length = tail.part := by
      rw [List.length_take]; omega
    have hmem : p ∈ series := List.mem_of_getElem? hp
    refine ⟨series.take tail.part, p.entries,
      { part := by simp [hinit]
        target := by
          rw [hinit]
          simp only [Option.map_some, Option.getD_some, Segment.path]
          rw [congrArg Segment.relative heq]
        data := congrArg Segment.oid heq
        fits := ?_
        limit := ?_
        entries := ?_
        size := fun q hq => hok.size q (List.mem_of_mem_take hq)
        inSeries := by simp
        stored := ?_
        covers := by rw [hinit, hlen]
        openPart := ?_
        clean := fun _ => Or.inl ?_
        rollovers := by simp only [hinit, hlen]; omega }⟩
    · simp only [Option.map_some, Option.getD_some]
      rw [congrArg Segment.oid heq]
      exact hok.size p hmem
    · rw [hinit]
      have := hok.length
      omega
    · conv_rhs => rw [hsplit]
      simp
    · intro tree htree a k
      rw [Tree.apply_nil, htree a k, hinit]
      split
      · next hk' =>
        conv_lhs => rw [hsplit]
        rw [Series.view_append, if_pos (by rw [hinit]; exact hk')]
      · rfl
    · intro q hq
      rw [hinit, hp] at hq
      rw [← Option.some.inj hq]
      exact (congrArg Segment.archived heq).symm
    · simp only [Option.map_some, Option.getD_some]
      rw [congrArg Segment.archived heq]
      exact hsplit

/-- **`append` refines the series.**  Whatever the index had cached, the updates
    extend the stored series by exactly the additions it lacked, and the index
    stays sound. -/
theorem append_spec (hrec : ∀ e ∈ S, Recordable codec e) (hS : DistinctIdentities S)
    {scope : Entry → Except JournalError Unit} {head : Option Tree} {additions : List Entry}
    {index : DeliveryIndex} {version : Nat} {out : Appended}
    (htree : (headTree head).HasSeries codec day writer series)
    (hok : series.Ok codec S day writer) (hsound : index.Sound codec S)
    (hadditions : ∀ e ∈ additions, e ∈ S ∧ e.date = day ∧ e.writer = writer)
    (h : append codec scope head day writer additions index version = .ok out) :
    out.index.Sound codec S ∧
      ∃ series' new, Extends codec S day writer series additions out series' new := by
  simp only [append, bind_eq_ok] at h
  obtain ⟨segments, hinventory, read, hread, -, -, collected, hcollect, h⟩ := h
  have hlisted := inventory_listed htree hinventory
  have hsel := readSegments_selected hrec hok hlisted hsound hread
  obtain ⟨hnodup, hmem⟩ := collectNew_new hrec hS hok hlisted hsel
    (fun e he => (hadditions e (mem_sortAdditions.mp he)).1) hcollect
  simp only [mem_sortAdditions] at hmem
  split at h
  · -- everything was already there: no update
    next hnone =>
    simp only [pure_eq_ok] at h
    subst h
    refine ⟨hsel.sound, series, [], ?_⟩
    rw [hnone] at hmem
    exact
      { ok := hok, entries := by simp, nodup := List.nodup_nil, mem := hmem, added := rfl
        inSeries := by simp, stored := fun tree ht => by simpa using ht
        rollover := fun _ => by omega, unchanged := fun _ => rfl, grows := Nat.le_refl _ }
  · next hsome =>
    simp only [bind_eq_ok, pure_eq_ok] at h
    obtain ⟨-, -, -, -, -, -, state, hwrite, rfl⟩ := h
    have hwriter : ∀ e ∈ collected.new, e.writer = writer := fun e he =>
      (hadditions e ((hmem e).mp he).1).2.2
    obtain ⟨init₀, es₀, hstart⟩ := Writing.start hok hlisted
      fun segment hs tail htail => inventory_getLast hinventory htail hs
    obtain ⟨hdirty, init, es, hw⟩ := writeEntries_writing hstart hwriter hsome hwrite
    have hentries : Series.entries (init ++ [⟨(segments.getLast?.map (·.archived)).getD false, es⟩])
        = series.entries ++ collected.new := by
      rw [Series.entries_append, Series.entries_singleton, hw.entries]
    have hroll : state.flush.rollovers = state.rollovers := by
      unfold WriteState.flush; split <;> rfl
    refine ⟨hsel.sound, init ++ [⟨(segments.getLast?.map (·.archived)).getD false, es⟩],
      collected.new,
      { ok := ?_, entries := hentries, nodup := hnodup, mem := hmem, added := rfl
        inSeries := (hw.flush (Or.inl hdirty)).1
        stored := (hw.flush (Or.inl hdirty)).2
        rollover := ?_
        unchanged := fun h0 => absurd (List.length_eq_zero_iff.mp h0) hsome
        grows := by simpa using hw.covers }⟩
    · refine
        { submitted := ?_, placed := ?_, nodup := ?_, size := ?_
          length := by have := hw.limit; simp only [List.length_append, List.length_singleton]; omega }
      · intro e he
        rw [hentries] at he
        rcases List.mem_append.mp he with he | he
        · exact hok.submitted e he
        · exact (hadditions e ((hmem e).mp he).1).1
      · intro e he
        rw [hentries] at he
        rcases List.mem_append.mp he with he | he
        · exact hok.placed e he
        · exact (hadditions e ((hmem e).mp he).1).2
      · rw [hentries]
        refine List.nodup_append.mpr ⟨hok.nodup, hnodup, ?_⟩
        intro a ha b hb hab
        exact ((hmem b).mp hb).2 (hab ▸ ha)
      · intro p hp
        rcases List.mem_append.mp hp with hp | hp
        · exact hw.size p hp
        · rw [List.mem_singleton] at hp
          rw [hp, ← hw.data]
          exact hw.fits
    · intro h0
      have := hw.rollovers
      have hzero : state.rollovers = 0 := hroll ▸ h0
      simp only [List.length_append, List.length_singleton]
      omega

end Mnemion.Journal
