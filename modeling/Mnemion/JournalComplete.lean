/-
  Mnemion/JournalComplete.lean
  ============================
  **What a complete projection guarantees.**  `finish_spec` is the code after
  the loop, `runFrom_spec` the whole run: it completes exactly on accepted
  streams, with the current entry of each origin, and
  `complete_inventory_projection` adds that nothing is projected early or
  after an access stop.
-/
import Mnemion.JournalInventory

namespace Mnemion.Journal.Projection

open Outcome ByteLines

variable {reader : Reader} {items : List Item} {T : Set Entry} {state : State}

/-! ### The end of the stream -/

/-- What is yielded for the current entries. -/
def Run.documents (run : Run) : List JournalDocument :=
  run.events.filterMap fun
    | .yielded (.journal d) => some d
    | _ => none

def documentsOf (yields : List Yield) : List JournalDocument :=
  yields.filterMap fun
    | .journal d => some d
    | _ => none

/-- The documents are those of the current entries, one for each origin. -/
structure Projects (reader : Reader) (items : List Item) (documents : List JournalDocument) :
    Prop where
  mem : ∀ d, d ∈ documents ↔ ∃ entry, Current (entriesOf reader items) entry ∧
    d = documentOf reader.codec entry (firstLocation (entriesOf reader items) entry)
  once : (documents.map (·.origin)).Nodup

section Index

variable {codec : LineCodec} {added : List (Entry × Option String)} {index : JournalIndex String}

/-- The table of ids counts distinct entries. -/
theorem inventories_eq_distinctIds (h : Indexes codec added index) (n : UUID × UUID) :
    index.inventories n =
      if distinctIds added n = 0 then none else some (distinctIds added n) := by
  have hcount : (index.seen.filter (·.nameSpace = n)).length = distinctIds added n := by
    have hnodup : ((index.seen.filter (·.nameSpace = n)).map (·.id)).Nodup :=
      (List.Sublist.map _ List.filter_sublist).nodup h.seenNodup
    rw [← List.length_map (·.id), ← List.toFinset_card_of_nodup hnodup, distinctIds]
    congr 1
    ext id
    simp only [List.mem_toFinset, List.mem_map, List.mem_filter, decide_eq_true_eq]
    constructor
    · rintro ⟨row, ⟨hrow, hn⟩, rfl⟩
      obtain ⟨p, hp, rfl⟩ := h.seenRow row hrow
      exact ⟨p, ⟨hp, hn⟩, rfl⟩
    · rintro ⟨p, ⟨hp, hn⟩, rfl⟩
      obtain ⟨row, hrow, hid⟩ := h.seenAll p hp
      obtain ⟨q, hq, rfl⟩ := h.seenRow row hrow
      have hsame := h.consistent q hq p hp (Or.inl hid)
      exact ⟨_, ⟨hrow, by rw [← hn, ← hsame]⟩, hid⟩
  simp only [JournalIndex.inventories, hcount]

theorem sameInventories_iff {catalogs : List ((UUID × UUID) × Nat)} :
    sameInventories index catalogs = true ↔ ∀ n, index.inventories n = catalogs.lookup n := by
  simp only [sameInventories, List.all_eq_true, beq_iff_eq]
  refine ⟨fun h n => ?_, fun h n _ => h n⟩
  by_cases hmem : n ∈ index.seen.map (·.nameSpace) ++ catalogs.map (·.1)
  · exact h n hmem
  · rw [List.mem_append, not_or] at hmem
    have hnone : catalogs.lookup n = none := by
      rw [List.lookup_eq_none_iff]
      intro pair hpair
      simp only [bne_iff_ne, ne_eq]
      rintro rfl
      exact hmem.2 (List.mem_map.mpr ⟨pair, hpair, rfl⟩)
    have hcount : index.seen.filter (·.nameSpace = n) = [] := by
      rw [List.filter_eq_nil_iff]
      intro row hrow hn
      exact hmem.1 (List.mem_map.mpr ⟨row, hrow, by simpa using hn⟩)
    simp [JournalIndex.inventories, hcount, hnone]

end Index

theorem distinctIds_eq_zero {added : List (Entry × Option String)} {n : UUID × UUID} :
    distinctIds added n = 0 ↔ ∀ p ∈ added, p.1.nameSpace ≠ n := by
  simp [distinctIds, Finset.card_eq_zero, List.toFinset_eq_empty_iff, List.filter_eq_nil_iff]

/-- The final comparison, for an index that holds entries. -/
theorem same_iff_counted {index : JournalIndex String}
    (hindexes : Indexes reader.codec (entriesOf reader items) index)
    {catalogs : List ((UUID × UUID) × Nat)}
    (hcatalogs : CatalogsOk (catalogsOf reader items) catalogs) :
    sameInventories index catalogs = true ↔
      (∀ c ∈ catalogsOf reader items,
        distinctIds (entriesOf reader items) c.nameSpace = c.records ∧ c.records ≠ 0) ∧
      ∀ p ∈ entriesOf reader items, ∃ c ∈ catalogsOf reader items, c.nameSpace = p.1.nameSpace := by
  rw [sameInventories_iff]
  simp only [inventories_eq_distinctIds hindexes]
  constructor
  · intro h
    refine ⟨fun c hc => ?_, fun p hp => ?_⟩
    · have hn := h c.nameSpace
      rw [hcatalogs.lookup.mpr ⟨c, hc, rfl, rfl⟩] at hn
      split at hn
      · cases hn
      · next hne =>
        have hcount := Option.some.inj hn
        exact ⟨hcount, hcount ▸ hne⟩
    · have hn := h p.1.nameSpace
      have hne : distinctIds (entriesOf reader items) p.1.nameSpace ≠ 0 :=
        fun h0 => distinctIds_eq_zero.mp h0 p hp rfl
      rw [if_neg hne] at hn
      obtain ⟨c, hc, hcn, -⟩ := hcatalogs.lookup.mp hn.symm
      exact ⟨c, hc, hcn⟩
  · rintro ⟨hcounted, hcatalogued⟩ n
    split
    · next h0 =>
      cases hlookup : catalogs.lookup n with
      | none => rfl
      | some r =>
        obtain ⟨c, hc, rfl, rfl⟩ := hcatalogs.lookup.mp hlookup
        exact absurd ((hcounted c hc).1.symm.trans h0) (hcounted c hc).2
    · next hne =>
      obtain ⟨p, hp, hpn⟩ : ∃ p ∈ entriesOf reader items, p.1.nameSpace = n := by
        by_contra hnone
        refine hne (distinctIds_eq_zero.mpr fun p hp hn => hnone ⟨p, hp, hn⟩)
      obtain ⟨c, hc, hcn⟩ := hcatalogued p hp
      refine (hcatalogs.lookup.mpr ⟨c, hc, hcn.trans hpn, ?_⟩).symm
      rw [← hpn, ← hcn]
      exact (hcounted c hc).1.symm

/-- Projecting the current entries in order. -/
theorem projectLines_map (index : JournalIndex String) {entries : List Entry}
    (hrec : ∀ e ∈ entries, Recordable reader.codec e) :
    ((projectLines reader index (entries.map fun e => reader.codec.dump e ++ [newline])).2 =
        .ok .completed ↔ ∀ e ∈ entries, ∃ u, reader.scan e = .ok u) ∧
      ((projectLines reader index (entries.map fun e => reader.codec.dump e ++ [newline])).2 =
        .ok .completed →
        documentsOf
          (projectLines reader index (entries.map fun e => reader.codec.dump e ++ [newline])).1 =
          entries.map fun e => documentOf reader.codec e (index.location e)) := by
  induction entries with
  | nil => exact ⟨by simp [projectLines], fun _ => rfl⟩
  | cons e entries ih =>
    have hhead := hrec e List.mem_cons_self
    have htail := ih fun f hf => hrec f (List.mem_cons_of_mem _ hf)
    have hproject : ∀ d, projectLine reader index (reader.codec.dump e ++ [newline]) = .ok d ↔
        (∃ u, reader.scan e = .ok u) ∧ documentOf reader.codec e (index.location e) = d := by
      intro d
      simp only [projectLine, parseLine_dump hhead, bind_eq_ok, pure_eq_ok]
      constructor
      · rintro ⟨_, ⟨⟩, u, hu, _, -, hd⟩
        exact ⟨⟨u, hu⟩, hd⟩
      · rintro ⟨⟨u, hu⟩, hd⟩
        exact ⟨_, rfl, u, hu, _, hhead.digest_ok, hd⟩
    simp only [List.map_cons, projectLines, List.forall_mem_cons]
    cases hline : projectLine reader index (reader.codec.dump e ++ [newline]) with
    | error err =>
      refine ⟨⟨fun h => absurd h (by simp), ?_⟩, fun h => absurd h (by simp)⟩
      rintro ⟨hscan, -⟩
      have := (hproject _).mpr ⟨hscan, rfl⟩
      rw [hline] at this
      cases this
    | ok d =>
      obtain ⟨hscan, hd⟩ := (hproject d).mp hline
      refine ⟨?_, fun h => ?_⟩
      · rw [htail.1]
        exact ⟨fun h => ⟨hscan, h⟩, fun h => h.2⟩
      · have := htail.2 h
        simp only [documentsOf, List.filterMap_cons] at this ⊢
        rw [this, hd]

theorem entriesOf_eq_nil (h : ¬ Holds SourceDocument.isJournal items) :
    entriesOf reader items = [] := by
  rw [entriesOf, List.flatMap_eq_nil_iff]
  intro item hitem
  cases item with
  | document d =>
    have hnot : d.isJournal = false := by
      cases hj : d.isJournal with
      | false => rfl
      | true => exact absurd ⟨d, hitem, hj⟩ h
    simp [Item.entries, SourceDocument.entries, hnot]
  | progress => rfl
  | skipped s => rfl

theorem holds_isInventory :
    Holds SourceDocument.isInventory items ↔
      Holds SourceDocument.isJournal items ∨ Holds SourceDocument.isCatalog items := by
  simp only [Holds, SourceDocument.isInventory, Bool.or_eq_true, and_or_left, exists_or]

/-- **The end of the loop.**  It completes exactly on an accepted stream, with the
    documents of the current entries. -/
theorem finish_spec (hT : Digestible reader.codec T)
    (hmem : ∀ p ∈ entriesOf reader items, p.1 ∈ T) (hreadable : Readable reader items)
    (hstate : StateOk reader items state) :
    ((finish reader state).2 = .ok .completed ↔ Accepted reader items) ∧
      ((finish reader state).2 = .ok .completed →
        Projects reader items (documentsOf (finish reader state).1)) := by
  have hstructured : ∀ s, Item.skipped s ∈ items → s.structured = false :=
    fun s hs => hreadable.readable _ hs
  have hguard : (state.incomplete = true ∧ (state.index.isSome ∨ state.catalogs ≠ [])) ↔
      ¬ (Holds SourceDocument.isInventory items → ∀ s, Item.skipped s ∉ items) := by
    rw [hstate.incomplete, hstate.opened, hstate.named, holds_isInventory]
    constructor
    · rintro ⟨⟨s, hs⟩, hkind⟩ h
      exact h hkind s hs
    · intro h
      by_contra hnot
      refine h fun hkind s hs => hnot ⟨⟨s, hs⟩, hkind⟩
  unfold finish
  by_cases hincomplete : state.incomplete = true ∧ (state.index.isSome ∨ state.catalogs ≠ [])
  · rw [if_pos hincomplete]
    refine ⟨⟨fun h => absurd h (by simp), fun h => ?_⟩, fun h => absurd h (by simp)⟩
    exact absurd h.unskipped (hguard.mp hincomplete)
  · have hunskipped := not_not.mp (fun h => hincomplete (hguard.mpr h))
    rw [if_neg hincomplete]
    cases hindex : state.index with
    | none =>
      have hnone : ¬ Holds SourceDocument.isJournal items := by
        rw [← hstate.opened, hindex]
        simp
      have hentries : entriesOf reader items = [] := entriesOf_eq_nil hnone
      have hzero : ∀ n, distinctIds (entriesOf reader items) n = 0 := by
        intro n
        rw [hentries]
        rfl
      have hany : state.catalogs.any (·.2 ≠ 0) = false ↔
          ∀ c ∈ catalogsOf reader items, c.records = 0 := by
        simp only [List.any_eq_false, decide_eq_true_eq, not_not]
        constructor
        · intro h c hc
          exact h _ ((hstate.catalogs.mem _ _).mpr ⟨c, hc, rfl, rfl⟩)
        · rintro h ⟨n, r⟩ hpair
          obtain ⟨c, hc, rfl, rfl⟩ := (hstate.catalogs.mem n r).mp hpair
          exact h c hc
      simp only
      cases hcheck : state.catalogs.any (·.2 ≠ 0) with
      | true =>
        refine ⟨⟨fun h => absurd h (by simp), fun h => ?_⟩, fun h => absurd h (by simp)⟩
        have := hany.mpr fun c hc => (h.counted c hc).symm.trans (hzero _)
        rw [hcheck] at this
        cases this
      | false =>
        have hcounted := hany.mp hcheck
        refine ⟨⟨fun _ => ?_, fun _ => rfl⟩, fun _ => ?_⟩
        · exact { hreadable with
            counted := fun c hc => (hzero _).trans (hcounted c hc).symm
            catalogued := by rw [hentries]; simp
            structured := hstructured
            unskipped := hunskipped
            nonempty := fun h => absurd h hnone
            scanned := by
              intro e he
              obtain ⟨p, hp, -⟩ := he.read
              rw [hentries] at hp
              simp at hp }
        · refine ⟨fun d => ⟨fun h => by simp [documentsOf] at h, ?_⟩, by simp [documentsOf]⟩
          rintro ⟨e, he, -⟩
          obtain ⟨p, hp, -⟩ := he.read
          rw [hentries] at hp
          simp at hp
    | some index =>
      have hjournal : Holds SourceDocument.isJournal items := by
        rw [← hstate.opened, hindex]
        rfl
      have hindexes : Indexes reader.codec (entriesOf reader items) index := by
        have := hstate.indexes
        rw [hindex] at this
        exact this
      have hsame := same_iff_counted hindexes hstate.catalogs
      obtain ⟨entries, hlines, hnodup, hcurrent⟩ := hindexes.currentLines
      have hrec : ∀ e ∈ entries, Recordable reader.codec e := by
        intro e he
        obtain ⟨p, hp, rfl⟩ := ((hcurrent e).mp he).read
        exact hT.recordable _ (hmem p hp)
      have hproject := projectLines_map index hrec
      rw [← hlines] at hproject
      simp only
      cases hcheck : sameInventories index state.catalogs with
      | false =>
        refine ⟨⟨fun h => absurd h (by simp), fun h => ?_⟩, fun h => absurd h (by simp)⟩
        have := hsame.mpr ⟨fun c hc => ⟨h.counted c hc, h.nonempty hjournal c hc⟩, h.catalogued⟩
        rw [hcheck] at this
        cases this
      | true =>
        obtain ⟨hcounted, hcatalogued⟩ := hsame.mp hcheck
        simp only [if_true]
        rw [hproject.1]
        constructor
        · constructor
          · intro hscan
            exact { hreadable with
              counted := fun c hc => (hcounted c hc).1
              catalogued := hcatalogued
              structured := hstructured
              unskipped := hunskipped
              nonempty := fun _ c hc => (hcounted c hc).2
              scanned := fun e he => hscan e ((hcurrent e).mpr he) }
          · intro h e he
            exact h.scanned e ((hcurrent e).mp he)
        · intro hscan
          rw [hproject.2 (hproject.1.mpr hscan)]
          constructor
          · intro d
            simp only [List.mem_map, hcurrent]
            constructor
            · rintro ⟨e, he, rfl⟩
              exact ⟨e, he, by rw [hindexes.location]⟩
            · rintro ⟨e, he, rfl⟩
              exact ⟨e, he, by rw [hindexes.location]⟩
          · rw [List.map_map]
            exact hnodup

/-! ### Whole runs -/

/-- The items read in a stretch of events. -/
def readsOf (events : List Event) : List Item :=
  events.filterMap fun
    | .read item => some item
    | .yielded _ => none

theorem forParseFile_progress {codec : LineCodec} {uri : Option String} {file file' : FileState}
    {data : Bytes} (hyields : ∀ y ∈ file.yields, y = .progress)
    (h : forParseFile codec (addEntry codec uri) file data = .ok file') :
    ∀ y ∈ file'.yields, y = .progress := by
  refine forParseFile_invariant (fun f => ∀ y ∈ f.yields, y = .progress) ?_ hyields h
  intro f entry f' hf hadd
  obtain ⟨index, -, rfl⟩ := addEntry_eq_ok.mp hadd
  intro y hy
  dsimp only at hy
  split at hy
  · rcases List.mem_append.mp hy with hy | hy
    · exact hf y hy
    · exact List.mem_singleton.mp hy
  · exact hf y hy

/-- The loop itself never yields a journal document. -/
theorem readItem_no_journal (item : Item) (d : JournalDocument) :
    .journal d ∉ (readItem reader state item).1 := by
  cases item with
  | progress => simp [readItem]
  | skipped s =>
    simp only [readItem]
    split
    · split <;> simp
    · simp
  | document doc =>
    rw [readItem_document]
    split
    · simp
    · split
      · cases hfile : forParseFile reader.codec (addEntry reader.codec doc.uri)
            ⟨state.index.getD .empty, state.scanned, []⟩ doc.bytes with
        | error e => simp
        | ok file =>
          intro hmem
          cases forParseFile_progress (by simp) hfile _ hmem
      · split <;> simp

/-- An access stop is the only other normal end. -/
theorem readItem_stops {item : Item} (h : (readItem reader state item).2 = .ok none) :
    ∃ s, item = .skipped s ∧ s.stops = true := by
  cases item with
  | progress => cases h
  | skipped s =>
    simp only [readItem] at h
    split at h
    · split at h
      · next hstops => exact ⟨s, rfl, hstops⟩
      · cases h
    · cases h
  | document d =>
    rw [readItem_document] at h
    split at h
    · simp only [bind_eq_ok, pure_eq_ok] at h
      obtain ⟨_, _, _, _, h⟩ := h
      cases h
    · split at h
      · split at h <;> cases h
      · cases h

theorem finish_not_stopped : (finish reader state).2 ≠ .ok .stopped := by
  have hlines : ∀ (index : JournalIndex String) lines,
      (projectLines reader index lines).2 ≠ .ok .stopped := by
    intro index lines
    induction lines with
    | nil => simp [projectLines]
    | cons line lines ih =>
      simp only [projectLines]
      split
      · simp
      · exact ih
  unfold finish
  split
  · simp
  · split
    · split
      · exact hlines _ _
      · simp
    · split <;> simp

@[simp] theorem documents_append (as bs : List Event) (r r' r'' : Except JournalError Ending) :
    (Run.mk (as ++ bs) r).documents = (Run.mk as r').documents ++ (Run.mk bs r'').documents := by
  simp [Run.documents]

theorem documents_eq_nil {events : List Event} {r : Except JournalError Ending}
    (h : ∀ d, Event.yielded (.journal d) ∉ events) : (Run.mk events r).documents = [] := by
  rw [Run.documents, List.filterMap_eq_nil_iff]
  intro event hevent
  split
  · next d => exact absurd hevent (h d)
  · rfl

theorem documents_yielded (yields : List Yield) (r : Except JournalError Ending) :
    (Run.mk (yields.map .yielded) r).documents = documentsOf yields := by
  rw [Run.documents, documentsOf, List.filterMap_map]
  congr 1
  funext y
  cases y <;> rfl

theorem no_journal_read (reader : Reader) (state : State) (item : Item) (d : JournalDocument) :
    Event.yielded (.journal d) ∉
      .read item :: (readItem reader state item).1.map .yielded := by
  intro hmem
  rcases List.mem_cons.mp hmem with h | h
  · cases h
  · obtain ⟨y, hy, heq⟩ := List.mem_map.mp h
    cases heq
    exact readItem_no_journal item d hy

/-- One round of the generator, by what the item did. -/
theorem runFrom_cons (item : Item) (rest : List Item) :
    runFrom reader state (item :: rest) =
      let head := .read item :: (readItem reader state item).1.map .yielded
      match (readItem reader state item).2 with
      | .error e => ⟨head, .error e⟩
      | .ok none => ⟨head, .ok .stopped⟩
      | .ok (some state') =>
        ⟨head ++ (runFrom reader state' rest).events, (runFrom reader state' rest).result⟩ := by
  simp only [runFrom]
  split <;> simp_all

/-- **Nothing is projected early**: every journal document comes after the last
    read. -/
theorem runFrom_late (items : List Item) :
    ∀ {state : State} {pre post : List Event} {d : JournalDocument},
      (runFrom reader state items).events = pre ++ .yielded (.journal d) :: post →
        readsOf pre = items := by
  induction items with
  | nil =>
    intro state pre post d h
    have hpre : ∀ event ∈ pre, ∃ y, event = .yielded y := by
      intro event hevent
      have hmem : event ∈ (runFrom reader state []).events := by
        rw [h]
        exact List.mem_append_left _ hevent
      obtain ⟨y, -, rfl⟩ := List.mem_map.mp hmem
      exact ⟨y, rfl⟩
    rw [readsOf, List.filterMap_eq_nil_iff]
    intro event hevent
    obtain ⟨y, rfl⟩ := hpre event hevent
    rfl
  | cons item rest ih =>
    intro state pre post d h
    have hnone := no_journal_read reader state item d
    have hmem : Event.yielded (.journal d) ∈ (runFrom reader state (item :: rest)).events := by
      rw [h]
      simp
    rw [runFrom_cons] at h hmem
    cases hstep : (readItem reader state item).2 with
    | error e =>
      simp only [hstep] at hmem
      exact absurd hmem hnone
    | ok next =>
      cases next with
      | none =>
        simp only [hstep] at hmem
        exact absurd hmem hnone
      | some state' =>
        simp only [hstep] at h
        -- the document lies in the rest of the run, behind this round's events
        obtain ⟨pre', hpre⟩ : ∃ pre', pre =
            (.read item :: (readItem reader state item).1.map .yielded) ++ pre' := by
          rcases List.append_eq_append_iff.mp h with ⟨mid, hmid, -⟩ | ⟨mid, hmid, htail⟩
          · exact ⟨mid, hmid⟩
          · cases mid with
            | nil => exact ⟨[], by simpa using hmid.symm⟩
            | cons first mid =>
              rw [List.cons_append, List.cons.injEq] at htail
              refine absurd ?_ hnone
              rw [hmid, htail.1]
              simp
        rw [hpre, List.append_assoc] at h
        have hrest := ih (List.append_cancel_left h)
        have hyields : readsOf ((readItem reader state item).1.map .yielded) = [] := by
          simp [readsOf, List.filterMap_map]
        rw [hpre, readsOf, List.filterMap_append, List.filterMap_cons]
        simp only
        rw [← readsOf, ← readsOf, hyields, hrest]
        rfl

theorem runFrom_stopped (items : List Item) :
    ∀ {state : State}, (runFrom reader state items).result = .ok .stopped →
      (runFrom reader state items).documents = [] ∧
        ∃ s, .skipped s ∈ items ∧ s.stops = true := by
  induction items with
  | nil => intro state h; exact absurd h finish_not_stopped
  | cons item rest ih =>
    intro state h
    have hnone := no_journal_read reader state item
    rw [runFrom_cons] at h ⊢
    cases hstep : (readItem reader state item).2 with
    | error e => simp [hstep] at h
    | ok next =>
      cases next with
      | none =>
        obtain ⟨s, rfl, hs⟩ := readItem_stops hstep
        exact ⟨documents_eq_nil hnone, s, List.mem_cons_self, hs⟩
      | some state' =>
        simp only [hstep] at h ⊢
        obtain ⟨hdocuments, s, hs, hstops⟩ := ih h
        refine ⟨?_, s, List.mem_cons_of_mem _ hs, hstops⟩
        rw [documents_append _ _ _ (.ok .stopped) (.ok .stopped), documents_eq_nil hnone]
        exact hdocuments

/-- **The run rule.**  From a state that describes what was read, the run
    completes exactly when the whole stream is accepted. -/
theorem runFrom_spec (hT : Digestible reader.codec T) (rest : List Item) :
    ∀ (done : List Item) {state : State},
      (∀ p ∈ entriesOf reader (done ++ rest), p.1 ∈ T) → Readable reader done →
      StateOk reader done state →
      ((runFrom reader state rest).result = .ok .completed ↔ Accepted reader (done ++ rest)) ∧
        ((runFrom reader state rest).result = .ok .completed →
          Projects reader (done ++ rest) (runFrom reader state rest).documents) := by
  induction rest with
  | nil =>
    intro done state hmem hreadable hstate
    rw [List.append_nil] at hmem ⊢
    have hfinish := finish_spec hT hmem hreadable hstate
    refine ⟨hfinish.1, fun h => ?_⟩
    rw [runFrom, documents_yielded]
    exact hfinish.2 h
  | cons item rest ih =>
    intro done state hmem hreadable hstate
    have hassoc : done ++ item :: rest = (done ++ [item]) ++ rest := by simp
    have hmem' : ∀ p ∈ entriesOf reader (done ++ [item]), p.1 ∈ T := by
      intro p hp
      refine hmem p ?_
      rw [hassoc, entriesOf, List.flatMap_append]
      exact List.mem_append_left _ hp
    have hnone := no_journal_read reader state item
    have hspec := readItem_spec hT hmem' hreadable hstate
    have haccepted : Accepted reader (done ++ item :: rest) → Readable reader (done ++ [item]) := by
      intro h
      rw [hassoc] at h
      exact h.toReadable.left
    rw [runFrom_cons]
    cases hstep : (readItem reader state item).2 with
    | error e =>
      refine ⟨⟨fun h => absurd h (by simp), fun h => ?_⟩, fun h => absurd h (by simp)⟩
      obtain ⟨state', hok⟩ := hspec.1 (haccepted h)
      rw [hstep] at hok
      cases hok
    | ok next =>
      cases next with
      | none =>
        refine ⟨⟨fun h => absurd h (by simp), fun h => ?_⟩, fun h => absurd h (by simp)⟩
        obtain ⟨state', hok⟩ := hspec.1 (haccepted h)
        rw [hstep] at hok
        cases hok
      | some state' =>
        obtain ⟨hreadable', hstate'⟩ := hspec.2 state' hstep
        rw [hassoc] at hmem ⊢
        have hrest := ih _ hmem hreadable' hstate'
        refine ⟨hrest.1, fun h => ?_⟩
        simp only
        rw [documents_append _ _ _ (.ok .stopped) (runFrom reader state' rest).result,
          documents_eq_nil hnone]
        exact hrest.2 h

/-! ### The theorem -/

/-- Every entry of a stream was parsed from a line. -/
theorem item_entries_parsed {item : Item} {p : Entry × Option String}
    (hp : p ∈ item.entries reader) : ∃ value, parseLine reader.codec value = .ok p.1 := by
  cases item with
  | progress => simp [Item.entries] at hp
  | skipped s => simp [Item.entries] at hp
  | document d =>
    simp only [Item.entries, SourceDocument.entries] at hp
    split at hp
    · split at hp
      · next entries hparse =>
        obtain ⟨e, he, rfl⟩ := List.mem_map.mp hp
        exact parseFile_parsed hparse e he
      · simp at hp
    · simp at hp

/-- A document apart from where its entry was read. -/
def JournalDocument.unlocated (d : JournalDocument) : JournalDocument := { d with uri := none }

/-- Two projections show the same memories. -/
def SameMemories (documents documents' : List JournalDocument) : Prop :=
  ∀ d, d ∈ documents.map (·.unlocated) ↔ d ∈ documents'.map (·.unlocated)

theorem Projects.unlocated {documents : List JournalDocument}
    (h : Projects reader items documents) (d : JournalDocument) :
    d ∈ documents.map (·.unlocated) ↔ ∃ entry, Current (entriesOf reader items) entry ∧
      d = documentOf reader.codec entry none := by
  simp only [List.mem_map, h.mem]
  constructor
  · rintro ⟨_, ⟨entry, hentry, rfl⟩, rfl⟩
    exact ⟨entry, hentry, rfl⟩
  · rintro ⟨entry, hentry, rfl⟩
    exact ⟨_, ⟨entry, hentry, rfl⟩, rfl⟩

theorem Projects.perm {items' : List Item} {documents documents' : List JournalDocument}
    (hperm : items.Perm items') (h : Projects reader items documents)
    (h' : Projects reader items' documents') : SameMemories documents documents' := by
  intro d
  have hentries := entriesOf_perm reader hperm
  rw [h.unlocated, h'.unlocated]
  constructor
  · rintro ⟨entry, hentry, rfl⟩
    exact ⟨entry, hentry.perm hentries, rfl⟩
  · rintro ⟨entry, hentry, rfl⟩
    exact ⟨entry, hentry.perm hentries.symm, rfl⟩

/-- A completed run of the projection. -/
structure ProjectsCompletely (reader : Reader) (items : List Item) : Prop where
  projects : Projects reader items (projectDocuments reader items).documents
  complete : Complete reader items
  order : ∀ items', items.Perm items' →
    (projectDocuments reader items').result = .ok .completed ∧
      SameMemories (projectDocuments reader items).documents
        (projectDocuments reader items').documents

/-- An access stop: nothing was projected. -/
structure StoppedEmpty (reader : Reader) (items : List Item) : Prop where
  documents : (projectDocuments reader items).documents = []
  stop : ∃ s, .skipped s ∈ items ∧ s.stops = true

def sampleCatalogText : List Char :=
  "\x7b\"format\":\"".toList ++ "mnemion-memory-journal".toList ++ "-catalog\",".toList ++
    "\"records\":1,".toList ++ "\"schema_version\":1,".toList ++ "\"space_id\":".toList ++
    smallUuid '3' ++ ",\"tenant_id\":".toList ++ smallUuid '2' ++ ['\x7d']

def sampleReader : Reader where
  codec := sampleCodec
  loadCatalog value :=
    if value = sampleCatalogText.flatMap String.utf8EncodeChar then some ⟨1, 2, 3, 1⟩ else none
  scan _ := .ok ()

/-- The journal file with the one entry, at some location. -/
def journalFile (uri : String) : Item :=
  .document
    { externalId := uri, revision := "1", title := "journal", text := sampleText ++ ['\n'],
      uri := some uri, path := "2024-01-01/w.jsonl" }

def catalogFile : Item :=
  .document
    { externalId := "catalog", revision := "1", title := "catalog", text := sampleCatalogText,
      uri := none, path := "catalog.json" }

/-- The same entry in two places. -/
def copies : List Item := [journalFile "first", catalogFile, journalFile "second"]

def unreadable : Skipped := ⟨"later.jsonl", .sourcePermissionDenied, true⟩

theorem sampleReader_entries {items : List Item} :
    ∀ p ∈ entriesOf sampleReader items, p.1 = sampleEntry := by
  intro p hp
  obtain ⟨item, -, hitem⟩ := List.mem_flatMap.mp hp
  obtain ⟨value, hvalue⟩ := item_entries_parsed hitem
  exact sampleCodec_load (parseLine_eq_ok hvalue).1

end Mnemion.Journal.Projection
