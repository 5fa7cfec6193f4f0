/-
  Mnemion/JournalInventory.lean
  =============================
  **Reading an inventory** (`connectors/journal_projection.py`, the loop).
  `Accepted` says of a stream of documents, without any order, when
  `project_documents` runs to its end; `StateOk` is what the generator's
  variables say about the items read so far, and `readItem_spec` is the loop's
  step: an item is passed exactly when the stream stays readable with it.
-/
import Mathlib.Algebra.GroupWithZero.Nat
import Mnemion.JournalProjection
import Mathlib.Data.Finset.Card
import Mathlib.Data.Finset.Dedup
import Mathlib.Algebra.BigOperators.Group.List.Basic

namespace Mnemion.Journal.Projection

open Outcome ByteLines

/-! ### What a stream holds -/

/-- The entries of a document, each at the document's location. -/
def SourceDocument.entries (reader : Reader) (d : SourceDocument) :
    List (Entry × Option String) :=
  if d.isJournal then
    match parseFile reader.codec d.bytes with
    | .ok entries => entries.map fun entry => (entry, d.uri)
    | .error _ => []
  else []

def SourceDocument.catalogs (reader : Reader) (d : SourceDocument) : List Catalog :=
  if d.isCatalog then
    match parseCatalog reader d.bytes with
    | .ok catalog => [catalog]
    | .error _ => []
  else []

def Item.entries (reader : Reader) : Item → List (Entry × Option String)
  | .document d => d.entries reader
  | _ => []

def Item.catalogs (reader : Reader) : Item → List Catalog
  | .document d => d.catalogs reader
  | _ => []

def entriesOf (reader : Reader) (items : List Item) : List (Entry × Option String) :=
  items.flatMap (Item.entries reader)

def catalogsOf (reader : Reader) (items : List Item) : List Catalog :=
  items.flatMap (Item.catalogs reader)

/-- The number of distinct entry ids read for a namespace. -/
def distinctIds (added : List (Entry × Option String)) (nameSpace : UUID × UUID) : Nat :=
  ((added.filter (·.1.nameSpace = nameSpace)).map (·.1.id)).toFinset.card

/-! ### Which streams are accepted -/

/-- What the loop asks of one item. -/
def Item.Readable (reader : Reader) : Item → Prop
  | .progress => True
  | .skipped s => s.structured = false
  | .document d =>
    (d.isJournal → ∃ entries, parseFile reader.codec d.bytes = .ok entries) ∧
      (d.isCatalog → ∃ catalog, parseCatalog reader d.bytes = .ok catalog)

/-- Entries one index can hold. -/
structure Fits (codec : LineCodec) (added : List (Entry × Option String)) : Prop where
  records : added.length ≤ 1000000
  bytes : (added.map fun p => (codec.dump p.1 ++ [newline]).length).sum ≤ 2 * 1024 ^ 3
  identities : ∀ p ∈ added, ∀ q ∈ added, SameIdentity p.1 q.1 → p.1 = q.1

/-- Catalogs that do not contradict each other. -/
structure Agreeing (catalogs : List Catalog) : Prop where
  agree : ∀ a ∈ catalogs, ∀ b ∈ catalogs, a.nameSpace = b.nameSpace → a.records = b.records
  nameSpaces : (catalogs.map Catalog.nameSpace).toFinset.card ≤ 1000

/-- What the loop asks of the items read so far. -/
structure Readable (reader : Reader) (items : List Item) : Prop where
  readable : ∀ item ∈ items, item.Readable reader
  fits : Fits reader.codec (entriesOf reader items)
  agreeing : Agreeing (catalogsOf reader items)

/-- The stream has a document of this kind. -/
def Holds (kind : SourceDocument → Bool) (items : List Item) : Prop :=
  ∃ d, .document d ∈ items ∧ kind d = true

/-- A journal or catalog file. -/
def SourceDocument.isInventory (d : SourceDocument) : Bool := d.isJournal || d.isCatalog

/-- **The inventory is complete**: every namespace has exactly the records its
    catalog counts, and next to a journal no file was skipped. -/
structure Complete (reader : Reader) (items : List Item) : Prop where
  counted : ∀ catalog ∈ catalogsOf reader items,
    distinctIds (entriesOf reader items) catalog.nameSpace = catalog.records
  catalogued : ∀ p ∈ entriesOf reader items,
    ∃ catalog ∈ catalogsOf reader items, catalog.nameSpace = p.1.nameSpace
  structured : ∀ s, .skipped s ∈ items → s.structured = false
  unskipped : Holds SourceDocument.isInventory items → ∀ s, .skipped s ∉ items

/-- Everything the generator checks before it ends, in no order. -/
structure Accepted (reader : Reader) (items : List Item) : Prop extends
    Readable reader items, Complete reader items where
  nonempty : Holds SourceDocument.isJournal items →
    ∀ catalog ∈ catalogsOf reader items, catalog.records ≠ 0
  scanned : ∀ entry, Current (entriesOf reader items) entry → ∃ u, reader.scan entry = .ok u

variable {reader : Reader} {items items' : List Item}

section Permutation

variable (reader : Reader) (h : items.Perm items')

include h

theorem entriesOf_perm : (entriesOf reader items).Perm (entriesOf reader items') :=
  h.flatMap_right _

theorem catalogsOf_perm : (catalogsOf reader items).Perm (catalogsOf reader items') :=
  h.flatMap_right _

end Permutation

theorem Fits.perm {codec : LineCodec} {added added' : List (Entry × Option String)}
    (h : added.Perm added') (hfits : Fits codec added) : Fits codec added' where
  records := h.length_eq ▸ hfits.records
  bytes := by
    rw [← (h.map fun p => (codec.dump p.1 ++ [newline]).length).sum_eq]
    exact hfits.bytes
  identities := fun p hp q hq =>
    hfits.identities p (h.mem_iff.mpr hp) q (h.mem_iff.mpr hq)

theorem Agreeing.perm {catalogs catalogs' : List Catalog} (h : catalogs.Perm catalogs')
    (hagree : Agreeing catalogs) : Agreeing catalogs' where
  agree := fun a ha b hb => hagree.agree a (h.mem_iff.mpr ha) b (h.mem_iff.mpr hb)
  nameSpaces := by
    rw [← List.toFinset_eq_of_perm _ _ (h.map Catalog.nameSpace)]
    exact hagree.nameSpaces

theorem distinctIds_perm {added added' : List (Entry × Option String)} (h : added.Perm added')
    (nameSpace : UUID × UUID) : distinctIds added nameSpace = distinctIds added' nameSpace := by
  unfold distinctIds
  rw [List.toFinset_eq_of_perm _ _ ((h.filter _).map _)]

/-- **Acceptance does not depend on the order of the stream.** -/
theorem Accepted.perm (h : items.Perm items') (haccepted : Accepted reader items) :
    Accepted reader items' := by
  have hentries := entriesOf_perm reader h
  have hcatalogs := catalogsOf_perm reader h
  refine
    { readable := fun item hitem => haccepted.readable item (h.mem_iff.mpr hitem)
      fits := haccepted.fits.perm hentries
      agreeing := haccepted.agreeing.perm hcatalogs
      counted := ?_
      catalogued := ?_
      structured := fun s hs => haccepted.structured s (h.mem_iff.mpr hs)
      unskipped := ?_
      nonempty := ?_
      scanned := fun entry hentry => haccepted.scanned entry (hentry.perm hentries.symm) }
  · intro catalog hcatalog
    rw [← distinctIds_perm hentries]
    exact haccepted.counted catalog (hcatalogs.mem_iff.mpr hcatalog)
  · intro p hp
    obtain ⟨catalog, hcatalog, heq⟩ := haccepted.catalogued p (hentries.mem_iff.mpr hp)
    exact ⟨catalog, hcatalogs.mem_iff.mp hcatalog, heq⟩
  · rintro ⟨d, hd, hkind⟩ s hs
    exact haccepted.unskipped ⟨d, h.mem_iff.mpr hd, hkind⟩ s (h.mem_iff.mpr hs)
  · rintro ⟨d, hd, hkind⟩ catalog hcatalog
    exact haccepted.nonempty ⟨d, h.mem_iff.mpr hd, hkind⟩ catalog (hcatalogs.mem_iff.mpr hcatalog)

/-! ### One more item -/

@[simp] theorem entriesOf_concat (done : List Item) (item : Item) :
    entriesOf reader (done ++ [item]) = entriesOf reader done ++ item.entries reader := by
  simp [entriesOf]

@[simp] theorem catalogsOf_concat (done : List Item) (item : Item) :
    catalogsOf reader (done ++ [item]) = catalogsOf reader done ++ item.catalogs reader := by
  simp [catalogsOf]

theorem holds_concat {kind : SourceDocument → Bool} {done : List Item} {item : Item} :
    Holds kind (done ++ [item]) ↔
      Holds kind done ∨ ∃ d, item = .document d ∧ kind d = true := by
  simp only [Holds, List.mem_append, List.mem_singleton, or_and_right, exists_or]
  constructor
  · rintro (h | ⟨d, hd, hk⟩)
    · exact Or.inl h
    · exact Or.inr ⟨d, hd.symm, hk⟩
  · rintro (h | ⟨d, hd, hk⟩)
    · exact Or.inl h
    · exact Or.inr ⟨d, hd.symm, hk⟩

theorem readable_concat {done : List Item} {item : Item} (hdone : Readable reader done) :
    Readable reader (done ++ [item]) ↔
      item.Readable reader ∧
        Fits reader.codec (entriesOf reader done ++ item.entries reader) ∧
          Agreeing (catalogsOf reader done ++ item.catalogs reader) := by
  constructor
  · intro h
    have hfits := h.fits
    have hagreeing := h.agreeing
    rw [entriesOf_concat] at hfits
    rw [catalogsOf_concat] at hagreeing
    exact ⟨h.readable item (by simp), hfits, hagreeing⟩
  · rintro ⟨hitem, hfits, hagreeing⟩
    refine ⟨?_, by rw [entriesOf_concat]; exact hfits, by rw [catalogsOf_concat]; exact hagreeing⟩
    intro i hi
    rcases List.mem_append.mp hi with hi | hi
    · exact hdone.readable i hi
    · rw [List.mem_singleton] at hi
      exact hi ▸ hitem

theorem Agreeing.left {as bs : List Catalog} (h : Agreeing (as ++ bs)) : Agreeing as where
  agree := fun a ha b hb => h.agree a (List.mem_append_left _ ha) b (List.mem_append_left _ hb)
  nameSpaces := by
    refine Nat.le_trans (Finset.card_le_card ?_) h.nameSpaces
    intro n hn
    simp only [List.map_append, List.toFinset_append, Finset.mem_union]
    exact Or.inl hn

section Adding

variable {codec : LineCodec} {T : Set Entry} {added rest : List (Entry × Option String)}
  {entry : Entry} {uri : Option String}

theorem Fits.left (h : Fits codec (added ++ rest)) : Fits codec added where
  records := by
    have := h.records
    rw [List.length_append] at this
    omega
  bytes := by
    have := h.bytes
    rw [List.map_append, List.sum_append] at this
    omega
  identities := fun p hp q hq =>
    h.identities p (List.mem_append_left _ hp) q (List.mem_append_left _ hq)

theorem Fits.addable (h : Fits codec (added ++ [(entry, uri)])) : Addable codec added entry where
  records := by simpa using h.records
  bytes := by simpa using h.bytes
  identity := fun p hp => h.identities p (List.mem_append_left _ hp) (entry, uri) (by simp)

theorem Fits.concat (h : Fits codec added) (hadd : Addable codec added entry) :
    Fits codec (added ++ [(entry, uri)]) where
  records := by simpa using hadd.records
  bytes := by simpa using hadd.bytes
  identities := by
    intro p hp q hq hsame
    rcases List.mem_append.mp hp with hp | hp <;> rcases List.mem_append.mp hq with hq | hq
    · exact h.identities p hp q hq hsame
    · rw [List.mem_singleton] at hq
      subst hq
      exact hadd.identity p hp hsame
    · rw [List.mem_singleton] at hp
      subst hp
      exact (hadd.identity q hq (hsame.imp Eq.symm fun h => ⟨h.1.symm, h.2.symm⟩)).symm
    · rw [List.mem_singleton] at hp hq
      rw [hp, hq]

theorem Readable.left {items items' : List Item} (h : Readable reader (items ++ items')) :
    Readable reader items where
  readable := fun item hitem => h.readable item (List.mem_append_left _ hitem)
  fits := by
    have := h.fits
    rw [entriesOf, List.flatMap_append] at this
    exact this.left
  agreeing := by
    have := h.agreeing
    rw [catalogsOf, List.flatMap_append] at this
    exact this.left

theorem addEntry_eq_ok {file file' : FileState} :
    addEntry codec uri file entry = .ok file' ↔
      ∃ index, file.index.add codec entry uri = .ok index ∧
        file' = ⟨index, file.scanned + 1, if (file.scanned + 1) % 100 = 0 then
          file.yields ++ [.progress] else file.yields⟩ := by
  simp only [addEntry, bind_eq_ok, pure_eq_ok]
  constructor
  · rintro ⟨index, hadd, rfl⟩; exact ⟨index, hadd, rfl⟩
  · rintro ⟨index, hadd, rfl⟩; exact ⟨index, hadd, rfl⟩

/-- **One journal file.**  Its entries are all added exactly when they fit next to
    those before them. -/
theorem foldlM_addEntry (hT : Digestible codec T) {entries : List Entry} :
    ∀ (added : List (Entry × Option String)) (file : FileState), (∀ p ∈ added, p.1 ∈ T) →
      (∀ e ∈ entries, e ∈ T) → Fits codec added → Indexes codec added file.index →
      (Fits codec (added ++ entries.map (·, uri)) →
        ∃ file', entries.foldlM (addEntry codec uri) file = .ok file') ∧
      ∀ file', entries.foldlM (addEntry codec uri) file = .ok file' →
        Fits codec (added ++ entries.map (·, uri)) ∧
          Indexes codec (added ++ entries.map (·, uri)) file'.index := by
  induction entries with
  | nil =>
    intro added file _ _ hfits hindexes
    refine ⟨fun _ => ⟨file, rfl⟩, fun file' h => ?_⟩
    cases pure_eq_ok.mp h
    simpa using ⟨hfits, hindexes⟩
  | cons entry entries ih =>
    intro added file hadded hentries hfits hindexes
    have hstep := Indexes.add uri hT hadded (hentries entry List.mem_cons_self) hindexes
    have hadded' : ∀ p ∈ added ++ [(entry, uri)], p.1 ∈ T := by
      intro p hp
      rcases List.mem_append.mp hp with hp | hp
      · exact hadded p hp
      · rw [List.mem_singleton] at hp
        exact hp ▸ hentries entry List.mem_cons_self
    have hsplit : added ++ (entry :: entries).map (·, uri) =
        (added ++ [(entry, uri)]) ++ entries.map (·, uri) := by simp
    rw [hsplit]
    constructor
    · intro hall
      obtain ⟨index', hadd⟩ := hstep.1 hall.left.addable
      obtain ⟨hadd', hindexes'⟩ := hstep.2 index' hadd
      obtain ⟨file', hrest⟩ := (ih _ ⟨index', file.scanned + 1, _⟩ hadded'
        (fun e he => hentries e (List.mem_cons_of_mem _ he)) (hfits.concat hadd') hindexes').1 hall
      refine ⟨file', ?_⟩
      rw [List.foldlM_cons, bind_eq_ok]
      exact ⟨_, addEntry_eq_ok.mpr ⟨index', hadd, rfl⟩, hrest⟩
    · intro file' h
      rw [List.foldlM_cons, bind_eq_ok] at h
      obtain ⟨file₁, h₁, hrest⟩ := h
      obtain ⟨index', hadd, rfl⟩ := addEntry_eq_ok.mp h₁
      obtain ⟨hadd', hindexes'⟩ := hstep.2 index' hadd
      exact (ih _ _ hadded' (fun e he => hentries e (List.mem_cons_of_mem _ he))
        (hfits.concat hadd') hindexes').2 file' hrest

end Adding

/-! ### Catalogs -/

/-- The dictionary of catalogs after some catalogs were read. -/
structure CatalogsOk (read : List Catalog) (catalogs : List ((UUID × UUID) × Nat)) : Prop where
  mem : ∀ n r, (n, r) ∈ catalogs ↔ ∃ c ∈ read, c.nameSpace = n ∧ c.records = r
  keys : (catalogs.map (·.1)).Nodup

theorem CatalogsOk.lookup {read : List Catalog} {catalogs : List ((UUID × UUID) × Nat)}
    (h : CatalogsOk read catalogs) {n : UUID × UUID} {r : Nat} :
    catalogs.lookup n = some r ↔ ∃ c ∈ read, c.nameSpace = n ∧ c.records = r := by
  rw [← h.mem]
  have hkeys := h.keys
  clear h
  induction catalogs with
  | nil => simp
  | cons pair rest ih =>
    obtain ⟨k, v⟩ := pair
    simp only [List.map_cons, List.nodup_cons] at hkeys
    simp only [List.lookup_cons, List.mem_cons, Prod.mk.injEq]
    by_cases hk : n = k
    · subst hk
      have hnot : (n, r) ∉ rest := fun hmem => hkeys.1 (List.mem_map.mpr ⟨_, hmem, rfl⟩)
      simp [hnot, eq_comm]
    · have hbeq : (n == k) = false := by simpa using hk
      simp [hbeq, hk, ih hkeys.2]

theorem CatalogsOk.length {read : List Catalog} {catalogs : List ((UUID × UUID) × Nat)}
    (h : CatalogsOk read catalogs) :
    catalogs.length = (read.map Catalog.nameSpace).toFinset.card := by
  rw [← List.length_map (·.1), ← List.toFinset_card_of_nodup h.keys]
  congr 1
  ext n
  simp only [List.mem_toFinset, List.mem_map]
  constructor
  · rintro ⟨⟨k, r⟩, hmem, rfl⟩
    obtain ⟨c, hc, hn, -⟩ := (h.mem k r).mp hmem
    exact ⟨c, hc, hn⟩
  · rintro ⟨c, hc, rfl⟩
    exact ⟨_, (h.mem _ _).mpr ⟨c, hc, rfl, rfl⟩, rfl⟩

theorem agreeing_concat {read : List Catalog} {catalog : Catalog} (h : Agreeing read) :
    Agreeing (read ++ [catalog]) ↔
      (∀ c ∈ read, c.nameSpace = catalog.nameSpace → c.records = catalog.records) ∧
        ((read ++ [catalog]).map Catalog.nameSpace).toFinset.card ≤ 1000 := by
  constructor
  · intro hnew
    exact ⟨fun c hc hn => hnew.agree c (List.mem_append_left _ hc) catalog (by simp) hn,
      hnew.nameSpaces⟩
  · rintro ⟨hagree, hcard⟩
    refine ⟨?_, hcard⟩
    intro a ha b hb hab
    rw [List.mem_append, List.mem_singleton] at ha hb
    rcases ha with ha | rfl <;> rcases hb with hb | rfl
    · exact h.agree a ha b hb hab
    · exact hagree a ha hab
    · exact (hagree b hb hab.symm).symm
    · rfl

/-- **One catalog.**  It is taken exactly when it agrees with those before it. -/
theorem addCatalog_spec {read : List Catalog} {catalogs : List ((UUID × UUID) × Nat)}
    (h : CatalogsOk read catalogs) (hagreeing : Agreeing read) (catalog : Catalog) :
    (Agreeing (read ++ [catalog]) → ∃ catalogs', addCatalog catalogs catalog = .ok catalogs') ∧
      ∀ catalogs', addCatalog catalogs catalog = .ok catalogs' →
        Agreeing (read ++ [catalog]) ∧ CatalogsOk (read ++ [catalog]) catalogs' := by
  cases hlookup : catalogs.lookup catalog.nameSpace with
  | some records =>
    obtain ⟨c, hc, hn, hr⟩ := h.lookup.mp hlookup
    have hok : records = catalog.records → CatalogsOk (read ++ [catalog]) catalogs := by
      intro heq
      refine ⟨fun n r => ?_, h.keys⟩
      rw [h.mem]
      constructor
      · rintro ⟨d, hd, hdn, hdr⟩
        exact ⟨d, List.mem_append_left _ hd, hdn, hdr⟩
      · rintro ⟨d, hd, hdn, hdr⟩
        rcases List.mem_append.mp hd with hd | hd
        · exact ⟨d, hd, hdn, hdr⟩
        · rw [List.mem_singleton] at hd
          subst hd
          exact ⟨c, hc, hn.trans hdn, hr.trans (heq.trans hdr)⟩
    simp only [addCatalog, hlookup, bind_eq_ok, check_eq_ok, pure_eq_ok]
    constructor
    · intro hnew
      have hrecords := ((agreeing_concat hagreeing).mp hnew).1 c hc hn
      have hlength := (hok (hr.symm.trans hrecords)).length
      exact ⟨catalogs, (), hr.symm.trans hrecords, (), by rw [hlength]; exact hnew.nameSpaces, rfl⟩
    · rintro catalogs' ⟨_, heq, _, hlength, rfl⟩
      refine ⟨(agreeing_concat hagreeing).mpr ⟨?_, by rw [← (hok heq).length]; exact hlength⟩,
        hok heq⟩
      intro d hd hdn
      exact (hagreeing.agree d hd c hc (hdn.trans hn.symm)).trans (hr.trans heq)
  | none =>
    have hnew : ∀ c ∈ read, c.nameSpace ≠ catalog.nameSpace := by
      intro c hc hn
      have := h.lookup.mpr ⟨c, hc, hn, rfl⟩
      rw [hlookup] at this
      cases this
    have hok : CatalogsOk (read ++ [catalog])
        (catalogs ++ [(catalog.nameSpace, catalog.records)]) := by
      constructor
      · intro n r
        simp only [List.mem_append, List.mem_singleton, h.mem, Prod.mk.injEq, or_and_right,
          exists_or, exists_eq_left]
        simp only [eq_comm]
      · rw [List.map_append, List.nodup_append]
        refine ⟨h.keys, List.nodup_singleton _, ?_⟩
        intro a ha b hb hab
        obtain ⟨⟨n, r⟩, hmem, rfl⟩ := List.mem_map.mp ha
        obtain ⟨c, hc, hn, -⟩ := (h.mem n r).mp hmem
        simp only [List.map_cons, List.map_nil, List.mem_singleton] at hb
        exact hnew c hc (hn.trans (hab.trans hb))
    simp only [addCatalog, hlookup, bind_eq_ok, check_eq_ok, pure_eq_ok]
    constructor
    · intro hagree
      exact ⟨_, (), by rw [hok.length]; exact hagree.nameSpaces, rfl⟩
    · rintro catalogs' ⟨_, hlength, rfl⟩
      refine ⟨(agreeing_concat hagreeing).mpr ⟨?_, by rw [← hok.length]; exact hlength⟩, hok⟩
      intro c hc hn
      exact absurd hn (hnew c hc)

/-! ### The loop's invariant -/

/-- The state after the items of `done`. -/
structure StateOk (reader : Reader) (done : List Item) (state : State) : Prop where
  opened : state.index.isSome = true ↔ Holds SourceDocument.isJournal done
  indexes : Indexes reader.codec (entriesOf reader done) (state.index.getD .empty)
  catalogs : CatalogsOk (catalogsOf reader done) state.catalogs
  named : state.catalogs ≠ [] ↔ Holds SourceDocument.isCatalog done
  incomplete : state.incomplete = true ↔ ∃ s, .skipped s ∈ done

theorem stateOk_start : StateOk reader [] .start where
  opened := by simp [State.start, Holds]
  indexes := indexes_empty
  catalogs := ⟨by simp [State.start, catalogsOf], by simp [State.start]⟩
  named := by simp [State.start, Holds]
  incomplete := by simp [State.start]

theorem readable_nil : Readable reader [] where
  readable := by simp
  fits := ⟨by simp [entriesOf], by simp [entriesOf], by simp [entriesOf]⟩
  agreeing := ⟨by simp [catalogsOf], by simp [catalogsOf]⟩

variable {T : Set Entry} {done : List Item} {state : State}

theorem isJournal_not_isCatalog {d : SourceDocument} (h : d.isJournal = true) :
    d.isCatalog = false := by
  unfold SourceDocument.isJournal at h
  unfold SourceDocument.isCatalog
  simp_all

/-- What the loop does with a document, by its kind. -/
theorem readItem_document (d : SourceDocument) :
    readItem reader state (.document d) =
      if d.isCatalog then ([], do
        let catalog ← parseCatalog reader d.bytes
        let catalogs ← addCatalog state.catalogs catalog
        return some { state with catalogs := catalogs })
      else if d.isJournal then
        match forParseFile reader.codec (addEntry reader.codec d.uri)
            ⟨state.index.getD .empty, state.scanned, []⟩ d.bytes with
        | .error e => ([], .error e)
        | .ok file => (file.yields, .ok (some
            { state with index := some file.index, scanned := file.scanned }))
      else (if noteCandidate d.path d.text then [] else [.document d], .ok (some state)) := by
  by_cases hnote : noteCandidate d.path d.text = true
  · simp [readItem, SourceDocument.isCatalog, SourceDocument.isJournal, hnote]
  · by_cases hcatalog : catalogCandidate d.path d.text = true
    · simp [readItem, SourceDocument.isCatalog, hnote, hcatalog]
    · simp only [readItem, SourceDocument.isCatalog, SourceDocument.isJournal, hnote, hcatalog]
      rfl

/-- A document that is neither, and a progress marker, leave the state alone. -/
theorem StateOk.other (h : StateOk reader done state) (item : Item)
    (hjournal : ∀ d, item = .document d → d.isJournal = false)
    (hcatalog : ∀ d, item = .document d → d.isCatalog = false)
    (hskipped : ∀ s, item ≠ .skipped s) :
    item.entries reader = [] ∧ item.catalogs reader = [] ∧
      StateOk reader (done ++ [item]) state := by
  have hentries : item.entries reader = [] := by
    cases item with
    | document d => simp [Item.entries, SourceDocument.entries, hjournal d rfl]
    | progress => rfl
    | skipped s => rfl
  have hcatalogs : item.catalogs reader = [] := by
    cases item with
    | document d => simp [Item.catalogs, SourceDocument.catalogs, hcatalog d rfl]
    | progress => rfl
    | skipped s => rfl
  refine ⟨hentries, hcatalogs, ?_, ?_, ?_, ?_, ?_⟩
  · rw [h.opened, holds_concat]
    refine ⟨Or.inl, fun hor => hor.resolve_right ?_⟩
    rintro ⟨d, hd, hk⟩
    simp [hjournal d hd] at hk
  · rw [entriesOf_concat, hentries, List.append_nil]
    exact h.indexes
  · rw [catalogsOf_concat, hcatalogs, List.append_nil]
    exact h.catalogs
  · rw [h.named, holds_concat]
    refine ⟨Or.inl, fun hor => hor.resolve_right ?_⟩
    rintro ⟨d, hd, hk⟩
    simp [hcatalog d hd] at hk
  · rw [h.incomplete]
    constructor
    · rintro ⟨s, hs⟩
      exact ⟨s, List.mem_append_left _ hs⟩
    · rintro ⟨s, hs⟩
      rcases List.mem_append.mp hs with hs | hs
      · exact ⟨s, hs⟩
      · exact absurd (List.mem_singleton.mp hs).symm (hskipped s)

/-- A skipped file that could not have held a denial. -/
theorem StateOk.skip (h : StateOk reader done state) (s : Skipped) :
    StateOk reader (done ++ [.skipped s]) { state with incomplete := true } where
  opened := by rw [h.opened, holds_concat]; simp
  indexes := by simpa [Item.entries] using h.indexes
  catalogs := by simpa [Item.catalogs] using h.catalogs
  named := by rw [h.named, holds_concat]; simp
  incomplete := ⟨fun _ => ⟨s, by simp⟩, fun _ => rfl⟩

theorem mem_skipped_document {done : List Item} {d : SourceDocument} :
    (∃ s, Item.skipped s ∈ done ++ [.document d]) ↔ ∃ s, Item.skipped s ∈ done := by
  simp

/-- The step for a journal file. -/
theorem readItem_journal (hT : Digestible reader.codec T) {d : SourceDocument}
    (hjournal : d.isJournal = true)
    (hmem : ∀ p ∈ entriesOf reader done ++ d.entries reader, p.1 ∈ T)
    (hdone : Readable reader done) (hstate : StateOk reader done state) :
    ((∃ entries, parseFile reader.codec d.bytes = .ok entries) →
      Fits reader.codec (entriesOf reader done ++ d.entries reader) →
        ∃ state', (readItem reader state (.document d)).2 = .ok (some state')) ∧
    ∀ state', (readItem reader state (.document d)).2 = .ok (some state') →
      (∃ entries, parseFile reader.codec d.bytes = .ok entries) ∧
        Fits reader.codec (entriesOf reader done ++ d.entries reader) ∧
          StateOk reader (done ++ [.document d]) state' := by
  have hcatalog := isJournal_not_isCatalog hjournal
  have hdocument : ∀ entries, parseFile reader.codec d.bytes = .ok entries →
      d.entries reader = entries.map (·, d.uri) := by
    intro entries hparse
    simp [SourceDocument.entries, hjournal, hparse]
  have hfold : ∀ entries, parseFile reader.codec d.bytes = .ok entries →
      (Fits reader.codec (entriesOf reader done ++ d.entries reader) →
        ∃ file, entries.foldlM (addEntry reader.codec d.uri)
          ⟨state.index.getD .empty, state.scanned, []⟩ = .ok file) ∧
      ∀ file, entries.foldlM (addEntry reader.codec d.uri)
          ⟨state.index.getD .empty, state.scanned, []⟩ = .ok file →
        Fits reader.codec (entriesOf reader done ++ d.entries reader) ∧
          Indexes reader.codec (entriesOf reader done ++ d.entries reader) file.index := by
    intro entries hparse
    rw [hdocument entries hparse] at hmem ⊢
    refine foldlM_addEntry hT _ _ (fun p hp => hmem p (List.mem_append_left _ hp)) ?_ hdone.fits
      hstate.indexes
    intro e he
    exact hmem (e, d.uri) (List.mem_append_right _ (List.mem_map.mpr ⟨e, he, rfl⟩))
  rw [readItem_document]
  simp only [hcatalog, hjournal, Bool.false_eq_true, if_false, if_true]
  cases hfile : forParseFile reader.codec (addEntry reader.codec d.uri)
      ⟨state.index.getD .empty, state.scanned, []⟩ d.bytes with
  | error e =>
    refine ⟨?_, fun state' h => by cases h⟩
    rintro ⟨entries, hparse⟩ hfits
    obtain ⟨file, hok⟩ := (hfold entries hparse).1 hfits
    have := forParseFile_eq_ok.mpr ⟨entries, hparse, hok⟩
    rw [hfile] at this
    cases this
  | ok file =>
    obtain ⟨entries, hparse, hok⟩ := forParseFile_eq_ok.mp hfile
    obtain ⟨hfits, hindexes⟩ := (hfold entries hparse).2 file hok
    refine ⟨fun _ _ => ⟨_, rfl⟩, fun state' h => ?_⟩
    cases h
    have hcatalogs : (Item.document d).catalogs reader = [] := by
      simp [Item.catalogs, SourceDocument.catalogs, hcatalog]
    refine ⟨⟨entries, hparse⟩, hfits, ?_, ?_, ?_, ?_, ?_⟩
    · exact ⟨fun _ => holds_concat.mpr (Or.inr ⟨d, rfl, hjournal⟩), fun _ => rfl⟩
    · rw [entriesOf_concat]
      exact hindexes
    · rw [catalogsOf_concat, hcatalogs, List.append_nil]
      exact hstate.catalogs
    · show state.catalogs ≠ [] ↔ _
      rw [hstate.named, holds_concat]
      refine ⟨Or.inl, fun hor => hor.resolve_right ?_⟩
      rintro ⟨e, he, hk⟩
      cases he
      simp [hcatalog] at hk
    · rw [mem_skipped_document]
      exact hstate.incomplete

/-- **The loop's step.**  An item is passed exactly when the stream stays
    readable with it, and the state then describes one item more. -/
theorem readItem_spec (hT : Digestible reader.codec T) {item : Item}
    (hmem : ∀ p ∈ entriesOf reader (done ++ [item]), p.1 ∈ T) (hdone : Readable reader done)
    (hstate : StateOk reader done state) :
    (Readable reader (done ++ [item]) →
      ∃ state', (readItem reader state item).2 = .ok (some state')) ∧
    ∀ state', (readItem reader state item).2 = .ok (some state') →
      Readable reader (done ++ [item]) ∧ StateOk reader (done ++ [item]) state' := by
  rw [readable_concat hdone]
  cases item with
  | progress =>
    obtain ⟨hentries, hcatalogs, hnext⟩ := hstate.other .progress (by simp) (by simp)
      (by simp)
    rw [hentries, hcatalogs, List.append_nil, List.append_nil]
    refine ⟨fun _ => ⟨state, rfl⟩, fun state' h => ?_⟩
    cases h
    exact ⟨⟨trivial, hdone.fits, hdone.agreeing⟩, hnext⟩
  | skipped s =>
    simp only [readItem]
    by_cases hstructured : s.structured = true
    · constructor
      · rintro ⟨hreadable, -⟩
        have hnot : s.structured = false := hreadable
        simp [hstructured] at hnot
      · intro state' h
        split at h
        · split at h <;> cases h
        · simp [hstructured] at *
    · have hnot : s.structured = false := by simpa using hstructured
      simp only [hnot, Bool.false_eq_true, if_false]
      refine ⟨fun _ => ⟨_, rfl⟩, fun state' h => ?_⟩
      cases h
      refine ⟨⟨hnot, ?_, ?_⟩, hstate.skip s⟩
      · simpa [Item.entries] using hdone.fits
      · simpa [Item.catalogs] using hdone.agreeing
  | document d =>
    rw [readItem_document]
    by_cases hcatalog : d.isCatalog = true
    · have hjournal : d.isJournal = false := by
        cases hj : d.isJournal with
        | false => rfl
        | true => simp [isJournal_not_isCatalog hj] at hcatalog
      have hentries : (Item.document d).entries reader = [] := by
        simp [Item.entries, SourceDocument.entries, hjournal]
      simp only [hcatalog, if_true, hentries, List.append_nil, bind_eq_ok, pure_eq_ok]
      constructor
      · rintro ⟨hreadable, -, hagreeing⟩
        obtain ⟨catalog, hparse⟩ := hreadable.2 hcatalog
        have hcatalogs : (Item.document d).catalogs reader = [catalog] := by
          simp [Item.catalogs, SourceDocument.catalogs, hcatalog, hparse]
        rw [hcatalogs] at hagreeing
        obtain ⟨catalogs', hadd⟩ :=
          (addCatalog_spec hstate.catalogs hdone.agreeing catalog).1 hagreeing
        exact ⟨_, catalog, hparse, catalogs', hadd, rfl⟩
      · rintro state' ⟨catalog, hparse, catalogs', hadd, heq⟩
        cases heq
        have hcatalogs : (Item.document d).catalogs reader = [catalog] := by
          simp [Item.catalogs, SourceDocument.catalogs, hcatalog, hparse]
        obtain ⟨hagreeing, hok⟩ :=
          (addCatalog_spec hstate.catalogs hdone.agreeing catalog).2 catalogs' hadd
        rw [hcatalogs]
        refine ⟨⟨⟨?_, fun _ => ⟨catalog, hparse⟩⟩, hdone.fits, hagreeing⟩, ?_, ?_, ?_, ?_, ?_⟩
        · simp [hjournal]
        · show state.index.isSome = true ↔ _
          rw [hstate.opened, holds_concat]
          refine ⟨Or.inl, fun hor => hor.resolve_right ?_⟩
          rintro ⟨e, he, hk⟩
          cases he
          simp [hjournal] at hk
        · rw [entriesOf_concat, hentries, List.append_nil]
          exact hstate.indexes
        · rw [catalogsOf_concat, hcatalogs]
          exact hok
        · refine ⟨fun _ => holds_concat.mpr (Or.inr ⟨d, rfl, hcatalog⟩), fun _ => ?_⟩
          have := (hok.mem catalog.nameSpace catalog.records).mpr ⟨catalog, by simp, rfl, rfl⟩
          exact List.ne_nil_of_mem this
        · rw [mem_skipped_document]
          exact hstate.incomplete
    · have hcatalog' : d.isCatalog = false := by simpa using hcatalog
      have hcatalogs : (Item.document d).catalogs reader = [] := by
        simp [Item.catalogs, SourceDocument.catalogs, hcatalog']
      by_cases hjournal : d.isJournal = true
      · have hentries : (Item.document d).entries reader = d.entries reader := rfl
        rw [hentries, hcatalogs, List.append_nil, ← readItem_document]
        rw [entriesOf_concat, hentries] at hmem
        have hspec := readItem_journal hT hjournal hmem hdone hstate
        constructor
        · rintro ⟨hreadable, hfits, -⟩
          exact hspec.1 (hreadable.1 hjournal) hfits
        · intro state' h
          obtain ⟨hparse, hfits, hnext⟩ := hspec.2 state' h
          exact ⟨⟨⟨fun _ => hparse, by simp [hcatalog']⟩, hfits, hdone.agreeing⟩, hnext⟩
      · have hjournal' : d.isJournal = false := by simpa using hjournal
        obtain ⟨hentries, -, hnext⟩ := hstate.other (.document d)
          (by rintro e ⟨rfl⟩; exact hjournal') (by rintro e ⟨rfl⟩; exact hcatalog') (by simp)
        simp only [hcatalog', hjournal', Bool.false_eq_true, if_false]
        rw [hentries, hcatalogs, List.append_nil, List.append_nil]
        refine ⟨fun _ => ⟨state, rfl⟩, fun state' h => ?_⟩
        cases h
        exact ⟨⟨⟨by simp [hjournal'], by simp [hcatalog']⟩, hdone.fits, hdone.agreeing⟩, hnext⟩

end Mnemion.Journal.Projection
