/-
  Mnemion/JournalOrder.lean
  =========================
  **The projection of a journal does not depend on the order of its entries.**  An index
  refuses a list of entries within its limits exactly when two different entries claim one
  identity (`addAll_fails_iff`); otherwise what it yields is determined by the set of the
  entries (`projection_independent`).
-/
import Mathlib.Algebra.GroupWithZero.Nat
import Mathlib.Data.List.Dedup
import Mnemion.JournalIndex

namespace Mnemion.Journal

open Outcome ByteLines

variable {υ : Type} {codec : LineCodec} {T : Set Entry} {added added' : List (Entry × Option υ)}
  {index index' : JournalIndex υ} {maxRecords maxBytes : Nat}

/-! ### An index of a list -/

/-- `JournalIndex(connection, max_records=..., max_bytes=...)` -/
def JournalIndex.limited (maxRecords maxBytes : Nat) : JournalIndex υ :=
  { JournalIndex.empty with maxRecords, maxBytes }

/-- The entries of a list added in its order. -/
def addAll (codec : LineCodec) (maxRecords maxBytes : Nat) (entries : List (Entry × Option υ)) :
    Except JournalError (JournalIndex υ) :=
  entries.foldlM (fun index p => index.add codec p.1 p.2) (JournalIndex.limited maxRecords maxBytes)

/-- The list is within the limits of the index. -/
structure Within (codec : LineCodec) (maxRecords maxBytes : Nat) (entries : List (Entry × Option υ)) : Prop where
  records : entries.length ≤ maxRecords
  bytes : (entries.map fun p => (codec.dump p.1 ++ [newline]).length).sum ≤ maxBytes

/-- Two different entries claim one identity. -/
def Conflicting (entries : List (Entry × Option υ)) : Prop :=
  ∃ p ∈ entries, ∃ q ∈ entries, SameIdentity p.1 q.1 ∧ p.1 ≠ q.1

/-- **An index with limits of its own** after `added`. -/
structure IndexesAll (codec : LineCodec) (maxRecords maxBytes : Nat) (added : List (Entry × Option υ))
    (index : JournalIndex υ) : Prop where
  tables : Indexes codec added (index.standard codec added)
  maxRecords : index.maxRecords = maxRecords
  maxBytes : index.maxBytes = maxBytes
  observedRecords : index.observedRecords = added.length
  observedBytes : index.observedBytes = (added.map fun p => (codec.dump p.1 ++ [newline]).length).sum
  records : index.records = index.seen.length

theorem indexesAll_limited :
    IndexesAll codec maxRecords maxBytes [] (JournalIndex.limited maxRecords maxBytes : JournalIndex υ) :=
  ⟨indexes_empty, rfl, rfl, rfl, rfl, rfl⟩

theorem IndexesAll.room {entry : Entry} {uri : Option υ} {rest : List (Entry × Option υ)}
    (h : IndexesAll codec maxRecords maxBytes added index)
    (hwithin : Within codec maxRecords maxBytes (added ++ (entry, uri) :: rest)) : index.Room codec entry := by
  have hrecords := hwithin.records
  have hbytes := hwithin.bytes
  rw [List.length_append, List.length_cons] at hrecords
  rw [List.map_append, List.sum_append, List.map_cons, List.sum_cons] at hbytes
  constructor
  · rw [h.observedRecords, h.maxRecords]
    omega
  · rw [h.observedBytes, h.maxBytes]
    exact le_trans (Nat.add_le_add_left (Nat.le_add_right _ _) _) hbytes

/-- One entry more. -/
theorem IndexesAll.add {entry : Entry} {uri : Option υ} (hT : Digestible codec T) (hadded : ∀ p ∈ added, p.1 ∈ T)
    (hentry : entry ∈ T) (h : IndexesAll codec maxRecords maxBytes added index)
    (hok : index.add codec entry uri = .ok index') :
    IndexesAll codec maxRecords maxBytes (added ++ [(entry, uri)]) index' := by
  have houtcome := h.tables.outcome uri hT hadded hentry
  rw [hok] at houtcome
  obtain ⟨_, _, htables⟩ := h.tables.tables houtcome
  cases houtcome with
  | again _ _ =>
    refine ⟨htables, h.maxRecords, h.maxBytes, ?_, ?_, h.records⟩
    · simp [JournalIndex.again, h.observedRecords]
    · simp [JournalIndex.again, h.observedBytes]
  | taken _ _ =>
    refine ⟨htables, h.maxRecords, h.maxBytes, ?_, ?_, ?_⟩
    · simp [JournalIndex.taken, h.observedRecords]
    · simp [JournalIndex.taken, h.observedBytes]
    · simp [JournalIndex.taken, h.records]

theorem addAll_indexes {entries : List (Entry × Option υ)} (hT : Digestible codec T)
    (hentries : ∀ p ∈ entries, p.1 ∈ T) (h : addAll codec maxRecords maxBytes entries = .ok index) :
    IndexesAll codec maxRecords maxBytes entries index := by
  refine foldlM_split_invariant (IndexesAll codec maxRecords maxBytes) ?_ indexesAll_limited h
  rintro done ⟨entry, uri⟩ rest current next hsplit hcurrent hnext
  rw [hsplit] at hentries
  refine hcurrent.add hT (fun p hp => hentries p (List.mem_append_left _ hp)) ?_ hnext
  exact hentries (entry, uri) (by simp)

/-- **A list within the limits is refused exactly for a conflict**, and the error names it. -/
theorem addAll_fails_iff {entries : List (Entry × Option υ)} (hT : Digestible codec T)
    (hentries : ∀ p ∈ entries, p.1 ∈ T) (hwithin : Within codec maxRecords maxBytes entries) :
    ((∃ e, addAll codec maxRecords maxBytes entries = .error e) ↔ Conflicting entries) ∧
      ∀ e, addAll codec maxRecords maxBytes entries = .error e →
        e = .journalEntryConflict ∨ e = .journalVersionConflict := by
  have hfails : ∀ e, addAll codec maxRecords maxBytes entries = .error e →
      Conflicting entries ∧ (e = .journalEntryConflict ∨ e = .journalVersionConflict) := by
    intro e herror
    obtain ⟨done, ⟨entry, uri⟩, rest, current, rfl, hdone, hlast⟩ := foldlM_fails herror
    have hold : ∀ p ∈ done, p.1 ∈ T := fun p hp => hentries p (List.mem_append_left _ hp)
    have hcurrent := addAll_indexes hT hold hdone
    have houtcome := hcurrent.tables.outcome uri hT hold (hentries (entry, uri) (by simp))
    rw [hlast] at houtcome
    have hconflict : (∃ p ∈ done, SameIdentity p.1 entry ∧ p.1 ≠ entry) →
        Conflicting (done ++ (entry, uri) :: rest) := by
      rintro ⟨p, hp, hsame, hne⟩
      exact ⟨p, List.mem_append_left _ hp, (entry, uri), by simp, hsame, hne⟩
    cases houtcome with
    | full hfull => exact absurd (hcurrent.room hwithin) hfull
    | entryConflict hread =>
      obtain ⟨p, hp, hid, hne⟩ := hread
      exact ⟨hconflict ⟨p, hp, Or.inl hid, hne⟩, Or.inl rfl⟩
    | versionConflict hread =>
      obtain ⟨p, hp, horigin, hversion, hne⟩ := hread
      exact ⟨hconflict ⟨p, hp, Or.inr ⟨horigin, hversion⟩, hne⟩, Or.inr rfl⟩
  refine ⟨⟨?_, ?_⟩, fun e herror => (hfails e herror).2⟩
  · rintro ⟨e, herror⟩
    exact (hfails e herror).1
  · rintro ⟨p, hp, q, hq, hsame, hne⟩
    cases hresult : addAll codec maxRecords maxBytes entries with
    | error e => exact ⟨e, rfl⟩
    | ok index => exact absurd ((addAll_indexes hT hentries hresult).tables.consistent p hp q hq hsame) hne

/-! ### The order of origins -/

/-- The order of origins, in numbers. -/
theorem originLe_iff {a₁ a₂ a₃ b₁ b₂ b₃ : Nat} : JournalIndex.originLe (a₁, a₂, a₃) (b₁, b₂, b₃) = true ↔
    a₁ < b₁ ∨ (a₁ = b₁ ∧ (a₂ < b₂ ∨ (a₂ = b₂ ∧ a₃ ≤ b₃))) := by
  simp only [JournalIndex.originLe, Bool.or_eq_true, Bool.and_eq_true, decide_eq_true_eq, beq_iff_eq]

theorem originLe_total (a b : UUID × UUID × UUID) :
    JournalIndex.originLe a b = true ∨ JournalIndex.originLe b a = true := by
  rw [originLe_iff, originLe_iff]
  omega

theorem originLe_trans {a b c : UUID × UUID × UUID} (hab : JournalIndex.originLe a b = true)
    (hbc : JournalIndex.originLe b c = true) : JournalIndex.originLe a c = true := by
  rw [originLe_iff] at hab hbc ⊢
  omega

theorem originLe_antisymm {a b : UUID × UUID × UUID} (hab : JournalIndex.originLe a b = true)
    (hba : JournalIndex.originLe b a = true) : a = b := by
  have hparts : ∀ {a₁ a₂ a₃ b₁ b₂ b₃ : Nat}, (a₁ < b₁ ∨ (a₁ = b₁ ∧ (a₂ < b₂ ∨ (a₂ = b₂ ∧ a₃ ≤ b₃)))) →
      (b₁ < a₁ ∨ (b₁ = a₁ ∧ (b₂ < a₂ ∨ (b₂ = a₂ ∧ b₃ ≤ a₃)))) → a₁ = b₁ ∧ a₂ = b₂ ∧ a₃ = b₃ := by
    omega
  obtain ⟨hfirst, hsecond, hthird⟩ := hparts (originLe_iff.mp hab) (originLe_iff.mp hba)
  exact Prod.ext hfirst (Prod.ext hsecond hthird)

/-- Sorting by an origin of their own, permuted lists agree. -/
theorem insertionSort_perm {α : Type*} (key : α → UUID × UUID × UUID) {l l' : List α} (hperm : l.Perm l')
    (hnodup : (l.map key).Nodup) :
    l.insertionSort (fun a b => JournalIndex.originLe (key a) (key b)) =
      l'.insertionSort (fun a b => JournalIndex.originLe (key a) (key b)) := by
  have htotal : Std.Total fun a b : α => JournalIndex.originLe (key a) (key b) = true :=
    ⟨fun a b => originLe_total (key a) (key b)⟩
  have htrans : IsTrans α fun a b => JournalIndex.originLe (key a) (key b) = true :=
    ⟨fun _ _ _ => originLe_trans⟩
  refine List.Perm.eq_of_pairwise ?_ (List.pairwise_insertionSort _ l) (List.pairwise_insertionSort _ l') ?_
  · intro a b ha hb hab hba
    have ha' : a ∈ l := (List.perm_insertionSort _ l).mem_iff.mp ha
    have hb' : b ∈ l := hperm.mem_iff.mpr ((List.perm_insertionSort _ l').mem_iff.mp hb)
    exact List.inj_on_of_nodup_map hnodup ha' hb' (originLe_antisymm hab hba)
  · exact ((List.perm_insertionSort _ l).trans hperm).trans (List.perm_insertionSort _ l').symm

/-! ### What the tables hold of a set of entries -/

/-- The same entries were read. -/
def SameEntries (added added' : List (Entry × Option υ)) : Prop :=
  ∀ e, (∃ p ∈ added, p.1 = e) ↔ ∃ p ∈ added', p.1 = e

theorem SameEntries.exists {P : Entry → Prop} (h : SameEntries added added') :
    (∃ p ∈ added, P p.1) ↔ ∃ p ∈ added', P p.1 := by
  constructor
  · rintro ⟨p, hp, hP⟩
    obtain ⟨q, hq, heq⟩ := (h p.1).mp ⟨p, hp, rfl⟩
    exact ⟨q, hq, heq ▸ hP⟩
  · rintro ⟨p, hp, hP⟩
    obtain ⟨q, hq, heq⟩ := (h p.1).mpr ⟨p, hp, rfl⟩
    exact ⟨q, hq, heq ▸ hP⟩

/-- **`seen` has a row for every distinct entry.** -/
theorem Indexes.seen_perm (h : Indexes codec added index) :
    index.seen.Perm ((added.map Prod.fst).dedup.map fun e => ⟨e.id, entryDigest codec e, e.nameSpace⟩) := by
  have hseen : index.seen.Nodup := h.seenNodup.of_map
  have hmem : ∀ e, e ∈ (added.map Prod.fst).dedup ↔ ∃ p ∈ added, p.1 = e := by
    intro e
    rw [List.mem_dedup, List.mem_map]
  have hrows : ((added.map Prod.fst).dedup.map fun e =>
      (⟨e.id, entryDigest codec e, e.nameSpace⟩ : SeenRow)).Nodup := by
    refine List.Nodup.map_on ?_ (List.nodup_dedup _)
    intro a ha b hb heq
    obtain ⟨p, hp, rfl⟩ := (hmem a).mp ha
    obtain ⟨q, hq, rfl⟩ := (hmem b).mp hb
    exact h.consistent p hp q hq (Or.inl (congrArg SeenRow.id heq))
  refine (List.perm_ext_iff_of_nodup hseen hrows).mpr ?_
  intro row
  rw [List.mem_map]
  constructor
  · intro hrow
    obtain ⟨p, hp, heq⟩ := h.seenRow row hrow
    exact ⟨p.1, (hmem p.1).mpr ⟨p, hp, rfl⟩, heq.symm⟩
  · rintro ⟨e, he, rfl⟩
    obtain ⟨p, hp, rfl⟩ := (hmem e).mp he
    obtain ⟨row, hrow, hid⟩ := h.seenAll p hp
    obtain ⟨q, hq, rfl⟩ := h.seenRow row hrow
    rw [h.consistent q hq p hp (Or.inl hid)] at hrow
    exact hrow

theorem dedup_perm (h : SameEntries added added') :
    (added.map Prod.fst).dedup.Perm (added'.map Prod.fst).dedup := by
  refine (List.perm_ext_iff_of_nodup (List.nodup_dedup _) (List.nodup_dedup _)).mpr ?_
  intro e
  rw [List.mem_dedup, List.mem_dedup, List.mem_map, List.mem_map]
  exact h e

/-- The newest row of an origin is the same for the same entries. -/
theorem Indexes.latest_subset (h : Indexes codec added index) (h' : Indexes codec added' index')
    (hsame : SameEntries added added') {row : LatestRow} (hrow : row ∈ index.latest) : row ∈ index'.latest := by
  obtain ⟨p, hp, horigin, hversion, haction, hline⟩ := h.latestRow row hrow
  obtain ⟨p', hp', hpp'⟩ := (hsame p.1).mp ⟨p, hp, rfl⟩
  obtain ⟨row', hrow', horigin'⟩ := h'.latestAll p' hp'
  rw [hpp', ← horigin] at horigin'
  obtain ⟨q', hq', hqorigin, hqversion, hqaction, hqline⟩ := h'.latestRow row' hrow'
  obtain ⟨q, hq, hqq'⟩ := (hsame q'.1).mpr ⟨q', hq', rfl⟩
  -- each of the two newest entries is as new as the other
  have hle : p'.1.version ≤ row'.version := h'.latestMax row' hrow' p' hp' (by rw [hpp', ← horigin, horigin'])
  have hge : q.1.version ≤ row.version := h.latestMax row hrow q hq (by rw [hqq', ← hqorigin, horigin'])
  rw [hpp'] at hle
  rw [hqq'] at hge
  have hentry : q.1 = p.1 := by
    refine h.consistent q hq p hp (Or.inr ⟨?_, ?_⟩)
    · rw [hqq', ← hqorigin, horigin', horigin]
    · rw [hqq']
      omega
  rw [hqq'] at hentry
  have hdenied : row'.denied = row.denied := by
    rw [Bool.eq_iff_iff, h'.latestDenied row' hrow', h.latestDenied row hrow, horigin']
    exact (@SameEntries.exists _ _ _ (fun e => e.origin = row.origin ∧ e.action = .forget) hsame).symm
  have heq : row' = row := by
    obtain ⟨o', v', d', a', l'⟩ := row'
    obtain ⟨o, v, d, a, l⟩ := row
    simp only [LatestRow.mk.injEq]
    dsimp only at *
    refine ⟨horigin', ?_, hdenied, ?_, ?_⟩
    · rw [hqversion, hversion, hentry]
    · rw [hqaction, haction, hentry]
    · rw [hqline, hline, hentry]
  exact heq ▸ hrow'

theorem SameEntries.symm (h : SameEntries added added') : SameEntries added' added := fun e => (h e).symm

theorem Indexes.latest_perm (h : Indexes codec added index) (h' : Indexes codec added' index')
    (hsame : SameEntries added added') : index.latest.Perm index'.latest := by
  refine (List.perm_ext_iff_of_nodup h.latestNodup.of_map h'.latestNodup.of_map).mpr fun row => ?_
  exact ⟨h.latest_subset h' hsame, h'.latest_subset h hsame.symm⟩

/-! ### The projection -/

/-- **What an index yields.** -/
structure Yields (codec : LineCodec) (entries : List (Entry × Option υ)) (index : JournalIndex υ) : Prop where
  /-- One entry for each origin whose newest entry is an upsert and that no entry forgets. -/
  current : ∃ shown, index.current codec = .ok shown ∧ (shown.map Entry.origin).Nodup ∧
    ∀ e, e ∈ shown ↔ Current entries e
  /-- The origins with a denial, once each. -/
  denials : ∀ origin, origin ∈ index.denials ↔ ∃ p ∈ entries, p.1.origin = origin ∧ p.1.action = .forget
  denialsNodup : index.denials.Nodup
  /-- The distinct entries. -/
  records : index.records = (entries.map Prod.fst).dedup.length
  inventories : ∀ n, index.inventories n =
    if ((entries.map Prod.fst).dedup.filter fun e => decide (e.nameSpace = n)).length = 0 then none
    else some ((entries.map Prod.fst).dedup.filter fun e => decide (e.nameSpace = n)).length

theorem mapM_parseLine {entries : List Entry} (h : ∀ e ∈ entries, Recordable codec e) :
    (entries.map fun e => codec.dump e ++ [newline]).mapM (parseLine codec) = .ok entries := by
  induction entries with
  | nil => rfl
  | cons e entries ih =>
    rw [List.map_cons, List.mapM_cons, parseLine_dump (h e List.mem_cons_self),
      ih fun a ha => h a (List.mem_cons_of_mem _ ha)]
    rfl

theorem IndexesAll.yields (hT : Digestible codec T) (hadded : ∀ p ∈ added, p.1 ∈ T)
    (h : IndexesAll codec maxRecords maxBytes added index) : Yields codec added index := by
  have hseen := h.tables.seen_perm
  constructor
  · obtain ⟨shown, hlines, hnodup, hmem⟩ := h.tables.currentLines
    refine ⟨shown, ?_, hnodup, hmem⟩
    unfold JournalIndex.current
    rw [show index.currentLines = _ from hlines]
    apply mapM_parseLine
    intro e he
    obtain ⟨p, hp, rfl⟩ := ((hmem e).mp he).read
    exact hT.recordable p.1 (hadded p hp)
  · intro origin
    unfold JournalIndex.denials
    rw [List.mem_insertionSort, List.mem_map]
    constructor
    · rintro ⟨row, hrow, rfl⟩
      rw [List.mem_filter] at hrow
      exact (h.tables.latestDenied row hrow.1).mp hrow.2
    · rintro ⟨p, hp, rfl, hforget⟩
      obtain ⟨row, hrow, horigin⟩ := h.tables.latestAll p hp
      refine ⟨row, List.mem_filter.mpr ⟨hrow, ?_⟩, horigin⟩
      exact (h.tables.latestDenied row hrow).mpr ⟨p, hp, horigin.symm, hforget⟩
  · unfold JournalIndex.denials
    refine (List.perm_insertionSort _ _).nodup_iff.mpr ?_
    exact (List.Sublist.map _ List.filter_sublist).nodup h.tables.latestNodup
  · have hlength := hseen.length_eq
    rw [List.length_map] at hlength
    rw [h.records]
    exact hlength
  · intro n
    have hcount := (hseen.filter fun row => decide (row.nameSpace = n)).length_eq
    rw [List.filter_map, List.length_map] at hcount
    unfold JournalIndex.inventories
    rw [show (index.seen.filter fun row => decide (row.nameSpace = n)).length = _ from hcount]
    rfl

/-- **The same entries, in any order and with any repetitions**, yield the same. -/
theorem IndexesAll.same (h : IndexesAll codec maxRecords maxBytes added index)
    (h' : IndexesAll codec maxRecords maxBytes added' index') (hsame : SameEntries added added') :
    index'.records = index.records ∧ index'.inventories = index.inventories ∧
      index'.current codec = index.current codec ∧ index'.denials = index.denials := by
  have hlatest : (index.standard codec added).latest.Perm (index'.standard codec added').latest :=
    h.tables.latest_perm h'.tables hsame
  have hlatest : index.latest.Perm index'.latest := hlatest
  have hseen : index.seen.Perm index'.seen :=
    (h.tables.seen_perm.trans ((dedup_perm hsame).map _)).trans h'.tables.seen_perm.symm
  refine ⟨?_, ?_, ?_, ?_⟩
  · rw [h.records, h'.records, hseen.length_eq]
  · funext n
    unfold JournalIndex.inventories
    rw [(hseen.filter fun row => decide (row.nameSpace = n)).length_eq]
  · unfold JournalIndex.current JournalIndex.currentLines
    rw [insertionSort_perm LatestRow.origin (hlatest.filter fun row => !row.denied && row.action = .upsert)]
    exact (List.Sublist.map _ List.filter_sublist).nodup h.tables.latestNodup
  · unfold JournalIndex.denials
    refine (insertionSort_perm id ((hlatest.filter fun row => row.denied).map LatestRow.origin) ?_).symm
    rw [List.map_id]
    exact (List.Sublist.map _ List.filter_sublist).nodup h.tables.latestNodup

/-- **The projection of a journal is independent of order and duplication.**  A list within
    the limits of the index is refused exactly for two different entries of one identity;
    otherwise every list of the same entries within the limits yields the same. -/
theorem projection_independent {entries : List (Entry × Option υ)}
    (hT : Digestible codec {e | ∃ p ∈ entries, p.1 = e}) (hwithin : Within codec maxRecords maxBytes entries) :
    ((∃ e, addAll codec maxRecords maxBytes entries = .error e) ↔ Conflicting entries) ∧
    (∀ e, addAll codec maxRecords maxBytes entries = .error e →
      e = .journalEntryConflict ∨ e = .journalVersionConflict) ∧
    ∀ index, addAll codec maxRecords maxBytes entries = .ok index → Yields codec entries index ∧
      ∀ entries', SameEntries entries entries' → Within codec maxRecords maxBytes entries' →
        ∃ index', addAll codec maxRecords maxBytes entries' = .ok index' ∧ index'.records = index.records ∧
          index'.inventories = index.inventories ∧ index'.current codec = index.current codec ∧
          index'.denials = index.denials := by
  have hentries : ∀ p ∈ entries, p.1 ∈ {e | ∃ p ∈ entries, p.1 = e} := fun p hp => ⟨p, hp, rfl⟩
  obtain ⟨hfails, herrors⟩ := addAll_fails_iff hT hentries hwithin
  refine ⟨hfails, herrors, ?_⟩
  intro index hindex
  have hindexes := addAll_indexes hT hentries hindex
  refine ⟨hindexes.yields hT hentries, ?_⟩
  intro entries' hsame hwithin'
  have hentries' : ∀ p ∈ entries', p.1 ∈ {e | ∃ p ∈ entries, p.1 = e} :=
    fun p hp => (hsame p.1).mpr ⟨p, hp, rfl⟩
  cases hresult : addAll codec maxRecords maxBytes entries' with
  | error e =>
    obtain ⟨p, hp, q, hq, hidentity, hne⟩ := (addAll_fails_iff hT hentries' hwithin').1.mp ⟨e, hresult⟩
    obtain ⟨a, ha, hap⟩ := hentries' p hp
    obtain ⟨b, hb, hbq⟩ := hentries' q hq
    rw [← hap, ← hbq] at hidentity hne
    exact absurd (hindexes.tables.consistent a ha b hb hidentity) hne
  | ok index' => exact ⟨index', rfl, hindexes.same (addAll_indexes hT hentries' hresult) hsame⟩

/-- One entry, read at two places. -/
def twoCopies : List (Entry × Option String) := [(sampleEntry, some "first"), (sampleEntry, none)]

theorem twoCopies_sample {p : Entry × Option String} (hp : p ∈ twoCopies) : p.1 = sampleEntry := by
  rcases List.mem_cons.mp hp with rfl | hp
  · rfl
  · rw [List.mem_singleton.mp hp]

theorem projection_independent_copies :
    ∃ index, addAll sampleCodec 10 10000 twoCopies = .ok index ∧ Yields sampleCodec twoCopies index := by
  have hindependent := @projection_independent String sampleCodec 10 10000 twoCopies
    (sampleCodec_digestible fun e he => by
      obtain ⟨p, hp, rfl⟩ := he
      exact twoCopies_sample hp)
    ⟨by decide, by decide +kernel⟩
  cases hresult : addAll sampleCodec 10 10000 twoCopies with
  | error e =>
    obtain ⟨p, hp, q, hq, _, hne⟩ := hindependent.1.mp ⟨e, hresult⟩
    exact absurd ((twoCopies_sample hp).trans (twoCopies_sample hq).symm) hne
  | ok index => exact ⟨index, rfl, (hindependent.2.2 index hresult).1⟩

end Mnemion.Journal
