/-
  Mnemion/JournalIndex.lean
  =========================
  **The bounded journal index** (`journal/index.py`): the four tables behind
  `JournalIndex` and what they say after any list of entries was added.

  `Indexes` is that specification: one row of `seen` per distinct entry id, and
  for each origin the highest version with its action and line, together with
  whether any denial of the origin was read.  `foldlM_add_indexes` proves it for
  every successful sequence of `add` calls, whatever the order or duplication.
-/
import Mathlib.Algebra.GroupWithZero.Nat
import Mnemion.JournalFormat
import Mathlib.Data.List.Sort

namespace Mnemion.Journal

open Outcome ByteLines

/-! ### Tables -/

/-- `seen(id, digest, namespace)` -/
structure SeenRow where
  id : UUID
  digest : Bytes
  nameSpace : UUID × UUID
deriving DecidableEq

/-- `versions(origin, version, digest)` -/
structure VersionRow where
  origin : UUID × UUID × UUID
  version : Nat
  digest : Bytes
deriving DecidableEq

/-- `latest(origin, version, denied, action, line)` -/
structure LatestRow where
  origin : UUID × UUID × UUID
  version : Nat
  denied : Bool
  action : Action
  line : Bytes
deriving DecidableEq

/-- The in-memory counters and the SQLite tables; `υ` is the type of locations. -/
structure JournalIndex (υ : Type) where
  maxRecords : Nat
  maxBytes : Nat
  records : Nat
  bytes : Nat
  duplicates : Nat
  observedRecords : Nat
  observedBytes : Nat
  seen : List SeenRow
  locations : List (UUID × Option υ)
  versions : List VersionRow
  latest : List LatestRow

namespace JournalIndex

variable {υ : Type}

/-- `JournalIndex(connection)` with the default limits. -/
def empty : JournalIndex υ where
  maxRecords := 1000000
  maxBytes := 2 * 1024 ^ 3
  records := 0
  bytes := 0
  duplicates := 0
  observedRecords := 0
  observedBytes := 0
  seen := []
  locations := []
  versions := []
  latest := []

/-- `DO UPDATE SET`: a denial sticks, and action and line follow the highest
    version. -/
def merge (old row : LatestRow) : LatestRow where
  origin := old.origin
  version := max old.version row.version
  denied := old.denied || row.denied
  action := if old.version < row.version then row.action else old.action
  line := if old.version < row.version then row.line else old.line

/-- `INSERT INTO latest ... ON CONFLICT(origin) DO UPDATE` -/
def upsertLatest (row : LatestRow) : List LatestRow → List LatestRow
  | [] => [row]
  | old :: rest =>
    if old.origin = row.origin then merge old row :: rest else old :: upsertLatest row rest

def add (codec : LineCodec) (index : JournalIndex υ) (entry : Entry) (uri : Option υ) :
    Except JournalError (JournalIndex υ) := do
  let line ← entry.line codec
  let digest ← entry.digest codec
  -- repeated physical records count against the limits as well
  let index := { index with
    observedRecords := index.observedRecords + 1
    observedBytes := index.observedBytes + line.length }
  check (index.observedRecords ≤ index.maxRecords ∧ index.observedBytes ≤ index.maxBytes)
    .journalInventoryLimit
  match index.seen.find? (·.id = entry.id) with
  | some previous =>
    check (previous.digest = digest) .journalEntryConflict
    return { index with duplicates := index.duplicates + 1 }
  | none =>
    let index := { index with
      records := index.records + 1
      bytes := index.bytes + line.length }
    let previous : Option VersionRow := index.versions.find? fun row =>
      row.origin = entry.origin ∧ row.version = entry.version
    check (previous.all (·.digest = digest)) .journalVersionConflict
    return { index with
      seen := index.seen ++ [⟨entry.id, digest, entry.nameSpace⟩]
      locations := index.locations ++ [(entry.id, uri)]
      versions := if previous.isSome then index.versions
        else index.versions ++ [⟨entry.origin, entry.version, digest⟩]
      latest := upsertLatest
        ⟨entry.origin, entry.version, entry.action = .forget, entry.action, line⟩ index.latest }

/-- The text order of origins. -/
def originLe (a b : UUID × UUID × UUID) : Bool :=
  a.1 < b.1 || (a.1 == b.1 && (a.2.1 < b.2.1 || (a.2.1 == b.2.1 && a.2.2 ≤ b.2.2)))

/-- `SELECT line FROM latest WHERE denied=0 AND action='upsert' ORDER BY origin` -/
def currentLines (index : JournalIndex υ) : List Bytes :=
  ((index.latest.filter fun row => !row.denied && row.action = .upsert).insertionSort
    fun a b => originLe a.origin b.origin).map (·.line)

def current (codec : LineCodec) (index : JournalIndex υ) : Except JournalError (List Entry) :=
  index.currentLines.mapM (parseLine codec)

def location (index : JournalIndex υ) (entry : Entry) : Option υ :=
  (index.locations.find? (·.1 = entry.id)).bind (·.2)

/-- `SELECT namespace,count(*) FROM seen GROUP BY namespace`, as a lookup. -/
def inventories (index : JournalIndex υ) (nameSpace : UUID × UUID) : Option Nat :=
  let count := (index.seen.filter (·.nameSpace = nameSpace)).length
  if count = 0 then none else some count

/-- `SELECT origin FROM latest WHERE denied=1 ORDER BY origin` -/
def denials (index : JournalIndex υ) : List (UUID × UUID × UUID) :=
  ((index.latest.filter (·.denied)).map (·.origin)).insertionSort fun a b => originLe a b

structure Description where
  records : Nat
  duplicates : Nat
  bytes : Nat
  activeMemories : Nat
  forgottenMemories : Nat
deriving DecidableEq, Repr

def describe (index : JournalIndex υ) : Description where
  records := index.records
  duplicates := index.duplicates
  bytes := index.bytes
  activeMemories := (index.latest.filter fun row => !row.denied && row.action = .upsert).length
  forgottenMemories := (index.latest.filter (·.denied)).length

end JournalIndex

/-! ### What the tables say -/

section

variable {υ : Type} {codec : LineCodec}

/-- The digest of an entry whose line exists. -/
def entryDigest (codec : LineCodec) (entry : Entry) : Bytes :=
  codec.sha256 (codec.dump entry ++ [newline])

/-- Entries that can be recorded and that SHA-256 tells apart. -/
structure Digestible (codec : LineCodec) (T : Set Entry) : Prop where
  recordable : ∀ e ∈ T, Recordable codec e
  collision_free : ∀ a ∈ T, ∀ b ∈ T, entryDigest codec a = entryDigest codec b → a = b

theorem Recordable.digest_ok {entry : Entry} (h : Recordable codec entry) :
    entry.digest codec = .ok (entryDigest codec entry) := by
  simp [Entry.digest, h.line_ok, entryDigest]

/-- Two entries claim one identity. -/
def SameIdentity (a b : Entry) : Prop :=
  a.id = b.id ∨ (a.origin = b.origin ∧ a.version = b.version)

/-- **The tables after `added`**, entries with the locations they were read at. -/
structure Indexes (codec : LineCodec) (added : List (Entry × Option υ))
    (index : JournalIndex υ) : Prop where
  observedRecords : index.observedRecords = added.length
  observedBytes : index.observedBytes =
    (added.map fun p => (codec.dump p.1 ++ [newline]).length).sum
  limits : index.maxRecords = 1000000 ∧ index.maxBytes = 2 * 1024 ^ 3
  seenRow : ∀ row ∈ index.seen, ∃ p ∈ added,
    row = ⟨p.1.id, entryDigest codec p.1, p.1.nameSpace⟩
  seenAll : ∀ p ∈ added, ∃ row ∈ index.seen, row.id = p.1.id
  seenNodup : (index.seen.map (·.id)).Nodup
  versionRow : ∀ row ∈ index.versions, ∃ p ∈ added,
    row = ⟨p.1.origin, p.1.version, entryDigest codec p.1⟩
  versionAll : ∀ p ∈ added, ∃ row ∈ index.versions,
    row.origin = p.1.origin ∧ row.version = p.1.version
  latestRow : ∀ row ∈ index.latest, ∃ p ∈ added, row.origin = p.1.origin ∧
    row.version = p.1.version ∧ row.action = p.1.action ∧
    row.line = codec.dump p.1 ++ [newline]
  latestMax : ∀ row ∈ index.latest, ∀ p ∈ added, p.1.origin = row.origin →
    p.1.version ≤ row.version
  latestDenied : ∀ row ∈ index.latest, (row.denied = true ↔
    ∃ p ∈ added, p.1.origin = row.origin ∧ p.1.action = .forget)
  latestAll : ∀ p ∈ added, ∃ row ∈ index.latest, row.origin = p.1.origin
  latestNodup : (index.latest.map (·.origin)).Nodup
  located : ∀ id, index.locations.find? (·.1 = id) =
    (added.find? (·.1.id = id)).map fun p => (p.1.id, p.2)
  consistent : ∀ p ∈ added, ∀ q ∈ added, SameIdentity p.1 q.1 → p.1 = q.1

theorem indexes_empty : Indexes codec [] (JournalIndex.empty : JournalIndex υ) := by
  constructor <;> simp [JournalIndex.empty]

theorem map_origin_upsertLatest (row : LatestRow) (rows : List LatestRow) :
    (JournalIndex.upsertLatest row rows).map (·.origin) =
      if row.origin ∈ rows.map (·.origin) then rows.map (·.origin)
      else rows.map (·.origin) ++ [row.origin] := by
  induction rows with
  | nil => simp [JournalIndex.upsertLatest]
  | cons old rest ih =>
    by_cases h : old.origin = row.origin
    · simp [JournalIndex.upsertLatest, h, JournalIndex.merge]
    · have h' : ¬ row.origin = old.origin := fun h' => h h'.symm
      simp only [JournalIndex.upsertLatest, h, if_false, List.map_cons, ih, List.mem_cons, h',
        false_or]
      split <;> rfl

/-- The rows after an upsert: the other origins as they were, and for the row's
    origin either the row itself or its merge with the one row there was. -/
theorem mem_upsertLatest {row r : LatestRow} {rows : List LatestRow}
    (hnodup : (rows.map (·.origin)).Nodup) :
    r ∈ JournalIndex.upsertLatest row rows ↔
      (r ∈ rows ∧ r.origin ≠ row.origin) ∨
        (r = row ∧ ∀ old ∈ rows, old.origin ≠ row.origin) ∨
        ∃ old ∈ rows, old.origin = row.origin ∧ r = JournalIndex.merge old row := by
  induction rows with
  | nil => simp [JournalIndex.upsertLatest]
  | cons old rest ih =>
    simp only [List.map_cons, List.nodup_cons] at hnodup
    by_cases h : old.origin = row.origin
    · have hrest : ∀ o ∈ rest, o.origin ≠ row.origin := by
        intro o ho heq
        exact hnodup.1 (List.mem_map.mpr ⟨o, ho, heq.trans h.symm⟩)
      simp only [JournalIndex.upsertLatest, h, if_true, List.mem_cons]
      constructor
      · rintro (rfl | hr)
        · exact Or.inr (Or.inr ⟨old, Or.inl rfl, h, rfl⟩)
        · exact Or.inl ⟨Or.inr hr, hrest r hr⟩
      · rintro (⟨rfl | hr, hne⟩ | ⟨-, hall⟩ | ⟨o, rfl | ho, heq, rfl⟩)
        · exact absurd h hne
        · exact Or.inr hr
        · exact absurd h (hall old (Or.inl rfl))
        · exact Or.inl rfl
        · exact absurd heq (hrest o ho)
    · simp only [JournalIndex.upsertLatest, h, if_false, List.mem_cons, ih hnodup.2]
      constructor
      · rintro (rfl | ⟨hr, hne⟩ | ⟨rfl, hall⟩ | ⟨o, ho, heq, rfl⟩)
        · exact Or.inl ⟨Or.inl rfl, h⟩
        · exact Or.inl ⟨Or.inr hr, hne⟩
        · refine Or.inr (Or.inl ⟨rfl, ?_⟩)
          rintro o (rfl | ho)
          · exact h
          · exact hall o ho
        · exact Or.inr (Or.inr ⟨o, Or.inr ho, heq, rfl⟩)
      · rintro (⟨rfl | hr, hne⟩ | ⟨rfl, hall⟩ | ⟨o, rfl | ho, heq, rfl⟩)
        · exact Or.inl rfl
        · exact Or.inr (Or.inl ⟨hr, hne⟩)
        · exact Or.inr (Or.inr (Or.inl ⟨rfl, fun o ho => hall o (Or.inr ho)⟩))
        · exact absurd heq h
        · exact Or.inr (Or.inr (Or.inr ⟨o, ho, heq, rfl⟩))

/-- Whether one more entry may be added: the limits leave room and its identity
    is its own. -/
structure Addable (codec : LineCodec) (added : List (Entry × Option υ)) (entry : Entry) :
    Prop where
  records : added.length + 1 ≤ 1000000
  bytes : (added.map fun p => (codec.dump p.1 ++ [newline]).length).sum +
    (codec.dump entry ++ [newline]).length ≤ 2 * 1024 ^ 3
  identity : ∀ p ∈ added, SameIdentity p.1 entry → p.1 = entry

variable {T : Set Entry} {added : List (Entry × Option υ)} {index index' : JournalIndex υ}
  {entry : Entry} {uri : Option υ}

/-- Reading an entry again changes no table. -/
theorem Indexes.duplicate (h : Indexes codec added index) {p : Entry × Option υ}
    (hp : p ∈ added) (hentry : p.1 = entry) :
    Indexes codec (added ++ [(entry, uri)])
      { index with
        observedRecords := index.observedRecords + 1
        observedBytes := index.observedBytes + (codec.dump entry ++ [newline]).length
        duplicates := index.duplicates + 1 } := by
  subst hentry
  have hex : ∀ {q : Entry → Prop}, (∃ r ∈ added ++ [(p.1, uri)], q r.1) ↔ ∃ r ∈ added, q r.1 := by
    intro q
    constructor
    · rintro ⟨r, hr, hq⟩
      rcases List.mem_append.mp hr with hr | hr
      · exact ⟨r, hr, hq⟩
      · rw [List.mem_singleton] at hr
        exact ⟨p, hp, by rw [hr] at hq; exact hq⟩
    · rintro ⟨r, hr, hq⟩
      exact ⟨r, List.mem_append_left _ hr, hq⟩
  have hall : ∀ {q : Entry → Prop}, (∀ r ∈ added, q r.1) → ∀ r ∈ added ++ [(p.1, uri)], q r.1 := by
    intro q hq r hr
    rcases List.mem_append.mp hr with hr | hr
    · exact hq r hr
    · rw [List.mem_singleton] at hr
      rw [hr]
      exact hq p hp
  refine
    { observedRecords := by simp [h.observedRecords]
      observedBytes := by simp [h.observedBytes]
      limits := h.limits
      seenRow := fun row hrow => (hex (q := fun e => row =
        ⟨e.id, entryDigest codec e, e.nameSpace⟩)).mpr (h.seenRow row hrow)
      seenAll := hall (q := fun e => ∃ row ∈ index.seen, row.id = e.id) h.seenAll
      seenNodup := h.seenNodup
      versionRow := fun row hrow => (hex (q := fun e => row =
        ⟨e.origin, e.version, entryDigest codec e⟩)).mpr (h.versionRow row hrow)
      versionAll := hall (q := fun e => ∃ row ∈ index.versions,
        row.origin = e.origin ∧ row.version = e.version) h.versionAll
      latestRow := fun row hrow => (hex (q := fun e => row.origin = e.origin ∧
        row.version = e.version ∧ row.action = e.action ∧
        row.line = codec.dump e ++ [newline])).mpr (h.latestRow row hrow)
      latestMax := fun row hrow => hall (q := fun e => e.origin = row.origin →
        e.version ≤ row.version) (h.latestMax row hrow)
      latestDenied := fun row hrow => (h.latestDenied row hrow).trans
        (hex (q := fun e => e.origin = row.origin ∧ e.action = .forget)).symm
      latestAll := hall (q := fun e => ∃ row ∈ index.latest, row.origin = e.origin) h.latestAll
      latestNodup := h.latestNodup
      located := ?_
      consistent := fun r hr => hall (q := fun e => SameIdentity r.1 e → r.1 = e) <|
        hall (q := fun e => ∀ q ∈ added, SameIdentity e q.1 → e = q.1) h.consistent r hr }
  intro id
  rw [h.located, List.find?_append]
  cases hfind : added.find? (·.1.id = id) with
  | some r => rfl
  | none =>
    have hne : ¬ p.1.id = id := by simpa using List.find?_eq_none.mp hfind p hp
    simp [hne]

/-- Reading an entry whose id is new. -/
theorem Indexes.fresh (h : Indexes codec added index)
    (hnew : ∀ p ∈ added, ¬ SameIdentity p.1 entry) :
    Indexes codec (added ++ [(entry, uri)])
      { index with
        observedRecords := index.observedRecords + 1
        observedBytes := index.observedBytes + (codec.dump entry ++ [newline]).length
        records := index.records + 1
        bytes := index.bytes + (codec.dump entry ++ [newline]).length
        seen := index.seen ++ [⟨entry.id, entryDigest codec entry, entry.nameSpace⟩]
        locations := index.locations ++ [(entry.id, uri)]
        versions := index.versions ++ [⟨entry.origin, entry.version, entryDigest codec entry⟩]
        latest := JournalIndex.upsertLatest ⟨entry.origin, entry.version, entry.action = .forget,
          entry.action, codec.dump entry ++ [newline]⟩ index.latest } := by
  have hid : ∀ p ∈ added, p.1.id ≠ entry.id := fun p hp heq => hnew p hp (Or.inl heq)
  refine
    { observedRecords := by simp [h.observedRecords]
      observedBytes := by simp [h.observedBytes]
      limits := h.limits
      seenRow := ?_, seenAll := ?_, seenNodup := ?_, versionRow := ?_, versionAll := ?_
      latestRow := ?_, latestMax := ?_, latestDenied := ?_, latestAll := ?_
      latestNodup := ?_, located := ?_, consistent := ?_ }
  · intro row hrow
    rcases List.mem_append.mp hrow with hrow | hrow
    · obtain ⟨p, hp, heq⟩ := h.seenRow row hrow
      exact ⟨p, List.mem_append_left _ hp, heq⟩
    · exact ⟨(entry, uri), by simp, List.mem_singleton.mp hrow⟩
  · intro p hp
    rcases List.mem_append.mp hp with hp | hp
    · obtain ⟨row, hrow, heq⟩ := h.seenAll p hp
      exact ⟨row, List.mem_append_left _ hrow, heq⟩
    · rw [List.mem_singleton] at hp
      exact ⟨_, List.mem_append_right _ (List.mem_singleton.mpr rfl), by rw [hp]⟩
  · rw [List.map_append, List.nodup_append]
    refine ⟨h.seenNodup, List.nodup_singleton _, ?_⟩
    intro a ha b hb hab
    obtain ⟨row, hrow, rfl⟩ := List.mem_map.mp ha
    obtain ⟨p, hp, rfl⟩ := h.seenRow row hrow
    simp only [List.map_cons, List.map_nil, List.mem_singleton] at hb
    exact hid p hp (hab.trans hb)
  · intro row hrow
    rcases List.mem_append.mp hrow with hrow | hrow
    · obtain ⟨p, hp, heq⟩ := h.versionRow row hrow
      exact ⟨p, List.mem_append_left _ hp, heq⟩
    · exact ⟨(entry, uri), by simp, List.mem_singleton.mp hrow⟩
  · intro p hp
    rcases List.mem_append.mp hp with hp | hp
    · obtain ⟨row, hrow, heq⟩ := h.versionAll p hp
      exact ⟨row, List.mem_append_left _ hrow, heq⟩
    · rw [List.mem_singleton] at hp
      exact ⟨_, List.mem_append_right _ (List.mem_singleton.mpr rfl), by rw [hp]; exact ⟨rfl, rfl⟩⟩
  · intro row hrow
    rcases (mem_upsertLatest h.latestNodup).mp hrow with ⟨hold, -⟩ | ⟨rfl, -⟩ | ⟨old, hold, heq, rfl⟩
    · obtain ⟨p, hp, hrest⟩ := h.latestRow row hold
      exact ⟨p, List.mem_append_left _ hp, hrest⟩
    · exact ⟨(entry, uri), by simp, rfl, rfl, rfl, rfl⟩
    · obtain ⟨p, hp, ho, hv, ha, hl⟩ := h.latestRow old hold
      by_cases hlt : old.version < entry.version
      · refine ⟨(entry, uri), by simp, heq, ?_, ?_, ?_⟩
        · exact Nat.max_eq_right (Nat.le_of_lt hlt)
        · simp [JournalIndex.merge, hlt]
        · simp [JournalIndex.merge, hlt]
      · refine ⟨p, List.mem_append_left _ hp, ho, ?_, ?_, ?_⟩
        · rw [← hv]; exact Nat.max_eq_left (Nat.not_lt.mp hlt)
        · simp [JournalIndex.merge, hlt, ha]
        · simp [JournalIndex.merge, hlt, hl]
  · intro row hrow p hp hpo
    rcases (mem_upsertLatest h.latestNodup).mp hrow with ⟨hold, hne⟩ | ⟨rfl, hall⟩ |
      ⟨old, hold, heq, rfl⟩
    · rcases List.mem_append.mp hp with hp | hp
      · exact h.latestMax row hold p hp hpo
      · rw [List.mem_singleton] at hp
        exact absurd (by rw [← hpo, hp]) hne
    · rcases List.mem_append.mp hp with hp | hp
      · obtain ⟨r, hr, hro⟩ := h.latestAll p hp
        exact absurd (hro.trans hpo) (hall r hr)
      · rw [List.mem_singleton] at hp
        rw [hp]
    · rcases List.mem_append.mp hp with hp | hp
      · exact Nat.le_trans (h.latestMax old hold p hp hpo) (Nat.le_max_left _ _)
      · rw [List.mem_singleton] at hp
        rw [hp]
        exact Nat.le_max_right _ _
  · intro row hrow
    have hnew : ∀ {q : Entry → Prop}, (∃ r ∈ added ++ [(entry, uri)], q r.1) ↔
        (∃ r ∈ added, q r.1) ∨ q entry := by
      intro q
      simp only [List.mem_append, List.mem_singleton, or_and_right, exists_or, exists_eq_left]
    rw [hnew (q := fun e => e.origin = row.origin ∧ e.action = .forget)]
    rcases (mem_upsertLatest h.latestNodup).mp hrow with ⟨hold, hne⟩ | ⟨rfl, hall⟩ |
      ⟨old, hold, heq, rfl⟩
    · rw [h.latestDenied row hold]
      exact ⟨Or.inl, fun hor => hor.resolve_right fun hb => hne hb.1.symm⟩
    · simp only [decide_eq_true_eq, true_and]
      refine ⟨Or.inr, fun hor => hor.resolve_left ?_⟩
      rintro ⟨p, hp, hpo, -⟩
      obtain ⟨r, hr, hro⟩ := h.latestAll p hp
      exact hall r hr (hro.trans hpo)
    · simp only [JournalIndex.merge, Bool.or_eq_true, decide_eq_true_eq, h.latestDenied old hold]
      have heq' : entry.origin = old.origin := heq.symm
      simp [heq']
  · intro p hp
    have hmem : p.1.origin ∈ (JournalIndex.upsertLatest ⟨entry.origin, entry.version,
        entry.action = .forget, entry.action, codec.dump entry ++ [newline]⟩ index.latest).map
          (·.origin) := by
      rw [map_origin_upsertLatest]
      rcases List.mem_append.mp hp with hp | hp
      · obtain ⟨r, hr, hro⟩ := h.latestAll p hp
        have : p.1.origin ∈ index.latest.map (·.origin) := List.mem_map.mpr ⟨r, hr, hro⟩
        split
        · exact this
        · exact List.mem_append_left _ this
      · rw [List.mem_singleton] at hp
        rw [hp]
        split
        · assumption
        · simp
    obtain ⟨r, hr, hro⟩ := List.mem_map.mp hmem
    exact ⟨r, hr, hro⟩
  · rw [map_origin_upsertLatest]
    split
    · exact h.latestNodup
    · next hnot =>
      refine List.nodup_append.mpr ⟨h.latestNodup, List.nodup_singleton _, ?_⟩
      intro a ha b hb hab
      rw [List.mem_singleton] at hb
      exact hnot (hb ▸ hab ▸ ha)
  · intro id
    rw [List.find?_append, h.located, List.find?_append]
    cases hfind : added.find? (·.1.id = id) with
    | some r => rfl
    | none =>
      by_cases heq : entry.id = id <;> simp [heq]
  · intro p hp q hq hsame
    rcases List.mem_append.mp hp with hp | hp <;> rcases List.mem_append.mp hq with hq | hq
    · exact h.consistent p hp q hq hsame
    · rw [List.mem_singleton] at hq
      exact absurd (by rw [hq] at hsame; exact hsame) (hnew p hp)
    · rw [List.mem_singleton] at hp
      have hsymm : SameIdentity q.1 entry := by
        rw [hp] at hsame
        exact hsame.imp Eq.symm fun hb => ⟨hb.1.symm, hb.2.symm⟩
      exact absurd hsymm (hnew q hq)
    · rw [List.mem_singleton] at hp hq
      rw [hp, hq]

/-- The tables of an index, with the counters and limits of a default index that read
    `added`. -/
def JournalIndex.standard (codec : LineCodec) (added : List (Entry × Option υ)) (index : JournalIndex υ) :
    JournalIndex υ :=
  { index with
    maxRecords := 1000000
    maxBytes := 2 * 1024 ^ 3
    observedRecords := added.length
    observedBytes := (added.map fun p => (codec.dump p.1 ++ [newline]).length).sum }

theorem Indexes.standard (h : Indexes codec added index) : index.standard codec added = index := by
  unfold JournalIndex.standard
  rw [← h.observedRecords, ← h.observedBytes, ← h.limits.1, ← h.limits.2]

/-- The index after an entry that it has. -/
def JournalIndex.again (codec : LineCodec) (index : JournalIndex υ) (entry : Entry) : JournalIndex υ :=
  { index with
    observedRecords := index.observedRecords + 1
    observedBytes := index.observedBytes + (codec.dump entry ++ [newline]).length
    duplicates := index.duplicates + 1 }

/-- The index after a new entry. -/
def JournalIndex.taken (codec : LineCodec) (index : JournalIndex υ) (entry : Entry) (uri : Option υ) :
    JournalIndex υ :=
  { index with
    observedRecords := index.observedRecords + 1
    observedBytes := index.observedBytes + (codec.dump entry ++ [newline]).length
    records := index.records + 1
    bytes := index.bytes + (codec.dump entry ++ [newline]).length
    seen := index.seen ++ [⟨entry.id, entryDigest codec entry, entry.nameSpace⟩]
    locations := index.locations ++ [(entry.id, uri)]
    versions := index.versions ++ [⟨entry.origin, entry.version, entryDigest codec entry⟩]
    latest := JournalIndex.upsertLatest ⟨entry.origin, entry.version, entry.action = .forget,
      entry.action, codec.dump entry ++ [newline]⟩ index.latest }

theorem JournalIndex.standard_again :
    (index.again codec entry).standard codec (added ++ [(entry, uri)]) =
      (index.standard codec added).again codec entry := by
  simp [JournalIndex.again, JournalIndex.standard]

theorem JournalIndex.standard_taken :
    (index.taken codec entry uri).standard codec (added ++ [(entry, uri)]) =
      (index.standard codec added).taken codec entry uri := by
  simp [JournalIndex.taken, JournalIndex.standard]

/-- The limits of an index leave room for an entry. -/
def JournalIndex.Room (codec : LineCodec) (index : JournalIndex υ) (entry : Entry) : Prop :=
  index.observedRecords + 1 ≤ index.maxRecords ∧
    index.observedBytes + (codec.dump entry ++ [newline]).length ≤ index.maxBytes

/-- **One `add` under any limits**, by the entries read before. -/
inductive AddOutcome (codec : LineCodec) (added : List (Entry × Option υ)) (index : JournalIndex υ) (entry : Entry)
    (uri : Option υ) : Except JournalError (JournalIndex υ) → Prop
  | full : ¬index.Room codec entry → AddOutcome codec added index entry uri (.error .journalInventoryLimit)
  | again : index.Room codec entry → (∃ p ∈ added, p.1 = entry) →
      AddOutcome codec added index entry uri (.ok (index.again codec entry))
  | taken : index.Room codec entry → (∀ p ∈ added, ¬SameIdentity p.1 entry) →
      AddOutcome codec added index entry uri (.ok (index.taken codec entry uri))
  | entryConflict : (∃ p ∈ added, p.1.id = entry.id ∧ p.1 ≠ entry) →
      AddOutcome codec added index entry uri (.error .journalEntryConflict)
  | versionConflict : (∃ p ∈ added, p.1.origin = entry.origin ∧ p.1.version = entry.version ∧ p.1 ≠ entry) →
      AddOutcome codec added index entry uri (.error .journalVersionConflict)

/-- **One `add`**: refused for its limits, repeated, taken, or in conflict. -/
theorem Indexes.outcome (uri : Option υ) (hT : Digestible codec T) (hadded : ∀ p ∈ added, p.1 ∈ T)
    (hentry : entry ∈ T) (h : Indexes codec added (index.standard codec added)) :
    AddOutcome codec added index entry uri (index.add codec entry uri) := by
  have hrec := hT.recordable entry hentry
  have hcollision : ∀ p ∈ added, entryDigest codec p.1 = entryDigest codec entry → p.1 = entry :=
    fun p hp => hT.collision_free p.1 (hadded p hp) entry hentry
  unfold JournalIndex.add
  rw [hrec.line_ok, hrec.digest_ok]
  by_cases hroom : index.Room codec entry
  · have hcheck : check (index.observedRecords + 1 ≤ index.maxRecords ∧
        index.observedBytes + (codec.dump entry ++ [newline]).length ≤ index.maxBytes)
        JournalError.journalInventoryLimit = .ok () := check_eq_ok.mpr hroom
    simp only [bind, Except.bind, hcheck]
    cases hfind : index.seen.find? (·.id = entry.id) with
    | some row =>
      -- the id was read before: the digests agree exactly for the same entry
      obtain ⟨p, hp, hrow⟩ := h.seenRow row (List.mem_of_find?_eq_some hfind)
      have hid : p.1.id = entry.id := by
        have hkey := List.find?_some hfind
        simpa [hrow] using hkey
      by_cases hdigest : row.digest = entryDigest codec entry
      · have hsame : p.1 = entry := by
          apply hcollision p hp
          rw [hrow] at hdigest
          exact hdigest
        dsimp only
        rw [show check (row.digest = entryDigest codec entry) JournalError.journalEntryConflict = .ok () from
          check_eq_ok.mpr hdigest]
        exact .again hroom ⟨p, hp, hsame⟩
      · dsimp only
        rw [show check (row.digest = entryDigest codec entry) JournalError.journalEntryConflict =
          .error .journalEntryConflict from if_neg hdigest]
        refine .entryConflict ⟨p, hp, hid, fun heq => hdigest ?_⟩
        rw [hrow, heq]
    | none =>
      have hid : ∀ p ∈ added, p.1.id ≠ entry.id := by
        intro p hp heq
        obtain ⟨row, hrow, hrid⟩ := h.seenAll p hp
        have hno := List.find?_eq_none.mp hfind row hrow
        simp [hrid, heq] at hno
      cases hv : index.versions.find? fun row => row.origin = entry.origin ∧ row.version = entry.version with
      | some row =>
        obtain ⟨p, hp, hrow⟩ := h.versionRow row (List.mem_of_find?_eq_some hv)
        have hkey := List.find?_some hv
        rw [hrow, decide_eq_true_eq] at hkey
        have hne : p.1 ≠ entry := fun heq => hid p hp (congrArg Entry.id heq)
        have hdigest : ¬row.digest = entryDigest codec entry := by
          rw [hrow]
          exact fun heq => hne (hcollision p hp heq)
        dsimp only [Option.all]
        rw [show check (decide (row.digest = entryDigest codec entry) = true) JournalError.journalVersionConflict =
          .error .journalVersionConflict from if_neg (by simpa using hdigest)]
        exact .versionConflict ⟨p, hp, hkey.1, hkey.2, hne⟩
      | none =>
        refine .taken hroom ?_
        rintro p hp (heq | hmatch)
        · exact hid p hp heq
        · obtain ⟨row, hrow, ho, hversion⟩ := h.versionAll p hp
          have hno := List.find?_eq_none.mp hv row hrow
          simp [ho, hversion, hmatch] at hno
  · have hcheck : check (index.observedRecords + 1 ≤ index.maxRecords ∧
        index.observedBytes + (codec.dump entry ++ [newline]).length ≤ index.maxBytes)
        JournalError.journalInventoryLimit = .error .journalInventoryLimit := if_neg hroom
    simp only [bind, Except.bind, hcheck]
    exact .full hroom

/-- What was read determines whether an identity is an entry's own. -/
theorem Indexes.tables {index' : JournalIndex υ} (h : Indexes codec added (index.standard codec added))
    (houtcome : AddOutcome codec added index entry uri (.ok index')) :
    index.Room codec entry ∧ (∀ p ∈ added, SameIdentity p.1 entry → p.1 = entry) ∧
      Indexes codec (added ++ [(entry, uri)]) (index'.standard codec (added ++ [(entry, uri)])) := by
  cases houtcome with
  | again hroom hread =>
    obtain ⟨p, hp, hsame⟩ := hread
    refine ⟨hroom, fun q hq hqs => ?_, ?_⟩
    · rw [← hsame] at hqs ⊢
      exact h.consistent q hq p hp hqs
    · rw [JournalIndex.standard_again]
      exact h.duplicate hp hsame
  | taken hroom hnew =>
    refine ⟨hroom, fun q hq hqs => absurd hqs (hnew q hq), ?_⟩
    rw [JournalIndex.standard_taken]
    exact h.fresh hnew

/-- **One `add`.**  It succeeds exactly for an addable entry, and then the tables
    say what they should about one entry more. -/
theorem Indexes.add (uri : Option υ) (hT : Digestible codec T) (hadded : ∀ p ∈ added, p.1 ∈ T)
    (hentry : entry ∈ T) (h : Indexes codec added index) :
    (Addable codec added entry → ∃ index', index.add codec entry uri = .ok index') ∧
      ∀ index', index.add codec entry uri = .ok index' →
        Addable codec added entry ∧ Indexes codec (added ++ [(entry, uri)]) index' := by
  have hroom : index.Room codec entry ↔ (added.length + 1 ≤ 1000000 ∧
      (added.map fun p => (codec.dump p.1 ++ [newline]).length).sum +
        (codec.dump entry ++ [newline]).length ≤ 2 * 1024 ^ 3) := by
    unfold JournalIndex.Room
    rw [h.observedRecords, h.observedBytes, h.limits.1, h.limits.2]
  have hstandard : Indexes codec added (index.standard codec added) := h.standard.symm ▸ h
  have houtcome := hstandard.outcome uri hT hadded hentry
  constructor
  · intro hadd
    generalize hresult : index.add codec entry uri = result at houtcome
    cases houtcome with
    | full hfull => exact absurd (hroom.mpr ⟨hadd.records, hadd.bytes⟩) hfull
    | again _ _ => exact ⟨_, rfl⟩
    | taken _ _ => exact ⟨_, rfl⟩
    | entryConflict hconflict =>
      obtain ⟨p, hp, hid, hne⟩ := hconflict
      exact absurd (hadd.identity p hp (Or.inl hid)) hne
    | versionConflict hconflict =>
      obtain ⟨p, hp, horigin, hversion, hne⟩ := hconflict
      exact absurd (hadd.identity p hp (Or.inr ⟨horigin, hversion⟩)) hne
  · intro index' hok
    rw [hok] at houtcome
    obtain ⟨hfits, hidentity, htables⟩ := hstandard.tables houtcome
    refine ⟨⟨(hroom.mp hfits).1, (hroom.mp hfits).2, hidentity⟩, ?_⟩
    -- a default index keeps its limits and counts what it reads
    have hsame : index'.standard codec (added ++ [(entry, uri)]) = index' := by
      cases houtcome with
      | again _ _ =>
        rw [JournalIndex.standard_again, h.standard]
      | taken _ _ =>
        rw [JournalIndex.standard_taken, h.standard]
    exact hsame ▸ htables

/-! ### Current memories -/

/-- The entry to project for its origin: an upsert with the highest version, of
    an origin no entry forgets. -/
structure Current (added : List (Entry × Option υ)) (entry : Entry) : Prop where
  read : ∃ p ∈ added, p.1 = entry
  upsert : entry.action = .upsert
  highest : ∀ p ∈ added, p.1.origin = entry.origin → p.1.version ≤ entry.version
  kept : ∀ p ∈ added, p.1.origin = entry.origin → p.1.action ≠ .forget

theorem Current.perm {added added' : List (Entry × Option υ)} (h : added.Perm added')
    (hcurrent : Current added entry) : Current added' entry where
  read := by
    obtain ⟨p, hp, heq⟩ := hcurrent.read
    exact ⟨p, h.mem_iff.mp hp, heq⟩
  upsert := hcurrent.upsert
  highest := fun p hp => hcurrent.highest p (h.mem_iff.mpr hp)
  kept := fun p hp => hcurrent.kept p (h.mem_iff.mpr hp)

/-- The location of the first entry read under this id. -/
def firstLocation (added : List (Entry × Option υ)) (entry : Entry) : Option υ :=
  (added.find? (·.1.id = entry.id)).bind (·.2)

theorem Indexes.location (h : Indexes codec added index) (entry : Entry) :
    index.location entry = firstLocation added entry := by
  rw [JournalIndex.location, h.located, firstLocation]
  cases added.find? (·.1.id = entry.id) <;> rfl

/-- An origin has at most one current entry. -/
theorem Current.unique (h : Indexes codec added index) {a b : Entry} (ha : Current added a)
    (hb : Current added b) (horigin : a.origin = b.origin) : a = b := by
  obtain ⟨p, hp, rfl⟩ := ha.read
  obtain ⟨q, hq, rfl⟩ := hb.read
  have hle := ha.highest q hq horigin.symm
  have hge := hb.highest p hp horigin
  exact h.consistent p hp q hq (Or.inr ⟨horigin, Nat.le_antisymm hge hle⟩)

/-- A row that is neither denied nor quarantined holds the current entry of its
    origin. -/
theorem Indexes.row_current (h : Indexes codec added index) {row : LatestRow}
    (hrow : row ∈ index.latest) (hdenied : row.denied = false) (haction : row.action = .upsert) :
    ∃ entry, Current added entry ∧ row.origin = entry.origin ∧
      row.line = codec.dump entry ++ [newline] := by
  obtain ⟨p, hp, horigin, hversion, hpaction, hline⟩ := h.latestRow row hrow
  refine ⟨p.1, ⟨⟨p, hp, rfl⟩, hpaction ▸ haction, ?_, ?_⟩, horigin, hline⟩
  · intro q hq hqo
    rw [← hversion]
    exact h.latestMax row hrow q hq (hqo.trans horigin.symm)
  · intro q hq hqo hforget
    have := (h.latestDenied row hrow).mpr ⟨q, hq, hqo.trans horigin.symm, hforget⟩
    simp [hdenied] at this

/-- Every current entry has such a row. -/
theorem Indexes.current_row (h : Indexes codec added index) (hcurrent : Current added entry) :
    ∃ row ∈ index.latest, row.denied = false ∧ row.action = .upsert ∧
      row.origin = entry.origin ∧ row.line = codec.dump entry ++ [newline] := by
  obtain ⟨p, hp, rfl⟩ := hcurrent.read
  obtain ⟨row, hrow, horigin⟩ := h.latestAll p hp
  obtain ⟨q, hq, hqo, hqv, hqa, hql⟩ := h.latestRow row hrow
  have hle := h.latestMax row hrow p hp horigin.symm
  have hge := hcurrent.highest q hq (hqo.symm.trans horigin)
  have hsame : q.1 = p.1 := by
    refine h.consistent q hq p hp (Or.inr ⟨hqo.symm.trans horigin, ?_⟩)
    omega
  refine ⟨row, hrow, ?_, ?_, horigin, by rw [hql, hsame]⟩
  · cases hd : row.denied with
    | false => rfl
    | true =>
      obtain ⟨r, hr, hro, hrf⟩ := (h.latestDenied row hrow).mp hd
      exact absurd hrf (hcurrent.kept r hr (hro.trans horigin))
  · rw [hqa, hsame]
    exact hcurrent.upsert

/-- **`current` lists the current entries**, one for each origin. -/
theorem Indexes.currentLines (h : Indexes codec added index) :
    ∃ entries : List Entry,
      index.currentLines = entries.map (fun e => codec.dump e ++ [newline]) ∧
      (entries.map Entry.origin).Nodup ∧ ∀ e, e ∈ entries ↔ Current added e := by
  set rows := (index.latest.filter fun row => !row.denied && row.action = .upsert).insertionSort
    fun a b => JournalIndex.originLe a.origin b.origin with hrows
  have hmem : ∀ row, row ∈ rows ↔
      row ∈ index.latest ∧ row.denied = false ∧ row.action = .upsert := by
    intro row
    rw [hrows, List.mem_insertionSort, List.mem_filter]
    simp
  have hnodup : (rows.map (·.origin)).Nodup := by
    have hperm : rows.Perm (index.latest.filter fun row => !row.denied && row.action = .upsert) :=
      List.perm_insertionSort _ _
    refine (hperm.map _).nodup_iff.mpr ?_
    exact (List.Sublist.map _ List.filter_sublist).nodup h.latestNodup
  have hentry : ∀ row ∈ rows, ∃ e, Current added e ∧ row.origin = e.origin ∧
      row.line = codec.dump e ++ [newline] := fun row hrow =>
    h.row_current ((hmem row).mp hrow).1 ((hmem row).mp hrow).2.1 ((hmem row).mp hrow).2.2
  -- the entry behind each row, in the order of the rows
  choose entryOf hentryOf using hentry
  refine ⟨rows.pmap entryOf fun _ hrow => hrow, ?_, ?_, ?_⟩
  · rw [List.map_pmap]
    show rows.map (·.line) = _
    rw [← List.pmap_eq_map (p := (· ∈ rows)) (H := fun _ hrow => hrow)]
    exact List.pmap_congr_left _ fun row hrow _ _ => (hentryOf row hrow).2.2
  · have horigins : (rows.pmap entryOf fun _ hrow => hrow).map Entry.origin =
        rows.map (·.origin) := by
      rw [List.map_pmap, ← List.pmap_eq_map (p := (· ∈ rows)) (H := fun _ hrow => hrow)]
      exact List.pmap_congr_left _ fun row hrow _ _ => (hentryOf row hrow).2.1.symm
    exact horigins ▸ hnodup
  · intro e
    rw [List.mem_pmap]
    constructor
    · rintro ⟨row, hrow, rfl⟩
      exact (hentryOf row hrow).1
    · intro hcurrent
      obtain ⟨row, hrow, hdenied, haction, horigin, -⟩ := h.current_row hcurrent
      have hrow' := (hmem row).mpr ⟨hrow, hdenied, haction⟩
      have hthis := hentryOf row hrow'
      exact ⟨row, hrow', Current.unique h hthis.1 hcurrent (hthis.2.1.symm.trans horigin)⟩

end

theorem sampleCodec_digestible {T : Set Entry} (hT : ∀ e ∈ T, e = sampleEntry) : Digestible sampleCodec T where
  recordable e he := by
    rw [hT e he]
    exact ⟨sampleCodec_faithful, by decide +kernel⟩
  collision_free a ha b hb _ := (hT a ha).trans (hT b hb).symm

end Mnemion.Journal
