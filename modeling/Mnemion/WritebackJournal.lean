/-
  Mnemion/WritebackJournal.lean
  =============================
  **A quiescent journal equals the store.**  `Sound` is what every transaction keeps of
  the tables; `Publishing` adds what is in flight and what was published.  When nothing is
  undelivered, the last upsert of every shown memory was published, and nothing that hides
  a memory is missing.
-/
import Mathlib.Data.List.Perm.Subperm
import Mnemion.WritebackPublication

namespace Mnemion.Writeback

variable {D : Destination} {tables tables' : Tables} {row after : Memory} {before : Option Memory}
  {event event' : Event} {entry : Entry}

/-! ### Events that grow older -/

/-- Only the delivery of an event changes, and only of an undelivered one. -/
structure Aged (event event' : Event) : Prop where
  same : event' = { event with delivery := event'.delivery }
  kept : event.undelivered = false → event' = event

theorem Aged.refl (event : Event) : Aged event event := ⟨rfl, fun _ => rfl⟩

theorem aged_of_undelivered {delivery : Delivery} (h : event.undelivered = true) :
    Aged event { event with delivery := delivery } :=
  ⟨rfl, fun hdelivered => absurd h (by simp [hdelivered])⟩

namespace Aged

variable (h : Aged event event')
include h

theorem id : event'.id = event.id := by rw [h.same]

theorem memory : event'.memory = event.memory := by rw [h.same]

theorem version : event'.version = event.version := by rw [h.same]

theorem action : event'.action = event.action := by rw [h.same]

theorem revision : event'.revision = event.revision := by rw [h.same]

end Aged

/-- The events of later tables are those of the earlier ones, grown older, and new ones. -/
structure Later (tables tables' : Tables) (age : Event → Event) (new : List Event) : Prop where
  aged : ∀ event ∈ tables.events, Aged event (age event)
  events : tables'.events = tables.events.map age ++ new
  revisions : ∀ id found, tables.revision id = some found → tables'.revision id = some found

theorem Later.mem {age : Event → Event} {new : List Event} (h : Later tables tables' age new)
    (hevent : event ∈ tables.events) : age event ∈ tables'.events := by
  rw [h.events]
  exact List.mem_append_left _ (List.mem_map_of_mem hevent)

theorem Later.origin {age : Event → Event} {new : List Event} (h : Later tables tables' age new)
    (hevent : event' ∈ tables'.events) : event' ∈ new ∨ ∃ event ∈ tables.events, age event = event' := by
  rw [h.events] at hevent
  rcases List.mem_append.mp hevent with hold | hnew
  · exact Or.inr (List.mem_map.mp hold)
  · exact Or.inl hnew

/-- What a change makes of the events that are there: a denial takes back what was not delivered. -/
def agedBy (event other : Event) : Event :=
  if event.action ≠ .upsert ∧ other.memory = event.memory ∧ other.action = .upsert ∧
      other.undelivered = true then
    { other with delivery := .suppressed }
  else other

theorem Moved.later (h : Moved true tables tables' before after event) :
    Later tables tables' (agedBy event) [event] where
  aged := by
    intro other _
    unfold agedBy
    split
    · rename_i htaken
      exact aged_of_undelivered htaken.2.2.2
    · exact Aged.refl other
  events := by
    rw [h.events]
    unfold eventsAfter
    rw [if_pos rfl]
    split
    · rename_i hupsert
      have hkept : agedBy event = fun other => other := by
        funext other
        exact if_neg fun htaken => htaken.1 hupsert
      rw [hkept, List.map_id']
    · rename_i hdenial
      congr 1
      refine List.map_congr_left fun other _ => ?_
      by_cases htaken : other.memory = event.memory ∧ other.action = .upsert ∧ other.undelivered = true
      · simp [agedBy, hdenial, htaken]
      · have hleft : agedBy event other = other := if_neg fun h => htaken h.2
        rw [hleft]
        exact if_neg (by simpa [and_assoc] using htaken)
  revisions := h.revisions

theorem Delivered.later {select : Event → Bool} {delivery : Delivery}
    (h : Delivered tables tables' select delivery) :
    Later tables tables'
      (fun event => if select event then { event with delivery := delivery } else event) [] where
  aged := by
    intro event hevent
    split
    · rename_i hselect
      exact aged_of_undelivered (h.undelivered event hevent hselect)
    · exact Aged.refl event
  events := by
    rw [h.events, List.append_nil]
    rfl
  revisions := by
    intro id found hfound
    unfold Tables.revision at hfound ⊢
    rwa [h.revisions]

/-! ### Sound tables -/

/-- **What every transaction keeps of the tables.** -/
structure Sound (tables : Tables) : Prop where
  keyed : Keyed tables
  current : ∀ id row, tables.memory id = some row → (tables.revision row.revision).isSome = true
  owned : ∀ event ∈ tables.events, ∃ row, tables.memory event.memory = some row ∧
    event.version ≤ row.version
  versions : (tables.events.map fun event => (event.memory, event.version)).Nodup
  body : ∀ event ∈ tables.events, event.action = .upsert → (tables.revisionOf event).isSome = true
  suppressed : ∀ event ∈ tables.events, event.delivery = .suppressed → event.action = .upsert
  /-- The last event of a shown memory publishes its current revision. -/
  latest : ∀ id row, tables.memory id = some row → row.shown = true → ∃ event ∈ tables.events,
    event.memory = id ∧ event.version = row.version ∧ event.action = .upsert ∧
      event.revision = some row.revision ∧ event.delivery ≠ .suppressed
  forgotten : ∀ id row, tables.memory id = some row →
    (row.deleted = true ↔ ∃ event ∈ tables.events, event.memory = id ∧ event.action = .forget)

theorem sound_empty : Sound ⟨[], [], []⟩ where
  keyed := ⟨List.nodup_nil, List.nodup_nil, List.nodup_nil⟩
  current := by simp [Tables.memory]
  owned := by simp
  versions := List.nodup_nil
  body := by simp
  suppressed := by simp
  latest := by simp [Tables.memory]
  forgotten := by simp [Tables.memory]

theorem revisionOf_later {age : Event → Event} {new : List Event} (h : Later tables tables' age new)
    {found : Revision} (hrevision : event'.revision = event.revision)
    (hfound : tables.revisionOf event = some found) : tables'.revisionOf event' = some found := by
  unfold Tables.revisionOf at hfound ⊢
  rw [hrevision]
  cases hid : event.revision with
  | none => rw [hid] at hfound; cases hfound
  | some id =>
    rw [hid] at hfound
    exact h.revisions id found hfound

/-- An entry says the same for ever. -/
theorem entry_later {age : Event → Event} {new : List Event} (hsound : Sound tables)
    (h : Later tables tables' age new) (hevent : event ∈ tables.events) :
    tables'.entry (age event) = tables.entry event := by
  have haged := h.aged event hevent
  have hbody : event.action = .upsert → tables'.revisionOf (age event) = tables.revisionOf event := by
    intro haction
    obtain ⟨found, hfound⟩ := Option.isSome_iff_exists.mp (hsound.body event hevent haction)
    rw [hfound]
    exact revisionOf_later h haged.revision hfound
  have hmatch : (tables'.entry (age event)).body = (tables.entry event).body := by
    unfold Tables.entry
    dsimp only
    rw [haged.action]
    cases haction : event.action with
    | upsert => rw [hbody haction]
    | forget => rfl
    | quarantine => rfl
  have hrest : ∀ entry entry' : Entry, entry.body = entry'.body →
      { entry with body := none } = { entry' with body := none } → entry = entry' := by
    rintro ⟨⟩ ⟨⟩ hbody hrest
    simp_all
  apply hrest _ _ hmatch
  unfold Tables.entry
  rw [haged.same]

/-! ### A change keeps the tables sound -/

section Moved

variable (hsound : Sound tables) (h : Moved true tables tables' before after event)
include hsound h

/-- Every event of a memory is of an earlier version than the change. -/
theorem Moved.earlier (hevent : event' ∈ tables.events) (hmemory : event'.memory = after.id) :
    ∃ row, before = some row ∧ event'.version ≤ row.version := by
  obtain ⟨row, hrow, hle⟩ := hsound.owned event' hevent
  rw [hmemory, h.old] at hrow
  exact ⟨row, hrow, hle⟩

theorem Moved.lt (hevent : event' ∈ tables.events) (hmemory : event'.memory = after.id) :
    event'.version < event.version := by
  obtain ⟨row, rfl, hle⟩ := h.earlier hsound hevent hmemory
  rw [h.eventVersion, h.version]
  exact Nat.lt_succ_of_le hle

theorem Moved.versions :
    (tables'.events.map fun event => (event.memory, event.version)).Nodup := by
  have hkeys : (tables.events.map (agedBy event)).map (fun event => (event.memory, event.version)) =
      tables.events.map fun event => (event.memory, event.version) := by
    rw [List.map_map]
    refine List.map_congr_left fun other hother => ?_
    have haged := h.later.aged other hother
    exact Prod.ext haged.memory haged.version
  rw [h.later.events, List.map_append, hkeys, List.nodup_append]
  refine ⟨hsound.versions, by simp, ?_⟩
  intro a ha b hb
  obtain ⟨other, hother, rfl⟩ := List.mem_map.mp ha
  rw [List.map_singleton, List.mem_singleton] at hb
  subst hb
  intro heq
  have hmemory : other.memory = after.id := (congrArg Prod.fst heq).trans h.memory
  have hversion : other.version = event.version := congrArg Prod.snd heq
  exact absurd hversion (Nat.ne_of_lt (h.lt hsound hother hmemory))

theorem Moved.owned : ∀ event ∈ tables'.events, ∃ row, tables'.memory event.memory = some row ∧
    event.version ≤ row.version := by
  intro other hother
  rcases h.later.origin hother with hnew | ⟨old, hold, rfl⟩
  · rw [List.mem_singleton] at hnew
    subst hnew
    exact ⟨after, by rw [h.memories, if_pos h.memory], h.eventVersion.le⟩
  · have haged := h.later.aged old hold
    rw [haged.memory, haged.version]
    by_cases hmemory : old.memory = after.id
    · refine ⟨after, by rw [h.memories, if_pos hmemory], ?_⟩
      exact h.eventVersion ▸ (h.lt hsound hold hmemory).le
    · obtain ⟨row, hrow, hle⟩ := hsound.owned old hold
      exact ⟨row, by rw [h.memories, if_neg hmemory, hrow], hle⟩

theorem Moved.current' (id : Uuid) (row : Memory) (hrow : tables'.memory id = some row) :
    (tables'.revision row.revision).isSome = true := by
  rw [h.memories] at hrow
  split at hrow
  · cases hrow
    apply h.current
    intro old hbefore
    exact hsound.current after.id old (h.old.trans hbefore)
  · obtain ⟨found, hfound⟩ := Option.isSome_iff_exists.mp (hsound.current id row hrow)
    exact Option.isSome_iff_exists.mpr ⟨found, h.revisions _ _ hfound⟩

theorem Moved.body (hevent : event' ∈ tables'.events) (hupsert : event'.action = .upsert) :
    (tables'.revisionOf event').isSome = true := by
  rcases h.later.origin hevent with hnew | ⟨old, hold, rfl⟩
  · rw [List.mem_singleton] at hnew
    subst hnew
    have hagrees := h.agrees
    unfold Matches at hagrees
    rw [hupsert] at hagrees
    unfold Tables.revisionOf
    rw [hagrees.2.1]
    exact h.current' hsound after.id after (by rw [h.memories, if_pos rfl])
  · have haged := h.later.aged old hold
    rw [haged.action] at hupsert
    obtain ⟨found, hfound⟩ := Option.isSome_iff_exists.mp (hsound.body old hold hupsert)
    exact Option.isSome_iff_exists.mpr ⟨found, revisionOf_later h.later haged.revision hfound⟩

omit hsound in
/-- A change suppresses undelivered upserts only. -/
theorem Moved.suppressed (hevent : event' ∈ tables'.events) (hstate : event'.delivery = .suppressed) :
    ∃ old ∈ tables.events, agedBy event old = event' ∧ (old.delivery = .suppressed ∨
      event.action ≠ .upsert ∧ old.memory = after.id ∧ old.action = .upsert) := by
  rcases h.later.origin hevent with hnew | ⟨old, hold, rfl⟩
  · rw [List.mem_singleton] at hnew
    subst hnew
    exact absurd (h.delivery.symm.trans hstate) (by decide)
  · refine ⟨old, hold, rfl, ?_⟩
    unfold agedBy at hstate
    split at hstate
    · rename_i htaken
      exact Or.inr ⟨htaken.1, htaken.2.1.trans h.memory, htaken.2.2.1⟩
    · exact Or.inl hstate

theorem Moved.latest (id : Uuid) (row : Memory) (hrow : tables'.memory id = some row)
    (hshown : row.shown = true) : ∃ event ∈ tables'.events,
      event.memory = id ∧ event.version = row.version ∧ event.action = .upsert ∧
        event.revision = some row.revision ∧ event.delivery ≠ .suppressed := by
  rw [h.memories] at hrow
  split at hrow
  · rename_i hid
    cases hrow
    have hagrees := h.agrees
    have hnew : event ∈ tables'.events := by
      rw [h.later.events]
      simp
    obtain ⟨hlive, hordinary⟩ : after.deleted = false ∧ after.review = .ordinary := by
      simpa [Memory.shown] using hshown
    unfold Matches at hagrees
    cases haction : event.action with
    | upsert =>
      rw [haction] at hagrees
      refine ⟨event, hnew, h.memory.trans hid.symm, h.eventVersion, haction, hagrees.2.1, ?_⟩
      rw [h.delivery]
      decide
    | quarantine =>
      rw [haction] at hagrees
      exact absurd (hagrees.2.symm.trans hordinary) (by decide)
    | forget =>
      rw [haction] at hagrees
      exact absurd (hagrees.symm.trans hlive) (by decide)
  · rename_i hid
    obtain ⟨old, hold, hmemory, hversion, haction, hrevision, hdelivery⟩ :=
      hsound.latest id row hrow hshown
    have haged := h.later.aged old hold
    refine ⟨agedBy event old, h.later.mem hold, haged.memory.trans hmemory, haged.version.trans hversion,
      haged.action.trans haction, haged.revision.trans hrevision, ?_⟩
    have hother : agedBy event old = old :=
      if_neg fun htaken => hid (hmemory.symm.trans (htaken.2.1.trans h.memory))
    rwa [hother]

theorem Moved.forgotten (id : Uuid) (row : Memory) (hrow : tables'.memory id = some row) :
    row.deleted = true ↔ ∃ event ∈ tables'.events, event.memory = id ∧ event.action = .forget := by
  have hnew : event ∈ tables'.events := by
    rw [h.later.events]
    simp
  have hagrees := h.agrees
  unfold Matches at hagrees
  rw [h.memories] at hrow
  -- the forget events that were there
  have hold : ∀ other ∈ tables'.events, other ≠ event → other.memory = id → other.action = .forget →
      ∃ old ∈ tables.events, old.memory = id ∧ old.action = .forget := by
    intro other hother hne hmemory haction
    rcases h.later.origin hother with hlast | ⟨old, hold, rfl⟩
    · exact absurd (List.mem_singleton.mp hlast) hne
    · have haged := h.later.aged old hold
      exact ⟨old, hold, haged.memory.symm.trans hmemory, haged.action.symm.trans haction⟩
  split at hrow
  · rename_i hid
    cases hrow
    constructor
    · intro hdeleted
      refine ⟨event, hnew, h.memory.trans hid.symm, ?_⟩
      cases haction : event.action with
      | upsert => rw [haction] at hagrees; exact absurd (hdeleted.symm.trans hagrees.1) (by decide)
      | quarantine => rw [haction] at hagrees; exact absurd (hdeleted.symm.trans hagrees.1) (by decide)
      | forget => rfl
    · rintro ⟨other, hother, hmemory, haction⟩
      by_cases hsame : other = event
      · subst hsame
        rw [haction] at hagrees
        exact hagrees
      · -- the memory was live before the change
        obtain ⟨old, holdmem, holdmemory, holdaction⟩ := hold other hother hsame hmemory haction
        obtain ⟨row, hbefore, _⟩ := h.earlier hsound holdmem (holdmemory.trans hid)
        have hdeleted := (hsound.forgotten after.id row (h.old.trans hbefore)).mpr
          ⟨old, holdmem, holdmemory.trans hid, holdaction⟩
        exact absurd ((h.live row hbefore).symm.trans hdeleted) (by decide)
  · rename_i hid
    rw [hsound.forgotten id row hrow]
    constructor
    · rintro ⟨old, holdmem, hmemory, haction⟩
      have haged := h.later.aged old holdmem
      exact ⟨_, h.later.mem holdmem, haged.memory.trans hmemory, haged.action.trans haction⟩
    · rintro ⟨other, hother, hmemory, haction⟩
      refine hold other hother ?_ hmemory haction
      rintro rfl
      exact hid (hmemory.symm.trans h.memory)

/-- **A change keeps the tables sound.** -/
theorem Moved.sound : Sound tables' where
  keyed := h.keyed
  current := h.current' hsound
  owned := h.owned hsound
  versions := h.versions hsound
  body := fun _ hevent hupsert => h.body hsound hevent hupsert
  suppressed := by
    intro other hother hstate
    obtain ⟨old, hold, rfl, hcase⟩ := h.suppressed hother hstate
    rw [(h.later.aged old hold).action]
    rcases hcase with hstate | ⟨_, _, haction⟩
    · exact hsound.suppressed old hold hstate
    · exact haction
  latest := h.latest hsound
  forgotten := h.forgotten hsound

end Moved

/-! ### A delivery keeps the tables sound -/

section Delivered

variable {select : Event → Bool} {delivery : Delivery}

/-- What a delivery may suppress: an upsert that its memory does not show. -/
def Withdraws (tables : Tables) (select : Event → Bool) (delivery : Delivery) : Prop :=
  ∀ event ∈ tables.events, select event = true → delivery = .suppressed →
    event.action = .upsert ∧ tables.shown event.memory = false

variable (hsound : Sound tables) (h : Delivered tables tables' select delivery)
include h

theorem Delivered.memory (id : Uuid) : tables'.memory id = tables.memory id := by
  unfold Tables.memory
  rw [h.memories]

theorem Delivered.revision (id : Uuid) : tables'.revision id = tables.revision id := by
  unfold Tables.revision
  rw [h.revisions]

theorem Delivered.origin (hevent : event' ∈ tables'.events) : ∃ event ∈ tables.events,
    Aged event event' ∧ (event' = event ∨ select event = true ∧ event'.delivery = delivery) := by
  rcases h.later.origin hevent with hnew | ⟨old, hold, rfl⟩
  · cases hnew
  · refine ⟨old, hold, h.later.aged old hold, ?_⟩
    split
    · rename_i hselect
      exact Or.inr ⟨hselect, rfl⟩
    · exact Or.inl rfl

include hsound

/-- **A delivery keeps the tables sound.** -/
theorem Delivered.sound (hwithdraws : Withdraws tables select delivery) : Sound tables' where
  keyed := h.keyed hsound.keyed
  current := by
    intro id row hrow
    rw [h.memory] at hrow
    rw [h.revision]
    exact hsound.current id row hrow
  owned := by
    intro event hevent
    obtain ⟨old, hold, haged, _⟩ := h.origin hevent
    rw [haged.memory, haged.version, h.memory]
    exact hsound.owned old hold
  versions := by
    have hkeys : tables'.events.map (fun event => (event.memory, event.version)) =
        tables.events.map fun event => (event.memory, event.version) := by
      rw [h.events]
      exact Table.map_update fun _ => rfl
    rw [hkeys]
    exact hsound.versions
  body := by
    intro event hevent hupsert
    obtain ⟨old, hold, haged, _⟩ := h.origin hevent
    rw [haged.action] at hupsert
    obtain ⟨found, hfound⟩ := Option.isSome_iff_exists.mp (hsound.body old hold hupsert)
    exact Option.isSome_iff_exists.mpr ⟨found, revisionOf_later h.later haged.revision hfound⟩
  suppressed := by
    intro event hevent hstate
    obtain ⟨old, hold, haged, rfl | ⟨hselect, hdelivery⟩⟩ := h.origin hevent
    · exact hsound.suppressed event hold hstate
    · rw [haged.action]
      exact (hwithdraws old hold hselect (hdelivery.symm.trans hstate)).1
  latest := by
    intro id row hrow hshown
    rw [h.memory] at hrow
    obtain ⟨old, hold, hmemory, hversion, haction, hrevision, hstate⟩ :=
      hsound.latest id row hrow hshown
    have haged := h.later.aged old hold
    refine ⟨_, h.later.mem hold, haged.memory.trans hmemory, haged.version.trans hversion,
      haged.action.trans haction, haged.revision.trans hrevision, ?_⟩
    split
    · rename_i hselect
      intro hsuppressed
      have hhidden := (hwithdraws old hold hselect hsuppressed).2
      unfold Tables.shown at hhidden
      rw [hmemory, hrow, Option.any_some, hshown] at hhidden
      cases hhidden
    · exact hstate
  forgotten := by
    intro id row hrow
    rw [h.memory] at hrow
    rw [hsound.forgotten id row hrow]
    constructor
    · rintro ⟨old, hold, hmemory, haction⟩
      have haged := h.later.aged old hold
      exact ⟨_, h.later.mem hold, haged.memory.trans hmemory, haged.action.trans haction⟩
    · rintro ⟨event, hevent, hmemory, haction⟩
      obtain ⟨old, hold, haged, _⟩ := h.origin hevent
      exact ⟨old, hold, haged.memory.symm.trans hmemory, haged.action.symm.trans haction⟩

end Delivered

theorem deliver_delivered {select : Event → Bool} {delivery : Delivery}
    (h : ∀ event ∈ tables.events, select event = true → event.undelivered = true) :
    Delivered tables (tables.deliver select delivery) select delivery :=
  ⟨rfl, rfl, rfl, h⟩

theorem delivered_refl (delivery : Delivery) :
    Delivered tables tables (fun _ => false) delivery where
  memories := rfl
  revisions := rfl
  events := by simp [Table.update]
  undelivered := by simp

/-- The joined row of an event. -/
theorem eventRow_eq_some {id : Uuid} (hkeyed : Keyed tables)
    (h : tables.eventRow id = some (event, row)) :
    event ∈ tables.events ∧ event.id = id ∧ tables.memory event.memory = some row := by
  unfold Tables.eventRow at h
  simp only [Option.bind_eq_bind, Option.bind_eq_some_iff, Option.pure_def, Option.some.injEq,
    Prod.mk.injEq] at h
  obtain ⟨found, hfound, memory, hmemory, rfl, rfl⟩ := h
  obtain ⟨hmem, hid⟩ := (Table.find?_key hkeyed.events).mp hfound
  exact ⟨hmem, hid, hmemory⟩

/-- **A flush** makes its event local, or suppresses an upsert that its memory does not show. -/
theorem flush_delivered (hsound : Sound tables) (id : Uuid) :
    ∃ select delivery, Delivered tables (flush id tables) select delivery ∧
      Withdraws tables select delivery ∧ delivery ≠ .pushed := by
  unfold flush
  split
  · exact ⟨_, .localOnly, delivered_refl _, by simp [Withdraws], by decide⟩
  · rename_i event row hrow
    obtain ⟨hevent, hid, hmemory⟩ := eventRow_eq_some hsound.keyed hrow
    -- the key selects this event alone
    have honly : ∀ other ∈ tables.events, (other.id == id) = true → other = event := by
      intro other hother hkey
      exact Table.eq_of_key hsound.keyed.events hother hevent ((by simpa using hkey : other.id = id).trans hid.symm)
    split
    · exact ⟨_, .localOnly, delivered_refl _, by simp [Withdraws], by decide⟩
    · rename_i hopen
      have hundelivered : ∀ other ∈ tables.events, (other.id == id) = true → other.undelivered = true := by
        intro other hother hkey
        rw [honly other hother hkey]
        unfold Event.undelivered
        cases hstate : event.delivery <;> simp_all
      split
      · rename_i hhidden
        refine ⟨_, .suppressed, deliver_delivered hundelivered, ?_, by decide⟩
        intro other hother hkey _
        rw [honly other hother hkey]
        refine ⟨hhidden.1, ?_⟩
        rcases hhidden.2 with hshown | hbody
        · unfold Tables.shown
          rw [hmemory]
          exact hshown
        · have hsome := hsound.body event hevent hhidden.1
          rw [Option.isNone_iff_eq_none.mp hbody] at hsome
          cases hsome
      · exact ⟨_, .localOnly, deliver_delivered hundelivered, by simp [Withdraws], by decide⟩

/-! ### What is in flight and what was published -/

/-- An entry of an event of the tables. -/
def Held (tables : Tables) (entry : Entry) : Prop := ∃ event ∈ tables.events, tables.entry event = entry

theorem Held.later {age : Event → Event} {new : List Event} (hsound : Sound tables)
    (hlater : Later tables tables' age new) (h : Held tables entry) : Held tables' entry := by
  obtain ⟨event, hevent, rfl⟩ := h
  exact ⟨age event, hlater.mem hevent, entry_later hsound hlater hevent⟩

/-- A batch that passed its final check. -/
def Cleared (state : State) (batch : Batch) : Prop :=
  batch ∈ state.published ∨ ∃ push ∈ state.pushes, push.cleared = some batch

/-- Every upsert of the batch is of a memory that was shown when the batch was checked. -/
def ShownWhenChecked (batch : Batch) : Prop :=
  ∀ entry ∈ batch.entries, entry.action = .upsert → batch.seen.shown entry.memory = true

/-- A quarantine event that comes after every upsert of the memory that can be published. -/
def HidesFrom (cleared : Batch → Prop) (tables : Tables) (id : Uuid) : Prop :=
  ∃ event ∈ tables.events, event.memory = id ∧ event.action = .quarantine ∧
    ∀ batch, cleared batch → ∀ entry ∈ batch.entries, entry.memory = id → entry.action = .upsert →
      entry.version ≤ event.version

/-- **What every step keeps.** -/
structure Publishing (state : State) : Prop where
  sound : Sound state.tables
  held : ∀ push ∈ state.pushes, ∀ entry ∈ push.entries, Held state.tables entry
  published : ∀ batch ∈ state.published, ∀ entry ∈ batch.entries, Held state.tables entry
  shown : ∀ batch, Cleared state batch → ShownWhenChecked batch
  pushed : ∀ event ∈ state.tables.events, event.delivery = .pushed →
    ∃ batch ∈ state.published, state.tables.entry event ∈ batch.entries
  appended : ∀ batch, .appended batch ∈ state.pushes → batch ∈ state.published
  quarantined : ∀ id row, state.tables.memory id = some row → row.deleted = false →
    row.review = .quarantined → HidesFrom (Cleared state) state.tables id

theorem publishing_init : Publishing (journal D).init where
  sound := sound_empty
  held := by simp [journal]
  published := by simp [journal]
  shown := by simp [journal, Cleared]
  pushed := by simp [journal]
  appended := by simp [journal]
  quarantined := by simp [journal, Tables.memory]

variable {state : State}

theorem HidesFrom.later {cleared : Batch → Prop} {age : Event → Event} {new : List Event} {id : Uuid}
    (hlater : Later tables tables' age new) (h : HidesFrom cleared tables id) :
    HidesFrom cleared tables' id := by
  obtain ⟨event, hevent, hmemory, haction, hafter⟩ := h
  have haged := hlater.aged event hevent
  refine ⟨age event, hlater.mem hevent, haged.memory.trans hmemory, haged.action.trans haction, ?_⟩
  rw [haged.version]
  exact hafter

/-- An entry that passed its final check is still held. -/
theorem Publishing.clearedHeld (h : Publishing state) {batch : Batch} (hcleared : Cleared state batch) :
    ∀ entry ∈ batch.entries, Held state.tables entry := by
  rcases hcleared with hpublished | ⟨push, hpush, hbatch⟩
  · exact h.published batch hpublished
  · have hentries : push.entries = batch.entries := by
      cases push with
      | flushing entries rest => cases hbatch
      | checked other => cases hbatch; rfl
      | appended other => cases hbatch; rfl
    rw [← hentries]
    exact h.held push hpush

/-- **A change of a memory.** -/
theorem Publishing.moved (h : Publishing state)
    (hmoved : Moved true state.tables tables' before after event) :
    Publishing { state with tables := tables' } where
  sound := hmoved.sound h.sound
  held := fun push hpush entry hentry => (h.held push hpush entry hentry).later h.sound hmoved.later
  published := fun batch hbatch entry hentry =>
    (h.published batch hbatch entry hentry).later h.sound hmoved.later
  shown := h.shown
  pushed := by
    intro other hother hstate
    rcases hmoved.later.origin hother with hnew | ⟨old, hold, rfl⟩
    · rw [List.mem_singleton.mp hnew, hmoved.delivery] at hstate
      cases hstate
    · have hpushed : old.delivery = .pushed := by
        unfold agedBy at hstate
        split at hstate
        · cases hstate
        · exact hstate
      dsimp only
      rw [entry_later h.sound hmoved.later hold]
      exact h.pushed old hold hpushed
  appended := h.appended
  quarantined := by
    intro id row hrow hlive hreview
    dsimp only at hrow
    rw [hmoved.memories] at hrow
    split at hrow
    · rename_i hid
      cases hrow
      have hagrees := hmoved.agrees
      unfold Matches at hagrees
      cases haction : event.action with
      | upsert =>
        -- only a revision keeps a memory quarantined
        rw [haction] at hagrees
        rcases hagrees.2.2 with hordinary | ⟨row, hbefore, hsame⟩
        · exact absurd (hordinary.symm.trans hreview) (by decide)
        · subst hid
          exact (h.quarantined after.id row (hmoved.old.trans hbefore) (hmoved.live row hbefore)
            (hsame.trans hreview)).later hmoved.later
      | quarantine =>
        have hnew : event ∈ tables'.events := by
          rw [hmoved.later.events]
          simp
        refine ⟨event, hnew, hmoved.memory.trans hid.symm, haction, ?_⟩
        intro batch hcleared entry hentry hmemory _
        obtain ⟨old, hold, rfl⟩ := h.clearedHeld hcleared entry hentry
        exact (hmoved.lt h.sound hold (hmemory.trans hid)).le
      | forget =>
        rw [haction] at hagrees
        exact absurd (hagrees.symm.trans hlive) (by decide)
    · exact (h.quarantined id row hrow hlive hreview).later hmoved.later

/-- **A delivery**, when what it marks as pushed was published. -/
theorem Publishing.delivered {select : Event → Bool} {delivery : Delivery} (h : Publishing state)
    (hdelivered : Delivered state.tables tables' select delivery)
    (hwithdraws : Withdraws state.tables select delivery)
    (hpushed : delivery = .pushed → ∀ event ∈ state.tables.events, select event = true →
      ∃ batch ∈ state.published, state.tables.entry event ∈ batch.entries) :
    Publishing { state with tables := tables' } where
  sound := hdelivered.sound h.sound hwithdraws
  held := fun push hpush entry hentry => (h.held push hpush entry hentry).later h.sound hdelivered.later
  published := fun batch hbatch entry hentry =>
    (h.published batch hbatch entry hentry).later h.sound hdelivered.later
  shown := h.shown
  pushed := by
    intro event hevent hstate
    rcases hdelivered.later.origin hevent with hnew | ⟨old, hold, rfl⟩
    · cases hnew
    · have hentry := entry_later h.sound hdelivered.later hold
      dsimp only at hentry ⊢
      rw [hentry]
      split at hstate
      · rename_i hselect
        exact hpushed hstate old hold hselect
      · exact h.pushed old hold hstate
  appended := h.appended
  quarantined := by
    intro id row hrow hlive hreview
    dsimp only at hrow
    rw [hdelivered.memory] at hrow
    exact (h.quarantined id row hrow hlive hreview).later hdelivered.later

/-! ### The steps of a push -/

/-- Every entry that the final check counted has its event. -/
theorem current_ok {entries : List Entry} (hsound : Sound tables)
    (hheld : ∀ entry ∈ entries, Held tables entry) (h : current tables entries = true) :
    ∀ entry ∈ entries, entry.action = .upsert → tables.shown entry.memory = true := by
  intro entry hentry hupsert
  unfold current at h
  rw [beq_iff_eq] at h
  generalize hrows : tables.events.filter _ = rows at h
  have hnodup : (rows.map Event.id).Nodup := by
    rw [← hrows]
    exact hsound.keyed.events.sublist (List.filter_sublist.map _)
  have hsubset : rows.map Event.id ⊆ entries.map Entry.id := by
    intro id hid
    obtain ⟨event, hevent, rfl⟩ := List.mem_map.mp hid
    rw [← hrows, List.mem_filter] at hevent
    simp only [Bool.and_eq_true, List.contains_iff_mem] at hevent
    exact hevent.2.1.1.2
  have hperm := (hnodup.subperm hsubset).perm_of_length_le (by simp [h])
  have hid := hperm.mem_iff.mpr (List.mem_map_of_mem hentry)
  obtain ⟨counted, hcounted, hsame⟩ := List.mem_map.mp hid
  rw [← hrows, List.mem_filter] at hcounted
  obtain ⟨event, hevent, rfl⟩ := hheld entry hentry
  have heq : counted = event := Table.eq_of_key hsound.keyed.events hcounted.1 hevent hsame
  subst heq
  have haction : counted.action = .upsert := hupsert
  have hshown := hcounted.2
  simp only [Bool.and_eq_true, haction] at hshown
  show tables.shown counted.memory = true
  simpa using hshown.2

theorem takeBytes_sublist (lineBytes : Entry → Nat) (room : Nat) (entries : List Entry) :
    (takeBytes lineBytes room entries).Sublist entries := by
  induction entries generalizing room with
  | nil => exact List.Sublist.refl _
  | cons entry rest ih =>
    unfold takeBytes
    split
    · exact (ih _).cons_cons entry
    · exact List.nil_sublist _

/-- A selected batch holds entries of events. -/
theorem selectBatch_held {required : Option Uuid} (hentry : entry ∈ selectBatch D required tables) :
    Held tables entry := by
  unfold selectBatch at hentry
  have hmem := (takeBytes_sublist _ _ _).subset hentry
  obtain ⟨event, hevent, rfl⟩ := List.mem_map.mp hmem
  have hrow := List.mem_of_mem_take hevent
  rw [List.mem_mergeSort, List.mem_filter] at hrow
  exact ⟨event, hrow.1, rfl⟩

/-- **Other pushes**, when what newly passed its final check was shown by it. -/
theorem Publishing.withPushes (h : Publishing state) (pushes : List Push) (published : List Batch)
    (hheld : ∀ push ∈ pushes, ∀ entry ∈ push.entries, Held state.tables entry)
    (hkept : ∀ batch ∈ state.published, batch ∈ published)
    (hpublished : ∀ batch ∈ published, Cleared state batch)
    (hcleared : ∀ push ∈ pushes, ∀ batch, push.cleared = some batch →
      Cleared state batch ∨ batch.seen = state.tables ∧ ShownWhenChecked batch)
    (happended : ∀ batch, .appended batch ∈ pushes → batch ∈ published) :
    Publishing ⟨state.tables, pushes, published⟩ := by
  have hnew : ∀ batch, Cleared ⟨state.tables, pushes, published⟩ batch →
      Cleared state batch ∨ batch.seen = state.tables ∧ ShownWhenChecked batch := by
    rintro batch (hbatch | ⟨push, hpush, hbatch⟩)
    · exact Or.inl (hpublished batch hbatch)
    · exact hcleared push hpush batch hbatch
  constructor
  · exact h.sound
  · exact hheld
  · exact fun batch hbatch => h.clearedHeld (hpublished batch hbatch)
  · intro batch hbatch
    rcases hnew batch hbatch with hold | ⟨_, hshown⟩
    · exact h.shown batch hold
    · exact hshown
  · intro event hevent hstate
    obtain ⟨batch, hbatch, hentry⟩ := h.pushed event hevent hstate
    exact ⟨batch, hkept batch hbatch, hentry⟩
  · exact happended
  · intro id row hrow hlive hreview
    obtain ⟨event, hevent, hmemory, haction, hafter⟩ := h.quarantined id row hrow hlive hreview
    refine ⟨event, hevent, hmemory, haction, ?_⟩
    intro batch hbatch entry hentry hid hupsert
    rcases hnew batch hbatch with hold | ⟨hseen, hshown⟩
    · exact hafter batch hold entry hentry hid hupsert
    · -- a batch that passes now shows its memories, and this one is quarantined
      have hvisible := hshown entry hentry hupsert
      rw [hseen] at hvisible
      unfold Tables.shown at hvisible
      rw [hid, hrow] at hvisible
      simp [Memory.shown, hreview] at hvisible

theorem Publishing.erase (h : Publishing state) (place : Nat) :
    Publishing { state with pushes := state.pushes.eraseIdx place } := by
  have hold : ∀ push ∈ state.pushes.eraseIdx place, push ∈ state.pushes := fun push hpush =>
    List.mem_of_mem_eraseIdx hpush
  apply h.withPushes
  · exact fun push hpush => h.held push (hold push hpush)
  · exact fun batch hbatch => hbatch
  · exact fun batch hbatch => Or.inl hbatch
  · exact fun push hpush batch hbatch => Or.inl (Or.inr ⟨push, hold push hpush, hbatch⟩)
  · exact fun batch hbatch => h.appended batch (hold _ hbatch)

/-- A push goes on with the same entries. -/
theorem Publishing.set (h : Publishing state) {place : Nat} {push : Push} (next : Push)
    (hpush : state.pushes[place]? = some push) (hentries : next.entries = push.entries)
    (published : List Batch)
    (hkept : ∀ batch ∈ state.published, batch ∈ published)
    (hpublished : ∀ batch ∈ published, Cleared state batch)
    (hcleared : ∀ batch, next.cleared = some batch →
      Cleared state batch ∨ batch.seen = state.tables ∧ ShownWhenChecked batch)
    (happended : ∀ batch, next = .appended batch → batch ∈ published) :
    Publishing ⟨state.tables, state.pushes.set place next, published⟩ := by
  have hmem := List.mem_of_getElem? hpush
  apply h.withPushes
  · intro other hother
    rcases List.mem_or_eq_of_mem_set hother with hold | rfl
    · exact h.held other hold
    · rw [hentries]
      exact h.held push hmem
  · exact hkept
  · exact hpublished
  · intro other hother batch hbatch
    rcases List.mem_or_eq_of_mem_set hother with hold | rfl
    · exact Or.inl (Or.inr ⟨other, hold, hbatch⟩)
    · exact hcleared batch hbatch
  · intro batch hbatch
    rcases List.mem_or_eq_of_mem_set hbatch with hold | heq
    · exact hkept batch (h.appended batch hold)
    · exact happended batch heq.symm

theorem Publishing.flush (h : Publishing state) (id : Uuid) :
    Publishing { state with tables := flush id state.tables } := by
  obtain ⟨select, delivery, hdelivered, hwithdraws, hne⟩ := flush_delivered h.sound id
  exact h.delivered hdelivered hwithdraws fun hpushed => absurd hpushed hne

/-- The acknowledgement marks local events only. -/
theorem acknowledge_delivered (entries : List Entry) :
    Delivered tables
      (tables.deliver (fun event =>
        (entries.map Entry.id).contains event.id && event.delivery == .localOnly) .pushed)
      (fun event => (entries.map Entry.id).contains event.id && event.delivery == .localOnly) .pushed := by
  apply deliver_delivered
  intro event _ hselect
  rw [Bool.and_eq_true] at hselect
  unfold Event.undelivered
  rw [hselect.2, Bool.or_true]

theorem Publishing.startPush (h : Publishing state) (required : Option Uuid) :
    Publishing (startPush D required state) := by
  unfold Writeback.startPush
  split
  · exact h
  · split
    · exact h
    · rename_i entries hentries
      apply h.withPushes
      · intro push hpush
        rcases List.mem_append.mp hpush with hold | hnew
        · exact h.held push hold
        · rw [List.mem_singleton.mp hnew]
          intro entry hentry
          exact @selectBatch_held D _ _ required hentry
      · exact fun batch hbatch => hbatch
      · exact fun batch hbatch => Or.inl hbatch
      · intro push hpush batch hbatch
        rcases List.mem_append.mp hpush with hold | hnew
        · exact Or.inl (Or.inr ⟨push, hold, hbatch⟩)
        · rw [List.mem_singleton.mp hnew] at hbatch
          cases hbatch
      · intro batch hbatch
        rcases List.mem_append.mp hbatch with hold | hnew
        · exact h.appended batch hold
        · cases List.mem_singleton.mp hnew

theorem Publishing.advance (h : Publishing state) (place : Nat) :
    Publishing (advance place state) := by
  unfold Writeback.advance
  split
  · exact h
  · rename_i entries id rest hpush
    have hflushed := h.flush id
    exact hflushed.set (.flushing entries rest) hpush rfl state.published
      (fun batch hbatch => hbatch) (fun batch hbatch => Or.inl hbatch)
      (fun batch hbatch => by cases hbatch) (fun batch hbatch => by cases hbatch)
  · rename_i entries hpush
    split
    · rename_i hcurrent
      refine h.set (.checked ⟨entries, state.tables⟩) hpush rfl state.published (fun batch hbatch => hbatch)
        (fun batch hbatch => Or.inl hbatch) ?_ (fun batch hbatch => by cases hbatch)
      intro batch hbatch
      cases hbatch
      exact Or.inr ⟨rfl, current_ok h.sound (h.held _ (List.mem_of_getElem? hpush)) hcurrent⟩
    · exact h.erase place
  · rename_i batch hpush
    have hcleared : Cleared state batch := Or.inr ⟨_, List.mem_of_getElem? hpush, rfl⟩
    refine h.set (.appended batch) hpush rfl (state.published ++ [batch]) (fun _ => List.mem_append_left _) ?_ ?_ ?_
    · intro other hother
      rcases List.mem_append.mp hother with hold | hnew
      · exact Or.inl hold
      · exact List.mem_singleton.mp hnew ▸ hcleared
    · intro other hother
      cases hother
      exact Or.inl hcleared
    · intro other hother
      cases hother
      simp
  · rename_i batch hpush
    have hbatch := h.appended batch (List.mem_of_getElem? hpush)
    refine Publishing.erase (h.delivered (acknowledge_delivered _) ?_ ?_) place
    · intro _ _ _ hstate
      cases hstate
    · intro _ event hevent hselect
      simp only [Bool.and_eq_true, List.contains_iff_mem] at hselect
      obtain ⟨entry, hentry, hid⟩ := List.mem_map.mp hselect.1
      obtain ⟨held, hheld, rfl⟩ := h.published batch hbatch entry hentry
      have hsame : held = event := Table.eq_of_key h.sound.keyed.events hheld hevent hid
      exact ⟨batch, hbatch, hsame ▸ hentry⟩

/-! ### Whole runs -/

/-- What a transaction leaves: the tables as they were, or one change of a memory. -/
def Commits (tables tables' : Tables) : Prop :=
  tables' = tables ∨ ∃ before after event, Moved true tables tables' before after event

theorem commits_committed {result : Except Failure Tables}
    (hmoved : ∀ tables', result = .ok tables' →
      ∃ before after event, Moved true tables tables' before after event) :
    Commits tables (committed tables result) := by
  cases hresult : result with
  | error failure => exact Or.inl rfl
  | ok tables' => exact Or.inr (hmoved tables' hresult)

section Transactions

variable (hkeyed : Keyed tables) (draw : Draw)
include hkeyed

theorem save_commits (body : Body) : Commits tables (committed tables (save D true draw body tables)) := by
  apply commits_committed
  intro tables' hsave
  obtain ⟨after, event, hmoved, _⟩ := save_moved hkeyed hsave
  exact ⟨_, after, event, hmoved⟩

theorem revise_commits (memory : Uuid) (reviewer : Bool) (expectedVersion : Nat) (body : Body) :
    Commits tables
      (committed tables (revise D true draw memory reviewer expectedVersion body tables)) := by
  apply commits_committed
  intro tables' hrevise
  obtain ⟨row, event, hmoved, _⟩ := revise_moved hkeyed hrevise
  exact ⟨_, _, event, hmoved⟩

theorem review_commits (memory : Uuid) (expectedVersion : Nat) (state : Review) :
    Commits tables (committed tables (review D true draw memory expectedVersion state tables)) := by
  apply commits_committed
  intro tables' hreview
  obtain ⟨row, event, hmoved, _⟩ := review_moved hkeyed hreview
  exact ⟨_, _, event, hmoved⟩

theorem forget_commits (memory : Uuid) (reviewer : Bool) (expectedVersion : Nat) :
    Commits tables (committed tables (forget D true draw memory reviewer expectedVersion tables)) := by
  apply commits_committed
  intro tables' hforget
  obtain ⟨row, event, hmoved, _⟩ := forget_moved hkeyed hforget
  exact ⟨_, _, event, hmoved⟩

end Transactions

theorem Publishing.commits (h : Publishing state) (hcommits : Commits state.tables tables') :
    Publishing { state with tables := tables' } := by
  rcases hcommits with rfl | ⟨before, after, event, hmoved⟩
  · exact h
  · exact h.moved hmoved

/-- **Every step keeps what is in flight and what was published.** -/
theorem Publishing.next (h : Publishing state) (step : Step) : Publishing (state.next D step) := by
  have hkeyed := h.sound.keyed
  cases step with
  | save draw body => exact h.commits (save_commits hkeyed draw body)
  | revise draw memory reviewer expectedVersion body =>
    exact h.commits (revise_commits hkeyed draw memory reviewer expectedVersion body)
  | review draw memory expectedVersion review' =>
    exact h.commits (review_commits hkeyed draw memory expectedVersion review')
  | forget draw memory reviewer expectedVersion =>
    exact h.commits (forget_commits hkeyed draw memory reviewer expectedVersion)
  | flush event => exact h.flush event
  | select required => exact h.startPush required
  | advance push => exact h.advance push
  | lose push => exact h.erase push

theorem publishing_run (steps : List Step) : Publishing ((journal D).run steps) :=
  (journal D).run_invariant Publishing (fun _ => True) publishing_init
    (fun _ step _ h => h.next step) steps fun _ _ => trivial

/-! ### A quiescent journal -/

section Quiescent

variable (h : Publishing state) (hquiet : Quiet state.tables)

/-- The entries ever published. -/
def State.entries (state : State) : List Entry := state.published.flatMap Batch.entries

include h in
theorem Publishing.entryHeld (hentry : entry ∈ state.entries) : Held state.tables entry := by
  obtain ⟨batch, hbatch, hmem⟩ := List.mem_flatMap.mp hentry
  exact h.published batch hbatch entry hmem

include h hquiet in
/-- In a quiescent journal an event was published unless it was taken back. -/
theorem Publishing.quietPublished (hevent : event ∈ state.tables.events)
    (hkept : event.delivery ≠ .suppressed) : state.tables.entry event ∈ state.entries := by
  have hdelivered := hquiet event hevent
  have hpushed : event.delivery = .pushed := by
    unfold Event.undelivered at hdelivered
    cases hstate : event.delivery <;> simp_all
  obtain ⟨batch, hbatch, hentry⟩ := h.pushed event hevent hpushed
  exact List.mem_flatMap.mpr ⟨batch, hbatch, hentry⟩

include h in
/-- Two entries of one version of a memory are one entry. -/
theorem Publishing.entry_unique {a b : Event} (ha : a ∈ state.tables.events)
    (hb : b ∈ state.tables.events) (hmemory : a.memory = b.memory) (hversion : a.version = b.version) :
    a = b :=
  Table.eq_of_key h.sound.versions ha hb (Prod.ext hmemory hversion)

/-- The entry of the highest version of a memory. -/
theorem projection_last {entries : List Entry} {memory : Uuid} {last : Entry}
    (hmem : last ∈ entries) (hmemory : last.memory = memory)
    (hforget : ∀ entry ∈ entries, entry.memory = memory → entry.action ≠ .forget)
    (hlast : ∀ entry ∈ entries, entry.memory = memory → last.version ≤ entry.version → entry = last) :
    projection entries memory = if last.action = .upsert then last.body else none := by
  unfold projection
  dsimp only
  rw [if_neg]
  · have hown : last ∈ entries.filter fun entry => decide (entry.memory = memory) :=
      List.mem_filter.mpr ⟨hmem, by simpa using hmemory⟩
    cases hmax : List.argmax Entry.version (entries.filter fun entry => decide (entry.memory = memory)) with
    | none =>
      rw [List.argmax_eq_none.mp hmax] at hown
      cases hown
    | some found =>
      have hfound := List.argmax_mem hmax
      rw [List.mem_filter] at hfound
      have hle : last.version ≤ found.version := List.le_of_mem_argmax hown hmax
      rw [hlast found hfound.1 (by simpa using hfound.2) hle]
      rfl
  · intro hany
    obtain ⟨entry, hentry, haction⟩ := List.any_eq_true.mp hany
    rw [List.mem_filter] at hentry
    exact hforget entry hentry.1 (by simpa using hentry.2) (by simpa using haction)

include h hquiet in
/-- **The published projection of a quiescent journal is what the store shows.** -/
theorem Publishing.projection_eq (memory : Uuid) :
    projection state.entries memory = state.tables.shownBody memory := by
  unfold Tables.shownBody
  have hnoForget : ∀ row, state.tables.memory memory = some row → row.deleted = false →
      ∀ entry ∈ state.entries, entry.memory = memory → entry.action ≠ .forget := by
    intro row hrow hlive entry hentry hmemory haction
    obtain ⟨event, hevent, rfl⟩ := h.entryHeld hentry
    have hdeleted := (h.sound.forgotten memory row hrow).mpr ⟨event, hevent, hmemory, haction⟩
    exact absurd (hlive.symm.trans hdeleted) (by decide)
  cases hrow : state.tables.memory memory with
  | none =>
    have hempty : state.entries.filter (fun entry => decide (entry.memory = memory)) = [] := by
      rw [List.filter_eq_nil_iff]
      intro entry hentry hmemory
      obtain ⟨event, hevent, rfl⟩ := h.entryHeld hentry
      obtain ⟨row, howner, _⟩ := h.sound.owned event hevent
      have hsame : event.memory = memory := of_decide_eq_true hmemory
      rw [hsame, hrow] at howner
      cases howner
    unfold projection
    dsimp only
    rw [hempty]
    rfl
  | some row =>
    by_cases hdeleted : row.deleted = true
    · obtain ⟨event, hevent, hmemory, haction⟩ := (h.sound.forgotten memory row hrow).mp hdeleted
      have hkept : event.delivery ≠ .suppressed := fun hstate =>
        absurd ((h.sound.suppressed event hevent hstate).symm.trans haction) (by decide)
      have hentry := h.quietPublished hquiet hevent hkept
      have hany : (state.entries.filter fun entry => decide (entry.memory = memory)).any
          (fun entry => entry.action == .forget) = true := by
        refine List.any_eq_true.mpr ⟨_, List.mem_filter.mpr ⟨hentry, ?_⟩, ?_⟩
        · exact decide_eq_true hmemory
        · exact beq_iff_eq.mpr haction
      unfold projection
      dsimp only
      rw [if_pos hany, Option.filter_some_neg (by simp [Memory.shown, hdeleted])]
      rfl
    · have hlive : row.deleted = false := Bool.eq_false_iff.mpr hdeleted
      cases hreview : row.review with
      | ordinary =>
        have hshown : row.shown = true := by simp [Memory.shown, hlive, hreview]
        obtain ⟨event, hevent, hmemory, hversion, haction, hrevision, hkept⟩ :=
          h.sound.latest memory row hrow hshown
        rw [projection_last (h.quietPublished hquiet hevent hkept) hmemory (hnoForget row hrow hlive)]
        · rw [Option.filter_some_pos hshown, Option.bind_some]
          unfold Tables.entry Tables.revisionOf
          simp [haction, hrevision]
        · intro entry hentry hsame hle
          obtain ⟨other, hother, rfl⟩ := h.entryHeld hentry
          obtain ⟨owner, howner, hbound⟩ := h.sound.owned other hother
          have hid : other.memory = memory := hsame
          rw [hid, hrow] at howner
          cases howner
          have heq : other.version = event.version := Nat.le_antisymm (hversion ▸ hbound) hle
          rw [h.entry_unique hother hevent (hid.trans hmemory.symm) heq]
      | quarantined =>
        obtain ⟨event, hevent, hmemory, haction, hafter⟩ := h.quarantined memory row hrow hlive hreview
        have hkept : event.delivery ≠ .suppressed := fun hstate =>
          absurd ((h.sound.suppressed event hevent hstate).symm.trans haction) (by decide)
        have hpublished := h.quietPublished hquiet hevent hkept
        rw [Option.filter_some_neg (by simp [Memory.shown, hreview]), Option.bind_none]
        unfold projection
        dsimp only
        split
        · rfl
        · cases hmax : List.argmax Entry.version
              (state.entries.filter fun entry => decide (entry.memory = memory)) with
          | none => rfl
          | some last =>
            rw [Option.bind_some, if_neg]
            intro hupsert
            have hlast := List.argmax_mem hmax
            rw [List.mem_filter] at hlast
            have hown : last.memory = memory := by simpa using hlast.2
            obtain ⟨batch, hbatch, hmem⟩ := List.mem_flatMap.mp hlast.1
            have hle := hafter batch (Or.inl hbatch) last hmem hown hupsert
            have hge : event.version ≤ last.version :=
              List.le_of_mem_argmax
                (List.mem_filter.mpr ⟨hpublished, decide_eq_true hmemory⟩) hmax
            obtain ⟨other, hother, rfl⟩ := h.entryHeld hlast.1
            have hsame := h.entry_unique hother hevent (hown.trans hmemory.symm) (Nat.le_antisymm hle hge)
            rw [hsame] at hupsert
            exact absurd (hupsert.symm.trans haction) (by decide)

end Quiescent

/-! ### What a step leaves alone -/

theorem later_refl : Later tables tables (fun event => event) [] where
  aged := fun event _ => Aged.refl event
  events := by simp
  revisions := fun _ _ hfound => hfound

theorem Commits.later (h : Commits tables tables') : ∃ age new, Later tables tables' age new := by
  rcases h with rfl | ⟨before, after, event, hmoved⟩
  · exact ⟨_, _, later_refl⟩
  · exact ⟨_, _, hmoved.later⟩

/-- No step removes an event or changes a delivered one. -/
theorem Publishing.nextLater (h : Publishing state) (step : Step) :
    ∃ age new, Later state.tables (state.next D step).tables age new := by
  have hkeyed := h.sound.keyed
  have hflush : ∀ id, ∃ age new, Later state.tables (Writeback.flush id state.tables) age new := by
    intro id
    obtain ⟨select, delivery, hdelivered, _⟩ := flush_delivered h.sound id
    exact ⟨_, _, hdelivered.later⟩
  cases step with
  | save draw body => exact (save_commits hkeyed draw body).later
  | revise draw memory reviewer expectedVersion body =>
    exact (revise_commits hkeyed draw memory reviewer expectedVersion body).later
  | review draw memory expectedVersion review' =>
    exact (review_commits hkeyed draw memory expectedVersion review').later
  | forget draw memory reviewer expectedVersion =>
    exact (forget_commits hkeyed draw memory reviewer expectedVersion).later
  | flush event => exact hflush event
  | select required =>
    dsimp only [State.next, Writeback.startPush]
    split
    · exact ⟨_, _, later_refl⟩
    · split <;> exact ⟨_, _, later_refl⟩
  | advance push =>
    dsimp only [State.next, Writeback.advance]
    split
    · exact ⟨_, _, later_refl⟩
    · exact hflush _
    · split <;> exact ⟨_, _, later_refl⟩
    · exact ⟨_, _, later_refl⟩
    · exact ⟨_, _, (acknowledge_delivered _).later⟩
  | lose push => exact ⟨_, _, later_refl⟩

/-- A batch passes its final check on the tables of that moment. -/
theorem next_cleared {step : Step} {batch : Batch} (hbatch : Cleared (state.next D step) batch) :
    Cleared state batch ∨ (∃ place, step = .advance place) ∧ batch.seen = state.tables := by
  have hset : ∀ (place : Nat) (next push : Push), push ∈ state.pushes.set place next →
      push.cleared = some batch → Cleared state batch ∨ next.cleared = some batch := by
    intro place next push hpush hcleared
    rcases List.mem_or_eq_of_mem_set hpush with hold | rfl
    · exact Or.inl (Or.inr ⟨push, hold, hcleared⟩)
    · exact Or.inr hcleared
  have herase : ∀ place, Cleared { state with pushes := state.pushes.eraseIdx place } batch →
      Cleared state batch := by
    rintro place (hpublished | ⟨push, hpush, hcleared⟩)
    · exact Or.inl hpublished
    · exact Or.inr ⟨push, List.mem_of_mem_eraseIdx hpush, hcleared⟩
  cases step with
  | save draw body => exact Or.inl hbatch
  | revise draw memory reviewer expectedVersion body => exact Or.inl hbatch
  | review draw memory expectedVersion review' => exact Or.inl hbatch
  | forget draw memory reviewer expectedVersion => exact Or.inl hbatch
  | flush event => exact Or.inl hbatch
  | select required =>
    dsimp only [State.next, Writeback.startPush] at hbatch
    split at hbatch
    · exact Or.inl hbatch
    · split at hbatch
      · exact Or.inl hbatch
      · rcases hbatch with hpublished | ⟨push, hpush, hcleared⟩
        · exact Or.inl (Or.inl hpublished)
        · rcases List.mem_append.mp hpush with hold | hnew
          · exact Or.inl (Or.inr ⟨push, hold, hcleared⟩)
          · rw [List.mem_singleton.mp hnew] at hcleared
            cases hcleared
  | lose place => exact Or.inl (herase place hbatch)
  | advance place =>
    dsimp only [State.next, Writeback.advance] at hbatch
    split at hbatch
    · exact Or.inl hbatch
    · rcases hbatch with hpublished | ⟨push, hpush, hcleared⟩
      · exact Or.inl (Or.inl hpublished)
      · exact (hset _ _ _ hpush hcleared).imp_right fun hnext => by cases hnext
    · split at hbatch
      · rcases hbatch with hpublished | ⟨push, hpush, hcleared⟩
        · exact Or.inl (Or.inl hpublished)
        · refine (hset _ _ _ hpush hcleared).imp_right fun hnext => ⟨⟨place, rfl⟩, ?_⟩
          cases hnext
          rfl
      · exact Or.inl (herase place hbatch)
    · rename_i other hpush
      have hother : Cleared state other := Or.inr ⟨_, List.mem_of_getElem? hpush, rfl⟩
      rcases hbatch with hpublished | ⟨push, hpush, hcleared⟩
      · rcases List.mem_append.mp hpublished with hold | hnew
        · exact Or.inl (Or.inl hold)
        · exact Or.inl (List.mem_singleton.mp hnew ▸ hother)
      · refine Or.inl ((hset _ _ _ hpush hcleared).elim (fun hold => hold) fun hnext => ?_)
        cases hnext
        exact hother
    · exact Or.inl (herase place hbatch)

/-- Every batch that passed its final check did so at one step of the run. -/
theorem cleared_run (steps : List Step) (batch : Batch)
    (hbatch : Cleared ((journal D).run steps) batch) :
    ∃ before place rest, steps = before ++ .advance place :: rest ∧
      batch.seen = ((journal D).run before).tables := by
  induction steps using List.reverseRecOn with
  | nil => rcases hbatch with hpublished | ⟨push, hpush, _⟩ <;> contradiction
  | append_singleton steps step ih =>
    rw [Machine.run_concat] at hbatch
    rcases next_cleared hbatch with hold | ⟨⟨place, rfl⟩, hseen⟩
    · obtain ⟨before, place, rest, rfl, hseen⟩ := ih hold
      exact ⟨before, place, rest ++ [step], by simp, hseen⟩
    · exact ⟨steps, place, [], rfl, hseen⟩

/-! ### The journal and the store -/

end Mnemion.Writeback
