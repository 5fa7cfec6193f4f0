/-
  Mnemion/WritebackDelivery.lean
  ==============================
  **What a transaction does to a memory and its events.**  Every change of a memory makes
  one version more and, under a journal, one event of that version (`Moved`); delivering
  an event changes nothing but its state (`Delivered`).
-/
import Mnemion.WritebackTables

namespace Mnemion.Writeback

open Outcome

variable {D : Destination} {configured : Bool} {draw : Draw} {tables tables' : Tables} {id : Uuid}
  {row : Memory}

/-! ### Sound tables -/

/-- The primary keys. -/
structure Keyed (tables : Tables) : Prop where
  memories : (tables.memories.map Memory.id).Nodup
  revisions : (tables.revisions.map Revision.id).Nodup
  events : (tables.events.map Event.id).Nodup

theorem memory_eq_some (h : Keyed tables) :
    tables.memory id = some row ↔ row ∈ tables.memories ∧ row.id = id :=
  Table.find?_key h.memories

theorem revision_eq_some (h : Keyed tables) {found : Revision} :
    tables.revision id = some found ↔ found ∈ tables.revisions ∧ found.id = id :=
  Table.find?_key h.revisions

/-- An update of one row by key. -/
theorem memory_setMemory {f : Memory → Memory} (hid : ∀ row, (f row).id = row.id) (other : Uuid) :
    (tables.setMemory id f).memory other =
      if other = id then (tables.memory id).map f else tables.memory other := by
  unfold Tables.memory Tables.setMemory Table.update
  rw [List.find?_map]
  have hsame : (fun row : Memory => decide (row.id = other)) ∘
      (fun row => if decide (row.id = id) then f row else row) = fun row => decide (row.id = other) := by
    funext row
    rw [Function.comp_apply]
    split
    · rw [hid]
    · rfl
  rw [hsame]
  split
  · rename_i heq
    subst heq
    cases hfind : tables.memories.find? fun row => decide (row.id = other) with
    | none => rfl
    | some row =>
      have hrow : row.id = other := by simpa using List.find?_some hfind
      simp [hrow]
  · rename_i hne
    cases hfind : tables.memories.find? fun row => decide (row.id = other) with
    | none => rfl
    | some row =>
      have hrow : row.id = other := by simpa using List.find?_some hfind
      simp [hrow, hne]

theorem map_id_setMemory {f : Memory → Memory} (hid : ∀ row, (f row).id = row.id) :
    (tables.setMemory id f).memories.map Memory.id = tables.memories.map Memory.id :=
  Table.map_update hid

/-- An update of deliveries keeps every event otherwise. -/
theorem map_id_update {events : List Event} {p : Event → Bool} {delivery : Delivery} :
    (Table.update events p fun event => { event with delivery := delivery }).map Event.id =
      events.map Event.id :=
  Table.map_update fun _ => rfl

/-! ### A change of a memory -/

/-- The events after a change. -/
def eventsAfter (configured : Bool) (tables : Tables) (event : Event) : List Event :=
  if configured then
    (if event.action = .upsert then tables else tables.suppress event.memory).events ++ [event]
  else tables.events

/-- What an action says about the memory after the change. -/
def Matches (before : Option Memory) (after : Memory) (event : Event) : Prop :=
  match event.action with
  | .upsert => after.deleted = false ∧ event.revision = some after.revision ∧
      (after.review = .ordinary ∨ ∃ row, before = some row ∧ row.review = after.review)
  | .quarantine => after.deleted = false ∧ after.review = .quarantined
  | .forget => after.deleted = true

/-- **A change of one memory**: a new version of it, and the event of that version. -/
structure Moved (configured : Bool) (tables tables' : Tables) (before : Option Memory)
    (after : Memory) (event : Event) : Prop where
  keyed : Keyed tables'
  old : tables.memory after.id = before
  version : after.version = (before.map Memory.version).getD 0 + 1
  live : ∀ row, before = some row → row.deleted = false
  created : ∀ row, before = some row → after.created = row.created
  memories : ∀ id, tables'.memory id = if id = after.id then some after else tables.memory id
  revisions : ∀ id found, tables.revision id = some found → tables'.revision id = some found
  current : (∀ row, before = some row → (tables.revision row.revision).isSome = true) →
    (tables'.revision after.revision).isSome = true
  events : tables'.events = eventsAfter configured tables event
  fresh : configured = true → ∀ other ∈ tables.events, other.id ≠ event.id
  memory : event.memory = after.id
  eventVersion : event.version = after.version
  delivery : event.delivery = .pending
  agrees : Matches before after event

/-- The event that a transaction captures. -/
def eventOf (draw : Draw) (memory : Uuid) (revision : Option Uuid) (version : Nat) (action : Action)
    (tables : Tables) : Event :=
  ⟨draw.event, memory, revision, version, draw.writer, action,
    ((revision.bind tables.revision).map fun row => row.body.important).getD false, .pending, draw.now⟩

theorem captureIf_ok {memory : Uuid} {revision : Option Uuid} {version : Nat} {action : Action}
    (h : captureIf D configured draw memory revision version action tables = .ok tables') :
    tables'.memories = tables.memories ∧ tables'.revisions = tables.revisions ∧
      tables'.events = eventsAfter configured tables (eventOf draw memory revision version action tables) ∧
      (configured = true → ∀ other ∈ tables.events, other.id ≠ draw.event) := by
  unfold captureIf at h
  split at h
  · rename_i hconfigured
    unfold capture at h
    simp only [bind_eq_ok, check_eq_ok] at h
    obtain ⟨_, hfresh, _, _, h⟩ := h
    rw [pure_eq_ok] at h
    subst h
    unfold eventsAfter eventOf
    rw [if_pos hconfigured]
    cases action with
    | upsert => exact ⟨rfl, rfl, rfl, fun _ => hfresh⟩
    | forget =>
      refine ⟨rfl, rfl, rfl, fun _ other hother => ?_⟩
      exact hfresh _ (Table.exists_mem_update hother) |> fun hne => by split at hne <;> exact hne
    | quarantine =>
      refine ⟨rfl, rfl, rfl, fun _ other hother => ?_⟩
      exact hfresh _ (Table.exists_mem_update hother) |> fun hne => by split at hne <;> exact hne
  · rename_i hconfigured
    rw [pure_eq_ok] at h
    subst h
    unfold eventsAfter
    rw [if_neg hconfigured]
    exact ⟨rfl, rfl, rfl, fun h => absurd h hconfigured⟩

/-- The events after a change do not depend on the memories. -/
theorem eventsAfter_setMemory {f : Memory → Memory} {event : Event} :
    eventsAfter configured (tables.setMemory id f) event = eventsAfter configured tables event := by
  unfold eventsAfter
  cases configured with
  | false => rfl
  | true => cases event.action <;> rfl

theorem eventsAfter_nodup {event : Event} (h : (tables.events.map Event.id).Nodup)
    (hfresh : configured = true → ∀ other ∈ tables.events, other.id ≠ event.id) :
    ((eventsAfter configured tables event).map Event.id).Nodup := by
  unfold eventsAfter
  split
  · rename_i hconfigured
    have hids : (if event.action = .upsert then tables else
        tables.suppress event.memory).events.map Event.id = tables.events.map Event.id := by
      split
      · rfl
      · exact map_id_update
    rw [List.map_append, hids, List.nodup_append]
    refine ⟨h, by simp, ?_⟩
    intro a ha b hb
    obtain ⟨other, hother, rfl⟩ := List.mem_map.mp ha
    rw [List.map_singleton, List.mem_singleton] at hb
    exact hb ▸ hfresh hconfigured other hother
  · exact h

theorem addRevision_ok {memory : Uuid} {body : Body}
    (h : addRevision draw memory body tables = .ok tables') :
    (∀ row ∈ tables.revisions, row.id ≠ draw.revision) ∧ tables' = { tables with
      revisions := tables.revisions ++ [⟨draw.revision, memory, body, draw.writer, draw.now⟩] } := by
  unfold addRevision at h
  simp only [bind_eq_ok, check_eq_ok, pure_eq_ok] at h
  obtain ⟨_, hfresh, rfl⟩ := h
  exact ⟨hfresh, rfl⟩

theorem lockedRow_ok {reviewer : Bool} {expectedVersion : Nat}
    (h : lockedRow id reviewer expectedVersion tables = .ok row) :
    tables.memory id = some row ∧ row.deleted = false := by
  unfold lockedRow at h
  split at h
  · simp at h
  · rename_i found hfound
    split at h
    · simp at h
    · rename_i hvisible
      split at h
      · simp at h
      · rw [pure_eq_ok] at h
        subst h
        exact ⟨hfound, Bool.eq_false_iff.mpr (not_or.mp hvisible).1⟩

/-- The lookup of a revision in a longer table. -/
theorem revision_append {revisions : List Revision} {new found : Revision}
    (hfound : (revisions.find? fun row => decide (row.id = id)) = some found) :
    ((revisions ++ [new]).find? fun row => decide (row.id = id)) = some found := by
  rw [List.find?_append, hfound]
  rfl

theorem revision_last {revisions : List Revision} {new : Revision} (hid : new.id = id)
    (hfresh : ∀ row ∈ revisions, row.id ≠ id) :
    ((revisions ++ [new]).find? fun row => decide (row.id = id)) = some new := by
  have hnone : (revisions.find? fun row => decide (row.id = id)) = none := by
    rw [List.find?_eq_none]
    intro row hrow
    simpa using hfresh row hrow
  rw [List.find?_append, hnone]
  simp [hid]

theorem nodup_append_key {α : Type} {key : α → Uuid} {rows : List α} {new : α}
    (h : (rows.map key).Nodup) (hfresh : ∀ row ∈ rows, key row ≠ key new) :
    ((rows ++ [new]).map key).Nodup := by
  rw [List.map_append, List.nodup_append]
  refine ⟨h, by simp, ?_⟩
  intro a ha b hb
  obtain ⟨row, hrow, rfl⟩ := List.mem_map.mp ha
  rw [List.map_singleton, List.mem_singleton] at hb
  exact hb ▸ hfresh row hrow

/-- The id of a found row. -/
theorem memory_id (h : tables.memory id = some row) : row.id = id := by
  simpa using List.find?_some h

theorem save_moved {body : Body} (hkeyed : Keyed tables)
    (h : save D configured draw body tables = .ok tables') :
    ∃ after event, Moved configured tables tables' none after event ∧ after.id = draw.memory ∧
      after.created = draw.now := by
  unfold save at h
  simp only [bind_eq_ok, check_eq_ok] at h
  obtain ⟨_, hfresh, tables₁, hrevision, hcapture⟩ := h
  obtain ⟨hnew, rfl⟩ := addRevision_ok hrevision
  obtain ⟨hmemories, hrevisions, hevents, hfreshEvent⟩ := captureIf_ok hcapture
  have habsent : tables.memory draw.memory = none := by
    unfold Tables.memory
    rw [List.find?_eq_none]
    intro row hrow
    simpa using hfresh row hrow
  let after : Memory := ⟨draw.memory, 1, draw.revision, .ordinary, false, draw.now⟩
  let tables₁ : Tables := { tables with
    memories := tables.memories ++ [after]
    revisions := tables.revisions ++ [⟨draw.revision, draw.memory, body, draw.writer, draw.now⟩] }
  refine ⟨after, eventOf draw draw.memory (some draw.revision) 1 .upsert tables₁, ?_, rfl, rfl⟩
  constructor
  · refine ⟨?_, ?_, ?_⟩
    · rw [hmemories]
      exact nodup_append_key hkeyed.memories hfresh
    · rw [hrevisions]
      exact nodup_append_key hkeyed.revisions hnew
    · rw [hevents]
      exact eventsAfter_nodup hkeyed.events hfreshEvent
  · exact habsent
  · rfl
  · intro row hrow
    cases hrow
  · intro row hrow
    cases hrow
  · intro other
    unfold Tables.memory at habsent ⊢
    rw [hmemories, List.find?_append]
    split
    · rename_i heq
      subst heq
      rw [show (tables.memories.find? fun row => decide (row.id = after.id)) = none from habsent]
      simp [after]
    · rename_i hne
      have hlast : [after].find? (fun row => decide (row.id = other)) = none := by
        simp [Ne.symm hne]
      rw [hlast, Option.or_none]
  · intro other found hfound
    unfold Tables.revision at hfound ⊢
    rw [hrevisions]
    exact revision_append hfound
  · intro _
    unfold Tables.revision
    rw [hrevisions]
    exact Option.isSome_iff_exists.mpr ⟨_, revision_last rfl hnew⟩
  · exact hevents
  · exact hfreshEvent
  · rfl
  · rfl
  · rfl
  · exact ⟨rfl, rfl, Or.inl rfl⟩

/-- The lookups after an update of the row of a memory. -/
theorem memory_changed {f : Memory → Memory} (hid : ∀ row, (f row).id = row.id)
    (hrow : tables.memory id = some row) (other : Uuid) :
    (tables.setMemory id f).memory other =
      if other = (f row).id then some (f row) else tables.memory other := by
  rw [memory_setMemory hid, hrow, hid, memory_id hrow]
  rfl

/-- A change of a known row that leaves the revisions. -/
theorem known_moved {f : Memory → Memory} {revision : Option Uuid} {action : Action}
    (hkeyed : Keyed tables) (hrow : tables.memory id = some row) (hlive : row.deleted = false)
    (hid : ∀ row, (f row).id = row.id) (hversion : (f row).version = row.version + 1)
    (hcreated : (f row).created = row.created) (hrevision : (f row).revision = row.revision)
    (hagrees : Matches (some row) (f row)
      (eventOf draw id revision (row.version + 1) action (tables.setMemory id f)))
    (h : captureIf D configured draw id revision (row.version + 1) action (tables.setMemory id f) =
      .ok tables') :
    Moved configured tables tables' (some row) (f row)
      (eventOf draw id revision (row.version + 1) action (tables.setMemory id f)) := by
  obtain ⟨hmemories, hrevisions, hevents, hfresh⟩ := captureIf_ok h
  have hrowid := memory_id hrow
  have hlookup : ∀ other, tables'.memory other =
      if other = (f row).id then some (f row) else tables.memory other := by
    intro other
    unfold Tables.memory
    rw [hmemories]
    exact memory_changed hid hrow other
  have hsame : ∀ other, tables'.revision other = tables.revision other := by
    intro other
    unfold Tables.revision
    rw [hrevisions]
    rfl
  constructor
  · refine ⟨?_, ?_, ?_⟩
    · rw [hmemories, map_id_setMemory hid]
      exact hkeyed.memories
    · rw [hrevisions]
      exact hkeyed.revisions
    · rw [hevents]
      exact eventsAfter_nodup hkeyed.events hfresh
  · rw [hid, hrowid, hrow]
  · exact hversion
  · intro found hfound
    cases hfound
    exact hlive
  · intro found hfound
    cases hfound
    exact hcreated
  · exact hlookup
  · intro other found hfound
    rw [hsame, hfound]
  · intro hknown
    rw [hsame, hrevision]
    exact hknown row rfl
  · exact hevents.trans eventsAfter_setMemory
  · exact hfresh
  · rw [hid, hrowid]
    rfl
  · exact hversion.symm
  · rfl
  · exact hagrees

theorem revise_moved {memory : Uuid} {reviewer : Bool} {expectedVersion : Nat} {body : Body}
    (hkeyed : Keyed tables)
    (h : revise D configured draw memory reviewer expectedVersion body tables = .ok tables') :
    ∃ row event, Moved configured tables tables' (some row)
      { row with version := row.version + 1, revision := draw.revision } event ∧ row.id = memory ∧
      event.action = .upsert := by
  unfold revise at h
  simp only [bind_eq_ok] at h
  obtain ⟨row, hrow, tables₁, hrevision, hcapture⟩ := h
  obtain ⟨hfound, hlive⟩ := lockedRow_ok hrow
  obtain ⟨hnew, rfl⟩ := addRevision_ok hrevision
  obtain ⟨hmemories, hrevisions, hevents, hfresh⟩ := captureIf_ok hcapture
  have hid := memory_id hfound
  let after : Memory := { row with version := row.version + 1, revision := draw.revision }
  let tables₁ : Tables := ({ tables with
    revisions := tables.revisions ++ [⟨draw.revision, memory, body, draw.writer, draw.now⟩] } : Tables).setMemory memory
      fun row' => { row' with version := row.version + 1, revision := draw.revision }
  refine ⟨row, eventOf draw memory (some draw.revision) (row.version + 1) .upsert tables₁, ?_, hid, rfl⟩
  have hlookup : ∀ other, tables'.memory other =
      if other = after.id then some after else tables.memory other := by
    intro other
    unfold Tables.memory
    rw [hmemories]
    exact @memory_changed tables memory row
      (fun row' => { row' with version := row.version + 1, revision := draw.revision })
      (fun _ => rfl) hfound other
  constructor
  · refine ⟨?_, ?_, ?_⟩
    · have hids : tables₁.memories.map Memory.id = tables.memories.map Memory.id :=
        Table.map_update fun _ => rfl
      rw [hmemories]
      exact hids ▸ hkeyed.memories
    · rw [hrevisions]
      exact nodup_append_key hkeyed.revisions hnew
    · rw [hevents]
      exact eventsAfter_nodup hkeyed.events hfresh
  · exact hid ▸ hfound
  · rfl
  · intro found hfound
    cases hfound
    exact hlive
  · intro found hfound
    cases hfound
    rfl
  · exact hlookup
  · intro other found hfound
    unfold Tables.revision at hfound ⊢
    rw [hrevisions]
    exact revision_append hfound
  · intro _
    unfold Tables.revision
    rw [hrevisions]
    exact Option.isSome_iff_exists.mpr ⟨_, revision_last rfl hnew⟩
  · exact hevents
  · exact hfresh
  · exact hid.symm
  · rfl
  · rfl
  · exact ⟨hlive, rfl, Or.inr ⟨row, rfl, rfl⟩⟩

theorem review_moved {memory : Uuid} {expectedVersion : Nat} {state : Review} (hkeyed : Keyed tables)
    (h : review D configured draw memory expectedVersion state tables = .ok tables') :
    ∃ row event, Moved configured tables tables' (some row)
      { row with version := row.version + 1, review := state } event ∧ row.id = memory := by
  unfold review at h
  simp only [bind_eq_ok] at h
  obtain ⟨row, hrow, hcapture⟩ := h
  obtain ⟨hfound, hlive⟩ := lockedRow_ok hrow
  cases state with
  | ordinary =>
    refine ⟨row, _, @known_moved D configured draw tables tables' memory row
      (fun row' => { row' with version := row.version + 1, review := .ordinary })
      (some row.revision) .upsert hkeyed hfound
      hlive (fun _ => rfl) rfl rfl rfl ⟨hlive, rfl, Or.inl rfl⟩ hcapture, memory_id hfound⟩
  | quarantined =>
    refine ⟨row, _, @known_moved D configured draw tables tables' memory row
      (fun row' => { row' with version := row.version + 1, review := .quarantined })
      none .quarantine hkeyed hfound
      hlive (fun _ => rfl) rfl rfl rfl ⟨hlive, rfl⟩ hcapture, memory_id hfound⟩

theorem forget_moved {memory : Uuid} {reviewer : Bool} {expectedVersion : Nat} (hkeyed : Keyed tables)
    (h : forget D configured draw memory reviewer expectedVersion tables = .ok tables') :
    ∃ row event, Moved configured tables tables' (some row)
      { row with version := row.version + 1, deleted := true } event ∧ row.id = memory := by
  unfold forget at h
  simp only [bind_eq_ok] at h
  obtain ⟨row, hrow, hcapture⟩ := h
  obtain ⟨hfound, hlive⟩ := lockedRow_ok hrow
  exact ⟨row, _, @known_moved D configured draw tables tables' memory row
    (fun row' => { row' with version := row.version + 1, deleted := true }) none .forget hkeyed hfound hlive
    (fun _ => rfl) rfl rfl rfl rfl hcapture, memory_id hfound⟩

/-! ### A delivery -/

/-- **A delivery**: some undelivered events change their state, and nothing else happens. -/
structure Delivered (tables tables' : Tables) (select : Event → Bool) (delivery : Delivery) : Prop where
  memories : tables'.memories = tables.memories
  revisions : tables'.revisions = tables.revisions
  events : tables'.events =
    Table.update tables.events select fun event => { event with delivery := delivery }
  undelivered : ∀ event ∈ tables.events, select event = true → event.undelivered = true

theorem Delivered.keyed {select : Event → Bool} {delivery : Delivery} (hkeyed : Keyed tables)
    (h : Delivered tables tables' select delivery) : Keyed tables' where
  memories := h.memories ▸ hkeyed.memories
  revisions := h.revisions ▸ hkeyed.revisions
  events := by
    rw [h.events, map_id_update]
    exact hkeyed.events

end Mnemion.Writeback
