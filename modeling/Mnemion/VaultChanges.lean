/-
  Mnemion/VaultChanges.lean
  =========================
  **What an accepted vault operation changes.**  A caller who still sees an entry at the
  end of a transaction had the same rights at its start (`rights_mono`), so a checked
  revision is written; from that, one lemma for each writing operation says which entry
  it changed and how.
-/
import Mnemion.VaultService

namespace Mnemion.Vault

open Outcome

variable {C : Crypto} {call : Call} {tables tables' : Tables} {who : Identity} {now later : Time}
  {entry other : Uuid} {row : Entry}

/-! ### Rights -/

theorem unexpired_mono {expires : Option Time} (hle : now ≤ later)
    (h : unexpired expires later = true) : unexpired expires now = true := by
  cases expires with
  | none => rfl
  | some limit =>
    simp only [unexpired, Option.all_some, decide_eq_true_eq] at h ⊢
    exact Nat.lt_of_le_of_lt hle h

/-- A key that is current later was current before. -/
theorem authority_mono {people : People} {key : ApiKey} {principal : Principal} (hle : now ≤ later)
    (h : people.authority who later = some (key, principal)) :
    people.authority who now = some (key, principal) := by
  unfold People.authority at h ⊢
  simp only [Option.bind_eq_bind, Option.bind_eq_some_iff] at h ⊢
  obtain ⟨found, hfound, _, hcurrent, rest⟩ := h
  refine ⟨found, hfound, (), ?_, rest⟩
  rw [Option.guard_eq_some'] at hcurrent ⊢
  rw [ApiKey.current, Bool.and_eq_true] at hcurrent ⊢
  exact ⟨hcurrent.1, unexpired_mono hle hcurrent.2⟩

theorem rights_ne_zero (h : tables.rights who now entry ≠ 0) :
    (tables.people.authority who now).isSome = true := by
  unfold Tables.rights at h
  split at h
  · exact absurd rfl h
  · rename_i hauthority
    rw [hauthority]
    rfl

/-- Who still has authority later has the same rights before. -/
theorem rights_mono (hle : now ≤ later) (h : (tables.people.authority who later).isSome = true) :
    tables.rights who now entry = tables.rights who later entry := by
  obtain ⟨⟨key, principal⟩, hlater⟩ := Option.isSome_iff_exists.mp h
  unfold Tables.rights
  rw [hlater, authority_mono hle hlater]

theorem rights_or_read (a b : Rights) : Rights.read (a ||| b) = (a.read || b.read) := by
  revert a b
  decide

theorem foldl_read (grants : List Grant) (rights : Rights) :
    (grants.foldl (fun rights grant => rights ||| grant.permissions) rights).read =
      (rights.read || grants.any fun grant => grant.permissions.read) := by
  induction grants generalizing rights with
  | nil => simp
  | cons grant grants ih => rw [List.foldl_cons, ih, rights_or_read, List.any_cons, Bool.or_assoc]

/-- What the reader of an entry holds in the moment of the reading statement: a current
    key of an active principal, and a grant with the read bit. -/
structure Readable (tables : Tables) (who : Identity) (now : Time) (entry : Uuid) (row : Entry) :
    Prop where
  mem : row ∈ tables.entries
  id : row.id = entry
  live : row.live = true
  granted : ∃ key principal grant, tables.people.authority who now = some (key, principal) ∧
    grant ∈ tables.grants ∧ grant.entry = entry ∧ tables.held key principal grant = true ∧
    grant.permissions.read = true

theorem granted_of_read (h : (tables.rights who now entry).read = true) :
    ∃ key principal grant, tables.people.authority who now = some (key, principal) ∧
      grant ∈ tables.grants ∧ grant.entry = entry ∧ tables.held key principal grant = true ∧
      grant.permissions.read = true := by
  unfold Tables.rights at h
  split at h
  · exact absurd h (by decide)
  · rename_i key principal hauthority
    split at h
    · rw [foldl_read, show Rights.read 0 = false from rfl, Bool.false_or, List.any_eq_true] at h
      obtain ⟨grant, hgrant, hread⟩ := h
      rw [List.mem_filter, Bool.and_eq_true, beq_iff_eq] at hgrant
      exact ⟨key, principal, grant, hauthority, hgrant.1, hgrant.2.1, hgrant.2.2, hread⟩
    · exact absurd h (by decide)

/-! ### Seeing rows -/

theorem mem_visible (h : row ∈ tables.visible who now) : row ∈ tables.entries ∧
    (tables.people.administrator who = true ∨ (tables.people.authority who now).isSome = true) := by
  obtain ⟨hmem, hseen⟩ := List.mem_filter.mp h
  rw [Bool.or_eq_true, Bool.or_eq_true] at hseen
  refine ⟨hmem, ?_⟩
  rcases hseen with (hadmin | haudit) | hrights
  · exact Or.inl hadmin
  · exact Or.inr (Bool.and_eq_true_iff.mp haudit).1
  · exact Or.inr (rights_ne_zero (by simpa using hrights))

/-- An administrator sees every row. -/
theorem visible_administrator (h : tables.people.administrator who = true) :
    tables.visible who now = tables.entries := by
  unfold Tables.visible
  refine List.filter_eq_self.mpr fun row _ => ?_
  rw [h]
  rfl

theorem liveEntry_ok {statement : Nat} {rights : Rights}
    (h : liveEntry call statement tables entry = .ok (row, rights)) :
    row ∈ tables.visible call.who (call.clock.now statement) ∧ row.id = entry ∧ row.live = true ∧
      rights = tables.rights call.who (call.clock.now statement) entry := by
  unfold liveEntry at h
  dsimp only at h
  split at h
  · simp at h
  · rename_i found hfound
    rw [pure_eq_ok, Prod.mk.injEq] at h
    obtain ⟨rfl, rfl⟩ := h
    have hselect := List.find?_some hfound
    rw [Bool.and_eq_true, beq_iff_eq] at hselect
    exact ⟨List.mem_of_find?_eq_some hfound, hselect.1, hselect.2, by rw [hselect.1]⟩

theorem readable_of_live {statement : Nat} {rights : Rights}
    (h : liveEntry call statement tables entry = .ok (row, rights)) (hread : rights.read = true) :
    Readable tables call.who (call.clock.now statement) entry row := by
  obtain ⟨hvisible, hid, hlive, rfl⟩ := liveEntry_ok h
  exact ⟨(mem_visible hvisible).1, hid, hlive, granted_of_read hread⟩

/-! ### Finding an entry -/

namespace Tables

/-- The row of an identifier, live or deleted. -/
def find (tables : Tables) (entry : Uuid) : Option Entry :=
  tables.entries.find? fun row => row.id == entry

/-- An identifier whose entry was deleted. -/
def Deleted (tables : Tables) (entry : Uuid) : Prop :=
  ∃ row, tables.find entry = some row ∧ row.live = false

end Tables

theorem find_mem (h : tables.find entry = some row) : row ∈ tables.entries ∧ row.id = entry :=
  ⟨List.mem_of_find?_eq_some h, by simpa using List.find?_some h⟩

theorem find_of_mem (hids : (tables.entries.map Entry.id).Nodup) (h : row ∈ tables.entries) :
    tables.find row.id = some row := by
  unfold Tables.find
  cases hfind : tables.entries.find? fun other => other.id == row.id with
  | none => simpa using List.find?_eq_none.mp hfind row h
  | some found =>
    have hsame : found.id = row.id := by simpa using List.find?_some hfind
    rw [Table.eq_of_key hids (List.mem_of_find?_eq_some hfind) h hsame]

theorem find_updateEntry {f : Entry → Entry} (hid : ∀ row, (f row).id = row.id) :
    (tables.updateEntry who now entry f).find other = (tables.find other).map fun row =>
      if row.id == entry && (tables.people.administrator who || (tables.rights who now row.id).write)
      then f row else row := by
  unfold Tables.find Tables.updateEntry Table.update
  rw [List.find?_map]
  congr 2
  funext row
  rw [Function.comp_apply]
  split
  · rw [hid]
  · rfl

/-- A change of one entry leaves the others. -/
theorem find_updateEntry_ne {f : Entry → Entry} (hid : ∀ row, (f row).id = row.id)
    (hne : other ≠ entry) : (tables.updateEntry who now entry f).find other = tables.find other := by
  rw [find_updateEntry hid]
  cases hfind : tables.find other with
  | none => rfl
  | some row =>
    have hrow := (find_mem hfind).2
    simp [hrow, hne]

/-- An allowed change is made. -/
theorem find_updateEntry_self {f : Entry → Entry} (hid : ∀ row, (f row).id = row.id)
    (hallowed : (tables.people.administrator who || (tables.rights who now entry).write) = true) :
    (tables.updateEntry who now entry f).find entry = (tables.find entry).map f := by
  rw [find_updateEntry hid]
  cases hfind : tables.find entry with
  | none => rfl
  | some row =>
    have hrow := (find_mem hfind).2
    simp only [Option.map_some, hrow, beq_self_eq_true, Bool.true_and, hallowed, if_true]

/-! ### Sound tables -/

/-- Identifiers are unique, and so are the names of live entries. -/
structure Sound (tables : Tables) : Prop where
  ids : (tables.entries.map Entry.id).Nodup
  names : ∀ a ∈ tables.entries, ∀ b ∈ tables.entries, a.live = true → b.live = true →
    a.name = b.name → a = b

/-- A change of entries that keeps identifiers, revives none and takes no name in use. -/
theorem sound_updateEntry {f : Entry → Entry} (h : Sound tables) (hid : ∀ row, (f row).id = row.id)
    (hname : ∀ row ∈ tables.entries, row.id = entry → (f row).live = true → row.live = true ∧
      ∀ other ∈ tables.entries, other.live = true → other.id ≠ entry → other.name ≠ (f row).name) :
    Sound (tables.updateEntry who now entry f) where
  ids := by
    have hkept : (tables.updateEntry who now entry f).entries.map Entry.id =
        tables.entries.map Entry.id := Table.map_update hid
    exact hkept ▸ h.ids
  names := by
    intro a ha b hb halive hblive heq
    rcases Table.mem_update_cases ha with ⟨old, hold, hselect, rfl⟩ | ⟨hold, _⟩ <;>
      rcases Table.mem_update_cases hb with ⟨old', hold', hselect', rfl⟩ | ⟨hold', hselect'⟩
    · have hid₁ := beq_iff_eq.mp (Bool.and_eq_true_iff.mp hselect).1
      have hid₂ := beq_iff_eq.mp (Bool.and_eq_true_iff.mp hselect').1
      rw [Table.eq_of_key h.ids hold hold' (hid₁.trans hid₂.symm)]
    · have hid₁ := beq_iff_eq.mp (Bool.and_eq_true_iff.mp hselect).1
      have hother := (hname old hold hid₁ halive).2 b hold' hblive
      by_cases hsame : b.id = entry
      · rw [Table.eq_of_key h.ids hold' hold (hsame.trans hid₁.symm), hselect] at hselect'
        cases hselect'
      · exact absurd heq.symm (hother hsame)
    · have hid₂ := beq_iff_eq.mp (Bool.and_eq_true_iff.mp hselect').1
      have hother := (hname old' hold' hid₂ hblive).2 a hold halive
      by_cases hsame : a.id = entry
      · obtain rfl := Table.eq_of_key h.ids hold hold' (hsame.trans hid₂.symm)
        simp_all
      · exact absurd heq (hother hsame)
    · exact h.names a hold b hold' halive hblive heq

theorem sound_insert (h : Sound tables) (hfresh : tables.find row.id = none)
    (hname : ∀ other ∈ tables.entries, other.live = true → other.name ≠ row.name)
    (hentries : tables'.entries = tables.entries ++ [row]) : Sound tables' where
  ids := by
    rw [hentries, List.map_append, List.nodup_append]
    refine ⟨h.ids, by simp, ?_⟩
    intro a ha b hb
    obtain ⟨old, hold, rfl⟩ := List.mem_map.mp ha
    rw [List.map_singleton, List.mem_singleton] at hb
    subst hb
    simpa using List.find?_eq_none.mp hfresh old hold
  names := by
    intro a ha b hb halive hblive heq
    rw [hentries, List.mem_append, List.mem_singleton] at ha hb
    rcases ha with ha | rfl <;> rcases hb with hb | rfl
    · exact h.names a ha b hb halive hblive heq
    · exact absurd heq (hname a ha halive)
    · exact absurd heq.symm (hname b hb hblive)
    · rfl

theorem find_insert (hfresh : tables.find row.id = none)
    (hentries : tables'.entries = tables.entries ++ [row]) :
    tables'.find row.id = some row ∧ ∀ other ≠ row.id, tables'.find other = tables.find other := by
  unfold Tables.find at hfresh ⊢
  constructor
  · rw [hentries, List.find?_append, hfresh]
    simp
  · intro other hne
    rw [hentries, List.find?_append]
    have hnot : [row].find? (fun row => row.id == other) = none := by
      simp [Ne.symm hne]
    rw [hnot, Option.or_none]

/-! ### `put` -/

/-- What an accepted `put` leaves: one version more of one entry. -/
structure Put (tables tables' : Tables) (entry : Uuid) (name : String) : Prop where
  row : ∃ row, tables'.find entry = some row ∧ row.live = true ∧ row.name = name ∧
    row.version = ((tables.find entry).map Entry.version).getD 0 + 1 ∧
    row.accessVersion = ((tables.find entry).map Entry.accessVersion).getD 1
  others : ∀ other ≠ entry, tables'.find other = tables.find other
  usable : ¬tables.Deleted entry
  people : tables'.people = tables.people
  auditors : tables'.auditors = tables.auditors
  denials : tables'.denials = tables.denials
  audit : tables'.audit = tables.audit

theorem lookup_administrator (h : tables.people.administrator who = true) :
    tables.lookup who now entry = tables.find entry := by
  unfold Tables.lookup Tables.find
  rw [visible_administrator h]

theorem mem_lookup (h : tables.lookup who now entry = some row) :
    row ∈ tables.visible who now ∧ row.id = entry :=
  ⟨List.mem_of_find?_eq_some h, by simpa using List.find?_some h⟩

/-- The name of a revision is free: an administrator sees every collision, and others keep
    the name of the entry. -/
theorem name_free {statement : Nat} {name : String} (hsound : Sound tables)
    (hmem : row ∈ tables.entries) (hlive : row.live = true)
    (hname : tables.people.administrator call.who = true ∨ name = row.name)
    (hcollision : collision call statement tables name row.id = false)
    (hother : other ≠ row.id) {found : Entry} (hfound : found ∈ tables.entries)
    (hid : found.id = other) (hfoundLive : found.live = true) : found.name ≠ name := by
  intro heq
  rcases hname with hadmin | rfl
  · unfold collision at hcollision
    rw [visible_administrator hadmin, List.any_eq_false] at hcollision
    have hne : found.id ≠ row.id := hid ▸ hother
    exact hcollision found hfound (by simp [heq, hne, hfoundLive])
  · exact hother (hid ▸ congrArg Entry.id (hsound.names found hfound row hmem hfoundLive hlive heq))

theorem put_ok {statement : Nat} {key : VaultKey} {command : PutCommand} {answer : Metadata}
    (hsound : Sound tables)
    (h : put C call statement key tables entry command = .ok (tables', answer)) :
    Sound tables' ∧ Put tables tables' entry command.name ∧
      (command.expectedVersion = 0 → tables.find entry = none) := by
  unfold put at h
  simp only [bind_eq_ok] at h
  obtain ⟨_, hadmit, _, hcollision, envelope, _, ⟨seen, rights⟩, hseen, h⟩ := h
  rw [check_eq_ok] at hcollision
  rw [pure_eq_ok, Prod.mk.injEq] at h
  obtain ⟨htables, -⟩ := h
  unfold admitPut at hadmit
  by_cases hnew : command.expectedVersion = 0
  · -- a new entry, by an administrator
    rw [if_pos hnew] at hadmit
    unfold admitNew requireAdministrator at hadmit
    simp only [bind_eq_ok, check_eq_ok] at hadmit
    obtain ⟨_, hadmin, _, ⟨hfresh, _⟩, _⟩ := hadmit
    rw [if_pos hfresh] at htables
    rw [lookup_administrator hadmin, Option.isNone_iff_eq_none] at hfresh
    unfold collision at hcollision
    rw [visible_administrator hadmin, List.any_eq_false] at hcollision
    have hentries : tables'.entries = tables.entries ++ [⟨entry, command.name,
        command.expectedVersion + 1, 1, C.keyId key, some ⟨envelope, none⟩, call.who.principal,
        call.who.principal⟩] := by rw [← htables]; rfl
    have hname : ∀ other ∈ tables.entries, other.live = true → other.name ≠ command.name := by
      intro other hother hlive heq
      have hne : other.id ≠ entry := by simpa using List.find?_eq_none.mp hfresh other hother
      exact hcollision other hother (by simp [heq, hne, hlive])
    obtain ⟨hself, hothers⟩ := find_insert hfresh hentries
    refine ⟨sound_insert hsound hfresh hname hentries, ⟨?_, hothers, ?_, ?_, ?_, ?_, ?_⟩,
      fun _ => hfresh⟩
    · exact ⟨_, hself, rfl, rfl, by rw [hfresh, hnew]; rfl, by rw [hfresh]; rfl⟩
    · rintro ⟨row, hrow, _⟩
      rw [hfresh] at hrow
      cases hrow
    all_goals rw [← htables]; rfl
  · -- a revision, of an entry that the caller may write
    rw [if_neg hnew] at hadmit
    unfold admitRevision at hadmit
    split at hadmit
    · simp at hadmit
    · rename_i row hrow
      simp only [bind_eq_ok, check_eq_ok] at hadmit
      obtain ⟨_, hlive, _, hwrite, _, hversion, hrename⟩ := hadmit
      have hknown : ¬(tables.lookup call.who (call.clock.now statement) entry).isNone = true := by
        rw [hrow]
        exact Bool.noConfusion
      rw [if_neg hknown] at htables hseen
      obtain ⟨hvisible, hid⟩ := mem_lookup hrow
      have hmem := (mem_visible hvisible).1
      rw [hid] at hwrite
      obtain ⟨hvisible', _⟩ := liveEntry_ok hseen
      have hallowed : (tables.people.administrator call.who ||
          (tables.rights call.who (call.clock.now (statement + 2)) entry).write) = true := by
        rcases (mem_visible hvisible').2 with hadmin | hauthority
        · rw [show tables.people.administrator call.who = true from hadmin]
          rfl
        · -- the caller still has authority, so the rights of the first statement stand
          have hauthority : (tables.people.authority call.who
            (call.clock.now (statement + 3))).isSome = true := hauthority
          rw [rights_mono (call.clock.mono (Nat.le_succ (statement + 2))) hauthority,
            ← rights_mono (call.clock.mono (Nat.le_add_right statement 3)) hauthority, hwrite,
            Bool.or_true]
      have hfind : tables.find entry = some row := hid ▸ find_of_mem hsound.ids hmem
      have hidf : ∀ other : Entry, ({ other with
          name := command.name, version := command.expectedVersion + 1, keyId := C.keyId key,
          contents := some ⟨envelope, other.contents.bind Contents.keepass⟩,
          updatedBy := call.who.principal } : Entry).id = other.id := fun _ => rfl
      refine ⟨?_, ⟨?_, ?_, ?_, ?_, ?_, ?_, ?_⟩, fun hzero => absurd hzero hnew⟩
      · rw [← htables]
        refine sound_updateEntry hsound hidf ?_
        intro old hold hold_id _
        obtain rfl := Table.eq_of_key hsound.ids hold hmem (hold_id.trans hid.symm)
        refine ⟨hlive, fun other hother hotherLive hne => ?_⟩
        rw [← hid] at hcollision hne
        exact name_free hsound hmem hlive hrename hcollision hne hother rfl hotherLive
      · rw [← htables]
        refine ⟨_, (find_updateEntry_self hidf hallowed).trans (by rw [hfind]; rfl), rfl, rfl, ?_, ?_⟩
        · rw [hfind, ← hversion]
          rfl
        · rw [hfind]
          rfl
      · intro other hne
        rw [← htables]
        exact find_updateEntry_ne hidf hne
      · rintro ⟨dead, hdead, hnotLive⟩
        rw [hfind, Option.some.injEq] at hdead
        rw [hdead, hnotLive] at hlive
        cases hlive
      all_goals rw [← htables]; rfl

/-! ### `grant`, `delete`, `auditor` -/

/-- Which answers hold secret values. -/
def Response.secret : Response → Bool
  | .value .. | .envelope .. => true
  | _ => false

/-- What all writing operations leave alone. -/
structure Frame (tables tables' : Tables) : Prop where
  people : tables'.people = tables.people
  audit : tables'.audit = tables.audit

/-- One entry changed by `f`, the others as they were. -/
structure Changed (tables tables' : Tables) (entry : Uuid) (f : Entry → Entry) : Prop where
  row : ∃ row, tables.find entry = some row ∧ row.live = true ∧ tables'.find entry = some (f row)
  others : ∀ other ≠ entry, tables'.find other = tables.find other

/-- An administrator's change of a live entry. -/
theorem changed_administrator {f : Entry → Entry} {statement : Nat} {rights : Rights}
    (hsound : Sound tables) (hadmin : tables.people.administrator who = true)
    (hlive : liveEntry call statement tables entry = .ok (row, rights))
    (hid : ∀ row, (f row).id = row.id) :
    Changed tables (tables.updateEntry who now entry f) entry f := by
  obtain ⟨hvisible, hentry, hlive, _⟩ := liveEntry_ok hlive
  have hfind : tables.find entry = some row := hentry ▸ find_of_mem hsound.ids (mem_visible hvisible).1
  have hallowed : (tables.people.administrator who || (tables.rights who now entry).write) = true := by
    rw [hadmin, Bool.true_or]
  exact ⟨⟨row, hfind, hlive, (find_updateEntry_self hid hallowed).trans (by rw [hfind]; rfl)⟩,
    fun other hne => find_updateEntry_ne hid hne⟩

theorem grant_ok {command : GrantCommand} {answer : Response} (hsound : Sound tables)
    (h : grant call entry command tables = .ok (tables', answer)) :
    Sound tables' ∧ Frame tables tables' ∧ tables'.auditors = tables.auditors ∧
      tables'.denials = tables.denials ∧
      Changed tables tables' entry fun row => { row with accessVersion := row.accessVersion + 1 } := by
  unfold grant requireAdministrator at h
  simp only [bind_eq_ok, check_eq_ok] at h
  obtain ⟨_, hadmin, ⟨row, rights⟩, hrow, _, _, grants, _, answer', _, h⟩ := h
  rw [pure_eq_ok, Prod.mk.injEq] at h
  obtain ⟨rfl, -⟩ := h
  have hchanged := @changed_administrator call tables call.who (call.clock.now 5) entry row
    (fun row => { row with accessVersion := row.accessVersion + 1 }) 3 rights hsound hadmin hrow
    fun _ => rfl
  -- the change of entries does not look at the grants, for an administrator
  have hentries : (({ tables with grants := grants } : Tables).updateEntry call.who (call.clock.now 5)
      entry fun row => { row with accessVersion := row.accessVersion + 1 }).entries =
      (tables.updateEntry call.who (call.clock.now 5) entry fun row =>
        { row with accessVersion := row.accessVersion + 1 }).entries := by
    simp only [Tables.updateEntry, hadmin, Bool.true_or]
  have hsound' := @sound_updateEntry tables call.who (call.clock.now 5) entry
    (fun row => { row with accessVersion := row.accessVersion + 1 }) hsound (fun _ => rfl) <| by
      intro old hold hid hlive
      refine ⟨hlive, fun other hother hotherLive hne heq => hne ?_⟩
      rw [← hid, hsound.names other hother old hold hotherLive hlive heq]
  refine ⟨⟨hentries ▸ hsound'.ids, hentries ▸ hsound'.names⟩, ⟨rfl, rfl⟩, rfl, rfl, ?_, ?_⟩
  · obtain ⟨found, hfound, hlive, hafter⟩ := hchanged.row
    unfold Tables.find at hafter ⊢
    exact ⟨found, hfound, hlive, hentries ▸ hafter⟩
  · intro other hne
    have hother := hchanged.others other hne
    unfold Tables.find at hother ⊢
    exact hentries ▸ hother

theorem delete_ok {version : Nat} {answer : Response} (hsound : Sound tables)
    (h : delete call entry version tables = .ok (tables', answer)) :
    Sound tables' ∧ Frame tables tables' ∧ tables'.auditors = tables.auditors ∧
      entry ∈ tables'.denials ∧
      Changed tables tables' entry (Entry.erase call.who.principal) := by
  unfold delete requireAdministrator at h
  simp only [bind_eq_ok, check_eq_ok] at h
  obtain ⟨_, hadmin, ⟨row, rights⟩, hrow, _, _, h⟩ := h
  rw [pure_eq_ok, Prod.mk.injEq] at h
  obtain ⟨rfl, -⟩ := h
  obtain ⟨hvisible, hentry, hlive, _⟩ := liveEntry_ok hrow
  have hfind : tables.find entry = some row := hentry ▸ find_of_mem hsound.ids (mem_visible hvisible).1
  let denied : Tables := { tables with
    denials := if entry ∈ tables.denials then tables.denials else tables.denials ++ [entry]
    grants := tables.grants.filter fun grant => grant.entry != entry }
  have hdenied : Sound denied := ⟨hsound.ids, hsound.names⟩
  have hfound : denied.find entry = some row := hfind
  have hallowed : (denied.people.administrator call.who ||
      (denied.rights call.who (call.clock.now 4) entry).write) = true := by
    rw [show denied.people.administrator call.who = true from hadmin, Bool.true_or]
  have hid : ∀ row, (Entry.erase call.who.principal row).id = row.id := fun _ => rfl
  refine ⟨sound_updateEntry hdenied hid ?_, ⟨rfl, rfl⟩, rfl, ?_, ⟨row, hfind, hlive, ?_⟩, ?_⟩
  · intro old _ _ hold
    cases hold
  · dsimp only [Tables.updateEntry]
    split
    · assumption
    · exact List.mem_append_right _ (List.mem_singleton.mpr rfl)
  · exact (find_updateEntry_self hid hallowed).trans (congrArg _ hfound)
  · intro other hne
    exact find_updateEntry_ne hid hne

theorem auditor_ok {key : Uuid} {change : AuditorChange} {answer : Response}
    (h : auditor call key change tables = .ok (tables', answer)) :
    answer.secret = false ∧ ∃ auditors, tables' = { tables with auditors := auditors } := by
  unfold auditor at h
  simp only [bind_eq_ok] at h
  obtain ⟨_, _, _, _, _, _, _, _, _, _, h⟩ := h
  split at h
  · simp at h
  · rw [pure_eq_ok, Prod.mk.injEq] at h
    exact ⟨h.2 ▸ rfl, _, h.1.symm⟩

/-! ### `import_archive` and `export` -/

/-- Entries are only added, each as a first version. -/
structure Imported (tables tables' : Tables) : Prop where
  kept : ∀ entry row, tables.find entry = some row → tables'.find entry = some row
  added : ∀ entry row, tables'.find entry = some row → tables.find entry = none →
    row.live = true ∧ row.version = 1 ∧ row.accessVersion = 1
  frame : Frame tables tables'
  auditors : tables'.auditors = tables.auditors
  denials : tables'.denials = tables.denials

theorem setKeepass_ok {key : VaultKey} {mapping : Mapping} (hsound : Sound tables)
    (h : setKeepass C call key tables entry mapping = .ok tables') :
    Sound tables' ∧ Frame tables tables' ∧ tables'.auditors = tables.auditors ∧
      tables'.denials = tables.denials ∧
      (∀ other ≠ entry, tables'.find other = tables.find other) ∧
      ∀ row, tables'.find entry = some row → ∃ old, tables.find entry = some old ∧
        row.live = old.live ∧ row.version = old.version ∧ row.accessVersion = old.accessVersion := by
  unfold setKeepass at h
  simp only [bind_eq_ok] at h
  obtain ⟨_, _, h⟩ := h
  rw [pure_eq_ok] at h
  subst h
  let f := Entry.withKeepass
    ⟨call.keepassNonce entry, C.encryptMapping key (call.keepassNonce entry) mapping entry⟩
  have hid : ∀ row, (f row).id = row.id := fun _ => rfl
  have hlive : ∀ row, (f row).live = row.live := fun row => Option.isSome_map
  refine ⟨sound_updateEntry hsound hid ?_, ⟨rfl, rfl⟩, rfl, rfl,
    fun other hne => find_updateEntry_ne hid hne, ?_⟩
  · intro old hold hid hold_live
    have hold_live : old.live = true := (hlive old).symm.trans hold_live
    refine ⟨hold_live, fun other hother hotherLive hne heq => hne ?_⟩
    rw [← hid, hsound.names other hother old hold hotherLive hold_live heq]
  · intro row hrow
    rw [find_updateEntry hid, Option.map_eq_some_iff] at hrow
    obtain ⟨old, hold, rfl⟩ := hrow
    refine ⟨old, hold, ?_⟩
    split
    · exact ⟨hlive old, rfl, rfl⟩
    · exact ⟨rfl, rfl, rfl⟩

theorem importItem_ok {key : VaultKey} {version : Nat} {state state' : Importing}
    {item : ArchiveItem × Nat} (hsound : Sound state.tables) (himported : Imported tables state.tables)
    (h : importItem C call key version state item = .ok state') :
    Sound state'.tables ∧ Imported tables state'.tables := by
  unfold importItem at h
  simp only [bind_eq_ok] at h
  obtain ⟨⟨tables₁, answer⟩, hput, h⟩ := h
  obtain ⟨hsound₁, hput, hfresh⟩ := put_ok hsound hput
  have hfresh : state.tables.find (call.fresh item.2) = none := hfresh rfl
  have hnew : ∀ entry row, tables.find entry = some row → entry ≠ call.fresh item.2 := by
    rintro entry row hrow rfl
    rw [himported.kept _ row hrow] at hfresh
    cases hfresh
  have hfirst : ∃ row, tables₁.find (call.fresh item.2) = some row ∧ row.live = true ∧
      row.version = 1 ∧ row.accessVersion = 1 := by
    obtain ⟨row, hrow, hlive, _, hversion, haccess⟩ := hput.row
    rw [hfresh] at hversion haccess
    exact ⟨row, hrow, hlive, hversion, haccess⟩
  -- the row of this round is a first version, the others are as they were
  have hstep : ∀ {tables₂ : Tables}, Frame tables₁ tables₂ → tables₂.auditors = tables₁.auditors →
      tables₂.denials = tables₁.denials →
      (∀ other ≠ call.fresh item.2, tables₂.find other = tables₁.find other) →
      (∀ row, tables₂.find (call.fresh item.2) = some row →
        row.live = true ∧ row.version = 1 ∧ row.accessVersion = 1) → Imported tables tables₂ := by
    intro tables₂ hframe hauditors hdenials hothers hself
    refine ⟨?_, ?_, ⟨?_, ?_⟩, ?_, ?_⟩
    · intro entry row hrow
      have hne := hnew entry row hrow
      rw [hothers entry hne, hput.others entry hne]
      exact himported.kept entry row hrow
    · intro entry row hrow habsent
      by_cases hsame : entry = call.fresh item.2
      · exact hself row (hsame ▸ hrow)
      · rw [hothers entry hsame, hput.others entry hsame] at hrow
        exact himported.added entry row hrow habsent
    · rw [hframe.people, hput.people, himported.frame.people]
    · rw [hframe.audit, hput.audit, himported.frame.audit]
    · rw [hauditors, hput.auditors, himported.auditors]
    · rw [hdenials, hput.denials, himported.denials]
  obtain ⟨first, hfirstRow, hfirst⟩ := hfirst
  dsimp only at h
  split at h
  · rw [pure_eq_ok] at h
    subst h
    refine ⟨hsound₁, hstep ⟨rfl, rfl⟩ rfl rfl (fun _ _ => rfl) fun row hrow => ?_⟩
    rw [hfirstRow, Option.some.injEq] at hrow
    exact hrow ▸ hfirst
  · simp only [bind_eq_ok] at h
    obtain ⟨_, _, tables₂, hkeepass, h⟩ := h
    rw [pure_eq_ok] at h
    subst h
    obtain ⟨hsound₂, hframe, hauditors, hdenials, hothers, hself⟩ := setKeepass_ok hsound₁ hkeepass
    refine ⟨hsound₂, hstep hframe hauditors hdenials hothers fun row hrow => ?_⟩
    obtain ⟨old, hold, hlive, hversion, haccess⟩ := hself row hrow
    rw [hfirstRow, Option.some.injEq] at hold
    subst hold
    exact ⟨hlive.trans hfirst.1, hversion.trans hfirst.2.1, haccess.trans hfirst.2.2⟩

theorem importArchive_ok {recovery key : VaultKey} {archive : Bytes} {answer : Response}
    (hsound : Sound tables)
    (h : importArchive C call recovery archive key tables = .ok (tables', answer)) :
    Sound tables' ∧ Imported tables tables' := by
  unfold importArchive at h
  simp only [bind_eq_ok] at h
  obtain ⟨_, _, h⟩ := h
  split at h
  · simp at h
  · simp only [bind_eq_ok] at h
    obtain ⟨_, _, done, hloop, h⟩ := h
    rw [pure_eq_ok, Prod.mk.injEq] at h
    obtain ⟨rfl, -⟩ := h
    have hstart : Imported tables tables :=
      ⟨fun _ _ h => h, fun entry row hrow hnone => absurd (hnone ▸ hrow) (by simp), ⟨rfl, rfl⟩, rfl, rfl⟩
    exact foldlM_invariant
      (fun state : Importing => Sound state.tables ∧ Imported tables state.tables)
      (fun _ _ _ _ hstate hitem => importItem_ok hstate.1 hstate.2 hitem) ⟨hsound, hstart⟩ hloop

theorem record_foldl (entries : List Uuid) : ∀ tables : Tables,
    entries.foldl (fun tables entry => tables.record who .exportArchive (some entry) none .allowed) tables =
      { tables with audit := tables.audit ++ entries.map fun entry =>
          ⟨who.principal, who.key, some entry, .exportArchive, .allowed, none⟩ } := by
  induction entries with
  | nil => simp
  | cons entry entries ih =>
    intro tables
    rw [List.foldl_cons, ih, Tables.record]
    simp

/-- The value of an entry that the caller may read. -/
def Reads (C : Crypto) (call : Call) (key : VaultKey) (tables : Tables) (entry : Uuid)
    (value : String) : Prop :=
  ∃ row, Readable tables call.who (call.clock.now 3) entry row ∧ decrypt C key row = .ok value

/-- An envelope holds exactly the values of the chosen entries. -/
def Seals (C : Crypto) (call : Call) (key : VaultKey) (tables : Tables) (entries : List Uuid)
    (recovery : VaultKey) (ciphertext : Bytes) : Prop :=
  ∃ archive, C.sealArchive recovery archive = some ciphertext ∧
    List.Forall₂ (fun entry item => Reads C call key tables entry item.value) entries archive.entries

/-- An export released the decrypted values of entries that its caller may read, and
    recorded each of them. -/
theorem exportArchive_ok {entries : List Uuid} {recovery key : VaultKey} {answer : Response}
    (h : exportArchive C call entries recovery key tables = .ok (tables', answer)) :
    (∃ ciphertext, answer = .envelope (C.keyId recovery) ciphertext ∧
      Seals C call key tables entries recovery ciphertext) ∧
    tables' = { tables with audit := tables.audit ++ entries.map fun entry =>
      ⟨call.who.principal, call.who.key, some entry, .exportArchive, .allowed, none⟩ } := by
  unfold exportArchive at h
  simp only [bind_eq_ok] at h
  obtain ⟨contents, hcontents, h⟩ := h
  split at h
  · simp at h
  · rename_i ciphertext hsealed
    rw [pure_eq_ok, Prod.mk.injEq] at h
    refine ⟨⟨ciphertext, h.2.symm, _, hsealed, ?_⟩, h.1.symm.trans (record_foldl entries tables)⟩
    refine (mapM_forall₂ hcontents).imp fun entry item hitem => ?_
    unfold exportItem at hitem
    simp only [bind_eq_ok, check_eq_ok] at hitem
    obtain ⟨⟨row, rights⟩, hrow, _, hread, value, hvalue, mapping, _, hitem⟩ := hitem
    rw [pure_eq_ok] at hitem
    exact ⟨row, readable_of_live hrow hread, hitem ▸ hvalue⟩

theorem get_ok {key : VaultKey} {answer : Response}
    (h : get C call entry key tables = .ok answer) :
    ∃ metadata value, answer = .value metadata value ∧ Reads C call key tables entry value := by
  unfold get at h
  simp only [bind_eq_ok, check_eq_ok] at h
  obtain ⟨⟨row, rights⟩, hrow, _, hread, value, hvalue, h⟩ := h
  rw [pure_eq_ok] at h
  exact ⟨_, value, h.symm, row, readable_of_live hrow hread, hvalue⟩

/-! ### Answers without secrets -/

theorem grantsAnswer_secret {statement : Nat} {answer : Response}
    (h : grantsAnswer call statement tables entry = .ok answer) : answer.secret = false := by
  unfold grantsAnswer at h
  simp only [bind_eq_ok] at h
  obtain ⟨_, _, h⟩ := h
  rw [pure_eq_ok] at h
  exact h ▸ rfl

theorem grant_secret {command : GrantCommand} {answer : Response}
    (h : grant call entry command tables = .ok (tables', answer)) : answer.secret = false := by
  unfold grant at h
  simp only [bind_eq_ok] at h
  obtain ⟨_, _, _, _, _, _, _, _, answer', hanswer, h⟩ := h
  rw [pure_eq_ok, Prod.mk.injEq] at h
  exact h.2 ▸ grantsAnswer_secret hanswer

theorem delete_secret {version : Nat} {answer : Response}
    (h : delete call entry version tables = .ok (tables', answer)) : answer.secret = false := by
  unfold delete at h
  simp only [bind_eq_ok] at h
  obtain ⟨_, _, _, _, _, _, h⟩ := h
  rw [pure_eq_ok, Prod.mk.injEq] at h
  exact h.2 ▸ rfl

theorem importArchive_secret {recovery key : VaultKey} {archive : Bytes} {answer : Response}
    (h : importArchive C call recovery archive key tables = .ok (tables', answer)) :
    answer.secret = false := by
  unfold importArchive at h
  simp only [bind_eq_ok] at h
  obtain ⟨_, _, h⟩ := h
  split at h
  · simp at h
  · simp only [bind_eq_ok] at h
    obtain ⟨_, _, _, _, h⟩ := h
    rw [pure_eq_ok, Prod.mk.injEq] at h
    exact h.2 ▸ rfl

end Mnemion.Vault
