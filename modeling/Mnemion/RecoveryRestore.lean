/-
  Mnemion/RecoveryRestore.lean
  ============================
  **A ledger of a later state restored into an older one.**  Every item of the ledger fits
  the older state, whatever happened in between (`Fits`); restoring it holds its memory
  back and settles its mapping (`Restored`), and a settled item does nothing more.
-/
import Mathlib.Algebra.GroupWithZero.Nat
import Mnemion.RecoveryHistory

namespace Mnemion.Recovery

open Outcome

variable {tables tables' before after : Tables} {tenant space id : Uuid} {now : Time} {item : Quarantine}

/-! ### The captured ledger -/

theorem mem_capture : item ∈ capture tables ↔
    ∃ mapping ∈ tables.origins, tables.quarantines mapping = true ∧ tables.quarantineOf mapping = item := by
  unfold capture
  rw [List.mem_mergeSort, List.mem_map]
  constructor
  · rintro ⟨mapping, hmapping, heq⟩
    rw [List.mem_filter] at hmapping
    exact ⟨mapping, hmapping.1, hmapping.2, heq⟩
  · rintro ⟨mapping, hmapping, hheld, heq⟩
    exact ⟨mapping, List.mem_filter.mpr ⟨hmapping, hheld⟩, heq⟩

theorem capture_keys (hsound : Sound tables) : ((capture tables).map Quarantine.key).Nodup := by
  unfold capture
  rw [((List.mergeSort_perm _ _).map Quarantine.key).nodup_iff, List.map_map]
  exact hsound.keys.sublist (List.filter_sublist.map Mapping.key)

theorem capture_identities (hsound : Sound tables) : ((capture tables).map Quarantine.identity).Nodup := by
  unfold capture
  rw [((List.mergeSort_perm _ _).map Quarantine.identity).nodup_iff, List.map_map]
  exact hsound.identities.sublist (List.filter_sublist.map Mapping.identity)

/-- A held memory that its source last published was changed here. -/
theorem capture_modified (hitem : item ∈ capture tables) (haction : item.sourceAction = .upsert) :
    item.locallyModified = true := by
  obtain ⟨mapping, hmapping, hheld, rfl⟩ := mem_capture.mp hitem
  have hupsert : mapping.sourceAction = .upsert := haction
  unfold Tables.quarantines at hheld
  rw [hupsert] at hheld
  obtain ⟨row, hrow, hreview⟩ := (Option.any_eq_true _ _).mp (by simpa using hheld)
  simp only [Bool.and_eq_true, beq_iff_eq] at hreview
  show mapping.changed (tables.joined mapping) = true
  unfold Mapping.changed
  rw [hrow]
  simp [Mapping.differs, hupsert, SourceAction.review, hreview.1]

theorem validateRows_ok (tenants : List Uuid) (rows : List Quarantine)
    (hrows : ∀ row ∈ rows, row.tenant ∈ tenants ∧
      (1 ≤ row.sourceVersion ∧ row.sourceVersion ≤ 9007199254740991) ∧
      (row.sourceAction = .upsert → row.locallyModified = true))
    (hidentities : (rows.map Quarantine.identity).Nodup) (hkeys : (rows.map Quarantine.key).Nodup) :
    ∃ seen, rows.foldlM (validateRow tenants) ([], []) = .ok seen := by
  obtain ⟨seen, hfold, _⟩ := foldlM_succeeds (f := validateRow tenants) (l := rows) (s := ([], []))
    (fun done seen => seen = ((done.map Quarantine.identity).reverse, (done.map Quarantine.key).reverse))
    (by
      rintro done row rest seen rfl rfl
      have hrow := hrows row (by simp)
      rw [List.map_append, List.map_cons, List.nodup_append] at hidentities hkeys
      refine ⟨_, ?_, rfl⟩
      unfold validateRow
      simp only [bind_eq_ok, check_eq_ok, pure_eq_ok]
      refine ⟨(), ⟨hrow.1, ?_, ?_, hrow.2.1.1, hrow.2.1.2, hrow.2.2⟩, by simp⟩
      · rw [List.mem_reverse]
        intro hmem
        exact hidentities.2.2 _ hmem _ List.mem_cons_self rfl
      · rw [List.mem_reverse]
        intro hmem
        exact hkeys.2.2 _ hmem _ List.mem_cons_self rfl) rfl
  exact ⟨seen, hfold⟩

/-- **The validator accepts a captured ledger** of up to a million rows. -/
theorem validate_capture (hsound : Sound tables) (hlength : (capture tables).length ≤ 1000000) :
    validate (capture tables) tables.tenants = .ok () := by
  obtain ⟨seen, hseen⟩ := validateRows_ok tables.tenants (capture tables) (by
    intro row hrow
    refine ⟨?_, ?_, capture_modified hrow⟩
    · obtain ⟨mapping, hmapping, _, rfl⟩ := mem_capture.mp hrow
      exact hsound.known mapping hmapping
    · obtain ⟨mapping, hmapping, _, rfl⟩ := mem_capture.mp hrow
      exact hsound.bounds mapping hmapping) (capture_identities hsound) (capture_keys hsound)
  unfold validate
  rw [bind_eq_ok]
  refine ⟨(), check_eq_ok.mpr hlength, ?_⟩
  rw [hseen]
  rfl

/-! ### The reconciled deletions -/

/-- The older state with the later deletions. -/
structure Reconciled (before after tables : Tables) : Prop where
  tenants : tables.tenants = before.tenants
  origins : tables.origins = before.origins
  rows : ∀ tenant id row, tables.memory tenant id = some row → ∃ old, before.memory tenant id = some old ∧
    row.space = old.space ∧ (row.deleted = true → old.deleted = true ∨
      ∃ denial ∈ after.denials, denial.tenant = tenant ∧ denial.memory = id)
  known : ∀ tenant id old, before.memory tenant id = some old → ∃ row, tables.memory tenant id = some row
  content : ∀ tenant id row, tables.memory tenant id = some row → ∃ old, before.memory tenant id = some old ∧
    (row.content = old.content ∨ row.content = none)

theorem reconcileDenial_ok {denial : Denial} (now : Time) (hsound : Sound after) (hlater : Later before after)
    (hdenial : denial ∈ after.denials) (h : Reconciled before after tables) :
    ∃ tables', reconcileDenial now tables denial = .ok tables' ∧ Reconciled before after tables' ∧
      (∀ tenant id row, tables.memory tenant id = some row → row.deleted = true →
        ∃ row', tables'.memory tenant id = some row' ∧ row'.deleted = true) ∧
      (denial.tenant ∈ tables.tenants → ∀ row, tables'.memory denial.tenant denial.memory = some row →
        row.deleted = true) := by
  unfold reconcileDenial
  split
  · rename_i htenant
    dsimp only
    rw [deny_memory]
    split
    · rename_i hnone
      refine ⟨_, rfl, ⟨?_, ?_, ?_, ?_, ?_⟩, ?_, ?_⟩
      · rw [deny_tenants, h.tenants]
      · rw [deny_origins, h.origins]
      · rw [deny_memory]
        exact h.rows
      · rw [deny_memory]
        exact h.known
      · rw [deny_memory]
        exact h.content
      · rw [deny_memory]
        exact fun tenant id row hrow hdeleted => ⟨row, hrow, hdeleted⟩
      · rw [deny_memory, hnone]
        intro _ row hrow
        cases hrow
    · rename_i row hrow
      obtain ⟨old, hold, hspace, _⟩ := h.rows _ _ row hrow
      obtain ⟨row', hrow', hspace', _⟩ := hlater.rows _ _ old hold
      have hscope : row.space = denial.space :=
        hspace.trans (hspace'.symm.trans (hsound.denied denial hdenial row' hrow').1)
      refine ⟨(tables.deny denial).setMemory denial.tenant denial.memory
        { row with
          version := if row.deleted then row.version else row.version + 1
          deleted := true
          content := none
          updated := now }, ?_, ⟨?_, ?_, ?_, ?_, ?_⟩, ?_, ?_⟩
      · rw [bind_eq_ok]
        exact ⟨(), check_eq_ok.mpr hscope, rfl⟩
      · rw [setMemory_tenants, deny_tenants, h.tenants]
      · rw [setMemory_origins, deny_origins, h.origins]
      · intro tenant id found hfound
        rw [setMemory_memory, deny_memory] at hfound
        split at hfound
        · rename_i hsame
          cases hfound
          rw [hsame.1, hsame.2]
          exact ⟨old, hold, hspace, fun _ => Or.inr ⟨denial, hdenial, rfl, rfl⟩⟩
        · exact h.rows tenant id found hfound
      · intro tenant id found hfound
        rw [setMemory_memory, deny_memory]
        split
        · exact ⟨_, rfl⟩
        · exact h.known tenant id found hfound
      · intro tenant id found hfound
        rw [setMemory_memory, deny_memory] at hfound
        split at hfound
        · rename_i hsame
          cases hfound
          rw [hsame.1, hsame.2]
          exact ⟨old, hold, Or.inr rfl⟩
        · exact h.content tenant id found hfound
      · intro tenant id found hfound hdeleted
        rw [setMemory_memory, deny_memory]
        split
        · exact ⟨_, rfl, rfl⟩
        · exact ⟨found, hfound, hdeleted⟩
      · intro _ found hfound
        rw [setMemory_memory, if_pos ⟨rfl, rfl⟩] at hfound
        cases hfound
        rfl
  · rename_i htenant
    exact ⟨tables, rfl, h, fun tenant id row hrow hdeleted => ⟨row, hrow, hdeleted⟩,
      fun hknown => absurd hknown htenant⟩

/-- **The deletions of the later state reconcile with the older one.** -/
theorem reconcile_ok (now : Time) (hsound : Sound after) (hlater : Later before after) :
    ∃ tables, reconcileDeletions now after.denials before = .ok tables ∧ Reconciled before after tables ∧
      ∀ denial ∈ after.denials, denial.tenant ∈ before.tenants → ∀ row,
        tables.memory denial.tenant denial.memory = some row → row.deleted = true := by
  have hinit : Reconciled before after before :=
    ⟨rfl, rfl, fun _ _ row hrow => ⟨row, hrow, rfl, Or.inl⟩, fun _ _ old hold => ⟨old, hold⟩,
      fun _ _ row hrow => ⟨row, hrow, Or.inl rfl⟩⟩
  obtain ⟨tables, hfold, hreconciled, hdeleted⟩ := foldlM_succeeds (f := reconcileDenial now)
    (l := after.denials) (s := before)
    (fun done tables => Reconciled before after tables ∧
      ∀ denial ∈ done, denial.tenant ∈ before.tenants → ∀ row,
        tables.memory denial.tenant denial.memory = some row → row.deleted = true)
    (by
      rintro done denial rest current hsplit ⟨hcurrent, hdone⟩
      have hdenial : denial ∈ after.denials := by
        rw [hsplit]
        simp
      obtain ⟨next, hnext, hreconciled, hkeep, hgone⟩ :=
        reconcileDenial_ok now hsound hlater hdenial hcurrent
      refine ⟨next, hnext, hreconciled, ?_⟩
      intro other hother hknown row hrow
      rcases List.mem_append.mp hother with hold | hlast
      · obtain ⟨old, hold', _⟩ := hreconciled.rows _ _ row hrow
        obtain ⟨was, hwas⟩ := hcurrent.known _ _ old hold'
        obtain ⟨row', hrow', hdeleted⟩ := hkeep _ _ was hwas (hdone other hold hknown was hwas)
        rw [hrow] at hrow'
        cases hrow'
        exact hdeleted
      · rw [List.mem_singleton] at hlast
        subst hlast
        exact hgone (hcurrent.tenants ▸ hknown) row hrow)
    ⟨hinit, by simp⟩
  exact ⟨tables, hfold, hreconciled, hdeleted⟩

/-! ### One item -/

/-- **The tables can take an item**: the identity and the origin of the item are together
    or not there at all, and the mapping is not ahead of the item. -/
structure Fits (tables : Tables) (item : Quarantine) : Prop where
  bounds : 1 ≤ item.sourceVersion ∧ item.sourceVersion ≤ 9007199254740991
  upsert : item.sourceAction = .upsert → item.locallyModified = true
  identity : ∀ mapping ∈ tables.origins, mapping.identity = item.identity → mapping.key = item.key
  known : ∀ mapping ∈ tables.origins, mapping.key = item.key → mapping.memory = item.memory ∧
    mapping.sourceVersion ≤ item.sourceVersion ∧ (mapping.sourceVersion = item.sourceVersion →
      mapping.sourceDigest = item.sourceDigest ∧ mapping.sourceAction = item.sourceAction)
  row : ∀ row, tables.memory item.tenant item.memory = some row → row.space = item.space ∧
    (∃ mapping ∈ tables.origins, mapping.key = item.key) ∧
    (row.deleted = true → item.locallyModified = true)

/-- The mapping that a restored item leaves. -/
def Quarantine.mapping (item : Quarantine) (localVersion : Option Nat) (modified : Bool) : Mapping :=
  ⟨item.tenant, item.space, item.origin, item.memory, item.sourceVersion, item.sourceDigest,
    item.sourceAction, localVersion, modified, item.updated⟩

/-- **What a restored item has settled.** -/
structure Settled (tables : Tables) (item : Quarantine) : Prop where
  mapping : ∃ modified, (item.locallyModified = true → modified = true) ∧
    item.mapping ((tables.memory item.tenant item.memory).map Memory.version) modified ∈ tables.origins
  held : ∀ row, tables.memory item.tenant item.memory = some row →
    row.deleted = true ∨ row.review = .quarantined

theorem heldBack_held (row : Memory) :
    (heldBack now row).deleted = true ∨ (heldBack now row).review = .quarantined := by
  unfold heldBack
  split
  · assumption
  · exact Or.inr rfl

theorem heldBack_same (row : Memory) :
    (heldBack now row).space = row.space ∧ (heldBack now row).content = row.content ∧
      (heldBack now row).deleted = row.deleted := by
  unfold heldBack
  split
  · exact ⟨rfl, rfl, rfl⟩
  · exact ⟨rfl, rfl, rfl⟩

theorem record_succeeds {mapping : Mapping}
    (hbounds : 1 ≤ mapping.sourceVersion ∧ mapping.sourceVersion ≤ 9007199254740991)
    (hidentity : ∀ old ∈ tables.origins, old.identity = mapping.identity → old.key = mapping.key) :
    ∃ tables', tables.record mapping = .ok tables' := by
  unfold Tables.record
  simp only [bind_eq_ok, check_eq_ok]
  by_cases hmapped : (tables.mapping mapping.tenant mapping.space mapping.origin).isSome = true
  · exact ⟨_, (), hbounds, by rw [if_pos hmapped]; rfl⟩
  · refine ⟨{ tables with origins := tables.origins ++ [mapping] }, (), hbounds, ?_⟩
    rw [if_neg hmapped, bind_eq_ok]
    refine ⟨(), check_eq_ok.mpr ?_, rfl⟩
    intro old hold hsame
    have hnone : tables.mapping mapping.tenant mapping.space mapping.origin = none := by
      simpa using hmapped
    exact mapping_eq_none.mp hnone old hold (hidentity old hold hsame)

/-- The mapping of an item that fits, and of no other item's memory. -/
theorem Fits.conflicts (hfits : Fits tables item) : conflicts item (tables.memory item.tenant item.memory)
    (tables.mapping item.tenant item.space item.origin) tables = false := by
  have hfound : ∀ mapping, tables.mapping item.tenant item.space item.origin = some mapping →
      mapping ∈ tables.origins ∧ mapping.key = item.key := by
    intro mapping hmapping
    exact ⟨List.mem_of_find?_eq_some hmapping, by simpa [Quarantine.key] using List.find?_some hmapping⟩
  have hcollision : (tables.origins.any fun other =>
      other.tenant == item.tenant && other.memory == item.memory &&
        (other.space != item.space || other.origin != item.origin)) = false := by
    rw [List.any_eq_false]
    intro other hother hmatch
    simp only [Bool.and_eq_true, beq_iff_eq, Bool.or_eq_true, bne_iff_ne, ne_eq] at hmatch
    obtain ⟨hsame, hdiffers⟩ := hmatch
    have hkey := hfits.identity other hother (Prod.ext hsame.1 hsame.2)
    have hspace : other.space = item.space := congrArg (fun key => key.2.1) hkey
    have horigin : other.origin = item.origin := congrArg (fun key => key.2.2) hkey
    rcases hdiffers with hne | hne
    · exact hne hspace
    · exact hne horigin
  have hrow : ((tables.memory item.tenant item.memory).any fun row => row.space != item.space ||
      (tables.mapping item.tenant item.space item.origin).isNone) = false := by
    rw [Option.any_eq_false]
    intro row hrow
    obtain ⟨hspace, ⟨mapping, hmapping, hkey⟩, _⟩ := hfits.row row hrow
    have hsome : (tables.mapping item.tenant item.space item.origin).isNone = false := by
      rw [Option.isNone_eq_false_iff, Option.isSome_iff_ne_none]
      intro hnone
      exact mapping_eq_none.mp hnone mapping hmapping hkey
    simp [hspace, hsome]
  have hmapping : ((tables.mapping item.tenant item.space item.origin).any fun mapping =>
      mapping.memory != item.memory || decide (item.sourceVersion < mapping.sourceVersion) ||
        (mapping.sourceVersion == item.sourceVersion &&
          (mapping.sourceDigest != item.sourceDigest || mapping.sourceAction != item.sourceAction))) =
      false := by
    rw [Option.any_eq_false]
    intro mapping hmapping
    obtain ⟨hmemory, hle, hsame⟩ := hfits.known mapping (hfound mapping hmapping).1 (hfound mapping hmapping).2
    rw [Bool.eq_false_iff]
    simp only [ne_eq, Bool.or_eq_true, Bool.and_eq_true, bne_iff_ne, beq_iff_eq, decide_eq_true_eq]
    rintro ((hne | hlt) | ⟨heq, hdiffers⟩)
    · exact hne hmemory
    · omega
    · rcases hdiffers with hne | hne
      · exact hne (hsame heq).1
      · exact hne (hsame heq).2
  unfold Recovery.conflicts
  rw [hcollision, hrow, hmapping]
  rfl

/-- **A restored item**: its memory is held back, its mapping recorded. -/
structure Restored (now : Time) (tables tables' : Tables) (item : Quarantine) (modified : Bool) : Prop where
  tenants : tables'.tenants = tables.tenants
  keys : (tables'.origins.map Mapping.key).Nodup
  identities : (tables'.origins.map Mapping.identity).Nodup
  ledger : item.locallyModified = true → modified = true
  flag : ∀ mapping ∈ tables.origins, mapping.key = item.key → mapping.locallyModified = true →
    modified = true
  memory : ∀ t i, tables'.memory t i = if t = item.tenant ∧ i = item.memory
    then (tables.memory item.tenant item.memory).map (heldBack now) else tables.memory t i
  origins : ∀ other, other ∈ tables'.origins ↔
    other = item.mapping (((tables.memory item.tenant item.memory).map (heldBack now)).map Memory.version)
        modified ∨
      other ∈ tables.origins ∧ other.key ≠ item.key

/-- **An item that fits is restored.** -/
theorem restoreItem_ok (now : Time) (hfits : Fits tables item) (htenant : item.tenant ∈ tables.tenants)
    (hkeys : (tables.origins.map Mapping.key).Nodup)
    (hidentities : (tables.origins.map Mapping.identity).Nodup) :
    ∃ tables' modified, restoreItem now tables item = .ok tables' ∧
      Restored now tables tables' item modified := by
  obtain ⟨horigins, _, htenants⟩ := @place_rest tables item.tenant item.memory
    ((tables.memory item.tenant item.memory).map (heldBack now))
  generalize hmodified : (item.locallyModified ||
    (tables.mapping item.tenant item.space item.origin).any fun mapping =>
      mapping.changed (tables.memory item.tenant item.memory)) = modified
  obtain ⟨tables', hrecord⟩ := @record_succeeds _ (item.mapping
      (((tables.memory item.tenant item.memory).map (heldBack now)).map Memory.version) modified)
    hfits.bounds (by rw [horigins]; exact hfits.identity)
  have hrecorded := record_recorded (by rw [horigins]; exact hkeys) (by rw [horigins]; exact hidentities)
    (by
      rw [horigins]
      intro old hold hkey
      exact (hfits.known old hold hkey).1) hrecord
  refine ⟨tables', modified, ?_, ?_⟩
  · unfold restoreItem
    rw [if_pos htenant]
    simp only [bind_eq_ok, check_eq_ok]
    refine ⟨(), hfits.conflicts, ?_⟩
    rw [hmodified]
    exact hrecord
  · constructor
    · rw [hrecorded.tenants, htenants]
    · exact hrecorded.keys
    · exact hrecorded.identities
    · intro hitem
      rw [← hmodified, hitem]
      rfl
    · intro mapping hmapping hkey hflag
      have hlookup := (mapping_eq_some hkeys).mpr ⟨hmapping, hkey⟩
      rw [← hmodified, hlookup]
      simp [Mapping.changed, hflag]
    · intro t i
      rw [hrecorded.memory, place_memory]
      intro hnone
      simpa using hnone
    · intro other
      rw [hrecorded.origins, horigins]
      rfl

section Restored

variable {other : Quarantine} {modified : Bool} (h : Restored now tables tables' item modified)

include h

/-- The items of a ledger still fit. -/
theorem Restored.fits (hfits : Fits tables other)
    (hother : other = item ∨ other.key ≠ item.key ∧ other.identity ≠ item.identity) :
    Fits tables' other where
  bounds := hfits.bounds
  upsert := hfits.upsert
  identity := by
    intro mapping hmapping hidentity
    rcases (h.origins mapping).mp hmapping with rfl | ⟨hold, _⟩
    · rcases hother with rfl | ⟨_, hne⟩
      · rfl
      · exact absurd hidentity.symm hne
    · exact hfits.identity mapping hold hidentity
  known := by
    intro mapping hmapping hkey
    rcases (h.origins mapping).mp hmapping with rfl | ⟨hold, _⟩
    · rcases hother with rfl | ⟨hne, _⟩
      · exact ⟨rfl, Nat.le_refl _, fun _ => ⟨rfl, rfl⟩⟩
      · exact absurd hkey.symm hne
    · exact hfits.known mapping hold hkey
  row := by
    intro row hrow
    rw [h.memory] at hrow
    rcases hother with rfl | ⟨hne, hidentity⟩
    · rw [if_pos ⟨rfl, rfl⟩] at hrow
      obtain ⟨old, hold, rfl⟩ := Option.map_eq_some_iff.mp hrow
      obtain ⟨hspace, _, hdeleted⟩ := hfits.row old hold
      obtain ⟨hspace', _, hdeleted'⟩ := @heldBack_same now old
      exact ⟨hspace'.trans hspace, ⟨_, (h.origins _).mpr (Or.inl rfl), rfl⟩,
        fun hgone => hdeleted (hdeleted'.symm.trans hgone)⟩
    · rw [if_neg fun hsame => hidentity (Prod.ext hsame.1 hsame.2)] at hrow
      obtain ⟨hspace, ⟨mapping, hmapping, hkey⟩, hdeleted⟩ := hfits.row row hrow
      exact ⟨hspace, ⟨mapping, (h.origins mapping).mpr (Or.inr ⟨hmapping, hkey ▸ hne⟩), hkey⟩, hdeleted⟩

theorem Restored.settled : Settled tables' item := by
  have hmemory : tables'.memory item.tenant item.memory =
      (tables.memory item.tenant item.memory).map (heldBack now) := by
    rw [h.memory, if_pos ⟨rfl, rfl⟩]
  constructor
  · refine ⟨modified, h.ledger, ?_⟩
    rw [hmemory]
    exact (h.origins _).mpr (Or.inl rfl)
  · intro row hrow
    rw [hmemory] at hrow
    obtain ⟨old, _, rfl⟩ := Option.map_eq_some_iff.mp hrow
    exact heldBack_held old

theorem Restored.settled_other (hsettled : Settled tables other) (hkey : other.key ≠ item.key)
    (hidentity : other.identity ≠ item.identity) : Settled tables' other := by
  have hmemory : tables'.memory other.tenant other.memory = tables.memory other.tenant other.memory := by
    rw [h.memory, if_neg fun hsame => hidentity (Prod.ext hsame.1 hsame.2)]
  constructor
  · obtain ⟨modified', hledger, hmapping⟩ := hsettled.mapping
    refine ⟨modified', hledger, ?_⟩
    rw [hmemory]
    exact (h.origins _).mpr (Or.inr ⟨hmapping, hkey⟩)
  · rw [hmemory]
    exact hsettled.held

end Restored

/-- **A settled item does nothing more.** -/
theorem Settled.restoreItem (hsettled : Settled tables item) (hfits : Fits tables item)
    (hkeys : (tables.origins.map Mapping.key).Nodup) : restoreItem now tables item = .ok tables := by
  obtain ⟨modified, hledger, hmapping⟩ := hsettled.mapping
  have hlookup : tables.mapping item.tenant item.space item.origin = some _ :=
    (mapping_eq_some hkeys).mpr ⟨hmapping, rfl⟩
  have hheld : ∀ row, tables.memory item.tenant item.memory = some row → heldBack now row = row := by
    intro row hrow
    exact if_pos (hsettled.held row hrow)
  have hmap : (tables.memory item.tenant item.memory).map (heldBack now) =
      tables.memory item.tenant item.memory := by
    cases hrow : tables.memory item.tenant item.memory with
    | none => rfl
    | some row => exact congrArg some (hheld row hrow)
  -- the mapping is the one that the item leaves
  have hmodified : (item.locallyModified ||
      ((item.mapping ((tables.memory item.tenant item.memory).map Memory.version) modified).changed
        (tables.memory item.tenant item.memory))) = modified := by
    cases hflag : modified with
    | true => simp [Mapping.changed, Quarantine.mapping]
    | false =>
      have hitem : item.locallyModified = false := by
        rw [Bool.eq_false_iff]
        intro htrue
        exact absurd (hflag.symm.trans (hledger htrue)) (by decide)
      rw [hitem]
      cases hrow : tables.memory item.tenant item.memory with
      | none => rfl
      | some row =>
        have hlive : row.deleted = false := by
          rw [Bool.eq_false_iff]
          intro htrue
          exact absurd (hitem.symm.trans ((hfits.row row hrow).2.2 htrue)) (by decide)
        have haction : item.sourceAction = .quarantine := by
          cases haction : item.sourceAction with
          | upsert => exact absurd (hitem.symm.trans (hfits.upsert haction)) (by decide)
          | quarantine => rfl
        have hreview : row.review = .quarantined := by
          rcases hsettled.held row hrow with hgone | hreview
          · exact absurd (hlive.symm.trans hgone) (by decide)
          · exact hreview
        simp [Mapping.changed, Mapping.differs, Quarantine.mapping, haction, hreview, SourceAction.review]
  have hplace : place item.tenant item.memory (tables.memory item.tenant item.memory) tables = tables := by
    cases hrow : tables.memory item.tenant item.memory with
    | none => rfl
    | some row =>
      have hsame : (tables.setMemory item.tenant item.memory row).memory = tables.memory := by
        funext t i
        rw [setMemory_memory]
        split
        · rename_i heq
          rw [heq.1, heq.2, hrow]
        · rfl
      exact congrArg (fun memory => { tables with memory := memory }) hsame
  have hrecord : tables.record
      (item.mapping ((tables.memory item.tenant item.memory).map Memory.version) modified) = .ok tables := by
    have hsome : (tables.mapping item.tenant item.space item.origin).isSome = true := by
      rw [hlookup]
      rfl
    have hsame : Table.update tables.origins (fun old => decide (old.key = item.key)) (fun old =>
        { item.mapping ((tables.memory item.tenant item.memory).map Memory.version) modified with
          memory := old.memory }) = tables.origins := by
      refine (List.map_congr_left fun old hold => ?_).trans (List.map_id _)
      by_cases hkey : old.key = item.key
      · have heq := Table.eq_of_key hkeys hold hmapping hkey
        rw [heq]
        simp [Mapping.key, Quarantine.key, Quarantine.mapping]
      · simp [hkey]
    unfold Tables.record
    simp only [bind_eq_ok, check_eq_ok]
    refine ⟨(), hfits.bounds, ?_⟩
    have hupdated := congrArg (fun origins => (Except.ok { tables with origins := origins } : Except Failure Tables)) hsame
    exact (if_pos hsome).trans hupdated
  unfold Recovery.restoreItem
  split
  · simp only [bind_eq_ok, check_eq_ok]
    refine ⟨(), hfits.conflicts, ?_⟩
    rw [hlookup, Option.any_some, hmodified, hmap]
    exact (congrArg (fun tables' : Tables => tables'.record _) hplace).trans hrecord
  · rfl

/-! ### The whole ledger -/

/-- **What a restoration keeps**: no row and no content is new, no mapping falls behind. -/
structure Holds (tables tables' : Tables) : Prop where
  rows : ∀ tenant id row, tables'.memory tenant id = some row → ∃ old, tables.memory tenant id = some old ∧
    row.content = old.content ∧ (old.deleted = true → row.deleted = true)
  mappings : ∀ mapping ∈ tables.origins, ∃ mapping' ∈ tables'.origins, mapping'.key = mapping.key ∧
    mapping'.memory = mapping.memory ∧ mapping.sourceVersion ≤ mapping'.sourceVersion ∧
    (mapping.locallyModified = true → mapping'.locallyModified = true)

theorem Holds.refl (tables : Tables) : Holds tables tables where
  rows := fun _ _ row h => ⟨row, h, rfl, fun hdeleted => hdeleted⟩
  mappings := fun mapping h => ⟨mapping, h, rfl, rfl, Nat.le_refl _, fun hflag => hflag⟩

theorem Holds.trans {tables'' : Tables} (h : Holds tables tables') (h' : Holds tables' tables'') :
    Holds tables tables'' where
  rows := by
    intro tenant id row'' hrow''
    obtain ⟨row', hrow', hcontent', hdeleted'⟩ := h'.rows tenant id row'' hrow''
    obtain ⟨row, hrow, hcontent, hdeleted⟩ := h.rows tenant id row' hrow'
    exact ⟨row, hrow, hcontent'.trans hcontent, fun hgone => hdeleted' (hdeleted hgone)⟩
  mappings := by
    intro mapping hmapping
    obtain ⟨mapping', hmapping', hkey, hmemory, hle, hflag⟩ := h.mappings mapping hmapping
    obtain ⟨mapping'', hmapping'', hkey', hmemory', hle', hflag'⟩ := h'.mappings mapping' hmapping'
    exact ⟨mapping'', hmapping'', hkey'.trans hkey, hmemory'.trans hmemory, hle.trans hle',
      fun hold => hflag' (hflag hold)⟩

theorem Restored.holds {modified : Bool} (h : Restored now tables tables' item modified)
    (hfits : Fits tables item) : Holds tables tables' where
  rows := by
    intro tenant id row hrow
    rw [h.memory] at hrow
    split at hrow
    · rename_i hsame
      obtain ⟨old, hold, rfl⟩ := Option.map_eq_some_iff.mp hrow
      obtain ⟨_, hcontent, hdeleted⟩ := @heldBack_same now old
      rw [hsame.1, hsame.2]
      exact ⟨old, hold, hcontent, fun hgone => hdeleted.trans hgone⟩
    · exact ⟨row, hrow, rfl, fun hgone => hgone⟩
  mappings := by
    intro mapping hmapping
    by_cases hkey : mapping.key = item.key
    · obtain ⟨hmemory, hle, _⟩ := hfits.known mapping hmapping hkey
      exact ⟨_, (h.origins _).mpr (Or.inl rfl), hkey.symm, hmemory.symm, hle, h.flag mapping hmapping hkey⟩
    · exact ⟨mapping, (h.origins _).mpr (Or.inr ⟨hmapping, hkey⟩), rfl, rfl, Nat.le_refl _,
        fun hflag => hflag⟩

/-- **The state of a restoration** after some of its items. -/
structure Restoring (before : Tables) (items done : List Quarantine) (tables : Tables) : Prop where
  tenants : tables.tenants = before.tenants
  keys : (tables.origins.map Mapping.key).Nodup
  identities : (tables.origins.map Mapping.identity).Nodup
  holds : Holds before tables
  fits : ∀ item ∈ items, Fits tables item
  settled : ∀ item ∈ done, item.tenant ∈ before.tenants → Settled tables item

/-- **A ledger whose items fit is restored.** -/
theorem restore_ok {items : List Quarantine} (now : Time) (hkeys : (items.map Quarantine.key).Nodup)
    (hidentities : (items.map Quarantine.identity).Nodup) (hinit : Restoring before items [] before) :
    ∃ tables, restore now items before = .ok tables ∧ Restoring before items items tables := by
  refine foldlM_succeeds (Restoring before items) ?_ hinit
  intro done item rest current hsplit hcurrent
  have hmem : item ∈ items := by
    rw [hsplit]
    simp
  -- another item is of another origin and of another memory
  have hother : ∀ other ∈ items, other = item ∨ other.key ≠ item.key ∧ other.identity ≠ item.identity := by
    intro other hother
    by_cases heq : other = item
    · exact Or.inl heq
    · exact Or.inr ⟨fun hsame => heq (Table.eq_of_key hkeys hother hmem hsame),
        fun hsame => heq (Table.eq_of_key hidentities hother hmem hsame)⟩
  by_cases htenant : item.tenant ∈ current.tenants
  · obtain ⟨next, modified, hnext, hrestored⟩ := restoreItem_ok now (hcurrent.fits item hmem) htenant
      hcurrent.keys hcurrent.identities
    refine ⟨next, hnext, ?_⟩
    constructor
    · exact hrestored.tenants.trans hcurrent.tenants
    · exact hrestored.keys
    · exact hrestored.identities
    · exact hcurrent.holds.trans (hrestored.holds (hcurrent.fits item hmem))
    · intro other hitem
      exact hrestored.fits (hcurrent.fits other hitem) (hother other hitem)
    · intro other hdone hknown
      rcases List.mem_append.mp hdone with hold | hlast
      · have hitem : other ∈ items := by
          rw [hsplit]
          exact List.mem_append_left _ hold
        rcases hother other hitem with rfl | ⟨hkey, hidentity⟩
        · exact hrestored.settled
        · exact hrestored.settled_other (hcurrent.settled other hold hknown) hkey hidentity
      · rw [List.mem_singleton] at hlast
        exact hlast ▸ hrestored.settled
  · refine ⟨current, if_neg htenant, hcurrent.tenants, hcurrent.keys, hcurrent.identities, hcurrent.holds,
      hcurrent.fits, ?_⟩
    intro other hdone hknown
    rcases List.mem_append.mp hdone with hold | hlast
    · exact hcurrent.settled other hold hknown
    · rw [List.mem_singleton] at hlast
      rw [← hcurrent.tenants, hlast] at hknown
      exact absurd hknown htenant

/-- **Restoring the ledger again changes nothing.** -/
theorem restore_again {items : List Quarantine} (again : Time) (h : Restoring before items items tables) :
    restore again items tables = .ok tables := by
  obtain ⟨_, hrestore, rfl⟩ := foldlM_succeeds (f := restoreItem again) (l := items) (s := tables)
    (fun _ current => current = tables)
    (by
      rintro done item rest _ hsplit rfl
      have hmem : item ∈ items := by
        rw [hsplit]
        simp
      refine ⟨_, ?_, rfl⟩
      by_cases htenant : item.tenant ∈ before.tenants
      · exact (h.settled item hmem htenant).restoreItem (h.fits item hmem) h.keys
      · rw [← h.tenants] at htenant
        exact if_neg htenant) rfl
  exact hrestore

/-! ### A ledger of the same installation -/

/-- **Every item of a later ledger fits** the older state with the later deletions. -/
theorem capture_fits (hsound' : Sound after) (hlater : Later before after)
    (hreconciled : Reconciled before after tables) (hitem : item ∈ capture after) : Fits tables item := by
  have hupsert := @capture_modified after item hitem
  obtain ⟨mapping, hmapping, hheld, rfl⟩ := mem_capture.mp hitem
  -- the mapping that an older one has become
  have hbecame : ∀ old ∈ tables.origins, ∃ mapping' ∈ after.origins, mapping'.key = old.key ∧
      mapping'.identity = old.identity ∧ old.sourceVersion ≤ mapping'.sourceVersion ∧
      (old.sourceVersion = mapping'.sourceVersion →
        mapping'.sourceDigest = old.sourceDigest ∧ mapping'.sourceAction = old.sourceAction) := by
    intro old hold
    rw [hreconciled.origins] at hold
    obtain ⟨mapping', hmapping', hkey, hmemory, hrest⟩ := hlater.mappings old hold
    have htenant : mapping'.tenant = old.tenant := congrArg Prod.fst hkey
    exact ⟨mapping', hmapping', hkey, Prod.ext htenant hmemory, hrest⟩
  constructor
  · exact hsound'.bounds mapping hmapping
  · exact hupsert
  · intro old hold hidentity
    obtain ⟨mapping', hmapping', hkey, hidentity', _⟩ := hbecame old hold
    have heq := Table.eq_of_key hsound'.identities hmapping' hmapping (hidentity'.trans hidentity)
    rw [← hkey, heq]
    rfl
  · intro old hold hkey
    obtain ⟨mapping', hmapping', hkey', hidentity', hle, hsame⟩ := hbecame old hold
    have heq := Table.eq_of_key hsound'.keys hmapping' hmapping (hkey'.trans hkey)
    subst heq
    refine ⟨(congrArg Prod.snd hidentity').symm, hle, ?_⟩
    intro hversion
    exact ⟨(hsame hversion).1.symm, (hsame hversion).2.symm⟩
  · intro row hrow
    obtain ⟨old, hold, hspace, hdeleted⟩ := hreconciled.rows _ _ row hrow
    obtain ⟨row', hfound, hspace', hdeleted'⟩ := hlater.rows _ _ old hold
    have hrow' : after.memory mapping.tenant mapping.memory = some row' := hfound
    obtain ⟨hplace, version, hlocal, _, hgone⟩ := hsound'.placed mapping hmapping row' hrow'
    refine ⟨hspace.trans (hspace'.symm.trans hplace), ?_, ?_⟩
    · rw [hreconciled.origins]
      obtain ⟨mapping', hmapping', hkey, _⟩ := hlater.fresh mapping hmapping old hold
      exact ⟨mapping', hmapping', hkey⟩
    · intro hrowdeleted
      have hlost : row'.deleted = true := by
        rcases hdeleted hrowdeleted with holddeleted | ⟨denial, hdenial, htenant, hmemory⟩
        · exact hdeleted' holddeleted
        · apply (hsound'.denied denial hdenial row' _).2
          rw [htenant, hmemory]
          exact hrow'
      -- a deletion goes on from the version of the mapping
      have hdiffers : mapping.localVersion ≠ some row'.version := by
        rw [hlocal]
        intro heq
        cases heq
        exact Nat.lt_irrefl _ (hgone hlost)
      show mapping.changed (after.joined mapping) = true
      have hjoined : after.joined mapping = some row' := by
        unfold Tables.joined
        rw [hrow']
        simp [Option.filter, hplace]
      rw [hjoined]
      simp [Mapping.changed, Mapping.differs, hdiffers.symm]

/-- **A recovery ledger restores honestly.**  Whatever happened between a snapshot and a
    ledger, the ledger of up to a million held identities is valid and restores into the
    snapshot with the later deletions: what was held is held back, nothing falls behind,
    nothing is created, and a second restoration changes nothing. -/
theorem recovery_ledger_restores (steps more : List Step) (reconciledAt restoredAt : Time) :
    let before := (installation.run steps).tables
    let after := (installation.run (steps ++ more)).tables
    (validate (capture after) after.tenants = .ok () ↔ (capture after).length ≤ 1000000) ∧
    ∃ reconciled restored, reconcileDeletions reconciledAt after.denials before = .ok reconciled ∧
      restore restoredAt (capture after) reconciled = .ok restored ∧
      (∀ mapping ∈ after.origins,
        (mapping.sourceAction = .quarantine ∨ ∃ row,
          after.memory mapping.tenant mapping.memory = some row ∧ row.review = .quarantined) →
        ∀ row, restored.memory mapping.tenant mapping.memory = some row →
          row.deleted = true ∨ row.review = .quarantined) ∧
      (∀ mapping ∈ before.origins, ∃ mapping' ∈ restored.origins, mapping'.key = mapping.key ∧
        mapping'.memory = mapping.memory ∧ mapping.sourceVersion ≤ mapping'.sourceVersion ∧
        (mapping.locallyModified = true → mapping'.locallyModified = true)) ∧
      (∀ item ∈ capture after, item.tenant ∈ before.tenants → ∃ mapping' ∈ restored.origins,
        mapping'.key = item.key ∧ (item.locallyModified = true → mapping'.locallyModified = true)) ∧
      (∀ tenant id row, restored.memory tenant id = some row → ∃ old, before.memory tenant id = some old ∧
        (row.content = old.content ∨ row.content = none)) ∧
      ∀ again, restore again (capture after) restored = .ok restored := by
  intro before after
  obtain ⟨hsound, hlater⟩ := history_kept steps more
  obtain ⟨hsound', _⟩ := history_kept (steps ++ more) []
  have hvalid : validate (capture after) after.tenants = .ok () ↔ (capture after).length ≤ 1000000 := by
    constructor
    · intro h
      unfold validate at h
      rw [bind_eq_ok] at h
      obtain ⟨_, hlength, _⟩ := h
      exact check_eq_ok.mp hlength
    · exact validate_capture hsound'
  obtain ⟨reconciled, hreconcile, hreconciled, hdenied⟩ := reconcile_ok reconciledAt hsound' hlater
  have hinit : Restoring reconciled (capture after) [] reconciled := by
    constructor
    · rfl
    · rw [hreconciled.origins]
      exact hsound.keys
    · rw [hreconciled.origins]
      exact hsound.identities
    · exact Holds.refl reconciled
    · exact fun item hitem => capture_fits hsound' hlater hreconciled hitem
    · simp
  obtain ⟨restored, hrestore, hrestored⟩ := restore_ok restoredAt (capture_keys hsound')
    (capture_identities hsound') hinit
  refine ⟨hvalid, reconciled, restored, hreconcile, hrestore, ?_, ?_, ?_, ?_, ?_⟩
  · intro mapping hmapping hquarantined row hrow
    obtain ⟨held, hheld, _, hdeleted⟩ := hrestored.holds.rows _ _ row hrow
    obtain ⟨old, hold, _⟩ := hreconciled.rows _ _ held hheld
    have hknown : mapping.tenant ∈ before.tenants := by
      obtain ⟨mapping', hmapping', hkey, _⟩ := hlater.fresh mapping hmapping old hold
      rw [← show mapping'.tenant = mapping.tenant from congrArg Prod.fst hkey]
      exact hsound.known mapping' hmapping'
    obtain ⟨row', hrow', _⟩ := hlater.rows _ _ old hold
    by_cases hgone : row'.deleted = true
    · -- a later deletion is reconciled
      obtain ⟨denial, hdenial, htenant, hmemory⟩ := hsound'.withdrawn _ _ row' hrow' hgone
      left
      apply hdeleted
      apply hdenied denial hdenial (htenant ▸ hknown)
      rw [htenant, hmemory]
      exact hheld
    · have hitem : after.quarantineOf mapping ∈ capture after := by
        refine mem_capture.mpr ⟨mapping, hmapping, ?_, rfl⟩
        unfold Tables.quarantines
        rw [Bool.or_eq_true]
        rcases hquarantined with haction | ⟨found, hfound, hreview⟩
        · exact Or.inl (by rw [haction]; rfl)
        · right
          obtain ⟨hspace, _⟩ := hsound'.placed mapping hmapping found hfound
          rw [hrow'] at hfound
          cases hfound
          unfold Tables.joined
          rw [hrow']
          simp [Option.filter, hspace, hreview, hgone]
      exact (hrestored.settled _ hitem (by rw [hreconciled.tenants]; exact hknown)).held row hrow
  · intro mapping hmapping
    apply hrestored.holds.mappings
    rw [hreconciled.origins]
    exact hmapping
  · intro item hitem hknown
    obtain ⟨modified, hledger, hmapping⟩ :=
      (hrestored.settled item hitem (by rw [hreconciled.tenants]; exact hknown)).mapping
    exact ⟨_, hmapping, rfl, hledger⟩
  · intro tenant id row hrow
    obtain ⟨held, hheld, hcontent, _⟩ := hrestored.holds.rows _ _ row hrow
    obtain ⟨old, hold, hrest⟩ := hreconciled.content _ _ held hheld
    refine ⟨old, hold, ?_⟩
    rw [hcontent]
    exact hrest
  · exact fun again => restore_again again hrestored

/-! ### What a ledger does not carry -/

/-- The entry of a memory that its source holds back. -/
def heldEntry (n : Nat) : Latest := ⟨BitVec.ofNat 128 n, 1, 0, .quarantine, "", true, false⟩

/-- A recovery of one such memory. -/
def holdCommand (n : Nat) : Command := ⟨.original, 0, 0, [heldEntry n], []⟩

theorem holdCommand_originals (n : Nat) : (holdCommand n).originals = [BitVec.ofNat 128 n] := by
  simp [Command.originals, holdCommand, heldEntry]

theorem holdCommand_distinct (n : Nat) : (holdCommand n).Distinct 0 := by
  intro a ha b hb _
  rw [holdCommand_originals, List.mem_singleton] at ha hb
  exact ha.trans hb.symm

/-- A tenant that recovers `n` of them, one after the other. -/
def holdSteps (n : Nat) : List Step :=
  .addTenant 0 :: (List.range n).map fun k => .recover 0 0 (holdCommand k) (holdCommand_distinct k)

/-- The mapping that one of them leaves. -/
def heldMapping (n : Nat) : Mapping :=
  ⟨0, 0, ⟨0, 0, BitVec.ofNat 128 n⟩, BitVec.ofNat 128 n, 1, 0, .quarantine, none, false, 0⟩

/-- A tenant with `n` held mappings and no memories. -/
def heldTables (n : Nat) : Tables := ⟨[0], fun _ _ => none, (List.range n).map heldMapping, []⟩

theorem heldMapping_ne {n k : Nat} (hn : n < 2 ^ 128) (hk : k < n) :
    BitVec.ofNat 128 k ≠ BitVec.ofNat 128 n := by
  intro heq
  have hval := congrArg BitVec.toNat heq
  rw [BitVec.toNat_ofNat, BitVec.toNat_ofNat, Nat.mod_eq_of_lt (hk.trans hn), Nat.mod_eq_of_lt hn] at hval
  omega

theorem hold_applies {n : Nat} (hn : n < 2 ^ 128) :
    (holdCommand n).apply 0 0 0 (heldTables n) = .ok (heldTables (n + 1)) := by
  have hmapping : (heldTables n).mapping 0 0 ((holdCommand n).origin (BitVec.ofNat 128 n)) = none := by
    refine mapping_eq_none.mpr fun mapping hmapping hkey => ?_
    obtain ⟨k, hk, rfl⟩ := List.mem_map.mp hmapping
    have horigin := congrArg (fun key : Uuid × Uuid × Source => key.2.2.memory) hkey
    exact heldMapping_ne hn (List.mem_range.mp hk) horigin
  have hfresh : ∀ old ∈ (heldTables n).origins, old.identity ≠ (heldMapping n).identity := by
    intro old hold hidentity
    obtain ⟨k, hk, rfl⟩ := List.mem_map.mp hold
    exact heldMapping_ne hn (List.mem_range.mp hk) (congrArg Prod.snd hidentity)
  have havailable : (heldTables n).available 0 0 (BitVec.ofNat 128 n) = true := by
    simp [Tables.available, heldTables, heldMapping]
  have hplan : (holdCommand n).plan 0 0 (heldTables n) =
      [⟨BitVec.ofNat 128 n, BitVec.ofNat 128 n, some (heldEntry n), none, false, .hold⟩] := by
    unfold Command.plan
    rw [holdCommand_originals, List.map_singleton]
    unfold Command.planItem
    have hid : (holdCommand n).identity 0 (BitVec.ofNat 128 n) = BitVec.ofNat 128 n := rfl
    have hentry : (holdCommand n).entry (BitVec.ofNat 128 n) = some (heldEntry n) := by
      simp [Command.entry, holdCommand, heldEntry]
    dsimp only
    rw [hmapping, hid, hentry, havailable]
    simp [heldTables, Command.planAction, Command.planEntry, heldEntry, holdCommand]
  have hrecord : (heldTables n).record (heldMapping n) = .ok (heldTables (n + 1)) := by
    unfold Tables.record
    simp only [bind_eq_ok, check_eq_ok]
    refine ⟨(), by simp [heldMapping], ?_⟩
    have hnone : (heldTables n).mapping (heldMapping n).tenant (heldMapping n).space
        (heldMapping n).origin = none := hmapping
    rw [hnone]
    simp only [Option.isSome_none, Bool.false_eq_true, if_false, bind_eq_ok, check_eq_ok, pure_eq_ok]
    refine ⟨(), hfresh, ?_⟩
    simp [heldTables, List.range_succ]
  unfold Command.apply
  rw [hplan]
  simp only [bind_eq_ok, check_eq_ok]
  refine ⟨(), by simp, ?_⟩
  have hitem : Item.negative ⟨BitVec.ofNat 128 n, BitVec.ofNat 128 n, some (heldEntry n), none, false, .hold⟩ =
      true := rfl
  rw [List.filter_cons, if_pos hitem, List.filter_cons, hitem]
  simp only [List.filter_nil, Bool.not_true, Bool.false_eq_true, if_false, List.append_nil,
    List.foldlM_cons, List.foldlM_nil, bind_eq_ok, pure_eq_ok]
  exact ⟨_, hrecord, rfl⟩

theorem hold_steps {n : Nat} (hn : n ≤ 2 ^ 128) : installation.run (holdSteps n) = ⟨0, heldTables n⟩ := by
  induction n with
  | zero => rfl
  | succ n ih =>
    have hsteps : holdSteps (n + 1) =
        holdSteps n ++ [.recover 0 0 (holdCommand n) (holdCommand_distinct n)] := by
      simp [holdSteps, List.range_succ]
    rw [hsteps, Machine.run_concat, ih (by omega)]
    show State.transact ⟨0, heldTables n⟩ 0 ((holdCommand n).apply 0 0 0 (heldTables n)) = _
    rw [hold_applies (by omega)]
    rfl

theorem capture_held (n : Nat) : (capture (heldTables n)).length = n := by
  have hall : (heldTables n).origins.filter (heldTables n).quarantines = (heldTables n).origins := by
    rw [List.filter_eq_self]
    intro mapping hmapping
    obtain ⟨k, _, rfl⟩ := List.mem_map.mp hmapping
    rfl
  unfold capture
  rw [hall, List.length_mergeSort]
  simp [heldTables]

/-- A quarantined memory that no journal recovered is not in the ledger, and the validator
    rejects a ledger of more than a million held identities. -/
theorem recovery_ledger_left_out :
    (let steps := [.addTenant 1, .save 1 2 3 "x"]
     let before := (installation.run steps).tables
     let after := (installation.run (steps ++ [.review 1 3 1 .quarantined])).tables
     (after.memory 1 3).map Memory.review = some .quarantined ∧
       ∃ reconciled restored, reconcileDeletions 0 after.denials before = .ok reconciled ∧
         restore 0 (capture after) reconciled = .ok restored ∧
         (restored.memory 1 3).map (fun row => (row.review, row.deleted)) = some (.ordinary, false)) ∧
    (let tables := (installation.run (holdSteps 1000001)).tables
     validate (capture tables) tables.tenants = .error .invalidLedger) := by
  constructor
  · intro steps before after
    refine ⟨by decide, before, before, rfl, ?_, by decide⟩
    have hempty : capture after = [] := by
      unfold capture
      rw [show after.origins = [] from rfl, List.filter_nil, List.map_nil, List.mergeSort_nil]
    rw [hempty]
    rfl
  · intro tables
    have htables : tables = heldTables 1000001 := congrArg State.tables (hold_steps (by decide))
    rw [htables]
    unfold validate check
    rw [capture_held, if_neg (by decide)]
    rfl

end Mnemion.Recovery
