/-
  Mnemion/UploadRecords.lean
  ==========================
  **What a staged chunk adds.**  `Stages` says what the staging tables hold of the records
  read so far, in whatever order they came; a chunk is staged exactly when its records
  agree with them (`stage_ok`, `stage_succeeds`).
-/
import Mathlib.Data.List.Dedup
import Mathlib.Data.List.Pairwise
import Mathlib.Data.List.Perm.Lattice
import Mnemion.UploadStaging

namespace Mnemion.JournalStaging

open Outcome ByteLines Journal

variable {codec : LineCodec} {T : Set Entry} {entries done unique : List Entry} {entry : Entry}

/-! ### The records of a chunk -/

/-- **The distinct records** of a chunk. -/
structure Collected (entries unique : List Entry) : Prop where
  mem : ∀ entry, entry ∈ unique ↔ entry ∈ entries
  ids : (unique.map Entry.id).Nodup

/-- Records that SHA-256 tells apart. -/
theorem Digestible.same (hT : Digestible codec T) {a b : Entry} (ha : a ∈ T) (hb : b ∈ T) :
    entryDigest codec a = entryDigest codec b ↔ a = b :=
  ⟨hT.collision_free a ha b hb, fun h => h ▸ rfl⟩

theorem collect_step (hT : Digestible codec T) (hdone : ∀ e ∈ done, e ∈ T) (hentry : entry ∈ T)
    (h : Collected done unique) :
    ((∀ old ∈ done, old.id = entry.id → old = entry) → ∃ unique', collect codec unique entry = .ok unique') ∧
      ∀ unique', collect codec unique entry = .ok unique' → Collected (done ++ [entry]) unique' := by
  unfold collect
  split
  · rename_i old hold
    have hmem : old ∈ done := (h.mem old).mp (List.mem_of_find?_eq_some hold)
    have hid : old.id = entry.id := by simpa using List.find?_some hold
    constructor
    · intro hsame
      refine ⟨_, bind_eq_ok.mpr ⟨(), check_eq_ok.mpr ?_, rfl⟩⟩
      rw [hsame old hmem hid]
    · intro unique' hunique
      simp only [bind_eq_ok, check_eq_ok, pure_eq_ok] at hunique
      obtain ⟨_, hdigest, rfl⟩ := hunique
      have heq : old = entry := (Digestible.same hT (hdone old hmem) hentry).mp hdigest
      subst heq
      -- the record that is written again is the same one
      have hsame : (unique.map fun other => if other.id = old.id then old else other) = unique := by
        refine (List.map_congr_left fun other hother => ?_).trans (List.map_id _)
        split
        · rename_i hkey
          exact (List.inj_on_of_nodup_map h.ids hother (List.mem_of_find?_eq_some hold) hkey).symm
        · rfl
      rw [hsame]
      refine ⟨fun other => ?_, h.ids⟩
      rw [h.mem, List.mem_append, List.mem_singleton]
      constructor
      · exact Or.inl
      · rintro (hother | rfl)
        · exact hother
        · exact hmem
  · rename_i hnone
    have hnew : ∀ old ∈ unique, old.id ≠ entry.id := by
      intro old hold
      simpa using List.find?_eq_none.mp hnone old hold
    constructor
    · exact fun _ => ⟨_, rfl⟩
    · intro unique' hunique
      rw [pure_eq_ok] at hunique
      subst hunique
      constructor
      · intro other
        rw [List.mem_append, List.mem_append, h.mem]
      · rw [List.map_append, List.nodup_append]
        refine ⟨h.ids, List.nodup_singleton _, ?_⟩
        intro a ha b hb
        obtain ⟨old, hold, rfl⟩ := List.mem_map.mp ha
        rw [List.map_singleton, List.mem_singleton] at hb
        exact hb ▸ hnew old hold

/-- **A chunk whose records have identities of their own** is collected, and no other. -/
theorem collect_entries (hT : Digestible codec T) (hentries : ∀ e ∈ entries, e ∈ T) :
    ((∀ a ∈ entries, ∀ b ∈ entries, a.id = b.id → a = b) →
        ∃ unique, entries.foldlM (collect codec) [] = .ok unique) ∧
      ∀ unique, entries.foldlM (collect codec) [] = .ok unique → Collected entries unique := by
  have hinit : Collected [] [] := ⟨fun _ => Iff.rfl, List.nodup_nil⟩
  have hsplit : ∀ {done rest : List Entry} {e : Entry}, entries = done ++ e :: rest →
      (∀ a ∈ done, a ∈ T) ∧ e ∈ T := by
    rintro done rest e rfl
    exact ⟨fun a ha => hentries a (List.mem_append_left _ ha), hentries e (by simp)⟩
  constructor
  · intro hsame
    obtain ⟨unique, hunique, _⟩ := foldlM_succeeds (f := collect codec) (l := entries) (s := [])
      Collected (by
        intro done e rest current hentries' hcurrent
        obtain ⟨hdone, he⟩ := hsplit hentries'
        obtain ⟨hok, hspec⟩ := collect_step hT hdone he hcurrent
        obtain ⟨next, hnext⟩ := hok (by
          intro old hold
          exact hsame old (by rw [hentries']; simp [hold]) e (by rw [hentries']; simp))
        exact ⟨next, hnext, hspec next hnext⟩) hinit
    exact ⟨unique, hunique⟩
  · intro unique hunique
    refine foldlM_split_invariant Collected ?_ hinit hunique
    intro done e rest current next hentries' hcurrent hnext
    obtain ⟨hdone, he⟩ := hsplit hentries'
    exact (collect_step hT hdone he hcurrent).2 next hnext

/-- **The memories of some records.** -/
structure Summarized (entries : List Entry) (latest : List Summary) : Prop where
  entry : ∀ summary ∈ latest, summary.entry ∈ entries
  newest : ∀ summary ∈ latest, ∀ e ∈ entries, e.memoryId = summary.entry.memoryId →
    e.version ≤ summary.entry.version
  denied : ∀ summary ∈ latest, (summary.denied = true ↔
    ∃ e ∈ entries, e.memoryId = summary.entry.memoryId ∧ e.action = .forget)
  all : ∀ e ∈ entries, ∃ summary ∈ latest, summary.entry.memoryId = e.memoryId
  keys : (latest.map fun summary => summary.entry.memoryId).Nodup

theorem summarize_step {latest : List Summary} (h : Summarized done latest) :
    ((∀ old ∈ done, old.memoryId = entry.memoryId → old.version = entry.version → old = entry) →
        ∃ latest', summarize codec latest entry = .ok latest') ∧
      ∀ latest', summarize codec latest entry = .ok latest' → Summarized (done ++ [entry]) latest' := by
  unfold summarize
  split
  · rename_i old hold
    have hmem := List.mem_of_find?_eq_some hold
    have hkey : old.entry.memoryId = entry.memoryId := by simpa using List.find?_some hold
    constructor
    · intro hsame
      refine ⟨_, bind_eq_ok.mpr ⟨(), check_eq_ok.mpr ?_, rfl⟩⟩
      rintro ⟨hversion, hdigest⟩
      exact hdigest (by rw [hsame old.entry (h.entry old hmem) hkey hversion])
    · intro latest' hlatest
      simp only [bind_eq_ok, check_eq_ok, pure_eq_ok] at hlatest
      obtain ⟨_, _, rfl⟩ := hlatest
      -- the summary of the memory of the record, and the others
      have hcases : ∀ summary ∈ latest.map (fun summary =>
            if summary.entry.memoryId = entry.memoryId then
              (⟨if old.entry.version < entry.version then entry else old.entry,
                old.denied || decide (entry.action = .forget)⟩ : Summary)
            else summary),
          summary = ⟨if old.entry.version < entry.version then entry else old.entry,
              old.denied || decide (entry.action = .forget)⟩ ∨
            summary ∈ latest ∧ summary.entry.memoryId ≠ entry.memoryId := by
        intro summary hsummary
        obtain ⟨other, hother, rfl⟩ := List.mem_map.mp hsummary
        split
        · exact Or.inl rfl
        · rename_i hne
          exact Or.inr ⟨hother, hne⟩
      have hmerged : (if old.entry.version < entry.version then entry else old.entry).memoryId =
          entry.memoryId := by
        split
        · rfl
        · exact hkey
      constructor
      · intro summary hsummary
        rcases hcases summary hsummary with rfl | ⟨hother, _⟩
        · dsimp only
          split
          · simp
          · exact List.mem_append_left _ (h.entry old hmem)
        · exact List.mem_append_left _ (h.entry summary hother)
      · intro summary hsummary e he hsame
        rcases hcases summary hsummary with rfl | ⟨hother, hne⟩
        · dsimp only at hsame ⊢
          rw [hmerged] at hsame
          rcases List.mem_append.mp he with hold' | hnew
          · have hle := h.newest old hmem e hold' (hsame.trans hkey.symm)
            split <;> omega
          · rw [List.mem_singleton] at hnew
            subst hnew
            split <;> omega
        · rcases List.mem_append.mp he with hold' | hnew
          · exact h.newest summary hother e hold' hsame
          · rw [List.mem_singleton] at hnew
            subst hnew
            exact absurd hsame.symm hne
      · intro summary hsummary
        rcases hcases summary hsummary with rfl | ⟨hother, hne⟩
        · dsimp only
          rw [hmerged, Bool.or_eq_true, h.denied old hmem, hkey, decide_eq_true_eq]
          constructor
          · rintro (⟨e, he, hsame⟩ | hforget)
            · exact ⟨e, List.mem_append_left _ he, hsame⟩
            · exact ⟨entry, by simp, rfl, hforget⟩
          · rintro ⟨e, he, hsame, hforget⟩
            rcases List.mem_append.mp he with hold' | hnew
            · exact Or.inl ⟨e, hold', hsame, hforget⟩
            · rw [List.mem_singleton] at hnew
              exact Or.inr (hnew ▸ hforget)
        · rw [h.denied summary hother]
          constructor
          · rintro ⟨e, he, hsame⟩
            exact ⟨e, List.mem_append_left _ he, hsame⟩
          · rintro ⟨e, he, hsame, hforget⟩
            rcases List.mem_append.mp he with hold' | hnew
            · exact ⟨e, hold', hsame, hforget⟩
            · rw [List.mem_singleton] at hnew
              subst hnew
              exact absurd hsame.symm hne
      · intro e he
        have hfound : ∃ summary ∈ latest, summary.entry.memoryId = e.memoryId := by
          rcases List.mem_append.mp he with hold' | hnew
          · exact h.all e hold'
          · rw [List.mem_singleton] at hnew
            subst hnew
            exact ⟨old, hmem, hkey⟩
        obtain ⟨summary, hsummary, hsame⟩ := hfound
        refine ⟨_, List.mem_map_of_mem hsummary, ?_⟩
        split
        · rename_i hentry'
          exact hmerged.trans (hentry'.symm.trans hsame)
        · exact hsame
      · rw [List.map_map]
        refine (List.map_congr_left fun summary hsummary => ?_) ▸ h.keys
        dsimp only [Function.comp]
        split
        · rename_i hsame
          exact hsame.trans hmerged.symm
        · rfl
  · rename_i hnone
    have hnew : ∀ summary ∈ latest, summary.entry.memoryId ≠ entry.memoryId := by
      intro summary hsummary
      simpa using List.find?_eq_none.mp hnone summary hsummary
    have hfresh : ∀ e ∈ done, e.memoryId ≠ entry.memoryId := by
      intro e he hsame
      obtain ⟨summary, hsummary, hkey⟩ := h.all e he
      exact hnew summary hsummary (hkey.trans hsame)
    constructor
    · exact fun _ => ⟨_, rfl⟩
    · intro latest' hlatest
      rw [pure_eq_ok] at hlatest
      subst hlatest
      constructor
      · intro summary hsummary
        rcases List.mem_append.mp hsummary with hold | hlast
        · exact List.mem_append_left _ (h.entry summary hold)
        · rw [List.mem_singleton] at hlast
          simp [hlast]
      · intro summary hsummary e he hsame
        rcases List.mem_append.mp hsummary with hold | hlast
        · rcases List.mem_append.mp he with hold' | hlast'
          · exact h.newest summary hold e hold' hsame
          · rw [List.mem_singleton] at hlast'
            subst hlast'
            exact absurd hsame.symm (hnew summary hold)
        · rw [List.mem_singleton] at hlast
          subst hlast
          rcases List.mem_append.mp he with hold' | hlast'
          · exact absurd hsame (hfresh e hold')
          · rw [List.mem_singleton] at hlast'
            exact hlast' ▸ Nat.le_refl _
      · intro summary hsummary
        rcases List.mem_append.mp hsummary with hold | hlast
        · rw [h.denied summary hold]
          constructor
          · rintro ⟨e, he, hsame⟩
            exact ⟨e, List.mem_append_left _ he, hsame⟩
          · rintro ⟨e, he, hsame, hforget⟩
            rcases List.mem_append.mp he with hold' | hlast'
            · exact ⟨e, hold', hsame, hforget⟩
            · rw [List.mem_singleton] at hlast'
              subst hlast'
              exact absurd hsame.symm (hnew summary hold)
        · rw [List.mem_singleton] at hlast
          subst hlast
          rw [decide_eq_true_eq]
          constructor
          · exact fun hforget => ⟨entry, by simp, rfl, hforget⟩
          · rintro ⟨e, he, hsame, hforget⟩
            rcases List.mem_append.mp he with hold' | hlast'
            · exact absurd hsame (hfresh e hold')
            · rw [List.mem_singleton] at hlast'
              exact hlast' ▸ hforget
      · intro e he
        rcases List.mem_append.mp he with hold | hlast
        · obtain ⟨summary, hsummary, hkey⟩ := h.all e hold
          exact ⟨summary, List.mem_append_left _ hsummary, hkey⟩
        · rw [List.mem_singleton] at hlast
          exact ⟨_, List.mem_append_right _ (List.mem_singleton_self _), hlast ▸ rfl⟩
      · rw [List.map_append, List.nodup_append]
        refine ⟨h.keys, List.nodup_singleton _, ?_⟩
        intro a ha b hb
        obtain ⟨summary, hsummary, rfl⟩ := List.mem_map.mp ha
        rw [List.map_singleton, List.mem_singleton] at hb
        exact hb ▸ hnew summary hsummary

theorem summarize_entries :
    ((∀ a ∈ entries, ∀ b ∈ entries, a.memoryId = b.memoryId → a.version = b.version → a = b) →
        ∃ latest, entries.foldlM (summarize codec) [] = .ok latest) ∧
      ∀ latest, entries.foldlM (summarize codec) [] = .ok latest → Summarized entries latest := by
  have hinit : Summarized [] [] := by constructor <;> simp
  constructor
  · intro hsame
    obtain ⟨latest, hlatest, _⟩ := foldlM_succeeds (f := summarize codec) (l := entries) (s := [])
      Summarized (by
        intro done e rest current hentries hcurrent
        obtain ⟨hok, hspec⟩ := @summarize_step codec done e current hcurrent
        obtain ⟨next, hnext⟩ := hok (by
          intro old hold
          exact hsame old (by rw [hentries]; simp [hold]) e (by rw [hentries]; simp))
        exact ⟨next, hnext, hspec next hnext⟩) hinit
    exact ⟨latest, hlatest⟩
  · intro latest hlatest
    refine foldlM_split_invariant Summarized ?_ hinit hlatest
    intro done e rest current next _ hcurrent hnext
    exact (summarize_step hcurrent).2 next hnext

/-! ### The events -/

/-- The event of a record. -/
def eventOf (codec : LineCodec) (entry : Entry) : EventRow :=
  ⟨entry.id, entry.memoryId, entry.version, entryDigest codec entry⟩

/-- Two records are told apart by their identity and by their memory and version. -/
def Apart (a b : Entry) : Prop := a.id ≠ b.id ∧ ¬(a.memoryId = b.memoryId ∧ a.version = b.version)

theorem insertEvents_ok {events events' : List EventRow} :
    entries.foldlM (insertEvent codec) events = .ok events' ↔
      events' = events ++ entries.map (eventOf codec) ∧ entries.Pairwise Apart ∧
        ∀ entry ∈ entries, ∀ old ∈ events, old.eventId ≠ entry.id ∧
          ¬(old.originalId = entry.memoryId ∧ old.sourceVersion = entry.version) := by
  induction entries generalizing events with
  | nil =>
    rw [List.foldlM_nil, pure_eq_ok]
    simp [eq_comm (a := events)]
  | cons entry entries ih =>
    simp only [List.foldlM_cons, bind_eq_ok, ih, insertEvent, check_eq_ok, pure_eq_ok]
    constructor
    · rintro ⟨_, ⟨_, hfirst, rfl⟩, rfl, hapart, hrest⟩
      refine ⟨by simp [eventOf], List.pairwise_cons.mpr ⟨?_, hapart⟩, ?_⟩
      · intro other hother
        exact hrest other hother ⟨entry.id, entry.memoryId, entry.version, entryDigest codec entry⟩ (by simp)
      · intro other hother old hold
        rcases List.mem_cons.mp hother with rfl | hother
        · exact hfirst old hold
        · exact hrest other hother old (List.mem_append_left _ hold)
    · rintro ⟨rfl, hapart, hall⟩
      rw [List.pairwise_cons] at hapart
      refine ⟨_, ⟨(), hall entry List.mem_cons_self, rfl⟩, by simp [eventOf], hapart.2, ?_⟩
      intro other hother old hold
      rcases List.mem_append.mp hold with hold | hlast
      · exact hall other (List.mem_cons_of_mem _ hother) old hold
      · rw [List.mem_singleton] at hlast
        rw [hlast]
        exact hapart.1 other hother

/-! ### The latest rows -/

section Upsert

variable {latest rows : List StagedRow} {row r : StagedRow}

theorem mem_upsertStaged : r ∈ upsertStaged latest row ↔
    (r ∈ latest ∧ r.originalId ≠ row.originalId) ∨
      (r = row ∧ ∀ old ∈ latest, old.originalId ≠ row.originalId) ∨
      ∃ old ∈ latest, old.originalId = row.originalId ∧ r = mergeStaged old row := by
  unfold upsertStaged
  split
  · rename_i hany
    obtain ⟨found, hfound, hkey⟩ := List.any_eq_true.mp hany
    rw [beq_iff_eq] at hkey
    rw [List.mem_map]
    constructor
    · rintro ⟨old, hold, rfl⟩
      split
      · rename_i hsame
        exact Or.inr (Or.inr ⟨old, hold, hsame, rfl⟩)
      · rename_i hne
        exact Or.inl ⟨hold, hne⟩
    · rintro (⟨hold, hne⟩ | ⟨_, hnone⟩ | ⟨old, hold, hsame, rfl⟩)
      · exact ⟨r, hold, if_neg hne⟩
      · exact absurd hkey (hnone found hfound)
      · exact ⟨old, hold, if_pos hsame⟩
  · rename_i hany
    have hnone : ∀ old ∈ latest, old.originalId ≠ row.originalId := by
      intro old hold hsame
      exact hany (List.any_eq_true.mpr ⟨old, hold, by simp [hsame]⟩)
    rw [List.mem_append, List.mem_singleton]
    constructor
    · rintro (hold | rfl)
      · exact Or.inl ⟨hold, hnone r hold⟩
      · exact Or.inr (Or.inl ⟨rfl, hnone⟩)
    · rintro (⟨hold, _⟩ | ⟨rfl, _⟩ | ⟨old, hold, hsame, _⟩)
      · exact Or.inl hold
      · exact Or.inr rfl
      · exact absurd hsame (hnone old hold)

theorem keys_upsertStaged : (upsertStaged latest row).map StagedRow.originalId =
    if row.originalId ∈ latest.map StagedRow.originalId then latest.map StagedRow.originalId
    else latest.map StagedRow.originalId ++ [row.originalId] := by
  unfold upsertStaged
  have hany : (latest.any fun old => old.originalId == row.originalId) = true ↔
      row.originalId ∈ latest.map StagedRow.originalId := by
    simp [List.mem_map]
  by_cases hmem : row.originalId ∈ latest.map StagedRow.originalId
  · rw [if_pos (hany.mpr hmem), if_pos hmem, List.map_map]
    refine List.map_congr_left fun old _ => ?_
    dsimp only [Function.comp]
    split
    · rfl
    · rfl
  · rw [if_neg fun htrue => hmem (hany.mp htrue), if_neg hmem]
    simp

theorem keys_upserts (hrows : (rows.map StagedRow.originalId).Nodup) :
    (rows.foldl upsertStaged latest).map StagedRow.originalId = latest.map StagedRow.originalId ++
      (rows.map StagedRow.originalId).filter fun id => decide (id ∉ latest.map StagedRow.originalId) := by
  induction rows generalizing latest with
  | nil => simp
  | cons row rows ih =>
    rw [List.map_cons, List.nodup_cons] at hrows
    rw [List.foldl_cons, ih hrows.2, keys_upsertStaged, List.map_cons, List.filter_cons]
    by_cases hmem : row.originalId ∈ latest.map StagedRow.originalId
    · simp [hmem]
    · rw [if_neg hmem, if_pos (decide_eq_true hmem), List.append_assoc, List.singleton_append]
      congr 2
      refine List.filter_congr fun id hid => ?_
      have hne : id ≠ row.originalId := fun heq => hrows.1 (heq ▸ hid)
      simp [hne]

/-- **The rows after the summaries of a chunk** are merged into those that were there. -/
theorem mem_upserts (hrows : (rows.map StagedRow.originalId).Nodup) :
    r ∈ rows.foldl upsertStaged latest ↔
      (r ∈ latest ∧ ∀ row ∈ rows, row.originalId ≠ r.originalId) ∨
        ∃ row ∈ rows, (r = row ∧ ∀ old ∈ latest, old.originalId ≠ row.originalId) ∨
          ∃ old ∈ latest, old.originalId = row.originalId ∧ r = mergeStaged old row := by
  induction rows generalizing latest with
  | nil => simp
  | cons row rows ih =>
    rw [List.map_cons, List.nodup_cons] at hrows
    have hother : ∀ other ∈ rows, other.originalId ≠ row.originalId := by
      intro other hmem heq
      exact hrows.1 (List.mem_map.mpr ⟨other, hmem, heq⟩)
    -- the row of another identity is as it was
    have hkept : ∀ other ∈ rows, ∀ old, old.originalId = other.originalId →
        (old ∈ upsertStaged latest row ↔ old ∈ latest) := by
      intro other hmem old hkey
      have hne : old.originalId ≠ row.originalId := fun heq => hother other hmem (hkey.symm.trans heq)
      rw [mem_upsertStaged]
      constructor
      · rintro (⟨hold, _⟩ | ⟨rfl, _⟩ | ⟨found, _, hsame, rfl⟩)
        · exact hold
        · exact absurd rfl hne
        · exact absurd hsame hne
      · exact fun hold => Or.inl ⟨hold, hne⟩
    have hrest : ∀ other ∈ rows,
        ((r = other ∧ ∀ old ∈ upsertStaged latest row, old.originalId ≠ other.originalId) ∨
          ∃ old ∈ upsertStaged latest row, old.originalId = other.originalId ∧ r = mergeStaged old other) ↔
        (r = other ∧ ∀ old ∈ latest, old.originalId ≠ other.originalId) ∨
          ∃ old ∈ latest, old.originalId = other.originalId ∧ r = mergeStaged old other := by
      intro other hmem
      refine or_congr (and_congr_right fun _ => ?_) ?_
      · constructor
        · exact fun hnone old hold hkey => hnone old ((hkept other hmem old hkey).mpr hold) hkey
        · exact fun hnone old hold hkey => hnone old ((hkept other hmem old hkey).mp hold) hkey
      · refine exists_congr fun old => ?_
        constructor
        · rintro ⟨hold, hkey, heq⟩
          exact ⟨(hkept other hmem old hkey).mp hold, hkey, heq⟩
        · rintro ⟨hold, hkey, heq⟩
          exact ⟨(hkept other hmem old hkey).mpr hold, hkey, heq⟩
    have hexists : (∃ other ∈ rows,
        (r = other ∧ ∀ old ∈ upsertStaged latest row, old.originalId ≠ other.originalId) ∨
          ∃ old ∈ upsertStaged latest row, old.originalId = other.originalId ∧ r = mergeStaged old other) ↔
        ∃ other ∈ rows, (r = other ∧ ∀ old ∈ latest, old.originalId ≠ other.originalId) ∨
          ∃ old ∈ latest, old.originalId = other.originalId ∧ r = mergeStaged old other :=
      exists_congr fun other => and_congr_right fun hmem => hrest other hmem
    rw [List.foldl_cons, ih hrows.2, hexists, List.exists_mem_cons_iff, List.forall_mem_cons, mem_upsertStaged]
    constructor
    · rintro (⟨⟨hold, hne⟩ | hnew, hnone⟩ | hlater)
      · exact Or.inl ⟨hold, fun heq => hne heq.symm, hnone⟩
      · exact Or.inr (Or.inl hnew)
      · exact Or.inr (Or.inr hlater)
    · rintro (⟨hold, hne, hnone⟩ | hnew | hlater)
      · exact Or.inl ⟨Or.inl ⟨hold, fun heq => hne heq.symm⟩, hnone⟩
      · refine Or.inl ⟨Or.inr hnew, ?_⟩
        intro other hmem heq
        apply hother other hmem
        rw [heq]
        rcases hnew with ⟨rfl, _⟩ | ⟨old, _, hsame, rfl⟩
        · rfl
        · exact hsame
      · exact Or.inr hlater

end Upsert

/-! ### The staging tables -/

variable {withdrawn : List UUID} {staged : List Entry} {staging staging' : Staging}

/-- Two records claim one identity of the upload. -/
def Claims (a b : Entry) : Prop := a.id = b.id ∨ (a.memoryId = b.memoryId ∧ a.version = b.version)

/-- **What the staging tables hold** of the records read so far. -/
structure Stages (codec : LineCodec) (withdrawn : List UUID) (staged : List Entry) (staging : Staging) :
    Prop where
  physical : staging.physicalRecords = staged.length
  records : staging.records = staging.events.length
  duplicates : staging.duplicates = staging.physicalRecords - staging.records
  identities : staging.identities = staging.latest.length
  eventRow : ∀ row ∈ staging.events, ∃ e ∈ staged, row = eventOf codec e
  eventAll : ∀ e ∈ staged, eventOf codec e ∈ staging.events
  eventKeys : (staging.events.map EventRow.eventId).Nodup
  consistent : ∀ a ∈ staged, ∀ b ∈ staged, Claims a b → a = b
  /-- A row holds the newest record of its memory, or a withdrawn identity. -/
  row : ∀ row ∈ staging.latest,
    (row.originalId ∈ withdrawn ∧ row.sourceVersion = 0 ∧ row.action = none ∧ row.line = none ∧
        ∀ e ∈ staged, e.memoryId ≠ row.originalId) ∨
      ∃ e ∈ staged, e.memoryId = row.originalId ∧ row.sourceVersion = e.version ∧
        row.action = some e.action ∧ row.line = some (codec.dump e ++ [newline]) ∧
        ∀ other ∈ staged, other.memoryId = row.originalId → other.version ≤ e.version
  denied : ∀ row ∈ staging.latest, (row.denied = true ↔ row.originalId ∈ withdrawn ∨
    ∃ e ∈ staged, e.memoryId = row.originalId ∧ e.action = .forget)
  priority : ∀ row ∈ staging.latest, row.priority = priorityOf row.denied row.action
  memories : ∀ e ∈ staged, ∃ row ∈ staging.latest, row.originalId = e.memoryId
  withdrawals : ∀ id ∈ withdrawn, ∃ row ∈ staging.latest, row.originalId = id
  keys : (staging.latest.map StagedRow.originalId).Nodup

theorem Stages.perm {staged' : List Entry} (h : Stages codec withdrawn staged staging)
    (hperm : staged.Perm staged') : Stages codec withdrawn staged' staging := by
  have hmem : ∀ e, e ∈ staged ↔ e ∈ staged' := fun e => hperm.mem_iff
  have hiff : ∀ {P : Entry → Prop}, (∃ e ∈ staged, P e) ↔ ∃ e ∈ staged', P e := by
    intro P
    exact exists_congr fun e => and_congr_left fun _ => hmem e
  constructor
  · rw [h.physical, hperm.length_eq]
  · exact h.records
  · exact h.duplicates
  · exact h.identities
  · intro row hrow
    exact hiff.mp (h.eventRow row hrow)
  · exact fun e he => h.eventAll e ((hmem e).mpr he)
  · exact h.eventKeys
  · exact fun a ha b hb => h.consistent a ((hmem a).mpr ha) b ((hmem b).mpr hb)
  · intro row hrow
    rcases h.row row hrow with ⟨hid, hversion, haction, hline, hnone⟩ | ⟨e, he, hid, hversion, haction, hline, hmax⟩
    · exact Or.inl ⟨hid, hversion, haction, hline, fun e he => hnone e ((hmem e).mpr he)⟩
    · exact Or.inr ⟨e, (hmem e).mp he, hid, hversion, haction, hline,
        fun other hother => hmax other ((hmem other).mpr hother)⟩
  · intro row hrow
    rw [h.denied row hrow, hiff]
  · exact h.priority
  · exact fun e he => h.memories e ((hmem e).mpr he)
  · exact h.withdrawals
  · exact h.keys

/-- The records of a chunk that were not staged before. -/
structure Fresh (staged entries unique : List Entry) : Prop where
  mem : ∀ e, e ∈ unique ↔ e ∈ entries ∧ e ∉ staged
  ids : (unique.map Entry.id).Nodup

theorem Fresh.append {e : Entry} (h : Fresh staged entries unique) :
    e ∈ staged ++ entries ↔ e ∈ staged ∨ e ∈ unique := by
  rw [List.mem_append, h.mem]
  constructor
  · rintro (hold | hnew)
    · exact Or.inl hold
    · by_cases hmem : e ∈ staged
      · exact Or.inl hmem
      · exact Or.inr ⟨hnew, hmem⟩
  · rintro (hold | ⟨hnew, _⟩)
    · exact Or.inl hold
    · exact Or.inr hnew

/-- The distinct records that no event has, and what the check of the events says. -/
theorem fresh_unique (hT : Digestible codec T) (hstaged : ∀ e ∈ staged, e ∈ T) (hentries : ∀ e ∈ entries, e ∈ T)
    (h : Stages codec withdrawn staged staging) (hunique : Collected entries unique) :
    ((∀ previous ∈ staging.events, ∀ entry ∈ unique, entry.id = previous.eventId →
        entryDigest codec entry = previous.digest) ↔
      ∀ a ∈ staged, ∀ b ∈ entries, a.id = b.id → a = b) ∧
    ((∀ a ∈ staged, ∀ b ∈ entries, a.id = b.id → a = b) → Fresh staged entries
      (unique.filter fun entry => staging.events.all fun previous => previous.eventId != entry.id)) := by
  constructor
  · constructor
    · intro hcheck a ha b hb hid
      have hdigest := hcheck _ (h.eventAll a ha) b ((hunique.mem b).mpr hb) hid.symm
      exact ((Digestible.same hT (hentries b hb) (hstaged a ha)).mp hdigest).symm
    · intro hsame previous hprevious entry hentry hid
      obtain ⟨a, ha, rfl⟩ := h.eventRow previous hprevious
      rw [← hsame a ha entry ((hunique.mem entry).mp hentry) hid.symm]
      rfl
  · intro hsame
    constructor
    · intro e
      rw [List.mem_filter, hunique.mem, List.all_eq_true]
      refine and_congr_right fun he => ?_
      constructor
      · intro hnone hstage
        simpa [eventOf] using hnone _ (h.eventAll e hstage)
      · intro hnew previous hprevious
        obtain ⟨a, ha, rfl⟩ := h.eventRow previous hprevious
        rw [bne_iff_ne]
        intro hid
        exact hnew (hsame a ha e he hid ▸ ha)
    · exact hunique.ids.sublist (List.filter_sublist.map Entry.id)

theorem apart_iff_not_claims {a b : Entry} : Apart a b ↔ ¬Claims a b := by
  unfold Apart Claims
  tauto

theorem Claims.symm {a b : Entry} (h : Claims a b) : Claims b a :=
  Or.imp Eq.symm (fun hsame => ⟨hsame.1.symm, hsame.2.symm⟩) h

instance : Std.Symm Apart :=
  ⟨fun _ _ h => apart_iff_not_claims.mpr fun hclaims => apart_iff_not_claims.mp h hclaims.symm⟩

/-- Fresh records have identities of their own exactly if all records agree. -/
theorem apart_iff (hfresh : Fresh staged entries unique)
    (hstaged : ∀ a ∈ staged, ∀ b ∈ staged, Claims a b → a = b) :
    (unique.Pairwise Apart ∧ ∀ new ∈ unique, ∀ old ∈ staged, Apart old new) ↔
      ∀ a ∈ staged ++ entries, ∀ b ∈ staged ++ entries, Claims a b → a = b := by
  constructor
  · rintro ⟨hpairwise, hold⟩ a ha b hb hclaims
    rw [hfresh.append] at ha hb
    rcases ha with ha | ha
    · rcases hb with hb | hb
      · exact hstaged a ha b hb hclaims
      · exact absurd hclaims (apart_iff_not_claims.mp (hold b hb a ha))
    · rcases hb with hb | hb
      · exact absurd hclaims.symm (apart_iff_not_claims.mp (hold a ha b hb))
      · by_contra hne
        exact apart_iff_not_claims.mp (hpairwise.forall ha hb hne) hclaims
  · intro hall
    constructor
    · refine hfresh.ids.of_map.pairwise_of_forall_ne ?_
      intro a ha b hb hne
      rw [apart_iff_not_claims]
      intro hclaims
      exact hne (hall a (hfresh.append.mpr (Or.inr ha)) b (hfresh.append.mpr (Or.inr hb)) hclaims)
    · intro new hnew old hold
      rw [apart_iff_not_claims]
      intro hclaims
      have heq := hall old (hfresh.append.mpr (Or.inl hold)) new (hfresh.append.mpr (Or.inr hnew)) hclaims
      exact ((hfresh.mem new).mp hnew).2 (heq ▸ hold)

/-- The tables after the fresh records of a chunk and their summaries. -/
def Staging.after (codec : LineCodec) (staging : Staging) (entries unique : List Entry)
    (latest : List Summary) : Staging :=
  { staging with
    events := staging.events ++ unique.map (eventOf codec)
    latest := (latest.map (Summary.row codec)).foldl upsertStaged staging.latest
    physicalRecords := staging.physicalRecords + entries.length
    records := staging.records + unique.length
    duplicates := staging.physicalRecords + entries.length - (staging.records + unique.length)
    identities := staging.identities + latest.length - staging.latest.countP fun row =>
      latest.any fun summary => summary.entry.memoryId == row.originalId }

theorem summary_keys {latest : List Summary} (h : Summarized unique latest) :
    ((latest.map (Summary.row codec)).map StagedRow.originalId).Nodup := by
  rw [List.map_map]
  exact h.keys

/-- A row of the tables after a chunk. -/
theorem after_row {latest : List Summary} (h : Stages codec withdrawn staged staging)
    (hfresh : Fresh staged entries unique) (hsummary : Summarized unique latest) {row : StagedRow}
    (hrow : row ∈ (latest.map (Summary.row codec)).foldl upsertStaged staging.latest) :
    (row.originalId ∈ withdrawn ∧ row.sourceVersion = 0 ∧ row.action = none ∧ row.line = none ∧
        ∀ e ∈ staged ++ entries, e.memoryId ≠ row.originalId) ∨
      ∃ e ∈ staged ++ entries, e.memoryId = row.originalId ∧ row.sourceVersion = e.version ∧
        row.action = some e.action ∧ row.line = some (codec.dump e ++ [newline]) ∧
        ∀ other ∈ staged ++ entries, other.memoryId = row.originalId → other.version ≤ e.version := by
  have hold : ∀ {e}, e ∈ staged → e ∈ staged ++ entries := fun he => List.mem_append_left _ he
  have hnew : ∀ {e}, e ∈ unique → e ∈ staged ++ entries := fun he => hfresh.append.mpr (Or.inr he)
  rcases (mem_upserts (summary_keys hsummary)).mp hrow with ⟨hkept, hnone⟩ | ⟨added, hadded, hcase⟩
  · -- no record of the chunk is of this memory
    have hother : ∀ e ∈ unique, e.memoryId ≠ row.originalId := by
      intro e he hkey
      obtain ⟨summary, hsummary', hsame⟩ := hsummary.all e he
      exact hnone _ (List.mem_map_of_mem hsummary') (hsame.trans hkey)
    rcases h.row row hkept with ⟨hid, hversion, haction, hline, hall⟩ |
      ⟨e, he, hid, hversion, haction, hline, hmax⟩
    · left
      refine ⟨hid, hversion, haction, hline, ?_⟩
      intro e he
      rcases hfresh.append.mp he with he | he
      · exact hall e he
      · exact hother e he
    · right
      refine ⟨e, hold he, hid, hversion, haction, hline, ?_⟩
      intro other hmem hkey
      rcases hfresh.append.mp hmem with hmem | hmem
      · exact hmax other hmem hkey
      · exact absurd hkey (hother other hmem)
  · obtain ⟨summary, hsummary', rfl⟩ := List.mem_map.mp hadded
    have hentry := hsummary.entry summary hsummary'
    have hnewest := hsummary.newest summary hsummary'
    right
    rcases hcase with ⟨rfl, hnone⟩ | ⟨old, holdrow, hkey, rfl⟩
    · -- a new memory
      refine ⟨summary.entry, hnew hentry, rfl, rfl, rfl, rfl, ?_⟩
      intro other hmem hsame
      rcases hfresh.append.mp hmem with hmem | hmem
      · obtain ⟨found, hfound, hfoundkey⟩ := h.memories other hmem
        exact absurd (hfoundkey.trans hsame) (hnone found hfound)
      · exact hnewest other hmem hsame
    · have hkey' : summary.entry.memoryId = old.originalId := hkey.symm
      by_cases hlt : old.sourceVersion < summary.entry.version
      · refine ⟨summary.entry, hnew hentry, hkey', ?_, if_pos hlt, if_pos hlt, ?_⟩
        · exact max_eq_right hlt.le
        · intro other hmem hsame
          rcases hfresh.append.mp hmem with hmem | hmem
          · rcases h.row old holdrow with ⟨_, _, _, _, hall⟩ | ⟨e, he, hid, hversion, _, _, hmax⟩
            · exact absurd hsame (hall other hmem)
            · have hle := hmax other hmem hsame
              omega
          · exact hnewest other hmem (hsame.trans hkey)
      · rcases h.row old holdrow with ⟨_, hversion, _⟩ | ⟨e, he, hid, hversion, haction, hline, hmax⟩
        · have hpos := summary.entry.version_range.1
          omega
        · refine ⟨e, hold he, hid, ?_, (if_neg hlt).trans haction, (if_neg hlt).trans hline, ?_⟩
          · exact (max_eq_left (not_lt.mp hlt)).trans hversion
          · intro other hmem hsame
            rcases hfresh.append.mp hmem with hmem | hmem
            · exact hmax other hmem hsame
            · have hle := hnewest other hmem (hsame.trans hkey)
              omega

theorem after_denied {latest : List Summary} (h : Stages codec withdrawn staged staging)
    (hfresh : Fresh staged entries unique) (hsummary : Summarized unique latest) {row : StagedRow}
    (hrow : row ∈ (latest.map (Summary.row codec)).foldl upsertStaged staging.latest) :
    (row.denied = true ↔ row.originalId ∈ withdrawn ∨
        ∃ e ∈ staged ++ entries, e.memoryId = row.originalId ∧ e.action = .forget) ∧
      row.priority = priorityOf row.denied row.action := by
  have hexists : (∃ e ∈ staged ++ entries, e.memoryId = row.originalId ∧ e.action = .forget) ↔
      (∃ e ∈ staged, e.memoryId = row.originalId ∧ e.action = .forget) ∨
        ∃ e ∈ unique, e.memoryId = row.originalId ∧ e.action = .forget := by
    simp only [hfresh.append, or_and_right, exists_or]
  rw [hexists, ← or_assoc]
  rcases (mem_upserts (summary_keys hsummary)).mp hrow with ⟨hkept, hnone⟩ | ⟨added, hadded, hcase⟩
  · have hother : ¬∃ e ∈ unique, e.memoryId = row.originalId ∧ e.action = .forget := by
      rintro ⟨e, he, hkey, _⟩
      obtain ⟨summary, hsummary', hsame⟩ := hsummary.all e he
      exact hnone _ (List.mem_map_of_mem hsummary') (hsame.trans hkey)
    rw [or_iff_left hother]
    exact ⟨h.denied row hkept, h.priority row hkept⟩
  · obtain ⟨summary, hsummary', rfl⟩ := List.mem_map.mp hadded
    have hdenied := hsummary.denied summary hsummary'
    rcases hcase with ⟨rfl, hnone⟩ | ⟨old, holdrow, hkey, rfl⟩
    · have hold : ¬(summary.entry.memoryId ∈ withdrawn ∨
          ∃ e ∈ staged, e.memoryId = summary.entry.memoryId ∧ e.action = .forget) := by
        rintro (hid | ⟨e, he, hsame, _⟩)
        · obtain ⟨found, hfound, hfoundkey⟩ := h.withdrawals _ hid
          exact hnone found hfound hfoundkey
        · obtain ⟨found, hfound, hfoundkey⟩ := h.memories e he
          exact hnone found hfound (hfoundkey.trans hsame)
      exact ⟨hdenied.trans (or_iff_right hold).symm, rfl⟩
    · refine ⟨?_, rfl⟩
      show (old.denied || summary.denied) = true ↔ _
      rw [Bool.or_eq_true, h.denied old holdrow, hdenied]
      exact or_congr Iff.rfl (by rw [show summary.entry.memoryId = old.originalId from hkey.symm]; rfl)

/-- The memories of the upload after a chunk are counted. -/
theorem after_identities {latest : List Summary} (h : Stages codec withdrawn staged staging)
    (hsummary : Summarized unique latest) :
    (staging.after codec entries unique latest).identities =
      (staging.after codec entries unique latest).latest.length := by
  have hlength := congrArg List.length (@keys_upserts staging.latest (latest.map (Summary.row codec))
    (summary_keys hsummary))
  rw [List.length_map, List.length_append, List.length_map, List.map_map] at hlength
  -- the summaries of known memories are the known memories with a summary
  have hperm : ((latest.map (StagedRow.originalId ∘ Summary.row codec)).filter fun id =>
      decide (id ∈ staging.latest.map StagedRow.originalId)).Perm
      ((staging.latest.map StagedRow.originalId).filter fun id =>
        latest.any fun summary => summary.entry.memoryId == id) := by
    have hnodup : (latest.map (StagedRow.originalId ∘ Summary.row codec)).Nodup := hsummary.keys
    refine (List.perm_ext_iff_of_nodup (hnodup.sublist List.filter_sublist)
      (h.keys.sublist List.filter_sublist)).mpr ?_
    intro id
    simp only [List.mem_filter, decide_eq_true_eq, List.any_eq_true, beq_iff_eq, List.mem_map]
    constructor
    · rintro ⟨⟨summary, hsummary', rfl⟩, hold⟩
      exact ⟨hold, summary, hsummary', rfl⟩
    · rintro ⟨hold, summary, hsummary', rfl⟩
      exact ⟨⟨summary, hsummary', rfl⟩, hold⟩
  have hcount : (staging.latest.countP fun row => latest.any fun summary =>
      summary.entry.memoryId == row.originalId) =
      ((latest.map (StagedRow.originalId ∘ Summary.row codec)).filter fun id =>
        decide (id ∈ staging.latest.map StagedRow.originalId)).length := by
    rw [hperm.length_eq, ← List.countP_eq_length_filter, List.countP_map]
    rfl
  have hsplit : ((latest.map (StagedRow.originalId ∘ Summary.row codec)).filter fun id =>
        decide (id ∈ staging.latest.map StagedRow.originalId)).length +
      ((latest.map (StagedRow.originalId ∘ Summary.row codec)).filter fun id =>
        decide (id ∉ staging.latest.map StagedRow.originalId)).length = latest.length := by
    have hboth := List.length_eq_length_filter_add (l := latest.map (StagedRow.originalId ∘ Summary.row codec))
      fun id => decide (id ∈ staging.latest.map StagedRow.originalId)
    rw [List.length_map] at hboth
    rw [hboth]
    congr 2
    exact List.filter_congr fun id _ => decide_not
  show staging.identities + latest.length - _ = ((latest.map (Summary.row codec)).foldl upsertStaged
    staging.latest).length
  rw [hlength, h.identities, hcount]
  omega

/-- **The tables after a chunk** hold its records as well. -/
theorem after_stages {latest : List Summary} (h : Stages codec withdrawn staged staging)
    (hfresh : Fresh staged entries unique) (hsummary : Summarized unique latest)
    (hconsistent : ∀ a ∈ staged ++ entries, ∀ b ∈ staged ++ entries, Claims a b → a = b) :
    Stages codec withdrawn (staged ++ entries) (staging.after codec entries unique latest) := by
  have hkeys := @keys_upserts staging.latest (latest.map (Summary.row codec)) (summary_keys hsummary)
  constructor
  · show staging.physicalRecords + entries.length = _
    rw [h.physical, List.length_append]
  · show staging.records + unique.length = (staging.events ++ unique.map (eventOf codec)).length
    rw [h.records, List.length_append, List.length_map]
  · rfl
  · exact after_identities h hsummary
  · intro row hrow
    rcases List.mem_append.mp hrow with hold | hnew
    · obtain ⟨e, he, heq⟩ := h.eventRow row hold
      exact ⟨e, List.mem_append_left _ he, heq⟩
    · obtain ⟨e, he, heq⟩ := List.mem_map.mp hnew
      exact ⟨e, hfresh.append.mpr (Or.inr he), heq.symm⟩
  · intro e he
    rcases hfresh.append.mp he with hold | hnew
    · exact List.mem_append_left _ (h.eventAll e hold)
    · exact List.mem_append_right _ (List.mem_map_of_mem hnew)
  · show ((staging.events ++ unique.map (eventOf codec)).map EventRow.eventId).Nodup
    rw [List.map_append, List.nodup_append, List.map_map]
    refine ⟨h.eventKeys, hfresh.ids, ?_⟩
    intro a ha b hb heq
    obtain ⟨row, hrow, rfl⟩ := List.mem_map.mp ha
    obtain ⟨e, he, rfl⟩ := List.mem_map.mp hb
    obtain ⟨old, hold, rfl⟩ := h.eventRow row hrow
    have hsame := hconsistent old (List.mem_append_left _ hold) e (hfresh.append.mpr (Or.inr he)) (Or.inl heq)
    exact ((hfresh.mem e).mp he).2 (hsame ▸ hold)
  · exact hconsistent
  · exact fun row hrow => after_row h hfresh hsummary hrow
  · exact fun row hrow => (after_denied h hfresh hsummary hrow).1
  · exact fun row hrow => (after_denied h hfresh hsummary hrow).2
  · intro e he
    rw [← List.mem_map]
    show e.memoryId ∈ ((latest.map (Summary.row codec)).foldl upsertStaged staging.latest).map _
    rw [hkeys, List.mem_append, List.mem_filter]
    by_cases hknown : e.memoryId ∈ staging.latest.map StagedRow.originalId
    · exact Or.inl hknown
    · right
      rcases hfresh.append.mp he with hold | hnew
      · exact absurd (List.mem_map.mpr (h.memories e hold)) hknown
      · obtain ⟨summary, hsummary', hsame⟩ := hsummary.all e hnew
        refine ⟨?_, decide_eq_true hknown⟩
        rw [List.map_map]
        exact List.mem_map.mpr ⟨summary, hsummary', hsame⟩
  · intro id hid
    rw [← List.mem_map]
    show id ∈ ((latest.map (Summary.row codec)).foldl upsertStaged staging.latest).map _
    rw [hkeys, List.mem_append]
    exact Or.inl (List.mem_map.mpr (h.withdrawals id hid))
  · show (((latest.map (Summary.row codec)).foldl upsertStaged staging.latest).map _).Nodup
    rw [hkeys, List.nodup_append]
    refine ⟨h.keys, (summary_keys hsummary).sublist List.filter_sublist, ?_⟩
    rintro a ha b hb rfl
    rw [List.mem_filter, decide_eq_true_eq] at hb
    exact hb.2 ha

/-- The records are the distinct ones. -/
theorem Stages.distinct (h : Stages codec withdrawn staged staging) :
    staging.records = staged.dedup.length := by
  have hids : (staged.dedup.map Entry.id).Nodup := by
    refine List.Nodup.map_on ?_ (List.nodup_dedup staged)
    intro a ha b hb hid
    exact h.consistent a (List.mem_dedup.mp ha) b (List.mem_dedup.mp hb) (Or.inl hid)
  have hperm : (staging.events.map EventRow.eventId).Perm (staged.dedup.map Entry.id) := by
    refine (List.perm_ext_iff_of_nodup h.eventKeys hids).mpr ?_
    intro id
    rw [List.mem_map, List.mem_map]
    constructor
    · rintro ⟨row, hrow, rfl⟩
      obtain ⟨e, he, rfl⟩ := h.eventRow row hrow
      exact ⟨e, List.mem_dedup.mpr he, rfl⟩
    · rintro ⟨e, he, rfl⟩
      exact ⟨_, h.eventAll e (List.mem_dedup.mp he), rfl⟩
  have hlength := hperm.length_eq
  rw [List.length_map, List.length_map] at hlength
  rw [h.records, hlength]

/-- The identities are the memories of the records and the withdrawn ones. -/
theorem Stages.memories_distinct (h : Stages codec withdrawn staged staging) :
    staging.identities = (withdrawn ++ staged.map Entry.memoryId).dedup.length := by
  have hperm : (staging.latest.map StagedRow.originalId).Perm
      (withdrawn ++ staged.map Entry.memoryId).dedup := by
    refine (List.perm_ext_iff_of_nodup h.keys (List.nodup_dedup _)).mpr ?_
    intro id
    rw [List.mem_dedup, List.mem_append, List.mem_map, List.mem_map]
    constructor
    · rintro ⟨row, hrow, rfl⟩
      rcases h.row row hrow with ⟨hid, _⟩ | ⟨e, he, hid, _⟩
      · exact Or.inl hid
      · exact Or.inr ⟨e, he, hid⟩
    · rintro (hid | ⟨e, he, rfl⟩)
      · exact h.withdrawals id hid
      · exact h.memories e he
  have hlength := hperm.length_eq
  rw [List.length_map] at hlength
  rw [h.identities, hlength]

theorem Fresh.length_le (h : Fresh staged entries unique) :
    unique.length + staged.dedup.length = (staged ++ entries).dedup.length := by
  have hperm : (unique ++ staged.dedup).Perm (staged ++ entries).dedup := by
    refine (List.perm_ext_iff_of_nodup ?_ (List.nodup_dedup _)).mpr ?_
    · rw [List.nodup_append]
      refine ⟨h.ids.of_map, List.nodup_dedup _, ?_⟩
      rintro a ha b hb rfl
      exact ((h.mem a).mp ha).2 (List.mem_dedup.mp hb)
    · intro e
      rw [List.mem_dedup, h.append, List.mem_append, List.mem_dedup, or_comm]
  rw [← hperm.length_eq, List.length_append]

/-- Events of fresh records are told apart from the staged ones as the records are. -/
theorem events_apart (h : Stages codec withdrawn staged staging) :
    (∀ new ∈ unique, ∀ old ∈ staging.events, old.eventId ≠ new.id ∧
        ¬(old.originalId = new.memoryId ∧ old.sourceVersion = new.version)) ↔
      ∀ new ∈ unique, ∀ old ∈ staged, Apart old new := by
  refine forall_congr' fun new => imp_congr_right fun _ => ?_
  constructor
  · intro hevents old hold
    exact hevents _ (h.eventAll old hold)
  · intro hstaged row hrow
    obtain ⟨old, hold, rfl⟩ := h.eventRow row hrow
    exact hstaged old hold

section Stage

variable (hT : Digestible codec T) (hstaged : ∀ e ∈ staged, e ∈ T) (hentries : ∀ e ∈ entries, e ∈ T)
  (h : Stages codec withdrawn staged staging)

include hT hstaged hentries h

/-- **A staged chunk**: the tables hold its records as well. -/
theorem stage_ok (hstage : staging.stage codec entries = .ok staging') :
    Stages codec withdrawn (staged ++ entries) staging' ∧
      ∃ unique latest, staging' = staging.after codec entries unique latest := by
  unfold Staging.stage at hstage
  simp only [bind_eq_ok, check_eq_ok, pure_eq_ok] at hstage
  obtain ⟨_, _, collected, hcollect, _, hevents, _, _, latest, hlatest, _, _, events, hinsert, rfl⟩ := hstage
  have hcollected := (collect_entries hT hentries).2 collected hcollect
  obtain ⟨hcheck, hfresh⟩ := fresh_unique hT hstaged hentries h hcollected
  have hfresh := hfresh (hcheck.mp hevents)
  have hsummary := summarize_entries.2 latest hlatest
  obtain ⟨rfl, hpairwise, hapart⟩ := insertEvents_ok.mp hinsert
  have hconsistent := (apart_iff hfresh h.consistent).mp ⟨hpairwise, (events_apart h).mp hapart⟩
  exact ⟨after_stages h hfresh hsummary hconsistent, _, latest, rfl⟩

/-- **A chunk is staged** when its records agree with the others and the limits leave
    room. -/
theorem stage_succeeds
    (hconsistent : ∀ a ∈ staged ++ entries, ∀ b ∈ staged ++ entries, Claims a b → a = b)
    (hphysical : (staged ++ entries).length ≤ UPLOAD_RECORDS)
    (hrecords : (staged ++ entries).dedup.length ≤ staging.expectedRecords)
    (hidentities : (withdrawn ++ (staged ++ entries).map Entry.memoryId).dedup.length ≤ UPLOAD_IDENTITIES) :
    ∃ staging', staging.stage codec entries = .ok staging' := by
  obtain ⟨collected, hcollect⟩ := (collect_entries hT hentries).1 (by
    intro a ha b hb hid
    exact hconsistent a (List.mem_append_right _ ha) b (List.mem_append_right _ hb) (Or.inl hid))
  have hcollected := (collect_entries hT hentries).2 collected hcollect
  obtain ⟨hcheck, hfresh⟩ := fresh_unique hT hstaged hentries h hcollected
  have hold : ∀ a ∈ staged, ∀ b ∈ entries, a.id = b.id → a = b := by
    intro a ha b hb hid
    exact hconsistent a (List.mem_append_left _ ha) b (List.mem_append_right _ hb) (Or.inl hid)
  have hfresh := hfresh hold
  obtain ⟨hpairwise, hapart⟩ := (apart_iff hfresh h.consistent).mpr hconsistent
  obtain ⟨latest, hlatest⟩ := (@summarize_entries codec
    (collected.filter fun entry => staging.events.all fun previous => previous.eventId != entry.id)).1 (by
      intro a ha b hb hmemory hversion
      exact hconsistent a (hfresh.append.mpr (Or.inr ha)) b (hfresh.append.mpr (Or.inr hb))
        (Or.inr ⟨hmemory, hversion⟩))
  have hsummary := summarize_entries.2 latest hlatest
  have hafter := after_stages h hfresh hsummary hconsistent
  have hcount := hafter.memories_distinct
  unfold Staging.stage
  simp only [bind_eq_ok, check_eq_ok, pure_eq_ok]
  refine ⟨_, (), ?_, collected, hcollect, (), hcheck.mpr hold, (), ?_, latest, hlatest, (), ?_, _,
    insertEvents_ok.mpr ⟨rfl, hpairwise, (events_apart h).mpr hapart⟩, rfl⟩
  · rw [h.physical, ← List.length_append]
    exact hphysical
  · have hlength := hfresh.length_le
    rw [h.distinct]
    omega
  · exact hcount.le.trans hidentities

end Stage

end Mnemion.JournalStaging
