/-
  Mnemion/JournalSpool.lean
  =========================
  **Private receipts of unpublished journal entries** (`journal/spool.py`) and the end of
  a push (`service/writeback.py`), which removes those of the entries it has published.

  A memory that is forgotten in the meantime has lost its receipts already.  `acknowledge`
  goes through the entries in order and stops at the first receipt that is gone; `push`
  takes that for success.
-/
import Mnemion.JournalFormat

namespace Mnemion.Journal

open Outcome ByteLines

/-! ### The spool -/

inductive SpoolError where
  | fileNotFound
  | unreadable
  | denialRequired
  | journal (error : JournalError)
deriving DecidableEq, Repr

/-- The directory `pending`: one directory for each memory, with a file `<entry id>.json`
    for each receipt. -/
structure Spool where
  nameSpace : UUID × UUID
  pending : UUID → Option (List (UUID × Bytes))

def Spool.read (spool : Spool) (memory id : UUID) : Option Bytes :=
  (spool.pending memory).bind fun directory =>
    (directory.find? fun file => decide (file.1 = id)).map (·.2)

/-- The receipt of an entry. -/
def Spool.receipt (spool : Spool) (entry : Entry) : Option Bytes := spool.read entry.memoryId entry.id

def Spool.put (spool : Spool) (memory : UUID) (directory : Option (List (UUID × Bytes))) : Spool where
  nameSpace := spool.nameSpace
  pending := fun other => if other = memory then directory else spool.pending other

/-- `path.unlink()`, and `path.parent.rmdir()` for a directory that is empty then. -/
def Spool.unlink (spool : Spool) (memory id : UUID) : Spool :=
  let files := ((spool.pending memory).getD []).filter fun file => decide (file.1 ≠ id)
  spool.put memory (if files = [] then none else some files)

section Operations

variable (codec : LineCodec)

/-- `_record`, of an entry and its line; the state is kept when it raises. -/
def Spool.recordValue (spool : Spool) (entry : Entry) (value : Bytes) : Spool × Option SpoolError :=
  let directory := (spool.pending entry.memoryId).getD []
  match spool.receipt entry with
  | some found =>
    (spool.put entry.memoryId (some directory),
      if MAX_LINE_BYTES < found.length then some .unreadable
      else if found ≠ value then some (.journal .journalEntryConflict) else none)
  | none => (spool.put entry.memoryId (some (directory ++ [(entry.id, value)])), none)

/-- `record` -/
def Spool.record (spool : Spool) (entry : Entry) : Spool × Option SpoolError :=
  if entry.nameSpace ≠ spool.nameSpace then (spool, some (.journal .journalScopeMismatch))
  else
    match entry.line codec with
    | .error error => (spool, some (.journal error))
    | .ok value => spool.recordValue entry value

/-- `forget_pending_content` -/
def Spool.forgetPendingContent (spool : Spool) (entry : Entry) : Spool × Option SpoolError :=
  if entry.action ≠ .forget then (spool, some .denialRequired)
  else if entry.nameSpace ≠ spool.nameSpace then (spool, some (.journal .journalScopeMismatch))
  else
    match entry.line codec with
    | .error error => (spool, some (.journal error))
    | .ok value =>
      match spool.recordValue entry value with
      | (spool, some error) => (spool, some error)
      | (spool, none) =>
        (spool.put entry.memoryId ((spool.pending entry.memoryId).map fun directory =>
          directory.filter fun file => decide (file.1 = entry.id)), none)

/-- `acknowledge` -/
def Spool.acknowledge (spool : Spool) : List Entry → Spool × Option SpoolError
  | [] => (spool, none)
  | entry :: entries =>
    match spool.receipt entry with
    | none => (spool, some .fileNotFound)
    | some found =>
      if MAX_LINE_BYTES < found.length then (spool, some .unreadable)
      else
        match entry.line codec with
        | .error error => (spool, some (.journal error))
        | .ok value =>
          if found ≠ value then (spool, some (.journal .journalEntryConflict))
          else Spool.acknowledge (spool.unlink entry.memoryId entry.id) entries

/-- The end of `push`, once the entries are published: the spool it leaves, and what it
    raises.  A missing receipt is taken for a concurrent denial. -/
def Spool.clearPublished (spool : Spool) (entries : List Entry) : Spool × Option SpoolError :=
  match spool.acknowledge codec entries with
  | (spool, some .fileNotFound) => (spool, none)
  | result => result

/-- The denials that come between the publication and its acknowledgement. -/
def Spool.denied (spool : Spool) (denials : List Entry) : Spool :=
  denials.foldl (fun spool denial => (spool.forgetPendingContent codec denial).1) spool

end Operations

/-! ### Files -/

@[simp] theorem read_put (spool : Spool) (memory : UUID) (directory : Option (List (UUID × Bytes)))
    (other id : UUID) :
    (spool.put memory directory).read other id =
      if other = memory then
        directory.bind fun files => (files.find? fun file => decide (file.1 = id)).map (·.2)
      else spool.read other id := by
  unfold Spool.read Spool.put
  by_cases h : other = memory
  · simp [h]
  · simp [h]

/-- One file is gone, every other stays. -/
theorem read_unlink (spool : Spool) (memory id other name : UUID) :
    (spool.unlink memory id).read other name =
      if other = memory ∧ name = id then none else spool.read other name := by
  unfold Spool.unlink
  rw [read_put]
  by_cases hmemory : other = memory
  · subst hmemory
    rw [if_pos rfl]
    have hfind : (((spool.pending other).getD []).filter fun file => decide (file.1 ≠ id)).find?
        (fun file => decide (file.1 = name)) =
        if name = id then none
        else ((spool.pending other).getD []).find? fun file => decide (file.1 = name) := by
      rw [List.find?_filter]
      split
      · rename_i hname
        rw [List.find?_eq_none]
        intro file _
        simp [hname]
      · rename_i hname
        congr 1
        funext file
        by_cases hfile : file.1 = name
        · simp [hfile, hname]
        · simp [hfile]
    have hread : spool.read other name = (((spool.pending other).getD []).find? fun file =>
        decide (file.1 = name)).map (·.2) := by
      unfold Spool.read
      cases spool.pending other <;> rfl
    have hempty : (if ((spool.pending other).getD []).filter (fun file => decide (file.1 ≠ id)) = []
          then none
          else some (((spool.pending other).getD []).filter fun file => decide (file.1 ≠ id))).bind
        (fun files => (files.find? fun file => decide (file.1 = name)).map (·.2)) =
        ((((spool.pending other).getD []).filter fun file => decide (file.1 ≠ id)).find?
          fun file => decide (file.1 = name)).map (·.2) := by
      split
      · rename_i hnil
        rw [hnil]
        rfl
      · rfl
    rw [hempty, hfind, hread]
    by_cases hname : name = id
    · simp [hname]
    · simp [hname]
  · simp [hmemory]

/-! ### Acknowledging -/

section Acknowledging

variable {codec : LineCodec}

/-- What an acknowledgement does to a spool, for the entries it got through. -/
structure Cleared (spool spool' : Spool) (entries : List Entry) : Prop where
  present : ∀ entry ∈ entries, spool.receipt entry ≠ none
  gone : ∀ entry ∈ entries, spool'.receipt entry = none
  untouched : ∀ memory id, (∀ entry ∈ entries, (entry.memoryId, entry.id) ≠ (memory, id)) →
    spool'.read memory id = spool.read memory id

/-- **How far an acknowledgement gets**: it clears the entries before the first receipt that
    is gone, and touches nothing else. -/
theorem acknowledge_spec (entries : List Entry) : ∀ {spool : Spool}, (entries.map Entry.id).Nodup →
    ∃ passed rest, entries = passed ++ rest ∧
      Cleared spool (spool.acknowledge codec entries).1 passed ∧
      ((spool.acknowledge codec entries).2 = none → rest = []) ∧
      ((spool.acknowledge codec entries).2 = some .fileNotFound →
        ∃ missing others, rest = missing :: others ∧ spool.receipt missing = none) := by
  induction entries with
  | nil =>
    intro spool _
    exact ⟨[], [], rfl, ⟨fun _ h => (nomatch h), fun _ h => (nomatch h), fun _ _ _ => rfl⟩,
      fun _ => rfl, fun h => (nomatch h)⟩
  | cons entry entries ih =>
    intro spool hids
    rw [List.map_cons, List.nodup_cons] at hids
    -- a round that raises leaves the spool as it is
    have hstop : ∀ error : SpoolError, (error = .fileNotFound → spool.receipt entry = none) →
        ∃ passed rest, entry :: entries = passed ++ rest ∧ Cleared spool spool passed ∧
          (some error = none → rest = []) ∧ (some error = some SpoolError.fileNotFound →
            ∃ missing others, rest = missing :: others ∧ spool.receipt missing = none) := by
      intro error hmissing
      refine ⟨[], entry :: entries, rfl, ⟨fun _ h => (nomatch h), fun _ h => (nomatch h),
        fun _ _ _ => rfl⟩, fun h => (nomatch h), fun herror => ⟨entry, entries, rfl, ?_⟩⟩
      exact hmissing (Option.some.inj herror)
    rw [Spool.acknowledge]
    cases hreceipt : spool.receipt entry with
    | none => exact hstop .fileNotFound fun _ => hreceipt
    | some found =>
      dsimp only
      split
      · exact hstop .unreadable fun h => (nomatch h)
      · cases hline : entry.line codec with
        | error error => exact hstop (.journal error) fun h => (nomatch h)
        | ok value =>
          dsimp only
          split
          · exact hstop (.journal .journalEntryConflict) fun h => (nomatch h)
          · obtain ⟨passed, rest, hsplit, hcleared, hnone, hmissing⟩ :=
              @ih (spool.unlink entry.memoryId entry.id) hids.2
            -- the ids are distinct: no other entry's receipt is touched
            have hother : ∀ other ∈ entries, (spool.unlink entry.memoryId entry.id).receipt other =
                spool.receipt other := by
              intro other hmem
              rw [Spool.receipt, read_unlink, if_neg]
              · rfl
              · rintro ⟨-, hid⟩
                exact hids.1 (hid ▸ List.mem_map_of_mem hmem)
            have hsub : ∀ other ∈ passed, other ∈ entries := fun other h => by
              rw [hsplit]
              exact List.mem_append_left _ h
            refine ⟨entry :: passed, rest, by rw [hsplit, List.cons_append], ⟨?_, ?_, ?_⟩, hnone, ?_⟩
            · intro other hmem
              rcases List.mem_cons.mp hmem with rfl | hmem
              · rw [hreceipt]
                exact fun h => (nomatch h)
              · rw [← hother other (hsub other hmem)]
                exact hcleared.present other hmem
            · intro other hmem
              rcases List.mem_cons.mp hmem with rfl | hmem
              · rw [Spool.receipt, hcleared.untouched, read_unlink, if_pos ⟨rfl, rfl⟩]
                intro later hlater hkey
                exact hids.1 ((Prod.mk.inj hkey).2 ▸ List.mem_map_of_mem (hsub later hlater))
              · exact hcleared.gone other hmem
            · intro memory id hfree
              rw [hcleared.untouched memory id fun other h => hfree other (List.mem_cons_of_mem _ h),
                read_unlink, if_neg]
              rintro ⟨rfl, rfl⟩
              exact hfree entry List.mem_cons_self rfl
            · intro hfile
              obtain ⟨missing, others, hrest, hgone⟩ := hmissing hfile
              refine ⟨missing, others, hrest, ?_⟩
              rw [← hother missing (by rw [hsplit, hrest]; simp)]
              exact hgone

theorem clearPublished_fst (spool : Spool) (entries : List Entry) :
    (spool.clearPublished codec entries).1 = (spool.acknowledge codec entries).1 := by
  unfold Spool.clearPublished
  split
  · rename_i h
    rw [h]
  · rfl

/-- A push that returns got through all its entries or met a receipt that is gone. -/
theorem clearPublished_returns {spool : Spool} {entries : List Entry}
    (h : (spool.clearPublished codec entries).2 = none) :
    (spool.acknowledge codec entries).2 = none ∨
      (spool.acknowledge codec entries).2 = some .fileNotFound := by
  unfold Spool.clearPublished at h
  split at h
  · rename_i hack
    exact Or.inr (by rw [hack])
  · exact Or.inl h

/-- **When a returning push leaves no receipt of what it has published**: exactly when no
    receipt is left behind, in the order of the entries, one that a denial has removed. -/
theorem push_clears (codec : LineCodec) (spool : Spool) (entries denials : List Entry)
    (hids : (entries.map Entry.id).Nodup)
    (hreturns : ((spool.denied codec denials).clearPublished codec entries).2 = none) :
    let left := spool.denied codec denials
    let after := (left.clearPublished codec entries).1
    ((∀ entry ∈ entries, after.receipt entry = none) ∧
        ∀ memory id, (∀ entry ∈ entries, (entry.memoryId, entry.id) ≠ (memory, id)) →
          after.read memory id = left.read memory id) ↔
      entries.Pairwise fun earlier later => left.receipt earlier = none → left.receipt later = none := by
  intro left after
  obtain ⟨passed, rest, hsplit, hcleared, hnone, hmissing⟩ :=
    @acknowledge_spec codec entries left hids
  rw [← clearPublished_fst] at hcleared
  have huntouched : ∀ memory id,
      (∀ entry ∈ entries, (entry.memoryId, entry.id) ≠ (memory, id)) →
        after.read memory id = left.read memory id := by
    intro memory id hfree
    apply hcleared.untouched
    intro entry hentry
    apply hfree
    rw [hsplit]
    exact List.mem_append_left _ hentry
  -- the entries behind the first missing receipt keep what they have
  have hrest : ∀ entry ∈ rest, after.receipt entry = left.receipt entry := by
    intro entry hentry
    apply hcleared.untouched
    intro other hother hkey
    rw [hsplit, List.map_append, List.nodup_append] at hids
    exact hids.2.2 _ (List.mem_map_of_mem hother) _ (List.mem_map_of_mem hentry)
      (Prod.mk.inj hkey).2
  have hpassed : passed.Pairwise fun earlier later =>
      left.receipt earlier = none → left.receipt later = none :=
    List.pairwise_of_forall_mem_list fun earlier hearlier _ _ h =>
      absurd h (hcleared.present earlier hearlier)
  rcases clearPublished_returns hreturns with hresult | hresult
  · have hnil := hnone hresult
    rw [hnil, List.append_nil] at hsplit
    rw [hsplit] at huntouched ⊢
    exact iff_of_true ⟨hcleared.gone, huntouched⟩ hpassed
  · obtain ⟨missing, others, hothers, hgone⟩ := hmissing hresult
    constructor
    · rintro ⟨hclear, -⟩
      rw [hsplit]
      refine List.pairwise_append.mpr ⟨hpassed, ?_, fun earlier hearlier _ _ h =>
        absurd h (hcleared.present earlier hearlier)⟩
      refine List.pairwise_of_forall_mem_list fun _ _ later hlater _ => ?_
      rw [← hrest later hlater]
      apply hclear
      rw [hsplit]
      exact List.mem_append_right _ hlater
    · intro hordered
      refine ⟨fun entry hentry => ?_, huntouched⟩
      rw [hsplit] at hentry hordered
      rcases List.mem_append.mp hentry with hentry | hentry
      · exact hcleared.gone entry hentry
      · rw [hrest entry hentry]
        have hbehind := (List.pairwise_append.mp hordered).2.1
        rw [hothers] at hbehind hentry
        rcases List.mem_cons.mp hentry with rfl | hentry
        · exact hgone
        · exact (List.pairwise_cons.mp hbehind).1 entry hentry hgone

end Acknowledging

/-! ### A forgotten memory in front -/

def plainCodec : LineCodec := ⟨fun entry => [UInt8.ofNat entry.id], fun _ => none, fun value => value⟩

theorem first_in_range : 1 ≤ 1 ∧ 1 ≤ 9007199254740991 := by decide

def savedEntry (memory id : UUID) : Entry where
  id := id
  ts := 0
  tenantId := 1
  spaceId := 2
  memoryId := memory
  version := 1
  writer := 3
  action := .upsert
  subject := none
  important := false
  text := some (String.singleton 'X')
  kind := .fact
  metadata := []
  version_range := first_in_range
  payload := by decide

def denialEntry (memory id : UUID) : Entry where
  id := id
  ts := 1
  tenantId := 1
  spaceId := 2
  memoryId := memory
  version := 2
  writer := 3
  action := .forget
  subject := none
  important := false
  text := none
  kind := .fact
  metadata := []
  version_range := by decide
  payload := rfl

/-- Two receipts, of two memories. -/
def twoReceipts : Spool where
  nameSpace := (1, 2)
  pending := fun memory =>
    if memory = 4 then some [(6, [6, newline])]
    else if memory = 5 then some [(7, [7, newline])] else none

/-- The first memory is forgotten while both entries are published: the push returns, and
    the receipt of the second stays. -/
theorem push_clears_fails :
    let left := twoReceipts.denied plainCodec [denialEntry 4 8]
    let result := left.clearPublished plainCodec [savedEntry 4 6, savedEntry 5 7]
    result.2 = none ∧ result.1.receipt (savedEntry 5 7) = some [7, newline] := by
  decide +kernel

/-- Without a denial both receipts go. -/
theorem push_clears_quiet :
    let after := (twoReceipts.clearPublished plainCodec [savedEntry 4 6, savedEntry 5 7]).1
    after.receipt (savedEntry 4 6) = none ∧ after.receipt (savedEntry 5 7) = none := by
  have h := (push_clears plainCodec twoReceipts [savedEntry 4 6, savedEntry 5 7] [] (by decide)
    (by decide +kernel)).mpr (by decide +kernel)
  exact ⟨h.1 _ List.mem_cons_self, h.1 _ (List.mem_cons_of_mem _ List.mem_cons_self)⟩

end Mnemion.Journal
