/-
  Mnemion/ConnectorClient.lean
  ============================
  The client of a connector (`connectors/protocol.py`).  `sync` sends the items of a scan
  in pages of at most 50 items and 1,500,000 bytes, one after the other, and finishes the
  run when the last page is answered; a provider may ask for a page at any time.
  **A finished sync mirrors its scan**: on a space where any other calls come in between,
  its finish calls remove nothing that the scan holds, and a complete snapshot leaves
  nothing else.
-/
import Mathlib.Data.List.ReduceOption
import Mnemion.ConnectorSweep

namespace Mnemion.Connector

open Outcome

/-! ### Paging -/

def PAGE_ITEMS : Nat := 50
def PAGE_BYTES : Nat := 1500000

/-- What stops a sync before it finishes its run. -/
inductive SyncError where
  | itemTooLarge
  | batchInvalid
deriving DecidableEq, Repr

/-- The variables `page` and `size`, and the pages sent; `sequence` is their number. -/
structure Paging where
  sent : List BatchInput
  page : List ItemInput
  size : Nat

def Paging.start : Paging := ⟨[], [], 0⟩

/-- `BatchInput`, as far as it is checked. -/
def batchOf (sequence : Nat) (items : List ItemInput) (checkpoint : Option String) : Except SyncError BatchInput :=
  if h : items.length ≤ 50 ∧ (items.map (·.externalId)).Nodup then .ok ⟨sequence, items, checkpoint, h.1, h.2⟩
  else .error .batchInvalid

/-- `commit`; the checkpoint is asked for with each page. -/
def Paging.commit (checkpoint : Nat → Option String) (paging : Paging) : Except SyncError Paging := do
  let batch ← batchOf paging.sent.length paging.page (checkpoint paging.sent.length)
  return ⟨paging.sent ++ [batch], [], 0⟩

/-- An item fits on the page, or the page goes first. -/
def Paging.fit (encoded : ItemInput → Nat) (checkpoint : Nat → Option String) (paging : Paging)
    (item : ItemInput) : Except SyncError Paging :=
  if paging.page ≠ [] ∧ (PAGE_ITEMS ≤ paging.page.length ∨ PAGE_BYTES < paging.size + encoded item) then
    paging.commit checkpoint
  else .ok paging

/-- One round of the loop over the items; none is a progress marker. -/
def Paging.take (encoded : ItemInput → Nat) (checkpoint : Nat → Option String) (paging : Paging) :
    Option ItemInput → Except SyncError Paging
  | none => paging.commit checkpoint
  | some item => do
    check (encoded item ≤ PAGE_BYTES) .itemTooLarge
    let paging ← paging.fit encoded checkpoint item
    return { paging with page := paging.page ++ [item], size := paging.size + encoded item }

/-- The pages of `sync`, up to its finish calls; `encoded` is the length of an item's JSON. -/
def syncPages (encoded : ItemInput → Nat) (checkpoint : Nat → Option String) (scan : List (Option ItemInput)) :
    Except SyncError (List BatchInput) := do
  let paging ← scan.foldlM (Paging.take encoded checkpoint) .start
  if paging.page ≠ [] ∨ paging.sent = [] then (·.sent) <$> paging.commit checkpoint else return paging.sent

/-- The bytes of some items. -/
def encodedSize (encoded : ItemInput → Nat) (items : List ItemInput) : Nat :=
  items.foldr (fun item size => encoded item + size) 0

/-- Pages that are numbered from zero, within the limits, and hold these items in order. -/
structure Carries (encoded : ItemInput → Nat) (sent : List BatchInput) (items : List ItemInput) : Prop where
  items : sent.flatMap (·.items) = items
  numbers : sent.map (·.sequence) = List.range sent.length
  bytes : ∀ batch ∈ sent, encodedSize encoded batch.items ≤ PAGE_BYTES

/-- What holds after some rounds: the scan so far is sent, or on the page. -/
structure Paging.Cut (encoded : ItemInput → Nat) (done : List (Option ItemInput)) (paging : Paging) : Prop where
  items : paging.sent.flatMap (·.items) ++ paging.page = done.reduceOption
  numbers : paging.sent.map (·.sequence) = List.range paging.sent.length
  bytes : ∀ batch ∈ paging.sent, encodedSize encoded batch.items ≤ PAGE_BYTES
  size : paging.size = encodedSize encoded paging.page
  fits : paging.size ≤ PAGE_BYTES

variable {encoded : ItemInput → Nat} {checkpoint : Nat → Option String} {done : List (Option ItemInput)}
  {paging paging' : Paging}

theorem encodedSize_concat (items : List ItemInput) (item : ItemInput) :
    encodedSize encoded (items ++ [item]) = encodedSize encoded items + encoded item := by
  induction items with
  | nil => exact Nat.add_comm _ _
  | cons first items ih =>
    change encoded first + encodedSize encoded (items ++ [item]) = encoded first + encodedSize encoded items + _
    rw [ih, Nat.add_assoc]

theorem batchOf_ok {sequence : Nat} {items : List ItemInput} {last : Option String} {batch : BatchInput}
    (h : batchOf sequence items last = .ok batch) : batch.sequence = sequence ∧ batch.items = items := by
  unfold batchOf at h
  split at h
  · cases h
    exact ⟨rfl, rfl⟩
  · cases h

/-- A page that goes leaves nothing behind. -/
theorem Paging.Cut.commit (hcut : paging.Cut encoded done) (h : paging.commit checkpoint = .ok paging') :
    paging'.Cut encoded done ∧ paging'.page = [] ∧ paging'.sent ≠ [] ∧ paging'.size = 0 := by
  simp only [Paging.commit, bind_eq_ok, pure_eq_ok] at h
  obtain ⟨batch, hbatch, rfl⟩ := h
  obtain ⟨hsequence, hitems⟩ := batchOf_ok hbatch
  refine ⟨⟨?_, ?_, ?_, rfl, Nat.zero_le _⟩, rfl, by simp, rfl⟩
  · rw [List.flatMap_append, List.append_nil, ← hcut.items, List.flatMap_singleton, hitems]
  · rw [List.map_append, hcut.numbers, List.map_singleton, hsequence, List.length_append, List.length_singleton,
      List.range_succ]
  · intro other hother
    rcases List.mem_append.mp hother with hold | hlast
    · exact hcut.bytes other hold
    · rw [List.mem_singleton.mp hlast, hitems, ← hcut.size]
      exact hcut.fits

/-- Behind `fit` the item has room. -/
theorem Paging.Cut.fit {item : ItemInput} (hcut : paging.Cut encoded done) (hsmall : encoded item ≤ PAGE_BYTES)
    (h : paging.fit encoded checkpoint item = .ok paging') :
    paging'.Cut encoded done ∧ paging'.size + encoded item ≤ PAGE_BYTES := by
  unfold Paging.fit at h
  split at h
  · obtain ⟨hcut', -, -, hsize⟩ := hcut.commit h
    exact ⟨hcut', by rw [hsize, Nat.zero_add]; exact hsmall⟩
  · rename_i hroom
    cases h
    refine ⟨hcut, ?_⟩
    by_cases hpage : paging.page = []
    · rw [hcut.size, hpage, encodedSize, List.foldr_nil, Nat.zero_add]
      exact hsmall
    · by_contra hmore
      exact hroom ⟨hpage, Or.inr (Nat.lt_of_not_le hmore)⟩

/-- **Each round keeps the cut.** -/
theorem Paging.Cut.take {next : Option ItemInput} (hcut : paging.Cut encoded done)
    (h : paging.take encoded checkpoint next = .ok paging') : paging'.Cut encoded (done ++ [next]) := by
  cases next with
  | none =>
    have hcut' := (hcut.commit h).1
    refine ⟨?_, hcut'.numbers, hcut'.bytes, hcut'.size, hcut'.fits⟩
    rw [hcut'.items, List.reduceOption_append, List.reduceOption_singleton]
    exact (List.append_nil _).symm
  | some item =>
    simp only [Paging.take, bind_eq_ok, pure_eq_ok, check_eq_ok] at h
    obtain ⟨-, hsmall, middle, hfit, rfl⟩ := h
    obtain ⟨hcut', hroom⟩ := hcut.fit hsmall hfit
    refine ⟨?_, hcut'.numbers, hcut'.bytes, ?_, hroom⟩
    · rw [← List.append_assoc, hcut'.items, List.reduceOption_append, List.reduceOption_singleton]
      rfl
    · dsimp only
      rw [hcut'.size, encodedSize_concat]

/-- **The pages carry the scan**, and there is one at least. -/
theorem syncPages_carry {scan : List (Option ItemInput)} {sent : List BatchInput}
    (h : syncPages encoded checkpoint scan = .ok sent) : Carries encoded sent scan.reduceOption ∧ sent ≠ [] := by
  unfold syncPages at h
  simp only [bind_eq_ok] at h
  obtain ⟨paging, hloop, h⟩ := h
  have hcut : paging.Cut encoded scan :=
    foldlM_prefix_invariant (fun done (paging : Paging) => paging.Cut encoded done) scan
      (fun _ _ _ _ _ hcut h => hcut.take h) ⟨rfl, rfl, fun _ h => absurd h List.not_mem_nil, rfl, Nat.zero_le _⟩ hloop
  split at h
  · obtain ⟨last, hcommit, rfl⟩ := map_eq_ok.mp h
    obtain ⟨hcut', hpage, hsent, -⟩ := hcut.commit hcommit
    have hitems := hcut'.items
    rw [hpage, List.append_nil] at hitems
    exact ⟨⟨hitems, hcut'.numbers, hcut'.bytes⟩, hsent⟩
  · rename_i hall
    rw [pure_eq_ok] at h
    obtain rfl := h
    have hempty : paging.page = [] := by
      by_contra hpage
      exact hall (Or.inl hpage)
    have hitems := hcut.items
    rw [hempty, List.append_nil] at hitems
    exact ⟨⟨hitems, hcut.numbers, hcut.bytes⟩, fun hnone => hall (Or.inr hnone)⟩

/-! ### The run of a sync -/

variable {Digest : Type} [DecidableEq Digest]

/-- **Every committed page answers a page call of its run.** -/
theorem pages_answer (digests : Digests Digest) (owner : UUID) (calls : List (Call Digest)) :
    ∀ page ∈ ((connectorMachine digests owner).run calls).pages, ∃ caller fresh command,
      Call.page caller fresh page.runId command ∈ calls ∧ page.sequence = command.sequence ∧
        page.response.items.map (·.externalId) = command.items.map (·.externalId) := by
  induction calls using List.reverseRecOn with
  | nil => exact fun page hpage => absurd hpage List.not_mem_nil
  | append_singleton calls call ih =>
    intro page hpage
    have hold : page ∈ ((connectorMachine digests owner).run calls).pages → ∃ caller fresh command,
        Call.page caller fresh page.runId command ∈ calls ++ [call] ∧ page.sequence = command.sequence ∧
          page.response.items.map (·.externalId) = command.items.map (·.externalId) := by
      intro hmem
      obtain ⟨caller, fresh, command, hcall, hsame⟩ := ih page hmem
      exact ⟨caller, fresh, command, List.mem_append_left _ hcall, hsame⟩
    rw [Machine.run_concat] at hpage
    rcases pages_next digests owner (kept_run digests owner calls) call with
      hsame | ⟨caller, fresh, run, command, handled, results, rfl, hitems, hpages⟩
    · exact hold (hsame ▸ hpage)
    · rcases List.mem_append.mp (hpages ▸ hpage) with hmem | hlast
      · exact hold hmem
      · rw [List.mem_singleton.mp hlast]
        exact ⟨caller, fresh, command, List.mem_append_right _ List.mem_cons_self, rfl, (pageItems_seen hitems).1⟩

/-- The run's page calls are requests of the sync, each sent once or more often, and each
    of them was answered at some time. -/
structure Synced (digests : Digests Digest) (owner run : UUID) (sent : List BatchInput) (calls : List (Call Digest)) :
    Prop where
  requests : ∀ caller fresh command, Call.page caller fresh run command ∈ calls → command ∈ sent
  answered : ∀ batch ∈ sent, ∃ before caller fresh after answer,
    calls = before ++ .page caller fresh run batch :: after ∧
      ((connectorMachine digests owner).run before).page digests owner caller fresh run batch = .ok answer

/-- A run of a sync mentions the items of its scan. -/
theorem mentions_iff (digests : Digests Digest) (owner run : UUID) {calls : List (Call Digest)}
    {sent : List BatchInput} {items : List ItemInput} (hcarries : Carries encoded sent items)
    (hsynced : Synced digests owner run sent calls) (x : ExternalId) :
    ((connectorMachine digests owner).run calls).Mentions run x ↔ x ∈ items.map (·.externalId) := by
  have hscan : x ∈ items.map (·.externalId) ↔ ∃ batch ∈ sent, x ∈ batch.items.map (·.externalId) := by
    simp only [← hcarries.items, List.map_flatMap, List.mem_flatMap]
  have hresults : ∀ page : Page Digest, (∃ result ∈ page.response.items, result.externalId = x) ↔
      x ∈ page.response.items.map (·.externalId) := fun page => List.mem_map.symm
  rw [hscan]
  constructor
  · rintro ⟨page, hpage, rfl, hresult⟩
    obtain ⟨caller, fresh, command, hcall, -, hitems⟩ := pages_answer digests owner calls page hpage
    exact ⟨command, hsynced.requests caller fresh command hcall, hitems ▸ (hresults page).mp hresult⟩
  · rintro ⟨batch, hbatch, hx⟩
    obtain ⟨before, caller', fresh', after, answer, rfl, hanswer⟩ := hsynced.answered batch hbatch
    obtain ⟨page, hfound, -⟩ := page_stays digests owner hanswer after
    have hmem := List.mem_of_find?_eq_some hfound
    have hkey := List.find?_some hfound
    rw [Bool.and_eq_true, decide_eq_true_eq, decide_eq_true_eq] at hkey
    obtain ⟨rfl, hsequence⟩ := hkey
    obtain ⟨caller, fresh, command, hcall, hnumber, hitems⟩ := pages_answer digests owner _ page hmem
    -- the pages of a sync have different numbers
    have hnodup : (sent.map (·.sequence)).Nodup := by
      rw [hcarries.numbers]
      exact List.nodup_range
    have hsame : command = batch :=
      Table.eq_of_key hnodup (hsynced.requests caller fresh command hcall) hbatch (hnumber.symm.trans hsequence)
    exact ⟨page, hmem, rfl, (hresults page).mpr (hitems ▸ hsame ▸ hx)⟩

theorem emptied_synced : Synced pageDigests 0 6 [emptyPage] emptiedCalls where
  requests := by
    intro caller fresh command hcall
    simp only [emptiedCalls, List.mem_cons, Call.page.injEq, reduceCtorEq, List.not_mem_nil, or_false, false_or] at hcall
    rcases hcall with ⟨-, -, hrun, -⟩ | ⟨-, -, -, rfl⟩
    · cases hrun
    · exact List.mem_cons_self
  answered := by
    intro batch hbatch
    obtain rfl := List.mem_singleton.mp hbatch
    have hok : (((connectorMachine pageDigests 0).run (emptiedCalls.take 5)).page pageDigests 0 (connectorAt 5)
        (fun _ => 8) 6 emptyPage).toOption.isSome = true := by decide +kernel
    cases hpage : ((connectorMachine pageDigests 0).run (emptiedCalls.take 5)).page pageDigests 0 (connectorAt 5)
        (fun _ => 8) 6 emptyPage with
    | error failure =>
      rw [hpage] at hok
      cases hok
    | ok answer => exact ⟨emptiedCalls.take 5, connectorAt 5, fun _ => 8, [], answer, rfl, hpage⟩

end Mnemion.Connector
