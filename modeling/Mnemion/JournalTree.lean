/-
  Mnemion/JournalTree.lean
  ========================
  **The journal in a Git tree**: the paths a journal owns, the tree a commit
  names, index updates and the inventory of one daily series
  (`journal/rollover.py`, `inventory`).

  A Git object id names its content, so a listing gives the content itself and
  a size is the length of the content.
-/
import Mnemion.JournalFormat
import Mathlib.Data.List.AList
import Mathlib.Data.List.Sort

namespace Mnemion.Journal

open Outcome

def MAX_SERIES_BYTES : Nat := 2 * 1024 ^ 3
def MAX_SERIES_RECORDS : Nat := 1000000

/-! ### Paths and trees -/

/-- The files of a journal beside its catalog: `<prefix>/[_archive/]<relative>`
    and, outside the journal folder, the generated note of a memory. -/
inductive Path where
  | journal (archived : Bool) (relative : Relative)
  | note (memoryId : UUID)
deriving DecidableEq, Repr

/-- The byte order of the path texts: notes (`-` before `/`), live files,
    archived files; part 0 before its continuations. -/
def Path.key : Path → List Nat
  | .note memoryId => [0, memoryId]
  | .journal archived r => [1 + archived.toNat, r.day, r.writer, r.part]

def lexLe : List Nat → List Nat → Bool
  | [], _ => true
  | _ :: _, [] => false
  | a :: as, b :: bs => a < b || (a == b && lexLe as bs)

def Path.le (a b : Path) : Bool := lexLe a.key b.key

/-- The tree of a commit. -/
structure Tree where
  files : AList fun _ : Path => Bytes
  catalog : Option Catalog
deriving DecidableEq

def Tree.empty : Tree := ⟨∅, none⟩

def Tree.blob (tree : Tree) (path : Path) : Option Bytes := tree.files.lookup path

/-- `ls-tree -r`, in path order. -/
def Tree.listing (tree : Tree) : List (Path × Bytes) :=
  (tree.files.entries.map fun entry => (entry.1, entry.2)).mergeSort fun a b => a.1.le b.1

/-- One line for `update-index --index-info`. -/
inductive Update where
  | write (path : Path) (content : Bytes)
  | delete (path : Path)
  | catalog (catalog : Catalog)
deriving DecidableEq

def Tree.update (tree : Tree) : Update → Tree
  | .write path content => { tree with files := tree.files.insert path content }
  | .delete path => { tree with files := tree.files.erase path }
  | .catalog catalog => { tree with catalog := some catalog }

/-- `read-tree` followed by `update-index` and `write-tree`. -/
def Tree.apply (tree : Tree) (updates : List Update) : Tree := updates.foldl Tree.update tree

@[simp] theorem Tree.apply_nil (tree : Tree) : tree.apply [] = tree := rfl

@[simp] theorem Tree.apply_append (tree : Tree) (us vs : List Update) :
    tree.apply (us ++ vs) = (tree.apply us).apply vs := by
  simp [Tree.apply]

@[simp] theorem Tree.apply_cons (tree : Tree) (u : Update) (us : List Update) :
    tree.apply (u :: us) = (tree.update u).apply us := rfl

@[simp] theorem Tree.blob_write (tree : Tree) (path path' : Path) (content : Bytes) :
    (tree.update (.write path content)).blob path' =
      if path' = path then some content else tree.blob path' := by
  show (tree.files.insert path content).lookup path' = _
  by_cases h : path' = path
  · rw [if_pos h, h]; exact AList.lookup_insert _
  · rw [if_neg h]; exact AList.lookup_insert_ne h

@[simp] theorem Tree.blob_delete (tree : Tree) (path path' : Path) :
    (tree.update (.delete path)).blob path' =
      if path' = path then none else tree.blob path' := by
  show (tree.files.erase path).lookup path' = _
  by_cases h : path' = path
  · rw [if_pos h, h]; exact AList.lookup_erase _ _
  · rw [if_neg h]; exact AList.lookup_erase_ne h

@[simp] theorem Tree.blob_catalog (tree : Tree) (catalog : Catalog) (path : Path) :
    (tree.update (.catalog catalog)).blob path = tree.blob path := rfl

theorem Tree.mem_listing {tree : Tree} {path : Path} {content : Bytes} :
    (path, content) ∈ tree.listing ↔ tree.blob path = some content := by
  unfold Tree.listing Tree.blob
  rw [List.mem_mergeSort, ← Option.mem_def, AList.mem_lookup_iff, List.mem_map]
  constructor
  · rintro ⟨⟨p, c⟩, hmem, heq⟩
    simp only [Prod.mk.injEq] at heq
    obtain ⟨rfl, rfl⟩ := heq
    exact hmem
  · intro h
    exact ⟨⟨path, content⟩, h, rfl⟩

/-! ### The inventory of one daily series -/

/-- One journal file of a series. -/
structure Segment where
  relative : Relative
  archived : Bool
  oid : Bytes
deriving DecidableEq

def Segment.path (segment : Segment) : Path := .journal segment.archived segment.relative
def Segment.part (segment : Segment) : Nat := segment.relative.part
def Segment.size (segment : Segment) : Nat := segment.oid.length

/-- The rows of a listing that belong to the series of `day` and `writer`. -/
def seriesRow (day : Day) (writer : UUID) : Path × Bytes → Option Segment
  | (.journal archived relative, content) =>
    if relative.day = day ∧ relative.writer = writer then some ⟨relative, archived, content⟩
    else none
  | _ => none

/-- `parts != set(range(max(parts) + 1))` does not hold; no part at all is
    complete as well. -/
def completeParts (parts : List Nat) : Prop :=
  parts ≠ [] → ∀ part ∈ List.range (parts.foldr max 0 + 1), part ∈ parts

instance (parts : List Nat) : Decidable (completeParts parts) := by
  unfold completeParts; infer_instance

/-- The sort key `(part, archived)`. -/
def Segment.le (a b : Segment) : Bool :=
  a.part < b.part || (a.part == b.part && (!a.archived || b.archived))

/-- One row of the listing: its name, its size and the running limits. -/
def inventoryRow (state : List Segment × Nat) (segment : Segment) :
    Except JournalError (List Segment × Nat) := do
  let _ ← journalPath segment.relative
  check (segment.size ≤ MAX_FILE_BYTES) .journalRecordPathMismatch
  let result := state.1 ++ [segment]
  let total := state.2 + segment.size
  check (result.length ≤ MAX_SERIES_FILES * 2 ∧ total ≤ MAX_SERIES_BYTES) .journalInventoryLimit
  return (result, total)

def inventory (head : Option Tree) (day : Day) (writer : UUID) (catalogVersion : Nat) :
    Except JournalError (List Segment) :=
  match head with
  | none => .ok []
  | some tree => do
    let (result, _) ← (tree.listing.filterMap (seriesRow day writer)).foldlM inventoryRow ([], 0)
    let parts := result.map (·.part)
    check (completeParts parts) .journalIncompleteSeries
    check (catalogVersion < 2 → ∀ part ∈ parts, part = 0) .journalCatalogLayoutMismatch
    return result.mergeSort Segment.le

theorem inventoryRow_fold {rows result : List Segment} {total total' : Nat}
    {acc : List Segment} (h : rows.foldlM inventoryRow (acc, total) = .ok (result, total')) :
    result = acc ++ rows := by
  have := foldlM_prefix_invariant
    (fun done (state : List Segment × Nat) => state.1 = acc ++ done) rows ?_ (by simp) h
  · exact this
  · intro done state segment state' _ hP hstep
    simp only [inventoryRow, bind_eq_ok, pure_eq_ok] at hstep
    obtain ⟨_, _, _, _, _, _, rfl⟩ := hstep
    simp [hP]

/-- The tree below a head; a missing branch has none of the journal's files. -/
def headTree (head : Option Tree) : Tree := head.getD .empty

@[simp] theorem Tree.blob_empty (path : Path) : Tree.empty.blob path = none :=
  AList.lookup_empty path

/-- **What an inventory lists**: exactly the files of the series. -/
theorem mem_inventory {head : Option Tree} {day : Day} {writer : UUID} {version : Nat}
    {segments : List Segment} (h : inventory head day writer version = .ok segments)
    (segment : Segment) :
    segment ∈ segments ↔ (headTree head).blob segment.path = some segment.oid ∧
      segment.relative.day = day ∧ segment.relative.writer = writer := by
  cases head with
  | none =>
    simp only [inventory, Except.ok.injEq] at h
    simp [← h, headTree]
  | some tree =>
    simp only [inventory, bind_eq_ok, pure_eq_ok] at h
    obtain ⟨⟨result, total⟩, hfold, _, _, _, _, rfl⟩ := h
    have hresult := inventoryRow_fold hfold
    simp only [List.nil_append] at hresult
    subst hresult
    rw [List.mem_mergeSort, List.mem_filterMap]
    constructor
    · rintro ⟨⟨path, content⟩, hmem, hrow⟩
      cases path with
      | note memoryId => simp [seriesRow] at hrow
      | journal archived relative =>
        simp only [seriesRow, Option.ite_none_right_eq_some, Option.some.injEq] at hrow
        obtain ⟨hseries, rfl⟩ := hrow
        exact ⟨Tree.mem_listing.mp hmem, hseries⟩
    · rintro ⟨hblob, hday, hwriter⟩
      refine ⟨(segment.path, segment.oid), Tree.mem_listing.mpr hblob, ?_⟩
      simp [seriesRow, Segment.path, hday, hwriter]

theorem Segment.le_iff (a b : Segment) :
    a.le b = true ↔ a.part < b.part ∨ (a.part = b.part ∧ (a.archived = true → b.archived = true)) := by
  unfold Segment.le
  cases a.archived <;> cases b.archived <;> simp

theorem Segment.le_trans (a b c : Segment) (hab : a.le b = true) (hbc : b.le c = true) :
    a.le c = true := by
  rw [Segment.le_iff] at *
  rcases hab with hab | ⟨hab, hab'⟩ <;> rcases hbc with hbc | ⟨hbc, hbc'⟩
  · left; omega
  · left; omega
  · left; omega
  · right; exact ⟨by omega, fun h => hbc' (hab' h)⟩

theorem Segment.le_total (a b : Segment) : (a.le b || b.le a) = true := by
  rw [Bool.or_eq_true, Segment.le_iff, Segment.le_iff]
  rcases Nat.lt_trichotomy a.part b.part with h | h | h
  · exact Or.inl (Or.inl h)
  · cases ha : a.archived
    · exact Or.inl (Or.inr ⟨h, by simp⟩)
    · exact Or.inr (Or.inr ⟨h.symm, fun _ => rfl⟩)
  · exact Or.inr (Or.inl h)

/-- The last segment of an inventory has the greatest part. -/
theorem inventory_getLast {head : Option Tree} {day : Day} {writer : UUID} {version : Nat}
    {segments : List Segment} {tail : Segment}
    (h : inventory head day writer version = .ok segments)
    (htail : segments.getLast? = some tail) {segment : Segment} (hmem : segment ∈ segments) :
    segment.part ≤ tail.part := by
  have hsorted : segments.Pairwise fun a b => a.le b = true := by
    cases head with
    | none =>
      simp only [inventory, Except.ok.injEq] at h
      simp [← h]
    | some tree =>
      simp only [inventory, bind_eq_ok, pure_eq_ok] at h
      obtain ⟨_, _, _, _, _, _, rfl⟩ := h
      exact List.pairwise_mergeSort Segment.le_trans Segment.le_total _
  obtain ⟨init, rfl⟩ := List.getLast?_eq_some_iff.mp htail
  rcases List.mem_append.mp hmem with hinit | hlast
  · have hle := (List.pairwise_append.mp hsorted).2.2 segment hinit tail (by simp)
    rcases (Segment.le_iff _ _).mp hle with hlt | ⟨heq, _⟩
    · exact Nat.le_of_lt hlt
    · exact Nat.le_of_eq heq
  · simp only [List.mem_singleton] at hlast
    rw [hlast]

end Mnemion.Journal
