/-
  Mnemion/JournalProtection.lean
  ==============================
  **Refusing a rewritten history** (`journal/git.py`, `_protect_previous`), on
  the folder as Git stores it: every path below the journal's prefix with the
  mode and the bytes of its entry, the listing `diff-tree` prints of two such
  folders, the bound on that listing and the test of each changed path.

  `JournalGit` states the same test for the structured trees of the publishers.
  Here a folder may hold anything, so that what the test accepts is known for
  every pair of folders (`protectPrevious_keeps`).
-/
import Mathlib.Algebra.GroupWithZero.Nat
import Mnemion.JournalGit

namespace Mnemion.Journal

open Outcome ByteLines

/-! ### A folder in Git -/

/-- The kinds of entry a recursive listing shows. -/
inductive Mode where
  | file
  | executable
  | link
  | submodule
deriving DecidableEq, Repr

structure Item where
  mode : Mode
  content : Bytes
deriving DecidableEq

/-- What a path ends in once every leading `_archive/` is taken away. -/
inductive Name where
  | catalog
  | record (relative : Relative)
  | other (text : List Char)
deriving DecidableEq

/-- A path below the prefix. -/
structure Place where
  archives : Nat
  name : Name
deriving DecidableEq

def catalogPlace : Place := ⟨0, .catalog⟩

/-- `prefix + "/_archive/" + path[len(prefix) + 1 :]` -/
def Place.archived (place : Place) : Place := { place with archives := place.archives + 1 }

/-- Bytes of `catalog.json`, of `<day>/<writer>[.part-NNNNNN].jsonl`, of any other
    name. -/
def Name.bytes : Name → Nat
  | .catalog => 12
  | .record relative => if relative.part = 0 then 53 else 65
  | .other text => (text.map Char.utf8Size).sum

def Place.bytes (place : Place) : Nat := 9 * place.archives + place.name.bytes

abbrev Folder := AList fun _ : Place => Item

/-- `_blob` below the prefix. -/
def Folder.blob (folder : Folder) (place : Place) : Except JournalError (Option Bytes) :=
  match folder.lookup place with
  | none => .ok none
  | some item => do
    check (item.mode = .file) .journalPathIsNotARegularFile
    check (item.content.length ≤ MAX_FILE_BYTES) .journalFileTooLarge
    return some item.content

/-! ### The listing of changes -/

inductive Change where
  | added
  | modified
  | deleted
  | retyped
deriving DecidableEq, Repr

/-- A file that gains or loses its executable bit is modified, any other change
    of the kind is a change of type. -/
def Mode.sameType (a b : Mode) : Bool :=
  match a, b with
  | .file, .executable => true
  | .executable, .file => true
  | a, b => a = b

/-- The letter of one path. -/
def changeOf : Option Item → Option Item → Option Change
  | none, none => none
  | none, some _ => some .added
  | some _, none => some .deleted
  | some a, some b =>
    if a = b then none else if a.mode.sameType b.mode then some .modified else some .retyped

/-- `diff-tree --name-status -r -z`.  The order of the rows decides only which
    error comes first. -/
def diffTree (old head : Folder) : List (Change × Place) :=
  (old.keys ++ head.keys.filter (· ∉ old.keys)).filterMap fun place =>
    (changeOf (old.lookup place) (head.lookup place)).map fun change => (change, place)

/-- `_git`'s bound on what a program prints unless the call gives another. -/
def MAX_GIT_OUTPUT : Nat := 1024 * 1024

/-- Letter, NUL, `<prefix>/<path>`, NUL. -/
def rowBytes (prefixBytes : Nat) (row : Change × Place) : Nat := prefixBytes + row.2.bytes + 4

def diffBytes (prefixBytes : Nat) (old head : Folder) : Nat :=
  ((diffTree old head).map (rowBytes prefixBytes)).sum

/-! ### Catalogs -/

/-- pydantic's JSON text of a catalog and the validation that reads one: empty
    text is no JSON, and there are two schema versions. -/
structure CatalogCodec where
  dump : Catalog → Bytes
  load : Bytes → Option Catalog
  load_nil : load [] = none
  load_version : ∀ value catalog, load value = some catalog → catalog.schemaVersion ≤ 2

def Catalog.encoded (catalogs : CatalogCodec) (catalog : Catalog) : Bytes :=
  catalogs.dump catalog ++ [newline]

def parseCatalog (catalogs : CatalogCodec) (value : Bytes) : Except JournalError Catalog := do
  check (value.length ≤ 4096) .invalidJournalCatalog
  match catalogs.load value with
  | none => throw .invalidJournalCatalog
  | some catalog => return catalog

/-! ### The test of one change -/

/-- The catalog of the head against the one last published. -/
def protectCatalogs (catalogs : CatalogCodec) (before after : Bytes) :
    Except JournalError Unit := do
  let prior ← parseCatalog catalogs before
  let current ← parseCatalog catalogs after
  check (¬ (prior.nameSpace ≠ current.nameSpace ∨ current.records < prior.records ∨
    current.schemaVersion < prior.schemaVersion)) .journalRemoteHistoryChanged

/-- The rest of the loop body: appended to, or moved intact into the archive. -/
def protectContents (head : Folder) (place : Place) (before after : Option Bytes) :
    Except JournalError Unit := do
  match after with
  | some after =>
    check (before.any fun before => before.isPrefixOf after) .journalRemoteHistoryChanged
  | none =>
    let moved ← head.blob place.archived
    -- an intact move may append to an older archive
    check (before.any fun before => moved.any fun moved =>
      before.isPrefixOf moved || decide ((newline :: before) <:+: moved))
      .journalRemoteHistoryChanged

def protectChange (catalogs : CatalogCodec) (old head : Folder) (row : Change × Place) :
    Except JournalError Unit :=
  match row.1 with
  | .added => .ok ()
  | .retyped => .error .journalRemoteHistoryChanged
  | _ => do
    let before ← old.blob row.2
    let after ← head.blob row.2
    if row.2 = catalogPlace ∧ before.any (· ≠ []) ∧ after.any (· ≠ []) then
      protectCatalogs catalogs (before.getD []) (after.getD [])
    else protectContents head row.2 before after

/-- `_protect_previous`, once a commit is recorded and a head was fetched. -/
def Folder.protectPrevious (catalogs : CatalogCodec) (prefixBytes : Nat) (old head : Folder) :
    Except JournalError Unit := do
  check (diffBytes prefixBytes old head ≤ MAX_GIT_OUTPUT) .journalProgramIoFailed
  (diffTree old head).forM (protectChange catalogs old head)

/-! ### What an accepted head keeps -/

section

variable {catalogs : CatalogCodec} {prefixBytes : Nat} {old head : Folder}

theorem mem_diffTree {row : Change × Place} :
    row ∈ diffTree old head ↔ changeOf (old.lookup row.2) (head.lookup row.2) = some row.1 := by
  obtain ⟨change, place⟩ := row
  simp only [diffTree, List.mem_filterMap, Option.map_eq_some_iff, Prod.mk.injEq]
  constructor
  · rintro ⟨p, -, c, hc, rfl, rfl⟩
    exact hc
  · intro hc
    refine ⟨place, ?_, change, hc, rfl, rfl⟩
    rw [List.mem_append, List.mem_filter, decide_eq_true_eq]
    by_cases hold : place ∈ old.keys
    · exact Or.inl hold
    · refine Or.inr ⟨?_, hold⟩
      have hnone : old.lookup place = none := AList.lookup_eq_none.mpr hold
      cases hhead : head.lookup place with
      | none => rw [hnone, hhead] at hc; cases hc
      | some item => exact AList.mem_keys.mp (AList.lookup_isSome.mp (by rw [hhead]; rfl))

theorem protectPrevious_eq_ok {u : Unit} :
    old.protectPrevious catalogs prefixBytes head = .ok u ↔
      diffBytes prefixBytes old head ≤ MAX_GIT_OUTPUT ∧
        ∀ row ∈ diffTree old head, protectChange catalogs old head row = .ok () := by
  simp only [Folder.protectPrevious, bind_eq_ok, check_eq_ok, forM_eq_ok]
  constructor
  · rintro ⟨-, hsize, hrows⟩
    exact ⟨hsize, hrows⟩
  · rintro ⟨hsize, hrows⟩
    exact ⟨(), hsize, hrows⟩

theorem blob_eq_some {place : Place} {content : Bytes} :
    head.blob place = .ok (some content) ↔
      head.lookup place = some ⟨.file, content⟩ ∧ content.length ≤ MAX_FILE_BYTES := by
  unfold Folder.blob
  cases head.lookup place with
  | none => simp
  | some item =>
    obtain ⟨mode, bytes⟩ := item
    simp only [bind_eq_ok, check_eq_ok, pure_eq_ok, Option.some.injEq, Item.mk.injEq]
    constructor
    · rintro ⟨-, hmode, -, hsize, rfl⟩
      exact ⟨⟨hmode, rfl⟩, hsize⟩
    · rintro ⟨⟨hmode, rfl⟩, hsize⟩
      exact ⟨(), hmode, (), hsize, rfl⟩

theorem blob_eq_none {place : Place} :
    head.blob place = .ok none ↔ head.lookup place = none := by
  unfold Folder.blob
  cases head.lookup place with
  | none => simp
  | some item => simp only [bind_eq_ok, pure_eq_ok, reduceCtorEq, and_false, exists_false]

/-- A file as it was, kept at its place or behind an archive. -/
def Held (before moved : Bytes) : Prop := before <+: moved ∨ (newline :: before) <:+: moved

/-- Whole lines survive in a content that holds the file. -/
theorem Held.lines {before moved : Bytes} (h : Held before moved) {line : Bytes}
    (hline : line ∈ completeLines before) : line ∈ completeLines moved := by
  have hgrow : ∀ {a b : Bytes}, a <+: b → line ∈ completeLines a → line ∈ completeLines b := by
    rintro a _ ⟨more, rfl⟩ ha
    obtain ⟨later, hlater⟩ := completeLines_append a more
    rw [hlater]
    exact List.mem_append_left _ ha
  rcases h with hstart | ⟨left, right, rfl⟩
  · exact hgrow hstart hline
  · -- the newline before the file ends the lines of the older archive
    obtain ⟨hbytes, hlines, htail⟩ := splitLines_spec left
    have hfirst : ∀ l ∈ (splitLines left).1 ++ [(splitLines left).2 ++ [newline]], IsLine l := by
      intro l hl
      rcases List.mem_append.mp hl with hl | hl
      · exact hlines l hl
      · rw [List.mem_singleton] at hl
        exact ⟨_, htail, hl⟩
    have hcut : left ++ newline :: before ++ right =
        ((splitLines left).1 ++ [(splitLines left).2 ++ [newline]]).flatten ++ (before ++ right) := by
      rw [List.flatten_append, List.flatten_singleton, ← List.append_assoc (splitLines left).1.flatten,
        hbytes]
      simp
    rw [hcut, completeLines_prefix hfirst]
    exact List.mem_append_right _ (hgrow (List.prefix_append _ _) hline)

/-- **What one accepted change says.** -/
theorem protectChange_outcome {change : Change} {place : Place} {item : Item}
    (hitem : old.lookup place = some item)
    (h : protectChange catalogs old head (change, place) = .ok ())
    (hchange : change ≠ .added) :
    ∃ before, item = ⟨.file, before⟩ ∧
      ((∃ after, head.lookup place = some ⟨.file, after⟩ ∧
        ((place = catalogPlace ∧ before ≠ [] ∧ protectCatalogs catalogs before after = .ok ()) ∨
          ((place = catalogPlace → before = [] ∨ after = []) ∧ before <+: after))) ∨
        (head.lookup place = none ∧ ∃ moved,
          head.lookup place.archived = some ⟨.file, moved⟩ ∧ Held before moved)) := by
  have hbody : ∃ before, old.blob place = .ok before ∧ ∃ after, head.blob place = .ok after ∧
      (if place = catalogPlace ∧ before.any (· ≠ []) ∧ after.any (· ≠ []) then
        protectCatalogs catalogs (before.getD []) (after.getD [])
      else protectContents head place before after) = .ok () := by
    cases change with
    | added => exact absurd rfl hchange
    | retyped => cases h
    | modified => simpa only [protectChange, bind_eq_ok] using h
    | deleted => simpa only [protectChange, bind_eq_ok] using h
  obtain ⟨before, hbefore, after, hafter, hrest⟩ := hbody
  cases before with
  | none => rw [blob_eq_none, hitem] at hbefore; cases hbefore
  | some before =>
    obtain ⟨hold, -⟩ := blob_eq_some.mp hbefore
    rw [hitem, Option.some.injEq] at hold
    refine ⟨before, hold, ?_⟩
    cases after with
    | some after =>
      obtain ⟨hhead, -⟩ := blob_eq_some.mp hafter
      refine Or.inl ⟨after, hhead, ?_⟩
      split at hrest
      · next hcatalog =>
        simp only [Option.any_some, decide_eq_true_eq] at hcatalog
        exact Or.inl ⟨hcatalog.1, hcatalog.2.1, hrest⟩
      · next hcatalog =>
        simp only [Option.any_some, decide_eq_true_eq] at hcatalog
        simp only [protectContents, Option.any_some, check_eq_ok, List.isPrefixOf_iff_prefix] at hrest
        refine Or.inr ⟨fun hplace => ?_, hrest⟩
        by_contra hne
        rw [not_or] at hne
        exact hcatalog ⟨hplace, hne⟩
    | none =>
      rw [if_neg (by simp)] at hrest
      simp only [protectContents, bind_eq_ok, check_eq_ok, Option.any_some] at hrest
      obtain ⟨moved, hmoved, hheld⟩ := hrest
      cases moved with
      | none => simp at hheld
      | some moved =>
        simp only [Option.any_some, Bool.or_eq_true, List.isPrefixOf_iff_prefix,
          decide_eq_true_eq] at hheld
        exact Or.inr ⟨blob_eq_none.mp hafter, moved, (blob_eq_some.mp hmoved).1, hheld⟩

end

/-! ### Soundness -/

/-- A live or archived file of records. -/
def Place.IsJournal (place : Place) : Prop :=
  place.archives ≤ 1 ∧ ∃ relative, place.name = .record relative

/-- The line stands as a whole in some file of the folder. -/
def Folder.HasLine (folder : Folder) (line : Bytes) : Prop :=
  ∃ place item, folder.lookup place = some item ∧ line ∈ completeLines item.content

/-- Every record line of the old journal files is still there. -/
def LinesKept (old head : Folder) : Prop :=
  ∀ place item line, old.lookup place = some item → place.IsJournal →
    line ∈ completeLines item.content → head.HasLine line

/-- The folder has a catalog that reads as this one. -/
def Folder.Catalogued (catalogs : CatalogCodec) (folder : Folder) (catalog : Catalog) : Prop :=
  ∃ item, folder.lookup catalogPlace = some item ∧
    parseCatalog catalogs item.content = .ok catalog

/-- Same namespace, no fewer records, no older layout. -/
def Catalog.Advances (prior current : Catalog) : Prop :=
  prior.nameSpace = current.nameSpace ∧ prior.records ≤ current.records ∧
    prior.schemaVersion ≤ current.schemaVersion

def CatalogKept (catalogs : CatalogCodec) (old head : Folder) : Prop :=
  ∀ prior, old.Catalogued catalogs prior →
    ∃ current, head.Catalogued catalogs current ∧ prior.Advances current

/-- No readable catalog has left its place. -/
def CatalogStays (catalogs : CatalogCodec) (old head : Folder) : Prop :=
  ∀ prior, old.Catalogued catalogs prior → (head.lookup catalogPlace).isSome

section

variable {catalogs : CatalogCodec} {prefixBytes : Nat} {old head : Folder}

theorem kept_or_changed {place : Place} {item : Item} (hitem : old.lookup place = some item) :
    head.lookup place = some item ∨
      ∃ change, change ≠ .added ∧ (change, place) ∈ diffTree old head := by
  cases hhead : head.lookup place with
  | none => exact Or.inr ⟨.deleted, by simp, by simp [mem_diffTree, hitem, hhead, changeOf]⟩
  | some item' =>
    by_cases hsame : item = item'
    · exact Or.inl (by rw [hsame])
    · by_cases htype : item.mode.sameType item'.mode = true
      · exact Or.inr ⟨.modified, by simp,
          by simp [mem_diffTree, hitem, hhead, changeOf, hsame, htype]⟩
      · exact Or.inr ⟨.retyped, by simp,
          by simp [mem_diffTree, hitem, hhead, changeOf, hsame, htype]⟩

theorem parseCatalog_eq_ok {value : Bytes} {catalog : Catalog} :
    parseCatalog catalogs value = .ok catalog ↔
      value.length ≤ 4096 ∧ catalogs.load value = some catalog := by
  simp only [parseCatalog, check_bind_eq_ok]
  cases catalogs.load value with
  | none => simp
  | some c => simp

theorem parseCatalog_ne_nil {value : Bytes} {catalog : Catalog}
    (h : parseCatalog catalogs value = .ok catalog) : value ≠ [] := by
  rintro rfl
  rw [parseCatalog_eq_ok, catalogs.load_nil] at h
  cases h.2

theorem protectCatalogs_eq_ok {before after : Bytes} :
    protectCatalogs catalogs before after = .ok () ↔
      ∃ prior current, parseCatalog catalogs before = .ok prior ∧
        parseCatalog catalogs after = .ok current ∧ prior.Advances current := by
  simp only [protectCatalogs, bind_eq_ok, check_eq_ok, not_or, not_not, Nat.not_lt,
    Catalog.Advances]
  constructor
  · rintro ⟨prior, hprior, current, hcurrent, hadvance⟩
    exact ⟨prior, current, hprior, hcurrent, hadvance⟩
  · rintro ⟨prior, current, hprior, hcurrent, hadvance⟩
    exact ⟨prior, hprior, current, hcurrent, hadvance⟩

theorem protectPrevious_lines (h : old.protectPrevious catalogs prefixBytes head = .ok ()) :
    LinesKept old head := by
  obtain ⟨-, hrows⟩ := protectPrevious_eq_ok.mp h
  intro place item line hitem hjournal hline
  rcases @kept_or_changed old head place item hitem with hkept | ⟨change, hchange, hrow⟩
  · exact ⟨place, item, hkept, hline⟩
  · obtain ⟨before, rfl, hcase⟩ := protectChange_outcome hitem (hrows _ hrow) hchange
    rcases hcase with ⟨after, hafter, ⟨rfl, -⟩ | ⟨-, hstart⟩⟩ | ⟨-, moved, hmoved, hheld⟩
    · obtain ⟨-, relative, hname⟩ := hjournal
      cases hname
    · exact ⟨place, _, hafter, Held.lines (Or.inl hstart) hline⟩
    · exact ⟨place.archived, _, hmoved, hheld.lines hline⟩

/-- **An accepted head keeps the catalog as long as it has one**: only a catalog
    that moved into the archive passes for an intact file. -/
theorem protectPrevious_catalog (h : old.protectPrevious catalogs prefixBytes head = .ok ()) :
    CatalogKept catalogs old head ↔ CatalogStays catalogs old head := by
  obtain ⟨-, hrows⟩ := protectPrevious_eq_ok.mp h
  constructor
  · intro hkept prior hprior
    obtain ⟨current, ⟨item, hitem, -⟩, -⟩ := hkept prior hprior
    rw [hitem]
    rfl
  · rintro hstays prior ⟨item, hitem, hprior⟩
    rcases @kept_or_changed old head catalogPlace item hitem with hkept | ⟨change, hchange, hrow⟩
    · exact ⟨prior, ⟨item, hkept, hprior⟩, rfl, Nat.le_refl _, Nat.le_refl _⟩
    · obtain ⟨before, rfl, hcase⟩ := protectChange_outcome hitem (hrows _ hrow) hchange
      have hne : before ≠ [] := parseCatalog_ne_nil hprior
      rcases hcase with ⟨after, hafter, ⟨-, -, hcatalogs⟩ | ⟨hempty, hstart⟩⟩ | ⟨hgone, -⟩
      · obtain ⟨prior', current, hprior', hcurrent, hadvance⟩ := protectCatalogs_eq_ok.mp hcatalogs
        cases hprior.symm.trans hprior'
        exact ⟨current, ⟨_, hafter, hcurrent⟩, hadvance⟩
      · -- an emptied catalog does not start with the old one
        rcases hempty rfl with hnil | rfl
        · exact absurd hnil hne
        · exact absurd (List.prefix_nil.mp hstart) hne
      · have hsome := hstays prior ⟨_, hitem, hprior⟩
        rw [hgone] at hsome
        cases hsome

end

end Mnemion.Journal
