/-
  Mnemion/JournalVisits.lean
  ==========================
  **From one visit of a publisher to the next.**  A repository is the journal
  folder, whatever it holds, with the notes beside it; a commit is a publication
  or a fold of any publisher that read it.  `history_protection` settles what
  `_protect_previous` promises: what it accepts loses no record line, and what
  commits made of an older head it accepts, as long as Git's listing of the
  changes stays within the bound on a program's output.
-/
import Mnemion.JournalEvolution
import Mathlib.Logic.Relation
import Mathlib.Data.Nat.Digits.Lemmas
import Mathlib.Algebra.Order.BigOperators.Group.List
import Mathlib.Algebra.Group.Action.Defs

namespace Mnemion.Journal

open Outcome ByteLines

/-! ### Repositories -/

def Path.place : Path → Option Place
  | .journal archived relative => some ⟨archived.toNat, .record relative⟩
  | .note _ => none

def Place.path : Place → Option Path
  | ⟨0, .record relative⟩ => some (.journal false relative)
  | ⟨1, .record relative⟩ => some (.journal true relative)
  | _ => none

theorem Place.path_eq_some {place : Place} {path : Path} :
    place.path = some path ↔ path.place = some place := by
  obtain ⟨archives, name⟩ := place
  constructor
  · intro h
    unfold Place.path at h
    split at h <;> cases h <;> simp_all [Path.place]
  · intro h
    cases path with
    | note m => cases h
    | journal archived relative =>
      cases archived <;> cases h <;> rfl

/-- The commit a publisher works on: the folder below the prefix and, outside it,
    the generated notes. -/
structure Repository where
  folder : Folder
  notes : AList fun _ : UUID => Bytes

def journalRow (row : Sigma fun _ : Place => Item) : Option (Sigma fun _ : Path => Bytes) :=
  row.1.path.map fun path => ⟨path, row.2.content⟩

def noteRow (row : Sigma fun _ : UUID => Bytes) : Sigma fun _ : Path => Bytes :=
  ⟨.note row.1, row.2⟩

/-- The files of a journal and its notes in a commit. -/
def Repository.files (repository : Repository) : AList fun _ : Path => Bytes where
  entries := repository.folder.entries.filterMap journalRow ++ repository.notes.entries.map noteRow
  nodupKeys := by
    have hjournal : (repository.folder.entries.filterMap journalRow).map Sigma.fst =
        repository.folder.keys.filterMap Place.path := by
      rw [List.map_filterMap, AList.keys, List.keys, List.filterMap_map]
      congr 1
      funext row
      simp [journalRow, Function.comp_def]
    have hnotes : (repository.notes.entries.map noteRow).map Sigma.fst =
        repository.notes.keys.map Path.note := by
      rw [AList.keys, List.keys, List.map_map, List.map_map]
      rfl
    rw [List.NodupKeys, List.keys, List.map_append, hjournal, hnotes, List.nodup_append]
    refine ⟨repository.folder.keys_nodup.filterMap ?_,
      repository.notes.keys_nodup.map fun a b hab => by cases hab; rfl, ?_⟩
    · intro a a' path ha ha'
      have hplace := Place.path_eq_some.mp ha
      exact Option.some.inj (hplace.symm.trans (Place.path_eq_some.mp ha'))
    · rintro path hpath _ hnote rfl
      obtain ⟨place, -, hplace⟩ := List.mem_filterMap.mp hpath
      obtain ⟨m, -, rfl⟩ := List.mem_map.mp hnote
      rw [Place.path_eq_some] at hplace
      cases hplace

theorem Repository.lookup_files (repository : Repository) (archived : Bool) (relative : Relative) :
    repository.files.lookup (.journal archived relative) =
      (repository.folder.lookup ⟨archived.toNat, .record relative⟩).map Item.content := by
  ext content
  rw [← Option.mem_def, AList.mem_lookup_iff, Option.map_eq_some_iff]
  simp only [Repository.files, List.mem_append, List.mem_filterMap, List.mem_map]
  constructor
  · rintro (⟨⟨place, item⟩, hrow, hpath⟩ | ⟨row, -, hnote⟩)
    · obtain ⟨path, hplace, hsame⟩ := Option.map_eq_some_iff.mp hpath
      cases hsame
      cases Place.path_eq_some.mp hplace
      exact ⟨item, AList.mem_lookup_iff.mpr hrow, rfl⟩
    · cases hnote
  · rintro ⟨item, hitem, rfl⟩
    refine Or.inl ⟨⟨_, item⟩, AList.mem_lookup_iff.mp hitem, ?_⟩
    cases archived <;> rfl

theorem Repository.lookup_files_note (repository : Repository) (m : UUID) :
    repository.files.lookup (.note m) = repository.notes.lookup m := by
  ext content
  rw [← Option.mem_def, AList.mem_lookup_iff, ← Option.mem_def, AList.mem_lookup_iff]
  simp only [Repository.files, List.mem_append, List.mem_filterMap, List.mem_map]
  constructor
  · rintro (⟨⟨place, item⟩, -, hpath⟩ | ⟨row, hrow, hnote⟩)
    · obtain ⟨path, hplace, hsame⟩ := Option.map_eq_some_iff.mp hpath
      cases hsame
      cases Place.path_eq_some.mp hplace
    · cases hnote
      exact hrow
  · intro hrow
    exact Or.inr ⟨_, hrow, rfl⟩

/-- The tree a publisher reads: `_catalog` reads `catalog.json`. -/
def Repository.checkout (catalogs : CatalogCodec) (repository : Repository) :
    Except JournalError Tree := do
  match ← repository.folder.blob catalogPlace with
  | none => return ⟨repository.files, none⟩
  | some value =>
    let catalog ← parseCatalog catalogs value
    return ⟨repository.files, some catalog⟩

/-- The files of a daily series are regular. -/
def Folder.Regular (folder : Folder) (day : Day) (writer : UUID) : Prop :=
  ∀ (archived : Bool) part item,
    folder.lookup ⟨archived.toNat, .record ⟨day, writer, part⟩⟩ = some item → item.mode = .file

/-! ### Commits -/

def Folder.update (catalogs : CatalogCodec) (folder : Folder) : Update → Folder
  | .write (.journal archived relative) content =>
    folder.insert ⟨archived.toNat, .record relative⟩ ⟨.file, content⟩
  | .delete (.journal archived relative) => folder.erase ⟨archived.toNat, .record relative⟩
  | .catalog catalog => folder.insert catalogPlace ⟨.file, catalog.encoded catalogs⟩
  | _ => folder

def updateNotes (notes : AList fun _ : UUID => Bytes) : Update → AList fun _ : UUID => Bytes
  | .write (.note m) content => notes.insert m content
  | .delete (.note m) => notes.erase m
  | _ => notes

def Repository.apply (catalogs : CatalogCodec) (repository : Repository)
    (updates : List Update) : Repository :=
  ⟨updates.foldl (Folder.update catalogs) repository.folder,
    updates.foldl updateNotes repository.notes⟩

/-- A publish or fold commit of any publisher, whatever it published before and
    whatever its delivery index holds.  Both read only regular files. -/
inductive CommitStep (codec : LineCodec) (catalogs : CatalogCodec) (written : Set Catalog) :
    Repository → Repository → Prop
  | publish {repository : Repository} {tree : Tree} {destination : Destination}
      {previous : Option Tree} {entries : List Entry} {index : DeliveryIndex} {metrics : Metrics}
      {state : PublishState} (hcheckout : repository.checkout catalogs = .ok tree)
      (hregular : ∀ e ∈ entries, repository.folder.Regular e.date e.writer)
      (hattempt : publishAttempt codec destination previous (some tree) entries index metrics =
        .ok state)
      (hwritten : ∀ catalog, Update.catalog catalog ∈ state.updates → catalog ∈ written) :
      CommitStep codec catalogs written repository (repository.apply catalogs state.updates)
  | fold {repository : Repository} {tree : Tree} {destination : Destination} {cutoff : Day}
      {updates : List Update} {report : FoldReport}
      (hcheckout : repository.checkout catalogs = .ok tree)
      (hregular : ∀ day writer, repository.folder.Regular day writer)
      (hplan : plan codec destination tree cutoff = .ok (updates, report)) :
      CommitStep codec catalogs written repository (repository.apply catalogs updates)

/-- The catalog's JSON text reads back. -/
def CatalogCodec.Reads (catalogs : CatalogCodec) (catalog : Catalog) : Prop :=
  parseCatalog catalogs (catalog.encoded catalogs) = .ok catalog

/-! ### What a commit leaves at a place -/

section

variable {catalogs : CatalogCodec}

theorem Folder.lookup_update_record (folder : Folder) (u : Update) (archived : Bool)
    (relative : Relative) :
    (u = .delete (.journal archived relative) ∧
        (folder.update catalogs u).lookup ⟨archived.toNat, .record relative⟩ = none) ∨
      (∃ content, u = .write (.journal archived relative) content ∧
        (folder.update catalogs u).lookup ⟨archived.toNat, .record relative⟩ =
          some ⟨.file, content⟩) ∨
      ((∀ content, u ≠ .write (.journal archived relative) content) ∧
        u ≠ .delete (.journal archived relative) ∧
        (folder.update catalogs u).lookup ⟨archived.toNat, .record relative⟩ =
          folder.lookup ⟨archived.toNat, .record relative⟩) := by
  have hother : ∀ (a : Bool) (r : Relative), ¬ (a = archived ∧ r = relative) →
      (⟨archived.toNat, .record relative⟩ : Place) ≠ ⟨a.toNat, .record r⟩ := by
    rintro a r hne heq
    cases a <;> cases archived <;> simp_all [Bool.toNat]
  cases u with
  | catalog c =>
    refine Or.inr (Or.inr ⟨by simp, by simp, AList.lookup_insert_ne ?_⟩)
    simp [catalogPlace]
  | delete path => cases path with
    | note m => exact Or.inr (Or.inr ⟨by simp, by simp, rfl⟩)
    | journal a r =>
      by_cases hsame : a = archived ∧ r = relative
      · obtain ⟨rfl, rfl⟩ := hsame
        exact Or.inl ⟨rfl, AList.lookup_erase _ _⟩
      · refine Or.inr (Or.inr ⟨by simp, ?_, AList.lookup_erase_ne (hother a r hsame)⟩)
        rintro heq
        cases heq
        exact hsame ⟨rfl, rfl⟩
  | write path content => cases path with
    | note m => exact Or.inr (Or.inr ⟨by simp, by simp, rfl⟩)
    | journal a r =>
      by_cases hsame : a = archived ∧ r = relative
      · obtain ⟨rfl, rfl⟩ := hsame
        exact Or.inr (Or.inl ⟨content, rfl, AList.lookup_insert _⟩)
      · refine Or.inr (Or.inr ⟨?_, by simp, AList.lookup_insert_ne (hother a r hsame)⟩)
        rintro content' heq
        cases heq
        exact hsame ⟨rfl, rfl⟩

/-- **A journal path after a commit**: what it held, untouched, or what some
    update of the commit put there. -/
theorem Folder.lookup_apply_record (folder : Folder) (us : List Update) (archived : Bool)
    (relative : Relative) :
    ((us.foldl (Folder.update catalogs) folder).lookup ⟨archived.toNat, .record relative⟩ =
        folder.lookup ⟨archived.toNat, .record relative⟩ ∧
      (∀ content, Update.write (.journal archived relative) content ∉ us) ∧
      Update.delete (.journal archived relative) ∉ us) ∨
    (∃ content, Update.write (.journal archived relative) content ∈ us ∧
      (us.foldl (Folder.update catalogs) folder).lookup ⟨archived.toNat, .record relative⟩ =
        some ⟨.file, content⟩) ∨
    (Update.delete (.journal archived relative) ∈ us ∧
      (us.foldl (Folder.update catalogs) folder).lookup ⟨archived.toNat, .record relative⟩ =
        none) := by
  induction us using List.reverseRecOn with
  | nil => exact Or.inl ⟨rfl, by simp, by simp⟩
  | append_singleton us u ih =>
    rw [List.foldl_concat]
    simp only [List.mem_append, List.mem_singleton]
    rcases (us.foldl (Folder.update catalogs) folder).lookup_update_record u archived relative with
      ⟨rfl, hgone⟩ | ⟨content, rfl, hput⟩ | ⟨hwrite, hdelete, hsame⟩
    · exact Or.inr (Or.inr ⟨Or.inr rfl, hgone⟩)
    · exact Or.inr (Or.inl ⟨content, Or.inr rfl, hput⟩)
    · rw [hsame]
      rcases ih with ⟨hold, hnone, hnodelete⟩ | ⟨content, hmem, hput⟩ | ⟨hmem, hgone⟩
      · exact Or.inl ⟨hold, fun content => not_or.mpr ⟨hnone content, (hwrite content).symm⟩,
          not_or.mpr ⟨hnodelete, hdelete.symm⟩⟩
      · exact Or.inr (Or.inl ⟨content, Or.inl hmem, hput⟩)
      · exact Or.inr (Or.inr ⟨Or.inl hmem, hgone⟩)

theorem Folder.lookup_apply_catalog (folder : Folder) (us : List Update) :
    (us.foldl (Folder.update catalogs) folder).lookup catalogPlace = folder.lookup catalogPlace ∨
      ∃ catalog, Update.catalog catalog ∈ us ∧
        (us.foldl (Folder.update catalogs) folder).lookup catalogPlace =
          some ⟨.file, catalog.encoded catalogs⟩ := by
  induction us using List.reverseRecOn with
  | nil => exact Or.inl rfl
  | append_singleton us u ih =>
    rw [List.foldl_concat]
    have hkeep : ∀ archived relative,
        catalogPlace ≠ ⟨Bool.toNat archived, .record relative⟩ := by simp [catalogPlace]
    have hsame : (∀ c, u ≠ .catalog c) →
        ((us.foldl (Folder.update catalogs) folder).update catalogs u).lookup catalogPlace =
          (us.foldl (Folder.update catalogs) folder).lookup catalogPlace := by
      intro hne
      cases u with
      | catalog c => exact absurd rfl (hne c)
      | delete path => cases path with
        | note m => rfl
        | journal a r => exact AList.lookup_erase_ne (hkeep a r)
      | write path content => cases path with
        | note m => rfl
        | journal a r => exact AList.lookup_insert_ne (hkeep a r)
    by_cases hcatalog : ∃ c, u = .catalog c
    · obtain ⟨c, rfl⟩ := hcatalog
      exact Or.inr ⟨c, by simp, AList.lookup_insert _⟩
    · rw [hsame (not_exists.mp hcatalog)]
      refine ih.imp_right ?_
      rintro ⟨c, hmem, hput⟩
      exact ⟨c, List.mem_append_left _ hmem, hput⟩

theorem Folder.lookup_apply_other (folder : Folder) (us : List Update) {place : Place}
    (hjournal : ¬ place.IsJournal) (hcatalog : place ≠ catalogPlace) :
    (us.foldl (Folder.update catalogs) folder).lookup place = folder.lookup place := by
  have hrecord : ∀ archived relative, place ≠ ⟨Bool.toNat archived, .record relative⟩ := by
    rintro archived relative rfl
    exact hjournal ⟨Bool.toNat_le archived, relative, rfl⟩
  induction us generalizing folder with
  | nil => rfl
  | cons u us ih =>
    rw [List.foldl_cons, ih]
    cases u with
    | catalog c => exact AList.lookup_insert_ne hcatalog
    | delete path => cases path with
      | note m => rfl
      | journal a r => exact AList.lookup_erase_ne (hrecord a r)
    | write path content => cases path with
      | note m => rfl
      | journal a r => exact AList.lookup_insert_ne (hrecord a r)

/-- **A commit changes the files as the publishers' tree has it.** -/
theorem Repository.apply_files (repository : Repository) {tree : Tree}
    (h : ∀ path, repository.files.lookup path = tree.blob path) (us : List Update) (path : Path) :
    (repository.apply catalogs us).files.lookup path = (tree.apply us).blob path := by
  induction us generalizing repository tree with
  | nil => exact h path
  | cons u us ih =>
    refine ih (repository.apply catalogs [u]) fun path' => ?_
    have hold := h path'
    cases path' with
    | note m =>
      rw [Repository.lookup_files_note] at hold ⊢
      show (updateNotes repository.notes u).lookup m = _
      cases u with
      | catalog c => exact hold
      | delete p => cases p with
        | journal a r => rw [Tree.blob_delete, if_neg (by simp)]; exact hold
        | note m' =>
          rw [Tree.blob_delete]
          by_cases hm : m = m'
          · rw [if_pos (by rw [hm]), hm]; exact AList.lookup_erase _ _
          · rw [if_neg (by simpa using hm)]; exact (AList.lookup_erase_ne hm).trans hold
      | write p content => cases p with
        | journal a r => rw [Tree.blob_write, if_neg (by simp)]; exact hold
        | note m' =>
          rw [Tree.blob_write]
          by_cases hm : m = m'
          · rw [if_pos (by rw [hm]), hm]; exact AList.lookup_insert _
          · rw [if_neg (by simpa using hm)]; exact (AList.lookup_insert_ne hm).trans hold
    | journal archived relative =>
      rw [Repository.lookup_files] at hold ⊢
      rcases repository.folder.lookup_update_record u archived relative with
        ⟨rfl, hgone⟩ | ⟨content, rfl, hput⟩ | ⟨hwrite, hdelete, hsame⟩
      · rw [Tree.blob_delete, if_pos rfl]
        exact (congrArg _ hgone).trans rfl
      · rw [Tree.blob_write, if_pos rfl]
        exact (congrArg _ hput).trans rfl
      · refine (congrArg _ hsame).trans (hold.trans ?_)
        cases u with
        | catalog c => rfl
        | delete p =>
          rw [Tree.blob_delete, if_neg]
          rintro rfl
          exact hdelete rfl
        | write p content =>
          rw [Tree.blob_write, if_neg]
          rintro rfl
          exact hwrite content rfl

end

/-! ### Folders that evolved -/

/-- One file of a folder: left as it is, or a pair of regular files that evolved. -/
def PairEvolved (live archive live' archive' : Option Item) : Prop :=
  (live' = live ∧ archive' = archive) ∨
    ∃ l a l' a', live = l.map (Item.mk .file) ∧ archive = a.map (Item.mk .file) ∧
      live' = l'.map (Item.mk .file) ∧ archive' = a'.map (Item.mk .file) ∧ Evolves l a l' a'

def CatalogEvolved (catalogs : CatalogCodec) (before after : Option Item) : Prop :=
  after = before ∨ before = none ∨ ∃ value value' prior current,
    before = some ⟨.file, value⟩ ∧ after = some ⟨.file, value'⟩ ∧
      parseCatalog catalogs value = .ok prior ∧ parseCatalog catalogs value' = .ok current ∧
        prior.Advances current

structure Folder.Evolved (catalogs : CatalogCodec) (folder folder' : Folder) : Prop where
  records : ∀ relative, PairEvolved (folder.lookup ⟨0, .record relative⟩)
    (folder.lookup ⟨1, .record relative⟩) (folder'.lookup ⟨0, .record relative⟩)
    (folder'.lookup ⟨1, .record relative⟩)
  catalog : CatalogEvolved catalogs (folder.lookup catalogPlace) (folder'.lookup catalogPlace)
  others : ∀ place : Place, ¬ place.IsJournal → place ≠ catalogPlace →
    folder'.lookup place = folder.lookup place

section

variable {catalogs : CatalogCodec}

theorem Item.map_file_inj {x y : Option Bytes}
    (h : x.map (Item.mk .file) = y.map (Item.mk .file)) : x = y :=
  Option.map_injective (fun _ _ heq => (Item.mk.inj heq).2) h

theorem PairEvolved.trans {l a l' a' l'' a'' : Option Item} (h : PairEvolved l a l' a')
    (h' : PairEvolved l' a' l'' a'') : PairEvolved l a l'' a'' := by
  rcases h with ⟨rfl, rfl⟩ | ⟨x, y, x', y', rfl, rfl, hl', ha', hevolves⟩
  · exact h'
  · rcases h' with ⟨rfl, rfl⟩ | ⟨u, v, u', v', hu, hv, rfl, rfl, hevolves'⟩
    · exact Or.inr ⟨x, y, x', y', rfl, rfl, hl', ha', hevolves⟩
    · obtain rfl := Item.map_file_inj (hl'.symm.trans hu)
      obtain rfl := Item.map_file_inj (ha'.symm.trans hv)
      exact Or.inr ⟨x, y, u', v', rfl, rfl, rfl, rfl, hevolves.trans hevolves'⟩

theorem Catalog.Advances.trans {a b c : Catalog} (h : a.Advances b) (h' : b.Advances c) :
    a.Advances c :=
  ⟨h.1.trans h'.1, h.2.1.trans h'.2.1, h.2.2.trans h'.2.2⟩

theorem CatalogEvolved.trans {a b c : Option Item} (h : CatalogEvolved catalogs a b)
    (h' : CatalogEvolved catalogs b c) : CatalogEvolved catalogs a c := by
  rcases h with rfl | rfl | ⟨value, value', prior, current, rfl, rfl, hprior, hcurrent, hadvance⟩
  · exact h'
  · exact Or.inr (Or.inl rfl)
  · rcases h' with rfl | hnone | ⟨mid, last, prior', current', hmid, rfl, hprior', hcurrent', hadvance'⟩
    · exact Or.inr (Or.inr ⟨value, value', prior, current, rfl, rfl, hprior, hcurrent, hadvance⟩)
    · cases hnone
    · cases hmid
      cases hcurrent.symm.trans hprior'
      exact Or.inr (Or.inr ⟨value, last, prior, current', rfl, rfl, hprior, hcurrent',
        hadvance.trans hadvance'⟩)

theorem Folder.Evolved.refl (folder : Folder) : folder.Evolved catalogs folder where
  records := fun _ => Or.inl ⟨rfl, rfl⟩
  catalog := Or.inl rfl
  others := fun _ _ _ => rfl

theorem Folder.Evolved.trans {a b c : Folder} (h : a.Evolved catalogs b)
    (h' : b.Evolved catalogs c) : a.Evolved catalogs c where
  records := fun relative => (h.records relative).trans (h'.records relative)
  catalog := h.catalog.trans h'.catalog
  others := fun place hjournal hcatalog =>
    (h'.others place hjournal hcatalog).trans (h.others place hjournal hcatalog)

end

/-! ### Every commit lets the folder evolve -/

section

variable {codec : LineCodec} {catalogs : CatalogCodec} {written : Set Catalog}
  {repository repository' : Repository} {tree : Tree}

theorem checkout_files (h : repository.checkout catalogs = .ok tree) (archived : Bool)
    (relative : Relative) :
    tree.blob (.journal archived relative) =
      (repository.folder.lookup ⟨archived.toNat, .record relative⟩).map Item.content := by
  have hfiles : tree.files = repository.files := by
    simp only [Repository.checkout, bind_eq_ok] at h
    obtain ⟨value, -, h⟩ := h
    cases value with
    | none => exact pure_eq_ok.mp h ▸ rfl
    | some value =>
      obtain ⟨catalog, -, h⟩ := bind_eq_ok.mp h
      exact pure_eq_ok.mp h ▸ rfl
  rw [← repository.lookup_files, ← hfiles]
  rfl

theorem checkout_catalog (h : repository.checkout catalogs = .ok tree) :
    repository.folder.lookup catalogPlace = none ∨ ∃ value prior,
      repository.folder.lookup catalogPlace = some ⟨.file, value⟩ ∧
        parseCatalog catalogs value = .ok prior ∧ tree.catalog = some prior := by
  simp only [Repository.checkout, bind_eq_ok] at h
  obtain ⟨value, hvalue, h⟩ := h
  cases value with
  | none => exact Or.inl (blob_eq_none.mp hvalue)
  | some value =>
    obtain ⟨catalog, hcatalog, h⟩ := bind_eq_ok.mp h
    refine Or.inr ⟨value, catalog, (blob_eq_some.mp hvalue).1, hcatalog, ?_⟩
    exact pure_eq_ok.mp h ▸ rfl

/-- A regular file is its content. -/
theorem Folder.Regular.lookup {day : Day} {writer : UUID}
    (h : repository.folder.Regular day writer) (hcheckout : repository.checkout catalogs = .ok tree)
    (archived : Bool) (part : Nat) :
    repository.folder.lookup ⟨archived.toNat, .record ⟨day, writer, part⟩⟩ =
      (tree.blob (.journal archived ⟨day, writer, part⟩)).map (Item.mk .file) := by
  rw [checkout_files hcheckout]
  cases hitem : repository.folder.lookup ⟨archived.toNat, .record ⟨day, writer, part⟩⟩ with
  | none => rfl
  | some item =>
    have hmode := h archived part item hitem
    obtain ⟨mode, content⟩ := item
    simp only at hmode
    rw [hmode]
    rfl

/-- One path of a file that a publish may write. -/
def Rewritten (tree : Tree) (archived : Bool) (relative : Relative) (after : Option Bytes) : Prop :=
  after = tree.blob (.journal archived relative) ∨
    ∃ content, after = some content ∧ Writable tree archived relative content

theorem Rewritten.grows {archived : Bool} {relative : Relative} {after : Option Bytes}
    (h : Rewritten tree archived relative after) {content : Bytes}
    (hcontent : tree.blob (.journal archived relative) = some content) :
    ∃ content', after = some content' ∧ content <+: content' := by
  rcases h with rfl | ⟨content', rfl, hwritable⟩
  · exact ⟨content, hcontent, List.prefix_refl _⟩
  · rcases hwritable.origin with ⟨before, hbefore, hle⟩ | hfree
    · cases hcontent.symm.trans hbefore
      exact ⟨content', rfl, hle⟩
    · cases (hfree archived).symm.trans hcontent

theorem evolves_of_rewritten {relative : Relative} {l' a' : Option Bytes}
    (hpresent : ∀ b before, tree.blob (.journal b relative) = some before →
      before.length ≤ MAX_FILE_BYTES)
    (hl : Rewritten tree false relative l') (ha : Rewritten tree true relative a') :
    Evolves (tree.blob (.journal false relative)) (tree.blob (.journal true relative)) l' a' where
  fits := by
    have hfits : ∀ {b after content}, Rewritten tree b relative after → after = some content →
        content.length ≤ MAX_FILE_BYTES := by
      rintro b after content (rfl | ⟨c, rfl, hwritable⟩) hafter
      · exact hpresent b content hafter
      · cases hafter
        exact hwritable.fits
    rintro content (hc | hc | hc | hc)
    · exact hpresent _ _ hc
    · exact hpresent _ _ hc
    · exact hfits hl hc
    · exact hfits ha hc
  grows := fun _ hcontent => ha.grows hcontent
  moves := fun _ hcontent => Or.inl (hl.grows hcontent)
  stays := by
    intro hnone hsome
    rcases hl with rfl | ⟨content, rfl, hwritable⟩
    · exact hnone
    · rcases hwritable.origin with ⟨before, hbefore, -⟩ | hfree
      · cases hnone.symm.trans hbefore
      · exact absurd (hfree true) hsome

theorem publish_evolved {us : List Update} {entries : List Entry}
    (hcheckout : repository.checkout catalogs = .ok tree)
    (hregular : ∀ e ∈ entries, repository.folder.Regular e.date e.writer)
    (hpublishes : ∀ u ∈ us, u.Publishes tree entries) (relative : Relative) :
    PairEvolved (repository.folder.lookup ⟨0, .record relative⟩)
      (repository.folder.lookup ⟨1, .record relative⟩)
      ((repository.apply catalogs us).folder.lookup ⟨0, .record relative⟩)
      ((repository.apply catalogs us).folder.lookup ⟨1, .record relative⟩) := by
  have hside : ∀ archived,
      (repository.apply catalogs us).folder.lookup ⟨Bool.toNat archived, .record relative⟩ =
          repository.folder.lookup ⟨archived.toNat, .record relative⟩ ∨
        ∃ content, (repository.apply catalogs us).folder.lookup ⟨archived.toNat, .record relative⟩ =
            some ⟨.file, content⟩ ∧ Writable tree archived relative content ∧
          repository.folder.Regular relative.day relative.writer := by
    intro archived
    rcases repository.folder.lookup_apply_record us archived relative with
      ⟨hsame, -⟩ | ⟨content, hmem, hput⟩ | ⟨hmem, -⟩
    · exact Or.inl hsame
    · obtain ⟨⟨e, he, hday, hwriter⟩, hwritable⟩ := hpublishes _ hmem
      exact Or.inr ⟨content, hput, hwritable, by rw [← hday, ← hwriter]; exact hregular e he⟩
    · exact (hpublishes _ hmem).elim
  -- a path that is written vouches for the whole series
  have htouched : ∀ archived content, Writable tree archived relative content →
      repository.folder.Regular relative.day relative.writer →
      PairEvolved (repository.folder.lookup ⟨0, .record relative⟩)
        (repository.folder.lookup ⟨1, .record relative⟩)
        ((repository.apply catalogs us).folder.lookup ⟨0, .record relative⟩)
        ((repository.apply catalogs us).folder.lookup ⟨1, .record relative⟩) := by
    intro archived content hwritable hseries
    have hold : ∀ b : Bool, repository.folder.lookup ⟨b.toNat, .record relative⟩ =
        (tree.blob (.journal b relative)).map (Item.mk .file) := fun b =>
      hseries.lookup hcheckout b relative.part
    have hnew : ∀ b : Bool, ∃ after,
        (repository.apply catalogs us).folder.lookup ⟨b.toNat, .record relative⟩ =
          after.map (Item.mk .file) ∧ Rewritten tree b relative after := by
      intro b
      rcases hside b with hsame | ⟨c, hput, hwritten, -⟩
      · exact ⟨_, hsame.trans (hold b), Or.inl rfl⟩
      · exact ⟨some c, hput, Or.inr ⟨c, rfl, hwritten⟩⟩
    obtain ⟨l', hl', hlive⟩ := hnew false
    obtain ⟨a', ha', harchive⟩ := hnew true
    exact Or.inr ⟨_, _, l', a', hold false, hold true, hl', ha',
      evolves_of_rewritten hwritable.present hlive harchive⟩
  rcases hside false with hlive | ⟨content, -, hwritable, hseries⟩
  · rcases hside true with harchive | ⟨content, -, hwritable, hseries⟩
    · exact Or.inl ⟨hlive, harchive⟩
    · exact htouched true content hwritable hseries
  · exact htouched false content hwritable hseries

/-- The two paths of a file that a fold moves or leaves. -/
theorem evolves_of_filed {us : List Update} {relative : Relative} {l' a' : Option Bytes}
    (hfiles : ∀ u ∈ us, u.Files tree us)
    (hread : ∀ archived relative content, tree.blob (.journal archived relative) = some content →
      content.length ≤ MAX_FILE_BYTES ∧ (splitLines content).2 = [])
    (hlive : l' = tree.blob (.journal false relative) ∨
      (l' = none ∧ Update.delete (.journal false relative) ∈ us))
    (harchive : (a' = tree.blob (.journal true relative) ∧
        ∀ content, Update.write (.journal true relative) content ∉ us) ∨
      ∃ addition, tree.blob (.journal false relative) = some addition ∧
        a' = some (archivedContent (tree.blob (.journal true relative)) addition) ∧
        (archivedContent (tree.blob (.journal true relative)) addition).length ≤
          MAX_FILE_BYTES) :
    Evolves (tree.blob (.journal false relative)) (tree.blob (.journal true relative)) l' a' := by
  have hcomplete : ∀ before, tree.blob (.journal true relative) = some before →
      (splitLines before).2 = [] := fun before hbefore => (hread true relative before hbefore).2
  refine ⟨?_, ?_, ?_, ?_⟩
  · rintro content (hc | hc | hc | hc)
    · exact (hread _ _ _ hc).1
    · exact (hread _ _ _ hc).1
    · rcases hlive with rfl | ⟨rfl, -⟩
      · exact (hread _ _ _ hc).1
      · cases hc
    · rcases harchive with ⟨rfl, -⟩ | ⟨addition, -, rfl, hfits⟩
      · exact (hread _ _ _ hc).1
      · cases hc
        exact hfits
  · intro content hc
    rcases harchive with ⟨rfl, -⟩ | ⟨addition, -, rfl, -⟩
    · exact ⟨content, hc, List.prefix_refl _⟩
    · exact ⟨_, rfl, by rw [hc]; exact archivedContent_grows addition⟩
  · intro content hc
    rcases hlive with rfl | ⟨rfl, hdeleted⟩
    · exact Or.inl ⟨content, hc, List.prefix_refl _⟩
    · obtain ⟨addition, haddition, hheld⟩ := hfiles _ hdeleted
      cases hc.symm.trans haddition
      refine Or.inr ⟨rfl, ?_⟩
      rcases harchive with ⟨rfl, hnone⟩ | ⟨addition', haddition', rfl, -⟩
      · rcases hheld with ⟨content', hmem⟩ | ⟨before, hbefore, hheld⟩
        · exact absurd hmem (hnone content')
        · exact ⟨before, hbefore, hheld⟩
      · cases hc.symm.trans haddition'
        exact ⟨_, rfl, archivedContent_held content hcomplete⟩
  · intro hnone _
    rcases hlive with rfl | ⟨rfl, -⟩
    · exact hnone
    · rfl

theorem fold_evolved {us : List Update} (hcheckout : repository.checkout catalogs = .ok tree)
    (hregular : ∀ day writer, repository.folder.Regular day writer)
    (hfiles : ∀ u ∈ us, u.Files tree us)
    (hread : ∀ archived relative content, tree.blob (.journal archived relative) = some content →
      content.length ≤ MAX_FILE_BYTES ∧ (splitLines content).2 = []) (relative : Relative) :
    PairEvolved (repository.folder.lookup ⟨0, .record relative⟩)
      (repository.folder.lookup ⟨1, .record relative⟩)
      ((repository.apply catalogs us).folder.lookup ⟨0, .record relative⟩)
      ((repository.apply catalogs us).folder.lookup ⟨1, .record relative⟩) := by
  have hold : ∀ b : Bool, repository.folder.lookup ⟨b.toNat, .record relative⟩ =
      (tree.blob (.journal b relative)).map (Item.mk .file) := fun b =>
    (hregular _ _).lookup hcheckout b relative.part
  have hlive : ∃ l', (repository.apply catalogs us).folder.lookup ⟨0, .record relative⟩ =
      l'.map (Item.mk .file) ∧ (l' = tree.blob (.journal false relative) ∨
        (l' = none ∧ Update.delete (.journal false relative) ∈ us)) := by
    rcases repository.folder.lookup_apply_record us false relative with
      ⟨hsame, -⟩ | ⟨content, hmem, -⟩ | ⟨hmem, hgone⟩
    · exact ⟨_, hsame.trans (hold false), Or.inl rfl⟩
    · exact (hfiles _ hmem).elim
    · exact ⟨none, hgone, Or.inr ⟨rfl, hmem⟩⟩
  have harchive : ∃ a', (repository.apply catalogs us).folder.lookup ⟨1, .record relative⟩ =
      a'.map (Item.mk .file) ∧
        ((a' = tree.blob (.journal true relative) ∧
          ∀ content, Update.write (.journal true relative) content ∉ us) ∨
        ∃ addition, tree.blob (.journal false relative) = some addition ∧
          a' = some (archivedContent (tree.blob (.journal true relative)) addition) ∧
          (archivedContent (tree.blob (.journal true relative)) addition).length ≤
            MAX_FILE_BYTES) := by
    rcases repository.folder.lookup_apply_record us true relative with
      ⟨hsame, hnone, -⟩ | ⟨content, hmem, hput⟩ | ⟨hmem, -⟩
    · exact ⟨_, hsame.trans (hold true), Or.inl ⟨rfl, hnone⟩⟩
    · obtain ⟨hfits, addition, haddition, rfl⟩ := hfiles _ hmem
      exact ⟨some _, hput, Or.inr ⟨addition, haddition, rfl, hfits⟩⟩
    · exact (hfiles _ hmem).elim
  obtain ⟨l', hl', hlive⟩ := hlive
  obtain ⟨a', ha', harchive⟩ := harchive
  exact Or.inr ⟨_, _, l', a', hold false, hold true, hl', ha',
    evolves_of_filed hfiles hread hlive harchive⟩

end

/-! ### What evolved is accepted -/

section

variable {codec : LineCodec} {catalogs : CatalogCodec} {written : Set Catalog}
  {repository repository' : Repository} {tree : Tree}

/-- **One commit.** -/
theorem CommitStep.evolved (hreads : ∀ c ∈ written, catalogs.Reads c)
    (h : CommitStep codec catalogs written repository repository') :
    repository.folder.Evolved catalogs repository'.folder := by
  cases h with
  | @publish tree destination previous entries index metrics state hcheckout hregular hattempt
      hwritten =>
    have hpublishes := publishAttempt_publishes hattempt
    refine ⟨publish_evolved hcheckout hregular hpublishes, ?_, fun place hjournal hcatalog =>
      repository.folder.lookup_apply_other _ hjournal hcatalog⟩
    rcases repository.folder.lookup_apply_catalog state.updates with
      hsame | ⟨current, hmem, hput⟩
    · exact Or.inl hsame
    · rcases checkout_catalog hcheckout with hnone | ⟨value, prior, hvalue, hprior, hcatalog⟩
      · exact Or.inr (Or.inl hnone)
      · refine Or.inr (Or.inr ⟨value, _, prior, current, hvalue, hput, hprior,
          hreads current (hwritten current hmem), ?_⟩)
        exact hpublishes _ hmem prior hcatalog
          (catalogs.load_version _ _ (parseCatalog_eq_ok.mp hprior).2)
  | @fold tree destination cutoff updates report hcheckout hregular hplan =>
    obtain ⟨hfiles, hread⟩ := plan_files hplan
    refine ⟨fold_evolved hcheckout hregular hfiles hread, ?_, fun place hjournal hcatalog =>
      repository.folder.lookup_apply_other _ hjournal hcatalog⟩
    rcases repository.folder.lookup_apply_catalog updates with
      hsame | ⟨current, hmem, -⟩
    · exact Or.inl hsame
    · exact (hfiles _ hmem).elim

/-- **Any number of commits.** -/
theorem commits_evolved (hreads : ∀ c ∈ written, catalogs.Reads c)
    (h : Relation.ReflTransGen (CommitStep codec catalogs written) repository repository') :
    repository.folder.Evolved catalogs repository'.folder := by
  induction h with
  | refl => exact .refl _
  | tail _ hstep ih => exact ih.trans (hstep.evolved hreads)

theorem blob_file {folder : Folder} {place : Place} {content : Bytes}
    (h : folder.lookup place = some ⟨.file, content⟩) (hsize : content.length ≤ MAX_FILE_BYTES) :
    folder.blob place = .ok (some content) :=
  blob_eq_some.mpr ⟨h, hsize⟩

/-- A file that was appended to. -/
theorem protectChange_grown {old head : Folder} {place : Place} {before after : Bytes}
    {change : Change} (hchange : change ≠ .retyped) (hplace : place ≠ catalogPlace)
    (hbefore : old.blob place = .ok (some before)) (hafter : head.blob place = .ok (some after))
    (hgrow : before <+: after) : protectChange catalogs old head (change, place) = .ok () := by
  have hbody : (do
      let before ← old.blob place
      let after ← head.blob place
      if place = catalogPlace ∧ before.any (· ≠ []) ∧ after.any (· ≠ []) then
        protectCatalogs catalogs (before.getD []) (after.getD [])
      else protectContents head place before after : Except JournalError Unit) = .ok () := by
    simp only [bind_eq_ok]
    refine ⟨_, hbefore, _, hafter, ?_⟩
    rw [if_neg (fun h => hplace h.1)]
    simp only [protectContents, Option.any_some, check_eq_ok, List.isPrefixOf_iff_prefix]
    exact hgrow
  cases change with
  | added => rfl
  | retyped => exact absurd rfl hchange
  | modified => exact hbody
  | deleted => exact hbody

/-- A file that moved into the archive. -/
theorem protectChange_moved {old head : Folder} {place : Place} {before moved : Bytes}
    (hbefore : old.blob place = .ok (some before)) (hafter : head.blob place = .ok none)
    (hmoved : head.blob place.archived = .ok (some moved)) (hheld : Held before moved) :
    protectChange catalogs old head (.deleted, place) = .ok () := by
  simp only [protectChange, bind_eq_ok]
  refine ⟨_, hbefore, _, hafter, ?_⟩
  rw [if_neg (by simp)]
  simp only [protectContents, bind_eq_ok, check_eq_ok]
  refine ⟨_, hmoved, ?_⟩
  simp only [Option.any_some, Bool.or_eq_true, List.isPrefixOf_iff_prefix, decide_eq_true_eq]
  exact hheld

/-- A catalog that advanced. -/
theorem protectChange_catalog {old head : Folder} {value value' : Bytes} {prior current : Catalog}
    (hbefore : old.blob catalogPlace = .ok (some value))
    (hafter : head.blob catalogPlace = .ok (some value'))
    (hprior : parseCatalog catalogs value = .ok prior)
    (hcurrent : parseCatalog catalogs value' = .ok current) (hadvance : prior.Advances current) :
    protectChange catalogs old head (.modified, catalogPlace) = .ok () := by
  simp only [protectChange, bind_eq_ok]
  refine ⟨_, hbefore, _, hafter, ?_⟩
  rw [if_pos (by simp [parseCatalog_ne_nil hprior, parseCatalog_ne_nil hcurrent])]
  exact protectCatalogs_eq_ok.mpr ⟨prior, current, hprior, hcurrent, hadvance⟩

/-- The letter of two regular files that differ. -/
theorem changeOf_files {before after : Bytes} {change : Change}
    (h : changeOf (some ⟨.file, before⟩) (some ⟨.file, after⟩) = some change) :
    change = .modified := by
  simp only [changeOf] at h
  split at h
  · cases h
  · rw [if_pos (by rfl)] at h
    exact (Option.some.inj h).symm

theorem protectChange_evolved {old head : Folder} (hevolved : old.Evolved catalogs head)
    {row : Change × Place} (hrow : row ∈ diffTree old head) :
    protectChange catalogs old head row = .ok () := by
  obtain ⟨change, place⟩ := row
  have hletter := mem_diffTree.mp hrow
  dsimp only at hletter
  by_cases hcatalog : place = catalogPlace
  · subst hcatalog
    rcases hevolved.catalog with hsame | hnone |
      ⟨value, value', prior, current, hvalue, hvalue', hprior, hcurrent, hadvance⟩
    · rw [hsame] at hletter
      cases hold : old.lookup catalogPlace <;> simp [hold, changeOf] at hletter
    · rw [hnone] at hletter
      cases hhead : head.lookup catalogPlace with
      | none => rw [hhead] at hletter; cases hletter
      | some item => rw [hhead] at hletter; cases hletter; rfl
    · rw [hvalue, hvalue'] at hletter
      obtain rfl := changeOf_files hletter
      have hsize : ∀ {v c}, parseCatalog catalogs v = .ok c → v.length ≤ MAX_FILE_BYTES := by
        intro v c hv
        exact Nat.le_trans (parseCatalog_eq_ok.mp hv).1 (by decide)
      exact protectChange_catalog (blob_file hvalue (hsize hprior))
        (blob_file hvalue' (hsize hcurrent)) hprior hcurrent hadvance
  · by_cases hjournal : place.IsJournal
    · obtain ⟨harchives, relative, hname⟩ := hjournal
      obtain ⟨archives, name⟩ := place
      dsimp only at harchives hname
      subst hname
      rcases hevolved.records relative with ⟨hlive, harchive⟩ |
        ⟨l, a, l', a', hl, ha, hl', ha', hpair⟩
      · -- nothing changed at this place
        have hsame : head.lookup ⟨archives, .record relative⟩ =
            old.lookup ⟨archives, .record relative⟩ := by
          rcases Nat.le_one_iff_eq_zero_or_eq_one.mp harchives with rfl | rfl
          · exact hlive
          · exact harchive
        rw [hsame] at hletter
        cases hold : old.lookup ⟨archives, .record relative⟩ <;> simp [hold, changeOf] at hletter
      · rcases Nat.le_one_iff_eq_zero_or_eq_one.mp harchives with rfl | rfl
        · cases l with
          | none =>
            cases l' with
            | none => rw [hl, hl'] at hletter; cases hletter
            | some content => rw [hl, hl'] at hletter; cases hletter; rfl
          | some before =>
            have hbefore := blob_file hl (hpair.fits before (Or.inl rfl))
            rcases hpair.moves before rfl with ⟨after, rfl, hgrow⟩ | ⟨rfl, moved, rfl, hheld⟩
            · rw [hl, hl'] at hletter
              obtain rfl := changeOf_files hletter
              exact protectChange_grown (by simp) hcatalog hbefore
                (blob_file hl' (hpair.fits after (Or.inr (Or.inr (Or.inl rfl))))) hgrow
            · rw [hl, hl'] at hletter
              cases hletter
              exact protectChange_moved hbefore (blob_eq_none.mpr hl')
                (blob_file ha' (hpair.fits moved (Or.inr (Or.inr (Or.inr rfl))))) hheld
        · cases a with
          | none =>
            cases a' with
            | none => rw [ha, ha'] at hletter; cases hletter
            | some content => rw [ha, ha'] at hletter; cases hletter; rfl
          | some before =>
            obtain ⟨after, rfl, hgrow⟩ := hpair.grows before rfl
            rw [ha, ha'] at hletter
            obtain rfl := changeOf_files hletter
            exact protectChange_grown (by simp) hcatalog
              (blob_file ha (hpair.fits before (Or.inr (Or.inl rfl))))
              (blob_file ha' (hpair.fits after (Or.inr (Or.inr (Or.inr rfl))))) hgrow
    · rw [hevolved.others place hjournal hcatalog] at hletter
      cases hold : old.lookup place <;> simp [hold, changeOf] at hletter

end

/-! ### Files of many writers

Every writer's first entry of a day is a file of its own, and a listing of many
files is longer than Git may print. -/

section

variable {codec : LineCodec}

theorem inventory_free {head : Option Tree} {day : Day} {writer : UUID} {version : Nat}
    (h : ∀ archived part, (headTree head).blob (.journal archived ⟨day, writer, part⟩) = none) :
    inventory head day writer version = .ok [] := by
  cases head with
  | none => rfl
  | some tree =>
    have hrows : tree.listing.filterMap (seriesRow day writer) = [] := by
      rw [List.filterMap_eq_nil_iff]
      rintro ⟨path, content⟩ hrow
      cases path with
      | note m => rfl
      | journal archived relative =>
        obtain ⟨d, w, part⟩ := relative
        refine if_neg ?_
        rintro ⟨rfl, rfl⟩
        cases (h archived part).symm.trans (Tree.mem_listing.mp hrow)
    simp [inventory, hrows, completeParts, check, pure, Except.pure, bind, Except.bind]

/-- The first entry of a series is published as a file of its own. -/
theorem publishAttempt_first {destination : Destination} {head : Option Tree} {entry : Entry}
    {catalog : Catalog} {line : Bytes} (hline : entry.line codec = .ok line)
    (hcatalog : readCatalog destination head = .ok catalog)
    (hfree : ∀ archived part,
      (headTree head).blob (.journal archived ⟨entry.date, entry.writer, part⟩) = none)
    (hnote : (headTree head).blob (.note entry.memoryId) = none) (hcount : catalog.records < 1000000) :
    ∃ state, publishAttempt codec destination none head [entry] .empty .zero = .ok state ∧
      state.updates = [.write (.journal false ⟨entry.date, entry.writer, 0⟩) line,
        .catalog { catalog with records := catalog.records + 1 }] := by
  have hdigest : entry.digest codec = .ok (codec.sha256 line) := by
    simp [Entry.digest, hline, pure, Except.pure, bind, Except.bind]
  have hsize : line.length ≤ MAX_LINE_BYTES := (line_eq_ok.mp hline).2
  have happend : append codec destination.scope head entry.date entry.writer [entry] .empty
      catalog.schemaVersion = .ok ⟨[.write (.journal false ⟨entry.date, entry.writer, 0⟩) line], 1,
        ⟨0, line.length, 0⟩, .empty⟩ := by
    have hmax : line.length ≤ MAX_FILE_BYTES := Nat.le_trans hsize (by decide)
    have hseries : line.length ≤ MAX_SERIES_BYTES := Nat.le_trans hsize (by decide)
    simp [append, inventory_free hfree, sortAdditions, collectNew, hdigest, hline, DeliveryIndex.empty,
      DeliveryIndex.select, DeliveryIndex.bounded, DeliveryIndex.check, DeliveryIndex.matching,
      DeliveryIndex.currentEvents, writeEntry, WriteState.flush, check, pure, Except.pure, bind,
      Except.bind, hmax, hseries, MAX_SERIES_RECORDS, Nat.not_lt.mpr hmax]
  have hkeys : groupKeys [entry] = [(entry.date, entry.writer)] := by
    simp [groupKeys, Entry.series]
  have hnotes : invalidatedNotes destination head [entry] = .ok [] := by
    simp [invalidatedNotes, newestPerMemory, invalidatedNote, blob, hnote, pure,
      Except.pure, bind, Except.bind]
  refine ⟨⟨[.write (.journal false ⟨entry.date, entry.writer, 0⟩) line,
    .catalog { catalog with records := catalog.records + 1 }], 1, ⟨0, line.length, 0⟩, .empty⟩,
    ?_, rfl⟩
  have hfilter : [entry].filter (fun e => e.series = (entry.date, entry.writer)) = [entry] := by
    simp [Entry.series]
  have hlimit : catalog.records + 1 ≤ 1000000 := hcount
  simp [publishAttempt, protectPrevious, hcatalog, hkeys, hnotes, publishGroup, hfilter, happend,
    Catalog.validated, check, pure, Except.pure, bind, Except.bind, Metrics.add, Metrics.zero, hlimit]

end

/-- Canonical text of a UUID, quoted. -/
@[irreducible] def quotedUuid (value : UUID) : List Char :=
  let digits := (List.range 32).map fun i => Nat.digitChar (value / 16 ^ (31 - i) % 16)
  '"' :: digits.take 8 ++ '-' :: (digits.drop 8).take 4 ++ '-' :: (digits.drop 12).take 4 ++
    '-' :: (digits.drop 16).take 4 ++ '-' :: digits.drop 20 ++ ['"']

theorem quotedUuid_length (value : UUID) : (quotedUuid value).length = 38 := by
  unfold quotedUuid
  generalize hdigits : (List.range 32).map _ = digits
  have hlength : digits.length = 32 := by rw [← hdigits, List.length_map, List.length_range]
  simp [hlength]

def decimal (value : Nat) : Bytes :=
  if value = 0 then [48] else ((Nat.digits 10 value).map fun d => UInt8.ofNat (48 + d)).reverse

def readDecimal (text : Bytes) : Nat :=
  Nat.ofDigits 10 (text.reverse.map fun b => b.toNat - 48)

theorem readDecimal_decimal (value : Nat) : readDecimal (decimal value) = value := by
  unfold readDecimal decimal
  split
  · next hzero => rw [hzero]; rfl
  · rw [List.reverse_reverse, List.map_map]
    have hdigits : (Nat.digits 10 value).map ((fun b : UInt8 => b.toNat - 48) ∘
        fun d => UInt8.ofNat (48 + d)) = Nat.digits 10 value := by
      rw [List.map_congr_left (g := id), List.map_id]
      intro d hd
      have hlt : d < 10 := Nat.digits_lt_base (by decide) hd
      have hbyte : 48 + d < 256 := by omega
      simp [Nat.mod_eq_of_lt hbyte]
    rw [hdigits, Nat.ofDigits_digits]

example : readDecimal (decimal 305) = 305 := by decide +kernel

theorem decimal_length {value : Nat} (h : value ≤ 1000000) : (decimal value).length ≤ 7 := by
  unfold decimal
  split
  · decide
  · rw [List.length_reverse, List.length_map, Nat.digits_length_le_iff (by decide)]
    omega

/-- The JSON text of a catalog up to its count. -/
def catalogHead (version : Nat) (tenantId spaceId : UUID) : Bytes :=
  ("\x7b\"format\":\"mnemion-memory".toList ++ "-journal-catalog\",".toList ++
    "\"schema_version\":".toList).flatMap String.utf8EncodeChar ++ decimal version ++
  (",\"tenant_id\":".toList ++ quotedUuid tenantId ++ ",\"space_id\":".toList ++ quotedUuid spaceId ++
    ",\"records\":".toList).flatMap String.utf8EncodeChar

def catalogText (catalog : Catalog) : Bytes :=
  catalogHead catalog.schemaVersion catalog.tenantId catalog.spaceId ++ decimal catalog.records ++
    [125]

/-- Reads the catalogs of one namespace that has no continuations. -/
def sampleCatalogs : CatalogCodec where
  dump := catalogText
  load value :=
    let records := readDecimal ((value.drop (catalogHead 1 2 3).length).dropLast.dropLast)
    if records ≤ 1000000 ∧ catalogText ⟨1, 2, 3, records⟩ ++ [newline] = value then
      some ⟨1, 2, 3, records⟩
    else none
  load_nil := by
    rw [if_neg]
    rintro ⟨-, h⟩
    simp at h
  load_version value catalog h := by
    dsimp only at h
    split at h
    · cases h
      exact Nat.le_succ 1
    · cases h

theorem sampleCatalogs_reads {records : Nat} (h : records ≤ 1000000) :
    sampleCatalogs.Reads ⟨1, 2, 3, records⟩ := by
  have hhead : (catalogHead 1 2 3).length = 173 := by decide +kernel
  have hlength := decimal_length h
  refine parseCatalog_eq_ok.mpr ⟨?_, ?_⟩
  · simp only [Catalog.encoded, sampleCatalogs, catalogText, List.length_append, hhead,
      List.length_cons, List.length_nil]
    omega
  · have hmiddle : ((((catalogHead 1 2 3 ++ decimal records ++ [125]) ++ [newline]).drop
        (catalogHead 1 2 3).length).dropLast).dropLast = decimal records := by
      rw [List.append_assoc, List.append_assoc, List.drop_left, ← List.append_assoc,
        List.dropLast_concat, List.dropLast_concat]
    simp only [Catalog.encoded, sampleCatalogs, catalogText, hmiddle, readDecimal_decimal]
    simp [h]

/-- The first record of one more device. -/
def visitor (k : Nat) : Entry := { sampleEntry with id := k, writer := k, memoryId := k }

/-- Its JSON text. -/
@[irreducible] def visitorText (k : Nat) : List Char :=
  "\x7b\"action\":\"upsert\",".toList ++ "\"format\":".toList ++
    "\"mnemion-memory-journal\",".toList ++ "\"id\":".toList ++ quotedUuid k ++
    ",\"important\":false,".toList ++ "\"kind\":\"note\",".toList ++ "\"memory_id\":".toList ++
    quotedUuid k ++ ",\"metadata\":\x7b\x7d,".toList ++ "\"schema_version\":1,".toList ++
    "\"space_id\":".toList ++ quotedUuid 3 ++ ",\"subject\":null,".toList ++
    "\"tenant_id\":".toList ++ quotedUuid 2 ++ ",\"text\":\"hello\",".toList ++
    "\"ts\":\"2024-01-01".toList ++ "T00:00:00Z\",".toList ++ "\"version\":1,".toList ++
    "\"writer\":".toList ++ quotedUuid k ++ ['\x7d']

def visitorLine (k : Nat) : Bytes := (visitorText k).flatMap String.utf8EncodeChar ++ [newline]

/-- The codec on the records of a hundred thousand devices; equal digests mean
    equal lines. -/
def visitorCodec : LineCodec where
  dump entry := (visitorText entry.writer).flatMap String.utf8EncodeChar
  load value := ((List.range 100000).find? fun k => visitorLine k = value).map visitor
  sha256 value := value

@[simp] theorem visitor_writer (k : Nat) : (visitor k).writer = k := rfl

theorem visitor_line (k : Nat) : (visitor k).line visitorCodec = .ok (visitorLine k) := by
  refine line_eq_ok.mpr ⟨by simp only [visitorLine, visitorCodec, visitor_writer], ?_⟩
  have hbytes : ∀ text : List Char,
      (text.flatMap String.utf8EncodeChar).length ≤ 4 * text.length := by
    intro text
    induction text with
    | nil => simp
    | cons c text ih =>
      have hc := c.utf8Size_le_four
      simp only [List.flatMap_cons, List.length_append, String.length_utf8EncodeChar,
        List.length_cons]
      omega
  have htext : (visitorText k).length ≤ 600 := by
    unfold visitorText
    simp only [List.length_append, quotedUuid_length]
    decide +kernel
  have := hbytes (visitorText k)
  rw [visitorLine, List.length_append, List.length_singleton]
  unfold MAX_LINE_BYTES
  omega

def visitDay : Day := 738886

theorem visitor_date (k : Nat) : (visitor k).date = visitDay := by
  show 738886 * MICROSECONDS_PER_DAY / MICROSECONDS_PER_DAY = visitDay
  exact Nat.mul_div_cancel _ (by decide)

/-- The repository after the first records of `k` devices, one commit each. -/
def crowd : Nat → Repository
  | 0 => ⟨∅, ∅⟩
  | k + 1 => (crowd k).apply sampleCatalogs
      [.write (.journal false ⟨visitDay, k, 0⟩) (visitorLine k), .catalog ⟨1, 2, 3, k + 1⟩]

theorem crowd_record (k : Nat) (archived : Bool) (relative : Relative) :
    (crowd k).folder.lookup ⟨archived.toNat, .record relative⟩ =
      if archived = false ∧ relative.day = visitDay ∧ relative.part = 0 ∧ relative.writer < k then
        some ⟨.file, visitorLine relative.writer⟩ else none := by
  induction k with
  | zero =>
    rw [if_neg (by simp)]
    exact AList.lookup_empty _
  | succ k ih =>
    obtain ⟨day, writer, part⟩ := relative
    rcases (crowd k).folder.lookup_apply_record
      [.write (.journal false ⟨visitDay, k, 0⟩) (visitorLine k), .catalog ⟨1, 2, 3, k + 1⟩]
      archived ⟨day, writer, part⟩ with ⟨hsame, hnone, -⟩ | ⟨content, hmem, hput⟩ | ⟨hmem, -⟩
    · refine hsame.trans (ih.trans ?_)
      dsimp only
      congr 1
      simp only [eq_iff_iff]
      constructor
      · rintro ⟨ha, hd, hp, hw⟩
        exact ⟨ha, hd, hp, Nat.lt_succ_of_lt hw⟩
      · rintro ⟨rfl, rfl, rfl, hw⟩
        refine ⟨rfl, rfl, rfl, Nat.lt_of_le_of_ne (Nat.le_of_lt_succ hw) ?_⟩
        rintro rfl
        exact hnone _ List.mem_cons_self
    · simp only [List.mem_cons, Update.write.injEq, Path.journal.injEq, Relative.mk.injEq,
        reduceCtorEq, List.not_mem_nil, or_false] at hmem
      obtain ⟨⟨rfl, rfl, rfl, rfl⟩, rfl⟩ := hmem
      rw [if_pos ⟨rfl, rfl, rfl, Nat.lt_succ_self _⟩]
      exact hput
    · simp at hmem

theorem crowd_catalog (k : Nat) :
    (crowd k).folder.lookup catalogPlace = if k = 0 then none else
      some ⟨.file, Catalog.encoded sampleCatalogs ⟨1, 2, 3, k⟩⟩ := by
  cases k with
  | zero => exact AList.lookup_empty _
  | succ k => exact AList.lookup_insert _

theorem crowd_notes (k : Nat) : (crowd k).notes = ∅ := by
  induction k with
  | zero => rfl
  | succ k ih => exact ih

theorem crowd_free_note (k : Nat) : (crowd k).files.lookup (.note k) = none := by
  rw [Repository.lookup_files_note, crowd_notes]
  exact AList.lookup_empty _

/-- What a publisher reads of the crowd. -/
theorem crowd_checkout {k : Nat} (h : k ≤ 1000000) :
    (crowd k).checkout sampleCatalogs =
      .ok ⟨(crowd k).files, if k = 0 then none else some ⟨1, 2, 3, k⟩⟩ := by
  have hreads := sampleCatalogs_reads h
  have hblob : (crowd k).folder.blob catalogPlace = .ok (if k = 0 then none else
      some (Catalog.encoded sampleCatalogs ⟨1, 2, 3, k⟩)) := by
    split
    · next hk => exact blob_eq_none.mpr (by rw [crowd_catalog, if_pos hk])
    · next hk =>
      exact blob_file (by rw [crowd_catalog, if_neg hk])
        (Nat.le_trans (parseCatalog_eq_ok.mp hreads).1 (by decide))
  rw [Repository.checkout, hblob]
  by_cases hk : k = 0
  · rw [if_pos hk, if_pos hk]
    rfl
  · rw [if_neg hk, if_neg hk]
    have hread : parseCatalog sampleCatalogs (Catalog.encoded sampleCatalogs ⟨1, 2, 3, k⟩) = .ok ⟨1, 2, 3, k⟩ :=
      hreads
    simp [bind, Except.bind, hread, pure, Except.pure]

/-- One more device publishes its first record. -/
theorem crowd_step {k : Nat} (h : k < 1000000) :
    CommitStep visitorCodec sampleCatalogs {c | sampleCatalogs.Reads c} (crowd k) (crowd (k + 1)) := by
  have hfree : ∀ archived part, (crowd k).files.lookup
      (.journal archived ⟨(visitor k).date, (visitor k).writer, part⟩) = none := by
    intro archived part
    rw [Repository.lookup_files, crowd_record, if_neg]
    · rfl
    · rintro ⟨-, -, -, hlt⟩
      exact Nat.lt_irrefl _ hlt
  have hcatalog : readCatalog sampleDestination
      (some ⟨(crowd k).files, if k = 0 then none else some ⟨1, 2, 3, k⟩⟩) = .ok ⟨1, 2, 3, k⟩ := by
    by_cases hk : k = 0
    · subst hk
      have hnone : ¬ (⟨(crowd 0).files, none⟩ : Tree).hasJournal := by
        rintro ⟨⟨path, content⟩, hrow, archived, relative, rfl⟩
        have hblob : (crowd 0).files.lookup (.journal archived relative) = some content :=
          Tree.mem_listing.mp hrow
        rw [Repository.lookup_files, crowd_record, if_neg (by simp)] at hblob
        cases hblob
      simp [readCatalog, headTree, hnone, sampleDestination, check, bind, Except.bind, pure,
        Except.pure]
    · simp [readCatalog, headTree, if_neg hk, sampleDestination, check, bind, Except.bind, pure,
        Except.pure]
  obtain ⟨state, hstate, hupdates⟩ := publishAttempt_first (visitor_line k) hcatalog hfree
    (crowd_free_note k) h
  have hcommit : CommitStep visitorCodec sampleCatalogs {c | sampleCatalogs.Reads c} (crowd k) _ :=
    CommitStep.publish (crowd_checkout (Nat.le_of_lt h)) ?_ hstate ?_
  · rw [hupdates, visitor_date] at hcommit
    exact hcommit
  · intro e he archived part item hitem
    rw [List.mem_singleton] at he
    subst he
    rw [crowd_record] at hitem
    split at hitem
    · exact (Option.some.inj hitem) ▸ rfl
    · cases hitem
  · intro catalog hmem
    rw [hupdates] at hmem
    simp at hmem
    subst hmem
    exact sampleCatalogs_reads h

theorem crowd_commits {k : Nat} (h : k ≤ 1000000) :
    Relation.ReflTransGen (CommitStep visitorCodec sampleCatalogs {c | sampleCatalogs.Reads c})
      (crowd 0) (crowd k) := by
  induction k with
  | zero => exact .refl
  | succ k ih => exact (ih (Nat.le_of_succ_le h)).tail (crowd_step h)

theorem crowd_diffBytes (prefixBytes k : Nat) :
    (prefixBytes + 4) * k ≤ diffBytes prefixBytes (crowd 0).folder (crowd k).folder := by
  have hrow : ∀ j < k, (Change.added, (⟨0, .record ⟨visitDay, j, 0⟩⟩ : Place)) ∈
      diffTree (crowd 0).folder (crowd k).folder := by
    intro j hj
    have hold := crowd_record 0 false ⟨visitDay, j, 0⟩
    have hnew := crowd_record k false ⟨visitDay, j, 0⟩
    rw [if_neg (by simp)] at hold
    rw [if_pos ⟨rfl, rfl, rfl, hj⟩] at hnew
    rw [mem_diffTree]
    exact (congrArg₂ changeOf hold hnew).trans rfl
  have hlength : k ≤ (diffTree (crowd 0).folder (crowd k).folder).length := by
    have hnodup : ((List.range k).map fun j =>
        (Change.added, (⟨0, .record ⟨visitDay, j, 0⟩⟩ : Place))).Nodup :=
      List.nodup_range.map fun a b hab => by cases hab; rfl
    have hsub : List.Subperm _ (diffTree (crowd 0).folder (crowd k).folder) :=
        hnodup.subperm fun row hmem => by
      obtain ⟨j, hj, rfl⟩ := List.mem_map.mp hmem
      exact hrow j (List.mem_range.mp hj)
    simpa using hsub.length_le
  unfold diffBytes
  have hsum := List.card_nsmul_le_sum
    ((diffTree (crowd 0).folder (crowd k).folder).map (rowBytes prefixBytes)) (prefixBytes + 4) ?_
  · rw [List.length_map, smul_eq_mul] at hsum
    calc (prefixBytes + 4) * k ≤ (prefixBytes + 4) * _ := Nat.mul_le_mul_left _ hlength
      _ = _ * (prefixBytes + 4) := Nat.mul_comm _ _
      _ ≤ _ := hsum
  · intro n hn
    obtain ⟨row, -, rfl⟩ := List.mem_map.mp hn
    unfold rowBytes
    omega

/-- What an accepted head should keep, and which heads should be accepted. -/
def ProtectionSound (catalogs : CatalogCodec) (prefixBytes : Nat) : Prop :=
  ∀ old head : Folder, old.protectPrevious catalogs prefixBytes head = .ok () →
    LinesKept old head ∧ CatalogKept catalogs old head

def ProtectionComplete (codec : LineCodec) (catalogs : CatalogCodec) (written : Set Catalog)
    (prefixBytes : Nat) : Prop :=
  ∀ old head : Repository, Relation.ReflTransGen (CommitStep codec catalogs written) old head →
    old.folder.protectPrevious catalogs prefixBytes head.folder = .ok ()

/-- **History protection.**  An accepted head keeps every record line, and keeps
    the catalog unless that left its place; a head that commits made is accepted
    exactly when Git may list its changes. -/
theorem history_protection {codec : LineCodec} {catalogs : CatalogCodec} {written : Set Catalog}
    (hreads : ∀ c ∈ written, catalogs.Reads c) (prefixBytes : Nat) :
    (∀ old head : Folder, old.protectPrevious catalogs prefixBytes head = .ok () →
      LinesKept old head ∧ (CatalogKept catalogs old head ↔ CatalogStays catalogs old head)) ∧
    ∀ old head : Repository, Relation.ReflTransGen (CommitStep codec catalogs written) old head →
      (old.folder.protectPrevious catalogs prefixBytes head.folder = .ok () ↔
        diffBytes prefixBytes old.folder head.folder ≤ MAX_GIT_OUTPUT) := by
  refine ⟨fun old head h => ⟨protectPrevious_lines h, protectPrevious_catalog h⟩, ?_⟩
  intro old head hcommits
  rw [protectPrevious_eq_ok]
  constructor
  · exact fun h => h.1
  · intro hsize
    exact ⟨hsize, fun row hrow => protectChange_evolved (commits_evolved hreads hcommits) hrow⟩

theorem history_protection_crowd :
    (crowd 1).folder.protectPrevious sampleCatalogs 13 (crowd 2).folder = .ok () :=
  ((@history_protection visitorCodec sampleCatalogs {c | sampleCatalogs.Reads c}
    (fun _ h => h) 13).2 (crowd 1) (crowd 2) (.single (crowd_step (by decide)))).mpr (by decide +kernel)

/-- Nothing but a catalog, and the same catalog below `_archive`. -/
def cataloguedFolder : Folder :=
  (∅ : Folder).insert catalogPlace ⟨.file, Catalog.encoded sampleCatalogs ⟨1, 2, 3, 1⟩⟩

def shelvedFolder : Folder :=
  (∅ : Folder).insert catalogPlace.archived ⟨.file, Catalog.encoded sampleCatalogs ⟨1, 2, 3, 1⟩⟩

/-- A catalog that was moved away is accepted; the files of seventy thousand
    devices, published one by one, are not. -/
theorem history_protection_fails :
    ¬ ProtectionSound sampleCatalogs 13 ∧
      ¬ ProtectionComplete visitorCodec sampleCatalogs {c | sampleCatalogs.Reads c} 13 := by
  constructor
  · intro hsound
    have haccepted : cataloguedFolder.protectPrevious sampleCatalogs 13 shelvedFolder = .ok () := by
      decide +kernel
    obtain ⟨-, hcatalog⟩ := hsound _ _ haccepted
    obtain ⟨current, ⟨item, hitem, -⟩, -⟩ := hcatalog ⟨1, 2, 3, 1⟩
      ⟨_, AList.lookup_insert _, sampleCatalogs_reads (by decide)⟩
    rw [shelvedFolder, AList.lookup_insert_ne (by decide), AList.lookup_empty] at hitem
    cases hitem
  · intro hcomplete
    have haccepted := hcomplete _ _ (@crowd_commits 70000 (by decide))
    have hsize := (protectPrevious_eq_ok.mp haccepted).1
    have hlong := crowd_diffBytes 13 70000
    unfold MAX_GIT_OUTPUT at hsize
    omega

end Mnemion.Journal
