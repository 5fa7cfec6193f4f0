/-
  Mnemion/JournalEvolution.lean
  =============================
  **How an honest journal changes between two visits.**  A publish commit appends
  to the tail of a series or starts its next part; a fold commit moves a live
  file to its archive path, behind what the archive already holds.  `Evolves` is
  what either does to the two paths of one file; it composes, so it holds over
  any number of commits, and `_protect_previous` accepts whatever evolved.

  The head may be any folder, also one that keeps a live and an archived copy of
  one file: nothing here asks that it represents published entries.
-/
import Mnemion.JournalProtection
import Mnemion.JournalHistory

namespace Mnemion.Journal

open Outcome ByteLines

/-! ### The two paths of one file -/

/-- Contents of the live and the archive path before and after. -/
structure Evolves (live archive live' archive' : Option Bytes) : Prop where
  /-- all of them can be read -/
  fits : ∀ content, live = some content ∨ archive = some content ∨ live' = some content ∨
    archive' = some content → content.length ≤ MAX_FILE_BYTES
  /-- the archive only grows -/
  grows : ∀ content, archive = some content →
    ∃ content', archive' = some content' ∧ content <+: content'
  /-- the live file grows or moves into the archive -/
  moves : ∀ content, live = some content →
    (∃ content', live' = some content' ∧ content <+: content') ∨
      (live' = none ∧ ∃ moved, archive' = some moved ∧ Held content moved)
  /-- no live file appears beside an archived one -/
  stays : live = none → archive ≠ none → live' = none

theorem Held.grow {before moved moved' : Bytes} (h : Held before moved) (hgrow : moved <+: moved') :
    Held before moved' := by
  obtain ⟨more, rfl⟩ := hgrow
  rcases h with hstart | hinside
  · exact Or.inl (hstart.trans (List.prefix_append _ _))
  · exact Or.inr (hinside.trans (List.prefix_append _ _).isInfix)

theorem Held.shrink {before before' moved : Bytes} (hgrow : before <+: before')
    (h : Held before' moved) : Held before moved := by
  rcases h with hstart | hinside
  · exact Or.inl (hgrow.trans hstart)
  · have hcons : newline :: before <+: newline :: before' := (List.prefix_cons_inj _).mpr hgrow
    exact Or.inr (hcons.isInfix.trans hinside)

theorem Evolves.trans {l a l' a' l'' a'' : Option Bytes} (h : Evolves l a l' a')
    (h' : Evolves l' a' l'' a'') : Evolves l a l'' a'' where
  fits := by
    rintro content (hc | hc | hc | hc)
    · exact h.fits content (Or.inl hc)
    · exact h.fits content (Or.inr (Or.inl hc))
    · exact h'.fits content (Or.inr (Or.inr (Or.inl hc)))
    · exact h'.fits content (Or.inr (Or.inr (Or.inr hc)))
  grows := by
    intro content hc
    obtain ⟨mid, hmid, hle⟩ := h.grows content hc
    obtain ⟨last, hlast, hle'⟩ := h'.grows mid hmid
    exact ⟨last, hlast, hle.trans hle'⟩
  moves := by
    intro content hc
    rcases h.moves content hc with ⟨mid, hmid, hle⟩ | ⟨hgone, moved, hmoved, hheld⟩
    · rcases h'.moves mid hmid with ⟨last, hlast, hle'⟩ | ⟨hgone, moved, hmoved, hheld⟩
      · exact Or.inl ⟨last, hlast, hle.trans hle'⟩
      · exact Or.inr ⟨hgone, moved, hmoved, hheld.shrink hle⟩
    · obtain ⟨last, hlast, hle⟩ := h'.grows moved hmoved
      exact Or.inr ⟨h'.stays hgone (by rw [hmoved]; simp), last, hlast, hheld.grow hle⟩
  stays := by
    intro hl ha
    obtain ⟨content, hcontent⟩ := Option.ne_none_iff_exists'.mp ha
    obtain ⟨mid, hmid, -⟩ := h.grows content hcontent
    exact h'.stays (h.stays hl ha) (by rw [hmid]; simp)

/-! ### Appending to a series -/

/-- What a publish commit may write at a path: more of the file that is there,
    or a file that is in neither folder. -/
structure Writable (tree : Tree) (archived : Bool) (relative : Relative) (content : Bytes) :
    Prop where
  fits : content.length ≤ MAX_FILE_BYTES
  present : ∀ b before, tree.blob (.journal b relative) = some before →
    before.length ≤ MAX_FILE_BYTES
  origin : (∃ before, tree.blob (.journal archived relative) = some before ∧ before <+: content) ∨
    ∀ b, tree.blob (.journal b relative) = none

/-- The updates of one series that keep its files. -/
def Update.Appends (tree : Tree) (day : Day) (writer : UUID) : Update → Prop
  | .write (.journal archived relative) content =>
    relative.day = day ∧ relative.writer = writer ∧ Writable tree archived relative content
  | _ => False

theorem inventory_size {head : Option Tree} {day : Day} {writer : UUID} {version : Nat}
    {segments : List Segment} (h : inventory head day writer version = .ok segments) :
    ∀ segment ∈ segments, segment.oid.length ≤ MAX_FILE_BYTES := by
  cases head with
  | none =>
    simp only [inventory, Except.ok.injEq] at h
    simp [← h]
  | some tree =>
    simp only [inventory, bind_eq_ok, pure_eq_ok] at h
    obtain ⟨⟨result, total⟩, hfold, -, -, -, -, rfl⟩ := h
    have hsizes := foldlM_invariant
      (fun state : List Segment × Nat => ∀ s ∈ state.1, s.oid.length ≤ MAX_FILE_BYTES) ?_
      (by simp) hfold
    · intro segment hsegment
      exact hsizes segment (List.mem_mergeSort.mp hsegment)
    · intro state row state' _ hstate hstep segment hsegment
      simp only [inventoryRow, bind_eq_ok, check_eq_ok, pure_eq_ok] at hstep
      obtain ⟨-, -, -, hsize, -, -, rfl⟩ := hstep
      rcases List.mem_append.mp hsegment with hold | hnew
      · exact hstate segment hold
      · rw [List.mem_singleton] at hnew
        rw [hnew]
        exact hsize

/-- The writing loop over any tree: the open file is writable, no later part
    exists, and so is everything flushed. -/
structure Filling (tree : Tree) (day : Day) (writer : UUID) (state : WriteState) : Prop where
  target : ∃ archived, state.target = .journal archived ⟨day, writer, state.part⟩ ∧
    Writable tree archived ⟨day, writer, state.part⟩ state.data
  later : ∀ b part, state.part < part → tree.blob (.journal b ⟨day, writer, part⟩) = none
  updates : ∀ u ∈ state.updates, u.Appends tree day writer

section

variable {codec : LineCodec} {tree : Tree} {day : Day} {writer : UUID}

theorem Filling.flush {state : WriteState} (h : Filling tree day writer state) :
    Filling tree day writer state.flush := by
  unfold WriteState.flush
  split
  · refine ⟨h.target, h.later, ?_⟩
    intro u hu
    rcases List.mem_append.mp hu with hu | hu
    · exact h.updates u hu
    · obtain ⟨archived, htarget, hwritable⟩ := h.target
      rw [List.mem_singleton] at hu
      rw [hu, htarget]
      exact ⟨rfl, rfl, hwritable⟩
  · exact h

theorem Filling.step {archived : Bool} {state state' : WriteState} {entry : Entry}
    (h : Filling tree day writer state) (hwriter : entry.writer = writer)
    (hstep : writeEntry codec archived day state entry = .ok state') :
    Filling tree day writer state' := by
  simp only [writeEntry, bind_eq_ok, check_eq_ok] at hstep
  obtain ⟨line, -, -, hline, hstep⟩ := hstep
  split at hstep
  · -- the next part has no file in either folder
    simp only [bind_eq_ok, check_eq_ok, pure_eq_ok] at hstep
    obtain ⟨-, -, rfl⟩ := hstep
    have hpart : state.flush.part = state.part := by unfold WriteState.flush; split <;> rfl
    have hnew : ∀ b, tree.blob (.journal b ⟨day, writer, state.flush.part + 1⟩) = none :=
      fun b => h.later b _ (by rw [hpart]; exact Nat.lt_succ_self _)
    refine ⟨⟨archived, by rw [hwriter], ⟨hline, ?_, Or.inr hnew⟩⟩, ?_, h.flush.updates⟩
    · intro b before hbefore
      rw [hnew b] at hbefore
      cases hbefore
    · intro b part hlt
      exact h.later b part (by rw [← hpart]; exact Nat.lt_of_succ_lt hlt)
  · next hroom =>
    simp only [pure_eq_ok] at hstep
    subst hstep
    obtain ⟨a, htarget, hwritable⟩ := h.target
    refine ⟨⟨a, htarget, ?_, hwritable.present, ?_⟩, h.later, h.updates⟩
    · rw [List.length_append]
      exact Nat.not_lt.mp hroom
    · rcases hwritable.origin with ⟨before, hbefore, hle⟩ | hfree
      · exact Or.inl ⟨before, hbefore, hle.trans (List.prefix_append _ _)⟩
      · exact Or.inr hfree

/-- The entries to write are among the additions. -/
theorem collectNew_subset {index : DeliveryIndex} {entries : List Entry} {state : NewState}
    (h : entries.foldlM (collectNew codec index) ⟨[], [], []⟩ = .ok state) :
    ∀ e ∈ state.new, e ∈ entries := by
  refine foldlM_invariant (fun state : NewState => ∀ e ∈ state.new, e ∈ entries) ?_ (by simp) h
  intro state entry state' hentry hstate hstep
  simp only [collectNew, bind_eq_ok] at hstep
  obtain ⟨digest, -, hstep⟩ := hstep
  split at hstep
  · simp only [bind_eq_ok, pure_eq_ok] at hstep
    obtain ⟨-, -, rfl⟩ := hstep
    exact hstate
  · simp only [bind_eq_ok, pure_eq_ok] at hstep
    obtain ⟨-, -, present, -, rfl⟩ := hstep
    intro e he
    dsimp only at he
    split at he
    · exact hstate e he
    · rcases List.mem_append.mp he with he | he
      · exact hstate e he
      · rw [List.mem_singleton] at he
        exact he ▸ hentry

/-- **`append` keeps every file of any tree.** -/
theorem append_appends {scope : Entry → Except JournalError Unit} {head : Option Tree}
    {additions : List Entry} {index : DeliveryIndex} {version : Nat} {out : Appended}
    (hwriter : ∀ e ∈ additions, e.writer = writer)
    (h : append codec scope head day writer additions index version = .ok out) :
    ∀ u ∈ out.updates, u.Appends (headTree head) day writer := by
  simp only [append, bind_eq_ok] at h
  obtain ⟨segments, hinventory, read, -, -, -, collected, hcollect, h⟩ := h
  split at h
  · simp only [pure_eq_ok] at h
    simp [← h]
  · simp only [bind_eq_ok, pure_eq_ok] at h
    obtain ⟨-, -, -, -, -, -, state, hwrite, rfl⟩ := h
    have hnew : ∀ e ∈ collected.new, e.writer = writer := fun e he =>
      hwriter e (mem_sortAdditions.mp (collectNew_subset hcollect e he))
    have hblob : ∀ b part before,
        (headTree head).blob (.journal b ⟨day, writer, part⟩) = some before →
          ⟨⟨day, writer, part⟩, b, before⟩ ∈ segments := fun b part before hbefore =>
      (mem_inventory hinventory _).mpr ⟨hbefore, rfl, rfl⟩
    have hpresent : ∀ part b before,
        (headTree head).blob (.journal b ⟨day, writer, part⟩) = some before →
          before.length ≤ MAX_FILE_BYTES := fun part b before hbefore =>
      inventory_size hinventory _ (hblob b part before hbefore)
    refine (Filling.flush (foldlM_invariant (Filling (headTree head) day writer) ?_ ?_ hwrite)).updates
    · intro t entry t' hentry ht hstep
      exact ht.step (hnew entry hentry) hstep
    · cases htail : segments.getLast? with
      | none =>
        have hnil : segments = [] := List.getLast?_eq_none_iff.mp htail
        have hfree : ∀ b part, (headTree head).blob (.journal b ⟨day, writer, part⟩) = none := by
          intro b part
          cases hbefore : (headTree head).blob (.journal b ⟨day, writer, part⟩) with
          | none => rfl
          | some before =>
            have := hblob b part before hbefore
            rw [hnil] at this
            cases this
        exact ⟨⟨false, rfl, Nat.zero_le _, hpresent 0, Or.inr fun b => hfree b 0⟩,
          fun b part _ => hfree b part, by simp⟩
      | some tail =>
        have hmem : tail ∈ segments := List.mem_of_getLast? htail
        obtain ⟨hoid, hday, hseries⟩ := (mem_inventory hinventory tail).mp hmem
        obtain ⟨⟨d, w, part⟩, archived, oid⟩ := tail
        obtain ⟨rfl, rfl⟩ : d = day ∧ w = writer := ⟨hday, hseries⟩
        refine ⟨⟨archived, rfl, inventory_size hinventory _ hmem, hpresent _, Or.inl
          ⟨oid, hoid, List.prefix_refl _⟩⟩, ?_, by simp⟩
        intro b later hlt
        cases hbefore : (headTree head).blob (.journal b ⟨d, w, later⟩) with
        | none => rfl
        | some before =>
          have hle := inventory_getLast hinventory htail (hblob b later before hbefore)
          exact absurd hle (Nat.not_le.mpr hlt)

end

/-! ### What the commits write -/

/-- The updates a publish of these entries may contain. -/
def Update.Publishes (tree : Tree) (entries : List Entry) : Update → Prop
  | .write (.journal archived relative) content =>
    (∃ e ∈ entries, e.date = relative.day ∧ e.writer = relative.writer) ∧
      Writable tree archived relative content
  | .write (.note _) _ => True
  | .delete _ => False
  | .catalog current => ∀ prior, tree.catalog = some prior → prior.schemaVersion ≤ 2 →
    prior.Advances current

/-- What the archive holds once a live file was moved behind it. -/
def archivedContent (archive : Option Bytes) (addition : Bytes) : Bytes :=
  match archive with
  | none => addition
  | some before =>
    if addition <+: before ∨ (newline :: addition) <:+: before then before else before ++ addition

/-- The updates a fold may contain: a live file leaves only for an archive that
    holds it, now or by another update. -/
def Update.Files (tree : Tree) (updates : List Update) : Update → Prop
  | .write (.note _) _ => True
  | .write (.journal true relative) content =>
    content.length ≤ MAX_FILE_BYTES ∧ ∃ addition,
      tree.blob (.journal false relative) = some addition ∧
        content = archivedContent (tree.blob (.journal true relative)) addition
  | .delete (.journal false relative) =>
    ∃ addition, tree.blob (.journal false relative) = some addition ∧
      ((∃ content, Update.write (.journal true relative) content ∈ updates) ∨
        ∃ before, tree.blob (.journal true relative) = some before ∧ Held addition before)
  | _ => False

theorem Update.Files.mono {tree : Tree} {us vs : List Update} (hsub : ∀ u ∈ us, u ∈ vs)
    {u : Update} (h : u.Files tree us) : u.Files tree vs := by
  cases u with
  | write path content => cases path with
    | note m => trivial
    | journal archived relative => cases archived <;> exact h
  | catalog c => exact h
  | delete path => cases path with
    | note m => exact h
    | journal archived relative =>
      cases archived with
      | true => exact h
      | false =>
        obtain ⟨addition, hlive, hheld⟩ := h
        refine ⟨addition, hlive, hheld.imp_left ?_⟩
        rintro ⟨content, hmem⟩
        exact ⟨content, hsub _ hmem⟩

section

variable {codec : LineCodec} {tree : Tree}

theorem Update.Appends.publishes {entries : List Entry} {day : Day} {writer : UUID} {u : Update}
    (hkey : ∃ e ∈ entries, e.date = day ∧ e.writer = writer) (h : u.Appends tree day writer) :
    u.Publishes tree entries := by
  cases u with
  | delete path => exact h
  | catalog c => exact h.elim
  | write path content => cases path with
    | note m => trivial
    | journal archived relative =>
      obtain ⟨rfl, rfl, hwritable⟩ := h
      exact ⟨hkey, hwritable⟩

theorem Update.IsNote.publishes {entries : List Entry} {u : Update} (h : u.IsNote) :
    u.Publishes tree entries := by
  cases u with
  | delete path => exact h
  | catalog c => exact h.elim
  | write path content => cases path with
    | note m => trivial
    | journal archived relative => exact h.elim

theorem readCatalog_present {destination : Destination} {prior catalog : Catalog}
    (hprior : tree.catalog = some prior)
    (h : readCatalog destination (some tree) = .ok catalog) : catalog = prior := by
  simp only [readCatalog, headTree, Option.getD_some, hprior, bind_eq_ok, pure_eq_ok] at h
  obtain ⟨-, -, rfl⟩ := h
  rfl

/-- **A publication only adds.** -/
theorem publishAttempt_publishes {destination : Destination} {previous : Option Tree}
    {entries : List Entry} {index : DeliveryIndex} {metrics : Metrics} {state : PublishState}
    (h : publishAttempt codec destination previous (some tree) entries index metrics = .ok state) :
    ∀ u ∈ state.updates, u.Publishes tree entries := by
  simp only [publishAttempt, bind_eq_ok] at h
  obtain ⟨-, -, -, -, catalog, hcatalog, planned, hplanned, h⟩ := h
  have hupdates : ∀ u ∈ planned.updates, u.Publishes tree entries := by
    refine foldlM_invariant (fun s : PublishState => ∀ u ∈ s.updates, u.Publishes tree entries)
      ?_ (by simp) hplanned
    rintro s ⟨day, writer⟩ s' hkey hs hstep
    simp only [publishGroup, bind_eq_ok, pure_eq_ok] at hstep
    obtain ⟨out, hout, rfl⟩ := hstep
    have hentry : ∃ e ∈ entries, e.date = day ∧ e.writer = writer := by
      simp only [groupKeys, List.mem_mergeSort, List.mem_dedup, List.mem_map, Entry.series,
        Prod.mk.injEq] at hkey
      exact hkey
    have happends := append_appends ?_ hout
    · intro u hu
      rcases List.mem_append.mp hu with hu | hu
      · exact hs u hu
      · exact (happends u hu).publishes hentry
    · intro e he
      have := (List.mem_filter.mp he).2
      simp only [Entry.series, Prod.mk.injEq, decide_eq_true_eq] at this
      exact this.2
  split at h
  · simp only [pure_eq_ok] at h
    exact h ▸ hupdates
  · simp only [bind_eq_ok, pure_eq_ok] at h
    obtain ⟨current, hcurrent, notes, hnotes, rfl⟩ := h
    intro u hu
    simp only [List.mem_append, List.mem_singleton] at hu
    rcases hu with (hu | rfl) | hu
    · exact hupdates u hu
    · intro prior hprior hversion
      obtain rfl := readCatalog_present hprior hcatalog
      simp only [Catalog.validated, bind_eq_ok, pure_eq_ok] at hcurrent
      obtain ⟨-, -, rfl⟩ := hcurrent
      refine ⟨rfl, Nat.le_add_right _ _, ?_⟩
      dsimp only
      split
      · exact hversion
      · exact Nat.le_refl _
    · exact (invalidatedNotes_isNote hnotes u hu).publishes

end

/-! ### Filing complete files -/

section

variable {codec : LineCodec} {tree : Tree}

theorem foldInventory_complete {files : List (Bool × Relative × Bytes)}
    {views : List (UUID × Bytes)} (h : foldInventory tree = .ok (files, views)) {archived : Bool}
    {relative : Relative} {content : Bytes}
    (hblob : tree.blob (.journal archived relative) = some content) :
    (archived, relative, content) ∈ files ∧ content.length ≤ MAX_FILE_BYTES := by
  simp only [foldInventory, bind_eq_ok, check_eq_ok, pure_eq_ok, Prod.mk.injEq] at h
  obtain ⟨-, hsizes, -, -, -, -, rfl, -⟩ := h
  have hrow := Tree.mem_listing.mpr hblob
  exact ⟨List.mem_filterMap.mpr ⟨_, hrow, rfl⟩, hsizes _ hrow⟩

/-- The archived copy `files.get(target)` finds. -/
theorem foldInventory_find {files : List (Bool × Relative × Bytes)} {views : List (UUID × Bytes)}
    (h : foldInventory tree = .ok (files, views)) (relative : Relative) :
    (files.find? fun f => f.1 = true ∧ f.2.1 = relative).map (·.2.2) =
      tree.blob (.journal true relative) := by
  cases hfind : files.find? fun f => f.1 = true ∧ f.2.1 = relative with
  | some f =>
    have hmatch := List.find?_some hfind
    have hblob := foldInventory_files h f (List.mem_of_find?_eq_some hfind)
    simp only [decide_eq_true_eq] at hmatch
    rw [hmatch.1, hmatch.2] at hblob
    rw [hblob]
    rfl
  | none =>
    cases hblob : tree.blob (.journal true relative) with
    | none => rfl
    | some content =>
      have hmem := (foldInventory_complete h hblob).1
      have := List.find?_eq_none.mp hfind _ hmem
      simp at this

/-- A file that parses ends with its last record. -/
theorem forParseFile_complete {σ : Type} {body : σ → Entry → Except JournalError σ} {s s' : σ}
    {data : Bytes} (h : forParseFile codec body s data = .ok s') : (splitLines data).2 = [] := by
  obtain ⟨values, hvalues, entries, hentries, -⟩ := forParseFile_pieces.mp h
  refine (pieces_complete hvalues ?_).2
  intro value hvalue
  obtain ⟨entry, hentry⟩ := mapM_forall hentries value hvalue
  simp only [parseLine, bind_eq_ok, check_eq_ok] at hentry
  obtain ⟨-, ⟨-, -, hlast⟩, -⟩ := hentry
  exact hlast

theorem readJournalFiles_complete {destination : Destination} {catalog : Catalog} {cutoff : Day}
    {files : List (Bool × Relative × Bytes)} {start read : ReadJournal}
    (h : files.foldlM (readJournalFile codec destination catalog cutoff) start = .ok read) :
    ∀ f ∈ files, (splitLines f.2.2).2 = [] := by
  refine foldlM_prefix_invariant
    (fun done (_ : ReadJournal) => ∀ f ∈ done, (splitLines f.2.2).2 = []) files ?_ (by simp) h
  rintro done t ⟨archived, relative, data⟩ t' _ hdone hstep f hf
  rcases List.mem_append.mp hf with hf | hf
  · exact hdone f hf
  · rw [List.mem_singleton] at hf
    subst hf
    simp only [readJournalFile, bind_eq_ok] at hstep
    obtain ⟨_, -, -, -, hparse⟩ := hstep
    exact forParseFile_complete hparse

/-- Behind whole lines a file is held. -/
theorem held_behind {before : Bytes} (addition : Bytes) (h : (splitLines before).2 = []) :
    Held addition (before ++ addition) := by
  obtain ⟨hbytes, hlines, -⟩ := splitLines_spec before
  rw [h, List.append_nil] at hbytes
  rcases List.eq_nil_or_concat (splitLines before).1 with hnil | ⟨init, last, hlast⟩
  · rw [hnil, List.flatten_nil] at hbytes
    exact Or.inl (by rw [← hbytes]; exact List.prefix_refl _)
  · obtain ⟨body, -, hbody⟩ := hlines last (by rw [hlast]; simp)
    refine Or.inr ⟨init.flatten ++ body, [], ?_⟩
    rw [← hbytes, hlast, hbody]
    simp

theorem archivedContent_held {archive : Option Bytes} (addition : Bytes)
    (h : ∀ before, archive = some before → (splitLines before).2 = []) :
    Held addition (archivedContent archive addition) := by
  cases archive with
  | none => exact Or.inl (List.prefix_refl _)
  | some before =>
    unfold archivedContent
    dsimp only
    split
    · assumption
    · exact held_behind addition (h before rfl)

theorem archivedContent_grows {before : Bytes} (addition : Bytes) :
    before <+: archivedContent (some before) addition := by
  unfold archivedContent
  dsimp only
  split
  · exact List.prefix_refl _
  · exact List.prefix_append _ _

theorem moveFile_files {destination : Destination} {files : List (Bool × Relative × Bytes)}
    {state state' : MoveState} {relative : Relative} {addition : Bytes}
    (hfind : (files.find? fun f => f.1 = true ∧ f.2.1 = relative).map (·.2.2) =
      tree.blob (.journal true relative))
    (hlive : tree.blob (.journal false relative) = some addition)
    (hsize : addition.length ≤ MAX_FILE_BYTES)
    (hstate : ∀ u ∈ state.updates, u.Files tree state.updates)
    (hstep : moveFile destination files state (relative, addition) = .ok state') :
    ∀ u ∈ state'.updates, u.Files tree state'.updates := by
  -- adding updates that are filed keeps the others filed
  have hadd : ∀ more : List Update, (∀ u ∈ more, u.Files tree (state.updates ++ more)) →
      ∀ u ∈ state.updates ++ more, u.Files tree (state.updates ++ more) := by
    intro more hmore u hu
    rcases List.mem_append.mp hu with hold | hnew
    · exact (hstate u hold).mono fun v hv => List.mem_append_left _ hv
    · exact hmore u hnew
  -- a fresh archive file, or the archive with the file behind it
  have hwrite : ∀ content, content.length ≤ MAX_FILE_BYTES →
      content = archivedContent (tree.blob (.journal true relative)) addition →
      ∀ u ∈ state.updates ++ [.write (.journal true relative) content] ++
          [.delete (.journal false relative)],
        u.Files tree (state.updates ++ [.write (.journal true relative) content] ++
          [.delete (.journal false relative)]) := by
    intro content hfits hcontent
    rw [List.append_assoc]
    refine hadd _ fun u hu => ?_
    simp only [List.cons_append, List.nil_append, List.mem_cons, List.not_mem_nil, or_false] at hu
    rcases hu with rfl | rfl
    · exact ⟨hfits, addition, hlive, hcontent⟩
    · exact ⟨addition, hlive, Or.inl ⟨content, by simp⟩⟩
  unfold moveFile at hstep
  dsimp only at hstep
  rw [hfind] at hstep
  cases hbefore : tree.blob (.journal true relative) with
  | none =>
    simp only [hbefore, Except.ok.injEq] at hstep
    subst hstep
    exact hwrite addition hsize (by rw [hbefore]; rfl)
  | some before =>
    simp only [hbefore] at hstep
    split at hstep
    · next hcontained =>
      simp only [Except.ok.injEq] at hstep
      subst hstep
      refine hadd _ fun u hu => ?_
      rw [List.mem_singleton] at hu
      subst hu
      exact ⟨addition, hlive, Or.inr ⟨before, hbefore, hcontained⟩⟩
    · next hcontained =>
      split at hstep
      · cases hstep
      · next hfits =>
        split at hstep
        · simp only [Except.ok.injEq] at hstep
          exact hstep ▸ hstate
        · simp only [Except.ok.injEq] at hstep
          subst hstep
          refine hwrite (before ++ addition) ?_ ?_
          · rw [List.length_append]
            exact Nat.not_lt.mp hfits
          · rw [hbefore]
            simp only [archivedContent, if_neg hcontained]

theorem Update.IsNote.files {updates : List Update} {u : Update} (h : u.IsNote) :
    u.Files tree updates := by
  cases u with
  | delete path => exact h.elim
  | catalog c => exact h.elim
  | write path content => cases path with
    | note m => trivial
    | journal archived relative => exact h.elim

/-- **A fold only files**, and only where every journal file reads to its end. -/
theorem plan_files {destination : Destination} {cutoff : Day} {updates : List Update}
    {report : FoldReport} (h : plan codec destination tree cutoff = .ok (updates, report)) :
    (∀ u ∈ updates, u.Files tree updates) ∧
      ∀ archived relative content, tree.blob (.journal archived relative) = some content →
        content.length ≤ MAX_FILE_BYTES ∧ (splitLines content).2 = [] := by
  simp only [plan, bind_eq_ok, pure_eq_ok, Prod.mk.injEq] at h
  obtain ⟨⟨files, views⟩, hinventory, catalog, -, read, hread, -, -, -, -, noted, hnoted, moved,
    hmoved, rfl, -⟩ := h
  refine ⟨?_, fun archived relative content hblob => ?_⟩
  · have heligible : ∀ f ∈ read.eligible, (false, f) ∈ files := by
      refine foldlM_invariant (fun t : ReadJournal => ∀ f ∈ t.eligible, (false, f) ∈ files)
        ?_ (by simp) hread
      intro t file t' hfile ht hstep f hf
      rcases readJournalFile_eligible hstep f hf with hold | heq
      · exact ht f hold
      · exact heq ▸ hfile
    refine foldlM_invariant (fun t : MoveState => ∀ u ∈ t.updates, u.Files tree t.updates) ?_
      (fun u hu => (planNote_isNote hnoted u hu).files) hmoved
    rintro t ⟨relative, addition⟩ t' hmem ht hstep
    have hfile : (false, relative, addition) ∈ files := by
      split at hmem
      · exact heligible _ (List.mem_mergeSort.mp (List.mem_of_mem_take hmem))
      · cases hmem
    have hlive := foldInventory_files hinventory _ hfile
    exact moveFile_files (foldInventory_find hinventory relative) hlive
      (foldInventory_complete hinventory hlive).2 ht hstep
  · obtain ⟨hmem, hsize⟩ := foldInventory_complete hinventory hblob
    exact ⟨hsize, readJournalFiles_complete hread _ hmem⟩

end

end Mnemion.Journal
