/-
  Mnemion/JournalConflicts.lean
  =============================
  **When folding cannot converge** (`journal/folding.py`, `_plan`).  A publisher
  compares its records with those of its own series only; a fold reads every
  series.  Two devices that claim one version of a memory therefore both publish,
  and from then on every fold is refused.
-/
import Mnemion.JournalCache
import Mnemion.JournalConvergence

namespace Mnemion.Journal

open Outcome ByteLines

/-! ### What a fold insists on -/

section

variable {codec : LineCodec} {T : Set Entry} {destination : Destination} {cutoff : Day} {tree : Tree}

/-- What the first loop of `_plan` has indexed. -/
structure ReadRecords (codec : LineCodec) (T : Set Entry) (done : List (Bool × Relative × Bytes))
    (added : List (Entry × Option Path)) (index : JournalIndex Path) : Prop where
  index : IndexesAll codec 1000000 (2 * 1024 ^ 3) added index
  known : ∀ p ∈ added, p.1 ∈ T
  covers : ∀ file ∈ done, ∀ e ∈ fileEntries codec file, ∃ p ∈ added, p.1 = e

theorem readJournalEntries_indexes (hT : Digestible codec T) {archived old : Bool} {relative : Relative}
    {entries : List Entry} (hentries : ∀ e ∈ entries, e ∈ T) {done : List (Bool × Relative × Bytes)}
    {state state' : ReadJournal} {added : List (Entry × Option Path)}
    (h : entries.foldlM (readJournalEntry codec destination archived relative old) state = .ok state')
    (hstate : ReadRecords codec T done added state.index) :
    ReadRecords codec T done (added ++ entries.map fun e => (e, some (.journal archived relative)))
      state'.index := by
  induction entries generalizing state added with
  | nil =>
    cases h
    simpa using hstate
  | cons entry entries ih =>
    rw [List.foldlM_cons, bind_eq_ok] at h
    obtain ⟨next, hnext, h⟩ := h
    simp only [readJournalEntry, bind_eq_ok, pure_eq_ok] at hnext
    obtain ⟨-, -, -, -, index, hindex, rfl⟩ := hnext
    have hentry : entry ∈ T := hentries entry List.mem_cons_self
    have hstep : ReadRecords codec T done (added ++ [(entry, some (.journal archived relative))]) index := by
      refine ⟨hstate.index.add hT hstate.known hentry hindex, ?_, ?_⟩
      · intro p hp
        rcases List.mem_append.mp hp with hp | hp
        · exact hstate.known p hp
        · rw [List.mem_singleton.mp hp]
          exact hentry
      · intro file hfile e he
        obtain ⟨p, hp, rfl⟩ := hstate.covers file hfile e he
        exact ⟨p, List.mem_append_left _ hp, rfl⟩
    have hlast := ih (fun e he => hentries e (List.mem_cons_of_mem _ he)) h hstep
    rw [List.append_assoc] at hlast
    exact hlast

/-- **A fold that is planned has read no two records that claim one identity.** -/
theorem plan_consistent (hT : Digestible codec T) (hentries : ∀ e ∈ tree.entries codec, e ∈ T)
    {updates : List Update} {report : FoldReport}
    (hplan : plan codec destination tree cutoff = .ok (updates, report)) :
    DistinctIdentities {e | e ∈ tree.entries codec} := by
  simp only [plan, bind_eq_ok] at hplan
  obtain ⟨⟨files, views⟩, hinventory, catalog, -, read, hread, -⟩ := hplan
  have hfiles : ∀ file ∈ files, ∀ e ∈ fileEntries codec file, e ∈ T := by
    intro file hfile e he
    refine hentries e ?_
    rw [Tree.entries_eq]
    exact List.mem_flatMap.mpr ⟨file, Tree.mem_journalFiles.mpr
      (foldInventory_files hinventory file hfile), he⟩
  have hindexed : ∃ added, ReadRecords codec T files added read.index := by
    refine foldlM_prefix_invariant
      (fun done (state : ReadJournal) => ∃ added, ReadRecords codec T done added state.index) files ?_
      ⟨[], indexesAll_limited, by simp, by simp⟩ hread
    rintro done state ⟨archived, relative, data⟩ state' hmem ⟨added, hadded⟩ hstep
    simp only [readJournalFile, journalPath, bind_eq_ok, pure_eq_ok, forParseFile_eq_ok] at hstep
    obtain ⟨_, ⟨-, -, rfl⟩, -, -, entries, hparse, hstep⟩ := hstep
    have hhere : fileEntries codec (archived, relative, data) = entries := by
      rw [fileEntries, hparse]
      rfl
    have hnext := readJournalEntries_indexes hT
      (fun e he => hfiles _ hmem e (hhere ▸ he)) hstep hadded
    refine ⟨_, hnext.index, hnext.known, ?_⟩
    intro file hfile e he
    rcases List.mem_append.mp hfile with hfile | hfile
    · exact hnext.covers file hfile e he
    · rw [List.mem_singleton.mp hfile, hhere] at he
      exact ⟨(e, some (.journal archived relative)),
        List.mem_append_right _ (List.mem_map.mpr ⟨e, he, rfl⟩), rfl⟩
  obtain ⟨added, hadded⟩ := hindexed
  have hcovered : ∀ e ∈ tree.entries codec, ∃ p ∈ added, p.1 = e := by
    intro e he
    rw [Tree.entries_eq] at he
    obtain ⟨file, hfile, he⟩ := List.mem_flatMap.mp he
    exact hadded.covers file (foldInventory_complete hinventory (Tree.mem_journalFiles.mp hfile)).1 e he
  intro a ha b hb hsame
  obtain ⟨p, hp, rfl⟩ := hcovered a ha
  obtain ⟨q, hq, rfl⟩ := hcovered b hb
  exact hadded.index.tables.consistent p hp q hq hsame

end

/-! ### Two devices, one version -/

section

variable {ι : Type} [DecidableEq ι]

/-- The events of one undisturbed publication of a single record. -/
def publishEvents (p : ι) (entry : Entry) : List (Event ι) :=
  [.begin p (.publish [entry]), .attempt p, .push p true]

/-- A new publisher whose series is free publishes its record. -/
theorem publish_run {codec : LineCodec} {destination : ι → Destination} {world : World ι} {p : ι}
    {entry : Entry} {catalog : Catalog} {line : Bytes} (hfresh : world.publishers p = .fresh)
    (hbatch : checkBatch codec (destination p) [entry] = .ok ()) (hline : entry.line codec = .ok line)
    (hcatalog : readCatalog (destination p) (world.head.map (·.tree)) = .ok catalog)
    (hfree : ∀ archived part, (headTree (world.head.map (·.tree))).blob
      (.journal archived ⟨entry.date, entry.writer, part⟩) = none)
    (hnote : (headTree (world.head.map (·.tree))).blob (.note entry.memoryId) = none)
    (hcount : catalog.records < 1000000) :
    let tree := (headTree (world.head.map (·.tree))).apply
      [.write (.journal false ⟨entry.date, entry.writer, 0⟩) line,
        .catalog { catalog with records := catalog.records + 1 }]
    let world' := (publishEvents p entry).foldl (World.next codec destination) world
    world'.head = some ⟨world.commits, tree⟩ ∧ (world'.publishers p).publication = some tree ∧
      ∀ q ≠ p, world'.publishers q = world.publishers q := by
  obtain ⟨state, hstate, hupdates⟩ := publishAttempt_first hline hcatalog hfree hnote hcount
  have hattempt : attemptJob codec (destination p) none (world.head.map (·.tree)) (.publish [entry])
      .empty .zero = .ok (state.updates, state.index, state.metrics) := by
    simp only [attemptJob, bind_eq_ok, pure_eq_ok]
    exact ⟨state, hstate, rfl⟩
  rw [hupdates] at hattempt
  dsimp only
  simp only [publishEvents, List.foldl_cons, List.foldl_nil, World.next, hfresh, Publisher.fresh, hbatch,
    World.set, Function.update_self, hattempt, List.cons_ne_nil, if_false, if_true, World.finish]
  refine ⟨trivial, trivial, fun q hq => ?_⟩
  rw [Function.update_of_ne hq, Function.update_of_ne hq, Function.update_of_ne hq]

end

/-- Another device claims the first version of the sample memory. -/
theorem bye_payload : payloadOk .upsert (some "bye") none [] = true := by decide

def rivalEntry : Entry :=
  { sampleEntry with id := 6, writer := 9, text := some "bye", payload := bye_payload }

/-- The JSON text of such a record. -/
def claimText (id writer : Char) (text : String) : Bytes :=
  ("\x7b\"action\":\"upsert\",".toList ++ "\"format\":".toList ++
    "\"mnemion-memory-journal\",".toList ++ "\"id\":".toList ++ smallUuid id ++
    ",\"important\":false,".toList ++ "\"kind\":\"note\",".toList ++ "\"memory_id\":".toList ++
    smallUuid '4' ++ ",\"metadata\":\x7b\x7d,".toList ++ "\"schema_version\":1,".toList ++
    "\"space_id\":".toList ++ smallUuid '3' ++ ",\"subject\":null,".toList ++
    "\"tenant_id\":".toList ++ smallUuid '2' ++ ",\"text\":\"".toList ++ text.toList ++
    "\",\"ts\":\"2024-01-01".toList ++ "T00:00:00Z\",".toList ++ "\"version\":1,".toList ++
    "\"writer\":".toList ++ smallUuid writer ++ ['\x7d']).flatMap String.utf8EncodeChar

/-- The two records with their texts and digests. -/
def claims : List (Entry × Bytes × Bytes) :=
  [(sampleEntry, claimText '1' '5' "hello",
      hexDigest "5607d3014ae02cb49ee992ae9617ba89ea88cbb803dd22a7a7b62296cefbbfd8"),
    (rivalEntry, claimText '6' '9' "bye",
      hexDigest "60939f242c8e632e2c3c342272514fa205822e89f40175b50f76157b7ad2a1c4")]

def claimCodec : LineCodec where
  dump entry := ((claims.find? (·.1 = entry)).map (·.2.1)).getD []
  load value := (claims.find? (·.2.1 ++ [newline] = value)).map (·.1)
  sha256 value := ((claims.find? (·.2.1 ++ [newline] = value)).map (·.2.2)).getD []

def claimLine (entry : Entry) : Bytes := claimCodec.dump entry ++ [newline]

theorem claimCodec_digestible : Digestible claimCodec {e | e = sampleEntry ∨ e = rivalEntry} where
  recordable := by
    rintro e (rfl | rfl)
    · exact ⟨⟨by decide +kernel, by decide +kernel⟩, by decide +kernel⟩
    · exact ⟨⟨by decide +kernel, by decide +kernel⟩, by decide +kernel⟩
  collision_free := by
    have hne : entryDigest claimCodec sampleEntry ≠ entryDigest claimCodec rivalEntry := by
      decide +kernel
    rintro a (rfl | rfl) b (rfl | rfl) h
    · rfl
    · exact absurd h hne
    · exact absurd h.symm hne
    · rfl

example : claimCodec.load (claimLine rivalEntry) = some rivalEntry := by decide +kernel

def claimDestination : Destination := noteDestination gateHash gateFolder sampleDestination

/-- The tree after the first publication and after both. -/
def firstTree : Tree := Tree.empty.apply
  [.write (.journal false ⟨738886, 5, 0⟩) (claimLine sampleEntry), .catalog ⟨1, 2, 3, 1⟩]

def bothTree : Tree := firstTree.apply
  [.write (.journal false ⟨738886, 9, 0⟩) (claimLine rivalEntry), .catalog ⟨1, 2, 3, 2⟩]

theorem mem_firstTree {path : Path} {content : Bytes} : firstTree.blob path = some content ↔
    path = .journal false ⟨738886, 5, 0⟩ ∧ content = claimLine sampleEntry := by
  rw [Tree.blob, ← Option.mem_def, AList.mem_lookup_iff]
  show _ ∈ [(⟨.journal false ⟨738886, 5, 0⟩, claimLine sampleEntry⟩ : Sigma fun _ : Path => Bytes)] ↔ _
  simp

theorem mem_bothTree {path : Path} {content : Bytes} : bothTree.blob path = some content ↔
    (path = .journal false ⟨738886, 9, 0⟩ ∧ content = claimLine rivalEntry) ∨
      (path = .journal false ⟨738886, 5, 0⟩ ∧ content = claimLine sampleEntry) := by
  rw [Tree.blob, ← Option.mem_def, AList.mem_lookup_iff]
  show _ ∈ [(⟨.journal false ⟨738886, 9, 0⟩, claimLine rivalEntry⟩ : Sigma fun _ : Path => Bytes),
    ⟨.journal false ⟨738886, 5, 0⟩, claimLine sampleEntry⟩] ↔ _
  simp

theorem fileEntries_claim (archived : Bool) (relative : Relative) {e : Entry}
    (he : e = sampleEntry ∨ e = rivalEntry) :
    fileEntries claimCodec (archived, relative, claimLine e) = [e] := by
  have hrec : ∀ entry ∈ [e], Recordable claimCodec entry := by
    intro entry hentry
    rw [List.mem_singleton.mp hentry]
    exact claimCodec_digestible.recordable e he
  have hfile : claimLine e = fileOf claimCodec [e] := by simp [fileOf, claimLine]
  have hsize : (fileOf claimCodec [e]).length ≤ MAX_FILE_BYTES := by
    rcases he with rfl | rfl <;> decide +kernel
  rw [fileEntries, hfile, parseFile_fileOf hrec hsize]
  rfl

theorem mem_bothTree_entries (e : Entry) :
    e ∈ bothTree.entries claimCodec ↔ e = sampleEntry ∨ e = rivalEntry := by
  rw [Tree.entries_eq, List.mem_flatMap]
  constructor
  · rintro ⟨⟨archived, relative, content⟩, hfile, he⟩
    rcases mem_bothTree.mp (Tree.mem_journalFiles.mp hfile) with ⟨-, rfl⟩ | ⟨-, rfl⟩
    · rw [fileEntries_claim _ _ (Or.inr rfl)] at he
      exact Or.inr (List.mem_singleton.mp he)
    · rw [fileEntries_claim _ _ (Or.inl rfl)] at he
      exact Or.inl (List.mem_singleton.mp he)
  · rintro (rfl | rfl)
    · refine ⟨(false, ⟨738886, 5, 0⟩, claimLine sampleEntry),
        Tree.mem_journalFiles.mpr (mem_bothTree.mpr (Or.inr ⟨rfl, rfl⟩)), ?_⟩
      rw [fileEntries_claim _ _ (Or.inl rfl)]
      exact List.mem_singleton_self _
    · refine ⟨(false, ⟨738886, 9, 0⟩, claimLine rivalEntry),
        Tree.mem_journalFiles.mpr (mem_bothTree.mpr (Or.inl ⟨rfl, rfl⟩)), ?_⟩
      rw [fileEntries_claim _ _ (Or.inr rfl)]
      exact List.mem_singleton_self _

/-- One device publishes, then the other. -/
def claimEvents : List (Event Bool) :=
  publishEvents false sampleEntry ++ publishEvents true rivalEntry

/-- A run is the run of its events from where it stands. -/
theorem run_append {ι : Type} [DecidableEq ι] (codec : LineCodec) (destination : ι → Destination)
    (events more : List (Event ι)) : (journalMachine codec destination).run (events ++ more) =
      more.foldl (World.next codec destination) ((journalMachine codec destination).run events) :=
  List.foldl_append

theorem firstClaim_run :
    let world := (journalMachine claimCodec fun _ : Bool => claimDestination).run
      (publishEvents false sampleEntry)
    world.head = some ⟨0, firstTree⟩ ∧ (world.publishers false).publication = some firstTree ∧
      ∀ q ≠ false, world.publishers q = .fresh := by
  have hline : sampleEntry.line claimCodec = .ok (claimLine sampleEntry) :=
    (claimCodec_digestible.recordable _ (Or.inl rfl)).line_ok
  have hrun := @publish_run Bool _ claimCodec (fun _ => claimDestination) .start false sampleEntry
    ⟨1, 2, 3, 0⟩ _ rfl (by decide +kernel) hline (by decide +kernel) (fun _ _ => rfl) rfl (by decide)
  have hdate : sampleEntry.date = 738886 := visitor_date 1
  have hrunEvents : (journalMachine claimCodec fun _ : Bool => claimDestination).run
      (publishEvents false sampleEntry) = (publishEvents false sampleEntry).foldl
        (World.next claimCodec fun _ => claimDestination) .start := rfl
  have hstart : headTree ((World.start : World Bool).head.map (·.tree)) = .empty := rfl
  rw [hdate, hstart] at hrun
  rw [hrunEvents]
  exact hrun

theorem bothClaims_run :
    let world := (journalMachine claimCodec fun _ : Bool => claimDestination).run claimEvents
    (∃ n, world.head = some ⟨n, bothTree⟩) ∧ (world.publishers true).publication = some bothTree := by
  obtain ⟨hhead, -, hothers⟩ := firstClaim_run
  have hline : rivalEntry.line claimCodec = .ok (claimLine rivalEntry) :=
    (claimCodec_digestible.recordable _ (Or.inr rfl)).line_ok
  have hdate : rivalEntry.date = 738886 := visitor_date 1
  have hfree : ∀ archived part, firstTree.blob
      (.journal archived ⟨rivalEntry.date, rivalEntry.writer, part⟩) = none := by
    intro archived part
    rw [Option.eq_none_iff_forall_ne_some]
    intro content hcontent
    cases (mem_firstTree.mp hcontent).1
  have hrun := @publish_run Bool _ claimCodec (fun _ => claimDestination)
    ((journalMachine claimCodec fun _ : Bool => claimDestination).run (publishEvents false sampleEntry))
    true rivalEntry ⟨1, 2, 3, 1⟩ _ (hothers true (by decide)) (by decide +kernel) hline
    (by rw [hhead]; rfl) (by rw [hhead]; exact hfree) (by rw [hhead]; rfl) (by decide)
  rw [hhead, hdate] at hrun
  obtain ⟨hboth, hpublication, -⟩ := hrun
  rw [claimEvents, run_append]
  exact ⟨⟨_, hboth⟩, hpublication⟩

theorem firstTree_files : firstTree.journalFiles =
    [(false, ⟨738886, 5, 0⟩, claimLine sampleEntry)] := by
  have hlisting : firstTree.listing =
      [(.journal false ⟨738886, 5, 0⟩, claimLine sampleEntry)] := List.mergeSort_singleton _
  rw [Tree.journalFiles, hlisting]
  rfl

theorem firstTree_bounded (cutoff : Day) : firstTree.Bounded claimCodec cutoff := by
  have hentries : firstTree.entries claimCodec = [sampleEntry] := by
    rw [Tree.entries_eq, firstTree_files]
    simp [fileEntries_claim]
  constructor
  · rw [hentries]
    decide
  · rw [hentries]
    decide +kernel
  · have hviews : firstTree.views = [] := by
      rw [List.eq_nil_iff_forall_not_mem]
      intro view hview
      cases (mem_firstTree.mp (Tree.mem_views.mp hview)).1
    have hold : (firstTree.oldRecords claimCodec cutoff).length ≤ 1 := by
      have hall := ((List.filter_sublist (p := oldFile cutoff)
        (l := firstTree.journalFiles)).flatMap fun file => fileEntries claimCodec file).length_le
      rw [← Tree.entries_eq, hentries] at hall
      exact hall
    have hnoted : (firstTree.noted claimCodec cutoff).card ≤ 1 := by
      rw [Tree.noted, hviews, List.map_nil, List.toFinset_nil, Finset.empty_union]
      refine (List.toFinset_card_le _).trans ?_
      rw [List.length_map]
      exact hold
    rw [firstTree_files, List.length_singleton]
    omega

end Mnemion.Journal
