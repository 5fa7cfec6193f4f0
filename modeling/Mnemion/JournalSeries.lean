/-
  Mnemion/JournalSeries.lean
  ==========================
  **Daily series behind the tree.**  The files of one UTC day and writer are an
  abstract `Series`: a list of parts, each live or archived, with the entries
  it holds.  `Tree.HasSeries` says that a tree stores exactly that list, part
  `k` at the path numbered `k` and nowhere else.

  `append_spec` is the refinement of `append`: the planned updates turn a tree
  with a series into a tree with that series extended by the additions it did
  not hold yet, whatever part of it the delivery index had cached.
-/
import Mnemion.JournalRollover

namespace Mnemion.Journal

open Outcome ByteLines

/-! ### Series -/

/-- One file of a series. -/
structure Part where
  archived : Bool
  entries : List Entry
deriving DecidableEq

abbrev Series := List Part

def Series.entries (series : Series) : List Entry := series.flatMap Part.entries

/-- The content a series puts at the path of a part. -/
def Series.view (codec : LineCodec) (series : Series) (archived : Bool) (part : Nat) :
    Option Bytes :=
  series[part]?.bind fun p =>
    if p.archived = archived then some (fileOf codec p.entries) else none

/-- The tree stores the series at the paths of `day` and `writer`. -/
def Tree.HasSeries (codec : LineCodec) (tree : Tree) (day : Day) (writer : UUID)
    (series : Series) : Prop :=
  ∀ archived part, tree.blob (.journal archived ⟨day, writer, part⟩) =
    series.view codec archived part

/-- A series of `day` and `writer` over the submitted entries `S`. -/
structure Series.Ok (codec : LineCodec) (S : Set Entry) (day : Day) (writer : UUID)
    (series : Series) : Prop where
  submitted : ∀ e ∈ series.entries, e ∈ S
  placed : ∀ e ∈ series.entries, e.date = day ∧ e.writer = writer
  nodup : series.entries.Nodup
  size : ∀ p ∈ series, (fileOf codec p.entries).length ≤ MAX_FILE_BYTES
  length : series.length ≤ MAX_SERIES_FILES

theorem Series.mem_entries {series : Series} {entry : Entry} :
    entry ∈ series.entries ↔ ∃ p ∈ series, entry ∈ p.entries := List.mem_flatMap

@[simp] theorem Series.entries_append (a b : Series) :
    Series.entries (a ++ b) = Series.entries a ++ Series.entries b := List.flatMap_append

@[simp] theorem Series.entries_singleton (p : Part) : Series.entries [p] = p.entries := by
  simp [Series.entries]

@[simp] theorem Series.entries_nil : Series.entries [] = [] := rfl

theorem Series.ok_nil (codec : LineCodec) (S : Set Entry) (day : Day) (writer : UUID) :
    Series.Ok codec S day writer [] where
  submitted := by simp
  placed := by simp
  nodup := by simp
  size := by simp
  length := by simp

/-- A content that a series shows is the file of one of its parts. -/
theorem Series.view_eq_some {codec : LineCodec} {series : Series} {archived : Bool} {part : Nat}
    {content : Bytes} :
    series.view codec archived part = some content ↔
      ∃ p, series[part]? = some p ∧ p.archived = archived ∧ content = fileOf codec p.entries := by
  unfold Series.view
  cases h : series[part]? with
  | none => simp
  | some p => simp [eq_comm]

theorem Series.view_append {codec : LineCodec} (init rest : Series) (archived : Bool) (part : Nat) :
    Series.view codec (init ++ rest) archived part =
      if part < init.length then Series.view codec init archived part
      else Series.view codec rest archived (part - init.length) := by
  unfold Series.view
  rw [List.getElem?_append]
  split <;> rfl

theorem Series.view_eq_none {codec : LineCodec} {series : Series} {part : Nat}
    (h : series.length ≤ part) (archived : Bool) : series.view codec archived part = none := by
  simp [Series.view, List.getElem?_eq_none h]

section

variable {codec : LineCodec} {S : Set Entry}

/-- The file of recordable entries determines them. -/
theorem fileOf_injective (hrec : ∀ e ∈ S, Recordable codec e) {as bs : List Entry}
    (has : ∀ e ∈ as, e ∈ S) (hbs : ∀ e ∈ bs, e ∈ S)
    (hmax : (fileOf codec as).length ≤ MAX_FILE_BYTES) (h : fileOf codec as = fileOf codec bs) :
    as = bs := by
  have hread := parseFile_fileOf (fun e he => hrec e (has e he)) hmax
  rw [h, parseFile_fileOf (fun e he => hrec e (hbs e he)) (h ▸ hmax)] at hread
  exact (Except.ok.inj hread).symm

/-! ### The delivery index says what the selected files hold -/

/-- Every cached file is the file of submitted entries, and its event rows are
    those entries' identities. -/
def DeliveryIndex.Sound (codec : LineCodec) (S : Set Entry) (index : DeliveryIndex) : Prop :=
  ∀ f ∈ index.files, ∃ entries : List Entry, (∀ e ∈ entries, e ∈ S) ∧
    f.oid = fileOf codec entries ∧
    (∀ e ∈ entries, ∃ row ∈ index.events, row.path = f.path ∧ row.id = e.id) ∧
    (∀ row ∈ index.events, row.path = f.path →
      ∃ e ∈ entries, row.id = e.id ∧ row.origin = e.origin ∧ row.version = e.version)

theorem DeliveryIndex.sound_empty : DeliveryIndex.Sound codec S .empty := by
  simp [DeliveryIndex.Sound, DeliveryIndex.empty]

theorem DeliveryIndex.Sound.select {index : DeliveryIndex} (h : index.Sound codec S)
    (segments : List Segment) : (index.select segments).Sound codec S := h

theorem DeliveryIndex.mem_currentEvents {index : DeliveryIndex} {row : EventRow} :
    row ∈ index.currentEvents ↔ row ∈ index.events ∧
      ∃ f ∈ index.files, f.path = row.path ∧ index.isCurrent f = true := by
  simp [DeliveryIndex.currentEvents]

theorem DeliveryIndex.mem_matching {index : DeliveryIndex} {entry : Entry} {row : EventRow} :
    row ∈ index.matching entry ↔ row ∈ index.currentEvents ∧
      (row.id = entry.id ∨ (row.origin = entry.origin ∧ row.version = entry.version)) := by
  simp only [DeliveryIndex.matching, List.mem_append, List.mem_filter, decide_eq_true_eq, ne_eq]
  by_cases hid : row.id = entry.id
  · simp [hid]
  · simp [hid]

theorem DeliveryIndex.check_eq_ok {index : DeliveryIndex} {entry : Entry} {digest : Bytes}
    {present : Bool} (h : index.check entry digest = .ok present) :
    present = true ↔ ∃ row ∈ index.matching entry, True := by
  unfold DeliveryIndex.check at h
  split at h
  · simp at h
  · simp only [Except.ok.injEq] at h
    rw [← h]
    cases hm : index.matching entry with
    | nil => simp
    | cons row rows => simp

/-- What the loop over a file's entries leaves in the index: the rows of other
    paths as they were, and for this path the identities of the entries read. -/
structure Remembering (start : DeliveryIndex) (segment : Segment) (done : List Entry)
    (index : DeliveryIndex) : Prop where
  files : index.files = start.files
  currentFiles : index.currentFiles = start.currentFiles
  others : ∀ row, row.path ≠ segment.path → (row ∈ index.events ↔ row ∈ start.events)
  stored : ∀ e ∈ done, ∃ row ∈ index.events, row.path = segment.path ∧ row.id = e.id
  only : ∀ row ∈ index.events, row.path = segment.path →
    ∃ e ∈ done, row.id = e.id ∧ row.origin = e.origin ∧ row.version = e.version

theorem Remembering.step {start index index' : DeliveryIndex} {segment : Segment}
    {done : List Entry} {scope : Entry → Except JournalError Unit} {entry : Entry} {n n' : Nat}
    (h : Remembering start segment done index)
    (hstep : DeliveryIndex.rememberEntry codec scope segment (index, n) entry = .ok (index', n')) :
    Remembering start segment (done ++ [entry]) index' := by
  simp only [DeliveryIndex.rememberEntry, bind_eq_ok, pure_eq_ok, Prod.mk.injEq] at hstep
  obtain ⟨_, _, _, _, digest, _, _, _, rfl, _⟩ := hstep
  unfold DeliveryIndex.insertEvent
  split
  · -- the id is already stored for this path: `INSERT OR IGNORE` does nothing
    next hdup =>
    simp only [List.any_eq_true, decide_eq_true_eq] at hdup
    refine ⟨h.files, h.currentFiles, h.others, ?_, ?_⟩
    · intro e he
      rcases List.mem_append.mp he with he | he
      · exact h.stored e he
      · rw [List.mem_singleton] at he
        exact he ▸ hdup
    · intro row hrow hpath
      obtain ⟨e, he, hid⟩ := h.only row hrow hpath
      exact ⟨e, List.mem_append_left _ he, hid⟩
  · refine ⟨h.files, h.currentFiles, ?_, ?_, ?_⟩
    · intro row hpath
      have hne : row ≠ ⟨segment.path, entry.id, digest, entry.origin, entry.version⟩ := by
        rintro rfl; exact hpath rfl
      simpa [hne] using h.others row hpath
    · intro e he
      rcases List.mem_append.mp he with he | he
      · obtain ⟨row, hrow, hid⟩ := h.stored e he
        exact ⟨row, List.mem_append_left _ hrow, hid⟩
      · rw [List.mem_singleton] at he
        subst he
        exact ⟨_, List.mem_append_right _ (List.mem_singleton.mpr rfl), rfl, rfl⟩
    · intro row hrow hpath
      rcases List.mem_append.mp hrow with hrow | hrow
      · obtain ⟨e, he, hid⟩ := h.only row hrow hpath
        exact ⟨e, List.mem_append_left _ he, hid⟩
      · rw [List.mem_singleton] at hrow
        subst hrow
        exact ⟨entry, by simp, rfl, rfl, rfl⟩

/-- What `remember` does to the index when the segment holds `entries`. -/
theorem DeliveryIndex.remember_sound (hrec : ∀ e ∈ S, Recordable codec e)
    {index index' : DeliveryIndex} {scope : Entry → Except JournalError Unit} {segment : Segment}
    {entries : List Entry} (hentries : ∀ e ∈ entries, e ∈ S)
    (hoid : segment.oid = fileOf codec entries)
    (hmax : segment.oid.length ≤ MAX_FILE_BYTES) (hsound : index.Sound codec S)
    (h : index.remember codec scope segment = .ok index') :
    index'.Sound codec S ∧ index'.currentFiles = index.currentFiles ∧
      index'.known segment = true ∧
      ∀ other, other.path ≠ segment.path → index.known other = true → index'.known other = true := by
  simp only [DeliveryIndex.remember, bind_eq_ok, pure_eq_ok] at h
  obtain ⟨⟨mid, count⟩, hfold, rfl⟩ := h
  have hread := forParseFile_fileOf (rememberEntry codec scope segment)
    (index.replaceFile segment, 0) (fun e he => hrec e (hentries e he)) (hoid ▸ hmax)
  rw [← hoid, hfold] at hread
  have hinv := foldlM_prefix_invariant
    (fun done (state : DeliveryIndex × Nat) => Remembering (index.replaceFile segment) segment done state.1) entries
    (fun done t a t' _ hP hstep => hP.step hstep) ?_ hread.symm
  · have hfiles : ∀ f ∈ mid.files.map (fun f : FileRow =>
        if f.path = segment.path then { f with records := count } else f),
        ∃ g ∈ mid.files, g.path = f.path ∧ g.oid = f.oid := by
      intro f hf
      obtain ⟨g, hg, rfl⟩ := List.mem_map.mp hf
      refine ⟨g, hg, ?_⟩
      split <;> exact ⟨rfl, rfl⟩
    refine ⟨?_, hinv.currentFiles, ?_, ?_⟩
    · intro f hf
      obtain ⟨g, hg, hpath, hgoid⟩ := hfiles f hf
      rw [hinv.files, replaceFile, List.mem_append, List.mem_filter, List.mem_singleton] at hg
      rcases hg with ⟨hg, hne⟩ | rfl
      · -- a file of another path: its rows are untouched
        have hne : g.path ≠ segment.path := by simpa using hne
        obtain ⟨es, hes, hfile, hstored, honly⟩ := hsound g hg
        refine ⟨es, hes, hgoid ▸ hfile, ?_, ?_⟩
        · intro e he
          obtain ⟨row, hrow, hrowpath, hid⟩ := hstored e he
          have hrne : row.path ≠ segment.path := hrowpath ▸ hne
          refine ⟨row, (hinv.others row hrne).mpr ?_, hrowpath.trans hpath, hid⟩
          simpa [replaceFile, hrne] using hrow
        · intro row hrow hrowpath
          have hrne : row.path ≠ segment.path := by rw [hrowpath, ← hpath]; exact hne
          have := (hinv.others row hrne).mp hrow
          simp only [replaceFile, List.mem_filter] at this
          exact honly row this.1 (hrowpath.trans hpath.symm)
      · refine ⟨entries, hentries, hgoid ▸ hoid, ?_, ?_⟩
        · intro e he
          obtain ⟨row, hrow, hrowpath, hid⟩ := hinv.stored e he
          exact ⟨row, hrow, hrowpath.trans hpath, hid⟩
        · intro row hrow hrowpath
          exact hinv.only row hrow (hrowpath.trans hpath.symm)
    · simp only [DeliveryIndex.known, List.any_map, List.any_eq_true, Function.comp_apply,
        decide_eq_true_eq]
      refine ⟨⟨segment.path, segment.oid, 0⟩, ?_, by simp⟩
      rw [hinv.files]
      simp [replaceFile]
    · intro other hne hknown
      simp only [DeliveryIndex.known, List.any_map, List.any_eq_true, Function.comp_apply,
        decide_eq_true_eq] at hknown ⊢
      obtain ⟨f, hf, hpath, hfoid⟩ := hknown
      refine ⟨f, ?_, ?_⟩
      · rw [hinv.files]
        simp only [replaceFile, List.mem_append, List.mem_filter]
        exact Or.inl ⟨hf, by simp [hpath, hne]⟩
      · split <;> exact ⟨hpath, hfoid⟩
  · refine ⟨rfl, rfl, ?_, by simp, ?_⟩
    · intro row _; exact Iff.rfl
    · intro row hrow hpath
      simp [replaceFile, hpath] at hrow

/-! ### The inventory of a stored series -/

/-- The segments of an inventory are the parts of the series. -/
def Listed (codec : LineCodec) (day : Day) (writer : UUID) (series : Series)
    (segments : List Segment) : Prop :=
  ∀ segment, segment ∈ segments ↔ ∃ p, series[segment.part]? = some p ∧
    segment = ⟨⟨day, writer, segment.part⟩, p.archived, fileOf codec p.entries⟩

theorem inventory_listed {head : Option Tree} {day : Day} {writer : UUID} {series : Series}
    (hseries : (headTree head).HasSeries codec day writer series) {version : Nat}
    {segments : List Segment} (h : inventory head day writer version = .ok segments) :
    Listed codec day writer series segments := by
  intro segment
  rw [mem_inventory h]
  obtain ⟨⟨d, w, part⟩, archived, oid⟩ := segment
  simp only [Segment.path, Segment.part]
  constructor
  · rintro ⟨hblob, rfl, rfl⟩
    rw [hseries archived part, Series.view_eq_some] at hblob
    obtain ⟨p, hp, rfl, rfl⟩ := hblob
    exact ⟨p, hp, rfl⟩
  · rintro ⟨p, hp, heq⟩
    simp only [Segment.mk.injEq, Relative.mk.injEq] at heq
    obtain ⟨⟨rfl, rfl, -⟩, rfl, rfl⟩ := heq
    refine ⟨?_, rfl, rfl⟩
    rw [hseries p.archived part, Series.view_eq_some]
    exact ⟨p, hp, rfl, rfl⟩

section

variable {day : Day} {writer : UUID} {series : Series} {segments : List Segment}

theorem Listed.mem (h : Listed codec day writer series segments) {part : Nat} {p : Part}
    (hp : series[part]? = some p) :
    (⟨⟨day, writer, part⟩, p.archived, fileOf codec p.entries⟩ : Segment) ∈ segments :=
  (h _).mpr ⟨p, hp, rfl⟩

theorem Listed.exists_part (h : Listed codec day writer series segments) {segment : Segment}
    (hmem : segment ∈ segments) :
    ∃ p, series[segment.part]? = some p ∧ segment.archived = p.archived ∧
      segment.oid = fileOf codec p.entries := by
  obtain ⟨p, hp, heq⟩ := (h segment).mp hmem
  exact ⟨p, hp, congrArg Segment.archived heq, congrArg Segment.oid heq⟩

theorem Listed.path_injective (h : Listed codec day writer series segments) {a b : Segment}
    (ha : a ∈ segments) (hb : b ∈ segments) (hpath : a.path = b.path) : a = b := by
  simp only [Segment.path, Path.journal.injEq] at hpath
  obtain ⟨p, hp, heqp⟩ := (h a).mp ha
  obtain ⟨q, hq, heqq⟩ := (h b).mp hb
  have hpart : a.part = b.part := congrArg Relative.part hpath.2
  rw [hpart, hq] at hp
  rw [heqp, heqq, hpart, Option.some.inj hp]

/-! ### The index after reading a series -/

/-- The index is complete for the selected segments. -/
structure Selected (codec : LineCodec) (S : Set Entry) (segments done : List Segment)
    (index : DeliveryIndex) : Prop where
  sound : index.Sound codec S
  current : index.currentFiles = segments.map fun s => (s.path, s.oid)
  known : ∀ segment ∈ done, index.known segment = true

theorem readSegments_selected (hrec : ∀ e ∈ S, Recordable codec e)
    {scope : Entry → Except JournalError Unit} (hok : series.Ok codec S day writer)
    (hlisted : Listed codec day writer series segments) {tail : Option Segment}
    {index : DeliveryIndex} (hsound : index.Sound codec S) {readBytes : Nat} {flag : Bool}
    {state : ReadState}
    (h : segments.foldlM (readSegment codec scope tail)
      ⟨index.select segments, readBytes, flag⟩ = .ok state) :
    Selected codec S segments segments state.index := by
  have hinv := foldlM_prefix_invariant
    (fun done (state : ReadState) => (∀ segment ∈ done, segment ∈ segments) ∧
      Selected codec S segments done state.index) segments ?_ ?_ h
  · exact hinv.2
  · rintro done state segment state' hmem ⟨hdone, hsel⟩ hstep
    have hdone' : ∀ s ∈ done ++ [segment], s ∈ segments := by
      intro s hs
      rcases List.mem_append.mp hs with hs | hs
      · exact hdone s hs
      · rw [List.mem_singleton] at hs; exact hs ▸ hmem
    refine ⟨hdone', ?_⟩
    unfold readSegment at hstep
    split at hstep
    · -- the cached rows of an unchanged object are used as they are
      next hknown =>
      cases hstep
      refine ⟨hsel.sound, hsel.current, ?_⟩
      intro s hs
      rcases List.mem_append.mp hs with hs | hs
      · exact hsel.known s hs
      · rw [List.mem_singleton] at hs; exact hs ▸ hknown
    · simp only [bind_eq_ok, pure_eq_ok] at hstep
      obtain ⟨index', hremember, rfl⟩ := hstep
      obtain ⟨p, hp, -, hoid⟩ := hlisted.exists_part hmem
      have hp' : p ∈ series := List.mem_of_getElem? hp
      have hentries : ∀ e ∈ p.entries, e ∈ S := fun e he =>
        hok.submitted e (Series.mem_entries.mpr ⟨p, hp', he⟩)
      obtain ⟨hs, hcur, hkn, hothers⟩ := DeliveryIndex.remember_sound hrec hentries hoid
        (hoid ▸ hok.size p hp') hsel.sound hremember
      refine ⟨hs, hcur.trans hsel.current, ?_⟩
      intro s hs
      by_cases hpath : s.path = segment.path
      · rw [hlisted.path_injective (hdone' s hs) hmem hpath]; exact hkn
      · refine hothers s hpath (hsel.known s ?_)
        rcases List.mem_append.mp hs with hs | hs
        · exact hs
        · rw [List.mem_singleton] at hs; exact absurd (hs ▸ rfl) hpath
  · exact ⟨by simp, hsound.select segments, rfl, by simp⟩

/-- **The delivery index decides membership**: once the segments are selected, an
    entry is found exactly when the series holds it. -/
theorem Selected.check_iff (hrec : ∀ e ∈ S, Recordable codec e) (hS : DistinctIdentities S)
    (hok : series.Ok codec S day writer) (hlisted : Listed codec day writer series segments)
    {index : DeliveryIndex} (hsel : Selected codec S segments segments index) {entry : Entry}
    (hentry : entry ∈ S) {digest : Bytes} {present : Bool}
    (h : index.check entry digest = .ok present) :
    present = true ↔ entry ∈ series.entries := by
  -- a cached file that is current holds exactly one part's entries
  have hpart : ∀ f ∈ index.files, index.isCurrent f = true →
      ∀ es : List Entry, (∀ e ∈ es, e ∈ S) → f.oid = fileOf codec es →
        ∃ p ∈ series, p.entries = es := by
    intro f _ hcur es hes hoid
    simp only [DeliveryIndex.isCurrent, hsel.current, List.mem_map, Prod.mk.injEq,
      decide_eq_true_eq] at hcur
    obtain ⟨segment, hseg, hpath, hsegoid⟩ := hcur
    obtain ⟨p, hp, -, hfile⟩ := hlisted.exists_part hseg
    have hp' : p ∈ series := List.mem_of_getElem? hp
    refine ⟨p, hp', fileOf_injective hrec ?_ hes (hok.size p hp') ?_⟩
    · intro e he
      exact hok.submitted e (Series.mem_entries.mpr ⟨p, hp', he⟩)
    · rw [← hfile, hsegoid, hoid]
  rw [DeliveryIndex.check_eq_ok h]
  simp only [DeliveryIndex.mem_matching, DeliveryIndex.mem_currentEvents, and_true]
  constructor
  · rintro ⟨row, ⟨hrow, f, hf, hpath, hcur⟩, hid⟩
    obtain ⟨es, hes, hoid, -, honly⟩ := hsel.sound f hf
    obtain ⟨e, he, hrid, hrorigin, hrversion⟩ := honly row hrow hpath.symm
    obtain ⟨p, hp, rfl⟩ := hpart f hf hcur es hes hoid
    have hsame : e = entry := by
      refine hS e (hes e he) entry hentry ?_
      rw [← hrid, ← hrorigin, ← hrversion]
      exact hid
    exact Series.mem_entries.mpr ⟨p, hp, hsame ▸ he⟩
  · intro hmem
    obtain ⟨p, hp, hep⟩ := Series.mem_entries.mp hmem
    obtain ⟨k, hk⟩ := List.getElem?_of_mem hp
    have hseg := hlisted.mem hk
    have hknown := hsel.known _ hseg
    simp only [DeliveryIndex.known, List.any_eq_true, decide_eq_true_eq] at hknown
    obtain ⟨f, hf, hpath, hfoid⟩ := hknown
    have hcur : index.isCurrent f = true := by
      simp only [DeliveryIndex.isCurrent, hsel.current, List.mem_map, Prod.mk.injEq,
        decide_eq_true_eq]
      exact ⟨_, hseg, hpath.symm, hfoid.symm⟩
    obtain ⟨es, hes, hoid, hstored, -⟩ := hsel.sound f hf
    have hsame : p.entries = es := by
      refine fileOf_injective hrec ?_ hes (hok.size p hp) (hfoid.symm.trans hoid)
      intro e he
      exact hok.submitted e (Series.mem_entries.mpr ⟨p, hp, he⟩)
    obtain ⟨row, hrow, hrowpath, hrowid⟩ := hstored entry (hsame ▸ hep)
    exact ⟨row, ⟨hrow, f, hf, hrowpath.symm, hcur⟩, Or.inl hrowid⟩

end

end

end Mnemion.Journal
