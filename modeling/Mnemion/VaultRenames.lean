/-
  Mnemion/VaultRenames.lean
  =========================
  **Links follow their notes, but for captured ones** (`stable_links`).  The renames are
  applied one after another, so a link that was just rewritten to a note's stable path
  is rewritten again where that path is another note's exported one.
-/
import Mnemion.VaultPaths
import Mnemion.Table

namespace Mnemion.VaultPaths

open Outcome PortablePaths Wikilinks

attribute [local instance] text_lawful

variable {vault : Vault} {files : List (Text × Text)} {previous : Manifest}

/-! ### What is promised -/

/-- `path + ".md"` -/
def notePath (name : Text) : Text := name ++ ".md".toList

/-- All links that name an exported note get its stored path at once. -/
def simultaneous (files : List (Text × Text)) (stored : Text → Text) (name : Text) : Text :=
  if notePath name ∈ files.map (·.1) then stem (stored (notePath name)) else name

/-- The result is the exported notes under paths of their own, with their links moved. -/
structure Follows (unicode : Unicode) (files result : List (Text × Text)) (stored : Text → Text) :
    Prop where
  distinct : (result.map fun note => pathKey unicode note.1).Nodup
  notes : result = files.map fun note => (stored note.1, relink (simultaneous files stored) note.2)

/-- The renames of an export: exported paths with their notes' old paths. -/
def renames (vault : Vault) (files : List (Text × Text)) (previous : Manifest) :
    Except RefreshError (List (Text × Text)) := do
  let oldPaths ← oldPaths vault previous
  replacements vault oldPaths files

/-- The renames that change something, by the names that links use. -/
def moves (replacements : List (Text × Text)) : List (Text × Text) :=
  (replacements.filter fun r => r.1 ≠ r.2).map fun r => (stem r.1, stem r.2)

/-- Wherever a note links to a renamed one, the renames that come later leave the new
    path alone. -/
def Uncaptured (files replacements : List (Text × Text)) : Prop :=
  ∀ note ∈ files, ∀ name ∈ names note.2, ∀ before old later,
    replacements = before ++ (notePath name, old) :: later →
      follow (moves later) (stem old) = stem old

/-! ### Names and paths -/

theorem stem_notePath (name : Text) : stem (notePath name) = name := by
  rw [stem, notePath, if_pos (by rw [List.isSuffixOf_iff_suffix]; exact List.suffix_append _ _),
    List.length_append, show ".md".toList.length = 3 from rfl, Nat.add_sub_cancel, List.take_left]

theorem notePath_stem {path : Text} (h : ".md".toList <:+ path) : notePath (stem path) = path := by
  obtain ⟨name, rfl⟩ := h
  exact congrArg notePath (stem_notePath name)

theorem rewrite_eq (replacements : List (Text × Text)) (text : Text) :
    rewrite replacements text = substituteAll (moves replacements) text := by
  rw [rewrite, substituteAll, moves, List.foldl_map, List.foldl_filter]
  congr 1
  funext text r
  by_cases h : r.1 = r.2 <;> simp [h]

/-! ### The loops -/

theorem oldPaths_values {table : List (Text × Text)} (h : oldPaths vault previous = .ok table) :
    ∀ old ∈ table.map (·.2), old ∈ previous.idPaths.map (·.2) ∨ old ∈ previous.files := by
  refine foldlM_invariant (fun table : List (Text × Text) => ∀ old ∈ table.map (·.2),
    old ∈ previous.idPaths.map (·.2) ∨ old ∈ previous.files) (fun t rel t' hrel ht hstep => ?_)
    (fun old hold => Or.inl hold) h
  simp only [bind_eq_ok] at hstep
  obtain ⟨-, -, hstep⟩ := hstep
  split at hstep
  · simp only [bind_eq_ok] at hstep
    obtain ⟨text, -, identity, -, hstep⟩ := hstep
    split at hstep
    · split at hstep
      · cases pure_eq_ok.mp hstep
        exact ht
      · cases pure_eq_ok.mp hstep
        intro old hold
        rw [List.map_append, List.mem_append] at hold
        rcases hold with hold | hold
        · exact ht old hold
        · rw [List.map_singleton, List.mem_singleton] at hold
          exact Or.inr (hold ▸ hrel)
    · cases pure_eq_ok.mp hstep
      exact ht
  · cases pure_eq_ok.mp hstep
    exact ht

theorem replacements_spec {table renamed : List (Text × Text)}
    (h : replacements vault table files = .ok renamed) :
    (renamed.map (·.1)).Sublist (files.map (·.1)) ∧ ∀ r ∈ renamed, r.2 ∈ table.map (·.2) := by
  refine foldlM_prefix_invariant (fun done (renamed : List (Text × Text)) =>
    (renamed.map (·.1)).Sublist (done.map (·.1)) ∧ ∀ r ∈ renamed, r.2 ∈ table.map (·.2)) files
    (fun done t note t' _ ht hstep => ?_) ⟨List.Sublist.refl _, fun r hr => nomatch hr⟩ h
  simp only [bind_eq_ok] at hstep
  obtain ⟨aliases, -, hstep⟩ := hstep
  rw [List.map_append]
  split at hstep
  · next old hold =>
    simp only [bind_eq_ok, pure_eq_ok] at hstep
    obtain ⟨-, -, rfl⟩ := hstep
    refine ⟨?_, fun r hr => ?_⟩
    · rw [List.map_append]
      exact ht.1.append (List.Sublist.refl _)
    · rcases List.mem_append.mp hr with hr | hr
      · exact ht.2 r hr
      · rw [List.mem_singleton] at hr
        subst hr
        obtain ⟨identity, -, hlookup⟩ := List.exists_of_findSome?_eq_some hold
        exact List.mem_map.mpr ⟨_, Assoc.lookup_mem hlookup, rfl⟩
  · cases pure_eq_ok.mp hstep
    exact ⟨ht.1.trans (List.sublist_append_left _ _), ht.2⟩

theorem upsert_new {key : Text} {value : Text} :
    ∀ {rows : List (Text × Text)}, key ∉ rows.map (·.1) → Assoc.upsert key value rows = rows ++ [(key, value)]
  | [], _ => rfl
  | row :: rows, h => by
    rw [List.map_cons, List.mem_cons, not_or] at h
    rw [Assoc.upsert, if_neg (Ne.symm h.1), upsert_new h.2, List.cons_append]

/-- What `stable_paths` returns: each note under its destination, rewritten. -/
theorem stablePaths_eq {result : List (Text × Text)} (h : stablePaths vault files previous = .ok result) :
    ∃ renamed, renames vault files previous = .ok renamed ∧
      result = files.map (fun note => (destination renamed note.1, rewrite renamed note.2)) ∧
      (result.map fun note => pathKey vault.unicode note.1).Nodup := by
  simp only [stablePaths, bind_eq_ok, pure_eq_ok] at h
  obtain ⟨table, htable, renamed, hrenamed, ⟨notes, folded⟩, hloop, rfl⟩ := h
  refine ⟨renamed, ?_, ?_⟩
  · rw [renames, htable]
    exact hrenamed
  · have hstate := foldlM_prefix_invariant (fun done (state : List (Text × Text) × List Text) =>
      state.1 = done.map (fun note => (destination renamed note.1, rewrite renamed note.2)) ∧
        state.2 = state.1.map (fun note => pathKey vault.unicode note.1) ∧ state.2.Nodup) files
      (fun done state note state' _ hstate hstep => ?_) ⟨rfl, rfl, List.nodup_nil⟩ hloop
    · exact ⟨hstate.1, hstate.2.1 ▸ hstate.2.2⟩
    · obtain ⟨notes, folded⟩ := state
      obtain ⟨hnotes, hfolded, hnodup⟩ := hstate
      simp only [bind_eq_ok, check_eq_ok, pure_eq_ok] at hstep
      obtain ⟨-, -, -, hfresh, rfl⟩ := hstep
      dsimp only at hnotes hfolded hnodup hfresh ⊢
      have hkey : destination renamed note.1 ∉ notes.map (·.1) := by
        intro hmem
        obtain ⟨row, hrow, hsame⟩ := List.mem_map.mp hmem
        rw [hfolded] at hfresh
        exact hfresh (List.mem_map.mpr ⟨row, hrow, by rw [hsame]⟩)
      rw [upsert_new hkey]
      refine ⟨?_, ?_, ?_⟩
      · rw [hnotes, List.map_append]
        rfl
      · rw [hfolded, List.map_append]
        rfl
      · exact List.nodup_append.mpr ⟨hnodup, List.nodup_singleton _, fun a ha b hb hab => by
          rw [List.mem_singleton.mp hb] at hab
          exact hfresh (hab ▸ ha)⟩

/-! ### One name through all renames -/

section

variable {renamed : List (Text × Text)} {name : Text}

theorem follow_append (before later : List (Text × Text)) (name : Text) :
    follow (moves (before ++ later)) name = follow (moves later) (follow (moves before) name) := by
  rw [moves, List.filter_append, List.map_append, follow, List.foldl_append]
  rfl

/-- A name that no rename starts at stays. -/
theorem follow_stays (hmd : ∀ r ∈ renamed, ".md".toList <:+ r.1)
    (h : notePath name ∉ renamed.map (·.1)) : follow (moves renamed) name = name := by
  induction renamed with
  | nil => rfl
  | cons r renamed ih =>
    have hrest := ih (fun r hr => hmd r (List.mem_cons_of_mem _ hr))
      fun hmem => h (List.mem_cons_of_mem _ hmem)
    have hne : name ≠ stem r.1 := by
      rintro rfl
      rw [notePath_stem (hmd r (List.mem_cons_self ..))] at h
      exact h (List.mem_cons_self ..)
    rw [moves, List.filter_cons]
    split
    · rw [List.map_cons, follow, List.foldl_cons, if_neg hne]
      exact hrest
    · exact hrest

/-- A name that a rename starts at goes on from the new path. -/
theorem follow_moved {before later : List (Text × Text)} {old : Text}
    (hmd : ∀ r ∈ before ++ (notePath name, old) :: later, ".md".toList <:+ r.1)
    (hkeys : ((before ++ (notePath name, old) :: later).map (·.1)).Nodup) :
    follow (moves (before ++ (notePath name, old) :: later)) name = follow (moves later) (stem old) := by
  have hbefore : notePath name ∉ before.map (·.1) := by
    intro hmem
    rw [List.map_append] at hkeys
    exact (List.nodup_append.mp hkeys).2.2 _ hmem _ (List.mem_cons_self ..) rfl
  rw [follow_append, follow_stays (fun r hr => hmd r (List.mem_append_left _ hr)) hbefore, moves,
    List.filter_cons]
  split
  · rw [List.map_cons, follow, List.foldl_cons, if_pos (stem_notePath name).symm]
    rfl
  · next hsame =>
    have hold : notePath name = old := by simpa using hsame
    rw [← hold, stem_notePath]
    rfl

theorem destination_moved {before later : List (Text × Text)} {rel old : Text}
    (hkeys : ((before ++ (rel, old) :: later).map (·.1)).Nodup) :
    destination (before ++ (rel, old) :: later) rel = old := by
  have hfind : (before ++ (rel, old) :: later).find? (fun row => decide (row.1 = rel)) = some (rel, old) :=
    (Table.find?_key hkeys).mpr ⟨by simp, rfl⟩
  rw [destination, Assoc.lookup, hfind]
  rfl

theorem destination_stays {rel : Text} (h : rel ∉ renamed.map (·.1)) : destination renamed rel = rel := by
  have hfind : renamed.find? (fun row => decide (row.1 = rel)) = none := by
    rw [List.find?_eq_none]
    intro r hr hsame
    exact h (List.mem_map.mpr ⟨r, hr, by simpa using hsame⟩)
  rw [destination, Assoc.lookup, hfind]
  rfl

/-- **One name**: it ends up as it should if and only if the later renames leave it. -/
theorem follow_iff (hmd : ∀ r ∈ renamed, ".md".toList <:+ r.1) (hkeys : (renamed.map (·.1)).Nodup)
    (hsub : ∀ rel ∈ renamed.map (·.1), rel ∈ files.map (·.1)) :
    follow (moves renamed) name = simultaneous files (destination renamed) name ↔
      ∀ before old later, renamed = before ++ (notePath name, old) :: later →
        follow (moves later) (stem old) = stem old := by
  by_cases hmem : notePath name ∈ renamed.map (·.1)
  · obtain ⟨⟨_, old⟩, hr, rfl⟩ := List.mem_map.mp hmem
    obtain ⟨before, later, rfl⟩ := List.append_of_mem hr
    rw [follow_moved hmd hkeys, simultaneous, if_pos (hsub _ hmem), destination_moved hkeys]
    refine ⟨fun h before' old' later' hsplit => ?_, fun h => h before old later rfl⟩
    have hsame : destination (before ++ (notePath name, old) :: later) (notePath name) = old' := by
      rw [hsplit] at hkeys ⊢
      exact destination_moved hkeys
    rw [destination_moved hkeys] at hsame
    subst hsame
    have hfollow : follow (moves (before ++ (notePath name, old) :: later)) name =
        follow (moves later') (stem old) := by
      rw [hsplit] at hmd hkeys ⊢
      exact follow_moved hmd hkeys
    rw [← hfollow, follow_moved hmd hkeys]
    exact h
  · refine iff_of_true ?_ fun before old later hsplit => absurd ?_ hmem
    · rw [follow_stays hmd hmem, simultaneous, destination_stays hmem, stem_notePath]
      split <;> rfl
    · rw [hsplit]
      simp

end

/-- **Stable paths.**  The notes keep paths of their own; their links follow them if and
    only if no link is captured by a later rename. -/
theorem stable_links {result : List (Text × Text)} (hkeys : (files.map (·.1)).Nodup)
    (hmd : ∀ note ∈ files, ".md".toList <:+ note.1) (hplain : ∀ note ∈ files, Plain (stem note.1))
    (hold : ∀ old, old ∈ previous.idPaths.map (·.2) ∨ old ∈ previous.files → Plain (stem old))
    (hok : stablePaths vault files previous = .ok result) :
    ∃ renamed, renames vault files previous = .ok renamed ∧
      ((∃ stored, Follows vault.unicode files result stored) ↔ Uncaptured files renamed) := by
  obtain ⟨renamed, hrenames, hresult, hdistinct⟩ := stablePaths_eq hok
  refine ⟨renamed, hrenames, ?_⟩
  simp only [renames, bind_eq_ok] at hrenames
  obtain ⟨table, htable, hrenamed⟩ := hrenames
  obtain ⟨hsub, hvalues⟩ := replacements_spec hrenamed
  have hnodup : (renamed.map (·.1)).Nodup := hkeys.sublist hsub
  have hexported : ∀ rel ∈ renamed.map (·.1), rel ∈ files.map (·.1) := fun rel hrel => hsub.subset hrel
  have hfile : ∀ r ∈ renamed, ∃ note ∈ files, note.1 = r.1 := fun r hr =>
    List.mem_map.mp (hexported _ (List.mem_map_of_mem hr))
  have hrmd : ∀ r ∈ renamed, ".md".toList <:+ r.1 := by
    intro r hr
    obtain ⟨note, hnote, hsame⟩ := hfile r hr
    exact hsame ▸ hmd note hnote
  have hrold : ∀ r ∈ renamed, Plain (stem r.2) :=
    fun r hr => hold r.2 (oldPaths_values htable _ (hvalues r hr))
  have hmoves : ∀ move ∈ moves renamed, Plain move.1 ∧ Plain move.2 := by
    intro move hmove
    obtain ⟨r, hr, rfl⟩ := List.mem_map.mp hmove
    have hr := (List.mem_filter.mp hr).1
    obtain ⟨note, hnote, hsame⟩ := hfile r hr
    exact ⟨hsame ▸ hplain note hnote, hrold r hr⟩
  have hfollow : ∀ name, Plain (follow (moves renamed) name) ∨ follow (moves renamed) name = name :=
    follow_plain fun move hmove => (hmoves move hmove).2
  have hrewrite : ∀ text, rewrite renamed text = relink (follow (moves renamed)) text := by
    intro text
    rw [rewrite_eq, substituteAll_eq hmoves]
  have hdestination : ∀ rel ∈ files.map (·.1), Plain (stem (destination renamed rel)) := by
    intro rel hrel
    by_cases hmem : rel ∈ renamed.map (·.1)
    · obtain ⟨⟨_, old⟩, hr, rfl⟩ := List.mem_map.mp hmem
      have hplainOld := hrold _ hr
      obtain ⟨before, later, rfl⟩ := List.append_of_mem hr
      rw [destination_moved hnodup]
      exact hplainOld
    · rw [destination_stays hmem]
      obtain ⟨note, hnote, rfl⟩ := List.mem_map.mp hrel
      exact hplain note hnote
  have hsimultaneous : ∀ name, Plain (simultaneous files (destination renamed) name) ∨
      simultaneous files (destination renamed) name = name := by
    intro name
    rw [simultaneous]
    split
    · next hmem => exact Or.inl (hdestination _ hmem)
    · exact Or.inr rfl
  have hnote : ∀ text, rewrite renamed text = relink (simultaneous files (destination renamed)) text ↔
      ∀ name ∈ names text, follow (moves renamed) name = simultaneous files (destination renamed) name := by
    intro text
    rw [hrewrite]
    exact relink_inj hfollow hsimultaneous
  constructor
  · rintro ⟨stored, hfollows⟩ note hmem name hname
    have hpairs := hresult.symm.trans hfollows.notes
    have hstored : ∀ rel ∈ files.map (·.1), stored rel = destination renamed rel := by
      intro rel hrel
      obtain ⟨other, hother, rfl⟩ := List.mem_map.mp hrel
      exact (congrArg Prod.fst (List.map_inj_left.mp hpairs other hother)).symm
    have htext := congrArg Prod.snd (List.map_inj_left.mp hpairs note hmem)
    have hsame : relink (simultaneous files stored) note.2 =
        relink (simultaneous files (destination renamed)) note.2 := by
      refine relink_congr fun other _ => ?_
      rw [simultaneous, simultaneous]
      split
      · next hexport => rw [hstored _ hexport]
      · rfl
    exact (follow_iff hrmd hnodup hexported).mp ((hnote note.2).mp (htext.trans hsame) name hname)
  · intro huncaptured
    refine ⟨destination renamed, hdistinct, ?_⟩
    rw [hresult]
    refine List.map_congr_left fun note hmem => ?_
    have htext := (hnote note.2).mpr fun name hname =>
      (follow_iff hrmd hnodup hexported).mpr (huncaptured note hmem name hname)
    rw [htext]

/-! ### Two notes that exchange their paths -/

/-- An empty directory; front matter is one line `id: x`. -/
def sampleVault : Vault where
  unicode := ⟨id, fun text => text.map Char.toLower⟩
  inside _ := true
  linked _ := false
  isFile _ := false
  read _ := .error .unexpected
  safeLoad text := .ok (some fun key => if key = "id".toList then some (.text [text.getD 5 ' ']) else none)

def sampleFiles : List (Text × Text) :=
  [("A.md".toList, "---\nid: a\n---\n".toList),
    ("B.md".toList, "---\nid: b\n---\n[[A|Other]]".toList)]

def samplePrevious : Manifest :=
  ⟨[("a".toList, "B.md".toList), ("b".toList, "A.md".toList)], []⟩

def sampleResult : List (Text × Text) :=
  [("B.md".toList, "---\nid: a\n---\n".toList),
    ("A.md".toList, "---\nid: b\n---\n[[A|Other]]".toList)]

theorem sample_returns : stablePaths sampleVault sampleFiles samplePrevious = .ok sampleResult := by
  decide +kernel

/-- The link to the note that is now `B.md` still says `A`: the note it is in. -/
theorem stable_links_captured :
    stablePaths sampleVault sampleFiles samplePrevious = .ok sampleResult ∧
      ¬ ∃ stored, Follows sampleVault.unicode sampleFiles sampleResult stored := by
  refine ⟨sample_returns, ?_⟩
  rintro ⟨stored, -, hnotes⟩
  obtain ⟨hfirst, hrest⟩ := List.cons.inj hnotes
  obtain ⟨hsecond, -⟩ := List.cons.inj hrest
  have hstored : stored "A.md".toList = "B.md".toList := (congrArg Prod.fst hfirst).symm
  have htext : "---\nid: b\n---\n[[A|Other]]".toList =
      relink (simultaneous sampleFiles stored) "---\nid: b\n---\n[[A|Other]]".toList :=
    congrArg Prod.snd hsecond
  have hlink : relink (simultaneous sampleFiles stored) "---\nid: b\n---\n[[A|Other]]".toList =
      relink (fun _ => "B".toList) "---\nid: b\n---\n[[A|Other]]".toList := by
    apply relink_congr
    have hnames : names "---\nid: b\n---\n[[A|Other]]".toList = ["A".toList] := by decide +kernel
    rw [hnames]
    rintro name hname
    rw [List.mem_singleton.mp hname, simultaneous, if_pos (by decide +kernel)]
    exact (congrArg stem hstored).trans (by decide +kernel)
  rw [hlink] at htext
  revert htext
  decide +kernel

/-- The same export, by the theorem. -/
theorem stable_links_sample : ∃ renamed, renames sampleVault sampleFiles samplePrevious = .ok renamed ∧
    ((∃ stored, Follows sampleVault.unicode sampleFiles sampleResult stored) ↔
      Uncaptured sampleFiles renamed) := by
  apply stable_links
  · decide +kernel
  · decide +kernel
  · decide +kernel
  · intro old hold
    have hmem : old ∈ ["B.md".toList, "A.md".toList] := hold.resolve_right fun hnone => nomatch hnone
    clear hold
    revert old
    decide +kernel
  · decide +kernel

end Mnemion.VaultPaths
