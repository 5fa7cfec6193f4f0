/-
  Mnemion/KeepassReturn.lean
  ==========================
  **The entries that come back from an export.**  The tree of a selection places
  every entry below its groups, so a tree whose values are undisturbed is loaded
  as the selection (`returned_plain`), and a tree that is loaded as the selection
  is undisturbed (`Resembles.eq_of_returned`).
-/
import Mnemion.KeepassStream
import Mathlib.Data.List.Forall2

namespace Mnemion.Keepass

open Outcome PythonText XmlText

variable {α β : Type}

/-! ### Where the entries stand -/

namespace Items

/-- The entries below the groups among some siblings, with the names of their
    groups, in the order of the walk. -/
def placedBelow : List String → Items α → List (List String × α)
  | _, nil => []
  | names, entry _ rest => rest.placedBelow names
  | names, group key _ children rest =>
    children.entries.map (fun item => (names ++ [key.name], item)) ++
      children.placedBelow (names ++ [key.name]) ++ rest.placedBelow names

def placed (names : List String) (items : Items α) : List (List String × α) :=
  items.entries.map (fun item => (names, item)) ++ items.placedBelow names

theorem placed_entry (names : List String) (item : α) (rest : Items α) :
    (entry item rest).placed names = (names, item) :: rest.placed names := rfl

theorem placed_group_perm (names : List String) (key : Group) (path : List Group)
    (children rest : Items α) :
    ((group key path children rest).placed names).Perm
      (children.placed (names ++ [key.name]) ++ rest.placed names) := by
  show (rest.entries.map (fun item => (names, item)) ++
    (children.placed (names ++ [key.name]) ++ rest.placedBelow names)).Perm _
  exact List.perm_append_comm_assoc _ _ _

theorem placed_single_perm (item : α) : ∀ (path before : List Group) (names : List String),
    ((single item before path).placed names).Perm [(names ++ path.map Group.name, item)]
  | [], before, names => by
    rw [single, placed_entry, List.map_nil, List.append_nil]
    rfl
  | key :: path, before, names => by
    refine (placed_group_perm names key _ _ _).trans ?_
    refine ((placed_single_perm item path _ _).append_right _).trans ?_
    rw [List.append_assoc]
    rfl

theorem placed_insert_perm (item : α) : ∀ (items : Items α) (before path : List Group)
    (names : List String),
    ((items.insert item before path).placed names).Perm
      ((names ++ path.map Group.name, item) :: items.placed names)
  | nil, before, path, names => placed_single_perm item path before names
  | entry first rest, before, path, names => by
    rw [insert, placed_entry, placed_entry]
    exact ((placed_insert_perm item rest before path names).cons _).trans (.swap _ _ _)
  | group key keyPath children rest, before, [], names => by
    refine (placed_group_perm names key _ _ _).trans ?_
    refine ((placed_insert_perm item rest before [] names).append_left _).trans ?_
    exact List.perm_middle.trans ((placed_group_perm names key _ _ _).symm.cons _)
  | group key keyPath children rest, before, next :: path, names => by
    rw [insert]
    split
    · next hkey =>
      refine (placed_group_perm names key _ _ _).trans ?_
      refine ((placed_insert_perm item children _ path _).append_right _).trans ?_
      rw [List.append_assoc, hkey]
      exact (placed_group_perm names key _ _ _).symm.cons _
    · refine (placed_group_perm names key _ _ _).trans ?_
      refine ((placed_insert_perm item rest before _ names).append_left _).trans ?_
      exact List.perm_middle.trans ((placed_group_perm names key _ _ _).symm.cons _)

/-- **Every entry stands below its groups.** -/
theorem placed_insertAll_perm (before : List Group) (names : List String) :
    ∀ (entries : List (List Group × α)) (items : Items α),
      ((insertAll before items entries).placed names).Perm
        (items.placed names ++
          entries.map fun entry => (names ++ entry.1.map Group.name, entry.2))
  | [], items => by
    rw [List.map_nil, List.append_nil]
    exact .refl _
  | first :: entries, items => by
    refine (placed_insertAll_perm before names entries _).trans ?_
    refine ((placed_insert_perm first.2 items before first.1 names).append_right _).trans ?_
    exact List.perm_middle.symm

theorem entries_map (f : α → β) : ∀ items : Items α, (items.map f).entries = items.entries.map f
  | nil => rfl
  | entry item rest => by rw [map, entries, entries, entries_map f rest]; rfl
  | group _ _ _ rest => entries_map f rest

theorem toList_map (f : α → β) : ∀ items : Items α, (items.map f).toList = items.toList.map f
  | nil => rfl
  | entry item rest => by rw [map, toList, toList, toList_map f rest]; rfl
  | group _ _ children rest => by
    rw [map, toList, toList, toList_map f children, toList_map f rest, List.map_append]

theorem depth_map (f : α → β) : ∀ items : Items α, (items.map f).depth = items.depth
  | nil => rfl
  | entry _ rest => depth_map f rest
  | group _ _ children rest => by rw [map, depth, depth, depth_map f children, depth_map f rest]

theorem forallGroups_map (f : α → β) (P : Group → Prop) : ∀ items : Items α,
    (items.map f).ForallGroups P ↔ items.ForallGroups P
  | nil => Iff.rfl
  | entry _ rest => forallGroups_map f P rest
  | group _ _ children rest => by
    rw [map, ForallGroups, ForallGroups, forallGroups_map f P children, forallGroups_map f P rest]

/-- A tree is no deeper than the paths put into it. -/
theorem depth_insert_le (item : α) {bound : Nat} : ∀ (items : Items α) (before path : List Group),
    items.depth ≤ bound → path.length ≤ bound → (items.insert item before path).depth ≤ bound := by
  have hsingle : ∀ (path before : List Group), (single item before path).depth = path.length := by
    intro path
    induction path with
    | nil => exact fun _ => rfl
    | cons key path ih =>
      intro before
      rw [single, depth, ih, depth, List.length_cons]
      omega
  intro items
  induction items generalizing bound with
  | nil =>
    intro before path _ hpath
    rw [insert, hsingle]
    exact hpath
  | entry first rest ih => exact fun before path hitems hpath => ih before path hitems hpath
  | group key keyPath children rest ihchildren ihrest =>
    intro before path hitems hpath
    rw [depth] at hitems
    cases path with
    | nil =>
      rw [insert, depth]
      have hrest : (rest.insert item before []).depth ≤ bound := ihrest before [] (by omega) hpath
      omega
    | cons next path =>
      rw [insert]
      rw [List.length_cons] at hpath
      split
      · rw [depth]
        have hchildren : (children.insert item (before ++ [next]) path).depth ≤ bound - 1 :=
          ihchildren (before ++ [next]) path (by omega) (by omega)
        omega
      · rw [depth]
        have hrest : (rest.insert item before (next :: path)).depth ≤ bound :=
          ihrest before (next :: path) (by omega) (by simpa using hpath)
        omega

theorem forallGroups_insert {P : Group → Prop} (item : α) : ∀ (items : Items α)
    (before path : List Group), items.ForallGroups P → (∀ key ∈ path, P key) →
      (items.insert item before path).ForallGroups P := by
  have hsingle : ∀ (path before : List Group), (∀ key ∈ path, P key) →
      (single item before path).ForallGroups P := by
    intro path
    induction path with
    | nil => exact fun _ _ => trivial
    | cons key path ih =>
      intro before hpath
      exact ⟨hpath key List.mem_cons_self, ih _ fun other hmem =>
        hpath other (List.mem_cons_of_mem _ hmem), trivial⟩
  intro items
  induction items with
  | nil => exact fun before path _ hpath => hsingle path before hpath
  | entry first rest ih => exact fun before path hitems hpath => ih before path hitems hpath
  | group key keyPath children rest ihchildren ihrest =>
    intro before path hitems hpath
    cases path with
    | nil => exact ⟨hitems.1, hitems.2.1, ihrest before [] hitems.2.2 hpath⟩
    | cons next path =>
      rw [insert]
      split
      · exact ⟨hitems.1, ihchildren _ path hitems.2.1 fun other hmem =>
          hpath other (List.mem_cons_of_mem _ hmem), hitems.2.2⟩
      · exact ⟨hitems.1, hitems.2.1, ihrest before _ hitems.2.2 hpath⟩

theorem depth_insertAll_le {bound : Nat} (before : List Group) :
    ∀ (entries : List (List Group × α)) (items : Items α), items.depth ≤ bound →
      (∀ entry ∈ entries, entry.1.length ≤ bound) → (insertAll before items entries).depth ≤ bound
  | [], _, hitems, _ => hitems
  | first :: entries, items, hitems, hentries =>
    depth_insertAll_le before entries _
      (depth_insert_le first.2 items before first.1 hitems (hentries first List.mem_cons_self))
      fun other hmem => hentries other (List.mem_cons_of_mem _ hmem)

theorem forallGroups_insertAll {P : Group → Prop} (before : List Group) :
    ∀ (entries : List (List Group × α)) (items : Items α), items.ForallGroups P →
      (∀ entry ∈ entries, ∀ key ∈ entry.1, P key) → (insertAll before items entries).ForallGroups P
  | [], _, hitems, _ => hitems
  | first :: entries, items, hitems, hentries =>
    forallGroups_insertAll before entries _
      (forallGroups_insert first.2 items before first.1 hitems (hentries first List.mem_cons_self))
      fun other hmem => hentries other (List.mem_cons_of_mem _ hmem)

end Items

/-! ### What the claim is about -/

/-- The names of the groups that `load` returns for an entry of an export. -/
def exportedGroups (common : Option Group) (entry : Entry) : List String :=
  match common with
  | some _ => entry.groups.map Group.name
  | none => "Mnemion export" :: entry.groups.map Group.name

/-- A loaded entry holds what an entry of the export held. -/
structure SameEntry (common : Option Group) (entry : Entry) (loaded : LoadedEntry) : Prop where
  id : loaded.id = entry.id
  title : loaded.title = titleOf entry.fields
  groups : loaded.groups.map Group.name = exportedGroups common entry
  fields : ∀ field, field ∈ loaded.fields ↔ field ∈ entry.fields

/-- The loaded entries are those of the export, one for one. -/
def Returned (entries : List Entry) (loaded : Loaded) : Prop :=
  ∃ order : List Entry, order.Perm entries ∧
    List.Forall₂ (SameEntry (commonRoot entries)) order loaded.entries

/-- The limits of `load` on the entries of an export. -/
structure Loadable (entries : List Entry) : Prop where
  ids : (entries.map Entry.id).Nodup
  keys : ∀ entry ∈ entries, (entry.fields.map keyOf).Nodup
  fields : ∀ entry ∈ entries, ∀ field ∈ entry.fields, field.Fits
  groups : ∀ entry ∈ entries, ∀ group ∈ entry.groups, (encodeUtf8 group.name).length ≤ 2048
  nonempty : ∀ entry ∈ entries, ∃ field ∈ entry.fields, field.value ≠ ""
  total : ((entries.flatMap Entry.fields).filter fun field =>
    decide (field.value ≠ "")).length ≤ 500

/-! ### The entries of a tree, loaded -/

theorem forall₂_imp_mem {R S : α → β → Prop} {a : List α} {b : List β} (h : List.Forall₂ R a b) :
    (∀ x ∈ a, ∀ y ∈ b, R x y → S x y) → List.Forall₂ S a b := by
  induction h with
  | nil => exact fun _ => .nil
  | cons hxy _ ih =>
    exact fun himp => .cons (himp _ List.mem_cons_self _ List.mem_cons_self hxy) <|
      ih fun x hx y hy => himp x (List.mem_cons_of_mem _ hx) y (List.mem_cons_of_mem _ hy)

/-- A loaded entry comes from a node with the names of its groups. -/
def LoadedFrom (loaded : LoadedEntry) (placed : List String × Node) : Prop :=
  loaded = loadedOf loaded.groups placed.2 ∧ loaded.groups.map Group.name = placed.1

theorem loadedOf_forall₂ (path : List Group) : ∀ nodes : List Node,
    List.Forall₂ LoadedFrom (nodes.map (loadedOf path))
      (nodes.map fun node => (path.map Group.name, node))
  | [] => .nil
  | _ :: nodes => .cons ⟨rfl, rfl⟩ (loadedOf_forall₂ path nodes)

theorem listed_forall₂ (draws : Draws) : ∀ (items : Items Node) (path : List Group),
    List.Forall₂ LoadedFrom (items.listed draws path) (items.placedBelow (path.map Group.name))
  | .nil, _ => .nil
  | .entry _ rest, path => listed_forall₂ draws rest path
  | .group key keyPath children rest, path => by
    have hnames : (path ++ [(⟨draws.groupId keyPath, key.name⟩ : Group)]).map Group.name =
        path.map Group.name ++ [key.name] := by simp
    have hchildren := listed_forall₂ draws children (path ++ [⟨draws.groupId keyPath, key.name⟩])
    have hdirect := loadedOf_forall₂ (path ++ [⟨draws.groupId keyPath, key.name⟩]) children.entries
    rw [hnames] at hchildren hdirect
    exact List.rel_append (List.rel_append hdirect hchildren) (listed_forall₂ draws rest path)

theorem loaded_forall₂ (draws : Draws) (root : Group) (items : Items Node) :
    List.Forall₂ LoadedFrom (items.loaded draws root) (items.placed [root.name]) :=
  List.rel_append (loadedOf_forall₂ [root] items.entries) (listed_forall₂ draws items [root])

namespace Items

theorem placedBelow_map (f : α → β) : ∀ (items : Items α) (names : List String),
    (items.map f).placedBelow names = (items.placedBelow names).map fun item => (item.1, f item.2)
  | nil, _ => rfl
  | entry _ rest, names => placedBelow_map f rest names
  | group key _ children rest, names => by
    rw [map, placedBelow, placedBelow, placedBelow_map f children, placedBelow_map f rest,
      entries_map]
    simp

theorem placed_map (f : α → β) (items : Items α) (names : List String) :
    (items.map f).placed names = (items.placed names).map fun item => (item.1, f item.2) := by
  rw [placed, placed, placedBelow_map, entries_map]
  simp

/-- The walk returns the entries of the document. -/
theorem placed_toList_perm : ∀ (items : Items α) (names : List String),
    ((items.placed names).map Prod.snd).Perm items.toList
  | nil, _ => .nil
  | entry item rest, names => (placed_toList_perm rest names).cons item
  | group key path children rest, names => by
    refine ((placed_group_perm names key path children rest).map Prod.snd).trans ?_
    rw [List.map_append, toList]
    exact (placed_toList_perm children _).append (placed_toList_perm rest names)

end Items

/-! ### Trees that differ in values only -/

/-- The same name, and a value of the same length. -/
def SameField (a b : Field) : Prop :=
  a.kind = b.kind ∧ a.name = b.name ∧ (encodeUtf8 a.value).length = (encodeUtf8 b.value).length

def SameNode (a b : Node) : Prop :=
  a.id = b.id ∧ a.time = b.time ∧ List.Forall₂ SameField a.fields b.fields

/-- Trees of one shape, their entries related one for one. -/
inductive Items.Rel (R : α → β → Prop) : Items α → Items β → Prop
  | nil : Rel R .nil .nil
  | entry {a : α} {b : β} {rest : Items α} {rest' : Items β} :
    R a b → Rel R rest rest' → Rel R (.entry a rest) (.entry b rest')
  | group {key : Group} {path : List Group} {children rest : Items α}
    {children' rest' : Items β} :
    Rel R children children' → Rel R rest rest' →
      Rel R (.group key path children rest) (.group key path children' rest')

theorem decryptFields_sameField {stream : Nat → UInt8} : ∀ {fields : List Field} {a b : Nat}
    {read : List Field × Nat},
    decryptFields stream a (sealFields stream b fields).1 = .ok read →
      List.Forall₂ SameField read.1 fields
  | [], _, _, _, h => by
    cases h
    exact .nil
  | field :: fields, a, b, read, h => by
    cases hkind : field.kind with
    | customData =>
      rw [sealFields_customData stream b hkind] at h
      obtain ⟨rest, hrest, rfl⟩ := (decryptFields_customData hkind).mp h
      exact .cons ⟨rfl, rfl, rfl⟩ (decryptFields_sameField hrest)
    | string =>
      have hsealed : (field.sealed stream b).kind = .string := hkind
      rw [sealFields_string stream b hkind] at h
      obtain ⟨bytes, hbytes, text, htext, rest, hrest, rfl⟩ := (decryptFields_string hsealed).mp h
      rw [Field.sealed, unbase64_base64, Except.ok.injEq] at hbytes
      subst hbytes
      refine .cons ⟨rfl, rfl, ?_⟩ (decryptFields_sameField hrest)
      show (encodeUtf8 text).length = _
      rw [encodeUtf8_of_decodeUtf8 htext, length_applyStream, length_applyStream]

theorem decryptItems_rel {draws : Draws} {stream : Nat → UInt8} : ∀ {tree : Items Source}
    {position : Nat} {read : Items Node × Nat},
    decryptItems stream position (tree.map (nodeOf draws stream)) = .ok read →
      Items.Rel SameNode read.1 (tree.map (plainNode draws))
  | .nil, _, _, h => by
    cases h
    exact .nil
  | .entry source rest, position, read, h => by
    rw [Items.map, decryptItems, nodeOf] at h
    simp only [bind_eq_ok, pure_eq_ok] at h
    obtain ⟨fields, hfields, after, hafter, rfl⟩ := h
    exact .entry ⟨rfl, rfl, decryptFields_sameField hfields⟩ (decryptItems_rel hafter)
  | .group key path children rest, position, read, h => by
    rw [Items.map, decryptItems] at h
    simp only [bind_eq_ok, pure_eq_ok] at h
    obtain ⟨inner, hinner, after, hafter, rfl⟩ := h
    exact .group (decryptItems_rel hinner) (decryptItems_rel hafter)

namespace Items.Rel

variable {R : α → β → Prop} {a : Items α} {b : Items β}

theorem depth (h : Rel R a b) : a.depth = b.depth := by
  induction h with
  | nil => rfl
  | entry _ _ ih => exact ih
  | group _ _ ihchildren ihrest => rw [Items.depth, Items.depth, ihchildren, ihrest]

theorem forallGroups {P : Group → Prop} (h : Rel R a b) : a.ForallGroups P ↔ b.ForallGroups P := by
  induction h with
  | nil => exact Iff.rfl
  | entry _ _ ih => exact ih
  | group _ _ ihchildren ihrest => exact and_congr_right' (and_congr ihchildren ihrest)

theorem toList (h : Rel R a b) : List.Forall₂ R a.toList b.toList := by
  induction h with
  | nil => exact .nil
  | entry hab _ ih => exact .cons hab ih
  | group _ _ ihchildren ihrest => exact List.rel_append ihchildren ihrest

theorem entries (h : Rel R a b) : List.Forall₂ R a.entries b.entries := by
  induction h with
  | nil => exact .nil
  | entry hab _ ih => exact .cons hab ih
  | group _ _ _ ihrest => exact ihrest

/-- Trees whose entries are the same are the same. -/
theorem eq_of_toList {a b : Items α} {S : α → α → Prop} (h : Rel S a b) :
    a.toList = b.toList → a = b := by
  induction h with
  | nil => exact fun _ => rfl
  | entry _ _ ih =>
    intro hlist
    rw [Items.toList, Items.toList, List.cons.injEq] at hlist
    rw [hlist.1, ih hlist.2]
  | group hchildren hrest ihchildren ihrest =>
    intro hlist
    have hlength := hchildren.toList.length_eq
    obtain ⟨hinner, hafter⟩ := List.append_inj hlist hlength
    rw [ihchildren hinner, ihrest hafter]

end Items.Rel

/-! ### The limits of `load` -/

theorem commonRoot_some {entries : List Entry} {root : Group} (h : commonRoot entries = some root) :
    ∀ entry ∈ entries, entry.groups = root :: entry.groups.tail := by
  unfold commonRoot at h
  split at h
  · cases h
  · split at h
    · cases h
    · split at h
      · next hall =>
        cases h
        intro entry hmem
        have htake := hall entry hmem
        cases hgroups : entry.groups with
        | nil =>
          rw [hgroups] at htake
          cases htake
        | cons first rest =>
          rw [hgroups, List.take_succ_cons, List.take_zero, List.cons.injEq] at htake
          rw [htake.1]
          rfl
      · cases h

/-- Nonempty values. -/
def nonemptyCount (fields : List Field) : Nat :=
  (fields.filter fun field => decide (field.value ≠ "")).length

theorem nonemptyCount_sameField {a b : List Field} (h : List.Forall₂ SameField a b) :
    nonemptyCount a = nonemptyCount b := by
  induction h with
  | nil => rfl
  | @cons x y _ _ hxy _ ih =>
    have hempty : x.value = "" ↔ y.value = "" := by
      rw [← encodeUtf8_length_eq_zero, ← encodeUtf8_length_eq_zero, hxy.2.2]
    rw [nonemptyCount, nonemptyCount] at ih ⊢
    by_cases hx : x.value = ""
    · rw [List.filter_cons_of_neg (by simp [hx]), List.filter_cons_of_neg (by simp [hempty.mp hx]), ih]
    · rw [List.filter_cons_of_pos (by simp [hx]),
        List.filter_cons_of_pos (by simpa using fun hy => hx (hempty.mpr hy)), List.length_cons,
        List.length_cons, ih]

theorem arranged_perm (fields : List Field) : (arranged fields).Perm fields := by
  have hsplit := List.filter_append_perm (fun field : Field => decide (field.kind = .string)) fields
  have hcustom : (fun field : Field => !decide (field.kind = .string)) =
      fun field => decide (field.kind = .customData) := by
    funext field
    cases field.kind <;> rfl
  rw [hcustom] at hsplit
  exact hsplit

theorem nonemptyCount_arranged (fields : List Field) :
    nonemptyCount (arranged fields) = nonemptyCount fields :=
  ((arranged_perm fields).filter _).length_eq

theorem nonemptyCount_flatMap (f : α → List Field) (list : List α) :
    nonemptyCount (list.flatMap f) = (list.map fun item => nonemptyCount (f item)).sum := by
  induction list with
  | nil => rfl
  | cons item list ih =>
    rw [List.flatMap_cons, List.map_cons, List.sum_cons, ← ih, nonemptyCount, List.filter_append,
      List.length_append]
    rfl

theorem fits_of_sameNode {node : Node} {entry : Entry}
    (hsame : List.Forall₂ SameField node.fields entry.fields)
    (hkeys : (entry.fields.map keyOf).Nodup) (hfits : ∀ field ∈ entry.fields, field.Fits)
    (hcount : entry.fields.length ≤ 100) (hnonempty : ∃ field ∈ entry.fields, field.value ≠ "") :
    node.Fits := by
  have hmap : node.fields.map keyOf = entry.fields.map keyOf := by
    have h := List.forall₂_map_left_iff.mpr (List.forall₂_map_right_iff.mpr
      (hsame.imp fun a b hab => (Prod.ext hab.1 hab.2.1 : keyOf a = keyOf b)))
    rwa [List.forall₂_eq_eq_eq] at h
  refine ⟨hmap ▸ hkeys, ?_, hsame.length_eq ▸ hcount, ?_⟩
  · clear hmap hkeys hcount hnonempty
    generalize node.fields = a at hsame
    generalize entry.fields = b at hsame hfits
    induction hsame with
    | nil => simp
    | @cons x y _ _ hxy _ ih =>
      have hy := hfits y List.mem_cons_self
      rw [List.forall_mem_cons]
      refine ⟨⟨hxy.2.1 ▸ hy.1, hxy.2.1 ▸ hy.2.1, hxy.2.2 ▸ hy.2.2⟩, ?_⟩
      exact ih fun field hmem => hfits field (List.mem_cons_of_mem _ hmem)
  · have hpositive : 0 < nonemptyCount node.fields := by
      rw [nonemptyCount_sameField hsame, nonemptyCount, List.length_pos_iff_exists_mem]
      obtain ⟨field, hmem, hvalue⟩ := hnonempty
      exact ⟨field, List.mem_filter.mpr ⟨hmem, by simpa using hvalue⟩⟩
    rw [nonemptyCount, List.length_pos_iff_exists_mem] at hpositive
    obtain ⟨field, hmem⟩ := hpositive
    exact ⟨field, (List.mem_filter.mp hmem).1, by simpa using (List.mem_filter.mp hmem).2⟩

/-- What the writer checks before it builds the document. -/
structure Accepted (entries : List Entry) : Prop where
  count : 1 ≤ entries.length ∧ entries.length ≤ 100
  fields : ∀ entry ∈ entries, entry.fields.length ≤ 100
  depth : ∀ entry ∈ entries, entry.groups.length ≤ if (commonRoot entries).isSome then 25 else 24
  texts : ∀ entry ∈ entries, entry.Representable

/-! ### Trees of a selection -/

theorem exists_of_forall₂ {R : α → β → Prop} {a : List α} {b : List β} (h : List.Forall₂ R a b)
    {x : α} (hx : x ∈ a) : ∃ y ∈ b, R x y := by
  induction h with
  | nil => cases hx
  | cons hxy _ ih =>
    rcases List.mem_cons.mp hx with rfl | hx
    · exact ⟨_, List.mem_cons_self, hxy⟩
    · obtain ⟨y, hy, hR⟩ := ih hx
      exact ⟨y, List.mem_cons_of_mem _ hy, hR⟩

theorem map_eq_of_forall₂ {γ : Type} {R : α → β → Prop} {f : α → γ} {g : β → γ} {a : List α}
    {b : List β} (h : List.Forall₂ R a b) (hfg : ∀ x y, R x y → f x = g y) : a.map f = b.map g := by
  have hmapped := List.forall₂_map_left_iff.mpr (List.forall₂_map_right_iff.mpr (h.imp hfg))
  rwa [List.forall₂_eq_eq_eq] at hmapped

/-- What the loaded entries hold is what the nodes hold. -/
theorem map_loaded_perm {γ : Type} (draws : Draws) (root : Group) (items : Items Node)
    {f : LoadedEntry → γ} {g : Node → γ} (hfg : ∀ path node, f (loadedOf path node) = g node) :
    ((items.loaded draws root).map f).Perm (items.toList.map g) := by
  have hsame : (items.loaded draws root).map f = (items.placed [root.name]).map (g ∘ Prod.snd) :=
    map_eq_of_forall₂ (loaded_forall₂ draws root items) fun loaded placed h => by
      rw [h.1]
      exact hfg _ _
  rw [hsame, ← List.map_map]
  exact (Items.placed_toList_perm items _).map g

/-- A tree that differs from the tree of a selection in values only. -/
def Resembles (draws : Draws) (entries : List Entry) (items : Items Node) : Prop :=
  Items.Rel SameNode items ((arrange (commonRoot entries).isSome entries).map (plainNode draws))

theorem mem_sources {entries : List Entry} {source : Source} (h : source ∈ sources 0 0 entries) :
    source.entry ∈ entries := by
  have hmapped := List.mem_map_of_mem (f := Source.entry) h
  rwa [map_entry_sources] at hmapped

namespace Resembles

variable {draws : Draws} {entries : List Entry} {items : Items Node}

theorem toList (h : Resembles draws entries items) :
    List.Forall₂ (fun node source => SameNode node (plainNode draws source)) items.toList
      (arrange (commonRoot entries).isSome entries).toList := by
  have hlist := Items.Rel.toList h
  rwa [Items.toList_map, List.forall₂_map_right_iff] at hlist

/-- What the nodes hold is what the entries of the selection hold. -/
theorem map_perm {γ : Type} (h : Resembles draws entries items) {f : Node → γ} {g : Entry → γ}
    (hfg : ∀ node source, SameNode node (plainNode draws source) → f node = g source.entry) :
    (items.toList.map f).Perm (entries.map g) := by
  rw [map_eq_of_forall₂ h.toList hfg]
  show (List.map (g ∘ Source.entry) _).Perm _
  rw [← List.map_map]
  refine (((toList_arrange_perm _ entries).map Source.entry).map g).trans ?_
  rw [map_entry_sources]

theorem mem (h : Resembles draws entries items) {node : Node} (hnode : node ∈ items.toList) :
    ∃ source, source.entry ∈ entries ∧ SameNode node (plainNode draws source) := by
  obtain ⟨source, hsource, hsame⟩ := exists_of_forall₂ h.toList hnode
  exact ⟨source, mem_sources ((toList_arrange_perm _ entries).subset hsource), hsame⟩

end Resembles

theorem depth_arrange {entries : List Entry} (haccepted : Accepted entries) :
    (arrange (commonRoot entries).isSome entries).depth ≤ 24 := by
  refine Items.depth_insertAll_le [] _ .nil (Nat.zero_le _) ?_
  intro placed hmem
  obtain ⟨source, hsource, rfl⟩ := List.mem_map.mp hmem
  have hgroups := haccepted.depth _ (mem_sources hsource)
  show (pathOf _ source.entry).length ≤ 24
  unfold pathOf
  split
  · rw [if_pos (by assumption)] at hgroups
    rw [List.length_tail]
    omega
  · rw [if_neg (by assumption)] at hgroups
    exact hgroups

theorem forallGroups_arrange {P : Group → Prop} {entries : List Entry}
    (h : ∀ entry ∈ entries, ∀ group ∈ entry.groups, P group) :
    (arrange (commonRoot entries).isSome entries).ForallGroups P := by
  refine Items.forallGroups_insertAll [] _ .nil trivial ?_
  intro placed hmem key hkey
  obtain ⟨source, hsource, rfl⟩ := List.mem_map.mp hmem
  refine h _ (mem_sources hsource) key ?_
  have hkey' : key ∈ pathOf (commonRoot entries).isSome source.entry := hkey
  unfold pathOf at hkey'
  split at hkey'
  · exact List.mem_of_mem_tail hkey'
  · exact hkey'

/-- The name of the root group is short, as the names of all groups are. -/
theorem rootGroup_forall {P : String → Prop} (draws : Draws) {entries : List Entry}
    (hsynthetic : P "Mnemion export") (hcount : 1 ≤ entries.length)
    (h : ∀ entry ∈ entries, ∀ group ∈ entry.groups, P group.name) :
    P (rootGroup draws (commonRoot entries)).name := by
  cases hroot : commonRoot entries with
  | none => exact hsynthetic
  | some root =>
    cases entries with
    | nil => cases hroot
    | cons first rest =>
      have hgroups := commonRoot_some hroot first List.mem_cons_self
      exact h first List.mem_cons_self root (hgroups ▸ List.mem_cons_self)

/-- **The limits hold of every tree** that differs from the selection in values only. -/
theorem Resembles.fits {draws : Draws} {entries : List Entry} {items : Items Node}
    (hitems : Resembles draws entries items) (haccepted : Accepted entries)
    (hload : Loadable entries) : items.Fits draws (rootGroup draws (commonRoot entries)) := by
  have hids := (map_loaded_perm draws (rootGroup draws (commonRoot entries)) items
    (f := LoadedEntry.id) (g := Node.id) fun _ _ => rfl).trans
      (hitems.map_perm (g := Entry.id) fun _ _ h => h.1)
  have hlength : (items.loaded draws (rootGroup draws (commonRoot entries))).length =
      entries.length := by
    simpa using hids.length_eq
  refine ⟨?_, ?_, ?_, ?_, ?_, ?_, ?_, ?_⟩
  · intro node hmem
    obtain ⟨source, hin, hsame⟩ := hitems.mem hmem
    exact fits_of_sameNode hsame.2.2 (hload.keys _ hin) (hload.fields _ hin)
      (haccepted.fields _ hin) (hload.nonempty _ hin)
  · exact rootGroup_forall (P := fun name => (encodeUtf8 name).length ≤ 2048) draws (by decide +kernel)
      haccepted.count.1 hload.groups
  · rw [Items.Rel.forallGroups hitems, Items.forallGroups_map]
    exact forallGroups_arrange hload.groups
  · rw [Items.Rel.depth hitems, Items.depth_map]
    exact depth_arrange haccepted
  · exact hids.nodup_iff.mpr hload.ids
  · rw [hlength]
    exact haccepted.count.2
  · intro hnil
    rw [hnil] at hlength
    have hcount := haccepted.count.1
    rw [← hlength] at hcount
    exact absurd hcount (by simp)
  · have hcounts := (map_loaded_perm draws (rootGroup draws (commonRoot entries)) items
      (f := fun loaded => nonemptyCount loaded.fields) (g := fun node => nonemptyCount node.fields)
      fun _ _ => nonemptyCount_arranged _).trans
        (hitems.map_perm (g := fun entry => nonemptyCount entry.fields)
          fun _ _ h => nonemptyCount_sameField h.2.2)
    have htotal : nonemptyCount (entries.flatMap Entry.fields) ≤ 500 := hload.total
    show nonemptyCount _ ≤ 500
    rw [nonemptyCount_flatMap] at htotal ⊢
    rw [hcounts.sum_eq]
    exact htotal

/-! ### The entries come back -/

theorem titleOf_arranged (fields : List Field) : titleOf (arranged fields) = titleOf fields := by
  have hstrings : (ofKind .string fields).find?
      (fun field => decide (field.kind = .string ∧ field.name = "Title")) =
        fields.find? fun field => decide (field.kind = .string ∧ field.name = "Title") := by
    rw [ofKind, List.find?_filter]
    congr 1
    funext field
    cases field.kind <;> simp
  have hcustoms : (ofKind .customData fields).find?
      (fun field => decide (field.kind = .string ∧ field.name = "Title")) = none := by
    rw [List.find?_eq_none]
    intro field hmem
    have hkind := of_decide_eq_true (List.mem_filter.mp hmem).2
    simp [hkind]
  rw [titleOf, titleOf, arranged, List.find?_append, hstrings, hcustoms, Option.or_none]

/-- The names of the groups of an entry, as the tree of its selection has them. -/
theorem exportedGroups_eq (draws : Draws) {entries : List Entry} {entry : Entry}
    (hentry : entry ∈ entries) :
    [(rootGroup draws (commonRoot entries)).name] ++
        (pathOf (commonRoot entries).isSome entry).map Group.name =
      exportedGroups (commonRoot entries) entry := by
  cases hroot : commonRoot entries with
  | none => rfl
  | some root =>
    show root.name :: entry.groups.tail.map Group.name = entry.groups.map Group.name
    rw [commonRoot_some hroot entry hentry]
    rfl

/-- **Undisturbed values come back**: the loaded entries are those of the selection. -/
theorem returned_plain (draws : Draws) (entries : List Entry) (omitted : Omitted) :
    Returned entries ⟨((arrange (commonRoot entries).isSome entries).map (plainNode draws)).loaded draws
      (rootGroup draws (commonRoot entries)), omitted⟩ := by
  have hloaded := loaded_forall₂ draws (rootGroup draws (commonRoot entries))
    ((arrange (commonRoot entries).isSome entries).map (plainNode draws))
  rw [Items.placed_map, List.forall₂_map_right_iff] at hloaded
  have hperm := Items.placed_insertAll_perm [] [(rootGroup draws (commonRoot entries)).name]
    ((sources 0 0 entries).map fun source => (pathOf (commonRoot entries).isSome source.entry, source))
    .nil
  rw [List.map_map] at hperm
  have hplaced : ∀ placed ∈ (arrange (commonRoot entries).isSome entries).placed
      [(rootGroup draws (commonRoot entries)).name],
      placed.2.entry ∈ entries ∧ placed.1 = exportedGroups (commonRoot entries) placed.2.entry := by
    intro placed hmem
    obtain ⟨source, hsource, rfl⟩ := List.mem_map.mp (hperm.subset hmem)
    have hin := mem_sources hsource
    exact ⟨hin, exportedGroups_eq draws hin⟩
  refine ⟨((arrange (commonRoot entries).isSome entries).placed
    [(rootGroup draws (commonRoot entries)).name]).map fun placed => placed.2.entry, ?_, ?_⟩
  · refine (hperm.map fun placed => placed.2.entry).trans ?_
    show (List.map _ (List.map _ _)).Perm _
    rw [List.map_map]
    show ((sources 0 0 entries).map Source.entry).Perm entries
    rw [map_entry_sources]
  · rw [List.forall₂_map_left_iff]
    refine forall₂_imp_mem hloaded.flip ?_
    rintro ⟨names, source⟩ hmem loaded - ⟨hloaded, hgroups⟩
    obtain ⟨-, hnames⟩ := hplaced _ hmem
    refine ⟨?_, ?_, hgroups.trans hnames, ?_⟩
    · rw [hloaded]
      rfl
    · rw [hloaded]
      exact titleOf_arranged _
    · intro field
      rw [hloaded]
      exact mem_arranged

/-- Fields with the same names and the same members are the same. -/
theorem eq_of_sameField {a b : List Field} (hsame : List.Forall₂ SameField a b)
    (hkeys : (b.map keyOf).Nodup) (hmem : ∀ field ∈ a, field ∈ b) : a = b := by
  have hequal : List.Forall₂ (· = ·) a b := by
    refine forall₂_imp_mem hsame fun x hx y hy hxy => ?_
    have hkey : keyOf x = keyOf y := Prod.ext hxy.1 hxy.2.1
    exact List.inj_on_of_nodup_map hkeys (hmem x hx) hy hkey
  rwa [List.forall₂_eq_eq_eq] at hequal

/-- **Only undisturbed values come back.** -/
theorem Resembles.eq_of_returned {draws : Draws} {entries : List Entry} {items : Items Node}
    {omitted : Omitted} (hitems : Resembles draws entries items) (hload : Loadable entries)
    (hreturned : Returned entries
      ⟨items.loaded draws (rootGroup draws (commonRoot entries)), omitted⟩) :
    items = (arrange (commonRoot entries).isSome entries).map (plainNode draws) := by
  obtain ⟨order, horder, hsame⟩ := hreturned
  have hnodes := (map_loaded_perm draws (rootGroup draws (commonRoot entries)) items
    (f := fun loaded => (loaded.id, loaded.fields)) (g := fun node => (node.id, arranged node.fields))
    fun _ _ => rfl)
  apply Items.Rel.eq_of_toList hitems
  rw [Items.toList_map]
  have hequal : List.Forall₂ (fun node source => node = plainNode draws source) items.toList
      (arrange (commonRoot entries).isSome entries).toList := by
    refine forall₂_imp_mem hitems.toList fun node hnode source hsource hpair => ?_
    obtain ⟨loaded, hloaded, hvalue⟩ : ∃ loaded ∈ items.loaded draws
        (rootGroup draws (commonRoot entries)), (loaded.id, loaded.fields) =
          (node.id, arranged node.fields) := by
      have hmem := hnodes.symm.subset (List.mem_map_of_mem (f := fun node : Node =>
        (node.id, arranged node.fields)) hnode)
      exact List.mem_map.mp hmem
    obtain ⟨entry, hentry, hmatch⟩ := exists_of_forall₂ hsame.flip hloaded
    rw [Prod.mk.injEq] at hvalue
    have hin := mem_sources ((toList_arrange_perm _ entries).subset hsource)
    have hid : entry.id = source.entry.id := by
      rw [← hmatch.id, hvalue.1]
      exact hpair.1
    have hsource : entry = source.entry :=
      List.inj_on_of_nodup_map hload.ids (horder.subset hentry) hin hid
    have hfields : node.fields = source.entry.fields := by
      refine eq_of_sameField hpair.2.2 (hload.keys _ hin) fun field hmem => ?_
      have hfield := (hmatch.fields field).mp (by rw [hvalue.2]; exact mem_arranged.mpr hmem)
      rwa [hsource] at hfield
    obtain ⟨id, time, fields⟩ := node
    have hidentifier : id = source.entry.id := hpair.1
    have htime : time = draws.entryTime source.index := hpair.2.1
    have hvalues : fields = source.entry.fields := hfields
    rw [hidentifier, htime, hvalues]
    rfl
  have hmapped := map_eq_of_forall₂ (f := fun node : Node => node) (g := plainNode draws) hequal
    fun _ _ h => h
  rwa [List.map_id'] at hmapped

end Mnemion.Keepass
