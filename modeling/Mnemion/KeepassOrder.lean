/-
  Mnemion/KeepassOrder.lean
  =========================
  **The order of the entries in the document.**  `dump` visits the entries in
  the order of the selection; in the document they stand group by group, the
  groups by their first entry (`groupOrder`).  What the tree of an export lists
  is that order (`toList_arrange`), and the positions the two visits give the
  key stream agree exactly when the entries with protected bytes stand in the
  same order both times (`aligned_iff`).
-/
import Mnemion.KeepassDocument
import Mathlib.Data.List.Nodup

namespace Mnemion.Keepass

open Outcome PythonText

variable {α β : Type}

/-! ### Group by group -/

/-- The rest of a path below a group. -/
def below (key : Group) : List Group × α → Option (List Group × α)
  | ([], _) => none
  | (first :: path, item) => if first = key then some (path, item) else none

/-- The entries below a group. -/
def inside (key : Group) (items : List (List Group × α)) : List (List Group × α) :=
  items.filterMap (below key)

/-- The entries that are not below it. -/
def outside (key : Group) (items : List (List Group × α)) : List (List Group × α) :=
  items.filter fun item => (below key item).isNone

/-- The total length of the paths, an entry counting for one. -/
def pathsSize (items : List (List Group × α)) : Nat :=
  (items.map fun item => item.1.length + 1).sum

theorem pathsSize_cons (item : List Group × α) (items : List (List Group × α)) :
    pathsSize (item :: items) = item.1.length + 1 + pathsSize items := rfl

theorem pathsSize_outside_le (key : Group) (items : List (List Group × α)) :
    pathsSize (outside key items) ≤ pathsSize items := by
  induction items with
  | nil => exact Nat.le_refl _
  | cons item items ih =>
    rw [outside, List.filter_cons, pathsSize_cons]
    rw [outside] at ih
    split
    · rw [pathsSize_cons]
      omega
    · omega

theorem pathsSize_inside_le (key : Group) (items : List (List Group × α)) :
    pathsSize (inside key items) ≤ pathsSize items := by
  induction items with
  | nil => exact Nat.le_refl _
  | cons item items ih =>
    rw [inside] at ih
    rw [inside, pathsSize_cons]
    cases h : below key item with
    | none =>
      rw [List.filterMap_cons_none h]
      omega
    | some shorter =>
      have hshorter : shorter.1.length ≤ item.1.length := by
        obtain ⟨path, value⟩ := item
        cases path with
        | nil => cases h
        | cons first path =>
          simp only [below] at h
          split at h
          · cases h
            simp
          · cases h
      rw [List.filterMap_cons_some h, pathsSize_cons]
      omega

/-- Entries with their paths, listed group by group: a group stands where its
    first entry does. -/
def groupOrder : List (List Group × α) → List α
  | [] => []
  | ([], item) :: rest => item :: groupOrder rest
  | (key :: path, item) :: rest =>
    groupOrder ((path, item) :: inside key rest) ++ groupOrder (outside key rest)
termination_by items => pathsSize items
decreasing_by
  · simp only [pathsSize_cons]
    omega
  · have := pathsSize_inside_le key rest
    simp only [pathsSize_cons, List.length_cons]
    omega
  · have := pathsSize_outside_le key rest
    simp only [pathsSize_cons, List.length_cons]
    omega

/-! ### The tree of an export -/

namespace Items

/-- The entries of a tree in document order. -/
def toList : Items α → List α
  | nil => []
  | entry item rest => item :: rest.toList
  | group _ _ children rest => children.toList ++ rest.toList

def map (f : α → β) : Items α → Items β
  | nil => nil
  | entry item rest => entry (f item) (rest.map f)
  | group key path children rest => group key path (children.map f) (rest.map f)

/-- Entries put into a tree one after the other. -/
def insertAll (before : List Group) (items : Items α) (entries : List (List Group × α)) : Items α :=
  entries.foldl (fun items entry => items.insert entry.2 before entry.1) items

theorem map_single (f : α → β) (item : α) : ∀ (path before : List Group),
    (single item before path).map f = single (f item) before path
  | [], _ => rfl
  | key :: path, before => by rw [single, single, map, map_single f item path]; rfl

theorem map_insert (f : α → β) (item : α) : ∀ (items : Items α) (before path : List Group),
    (items.insert item before path).map f = (items.map f).insert (f item) before path
  | nil, before, path => map_single f item path before
  | entry first rest, before, path => by
    rw [insert, map, map, insert, map_insert f item rest]
  | group key keyPath children rest, before, [] => by
    rw [insert, map, map, insert, map_insert f item rest]
  | group key _ children rest, before, next :: path => by
    rw [insert, map, insert]
    split
    · rw [map, map_insert f item children]
    · rw [map, map_insert f item rest]

/-- An entry before the others stays there. -/
theorem insertAll_entry (before : List Group) (first : α) :
    ∀ (entries : List (List Group × α)) (rest : Items α),
      insertAll before (entry first rest) entries = entry first (insertAll before rest entries)
  | [], _ => rfl
  | _ :: entries, _ => insertAll_entry before first entries _

/-- The entries of a group go into it, the others after it. -/
theorem insertAll_group (before : List Group) (key : Group) (keyPath : List Group) :
    ∀ (entries : List (List Group × α)) (children rest : Items α),
      insertAll before (group key keyPath children rest) entries =
        group key keyPath (insertAll (before ++ [key]) children (inside key entries))
          (insertAll before rest (outside key entries))
  | [], _, _ => rfl
  | (path, item) :: entries, children, rest => by
    cases path with
    | nil => exact insertAll_group before key keyPath entries children (rest.insert item before [])
    | cons next path =>
      by_cases hkey : next = key
      · have hstep : (group key keyPath children rest).insert item before (next :: path) =
            group key keyPath (children.insert item (before ++ [key]) path) rest := by
          rw [insert, if_pos hkey, hkey]
        have hbelow : below key (next :: path, item) = some (path, item) := if_pos hkey
        rw [inside, outside, List.filterMap_cons_some hbelow,
          List.filter_cons_of_neg (by rw [hbelow]; simp)]
        show insertAll before ((group key keyPath children rest).insert item before (next :: path))
          entries = _
        rw [hstep, insertAll_group before key keyPath entries]
        rfl
      · have hstep : (group key keyPath children rest).insert item before (next :: path) =
            group key keyPath children (rest.insert item before (next :: path)) := by
          rw [insert, if_neg hkey]
        have hbelow : below key (next :: path, item) = none := if_neg hkey
        rw [inside, outside, List.filterMap_cons_none hbelow,
          List.filter_cons_of_pos (by rw [hbelow]; rfl)]
        show insertAll before ((group key keyPath children rest).insert item before (next :: path))
          entries = _
        rw [hstep, insertAll_group before key keyPath entries]
        rfl

/-- **The document lists the entries group by group.** -/
theorem toList_insertAll : ∀ (entries : List (List Group × α)) (before : List Group),
    (insertAll before nil entries).toList = groupOrder entries := by
  intro entries
  fun_induction groupOrder entries with
  | case1 => exact fun _ => rfl
  | case2 item rest ih =>
    intro before
    show (insertAll before (entry item nil) rest).toList = _
    rw [insertAll_entry, toList, ih before]
  | case3 key path item rest ihinside ihafter =>
    intro before
    show (insertAll before (group key (before ++ [key]) (single item (before ++ [key]) path) nil)
      rest).toList = _
    rw [insertAll_group, toList, ihafter before, ← ihinside (before ++ [key])]
    rfl

end Items

/-! ### The listing is a rearrangement -/

theorem inside_outside_perm (key : Group) (items : List (List Group × α)) :
    ((inside key items).map Prod.snd ++ (outside key items).map Prod.snd).Perm
      (items.map Prod.snd) := by
  induction items with
  | nil => exact .nil
  | cons item items ih =>
    rw [inside, outside] at ih
    rw [inside, outside]
    cases h : below key item with
    | none =>
      rw [List.filterMap_cons_none h, List.filter_cons_of_pos (by rw [h]; rfl)]
      exact List.perm_middle.trans (ih.cons _)
    | some shorter =>
      have hsame : shorter.2 = item.2 := by
        obtain ⟨path, value⟩ := item
        cases path with
        | nil => cases h
        | cons first path =>
          simp only [below] at h
          split at h
          · cases h
            rfl
          · cases h
      rw [List.filterMap_cons_some h, List.filter_cons_of_neg (by rw [h]; simp), List.map_cons,
        List.map_cons, hsame]
      exact ih.cons _

theorem groupOrder_perm (items : List (List Group × α)) :
    (groupOrder items).Perm (items.map Prod.snd) := by
  fun_induction groupOrder items with
  | case1 => exact .nil
  | case2 item rest ih => exact ih.cons _
  | case3 key path item rest ihinside ihafter =>
    refine (ihinside.append ihafter).trans ?_
    exact (inside_outside_perm key rest).cons item

theorem below_map (f : α → β) (key : Group) (item : List Group × α) :
    below key (item.1, f item.2) = (below key item).map fun found => (found.1, f found.2) := by
  obtain ⟨path, value⟩ := item
  cases path with
  | nil => rfl
  | cons first path =>
    simp only [below]
    split <;> rfl

theorem groupOrder_map (f : α → β) (items : List (List Group × α)) :
    groupOrder (items.map fun item => (item.1, f item.2)) = (groupOrder items).map f := by
  fun_induction groupOrder items with
  | case1 => rw [List.map_nil, groupOrder, List.map_nil]
  | case2 item rest ih => rw [List.map_cons, groupOrder, ih, List.map_cons]
  | case3 key path item rest ihinside ihafter =>
    have hinside : inside key (rest.map fun item => (item.1, f item.2)) =
        (inside key rest).map fun item => (item.1, f item.2) := by
      rw [inside, inside, List.filterMap_map, List.map_filterMap]
      congr 1
      funext item
      exact below_map f key item
    have houtside : outside key (rest.map fun item => (item.1, f item.2)) =
        (outside key rest).map fun item => (item.1, f item.2) := by
      rw [outside, outside, List.filter_map]
      congr 1
      congr 1
      funext item
      show (below key (item.1, f item.2)).isNone = _
      rw [below_map, Option.isNone_map]
    rw [List.map_cons, groupOrder, hinside, houtside, ihafter, List.map_append, ← ihinside,
      List.map_cons]

/-! ### Positions of the key stream -/

/-- Bytes of the `String` values. -/
def width : List Field → Nat
  | [] => 0
  | field :: fields =>
    match field.kind with
    | .customData => width fields
    | .string => (encodeUtf8 field.value).length + width fields

/-- A value that is encrypted and not empty. -/
def HasSecret (entry : Entry) : Prop :=
  ∃ field ∈ entry.fields, field.kind = .string ∧ field.value ≠ ""

instance (entry : Entry) : Decidable (HasSecret entry) :=
  inferInstanceAs (Decidable (∃ field ∈ entry.fields, _))

theorem encodeUtf8_length_eq_zero {text : String} : (encodeUtf8 text).length = 0 ↔ text = "" :=
  String.utf8ByteSize_eq_zero_iff

theorem width_eq_zero {fields : List Field} :
    width fields = 0 ↔ ∀ field ∈ fields, field.kind = .string → field.value = "" := by
  induction fields with
  | nil => simp [width]
  | cons field fields ih =>
    rw [width, List.forall_mem_cons, ← ih]
    cases field.kind with
    | customData => simp
    | string => simp only [Nat.add_eq_zero_iff, encodeUtf8_length_eq_zero, forall_const]

theorem hasSecret_iff {entry : Entry} : HasSecret entry ↔ width entry.fields ≠ 0 := by
  rw [Ne, width_eq_zero, HasSecret]
  push Not
  rfl

theorem sealFields_snd (stream : Nat → UInt8) :
    ∀ (fields : List Field) (position : Nat),
      (sealFields stream position fields).2 = position + width fields
  | [], _ => rfl
  | field :: fields, position => by
    rw [sealFields, width]
    cases field.kind with
    | customData => exact sealFields_snd stream fields position
    | string =>
      show (sealFields stream (position + (encodeUtf8 field.value).length) fields).2 = _
      rw [sealFields_snd stream fields, Nat.add_assoc]

/-- An entry of the selection, with its index and the position of the key stream
    where its values begin. -/
structure Source where
  entry : Entry
  index : Nat
  position : Nat
deriving DecidableEq

def sources : Nat → Nat → List Entry → List Source
  | _, _, [] => []
  | index, position, entry :: entries =>
    ⟨entry, index, position⟩ :: sources (index + 1) (position + width entry.fields) entries

def Source.width (source : Source) : Nat := Keepass.width source.entry.fields

theorem map_entry_sources : ∀ (entries : List Entry) (index position : Nat),
    (sources index position entries).map Source.entry = entries
  | [], _, _ => rfl
  | entry :: entries, index, position => by
    rw [sources, List.map_cons, map_entry_sources entries]

/-- Each source with protected bytes begins where those before it end. -/
def Aligned : Nat → List Source → Prop
  | _, [] => True
  | position, source :: rest =>
    (source.width ≠ 0 → source.position = position) ∧ Aligned (position + source.width) rest

theorem aligned_sources : ∀ (entries : List Entry) (index position : Nat),
    Aligned position (sources index position entries)
  | [], _, _ => trivial
  | _ :: entries, _, _ => ⟨fun _ => rfl, aligned_sources entries _ _⟩

theorem aligned_append : ∀ (front rest : List Source) (position : Nat),
    Aligned position (front ++ rest) ↔
      Aligned position front ∧ Aligned (position + (front.map Source.width).sum) rest
  | [], rest, position => by simp [Aligned]
  | source :: front, rest, position => by
    rw [List.cons_append, Aligned, Aligned, aligned_append front rest, List.map_cons, List.sum_cons,
      and_assoc, Nat.add_assoc]

/-- Sources without protected bytes do not matter. -/
theorem aligned_filter : ∀ (list : List Source) (position : Nat),
    Aligned position (list.filter fun source => decide (source.width ≠ 0)) ↔ Aligned position list
  | [], _ => Iff.rfl
  | source :: list, position => by
    by_cases h : source.width = 0
    · rw [List.filter_cons_of_neg (by simpa using h), Aligned, h, Nat.add_zero,
        aligned_filter list position]
      exact ⟨fun hlist => ⟨fun hne => absurd rfl hne, hlist⟩, And.right⟩
    · rw [List.filter_cons_of_pos (by simpa using h), Aligned, Aligned, aligned_filter list]

/-- In an aligned list no later source begins at or before an earlier position. -/
theorem Aligned.le_position : ∀ {list : List Source} {position : Nat},
    Aligned position list → ∀ source ∈ list, source.width ≠ 0 → position ≤ source.position
  | first :: list, position, h, source, hmem, hwidth => by
    rcases List.mem_cons.mp hmem with rfl | hmem
    · exact (h.1 hwidth).ge
    · exact Nat.le_trans (Nat.le_add_right _ _) (h.2.le_position source hmem hwidth)

/-- Two aligned arrangements of the same sources are the same. -/
theorem Aligned.eq_of_perm : ∀ {a b : List Source} {position : Nat}, a.Perm b →
    (∀ source ∈ a, source.width ≠ 0) → Aligned position a → Aligned position b → a = b
  | [], b, _, hperm, _, _, _ => (List.nil_perm.mp hperm).symm
  | first :: a, [], _, hperm, _, _, _ => absurd hperm.length_eq (by simp)
  | first :: a, second :: b, position, hperm, hwidth, ha, hb => by
    have hfirst : first.width ≠ 0 := hwidth first List.mem_cons_self
    have hsecond : second.width ≠ 0 := hwidth second (hperm.symm.subset List.mem_cons_self)
    have hsame : first = second := by
      rcases List.mem_cons.mp (hperm.subset List.mem_cons_self) with h | h
      · exact h
      · have hposition := hb.2.le_position first h hfirst
        have hstart := ha.1 hfirst
        omega
    subst hsame
    rw [Aligned.eq_of_perm ((List.perm_cons _).mp hperm)
      (fun source hmem => hwidth source (List.mem_cons_of_mem _ hmem)) ha.2 hb.2]

/-! ### The tree of a selection -/

def pathOf (common : Bool) (entry : Entry) : List Group :=
  if common then entry.groups.tail else entry.groups

/-- What `dump` puts into the tree for an entry. -/
def nodeOf (draws : Draws) (stream : Nat → UInt8) (source : Source) : Node :=
  ⟨source.entry.id, draws.entryTime source.index,
    (sealFields stream source.position source.entry.fields).1⟩

/-- The tree of the selection, before encryption. -/
def arrange (common : Bool) (entries : List Entry) : Items Source :=
  Items.insertAll [] .nil ((sources 0 0 entries).map fun source =>
    (pathOf common source.entry, source))

theorem place_eq (draws : Draws) (stream : Nat → UInt8) (common : Bool) :
    ∀ (entries : List Entry) (index position : Nat) (used : List Uuid) (items : Items Source),
      (used ++ entries.map Entry.id).Nodup →
      place draws stream common index position used (items.map (nodeOf draws stream)) entries =
        (Items.insertAll [] items ((sources index position entries).map fun source =>
          (pathOf common source.entry, source))).map (nodeOf draws stream)
  | [], _, _, _, _, _ => rfl
  | entry :: entries, index, position, used, items, hnodup => by
    have hnew : entry.id ∉ used := by
      intro hmem
      rw [List.map_cons, List.nodup_append] at hnodup
      exact hnodup.2.2 _ hmem _ List.mem_cons_self rfl
    have hrest : ((used ++ [entry.id]) ++ entries.map Entry.id).Nodup := by
      rw [List.append_assoc]
      exact hnodup
    have hinsert := Items.map_insert (nodeOf draws stream) ⟨entry, index, position⟩ items []
      (pathOf common entry)
    rw [place]
    simp only [if_neg hnew, sealFields_snd]
    show place draws stream common (index + 1) (position + width entry.fields) (used ++ [entry.id])
      ((items.map (nodeOf draws stream)).insert (nodeOf draws stream ⟨entry, index, position⟩) []
        (pathOf common entry)) entries = _
    rw [← hinsert, place_eq draws stream common entries _ _ _ _ hrest]
    rfl

/-- The tree of an export whose entries have distinct identifiers. -/
theorem place_arrange (draws : Draws) (stream : Nat → UInt8) (common : Bool) {entries : List Entry}
    (hids : (entries.map Entry.id).Nodup) :
    place draws stream common 0 0 [] .nil entries =
      (arrange common entries).map (nodeOf draws stream) :=
  place_eq draws stream common entries 0 0 [] .nil hids

theorem toList_arrange (common : Bool) (entries : List Entry) :
    (arrange common entries).toList =
      groupOrder ((sources 0 0 entries).map fun source => (pathOf common source.entry, source)) :=
  Items.toList_insertAll _ []

theorem toList_arrange_perm (common : Bool) (entries : List Entry) :
    (arrange common entries).toList.Perm (sources 0 0 entries) := by
  rw [toList_arrange]
  refine (groupOrder_perm _).trans ?_
  rw [List.map_map]
  exact (List.map_id (sources 0 0 entries)).symm ▸ .refl _

/-- The entries as the document lists them. -/
def documentOrder (entries : List Entry) : List Entry :=
  groupOrder (entries.map fun entry => (pathOf (commonRoot entries).isSome entry, entry))

theorem map_entry_arrange (entries : List Entry) :
    (arrange (commonRoot entries).isSome entries).toList.map Source.entry = documentOrder entries := by
  rw [toList_arrange, ← groupOrder_map, List.map_map, documentOrder]
  congr 1
  calc (sources 0 0 entries).map ((fun item => (item.1, item.2.entry)) ∘ fun source =>
        (pathOf (commonRoot entries).isSome source.entry, source))
      = ((sources 0 0 entries).map Source.entry).map fun entry =>
          (pathOf (commonRoot entries).isSome entry, entry) := by
        rw [List.map_map]
        rfl
    _ = _ := by rw [map_entry_sources]

/-- The entries with protected bytes stand in the same order in the selection and
    in the document. -/
def SelectionInOrder (entries : List Entry) : Prop :=
  (documentOrder entries).filter (fun entry => decide (HasSecret entry)) =
    entries.filter fun entry => decide (HasSecret entry)

instance (entries : List Entry) : Decidable (SelectionInOrder entries) :=
  inferInstanceAs (Decidable (_ = _))

/-- Lists of elements that a map tells apart. -/
theorem eq_of_map_eq {γ : Type} {f : α → γ} : ∀ {a b : List α}, a.map f = b.map f →
    (∀ x ∈ a, ∀ y ∈ b, f x = f y → x = y) → a = b
  | [], [], _, _ => rfl
  | [], _ :: _, h, _ => nomatch h
  | _ :: _, [], h, _ => nomatch h
  | x :: a, y :: b, h, hinj => by
    rw [List.map_cons, List.map_cons, List.cons.injEq] at h
    rw [hinj x List.mem_cons_self y List.mem_cons_self h.1, eq_of_map_eq h.2 fun x hx y hy =>
      hinj x (List.mem_cons_of_mem _ hx) y (List.mem_cons_of_mem _ hy)]

/-- **The two visits agree** exactly when the entries with protected bytes stand
    in the same order both times. -/
theorem aligned_iff {entries : List Entry} (hids : (entries.map Entry.id).Nodup) :
    Aligned 0 (arrange (commonRoot entries).isSome entries).toList ↔ SelectionInOrder entries := by
  have hperm := toList_arrange_perm (commonRoot entries).isSome entries
  have hmap := map_entry_arrange entries
  generalize (arrange (commonRoot entries).isSome entries).toList = listed at hperm hmap
  have hsecret : (fun source : Source => decide (source.width ≠ 0)) =
      (fun entry => decide (HasSecret entry)) ∘ Source.entry := by
    funext source
    show decide _ = decide _
    rw [decide_eq_decide, hasSecret_iff]
    rfl
  have hlisted : (listed.filter fun source => decide (source.width ≠ 0)).map Source.entry =
      (documentOrder entries).filter fun entry => decide (HasSecret entry) := by
    rw [← hmap, List.filter_map, hsecret]
  have hsources : ((sources 0 0 entries).filter fun source => decide (source.width ≠ 0)).map
      Source.entry = entries.filter fun entry => decide (HasSecret entry) := by
    conv_rhs => rw [← map_entry_sources entries 0 0, List.filter_map, ← hsecret]
  have hfiltered := hperm.filter fun source => decide (source.width ≠ 0)
  have halign := (aligned_filter (sources 0 0 entries) 0).mpr (aligned_sources entries 0 0)
  rw [← aligned_filter listed, SelectionInOrder, ← hlisted, ← hsources]
  constructor
  · intro h
    rw [Aligned.eq_of_perm hfiltered (fun source hmem => by simpa using (List.mem_filter.mp hmem).2)
      h halign]
  · intro h
    have hinjective : ∀ x ∈ sources 0 0 entries, ∀ y ∈ sources 0 0 entries,
        x.entry = y.entry → x = y := by
      have hnodup : ((sources 0 0 entries).map Source.entry).Nodup := by
        rw [map_entry_sources]
        exact List.Nodup.of_map _ hids
      intro x hx y hy hxy
      exact List.inj_on_of_nodup_map hnodup hx hy hxy
    have hsame := eq_of_map_eq h fun x hx y hy =>
      hinjective x (hperm.subset (List.mem_filter.mp hx).1) y (List.mem_filter.mp hy).1
    rw [hsame]
    exact halign

end Mnemion.Keepass
