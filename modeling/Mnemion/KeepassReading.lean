/-
  Mnemion/KeepassReading.lean
  ===========================
  **Reading an exported document.**  Decryption goes through the elements of an
  export as it goes through its tree of entries (`decryptAll_documentOf`), and
  the walk over the groups returns each entry of the tree once, with the names
  of its groups (`readDocument_documentOf`).
-/
import Mnemion.KeepassOrder

namespace Mnemion.Keepass

open Outcome PythonText XmlText

variable {α β : Type}

/-! ### Decryption -/

/-- The fields of an entry, decrypted from a position of the key stream on. -/
def decryptFields (stream : Nat → UInt8) : Nat → List Field → Except ServiceError (List Field × Nat)
  | position, [] => .ok ([], position)
  | position, field :: fields =>
    match field.kind with
    | .customData => do
      let (rest, last) ← decryptFields stream position fields
      return (field :: rest, last)
    | .string => do
      let bytes ← unbase64 field.value
      match decodeUtf8 (applyStream stream position bytes) with
      | none => throw invalid
      | some text => do
        let (rest, last) ← decryptFields stream (position + bytes.length) fields
        return ({ field with value := text } :: rest, last)

/-- The entries of a tree, decrypted in document order. -/
def decryptItems (stream : Nat → UInt8) : Nat → Items Node →
    Except ServiceError (Items Node × Nat)
  | position, .nil => .ok (.nil, position)
  | position, .entry node rest => do
    let (fields, position) ← decryptFields stream position node.fields
    let (rest, position) ← decryptItems stream position rest
    return (.entry { node with fields := fields } rest, position)
  | position, .group key path children rest => do
    let (children, position) ← decryptItems stream position children
    let (rest, position) ← decryptItems stream position rest
    return (.group key path children rest, position)

theorem protected_lower : "True".toLower = "true" ∧ ¬ "".toLower = "true" := by decide +kernel

/-- An element without attributes keeps its text. -/
theorem decryptAll_plain {stream : Nat → UInt8} {position : Nat} {tag text : String}
    {children next : Forest} {read : Forest × Nat} :
    decryptAll stream position (.node tag [] text children next) = .ok read ↔
      ∃ inner, decryptAll stream position children = .ok inner ∧
        ∃ after, decryptAll stream inner.2 next = .ok after ∧
          (.node tag [] text inner.1 after.1, after.2) = read := by
  have hplain : ¬ ((([] : List (String × String)).lookup "Protected").getD "").toLower = "true" :=
    protected_lower.2
  rw [decryptAll, if_neg hplain]
  simp only [bind_eq_ok, pure_eq_ok, exists_eq_left']

theorem decryptAll_nil {stream : Nat → UInt8} {position : Nat} {read : Forest × Nat} :
    decryptAll stream position .nil = .ok read ↔ (.nil, position) = read := by
  rw [decryptAll, Except.ok.injEq]

theorem decryptAll_leaf {stream : Nat → UInt8} {position : Nat} {tag text : String} {next : Forest}
    {read : Forest × Nat} :
    decryptAll stream position (leaf tag text next) = .ok read ↔
      ∃ after, decryptAll stream position next = .ok after ∧
        (leaf tag text after.1, after.2) = read := by
  rw [leaf, decryptAll_plain]
  simp only [decryptAll_nil, exists_eq_left']
  rfl

theorem decryptAll_branch {stream : Nat → UInt8} {position : Nat} {tag : String}
    {children next : Forest} {read : Forest × Nat} :
    decryptAll stream position (branch tag children next) = .ok read ↔
      ∃ inner, decryptAll stream position children = .ok inner ∧
        ∃ after, decryptAll stream inner.2 next = .ok after ∧
          (branch tag inner.1 after.1, after.2) = read := decryptAll_plain

theorem decryptAll_times {stream : Nat → UInt8} {position time : Nat} {next : Forest}
    {read : Forest × Nat} :
    decryptAll stream position (times time next) = .ok read ↔
      ∃ after, decryptAll stream position next = .ok after ∧
        (times time after.1, after.2) = read := by
  rw [times, decryptAll_branch]
  simp only [decryptAll_leaf, decryptAll_nil, exists_eq_left']
  rfl

/-- A protected value. -/
def protectedValue (text : String) : Forest := .node "Value" [("Protected", "True")] text .nil .nil

theorem decryptAll_protectedValue {stream : Nat → UInt8} {position : Nat} {text : String}
    {read : Forest × Nat} :
    decryptAll stream position (protectedValue text) = .ok read ↔
      ∃ bytes, unbase64 text = .ok bytes ∧
        ∃ value, decodeUtf8 (applyStream stream position bytes) = some value ∧
          (protectedValue value, position + bytes.length) = read := by
  have hprotected :
      (([("Protected", "True")] : List (String × String)).lookup "Protected" |>.getD "").toLower =
        "true" := protected_lower.1
  rw [protectedValue, decryptAll, if_pos hprotected]
  simp only [bind_eq_ok]
  constructor
  · rintro ⟨bytes, hbytes, h⟩
    cases hdecode : decodeUtf8 (applyStream stream position bytes) with
    | none =>
      rw [hdecode] at h
      cases h
    | some value =>
      rw [hdecode] at h
      cases h
      exact ⟨bytes, hbytes, value, hdecode, rfl⟩
  · rintro ⟨bytes, hbytes, value, hdecode, rfl⟩
    refine ⟨bytes, hbytes, ?_⟩
    rw [hdecode]
    rfl

theorem decryptAll_customItems (stream : Nat → UInt8) (position : Nat) (fields : List Field) :
    decryptAll stream position (customItems fields) = .ok (customItems fields, position) := by
  induction fields with
  | nil => rfl
  | cons field fields ih =>
    rw [customItems]
    cases field.kind with
    | string => exact ih
    | customData =>
      simp only [decryptAll_branch, decryptAll_leaf, decryptAll_nil, exists_eq_left']
      exact ⟨_, ih, rfl⟩

/-- One protected field is decrypted. -/
theorem decryptFields_string {stream : Nat → UInt8} {position : Nat} {field : Field}
    {fields : List Field} (hkind : field.kind = .string) {read : List Field × Nat} :
    decryptFields stream position (field :: fields) = .ok read ↔
      ∃ bytes, unbase64 field.value = .ok bytes ∧
        ∃ text, decodeUtf8 (applyStream stream position bytes) = some text ∧
          ∃ rest, decryptFields stream (position + bytes.length) fields = .ok rest ∧
            ({ field with value := text } :: rest.1, rest.2) = read := by
  rw [decryptFields, hkind]
  simp only [bind_eq_ok]
  constructor
  · rintro ⟨bytes, hbytes, h⟩
    cases hdecode : decodeUtf8 (applyStream stream position bytes) with
    | none =>
      rw [hdecode] at h
      cases h
    | some text =>
      rw [hdecode] at h
      simp only [bind_eq_ok, pure_eq_ok] at h
      exact ⟨bytes, hbytes, text, hdecode, h⟩
  · rintro ⟨bytes, hbytes, text, hdecode, h⟩
    refine ⟨bytes, hbytes, ?_⟩
    rw [hdecode]
    simp only [bind_eq_ok, pure_eq_ok]
    exact h

theorem decryptFields_customData {stream : Nat → UInt8} {position : Nat} {field : Field}
    {fields : List Field} (hkind : field.kind = .customData) {read : List Field × Nat} :
    decryptFields stream position (field :: fields) = .ok read ↔
      ∃ rest, decryptFields stream position fields = .ok rest ∧
        (field :: rest.1, rest.2) = read := by
  rw [decryptFields, hkind]
  simp only [bind_eq_ok, pure_eq_ok]

/-- Decryption leaves the custom data. -/
theorem customItems_decryptFields {stream : Nat → UInt8} : ∀ {fields : List Field} {position : Nat}
    {read : List Field × Nat}, decryptFields stream position fields = .ok read →
      customItems read.1 = customItems fields
  | [], position, read, h => by
    cases h
    rfl
  | field :: fields, position, read, h => by
    rw [customItems]
    cases hkind : field.kind with
    | customData =>
      obtain ⟨rest, hrest, rfl⟩ := (decryptFields_customData hkind).mp h
      rw [customItems, hkind]
      simp only [customItems_decryptFields hrest]
    | string =>
      obtain ⟨bytes, _, text, _, rest, hrest, rfl⟩ := (decryptFields_string hkind).mp h
      rw [customItems]
      simp only [hkind]
      exact customItems_decryptFields hrest

theorem decryptAll_fieldElements {stream : Nat → UInt8} {customs next : Forest}
    (hcustoms : ∀ position, decryptAll stream position customs = .ok (customs, position)) :
    ∀ {fields : List Field} {opened : Bool} {position : Nat} {read : Forest × Nat},
      decryptAll stream position (fieldElements customs opened fields next) = .ok read ↔
        ∃ inner, decryptFields stream position fields = .ok inner ∧
          ∃ after, decryptAll stream inner.2 next = .ok after ∧
            (fieldElements customs opened inner.1 after.1, after.2) = read
  | [], opened, position, read => by
    rw [fieldElements, decryptFields]
    simp only [Except.ok.injEq, exists_eq_left', fieldElements]
    exact ⟨fun h => ⟨read, h, rfl⟩, fun ⟨after, h, heq⟩ => heq ▸ h⟩
  | field :: fields, opened, position, read => by
    cases hkind : field.kind with
    | customData =>
      simp only [decryptFields_customData hkind]
      cases opened with
      | true =>
        simp only [fieldElements, hkind, if_true, @decryptAll_fieldElements _ _ _ hcustoms fields]
        constructor
        · rintro ⟨inner, hinner, after, hafter, rfl⟩
          exact ⟨_, ⟨inner, hinner, rfl⟩, after, hafter, by simp only [fieldElements, hkind, if_true]⟩
        · rintro ⟨_, ⟨inner, hinner, rfl⟩, after, hafter, rfl⟩
          exact ⟨inner, hinner, after, hafter, by simp only [fieldElements, hkind, if_true]⟩
      | false =>
        simp only [fieldElements, hkind, Bool.false_eq_true, if_false, decryptAll_branch, hcustoms,
          Except.ok.injEq, exists_eq_left', @decryptAll_fieldElements _ _ _ hcustoms fields]
        constructor
        · rintro ⟨_, ⟨inner, hinner, after, hafter, rfl⟩, rfl⟩
          exact ⟨_, ⟨inner, hinner, rfl⟩, after, hafter, by
            simp only [fieldElements, hkind, Bool.false_eq_true, if_false]⟩
        · rintro ⟨_, ⟨inner, hinner, rfl⟩, after, hafter, rfl⟩
          exact ⟨_, ⟨inner, hinner, after, hafter, rfl⟩, by
            simp only [fieldElements, hkind, Bool.false_eq_true, if_false]⟩
    | string =>
      have hshape : ∀ (first : Field) (others : List Field) (after : Forest), first.kind = .string →
          fieldElements customs opened (first :: others) after =
            branch "String" (leaf "Key" first.name (protectedValue first.value))
              (fieldElements customs opened others after) := by
        intro first others after hfirst
        simp only [fieldElements, hfirst]
        rfl
      simp only [decryptFields_string hkind, hshape _ _ _ hkind, decryptAll_branch, decryptAll_leaf,
        decryptAll_protectedValue, @decryptAll_fieldElements _ _ _ hcustoms fields]
      constructor
      · rintro ⟨_, ⟨_, ⟨bytes, hbytes, text, htext, rfl⟩, rfl⟩, _, ⟨inner, hinner, after, hafter,
          rfl⟩, rfl⟩
        exact ⟨_, ⟨bytes, hbytes, text, htext, inner, hinner, rfl⟩, after, hafter,
          congrArg (·, after.2) (hshape ⟨field.kind, field.name, text⟩ inner.1 after.1 hkind)⟩
      · rintro ⟨_, ⟨bytes, hbytes, text, htext, inner, hinner, rfl⟩, after, hafter, rfl⟩
        exact ⟨_, ⟨_, ⟨bytes, hbytes, text, htext, rfl⟩, rfl⟩, _, ⟨inner, hinner, after, hafter,
          rfl⟩, (congrArg (·, after.2)
            (hshape ⟨field.kind, field.name, text⟩ inner.1 after.1 hkind)).symm⟩

theorem decryptAll_entryElement {stream : Nat → UInt8} {position : Nat} {node : Node} {next : Forest}
    {read : Forest × Nat} :
    decryptAll stream position (entryElement node next) = .ok read ↔
      ∃ fields, decryptFields stream position node.fields = .ok fields ∧
        ∃ after, decryptAll stream fields.2 next = .ok after ∧
          (entryElement { node with fields := fields.1 } after.1, after.2) = read := by
  simp only [entryElement, decryptAll_branch, decryptAll_leaf, decryptAll_times, decryptAll_nil,
    decryptAll_fieldElements (decryptAll_customItems stream · node.fields), exists_eq_left']
  constructor
  · rintro ⟨_, ⟨_, ⟨_, ⟨fields, hfields, rfl⟩, rfl⟩, rfl⟩, after, hafter, rfl⟩
    exact ⟨fields, hfields, after, hafter, by rw [customItems_decryptFields hfields]⟩
  · rintro ⟨fields, hfields, after, hafter, rfl⟩
    exact ⟨_, ⟨_, ⟨_, ⟨fields, hfields, rfl⟩, rfl⟩, rfl⟩, after, hafter, by
      rw [customItems_decryptFields hfields]⟩

theorem decryptAll_elements (draws : Draws) {stream : Nat → UInt8} :
    ∀ {items : Items Node} {position : Nat} {read : Forest × Nat},
      decryptAll stream position (items.elements draws) = .ok read ↔
        ∃ plain, decryptItems stream position items = .ok plain ∧
          (plain.1.elements draws, plain.2) = read
  | .nil, position, read => by
    simp only [Items.elements, decryptAll_nil, decryptItems, Except.ok.injEq, exists_eq_left']
  | .entry node rest, position, read => by
    simp only [Items.elements, decryptAll_entryElement, decryptItems, bind_eq_ok, pure_eq_ok,
      @decryptAll_elements draws _ rest]
    constructor
    · rintro ⟨fields, hfields, _, ⟨plain, hplain, rfl⟩, rfl⟩
      exact ⟨_, ⟨fields, hfields, plain, hplain, rfl⟩, rfl⟩
    · rintro ⟨_, ⟨fields, hfields, plain, hplain, rfl⟩, rfl⟩
      exact ⟨fields, hfields, _, ⟨plain, hplain, rfl⟩, rfl⟩
  | .group key path children rest, position, read => by
    simp only [Items.elements, decryptAll_branch, decryptAll_leaf, decryptAll_times, decryptItems,
      bind_eq_ok, pure_eq_ok, @decryptAll_elements draws _ rest,
      @decryptAll_elements draws _ children]
    constructor
    · rintro ⟨_, ⟨_, ⟨_, ⟨_, ⟨inner, hinner, rfl⟩, rfl⟩, rfl⟩, rfl⟩, _, ⟨plain, hplain, rfl⟩, rfl⟩
      exact ⟨_, ⟨inner, hinner, plain, hplain, rfl⟩, rfl⟩
    · rintro ⟨_, ⟨inner, hinner, plain, hplain, rfl⟩, rfl⟩
      exact ⟨_, ⟨_, ⟨_, ⟨_, ⟨inner, hinner, rfl⟩, rfl⟩, rfl⟩, rfl⟩, _, ⟨plain, hplain, rfl⟩, rfl⟩

/-- **Decrypting an export** decrypts its tree of entries. -/
theorem decryptAll_documentOf (draws : Draws) {stream : Nat → UInt8} {common : Option Group}
    {items : Items Node} {read : Forest × Nat} :
    decryptAll stream 0 (documentOf draws common (items.elements draws)) = .ok read ↔
      ∃ plain, decryptItems stream 0 items = .ok plain ∧
        (documentOf draws common (plain.1.elements draws), plain.2) = read := by
  simp only [documentOf, decryptAll_branch, decryptAll_leaf, decryptAll_times, decryptAll_nil,
    decryptAll_elements, exists_eq_left']
  constructor
  · rintro ⟨_, ⟨_, ⟨_, ⟨_, ⟨_, ⟨_, ⟨_, ⟨plain, hplain, rfl⟩, rfl⟩, rfl⟩, rfl⟩, rfl⟩, rfl⟩, rfl⟩, rfl⟩
    exact ⟨plain, hplain, rfl⟩
  · rintro ⟨plain, hplain, rfl⟩
    exact ⟨_, ⟨_, ⟨_, ⟨_, ⟨_, ⟨_, ⟨_, ⟨plain, hplain, rfl⟩, rfl⟩, rfl⟩, rfl⟩, rfl⟩, rfl⟩, rfl⟩, rfl⟩

/-! ### The fields of an entry -/

theorem level_leaf (tag name text : String) (next : Forest) :
    level tag (leaf name text next) =
      if name = tag then ⟨text, .nil⟩ :: level tag next else level tag next := rfl

theorem level_branch (tag name : String) (children next : Forest) :
    level tag (branch name children next) =
      if name = tag then ⟨"", children⟩ :: level tag next else level tag next := rfl

theorem level_times {tag : String} (htag : tag ≠ "Times") (time : Nat) (next : Forest) :
    level tag (times time next) = level tag next := by
  rw [times, level_branch, if_neg htag.symm]

/-- The fields as an entry of a document lists them: first the strings. -/
def ofKind (kind : FieldKind) (fields : List Field) : List Field :=
  fields.filter fun field => decide (field.kind = kind)

def arranged (fields : List Field) : List Field := ofKind .string fields ++ ofKind .customData fields

def stringBody (field : Field) : Element :=
  ⟨"", leaf "Key" field.name (protectedValue field.value)⟩

def itemBody (field : Field) : Element :=
  ⟨"", leaf "Key" field.name (leaf "Value" field.value .nil)⟩

theorem level_string (customs next : Forest) : ∀ (fields : List Field) (opened : Bool),
    level "String" (fieldElements customs opened fields next) =
      (ofKind .string fields).map stringBody ++ level "String" next
  | [], _ => rfl
  | field :: fields, opened => by
    rw [fieldElements, ofKind]
    cases hkind : field.kind with
    | string =>
      rw [List.filter_cons_of_pos (by simpa using hkind), List.map_cons, List.cons_append]
      show ⟨"", _⟩ :: level "String" (fieldElements customs opened fields next) = _
      rw [level_string customs next fields]
      rfl
    | customData =>
      rw [List.filter_cons_of_neg (by simp [hkind])]
      cases opened with
      | true => exact level_string customs next fields true
      | false => exact level_string customs next fields true

theorem level_customData (customs next : Forest) : ∀ (fields : List Field) (opened : Bool),
    level "CustomData" (fieldElements customs opened fields next) =
      (if opened = true ∨ ofKind .customData fields = [] then [] else [⟨"", customs⟩]) ++
        level "CustomData" next
  | [], _ => by simp [fieldElements, ofKind]
  | field :: fields, opened => by
    rw [fieldElements, ofKind]
    cases hkind : field.kind with
    | string =>
      rw [List.filter_cons_of_neg (by simp [hkind])]
      exact level_customData customs next fields opened
    | customData =>
      rw [List.filter_cons_of_pos (by simpa using hkind)]
      cases opened with
      | true =>
        show level "CustomData" (fieldElements customs true fields next) = _
        rw [level_customData customs next fields true, if_pos (Or.inl rfl), if_pos (Or.inl rfl)]
      | false =>
        rw [if_neg (by simp)]
        show ⟨"", customs⟩ :: level "CustomData" (fieldElements customs true fields next) = _
        rw [level_customData customs next fields true, if_pos (Or.inl rfl)]
        rfl

theorem level_item : ∀ fields : List Field,
    level "Item" (customItems fields) = (ofKind .customData fields).map itemBody
  | [] => rfl
  | field :: fields => by
    rw [customItems, ofKind]
    cases hkind : field.kind with
    | string =>
      rw [List.filter_cons_of_neg (by simp [hkind])]
      exact level_item fields
    | customData =>
      rw [List.filter_cons_of_pos (by simpa using hkind), List.map_cons]
      show _ :: level "Item" (customItems fields) = _
      rw [level_item fields]
      rfl

def keyOf (field : Field) : FieldKind × String := (field.kind, field.name)

/-- The limits of `load` on one field. -/
def Field.Fits (field : Field) : Prop :=
  field.name ≠ "" ∧ (encodeUtf8 field.name).length ≤ 2048 ∧ (encodeUtf8 field.value).length ≤ 65536

instance (field : Field) : Decidable field.Fits := inferInstanceAs (Decidable (_ ∧ _))

theorem readOneField_eq {kind : FieldKind} {fields : List Field} {child : Element} {field : Field}
    (hkind : field.kind = kind) (hkey : findtext ["Key"] child.children = some field.name)
    (hvalue : findtext ["Value"] child.children = some field.value) (hfits : field.Fits)
    (hnew : keyOf field ∉ fields.map keyOf) :
    readOneField kind fields child = .ok (fields ++ [field]) := by
  have hcheck : field.name ≠ "" ∧ (encodeUtf8 field.name).length ≤ 2048 ∧
      (kind, field.name) ∉ fields.map (fun field => (field.kind, field.name)) ∧
      (encodeUtf8 field.value).length ≤ 65536 :=
    ⟨hfits.1, hfits.2.1, hkind ▸ hnew, hfits.2.2⟩
  rw [readOneField, hkey, hvalue, Option.getD_some, Option.getD_some, check, if_pos hcheck, ← hkind]
  rfl

/-- The children of one kind are read one after the other. -/
theorem readOneField_foldlM {kind : FieldKind} {body : Field → Element}
    (hbody : ∀ field, findtext ["Key"] (body field).children = some field.name ∧
      findtext ["Value"] (body field).children = some field.value) :
    ∀ {new fields : List Field}, (∀ field ∈ new, field.kind = kind ∧ field.Fits) →
      ((fields ++ new).map keyOf).Nodup →
      (new.map body).foldlM (readOneField kind) fields = .ok (fields ++ new)
  | [], fields, _, _ => by
    rw [List.append_nil]
    rfl
  | field :: new, fields, hnew, hnodup => by
    obtain ⟨hkind, hfits⟩ := hnew field List.mem_cons_self
    have hfresh : keyOf field ∉ fields.map keyOf := by
      intro hmem
      rw [List.map_append, List.map_cons, List.nodup_append] at hnodup
      exact hnodup.2.2 _ hmem _ List.mem_cons_self rfl
    rw [List.map_cons, List.foldlM_cons,
      readOneField_eq hkind (hbody field).1 (hbody field).2 hfits hfresh]
    show (new.map body).foldlM (readOneField kind) (fields ++ [field]) = _
    rw [readOneField_foldlM hbody (fun other hmem => hnew other (List.mem_cons_of_mem _ hmem))
      (by simpa using hnodup), List.append_assoc]
    rfl

/-- What the element of an entry holds. -/
def entryBody (node : Node) : Element :=
  ⟨"", leaf "UUID" (base64 node.id.bytes) <| times node.time <|
    fieldElements (customItems node.fields) false node.fields <| branch "History" .nil .nil⟩

theorem keyOf_arranged {fields : List Field} (hkeys : (fields.map keyOf).Nodup) :
    ((arranged fields).map keyOf).Nodup := by
  have hperm : (arranged fields).Perm fields := by
    have hsplit := List.filter_append_perm (fun field : Field => decide (field.kind = .string)) fields
    have hcustom : (fun field : Field => !decide (field.kind = .string)) =
        fun field => decide (field.kind = .customData) := by
      funext field
      cases field.kind <;> rfl
    rw [hcustom] at hsplit
    exact hsplit
  exact (hperm.map keyOf).nodup_iff.mpr hkeys

theorem readFields_entryBody {node : Node} (hkeys : (node.fields.map keyOf).Nodup)
    (hfits : ∀ field ∈ node.fields, field.Fits) :
    readFields (entryBody node).children = .ok (arranged node.fields) := by
  have hstrings : findall ["String"] (entryBody node).children =
      (ofKind .string node.fields).map stringBody := by
    show level "String" (entryBody node).children = _
    rw [entryBody, level_leaf, if_neg (by decide), level_times (by decide), level_string]
    exact List.append_nil _
  have hcustoms : findall ["CustomData", "Item"] (entryBody node).children =
      (ofKind .customData node.fields).map itemBody := by
    show (level "CustomData" (entryBody node).children).flatMap (fun element =>
      level "Item" element.children) = _
    rw [entryBody, level_leaf, if_neg (by decide), level_times (by decide), level_customData]
    by_cases hnone : ofKind .customData node.fields = []
    · rw [if_pos (.inr hnone), hnone]
      rfl
    · rw [if_neg (by simp [hnone])]
      show level "Item" (customItems node.fields) ++ [] = _
      rw [List.append_nil, level_item]
  have hnodup := keyOf_arranged hkeys
  have hof : ∀ kind, ∀ field ∈ ofKind kind node.fields, field.kind = kind ∧ field.Fits := by
    intro kind field hmem
    obtain ⟨hin, hkind⟩ := List.mem_filter.mp hmem
    exact ⟨of_decide_eq_true hkind, hfits field hin⟩
  rw [readFields, hstrings, hcustoms, readOneField_foldlM (fun _ => ⟨rfl, rfl⟩) (hof .string)]
  · exact readOneField_foldlM (fun _ => ⟨rfl, rfl⟩) (hof .customData) hnodup
  · rw [List.nil_append]
    rw [arranged, List.map_append] at hnodup
    exact (List.nodup_append.mp hnodup).1

/-! ### The walk over the groups -/

theorem unbase64_base64 (bytes : Bytes) : unbase64 (base64 bytes) = .ok bytes := by
  rw [unbase64, base64, String.toList_ofList, Base64.decode_encode]

theorem uuidOf_base64 (id : Uuid) : uuidOf (some (base64 id.bytes)) = .ok id := by
  rw [uuidOf, Option.getD_some, unbase64_base64]
  show (if h : id.bytes.length = 16 then _ else _) = _
  rw [dif_pos id.length]
  rfl

theorem base64_injective {a b : Uuid} (h : base64 a.bytes = base64 b.bytes) : a = b := by
  have hsame : (.ok a : Except ServiceError Uuid) = .ok b := by
    rw [← uuidOf_base64 a, h, uuidOf_base64 b]
  exact Except.ok.inj hsame

/-- The entry that `load` returns for a node at a path. -/
def loadedOf (path : List Group) (node : Node) : LoadedEntry :=
  ⟨node.id, path, titleOf (arranged node.fields), arranged node.fields⟩

/-- The limits of `load` on one entry. -/
structure Node.Fits (node : Node) : Prop where
  keys : (node.fields.map keyOf).Nodup
  fields : ∀ field ∈ node.fields, field.Fits
  count : node.fields.length ≤ 100
  nonempty : ∃ field ∈ node.fields, field.value ≠ ""

theorem mem_arranged {fields : List Field} {field : Field} :
    field ∈ arranged fields ↔ field ∈ fields := by
  rw [arranged, List.mem_append, ofKind, ofKind, List.mem_filter, List.mem_filter]
  cases field.kind <;> simp

theorem length_arranged (fields : List Field) : (arranged fields).length = fields.length := by
  rw [arranged, List.length_append]
  induction fields with
  | nil => rfl
  | cons field fields ih =>
    rw [ofKind, ofKind] at *
    cases hkind : field.kind with
    | string =>
      rw [List.filter_cons_of_pos (by simpa using hkind), List.filter_cons_of_neg (by simp [hkind]),
        List.length_cons, List.length_cons, ← ih]
      omega
    | customData =>
      rw [List.filter_cons_of_neg (by simp [hkind]), List.filter_cons_of_pos (by simpa using hkind),
        List.length_cons, List.length_cons, ← ih]
      omega

/-- One entry is read. -/
theorem walkEntry_entryBody {path : List Group} {walk : Walk} {node : Node} (hfits : node.Fits)
    (hnew : node.id ∉ walk.entries.map LoadedEntry.id) (hroom : walk.entries.length < 100) :
    walkEntry [] path false walk (entryBody node) =
      .ok { walk with entries := walk.entries ++ [loadedOf path node] } := by
  have hid : findtext ["UUID"] (entryBody node).children = some (base64 node.id.bytes) := rfl
  have hlimits : (arranged node.fields).length ≤ 100 ∧ ∃ field ∈ arranged node.fields,
      field.value ≠ "" := by
    refine ⟨length_arranged node.fields ▸ hfits.count, ?_⟩
    obtain ⟨field, hmem, hvalue⟩ := hfits.nonempty
    exact ⟨field, mem_arranged.mpr hmem, hvalue⟩
  rw [walkEntry, if_neg (by simp), hid, uuidOf_base64]
  show (check _ _ >>= fun _ => _) = _
  rw [check, if_pos ⟨hnew, hroom⟩]
  show (readFields (entryBody node).children >>= _) = _
  rw [readFields_entryBody hfits.keys hfits.fields]
  show (check _ _ >>= fun _ => _) = _
  rw [check, if_pos hlimits]
  rfl

namespace Items

/-- The entries directly in an element. -/
def entries : Items α → List α
  | nil => []
  | entry item rest => item :: rest.entries
  | group _ _ _ rest => rest.entries

theorem entries_subset_toList : ∀ (items : Items α) {item : α}, item ∈ items.entries →
    item ∈ items.toList
  | entry first rest, item, h => by
    rcases List.mem_cons.mp h with rfl | h
    · exact List.mem_cons_self
    · exact List.mem_cons_of_mem _ (entries_subset_toList rest h)
  | group _ _ _ rest, _, h => List.mem_append_right _ (entries_subset_toList rest h)

/-- How deep the groups are nested. -/
def depth : Items α → Nat
  | nil => 0
  | entry _ rest => rest.depth
  | group _ _ children rest => max (children.depth + 1) rest.depth

/-- Every group key meets a condition. -/
def ForallGroups (P : Group → Prop) : Items α → Prop
  | nil => True
  | entry _ rest => rest.ForallGroups P
  | group key _ children rest => P key ∧ children.ForallGroups P ∧ rest.ForallGroups P

/-- The entries of the groups among some siblings, as the walk returns them. -/
def listed (draws : Draws) : List Group → Items Node → List LoadedEntry
  | _, nil => []
  | path, entry _ rest => rest.listed draws path
  | path, group key keyPath children rest =>
    let current := path ++ [⟨draws.groupId keyPath, key.name⟩]
    children.entries.map (loadedOf current) ++ children.listed draws current ++
      rest.listed draws path

end Items

theorem level_entry_elements (draws : Draws) : ∀ items : Items Node,
    level "Entry" (items.elements draws) = items.entries.map entryBody
  | .nil => rfl
  | .entry node rest => by
    show entryBody node :: level "Entry" (rest.elements draws) = _
    rw [level_entry_elements draws rest]
    rfl
  | .group _ _ _ rest => level_entry_elements draws rest

/-- The entries of a group are read. -/
theorem walkEntry_foldlM (path : List Group) :
    ∀ (nodes : List Node) (walk : Walk), (∀ node ∈ nodes, node.Fits) →
      ((walk.entries ++ nodes.map (loadedOf path)).map LoadedEntry.id).Nodup →
      (walk.entries ++ nodes.map (loadedOf path)).length ≤ 100 →
      (nodes.map entryBody).foldlM (walkEntry [] path false) walk =
        .ok { walk with entries := walk.entries ++ nodes.map (loadedOf path) }
  | [], walk, _, _, _ => by
    simp only [List.map_nil, List.append_nil]
    rfl
  | node :: nodes, walk, hfits, hnodup, hlength => by
    have hnew : node.id ∉ walk.entries.map LoadedEntry.id := by
      intro hmem
      rw [List.map_append, List.map_cons, List.map_cons, List.nodup_append] at hnodup
      exact hnodup.2.2 _ hmem _ List.mem_cons_self rfl
    have hroom : walk.entries.length < 100 := by
      rw [List.length_append, List.map_cons, List.length_cons] at hlength
      omega
    rw [List.map_cons, List.foldlM_cons,
      walkEntry_entryBody (hfits node List.mem_cons_self) hnew hroom]
    show (nodes.map entryBody).foldlM (walkEntry [] path false)
      { walk with entries := walk.entries ++ [loadedOf path node] } = _
    rw [walkEntry_foldlM path nodes _ (fun other hmem => hfits other (List.mem_cons_of_mem _ hmem))
      (by simpa using hnodup) (by simpa using hlength)]
    simp only [List.append_assoc, List.map_cons, List.singleton_append]

/-- An element of another tag is passed over. -/
theorem walkGroups_other {recycle : Option String} {deleted : List (Option String)}
    {path : List Group} {hidden : Bool} {tag text : String} {attributes : List (String × String)}
    {children next : Forest} {walk : Walk} (htag : tag ≠ "Group") :
    walkGroups recycle deleted path hidden (.node tag attributes text children next) walk =
      walkGroups recycle deleted path hidden next walk := by
  rw [walkGroups, if_neg htag]

/-- The element of a group, as `dump` writes it. -/
def groupElement (id : Uuid) (name : String) (time : Nat) (items next : Forest) : Forest :=
  branch "Group" (leaf "UUID" (base64 id.bytes) <| leaf "Name" name <| times time items) next

/-- A group that is not hidden: its entries, then its groups. -/
theorem walkGroups_groupElement (draws : Draws) {recycle : Option String} {path : List Group}
    {id : Uuid} {name : String} {time : Nat} {items : Items Node} {next : Forest} {walk : Walk}
    (hpath : path.length ≤ 24) (hname : (encodeUtf8 name).length ≤ 2048)
    (hid : some (base64 id.bytes) ≠ recycle) :
    walkGroups recycle [] path false (groupElement id name time (items.elements draws) next) walk =
      ((items.entries.map entryBody).foldlM (walkEntry [] (path ++ [⟨id, name⟩]) false) walk).bind
        fun walk => (walkGroups recycle [] (path ++ [⟨id, name⟩]) false (items.elements draws)
          walk).bind fun walk => walkGroups recycle [] path false next walk := by
  have huuid : findtext ["UUID"] (leaf "UUID" (base64 id.bytes) <| leaf "Name" name <|
      times time (items.elements draws)) = some (base64 id.bytes) := rfl
  have hlabel : findtext ["Name"] (leaf "UUID" (base64 id.bytes) <| leaf "Name" name <|
      times time (items.elements draws)) = some name := rfl
  have hentries : findall ["Entry"] (leaf "UUID" (base64 id.bytes) <| leaf "Name" name <|
      times time (items.elements draws)) = items.entries.map entryBody := by
    show level "Entry" _ = _
    rw [level_leaf, if_neg (by decide), level_leaf, if_neg (by decide), level_times (by decide),
      level_entry_elements]
  have hshown : (false || decide (some (base64 id.bytes) = recycle) ||
      decide (some (base64 id.bytes) ∈ ([] : List (Option String)))) = false := by
    simp [hid]
  rw [groupElement, branch, walkGroups, if_pos rfl, huuid, hlabel, hentries, check, if_pos hpath]
  dsimp only
  rw [hshown, Option.getD_some, check, if_pos hname]
  show (uuidOf (some (base64 id.bytes)) >>= _) = _
  rw [uuidOf_base64]
  show ((items.entries.map entryBody).foldlM (walkEntry [] (path ++ [⟨id, name⟩]) false) walk >>=
    _) = _
  cases (items.entries.map entryBody).foldlM (walkEntry [] (path ++ [⟨id, name⟩]) false) walk with
  | error e => rfl
  | ok found =>
    show (walkGroups recycle [] (path ++ [⟨id, name⟩]) false (leaf "UUID" (base64 id.bytes) <|
      leaf "Name" name <| times time (items.elements draws)) found >>= _) = _
    rw [leaf, leaf, times, branch, walkGroups_other (by decide), walkGroups_other (by decide),
      walkGroups_other (by decide)]
    rfl

/-- **The walk** returns the entries of the groups. -/
theorem walkGroups_elements (draws : Draws) {recycle : Option String}
    (hrecycle : ∀ path, some (base64 (draws.groupId path).bytes) ≠ recycle) :
    ∀ (items : Items Node) (path : List Group) (walk : Walk),
      (∀ node ∈ items.toList, node.Fits) →
      items.ForallGroups (fun key => (encodeUtf8 key.name).length ≤ 2048) →
      path.length + items.depth ≤ 25 →
      ((walk.entries ++ items.listed draws path).map LoadedEntry.id).Nodup →
      (walk.entries ++ items.listed draws path).length ≤ 100 →
      walkGroups recycle [] path false (items.elements draws) walk =
        .ok { walk with entries := walk.entries ++ items.listed draws path }
  | .nil, path, walk, _, _, _, _, _ => by
    simp only [Items.listed, List.append_nil]
    rfl
  | .entry node rest, path, walk, hfits, hnames, hdepth, hnodup, hlength => by
    rw [Items.elements, entryElement, branch, walkGroups_other (by decide)]
    exact walkGroups_elements draws hrecycle rest path walk
      (fun other hmem => hfits other (List.mem_cons_of_mem _ hmem)) hnames hdepth hnodup hlength
  | .group key keyPath children rest, path, walk, hfits, hnames, hdepth, hnodup, hlength => by
    have hdepths : path.length + (children.depth + 1) ≤ 25 ∧ path.length + rest.depth ≤ 25 := by
      rw [Items.depth] at hdepth
      omega
    simp only [Items.listed, ← List.append_assoc] at hnodup hlength ⊢
    generalize hcurrent : path ++ [(⟨draws.groupId keyPath, key.name⟩ : Group)] = current at *
    have hpath : current.length = path.length + 1 := by rw [← hcurrent, List.length_append]; rfl
    have hinner := (List.nodup_append.mp (List.map_append ▸ hnodup)).1
    have hdirect := (List.nodup_append.mp (List.map_append ▸ hinner)).1
    have hentries := walkEntry_foldlM current children.entries walk
      (fun node hmem => hfits node
        (List.mem_append_left _ (Items.entries_subset_toList children hmem)))
      hdirect (by simp only [List.length_append] at hlength ⊢; omega)
    have hchildren := walkGroups_elements draws hrecycle children current
      ⟨walk.entries ++ children.entries.map (loadedOf current), walk.recycled⟩
      (fun node hmem => hfits node (List.mem_append_left _ hmem)) hnames.2.1 (by omega) hinner
      (by simp only [List.length_append] at hlength ⊢; omega)
    have hrest := walkGroups_elements draws hrecycle rest path
      ⟨walk.entries ++ children.entries.map (loadedOf current) ++
        children.listed draws current, walk.recycled⟩
      (fun node hmem => hfits node (List.mem_append_right _ hmem)) hnames.2.2 hdepths.2 hnodup hlength
    rw [Items.elements, ← groupElement, walkGroups_groupElement draws (by omega) hnames.1 (hrecycle _),
      hcurrent, hentries]
    show (walkGroups recycle [] current false (children.elements draws) _).bind _ = _
    rw [hchildren]
    exact hrest

/-- A hidden group contributes no entry. -/
theorem walkGroups_hidden {recycle : Option String} {deleted : List (Option String)} :
    ∀ {forest : Forest} {path : List Group} {walk walk' : Walk},
      walkGroups recycle deleted path true forest walk = .ok walk' → walk'.entries = walk.entries
  | .nil, path, walk, walk', h => by
    cases h
    rfl
  | .node tag attributes text children next, path, walk, walk', h => by
    rw [walkGroups] at h
    split at h
    · simp only [Bool.true_or, bind_eq_ok, check_eq_ok] at h
      obtain ⟨-, -, -, -, id, -, found, hfound, inner, hinner, hnext⟩ := h
      have hentries : found.entries = walk.entries :=
        foldlM_invariant (fun other : Walk => other.entries = walk.entries)
          (fun other element after _ hother hstep => by
            rw [walkEntry, if_pos (.inl rfl), Except.ok.injEq] at hstep
            rw [← hstep]
            exact hother) rfl hfound
      rw [walkGroups_hidden hnext, walkGroups_hidden hinner, hentries]
    · exact walkGroups_hidden h

/-! ### The document of an export -/

/-- The one group in the root of an export. -/
def rootGroup (draws : Draws) : Option Group → Group
  | some root => root
  | none => ⟨draws.rootId, "Mnemion export"⟩

/-- The children of the element of the whole file. -/
def documentChildren (draws : Draws) (common : Option Group) (items : Forest) : Forest :=
  match documentOf draws common items with
  | .node _ _ _ children _ => children
  | .nil => .nil

/-- The entries of an export, as `load` returns them. -/
def Items.loaded (draws : Draws) (root : Group) (items : Items Node) : List LoadedEntry :=
  items.entries.map (loadedOf [root]) ++ items.listed draws [root]

theorem findall_documentChildren (draws : Draws) (common : Option Group) (items : Forest) :
    findtext ["Meta", "RecycleBinUUID"] (documentChildren draws common items) =
        some (base64 Uuid.zero.bytes) ∧
      findall ["Root", "DeletedObjects", "DeletedObject"] (documentChildren draws common items) = [] ∧
      findall ["Root", "Group"] (documentChildren draws common items) =
        [⟨"", leaf "UUID" (base64 (rootGroup draws common).id.bytes) <|
          leaf "Name" (rootGroup draws common).name <| times draws.rootTime items⟩] := by
  cases common <;> exact ⟨rfl, rfl, rfl⟩

/-- The limits of `load` on a tree of entries. -/
structure Items.Fits (draws : Draws) (root : Group) (items : Items Node) : Prop where
  nodes : ∀ node ∈ items.toList, node.Fits
  root_name : (encodeUtf8 root.name).length ≤ 2048
  names : items.ForallGroups fun key => (encodeUtf8 key.name).length ≤ 2048
  depth : items.depth ≤ 24
  ids : ((items.loaded draws root).map LoadedEntry.id).Nodup
  count : (items.loaded draws root).length ≤ 100
  some_entry : items.loaded draws root ≠ []
  total : (((items.loaded draws root).flatMap LoadedEntry.fields).filter fun field =>
    decide (field.value ≠ "")).length ≤ 500

/-- **Reading an exported document** returns the entries of its tree. -/
theorem readDocument_documentOf {draws : Draws} {common : Option Group} {items : Items Node}
    (attachments : Nat) (hroot : (rootGroup draws common).id ≠ Uuid.zero)
    (hfits : items.Fits draws (rootGroup draws common)) :
    ∃ omitted, readDocument attachments (documentChildren draws common (items.elements draws)) =
      .ok ⟨items.loaded draws (rootGroup draws common), omitted⟩ := by
  obtain ⟨hrecycle, hdeleted, hgroups⟩ :=
    findall_documentChildren draws common (items.elements draws)
  have hne : ∀ id : Uuid, id ≠ Uuid.zero →
      some (base64 id.bytes) ≠ some (base64 Uuid.zero.bytes) := by
    intro id hid hsame
    exact hid (base64_injective (Option.some.inj hsame))
  have hdirect : ((items.entries.map (loadedOf [rootGroup draws common])).map
      LoadedEntry.id).Nodup := by
    have hids := hfits.ids
    rw [Items.loaded, List.map_append] at hids
    exact (List.nodup_append.mp hids).1
  have hcount : (items.entries.map (loadedOf [rootGroup draws common])).length ≤ 100 := by
    have hall := hfits.count
    rw [Items.loaded, List.length_append] at hall
    omega
  have hentries := walkEntry_foldlM [rootGroup draws common] items.entries ⟨[], 0⟩
    (fun node hmem => hfits.nodes node (Items.entries_subset_toList items hmem))
    hdirect hcount
  have hinner := walkGroups_elements draws (fun path => hne _ (draws.groupId_ne_zero path)) items
    [rootGroup draws common] ⟨items.entries.map (loadedOf [rootGroup draws common]), 0⟩
    hfits.nodes hfits.names (by have := hfits.depth; simp only [List.length_singleton]; omega)
    hfits.ids hfits.count
  have hwalk : walkGroups (some (base64 Uuid.zero.bytes)) [] [] false
      (groupElement (rootGroup draws common).id (rootGroup draws common).name draws.rootTime
        (items.elements draws) .nil) ⟨[], 0⟩ =
      .ok ⟨items.loaded draws (rootGroup draws common), 0⟩ := by
    rw [walkGroups_groupElement draws (Nat.zero_le _) hfits.root_name (hne _ hroot),
      List.nil_append, hentries]
    show (walkGroups (some (base64 Uuid.zero.bytes)) [] [rootGroup draws common] false
      (items.elements draws) ⟨items.entries.map (loadedOf [rootGroup draws common]), 0⟩).bind _ = _
    rw [hinner]
    rfl
  rw [readDocument, hrecycle, hdeleted, hgroups]
  refine ⟨⟨historyEntries (documentChildren draws common (items.elements draws)), attachments, 0⟩, ?_⟩
  show (walkGroups (some (base64 Uuid.zero.bytes)) [] [] false (groupElement
    (rootGroup draws common).id (rootGroup draws common).name draws.rootTime (items.elements draws)
      .nil) ⟨[], 0⟩ >>= _) = _
  rw [hwalk]
  show (check (items.loaded draws (rootGroup draws common) ≠ [] ∧
    (((items.loaded draws (rootGroup draws common)).flatMap LoadedEntry.fields).filter fun field =>
      decide (field.value ≠ "")).length ≤ 500) _ >>= fun _ => _) = _
  rw [check, if_pos ⟨hfits.some_entry, hfits.total⟩]
  rfl

/-- An export whose root carries the identifier of the recycle bin has no entries. -/
theorem readDocument_recycled {draws : Draws} {common : Option Group} {items : Items Node}
    {attachments : Nat} {loaded : Loaded} (hroot : (rootGroup draws common).id = Uuid.zero) :
    readDocument attachments (documentChildren draws common (items.elements draws)) ≠ .ok loaded := by
  obtain ⟨hrecycle, hdeleted, hgroups⟩ :=
    findall_documentChildren draws common (items.elements draws)
  intro h
  rw [readDocument, hrecycle, hdeleted, hgroups] at h
  simp only [List.map_nil, bind_eq_ok, check_eq_ok] at h
  obtain ⟨walk, hwalk, -, ⟨hentries, -⟩, -⟩ := h
  have hid : findtext ["UUID"] (leaf "UUID" (base64 Uuid.zero.bytes) <|
      leaf "Name" (rootGroup draws common).name <| times draws.rootTime (items.elements draws)) =
        some (base64 Uuid.zero.bytes) := rfl
  rw [hroot, branch, walkGroups, if_pos rfl, hid] at hwalk
  simp only [decide_true, Bool.or_true, Bool.true_or, bind_eq_ok, check_eq_ok] at hwalk
  obtain ⟨-, -, -, -, id, -, found, hfound, inner, hinner, hnext⟩ := hwalk
  have hnone : found.entries = [] :=
    foldlM_invariant (fun other : Walk => other.entries = [])
      (fun other element after _ hother hstep => by
        rw [walkEntry, if_pos (.inl rfl), Except.ok.injEq] at hstep
        rw [← hstep]
        exact hother) rfl hfound
  cases hnext
  exact hentries ((walkGroups_hidden hinner).trans hnone)

end Mnemion.Keepass
