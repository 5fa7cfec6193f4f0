/-
  Mnemion/KeepassRoundTrip.lean
  =============================
  **Exporting and loading KeePass entries.**  `dump` encrypts in the order of the
  selection what `load` decrypts in the order of the groups, so a selection comes
  back under every key stream exactly when both orders agree and its root group
  does not carry the identifier of the recycle bin (`keepass_round_trip_iff`).
-/
import Mnemion.KeepassReturn

namespace Mnemion.Keepass

open Outcome PythonText XmlText

/-! ### Well-formed documents -/

/-- A name that starts with a letter. -/
def XmlName (name : String) : Prop :=
  (∃ c ∈ name.toList.head?, c.isAlpha) ∧ ∀ c ∈ name.toList, isNameChar c

instance (name : String) : Decidable (XmlName name) :=
  @instDecidableAnd _ _ (Option.decidableExistsMem _) (List.decidableBAll _ name.toList)

def WellFormedNode (tag : String) (attributes : List (String × String)) (text : String) : Prop :=
  XmlName tag ∧ (∀ pair ∈ attributes, XmlName pair.1 ∧ IsXmlText pair.2) ∧
    (attributes.map Prod.fst).Nodup ∧ IsXmlText text

/-- One element whose names are XML names and whose texts are XML texts. -/
def WellFormed (root : Forest) : Prop :=
  (∃ tag attributes text children, root = .node tag attributes text children .nil) ∧
    root.Forall WellFormedNode

theorem forall_leaf {tag text : String} {next : Forest} (htag : XmlName tag)
    (htext : IsXmlText text) (hnext : next.Forall WellFormedNode) :
    (leaf tag text next).Forall WellFormedNode :=
  ⟨⟨htag, by simp, by simp, htext⟩, trivial, hnext⟩

theorem forall_branch {tag : String} {children next : Forest} (htag : XmlName tag)
    (hchildren : children.Forall WellFormedNode) (hnext : next.Forall WellFormedNode) :
    (branch tag children next).Forall WellFormedNode :=
  ⟨⟨htag, by simp, by simp, by decide⟩, hchildren, hnext⟩

theorem mem_encode {bytes : Bytes} {c : Char} (h : c ∈ Base64.encode bytes) :
    c ∈ '=' :: Base64.alphabet := by
  rw [Base64.encode, List.mem_append] at h
  rcases h with h | h
  · obtain ⟨value, hvalue, rfl⟩ := List.mem_map.mp h
    have hlt := Base64.sextets_lt bytes value hvalue
    have hdigits : ∀ value < 64, Base64.digit value ∈ '=' :: Base64.alphabet := by decide +kernel
    exact hdigits value hlt
  · rw [List.eq_of_mem_replicate h]
    exact List.mem_cons_self

theorem isXmlText_base64 (bytes : Bytes) : IsXmlText (base64 bytes) := by
  have halphabet : ∀ c ∈ '=' :: Base64.alphabet, isXmlChar c := PythonText.each (by decide)
  intro c hc
  rw [base64, String.toList_ofList] at hc
  exact halphabet c (mem_encode hc)

theorem xmlNames : ∀ name ∈ ["KeePassFile", "Meta", "Generator", "DatabaseName", "RecycleBinEnabled",
    "RecycleBinUUID", "MemoryProtection", "ProtectTitle", "ProtectUserName", "ProtectPassword",
    "ProtectURL", "ProtectNotes", "Root", "Group", "UUID", "Name", "Times", "CreationTime",
    "LastModificationTime", "LastAccessTime", "ExpiryTime", "LocationChanged", "Expires",
    "UsageCount", "DeletedObjects", "Entry", "CustomData", "Item", "Key", "Value", "String",
    "History", "Protected"], XmlName name := by decide +kernel

theorem xmlTexts : ∀ text ∈ ["Mnemion", "Mnemion credentials", "False", "True", "0",
    "Mnemion export"], IsXmlText text := by decide +kernel

theorem forall_times {time : Nat} {next : Forest} (hnext : next.Forall WellFormedNode) :
    (times time next).Forall WellFormedNode := by
  have hencoded := isXmlText_base64 (toLittle 8 time)
  refine forall_branch (xmlNames _ (by simp)) ?_ hnext
  iterate 5 refine forall_leaf (xmlNames _ (by simp)) hencoded ?_
  refine forall_leaf (xmlNames _ (by simp)) (xmlTexts _ (by simp)) ?_
  exact forall_leaf (xmlNames _ (by simp)) (xmlTexts _ (by simp)) trivial

/-- Fields whose texts are XML texts. -/
def XmlFields (fields : List Field) : Prop :=
  ∀ field ∈ fields, IsXmlText field.name ∧ IsXmlText field.value

theorem xmlFields_sealFields (stream : Nat → UInt8) : ∀ {fields : List Field} {position : Nat},
    (∀ field ∈ fields, IsXmlText field.name ∧ (field.kind = .customData → IsXmlText field.value)) →
      XmlFields (sealFields stream position fields).1
  | [], _, _ => by simp [sealFields, XmlFields]
  | field :: fields, position, h => by
    have hfield := h field List.mem_cons_self
    have hrest := fun other hmem => h other (List.mem_cons_of_mem field hmem)
    cases hkind : field.kind with
    | customData =>
      rw [sealFields_customData stream position hkind]
      exact List.forall_mem_cons.mpr ⟨⟨hfield.1, hfield.2 hkind⟩, xmlFields_sealFields stream hrest⟩
    | string =>
      rw [sealFields_string stream position hkind]
      exact List.forall_mem_cons.mpr ⟨⟨hfield.1, isXmlText_base64 _⟩, xmlFields_sealFields stream hrest⟩

theorem forall_customItems : ∀ {fields : List Field}, XmlFields fields →
    (customItems fields).Forall WellFormedNode
  | [], _ => trivial
  | field :: fields, h => by
    have hrest := forall_customItems fun other hmem => h other (List.mem_cons_of_mem field hmem)
    obtain ⟨hname, hvalue⟩ := h field List.mem_cons_self
    rw [customItems]
    cases field.kind with
    | string => exact hrest
    | customData =>
      refine forall_branch (xmlNames _ (by simp)) ?_ hrest
      exact forall_leaf (xmlNames _ (by simp)) hname (forall_leaf (xmlNames _ (by simp)) hvalue trivial)

theorem forall_protectedValue {text : String} (htext : IsXmlText text) :
    (protectedValue text).Forall WellFormedNode := by
  refine ⟨⟨xmlNames _ (by simp), ?_, by simp, htext⟩, trivial, trivial⟩
  intro pair hpair
  rw [List.mem_singleton.mp hpair]
  exact ⟨xmlNames _ (by simp), xmlTexts _ (by simp)⟩

theorem forall_fieldElements {customs next : Forest} (hcustoms : customs.Forall WellFormedNode)
    (hnext : next.Forall WellFormedNode) : ∀ {fields : List Field} {opened : Bool}, XmlFields fields →
      (fieldElements customs opened fields next).Forall WellFormedNode
  | [], _, _ => hnext
  | field :: fields, opened, h => by
    have hfields : XmlFields fields := fun other hmem => h other (List.mem_cons_of_mem field hmem)
    obtain ⟨hname, hvalue⟩ := h field List.mem_cons_self
    rw [fieldElements]
    cases field.kind with
    | string =>
      refine forall_branch (xmlNames _ (by simp)) ?_ (forall_fieldElements hcustoms hnext hfields)
      exact forall_leaf (xmlNames _ (by simp)) hname (forall_protectedValue hvalue)
    | customData =>
      cases opened with
      | true => exact forall_fieldElements hcustoms hnext hfields
      | false =>
        exact forall_branch (xmlNames _ (by simp)) hcustoms
          (forall_fieldElements hcustoms hnext hfields)

theorem forall_elements (draws : Draws) : ∀ {items : Items Node},
    (∀ node ∈ items.toList, XmlFields node.fields) →
      items.ForallGroups (fun key => IsXmlText key.name) →
      (items.elements draws).Forall WellFormedNode
  | .nil, _, _ => trivial
  | .entry node rest, hnodes, hgroups => by
    have hfields := hnodes node List.mem_cons_self
    have hrest := forall_elements draws (fun other hmem => hnodes other (List.mem_cons_of_mem _ hmem))
      hgroups
    refine forall_branch (xmlNames _ (by simp)) ?_ hrest
    refine forall_leaf (xmlNames _ (by simp)) (isXmlText_base64 _) (forall_times ?_)
    have hhistory : (branch "History" .nil .nil).Forall WellFormedNode :=
      forall_branch (xmlNames _ (by simp)) trivial trivial
    exact forall_fieldElements (forall_customItems hfields) hhistory hfields
  | .group key path children rest, hnodes, hgroups => by
    have hchildren := forall_elements draws
      (fun other hmem => hnodes other (List.mem_append_left _ hmem)) hgroups.2.1
    have hrest := forall_elements draws
      (fun other hmem => hnodes other (List.mem_append_right _ hmem)) hgroups.2.2
    refine forall_branch (xmlNames _ (by simp)) ?_ hrest
    refine forall_leaf (xmlNames _ (by simp)) (isXmlText_base64 _) ?_
    exact forall_leaf (xmlNames _ (by simp)) hgroups.1 (forall_times hchildren)

/-- **An export is a well-formed document.** -/
theorem wellFormed_documentOf (draws : Draws) (stream : Nat → UInt8) {entries : List Entry}
    (haccepted : Accepted entries) :
    WellFormed (documentOf draws (commonRoot entries)
      (((arrange (commonRoot entries).isSome entries).map (nodeOf draws stream)).elements draws)) := by
  have hitems : (((arrange (commonRoot entries).isSome entries).map
      (nodeOf draws stream)).elements draws).Forall WellFormedNode := by
    apply forall_elements draws
    · intro node hmem
      rw [Items.toList_map] at hmem
      obtain ⟨source, hsource, rfl⟩ := List.mem_map.mp hmem
      have hin := mem_sources ((toList_arrange_perm _ entries).subset hsource)
      exact xmlFields_sealFields stream (haccepted.texts _ hin).2
    · rw [Items.forallGroups_map]
      exact forallGroups_arrange fun entry hmem => (haccepted.texts entry hmem).1
  have hname := rootGroup_forall (P := IsXmlText) draws (xmlTexts _ (by simp))
    haccepted.count.1 fun entry hmem => (haccepted.texts entry hmem).1
  refine ⟨⟨_, _, _, _, rfl⟩, ?_⟩
  refine forall_branch (xmlNames _ (by simp)) (forall_branch (xmlNames _ (by simp)) ?_
    (forall_branch (xmlNames _ (by simp)) ?_ trivial)) trivial
  · refine forall_leaf (xmlNames _ (by simp)) (xmlTexts _ (by simp)) ?_
    refine forall_leaf (xmlNames _ (by simp)) (xmlTexts _ (by simp)) ?_
    refine forall_leaf (xmlNames _ (by simp)) (xmlTexts _ (by simp)) ?_
    refine forall_leaf (xmlNames _ (by simp)) (isXmlText_base64 _) ?_
    refine forall_branch (xmlNames _ (by simp)) ?_ trivial
    iterate 5 refine forall_leaf (xmlNames _ (by simp)) (xmlTexts _ (by simp)) ?_
    trivial
  · refine forall_branch (xmlNames _ (by simp)) ?_ (forall_branch (xmlNames _ (by simp)) trivial trivial)
    refine forall_leaf (xmlNames _ (by simp)) (isXmlText_base64 _) ?_
    refine forall_leaf (xmlNames _ (by simp)) ?_ (forall_times hitems)
    revert hname
    cases commonRoot entries <;> exact id

/-! ### Loading an export -/

/-- The inner header of an export is read. -/
theorem readInner_payloadOf (draws : Draws) (root : Forest) :
    readInner ((payloadOf draws root).length + 1) [] 0 (payloadOf draws root) =
      .ok (([(1, toLittle 4 3), (2, draws.innerKey)], 0), tostring root) := by
  have hkey : draws.innerKey.length < 256 ^ 4 := by rw [draws.innerKey_length]; decide
  have hshape : payloadOf draws root = field 1 (toLittle 4 3) ++ (field 2 draws.innerKey ++
      (field 0 [] ++ tostring root)) := by
    rw [payloadOf]
    simp only [List.append_assoc]
  obtain ⟨fuel, hfuel⟩ : ∃ fuel, (payloadOf draws root).length = fuel + 2 := by
    refine ⟨(payloadOf draws root).length - 2, ?_⟩
    rw [hshape, List.length_append, length_field]
    omega
  rw [hfuel, hshape, readInner]
  simp only [bind_eq_ok]
  refine ⟨_, readField_field (by decide) (by decide), ?_⟩
  dsimp only
  rw [if_neg (by decide), if_neg (by decide), readInner]
  simp only [bind_eq_ok, check_eq_ok]
  refine ⟨(), by decide, _, readField_field (by decide) hkey, ?_⟩
  dsimp only
  rw [if_neg (by decide), if_neg (by decide), readInner]
  simp only [bind_eq_ok, check_eq_ok]
  exact ⟨(), by decide, _, readField_field (by decide) (by decide), rfl⟩

/-- **Reading a payload** decrypts its document and reads it. -/
theorem extract_payloadOf {crypto : Crypto} {fromXml : Bytes → Option Forest} {draws : Draws}
    {stream : Nat → UInt8} {common : Option Group} {items : Items Node} {loaded : Loaded}
    (hstream : innerCipher crypto 3 draws.innerKey = .ok stream)
    (hxml : fromXml (tostring (documentOf draws common (items.elements draws))) =
      some (documentOf draws common (items.elements draws)))
    (hsize : (documentOf draws common (items.elements draws)).size ≤ 20000) :
    extract crypto fromXml (payloadOf draws (documentOf draws common (items.elements draws))) =
        .ok loaded ↔
      ∃ plain, decryptItems stream 0 items = .ok plain ∧
        readDocument 0 (documentChildren draws common (plain.1.elements draws)) = .ok loaded := by
  have hkind : fromLittle (toLittle 4 3) = 3 := by decide
  have hcipher : innerCipher crypto (fromLittle (toLittle 4 3)) draws.innerKey = .ok stream := by
    rw [hkind]
    exact hstream
  rw [extract, readInner_payloadOf]
  show (innerCipher crypto (fromLittle (toLittle 4 3)) draws.innerKey >>= _) = _ ↔ _
  rw [hcipher, hxml]
  show (check ("KeePassFile" = "KeePassFile") invalid >>= fun _ => check
    ((documentOf draws common (items.elements draws)).size ≤ 20000)
      (unsupported "This KeePass document has too many elements.") >>= fun _ =>
      decryptAll stream 0 (documentOf draws common (items.elements draws)) >>= _) = _ ↔ _
  rw [check, if_pos rfl, check, if_pos hsize]
  simp only [bind_eq_ok, decryptAll_documentOf]
  constructor
  · rintro ⟨-, -, -, -, _, ⟨plain, hplain, rfl⟩, hread⟩
    exact ⟨plain, hplain, hread⟩
  · rintro ⟨plain, hplain, hread⟩
    exact ⟨(), trivial, (), trivial, _, ⟨plain, hplain, rfl⟩, hread⟩

/-- The document of an accepted selection. -/
theorem exportDocument_eq_ok {draws : Draws} {stream : Nat → UInt8} {entries : List Entry}
    (hids : (entries.map Entry.id).Nodup) {root : Forest} :
    exportDocument draws stream entries = .ok root ↔
      Accepted entries ∧ root.size ≤ 20000 ∧ documentOf draws (commonRoot entries)
        (((arrange (commonRoot entries).isSome entries).map (nodeOf draws stream)).elements draws) =
          root := by
  rw [exportDocument]
  simp only [bind_eq_ok, check_eq_ok, pure_eq_ok, place_arrange draws stream _ hids]
  constructor
  · rintro ⟨-, ⟨hcount, hfields⟩, -, hdepth, -, htexts, -, hsize, rfl⟩
    exact ⟨⟨hcount, hfields, hdepth, htexts⟩, hsize, rfl⟩
  · rintro ⟨haccepted, hsize, rfl⟩
    exact ⟨(), ⟨haccepted.count, haccepted.fields⟩, (), haccepted.depth, (), haccepted.texts, (),
      hsize, rfl⟩

/-- The parser reads what the writer writes. -/
def ParsesXml (fromXml : Bytes → Option Forest) : Prop :=
  ∀ root, WellFormed root → fromXml (tostring root) = some root

/-- **Loading an export** decrypts the tree of the selection and reads it. -/
theorem load_dump {crypto : Crypto} (hcrypto : crypto.Lawful) {fromXml : Bytes → Option Forest}
    (hxml : ParsesXml fromXml) {draws : Draws} {entries : List Entry} {password : String}
    (hids : (entries.map Entry.id).Nodup) {file : Bytes}
    (hdump : dump crypto draws entries password = .ok file) :
    Accepted entries ∧ ∃ stream, innerCipher crypto 3 draws.innerKey = .ok stream ∧
      ∀ loaded, load crypto fromXml file password = .ok loaded ↔
        ∃ plain, decryptItems stream 0
            ((arrange (commonRoot entries).isSome entries).map (nodeOf draws stream)) = .ok plain ∧
          readDocument 0 (documentChildren draws (commonRoot entries) (plain.1.elements draws)) =
            .ok loaded := by
  simp only [dump, bind_eq_ok, check_eq_ok] at hdump
  obtain ⟨stream, hstream, root, hroot, -, hpayload, hseal⟩ := hdump
  obtain ⟨haccepted, hsize, rfl⟩ := (exportDocument_eq_ok hids).mp hroot
  refine ⟨haccepted, stream, hstream, fun loaded => ?_⟩
  have hopen := openFile_sealFile hcrypto hpayload hseal
  have hparse := hxml _ (wellFormed_documentOf draws stream haccepted)
  rw [← extract_payloadOf hstream hparse hsize, load, hopen]
  rfl

/-! ### Whether an export is accepted does not depend on the key stream -/

theorem length_base64 (bytes : Bytes) :
    charsSize (escape false (base64 bytes)) = (Base64.encode bytes).length := by
  have halphabet : ∀ c ∈ '=' :: Base64.alphabet, c.utf8Size = 1 ∧ escapeChar false c = [c] :=
    PythonText.each (by decide)
  exact charsSize_escape_plain fun c hc => halphabet c (mem_encode hc)

theorem base64_eq_empty {bytes : Bytes} : base64 bytes = "" ↔ bytes.length = 0 := by
  have hlength : (base64 bytes).toList.length = (Base64.encode bytes).length := by
    rw [base64, String.toList_ofList]
  rw [← String.toList_eq_nil_iff, ← List.length_eq_zero_iff, hlength, Base64.length_encode]
  omega

theorem sameRoom_base64 {a b : Bytes} (h : a.length = b.length) : SameRoom (base64 a) (base64 b) := by
  refine ⟨?_, ?_⟩
  · rw [length_base64, length_base64, Base64.length_encode, Base64.length_encode, h]
  · rw [base64_eq_empty, base64_eq_empty, h]

/-- Fields that differ in texts of the same room. -/
def AlikeField (a b : Field) : Prop := a.kind = b.kind ∧ a.name = b.name ∧ SameRoom a.value b.value

theorem alike_sealFields (stream stream' : Nat → UInt8) : ∀ (fields : List Field) (position : Nat),
    List.Forall₂ AlikeField (sealFields stream position fields).1
      (sealFields stream' position fields).1
  | [], _ => .nil
  | field :: fields, position => by
    cases hkind : field.kind with
    | customData =>
      rw [sealFields_customData stream position hkind, sealFields_customData stream' position hkind]
      exact .cons ⟨rfl, rfl, .refl _⟩ (alike_sealFields stream stream' fields _)
    | string =>
      rw [sealFields_string stream position hkind, sealFields_string stream' position hkind]
      refine .cons ⟨rfl, rfl, sameRoom_base64 ?_⟩ (alike_sealFields stream stream' fields _)
      rw [length_applyStream, length_applyStream]

theorem alike_leaf {tag text text' : String} {next next' : Forest} (htext : SameRoom text text')
    (hnext : next.Alike next') : (leaf tag text next).Alike (leaf tag text' next') :=
  .node htext .nil hnext

theorem alike_branch {tag : String} {children children' next next' : Forest}
    (hchildren : children.Alike children') (hnext : next.Alike next') :
    (branch tag children next).Alike (branch tag children' next') := .node (.refl _) hchildren hnext

theorem alike_times {time : Nat} {next next' : Forest} (hnext : next.Alike next') :
    (times time next).Alike (times time next') := alike_branch (.refl _) hnext

theorem alike_customItems {a b : List Field} (h : List.Forall₂ AlikeField a b) :
    (customItems a).Alike (customItems b) := by
  induction h with
  | nil => exact .nil
  | @cons x y _ _ hxy _ ih =>
    rw [customItems, customItems, hxy.1, hxy.2.1]
    cases y.kind with
    | string => exact ih
    | customData => exact alike_branch (alike_leaf (.refl _) (alike_leaf hxy.2.2 .nil)) ih

theorem alike_fieldElements {customs customs' next : Forest} (hcustoms : customs.Alike customs')
    {a b : List Field} (h : List.Forall₂ AlikeField a b) : ∀ opened : Bool,
    (fieldElements customs opened a next).Alike (fieldElements customs' opened b next) := by
  induction h with
  | nil => exact fun _ => .refl _
  | @cons x y _ _ hxy _ ih =>
    intro opened
    rw [fieldElements, fieldElements, hxy.1, hxy.2.1]
    cases y.kind with
    | string =>
      exact alike_branch (alike_leaf (.refl _) (.node hxy.2.2 .nil .nil)) (ih opened)
    | customData =>
      cases opened with
      | true => exact ih true
      | false => exact alike_branch hcustoms (ih true)

theorem alike_elements (draws : Draws) (stream stream' : Nat → UInt8) : ∀ tree : Items Source,
    ((tree.map (nodeOf draws stream)).elements draws).Alike
      ((tree.map (nodeOf draws stream')).elements draws)
  | .nil => .nil
  | .entry source rest => by
    have hfields := alike_sealFields stream stream' source.entry.fields source.position
    refine alike_branch ?_ (alike_elements draws stream stream' rest)
    refine alike_leaf (.refl _) (alike_times ?_)
    exact alike_fieldElements (alike_customItems hfields) hfields false
  | .group key path children rest => by
    refine alike_branch ?_ (alike_elements draws stream stream' rest)
    exact alike_leaf (.refl _) (alike_leaf (.refl _)
      (alike_times (alike_elements draws stream stream' children)))

theorem alike_documentOf (draws : Draws) (common : Option Group) {items items' : Forest}
    (h : items.Alike items') :
    (documentOf draws common items).Alike (documentOf draws common items') := by
  refine alike_branch (alike_branch (.refl _) (alike_branch (alike_branch ?_ (.refl _)) .nil)) .nil
  exact alike_leaf (.refl _) (alike_leaf (.refl _) (alike_times h))

/-- The same primitives with another stream cipher. -/
def Crypto.withChaCha (crypto : Crypto) (cipher : Bytes → Bytes → Nat → UInt8) : Crypto :=
  { crypto with chacha20 := cipher }

theorem Crypto.Lawful.withChaCha {crypto : Crypto} (h : crypto.Lawful)
    (cipher : Bytes → Bytes → Nat → UInt8) : (crypto.withChaCha cipher).Lawful :=
  ⟨h.sha256_length, h.hmac_length, h.aes_length, h.aes_decrypts⟩

theorem pad_length_congr {a b : Bytes} (h : a.length = b.length) :
    (pad a).length = (pad b).length := by
  rw [pad, pad, List.length_append, List.length_append, List.length_replicate, List.length_replicate,
    h]

/-- Whether a payload can be sealed depends on its length. -/
theorem sealFile_of_length {crypto : Crypto} (hcrypto : crypto.Lawful) {secrets : OuterSecrets}
    {a b file : Bytes} {password : String} (hlength : a.length = b.length)
    (h : sealFile crypto secrets a password = .ok file) :
    ∃ file', sealFile crypto secrets b password = .ok file' := by
  simp only [sealFile, bind_eq_ok, check_eq_ok, pure_eq_ok] at h ⊢
  obtain ⟨transformed, hderive, -, hlimit, -⟩ := h
  refine ⟨_, transformed, hderive, (), ?_, rfl⟩
  have hencrypted : ∀ key, (crypto.aesCbcEncrypt key secrets.iv (pad a)).length =
      (crypto.aesCbcEncrypt key secrets.iv (pad b)).length := by
    intro key
    rw [hcrypto.aes_length _ _ _ (pad_length a), hcrypto.aes_length _ _ _ (pad_length b),
      pad_length_congr hlength]
  have hmac : ∀ key index data, (mac crypto key index data).length = 32 := fun _ _ _ =>
    hcrypto.hmac_length _ _
  simp only [List.length_append, blockOf, hmac, length_toLittle, hencrypted] at hlimit ⊢
  exact hlimit

/-- **An export accepted under one key stream** is accepted under all. -/
theorem dump_withChaCha {crypto : Crypto} (hcrypto : crypto.Lawful) {draws : Draws}
    {entries : List Entry} {password : String} (hids : (entries.map Entry.id).Nodup) {file : Bytes}
    (hdump : dump crypto draws entries password = .ok file)
    (cipher : Bytes → Bytes → Nat → UInt8) :
    ∃ file', dump (crypto.withChaCha cipher) draws entries password = .ok file' := by
  simp only [dump, bind_eq_ok, check_eq_ok, exportDocument_eq_ok hids] at hdump ⊢
  obtain ⟨stream, hstream, root, ⟨haccepted, hsize, rfl⟩, -, hpayload, hseal⟩ := hdump
  obtain ⟨stream', hstream'⟩ : ∃ stream', innerCipher (crypto.withChaCha cipher) 3 draws.innerKey =
      .ok stream' := by
    rw [innerCipher, if_neg (by simp), if_pos ⟨rfl, draws.innerKey_length⟩]
    exact ⟨_, rfl⟩
  have halike := alike_documentOf draws (commonRoot entries)
    (alike_elements draws stream stream' (arrange (commonRoot entries).isSome entries))
  have hlength := halike.length_tostring
  have hpayloads : (payloadOf draws (documentOf draws (commonRoot entries)
      (((arrange (commonRoot entries).isSome entries).map (nodeOf draws stream)).elements draws))).length =
      (payloadOf draws (documentOf draws (commonRoot entries)
        (((arrange (commonRoot entries).isSome entries).map
          (nodeOf draws stream')).elements draws))).length := by
    simp only [payloadOf, List.length_append, hlength]
  obtain ⟨file', hfile'⟩ := sealFile_of_length hcrypto hpayloads hseal
  exact ⟨file', stream', hstream', _, ⟨haccepted, halike.size_eq ▸ hsize, rfl⟩, (),
    hpayloads ▸ hpayload, hfile'⟩

/-! ### The round trip -/

/-- What an export of a selection loads to, if the export is accepted. -/
def RoundTrips (crypto : Crypto) (fromXml : Bytes → Option Forest) (draws : Draws)
    (entries : List Entry) (password : String) : Prop :=
  ∀ file, dump crypto draws entries password = .ok file →
    ∃ loaded, load crypto fromXml file password = .ok loaded ∧ Returned entries loaded

/-- The group all entries share does not carry the identifier of the recycle bin. -/
def RootVisible (entries : List Entry) : Prop :=
  ∀ root, commonRoot entries = some root → root.id ≠ Uuid.zero

theorem rootGroup_ne_zero {draws : Draws} {entries : List Entry} :
    (rootGroup draws (commonRoot entries)).id ≠ Uuid.zero ↔ RootVisible entries := by
  rw [RootVisible]
  cases commonRoot entries with
  | none => simpa [rootGroup] using draws.rootId_ne_zero
  | some root => simp [rootGroup]

theorem resembles_plain (draws : Draws) (entries : List Entry) :
    Resembles draws entries
      ((arrange (commonRoot entries).isSome entries).map (plainNode draws)) := by
  unfold Resembles
  generalize (arrange (commonRoot entries).isSome entries).map (plainNode draws) = items
  induction items with
  | nil => exact .nil
  | entry node rest ih =>
    exact .entry ⟨rfl, rfl, List.forall₂_same.mpr fun _ _ => ⟨rfl, rfl, rfl⟩⟩ ih
  | group key path children rest ihchildren ihrest => exact .group ihchildren ihrest

/-- A selection in document order comes back. -/
theorem roundTrips_of_inOrder {crypto : Crypto} (hcrypto : crypto.Lawful)
    {fromXml : Bytes → Option Forest} (hxml : ParsesXml fromXml) {draws : Draws}
    {entries : List Entry} {password : String} (hload : Loadable entries)
    (horder : SelectionInOrder entries) (hvisible : RootVisible entries) :
    RoundTrips crypto fromXml draws entries password := by
  intro file hdump
  obtain ⟨haccepted, stream, -, hiff⟩ := load_dump hcrypto hxml hload.ids hdump
  have haligned := (aligned_iff hload.ids).mpr horder
  have hplain := decryptItems_of_aligned draws stream haligned
  have hfits := (resembles_plain draws entries).fits haccepted hload
  obtain ⟨omitted, hread⟩ :=
    readDocument_documentOf 0 (rootGroup_ne_zero.mpr hvisible) hfits
  exact ⟨_, (hiff _).mpr ⟨_, hplain, hread⟩, returned_plain draws entries omitted⟩

/-- A selection that comes back under every key stream is in document order. -/
theorem inOrder_of_roundTrips {crypto : Crypto} (hcrypto : crypto.Lawful)
    {fromXml : Bytes → Option Forest} (hxml : ParsesXml fromXml) {draws : Draws}
    {entries : List Entry} {password : String} {file : Bytes}
    (haccepted : dump crypto draws entries password = .ok file) (hload : Loadable entries)
    (h : ∀ cipher, RoundTrips (crypto.withChaCha cipher) fromXml draws entries password) :
    SelectionInOrder entries ∧ RootVisible entries := by
  have hdecrypt : ∀ stream, RootVisible entries ∧ ∃ last, decryptItems stream 0
      ((arrange (commonRoot entries).isSome entries).map (nodeOf draws stream)) =
        .ok ((arrange (commonRoot entries).isSome entries).map (plainNode draws), last) := by
    intro stream
    have hlawful := hcrypto.withChaCha fun _ _ => stream
    obtain ⟨other, hother⟩ := dump_withChaCha hcrypto hload.ids haccepted fun _ _ => stream
    obtain ⟨loaded, hloaded, hreturned⟩ := h (fun _ _ => stream) other hother
    obtain ⟨hchecked, found, hfound, hiff⟩ := load_dump hlawful hxml hload.ids hother
    have hstream : found = stream := by
      rw [innerCipher, if_neg (by simp), if_pos ⟨rfl, draws.innerKey_length⟩] at hfound
      exact (Except.ok.inj hfound).symm
    subst hstream
    obtain ⟨plain, hplain, hread⟩ := (hiff loaded).mp hloaded
    have hvisible : (rootGroup draws (commonRoot entries)).id ≠ Uuid.zero := fun hzero =>
      readDocument_recycled hzero hread
    have hresembles : Resembles draws entries plain.1 := decryptItems_rel hplain
    obtain ⟨omitted, hdocument⟩ :=
      readDocument_documentOf 0 hvisible (hresembles.fits hchecked hload)
    rw [hdocument, Except.ok.injEq] at hread
    rw [← hread] at hreturned
    have hsame := hresembles.eq_of_returned hload hreturned
    exact ⟨rootGroup_ne_zero.mp hvisible, plain.2, by rw [hplain, ← hsame]⟩
  have haligned := aligned_of_decryptItems draws fun stream => (hdecrypt stream).2
  exact ⟨(aligned_iff hload.ids).mp haligned, (hdecrypt fun _ => 0).1⟩

/-- **A selection comes back under every key stream** exactly when the entries
    with protected bytes stand in the same order in the selection and in the
    document, and the group they share is not hidden. -/
theorem keepass_round_trip_iff {crypto : Crypto} (hcrypto : crypto.Lawful)
    {fromXml : Bytes → Option Forest} (hxml : ParsesXml fromXml) {draws : Draws}
    {entries : List Entry} {password : String} {file : Bytes}
    (haccepted : dump crypto draws entries password = .ok file) (hload : Loadable entries) :
    (∀ cipher, RoundTrips (crypto.withChaCha cipher) fromXml draws entries password) ↔
      SelectionInOrder entries ∧ RootVisible entries := by
  constructor
  · exact inOrder_of_roundTrips hcrypto hxml haccepted hload
  · rintro ⟨horder, hvisible⟩ cipher
    exact roundTrips_of_inOrder (hcrypto.withChaCha cipher) hxml hload horder hvisible

/-! ### Two selections -/

/-- Stand-ins for the primitives. -/
def sampleCrypto : Crypto where
  sha256 _ := List.replicate 32 0
  sha512 _ := List.replicate 64 0
  hmacSha256 _ _ := List.replicate 32 0
  argon2 _ _ _ _ _ _ _ := some (List.replicate 32 0)
  aesEcb _ data := data
  aesCbcEncrypt _ _ data := data
  aesCbcDecrypt _ _ data := data
  chacha20 _ _ _ := 0
  salsa20 _ _ _ := 0
  inflate data := .ok data

theorem sampleCrypto_lawful : sampleCrypto.Lawful :=
  ⟨fun _ => rfl, fun _ _ => rfl, fun _ _ _ _ => rfl, fun _ _ _ _ => rfl⟩

def sampleUuid (first : UInt8) : Uuid := ⟨first :: List.replicate 15 0, rfl⟩

def sampleDraws : Draws where
  outer := ⟨List.replicate 32 0, List.replicate 16 0, List.replicate 32 0, rfl, Uuid.zero.length, rfl⟩
  innerKey := List.replicate 64 0
  innerKey_length := rfl
  rootId := sampleUuid 1
  rootId_ne_zero := by decide
  groupId _ := sampleUuid 2
  groupId_ne_zero _ := by decide
  entryId _ := sampleUuid 3
  rootTime := 0
  groupTime _ := 0
  entryTime _ := 0

def sampleEntry (id : UInt8) (group : Group) : Entry :=
  ⟨sampleUuid id, [group], [⟨.string, "Password", "secret"⟩]⟩

def bank : Group := ⟨sampleUuid 10, "Bank"⟩
def mail : Group := ⟨sampleUuid 11, "Mail"⟩

/-- One entry of a group, one of another, and one of the first again. -/
def interleaved : List Entry := [sampleEntry 4 bank, sampleEntry 5 mail, sampleEntry 6 bank]

example : SelectionInOrder [sampleEntry 4 bank, sampleEntry 6 bank, sampleEntry 5 mail] := by decide +kernel

theorem interleaved_loadable : Loadable interleaved := by
  constructor <;> decide +kernel

theorem interleaved_accepted : Accepted interleaved := by
  constructor <;> decide +kernel

/-- In the document the third entry stands before the second. -/
theorem interleaved_not_inOrder : ¬ SelectionInOrder interleaved := by
  have hpaths : interleaved.map (fun entry => (pathOf (commonRoot interleaved).isSome entry, entry)) =
      [([bank], sampleEntry 4 bank), ([mail], sampleEntry 5 mail), ([bank], sampleEntry 6 bank)] := by
    decide +kernel
  have hinside : inside bank [([mail], sampleEntry 5 mail), ([bank], sampleEntry 6 bank)] =
      [([], sampleEntry 6 bank)] := by decide +kernel
  have houtside : outside bank [([mail], sampleEntry 5 mail), ([bank], sampleEntry 6 bank)] =
      [([mail], sampleEntry 5 mail)] := by decide +kernel
  have hdocument : documentOrder interleaved =
      [sampleEntry 4 bank, sampleEntry 6 bank, sampleEntry 5 mail] := by
    rw [documentOrder, hpaths, groupOrder, hinside, houtside]
    simp [groupOrder, inside, outside]
  rw [SelectionInOrder, hdocument]
  decide +kernel

theorem interleaved_dump :
    ∃ file, dump sampleCrypto sampleDraws interleaved "password" = .ok file := by
  have hderive : derive sampleCrypto (valuesOf sampleDraws.outer.salt) "password" =
      .ok (List.replicate 32 0) := rfl
  have hsizes : ((documentOf sampleDraws (commonRoot interleaved) (((arrange
      (commonRoot interleaved).isSome interleaved).map
        (nodeOf sampleDraws fun _ => 0)).elements sampleDraws)).size ≤ 20000) ∧
      charsSize declaration + writtenSize (documentOf sampleDraws (commonRoot interleaved) (((arrange
        (commonRoot interleaved).isSome interleaved).map
          (nodeOf sampleDraws fun _ => 0)).elements sampleDraws)) ≤ 10000 := by
    decide +kernel
  rw [← charsSize_write, ← charsSize_append, ← length_encodeUtf8_ofList] at hsizes
  simp only [dump, sealFile, bind_eq_ok, check_eq_ok, pure_eq_ok,
    exportDocument_eq_ok interleaved_loadable.ids]
  have hlength : (payloadOf sampleDraws (documentOf sampleDraws (commonRoot interleaved) (((arrange
      (commonRoot interleaved).isSome interleaved).map
        (nodeOf sampleDraws fun _ => 0)).elements sampleDraws))).length ≤ 10100 := by
    have hinner : (field 1 (toLittle 4 3) ++ field 2 sampleDraws.innerKey ++ field 0 []).length ≤ 100 := by
      decide +kernel
    have houter := hsizes.2
    rw [payloadOf, List.length_append, tostring]
    omega
  refine ⟨_, fun _ => 0, rfl, _, ⟨interleaved_accepted, hsizes.1, rfl⟩, (), ?_, _, hderive, (), ?_, rfl⟩
  · have hlimit : MAX_PAYLOAD = 2000000 := rfl
    omega
  · have hmac : ∀ key index data, (mac sampleCrypto key index data).length = 32 := fun _ _ _ => rfl
    have haes : ∀ key iv data, sampleCrypto.aesCbcEncrypt key iv data = data := fun _ _ _ => rfl
    have hsha : ∀ data, (sampleCrypto.sha256 data).length = 32 := fun _ => rfl
    simp only [List.length_append, length_headerOf, blockOf, hmac, hsha, haes, length_toLittle, pad,
      List.length_replicate, List.length_nil]
    have hlimit : MAX_FILE = 1000000 := rfl
    omega

theorem sampleParser_parses : ParsesXml XmlText.parse := by
  intro root hroot
  apply parse_tostring
  have hname : ∀ name, XmlName name → IsName name := by
    rintro name ⟨⟨c, hhead, -⟩, hchars⟩
    refine ⟨?_, hchars⟩
    rintro rfl
    cases hhead
  obtain ⟨-, hforall⟩ := hroot
  unfold Forest.Named
  induction root with
  | nil => trivial
  | node tag attributes text children next ihchildren ihnext =>
    obtain ⟨⟨htag, hattributes, -⟩, hchildren, hnext⟩ := hforall
    exact ⟨⟨hname tag htag, fun pair hpair => hname pair.1 (hattributes pair hpair).1⟩,
      ihchildren hchildren, ihnext hnext⟩

/-- The third entry is encrypted after the second and decrypted before it, so
    some key stream spoils both. -/
theorem interleaved_does_not_come_back :
    Loadable interleaved ∧ (∃ file, dump sampleCrypto sampleDraws interleaved "password" = .ok file) ∧
      ¬ ∀ cipher, RoundTrips (sampleCrypto.withChaCha cipher) XmlText.parse sampleDraws interleaved
        "password" := by
  obtain ⟨file, hfile⟩ := interleaved_dump
  refine ⟨interleaved_loadable, ⟨file, hfile⟩, fun h => ?_⟩
  exact interleaved_not_inOrder
    (inOrder_of_roundTrips sampleCrypto_lawful sampleParser_parses hfile interleaved_loadable h).1

/-- The condition decides the interleaved selection. -/
theorem keepass_round_trip_iff_interleaved :
    (∀ cipher, RoundTrips (sampleCrypto.withChaCha cipher) XmlText.parse sampleDraws interleaved
        "password") ↔ SelectionInOrder interleaved ∧ RootVisible interleaved := by
  obtain ⟨file, hfile⟩ := interleaved_dump
  exact keepass_round_trip_iff sampleCrypto_lawful sampleParser_parses hfile interleaved_loadable

end Mnemion.Keepass
