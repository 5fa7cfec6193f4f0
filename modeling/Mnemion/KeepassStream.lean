/-
  Mnemion/KeepassStream.lean
  ==========================
  **One key stream, two visits.**  `dump` encrypts in the order of the selection
  and `_extract` decrypts in document order.  A tree of entries comes back under
  every key stream exactly when both visits meet it at the same positions
  (`decryptItems_of_aligned`, `aligned_of_decryptItems`).
-/
import Mnemion.KeepassReading

namespace Mnemion.Keepass

open Outcome PythonText XmlText

variable {α β : Type}

/-! ### A stream applied twice -/

theorem length_applyStream (stream : Nat → UInt8) (position : Nat) (data : Bytes) :
    (applyStream stream position data).length = data.length := by
  rw [applyStream, List.length_map, List.length_zipIdx]

theorem getElem?_applyStream (stream : Nat → UInt8) (position : Nat) (data : Bytes) (i : Nat) :
    (applyStream stream position data)[i]? = data[i]?.map fun byte => byte ^^^ stream (position + i) := by
  rw [applyStream, List.getElem?_map, List.getElem?_zipIdx, Option.map_map]
  cases data[i]? with
  | none => rfl
  | some byte => simp

/-- At the same position the second application undoes the first. -/
theorem applyStream_same (stream : Nat → UInt8) (position : Nat) (data : Bytes) :
    applyStream stream position (applyStream stream position data) = data := by
  apply List.ext_getElem?
  intro i
  rw [getElem?_applyStream, getElem?_applyStream]
  cases data[i]? with
  | none => rfl
  | some byte =>
    show some (byte ^^^ stream (position + i) ^^^ stream (position + i)) = some byte
    rw [UInt8.xor_assoc, UInt8.xor_self, UInt8.xor_zero]

/-- The key stream that is one at a position and zero elsewhere. -/
def spike (position : Nat) : Nat → UInt8 := fun i => if i = position then 1 else 0

/-- At another position some stream spoils the data. -/
theorem applyStream_spike {a b : Nat} (hab : a ≠ b) {data : Bytes} (hdata : data ≠ []) :
    applyStream (spike b) a (applyStream (spike b) b data) ≠ data := by
  intro h
  obtain ⟨first, rest, rfl⟩ := List.exists_cons_of_ne_nil hdata
  have hbyte : first ^^^ spike b (b + 0) ^^^ spike b (a + 0) = first := by
    have hget := getElem?_applyStream (spike b) a (applyStream (spike b) b (first :: rest)) 0
    rw [h, getElem?_applyStream] at hget
    exact (Option.some.inj hget).symm
  have hone : spike b (b + 0) = 1 := if_pos rfl
  have hzero : spike b (a + 0) = 0 := if_neg hab
  rw [hone, hzero, UInt8.xor_zero] at hbyte
  have hsame : first ^^^ 1 = first ^^^ 0 := hbyte.trans UInt8.xor_zero.symm
  exact absurd ((UInt8.xor_right_inj first).mp hsame) (by decide)

/-! ### Decrypting what was encrypted -/

/-- A field with its value encrypted. -/
def Field.sealed (stream : Nat → UInt8) (position : Nat) (field : Field) : Field :=
  { field with value := base64 (applyStream stream position (encodeUtf8 field.value)) }

theorem sealFields_string (stream : Nat → UInt8) (position : Nat) {field : Field}
    (hkind : field.kind = .string) (fields : List Field) :
    (sealFields stream position (field :: fields)).1 =
      field.sealed stream position ::
        (sealFields stream (position + (encodeUtf8 field.value).length) fields).1 := by
  rw [sealFields, Field.sealed]
  simp only [hkind]

theorem sealFields_customData (stream : Nat → UInt8) (position : Nat) {field : Field}
    (hkind : field.kind = .customData) (fields : List Field) :
    (sealFields stream position (field :: fields)).1 =
      field :: (sealFields stream position fields).1 := by
  rw [sealFields]
  simp only [hkind]

theorem width_string {field : Field} (hkind : field.kind = .string) (fields : List Field) :
    width (field :: fields) = (encodeUtf8 field.value).length + width fields := by
  rw [width, hkind]

theorem width_customData {field : Field} (hkind : field.kind = .customData) (fields : List Field) :
    width (field :: fields) = width fields := by
  rw [width, hkind]

/-- Without protected bytes the position does not matter. -/
theorem sealFields_of_width_zero (stream : Nat → UInt8) :
    ∀ {fields : List Field} {a b : Nat}, width fields = 0 →
      (sealFields stream a fields).1 = (sealFields stream b fields).1
  | [], _, _, _ => rfl
  | field :: fields, a, b, h => by
    cases hkind : field.kind with
    | customData =>
      rw [width_customData hkind] at h
      rw [sealFields_customData stream a hkind, sealFields_customData stream b hkind,
        sealFields_of_width_zero stream h]
    | string =>
      rw [width_string hkind, Nat.add_eq_zero_iff] at h
      have hbytes : encodeUtf8 field.value = [] := List.length_eq_zero_iff.mp h.1
      rw [sealFields_string stream a hkind, sealFields_string stream b hkind, Field.sealed,
        Field.sealed, hbytes, sealFields_of_width_zero stream h.2 (a := a + List.length []) (b := b + List.length [])]
      rfl

theorem decryptFields_same (stream : Nat → UInt8) :
    ∀ (fields : List Field) (position : Nat),
      decryptFields stream position (sealFields stream position fields).1 =
        .ok (fields, position + width fields)
  | [], _ => rfl
  | field :: fields, position => by
    cases hkind : field.kind with
    | customData =>
      rw [sealFields_customData stream position hkind, width_customData hkind,
        decryptFields_customData hkind]
      exact ⟨_, decryptFields_same stream fields position, rfl⟩
    | string =>
      have hrest := decryptFields_same stream fields (position + (encodeUtf8 field.value).length)
      have hsealed : (field.sealed stream position).kind = .string := hkind
      rw [sealFields_string stream position hkind, width_string hkind, decryptFields_string hsealed]
      refine ⟨_, unbase64_base64 _, field.value, ?_,
        (fields, position + (encodeUtf8 field.value).length + width fields), ?_, ?_⟩
      · rw [applyStream_same, decodeUtf8_encodeUtf8]
      · rw [length_applyStream]
        exact hrest
      · rw [Nat.add_assoc]
        rfl

/-- Fields encrypted where they are decrypted, or without protected bytes. -/
theorem decryptFields_sealFields (stream : Nat → UInt8) {fields : List Field} {a b : Nat}
    (h : width fields ≠ 0 → b = a) :
    decryptFields stream a (sealFields stream b fields).1 = .ok (fields, a + width fields) := by
  by_cases hwidth : width fields = 0
  · rw [sealFields_of_width_zero stream (a := b) (b := a) hwidth]
    exact decryptFields_same stream fields a
  · rw [h hwidth]
    exact decryptFields_same stream fields a

/-- Fields that every stream brings back were encrypted where they are decrypted. -/
theorem position_of_decryptFields : ∀ (fields : List Field) {a b : Nat},
    (∀ stream, ∃ last, decryptFields stream a (sealFields stream b fields).1 = .ok (fields, last)) →
      width fields ≠ 0 → b = a
  | [], _, _, _, hwidth => absurd rfl hwidth
  | field :: fields, a, b, h, hwidth => by
    cases hkind : field.kind with
    | customData =>
      rw [width_customData hkind] at hwidth
      refine position_of_decryptFields fields (fun stream => ?_) hwidth
      obtain ⟨last, hlast⟩ := h stream
      rw [sealFields_customData stream b hkind] at hlast
      obtain ⟨rest, hrest, heq⟩ := (decryptFields_customData hkind).mp hlast
      cases heq
      exact ⟨_, hrest⟩
    | string =>
      rw [width_string hkind] at hwidth
      have hfield : ∀ stream, ∃ rest,
          decodeUtf8 (applyStream stream a (applyStream stream b (encodeUtf8 field.value))) =
            some field.value ∧
          decryptFields stream (a + (encodeUtf8 field.value).length)
            (sealFields stream (b + (encodeUtf8 field.value).length) fields).1 = .ok (fields, rest) := by
        intro stream
        obtain ⟨last, hlast⟩ := h stream
        rw [sealFields_string stream b hkind] at hlast
        have hsealed : (field.sealed stream b).kind = .string := hkind
        obtain ⟨bytes, hbytes, text, htext, rest, hrest, heq⟩ :=
          (decryptFields_string hsealed).mp hlast
        rw [Field.sealed, unbase64_base64, Except.ok.injEq] at hbytes
        subst hbytes
        rw [Prod.mk.injEq, List.cons.injEq] at heq
        rw [length_applyStream] at hrest
        have hvalue : text = field.value := congrArg Field.value heq.1.1
        subst hvalue
        exact ⟨rest.2, htext, by rw [hrest, ← heq.1.2]⟩
      by_cases hempty : encodeUtf8 field.value = []
      · rw [hempty] at hwidth
        simp only [List.length_nil, Nat.zero_add] at hwidth
        refine position_of_decryptFields fields (fun stream => ?_) hwidth
        obtain ⟨rest, -, hrest⟩ := hfield stream
        rw [hempty] at hrest
        exact ⟨rest, hrest⟩
      · by_contra hne
        obtain ⟨rest, htext, -⟩ := hfield (spike b)
        exact applyStream_spike (Ne.symm hne) hempty (encodeUtf8_of_decodeUtf8 htext).symm

/-- The node of an entry, before encryption. -/
def plainNode (draws : Draws) (source : Source) : Node :=
  ⟨source.entry.id, draws.entryTime source.index, source.entry.fields⟩

/-- **An aligned tree is decrypted.** -/
theorem decryptItems_of_aligned (draws : Draws) (stream : Nat → UInt8) :
    ∀ {tree : Items Source} {position : Nat}, Aligned position tree.toList →
      decryptItems stream position (tree.map (nodeOf draws stream)) =
        .ok (tree.map (plainNode draws), position + (tree.toList.map Source.width).sum)
  | .nil, _, _ => rfl
  | .entry source rest, position, h => by
    have hfields := decryptFields_sealFields stream h.1
    have hrest := decryptItems_of_aligned draws stream h.2
    rw [Items.map, decryptItems, nodeOf]
    simp only [bind_eq_ok, pure_eq_ok]
    refine ⟨_, hfields, _, hrest, ?_⟩
    rw [Items.toList, List.map_cons, List.sum_cons, ← Nat.add_assoc]
    rfl
  | .group key path children rest, position, h => by
    rw [Items.toList, aligned_append] at h
    have hchildren := decryptItems_of_aligned draws stream h.1
    have hrest := decryptItems_of_aligned draws stream h.2
    rw [Items.map, decryptItems]
    simp only [bind_eq_ok, pure_eq_ok]
    refine ⟨_, hchildren, _, hrest, ?_⟩
    rw [Items.toList, List.map_append, List.sum_append, ← Nat.add_assoc]
    rfl

/-- **A tree that every stream brings back is aligned.** -/
theorem aligned_of_decryptItems (draws : Draws) :
    ∀ {tree : Items Source} {position : Nat},
      (∀ stream, ∃ last, decryptItems stream position (tree.map (nodeOf draws stream)) =
        .ok (tree.map (plainNode draws), last)) → Aligned position tree.toList
  | .nil, _, _ => trivial
  | .entry source rest, position, h => by
    have hparts : ∀ stream, ∃ last,
        decryptFields stream position (sealFields stream source.position source.entry.fields).1 =
          .ok (source.entry.fields, last) ∧
        ∃ final, decryptItems stream last (rest.map (nodeOf draws stream)) =
          .ok (rest.map (plainNode draws), final) := by
      intro stream
      obtain ⟨final, hfinal⟩ := h stream
      rw [Items.map, decryptItems, nodeOf] at hfinal
      simp only [bind_eq_ok, pure_eq_ok] at hfinal
      obtain ⟨fields, hfields, after, hafter, heq⟩ := hfinal
      rw [Prod.mk.injEq, Items.map, Items.entry.injEq] at heq
      have hsame : fields.1 = source.entry.fields := congrArg Node.fields heq.1.1
      refine ⟨fields.2, ?_, after.2, ?_⟩
      · rw [hfields, ← hsame]
      · rw [hafter, ← heq.1.2]
    have hposition : source.width ≠ 0 → source.position = position :=
      position_of_decryptFields _ fun stream => (hparts stream).imp fun _ => And.left
    refine ⟨hposition, aligned_of_decryptItems draws fun stream => ?_⟩
    obtain ⟨last, hfields, final, hfinal⟩ := hparts stream
    rw [decryptFields_sealFields stream hposition, Except.ok.injEq, Prod.mk.injEq] at hfields
    refine ⟨final, ?_⟩
    rw [← hfinal, ← hfields.2]
    rfl
  | .group key path children rest, position, h => by
    have hparts : ∀ stream, ∃ last,
        decryptItems stream position (children.map (nodeOf draws stream)) =
          .ok (children.map (plainNode draws), last) ∧
        ∃ final, decryptItems stream last (rest.map (nodeOf draws stream)) =
          .ok (rest.map (plainNode draws), final) := by
      intro stream
      obtain ⟨final, hfinal⟩ := h stream
      rw [Items.map, decryptItems] at hfinal
      simp only [bind_eq_ok, pure_eq_ok] at hfinal
      obtain ⟨inner, hinner, after, hafter, heq⟩ := hfinal
      rw [Prod.mk.injEq, Items.map, Items.group.injEq] at heq
      refine ⟨inner.2, ?_, after.2, ?_⟩
      · rw [hinner, ← heq.1.2.2.1]
      · rw [hafter, ← heq.1.2.2.2]
    have hchildren : Aligned position children.toList :=
      aligned_of_decryptItems draws fun stream => (hparts stream).imp fun _ => And.left
    rw [Items.toList, aligned_append]
    refine ⟨hchildren, aligned_of_decryptItems draws fun stream => ?_⟩
    obtain ⟨last, hinner, final, hfinal⟩ := hparts stream
    rw [decryptItems_of_aligned draws stream hchildren, Except.ok.injEq, Prod.mk.injEq] at hinner
    exact ⟨final, by rw [← hfinal, ← hinner.2]⟩

end Mnemion.Keepass
