/-
  Mnemion/KeepassContainer.lean
  =============================
  **The outer layers of a KDBX 4 file** (`service/keepass_codec.py`): header,
  key derivation, authenticated blocks and the cipher around the payload.
  `openFile` takes a file apart as `load` does, `sealFile` builds one as `dump`
  does, and a sealed file is opened to its payload (`openFile_sealFile`).

  `Crypto` holds the primitives; `Crypto.Lawful` is what is assumed of them.
-/
import Mnemion.ByteLines
import Mnemion.PythonText
import Mathlib.Tactic.Ring

namespace Mnemion.Keepass

open Outcome PythonText

/-! ### Errors and limits -/

structure ServiceError where
  status : Nat
  code : String
  detail : String
deriving DecidableEq, Repr

def invalid : ServiceError :=
  ⟨422, "keepass_invalid", "The KDBX file, password or key file could not be verified."⟩

def unsupported (detail : String) : ServiceError := ⟨422, "keepass_unsupported", detail⟩

def resources : ServiceError :=
  ⟨503, "keepass_resources", "The host could not allocate the KeePass key derivation resources. " ++
    "Try a transfer copy with a lower KDF cost."⟩

def MAX_FILE : Nat := 1000000
def MAX_PAYLOAD : Nat := 2000000
def MAX_HEADER : Nat := 65536

def SIGNATURE : Bytes := [0x03, 0xd9, 0xa2, 0x9a, 0x67, 0xfb, 0x4b, 0xb5]
def AES_ID : Bytes :=
  [0x31, 0xc1, 0xf2, 0xe6, 0xbf, 0x71, 0x43, 0x50, 0xbe, 0x58, 0x05, 0x21, 0x6a, 0xfc, 0x5a, 0xff]
def CHACHA_ID : Bytes :=
  [0xd6, 0x03, 0x8a, 0x2b, 0x8b, 0x6f, 0x4c, 0xb5, 0xa5, 0x24, 0x33, 0x9a, 0x31, 0xdb, 0xb5, 0x9a]
def AES_KDF : Bytes :=
  [0xc9, 0xd9, 0xf3, 0x9a, 0x62, 0x8a, 0x44, 0x60, 0xbf, 0x74, 0x0d, 0x08, 0xc1, 0x8a, 0x4f, 0xea]
def ARGON_D : Bytes :=
  [0xef, 0x63, 0x6d, 0xdf, 0x8c, 0x29, 0x44, 0x4b, 0x91, 0xf7, 0xa9, 0xa4, 0x03, 0xe3, 0x0a, 0x0c]
def ARGON_ID : Bytes :=
  [0x9e, 0x29, 0x8b, 0x19, 0x56, 0xdb, 0x47, 0x73, 0xb2, 0x3d, 0xfc, 0x3e, 0xc6, 0xf0, 0xa1, 0xe6]

/-! ### Primitives -/

structure Crypto where
  sha256 : Bytes → Bytes
  sha512 : Bytes → Bytes
  hmacSha256 : Bytes → Bytes → Bytes
  /-- Secret, salt, iterations, memory in KiB, lanes, whether it is Argon2id, version. -/
  argon2 : Bytes → Bytes → Nat → Nat → Nat → Bool → Nat → Option Bytes
  aesEcb : Bytes → Bytes → Bytes
  aesCbcEncrypt : Bytes → Bytes → Bytes → Bytes
  aesCbcDecrypt : Bytes → Bytes → Bytes → Bytes
  /-- The key streams, as a function of the position. -/
  chacha20 : Bytes → Bytes → Nat → UInt8
  salsa20 : Bytes → Bytes → Nat → UInt8
  inflate : Bytes → Except ServiceError Bytes

/-- What is assumed of the primitives. -/
structure Crypto.Lawful (crypto : Crypto) : Prop where
  sha256_length : ∀ data, (crypto.sha256 data).length = 32
  hmac_length : ∀ key data, (crypto.hmacSha256 key data).length = 32
  aes_length : ∀ key iv data, data.length % 16 = 0 →
    (crypto.aesCbcEncrypt key iv data).length = data.length
  aes_decrypts : ∀ key iv data, data.length % 16 = 0 →
    crypto.aesCbcDecrypt key iv (crypto.aesCbcEncrypt key iv data) = data

/-- A stream cipher on some bytes, from a position of its key stream on. -/
def applyStream (stream : Nat → UInt8) (position : Nat) (data : Bytes) : Bytes :=
  data.zipIdx.map fun pair => pair.1 ^^^ stream (position + pair.2)

/-! ### Reading and writing numbers and fields -/

/-- `int.from_bytes(data, "little")` -/
def fromLittle : Bytes → Nat
  | [] => 0
  | byte :: rest => byte.toNat + 256 * fromLittle rest

/-- `value.to_bytes(size, "little")` -/
def toLittle : Nat → Nat → Bytes
  | 0, _ => []
  | size + 1, value => UInt8.ofNat (value % 256) :: toLittle size (value / 256)

attribute [grind =] fromLittle toLittle

/-- `Reader.read` -/
def read (count : Nat) (data : Bytes) : Except ServiceError (Bytes × Bytes) := do
  check (count ≤ data.length) invalid
  return (data.take count, data.drop count)

/-- `Reader.number` -/
def readNumber (size : Nat) (data : Bytes) : Except ServiceError (Nat × Bytes) := do
  let (bytes, rest) ← read size data
  return (fromLittle bytes, rest)

/-- `Reader.field` -/
def readField (data : Bytes) : Except ServiceError ((Nat × Bytes) × Bytes) := do
  let (kind, rest) ← readNumber 1 data
  let (size, rest) ← readNumber 4 rest
  let (value, rest) ← read size rest
  return ((kind, value), rest)

/-- `_field` -/
def field (kind : Nat) (value : Bytes) : Bytes :=
  toLittle 1 kind ++ toLittle 4 value.length ++ value

theorem length_toLittle (size value : Nat) : (toLittle size value).length = size := by
  induction size generalizing value with
  | zero => rfl
  | succ size ih => rw [toLittle, List.length_cons, ih]

theorem fromLittle_toLittle {size : Nat} :
    ∀ {value : Nat}, value < 256 ^ size → fromLittle (toLittle size value) = value := by
  induction size with
  | zero =>
    intro value h
    rw [pow_zero, Nat.lt_one_iff] at h
    rw [h]
    rfl
  | succ size ih =>
    intro value h
    have hdiv : value / 256 < 256 ^ size := by
      rw [Nat.div_lt_iff_lt_mul (by decide), ← pow_succ]
      exact h
    have hbyte : (UInt8.ofNat (value % 256)).toNat = value % 256 := by
      rw [UInt8.toNat_ofNat']
      omega
    rw [toLittle, fromLittle, ih hdiv, hbyte]
    omega

theorem read_append {front rest : Bytes} : read front.length (front ++ rest) = .ok (front, rest) := by
  simp [read, check]

theorem read_of_length {count : Nat} {front rest : Bytes} (h : front.length = count) :
    read count (front ++ rest) = .ok (front, rest) := by
  rw [← h]
  exact read_append

theorem readNumber_toLittle {size value : Nat} (h : value < 256 ^ size) (rest : Bytes) :
    readNumber size (toLittle size value ++ rest) = .ok (value, rest) := by
  rw [readNumber, read_of_length (length_toLittle size value)]
  show Except.ok (fromLittle (toLittle size value), rest) = _
  rw [fromLittle_toLittle h]

theorem readField_field {kind : Nat} {value rest : Bytes} (hkind : kind < 256)
    (hvalue : value.length < 256 ^ 4) :
    readField (field kind value ++ rest) = .ok ((kind, value), rest) := by
  simp only [readField, field, List.append_assoc, bind_eq_ok, pure_eq_ok]
  exact ⟨_, readNumber_toLittle (by simpa using hkind) _, _, readNumber_toLittle hvalue _, _,
    read_append, rfl⟩

/-! ### Parameter dictionaries -/

inductive Parameter where
  | bytes (value : Bytes)
  | number (value : Int)
deriving DecidableEq, Repr

/-- The value of one entry: a number of four or eight bytes, or bytes. -/
def parameterOf (kind : Nat) (value : Bytes) : Except ServiceError Parameter :=
  if kind ∈ [4, 5, 12, 13] then do
    check (value.length = if kind ∈ [4, 12] then 4 else 8) invalid
    let number := fromLittle value
    let size := 256 ^ value.length
    return .number (if kind ∈ [12, 13] ∧ size ≤ 2 * number then (number : Int) - size else number)
  else if kind = 0x42 then .ok (.bytes value)
  else .error (unsupported "This KDBX key derivation parameter type is not supported.")

/-- The entries of `_dictionary`, up to the closing zero. -/
def readEntries : Nat → List (String × Parameter) → Bytes →
    Except ServiceError (List (String × Parameter) × Bytes)
  | 0, _, _ => .error invalid
  | fuel + 1, result, data => do
    let (kind, rest) ← readNumber 1 data
    if kind = 0 then return (result, rest)
    else
      let (size, rest) ← readNumber 4 rest
      let (name, rest) ← read size rest
      match decodeUtf8 name with
      | none => throw invalid
      | some name =>
        let (size, rest) ← readNumber 4 rest
        let (value, rest) ← read size rest
        check (¬ (name ∈ result.map Prod.fst) ∧ result.length < 32 ∧ name.length ≤ 128) invalid
        let parameter ← parameterOf kind value
        readEntries fuel (result ++ [(name, parameter)]) rest

/-- `_dictionary` -/
def readDictionary (data : Bytes) : Except ServiceError (List (String × Parameter)) := do
  let (version, rest) ← readNumber 2 data
  check (version / 256 = 1) (unsupported "This KDBX parameter dictionary version is not supported.")
  let (result, rest) ← readEntries (rest.length + 1) [] rest
  check (rest = []) invalid
  return result

/-- One entry of `_encode_dictionary`. -/
def encodeEntry (entry : String × Nat × Bytes) : Bytes :=
  toLittle 1 entry.2.1 ++ toLittle 4 (encodeUtf8 entry.1).length ++ encodeUtf8 entry.1 ++
    toLittle 4 entry.2.2.length ++ entry.2.2

/-- `_encode_dictionary`, of entries whose numbers have been packed. -/
def encodeDictionary (entries : List (String × Nat × Bytes)) : Bytes :=
  [0x00, 0x01] ++ (entries.map encodeEntry).flatten ++ [0]

/-! ### Key derivation -/

/-- `_derive` with a password and no key file. -/
def derive (crypto : Crypto) (parameters : List (String × Parameter)) (password : String) :
    Except ServiceError Bytes :=
  let composite := crypto.sha256 (crypto.sha256 (encodeUtf8 password))
  let names := parameters.map Prod.fst
  match parameters.lookup "S" with
  | some (.bytes salt) =>
    if parameters.lookup "$UUID" = some (.bytes AES_KDF) then
      match parameters.lookup "R" with
      | some (.number rounds) => do
        check (salt.length = 32 ∧ 1 ≤ rounds ∧ rounds ≤ 1000000) (unsupported
          ("AES-KDF imports support 1–1,000,000 rounds. Lower the transfer copy's KDF cost in " ++
            "KeePass."))
        check (names.Perm ["$UUID", "S", "R"])
          (unsupported "Additional AES-KDF parameters are not supported.")
        return crypto.sha256 ((crypto.aesEcb salt)^[rounds.toNat] composite)
      | _ => .error (unsupported
          ("AES-KDF imports support 1–1,000,000 rounds. Lower the transfer copy's KDF cost in " ++
            "KeePass."))
    else if parameters.lookup "$UUID" ∉ [some (.bytes ARGON_D), some (.bytes ARGON_ID)] then
      .error (unsupported "Use AES-KDF, Argon2d or Argon2id without a key-provider plugin.")
    else do
      check (names.Perm ["$UUID", "S", "I", "M", "P", "V"])
        (unsupported "Additional Argon2 parameters are not supported.")
      match parameters.lookup "M", parameters.lookup "I", parameters.lookup "P",
          parameters.lookup "V" with
      | some (.number memory), some (.number iterations), some (.number parallelism),
          some (.number version) =>
        check (8 ≤ salt.length ∧ salt.length ≤ 64 ∧ version ∈ [0x10, 0x13] ∧ 1 ≤ parallelism ∧
          parallelism ≤ 4 ∧ 8192 * parallelism ≤ memory ∧ memory ≤ 64 * 1024 ^ 2 ∧
          memory % 1024 = 0 ∧ 1 ≤ iterations ∧ iterations ≤ 32) (unsupported
            ("This transfer supports Argon2 up to 64 MiB, 32 iterations and 4 lanes. Lower the " ++
              "transfer copy's KDF cost in KeePass."))
        match crypto.argon2 composite salt iterations.toNat (memory / 1024).toNat
            parallelism.toNat (decide (parameters.lookup "$UUID" = some (.bytes ARGON_ID)))
            version.toNat with
        | some derived => return derived
        | none => throw resources
      | _, _, _, _ => throw (unsupported
            ("This transfer supports Argon2 up to 64 MiB, 32 iterations and 4 lanes. Lower the " ++
              "transfer copy's KDF cost in KeePass."))
  | _ => .error invalid

/-- `_mac` -/
def mac (crypto : Crypto) (key : Bytes) (index : Nat) (data : Bytes) : Bytes :=
  crypto.hmacSha256 (crypto.sha512 (toLittle 8 index ++ key)) data

/-- `pad(data, 16)` -/
def pad (data : Bytes) : Bytes :=
  let count := 16 - data.length % 16
  data ++ List.replicate count (UInt8.ofNat count)

/-- `unpad(data, 16)` -/
def unpad (data : Bytes) : Except ServiceError Bytes :=
  match data.getLast? with
  | none => .error invalid
  | some last =>
    let count := last.toNat
    if data.length % 16 = 0 ∧ 1 ≤ count ∧ count ≤ 16 ∧
        data.drop (data.length - count) = List.replicate count last then
      .ok (data.take (data.length - count))
    else .error invalid

/-! ### Opening -/

/-- The outer header, up to its end field; a field may stand once. -/
def readHeader (total : Nat) : Nat → List (Nat × Bytes) → Bytes →
    Except ServiceError (List (Nat × Bytes) × Bytes)
  | 0, _, _ => .error invalid
  | fuel + 1, header, data => do
    let ((kind, value), rest) ← readField data
    check (total - rest.length ≤ MAX_HEADER)
      (unsupported "The KeePass header exceeds its transfer limit.")
    if kind = 0 then
      check (value = [13, 10, 13, 10]) invalid
      return (header, rest)
    else
      check (kind ∈ [2, 3, 4, 7, 11, 12] ∧ kind ∉ header.map Prod.fst)
        (unsupported "This KeePass outer header is not supported.")
      readHeader total fuel (header ++ [(kind, value)]) rest

/-- The authenticated blocks, up to an empty one that ends the file. -/
def readBlocks (crypto : Crypto) (key : Bytes) : Nat → Nat → Bytes → Bytes →
    Except ServiceError Bytes
  | 0, _, _, _ => .error invalid
  | fuel + 1, index, encrypted, data => do
    let (expected, rest) ← read 32 data
    let (size, rest) ← readNumber 4 rest
    let (block, rest) ← read size rest
    check (expected = mac crypto key index (toLittle 8 index ++ toLittle 4 size ++ block)) invalid
    if size = 0 then
      check (rest = []) invalid
      return encrypted
    else readBlocks crypto key fuel (index + 1) (encrypted ++ block) rest

/-- A header field that must be there. -/
def required (header : List (Nat × Bytes)) (kind : Nat) : Except ServiceError Bytes :=
  match header.lookup kind with
  | some value => .ok value
  | none => .error invalid

/-- `load`, up to the decrypted and decompressed payload. -/
def openFile (crypto : Crypto) (data : Bytes) (password : String) : Except ServiceError Bytes := do
  check (64 ≤ data.length ∧ data.length ≤ MAX_FILE)
    (unsupported "Choose a KDBX 4 file no larger than 1 MB.")
  let (signature, rest) ← read 8 data
  check (signature = SIGNATURE) (unsupported "This import supports KDBX 4.0 and 4.1 files.")
  let (version, rest) ← readNumber 4 rest
  check (version ∈ [0x00040000, 0x00040001])
    (unsupported "This import supports KDBX 4.0 and 4.1 files.")
  let (header, rest) ← readHeader data.length (rest.length + 1) [] rest
  let encodedHeader := data.take (data.length - rest.length)
  let (digest, rest) ← read 32 rest
  check (digest = crypto.sha256 encodedHeader) invalid
  let seed ← required header 4
  let compression ← required header 3
  check (seed.length = 32 ∧ compression.length = 4) invalid
  let algorithm ← required header 2
  check (algorithm ∈ [AES_ID, CHACHA_ID])
    (unsupported "Use AES-256 or ChaCha20 KDBX encryption.")
  let iv ← required header 7
  check (iv.length = if algorithm = AES_ID then 16 else 12)
    (unsupported "Use AES-256 or ChaCha20 KDBX encryption.")
  let derivation ← required header 11
  let parameters ← readDictionary derivation
  let transformed ← derive crypto parameters password
  let master := seed ++ transformed
  let macKey := crypto.sha512 (master ++ [1])
  let (expected, rest) ← read 32 rest
  check (expected = mac crypto macKey (2 ^ 64 - 1) encodedHeader) invalid
  let encrypted ← readBlocks crypto macKey (rest.length + 1) 0 [] rest
  let key := crypto.sha256 master
  let plaintext ←
    if algorithm = AES_ID then unpad (crypto.aesCbcDecrypt key iv encrypted)
    else pure (applyStream (crypto.chacha20 key iv) 0 encrypted)
  let plaintext ←
    if fromLittle compression = 1 then crypto.inflate plaintext
    else do
      check (fromLittle compression = 0)
        (unsupported "Use uncompressed or GZip-compressed KDBX files.")
      pure plaintext
  check (plaintext.length ≤ MAX_PAYLOAD)
    (unsupported "The decrypted KeePass document exceeds 2 MB.")
  return plaintext

/-! ### Sealing -/

/-- What `secrets.token_bytes` gives for the outer layers. -/
structure OuterSecrets where
  seed : Bytes
  iv : Bytes
  salt : Bytes
  seed_length : seed.length = 32
  iv_length : iv.length = 16
  salt_length : salt.length = 32

/-- The derivation parameters of an export. -/
def parametersOf (salt : Bytes) : List (String × Nat × Bytes) :=
  [("$UUID", 0x42, ARGON_ID), ("V", 4, toLittle 4 0x13), ("I", 5, toLittle 8 3),
   ("M", 5, toLittle 8 (32 * 1024 ^ 2)), ("P", 4, toLittle 4 1), ("S", 0x42, salt)]

/-- The same parameters as values. -/
def valuesOf (salt : Bytes) : List (String × Parameter) :=
  [("$UUID", .bytes ARGON_ID), ("V", .number 0x13), ("I", .number 3),
   ("M", .number (32 * 1024 ^ 2)), ("P", .number 1), ("S", .bytes salt)]

def headerOf (secrets : OuterSecrets) : Bytes :=
  SIGNATURE ++ toLittle 4 0x00040001 ++ field 2 AES_ID ++ field 3 (toLittle 4 0) ++
    field 4 secrets.seed ++ field 7 secrets.iv ++
    field 11 (encodeDictionary (parametersOf secrets.salt)) ++ field 0 [13, 10, 13, 10]

/-- One authenticated block. -/
def blockOf (crypto : Crypto) (key : Bytes) (index : Nat) (block : Bytes) : Bytes :=
  mac crypto key index (toLittle 8 index ++ toLittle 4 block.length ++ block) ++
    toLittle 4 block.length ++ block

/-- The end of `dump`: the layers around a payload. -/
def sealFile (crypto : Crypto) (secrets : OuterSecrets) (payload : Bytes) (password : String) :
    Except ServiceError Bytes := do
  let header := headerOf secrets
  let transformed ← derive crypto (valuesOf secrets.salt) password
  let key := crypto.sha256 (secrets.seed ++ transformed)
  let macKey := crypto.sha512 (secrets.seed ++ transformed ++ [1])
  let encrypted := crypto.aesCbcEncrypt key secrets.iv (pad payload)
  let output := header ++ crypto.sha256 header ++ mac crypto macKey (2 ^ 64 - 1) header ++
    blockOf crypto macKey 0 encrypted ++ blockOf crypto macKey 1 []
  check (output.length ≤ MAX_FILE)
    (unsupported "Choose fewer credentials; the KeePass export exceeds 1 MB.")
  return output

/-! ### Reading back the parameters -/

/-- An entry that reads back as a parameter. -/
structure Readable (entry : String × Nat × Bytes) (parameter : String × Parameter) : Prop where
  name : parameter.1 = entry.1
  kind : entry.2.1 ≠ 0 ∧ entry.2.1 < 256
  name_length : entry.1.length ≤ 128 ∧ (encodeUtf8 entry.1).length < 256 ^ 4
  value_length : entry.2.2.length < 256 ^ 4
  value : parameterOf entry.2.1 entry.2.2 = .ok parameter.2

theorem readEntries_encode {entries : List (String × Nat × Bytes)} :
    ∀ {parameters done : List (String × Parameter)} {fuel : Nat},
      List.Forall₂ Readable entries parameters →
      ((done ++ parameters).map Prod.fst).Nodup → (done ++ parameters).length ≤ 32 →
      entries.length < fuel →
      readEntries fuel done ((entries.map encodeEntry).flatten ++ [0]) =
        .ok (done ++ parameters, []) := by
  induction entries with
  | nil =>
    intro parameters done fuel hreadable _ _ hfuel
    cases hreadable
    obtain ⟨fuel, rfl⟩ := Nat.exists_eq_succ_of_ne_zero hfuel.ne'
    rw [List.append_nil]
    rfl
  | cons entry entries ih =>
    intro parameters done fuel hreadable hnodup hlength hfuel
    obtain ⟨fuel, rfl⟩ := Nat.exists_eq_succ_of_ne_zero (Nat.ne_zero_of_lt hfuel)
    cases hreadable with
    | @cons _ parameter _ parameters hfirst hrest =>
      have hname : ¬ entry.1 ∈ done.map Prod.fst := by
        rw [List.map_append, List.map_cons, List.nodup_append] at hnodup
        intro hmem
        exact hnodup.2.2 _ hmem _ List.mem_cons_self hfirst.name.symm
      have hroom : done.length < 32 := by
        rw [List.length_append, List.length_cons] at hlength
        omega
      have hnext : readEntries fuel (done ++ [(entry.1, parameter.2)])
          ((entries.map encodeEntry).flatten ++ [0]) = .ok (done ++ parameter :: parameters, []) := by
        have hsame : (entry.1, parameter.2) = parameter := by rw [← hfirst.name]
        rw [hsame, ih hrest (by simpa using hnodup) (by simpa using hlength) (by simpa using hfuel),
          List.append_assoc]
        rfl
      rw [readEntries, List.map_cons, List.flatten_cons, encodeEntry]
      simp only [List.append_assoc, bind_eq_ok]
      refine ⟨_, readNumber_toLittle (by simpa using hfirst.kind.2) _, ?_⟩
      rw [if_neg hfirst.kind.1]
      simp only [bind_eq_ok]
      refine ⟨_, readNumber_toLittle hfirst.name_length.2 _, _, read_append, ?_⟩
      rw [decodeUtf8_encodeUtf8]
      simp only [bind_eq_ok, check_eq_ok]
      exact ⟨_, readNumber_toLittle hfirst.value_length _, _, read_append, (),
        ⟨hname, hroom, hfirst.name_length.1⟩, parameter.2, hfirst.value, hnext⟩

theorem parametersOf_readable {salt : Bytes} (hsalt : salt.length = 32) :
    List.Forall₂ Readable (parametersOf salt) (valuesOf salt) := by
  have hname : ∀ name ∈ ["$UUID", "V", "I", "M", "P", "S"],
      name.length ≤ 128 ∧ (encodeUtf8 name).length < 256 ^ 4 := by decide +kernel
  refine .cons ⟨rfl, by decide, hname _ (by simp), by decide, rfl⟩ <|
    .cons ⟨rfl, by decide, hname _ (by simp), by decide, by decide⟩ <|
    .cons ⟨rfl, by decide, hname _ (by simp), by decide, by decide⟩ <|
    .cons ⟨rfl, by decide, hname _ (by simp), by decide, by decide +kernel⟩ <|
    .cons ⟨rfl, by decide, hname _ (by simp), by decide, by decide⟩ <|
    .cons ⟨rfl, ⟨by simp, by simp⟩, hname _ (by simp), by rw [hsalt]; decide, rfl⟩ .nil

theorem readDictionary_encode {salt : Bytes} (hsalt : salt.length = 32) :
    readDictionary (encodeDictionary (parametersOf salt)) = .ok (valuesOf salt) := by
  have hversion : ([0x00, 0x01] : Bytes) = toLittle 2 256 := by decide
  have hmajor : 256 / 256 = 1 := by decide
  rw [readDictionary, encodeDictionary, hversion, List.append_assoc]
  simp only [bind_eq_ok, check_eq_ok, pure_eq_ok]
  refine ⟨_, readNumber_toLittle (by decide) _, (), hmajor, (valuesOf salt, []),
    ?_, (), rfl, rfl⟩
  have hfuel : (parametersOf salt).length <
      (((parametersOf salt).map encodeEntry).flatten ++ [0]).length + 1 := by
    have hpositive : ∀ entry : String × Nat × Bytes, 1 ≤ (encodeEntry entry).length := by
      intro entry
      rw [encodeEntry, List.length_append, List.length_append, List.length_append,
        List.length_append, length_toLittle]
      omega
    rw [List.length_append, List.length_flatten, List.map_map]
    have hsum := List.length_le_sum_of_one_le ((parametersOf salt).map (List.length ∘ encodeEntry))
      (by
        intro n hn
        obtain ⟨entry, -, rfl⟩ := List.mem_map.mp hn
        exact hpositive entry)
    rw [List.length_map] at hsum
    omega
  exact readEntries_encode (parametersOf_readable hsalt) (by simp) (by simp) hfuel

/-! ### A sealed file is opened -/

/-- One field of the outer header is read. -/
theorem readHeader_field {total fuel kind : Nat} {header : List (Nat × Bytes)} {value rest : Bytes}
    (hkind : kind ∈ [2, 3, 4, 7, 11, 12]) (hnew : kind ∉ header.map Prod.fst)
    (hvalue : value.length < 256 ^ 4) (hlimit : total - rest.length ≤ MAX_HEADER) :
    readHeader total (fuel + 1) header (field kind value ++ rest) =
      readHeader total fuel (header ++ [(kind, value)]) rest := by
  have hbounds : kind ≠ 0 ∧ kind < 256 := by
    simp only [List.mem_cons, List.not_mem_nil, or_false] at hkind
    omega
  rw [readHeader, readField_field hbounds.2 hvalue]
  show (check (total - rest.length ≤ MAX_HEADER) _ >>= fun _ => _) = _
  rw [check, if_pos hlimit]
  show (if kind = 0 then _ else _) = _
  rw [if_neg hbounds.1, check, if_pos ⟨hkind, hnew⟩]
  rfl

theorem readHeader_end {total fuel : Nat} {header : List (Nat × Bytes)} {rest : Bytes}
    (hlimit : total - rest.length ≤ MAX_HEADER) :
    readHeader total (fuel + 1) header (field 0 [13, 10, 13, 10] ++ rest) = .ok (header, rest) := by
  rw [readHeader, readField_field (by decide) (by decide)]
  show (check (total - rest.length ≤ MAX_HEADER) _ >>= fun _ => _) = _
  rw [check, if_pos hlimit]
  rfl

theorem unpad_pad (data : Bytes) : unpad (pad data) = .ok data := by
  have hcount : 1 ≤ 16 - data.length % 16 ∧ 16 - data.length % 16 ≤ 16 := by omega
  have hmod : (data.length + (16 - data.length % 16)) % 16 = 0 := by omega
  generalize h : 16 - data.length % 16 = count at hcount hmod
  have hlast : (pad data).getLast? = some (UInt8.ofNat count) := by
    rw [pad, h]
    show (data ++ List.replicate count (UInt8.ofNat count)).getLast? = _
    obtain ⟨n, rfl⟩ := Nat.exists_eq_succ_of_ne_zero (show count ≠ 0 by omega)
    rw [List.replicate_succ', ← List.append_assoc, List.getLast?_concat]
  have hnumber : (UInt8.ofNat count).toNat = count := by
    rw [UInt8.toNat_ofNat']
    omega
  have hlength : (pad data).length = data.length + count := by
    rw [pad, h]
    simp
  have hsub : data.length + count - count = data.length := by omega
  have hshape : pad data = data ++ List.replicate count (UInt8.ofNat count) := by rw [pad, h]
  rw [unpad, hlast]
  show (if _ then _ else _) = _
  rw [hnumber, hlength, hsub, hshape, List.drop_left, List.take_left,
    if_pos ⟨hmod, hcount.1, hcount.2, rfl⟩]

theorem pad_length (data : Bytes) : (pad data).length % 16 = 0 := by
  rw [pad, List.length_append, List.length_replicate]
  omega

/-- The fields of the header of an export. -/
def headerFields (secrets : OuterSecrets) : List (Nat × Bytes) :=
  [(2, AES_ID), (3, toLittle 4 0), (4, secrets.seed), (7, secrets.iv),
   (11, encodeDictionary (parametersOf secrets.salt))]

theorem length_encodeDictionary {salt : Bytes} (hsalt : salt.length = 32) :
    (encodeDictionary (parametersOf salt)).length = 139 := by
  have hnames : (encodeUtf8 "$UUID").length = 5 ∧ (encodeUtf8 "V").length = 1 ∧
      (encodeUtf8 "I").length = 1 ∧ (encodeUtf8 "M").length = 1 ∧ (encodeUtf8 "P").length = 1 ∧
      (encodeUtf8 "S").length = 1 := by decide +kernel
  simp [encodeDictionary, parametersOf, encodeEntry, length_toLittle, hnames, hsalt, ARGON_ID]

theorem length_field (kind : Nat) (value : Bytes) : (field kind value).length = 5 + value.length := by
  rw [field, List.length_append, List.length_append, length_toLittle, length_toLittle]

theorem length_headerOf (secrets : OuterSecrets) : (headerOf secrets).length = 253 := by
  simp [headerOf, length_field, length_toLittle, length_encodeDictionary secrets.salt_length,
    secrets.seed_length, secrets.iv_length, SIGNATURE, AES_ID]

/-- The header is read to its end. -/
theorem readHeader_headerOf (secrets : OuterSecrets) (rest : Bytes) {total fuel : Nat}
    (htotal : total ≤ rest.length + 253) (hfuel : 6 ≤ fuel) :
    readHeader total fuel [] (field 2 AES_ID ++ (field 3 (toLittle 4 0) ++ (field 4 secrets.seed ++
      (field 7 secrets.iv ++ (field 11 (encodeDictionary (parametersOf secrets.salt)) ++
        (field 0 [13, 10, 13, 10] ++ rest)))))) = .ok (headerFields secrets, rest) := by
  have hdictionary := length_encodeDictionary secrets.salt_length
  have hseed := secrets.seed_length
  have hiv := secrets.iv_length
  obtain ⟨n, rfl⟩ := Nat.exists_eq_add_of_le hfuel
  have hlimit : ∀ after : Bytes, rest.length ≤ after.length →
      total - after.length ≤ MAX_HEADER := by
    intro after hafter
    show total - after.length ≤ 65536
    omega
  rw [show 6 + n = n + 1 + 1 + 1 + 1 + 1 + 1 by omega]
  rw [readHeader_field (by simp) (by simp) (by decide) (hlimit _ (by simp; omega)),
    readHeader_field (by simp) (by simp) (by decide) (hlimit _ (by simp; omega)),
    readHeader_field (by simp) (by simp) (by rw [hseed]; decide) (hlimit _ (by simp; omega)),
    readHeader_field (by simp) (by simp) (by rw [hiv]; decide) (hlimit _ (by simp; omega)),
    readHeader_field (by simp) (by simp) (by rw [hdictionary]; decide) (hlimit _ (by simp)),
    readHeader_end (hlimit _ (Nat.le_refl _))]
  rfl

/-- The two blocks of an export are read. -/
theorem readBlocks_blockOf {crypto : Crypto} (hcrypto : crypto.Lawful) {key encrypted : Bytes}
    {fuel : Nat} (hsize : encrypted.length < 256 ^ 4) (hpositive : encrypted ≠ [])
    (hfuel : 2 ≤ fuel) :
    readBlocks crypto key fuel 0 [] (blockOf crypto key 0 encrypted ++ blockOf crypto key 1 []) =
      .ok encrypted := by
  obtain ⟨n, rfl⟩ := Nat.exists_eq_add_of_le hfuel
  have hmac : ∀ index data, (mac crypto key index data).length = 32 := fun _ _ =>
    hcrypto.hmac_length _ _
  have hlast : readBlocks crypto key (n + 1) 1 encrypted (blockOf crypto key 1 []) =
      .ok encrypted := by
    rw [readBlocks, blockOf, List.append_assoc]
    simp only [bind_eq_ok, check_eq_ok]
    have hempty : read 0 ([] : Bytes) = .ok ([], []) := rfl
    exact ⟨_, read_of_length (hmac _ _), _, readNumber_toLittle (by decide) _, _, hempty, (), rfl, rfl⟩
  have hnonzero : encrypted.length ≠ 0 := by
    rw [Ne, List.length_eq_zero_iff]
    exact hpositive
  rw [show 2 + n = n + 1 + 1 by omega, readBlocks, blockOf]
  simp only [bind_eq_ok, check_eq_ok, List.append_assoc]
  refine ⟨_, read_of_length (hmac _ _), _, readNumber_toLittle hsize _, _, read_append, (), rfl, ?_⟩
  rw [if_neg hnonzero, List.nil_append]
  exact hlast

/-- **A sealed file is opened.** -/
theorem openFile_sealFile {crypto : Crypto} (hcrypto : crypto.Lawful) {secrets : OuterSecrets}
    {payload file : Bytes} {password : String} (hpayload : payload.length ≤ MAX_PAYLOAD)
    (h : sealFile crypto secrets payload password = .ok file) :
    openFile crypto file password = .ok payload := by
  simp only [sealFile, bind_eq_ok, check_eq_ok, pure_eq_ok] at h
  obtain ⟨transformed, hderive, -, hlimit, rfl⟩ := h
  have hheader := length_headerOf secrets
  have hsha : (crypto.sha256 (headerOf secrets)).length = 32 := hcrypto.sha256_length _
  have hmac : ∀ key index data, (mac crypto key index data).length = 32 := fun _ _ _ =>
    hcrypto.hmac_length _ _
  have hencrypted := hcrypto.aes_length (crypto.sha256 (secrets.seed ++ transformed)) secrets.iv _
    (pad_length payload)
  have hdecrypted := hcrypto.aes_decrypts (crypto.sha256 (secrets.seed ++ transformed)) secrets.iv _
    (pad_length payload)
  generalize crypto.aesCbcEncrypt (crypto.sha256 (secrets.seed ++ transformed)) secrets.iv
    (pad payload) = encrypted at hencrypted hdecrypted hlimit
  have hpadded : payload.length < (pad payload).length ∧
      (pad payload).length ≤ payload.length + 16 := by
    rw [pad, List.length_append, List.length_replicate]
    omega
  have hpayload' : payload.length ≤ 2000000 := hpayload
  generalize hkey : crypto.sha512 (secrets.seed ++ transformed ++ [1]) = macKey at hlimit
  generalize htail : blockOf crypto macKey 0 encrypted ++ blockOf crypto macKey 1 [] = blocks
  have hblocks : readBlocks crypto macKey (blocks.length + 1) 0 [] blocks = .ok encrypted := by
    have hpositive : 1 ≤ blocks.length := by
      rw [← htail, blockOf, List.length_append, List.length_append, List.length_append, hmac]
      omega
    rw [← htail] at hpositive ⊢
    apply readBlocks_blockOf hcrypto
    · have : encrypted.length < 256 ^ 4 := by
        rw [hencrypted]
        have : (256 : Nat) ^ 4 = 4294967296 := by decide
        omega
      exact this
    · intro hnil
      rw [hnil, List.length_nil] at hencrypted
      omega
    · omega
  have hbody : headerOf secrets ++ crypto.sha256 (headerOf secrets) ++
      mac crypto macKey (2 ^ 64 - 1) (headerOf secrets) ++ blockOf crypto macKey 0 encrypted ++
        blockOf crypto macKey 1 [] = headerOf secrets ++ (crypto.sha256 (headerOf secrets) ++
          (mac crypto macKey (2 ^ 64 - 1) (headerOf secrets) ++ blocks)) := by
    rw [← htail]
    simp only [List.append_assoc]
  rw [hbody] at hlimit ⊢
  generalize hrest : crypto.sha256 (headerOf secrets) ++
    (mac crypto macKey (2 ^ 64 - 1) (headerOf secrets) ++ blocks) = rest at hlimit ⊢
  have hrestLength : 64 ≤ rest.length := by
    rw [← hrest, List.length_append, List.length_append, hsha, hmac]
    omega
  have htake : (headerOf secrets ++ rest).take ((headerOf secrets ++ rest).length - rest.length) =
      headerOf secrets := by
    rw [List.length_append, Nat.add_sub_cancel, List.take_left]
  have hsignature : read 8 (headerOf secrets ++ rest) = .ok (SIGNATURE, toLittle 4 0x00040001 ++
      (field 2 AES_ID ++ (field 3 (toLittle 4 0) ++ (field 4 secrets.seed ++ (field 7 secrets.iv ++
        (field 11 (encodeDictionary (parametersOf secrets.salt)) ++
          (field 0 [13, 10, 13, 10] ++ rest))))))) := by
    simp only [headerOf, List.append_assoc]
    exact read_of_length rfl
  have hseed := secrets.seed_length
  have hiv := secrets.iv_length
  simp only [openFile, bind_eq_ok, check_eq_ok]
  refine ⟨(), ⟨by rw [List.length_append]; omega, hlimit⟩, _, hsignature, (), rfl, _,
    readNumber_toLittle (by decide) _, (), List.mem_cons_of_mem _ List.mem_cons_self,
    (headerFields secrets, rest),
    readHeader_headerOf secrets rest (by rw [List.length_append]; omega)
      (by simp only [List.length_append, length_field]; omega), ?_⟩
  rw [htake, ← hrest]
  refine ⟨_, read_of_length hsha, (), rfl, secrets.seed, rfl, toLittle 4 0, rfl, (), ⟨hseed, rfl⟩,
    AES_ID, rfl, (), List.mem_cons_self, secrets.iv, rfl, (), hiv, _, rfl, _,
    readDictionary_encode secrets.salt_length, transformed, hderive, _, read_of_length (hmac _ _ _),
    (), ?_, ?_⟩
  · rw [hkey]
  · rw [hkey]
    refine ⟨encrypted, hblocks, ?_⟩
    have huncompressed : fromLittle (toLittle 4 0) = 0 := by decide
    rw [if_pos rfl, hdecrypted, unpad_pad, huncompressed]
    show (check (payload.length ≤ MAX_PAYLOAD) _ >>= fun _ => _) = _
    rw [check, if_pos hpayload]
    rfl

end Mnemion.Keepass
