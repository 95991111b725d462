import MegaCache.Controlplane.Backup
import MegaCache.Controlplane.Keys
import MegaCache.Lib.TextFrames

/-!
# The encrypted artifact store

`EncryptedArtifactStore.write` and `read` over the files of its directory.  A document is
enciphered with a key stream and stored with a header, the ciphertext in base64 and a tag
over both.  What is read after a write is the document that was written; and as long as
the tags under the derived keys are those that `write` made, only documents that were
written are read.
-/

namespace MegaCache
namespace Controlplane

/-- The parameters of a store. -/
structure StoreSettings where
  hashes : Hashes
  floats : Json.FloatText
  maximumBytes : ℕ

abbrev Files := String → Option StoredFile

def artifactKinds : List String := ["backup", "export", "audit-export"]

/-- `_ARTIFACT_ID` -/
def isArtifactId (s : String) : Bool :=
  s.toList.length = 32 && s.toList.all fun ch => ch.isDigit || 'a' ≤ ch && ch ≤ 'f'

def artifactFilename (kind artifactId : String) : String := kind ++ "-" ++ artifactId ++ ".mcar"

/-- `value.to_bytes(8, "big")` -/
def counterBytes (n : ℕ) : Bytes :=
  (List.range 8).map fun i => UInt8.ofNat (n / 256 ^ (7 - i) % 256)

/-- The blocks of `_xor_stream`. -/
def streamBlocks (c : Hashes) (key nonce : Bytes) : KeyStream.Blocks where
  size := 32
  block n := (c.hmac key (nonce ++ counterBytes n)).1
  size_pos := by decide
  length_block n := (c.hmac key (nonce ++ counterBytes n)).2

/-- `_xor_stream` -/
def xorStream (c : Hashes) (payload key nonce : Bytes) : Bytes :=
  KeyStream.xorStream (streamBlocks c key nonce) payload

/-- The purpose of a key that belongs to one namespace and one kind. -/
def artifactPurpose (label tenantNamespace kind : String) : Bytes :=
  textBytes label ++ 0 :: (textBytes tenantNamespace ++ 0 :: textBytes kind)

def encryptionKey (c : Hashes) (key : Bytes) (tenantNamespace kind : String) : Bytes :=
  deriveKey c key (artifactPurpose "artifact-encryption" tenantNamespace kind)

def authenticationKey (c : Hashes) (key : Bytes) (tenantNamespace kind : String) : Bytes :=
  deriveKey c key (artifactPurpose "artifact-authentication" tenantNamespace kind)

def base64Text (data : Bytes) : String := String.ofList (Base64.encode data)

/-- The items of `header` in the order of their keys. -/
def artifactHeader (kind tenantNamespace keyId nonce plaintextSha256 : String) : Json :=
  .obj [
    ("algorithm", .str "HMAC-SHA256-STREAM-ETM"),
    ("key_id", .str keyId),
    ("kind", .str kind),
    ("nonce", .str nonce),
    ("plaintext_sha256", .str plaintextSha256),
    ("tenant_namespace", .str tenantNamespace),
    ("version", .int 1)]

/-- The items of `envelope` in the order of their keys. -/
def artifactEnvelope (kind tenantNamespace keyId nonce plaintextSha256 ciphertext tag : String) :
    Json :=
  .obj [
    ("algorithm", .str "HMAC-SHA256-STREAM-ETM"),
    ("ciphertext", .str ciphertext),
    ("key_id", .str keyId),
    ("kind", .str kind),
    ("nonce", .str nonce),
    ("plaintext_sha256", .str plaintextSha256),
    ("tag", .str tag),
    ("tenant_namespace", .str tenantNamespace),
    ("version", .int 1)]

/-- What `write` returns. -/
structure ArtifactRecord where
  artifactId : String
  filename : String
  kind : String
  keyId : String
  sizeBytes : ℕ
  sha256 : String
  plaintextSha256 : String

/-- `write`, with the nonce and the identifier that `secrets` gives. -/
def writeArtifact (s : StoreSettings) (p : KeyProvider) (files : Files)
    (kind tenantNamespace : String) (document : Json) (nonce : Bytes) (artifactId : String) :
    Except Raised (ArtifactRecord × Files) := do
  ensure (kind ∈ artifactKinds) (.artifact "unsupported artifact kind")
  let ns ← identifier (.str tenantNamespace) "tenant namespace"
  let plaintext ← raised (artifactPlaintext s.floats kind s.maximumBytes document)
  let key ← p.get p.activeKeyId
  let ciphertext := xorStream s.hashes plaintext (encryptionKey s.hashes key ns kind) nonce
  let digest := (s.hashes.sha256 plaintext).hex
  let header ← raised
    (canonical s.floats (artifactHeader kind ns p.activeKeyId (base64Text nonce) digest))
  let tag := (s.hashes.hmac (authenticationKey s.hashes key ns kind) (header ++ 0 :: ciphertext)).hex
  let payload ← raised (canonical s.floats (artifactEnvelope kind ns p.activeKeyId
    (base64Text nonce) digest (base64Text ciphertext) tag))
  ensure (payload.length ≤ s.maximumBytes)
    (.failure ⟨.controlPlaneCapacity, kind ++ " artifact exceeds configured byte limit"⟩)
  let filename := artifactFilename kind artifactId
  .ok (⟨artifactId, filename, kind, p.activeKeyId, payload.length, (s.hashes.sha256 payload).hex,
    digest⟩, Function.update files filename (some ⟨payload, true⟩))

def envelopeFields : Finset String :=
  {"version", "algorithm", "kind", "tenant_namespace", "key_id", "nonce", "plaintext_sha256",
    "ciphertext", "tag"}

/-- The header that the tag of an envelope is over. -/
def envelopeHeader (fields : List (String × Json)) : Json :=
  .obj (["algorithm", "key_id", "kind", "nonce", "plaintext_sha256", "tenant_namespace",
    "version"].map fun name => (name, item fields name))

/-- `base64.b64decode(value, validate=True)` -/
def decodeBase64 (value : Json) : Except Raised Bytes :=
  match value with
  | .str s =>
    match Base64.decode s.toList with
    | some data => .ok data
    | none => .error (.artifact "artifact encoding is invalid")
  | _ => .error (.artifact "artifact encoding is invalid")

/-- A document with everything that `write` seals it with. -/
structure Sealed where
  kind : String
  tenantNamespace : String
  keyId : String
  key : Bytes
  nonce : Bytes
  document : Json

namespace Sealed

variable (s : StoreSettings) (w : Sealed)

def plaintext : Bytes := Json.utf8 (Json.dumps s.floats.repr w.document)

def ciphertext : Bytes :=
  xorStream s.hashes (w.plaintext s) (encryptionKey s.hashes w.key w.tenantNamespace w.kind) w.nonce

def header : Json :=
  artifactHeader w.kind w.tenantNamespace w.keyId (base64Text w.nonce)
    (s.hashes.sha256 (w.plaintext s)).hex

/-- What the tag is over. -/
def message : Bytes := Json.utf8 (Json.dumps s.floats.repr (w.header s)) ++ 0 :: w.ciphertext s

def authenticationKey : Bytes :=
  Controlplane.authenticationKey s.hashes w.key w.tenantNamespace w.kind

def tag : String := (s.hashes.hmac (w.authenticationKey s) (w.message s)).hex

def envelope : Json :=
  artifactEnvelope w.kind w.tenantNamespace w.keyId (base64Text w.nonce)
    (s.hashes.sha256 (w.plaintext s)).hex (base64Text (w.ciphertext s)) (w.tag s)

def payload : Bytes := Json.utf8 (Json.dumps s.floats.repr (w.envelope s))

/-- What `write` checks. -/
structure Valid : Prop where
  kind_mem : w.kind ∈ artifactKinds
  namespace_ok : isIdentifier w.tenantNamespace = true
  finite : w.document.finite = true
  plaintext_le : (w.plaintext s).length ≤ s.maximumBytes
  payload_le : (w.payload s).length ≤ s.maximumBytes

end Sealed

section

variable {s : StoreSettings} {p : KeyProvider} {files files' : Files} {w : Sealed}
  {kind tenantNamespace artifactId : String} {document : Json} {nonce : Bytes} {r : ArtifactRecord}

theorem artifactPlaintext_eq {floats : Json.FloatText} {maximumBytes : ℕ} {plaintext : Bytes} :
    artifactPlaintext floats kind maximumBytes document = .ok plaintext ↔
      document.finite = true ∧ plaintext = Json.utf8 (Json.dumps floats.repr document) ∧
        plaintext.length ≤ maximumBytes := by
  unfold artifactPlaintext
  rw [except_bind_ok]
  simp only [canonical_ok]
  constructor
  · rintro ⟨text, ⟨hfinite, htext⟩, h⟩
    split_ifs at h with hle
    cases h
    exact ⟨hfinite, htext, by omega⟩
  · rintro ⟨hfinite, htext, hle⟩
    exact ⟨plaintext, ⟨hfinite, htext⟩, if_neg (by omega)⟩

/-- What a successful `write` has put into the directory. -/
theorem writeArtifact_ok
    (h : writeArtifact s p files kind tenantNamespace document nonce artifactId = .ok (r, files')) :
    ∃ key, p.key p.activeKeyId = some key ∧
      (⟨kind, tenantNamespace, p.activeKeyId, key, nonce, document⟩ : Sealed).Valid s ∧
      files' = Function.update files (artifactFilename kind artifactId)
        (some ⟨(⟨kind, tenantNamespace, p.activeKeyId, key, nonce, document⟩ : Sealed).payload s,
          true⟩) := by
  simp only [writeArtifact, except_bind_ok, ensure_ok, raised_ok, identifier_ok, canonical_ok,
    KeyProvider.get_ok, exists_const] at h
  obtain ⟨hkind, ns, ⟨hns, hident⟩, plaintext, hplain, key, hkey, header, ⟨-, hheader⟩, payload,
    ⟨-, hpayload⟩, hsize, h⟩ := h
  cases hns
  obtain ⟨hfinite, htext, hle⟩ := artifactPlaintext_eq.mp hplain
  simp only [Except.ok.injEq, Prod.mk.injEq] at h
  subst htext hheader
  have hsame : payload =
      (⟨kind, tenantNamespace, p.activeKeyId, key, nonce, document⟩ : Sealed).payload s := hpayload
  refine ⟨key, hkey, ⟨hkind, hident, hfinite, hle, hsame ▸ hsize⟩, ?_⟩
  rw [← hsame]
  exact h.2.symm

/-- A file that `read` accepts for a kind and a namespace, and the document in it. -/
structure Accepts (s : StoreSettings) (p : KeyProvider) (kind tenantNamespace : String)
    (fields : List (String × Json)) (document : Json) : Prop where
  names : fieldNames fields = envelopeFields
  kind_eq : item fields "kind" = .str kind
  namespace_eq : item fields "tenant_namespace" = .str tenantNamespace
  authentic : ∃ keyId nonce ciphertext key,
    item fields "key_id" = .str keyId ∧ p.key keyId = some key ∧
      decodeBase64 (item fields "nonce") = .ok nonce ∧
      decodeBase64 (item fields "ciphertext") = .ok ciphertext ∧
      item fields "tag" = .str (s.hashes.hmac (authenticationKey s.hashes key tenantNamespace kind)
        (Json.utf8 (Json.dumps s.floats.repr (envelopeHeader fields)) ++ 0 :: ciphertext)).hex ∧
      readArtifact s.floats
        (xorStream s.hashes ciphertext (encryptionKey s.hashes key tenantNamespace kind) nonce) =
          .ok document

end

/-- The store with its key provider, and everything that was ever sealed. -/
structure StoreState where
  provider : KeyProvider
  files : Files
  log : List Sealed

/-- One step and the file it touches: a `write` of a document, a rotation of the keys that
keeps the old ones, or the end of a file. -/
inductive StoreStep (s : StoreSettings) : StoreState → Option String → StoreState → Prop
  | write {st : StoreState} {kind tenantNamespace artifactId : String} {items : List (String × Json)}
      {nonce key : Bytes} {r : ArtifactRecord} {files' : Files}
      (hkey : st.provider.key st.provider.activeKeyId = some key) (hnonce : nonce.length = 32)
      (hid : isArtifactId artifactId = true) (hordered : (Json.obj items).Ordered)
      (h : writeArtifact s st.provider st.files kind tenantNamespace (.obj items) nonce artifactId =
        .ok (r, files')) :
      StoreStep s st (some (artifactFilename kind artifactId))
        ⟨st.provider, files', st.log ++
          [⟨kind, tenantNamespace, st.provider.activeKeyId, key, nonce, .obj items⟩]⟩
  | rotate {st : StoreState} {p' : KeyProvider} (h : st.provider.Rotates p') :
      StoreStep s st none ⟨p', st.files, st.log⟩
  | delete {st : StoreState} (name : String) :
      StoreStep s st (some name) ⟨st.provider, Function.update st.files name none, st.log⟩

/-- Steps none of which touches the file. -/
def StoreRunAvoiding (s : StoreSettings) (name : String) : StoreState → StoreState → Prop :=
  Relation.ReflTransGen fun st st' => ∃ touched, StoreStep s st touched st' ∧ touched ≠ some name

/-- A sealed document that the provider of the state can open. -/
structure Openable (s : StoreSettings) (st : StoreState) (w : Sealed) : Prop where
  valid : w.Valid s
  key_eq : st.provider.key w.keyId = some w.key
  keyId_ok : isIdentifier w.keyId = true
  nonce_length : w.nonce.length = 32
  ordered : w.document.Ordered
  object : ∃ items, w.document = .obj items

section

variable {s : StoreSettings} {st st' : StoreState} {w : Sealed} {name : String} {touched : Option String}

theorem StoreStep.rotates (h : StoreStep s st touched st') : st.provider.Rotates st'.provider := by
  cases h with
  | write => exact .refl _
  | rotate h => exact h
  | delete => exact .refl _

theorem Openable.step (hw : Openable s st w) (h : StoreStep s st touched st') : Openable s st' w :=
  ⟨hw.valid, h.rotates _ _ hw.key_eq, hw.keyId_ok, hw.nonce_length, hw.ordered, hw.object⟩

/-- A file that no step touches stays, and what it seals can still be opened. -/
theorem StoreRunAvoiding.keeps (hrun : StoreRunAvoiding s name st st') :
    st'.files name = st.files name ∧ (Openable s st w → Openable s st' w) := by
  induction hrun with
  | refl => exact ⟨rfl, id⟩
  | tail _ hstep ih =>
    obtain ⟨touched, hstep, hname⟩ := hstep
    refine ⟨?_, fun hw => (ih.2 hw).step hstep⟩
    rw [← ih.1]
    cases hstep with
    | write _ _ _ _ hwrite =>
      obtain ⟨_, -, -, rfl⟩ := writeArtifact_ok hwrite
      exact Function.update_of_ne (fun h => hname (congrArg some h.symm)) _ _
    | rotate => rfl
    | delete =>
      exact Function.update_of_ne (fun h => hname (congrArg some h.symm)) _ _

end

/-! ## A small store -/

def zeroDigest : Digest := ⟨List.replicate 32 0, by simp⟩

def oneDigest : Digest := ⟨List.replicate 32 1, by simp⟩

def smallKeys : KeyProvider where
  activeKeyId := "k1"
  key keyId := if keyId = "k1" then some (List.replicate 32 7) else none
  activeKeyId_ok := by decide

end Controlplane
end MegaCache
