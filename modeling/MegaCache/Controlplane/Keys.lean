import MegaCache.Controlplane.Artifacts
import MegaCache.Lib.KeyStream

/-!
# Keys and files of the control plane

HMAC-SHA256 and SHA-256 as parameters, the key provider, the keys derived from its keys,
the identifiers that name keys and namespaces, and reading a JSON file.  Rotating the keys
of a provider may add keys and choose another active one, and keeps the old ones.
-/

namespace MegaCache
namespace Controlplane

abbrev Bytes := List UInt8

/-- The 32 bytes of a digest. -/
abbrev Digest := { l : Bytes // l.length = 32 }

/-- The primitives of `hmac` and `hashlib`. -/
structure Hashes where
  hmac : Bytes → Bytes → Digest
  sha256 : Bytes → Digest

/-- `digest.hex()` -/
def Digest.hex (d : Digest) : String :=
  String.ofList (d.1.flatMap fun b => [Json.hexDigit (b.toNat / 16), Json.hexDigit (b.toNat % 16)])

def textBytes (s : String) : Bytes := Json.utf8 s.toList

theorem textBytes_injective : Function.Injective textBytes := fun _ _ h =>
  String.ext (Json.utf8_injective h)

/-- What the calls of this part raise: an exception of the control plane, the
`ControlPlaneUnavailable` of a missing key, or the `TypeError` of `hmac.compare_digest`. -/
inductive Raised
  | failure (f : Failure)
  | keyUnavailable
  | nonAscii
deriving DecidableEq, Repr

def Raised.artifact (message : String) : Raised := .failure (artifactError message)

/-- `if not condition: raise error` -/
def ensure (condition : Prop) [Decidable condition] (error : Raised) : Except Raised Unit :=
  if condition then .ok () else .error error

theorem ensure_ok {condition : Prop} [Decidable condition] {error : Raised} {u : Unit} :
    ensure condition error = .ok u ↔ condition := by
  unfold ensure
  split_ifs with h <;> simp [h]

/-- An exception of the control plane passed on. -/
def raised {α : Type} : Except Failure α → Except Raised α
  | .ok a => .ok a
  | .error f => .error (.failure f)

theorem raised_ok {α : Type} {x : Except Failure α} {a : α} : raised x = .ok a ↔ x = .ok a := by
  cases x <;> simp [raised]

theorem except_bind_ok {ε α β : Type} {x : Except ε α} {f : α → Except ε β} {b : β} :
    (x >>= f) = .ok b ↔ ∃ a, x = .ok a ∧ f a = .ok b := by
  cases x with
  | error e => simp [bind, Except.bind]
  | ok a => simp [bind, Except.bind]

/-- `_IDENTIFIER` -/
def isIdentifier (s : String) : Bool :=
  match s.toList with
  | [] => false
  | ch :: rest =>
    ch.isAlphanum && rest.length ≤ 127 && rest.all fun ch => ch.isAlphanum || ch ∈ ['.', '_', '-']

/-- `KeyProvider` at one time. -/
structure KeyProvider where
  activeKeyId : String
  key : String → Option Bytes
  activeKeyId_ok : isIdentifier activeKeyId = true

/-- Another state of the provider that keeps the keys it has. -/
def KeyProvider.Rotates (p p' : KeyProvider) : Prop :=
  ∀ keyId key, p.key keyId = some key → p'.key keyId = some key

theorem KeyProvider.Rotates.refl (p : KeyProvider) : p.Rotates p := fun _ _ h => h

theorem KeyProvider.Rotates.trans {p p' p'' : KeyProvider} (h : p.Rotates p') (h' : p'.Rotates p'') :
    p.Rotates p'' := fun keyId key hkey => h' keyId key (h keyId key hkey)

/-- `_derived_key`, given the key of the provider. -/
def deriveKey (c : Hashes) (key purpose : Bytes) : Bytes :=
  (c.hmac key (textBytes "megacache-control-v1" ++ 0 :: purpose)).1

/-- The key of the provider with this id. -/
def KeyProvider.get (p : KeyProvider) (keyId : String) : Except Raised Bytes :=
  match p.key keyId with
  | some key => .ok key
  | none => .error .keyUnavailable

theorem KeyProvider.get_ok {p : KeyProvider} {keyId : String} {key : Bytes} :
    p.get keyId = .ok key ↔ p.key keyId = some key := by
  unfold KeyProvider.get
  cases p.key keyId <;> simp

/-- `_identifier` -/
def identifier (value : Json) (field : String) : Except Raised String :=
  match value with
  | .str s =>
    if isIdentifier s then .ok s
    else .error (.failure ⟨.controlPlaneError, field ++ " must be a 1-128 character identifier"⟩)
  | _ => .error (.failure ⟨.controlPlaneError, field ++ " must be a 1-128 character identifier"⟩)

theorem identifier_ok {value : Json} {name s : String} :
    identifier value name = .ok s ↔ value = .str s ∧ isIdentifier s = true := by
  unfold identifier
  split
  next t =>
    split_ifs with h
    · simp only [Except.ok.injEq, Json.str.injEq]
      exact ⟨fun heq => ⟨heq, heq ▸ h⟩, fun heq => heq.1⟩
    · simp only [reduceCtorEq, Json.str.injEq, false_iff]
      rintro ⟨rfl, hs⟩
      exact h hs
  next hne =>
    simp only [reduceCtorEq, false_iff]
    rintro ⟨rfl, -⟩
    exact hne s rfl

/-- `hmac.compare_digest` of a text and a hexadecimal digest. -/
def compareHex (supplied : String) (d : Digest) : Except Raised Bool :=
  if supplied.toList.all fun ch => ch.toNat < 128 then .ok (supplied = d.hex) else .error .nonAscii

theorem hexDigit_ascii : ∀ n < 16, (Json.hexDigit n).toNat < 128 := by decide

theorem Digest.hex_ascii (d : Digest) : (d.hex.toList.all fun ch => ch.toNat < 128) = true := by
  rw [Digest.hex, String.toList_ofList, List.all_eq_true]
  intro ch hch
  obtain ⟨b, -, hb⟩ := List.mem_flatMap.mp hch
  have hlt := b.toNat_lt
  simp only [List.mem_cons, List.not_mem_nil, or_false] at hb
  rcases hb with rfl | rfl
  · exact decide_eq_true (hexDigit_ascii _ (by omega))
  · exact decide_eq_true (hexDigit_ascii _ (by omega))

theorem compareHex_hex (d : Digest) : compareHex d.hex d = .ok true := by
  rw [compareHex, if_pos d.hex_ascii]
  simp

theorem canonical_ok {floats : Json.FloatText} {value : Json} {bytes : Bytes} :
    canonical floats value = .ok bytes ↔
      value.finite = true ∧ bytes = Json.utf8 (Json.dumps floats.repr value) := by
  unfold canonical
  split_ifs with h <;> simp [h, eq_comm]

/-- An item of an object, `None` when it is absent. -/
def item (fields : List (String × Json)) (name : String) : Json := (fields.lookup name).getD .null

/-- `value == text` -/
def isText (value : Json) (text : String) : Bool :=
  match value with
  | .str s => s = text
  | _ => false

theorem isText_iff {value : Json} {text : String} : isText value text = true ↔ value = .str text := by
  unfold isText
  split
  · simp
  next h =>
    simp only [Bool.false_eq_true, false_iff]
    rintro rfl
    exact h text rfl

/-- A file, and whether it is a protected regular file. -/
structure StoredFile where
  payload : Bytes
  isProtected : Bool

/-- `_read_json_file`, given the content of the file. -/
def readJsonFile (floats : Json.FloatText) (maximumBytes : ℕ) (name : String) (payload : Bytes) :
    Except Raised (List (String × Json)) := do
  ensure (payload.length ≤ maximumBytes)
    (.failure ⟨.controlPlaneCapacity, name ++ " exceeds its configured byte limit"⟩)
  match Json.loads floats payload with
  | none => .error (.failure ⟨.controlPlaneError, "unable to load " ++ name⟩)
  | some (.obj fields) => .ok fields
  | some _ => .error (.failure ⟨.controlPlaneError, name ++ " must contain a JSON object"⟩)

theorem readJsonFile_ok {floats : Json.FloatText} {maximumBytes : ℕ} {name : String} {payload : Bytes}
    {fields : List (String × Json)} :
    readJsonFile floats maximumBytes name payload = .ok fields ↔
      payload.length ≤ maximumBytes ∧ Json.loads floats payload = some (.obj fields) := by
  rw [readJsonFile, except_bind_ok]
  simp only [ensure_ok, exists_const]
  refine and_congr_right fun _ => ?_
  split
  next h => simp [h]
  next fields' h => simp [h]
  next j hne h =>
    refine iff_of_false (by simp) ?_
    rw [h]
    rintro heq
    exact hne fields (Option.some.inj heq)

end Controlplane
end MegaCache
