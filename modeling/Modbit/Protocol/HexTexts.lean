import Modbit.Lib.Hex
import Modbit.Lib.Json
import Modbit.Protocol.Handshake

/-!
# Signatures and secrets as hexadecimal text

A guest's manifest is signed with a MAC that is sent as text, and the boot secret is handed over
as text.  Both are read in slices of two bytes, and `none` is a panic.

`hex_texts` says for which texts both readers do what is expected: they return, and accept what
spells the bytes and nothing else.  A sign in the place of a zero is accepted too, and a slice
that ends inside a character is a panic.
-/

namespace Modbit

open Lib

namespace Transport

/-! ### Manifests -/

def guestProtocolMajor : UInt32 := 1

def guestProtocolMinor : UInt32 := 0

structure GuestManifest where
  guestVersion : String
  protocolMajor : UInt32
  protocolMinor : UInt32
  buildHash : String
  task : String
  deriving DecidableEq

inductive GuestIdentityError where
  | badSignature
  | unsupportedVersion (major minor : UInt32)
  deriving DecidableEq

def GuestIdentityError.text : GuestIdentityError → String
  | .badSignature => "guest manifest signature mismatch (fail closed)"
  | .unsupportedVersion major minor =>
    "guest protocol " ++ toString major.toNat ++ "." ++ toString minor.toNat ++
      " incompatible with host " ++ toString guestProtocolMajor.toNat ++ "." ++
      toString guestProtocolMinor.toNat

namespace GuestManifest

/-- `serde_json::to_vec`. -/
def json (m : GuestManifest) : List UInt8 :=
  Utf8.encode (Json.render (.obj
    [("guest_version", .str m.guestVersion), ("protocol_major", .num m.protocolMajor.toNat),
      ("protocol_minor", .num m.protocolMinor.toNat), ("build_hash", .str m.buildHash),
      ("task", .str m.task)])).toList

def mac (m : GuestManifest) (key : List UInt8) : List UInt8 := Sha256.hmac key m.json

end GuestManifest

def hexEncode (bytes : List UInt8) : String := String.ofList (Hex.encode bytes)

/-- The outer `none` is a panic, the inner one `Err(())`. -/
def hexDecode (s : String) : Option (Option (List UInt8)) :=
  let bytes := Utf8.encode s.toList
  if bytes.length % 2 ≠ 0 then some none else Hex.decodePairs (bytes.length / 2) bytes

def signManifest (m : GuestManifest) (key : List UInt8) : String := hexEncode (m.mac key)

def verifyManifest (m : GuestManifest) (signatureHex : String) (key : List UInt8) :
    Option (Except GuestIdentityError Unit) :=
  if m.protocolMajor ≠ guestProtocolMajor then
    some (.error (.unsupportedVersion m.protocolMajor m.protocolMinor))
  else
    (hexDecode signatureHex).map (fun decoded =>
      match decoded with
      | none => .error .badSignature
      | some expected => if expected = m.mac key then .ok () else .error .badSignature)

/-! ### Boot secrets -/

namespace BootSecret

def fromHex (s : String) : Option (Option BootSecret) :=
  let bytes := Utf8.encode s.toList
  if bytes.length ≠ 64 then some none
  else
    (Hex.decodePairs 32 bytes).map (fun decoded =>
      decoded.bind (fun bytes => if h : bytes.length = 32 then some ⟨bytes, h⟩ else none))

def hex (secret : BootSecret) : String := hexEncode secret.bytes

end BootSecret

/-! ### What is expected -/

/-- A signature is verified or refused, and verified if and only if it spells the MAC. -/
structure VerifiedAsSpelled (m : GuestManifest) (signatureHex : String) (key : List UInt8) :
    Prop where
  returns : verifyManifest m signatureHex key ≠ none
  accepts : verifyManifest m signatureHex key = some (.ok ()) ↔
    m.protocolMajor = guestProtocolMajor ∧ Hex.Spells signatureHex.toList (m.mac key)

/-- A text is a secret or is refused, and is the secret whose bytes it spells. -/
structure SecretAsSpelled (s : String) : Prop where
  returns : BootSecret.fromHex s ≠ none
  accepts : ∀ secret, BootSecret.fromHex s = some (some secret) ↔ Hex.Spells s.toList secret.bytes

/-- Nothing that is read in slices of two bytes ends inside a character. -/
def Sliceable (s : String) : Prop := ¬ Hex.Splits s.toList

section

variable {m : GuestManifest} {s : String} {key : List UInt8}

theorem hexDecode_odd (h : (Utf8.encode s.toList).length % 2 ≠ 0) : hexDecode s = some none :=
  if_pos h

theorem hexDecode_even (h : (Utf8.encode s.toList).length % 2 = 0) :
    (∀ bytes, hexDecode s = some (some bytes) ↔ Hex.Reads s.toList bytes) ∧
      (hexDecode s = none ↔ ¬ Sliceable s) := by
  have hlength : (Utf8.encode s.toList).length = 2 * ((Utf8.encode s.toList).length / 2) := by
    omega
  have heq : hexDecode s =
      Hex.decodePairs ((Utf8.encode s.toList).length / 2) (Utf8.encode s.toList) :=
    if_neg (not_not.mpr h)
  rw [heq, Sliceable, not_not]
  exact ⟨fun bytes => Hex.decodePairs_eq_ok hlength, Hex.decodePairs_eq_panic hlength⟩

theorem hexDecode_eq_ok {bytes : List UInt8} :
    hexDecode s = some (some bytes) ↔ Hex.Reads s.toList bytes := by
  by_cases heven : (Utf8.encode s.toList).length % 2 = 0
  · exact (hexDecode_even heven).1 bytes
  · rw [hexDecode_odd heven]
    refine iff_of_false (fun h => by cases h) (fun h => heven ?_)
    rw [h.length_encode, Nat.mul_mod_right]

theorem hexDecode_eq_panic :
    hexDecode s = none ↔ (Utf8.encode s.toList).length % 2 = 0 ∧ ¬ Sliceable s := by
  by_cases heven : (Utf8.encode s.toList).length % 2 = 0
  · rw [(hexDecode_even heven).2]
    exact (and_iff_right heven).symm
  · rw [hexDecode_odd heven]
    exact iff_of_false (fun h => by cases h) (fun h => heven h.1)

theorem verifyManifest_eq_ok : verifyManifest m s key = some (.ok ()) ↔
    m.protocolMajor = guestProtocolMajor ∧ Hex.Reads s.toList (m.mac key) := by
  by_cases hmajor : m.protocolMajor = guestProtocolMajor
  · rw [verifyManifest, if_neg (not_not.mpr hmajor), ← hexDecode_eq_ok]
    constructor
    · intro h
      obtain ⟨decoded, hdecoded, h⟩ := Option.map_eq_some_iff.mp h
      cases decoded with
      | none => cases h
      | some expected =>
        dsimp only at h
        by_cases heq : expected = m.mac key
        · rw [heq] at hdecoded
          exact ⟨hmajor, hdecoded⟩
        · rw [if_neg heq] at h
          cases h
    · rintro ⟨-, h⟩
      rw [h, Option.map_some]
      dsimp only
      rw [if_pos rfl]
  · rw [verifyManifest, if_pos hmajor]
    exact iff_of_false (fun h => by cases h) (fun h => hmajor h.1)

theorem verifyManifest_eq_panic : verifyManifest m s key = none ↔
    m.protocolMajor = guestProtocolMajor ∧ (Utf8.encode s.toList).length % 2 = 0 ∧
      ¬ Sliceable s := by
  by_cases hmajor : m.protocolMajor = guestProtocolMajor
  · rw [verifyManifest, if_neg (not_not.mpr hmajor), Option.map_eq_none_iff, hexDecode_eq_panic]
    exact (and_iff_right hmajor).symm
  · rw [verifyManifest, if_pos hmajor]
    exact iff_of_false (fun h => by cases h) (fun h => hmajor h.1)

theorem verified_iff (m : GuestManifest) (s : String) (key : List UInt8) :
    VerifiedAsSpelled m s key ↔ (m.protocolMajor = guestProtocolMajor →
      ((Utf8.encode s.toList).length % 2 = 0 → Sliceable s) ∧
        (Hex.Reads s.toList (m.mac key) → '+' ∉ s.toList)) := by
  constructor
  · rintro ⟨hreturns, haccepts⟩ hmajor
    constructor
    · intro heven
      by_contra hsplit
      exact hreturns (verifyManifest_eq_panic.mpr ⟨hmajor, heven, hsplit⟩)
    · intro hreads
      exact (haccepts.mp (verifyManifest_eq_ok.mpr ⟨hmajor, hreads⟩)).2.plain
  · intro h
    constructor
    · intro hpanic
      obtain ⟨hmajor, heven, hsplit⟩ := verifyManifest_eq_panic.mp hpanic
      exact hsplit ((h hmajor).1 heven)
    · rw [verifyManifest_eq_ok]
      constructor
      · rintro ⟨hmajor, hreads⟩
        exact ⟨hmajor, hreads.spells ((h hmajor).2 hreads)⟩
      · rintro ⟨hmajor, hspells⟩
        exact ⟨hmajor, hspells.reads⟩

theorem fromHex_eq_ok {secret : BootSecret} :
    BootSecret.fromHex s = some (some secret) ↔ Hex.Reads s.toList secret.bytes := by
  by_cases hlength : (Utf8.encode s.toList).length = 64
  · rw [BootSecret.fromHex, if_neg (not_not.mpr hlength),
      ← Hex.decodePairs_eq_ok (n := 32) (by rw [hlength])]
    constructor
    · intro h
      obtain ⟨decoded, hdecoded, h⟩ := Option.map_eq_some_iff.mp h
      obtain ⟨bytes, rfl, hsecret⟩ := Option.bind_eq_some_iff.mp h
      split at hsecret
      · cases hsecret
        exact hdecoded
      · cases hsecret
    · intro h
      rw [h, Option.map_some, Option.bind_some, dif_pos secret.length_bytes]
  · rw [BootSecret.fromHex, if_pos hlength]
    refine iff_of_false (fun h => by cases h) (fun h => hlength ?_)
    rw [h.length_encode, secret.length_bytes]

theorem fromHex_eq_panic : BootSecret.fromHex s = none ↔
    (Utf8.encode s.toList).length = 64 ∧ ¬ Sliceable s := by
  by_cases hlength : (Utf8.encode s.toList).length = 64
  · rw [BootSecret.fromHex, if_neg (not_not.mpr hlength), Option.map_eq_none_iff,
      Hex.decodePairs_eq_panic (n := 32) (by rw [hlength]), Sliceable, not_not]
    exact (and_iff_right hlength).symm
  · rw [BootSecret.fromHex, if_pos hlength]
    exact iff_of_false (fun h => by cases h) (fun h => hlength h.1)

theorem secret_iff (s : String) :
    SecretAsSpelled s ↔ ((Utf8.encode s.toList).length = 64 →
      Sliceable s ∧ ∀ bytes, Hex.Reads s.toList bytes → '+' ∉ s.toList) := by
  constructor
  · rintro ⟨hreturns, haccepts⟩ hlength
    constructor
    · by_contra hsplit
      exact hreturns (fromHex_eq_panic.mpr ⟨hlength, hsplit⟩)
    · intro bytes hreads
      have hbytes : bytes.length = 32 := by
        have hdouble := hreads.length_encode
        rw [hlength] at hdouble
        omega
      exact ((haccepts ⟨bytes, hbytes⟩).mp (fromHex_eq_ok.mpr hreads)).plain
  · intro h
    constructor
    · intro hpanic
      obtain ⟨hlength, hsplit⟩ := fromHex_eq_panic.mp hpanic
      exact hsplit (h hlength).1
    · intro secret
      rw [fromHex_eq_ok]
      refine ⟨fun hreads => hreads.spells ?_, fun hspells => hspells.reads⟩
      exact (h (by rw [hreads.length_encode, secret.length_bytes])).2 _ hreads

/-- **Signatures and secrets are taken for what they spell exactly when no slice ends inside a
character and no sign is taken for a digit**, and what was encoded is decoded. -/
theorem hex_texts (m : GuestManifest) (s : String) (key bytes : List UInt8) (secret : BootSecret) :
    (VerifiedAsSpelled m s key ↔ (m.protocolMajor = guestProtocolMajor →
      ((Utf8.encode s.toList).length % 2 = 0 → Sliceable s) ∧
        (Hex.Reads s.toList (m.mac key) → '+' ∉ s.toList))) ∧
    (SecretAsSpelled s ↔ ((Utf8.encode s.toList).length = 64 →
      Sliceable s ∧ ∀ bytes, Hex.Reads s.toList bytes → '+' ∉ s.toList)) ∧
    BootSecret.fromHex secret.hex = some (some secret) ∧
    hexDecode (hexEncode bytes) = some (some bytes) := by
  refine ⟨verified_iff m s key, secret_iff s, ?_, ?_⟩
  · rw [fromHex_eq_ok, BootSecret.hex, hexEncode, String.toList_ofList]
    exact (Hex.spells_encode _).reads
  · rw [hexDecode_eq_ok, hexEncode, String.toList_ofList]
    exact (Hex.spells_encode _).reads

/-- A manifest verifies under the key it was signed with. -/
theorem verifyManifest_signManifest (key : List UInt8) (hmajor : m.protocolMajor = guestProtocolMajor) :
    verifyManifest m (signManifest m key) key = some (.ok ()) := by
  rw [verifyManifest_eq_ok, signManifest, hexEncode, String.toList_ofList]
  exact ⟨hmajor, (Hex.spells_encode _).reads⟩

def bareManifest : GuestManifest := ⟨"", guestProtocolMajor, 0, "", ""⟩

/-- An accent at the wrong place stops the host, and a secret may be written with signs. -/
theorem hex_texts_misread : ¬ (∀ m s key, VerifiedAsSpelled m s key) ∧ ¬ ∀ s, SecretAsSpelled s := by
  constructor
  · intro h
    refine (h bareManifest "aéa" []).returns (verifyManifest_eq_panic.mpr ⟨rfl, by decide, ?_⟩)
    exact not_not.mpr (Hex.Splits.across ['a'] (by decide) (by decide))
  · intro h
    have hzero : Hex.Reads (List.replicate 32 ['+', '0']).flatten (List.replicate 32 0) := by
      rw [← Hex.readPairs_eq_ok]
      decide
    have hread : BootSecret.fromHex (String.ofList (List.replicate 32 ['+', '0']).flatten) =
        some (some ⟨List.replicate 32 0, List.length_replicate⟩) := by
      rw [fromHex_eq_ok, String.toList_ofList]
      exact hzero
    have hspells := ((h _).accepts _).mp hread
    rw [String.toList_ofList] at hspells
    exact hspells.plain (by decide)

end

end Transport

end Modbit
