import Modbit.Lib.HashChain
import Modbit.Lib.Sha256
import Modbit.Lib.Utf8

/-!
# The chain of effect receipts

A receipt binds four digests and the hash of the receipt before it.  `append` extends a
chain by a receipt, `verify` recomputes every link.

What the chain hash covers is the concatenation of the digests after the hash before it,
so a chain that verifies up to a known last hash has the receipts' joined texts and hashes
(`places_eq`).  Where one digest ends and the next begins is not
covered, nor is the receipt's own id: `verified_eq_iff` says that the lists are equal
exactly where these two agree as well.
-/

namespace Modbit

open Lib List

namespace Effects

/-! ### Receipts -/

structure EffectReceipt where
  receiptId : String
  prevReceiptHash : String
  approvalDigest : String
  capabilityDigest : String
  callDigest : String
  resultDigest : String
  chainHash : String
  deriving DecidableEq

def bytes (s : String) : List UInt8 := Utf8.encode s.toList

def chainHash (prev approval capability call result : String) : String :=
  Sha256.hex (bytes prev ++ bytes approval ++ bytes capability ++ bytes call ++ bytes result)

structure Digests where
  approval : String
  capability : String
  call : String
  result : String
  deriving DecidableEq

structure Chain where
  receipts : List EffectReceipt
  deriving DecidableEq

namespace Chain

def lastHash (c : Chain) : String :=
  (c.receipts.getLast?.map EffectReceipt.chainHash).getD "GENESIS"

/-- The receipt that is linked to `prev`. -/
def receiptAfter (prev : String) (d : Digests) : EffectReceipt :=
  let hash := chainHash prev d.approval d.capability d.call d.result
  { receiptId := "receipt-" ++ String.ofList (hash.toList.take 12)
    prevReceiptHash := prev
    approvalDigest := d.approval
    capabilityDigest := d.capability
    callDigest := d.call
    resultDigest := d.result
    chainHash := hash }

def append (c : Chain) (d : Digests) : Chain × EffectReceipt :=
  let receipt := receiptAfter c.lastHash d
  (⟨c.receipts ++ [receipt]⟩, receipt)

/-- The loop of `verify`, from a receipt on. -/
def verifyFrom (prev : String) (index : Nat) : List EffectReceipt → Except String Unit
  | [] => .ok ()
  | r :: rest =>
    if r.prevReceiptHash ≠ prev then
      .error ("chain broken at receipt " ++ toString index
        ++ ": link hash mismatch (tamper/delete/reorder)")
    else if r.chainHash ≠ chainHash r.prevReceiptHash r.approvalDigest r.capabilityDigest
        r.callDigest r.resultDigest then
      .error ("receipt " ++ toString index ++ ": chain hash mismatch (tampered)")
    else verifyFrom r.chainHash (index + 1) rest

def verify (c : Chain) : Except String Unit := verifyFrom "GENESIS" 0 c.receipts

/-- The chain that was built by appending, from nothing. -/
def built (ds : List Digests) : Chain := ds.foldl (fun c d => (c.append d).1) ⟨[]⟩

/-! ### What verification covers -/

def covered (r : EffectReceipt) : List Char :=
  r.approvalDigest.toList ++ r.capabilityDigest.toList ++ r.callDigest.toList
    ++ r.resultDigest.toList

def hashed (r : EffectReceipt) : List Char := r.prevReceiptHash.toList ++ covered r

/-- The hash of a joined text after the hash before it. -/
def link (prev : String) (text : List Char) : String :=
  Sha256.hex (Utf8.encode (prev.toList ++ text))

def place (r : EffectReceipt) : (String × List Char) × String :=
  ((r.prevReceiptHash, covered r), r.chainHash)

/-- The places of a chain, recomputed from its joined texts. -/
def placesOf (prev : String) (texts : List (List Char)) : List ((String × List Char) × String) :=
  (HashChain.links link prev texts).map (fun p => (p, link p.1 p.2))

theorem chainHash_eq_link (r : EffectReceipt) :
    Effects.chainHash r.prevReceiptHash r.approvalDigest r.capabilityDigest r.callDigest
      r.resultDigest = link r.prevReceiptHash (covered r) := by
  rw [Effects.chainHash, link, covered]
  simp only [bytes, Utf8.encode_append, append_assoc]

/-- **Verification recomputes every place**, and nothing else. -/
theorem verifyFrom_ok_iff (rs : List EffectReceipt) : ∀ (prev : String) (index : Nat),
    verifyFrom prev index rs = .ok () ↔ rs.map place = placesOf prev (rs.map covered) := by
  induction rs with
  | nil =>
    intro prev index
    exact ⟨fun _ => rfl, fun _ => rfl⟩
  | cons r rs ih =>
    intro prev index
    have hhead : (r :: rs).map place = placesOf prev ((r :: rs).map covered) ↔
        place r = ((prev, covered r), link prev (covered r))
          ∧ rs.map place = placesOf (link prev (covered r)) (rs.map covered) := by
      rw [map_cons, map_cons, placesOf, HashChain.links, map_cons, cons_eq_cons]
      rfl
    rw [hhead, verifyFrom, chainHash_eq_link, place]
    split_ifs with hprev hhash
    · refine ⟨fun h => (by cases h), fun h => absurd ?_ hprev⟩
      exact congrArg (fun p => p.1.1) h.1
    · refine ⟨fun h => (by cases h), fun h => absurd ?_ hhash⟩
      rw [not_not] at hprev
      rw [hprev]
      exact congrArg Prod.snd h.1
    · rw [not_not] at hprev hhash
      rw [ih, hhash, hprev]
      exact ⟨fun h => ⟨rfl, h⟩, fun h => h.2⟩

variable {c : Chain}

theorem lastHash_eq_tip (h : c.verify = .ok ()) :
    c.lastHash = HashChain.tip link "GENESIS" (c.receipts.map covered) := by
  obtain ⟨rs⟩ := c
  rw [verify, verifyFrom_ok_iff] at h
  rcases eq_nil_or_concat rs with rfl | ⟨rs, r, rfl⟩
  · rfl
  · rw [concat_eq_append] at h ⊢
    rw [map_append, map_append, map_singleton, map_singleton, placesOf,
      HashChain.links_concat, map_append, map_singleton] at h
    have hlast := (append_inj_right' h rfl)
    have hhash : r.chainHash = link (HashChain.tip link "GENESIS" (rs.map covered)) (covered r) :=
      congrArg Prod.snd (List.cons.inj hlast).1
    rw [lastHash, getLast?_concat, map_append, map_singleton, HashChain.tip_concat, ← hhash]
    rfl

/-! ### Built chains -/

/-- The id that a receipt with this hash is given. -/
def Named (r : EffectReceipt) : Prop :=
  r.receiptId = "receipt-" ++ String.ofList (r.chainHash.toList.take 12)

instance (r : EffectReceipt) : Decidable (Named r) := inferInstanceAs (Decidable (_ = _))

theorem verify_append (h : c.verify = .ok ()) (d : Digests) : (c.append d).1.verify = .ok () := by
  have htip := lastHash_eq_tip h
  rw [verify, verifyFrom_ok_iff] at h ⊢
  show (c.receipts ++ [receiptAfter c.lastHash d]).map place
    = placesOf "GENESIS" ((c.receipts ++ [receiptAfter c.lastHash d]).map covered)
  rw [map_append, map_append, map_singleton, map_singleton, placesOf,
    HashChain.links_concat, map_append, map_singleton, h, placesOf, ← htip]
  have hplace : place (receiptAfter c.lastHash d) = ((c.lastHash, covered (receiptAfter c.lastHash d)),
      link c.lastHash (covered (receiptAfter c.lastHash d))) := by
    rw [place]
    have hhash := chainHash_eq_link (receiptAfter c.lastHash d)
    exact congrArg (Prod.mk _) hhash
  rw [hplace]

theorem built_concat (ds : List Digests) (d : Digests) :
    built (ds ++ [d]) = ((built ds).append d).1 := by
  rw [built, foldl_append]
  rfl

/-- **A chain that was built verifies**, and its receipts have the ids of their hashes. -/
theorem built_spec (ds : List Digests) :
    (built ds).verify = .ok () ∧ ∀ r ∈ (built ds).receipts, Named r := by
  induction ds using List.reverseRecOn with
  | nil => exact ⟨rfl, fun r hr => (by cases hr)⟩
  | append_singleton ds d ih =>
    rw [built_concat]
    refine ⟨verify_append ih.1 d, fun r hr => ?_⟩
    rcases mem_append.mp hr with hr | hr
    · exact ih.2 r hr
    · rw [mem_singleton.mp hr]
      rfl

theorem length_receiptId (prev : String) (d : Digests) :
    (receiptAfter prev d).receiptId.toList.length = 20 := by
  have htake : ∀ l : List Char, l.length = 64 →
      ("receipt-" ++ String.ofList (l.take 12)).toList.length = 20 := by
    intro l hl
    simp [hl]
  exact htake _ (Sha256.length_hex _)

/-! ### Comparing chains -/

/-- No two of the texts hashed for the receipts have the same hash. -/
def CollisionFree (rs : List EffectReceipt) : Prop :=
  ∀ r ∈ rs, ∀ s ∈ rs,
    Sha256.hex (Utf8.encode (hashed r)) = Sha256.hex (Utf8.encode (hashed s)) → hashed r = hashed s

/-- Where the joined text of a receipt is cut into its digests. -/
def cuts (r : EffectReceipt) : Nat × Nat × Nat :=
  (r.approvalDigest.length, r.capabilityDigest.length, r.callDigest.length)

/-- What a hash is linked to: the beginning, or another hash. -/
def IsHash (s : String) : Prop := s = "GENESIS" ∨ ∃ b, s = Sha256.hex b

theorem hex_ne_genesis (b : List UInt8) : Sha256.hex b ≠ "GENESIS" := by
  intro h
  have hlen := Sha256.length_hex b
  rw [h] at hlen
  exact absurd hlen (by decide)

/-- The two kinds of hash are told apart by how they begin, so that a text after a hash can be
cut off again. -/
theorem eq_of_append_eq {s t : String} {l m : List Char} (hs : IsHash s) (ht : IsHash t)
    (h : s.toList ++ l = t.toList ++ m) : s = t ∧ l = m := by
  have hhead : ∀ (b : List UInt8) (l m : List Char),
      "GENESIS".toList ++ l ≠ (Sha256.hex b).toList ++ m := by
    intro b l m h
    have hlen := Sha256.length_hex b
    have hdigits := Sha256.hex_digits b
    cases hb : (Sha256.hex b).toList with
    | nil =>
      rw [hb] at hlen
      cases hlen
    | cons c rest =>
      rw [hb] at h hdigits
      have hc : 'G' = c := (List.cons.inj h).1
      have hdigit := hdigits c mem_cons_self
      rw [← hc] at hdigit
      exact absurd hdigit (by decide)
  have hsame : s.toList.length = t.toList.length → s = t ∧ l = m := by
    intro hlen
    obtain ⟨hst, hlm⟩ := append_inj h hlen
    exact ⟨String.toList_inj.mp hst, hlm⟩
  rcases hs with rfl | ⟨b, rfl⟩
  · rcases ht with rfl | ⟨b', rfl⟩
    · exact hsame rfl
    · exact absurd h (hhead b' l m)
  · rcases ht with rfl | ⟨b', rfl⟩
    · exact absurd h.symm (hhead b m l)
    · exact hsame (by rw [Sha256.length_hex, Sha256.length_hex])

theorem links_of_verify (h : c.verify = .ok ()) :
    HashChain.links link "GENESIS" (c.receipts.map covered)
      = c.receipts.map (fun r => (r.prevReceiptHash, covered r)) := by
  rw [verify, verifyFrom_ok_iff] at h
  have hfst := congrArg (List.map Prod.fst) h
  rw [placesOf, map_map, map_map] at hfst
  exact (map_id _).symm.trans hfst.symm

/-- A link of a chain that verifies, among those of some receipts. -/
def IsLinkOf (rs : List EffectReceipt) (p : String × List Char) : Prop :=
  IsHash p.1 ∧ ∃ r ∈ rs, (r.prevReceiptHash, covered r) = p

theorem isLinkOf {rs : List EffectReceipt} (h : c.verify = .ok ())
    (hsub : ∀ r ∈ c.receipts, r ∈ rs) :
    ∀ p ∈ HashChain.links link "GENESIS" (c.receipts.map covered), IsLinkOf rs p := by
  intro p hp
  refine ⟨?_, ?_⟩
  · rcases HashChain.mem_links hp with hfirst | ⟨q, hq⟩
    · exact .inl hfirst
    · exact .inr ⟨_, hq⟩
  · rw [links_of_verify h] at hp
    obtain ⟨r, hr, rfl⟩ := mem_map.mp hp
    exact ⟨r, hsub r hr, rfl⟩

/-- **The last hash fixes every hash and every joined text** of a chain that verifies. -/
theorem places_eq {c c' : Chain} (hc : c.verify = .ok ()) (hc' : c'.verify = .ok ())
    (hcol : CollisionFree (c.receipts ++ c'.receipts)) (hlast : c.lastHash = c'.lastHash) :
    c.receipts.map place = c'.receipts.map place := by
  have htexts : c.receipts.map covered = c'.receipts.map covered := by
    rw [lastHash_eq_tip hc, lastHash_eq_tip hc'] at hlast
    refine HashChain.eq_of_tip_eq (P := IsLinkOf (c.receipts ++ c'.receipts)) ?_ ?_ _ _
      (isLinkOf hc (fun r hr => mem_append_left _ hr))
      (isLinkOf hc' (fun r hr => mem_append_right _ hr)) hlast
    · rintro _ _ ⟨hp, r, hr, rfl⟩ ⟨hq, s, hs, rfl⟩ heq
      obtain ⟨hprev, htext⟩ := eq_of_append_eq hp hq (hcol r hr s hs heq)
      exact Prod.ext hprev htext
    · exact fun p _ => hex_ne_genesis _
  rw [verify, verifyFrom_ok_iff] at hc hc'
  rw [hc, hc', htexts]

theorem eq_of_place_eq {r s : EffectReceipt} (hplace : place r = place s) (hcuts : cuts r = cuts s)
    (hr : Named r) (hs : Named s) : r = s := by
  obtain ⟨hlink, hhash⟩ := Prod.mk.inj hplace
  obtain ⟨hprev, htext⟩ := Prod.mk.inj hlink
  obtain ⟨hap, hrest⟩ := Prod.mk.inj hcuts
  obtain ⟨hcap, hcall⟩ := Prod.mk.inj hrest
  rw [covered, covered, append_assoc, append_assoc, append_assoc, append_assoc] at htext
  -- equal lengths cut equal texts at the same places
  obtain ⟨happroval, htext⟩ := append_inj htext hap
  obtain ⟨hcapability, htext⟩ := append_inj htext hcap
  obtain ⟨hcalls, hresult⟩ := append_inj htext hcall
  have hid : r.receiptId = s.receiptId := by rw [hr, hs, hhash]
  obtain ⟨⟩ := r
  obtain ⟨⟩ := s
  simp only [String.toList_inj] at happroval hcapability hcalls hresult
  simp only [EffectReceipt.mk.injEq]
  exact ⟨hid, hprev, happroval, hcapability, hcalls, hresult, hhash⟩

theorem eq_of_places_eq {rs : List EffectReceipt} : ∀ {ss : List EffectReceipt},
    rs.map place = ss.map place → rs.map cuts = ss.map cuts → (∀ r ∈ rs, Named r) →
    (∀ s ∈ ss, Named s) → rs = ss := by
  induction rs with
  | nil =>
    intro ss hplace _ _ _
    exact (map_eq_nil_iff.mp hplace.symm).symm
  | cons r rs ih =>
    intro ss hplace hcuts hrs hss
    cases ss with
    | nil => cases hplace
    | cons s ss =>
      obtain ⟨hp, hps⟩ := List.cons.inj hplace
      obtain ⟨hq, hqs⟩ := List.cons.inj hcuts
      obtain ⟨hr, hrs⟩ := forall_mem_cons.mp hrs
      obtain ⟨hs, hss⟩ := forall_mem_cons.mp hss
      rw [eq_of_place_eq hp hq hr hs, ih hps hqs hrs hss]

/-- **When a chain that verifies up to the last hash is the chain.**  Exactly when its receipts
have the ids of their hashes and cut the joined texts at the same places. -/
theorem verified_eq_iff (ds : List Digests) (c : Chain)
    (hcol : CollisionFree (c.receipts ++ (built ds).receipts)) (hok : c.verify = .ok ())
    (hlast : c.lastHash = (built ds).lastHash) :
    c = built ds ↔ c.receipts.map cuts = (built ds).receipts.map cuts
      ∧ ∀ r ∈ c.receipts, Named r := by
  have hplaces := places_eq hok (built_spec ds).1 hcol hlast
  constructor
  · rintro rfl
    exact ⟨rfl, (built_spec ds).2⟩
  · rintro ⟨hcuts, hnamed⟩
    have hrs := eq_of_places_eq hplaces hcuts hnamed (built_spec ds).2
    exact congrArg Chain.mk hrs

theorem single_of_place {d : Digests} {r : EffectReceipt}
    (h : place r = place (receiptAfter "GENESIS" d)) :
    CollisionFree ([r] ++ (built [d]).receipts) ∧ verify ⟨[r]⟩ = .ok ()
      ∧ lastHash ⟨[r]⟩ = (built [d]).lastHash := by
  obtain ⟨hlink, hhash⟩ := Prod.mk.inj h
  obtain ⟨hprev, htext⟩ := Prod.mk.inj hlink
  have hsame : ∀ s ∈ [r] ++ (built [d]).receipts, hashed s = hashed (receiptAfter "GENESIS" d) := by
    intro s hs
    rcases mem_cons.mp hs with rfl | hs
    · rw [hashed, hprev, htext]
      rfl
    · rw [mem_singleton.mp hs]
      rfl
  refine ⟨fun s hs t ht _ => (hsame s hs).trans (hsame t ht).symm, ?_, ?_⟩
  · have hbuilt := (built_spec [d]).1
    rw [verify, verifyFrom_ok_iff] at hbuilt ⊢
    rw [map_singleton, map_singleton, h, htext]
    exact hbuilt
  · exact hhash

def sampleDigests : Digests := ⟨"no-approval", "cap-external", "call-1", "external-call"⟩

/-- The receipt after text was moved from its call into its capability. -/
def shifted : EffectReceipt :=
  { receiptAfter "GENESIS" sampleDigests with
    capabilityDigest := "cap-externalcall", callDigest := "-1" }

def renamed : EffectReceipt :=
  { receiptAfter "GENESIS" sampleDigests with receiptId := "receipt-forged" }

theorem place_shifted : place shifted = place (receiptAfter "GENESIS" sampleDigests) := by
  have htext : covered shifted = covered (receiptAfter "GENESIS" sampleDigests) := by decide
  rw [place, htext]
  rfl

theorem place_renamed : place renamed = place (receiptAfter "GENESIS" sampleDigests) := by
  have htext : covered renamed = covered (receiptAfter "GENESIS" sampleDigests) := by decide
  rw [place, htext]
  rfl

theorem verified_eq_iff_shifted :
    (⟨[shifted]⟩ : Chain).verify = .ok ()
      ∧ ((⟨[shifted]⟩ : Chain) = built [sampleDigests] ↔
        [shifted].map cuts = (built [sampleDigests]).receipts.map cuts
          ∧ ∀ r ∈ [shifted], Named r) :=
  have h := single_of_place place_shifted
  ⟨h.2.1, verified_eq_iff [sampleDigests] ⟨[shifted]⟩ h.1 h.2.1 h.2.2⟩

/-- **Text shifted between digests and a forged id go unnoticed**: both lists verify up to the
last hash of a chain that they are not. -/
theorem undetected_tampering :
    (CollisionFree ([shifted] ++ (built [sampleDigests]).receipts)
      ∧ (⟨[shifted]⟩ : Chain).verify = .ok ()
      ∧ (⟨[shifted]⟩ : Chain).lastHash = (built [sampleDigests]).lastHash
      ∧ (⟨[shifted]⟩ : Chain) ≠ built [sampleDigests])
    ∧ (CollisionFree ([renamed] ++ (built [sampleDigests]).receipts)
      ∧ (⟨[renamed]⟩ : Chain).verify = .ok ()
      ∧ (⟨[renamed]⟩ : Chain).lastHash = (built [sampleDigests]).lastHash
      ∧ (⟨[renamed]⟩ : Chain) ≠ built [sampleDigests]) := by
  obtain ⟨hcol, hok, hlast⟩ := single_of_place place_shifted
  obtain ⟨hcol', hok', hlast'⟩ := single_of_place place_renamed
  refine ⟨⟨hcol, hok, hlast, fun h => ?_⟩, ⟨hcol', hok', hlast', fun h => ?_⟩⟩
  · have hcall := congrArg (fun c : Chain => c.receipts.map EffectReceipt.callDigest) h
    exact absurd hcall (by decide)
  · have hids := congrArg (fun c : Chain => c.receipts.map (·.receiptId.toList.length)) h
    have hid : "receipt-forged".toList.length
        = (receiptAfter "GENESIS" sampleDigests).receiptId.toList.length := (List.cons.inj hids).1
    rw [length_receiptId] at hid
    exact absurd hid (by decide)

end Chain

end Effects

end Modbit
