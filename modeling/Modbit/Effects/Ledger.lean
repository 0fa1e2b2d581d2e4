import Modbit.Effects.Chain
import Modbit.Lib.Format
import Modbit.Lib.Run

/-!
# The ledger file

A ledger is a chain and the file it is written to, one receipt a line.  Opening reads the
file and verifies it; an append extends the chain in memory and then writes the line.
Several ledgers may be open on one file, each with the chain it has read or written itself,
and an append that fails has still extended the chain in memory.

`ledger_run` is the invariant over whole histories: the file verifies and holds exactly the
receipts whose appends returned, as long as each append is made by a ledger that is at the
file's last hash and a failed append has written nothing.
-/

namespace Modbit

open Lib

namespace Effects

/-! ### Opening and appending -/

structure Ledger where
  chain : Chain
  deriving DecidableEq

/-- Why a ledger cannot be opened: the file or one of its lines cannot be read, or the chain
does not verify. -/
inductive LedgerError where
  | unreadable
  | chain (text : String)
  | io
  deriving DecidableEq

variable (json : Jsonl.Codec EffectReceipt)

namespace Ledger

def openFile (file : Option (List UInt8)) : Except LedgerError Ledger :=
  match file with
  | none => .ok ⟨⟨[]⟩⟩
  | some bytes =>
    match Jsonl.read json Jsonl.blank (some bytes) with
    | none => .error .unreadable
    | some receipts =>
      match Chain.verify ⟨receipts⟩ with
      | .error text => .error (.chain text)
      | .ok () => .ok ⟨⟨receipts⟩⟩

/-- The line `append` writes. -/
def receiptLine (r : EffectReceipt) : List UInt8 := Utf8.encode (Jsonl.line json r)

def verifyFile (file : Option (List UInt8)) : Except LedgerError Unit :=
  match openFile json file with
  | .error e => .error e
  | .ok ledger => ledger.chain.verify.mapError .chain

end Ledger

/-! ### Runs -/

/-- The file, the ledgers that are open on it, and the receipts whose appends returned. -/
structure LedgerWorld where
  file : Option (List UInt8)
  ledgers : List Ledger
  returned : List EffectReceipt

/-- A failed append could not open the file, or wrote a part of its line. -/
inductive LedgerEvent where
  | openFile
  | append (i : Nat) (d : Digests)
  | appendFails (i : Nat) (d : Digests) (written : Option Nat)
  | restart

namespace LedgerWorld

/-- The chain of a ledger after an append, whether the line was written or not. -/
def extend (w : LedgerWorld) (i : Nat) (d : Digests) : List Ledger :=
  w.ledgers.modify i (fun ledger => ⟨(ledger.chain.append d).1⟩)

def step (w : LedgerWorld) : LedgerEvent → LedgerWorld × Except LedgerError Unit
  | .openFile =>
    match Ledger.openFile json w.file with
    | .error e => (w, .error e)
    | .ok ledger => ({ w with ledgers := w.ledgers ++ [ledger] }, .ok ())
  | .append i d =>
    match w.ledgers[i]? with
    | none => (w, .ok ())
    | some ledger =>
      let receipt := (ledger.chain.append d).2
      ({ file := some (w.file.getD [] ++ Ledger.receiptLine json receipt)
         ledgers := w.extend i d
         returned := w.returned ++ [receipt] }, .ok ())
  | .appendFails i d written =>
    match w.ledgers[i]? with
    | none => (w, .ok ())
    | some ledger =>
      match written with
      | none => ({ w with ledgers := w.extend i d }, .error .io)
      | some n =>
        let line := Ledger.receiptLine json (ledger.chain.append d).2
        -- what is written is less than the line
        if n < line.length then
          ({ w with
             file := some (w.file.getD [] ++ line.take n)
             ledgers := w.extend i d }, .error .io)
        else (w, .ok ())
  | .restart => ({ w with ledgers := [] }, .ok ())

def fresh : LedgerWorld := ⟨none, [], []⟩

/-- The file opens and verifies, with the receipts whose appends returned. -/
def Sound (w : LedgerWorld) : Prop :=
  Ledger.openFile json w.file = .ok ⟨⟨w.returned⟩⟩ ∧ Ledger.verifyFile json w.file = .ok ()

/-- An append is made by a ledger that is at the file's last hash; one that fails has written
nothing. -/
def InStep (w : LedgerWorld) : LedgerEvent → Prop
  | .openFile => True
  | .append i _ => ∀ ledger ∈ w.ledgers[i]?, ∀ disk, Ledger.openFile json w.file = .ok disk →
      ledger.chain.lastHash = disk.chain.lastHash
  | .appendFails _ _ written => written = none ∨ written = some 0
  | .restart => True

/-! ### What a step keeps -/

/-- The lines of the file are those of the receipts whose appends returned, and these verify. -/
structure Good (w : LedgerWorld) : Prop where
  holds : Jsonl.Holds json w.file w.returned
  verifies : Chain.verify ⟨w.returned⟩ = .ok ()

variable {json} {w : LedgerWorld}

theorem openFile_of_holds {file : Option (List UInt8)} {rs : List EffectReceipt}
    (h : Jsonl.Holds json file rs) :
    Ledger.openFile json file = match Chain.verify ⟨rs⟩ with
      | .error text => .error (.chain text)
      | .ok () => .ok ⟨⟨rs⟩⟩ := by
  have hread := h.read (Jsonl.blank_toText json)
  cases file with
  | none =>
    rw [← Option.some.inj hread]
    rfl
  | some bytes => rw [Ledger.openFile, hread]

theorem Good.sound (h : Good json w) : w.Sound json := by
  have hopen := openFile_of_holds h.holds
  rw [h.verifies] at hopen
  refine ⟨hopen, ?_⟩
  rw [Ledger.verifyFile, hopen]
  dsimp only
  rw [h.verifies]
  rfl

/-- **What a step keeps.** -/
theorem good_step (e : LedgerEvent) (h : Good json w) (hok : w.InStep json e) :
    Good json (w.step json e).1 := by
  cases e with
  | openFile =>
    rw [step, h.sound.1]
    exact ⟨h.holds, h.verifies⟩
  | restart => exact ⟨h.holds, h.verifies⟩
  | append i d =>
    cases hi : w.ledgers[i]? with
    | none =>
      rw [step, hi]
      exact h
    | some ledger =>
      have hlast : ledger.chain.lastHash = Chain.lastHash ⟨w.returned⟩ :=
        hok ledger hi _ h.sound.1
      rw [step, hi]
      refine ⟨h.holds.concat _, ?_⟩
      -- the receipt is the one the chain on disk is extended by
      have hext := Chain.verify_append h.verifies d
      rw [Chain.append, ← hlast] at hext
      exact hext
  | appendFails i d written =>
    cases hi : w.ledgers[i]? with
    | none =>
      rw [step, hi]
      exact h
    | some ledger =>
      rw [step, hi]
      rcases hok with rfl | rfl
      · exact ⟨h.holds, h.verifies⟩
      · dsimp only
        split_ifs
        · refine ⟨?_, h.verifies⟩
          rw [List.take_zero, List.append_nil]
          exact h.holds
        · exact h

/-- **The file keeps verifying, with the receipts of the appends that returned.** -/
theorem ledger_run (json : Jsonl.Codec EffectReceipt) (es : List LedgerEvent)
    (h : Admits (step json) (InStep json) fresh es) : (run (step json) fresh es).Sound json := by
  have hgood : Good json fresh := ⟨Jsonl.holds_nil json, rfl⟩
  exact ((path_of_admits es h).invariant hgood (fun _ e hw hok => good_step e hw hok)).sound

/-! ### Forks, failed appends and torn lines -/

def receiptFormat : Format EffectReceipt :=
  (((Format.str.after "\x7b\x22receipt_id\x22:" (by decide)).seq
    ((Format.str.after ",\x22prev_receipt_hash\x22:" (by decide)).seq
    ((Format.str.after ",\x22approval_digest\x22:" (by decide)).seq
    ((Format.str.after ",\x22capability_digest\x22:" (by decide)).seq
    ((Format.str.after ",\x22call_digest\x22:" (by decide)).seq
    ((Format.str.after ",\x22result_digest\x22:" (by decide)).seq
    ((Format.str.after ",\x22chain_hash\x22:" (by decide)).seq
    (Format.lit "\x7d" Format.noControl_brace)))))))).via
    (fun r => (r.receiptId, r.prevReceiptHash, r.approvalDigest, r.capabilityDigest, r.callDigest,
      r.resultDigest, r.chainHash, ()))
    (fun v => some ⟨v.1, v.2.1, v.2.2.1, v.2.2.2.1, v.2.2.2.2.1, v.2.2.2.2.2.1, v.2.2.2.2.2.2.1⟩)
    (fun _ => rfl))

def receiptJson : Jsonl.Codec EffectReceipt :=
  receiptFormat.codec (fun _ => ⟨'\x7b', List.mem_cons_self, rfl⟩)

/-- Two ledgers that are open at the same time fork the chain. -/
def forked : List LedgerEvent :=
  [.openFile, .openFile, .append 0 Chain.sampleDigests, .append 1 Chain.sampleDigests]

/-- A ledger goes on after an append of its own has failed and written nothing. -/
def resumed : List LedgerEvent :=
  [.openFile, .appendFails 0 Chain.sampleDigests none, .append 0 Chain.sampleDigests]

def torn : List LedgerEvent := [.openFile, .appendFails 0 Chain.sampleDigests (some 1)]

def firstReceipt : EffectReceipt := Chain.receiptAfter "GENESIS" Chain.sampleDigests

theorem ledger_run_sample :
    Admits (step receiptJson) (InStep receiptJson) fresh
        [.openFile, .append 0 Chain.sampleDigests, .append 0 Chain.sampleDigests]
      ∧ (run (step receiptJson) fresh
        [.openFile, .append 0 Chain.sampleDigests, .append 0 Chain.sampleDigests]).Sound receiptJson := by
  have hadmits : Admits (step receiptJson) (InStep receiptJson) fresh
      [.openFile, .append 0 Chain.sampleDigests, .append 0 Chain.sampleDigests] := by
    refine ⟨trivial, fun ledger hl disk hopen => ?_, fun ledger hl disk hopen => ?_, trivial⟩
    · rw [← Option.some.inj hl, ← Except.ok.inj hopen]
    · have hholds : Jsonl.Holds receiptJson _ [firstReceipt] :=
        (Jsonl.holds_nil receiptJson).concat firstReceipt
      have hdisk := openFile_of_holds hholds
      have hok : Chain.verify ⟨[firstReceipt]⟩ = .ok () :=
        Chain.verify_append (c := ⟨[]⟩) rfl Chain.sampleDigests
      rw [hok] at hdisk
      have hsame : disk = ⟨⟨[firstReceipt]⟩⟩ := Except.ok.inj (hopen.symm.trans hdisk)
      rw [← Option.some.inj hl, hsame]
      rfl
  exact ⟨hadmits, ledger_run receiptJson _ hadmits⟩

theorem not_sound_of_holds {rs : List EffectReceipt} (h : Jsonl.Holds json w.file rs)
    (hbad : Chain.verify ⟨rs⟩ ≠ .ok ()) : ¬ w.Sound json := by
  intro hsound
  have hopen := openFile_of_holds h
  rw [hsound.1] at hopen
  cases hv : Chain.verify ⟨rs⟩ with
  | ok u => exact hbad hv
  | error text =>
    rw [hv] at hopen
    cases hopen

theorem verify_second_ne {r s : EffectReceipt} (h : s.prevReceiptHash = "GENESIS") :
    Chain.verify ⟨[r, s]⟩ ≠ .ok () := by
  intro hok
  rw [Chain.verify, Chain.verifyFrom_ok_iff] at hok
  have hplace := (List.cons.inj (List.cons.inj hok).2).1
  have hprev : s.prevReceiptHash = Chain.link "GENESIS" (Chain.covered r) :=
    congrArg (fun p => p.1.1) hplace
  exact Chain.hex_ne_genesis _ (hprev.symm.trans h)

theorem verify_first_ne {r : EffectReceipt} (h : r.prevReceiptHash ≠ "GENESIS") :
    Chain.verify ⟨[r]⟩ ≠ .ok () := by
  intro hok
  rw [Chain.verify, Chain.verifyFrom_ok_iff] at hok
  exact h (congrArg (fun p => p.1.1) (List.cons.inj hok).1)

theorem file_appendFails {i n : Nat} {d : Digests} {ledger : Ledger}
    (hi : w.ledgers[i]? = some ledger)
    (hn : n < (Ledger.receiptLine json (ledger.chain.append d).2).length) :
    (w.step json (.appendFails i d (some n))).1.file
      = some (w.file.getD [] ++ (Ledger.receiptLine json (ledger.chain.append d).2).take n) := by
  rw [step, hi]
  dsimp only
  rw [if_pos hn]

theorem take_receiptLine (r : EffectReceipt) :
    (Ledger.receiptLine receiptJson r).take 1 = Utf8.encode ['\x7b']
      ∧ 1 < (Ledger.receiptLine receiptJson r).length := by
  have hline : ∃ rest, Ledger.receiptLine receiptJson r
      = Utf8.encode ['\x7b'] ++ (Utf8.encode ['\x22'] ++ Utf8.encode rest) := by
    refine ⟨(Jsonl.line receiptJson r).drop 2, ?_⟩
    rw [← Utf8.encode_append, ← Utf8.encode_append]
    rfl
  obtain ⟨rest, hrest⟩ := hline
  rw [hrest]
  refine ⟨rfl, ?_⟩
  show 1 < (Utf8.encode rest).length + 1 + 1
  omega

/-- **The file does not survive a fork, a failed append that is followed by another, or a torn
line.** -/
theorem ledger_breaks :
    ¬ (run (step receiptJson) fresh forked).Sound receiptJson
      ∧ ¬ (run (step receiptJson) fresh resumed).Sound receiptJson
      ∧ ¬ (run (step receiptJson) fresh torn).Sound receiptJson := by
  have hempty : Jsonl.Holds receiptJson none [] := Jsonl.holds_nil receiptJson
  refine ⟨?_, ?_, ?_⟩
  · have hfile : (run (step receiptJson) fresh forked).file
        = some ((some ((none : Option (List UInt8)).getD []
          ++ Utf8.encode (Jsonl.line receiptJson firstReceipt))).getD []
          ++ Utf8.encode (Jsonl.line receiptJson firstReceipt)) := rfl
    have hholds := (hempty.concat firstReceipt).concat firstReceipt
    rw [← hfile] at hholds
    exact not_sound_of_holds hholds (verify_second_ne rfl)
  · have hholds : Jsonl.Holds receiptJson (run (step receiptJson) fresh resumed).file
        [Chain.receiptAfter firstReceipt.chainHash Chain.sampleDigests] := hempty.concat _
    exact not_sound_of_holds hholds (verify_first_ne (Chain.hex_ne_genesis _))
  · intro hsound
    have hread : Jsonl.read receiptJson Jsonl.blank (some (Utf8.encode ['\x7b'])) = none := by
      have h := Jsonl.read_text_append (Jsonl.blank_toText receiptJson) []
        (by decide : '\n' ∉ ['\x7b'])
      exact h
    have hfile : (run (step receiptJson) fresh torn).file = some (Utf8.encode ['\x7b']) := by
      have hline := take_receiptLine firstReceipt
      rw [torn, run_cons, run_cons, run_nil]
      have hi : (step receiptJson fresh .openFile).1.ledgers[0]? = some ⟨⟨[]⟩⟩ := rfl
      rw [file_appendFails hi hline.2]
      exact congrArg some hline.1
    have hopen := hsound.1
    rw [hfile, Ledger.openFile, hread] at hopen
    cases hopen

end LedgerWorld

end Effects

end Modbit
