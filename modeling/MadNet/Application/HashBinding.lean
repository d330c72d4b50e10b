import MadNet.Application.Apply

/-!
# What `ValidateTxHash` has checked

A transaction in memory remembers its hash and the preHashes of its outputs. `ValidateTxHash` takes
a hash that is remembered for one that has been checked, so it matters what has been asked before.
-/

namespace MadNet.App

open Prog List
open Function (update comp_def)

variable {ι : Type} [DecidableEq ι]

/-- The calls that only read a transaction. -/
inductive Read where
  | txHash
  | preHash (idx : Nat)
  | utxoID (idx : Nat)
  | other
  deriving DecidableEq

/-- A transaction in memory, with the preHashes that its ValueStores and AtomicSwaps remember. -/
structure Held (ι : Type) where
  tx : Tx ι
  preHash : Nat → Option ι

/-- The ways into the pool and into a block. -/
inductive Path (ι : Type) where
  | validate (opset : List ι) (currentHeight : Nat) (consumedUTXOs : List (Option (TXOut ι)))
      (storage : Storage)
  | preValidatePending (chainID : Nat)

/-- All parts hold this hash. -/
def Tx.Embeds (tx : Tx ι) (txHash : ι) : Prop :=
  (∀ txIn ∈ tx.vin, txIn.txHash = txHash) ∧ ∀ out ∈ tx.vout, out.txHash = txHash

/-- All parts hold the hash of the transaction. -/
def Tx.Bound (S : Scheme ι) (tx : Tx ι) : Prop :=
  ∃ txHash, tx.computeTxHash S = .ok txHash ∧ tx.Embeds txHash

namespace Held

variable (S : Scheme ι) (h : Held ι)

def decoded (tx : Tx ι) : Held ι where
  tx := tx.stored
  preHash _ := none

/-- `PreHash` of the output at `idx`. -/
def preHashAt (idx : Nat) (out : TXOut ι) : ι := (h.preHash idx).getD (out.preHash S)

/-- What the output at `idx` remembers when it has been asked; a DataStore computes its preHash
anew. -/
def remember (idx : Nat) : TXOut ι → Option ι
  | .dataStore _ => h.preHash idx
  | out => some (h.preHashAt S idx out)

/-- The preHashes of the outputs once they are numbered. -/
def preHashes : List ι := h.tx.setTxOutIdx.vout.mapIdx (h.preHashAt S)

/-- What `TxHash` computes if there is no hash yet. -/
def computeTxHash : Except Err ι :=
  memoryRoot S (h.tx.vin.map (fun txIn => (txIn.utxoID S, txIn.preHash S)) ++
    (h.preHashes S).mapIdx fun idx hsh => (makeUTXOID S hsh idx, hsh))

/-- The transaction after a call; a `TxHash` that fails has numbered the outputs. -/
def read : Read → Held ι
  | .txHash =>
    match h.tx.txHash with
    | some _ => h
    | none => {
        tx := { h.tx.setTxOutIdx with txHash := (h.computeTxHash S).toOption }
        preHash := fun idx => h.tx.setTxOutIdx.vout[idx]?.bind (h.remember S idx) }
  | .preHash idx => { h with
      preHash := update h.preHash idx (h.tx.vout[idx]?.bind (h.remember S idx)) }
  | .utxoID idx => { h with tx := { h.tx with vout := h.tx.vout.modify idx (·.cacheUTXOID S) } }
  | .other => h

def reads (rs : List Read) : Held ι := rs.foldl (read S) h

def validateTxHash : Except Err Unit :=
  match h.tx.txHash with
  | some _ => .ok ()
  | none => do
    let txHash ← h.computeTxHash S
    check (∀ txIn ∈ h.tx.vin, txIn.txHash = txHash) "validateTxHash: wrong txHash (vin)"
    check (∀ out ∈ h.tx.vout, out.txHash = txHash) "validateTxHash: wrong txHash (vout)"

/-- `Validate`, whose checks before `ValidateTxHash` do not look at the hash, or
`PreValidatePending`. -/
def accept : Path ι → Except Err Unit
  | .validate opset currentHeight consumedUTXOs storage => do
    let _ ← { h.tx with txHash := some S.zero }.validate S opset currentHeight consumedUTXOs storage
    h.validateTxHash S
  | .preValidatePending chainID => do
    check (h.tx.vin ≠ []) "tx.preValidatePending: tx.vin not initialized"
    check (h.tx.vout ≠ []) "tx.preValidatePending: tx.vout not initialized"
    h.tx.validateChainID chainID
    let _ ← h.tx.validateUnique S []
    h.validateTxHash S
    Vout.validatePreSignature S (h.read S .txHash).tx.vout

/-- What is checked besides the hash. -/
def OtherChecks : Path ι → Prop
  | .validate opset currentHeight consumedUTXOs storage =>
    ∃ r, { h.tx with txHash := some S.zero }.validate S opset currentHeight consumedUTXOs
      storage = .ok r
  | .preValidatePending chainID =>
    h.tx.validateChainID chainID = .ok () ∧ (∃ ids, h.tx.validateUnique S [] = .ok ids) ∧
      Vout.validatePreSignature S (h.read S .txHash).tx.vout = .ok ()

/-- All parts hold what `TxHash` would compute from what is remembered. -/
def Carries : Prop := ∃ txHash, h.computeTxHash S = .ok txHash ∧ h.tx.Embeds txHash

/-- The output at `idx` has this number. -/
def InPlace (idx : Nat) : Prop := ∀ out, h.tx.vout[idx]? = some out → out.txOutIdx = idx

variable {S} {h}

omit [DecidableEq ι] in
theorem getElem?_preHashes (idx : Nat) : (h.preHashes S)[idx]? =
    h.tx.vout[idx]?.map fun out => h.preHashAt S idx (out.setTxOutIdx idx) := by
  simp [preHashes, Tx.setTxOutIdx, Vout.setTxOutIdx, comp_def]

omit [DecidableEq ι] in
theorem getD_remember (idx : Nat) (out : TXOut ι) :
    (h.remember S idx out).getD (out.preHash S) = (h.preHash idx).getD (out.preHash S) := by
  cases out <;> rfl

/-! ## One call -/

theorem vin_read (r : Read) : (h.read S r).tx.vin = h.tx.vin := by
  cases r with
  | txHash =>
    rw [read]
    split <;> rfl
  | preHash | utxoID | other => rfl

theorem getElem?_read (r : Read) (idx : Nat) : ∃ f : TXOut ι → TXOut ι,
    (h.read S r).tx.vout[idx]? = h.tx.vout[idx]?.map f ∧
      ∀ out, (f out).txHash = out.txHash ∧
      ((f out).txOutIdx = out.txOutIdx ∨ (f out).txOutIdx = idx) := by
  cases r with
  | txHash =>
    rw [read]
    split
    · exact ⟨id, by simp, fun out => ⟨rfl, .inl rfl⟩⟩
    · refine ⟨(·.setTxOutIdx
        idx), by simp [Tx.setTxOutIdx, Vout.setTxOutIdx], fun out => ⟨by simp, .inr ?_⟩⟩
      cases out <;> rfl
  | utxoID j =>
    refine ⟨fun out => if j = idx then out.cacheUTXOID S
      else out, by simp [read, getElem?_modify], ?_⟩
    intro out
    split <;> simp
  | preHash | other => exact ⟨id, by simp [read], fun out => ⟨rfl, .inl rfl⟩⟩

theorem embeds_read (r : Read) (txHash : ι) : (h.read S r).tx.Embeds txHash ↔
    h.tx.Embeds txHash := by
  have hmap : (h.read S r).tx.vout.map TXOut.txHash = h.tx.vout.map TXOut.txHash := by
    refine ext_getElem? fun idx => ?_
    obtain ⟨f, hf, hkeep⟩ := getElem?_read (S := S) (h := h) r idx
    simp [hf, hkeep, comp_def]
  have houts (l : List (TXOut ι)) : (∀ out ∈ l, out.txHash = txHash) ↔ ∀ x ∈ l.map TXOut.txHash,
    x = txHash := by
    simp
  rw [Tx.Embeds, Tx.Embeds, vin_read, houts, houts, hmap]

theorem InPlace.read {idx : Nat} (hidx : h.InPlace idx) (r : Read) : (h.read S r).InPlace idx := by
  obtain ⟨f, hf, hkeep⟩ := getElem?_read (S := S) (h := h) r idx
  intro out' hout'
  rw [hf] at hout'
  obtain ⟨out, hout, rfl⟩ := Option.map_eq_some_iff.mp hout'
  rcases (hkeep out).2 with hout' | hout'
  · exact hout'.trans (hidx out hout)
  · exact hout'

/-- The hash does not change, unless an output with a wrong number is asked for its preHash. -/
theorem computeTxHash_read {r : Read} (hr : ∀ idx, r = .preHash idx → h.InPlace idx) :
    (h.read S r).computeTxHash S = h.computeTxHash S := by
  have hpre : (h.read S r).preHashes S = h.preHashes S := by
    refine ext_getElem? fun idx => ?_
    rw [getElem?_preHashes, getElem?_preHashes]
    cases r with
    | txHash =>
      rw [read]
      split
      · rfl
      · cases hout : h.tx.vout[idx]? with
        | none => simp [Tx.setTxOutIdx, Vout.setTxOutIdx, hout]
        | some out =>
          have htwice : (out.setTxOutIdx idx).setTxOutIdx idx =
            out.setTxOutIdx idx := by cases out <;> rfl
          simp [Tx.setTxOutIdx, Vout.setTxOutIdx, hout, preHashAt, getD_remember, htwice]
    | preHash j =>
      obtain rfl | hj := eq_or_ne j idx
      · cases hout : h.tx.vout[j]? with
        | none => simp [read, hout]
        | some out =>
          have hself : out.setTxOutIdx j = out := by
            rw [← hr j rfl out hout]
            cases out <;> rfl
          simp [read, hout, preHashAt, getD_remember, hself]
      · simp [read, preHashAt, hj.symm]
    | utxoID j =>
      simp only [read, getElem?_modify]
      cases h.tx.vout[idx]? with
      | none => rfl
      | some out => cases out <;> by_cases hj : j = idx <;> simp [hj, preHashAt] <;> rfl
    | other => rfl
  rw [computeTxHash, computeTxHash, hpre, vin_read]

/-! ## A sequence of calls -/

theorem embeds_reads (rs : List Read) (txHash : ι) :
    (h.reads S rs).tx.Embeds txHash ↔ h.tx.Embeds txHash := by
  induction rs generalizing h with
  | nil => rfl
  | cons r rs ih => exact ih.trans (embeds_read r txHash)

theorem computeTxHash_reads {rs : List Read} (hrs : ∀ idx, .preHash idx ∈ rs → h.InPlace idx) :
    (h.reads S rs).computeTxHash S = h.computeTxHash S := by
  induction rs generalizing h with
  | nil => rfl
  | cons r rs ih =>
    refine (ih fun idx hidx => (hrs idx (.tail _ hidx)).read r).trans
      (computeTxHash_read fun idx hr => ?_)
    exact hrs idx (hr ▸ .head _)

/-! ## What is accepted -/

theorem validateTxHash_eq_ok : h.validateTxHash S = .ok () ↔ h.tx.txHash.isSome ∨ h.Carries S := by
  rw [validateTxHash]
  cases h.tx.txHash with
  | some txHash => simp
  | none =>
    simp only [bind_eq_ok, check_eq_ok, exists_and_left, Option.isSome_none,
      Bool.false_eq_true, false_or]
    constructor
    · rintro ⟨txHash, hcompute, hvin, _, hvout⟩
      exact ⟨txHash, hcompute, hvin, hvout⟩
    · rintro ⟨txHash, hcompute, hvin, hvout⟩
      exact ⟨txHash, hcompute, hvin, (), hvout⟩

theorem accept_eq_ok {path : Path ι} :
    h.accept S path = .ok () ↔ h.OtherChecks S path ∧ h.validateTxHash S = .ok () := by
  cases path with
  | validate opset currentHeight consumedUTXOs storage =>
    constructor
    · intro hok
      obtain ⟨r, hr, hhash⟩ := bind_ok hok
      exact ⟨⟨r, hr⟩, hhash⟩
    · rintro ⟨⟨r, hr⟩, hhash⟩
      exact bind_eq_ok.mpr ⟨r, hr, hhash⟩
  | preValidatePending chainID =>
    constructor
    · intro hok
      obtain ⟨_, _, -, -, hok⟩ := bind₂_ok hok
      obtain ⟨_, ids, hchain, hids, hok⟩ := bind₂_ok hok
      obtain ⟨_, hhash, hpre⟩ := bind_ok hok
      exact ⟨⟨hchain, ⟨ids, hids⟩, hpre⟩, hhash⟩
    · rintro ⟨⟨hchain, ⟨ids, hids⟩, hpre⟩, hhash⟩
      obtain ⟨_, _, hvin, hvout, -⟩ := bind₂_ok hchain
      refine bind_eq_ok.mpr ⟨(), check_eq_ok.mpr (check_eq_ok.mp hvin),
        bind_eq_ok.mpr ⟨(), check_eq_ok.mpr (check_eq_ok.mp hvout), ?_⟩⟩
      rw [hchain, ok_bind, hids, ok_bind, hhash]
      exact hpre

/-- As long as every call of `TxHash` fails, no hash is remembered. -/
theorem txHash_reads {rs : List Read} (hnone : h.tx.txHash = none)
    (hrs : ∀ rs', rs' ++ [.txHash] <+: rs →
      ∀ txHash, (h.reads S rs').computeTxHash S ≠ .ok txHash) :
    (h.reads S rs).tx.txHash = none := by
  induction rs generalizing h with
  | nil => exact hnone
  | cons r rs ih =>
    refine ih ?_ fun rs' hpre => hrs (r :: rs') ((prefix_cons_inj r).mpr hpre)
    cases r with
    | txHash =>
      have hfails := hrs [] ((prefix_cons_inj _).mpr ⟨_, rfl⟩)
      simp only [read, hnone]
      cases hcompute : h.computeTxHash S with
      | ok txHash => exact absurd hcompute (hfails txHash)
      | error e => rfl
    | preHash | utxoID | other => exact hnone

/-- A transaction that is accepted is bound to its hash, if no call of `TxHash` has succeeded before
and only outputs with the number of their place have been asked for their preHash. -/
theorem bound_of_accept (tx : Tx ι) (rs : List Read) (path : Path ι)
    (hhash : ∀ rs', rs' ++ [.txHash] <+: rs →
      ∀ txHash, ((decoded tx).reads S rs').computeTxHash S ≠ .ok txHash)
    (hpre : ∀ idx, .preHash idx ∈ rs → (decoded tx).InPlace idx)
    (haccept : ((decoded tx).reads S rs).accept S path = .ok ()) : tx.stored.Bound S := by
  have hfresh : (decoded tx).computeTxHash S = tx.stored.computeTxHash S := by
    rw [computeTxHash, preHashes, mapIdx_mapIdx]
    rfl
  have hnone : ((decoded tx).reads S rs).tx.txHash = none := txHash_reads rfl hhash
  rw [accept_eq_ok, validateTxHash_eq_ok, hnone] at haccept
  obtain ⟨txHash, hcompute, hembeds⟩ := haccept.2.resolve_left nofun
  rw [computeTxHash_reads hpre, hfresh] at hcompute
  exact ⟨txHash, hcompute, (embeds_reads rs txHash).mp hembeds⟩

open Storing

/-- A ValueStore, with the number 1 though it is the only output. -/
def misnumbered (txHash : Term) : Tx Term where
  vin := [{ linker := {
    preImage := {
      chainID := 1, consumedTxIdx := maxUint32, consumedTxHash := .atom 7, chainID_ne :=
        Nat.one_ne_zero }
    txHash }, signature := [] }]
  vout := [.valueStore {
    preImage := {
      chainID := 1, value := 1131, txOutIdx := 1, owner, fee := 0
      chainID_ne := Nat.one_ne_zero, value_ne := Nat.succ_ne_zero _ }
    txHash, utxoID := none }]
  fee := 0
  txHash := none

/-- The hash that comes out if the output is asked for its preHash first. -/
def rememberedHash : Term :=
  (((decoded (misnumbered (.atom 0))).read symbolic (.preHash 0)).computeTxHash
    symbolic).toOption.getD
    (.atom 0)

/-- A transaction whose parts do not hold its hash is accepted once it has been asked for its hash,
and so is one whose output has been asked for its preHash before it was numbered. -/
theorem accept_unhashed :
    let refUTXOs := (DepositHandler.newDeposit 1 (Term.atom 7) 1131 owner).toOption
    (((decoded (unhashed 1 rfl)).reads symbolic [.txHash]).accept symbolic
        (.validate [] 1 [refUTXOs] freeStorage) = .ok () ∧
      ¬(unhashed 1 rfl).stored.Bound symbolic) ∧
    ((decoded (misnumbered rememberedHash)).reads symbolic [.preHash 0]).accept symbolic
        (.preValidatePending 1) = .ok () ∧
      ¬(misnumbered rememberedHash).stored.Bound symbolic := by
  have hunbound {tx : Tx Term} {txHash : Term} (hvin : tx.vin.head?.map TXIn.txHash = some txHash)
      (hcompute : (tx.computeTxHash symbolic).toOption ≠ some txHash) : ¬tx.Bound symbolic := by
    rintro ⟨txHash', hcompute', hembeds, -⟩
    obtain ⟨txIn, hmem, rfl⟩ := Option.map_eq_some_iff.mp hvin
    rw [hcompute', hembeds txIn (mem_of_mem_head? hmem)] at hcompute
    exact hcompute rfl
  exact ⟨⟨by decide +kernel, hunbound rfl (by decide +kernel)⟩, by decide +kernel,
    hunbound rfl (by decide +kernel)⟩

/-- The UTXO ID and the preHash of its output, which is in its place, are asked for before. -/
theorem bound_of_accept_loaded : (Storing.tx 1 rfl).stored.Bound symbolic := by
  let refUTXOs := (DepositHandler.newDeposit 1 (Term.atom 7) 1131 owner).toOption
  refine bound_of_accept (Storing.tx 1 rfl) [.utxoID 0, .preHash 0, .other]
    (.validate [] 1 [refUTXOs] freeStorage) (fun rs' hpre => ?_) ?_ (by decide +kernel)
  · have hmem : Read.txHash ∈ _ := hpre.subset (mem_append_right rs' (mem_singleton_self _))
    exact absurd hmem (by decide)
  · intro idx hidx out hout
    obtain rfl : idx = 0 := by simpa using hidx
    obtain rfl := Option.some.inj hout
    rfl

end Held

end MadNet.App
