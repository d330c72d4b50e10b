import MadNet.Application.Apply

/-!
# The inputs of a pending transaction and the objects they consume

`txHandler.IsValid` returns the deposits that are consumed and then the UTXOs, each in the order of
the inputs, and `PostValidatePending` pairs this list with the inputs.
-/

namespace MadNet.App

open Prog List

variable {ι : Type} [DecidableEq ι] (S : Scheme ι)

structure TxHandler (ι : Type) where
  st : State ι
  storage : Storage
  /-- `Contains` of the pool: the hashes that are missing. -/
  contains : List ι → Except Err (List ι)
  /-- `Add` of the pool. -/
  add : List (Tx ι) → Except Err Unit

variable (tm : TxHandler ι) (chainID height : Nat)

def pendingTxAdd (txs : List (Tx ι)) : Except Err Unit := do
  let txs ← TxVec.preValidatePending S txs chainID
  let hashed ← TxVec.txHash S txs
  let missing ← tm.contains (hashed.map (·.1))
  check (missing ≠ []) "txhandler.PendingTxAdd; duplicate"
  let txs := hashed.map (·.2)
  let consumedUTXOs ← txHandlerIsValid S tm.st txs height
  TxVec.postValidatePending S txs height consumedUTXOs tm.storage
  tm.add txs

/-- The deposit or UTXO that an input consumes. -/
def TXIn.object (txIn : TXIn ι) : Option (TXOut ι) :=
  if txIn.isDeposit then (tm.st.deposits.lookup (txIn.utxoID S)).bind Except.toOption
  else tm.st.utxos (txIn.utxoID S)

/-- `signed` holds a valid signature of the owner of what `txIn` consumes. -/
def TXIn.Signs (txIn signed : TXIn ι) : Prop :=
  Vout.validateSignatureOf S height (txIn.object S tm, signed) = .ok ()

def Tx.Signed (tx : Tx ι) : Prop := ∀ txIn ∈ tx.vin, txIn.Signs S tm height txIn

def depositsFirst (vin : List (TXIn ι)) : List (TXIn ι) :=
  vin.filter (·.isDeposit) ++ vin.filter (!·.isDeposit)

/-- The signatures are valid for the objects that are consumed, those of the deposits first. -/
def Tx.PairSigned (tx : Tx ι) : Prop :=
  ∀ p ∈ (depositsFirst tx.vin).zip tx.vin, p.1.Signs S tm height p.2

/-- The checks besides those of the signatures of the inputs; `tx'` is the transaction afterwards.
-/
structure PendingChecked (tx tx' : Tx ι) (consumedUTXOs : List (TXOut ι)) : Prop where
  pre : ∃ tx₀ txHash missing, tx.preValidatePending S chainID = .ok tx₀ ∧
    tx₀.getTxHash S = .ok (txHash, tx') ∧ tm.contains [txHash] = .ok missing ∧ missing ≠ []
  isValid : txHandlerIsValid S tm.st [tx'] height = .ok consumedUTXOs
  equalVinVout : tx'.validateEqualVinVout height (consumedUTXOs.map some) = .ok ()
  fees : tx'.validateFees height (consumedUTXOs.map some) tm.storage = .ok ()
  add : tm.add [tx'] = .ok ()

/-- The other checks pass. -/
def Tx.Remaining (tx : Tx ι) : Prop :=
  ∃ tx' consumedUTXOs, PendingChecked S tm chainID height tx tx' consumedUTXOs

variable {S tm chainID height} {tx tx' : Tx ι}

theorem Tx.vin_preValidatePending (h : tx.preValidatePending S chainID = .ok tx') :
    tx'.vin = tx.vin ∧ tx.vin ≠ [] := by
  obtain ⟨_, _, hvin, -, h⟩ := bind₂_ok h
  obtain ⟨_, _, -, -, h⟩ := bind₂_ok h
  obtain ⟨tx₁, _, hhash, -, h⟩ := bind₂_ok h
  obtain ⟨_, -, h⟩ := bind_ok h
  cases h
  exact ⟨vin_validateTxHash hhash, check_eq_ok.mp hvin⟩

theorem Tx.vin_getTxHash {txHash : ι} (h : tx.getTxHash S = .ok (txHash, tx')) :
    tx'.vin = tx.vin := by
  rw [getTxHash] at h
  split at h
  · cases h
    rfl
  · obtain ⟨_, -, h⟩ := bind_ok h
    cases h
    rfl

omit [DecidableEq ι] in
theorem map_eq_of_forall₂ {α β γ : Type} {R : α → β → Prop} {f : α → γ} {g : β → γ}
    {xs : List α} {ys : List β}
    (h : Forall₂ R xs ys) (hR : ∀ x ∈ xs, ∀ y, R x y → f x = g y) : xs.map f = ys.map g := by
  induction h with
  | nil => rfl
  | cons hxy _ ih =>
    rw [map_cons, map_cons, hR _ mem_cons_self _ hxy, ih fun x hx => hR x (mem_cons_of_mem _ hx)]

theorem map_some_filterMap {α β : Type} {f : α → Option β} {xs : List α}
    (h : ∀ x ∈ xs, (f x).isSome) :
    (xs.filterMap f).map some = xs.map f := by
  induction xs with
  | nil => rfl
  | cons x xs ih =>
    obtain ⟨y, hy⟩ := Option.isSome_iff_exists.mp (h x mem_cons_self)
    rw [filterMap_cons_some hy, map_cons, map_cons, hy, ih fun z hz => h z (mem_cons_of_mem _ hz)]

/-- What `IsValid` returns are the objects of the inputs, those of the deposits first. -/
theorem txHandlerIsValid_ok {consumedUTXOs : List (TXOut ι)}
    (h : txHandlerIsValid S tm.st [tx] height = .ok consumedUTXOs) :
    consumedUTXOs.map some = (depositsFirst tx.vin).map (·.object S tm) := by
  obtain ⟨deposits, consumed, hdeposits, hconsumed, h⟩ := bind₂_ok h
  cases h
  obtain ⟨hvalid, rfl⟩ := UTXOHandler.valid_of_isValid hconsumed
  have hfound : (tx.vin.filter (·.isDeposit)).map (·.object S tm) = deposits.map some := by
    have hall := DepositHandler.isValid_ok hdeposits
    rw [TxVec.consumedUTXOIDOnlyDeposits, flatMap_singleton, Tx.consumedDeposits,
      forall₂_map_left_iff] at hall
    refine map_eq_of_forall₂ hall fun txIn hmem utxo h => ?_
    rw [TXIn.object, if_pos (mem_filter.mp hmem).2, h.1]
    rfl
  have hutxos : (UTXOHandler.getFound tm.st (TxVec.consumedUTXOIDNoDeposits S [tx])).map some =
      (tx.vin.filter (!·.isDeposit)).map (·.object S tm) := by
    rw [UTXOHandler.getFound, map_some_filterMap hvalid.stored, TxVec.consumedUTXOIDNoDeposits,
      flatMap_singleton,
      Tx.consumedNoDeposits, map_map]
    refine map_congr_left fun txIn hmem => ?_
    rw [TXIn.object, if_neg (by simpa using (mem_filter.mp hmem).2)]
    rfl
  rw [map_append, ← hfound, hutxos, depositsFirst, map_append]

theorem mapM_singleton_eq_ok {α β : Type} {f : α → Except Err β} {x : α} {ys : List β} :
    [x].mapM f = .ok ys ↔ ∃ y, f x = .ok y ∧ [y] = ys := by
  simp [mapM_cons, bind_eq_ok, pure, Except.pure]

theorem forM_singleton_eq {α : Type} {f : α → Except Err Unit} {x : α} : [x].forM f = f x := by
  simp [List.forM]

theorem PendingChecked.vin_eq {consumedUTXOs : List (TXOut ι)}
    (h : PendingChecked S tm chainID height tx tx' consumedUTXOs) : tx'.vin = tx.vin ∧
      tx.vin ≠ [] := by
  obtain ⟨tx₀, txHash, missing, hpre, hhash, -, -⟩ := h.pre
  rw [Tx.vin_getTxHash hhash]
  exact Tx.vin_preValidatePending hpre

theorem PendingChecked.validateSignature_eq_ok {consumedUTXOs : List (TXOut ι)}
    (h : PendingChecked S tm chainID height tx tx' consumedUTXOs) :
    tx'.validateSignature S height (consumedUTXOs.map some) = .ok () ↔ tx.PairSigned S
      tm height := by
  obtain ⟨heq, hvin⟩ := h.vin_eq
  rw [txHandlerIsValid_ok h.isValid, heq]
  have hlen : tx.vin.length = (depositsFirst tx.vin).length := by
    rw [depositsFirst, length_append]
    exact length_eq_length_filter_add _
  have hforM : tx'.validateSignature S height ((depositsFirst tx.vin).map (·.object S tm)) =
      (((depositsFirst tx.vin).map (·.object S tm)).zip tx.vin).forM
      (Vout.validateSignatureOf S height) := by
    simp [Tx.validateSignature, Vout.validateSignature, check, heq, hvin, hlen, ok_bind]
  rw [hforM, forM_eq_ok_iff, zip_map_left, forall_mem_map]
  rfl

theorem pendingTxAdd_eq_ok : pendingTxAdd S tm chainID height [tx] = .ok () ↔
    tx.Remaining S tm chainID height ∧ tx.PairSigned S tm height := by
  simp only [pendingTxAdd, TxVec.preValidatePending, TxVec.txHash, TxVec.postValidatePending,
    Tx.postValidatePending,
    forM_singleton_eq, bind_eq_ok, check_eq_ok, mapM_singleton_eq_ok, ↓existsAndEq, and_assoc,
    exists_and_left,
    exists_and_right, true_and, map_cons, map_nil, Prod.exists, exists_const]
  constructor
  · rintro ⟨tx₀, hpre, txHash, tx', hhash, missing, hmissing, hne, consumedUTXOs,
      hvalid, -, -, ⟨_, hequal⟩,
      ⟨_, hfees⟩, ⟨_, hsig⟩, hadd⟩
    have hrem : PendingChecked S tm chainID height tx tx' consumedUTXOs :=
      ⟨⟨tx₀, txHash, missing, hpre, hhash, hmissing, hne⟩, hvalid, hequal, hfees, hadd⟩
    exact ⟨⟨tx', consumedUTXOs, hrem⟩, hrem.validateSignature_eq_ok.mp hsig⟩
  · rintro ⟨⟨tx', consumedUTXOs, hrem⟩, hsig⟩
    obtain ⟨tx₀, txHash, missing, hpre, hhash, hmissing, hne⟩ := hrem.pre
    obtain ⟨_, _, hvin, hvout, -⟩ := bind₂_ok hrem.fees
    exact ⟨tx₀, hpre, txHash, tx', hhash, missing, hmissing, hne, consumedUTXOs, hrem.isValid,
      check_eq_ok.mp hvin,
      check_eq_ok.mp hvout, ⟨(), hrem.equalVinVout⟩, ⟨(), hrem.fees⟩,
      ⟨(), hrem.validateSignature_eq_ok.mpr hsig⟩, hrem.add⟩

theorem Tx.signed_iff_pairSigned (h : depositsFirst tx.vin = tx.vin) :
    tx.Signed S tm height ↔ tx.PairSigned S tm height := by
  rw [Tx.PairSigned, h, zip_eq_zipWith, zipWith_self, forall_mem_map]
  rfl

/-- A transaction whose deposits come first is accepted if its inputs are signed for the objects
they consume and the other checks pass, and rejected if some input is not signed for its object; and
so is one that fails another check. -/
theorem pendingTxAdd_pairs (tx : Tx ι)
    (hfirst : depositsFirst tx.vin = tx.vin ∨ ¬tx.Remaining S tm chainID height) :
    (tx.Remaining S tm chainID height → tx.Signed S tm height →
      pendingTxAdd S tm chainID height [tx] = .ok ()) ∧
    (¬tx.Signed S tm height → pendingTxAdd S tm chainID height [tx] ≠ .ok ()) := by
  rw [ne_eq, pendingTxAdd_eq_ok]
  rcases hfirst with hfirst | hfails
  · rw [Tx.signed_iff_pairSigned hfirst]
    exact ⟨fun hrem hsigned => ⟨hrem, hsigned⟩, fun hnot h => hnot h.2⟩
  · exact ⟨fun hrem => absurd hrem hfails, fun _ h => hfails h.1⟩

/-! ## The transactions of a block -/

namespace Pairing

def owner (n : UInt8) : Owner := { curveSpec := .secp256k1, account := replicate 65 n }

def value (n : Nat) (h : n ≠ 0) (owner : Owner) : TXOut Term := .valueStore {
    preImage := {
      chainID := 1, value := n, txOutIdx := 0, owner := owner, fee := 0, chainID_ne :=
        Nat.one_ne_zero, value_ne := h }
    txHash := .atom 8
    utxoID := none }

/-- The trie with the UTXO. -/
def trie : Trie.SMT (Trie.Digest Term) :=
  (updateTrie symbolic .empty [(symbolic.hashIdx (.atom 8) 0, some (.atom 0))]).toOption.getD .empty

def state : State Term := { State.empty with
    currentRoot := some trie.root
    nodes := trie.commit.store.db
    utxos := fun utxoID =>
      if utxoID = symbolic.hashIdx (.atom 8) 0 then some (value 5 (by decide) (owner 1)) else none
    deposits := AList.singleton (.atom 7) (DepositHandler.newDeposit 1 (.atom 7) 10 (owner 2)) }

def input (consumedTxIdx : Nat) (consumedTxHash : Term) (signer : UInt8) : TXIn Term where
  linker := {
    preImage := {
      chainID := 1, consumedTxIdx := consumedTxIdx, consumedTxHash := consumedTxHash, chainID_ne :=
        Nat.one_ne_zero }
    txHash := .atom 0 }
  signature := 1 :: 1 :: replicate 65 signer

/-- The transaction with these inputs, which hold its hash. -/
def spending (vin : List (TXIn Term)) : Tx Term :=
  let tx : Tx Term := {
    vin, vout := [value 15 (by decide) (owner 1)], fee := 0, txHash := none }
  ((tx.setTxHash symbolic).toOption.getD tx).stored

def utxoInput (signer : UInt8) : TXIn Term := input 0 (.atom 8) signer

def depositInput (signer : UInt8) : TXIn Term := input maxUint32 (.atom 7) signer

def handler : TxHandler Term where
  st := state
  storage := Storing.freeStorage
  contains := .ok
  add _ := .ok ()

/-- The root after the transaction. -/
def stateHash (tx : Tx Term) : Root Term :=
  (UTXOHandler.getStateRootForProposal symbolic state [tx]).toOption.join

end Pairing

open Pairing in
/-- A transaction with a UTXO before a deposit is rejected if both are signed by their owners, and
accepted if each is signed by the owner of the other. -/
theorem pendingTxAdd_swapped :
    pendingTxAdd symbolic handler 1 1 [spending [utxoInput 1, depositInput 2]] =
        .error (.invalid "vso.validateSignature; invalid sig for secp256k1 account") ∧
      pendingTxAdd symbolic handler 1 1 [spending [utxoInput 2, depositInput 1]] = .ok () := by
  decide +kernel

open Pairing in
/-- With the deposit first, it is the other way round. -/
theorem pendingTxAdd_deposit_first :
    pendingTxAdd symbolic handler 1 1 [spending [depositInput 2, utxoInput 1]] = .ok () ∧
      pendingTxAdd symbolic handler 1 1 [spending [depositInput 1, utxoInput 2]] ≠ .ok () := by
  have hrem : (spending [depositInput 2, utxoInput 1]).Remaining symbolic handler 1 1 :=
    (pendingTxAdd_eq_ok.mp (by decide +kernel)).1
  have hsigned : (spending [depositInput 2, utxoInput 1]).Signed symbolic handler 1 := by
    unfold Tx.Signed TXIn.Signs
    decide +kernel
  have hnot : ¬(spending [depositInput 1, utxoInput 2]).Signed symbolic handler 1 := by
    unfold Tx.Signed TXIn.Signs
    decide +kernel
  exact ⟨(pendingTxAdd_pairs _ (.inl (by decide +kernel))).1 hrem hsigned,
    (pendingTxAdd_pairs _ (.inl (by decide +kernel))).2 hnot⟩

end MadNet.App
