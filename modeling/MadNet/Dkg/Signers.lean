import MadNet.Dkg.GroupKeys

/-!
# The master public key and the signatures of the group
-/

namespace MadNet.Dkg

open Function (comp_apply comp_def)
open List Prog Nat SecretSharing
open Bridge (GROUP_ORDER)

variable {G₁ G₂ : Type} [AddCommGroup G₁] [AddCommGroup G₂] {C : Curve G₁ G₂}

namespace Curve.Lawful

/-! ## Key shares -/

/-- The response of a proof adds up to what was drawn. -/
theorem response_nsmul (hC : C.Lawful) (w alpha c : Nat) (x : G₁) :
    ((w - alpha * c : Int) % GROUP_ORDER).toNat • x + c • alpha • x = w • x := by
  have hpos : (0 : Int) < GROUP_ORDER := by exact_mod_cast prime_GROUP_ORDER.pos
  have hmod : (((w - alpha * c : Int) % GROUP_ORDER).toNat + alpha * c) % GROUP_ORDER =
    w % GROUP_ORDER := by
    have hnonneg := Int.emod_nonneg (w - alpha * c : Int) hpos.ne'
    zify
    rw [Int.toNat_of_nonneg hnonneg, Int.emod_add_emod, Int.sub_add_cancel]
  rw [← mul_nsmul, ← add_nsmul, ← hC.mod_nsmul, hmod, hC.mod_nsmul]

/-- A proof by the one who knows the discrete logarithm is accepted. -/
theorem verifyDLEQProofG1_generate (hC : C.Lawful) (x₁ x₂ : G₁) (alpha w : Nat) :
    C.verifyDLEQProofG1 x₁ (alpha • x₁) x₂ (alpha • x₂)
      (C.generateDLEQProofG1 x₁ (alpha • x₁) x₂ (alpha • x₂) alpha w) = .ok () := by
  simp only [verifyDLEQProofG1, generateDLEQProofG1, hC.response_nsmul, if_true]

theorem generateKeyShare_eq (hC : C.Lawful) {h1Base : G₁}
    (hbase : C.hashToG1 h1BaseMessage = .ok h1Base) (secretValue w : Nat) :
    C.generateKeyShare secretValue w = .ok (C.marshal₁ (secretValue • h1Base),
      C.generateDLEQProofG1 h1Base (secretValue • h1Base) C.curveGen (secretValue • C.curveGen)
        secretValue w,
      C.marshal₂ (secretValue • C.twistGen)) := by
  have hcheck :=
    (hC.pairingCheck_iff (hC.hashToG1_ne_zero _ _ hbase) secretValue secretValue).mpr rfl
  rw [generateKeyShare, hbase]
  change (if _ then _ else _) = _
  rw [if_pos hcheck, hC.verifyDLEQProofG1_generate]
  rfl

/-! ## The master public key -/

end Curve.Lawful

/-- The multiple of the generator of G₂ is not taken for the point at infinity. -/
def Curve.readable (C : Curve G₁ G₂) (s : Nat) : Bool := (C.marshal₂ (s • C.twistGen)).1 ≠ 0

namespace Curve.Lawful

theorem foldlM_addKeyShares (hC : C.Lawful) (h1Base : G₁) (a b : Nat) (secrets : List Nat) :
    (secrets.map fun s => (C.marshal₁ (s • h1Base), C.marshal₂ (s • C.twistGen))).foldlM
      C.addKeyShares
        (a • h1Base, b • C.twistGen) =
      .ok ((a + secrets.sum) • h1Base, (b + (secrets.filter C.readable).sum) • C.twistGen) := by
  induction secrets generalizing a b with
  | nil => rfl
  | cons s secrets ih =>
    have hstep : C.addKeyShares (a • h1Base, b • C.twistGen)
        (C.marshal₁ (s • h1Base), C.marshal₂ (s • C.twistGen)) =
        .ok ((a + s) • h1Base, (b + if C.readable s then s else 0) • C.twistGen) := by
      rw [addKeyShares, hC.bigIntArrayToG1_marshal₁, hC.bigIntArrayToG2_marshal₂]
      change Except.ok (_ + _, _ + _) = _
      rw [add_nsmul, add_nsmul]
      by_cases hs : (C.marshal₂ (s • C.twistGen)).1 = 0 <;> simp [readable, hs]
    rw [map_cons, foldlM_cons, hstep]
    change foldlM _ _ _ = _
    rw [ih, sum_cons, add_assoc, filter_cons]
    split <;> simp [add_assoc]

/-- The master public key is the sum of the key shares if and only if those that are taken for the
point at infinity add up to it. -/
theorem generateMasterPublicKey_iff (hC : C.Lawful) {h1Base : G₁}
    (hbase : C.hashToG1 h1BaseMessage = .ok h1Base) (secrets : List Nat) :
    C.generateMasterPublicKey (secrets.map fun s => C.marshal₁ (s • h1Base))
        (secrets.map fun s => C.marshal₂ (s • C.twistGen)) =
        .ok (C.marshal₂ (secrets.sum • C.twistGen)) ↔
      (secrets.filter fun s => !C.readable s).sum % GROUP_ORDER = 0 := by
  have hsum : secrets.sum =
      (secrets.filter C.readable).sum + (secrets.filter fun s => !C.readable s).sum := by
    rw [← List.sum_append]
    exact (filter_append_perm C.readable secrets).sum_eq.symm
  have hfold := hC.foldlM_addKeyShares h1Base 0 0 secrets
  simp only [zero_nsmul, zero_add] at hfold
  have hcheck := hC.pairingCheck_iff (hC.hashToG1_ne_zero _ _ hbase) secrets.sum
    (secrets.filter C.readable).sum
  have hmod : secrets.sum % GROUP_ORDER = (secrets.filter C.readable).sum % GROUP_ORDER ↔
      (secrets.filter fun s => !C.readable s).sum % GROUP_ORDER = 0 := by
    rw [hsum, ← dvd_iff_mod_eq_zero]
    exact add_modEq_left_iff
  have hresult : C.generateMasterPublicKey (secrets.map fun s => C.marshal₁ (s • h1Base))
      (secrets.map fun s => C.marshal₂ (s • C.twistGen)) =
      if C.pairingCheck (secrets.sum • h1Base, C.h2Neg)
          (h1Base, (secrets.filter C.readable).sum • C.twistGen) then
        .ok (C.marshal₂ ((secrets.filter C.readable).sum • C.twistGen))
      else .error "invalid pairing for master public key" := by
    rw [generateMasterPublicKey, if_neg (by simp), hbase, zip_map', hfold]
    rfl
  rw [hresult, ← hmod, ← hcheck]
  split
  · rename_i h
    have heq := congrArg (fun p => Except.ok (ε := Err) (C.marshal₂ p))
      (hC.nsmul_congr₂ (hcheck.mp h).symm C.twistGen)
    exact iff_of_true heq h
  · rename_i h
    exact iff_of_false (by simp) h

/-- The master public key of the participants with the polynomials `polys`. -/
theorem masterPublicKey_iff (hC : C.Lawful) {polys : List (List Nat)} {ws : List Nat}
    (hlen : polys.length = ws.length) :
    ∃ keyShares, (polys.zip ws).mapM (fun x => C.generateKeyShare (x.1.headD 0) x.2) =
      .ok keyShares ∧
      (C.generateMasterPublicKey (keyShares.map (·.1)) (keyShares.map (·.2.2)) =
          .ok (C.marshal₂ (groupSecret polys 0 • C.twistGen)) ↔
        ((polys.map (·.headD 0)).filter fun s => !C.readable s).sum % GROUP_ORDER = 0) := by
  obtain ⟨h1Base, hbase⟩ := hC.hashToG1_base
  have hsum : groupSecret polys 0 % GROUP_ORDER = (polys.map (·.headD 0)).sum % GROUP_ORDER := by
    rw [groupSecret, mod_mod, map_congr_left fun f _ => eval_zero_left f]
  have hfst : (polys.zip ws).map (fun x => x.1.headD 0) = polys.map (·.headD 0) := by
    conv_rhs => rw [← map_fst_zip hlen.le, map_map]
    rfl
  refine ⟨_, mapM_ok fun x _ => hC.generateKeyShare_eq hbase _ _, ?_⟩
  rw [hC.nsmul_congr₂ hsum, ← hC.generateMasterPublicKey_iff hbase, ← hfst]
  simp only [map_map, comp_def]

end Curve.Lawful

/-! ## Signatures -/

section Interpolation

open Finset

variable {indices : List Nat}

theorem cast_liRjPartialConst (k j : Nat) :
    (liRjPartialConst k j : ZMod GROUP_ORDER) = (k : ZMod GROUP_ORDER) / (k - j) := by
  rw [liRjPartialConst, ZMod.natCast_mod, cast_mul, ZMod.natCast_val, ZMod.cast_id', id,
    div_eq_mul_inv]
  push_cast
  rfl

theorem cast_foldl_liRj (j r : Nat) (indices : List Nat) :
    ((indices.foldl (fun rj k => if j = k then rj else rj * liRjPartialConst k j % GROUP_ORDER) r :
        Nat) : ZMod GROUP_ORDER) =
      r * ((indices.filter (· ≠ j)).map fun k : Nat => (k : ZMod GROUP_ORDER) / (k - j)).prod := by
  induction indices generalizing r with
  | nil => simp
  | cons k indices ih =>
    rw [foldl_cons, ih]
    by_cases hk : j = k
    · simp [hk]
    · rw [if_neg hk, ZMod.natCast_mod, cast_mul, cast_liRjPartialConst,
        List.filter_cons_of_pos (by simpa using Ne.symm hk), List.map_cons,
        List.prod_cons, mul_assoc]

/-- The constants are the weights of Lagrange's interpolation. -/
theorem cast_liRj (hnodup : indices.Nodup) (j : Nat) : (liRj indices j : ZMod GROUP_ORDER) =
      weight indices.toFinset (Nat.cast : Nat → ZMod GROUP_ORDER) j := by
  rw [liRj, cast_foldl_liRj, Nat.cast_one, one_mul, weight,
    ← prod_toFinset _ (hnodup.filter _), toFinset_filter]
  congr 1
  ext k
  simp [and_comm]

theorem injOn_natCast (hlt : ∀ j ∈ indices, j < GROUP_ORDER) :
    Set.InjOn (Nat.cast : Nat → ZMod GROUP_ORDER) indices.toFinset := by
  intro j hj k hk h
  rw [ZMod.natCast_eq_natCast_iff', Nat.mod_eq_of_lt (hlt j (by simpa using hj)),
    mod_eq_of_lt (hlt k (by simpa using hk))] at h
  exact h

theorem cast_eval (j : Nat) (f : List Nat) : ((eval j f : Nat) : ZMod GROUP_ORDER) =
      eval (j : ZMod GROUP_ORDER) (f.map (Nat.cast : Nat → ZMod GROUP_ORDER)) := by
  induction f with
  | nil => simp
  | cons c f ih => simp [ih]

theorem cast_groupSecret (polys : List (List Nat)) (j : Nat) :
    (groupSecret polys j : ZMod GROUP_ORDER) = (polys.map fun f =>
      eval (j : ZMod GROUP_ORDER) (f.map (Nat.cast : Nat → ZMod GROUP_ORDER))).sum := by
  rw [groupSecret, ZMod.natCast_mod, Nat.cast_list_sum, List.map_map]
  simp only [comp_def, cast_eval]

/-- As many values of the sum of the polynomials as there are coefficients determine the sum of
their constant terms. -/
theorem sum_liRj_mul_groupSecret {polys : List (List Nat)} (hnodup : indices.Nodup)
    (hlt : ∀ j ∈ indices, j < GROUP_ORDER) (hlen : ∀ f ∈ polys, f.length ≤ indices.length) :
    (indices.map fun j => liRj indices j * groupSecret polys j).sum % GROUP_ORDER =
      groupSecret polys 0 % GROUP_ORDER := by
  rw [← ZMod.natCast_eq_natCast_iff', cast_list_sum, List.map_map, ← List.sum_toFinset _ hnodup]
  simp only [comp_def, cast_mul, cast_liRj hnodup, cast_groupSecret]
  induction polys with
  | nil => simp
  | cons f polys ih =>
    have hf : (f.map (Nat.cast : Nat → ZMod GROUP_ORDER)).length ≤ indices.toFinset.card := by
      rw [length_map, toFinset_card_of_nodup hnodup]
      exact hlen f (by simp)
    simp only [List.map_cons, List.sum_cons, mul_add, sum_add_distrib]
    rw [sum_weight_mul_eval (injOn_natCast hlt) hf, cast_zero,
      ih fun g hg => hlen g (by simp [hg]), cast_zero]

end Interpolation

theorem zip_take_map {α β : Type} (g : α → β) (m : Nat) (xs : List α) :
    (xs.take m).zip (xs.map g) = (xs.take m).map fun x => (x, g x) := by
  induction xs generalizing m with
  | nil => simp
  | cons x xs ih =>
    cases m with
    | zero => rfl
    | succ m => simp [ih]

/-- Only the first of the shares count, each with its constant. -/
theorem aggregateSignatures_eq {indices : List Nat} {threshold : Nat} (share : Nat → G₁)
    (hmany : threshold < indices.length) :
    let used := indices.take (threshold + 1)
    aggregateSignatures (indices.map share) indices threshold =
      .ok (used.map fun j => liRj used j • share j).sum := by
  intro used
  rw [aggregateSignatures, if_neg (by simp), if_neg (by simpa using hmany), lagrangeInterpolationG1,
    if_neg (by simp)]
  have hfold :=
    foldl_add_map (fun x : Nat × G₁ => liRj used x.1 • x.2) 0 (used.map fun j => (j, share j))
  rw [zero_add, map_map] at hfold
  simp only [zip_take_map]
  exact congrArg Except.ok hfold

/-- The signatures of more than `threshold` of the participants aggregate to the one of the group.
-/
theorem Curve.Lawful.aggregateSignatures_verify (hC : C.Lawful) {polys : List (List Nat)}
    {threshold : Nat}
    {indices : List Nat} {msg : List UInt8} {sigs : List G₁}
    (hlen : ∀ f ∈ polys, f.length = threshold + 1)
    (hnodup : indices.Nodup) (hlt : ∀ j ∈ indices, j < GROUP_ORDER)
    (hmany : threshold < indices.length)
    (hsigs : indices.mapM (fun j => C.sign msg (groupSecret polys j)) = .ok sigs) :
    ∃ sig, aggregateSignatures sigs indices threshold = .ok sig ∧
      C.verify msg sig (groupSecret polys 0 • C.twistGen) = .ok true := by
  obtain ⟨j0, hj0⟩ := exists_mem_of_length_pos (zero_lt_of_lt hmany)
  obtain ⟨sig0, -, hsig0⟩ := exists_of_mem_left (mapM_eq_ok hsigs) hj0
  obtain ⟨hash, hhash, -⟩ := bind_ok hsig0
  have hmapM : indices.mapM (fun j => C.sign msg (groupSecret polys j)) =
      .ok (indices.map fun j => groupSecret polys j • hash) := by
    apply mapM_ok
    intro j _
    rw [sign, hhash]
    rfl
  obtain rfl := Except.ok.inj (hmapM.symm.trans hsigs)
  let used := indices.take (threshold + 1)
  let sum := (used.map fun j => liRj used j * groupSecret polys j).sum
  have hused : used.length = threshold + 1 := by simp [used]; omega
  have hsum : sum % GROUP_ORDER = groupSecret polys 0 % GROUP_ORDER := by
    apply sum_liRj_mul_groupSecret (hnodup.sublist (take_sublist _ _))
    · intro j hj
      exact hlt j (mem_of_mem_take hj)
    · intro f hf
      rw [hused, hlen f hf]
  refine ⟨sum • hash, ?_, ?_⟩
  · rw [aggregateSignatures_eq (fun j => groupSecret polys j • hash) hmany]
    simp only [← mul_nsmul', sum]
    rw [sum_smul, map_map]
    rfl
  · have hcheck := (hC.pairingCheck_iff (hC.hashToG1_ne_zero _ _ hhash) sum _).mpr hsum
    rw [hC.h2Neg_eq] at hcheck
    simp only [verify, hhash, hcheck]

/-! ### Shares of one polynomial -/

section Shares

/-- What participant `j` has of a secret, times a point: its share of a signature, or its public
key. -/
def share {G : Type} [AddCommGroup G] (f : List (ZMod GROUP_ORDER)) (point : G) (j : Nat) : G :=
  (eval (j : ZMod GROUP_ORDER) f).val • point

variable {f : List (ZMod GROUP_ORDER)} {indices : List Nat} {H : G₁} {h2 : G₂} {n : Nat}

/-- The first shares of a polynomial with no more coefficients give the secret. -/
theorem sum_liRj_nsmul_share (hH : GROUP_ORDER • H = 0) (hnodup : indices.Nodup)
    (hlt : ∀ j ∈ indices, j < GROUP_ORDER) (hlen : f.length ≤ indices.length) :
    (indices.map fun j => liRj indices j • share f H j).sum = share f H 0 := by
  have hcard : f.length ≤ indices.toFinset.card := by rwa [toFinset_card_of_nodup hnodup]
  have hsum : (indices.map fun j => liRj indices j • share f H j).sum =
      (indices.map fun j : Nat => liRj indices j * (eval (j : ZMod GROUP_ORDER) f).val).sum •
      H := by
    simp only [share, ← mul_nsmul']
    rw [sum_smul, map_map]
    rfl
  rw [hsum]
  refine nsmul_eq_nsmul_of_modEq ((ZMod.natCast_eq_natCast_iff ..).mp ?_) hH
  rw [cast_list_sum, map_map, ← sum_toFinset _ hnodup]
  simp only [comp_def, Nat.cast_mul, cast_liRj hnodup, ZMod.natCast_val, ZMod.cast_id', id]
  rw [sum_weight_mul_eval (injOn_natCast hlt) hcard, Nat.cast_zero]

theorem share_eq_iff (hh2 : addOrderOf h2 = GROUP_ORDER) {i j : Nat} :
    share f h2 i = share f h2 j ↔ eval (i : ZMod GROUP_ORDER) f = eval (j : ZMod GROUP_ORDER)
      f := by
  rw [share, share, nsmul_eq_nsmul_iff_modEq, hh2, Nat.ModEq, mod_eq_of_lt (ZMod.val_lt _),
    mod_eq_of_lt (ZMod.val_lt _)]
  exact (ZMod.val_injective GROUP_ORDER).eq_iff

theorem findPubKIndex_ok {K : Type} [DecidableEq K] {pubK : K} {pubKs : List K}
    (hmem : pubK ∈ pubKs) :
    ∃ i, findPubKIndex pubK pubKs = .ok i ∧ pubKs[i]? = some pubK := by
  have hlt : pubKs.findIdx (· = pubK) < pubKs.length :=
    List.findIdx_lt_length_of_exists ⟨pubK, hmem, decide_eq_true rfl⟩
  refine ⟨_, ?_, List.getElem?_eq_some_iff.mpr ⟨hlt, ?_⟩⟩
  · rw [findPubKIndex, List.findIdx?_eq_some_iff_findIdx_eq.mpr ⟨hlt, rfl⟩]
  · exact of_decide_eq_true (List.findIdx_getElem (w := hlt))

/-- The index found for a participant is that of a participant with its key. -/
theorem makeIndicesArray_map {K : Type} [DecidableEq K] (key : Nat → K) {js : List Nat}
    (hjs : ∀ j ∈ js, 1 ≤ j ∧ j ≤ n) :
    ∃ first : Nat → Nat, makeIndicesArray (js.map key) ((range' 1 n).map key) = .ok (js.map first) ∧
      ∀ j ∈ js, first j ≤ n ∧ key (first j) = key j := by
  have hfound : ∀ j, ∃ i, j ∈ js → findPubKIndex (key j) ((range' 1 n).map key) = .ok i ∧
      i + 1 ≤ n ∧ key (i + 1) = key j := by
    intro j
    by_cases hj : j ∈ js
    · have hrange := hjs j hj
      have hmem : key j ∈ (range' 1 n).map key := mem_map_of_mem (mem_range'_1.mpr (by omega))
      obtain ⟨i, hi, hkey⟩ := findPubKIndex_ok hmem
      rw [getElem?_map, Option.map_eq_some_iff] at hkey
      obtain ⟨k, hk, hkey⟩ := hkey
      obtain ⟨hlt, rfl⟩ := List.getElem?_eq_some_iff.mp hk
      rw [List.getElem_range', one_mul, add_comm] at hkey
      exact ⟨i, fun _ => ⟨hi, by simpa using hlt, hkey⟩⟩
    · exact ⟨0, fun h => absurd h hj⟩
  choose index hindex using hfound
  refine ⟨fun j => index j + 1, ?_, fun j hj => (hindex j hj).2⟩
  rw [makeIndicesArray, mapM_map]
  apply mapM_ok
  intro j hj
  rw [comp_apply, (hindex j hj).1]
  rfl

/-- Distinct participants of the list, as their public keys tell them apart, that sign with their
shares of one polynomial, give its signature. -/
theorem aggregateSignatures_shares [DecidableEq G₂] {js : List Nat} (hH : GROUP_ORDER • H = 0)
    (hh2 : addOrderOf h2 = GROUP_ORDER) (hn : n < GROUP_ORDER) (hf : f.length ≤ calcThreshold n + 1)
    (hjs : ∀ j ∈ js, 1 ≤ j ∧ j ≤ n) (hmany : calcThreshold n < js.length)
    (hdistinct : ((js.take (calcThreshold n + 1)).map (share f h2)).Nodup) :
    (do let indices ← makeIndicesArray (js.map (share f h2)) ((List.range' 1 n).map (share f h2))
        aggregateSignatures (js.map (share f H)) indices (calcThreshold n)) =
        .ok (share f H 0) := by
  obtain ⟨first, hmake, hfirst⟩ := makeIndicesArray_map (share f h2) hjs
  have hsigs : js.map (share f H) = (js.map first).map (share f H) := by
    rw [map_map]
    refine map_congr_left fun j hj => ?_
    have heval := (share_eq_iff hh2).mp (hfirst j hj).2
    rw [comp_apply, share, share, heval]
  have hnodup : ((js.map first).take (calcThreshold n + 1)).Nodup := by
    have hmap : (js.take (calcThreshold n + 1)).map (share f h2 ∘ first) =
        (js.take (calcThreshold n + 1)).map (share f h2) :=
      map_congr_left fun j hj => (hfirst j (mem_of_mem_take hj)).2
    refine List.Nodup.of_map (share f h2) ?_
    rwa [← map_take, map_map, hmap]
  rw [hmake, ok_bind, hsigs, aggregateSignatures_eq _ (by simpa using hmany)]
  refine congrArg _ (sum_liRj_nsmul_share hH hnodup ?_ ?_)
  · intro i hi
    obtain ⟨j, hj, rfl⟩ := mem_map.mp (mem_of_mem_take hi)
    exact (hfirst j hj).1.trans_lt hn
  · simp only [length_take, length_map]
    omega

theorem aggregateSignatures_shares_line :
    (do let indices ← makeIndicesArray ([3, 1, 4].map (share [5, 1] (1 : ZMod GROUP_ORDER)))
          ((List.range' 1 4).map (share [5, 1] 1))
        aggregateSignatures ([3, 1, 4].map (share [5, 1] (2 : ZMod GROUP_ORDER))) indices
          (calcThreshold 4)) = .ok (share [5, 1] 2 0) :=
  aggregateSignatures_shares (by rw [nsmul_eq_mul, CharP.cast_eq_zero, zero_mul])
    (ZMod.addOrderOf_one _) (by decide) (by decide) (by decide) (by decide) (by decide)

/-- All participants have one key where the polynomial is constant: each is taken for the first one.
-/
theorem aggregateSignatures_constant :
    let js := [1, 2, 3]
    js.Nodup ∧ (∀ j ∈ js, 1 ≤ j ∧ j ≤ 4) ∧ calcThreshold 4 < js.length ∧
      (do let indices ← makeIndicesArray (js.map (share [1] (1 : ZMod GROUP_ORDER)))
            ((List.range' 1 4).map (share [1] 1))
          aggregateSignatures (js.map (share [1] (1 : ZMod GROUP_ORDER))) indices
            (calcThreshold 4)) ≠
        .ok (share [1] 1 0) := by
  refine ⟨by decide, by decide, by decide, ?_⟩
  decide

end Shares

/-! ## The group public keys -/

/-- The commitments of the participants, as they publish them. -/
abbrev Curve.commitments (C : Curve G₁ G₂) (polys : List (List Nat)) :=
  polys.map fun f => (C.generatePublicCoefs f).map C.marshal₁

/-- The group public key of the participant with the index `j`. -/
abbrev Curve.gpkj (C : Curve G₁ G₂) (polys : List (List Nat)) (j : Nat) :=
  C.marshal₂ (groupSecret polys j • C.twistGen)

namespace Curve.Lawful

theorem addCommitments_eq (hC : C.Lawful) (k : Nat) (polys : List (List Nat)) :
    C.addCommitments k (C.commitments polys) =
      .ok ((polys.map (·.getD k 0)).sum • C.curveGen) := by
  have hread : ∀ f : List Nat, C.bigIntArrayToG1
      (((C.generatePublicCoefs f).map C.marshal₁).getD k (0, 0)) =
      .ok (f.getD k 0 • C.curveGen) := by
    intro f
    rw [getD_eq_getElem?_getD, getD_eq_getElem?_getD, generatePublicCoefs,
      getElem?_map, getElem?_map]
    cases f[k]? with
    | none => simp [bigIntArrayToG1]
    | some c => exact hC.bigIntArrayToG1_marshal₁ _
  have hround : ∀ f ∈ polys, ∀ tmp1 : G₁, (do
      let tmp2 ← wrapErr "error converting BigIntArray to G1: "
        (C.bigIntArrayToG1 (((C.generatePublicCoefs f).map C.marshal₁).getD k (0, 0)))
      return tmp1 + tmp2) = .ok (tmp1 + f.getD k 0 • C.curveGen) := by
    intro f _ tmp1
    rw [hread]
    rfl
  rw [addCommitments, commitments, foldlM_map, foldlM_ok _ _ _ _ hround, foldl_add_map, zero_add,
    sum_smul, map_map]
  rfl

end Curve.Lawful

theorem sum_degrees (j : Nat) {m : Nat} {polys : List (List Nat)}
    (hlen : ∀ f ∈ polys, f.length = m) :
    ((range m).map fun k => j ^ k * (polys.map (·.getD k 0)).sum).sum =
      (polys.map (eval j)).sum := by
  induction polys with
  | nil => simp
  | cons f polys ih =>
    have hf : ((range m).map fun k => j ^ k * f.getD k 0).sum = eval j f := by
      rw [eval_eq_sum, hlen f (by simp), ← toFinset_range, sum_toFinset _ nodup_range]
      rfl
    simp only [map_cons, sum_cons, mul_add, sum_map_add]
    rw [hf, ih fun g hg => hlen g (by simp [hg])]

namespace Curve.Lawful

variable {threshold : Nat} {polys : List (List Nat)}

/-- The point that a group public key is compared with. -/
theorem gpkjStar_eq (hC : C.Lawful) (j : Nat) (hlen : ∀ f ∈ polys, f.length = threshold + 1) :
    C.gpkjStar j threshold (C.commitments polys) =
      .ok ((polys.map (eval j)).sum • C.curveGen) := by
  have hround : ∀ k ∈ range (threshold + 1), ∀ tmp0 : G₁, (do
      let tmp1 ← C.addCommitments k (C.commitments polys)
      return tmp0 + (j ^ k % GROUP_ORDER) • tmp1) =
      .ok (tmp0 + (j ^ k * (polys.map (·.getD k 0)).sum) • C.curveGen) := by
    intro k _ tmp0
    rw [hC.addCommitments_eq, mul_nsmul', ← hC.mod_nsmul (j ^ k)]
    rfl
  rw [gpkjStar, foldlM_ok _ _ _ _ hround, foldl_add_map, zero_add, ← sum_degrees j hlen,
    sum_smul, map_map]
  rfl

/-- What becomes of a participant whose key is not all zeros. -/
theorem categorizeOne_of_ne (hC : C.Lawful) (hlen : ∀ f ∈ polys, f.length = threshold + 1)
    (signers : Signers)
    (p : Participant) (hne : C.gpkj polys p.index ≠ (0, 0, 0, 0)) :
    C.categorizeOne threshold (C.commitments polys) signers
        (p, some (C.gpkj polys p.index)) =
      .ok (if C.readable (groupSecret polys p.index) then
        { signers with good := signers.good ++ [p] } else
        { signers with bad := signers.bad ++ [p] }) := by
  have hstar := hC.gpkjStar_eq p.index hlen
  have hsecret : groupSecret polys p.index % GROUP_ORDER =
      (polys.map (eval p.index)).sum % GROUP_ORDER := mod_mod _ _
  have hcheck : C.pairingCheck ((polys.map (eval p.index)).sum • C.curveGen, C.h2Neg) (C.curveGen,
      if (C.gpkj polys p.index).1 = 0 then 0
      else groupSecret polys p.index • C.twistGen) = C.readable (groupSecret polys p.index) := by
    rw [Bool.eq_iff_iff]
    by_cases hzero : (C.gpkj polys p.index).1 = 0
    · rw [if_pos hzero, ← zero_nsmul C.twistGen, hC.pairingCheck_iff hC.curveGen_ne_zero, ← hsecret]
      refine iff_of_false ?_ (by simp [readable, hzero])
      intro h
      apply hne
      rw [gpkj, hC.nsmul_congr₂ h, zero_nsmul, hC.marshal₂_zero]
    · rw [if_neg hzero, hC.pairingCheck_iff hC.curveGen_ne_zero]
      exact iff_of_true hsecret.symm (by simp [readable, hzero])
  have hg2 := hC.bigIntArrayToG2_marshal₂ (groupSecret polys p.index • C.twistGen)
  have hsome : (some (C.gpkj polys p.index)).filter
      (· ≠ (0, 0, 0, 0)) = some (C.gpkj polys p.index) :=
    Option.filter_some_pos (by simpa using hne)
  rw [categorizeOne, hsome]
  change (wrapErr _ _ >>= _) = _
  rw [hg2]
  change (C.gpkjStar _ _ _ >>= _) = _
  rw [hstar]
  change (if C.pairingCheck _ _ then _ else _) = _
  rw [hcheck]
  split <;> rfl

theorem categorizeOne_of_not_readable (hC : C.Lawful) (hlen : ∀ f ∈ polys, f.length = threshold + 1)
    (signers : Signers) (p : Participant) (hread : ¬C.readable (groupSecret polys p.index) = true) :
    ∃ signers', C.categorizeOne threshold
        (C.commitments polys) signers
        (p, some (C.gpkj polys p.index)) = .ok signers' ∧
      signers'.good = signers.good := by
  by_cases hzero : C.gpkj polys p.index = (0, 0, 0, 0)
  · rw [hzero]
    exact ⟨_, rfl, rfl⟩
  · refine ⟨_, hC.categorizeOne_of_ne hlen signers p hzero, ?_⟩
    rw [if_neg hread]

/-- The participants whose keys can be read are found to be good, and only those. -/
theorem foldlM_categorizeOne (hC : C.Lawful)
    (hlen : ∀ f ∈ polys, f.length = threshold + 1) (signers : Signers) (ps : List Participant) :
    ∃ signers',
      (ps.map fun p => (p, some (C.gpkj polys p.index))).foldlM
        (C.categorizeOne threshold (C.commitments polys))
        signers = .ok signers' ∧
      signers'.good = signers.good ++ ps.filter (fun p => C.readable (groupSecret polys p.index)) ∧
      ((∀ p ∈ ps, C.readable (groupSecret polys p.index)) →
        signers'.bad = signers.bad ∧ signers'.missing = signers.missing) := by
  induction ps generalizing signers with
  | nil => exact ⟨signers, rfl, by simp, fun _ => ⟨rfl, rfl⟩⟩
  | cons p ps ih =>
    by_cases hread : C.readable (groupSecret polys p.index) = true
    · have hne : C.gpkj polys p.index ≠ (0, 0, 0, 0) := by
        intro h
        simp [readable, h] at hread
      have hone := hC.categorizeOne_of_ne hlen signers p hne
      rw [if_pos hread] at hone
      obtain ⟨signers', hfold, hgood, hrest⟩ := ih { signers with good := signers.good ++ [p] }
      refine ⟨signers', ?_, ?_, fun hall => hrest fun q hq => hall q (by simp [hq])⟩
      · rw [map_cons, foldlM_cons, hone]
        exact hfold
      · rw [hgood, filter_cons, if_pos hread, append_assoc]
        rfl
    · obtain ⟨signers1, hone, hgood1⟩ := hC.categorizeOne_of_not_readable hlen signers p hread
      obtain ⟨signers', hfold, hgood, -⟩ := ih signers1
      refine ⟨signers', ?_, ?_, fun hall => absurd (hall p (by simp)) hread⟩
      · rw [map_cons, foldlM_cons, hone]
        exact hfold
      · rw [hgood, hgood1, filter_cons, if_neg hread]

theorem categorizeGroupSigners_iff (hC : C.Lawful) {ps : List Participant}
    (hpolys : Polynomials ps.length polys) :
    C.categorizeGroupSigners
        (ps.map fun p => some (C.gpkj polys p.index)) ps
        (C.commitments polys) =
        .ok { good := ps, bad := [], missing := [] } ↔
      ∀ p ∈ ps, C.readable (groupSecret polys p.index) = true := by
  have hfind : (C.commitments polys).find?
      (·.length ≠ thresholdForUserCount ps.length + 1) = none := by
    rw [find?_eq_none]
    intro c hc
    obtain ⟨f, hf, rfl⟩ := mem_map.mp hc
    simpa [generatePublicCoefs] using hpolys.length_of_mem f hf
  obtain ⟨signers, hfold, hgood, hrest⟩ := hC.foldlM_categorizeOne hpolys.length_of_mem
    { good := [], bad := [], missing := [] } ps
  have hzip : ps.zip (ps.map fun p => some (C.gpkj polys p.index)) =
      ps.map fun p => (p, some (C.gpkj polys p.index)) := by
    simpa using zip_take_map
      (fun p => some (C.gpkj polys p.index)) ps.length ps
  simp only [categorizeGroupSigners]
  rw [if_neg (by simp [hpolys.length_eq]), hfind, hzip]
  change foldlM (C.categorizeOne _ _) _ _ = _ ↔ _
  rw [hfold]
  constructor
  · intro h
    cases h
    exact filter_eq_self.mp hgood.symm
  · intro hall
    obtain ⟨good, bad, missing⟩ := signers
    obtain ⟨rfl, rfl⟩ := hrest hall
    obtain rfl := hgood.trans (filter_eq_self.mpr hall)
    rfl

end Curve.Lawful

end MadNet.Dkg
