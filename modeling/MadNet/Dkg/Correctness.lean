import MadNet.Dkg.Signers

/-!
# Distributed key generation

The participants look for themselves by their public key. If the key of a participant is also
registered with a lower index, the participant takes the position of the other one.
-/

namespace MadNet.Dkg

open Bridge (GROUP_ORDER)

variable {G₁ G₂ : Type} [AddCommGroup G₁] [AddCommGroup G₂] {C : Curve G₁ G₂} [DecidableEq G₁]

/-- What the participants compute from polynomials that all of them share, for any curve:

* the group secret of a participant,
* the master public key,
* whose group public keys are found to be good,
* the signature of a group of more than the threshold. -/
theorem distributedKeyGeneration_iff (hC : C.Lawful) :
    (∀ (ps : List Participant) (sks : List Nat) (v : Nat), 4 ≤ ps.length →
      sks.map (· • C.curveGen) = ps.map C.key → sks.getD v 0 % GROUP_ORDER ≠ 0 →
      (ps.map (·.publicKey))[v]? = some (C.marshal₁ (sks.getD v 0 • C.curveGen)) →
      ((∀ polys, Polynomials ps.length polys → C.Obtains ps sks polys v) ↔
        (∀ p ∈ ps, ∃ a, C.bigIntArrayToG1 p.publicKey = .ok a) ∧
          ∀ k < v, (ps.map (·.publicKey))[k]? ≠ (ps.map (·.publicKey))[v]?)) ∧
    (∀ (n : Nat) (polys : List (List Nat)) (ws : List Nat), 4 ≤ n → Polynomials n polys →
      ws.length = n → ∃ keyShares,
        (polys.zip ws).mapM (fun x => C.generateKeyShare (x.1.headD 0) x.2) = .ok keyShares ∧
        (C.generateMasterPublicKey (keyShares.map (·.1)) (keyShares.map (·.2.2)) =
            .ok (C.marshal₂ (groupSecret polys 0 • C.twistGen)) ↔
          ((polys.map (·.headD 0)).filter fun s => !C.readable s).sum % GROUP_ORDER = 0)) ∧
    (∀ (ps : List Participant) (polys : List (List Nat)), 4 ≤ ps.length →
      ps.map (·.index) = List.range' 1 ps.length → Polynomials ps.length polys →
      (C.categorizeGroupSigners
          (ps.map fun p => some (C.marshal₂ (groupSecret polys p.index • C.twistGen))) ps
          (polys.map fun f => (C.generatePublicCoefs f).map C.marshal₁) =
          .ok { good := ps, bad := [], missing := [] } ↔
        ∀ j, 1 ≤ j → j ≤ ps.length → C.readable (groupSecret polys j) = true)) ∧
    (∀ (n : Nat) (polys : List (List Nat)) (indices : List Nat) (msg : List UInt8) (sigs : List G₁),
      4 ≤ n → n < 2 ^ 63 → Polynomials n polys → indices.Nodup → (∀ j ∈ indices, 1 ≤ j ∧ j ≤ n) →
      thresholdForUserCount n < indices.length →
      indices.mapM (fun j => C.sign msg (groupSecret polys j)) = .ok sigs →
      ∃ sig, aggregateSignatures sigs indices (thresholdForUserCount n) = .ok sig ∧
        C.verify msg sig (groupSecret polys 0 • C.twistGen) = .ok true) := by
  refine ⟨?_, ?_, ?_, ?_⟩
  · intro ps sks v hn hsks hsk hown
    exact hC.obtains_iff hn hsks hsk hown
  · intro n polys ws _ hpolys hws
    exact hC.masterPublicKey_iff (hpolys.length_eq.trans hws.symm)
  · intro ps polys _ hindex hpolys
    have hmem : ∀ j, (∃ p ∈ ps, p.index = j) ↔ 1 ≤ j ∧ j ≤ ps.length := by
      intro j
      rw [← List.mem_map, hindex, List.mem_range'_1]
      omega
    rw [hC.categorizeGroupSigners_iff hpolys]
    constructor
    · intro hall j hj hn
      obtain ⟨p, hp, rfl⟩ := (hmem j).mpr ⟨hj, hn⟩
      exact hall p hp
    · intro hall p hp
      obtain ⟨hj, hn⟩ := (hmem p.index).mp ⟨p, hp, rfl⟩
      exact hall p.index hj hn
  · intro n polys indices msg sigs _ hn hpolys hnodup hindices hmany hsigs
    have hbound : 2 ^ 63 < GROUP_ORDER := by decide
    refine hC.aggregateSignatures_verify hpolys.length_of_mem hnodup ?_ hmany hsigs
    intro j hj
    have := hindices j hj
    omega

/-! ## Four participants -/

def participants (sks : List Nat) : List Participant :=
  sks.zipIdx.map fun (sk, k) => { index := k + 1, publicKey := (sk, 2) }

theorem distributedKeyGeneration_iff_four :
    (Curve.scalar fun _ => 0).Obtains (participants [3, 4, 5, 6]) [3, 4, 5, 6] (trial 4 0 1) 1 ∧
    (∃ keyShares, ((trial 4 0 1).zip [1, 2, 3, 4]).mapM
        (fun x => (Curve.scalar fun _ => 0).generateKeyShare (x.1.headD 0) x.2) = .ok keyShares ∧
      (Curve.scalar fun _ => 0).generateMasterPublicKey (keyShares.map (·.1))
      (keyShares.map (·.2.2)) =
        .ok (4, 0, 0, 0)) ∧
    (Curve.scalar fun _ => 0).categorizeGroupSigners
        ((participants [3, 4, 5, 6]).map fun p =>
          some ((Curve.scalar fun _ => 0).marshal₂ (groupSecret (trial 4 0 1) p.index • 1)))
        (participants [3, 4, 5, 6])
        ((trial 4 0 1).map fun f => ((Curve.scalar fun _ => 0).generatePublicCoefs f).map
          (Curve.scalar fun _ => 0).marshal₁) =
      .ok { good := participants [3, 4, 5, 6], bad := [], missing := [] } ∧
    (∃ sig, aggregateSignatures
        (([4, 1, 3].map fun j => groupSecret (trial 4 0 1) j • (2 : ZMod GROUP_ORDER)))
        [4, 1, 3] 2 = .ok sig ∧ (Curve.scalar fun _ => 0).verify [] sig 4 = .ok true) := by
  have hlawful : (Curve.scalar fun _ => 0).Lawful := Curve.scalar_lawful fun _ => by decide
  have hpolys : Polynomials 4 (trial 4 0 1) := trial_polynomials (by decide)
  obtain ⟨hsecret, hmaster, hgood, hsign⟩ := distributedKeyGeneration_iff hlawful
  refine ⟨?_, ?_, ?_, ?_⟩
  · refine (hsecret (participants [3, 4, 5, 6]) [3, 4, 5, 6] 1 (by decide) (by decide +kernel)
      (by decide) (by decide +kernel)).mpr ⟨?_, ?_⟩ _ hpolys
    · have hall : ∀ p ∈ participants [3, 4, 5, 6], ∃ k < 7,
          (Curve.scalar fun _ => 0).bigIntArrayToG1 p.publicKey = .ok (k : Nat) := by decide +kernel
      intro p hp
      obtain ⟨k, -, hk⟩ := hall p hp
      exact ⟨k, hk⟩
    · decide
  · obtain ⟨keyShares, hshares, hkey⟩ := hmaster 4 (trial 4 0 1) [1, 2, 3, 4] (by decide) hpolys rfl
    refine ⟨keyShares, hshares, (hkey.mpr (by decide +kernel)).trans (by decide +kernel)⟩
  · refine (hgood (participants [3, 4, 5, 6]) (trial 4 0 1) (by decide) (by decide) hpolys).mpr ?_
    intro j hj hn
    have hreadable : ∀ j ∈ List.range' 1 4,
        (Curve.scalar fun _ => 0).readable (groupSecret (trial 4 0 1) j) = true := by decide +kernel
    exact hreadable j
      (List.mem_range'_1.mpr ⟨hj, by simpa [participants] using Nat.lt_succ_of_le hn⟩)
  · exact hsign 4 (trial 4 0 1) [4, 1, 3] [] _ (by decide) (by decide) hpolys
      (by decide) (by decide)
      (by decide) (by decide +kernel)

/-- The participant with index 2 has the public key of the one with index 1, and takes the shares
that are meant for that one. -/
theorem repeated_key_misread :
    ¬(Curve.scalar fun _ => 0).Obtains (participants [5, 5, 3, 4]) [5, 5, 3, 4]
      (trial 4 0 2) 1 := by
  have hshares : (Curve.scalar fun _ => 0).generateShares 5 [1, 1, 1]
      ((participants [5, 5, 3, 4]).map some) =
      .ok ([7, 13, 21], [1, 1, 1], [(1, 2), (1, 2), (1, 2)]) := by decide +kernel
  intro ⟨own, commitments, hown, hgroup⟩
  obtain ⟨rfl, -⟩ : own = [7, 13, 21] ∧ _ := by
    have heq := Except.ok.inj (hown.symm.trans hshares)
    simpa using heq
  have hkeys : (Curve.scalar fun _ => 0).generateGroupKeys 5 [1, 1, 1]
      ((Curve.scalar fun _ => 0).published (participants [5, 5, 3, 4]) [5, 5, 3, 4] (trial 4 0 2) 1
        [7, 13, 21]) 2 (participants [5, 5, 3, 4]) = .ok (20, (20, 0, 0, 0)) := by decide +kernel
  have hsecret : groupSecret (trial 4 0 2) 2 = 29 := by decide
  have heq := congrArg Prod.fst (Except.ok.inj (hgroup.symm.trans hkeys))
  rw [hsecret] at heq
  exact absurd heq (by decide)

end MadNet.Dkg
