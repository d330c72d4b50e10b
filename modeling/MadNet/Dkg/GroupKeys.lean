import MadNet.Dkg.Shares

/-!
# The keys that the participants compute
-/

namespace MadNet.Dkg

open List Prog
open Bridge (GROUP_ORDER)
open SecretSharing (eval)

variable {G₁ G₂ : Type} [AddCommGroup G₁] {C : Curve G₁ G₂} [DecidableEq G₁]

/-! ## Reading the shares -/

variable {u v : Nat}

theorem others_congr {α : Type} {xs ys : List α} (h : ∀ k ≠ u, xs[k]? = ys[k]?) :
    others xs u = others ys u := by
  apply ext_getElem?
  intro m
  rw [getElem?_others, getElem?_others]
  split
  · rw [h m (by omega)]
  · rw [h (m + 1) (by omega)]

variable {pubKs : List G₁}

omit [AddCommGroup G₁] in
/-- The own list is not read, or rather the one of the first participant with the own public key. -/
theorem condenseCommitments_congr {pubK : G₁} {E E' : List (List Nat)}
    (hu : findPubKIndex pubK pubKs = .ok u)
    (hlen : E.length = E'.length) (h : ∀ k ≠ u, E[k]? = E'[k]?) :
    condenseCommitments pubK E pubKs = condenseCommitments pubK E' pubKs := by
  rw [condenseCommitments, condenseCommitments, hu]
  change (if E.length ≠ pubKs.length then _ else mapM _ (others E u)) =
    (if E'.length ≠ pubKs.length then _ else mapM _ (others E' u))
  rw [hlen, others_congr h]

/-- From dealings of the others, a participant collects the shares for its position. -/
theorem condenseCommitments_eq {pubK : G₁} {E : List (List Nat)} {privK : Nat → Nat}
    {f : Nat → List Nat}
    (hv : findPubKIndex pubK pubKs = .ok v) (hlen : E.length = pubKs.length)
    (hE : ∀ k < pubKs.length, k ≠ v → E[k]? = some (C.dealing pubKs (privK k) k (f k))) :
    condenseCommitments pubK E pubKs = .ok ((others pubKs v).map fun x =>
      C.encrypt (privatePolyEval (f x.2) (v + 1)) (privK x.2) pubK (v + 1)) := by
  obtain ⟨hpub, -⟩ := findPubKIndex_eq_ok.mp hv
  have hvlt : v < pubKs.length := (List.getElem?_eq_some_iff.mp hpub).1
  let g : Nat → Nat := fun k => C.encrypt (privatePolyEval (f k) (v + 1)) (privK k) pubK (v + 1)
  have hread : ∀ x ∈ others E v, commitmentFor pubKs.length v x = .ok (g x.2) := by
    intro ⟨c, k⟩ hx
    obtain ⟨hk, hc⟩ := mem_others hx
    have hklt : k < pubKs.length := hlen ▸ (List.getElem?_eq_some_iff.mp hc).1
    obtain rfl := Option.some.inj (hc.symm.trans (hE k hklt hk))
    have hentry : (C.dealing pubKs (privK k) k (f k))[if k < v then v - 1 else v]? = _ :=
      Curve.getElem?_dealing (Ne.symm hk)
    have hpos : (if k > v then v else v - 1) = if k < v then v - 1 else v := by
      split <;> split <;> omega
    rw [commitmentFor, if_neg (by simp [Curve.length_dealing hklt]), getD_eq_getElem?_getD, hpos,
      hentry, hpub]
    rfl
  rw [condenseCommitments, hv]
  change (if E.length ≠ pubKs.length then _ else mapM _ (others E v)) = _
  rw [if_neg (by simp [hlen]), mapM_ok hread, map_others, map_others pubKs v g, hlen]

omit [DecidableEq G₁] in
/-- The two sides of a key exchange have the same pad. -/
theorem Curve.decrypt_encrypt (s a b i : Nat) :
    C.decrypt (C.encrypt s a (b • C.curveGen) i) b (a • C.curveGen) i = s := by
  rw [decrypt, encrypt, nsmul_left_comm, ← Nat.xor_assoc, Nat.xor_self, Nat.zero_xor]

theorem Curve.generateDecryptedShares_eq {privK : Nat → Nat}
    {f : Nat → List Nat} (hpubKs : ∀ k < pubKs.length, pubKs[k]? = some (privK k • C.curveGen))
    (hv : findPubKIndex (privK v • C.curveGen) pubKs = .ok v) :
    C.generateDecryptedShares (privK v) ((others pubKs v).map fun x =>
        C.encrypt (privatePolyEval (f x.2) (v + 1)) (privK x.2) (privK v • C.curveGen) (v + 1))
      pubKs = .ok ((others pubKs v).map fun x => privatePolyEval (f x.2) (v + 1)) := by
  have hvlt : v < pubKs.length := (List.getElem?_eq_some_iff.mp (findPubKIndex_eq_ok.mp hv).1).1
  rw [generateDecryptedShares, if_neg (by simp [length_others hvlt]), hv]
  change Except.ok _ = _
  rw [zipWith_map_right, zipWith_self]
  congr 1
  apply map_congr_left
  intro ⟨pubK, k⟩ hx
  obtain ⟨-, hpubK⟩ := mem_others hx
  have hk : k < pubKs.length := (List.getElem?_eq_some_iff.mp hpubK).1
  obtain rfl := Option.some.inj (hpubK.symm.trans (hpubKs k hk))
  exact decrypt_encrypt ..

/-! ## The group secret -/

/-- The value at `j` of the sum of the polynomials, modulo the order. -/
def groupSecret (polys : List (List Nat)) (j : Nat) : Nat := (polys.map (eval j)).sum % GROUP_ORDER

theorem map_getD_range {α β : Type} (xs : List α) (d : α) (g : α → β) :
    ((range xs.length).map fun k => g (xs.getD k d)) = xs.map g := by
  apply ext_getElem (by simp)
  intro k hk _
  simp only [length_map, length_range] at hk
  simp [hk]

theorem sum_privatePolyEval (polys : List (List Nat)) (j : Nat) :
    (polys.map (privatePolyEval · j)).sum % GROUP_ORDER = groupSecret polys j := by
  have hmod : ∀ xs : List Nat, (xs.map (· % GROUP_ORDER)).sum % GROUP_ORDER =
    xs.sum % GROUP_ORDER := by
    intro xs
    induction xs with
    | nil => rfl
    | cons x xs ih =>
      rw [map_cons, sum_cons, sum_cons, Nat.mod_add_mod, Nat.add_mod, ih, ← Nat.add_mod]
  rw [groupSecret, ← hmod (polys.map (eval j)), map_map]
  simp only [privatePolyEval_eq, Function.comp_def]

variable [AddCommGroup G₂]

/-- A participant whose public key is not registered with a lower index obtains its value of the sum
of the polynomials. -/
theorem Curve.generateGroupKeys_eq {ps : List Participant} {sks : List Nat}
    {polys E : List (List Nat)}
    (hkeys : ps.mapM (fun p => C.bigIntArrayToG1 p.publicKey) = .ok pubKs)
    (hpubKs : sks.map (· • C.curveGen) = pubKs) (hpolys : polys.length = ps.length)
    (hf : ∀ f ∈ polys, f.length = thresholdForUserCount ps.length + 1)
    (hv : findPubKIndex (sks.getD v 0 • C.curveGen) pubKs = .ok v) (hlen : E.length = ps.length)
    (hE : ∀ k < ps.length, k ≠ v →
      E[k]? = some (C.dealing pubKs (sks.getD k 0) k (polys.getD k []))) :
    C.generateGroupKeys (sks.getD v 0) (polys.getD v []) E (v + 1) ps =
      .ok (groupSecret polys (v + 1), C.marshal₂ (groupSecret polys (v + 1) • C.twistGen)) := by
  have hplen : pubKs.length = ps.length := (mapM_eq_ok hkeys).length_eq.symm
  have hvlt : v < pubKs.length := (List.getElem?_eq_some_iff.mp (findPubKIndex_eq_ok.mp hv).1).1
  have hfv : (polys.getD v []).length = thresholdForUserCount ps.length + 1 := by
    rw [List.getD_eq_getElem?_getD, List.getElem?_eq_getElem (by omega)]
    exact hf _ (getElem_mem _)
  have hsecrets : ∀ k < pubKs.length, pubKs[k]? = some (sks.getD k 0 • C.curveGen) := by
    intro k hk
    rw [← hpubKs, length_map] at hk
    rw [← hpubKs, getElem?_map, getD_eq_getElem?_getD, getElem?_eq_getElem hk]
    rfl
  have hcondense : condenseCommitments (sks.getD v 0 • C.curveGen) E pubKs = .ok _ :=
    condenseCommitments_eq hv (hlen.trans hplen.symm) (by rwa [hplen])
  have hdecrypt := Curve.generateDecryptedShares_eq (f := fun k => polys.getD k []) hsecrets hv
  have hsum : (foldl (· + ·) (privatePolyEval (polys.getD v []) (v + 1))
      ((others pubKs v).map fun x => privatePolyEval (polys.getD x.2 []) (v + 1))) % GROUP_ORDER =
      groupSecret polys (v + 1) := by
    have hfold := foldl_add_map (fun x => x) (privatePolyEval (polys.getD v []) (v + 1))
      ((others pubKs v).map fun x => privatePolyEval (polys.getD x.2 []) (v + 1))
    rw [map_id'] at hfold
    rw [hfold, sum_others hvlt fun k => privatePolyEval (polys.getD k []) (v + 1), hplen, ← hpolys,
      map_getD_range polys [] (privatePolyEval · (v + 1)), sum_privatePolyEval]
  simp only [generateGroupKeys]
  rw [if_neg (by omega), if_neg (not_not.mpr hfv), if_neg (by simp [hlen]), hkeys]
  change (wrapErr _ (condenseCommitments _ _ _) >>= _) = _
  rw [hcondense]
  change (wrapErr _ (C.generateDecryptedShares _ _ _) >>= _) = _
  rw [hdecrypt]
  change Except.ok (_ % GROUP_ORDER, _) = _
  rw [hsum]

/-! ## Registered keys -/

/-- The public key of a participant, or the point at infinity if it cannot be read. -/
def Curve.key (C : Curve G₁ G₂) (p : Participant) : G₁ :=
  match C.bigIntArrayToG1 p.publicKey with
  | .ok a => a
  | .error _ => 0

/-- What `ConstructPrivatePolyCoefs` draws for each of `n` participants. -/
structure Polynomials (n : Nat) (polys : List (List Nat)) : Prop where
  length_eq : polys.length = n
  length_of_mem : ∀ f ∈ polys, f.length = thresholdForUserCount n + 1
  coef : ∀ f ∈ polys, ∀ c ∈ f, 0 < c ∧ c < GROUP_ORDER

/-- The shares that are published if the participant at `v` publishes `own` and each of the others
what it owes to the others. -/
def Curve.published (C : Curve G₁ G₂) (ps : List Participant) (sks : List Nat)
    (polys : List (List Nat)) (v : Nat) (own : List Nat) : List (List Nat) :=
  (List.range ps.length).map fun k =>
    if k = v then own else C.dealing (ps.map C.key) (sks.getD k 0) k (polys.getD k [])

/-- The participant at `v` shares its secret and obtains its value of the sum of the polynomials. -/
def Curve.Obtains (C : Curve G₁ G₂) (ps : List Participant) (sks : List Nat)
    (polys : List (List Nat)) (v : Nat) : Prop :=
  ∃ own commitments, C.generateShares (sks.getD v 0) (polys.getD v []) (ps.map some) =
      .ok (own, polys.getD v [], commitments) ∧
    C.generateGroupKeys (sks.getD v 0) (polys.getD v []) (C.published ps sks polys v own) (v + 1)
      ps =
      .ok (groupSecret polys (v + 1), C.marshal₂ (groupSecret polys (v + 1) • C.twistGen))

omit [DecidableEq G₁] [AddCommGroup G₂] in
theorem Curve.mapM_key {ps : List Participant}
    (h : ps.mapM (fun p => C.bigIntArrayToG1 p.publicKey) = .ok pubKs) : pubKs = ps.map C.key := by
  have hall := mapM_eq_ok h
  clear h
  induction hall with
  | nil => rfl
  | cons hp _ ih => rw [map_cons, ← ih, key, hp]

theorem two_le_thresholdForUserCount {n : Nat} (hn : 4 ≤ n) : 2 ≤ thresholdForUserCount n := by
  unfold thresholdForUserCount calcThreshold
  dsimp only
  split <;> omega

section Participant

variable {ps : List Participant} {sks : List Nat} {v : Nat}

theorem Curve.obtains_of_first (hn : 4 ≤ ps.length) (hsks : sks.map (· • C.curveGen) = ps.map C.key)
    {polys : List (List Nat)} (hpolys : Polynomials ps.length polys)
    (hkeys : ps.mapM (fun p => C.bigIntArrayToG1 p.publicKey) = .ok (ps.map C.key))
    (hv : findPubKIndex (sks.getD v 0 • C.curveGen) (ps.map C.key) = .ok v) :
    C.Obtains ps sks polys v := by
  have hvlt : v < ps.length := by
    have hlt := (List.getElem?_eq_some_iff.mp (findPubKIndex_eq_ok.mp hv).1).1
    simpa using hlt
  have hfv : (polys.getD v []).length = thresholdForUserCount ps.length + 1 := by
    rw [getD_eq_getElem?_getD, getElem?_eq_getElem (by rwa [hpolys.length_eq])]
    exact hpolys.length_of_mem _ (getElem_mem _)
  refine ⟨_, _, generateShares_eq_ok.mpr ⟨two_le_thresholdForUserCount hn, hfv, _, _,
    hkeys, hv, rfl⟩, ?_⟩
  apply generateGroupKeys_eq hkeys hsks hpolys.length_eq hpolys.length_of_mem hv
  · simp [published]
  · intro k hk hkv
    simp [published, hk, hkv]

theorem Curve.generateGroupKeys_congr {sk u : Nat} (f : List Nat) (index : Nat)
    {E E' : List (List Nat)}
    (hkeys : ps.mapM (fun p => C.bigIntArrayToG1 p.publicKey) = .ok (ps.map C.key))
    (hu : findPubKIndex (sk • C.curveGen) (ps.map C.key) = .ok u) (hlen : E.length = E'.length)
    (h : ∀ k ≠ u, E[k]? = E'[k]?) :
    C.generateGroupKeys sk f E index ps = C.generateGroupKeys sk f E' index ps := by
  simp only [generateGroupKeys, hkeys, hlen]
  change (if _ then _ else if _ then _ else if _ then _ else
    wrapErr _ (condenseCommitments _ E _) >>= _) = (if _ then _ else if _ then _
      else if _ then _ else
    wrapErr _ (condenseCommitments _ E' _) >>= _)
  rw [condenseCommitments_congr hu hlen h]

/-- All coefficients are 1 but the constant term of the participant at `u`. -/
def trial (n u c : Nat) : List (List Nat) :=
  (List.replicate n (List.replicate (thresholdForUserCount n + 1) 1)).set u
    (c :: List.replicate (thresholdForUserCount n) 1)

theorem trial_polynomials {n u c : Nat} (hc : 0 < c ∧ c < GROUP_ORDER) :
    Polynomials n (trial n u c) := by
  have hone : 1 < GROUP_ORDER := prime_GROUP_ORDER.one_lt
  have hmem : ∀ f ∈ trial n u c, f = replicate (thresholdForUserCount n + 1) 1 ∨
      f = c :: replicate (thresholdForUserCount n) 1 := by
    intro f hf
    rcases mem_or_eq_of_mem_set hf with hf | hf
    · exact .inl (eq_of_mem_replicate hf)
    · exact .inr hf
  refine ⟨by simp [trial], ?_, ?_⟩
  · intro f hf
    rcases hmem f hf with rfl | rfl <;> simp
  · intro f hf d hd
    rcases hmem f hf with rfl | rfl
    · rw [eq_of_mem_replicate hd]
      exact ⟨one_pos, hone⟩
    · rcases mem_cons.mp hd with rfl | hd
      · exact hc
      · rw [eq_of_mem_replicate hd]
        exact ⟨one_pos, hone⟩

/-- The constant term of any participant counts. -/
theorem groupSecret_trial_ne {n u j : Nat} (hu : u < n) :
    groupSecret (trial n u 1) j ≠ groupSecret (trial n u 2) j := by
  intro h
  simp only [groupSecret, trial, map_set, sum_set, length_map, length_replicate,
    if_pos hu, SecretSharing.eval_cons] at h
  have hmod : 1 ≡ 2 [MOD GROUP_ORDER] := by
    have hsum := Nat.ModEq.add_right_cancel' _ h
    exact Nat.ModEq.add_right_cancel' _ (Nat.ModEq.add_left_cancel' _ hsum)
  have hdvd : GROUP_ORDER ∣ 2 - 1 := (Nat.modEq_iff_dvd' (by omega)).mp hmod
  exact prime_GROUP_ORDER.one_lt.not_ge (Nat.le_of_dvd (by omega) hdvd)

theorem Curve.first_of_obtains (hv : v < ps.length)
    (h : ∀ polys, Polynomials ps.length polys → C.Obtains ps sks polys v) :
    ps.mapM (fun p => C.bigIntArrayToG1 p.publicKey) = .ok (ps.map C.key) ∧
      findPubKIndex (sks.getD v 0 • C.curveGen) (ps.map C.key) = .ok v := by
  have hone : 1 < GROUP_ORDER := prime_GROUP_ORDER.one_lt
  have htwo : 2 < GROUP_ORDER := by decide
  obtain ⟨_, _, hshares, _⟩ := h (trial ps.length v 1) (trial_polynomials ⟨one_pos, hone⟩)
  obtain ⟨-, -, pubKs, u, hkeys, hu, -⟩ := generateShares_eq_ok.mp hshares
  obtain rfl := mapM_key hkeys
  refine ⟨hkeys, ?_⟩
  by_contra hne
  have huv : u ≠ v := by
    rintro rfl
    exact hne hu
  have hult : u < ps.length := by
    have hlt := (List.getElem?_eq_some_iff.mp (findPubKIndex_eq_ok.mp hu).1).1
    simpa using hlt
  -- The participant does not read what the one at `u` shares.
  have hagree : ∀ k ≠ u, (trial ps.length u 1).getD k [] = (trial ps.length u 2).getD k [] := by
    intro k hk
    simp only [trial, getD_eq_getElem?_getD, getElem?_set_ne (Ne.symm hk)]
  obtain ⟨own1, c1, hshares1, hgroup1⟩ :=
    h (trial ps.length u 1) (trial_polynomials ⟨one_pos, hone⟩)
  obtain ⟨own2, c2, hshares2, hgroup2⟩ :=
    h (trial ps.length u 2) (trial_polynomials ⟨by omega, htwo⟩)
  rw [← hagree v (Ne.symm huv), hshares1] at hshares2
  obtain ⟨rfl, rfl⟩ : own1 = own2 ∧ c1 = c2 := by simpa using hshares2
  have hread : ∀ k ≠ u, (C.published ps sks (trial ps.length u 1) v own1)[k]? =
      (C.published ps sks (trial ps.length u 2) v own1)[k]? := by
    intro k hk
    simp only [published, getElem?_map]
    cases hrange : (range ps.length)[k]? with
    | none => rfl
    | some l =>
      obtain rfl : k = l := by
        obtain ⟨hlt, hl⟩ := List.getElem?_eq_some_iff.mp hrange
        simpa using hl
      simp only [Option.map_some, hagree k hk]
  have hsame := generateGroupKeys_congr ((trial ps.length u 1).getD v []) (v + 1) hkeys hu
    (by simp [published]) hread
  rw [hgroup1, hagree v (Ne.symm huv), hgroup2] at hsame
  have hsecret : groupSecret (trial ps.length u 1) (v + 1) =
    groupSecret (trial ps.length u 2) (v + 1) :=
    congrArg Prod.fst (Except.ok.inj hsame)
  exact groupSecret_trial_ne hult hsecret

omit [DecidableEq G₁] in
theorem Curve.Lawful.key_eq_iff (hC : C.Lawful) {p : Participant} {a : G₁} (ha : a ≠ 0) :
    C.key p = a ↔ p.publicKey = C.marshal₁ a := by
  constructor
  · intro h
    unfold key at h
    split at h
    · rename_i b hb
      obtain rfl := h
      refine (hC.bigIntArrayToG1_eq_ok ?_ hb).symm
      intro hp
      rw [bigIntArrayToG1, if_pos hp] at hb
      exact ha (Except.ok.inj hb).symm
    · exact absurd h.symm ha
  · intro h
    rw [key, h, hC.bigIntArrayToG1_marshal₁]

theorem Curve.Lawful.findPubKIndex_iff (hC : C.Lawful) {sk : Nat} (hsk : sk % GROUP_ORDER ≠ 0)
    (hown : (ps.map (·.publicKey))[v]? = some (C.marshal₁ (sk • C.curveGen))) :
    findPubKIndex (sk • C.curveGen) (ps.map C.key) = .ok v ↔
      ∀ k < v, (ps.map (·.publicKey))[k]? ≠ (ps.map (·.publicKey))[v]? := by
  have hne : sk • C.curveGen ≠ 0 := by
    intro h
    rw [← zero_nsmul C.curveGen, hC.nsmul_curveGen_eq_iff] at h
    exact hsk h
  have hkey : ∀ k : Nat, (ps.map C.key)[k]? = some (sk • C.curveGen) ↔
      (ps.map (·.publicKey))[k]? = some (C.marshal₁ (sk • C.curveGen)) := by
    intro k
    simp only [getElem?_map, Option.map_eq_some_iff, hC.key_eq_iff hne]
  rw [findPubKIndex_eq_ok, hkey, hown]
  simp only [ne_eq, hkey, true_and]

/-- Whatever polynomials the participants choose, the one at `v` obtains its value of their sum if
and only if all public keys can be read and its own is not registered with a lower index. -/
theorem Curve.Lawful.obtains_iff (hC : C.Lawful) (hn : 4 ≤ ps.length)
    (hsks : sks.map (· • C.curveGen) = ps.map C.key) (hsk : sks.getD v 0 % GROUP_ORDER ≠ 0)
    (hown : (ps.map (·.publicKey))[v]? = some (C.marshal₁ (sks.getD v 0 • C.curveGen))) :
    (∀ polys, Polynomials ps.length polys → C.Obtains ps sks polys v) ↔
      (∀ p ∈ ps, ∃ a, C.bigIntArrayToG1 p.publicKey = .ok a) ∧
        ∀ k < v, (ps.map (·.publicKey))[k]? ≠ (ps.map (·.publicKey))[v]? := by
  have hv : v < ps.length := by simpa using (List.getElem?_eq_some_iff.mp hown).1
  constructor
  · intro h
    obtain ⟨hmapM, hfirst⟩ := first_of_obtains hv h
    have hkeys : ∀ p ∈ ps, ∃ a, C.bigIntArrayToG1 p.publicKey = .ok a := by
      intro p hp
      obtain ⟨a, -, ha⟩ := exists_of_mem_left (mapM_eq_ok hmapM) hp
      exact ⟨a, ha⟩
    exact ⟨hkeys, (hC.findPubKIndex_iff hsk hown).mp hfirst⟩
  · intro ⟨hkeys, hfirst⟩ polys hpolys
    obtain ⟨pubKs, hmapM⟩ := exists_mapM_ok hkeys
    obtain rfl := mapM_key hmapM
    exact obtains_of_first hn hsks hpolys hmapM ((hC.findPubKIndex_iff hsk hown).mpr hfirst)

end Participant

end MadNet.Dkg
