import MadNet.Dkg.Math
import MadNet.Lib.SecretSharing

/-!
# Shares and their positions

The functions of `cloudflare` in terms of polynomials over the natural numbers, whose values are
taken modulo the order. A dealing is the list of shares that the participant at a position owes to
the others; `GenerateShares` makes the dealing of the first position at which the own public key is
registered.
-/

namespace MadNet.Dkg

open List
open Bridge (Point GROUP_ORDER)
open SecretSharing (eval)

/-! ## Evaluation -/

variable {α : Type}

theorem foldl_add_map {M : Type} [AddCommMonoid M] (g : α → M) (a : M) (xs : List α) :
    xs.foldl (fun s x => s + g x) a = a + (xs.map g).sum := by
  induction xs generalizing a with
  | nil => simp
  | cons x xs ih => rw [foldl_cons, ih, map_cons, sum_cons, add_assoc]

theorem foldl_addTerm (j a p : Nat) (cs : List Nat) :
    (cs.foldl (addTerm j) (a % GROUP_ORDER, p)).1 = (a + p * j * eval j cs) % GROUP_ORDER := by
  induction cs generalizing a p with
  | nil => simp
  | cons c cs ih =>
    have hstep : addTerm j (a % GROUP_ORDER, p) c = ((a + c * (p * j)) % GROUP_ORDER, p * j) := by
      rw [addTerm, ← Nat.add_mod]
    rw [foldl_cons, hstep, ih, SecretSharing.eval_cons, smul_eq_mul]
    ring_nf

theorem privatePolyEval_eq (cs : List Nat) (j : Nat) :
    privatePolyEval cs j = eval j cs % GROUP_ORDER := by
  rw [privatePolyEval, foldl_addTerm]
  cases cs with
  | nil => rfl
  | cons c cs => simp

/-! ## Positions -/

theorem getElem?_others (xs : List α) (u m : Nat) :
    (others xs u)[m]? = if m < u then xs[m]?.map (·, m) else xs[m + 1]?.map (·, m + 1) := by
  rw [others, getElem?_eraseIdx]
  split <;> simp [getElem?_zipIdx]

variable {u k : Nat}

theorem length_others {xs : List α} (hu : u < xs.length) :
    (others xs u).length = xs.length - 1 := by
  rw [others, length_eraseIdx, length_zipIdx, if_pos hu]

/-- What is at a position other than `u` is found in the list of the others. -/
theorem getElem?_others_of_ne {xs : List α} (hk : k ≠ u) :
    (others xs u)[if u < k then k - 1 else k]? = xs[k]?.map (·, k) := by
  rw [getElem?_others]
  split <;> split
  · omega
  · rw [Nat.sub_add_cancel (by omega)]
  · rfl
  · omega

theorem mem_others {xs : List α} {x : α} (h : (x, k) ∈ others xs u) : k ≠ u ∧ xs[k]? = some x := by
  obtain ⟨m, hm⟩ := mem_iff_getElem?.mp h
  rw [getElem?_others] at hm
  split at hm
  all_goals
    obtain ⟨y, hy, heq⟩ := Option.map_eq_some_iff.mp hm
    cases heq
    exact ⟨by omega, hy⟩

theorem findPubKIndex_eq_ok {K : Type} [DecidableEq K] {pubK : K} {pubKs : List K} :
    findPubKIndex pubK pubKs = .ok u ↔ pubKs[u]? = some pubK ∧ ∀ k < u, pubKs[k]? ≠ some pubK := by
  have hfind : findPubKIndex pubK pubKs = .ok u ↔ pubKs.findIdx? (· = pubK) = some u := by
    unfold findPubKIndex
    cases pubKs.findIdx? (· = pubK) <;> simp
  rw [hfind, findIdx?_eq_some_iff_getElem]
  constructor
  · intro ⟨hu, hpub, hfirst⟩
    refine ⟨by simpa [hu] using hpub, ?_⟩
    intro k hk
    simpa [Nat.lt_trans hk hu] using hfirst k hk
  · intro ⟨hpub, hfirst⟩
    obtain ⟨hu, hpub⟩ := List.getElem?_eq_some_iff.mp hpub
    refine ⟨hu, by simpa using hpub, ?_⟩
    intro k hk
    simpa [Nat.lt_trans hk hu] using hfirst k hk

/-- The positions of the others depend only on their number. -/
theorem map_others {β : Type} (xs : List α) (u : Nat) (g : Nat → β) :
    ((others xs u).map fun x => g x.2) = ((range xs.length).eraseIdx u).map g := by
  rw [others, ← eraseIdx_map, ← eraseIdx_map, range_eq_range', ← zipIdx_map_snd 0 xs, map_map]
  rfl

theorem sum_others {xs : List α} (hu : u < xs.length) (g : Nat → Nat) :
    g u + ((others xs u).map fun x => g x.2).sum = ((range xs.length).map g).sum := by
  have hlen : u < (range xs.length).length := by simpa using hu
  have hsum := ((getElem_cons_eraseIdx_perm hlen).map g).sum_eq
  rwa [map_cons, sum_cons, getElem_range, ← map_others] at hsum

/-! ## Dealings -/

section Dealings

variable {G₁ G₂ : Type} [AddCommGroup G₁] {C : Curve G₁ G₂} {pubKs : List G₁} {privK u k : Nat}
  {f : List Nat}

/-- The shares of the polynomial `f` for the participants other than the one at `u`, each encrypted
with its public key. -/
def Curve.dealing (C : Curve G₁ G₂) (pubKs : List G₁) (privK u : Nat) (f : List Nat) : List Nat :=
  (others pubKs u).map fun (pubK, k) => C.encrypt (privatePolyEval f (k + 1)) privK pubK (k + 1)

theorem Curve.getElem?_dealing (hk : k ≠ u) :
    (C.dealing pubKs privK u f)[if u < k then k - 1 else k]? =
      pubKs[k]?.map fun pubK => C.encrypt (privatePolyEval f (k + 1)) privK pubK (k + 1) := by
  rw [dealing, getElem?_map, getElem?_others_of_ne hk, Option.map_map]
  rfl

theorem Curve.length_dealing (hu : u < pubKs.length) :
    (C.dealing pubKs privK u f).length = pubKs.length - 1 := by
  rw [dealing, length_map, length_others hu]

variable [DecidableEq G₁]

@[simp] theorem wrapErr_eq_ok {α : Type} {text : String} {x : Except Err α} {a : α} :
    wrapErr text x = .ok a ↔ x = .ok a := by
  cases x <;> simp [wrapErr]

omit [AddCommGroup G₁] in
theorem generateSecretShares_eq (pubK : G₁) (hu : findPubKIndex pubK pubKs = .ok u) :
    generateSecretShares pubK f
      pubKs = .ok ((others pubKs u).map fun x => privatePolyEval f (x.2 + 1)) := by
  rw [generateSecretShares, hu]
  rfl

theorem Curve.generateEncryptedShares_eq (hu : findPubKIndex (privK • C.curveGen) pubKs = .ok u) :
    C.generateEncryptedShares ((others pubKs u).map fun x => privatePolyEval f (x.2 + 1)) privK
      pubKs = .ok (C.dealing pubKs privK u f) := by
  rw [generateEncryptedShares, hu]
  change Except.ok _ = _
  rw [zipWith_map_right, zipWith_self]
  rfl

/-- The shares are those of the first position of the own public key. -/
theorem Curve.generateShares_eq_ok {ps : List Participant} {r : List Nat × List Nat × List Point} :
    C.generateShares privK f (ps.map some) = .ok r ↔
      2 ≤ thresholdForUserCount ps.length ∧ f.length = thresholdForUserCount ps.length + 1 ∧
      ∃ pubKs u, ps.mapM (fun p => C.bigIntArrayToG1 p.publicKey) = .ok pubKs ∧
        findPubKIndex (privK • C.curveGen) pubKs = .ok u ∧
        r = (C.dealing pubKs privK u f, f, (C.generatePublicCoefs f).map C.marshal₁) := by
  have hps : (ps.map some).reduceOption = ps := by simp [reduceOption]
  simp only [generateShares, length_map, hps]
  constructor
  · intro h
    split at h
    · cases h
    · rename_i ht
      obtain ⟨pubKs, hkeys, h⟩ := Prog.bind_ok h
      split at h
      · cases h
      · split at h
        · cases h
        · rename_i hf
          obtain ⟨secrets, shares, hsecrets, hshares, h⟩ := Prog.bind₂_ok h
          rw [wrapErr_eq_ok] at hsecrets hshares
          obtain ⟨u, hu, -⟩ := Prog.bind_ok hsecrets
          obtain rfl := Except.ok.inj ((generateSecretShares_eq _ hu).symm.trans hsecrets)
          obtain rfl := Except.ok.inj ((generateEncryptedShares_eq hu).symm.trans hshares)
          exact ⟨by omega, by simpa using hf, pubKs, u, hkeys, hu, (Except.ok.inj h).symm⟩
  · intro ⟨ht, hf, pubKs, u, hkeys, hu, hr⟩
    have hlen : pubKs.length = ps.length := (Prog.mapM_eq_ok hkeys).length_eq.symm
    rw [if_neg (by omega), hkeys]
    change (if pubKs.length ≠ ps.length then _ else _) = _
    rw [if_neg (by simp [hlen]), if_neg (by simp [hf]), generateSecretShares_eq _ hu]
    change (wrapErr _ (C.generateEncryptedShares _ _ _) >>= _) = _
    rw [generateEncryptedShares_eq hu, hr]
    rfl

end Dealings

end MadNet.Dkg
