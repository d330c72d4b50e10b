import MadNet.Consensus.Isolation
import MadNet.Consensus.VoteSlots

/-!
# Delivery order

A message writes several votes: its own, the proposal it carries into the state of the proposer,
and the prevotes of a precommit into the states of their signers. While no validator votes twice,
each write either fills an empty slot or repeats what the slot holds, so the states depend on the
set of delivered messages only.
-/

namespace MadNet

open List (mem_cons mem_append mem_map append_subset mem_flatMap nil_subset)
open Prog Run VoteMsg RoundStates

/-- The votes that storing a message writes, with their validators, in the order of the writes. -/
def VoteMsg.carried : VoteMsg → List (Bytes × Vote)
  | proposal v => [(v.proposer, .proposal v.obj)]
  | preVote v => [(v.proposer, .proposal v.obj.proposal), (v.voter, .preVote v.obj)]
  | preVoteNil v => [(v.voter, .preVoteNil v.obj)]
  | preCommit v => (v.proposer, .proposal v.obj.proposal) ::
      (v.makeImplPreVotes.map (fun pv => (pv.voter, .preVote pv.obj)) ++
      [(v.voter, .preCommit v.obj)])
  | preCommitNil v => [(v.voter, .preCommitNil v.obj)]
  | nextRound v => [(v.voter, .nextRound v.obj)]
  | nextHeight v => [(v.proposer, .proposal v.obj.proposal), (v.voter, .nextHeight v.obj)]

/-- Store a message; an error is dropped. -/
def VoteMsg.deliver (c : Crypto) (r : RoundStates) (m : VoteMsg) : RoundStates :=
  after (m.apply c) r

namespace RoundStates

open RoundState

variable {c : Crypto} {r r₀ : RoundStates} {claims : RClaims} {block : BClaims}
  {U W : List (Bytes × Vote)} {a : Bytes} {v : Vote}

/-! ## The state of one validator while messages arrive -/

def Has (a : Bytes) (P : RoundState → Prop) (r : RoundStates) : Prop :=
  ∃ b, r.getRoundState a = some b ∧ P b

section Has

variable {P : RoundState → Prop} {m : VoteMsg}

theorem Has.wp_onRoundState {α : Type} {a' : Bytes} {missing : String}
    {x : EStateM Err RoundState α}
    (h : r.Has a P) (hx : a' = a → ∀ b, P b → P (after x b)) :
    wp (onRoundState a' missing x) (fun _ => Has a P) (fun _ => Has a P) r := by
  obtain ⟨b, hb, hP⟩ := h
  have hput {b'} (hP' : a' = a → P b') : (r.setRoundState a' b').Has a P := by
    by_cases ha : a' = a
    · subst ha
      exact ⟨b', getRoundState_setRoundState_self .., hP' rfl⟩
    · exact ⟨b, by rwa [getRoundState_setRoundState_ne r (Ne.symm ha)], hP⟩
  cases hb1 : r.getRoundState a' with
  | none =>
    simp only [wp, onRoundState, hb1]
    exact ⟨b, hb, hP⟩
  | some b1 =>
    have hstep : a' = a → P (after x b1) := by
      rintro rfl
      obtain rfl := Option.some_inj.mp (hb.symm.trans hb1)
      exact hx rfl b hP
    rw [RoundStates.wp_onRoundState r hb1]
    unfold wp
    unfold after at hstep
    cases hr : x b1 with
    | ok _ b' | error _ b' => exact hput (by simpa only [hr] using hstep)

variable (hset : ∀ v, (a, v) ∈ m.carried → ∀ b, P b → P (after (RoundState.set c v) b))
  (hmark : ∀ b, P b → P { b with implicitPCN := true })

include hset hmark

theorem Has.setImplPreVotes {voter : Bytes} {pvl : List (Validated PreVote)} (h : r.Has a P)
    (hpvl : ∀ pv ∈ pvl, (pv.voter, .preVote pv.obj) ∈ m.carried) :
    wp (setImplPreVotes c voter pvl) (fun _ => Has a P) (fun _ => Has a P) r := by
  induction pvl generalizing r with
  | nil => exact h
  | cons pv pvl ih =>
    have hpv : pv.voter = a → ∀ b, P b → P (after (RoundState.set c (.preVote pv.obj)) b) := by
      rintro rfl
      exact hset _ (hpvl pv (by simp))
    have hrest {r' : RoundStates} (h' : r'.Has a P) := ih h' fun pv' h => hpvl pv' (by simp [h])
    simp only [setImplPreVotes, wp_bind, wp_get, wp_ite, wp_throw, wp_attempt]
    refine ⟨fun _ => h, fun _ => ?_⟩
    refine wp_mono (h.wp_onRoundState hpv) (fun _ _ h' => hrest h') fun e r' h' => ?_
    simp only [wp_ite, wp_bind]
    exact ⟨fun _ => hrest h', fun _ => h'.wp_onRoundState fun _ => hmark⟩

/-- What every write of a message and the mark of a precommit's voter keep, the message keeps. -/
theorem Has.deliver (h : r.Has a P) : (m.deliver c r).Has a P := by
  have hwrite (a' v) {t} {r' : RoundStates} (h' : r'.Has a P) (hx : (a', v) ∈ m.carried) :
      wp (onRoundState a' t (RoundState.set c v)) (fun _ => Has a P) (fun _ => Has a P) r' :=
    h'.wp_onRoundState (by rintro rfl; exact hset v hx)
  have hprop {p : Validated Proposal} (hx : (p.proposer, .proposal p.obj) ∈ m.carried) :
      wp (ignoreStale (setProposal c p)) (fun _ => Has a P) (fun _ => Has a P) r := by
    simp only [ignoreStale, setProposal, wp_bind, wp_attempt]
    refine wp_mono (hwrite _ (.proposal p.obj) h hx) (fun _ _ h' => h') fun e r' h' => ?_
    split <;> exact h'
  refine after_of_wp ?_
  cases m with
  | proposal v =>
    simp only [apply, setProposal, wp_bind]
    exact hwrite v.proposer (.proposal v.obj) h (by simp [carried])
  | preVoteNil v =>
    simp only [apply, setPreVoteNil, wp_bind]
    exact hwrite v.voter (.preVoteNil v.obj) h (by simp [carried])
  | preCommitNil v =>
    simp only [apply, setPreCommitNil, wp_bind]
    exact hwrite v.voter (.preCommitNil v.obj) h (by simp [carried])
  | nextRound v =>
    simp only [apply, setNextRound, wp_bind]
    exact hwrite v.voter (.nextRound v.obj) h (by simp [carried])
  | preVote v =>
    simp only [apply, setPreVote, wp_bind]
    refine wp_mono (hprop (by simp [carried])) (fun _ r' h' => ?_) fun _ _ h' => h'
    simp only [wp_bind]
    exact hwrite v.voter (.preVote v.obj) h' (by simp [carried])
  | nextHeight v =>
    simp only [apply, setNextHeight, setProposal, wp_bind, wp_attempt]
    have hgo {r' : RoundStates} (h' : r'.Has a P) :=
      hwrite v.voter (.nextHeight v.obj) (t := "rs nil in nh") h' (by simp [VoteMsg.carried])
    exact wp_mono (hwrite v.proposer (.proposal v.obj.proposal) h (by simp [carried]))
      (fun _ _ h' => (wp_bind _ _).mpr (hgo h')) (fun _ _ h' => (wp_bind _ _).mpr (hgo h'))
  | preCommit v =>
    have hpvl : ∀ pv ∈ v.makeImplPreVotes,
        (pv.voter, .preVote pv.obj) ∈ (preCommit v).carried := fun pv h => by
      simp only [carried, mem_cons, mem_append, mem_map]
      exact .inr (.inl ⟨pv, h, rfl⟩)
    simp only [apply, setPreCommit, wp_bind]
    refine wp_mono (hprop (by simp [carried])) (fun _ r' h' => ?_) fun _ _ h' => h'
    simp only [wp_bind]
    refine wp_mono (h'.setImplPreVotes hset hmark hpvl) (fun ok r2 h₂ => ?_) fun _ _ h' => h'
    cases ok with
    | false => exact h₂
    | true =>
      simp only [if_true, wp_bind]
      exact hwrite v.voter (.preCommit v.obj) h₂ (by simp [carried])

end Has

/-! ## Messages of validators that do not equivocate -/

/-- No validator equivocates in the votes `U`: they are of the round `claims` and for one block,
each validator has one vote of a kind, and does not prevote or precommit both for the block and
nil. -/
structure NonEquivocating (r : RoundStates) (claims : RClaims) (block : BClaims)
    (U : List (Bytes × Vote)) : Prop where
  known : ∀ x ∈ U, (r.getRoundState x.1).isSome
  claims : ∀ x ∈ U, x.2.rCert.rClaims = claims
  block : ∀ x ∈ U, ∀ y ∈ x.2.bClaims?, y = block
  one : ∀ x ∈ U, ∀ y ∈ U, x.1 = y.1 → x.2.kind = y.2.kind → x.2 = y.2
  preVote : ∀ x ∈ U, ∀ y ∈ U, x.1 = y.1 → ¬(x.2.kind = .preVote ∧ y.2.kind = .preVoteNil)
  preCommit : ∀ x ∈ U, ∀ y ∈ U, x.1 = y.1 → ¬(x.2.kind = .preCommit ∧ y.2.kind = .preCommitNil)

/-- No validator precommits to the block after a nil prevote. -/
def NoPreCommitAfterNil (U : List (Bytes × Vote)) : Prop :=
  ∀ x ∈ U, ∀ y ∈ U, x.1 = y.1 → ¬(x.2.kind = .preCommit ∧ y.2.kind = .preVoteNil)

/-- The states are at the round `claims` and hold no votes. -/
def EmptyAt (claims : RClaims) (r : RoundStates) : Prop :=
  ∀ a b, r.getRoundState a = some b → b.EmptyAt claims

theorem NonEquivocating.not_excludes (H : NonEquivocating r claims block U)
    (hmix : NoPreCommitAfterNil U)
    {x y : Bytes × Vote} (hx : x ∈ U) (hy : y ∈ U) (h : x.1 = y.1) : ¬Excludes x.2 y.2 := by
  rintro (⟨h1, h2⟩ | ⟨h1, h2⟩ | ⟨h1, h2⟩ | ⟨h1, h2⟩ | ⟨h1, h2⟩)
  · exact H.preVote x hx y hy h ⟨h1, h2⟩
  · exact H.preVote y hy x hx h.symm ⟨h2, h1⟩
  · exact H.preCommit x hx y hy h ⟨h1, h2⟩
  · exact H.preCommit y hy x hx h.symm ⟨h2, h1⟩
  · exact hmix x hx y hy h ⟨h1, h2⟩

/-- The votes of one validator. -/
def votesOf (a : Bytes) (W : List (Bytes × Vote)) : List Vote := (W.filter (·.1 == a)).map (·.2)

theorem mem_votesOf : v ∈ votesOf a W ↔ (a, v) ∈ W := by
  simp only [votesOf, mem_map, List.mem_filter, beq_iff_eq]
  constructor
  · rintro ⟨⟨a', v'⟩, ⟨hmem, rfl⟩, rfl⟩
    exact hmem
  · intro h
    exact ⟨(a, v), ⟨h, rfl⟩, rfl⟩

theorem votesOf_append_self : votesOf a (W ++ [(a, v)]) = votesOf a W ++ [v] := by
  simp [votesOf]

theorem votesOf_append_ne {a' : Bytes} (h : a' ≠ a) :
    votesOf a' (W ++ [(a, v)]) = votesOf a' W := by
  simp [votesOf, h.symm]

structure Tracks (r₀ : RoundStates) (W : List (Bytes × Vote)) (r : RoundStates) : Prop where
  states : ∀ a, r.getRoundState a = (r₀.getRoundState a).map (·.storeAll (votesOf a W))
  ownState : r.ownState = r₀.ownState
  validatorSet : r.validatorSet = r₀.validatorSet

theorem Tracks.setRoundState (ht : Tracks r₀ W r) {b : RoundState}
    (hb : r₀.getRoundState a = some b) :
    Tracks r₀ (W ++ [(a, v)]) (r.setRoundState a ((b.storeAll (votesOf a W)).setVote v)) := by
  refine ⟨fun a' => ?_, ht.ownState, ht.validatorSet⟩
  by_cases h : a' = a
  · subst h
    rw [getRoundState_setRoundState_self, hb, votesOf_append_self, Option.map_some, storeAll_append]
  · rw [getRoundState_setRoundState_ne r h, ht.states, votesOf_append_ne h]

section Deliver

variable (H : NonEquivocating r₀ claims block U) (hmix : NoPreCommitAfterNil U)
  (hround : claims.round < Constants.deadBlockRound) (hempty : r₀.EmptyAt claims)

include H hmix hround hempty

/-- One write of a vote that fits: it is stored, or it is stale and there already. -/
theorem Tracks.write {missing : String} (ht : Tracks r₀ W r) (hW : W ⊆ U) (hx : (a, v) ∈ U) :
    wp (onRoundState a missing (RoundState.set c v))
      (fun _ r' => Tracks r₀ (W ++ [(a, v)]) r')
      (fun e r' => e.isStale ∧ Tracks r₀ (W ++ [(a, v)]) r') r := by
  obtain ⟨b, hb⟩ := Option.isSome_iff_exists.mp (H.known _ hx)
  have hstate : r.getRoundState a = some (b.storeAll (votesOf a W)) := by
    rw [ht.states, hb, Option.map_some]
  have hmem : ∀ w ∈ v :: votesOf a W, (a, w) ∈ U := by
    intro w hw
    rcases mem_cons.mp hw with rfl | hw
    · exact hx
    · exact hW (mem_votesOf.mp hw)
  have hset := set_storeAll (c := c) (hempty a b hb) hround
    (fun w hw => H.claims _ (hmem w hw)) (fun w hw => H.block _ (hmem w hw))
    (fun w hw w' hw' hk => H.one _ (hmem w hw) _ (hmem w' hw') rfl hk)
    (fun w hw => H.not_excludes hmix hx (hmem w (List.mem_cons_of_mem _ hw)) rfl)
  rw [wp_onRoundState r hstate]
  rcases hset with heq | ⟨hsame, msg, heq⟩
  · rw [wp_of_ok heq]
    exact ht.setRoundState hb
  · rw [wp_of_error heq, ← hsame]
    exact ⟨rfl, ht.setRoundState hb⟩

/-- Storing the proposal that a message carries never stops the message. -/
theorem Tracks.ignoreStale_setProposal {p : Validated Proposal} (ht : Tracks r₀ W r) (hW : W ⊆ U)
    (hx : (p.proposer, .proposal p.obj) ∈ U) {Q : Unit → RoundStates → Prop}
    {R : Err → RoundStates → Prop}
    (hQ : ∀ r', Tracks r₀ (W ++ [(p.proposer, .proposal p.obj)]) r' → Q () r') :
    wp (ignoreStale (setProposal c p)) Q R r := by
  simp only [ignoreStale, setProposal, wp_bind, wp_attempt]
  refine wp_mono (ht.write H hmix hround hempty hW hx) (fun _ r' h => hQ r' h) ?_
  rintro e r' ⟨he, h⟩
  simpa [he] using hQ r' h

theorem Tracks.setImplPreVotes {voter : Bytes} {pvl : List (Validated PreVote)}
    (ht : Tracks r₀ W r) (hW : W ⊆ U) (hpvl : ∀ pv ∈ pvl, (pv.voter, .preVote pv.obj) ∈ U) :
    wp (setImplPreVotes c voter pvl)
      (fun ok r' => ok = true ∧ Tracks r₀ (W ++ pvl.map fun pv => (pv.voter, .preVote pv.obj)) r')
      (fun _ _ => False) r := by
  induction pvl generalizing W r with
  | nil => exact ⟨rfl, by simpa using ht⟩
  | cons pv pvl ih =>
    have hpv := hpvl pv (by simp)
    obtain ⟨b, hb⟩ := Option.isSome_iff_exists.mp (H.known _ hpv)
    have hsome : r.getRoundState pv.voter = some _ := (ht.states _).trans (by rw [hb]; rfl)
    have hrest {r'} (ht' : Tracks r₀ (W ++ [(pv.voter, .preVote pv.obj)]) r') :=
      ih ht' (append_subset.mpr ⟨hW, by simpa using hpv⟩) fun pv' h => hpvl pv' (by simp [h])
    simp only [List.append_assoc, List.singleton_append] at hrest
    simp only [setImplPreVotes, wp_bind, wp_get, hsome, Option.isNone_some,
      Bool.false_eq_true, if_false, wp_attempt, List.map_cons]
    refine wp_mono (ht.write H hmix hround hempty hW hpv) (fun _ r' h => hrest h) ?_
    rintro e r' ⟨he, h⟩
    simpa [he] using hrest h

/-- A message writes the votes it carries; the only error is that its last vote is stale. -/
theorem Tracks.deliver {m : VoteMsg} (ht : Tracks r₀ W r) (hW : W ⊆ U) (hm : m.carried ⊆ U) :
    Tracks r₀ (W ++ m.carried) (m.deliver c r) := by
  have hlast (a v) {t r' W'} (ht' : Tracks r₀ W' r') (hW' : W' ⊆ U)
      (heq : W' ++ [(a, v)] = W ++ m.carried) :
      wp (onRoundState a t (RoundState.set c v)) (fun _ => Tracks r₀ (W ++ m.carried))
        (fun _ => Tracks r₀ (W ++ m.carried)) r' := by
    have hx : (a, v) ∈ U := append_subset.mpr ⟨hW, hm⟩ (heq ▸ by simp)
    rw [← heq]
    exact wp_mono (ht'.write H hmix hround hempty hW' hx) (fun _ _ h => h) (fun _ _ h => h.2)
  refine after_of_wp (P := Tracks r₀ (W ++ m.carried)) ?_
  cases m with
  | proposal v =>
    simp only [apply, setProposal, wp_bind]
    exact hlast _ _ ht hW rfl
  | preVoteNil v =>
    simp only [apply, setPreVoteNil, wp_bind]
    exact hlast _ _ ht hW rfl
  | preCommitNil v =>
    simp only [apply, setPreCommitNil, wp_bind]
    exact hlast _ _ ht hW rfl
  | nextRound v =>
    simp only [apply, setNextRound, wp_bind]
    exact hlast _ _ ht hW rfl
  | preVote v =>
    have hprop : (v.proposer, .proposal v.obj.proposal) ∈ U := hm (by simp [carried])
    simp only [apply, setPreVote, wp_bind]
    refine ht.ignoreStale_setProposal H hmix hround hempty hW hprop fun r' ht' => ?_
    rw [wp_bind]
    exact hlast v.voter (.preVote v.obj) ht'
      (append_subset.mpr ⟨hW, by simpa using hprop⟩) (by simp [carried])
  | nextHeight v =>
    have hprop : (v.proposer, .proposal v.obj.proposal) ∈ U := hm (by simp [carried])
    have hgo {r'} (ht' : Tracks r₀ (W ++ [(v.proposer, .proposal v.obj.proposal)]) r') :=
      hlast v.voter (.nextHeight v.obj) (t := "rs nil in nh") ht'
        (append_subset.mpr ⟨hW, by simpa using hprop⟩) (by simp [carried])
    simp only [apply, setNextHeight, setProposal, wp_bind, wp_attempt]
    exact wp_mono (ht.write H hmix hround hempty hW hprop)
      (fun _ _ h => (wp_bind _ _).mpr (hgo h)) (fun _ _ h => (wp_bind _ _).mpr (hgo h.2))
  | preCommit v =>
    have hprop : (v.proposer, .proposal v.obj.proposal) ∈ U := hm (by simp [carried])
    have hpvl : ∀ pv ∈ v.makeImplPreVotes, (pv.voter, .preVote pv.obj) ∈ U := fun pv h =>
      hm (by simp only [carried, mem_cons, mem_append, mem_map]
             exact .inr (.inl ⟨pv, h, rfl⟩))
    have hW1 : W ++ [(v.proposer, .proposal v.obj.proposal)] ⊆ U :=
      append_subset.mpr ⟨hW, by simpa using hprop⟩
    simp only [apply, setPreCommit, wp_bind]
    refine ht.ignoreStale_setProposal H hmix hround hempty hW hprop fun r' ht' => ?_
    simp only [wp_bind]
    refine wp_mono (ht'.setImplPreVotes H hmix hround hempty hW1 hpvl) ?_ (fun _ _ => False.elim)
    rintro _ r2 ⟨rfl, ht2⟩
    simp only [if_true, wp_bind]
    refine hlast v.voter (.preCommit v.obj) ht2 (append_subset.mpr ⟨hW1, ?_⟩)
      (by simp [carried])
    rintro _ hx
    obtain ⟨pv, h, rfl⟩ := mem_map.mp hx
    exact hpvl pv h

theorem Tracks.exec {ms : List VoteMsg} (ht : Tracks r₀ W r) (hW : W ⊆ U)
    (hms : ms.flatMap VoteMsg.carried ⊆ U) :
    Tracks r₀ (W ++ ms.flatMap VoteMsg.carried) (exec (VoteMsg.deliver c) r ms) := by
  induction ms generalizing W r with
  | nil => simpa using ht
  | cons m ms ih =>
    rw [List.flatMap_cons] at hms
    obtain ⟨hm, hms⟩ := append_subset.mp hms
    rw [List.flatMap_cons, ← List.append_assoc, exec_cons]
    exact ih (ht.deliver H hmix hround hempty hW hm) (append_subset.mpr ⟨hW, hm⟩) hms

end Deliver

theorem currentVotes_congr {r' : RoundStates} {α : Type} {current : RoundState → RCert → Bool}
    {get : RoundState → Option α} (hstates : ∀ a, r.getRoundState a = r'.getRoundState a)
    (hown : r.ownState = r'.ownState) (hvs : r.validatorSet = r'.validatorSet) :
    r.currentVotes current get = r'.currentVotes current get := by
  have hrc : r.rCert = r'.rCert := by
    rw [rCert, rCert, ownRoundState, ownRoundState, hstates, hown]
  rw [currentVotes, currentVotes, hrc, hvs]
  exact List.filterMap_congr fun valObj _ => by rw [hstates]

theorem noPreCommitAfterNil_carried (m : VoteMsg) : NoPreCommitAfterNil m.carried := by
  rintro x hx y hy - ⟨hpc, hpvn⟩
  cases m <;> simp only [carried, mem_cons, mem_append, mem_map,
    List.not_mem_nil, or_false] at hx hy <;> grind [Vote.kind]

/-- While the round lasts, a stored precommit stays. -/
theorem preCommit_isSome_kept (hv : v.rCert.rClaims = claims) (b : RoundState)
    (h : b.rCert.rClaims = claims ∧ b.preCommit.isSome) :
    (after (RoundState.set c v) b).rCert.rClaims = claims ∧
      (after (RoundState.set c v) b).preCommit.isSome := by
  have hhr : b.rCert.hr = v.rCert.hr := RCert.hr_of_rClaims (h.1.trans hv.symm)
  obtain ⟨nh, cnh, heq, -, -⟩ := resetNHForDBR_eq b v
  refine after_set_cases (P := fun b' => b'.rCert.rClaims = claims ∧ b'.preCommit.isSome) c b v
    h (fun ha => absurd ha.hr_lt (by omega)) ?_ ?_ ?_
  · exact fun _ => by rwa [heq]
  · intro _
    rw [setTypeConflict_rCert, heq]
    cases v <;> exact h
  · intro _ _ _ _
    rw [setVote_rCert, heq]
    cases v <;> first | exact h | exact ⟨h.1, rfl⟩

/-- While the round lasts, a validator with a nil prevote gets no precommit. -/
theorem preCommit_none_kept (hv : v.rCert.rClaims = claims) (b : RoundState)
    (h : b.rCert.rClaims = claims ∧ b.preVoteNil.isSome ∧ b.preCommit = none) :
    (after (RoundState.set c v) b).rCert.rClaims = claims ∧
      (after (RoundState.set c v) b).preVoteNil.isSome ∧
      (after (RoundState.set c v) b).preCommit = none := by
  have hhr : b.rCert.hr = v.rCert.hr := RCert.hr_of_rClaims (h.1.trans hv.symm)
  obtain ⟨nh, cnh, heq, -, -⟩ := resetNHForDBR_eq b v
  refine after_set_cases
    (P := fun b' => b'.rCert.rClaims = claims ∧ b'.preVoteNil.isSome ∧ b'.preCommit = none) c b v
    h (fun ha => absurd ha.hr_lt (by omega)) ?_ ?_ ?_
  · exact fun _ => by rwa [heq]
  · intro _
    rw [setTypeConflict_rCert, heq]
    cases v <;> exact h
  · intro _ hadm _ _
    rw [setVote_rCert]
    rw [heq] at hadm ⊢
    cases v with
    | preCommit w =>
      obtain ⟨pvn, hpvn⟩ := Option.isSome_iff_exists.mp h.2.1
      simp [admits, hpvn] at hadm
    | preVoteNil w => exact ⟨h.1, rfl, h.2.2⟩
    | _ => exact h

/-- Two states hold the same votes for every validator, and the engine counts the same. -/
structure SameVotes (s s' : RoundStates) : Prop where
  states : ∀ a, s.getRoundState a = s'.getRoundState a
  preVotes : s.getCurrentPreVotes = s'.getCurrentPreVotes
  preCommits : s.getCurrentPreCommits = s'.getCurrentPreCommits
  next : s.getCurrentNext = s'.getCurrentNext

section Order

variable {ms l l' : List VoteMsg} (hround : claims.round < Constants.deadBlockRound)
  (hempty : r₀.EmptyAt claims)
  (hvotes : r₀.NonEquivocating claims block (ms.flatMap carried))

theorem mem_flatMap_carried (h : ∀ m, m ∈ l ↔ m ∈ ms) {x : Bytes × Vote} :
    x ∈ l.flatMap carried ↔ x ∈ ms.flatMap carried := by
  simp only [mem_flatMap, h]

theorem Tracks.refl : Tracks r₀ [] r₀ := ⟨fun a => by simp [votesOf, storeAll], rfl, rfl⟩

include hround hempty hvotes

theorem sameVotes_of_noPreCommitAfterNil (hmix : NoPreCommitAfterNil (ms.flatMap carried))
    (hl : ∀ m, m ∈ l ↔ m ∈ ms) (hl' : ∀ m, m ∈ l' ↔ m ∈ ms) :
    SameVotes (exec (VoteMsg.deliver c) r₀ l) (exec (VoteMsg.deliver c) r₀ l') := by
  have hs := Tracks.refl.exec (c := c) hvotes hmix hround hempty (nil_subset _)
    fun x hx => (mem_flatMap_carried hl).mp hx
  have hs' := Tracks.refl.exec (c := c) hvotes hmix hround hempty (nil_subset _)
    fun x hx => (mem_flatMap_carried hl').mp hx
  rw [List.nil_append] at hs hs'
  have hstates (a) : (exec (deliver c) r₀ l).getRoundState a =
    (exec (deliver c) r₀ l').getRoundState a := by
    rw [hs.states, hs'.states]
    cases hb : r₀.getRoundState a with
    | none => rfl
    | some b =>
      refine congrArg some (storeAll_congr (hempty a b hb).slot (fun v hv w hw hk => ?_)
        fun v => ?_)
      · exact hvotes.one _ ((mem_flatMap_carried hl).mp (mem_votesOf.mp hv)) _
          ((mem_flatMap_carried hl).mp (mem_votesOf.mp hw)) rfl hk
      · simp only [mem_votesOf, mem_flatMap_carried hl, mem_flatMap_carried hl']
  have hown := hs.ownState.trans hs'.ownState.symm
  have hvs := hs.validatorSet.trans hs'.validatorSet.symm
  refine ⟨hstates, ?_, ?_, ?_⟩
  · simp only [getCurrentPreVotes, currentVotes_congr hstates hown hvs]
  · simp only [getCurrentPreCommits, currentVotes_congr hstates hown hvs]
  · simp only [getCurrentNext, currentVotes_congr hstates hown hvs]

/-- A message is stored whole when it comes first. -/
theorem has_first {m : VoteMsg} (hm : m ∈ ms) (hx : (a, v) ∈ m.carried) :
    (m.deliver c r₀).Has a fun b => b.slot v.kind = some v ∧ b.rCert.rClaims = claims ∧
      ∀ {k w}, b.slot k = some w → (a, w) ∈ m.carried := by
  have hsub : m.carried ⊆ ms.flatMap carried := fun x hx =>
    mem_flatMap.mpr ⟨m, hm, hx⟩
  have hown : r₀.NonEquivocating claims block m.carried :=
    ⟨fun x hx => hvotes.known x (hsub hx), fun x hx => hvotes.claims x (hsub hx),
      fun x hx => hvotes.block x (hsub hx), fun x hx y hy => hvotes.one x (hsub hx) y (hsub hy),
      fun x hx y hy => hvotes.preVote x (hsub hx) y (hsub hy),
      fun x hx y hy => hvotes.preCommit x (hsub hx) y (hsub hy)⟩
  have ht := Tracks.refl.deliver (c := c) hown (noPreCommitAfterNil_carried m) hround hempty
    (nil_subset _) (List.Subset.refl _)
  rw [List.nil_append] at ht
  obtain ⟨b, hb⟩ := Option.isSome_iff_exists.mp (hown.known _ hx)
  refine ⟨_, by rw [ht.states, hb, Option.map_some], ?_, ?_, ?_⟩
  · refine slot_storeAll_of_mem (fun w hw w' hw' hk => ?_) (mem_votesOf.mpr hx)
    exact hown.one _ (mem_votesOf.mp hw) _ (mem_votesOf.mp hw') rfl hk
  · have hbare := congrArg RoundState.rCert (bare_storeAll (b := b) (votesOf a m.carried))
    exact (congrArg RCert.rClaims hbare).trans (hempty a b hb).2
  · exact fun hw => mem_votesOf.mp (mem_of_slot_storeAll (hempty a b hb).slot hw).1

/-- A precommit after a nil prevote is refused and a nil prevote after a precommit is stored, so
two votes of this kind make the order matter. -/
theorem noPreCommitAfterNil_of_sameVotes
    (h : ∀ l l' : List VoteMsg, (∀ m, m ∈ l ↔ m ∈ ms) → (∀ m, m ∈ l' ↔ m ∈ ms) →
      SameVotes (exec (deliver c) r₀ l) (exec (deliver c) r₀ l')) :
    NoPreCommitAfterNil (ms.flatMap carried) := by
  rintro ⟨a, v⟩ hv ⟨_, w⟩ hw rfl ⟨hpc, hpvn⟩
  obtain ⟨m1, hm1, hv⟩ := mem_flatMap.mp hv
  obtain ⟨m2, hm2, hw⟩ := mem_flatMap.mp hw
  have hclaims {m} (hm : m ∈ ms) {a v} (hx : (a, v) ∈ m.carried) : v.rCert.rClaims = claims :=
    hvotes.claims _ (mem_flatMap.mpr ⟨m, hm, hx⟩)
  have hkept {P : RoundState → Prop}
      (hset : ∀ v, v.rCert.rClaims = claims → ∀ b, P b → P (after (RoundState.set c v) b))
      (hmark : ∀ b, P b → P { b with implicitPCN := true }) {s : RoundStates} (hs : s.Has a P) :
      (exec (deliver c) s ms).Has a P := by
    refine invariant (P := fun _ m => m ∈ ms) (Has a P)
      (fun s m hs hm => hs.deliver (fun v hx => hset v (hclaims hm hx)) hmark) hs ?_
    exact along_of_forall (fun _ m hm => hm)
  have hsame := (h (m1 :: ms) (m2 :: ms) (by simp [hm1]) (by simp [hm2])).states a
  obtain ⟨b1, hb1, hslot1, hrc1, -⟩ := has_first (c := c) hround hempty hvotes hm1 hv
  obtain ⟨b2, hb2, hslot2, hrc2, honly⟩ := has_first (c := c) hround hempty hvotes hm2 hw
  have hsome : b1.preCommit.isSome := by
    rw [hpc] at hslot1
    simpa [RoundState.slot] using congrArg Option.isSome hslot1
  have hpvn' : b2.preVoteNil.isSome := by
    rw [hpvn] at hslot2
    simpa [RoundState.slot] using congrArg Option.isSome hslot2
  have hnone : b2.preCommit = none := by
    cases hpc' : b2.preCommit with
    | none => rfl
    | some pc =>
      have hs : b2.slot .preCommit = some (.preCommit pc) := by simp [RoundState.slot, hpc']
      exact absurd ⟨rfl, hpvn⟩ (noPreCommitAfterNil_carried m2 _ (honly hs) _ hw rfl)
  obtain ⟨b1', hb1', -, hsome'⟩ := hkept (fun v hv => preCommit_isSome_kept hv) (fun _ h => h)
    ⟨b1, hb1, hrc1, hsome⟩
  obtain ⟨b2', hb2', -, -, hnone'⟩ := hkept (fun v hv => preCommit_none_kept hv) (fun _ h => h)
    ⟨b2, hb2, hrc2, hpvn', hnone⟩
  rw [exec_cons, exec_cons, hb1', hb2', Option.some_inj] at hsame
  subst hsame
  rw [hnone'] at hsome'
  cases hsome'

end Order

/-- For votes without equivocation, the votes stored are the same for every order and repetition of
the messages exactly if no validator has both a nil prevote and a precommit among them. -/
theorem deliver_order_irrelevant_iff (c : Crypto) (r : RoundStates) (claims : RClaims)
    (block : BClaims)
    (ms : List VoteMsg) (hround : claims.round < Constants.deadBlockRound)
    (hempty : r.EmptyAt claims)
    (hvotes : r.NonEquivocating claims block (ms.flatMap VoteMsg.carried)) :
    (∀ l l' : List VoteMsg, (∀ m, m ∈ l ↔ m ∈ ms) → (∀ m, m ∈ l' ↔ m ∈ ms) →
      SameVotes (Run.exec (VoteMsg.deliver c) r l) (Run.exec (VoteMsg.deliver c) r l')) ↔
    NoPreCommitAfterNil (ms.flatMap VoteMsg.carried) :=
  ⟨noPreCommitAfterNil_of_sameVotes hround hempty hvotes, fun hmix _ _ hl hl' =>
    sameVotes_of_noPreCommitAfterNil hround hempty hvotes hmix hl hl'⟩

theorem fresh_emptyAt (ownState : OwnState) (vs : ValidatorSet) (rc : RCert) :
    (fresh ownState vs rc).EmptyAt rc.rClaims := by
  intro a b hb
  have hfold (l : List (Validator × Nat)) (m : AList fun _ : Bytes => RoundState)
      (hm : ∀ a b, m.lookup a = some b → b.EmptyAt rc.rClaims) :
      ∀ a b, (l.foldl (fun m x => m.insert x.1.vAddr
        { vAddr := x.1.vAddr, groupKey := vs.groupKey, groupShare := x.1.groupShare,
          groupIdx := UInt8.ofNat x.2, rCert := rc }) m).lookup a = some b →
        b.EmptyAt rc.rClaims := by
    induction l generalizing m with
    | nil => exact hm
    | cons x l ih =>
      refine ih _ fun a b h => ?_
      by_cases hx : a = x.1.vAddr
      · subst hx
        rw [AList.lookup_insert, Option.some_inj] at h
        subst h
        exact ⟨rfl, rfl⟩
      · rw [AList.lookup_insert_ne hx] at h
        exact hm a b h
  exact hfold _ ∅ (by simp) a b hb

section Sample

/-- The first validator prevotes nil, then sees the prevotes of the three others. -/
def sampleNil : Validated PreVoteNil := { obj := ⟨sampleRCert, [1]⟩, voter := [1] }

def sampleLate : Validated PreCommit where
  obj := ⟨sampleProposal, [1], [[2], [3], [4]]⟩
  proposer := [3]
  voter := [1]
  signers := [[2], [3], [4]]

/-- The validator's precommit counts in one of the two orders only. -/
theorem deliver_order_matters : sampleNil.obj.validateSignatures Crypto.ideal = .ok sampleNil ∧
    sampleLate.obj.validateSignatures Crypto.ideal = .ok sampleLate ∧
    sampleRCert.round < Constants.deadBlockRound ∧
    sampleStates.EmptyAt sampleRCert.rClaims ∧
    sampleStates.NonEquivocating sampleRCert.rClaims sampleProposal.bClaims
      ([.preVoteNil sampleNil, .preCommit sampleLate].flatMap VoteMsg.carried) ∧
    (Run.exec (VoteMsg.deliver Crypto.ideal) sampleStates
      [.preVoteNil sampleNil, .preCommit sampleLate]).getCurrentPreCommits.1 = [] ∧
    (Run.exec (VoteMsg.deliver Crypto.ideal) sampleStates
      [.preCommit sampleLate, .preVoteNil sampleNil]).getCurrentPreCommits.1 =
      [sampleLate.obj] := by
  refine ⟨rfl, rfl, by decide, fresh_emptyAt _ _ _, ⟨?_, ?_, ?_, ?_, ?_, ?_⟩, ?_, ?_⟩ <;>
    decide +kernel

/-- The precommit and a nil precommit of another validator, in two orders and with a repetition. -/
theorem deliver_order_irrelevant_sample :
    let nil : VoteMsg := .preCommitNil { obj := ⟨sampleRCert, [2]⟩, voter := [2] }
    SameVotes
      (Run.exec (VoteMsg.deliver Crypto.ideal) sampleStates [.preCommit samplePreCommit, nil])
      (Run.exec (VoteMsg.deliver Crypto.ideal) sampleStates [nil, .preCommit samplePreCommit,
      nil]) := by
  intro nil
  have hvotes : sampleStates.NonEquivocating sampleRCert.rClaims sampleProposal.bClaims
      ([.preCommit samplePreCommit, nil].flatMap carried) := by
    refine ⟨?_, ?_, ?_, ?_, ?_, ?_⟩ <;> decide +kernel
  have hmix : NoPreCommitAfterNil ([.preCommit samplePreCommit, nil].flatMap carried) := by
    unfold NoPreCommitAfterNil
    decide +kernel
  refine (deliver_order_irrelevant_iff Crypto.ideal sampleStates _ _ _ (by decide)
    (fresh_emptyAt _ _ _) hvotes).mpr hmix _ _ (fun _ => .rfl) fun m => ?_
  simp only [mem_cons, List.not_mem_nil, or_false]
  tauto

end Sample

end RoundStates

end MadNet
