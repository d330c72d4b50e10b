import MadNet.Consensus.RoundStateInvariant

/-!
# The votes of a round state as a finite map

A round state has one slot for each kind of vote. Votes of one round that do not exclude each other
fill their slots one by one, so what a state holds in the end is the set of the votes it was given.
-/

namespace MadNet

open Prog

/-- The slots of a round state. -/
inductive VoteKind where
  | proposal | preVote | preVoteNil | preCommit | preCommitNil | nextRound | nextHeight
  deriving DecidableEq

def Vote.kind : Vote → VoteKind
  | proposal _ => .proposal
  | preVote _ => .preVote
  | preVoteNil _ => .preVoteNil
  | preCommit _ => .preCommit
  | preCommitNil _ => .preCommitNil
  | nextRound _ => .nextRound
  | nextHeight _ => .nextHeight

namespace RoundState

variable {c : Crypto} {b b' b₀ : RoundState} {v w : Vote} {k : VoteKind}

def slot (b : RoundState) : VoteKind → Option Vote
  | .proposal => b.proposal.map .proposal
  | .preVote => b.preVote.map .preVote
  | .preVoteNil => b.preVoteNil.map .preVoteNil
  | .preCommit => b.preCommit.map .preCommit
  | .preCommitNil => b.preCommitNil.map .preCommitNil
  | .nextRound => b.nextRound.map .nextRound
  | .nextHeight => b.nextHeight.map .nextHeight

def bare (b : RoundState) : RoundState :=
  { b with proposal := none, preVote := none, preVoteNil := none, preCommit := none,
           preCommitNil := none, nextRound := none, nextHeight := none }

theorem slot_setVote : (b.setVote v).slot k = if v.kind = k then some v else b.slot k := by
  cases v <;> cases k <;> rfl

theorem bare_setVote : (b.setVote v).bare = b.bare := by cases v <;> rfl

theorem holds_eq_slot : b.holds v = (b.slot v.kind).isSome := by
  cases v <;> simp [holds, slot, Vote.kind]

theorem eq_of_slot_eq (hslot : ∀ k, b.slot k = b'.slot k) (hbare : b.bare = b'.bare) : b = b' := by
  have inj {α : Type} {f : α → Vote} (hf : Function.Injective f) {x y : Option α}
      (h : x.map f = y.map f) : x = y := Option.map_injective hf h
  have h1 := inj (fun _ _ => Vote.proposal.inj) (hslot .proposal)
  have h2 := inj (fun _ _ => Vote.preVote.inj) (hslot .preVote)
  have h3 := inj (fun _ _ => Vote.preVoteNil.inj) (hslot .preVoteNil)
  have h4 := inj (fun _ _ => Vote.preCommit.inj) (hslot .preCommit)
  have h5 := inj (fun _ _ => Vote.preCommitNil.inj) (hslot .preCommitNil)
  have h6 := inj (fun _ _ => Vote.nextRound.inj) (hslot .nextRound)
  have h7 := inj (fun _ _ => Vote.nextHeight.inj) (hslot .nextHeight)
  cases b
  cases b'
  simp_all [bare]

def storeAll (b : RoundState) (vs : List Vote) : RoundState := vs.foldl setVote b

theorem bare_storeAll (vs : List Vote) : (b.storeAll vs).bare = b.bare := by
  induction vs generalizing b with
  | nil => rfl
  | cons v vs ih => exact ih.trans bare_setVote

theorem storeAll_append (vs : List Vote) : b.storeAll (vs ++ [v]) = (b.storeAll vs).setVote v := by
  simp [storeAll]

variable {vs : List Vote}

theorem mem_of_slot_storeAll (hb : ∀ k, b.slot k = none)
    (h : (b.storeAll vs).slot k = some v) : v ∈ vs ∧ v.kind = k := by
  induction vs using List.reverseRecOn with
  | nil => simp [storeAll, hb] at h
  | append_singleton vs w ih =>
    rw [storeAll_append, slot_setVote] at h
    split at h
    next hk =>
      cases h
      exact ⟨by simp, hk⟩
    next =>
      obtain ⟨hmem, hk⟩ := ih h
      exact ⟨by simp [hmem], hk⟩

/-- No two different votes of one kind. -/
def OneEach (vs : List Vote) : Prop := ∀ v ∈ vs, ∀ w ∈ vs, v.kind = w.kind → v = w

theorem slot_storeAll_of_mem (hone : OneEach vs) (h : v ∈ vs) :
    (b.storeAll vs).slot v.kind = some v := by
  induction vs using List.reverseRecOn with
  | nil => simp at h
  | append_singleton vs w ih =>
    rw [storeAll_append, slot_setVote]
    split
    next hk => rw [hone w (by simp) v h hk]
    next hk =>
      have hne : v ≠ w := fun he => hk (he ▸ rfl)
      exact ih (fun x hx y hy => hone x (by simp [hx]) y (by simp [hy])) (by simpa [hne] using h)

/-- What is stored depends on the set of votes only. -/
theorem storeAll_congr (hb : ∀ k, b.slot k = none) {ws : List Vote} (hone : OneEach vs)
    (hmem : ∀ v, v ∈ vs ↔ v ∈ ws) : b.storeAll vs = b.storeAll ws := by
  have hone' : OneEach ws := fun v hv w hw => hone v ((hmem v).mpr hv) w ((hmem w).mpr hw)
  refine eq_of_slot_eq (fun k => ?_) ((bare_storeAll vs).trans (bare_storeAll ws).symm)
  cases hk : (b.storeAll vs).slot k with
  | some v =>
    obtain ⟨hv, rfl⟩ := mem_of_slot_storeAll hb hk
    exact (slot_storeAll_of_mem hone' ((hmem v).mp hv)).symm
  | none =>
    cases hk' : (b.storeAll ws).slot k with
    | none => rfl
    | some v =>
      obtain ⟨hv, rfl⟩ := mem_of_slot_storeAll hb hk'
      rw [slot_storeAll_of_mem hone ((hmem v).mpr hv)] at hk
      cases hk

theorem slot_of_mem_roundBClaims {y : BClaims} (h : y ∈ b.roundBClaims) :
    ∃ k w, b.slot k = some w ∧ w.bClaims? = some y := by
  simp only [roundBClaims, List.mem_append, List.mem_map, Option.mem_toList] at h
  rcases h with (⟨w, hw, rfl⟩ | ⟨w, hw, rfl⟩) | ⟨w, hw, rfl⟩
  · exact ⟨.proposal, .proposal w, by simp [slot, hw], rfl⟩
  · exact ⟨.preVote, .preVote w, by simp [slot, hw], rfl⟩
  · exact ⟨.preCommit, .preCommit w, by simp [slot, hw], rfl⟩

theorem slot_of_mem_nilCerts {rc : RCert} (h : rc ∈ b.nilCerts) :
    ∃ k w, b.slot k = some w ∧ w.rCert = rc := by
  simp only [nilCerts, List.mem_append, List.mem_map, Option.mem_toList] at h
  rcases h with (⟨w, hw, rfl⟩ | ⟨w, hw, rfl⟩) | ⟨w, hw, rfl⟩
  · exact ⟨.preVoteNil, .preVoteNil w, by simp [slot, hw], rfl⟩
  · exact ⟨.preCommitNil, .preCommitNil w, by simp [slot, hw], rfl⟩
  · exact ⟨.nextRound, .nextRound w, by simp [slot, hw], rfl⟩

/-- The round state is at the round of `claims` and holds nothing else. -/
def EmptyAt (claims : RClaims) (b : RoundState) : Prop :=
  b = b.emptied b.rCert none none ∧ b.rCert.rClaims = claims

variable {claims : RClaims}

theorem EmptyAt.slot (h : b.EmptyAt claims) (k : VoteKind) : b.slot k = none := by
  rw [h.1]; cases k <;> rfl

/-- Two votes of one validator that an honest one never casts both. -/
def Excludes (v w : Vote) : Prop :=
  v.kind = .preVote ∧ w.kind = .preVoteNil ∨ v.kind = .preVoteNil ∧ w.kind = .preVote ∨
  v.kind = .preCommit ∧ w.kind = .preCommitNil ∨ v.kind = .preCommitNil ∧ w.kind = .preCommit ∨
  v.kind = .preCommit ∧ w.kind = .preVoteNil

theorem kind_of_slot (h : b.slot k = some w) : w.kind = k := by
  cases k <;> simp only [slot, Option.map_eq_some_iff] at h <;> obtain ⟨x, -, rfl⟩ := h <;> rfl

/-- A round state whose only votes are of other kinds admits a vote. -/
theorem admits_of_not_excludes (hbare : b.bare = b₀) (hb : b₀.EmptyAt claims)
    (hexcl : ∀ k w, b.slot k = some w → ¬Excludes v w) : b.admits v := by
  have hnone (k : VoteKind) (h : ∀ w : Vote, w.kind = k → Excludes v w) : b.slot k = none := by
    cases hs : b.slot k with
    | none => rfl
    | some w => exact absurd (h w (kind_of_slot hs)) (hexcl k w hs)
  have hm : b.marked = false := by
    have : b.bare.marked = b.marked := rfl
    rw [← this, hbare, hb.1]; rfl
  have hc1 : b.conflictingProposal = none := by
    rw [show b.conflictingProposal = b.bare.conflictingProposal from rfl, hbare, hb.1]; rfl
  have hc2 : b.conflictingPreVote = none := by
    rw [show b.conflictingPreVote = b.bare.conflictingPreVote from rfl, hbare, hb.1]; rfl
  have hc3 : b.conflictingPreCommit = none := by
    rw [show b.conflictingPreCommit = b.bare.conflictingPreCommit from rfl, hbare, hb.1]; rfl
  have hc4 : b.conflictingNextHeight = none := by
    rw [show b.conflictingNextHeight = b.bare.conflictingNextHeight from rfl, hbare, hb.1]; rfl
  cases v with
  | proposal v => simp [admits, hm, hc1]
  | preVote v =>
    have := hnone .preVoteNil fun w hw => .inl ⟨rfl, hw⟩
    simp_all [admits, slot]
  | preVoteNil v =>
    have := hnone .preVote fun w hw => .inr (.inl ⟨rfl, hw⟩)
    simp_all [admits, slot]
  | preCommit v =>
    have h1 := hnone .preCommitNil fun w hw => .inr (.inr (.inl ⟨rfl, hw⟩))
    have h2 := hnone .preVoteNil fun w hw => .inr (.inr (.inr (.inr ⟨rfl, hw⟩)))
    simp_all [admits, slot]
  | preCommitNil v =>
    have := hnone .preCommit fun w hw => .inr (.inr (.inr (.inl ⟨rfl, hw⟩)))
    simp_all [admits, slot]
  | nextRound v => simp [admits, hm]
  | nextHeight v => simp [admits, hm, hc4]

/-- Votes of one round for one block agree. -/
theorem agreesWithStored_of_slots {block : BClaims} (hrc : b.rCert.rClaims = claims)
    (hv : v.rCert.rClaims = claims) (hx : ∀ y ∈ v.bClaims?, y = block)
    (hslot : ∀ k w, b.slot k = some w → w.rCert.rClaims = claims ∧ ∀ y ∈ w.bClaims?, y = block) :
    b.agreesWithStored c v := by
  refine agreesWithStored_iff.mpr ⟨by rw [RCert.prevBlock, RCert.prevBlock, hrc, hv],
    fun x hmem => ⟨fun y hy => ?_, fun nh hnh => ?_⟩, fun rc hmem => ?_⟩
  · obtain ⟨k, w, hw, hwy⟩ := slot_of_mem_roundBClaims hy
    rw [hx x hmem, (hslot k w hw).2 y hwy]
  · have hs : b.slot .nextHeight = some (.nextHeight nh) := by
      rw [slot, Option.mem_def.mp hnh, Option.map_some]
    rw [hx x hmem, (hslot _ _ hs).2 nh.bClaims rfl]
  · obtain ⟨k, w, hw, rfl⟩ := slot_of_mem_nilCerts hmem
    rw [RCert.prevBlock, RCert.prevBlock, hv, (hslot k w hw).1]

/-- A vote that fits the votes stored so far fills its slot, or is stale and already there. -/
theorem set_storeAll {block : BClaims} (hb : b.EmptyAt claims)
    (hround : claims.round < Constants.deadBlockRound)
    (hclaims : ∀ w ∈ v :: vs, w.rCert.rClaims = claims)
    (hblock : ∀ w ∈ v :: vs, ∀ y ∈ w.bClaims?, y = block) (hone : OneEach (v :: vs))
    (hexcl : ∀ w ∈ vs, ¬Excludes v w) :
    RoundState.set c v (b.storeAll vs) = .ok true ((b.storeAll vs).setVote v) ∨
      (b.storeAll vs).setVote v = b.storeAll vs ∧
        ∃ msg, RoundState.set c v (b.storeAll vs) = .error (.stale msg) (b.storeAll vs) := by
  have hbare : (b.storeAll vs).bare = b := by
    rw [bare_storeAll, hb.1]; rfl
  have hslot {k w} (h : (b.storeAll vs).slot k = some w) : w ∈ vs ∧ w.kind = k :=
    mem_of_slot_storeAll hb.slot h
  have hv := hclaims v (by simp)
  have hrc : (b.storeAll vs).rCert.rClaims = claims := by
    rw [show (b.storeAll vs).rCert = (b.storeAll vs).bare.rCert from rfl, hbare, hb.2]
  have hadm : (b.storeAll vs).admits v := admits_of_not_excludes hbare hb fun k w hw =>
    hexcl w (hslot hw).1
  have hagr : (b.storeAll vs).agreesWithStored c v :=
    agreesWithStored_of_slots hrc hv (hblock v (by simp)) fun k w hw =>
      have hmem : w ∈ v :: vs := List.mem_cons_of_mem _ (hslot hw).1
      ⟨hclaims w hmem, hblock w hmem⟩
  have hdbr : isDeadBlockRound v.rCert = false := by
    rw [← Bool.not_eq_true, isDeadBlockRound_iff, RCert.round, hv]
    exact UInt32.ne_of_lt hround
  -- nothing is dropped outside the dead block round
  have hreset : (b.storeAll vs).resetNHForDBR v = b.storeAll vs := by
    simp [RoundState.resetNHForDBR, hdbr]
  have hcur : (b.storeAll vs).rCert.hr = v.rCert.hr := RCert.hr_of_rClaims (hrc.trans hv.symm)
  have hset := set_result (c := c) (b.storeAll vs) v
  rw [← hreset] at hadm hagr
  cases hr : RoundState.set c v (b.storeAll vs) with
  | ok ok b' =>
    cases hr ▸ hset with
    | moved _ ha => exact absurd ha.hr_lt (by omega)
    | conflict _ _ _ hd => exact absurd hagr hd
    | stored => exact .inl (by rw [hreset])
  | error e b' =>
    cases hr ▸ hset with
    | forbidden hd => simp [dbrForbidden, hdbr] at hd
    | behind hbehind => exact absurd (Behind.hr_lt hbehind) (by omega)
    | refused _ hd => exact absurd hadm hd
    | conflictDBR _ _ _ hd => exact absurd hagr hd
    | duplicate _ _ _ hh =>
      rw [hreset] at hh ⊢
      rw [holds_eq_slot] at hh
      obtain ⟨w, hw⟩ := Option.isSome_iff_exists.mp hh
      have hwv : w = v := hone w (List.mem_cons_of_mem _ (hslot hw).1) v (by simp) (hslot hw).2
      subst hwv
      refine .inr ⟨eq_of_slot_eq (fun k => ?_) bare_setVote, _, rfl⟩
      rw [slot_setVote]
      split
      next hk => rw [← hk, hw]
      next => rfl

end RoundState

end MadNet
