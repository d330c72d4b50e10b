import MadNet.Trie.ParseBatch

/-!
# Batches that no index leaves

The slots of a batch from a peer are visited while their children are not empty. A slot is malformed
if visiting it leaves the batch: the verification stops there, unless it has found a wrong hash
before.
-/

namespace MadNet.Trie

open Prog List RawBatch

variable {D : Type}

namespace RawBatch

variable (b : RawBatch D)

/-- A child of the slot is visited. -/
def descends (i : Nat) : Bool := b.hasChildren (2 * i + 1) || b.hasChildren (2 * i + 2)

def lacksChild (i : Nat) : Bool := (b.slot (2 * i + 1)).isNone || (b.slot (2 * i + 2)).isNone

/-- The slot is read though it is empty, or its children are hashed as a key and a value though one
of them is empty. The root is read if no slot below its children is set. -/
def malformed (i : Nat) : Bool :=
  if b.descends i then i != 0 && (b.slot i).isNone
  else
    match b.slot i with
    | none => true
    | some node => node.flagged && b.lacksChild i

/-- The slots that are verified below and at an index, with their heights: the children before the
parent, the left one first. -/
def verified : Nat → Nat → List (Nat × Nat)
  | 0, _ => []
  | n + 1, i =>
    (if b.hasChildren (2 * i + 1) then verified n (2 * i + 1) else []) ++
    (if b.hasChildren (2 * i + 2) then verified n (2 * i + 2) else []) ++ [(n + 1, i)]

/-- The shortcuts that are read below and at an index. -/
def shortcuts : Nat → Nat → List Nat
  | 0, _ => []
  | n + 1, i =>
    if b.isLeafAt i then [i]
    else
      (if b.hasChildren (2 * i + 1) then shortcuts n (2 * i + 1) else []) ++
      (if b.hasChildren (2 * i + 2) then shortcuts n (2 * i + 2) else [])

variable (toKey : D → Key) (H : Hasher D)

/-- The bytes of a child that has been verified. -/
def childDigest (i : Nat) : D :=
  if b.hasChildren i then slotDigest H (b.slot i) else H.defaultLeaf

/-- The hash of the children of a slot, as their bytes say. -/
def childrenHash (height : Int) (i : Nat) : D :=
  if b.descends i then H.interior (b.childDigest H (2 * i + 1)) (b.childDigest H (2 * i + 2))
  else
    match (b.slot i).any Raw.flagged, b.slot (2 * i + 1), b.slot (2 * i + 2) with
    | true, some l, some r => H.leaf (toKey l.bytes) r.bytes (.ofInt height)
    | _, l, r => H.interior (slotDigest H l) (slotDigest H r)

/-- The bytes that the hash of the children of a slot should have. -/
def ownBytes (root : D) (i : Nat) : D := if i = 0 then root else slotDigest H (b.slot i)

variable [DecidableEq D]

def mismatched (height : Int) (root : D) (v : Nat × Nat) : Bool :=
  b.childrenHash toKey H (height + v.1) v.2 != b.ownBytes H root v.2

/-- The first slot at which the verification stops. -/
def firstFault (height : Int) (root : D) (n i : Nat) : Option (Nat × Nat) :=
  (b.verified n i).find? fun v => b.malformed v.2 || b.mismatched toKey H height root v

/-- The verification does not stop at a malformed slot; and if it does not stop, both children of
every shortcut that is read are there. -/
def Safe (height : Int) (root : D) : Prop :=
  match b.firstFault toKey H height root 4 0 with
  | some v => b.malformed v.2 = false
  | none => ∀ i ∈ b.shortcuts 4 0, b.lacksChild i = false

/-! ## What the functions do -/

section

variable {b toKey H} {i n : Nat} {height : Int} {root : D}

/-- The outcome of `verifyBatch`, by the first fault. -/
def Outcome (own : Option D) (x : Except SyncErr (Option D × Bool)) (b : RawBatch D) :
    Option (Nat × Nat) → Prop
  | none => x = .ok (own, true)
  | some v => if b.malformed v.2 then x = .error .panic else ∃ res, x = .ok (res, false)

omit [DecidableEq D] in
theorem hasChildren_eq_false (hi : 15 ≤ i) : b.hasChildren i = false := by
  rw [hasChildren, decide_eq_false (by omega)]
  rfl

omit [DecidableEq D] in
theorem slot_isSome_of_not_malformed (hm : b.malformed i = false) (hi : i ≠ 0) :
    ∃ raw, b.slot i = some raw := by
  rw [← Option.isSome_iff_exists]
  unfold malformed at hm
  split at hm
  · simpa [hi, Option.isSome_iff_ne_none] using hm
  · split at hm
    · cases hm
    next h => rw [h]; rfl

/-- What a visited child gives, when it is the hash of its children. -/
def childResult (b : RawBatch D) (H : Hasher D) (i : Nat) : Option D :=
  if b.hasChildren i then some (b.childDigest H i) else none

omit [DecidableEq D] in
theorem childResult_getD : (b.childResult H i).getD H.defaultLeaf = b.childDigest H i := by
  unfold childResult childDigest
  split <;> rfl

/-- The last part of `verifyBatch`. -/
def verifySlot (b : RawBatch D) (toKey : D → Key) (H : Hasher D) (height : Int) (root : D) (i : Nat)
    (lres rres : Option D) : Except SyncErr (Option D × Bool) := do
  let res ← b.hashSlots toKey H height i lres rres
  let bytes ← b.expected root i
  return (res, decide (res = some bytes))

omit [DecidableEq D] in
theorem hashSlots_of_descends (hd : b.descends i = true) :
    b.hashSlots toKey H height i (b.childResult H (2 * i + 1)) (b.childResult H (2 * i + 2)) =
      .ok (some (b.childrenHash toKey H height i)) := by
  have hl := childResult_getD (b := b) (H := H) (i := 2 * i + 1)
  have hr := childResult_getD (b := b) (H := H) (i := 2 * i + 2)
  rw [childrenHash, if_pos hd, ← hl, ← hr]
  unfold descends at hd
  unfold childResult
  cases hlc : b.hasChildren (2 * i + 1) <;> cases hrc : b.hasChildren (2 * i + 2) <;>
    simp_all [hashSlots]

omit [DecidableEq D] in
theorem childResult_of_not_descends (hd : b.descends i = false) :
    b.childResult H (2 * i + 1) = none ∧ b.childResult H (2 * i + 2) = none := by
  rw [descends, Bool.or_eq_false_iff] at hd
  exact ⟨if_neg (by simp [hd.1]), if_neg (by simp [hd.2])⟩

theorem verifySlot_of_malformed (hi : i < 15) (hm : b.malformed i = true) :
    b.verifySlot toKey H height root i (b.childResult H (2 * i + 1)) (b.childResult H (2 * i + 2)) =
      .error .panic := by
  unfold verifySlot
  cases hd : b.descends i with
  | true =>
    rw [malformed, if_pos hd, Bool.and_eq_true, bne_iff_ne, Option.isNone_iff_eq_none] at hm
    rw [hashSlots_of_descends hd, expected, if_neg hm.1, slice, hm.2]
    rfl
  | false =>
    obtain ⟨hl, hr⟩ := childResult_of_not_descends (H := H) hd
    rw [malformed, if_neg (by simp [hd])] at hm
    rw [hl, hr, hashSlots, slice]
    cases hslot : b.slot i with
    | none => rfl
    | some node =>
      simp only [hslot, Bool.and_eq_true, lacksChild, Bool.or_eq_true,
        Option.isNone_iff_eq_none] at hm
      obtain ⟨hflag, hnone | hnone⟩ := hm
      · simp only [bind, Except.bind, hflag, hi, slice, hnone, and_self, if_true]
      · simp only [bind, Except.bind, hflag, hi, slice, hnone, and_self, if_true]
        cases b.slot (2 * i + 1) <;> rfl

theorem verifySlot_of_not_malformed (hi : i < 15) (hc : i = 0 ∨ b.hasChildren i = true)
    (hm : b.malformed i = false) :
    b.verifySlot toKey H height root i (b.childResult H (2 * i + 1)) (b.childResult H (2 * i + 2)) =
      .ok (some (b.childrenHash toKey H height i),
        decide (b.childrenHash toKey H height i = b.ownBytes H root i)) := by
  have hexp : b.expected root i = .ok (b.ownBytes H root i) := by
    unfold expected ownBytes
    split
    · rfl
    next hi0 =>
      obtain ⟨raw, hraw⟩ := slot_isSome_of_not_malformed hm hi0
      rw [slice, hraw]
      rfl
  have hhash : b.hashSlots toKey H height i (b.childResult H (2 * i + 1))
      (b.childResult H (2 * i + 2)) = .ok (some (b.childrenHash toKey H height i)) := by
    cases hd : b.descends i with
    | true => exact hashSlots_of_descends hd
    | false =>
      obtain ⟨hl, hr⟩ := childResult_of_not_descends (H := H) hd
      rw [malformed, if_neg (by simp [hd])] at hm
      rw [hl, hr, hashSlots, slice, childrenHash, if_neg (by simp [hd])]
      cases hslot : b.slot i with
      | none =>
        rw [hslot] at hm
        cases hm
      | some node =>
        have hi0 : i ≠ 0 := by
          rintro rfl
          rw [slot_zero] at hslot
          cases hslot
        have hc := hc.resolve_left hi0
        rw [hslot] at hm
        simp only [lacksChild, Bool.and_eq_false_iff, Bool.or_eq_false_iff] at hm
        rw [hasChildren, Bool.and_eq_true, Bool.or_eq_true] at hc
        cases hflag : node.flagged <;> cases hsl : b.slot (2 * i + 1) <;>
          cases hsr : b.slot (2 * i + 2) <;>
          simp_all [slotDigest, bind, Except.bind, pure, Except.pure, slice]
  rw [verifySlot, hhash, hexp]
  refine congrArg (fun e => Except.ok (some _, e)) ?_
  simp

/-- The first fault below a slot and at it. -/
theorem firstFault_succ : b.firstFault toKey H height root (n + 1) i =
    ((if b.hasChildren (2 * i + 1) then b.firstFault toKey H height root n (2 * i + 1) else none).or
      (if b.hasChildren (2 * i + 2) then b.firstFault toKey H height root n (2 * i + 2)
        else none)).or
      (if b.malformed i || b.mismatched toKey H height root (n + 1, i) then some (n + 1, i)
        else none) := by
  simp only [firstFault, verified, find?_append, find?_singleton]
  congr 2 <;> split <;> rfl

theorem outcome_verifyChild {c : Nat} {fault : Option (Nat × Nat)} (hc : c ≠ 0)
    (h : b.hasChildren c = true →
      Outcome (some (b.ownBytes H root c)) (b.verifyBatch toKey H height root n c) b fault) :
    Outcome (b.childResult H c) (b.verifyChild (b.verifyBatch toKey H height root n) c) b
      (if b.hasChildren c then fault else none) := by
  unfold verifyChild childResult
  cases hch : b.hasChildren c with
  | true =>
    have hown : b.ownBytes H root c = b.childDigest H c := by
      rw [ownBytes, if_neg hc, childDigest, if_pos hch]
    rw [← hown]
    exact h hch
  | false => rfl

theorem verifyBatch_succ : b.verifyBatch toKey H height root (n + 1) i = (do
    let (lres, leq) ← b.verifyChild (b.verifyBatch toKey H height root n) (2 * i + 1)
    if !leq then return (none, false)
    else
      let (rres, req) ← b.verifyChild (b.verifyBatch toKey H height root n) (2 * i + 2)
      if !req then return (none, false)
      else b.verifySlot toKey H (height + (n + 1)) root i lres rres) := rfl

omit [DecidableEq D] in
/-- A fault of a child ends the visit of the parent. -/
theorem Outcome.stop {own own' : Option D} {x : Except SyncErr (Option D × Bool)}
    {f : Option D × Bool → Except SyncErr (Option D × Bool)} {v : Nat × Nat}
    (h : Outcome own x b (some v)) (hf : ∀ res, f (res, false) = .ok (none, false)) :
    Outcome own' (x >>= f) b (some v) := by
  simp only [Outcome] at h ⊢
  split at h
  next hm =>
    rw [if_pos hm, h]
    rfl
  next hm =>
    obtain ⟨res, h⟩ := h
    rw [if_neg hm, h]
    exact ⟨none, hf res⟩

/-- The children are visited before the slot is compared with their hash. -/
theorem outcome_verifyBatch_succ {fl fr : Option (Nat × Nat)} (hi : i < 15)
    (hc : i = 0 ∨ b.hasChildren i = true)
    (hl : Outcome (b.childResult H (2 * i + 1))
      (b.verifyChild (b.verifyBatch toKey H height root n) (2 * i + 1)) b fl)
    (hr : Outcome (b.childResult H (2 * i + 2))
      (b.verifyChild (b.verifyBatch toKey H height root n) (2 * i + 2)) b fr) :
    Outcome (some (b.ownBytes H root i)) (b.verifyBatch toKey H height root (n + 1) i) b
      ((fl.or fr).or (if b.malformed i || b.mismatched toKey H height root (n + 1, i)
        then some (n + 1, i) else none)) := by
  rw [verifyBatch_succ]
  cases fl with
  | some v => exact hl.stop fun _ => rfl
  | none =>
    rw [show b.verifyChild (b.verifyBatch toKey H height root n) (2 * i + 1) = _ from hl]
    cases fr with
    | some v => exact hr.stop fun _ => rfl
    | none =>
      rw [show b.verifyChild (b.verifyBatch toKey H height root n) (2 * i + 2) = _ from hr]
      change Outcome _ (b.verifySlot toKey H _ root i _ _) b (if _ then _ else _)
      cases hm : b.malformed i with
      | true =>
        rw [verifySlot_of_malformed hi hm]
        change if b.malformed i then _ else _
        rw [if_pos hm]
      | false =>
        rw [verifySlot_of_not_malformed hi hc hm, Bool.false_or]
        have hheight : height + ((n + 1 : Nat) : Int) = height + (n + 1) := by push_cast; rfl
        unfold mismatched
        dsimp only
        rw [hheight]
        by_cases heq : b.childrenHash toKey H (height + (n + 1)) i = b.ownBytes H root i
        · rw [heq, if_neg (by simp)]
          exact congrArg Except.ok (by simp)
        · rw [if_pos (bne_iff_ne.mpr heq)]
          change if b.malformed i then _ else _
          rw [if_neg (by simp [hm]), decide_eq_false heq]
          exact ⟨_, rfl⟩

/-- The outcome of a visit, by the first slot at which it stops. -/
theorem verifyBatch_outcome (hlo : 8 ≤ (i + 1) * 2 ^ n) (hhi : (i + 2) * 2 ^ n ≤ 16)
    (hc : i = 0 ∨ b.hasChildren i = true) :
    Outcome (some (b.ownBytes H root i)) (b.verifyBatch toKey H height root (n + 1) i) b
      (b.firstFault toKey H height root (n + 1) i) := by
  rw [firstFault_succ]
  induction n generalizing i with
  | zero =>
    have hno {c : Nat} (hlt : 15 ≤ c) (h : b.hasChildren c = true) : False := by
      rw [hasChildren_eq_false hlt] at h
      cases h
    exact outcome_verifyBatch_succ (by omega) hc
      (outcome_verifyChild (by omega) fun h => (hno (by omega) h).elim)
      (outcome_verifyChild (by omega) fun h => (hno (by omega) h).elim)
  | succ n ih =>
    have hi : i < 15 := by
      have := Nat.le_mul_of_pos_right (i + 2) (Nat.two_pow_pos (n + 1))
      omega
    obtain ⟨hlol, hhil⟩ := span_child (.inl rfl) hlo hhi
    obtain ⟨hlor, hhir⟩ := span_child (.inr rfl) hlo hhi
    refine outcome_verifyBatch_succ hi hc (outcome_verifyChild (by omega) fun h => ?_)
      (outcome_verifyChild (by omega) fun h => ?_)
    · rw [firstFault_succ]
      exact ih hlol hhil (.inr h)
    · rw [firstFault_succ]
      exact ih hlor hhir (.inr h)

section

omit [DecidableEq D]

theorem lt_of_hasChildren (h : b.hasChildren i = true) : i < 15 := by
  by_contra hi
  rw [hasChildren_eq_false (by omega)] at h
  cases h

/-- Each visited child is below the slot. -/
theorem mem_verified_child {v : Nat × Nat} {c : Nat} (hc : c = 2 * i + 1 ∨ c = 2 * i + 2)
    (hch : b.hasChildren c = true) (hv : v ∈ b.verified n c) : v ∈ b.verified (n + 1) i := by
  rw [verified, mem_append, mem_append]
  rcases hc with rfl | rfl
  · rw [if_pos hch]
    exact .inl (.inl hv)
  · rw [if_pos hch]
    exact .inl (.inr hv)

theorem mem_verified_self : (n + 1, i) ∈ b.verified (n + 1) i :=
  mem_append_right _ (mem_singleton.mpr rfl)

/-- The nodes of a batch without a malformed slot. -/
theorem getInteriorNodesNext_ok (hm : ∀ v ∈ b.verified n i, b.malformed v.2 = false) :
    ∃ nodes, b.getInteriorNodesNext n i = .ok nodes := by
  induction n generalizing i with
  | zero => exact ⟨[], rfl⟩
  | succ n ih =>
    have hchild {c : Nat} (hc : c = 2 * i + 1 ∨ c = 2 * i + 2) :
        ∃ nodes, b.descend (b.getInteriorNodesNext n) c = .ok nodes := by
      unfold descend
      split
      next hch => exact ih fun v hv => hm v (mem_verified_child hc hch hv)
      next => exact ⟨[], rfl⟩
    obtain ⟨l, hl⟩ := hchild (.inl rfl)
    obtain ⟨r, hr⟩ := hchild (.inr rfl)
    rw [getInteriorNodesNext, hl, hr]
    change ∃ nodes, (if b.descends i then _ else _) = _
    cases hd : b.descends i with
    | true => exact ⟨l ++ r, rfl⟩
    | false =>
      have hself := hm _ mem_verified_self
      rw [malformed, if_neg (by simp [hd])] at hself
      cases hslot : b.slot i with
      | none =>
        rw [hslot] at hself
        cases hself
      | some node =>
        rw [hslot] at hself
        have hi0 : i ≠ 0 := by
          rintro rfl
          rw [slot_zero] at hslot
          cases hslot
        rw [if_neg Bool.false_ne_true, lastByte, if_neg hi0, slice, hslot]
        change ∃ nodes, (if node.last = 1 ∧ i < 15 then _ else _) = _
        split
        next hlast =>
          have hflag : node.flagged = true := beq_iff_eq.mpr hlast.1
          change (node.flagged && b.lacksChild i) = false at hself
          rw [hflag, Bool.true_and, lacksChild, Bool.or_eq_false_iff] at hself
          obtain ⟨lraw, hlraw⟩ :=
            Option.isSome_iff_exists.mp (Option.isNone_eq_false_iff.mp hself.1)
          obtain ⟨rraw, hrraw⟩ :=
            Option.isSome_iff_exists.mp (Option.isNone_eq_false_iff.mp hself.2)
          rw [slice, slice, hlraw, hrraw]
          exact ⟨[], rfl⟩
        next => exact ⟨_, rfl⟩

end

/-- The loop leaves the batch, or it returns. -/
def Panics {α : Type} (x : Except SyncErr (List α)) (p : Bool) : Prop :=
  if p then x = .error .panic else ∃ l, x = .ok l

omit [DecidableEq D] in
theorem Panics.append {α : Type} {x y : Except SyncErr (List α)} {p q : Bool} (hx : Panics x p)
    (hy : Panics y q) : Panics (do return (← x) ++ (← y)) (p || q) := by
  unfold Panics at *
  cases p with
  | true =>
    rw [if_pos rfl] at hx
    rw [hx]
    rfl
  | false =>
    obtain ⟨l, rfl⟩ := hx
    cases q with
    | true =>
      rw [if_pos rfl] at hy
      rw [hy]
      rfl
    | false =>
      obtain ⟨r, rfl⟩ := hy
      exact ⟨l ++ r, rfl⟩

omit [DecidableEq D] in
/-- The leaves of a batch without a malformed slot. -/
theorem getFinalLeafNodes_panics (hc : i = 0 ∨ b.hasChildren i = true)
    (hm : ∀ v ∈ b.verified n i, b.malformed v.2 = false) :
    Panics (b.getFinalLeafNodes toKey n i) ((b.shortcuts n i).any b.lacksChild) := by
  induction n generalizing i with
  | zero => exact ⟨[], rfl⟩
  | succ n ih =>
    have hi : i < 15 := hc.elim (by omega) lt_of_hasChildren
    have hchild {c : Nat} (hc : c = 2 * i + 1 ∨ c = 2 * i + 2) :
        Panics (b.descend (b.getFinalLeafNodes toKey n) c)
          ((if b.hasChildren c then b.shortcuts n c else []).any b.lacksChild) := by
      unfold descend
      cases hch : b.hasChildren c with
      | true => exact ih (.inr hch) fun v hv => hm v (mem_verified_child hc hch hv)
      | false => exact ⟨[], rfl⟩
    rw [getFinalLeafNodes, shortcuts]
    cases hleaf : b.isLeafAt i with
    | true =>
      rw [lastByte_of_leaf hleaf]
      change Panics (if (1 : UInt8) = 1 ∧ i < 15 then _ else _) _
      rw [if_pos ⟨rfl, hi⟩]
      simp only [if_true, any_cons, any_nil, Bool.or_false, lacksChild, slice]
      cases b.slot (2 * i + 1) with
      | none => exact rfl
      | some l =>
        cases b.slot (2 * i + 2) with
        | none => exact rfl
        | some r => exact ⟨_, rfl⟩
    | false =>
      have hlast : ∃ x, b.lastByte i = .ok x := by
        unfold lastByte
        split
        · exact ⟨_, rfl⟩
        next hi0 =>
          obtain ⟨raw, hraw⟩ := slot_isSome_of_not_malformed (hm _ mem_verified_self) hi0
          rw [slice, hraw]
          exact ⟨_, rfl⟩
      obtain ⟨x, hx⟩ := hlast
      rw [hx]
      change Panics (if x = 1 ∧ i < 15 then _ else _) _
      rw [if_neg fun h => lastByte_of_not_leaf hleaf hx h.1, if_neg Bool.false_ne_true, any_append]
      exact (hchild (.inl rfl)).append (hchild (.inr rfl))

theorem malformed_eq_false_of_firstFault (h : b.firstFault toKey H height root n i = none) :
    ∀ v ∈ b.verified n i, b.malformed v.2 = false := by
  intro v hv
  have := find?_eq_none.mp h v hv
  rw [Bool.or_eq_true, not_or] at this
  exact Bool.eq_false_iff.mpr this.1

end

/-- The visits of a batch that is not a shortcut. -/
theorem verifyBatchEasy_outcome (slots : Fin 30 → Option (Raw D)) (root : D) (layer : Nat) :
    match (regular slots).firstFault toKey H (256 - 4 * (layer + 1)) root 4 0 with
    | none => (regular slots).verifyBatchEasy toKey H root layer = .ok true
    | some v => if (regular slots).malformed v.2
      then (regular slots).verifyBatchEasy toKey H root layer = .error .panic
      else (regular slots).verifyBatchEasy toKey H root layer = .ok false := by
  have hout : Outcome (some ((regular slots).ownBytes H root 0))
      ((regular slots).verifyBatch toKey H (256 - 4 * (layer + 1)) root 4 0) (regular slots)
      ((regular slots).firstFault toKey H (256 - 4 * (layer + 1)) root 4 0) :=
    verifyBatch_outcome (by omega) (by omega) (.inl rfl)
  rw [verifyBatchEasy]
  cases hf : (regular slots).firstFault toKey H (256 - 4 * (layer + 1)) root 4 0 with
  | none =>
    rw [hf] at hout
    rw [show (regular slots).verifyBatch toKey H _ root 4 0 = _ from hout]
    rfl
  | some v =>
    rw [hf] at hout
    simp only [Outcome] at hout ⊢
    split at hout
    next hm =>
      rw [if_pos hm, hout]
      rfl
    next hm =>
      obtain ⟨res, hout⟩ := hout
      rw [if_neg hm, hout]
      rfl

end RawBatch

/-- `StoreSnapShotNode`, on the bytes from a peer. -/
def storeSnapShotBytes (H : Hasher Word) (toKey : Word → Key) (db : Word → Option (Record Word))
    (batch : List UInt8) (root : Word) (layer : Nat) :
    Except SyncErr ((Word → Option (Record Word)) × List Word × Nat × List (Key × Word)) := do
  let pbatch ← RawBatch.parseBatch batch
  storeSnapShotNode H toKey db pbatch root layer

section

variable [DecidableEq D] (H : Hasher D) (toKey : D → Key) (db : D → Option (Record D)) (root : D)
  (layer : Nat)

theorem storeSnapShotNode_shortcut (key value : Raw D) :
    storeSnapShotNode H toKey db (.shortcut key value) root layer ≠ .error .panic := by
  intro h
  rcases except_bind_eq_error.mp h with h | ⟨ok, -, h⟩
  · cases h
  split at h
  · cases h
  · cases h

theorem storeSnapShotNode_regular (slots : Fin 30 → Option (Raw D)) :
    storeSnapShotNode H toKey db (.regular slots) root layer ≠ .error .panic ↔
      (regular slots).Safe toKey H (256 - 4 * (layer + 1)) root := by
  have hout := verifyBatchEasy_outcome toKey H slots root layer
  unfold storeSnapShotNode RawBatch.Safe
  cases hf : (regular slots).firstFault toKey H (256 - 4 * (layer + 1)) root 4 0 with
  | some v =>
    rw [hf] at hout
    dsimp only at hout ⊢
    split at hout
    next hm =>
      rw [hout, hm]
      exact ⟨fun h => absurd rfl h, fun h => nomatch h⟩
    next hm =>
      rw [hout]
      refine ⟨fun _ => Bool.eq_false_iff.mpr hm, fun _ h => ?_⟩
      cases h
  | none =>
    rw [hf] at hout
    dsimp only at hout ⊢
    have hmal := malformed_eq_false_of_firstFault hf
    obtain ⟨nodes, hnodes⟩ := getInteriorNodesNext_ok hmal
    have hleaves : RawBatch.Panics ((regular slots).getFinalLeafNodes toKey 4 0) _ :=
      getFinalLeafNodes_panics (.inl rfl) hmal
    rw [hout]
    change (getInteriorNodesNext _ 4 0 >>= fun _ => _) ≠ _ ↔ _
    rw [hnodes]
    change (getFinalLeafNodes _ toKey 4 0 >>= fun _ => _) ≠ _ ↔ _
    unfold RawBatch.Panics at hleaves
    split at hleaves
    next hany =>
      obtain ⟨i, hi, hlack⟩ := any_eq_true.mp hany
      rw [hleaves]
      refine ⟨fun h => absurd rfl h, fun h => ?_⟩
      rw [h i hi] at hlack
      cases hlack
    next hany =>
      obtain ⟨leaves, hleaves⟩ := hleaves
      rw [hleaves]
      refine ⟨fun _ i hi => ?_, fun _ h => ?_⟩
      · exact Bool.eq_false_iff.mpr fun hlack => hany (any_eq_true.mpr ⟨i, hi, hlack⟩)
      · cases h

end

/-- No index leaves the bytes of a peer or their slots exactly when no malformed slot is reached:
the first slot at which the verification stops is not malformed, and if it does not stop, both
children of every shortcut that is read are there. -/
theorem storeSnapShotBytes_ne_panic_iff (H : Hasher Word) (toKey : Word → Key)
    (db : Word → Option (Record Word)) (batch : List UInt8) (root : Word) (layer : Nat) :
    storeSnapShotBytes H toKey db batch root layer ≠ .error .panic ↔
      (4 + 33 * rank batch 30 ≤ batch.length → bit batch 31 = false →
        (RawBatch.regular fun i => slotAt batch i).Safe toKey H (256 - 4 * (layer + 1)) root) := by
  by_cases hlen : 4 ≤ batch.length
  · unfold storeSnapShotBytes
    rw [parseBatch_eq hlen]
    cases bit batch 31 with
    | true =>
      refine ⟨fun _ _ h => (nomatch h), fun _ => ?_⟩
      rw [if_pos rfl]
      split
      · exact fun h => nomatch h
      · exact storeSnapShotNode_shortcut H toKey db root layer _ _
    | false =>
      rw [if_neg Bool.false_ne_true]
      split
      next hshort => exact ⟨fun _ h => absurd h (by omega), fun _ h => nomatch h⟩
      next hfull =>
        refine (storeSnapShotNode_regular H toKey db root layer _).trans ?_
        exact ⟨fun h _ _ => h, fun h => h (by omega) rfl⟩
  · refine ⟨fun _ h => absurd h (by omega), fun _ => ?_⟩
    unfold storeSnapShotBytes RawBatch.parseBatch
    split
    · exact fun h => nomatch h
    · rw [if_pos (by omega)]
      exact fun h => nomatch h

/-- A bitmap without a bit: the one byte of the root slot is read at the index 32. -/
theorem storeSnapShotBytes_empty_bitmap :
    let zero := Word.ofBytes []
    storeSnapShotBytes ⟨fun _ _ _ => zero, fun _ _ => zero, zero⟩ (fun _ => 0) (fun _ => none) [0,
      0, 0, 0]
      zero 0 = .error .panic :=
  rfl

end MadNet.Trie
