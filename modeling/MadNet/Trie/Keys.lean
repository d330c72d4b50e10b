import MadNet.Trie.Smt

/-!
# Sorted keys

The two loops over the keys of an update, on keys in strictly increasing order: `splitKeys` on keys
that agree on the bits before the one it looks at, and `maybeAddShortcutToKV`, which is correct
unless the key of the shortcut is deleted together with smaller and larger keys.
-/

namespace MadNet.Trie

open List

variable {D : Type}

/-- The bits of the key above the lowest `n` ones are those of `p`. -/
def HasPrefix (n p : Nat) (k : Key) : Prop := k.toNat / 2 ^ n = p

abbrev Sorted (kvs : List (Key × D)) : Prop := kvs.Pairwise fun a b => a.1 < b.1

variable {h p : Nat} {k k' : Key} {kvs : List (Key × D)}

theorem bitIsSet_iff (hh : h < 256) : bitIsSet k (256 - (h + 1)) = true ↔
    k.toNat / 2 ^ h % 2 = 1 := by
  have hi : 256 - (h + 1) < 256 := by omega
  have hj : 256 - 1 - (256 - (h + 1)) = h := by omega
  rw [bitIsSet, BitVec.getMsbD, decide_eq_true hi, Bool.true_and, hj, BitVec.getLsbD,
    Nat.testBit_eq_decide_div_mod_eq, decide_eq_true_iff]

theorem div_two_pow_succ (k : Key) (h : Nat) : k.toNat / 2 ^ (h + 1) = k.toNat / 2 ^ h / 2 := by
  rw [Nat.pow_succ, Nat.div_div_eq_div_mul]

theorem HasPrefix.right (hh : h < 256) (hk : HasPrefix (h + 1) p k)
    (hbit : bitIsSet k (256 - (h + 1)) = true) : HasPrefix h (2 * p + 1) k := by
  rw [bitIsSet_iff hh] at hbit
  unfold HasPrefix at hk ⊢
  rw [div_two_pow_succ] at hk
  omega

theorem HasPrefix.left (hh : h < 256) (hk : HasPrefix (h + 1) p k)
    (hbit : bitIsSet k (256 - (h + 1)) = false) : HasPrefix h (2 * p) k := by
  have hbit' : ¬k.toNat / 2 ^ h % 2 = 1 := by
    rw [← bitIsSet_iff hh, hbit]
    exact Bool.false_ne_true
  unfold HasPrefix at hk ⊢
  rw [div_two_pow_succ] at hk
  omega

theorem HasPrefix.up {c : Nat} (hk : HasPrefix h (2 * p + c) k) (hc : c < 2) :
    HasPrefix (h + 1) p k := by
  unfold HasPrefix at hk ⊢
  rw [div_two_pow_succ]
  omega

theorem HasPrefix.bit {c : Nat} (hh : h < 256) (hk : HasPrefix h (2 * p + c) k) (hc : c < 2) :
    bitIsSet k (256 - (h + 1)) = decide (c = 1) := by
  rw [Bool.eq_iff_iff, bitIsSet_iff hh, decide_eq_true_iff]
  unfold HasPrefix at hk
  omega

/-- Only one key has all its bits given. -/
theorem HasPrefix.eq_of_zero (hk : HasPrefix 0 p k) (hk' : HasPrefix 0 p k') : k = k' := by
  unfold HasPrefix at hk hk'
  exact BitVec.eq_of_toNat_eq (by simpa using hk.trans hk'.symm)

theorem HasPrefix.unique {p' : Nat} (hk : HasPrefix h p k) (hk' : HasPrefix h p' k) : p = p' :=
  hk.symm.trans hk'

theorem HasPrefix.between {m : Key} (hk : HasPrefix h p k) (hk' : HasPrefix h p k') (h1 : k < m)
    (h2 : m < k') : HasPrefix h p m := by
  have h1 := Nat.div_le_div_right (c := 2 ^ h) (Nat.le_of_lt (BitVec.lt_def.mp h1))
  have h2 := Nat.div_le_div_right (c := 2 ^ h) (Nat.le_of_lt (BitVec.lt_def.mp h2))
  unfold HasPrefix at hk hk' ⊢
  omega

/-! ## Splitting -/

theorem takeWhile_eq_filter {α : Type} {q : α → Bool} {l : List α}
    (hl : l.Pairwise fun a b => q b = true → q a = true) :
    l.takeWhile q = l.filter q ∧ l.dropWhile q = l.filter (!q ·) := by
  induction l with
  | nil => exact ⟨rfl, rfl⟩
  | cons a l ih =>
    obtain ⟨ha, hl⟩ := pairwise_cons.mp hl
    obtain ⟨ih1, ih2⟩ := ih hl
    cases hq : q a with
    | true => simp [hq, ih1, ih2]
    | false =>
      have hnone : ∀ b ∈ l, q b = false := fun b hb => by
        cases hqb : q b with
        | false => rfl
        | true => exact absurd (ha b hb hqb) (by simp [hq])
      simp only [takeWhile_cons, dropWhile_cons, filter_cons, hq]
      constructor
      · exact (filter_eq_nil_iff.mpr fun b hb => by simp [hnone b hb]).symm
      · exact congrArg (a :: ·) (filter_eq_self.mpr fun b hb => by simp [hnone b hb]).symm

theorem splitKeys_append {lkvs rkvs : List (Key × D)} {n : Nat}
    (h : splitKeys kvs n = (lkvs, rkvs)) : lkvs ++ rkvs = kvs := by
  rw [splitKeys, span_eq_takeWhile_dropWhile] at h
  cases h
  exact takeWhile_append_dropWhile

theorem splitKeys_eq (hh : h < 256) (hkvs : Sorted kvs) (hp : ∀ e ∈ kvs, HasPrefix (h + 1) p e.1) :
    splitKeys kvs (256 - (h + 1)) = (kvs.filter fun e => !bitIsSet e.1 (256 - (h + 1)),
      kvs.filter fun e => bitIsSet e.1 (256 - (h + 1))) := by
  have hmono : kvs.Pairwise fun a b => (!bitIsSet b.1 (256 - (h + 1))) = true →
      (!bitIsSet a.1 (256 - (h + 1))) = true := by
    refine hkvs.imp_of_mem fun {a b} ha hb hab hbit => ?_
    rw [Bool.not_eq_true'] at hbit ⊢
    have hle := Nat.div_le_div_right (c := 2 ^ h) (Nat.le_of_lt (BitVec.lt_def.mp hab))
    have hb' := (hp b hb).left hh hbit
    by_contra hbit'
    have ha' := (hp a ha).right hh (by simpa using hbit')
    unfold HasPrefix at ha' hb'
    omega
  rw [splitKeys, span_eq_takeWhile_dropWhile, (takeWhile_eq_filter hmono).1,
    (takeWhile_eq_filter hmono).2]
  simp

/-! ## Adding a shortcut -/

section AddShortcut

variable {s : Key}

theorem lt_of_not_lt {a b : Key} (h : ¬a < b) (hne : a ≠ b) : b < a := by
  have hne' : a.toNat ≠ b.toNat := fun heq => hne (BitVec.eq_of_toNat_eq heq)
  rw [BitVec.lt_def] at h ⊢
  omega

theorem exists_around (hkvs : Sorted kvs) (s : Key) : ∃ A M B, kvs = A ++ M ++ B ∧
    (∀ e ∈ A, e.1 < s) ∧ (∀ e ∈ B, s < e.1) ∧ (M = [] ∨ ∃ v, M = [(s, v)]) := by
  induction kvs with
  | nil => exact ⟨[], [], [], rfl, by simp, by simp, .inl rfl⟩
  | cons e kvs ih =>
    obtain ⟨he, hkvs⟩ := pairwise_cons.mp hkvs
    by_cases hlt : e.1 < s
    · obtain ⟨A, M, B, rfl, hA, hB, hM⟩ := ih hkvs
      refine ⟨e :: A, M, B, rfl, fun a ha => ?_, hB, hM⟩
      rcases mem_cons.mp ha with rfl | ha
      · exact hlt
      · exact hA a ha
    · by_cases heq : e.1 = s
      · refine ⟨[], [(s, e.2)], kvs, by simp [← heq], by simp, fun b hb => ?_, .inr ⟨_, rfl⟩⟩
        rw [← heq]
        exact he b hb
      · have hgt := lt_of_not_lt hlt heq
        refine ⟨[], [], e :: kvs, rfl, by simp, fun b hb => ?_, .inl rfl⟩
        rcases mem_cons.mp hb with rfl | hb
        · exact hgt
        · exact BitVec.lt_trans hgt (he b hb)

variable {A l B before new : List (Key × D)}

theorem any_head_false (hA : ∀ e ∈ A, e.1 < s) (hl : A = [] → ∀ e ∈ l.head?, ¬s < e.1) :
    (A ++ l).head?.any (fun kv => s < kv.1) = false := by
  cases A with
  | nil =>
    cases hhead : l.head? with
    | none => simp [hhead]
    | some e => simpa [hhead] using hl rfl e hhead
  | cons a A =>
    have ha : ¬s < a.1 := fun hlt => BitVec.lt_irrefl _ (BitVec.lt_trans hlt (hA a (by simp)))
    simpa using ha

theorem any_last_false (hB : ∀ e ∈ B, s < e.1) (hl : B = [] → ∀ e ∈ l.getLast?, ¬e.1 < s) :
    (l ++ B).getLast?.any (fun kv => kv.1 < s) = false := by
  cases hlast : B.getLast? with
  | none =>
    obtain rfl := getLast?_eq_none_iff.mp hlast
    rw [append_nil]
    cases hlast' : l.getLast? with
    | none => rfl
    | some e => simpa using hl rfl e hlast'
  | some e =>
    have he : ¬e.1 < s := fun hlt =>
      BitVec.lt_irrefl _ (BitVec.lt_trans hlt (hB e (mem_of_getLast? hlast)))
    simpa [getLast?_append, hlast] using he

variable [DecidableEq D] {H : Hasher D} {sv : D}

theorem addShortcutLoop_smaller {rest : List (Key × D)} {higher : Bool}
    (hA : ∀ e ∈ A, e.1 < s) : addShortcutLoop H s sv before (A ++ rest) higher new =
      addShortcutLoop H s sv (before ++ A) rest (higher || !A.isEmpty) new := by
  induction A generalizing before higher with
  | nil => simp
  | cons e A ih =>
    have he : e.1 < s := hA e (by simp)
    have hne : s ≠ e.1 := fun heq => BitVec.lt_irrefl _ (heq ▸ he)
    have hnot : ¬s < e.1 := fun hlt => BitVec.lt_irrefl _ (BitVec.lt_trans hlt he)
    have hA' : ∀ a ∈ A, a.1 < s := fun a ha => hA a (by simp [ha])
    obtain ⟨k, v⟩ := e
    rw [cons_append, addShortcutLoop, if_neg fun h => hne h.1]
    dsimp only
    rw [if_neg hne]
    cases higher with
    | false => simp [he, ih hA']
    | true => simp [hnot, ih hA']

theorem addShortcutLoop_larger (hB : ∀ e ∈ B, s < e.1) :
    addShortcutLoop H s sv before B false new = new := by
  induction B generalizing before with
  | nil => rfl
  | cons e B ih =>
    have he : s < e.1 := hB e (by simp)
    have hne : s ≠ e.1 := fun heq => BitVec.lt_irrefl s (by rw [← heq] at he; exact he)
    have hnot : ¬e.1 < s := fun hlt => BitVec.lt_irrefl _ (BitVec.lt_trans hlt he)
    obtain ⟨k, v⟩ := e
    rw [addShortcutLoop, if_neg fun h => hne h.1]
    dsimp only
    rw [if_neg hne]
    simp [hnot, ih fun b hb => hB b (by simp [hb])]

variable {A B : List (Key × D)} (hA : ∀ e ∈ A, e.1 < s) (hB : ∀ e ∈ B, s < e.1)
include hA hB

/-- A key that is not there is inserted. -/
theorem maybeAddShortcutToKV_insert (hne : A ++ B ≠ []) :
    maybeAddShortcutToKV H (A ++ B) s sv = A ++ (s, sv) :: B := by
  unfold maybeAddShortcutToKV
  cases A with
  | nil =>
    cases B with
    | nil => exact absurd rfl hne
    | cons e B =>
      rw [if_pos (by simpa using hB e (by simp))]
      rfl
  | cons a A =>
    rw [any_head_false hA nofun, if_neg Bool.false_ne_true]
    cases B with
    | nil =>
      have hlast := getLast?_eq_some_getLast (cons_ne_nil a A)
      have hlt := hA _ (mem_of_getLast? hlast)
      rw [append_nil, hlast, if_pos (by simpa using hlt)]
    | cons b B =>
      have hb : s < b.1 := hB b (by simp)
      have hne : s ≠ b.1 := fun heq => BitVec.lt_irrefl s (by rw [← heq] at hb; exact hb)
      rw [any_last_false hB nofun, if_neg Bool.false_ne_true, addShortcutLoop_smaller hA]
      obtain ⟨k, v⟩ := b
      rw [addShortcutLoop, if_neg fun h => hne h.1]
      dsimp only
      rw [if_neg hne]
      simp [hb]

/-- A key that is there is dealt with by the loop. -/
theorem maybeAddShortcutToKV_present (v : D) : maybeAddShortcutToKV H (A ++ (s, v) :: B) s sv =
    addShortcutLoop H s sv A ((s, v) :: B) (!A.isEmpty) [] := by
  have hhead := any_head_false (A := A) (l := (s, v) :: B) hA fun _ e he => by
    cases he
    exact BitVec.lt_irrefl s
  have hlast : (A ++ (s, v) :: B).getLast?.any (fun kv => kv.1 < s) = false := by
    have := any_last_false (B := B) (l := A ++ [(s, v)]) hB fun _ e he => by
      obtain rfl : e = (s, v) := by simpa using he.symm
      exact BitVec.lt_irrefl s
    simpa using this
  unfold maybeAddShortcutToKV
  rw [hhead, if_neg Bool.false_ne_true, hlast, if_neg Bool.false_ne_true,
    addShortcutLoop_smaller hA]
  rfl

/-- A key that is set to a value is left to the update. -/
theorem maybeAddShortcutToKV_update {v : D} (hv : v ≠ H.defaultLeaf) :
    maybeAddShortcutToKV H (A ++ (s, v) :: B) s sv = A ++ (s, v) :: B := by
  rw [maybeAddShortcutToKV_present hA hB, addShortcutLoop, if_pos ⟨rfl, hv⟩]

/-- A key that is deleted, as the first or the last one, is taken out. -/
theorem maybeAddShortcutToKV_delete (hAB : A = [] ∨ B = []) :
    maybeAddShortcutToKV H (A ++ (s, H.defaultLeaf) :: B) s sv = A ++ B := by
  rw [maybeAddShortcutToKV_present hA hB, addShortcutLoop, if_neg fun h => h.2 rfl]
  have hself : ¬s < s := BitVec.lt_irrefl s
  dsimp only
  rw [if_pos rfl]
  simp only [hself, decide_false, Bool.and_false, Bool.false_eq_true, if_false, nil_append]
  rcases hAB with rfl | rfl
  · exact addShortcutLoop_larger hB
  · rfl

end AddShortcut

end MadNet.Trie
