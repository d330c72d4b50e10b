import Mathlib

/-!
# Doubly linked lists in a table

A map of links gives the successor of each key it has; a key that is its own successor ends the
walk. `Leads link l k` says that each key of `l` links to the next one and the last one to `k`, so
that `Leads link (l ++ [k]) k` says that `l ++ [k]` is a whole walk.

`Segment get mk p l n` says that the table `get` holds the keys of `l` as a doubly linked list,
where `mk k prev next` is the record of a key with its two neighbours. The first key of the segment
has `p` before it and the last one has `n` after it; a key without a neighbour points to itself.
-/

namespace Links

open List

variable {κ : Type} {link link' : κ → Option κ} {k : κ} {l l' : List κ}

def Leads (link : κ → Option κ) : List κ → κ → Prop
  | [], _ => True
  | x :: l, k => link x = some (l.headD k) ∧ Leads link l k

/-- The walk from a key, if it ends within `n` keys. -/
def walk [DecidableEq κ] (link : κ → Option κ) : Nat → κ → Option (List κ)
  | 0, _ => none
  | n + 1, k =>
    match link k with
    | none => none
    | some k' => if k' = k then some [k] else (walk link n k').map (k :: ·)

theorem leads_append : Leads link (l ++ l') k ↔ Leads link l (l'.headD k) ∧ Leads link l' k := by
  induction l with
  | nil => simp [Leads]
  | cons x l ih =>
    have hhead : (l ++ l').headD k = l.headD (l'.headD k) := by cases l <;> rfl
    simp only [cons_append, Leads, hhead, ih, and_assoc]

/-- A whole walk is what `walk` finds. -/
theorem walk_eq [DecidableEq κ] {n : Nat} (hl : Leads link (l ++ [k]) k) (hnodup : (l ++ [k]).Nodup)
    (hn : l.length < n) : walk link n (l.headD k) = some (l ++ [k]) := by
  induction l generalizing n with
  | nil =>
    obtain ⟨n, rfl⟩ : ∃ m, n = m + 1 := ⟨n - 1, by simp at hn; omega⟩
    have hk : link k = some k := hl.1
    simp [walk, hk]
  | cons x l ih =>
    obtain ⟨n, rfl⟩ : ∃ m, n = m + 1 := ⟨n - 1, by simp at hn; omega⟩
    have hx : link x = some (l.headD k) := by
      have := hl.1
      cases l <;> exact this
    obtain ⟨hnotin, hnodup⟩ := nodup_cons.mp hnodup
    have hne : l.headD k ≠ x := by
      intro heq
      refine hnotin ?_
      rw [← heq]
      cases l <;> simp
    have hrest := ih hl.2 hnodup (by simpa using hn)
    simp only [headD_cons, walk, hx, if_neg hne, hrest, Option.map_some, cons_append]

section Segment

variable {β : Type} {get get' : κ → Option β} {mk mk' : κ → κ → κ → β} {p n : Option κ}

def Segment (get : κ → Option β) (mk : κ → κ → κ → β) : Option κ → List κ → Option κ → Prop
  | _, [], _ => True
  | p, k :: l, n =>
    get k = some (mk k (p.getD k) ((l.head?.or n).getD k)) ∧ Segment get mk (some k) l n

theorem segment_append : Segment get mk p (l ++ l') n ↔
    Segment get mk p l (l'.head?.or n) ∧ Segment get mk (l.getLast?.or p) l' n := by
  induction l generalizing p with
  | nil => simp [Segment]
  | cons k l ih =>
    have hlast : (k :: l).getLast?.or p = l.getLast?.or (some k) := by
      cases l <;> simp [getLast?_cons]
    simp only [cons_append, Segment, ih, head?_append, Option.or_assoc, hlast, and_assoc]

/-- Changing the records of a segment, or taking a part of them. -/
theorem Segment.map {γ : Type} {f : β → γ} {get' : κ → Option γ} {mk' : κ → κ → κ → γ}
    (h : Segment get mk p l n) (hget : ∀ k ∈ l, get' k = (get k).map f)
    (hmk : ∀ k ∈ l, ∀ p n, f (mk k p n) = mk' k p n) : Segment get' mk' p l n := by
  induction l generalizing p with
  | nil => trivial
  | cons k l ih =>
    refine ⟨?_, ih h.2 (fun x hx => hget x (mem_cons_of_mem _ hx)) fun x hx =>
      hmk x (mem_cons_of_mem _ hx)⟩
    rw [hget k mem_cons_self, h.1, Option.map_some, hmk k mem_cons_self]

theorem Segment.congr (h : Segment get mk p l n) (hget : ∀ k ∈ l, get' k = get k)
    (hmk : ∀ k ∈ l, mk' k = mk k) : Segment get' mk' p l n :=
  h.map (f := id) (fun k hk => by rw [hget k hk, Option.map_id, id]) fun k hk p n => by
    rw [hmk k hk, id]

theorem Segment.leads_next (h : Segment link (fun _ _ n => n) p (l ++ [k]) none) :
    Leads link (l ++ [k]) k := by
  induction l generalizing p with
  | nil => exact h
  | cons x l ih =>
    refine ⟨?_, ih h.2⟩
    rw [h.1]
    cases l <;> rfl

/-- The links back lead through the reversed segment. -/
theorem Segment.leads_prev (h : Segment link (fun _ p _ => p) p l n) :
    Leads link l.reverse (p.getD (l.headD k)) := by
  induction l generalizing p with
  | nil => trivial
  | cons x l ih =>
    rw [reverse_cons, leads_append]
    exact ⟨ih h.2, h.1, trivial⟩

end Segment

end Links
