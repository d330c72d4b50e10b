import MadNet.Lib.Radix
import MadNet.Trie.Smt

/-!
# The trie as a tree

`updateTree` is the algorithm of `update` on the tree that the batches represent, without the
batches and their hashes.
-/

namespace MadNet.Trie

open Radix

variable {D : Type}

/-- Two subtrees under one root. After a deletion a shortcut that is alone moves up. -/
def joinTree (l r : Tree Key D) (deleted : Bool) : Tree Key D × Bool :=
  match deleted, l, r with
  | true, .empty, .empty => (.empty, true)
  | true, .empty, .leaf k v => (.leaf k v, true)
  | true, .leaf k v, .empty => (.leaf k v, true)
  | _, l, r => (.node l r, false)

def updateChildrenTree (rec : Tree Key D → List (Key × D) → Tree Key D × Bool) (l r : Tree Key D)
    (kvs : List (Key × D)) (height : Nat) : Tree Key D × Bool :=
  match splitKeys kvs (256 - height) with
  | ([], _ :: _) => joinTree l (rec r kvs).1 (rec r kvs).2
  | (_ :: _, []) => joinTree (rec l kvs).1 r (rec l kvs).2
  | (lkvs, rkvs) => joinTree (rec l lkvs).1 (rec r rkvs).1 ((rec l lkvs).2 || (rec r rkvs).2)

variable [DecidableEq D] (H : Hasher D)

def updateNodeTree (rec : Tree Key D → List (Key × D) → Tree Key D × Bool) (l r : Tree Key D)
    (kvs : List (Key × D)) (height : Nat) : Tree Key D × Bool :=
  match l, r, kvs with
  | .empty, .empty, [(key, value)] =>
    if value = H.defaultLeaf then (.empty, true) else (.leaf key value, false)
  | l, r, kvs => updateChildrenTree rec l r kvs height

def updateTree : Nat → Tree Key D → List (Key × D) → Tree Key D × Bool
  | 0, _, [] => (.empty, true)
  | 0, _, (key, value) :: _ =>
    if value = H.defaultLeaf then (.empty, true) else (.leaf key value, false)
  | height + 1, .leaf k v, kvs =>
    let kvs := maybeAddShortcutToKV H kvs k v
    if kvs.isEmpty then (.empty, true)
    else updateNodeTree H (updateTree height) .empty .empty kvs (height + 1)
  | height + 1, T, kvs => updateNodeTree H (updateTree height) T.left T.right kvs (height + 1)

variable {T l r : Tree Key D} {kvs : List (Key × D)}

theorem updateTree_of_not_leaf {h : Nat} (hT : T.isLeaf = false) : updateTree H (h + 1) T kvs =
      updateNodeTree H (updateTree H h) T.left T.right kvs (h + 1) := by
  cases T with
  | leaf k v => cases hT
  | empty | node l r => rfl

/-- Where nothing is left, something was deleted. -/
def Flagged (x : Tree Key D × Bool) : Prop := x.1 = .empty → x.2 = true

omit [DecidableEq D] in
theorem flagged_joinTree {deleted : Bool} : Flagged (joinTree l r deleted) := by
  unfold joinTree
  split <;> first | exact fun _ => rfl | nofun

theorem flagged_single {k : Key} {v : D} :
    Flagged (if v = H.defaultLeaf then (.empty, true) else (Tree.leaf k v, false)) := by
  split
  · exact fun _ => rfl
  · nofun

theorem flagged_updateNodeTree {rec : Tree Key D → List (Key × D) → Tree Key D × Bool}
    {height : Nat} :
    Flagged (updateNodeTree H rec l r kvs height) := by
  unfold updateNodeTree updateChildrenTree
  split
  · exact flagged_single H
  · split <;> exact flagged_joinTree

theorem flagged_updateTree {height : Nat} : Flagged (updateTree H height T kvs) := by
  unfold updateTree
  split
  · exact fun _ => rfl
  · exact flagged_single H
  · dsimp only
    split
    · exact fun _ => rfl
    · exact flagged_updateNodeTree H
  · exact flagged_updateNodeTree H

end MadNet.Trie
