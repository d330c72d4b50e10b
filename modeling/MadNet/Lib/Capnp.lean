import MadNet.Lib.Bytes

/-!
# The canonical encoding of Cap'n Proto

A message is a single segment: the pointer to its root and then every object in preorder, the
content of a struct followed by the contents of what it points to. The words at the end of a data
section that are zero are left out. The objects here are structs and byte strings; there are no null
pointers.
-/

namespace Capnp

open Bytes

inductive Obj where
  /-- A `Data` value. -/
  | data (bytes : Bytes)
  /-- The words of the data section, and the pointers. -/
  | struct (words : List Nat) (pointers : List Obj)

/-- A data section without the zero words at its end. -/
def trim (words : List Nat) : List Nat := words.rdropWhile (· = 0)

/-- A byte string, filled up to whole words. -/
def pad (bytes : Bytes) : Bytes := bytes ++ List.replicate ((8 - bytes.length % 8) % 8) 0

/-- A pointer to an object whose content is `offset` words after the pointer. -/
def Obj.pointer (offset : Nat) : Obj → Bytes
  | .data bytes => ofNatLE 8 (1 + 4 * offset + 2 ^ 32 * (2 + 8 * bytes.length))
  | .struct words pointers =>
    ofNatLE 4 (4 * offset) ++ (ofNatLE 2 (trim words).length ++ ofNatLE 2 pointers.length)

mutual

def Obj.content : Obj → Bytes
  | .data bytes => pad bytes
  | .struct words objs =>
    (trim words).flatMap (ofNatLE 8) ++ (pointers 0 objs ++ contents objs)

/-- What is pointed to, one after the other. -/
def contents : List Obj → Bytes
  | [] => []
  | o :: objs => o.content ++ contents objs

/-- The pointers, where the contents of the objects before take `before` words. -/
def pointers : Nat → List Obj → Bytes
  | _, [] => []
  | before, o :: objs =>
    o.pointer (objs.length + before) ++ pointers (before + o.content.length / 8) objs

end

def canonicalize (o : Obj) : Bytes := o.pointer 0 ++ o.content

@[simp] theorem length_pointer (offset : Nat) (o : Obj) : (o.pointer offset).length = 8 := by
  cases o <;> simp [Obj.pointer]

@[simp] theorem length_pointers (before : Nat) (objs : List Obj) :
    (pointers before objs).length = 8 * objs.length := by
  induction objs generalizing before with
  | nil => simp [pointers]
  | cons o objs ih =>
    rw [pointers, List.length_append, length_pointer, ih, List.length_cons]
    omega

@[simp] theorem trim_nil : trim [] = [] := rfl

theorem trim_of_ne (words : List Nat) {w : Nat} (h : w ≠ 0) : trim (words ++ [w]) = words ++ [w] :=
  List.rdropWhile_concat_neg _ _ _ (by simpa using h)

theorem trim_zero (words : List Nat) : trim (words ++ [0]) = trim words :=
  List.rdropWhile_concat_pos _ _ _ (by simp)

theorem pad_of_dvd {bytes : Bytes} (h : bytes.length % 8 = 0) : pad bytes = bytes := by
  simp [pad, h]

end Capnp
