import CoreX.Base.Run

/-!
# The AVL tree (`utilities/data_structures/avl_tree.rs`)

A pointer to an `AvlHeader` is modelled by the tree below it, and writing a child pointer by rebuilding the node.
`none` is a call that does not return: a `panic()`, or a null pointer that is dereferenced. `calloc` is assumed to
succeed.
-/

namespace CoreX.Avl

abbrev AvlKey := Nat
abbrev AvlVal := Nat

inductive AvlHeader where
  | null
  | node (key : AvlKey) (value : AvlVal) (height : Int) (left right : AvlHeader)

namespace AvlHeader

def isNull : AvlHeader → Bool
  | null => true
  | node .. => false

def key? : AvlHeader → Option AvlKey
  | null => none
  | node key _ _ _ _ => some key

end AvlHeader

open AvlHeader

def calcHeight : AvlHeader → Int
  | null => 0
  | node _ _ height _ _ => height

def calcBalance : AvlHeader → Int
  | null => 0
  | node _ _ _ left right => calcHeight left - calcHeight right

def avlAllocateNode (key : AvlKey) : AvlHeader := node key 0 1 null null

def withHeight (key : AvlKey) (value : AvlVal) (left right : AvlHeader) : AvlHeader :=
  node key value (max (calcHeight left) (calcHeight right) + 1) left right

def avlRotateRight : AvlHeader → Option AvlHeader
  | node yKey yValue _ (node xKey xValue _ xLeft t2) yRight =>
    some (withHeight xKey xValue xLeft (withHeight yKey yValue t2 yRight))
  | _ => none

def avlRotateLeft : AvlHeader → Option AvlHeader
  | node xKey xValue _ xLeft (node yKey yValue _ t2 yRight) =>
    some (withHeight yKey yValue (withHeight xKey xValue xLeft t2) yRight)
  | _ => none

def avlMinKeyNode : AvlHeader → AvlHeader
  | null => null
  | node key value height null right => node key value height null right
  | node _ _ _ (node key value height left right) _ => avlMinKeyNode (node key value height left right)

def rotateLeftRight : AvlHeader → Option AvlHeader
  | node key value height left right =>
    (avlRotateLeft left).bind fun left => avlRotateRight (node key value height left right)
  | null => none

def rotateRightLeft : AvlHeader → Option AvlHeader
  | node key value height left right =>
    (avlRotateRight right).bind fun right => avlRotateLeft (node key value height left right)
  | null => none

/-- The end of `avl_allocate_l`. The source asks for Left Left, Right Right, Left Right and Right Left in
turn; the balance decides which child's key is read. -/
def allocateRebalance (key : AvlKey) : AvlHeader → Option AvlHeader
  | null => none
  | node k v h left right =>
    let root := node k v h left right
    if calcBalance root > 1 then
      left.key?.bind fun leftKey =>
        if key < leftKey then avlRotateRight root
        else if key > leftKey then rotateLeftRight root
        else some root
    else if calcBalance root < -1 then
      right.key?.bind fun rightKey =>
        if key > rightKey then avlRotateLeft root
        else if key < rightKey then rotateRightLeft root
        else some root
    else some root

def avlAllocateL : AvlHeader → AvlKey → Option AvlHeader
  | null, key => some (avlAllocateNode key)
  | node k v _ left right, key =>
    if key < k then
      (avlAllocateL left key).bind fun left => allocateRebalance key (withHeight k v left right)
    else if key > k then
      (avlAllocateL right key).bind fun right => allocateRebalance key (withHeight k v left right)
    else none

def unregisterRebalance : AvlHeader → Option AvlHeader
  | null => some null
  | node k v h left right =>
    let root := node k v h left right
    let balance := calcBalance root
    if balance > 1 ∧ calcBalance left ≥ 0 then avlRotateRight root
    else if balance > 1 ∧ calcBalance left < 0 then rotateLeftRight root
    else if balance < -1 ∧ calcBalance right ≤ 0 then avlRotateLeft root
    else if balance < -1 ∧ calcBalance right > 0 then rotateRightLeft root
    else some root

def avlUnregisterL : AvlHeader → AvlKey → AvlVal → Option (AvlHeader × AvlVal)
  | null, _, target => some (null, target)
  | node k v _ left right, key, target =>
    if key < k then
      (avlUnregisterL left key target).bind fun (left, target) =>
        (unregisterRebalance (withHeight k v left right)).map fun root => (root, target)
    else if key > k then
      (avlUnregisterL right key target).bind fun (right, target) =>
        (unregisterRebalance (withHeight k v left right)).map fun root => (root, target)
    else if left.isNull || right.isNull then
      match if left.isNull then right else left with
      | null => some (null, v)
      | node tempKey tempValue _ tempLeft tempRight =>
        -- the child is copied over the node
        (unregisterRebalance (withHeight tempKey tempValue tempLeft tempRight)).map fun root =>
          (root, tempValue)
    else
      match avlMinKeyNode right with
      | null => none
      | node tempKey tempValue _ _ _ =>
        (avlUnregisterL right tempKey target).bind fun (right, target) =>
          (unregisterRebalance (withHeight tempKey tempValue left right)).map fun root => (root, target)

def writeValue (key : AvlKey) (value : AvlVal) : AvlHeader → AvlHeader
  | null => null
  | node k v h left right =>
    node k (if k = key then value else v) h (writeValue key value left) (writeValue key value right)

section
variable (root : AvlHeader) (key : AvlKey)

def avlAllocate (value : AvlVal) : Option AvlHeader :=
  (avlAllocateL root key).map (writeValue key value)

def avlUnregister : Option (AvlHeader × Bool) :=
  (avlUnregisterL root key 0).map fun (root, target) => (root, target != 0)

def avlLookup : AvlHeader → AvlKey → AvlVal
  | null, _ => 0
  | node k v _ left right, key =>
    if key > k then avlLookup right key
    else if key < k then avlLookup left key
    else v

inductive AvlOp where
  | allocate (key : AvlKey) (value : AvlVal)
  | unregister (key : AvlKey)

def avlStep : AvlOp → Option AvlHeader
  | .allocate key value => avlAllocate root key value
  | .unregister key => (avlUnregister root key).map Prod.fst

end

/-! ## What the tree is for -/

namespace AvlHeader

def toList : AvlHeader → List (AvlKey × AvlVal)
  | null => []
  | node k v _ left right => left.toList ++ (k, v) :: right.toList

def keys (t : AvlHeader) : List AvlKey := t.toList.map Prod.fst

def trueHeight : AvlHeader → Nat
  | null => 0
  | node _ _ _ left right => max left.trueHeight right.trueHeight + 1

/-- The keys are in order. -/
def IsBst : AvlHeader → Prop
  | null => True
  | node k _ _ left right =>
    (∀ key ∈ left.keys, key < k) ∧ (∀ key ∈ right.keys, k < key) ∧ left.IsBst ∧ right.IsBst

/-- Every node has its own height. -/
def HeightsStored : AvlHeader → Prop
  | null => True
  | node _ _ h left right =>
    h = (max left.trueHeight right.trueHeight + 1 : Nat) ∧ left.HeightsStored ∧ right.HeightsStored

/-- The heights of two siblings differ by at most one. -/
def IsBalanced : AvlHeader → Prop
  | null => True
  | node _ _ _ left right =>
    left.trueHeight ≤ right.trueHeight + 1 ∧ right.trueHeight ≤ left.trueHeight + 1 ∧
      left.IsBalanced ∧ right.IsBalanced

end AvlHeader

end CoreX.Avl
