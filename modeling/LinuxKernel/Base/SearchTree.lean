import Mathlib.Data.List.Basic

/-! # Search trees

A node is linked in at a free place of a tree, below the node where a search ended. What a red-black
tree does after that, and when a node is erased, is known by the order of the nodes only.
-/

namespace LinuxKernel

inductive Color where
  | red
  | black

inductive SearchTree (α : Type) where
  | leaf
  | node (color : Color) (left : SearchTree α) (x : α) (right : SearchTree α)

inductive Side where
  | left
  | right
  deriving DecidableEq

namespace SearchTree

variable {α : Type}

def inorder : SearchTree α → List α
  | leaf => []
  | node _ l x r => l.inorder ++ x :: r.inorder

@[simp] theorem inorder_leaf : (leaf : SearchTree α).inorder = [] := rfl

@[simp] theorem inorder_node (c : Color) (l : SearchTree α) (x : α) (r : SearchTree α) :
    (node c l x r).inorder = l.inorder ++ x :: r.inorder := rfl

/-- `rb_link_node`: a new red node without children at the end of a path. -/
def linkAt (n : α) : List Side → SearchTree α → SearchTree α
  | [], _ => node .red leaf n leaf
  | .left :: path, node c l x r => node c (l.linkAt n path) x r
  | .right :: path, node c l x r => node c l x (r.linkAt n path)
  | _ :: _, leaf => leaf

/-- The tree whose nodes are all on the right. -/
def spine : List α → SearchTree α
  | [] => leaf
  | x :: l => node .black leaf x (spine l)

@[simp] theorem inorder_spine (l : List α) : (spine l).inorder = l := by
  induction l with
  | nil => rfl
  | cons x l ih => rw [spine, inorder_node, ih, inorder_leaf, List.nil_append]

/-- `rb_insert_color` and `rb_erase`, which rotate and recolor by the colors of the tree. -/
structure Balance (α : Type) [DecidableEq α] where
  insertColor : SearchTree α → α → SearchTree α
  inorder_insertColor : ∀ t x, (insertColor t x).inorder = t.inorder
  erase : SearchTree α → α → SearchTree α
  inorder_erase : ∀ t x, (erase t x).inorder = t.inorder.erase x

/-- Balancing that does nothing. -/
def noBalance (α : Type) [DecidableEq α] : Balance α where
  insertColor t _ := t
  inorder_insertColor _ _ := rfl
  erase t x := spine (t.inorder.erase x)
  inorder_erase _ _ := inorder_spine _

end SearchTree

end LinuxKernel
