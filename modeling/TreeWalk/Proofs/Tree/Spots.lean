import TreeWalk.Place

/-!
# The nodes of a tree, each at its own place

* `Tree.locateFrom?` : the node at the end of a path, in a tree that lies somewhere in a larger one. Its equations
  follow the path into the subtrees, and `locateFrom?_place` says where the node lies;
* `Tree.ListedBy` : a list that holds every node of a tree once. The lists of nodes in pre-order, in-order and
  post-order are of this kind (`listedBy_spotsPre` and so on): different ways down end at different places, so nodes
  that look alike count as different ones. What lies below a node comes in one run in each of them (`spotsPre_infix` and
  so on);
* `Tree.relabel` : the tree of the same shape in which every node holds something made of the node that was there. If
  that is the value, it is the tree itself; if it is the place, the values tell the nodes apart. Its values in each
  order are read off the nodes in this order (`preorder_relabel` and so on);
* `Tree.valueAt?` : the value at the end of a path, for which it does not matter where the tree lies;
* `Tree.SameShape` : the same paths lead to nodes in two trees. Both are empty, or they have subtrees of the same shape
  (`SameShape.induction`). Then there are as many nodes in both (`SameShape.size_eq`), and they lie at the same places
  (`SameShape.relabel_place`).
-/

namespace TreeWalk

universe u v

theorem Place.path_child (p : Place) (side : Side) : (p.child side).path = p.path ++ [side] := List.reverse_cons

namespace Tree

variable {α : Type u} {β : Type v}

/-! ## The node at the end of a path -/

/-- The node at the end of the path from the root, where the tree lies at the place `p`. -/
def locateFrom? (p : Place) (t : Tree α) (path : List Side) : Option (Spot α) := (t.spot? p).bind (·.follow? path)

@[simp] theorem locateFrom?_empty (p : Place) (path : List Side) : (empty : Tree α).locateFrom? p path = none := rfl

@[simp] theorem locateFrom?_nil (p : Place) (t : Tree α) : t.locateFrom? p [] = t.spot? p := by
  cases t <;> rfl

theorem follow?_cons (s : Spot α) (side : Side) (path : List Side) :
    s.follow? (side :: path) = (s.child? side).bind (·.follow? path) := by
  rw [Spot.follow?]
  cases s.child? side <;> rfl

@[simp] theorem locateFrom?_left (p : Place) (value : α) (left right : Tree α) (path : List Side) :
    (node value left right).locateFrom? p (.left :: path) = left.locateFrom? p.left path :=
  follow?_cons ⟨p, ⟨value, left, right⟩⟩ .left path

@[simp] theorem locateFrom?_right (p : Place) (value : α) (left right : Tree α) (path : List Side) :
    (node value left right).locateFrom? p (.right :: path) = right.locateFrom? p.right path :=
  follow?_cons ⟨p, ⟨value, left, right⟩⟩ .right path

/-- A node lies at the end of the path that leads to it. -/
theorem locateFrom?_place {p : Place} {t : Tree α} {path : List Side} {x : Spot α}
    (h : t.locateFrom? p path = some x) : x.place.steps = path.reverse ++ p.steps := by
  induction path generalizing p t with
  | nil =>
    rw [locateFrom?_nil, spot?, Option.map_eq_some_iff] at h
    obtain ⟨n, -, rfl⟩ := h
    rfl
  | cons side path ih =>
    cases t with
    | empty => simp at h
    | node value left right =>
      rw [List.reverse_cons, List.append_assoc, List.singleton_append]
      cases side with
      | left => exact ih ((locateFrom?_left p value left right path).symm.trans h)
      | right => exact ih ((locateFrom?_right p value left right path).symm.trans h)

/-- A path that goes on goes on from the node that it has reached. -/
theorem locateFrom?_append (p : Place) (t : Tree α) (path below : List Side) :
    t.locateFrom? p (path ++ below) =
      (t.locateFrom? p path).bind fun s => s.node.toTree.locateFrom? s.place below := by
  induction path generalizing p t with
  | nil => cases t <;> rfl
  | cons side path ih =>
    cases t with
    | empty => rfl
    | node value left right =>
      rw [List.cons_append]
      cases side with
      | left => rw [locateFrom?_left, locateFrom?_left, ih]
      | right => rw [locateFrom?_right, locateFrom?_right, ih]

/-- The nodes below a node lie at the ends of the paths that go on from it. -/
theorem locate?_append {t : Tree α} {path : List Side} {s : Spot α} (h : t.locate? path = some s)
    (below : List Side) : t.locate? (path ++ below) = s.node.toTree.locateFrom? s.place below := by
  have hpath : t.locateFrom? .root path = some s := h
  have happend := t.locateFrom?_append .root path below
  rwa [hpath, Option.bind_some] at happend

theorem locate?_concat {t : Tree α} {path : List Side} {s : Spot α} (h : t.locate? path = some s) (side : Side) :
    t.locate? (path ++ [side]) = s.child? side := by
  rw [locate?_append h]
  show s.follow? [side] = s.child? side
  rw [follow?_cons]
  cases s.child? side <;> rfl

/-- The node at the end of a path that takes a step is a child of the node before this step. -/
theorem exists_parent {t : Tree α} {path : List Side} {side : Side} {x : Spot α}
    (h : t.locate? (path ++ [side]) = some x) : ∃ s, t.locate? path = some s ∧ s.child? side = some x := by
  have happend := h
  unfold locate? at happend
  rw [← locateFrom?, locateFrom?_append, Option.bind_eq_some_iff] at happend
  obtain ⟨s, hs, -⟩ := happend
  exact ⟨s, hs, (locate?_concat hs side).symm.trans h⟩

/-- The way to a node is the path at whose end it lies. -/
theorem path_of_locate? {t : Tree α} {path : List Side} {x : Spot α} (h : t.locate? path = some x) :
    x.place.path = path := by
  rw [Place.path, locateFrom?_place h]
  exact (congrArg List.reverse (List.append_nil path.reverse)).trans path.reverse_reverse

theorem locate?_of_spot? {t : Tree α} {s : Spot α} (h : t.spot? .root = some s) : t.locate? s.place.path = some s := by
  have hroot : t.locate? [] = some s := (t.locateFrom?_nil .root).trans h
  rwa [path_of_locate? hroot]

theorem locate?_child {t : Tree α} {s c : Spot α} (h : t.locate? s.place.path = some s) (side : Side)
    (hc : s.child? side = some c) : t.locate? c.place.path = some c := by
  have hchild := (locate?_concat h side).trans hc
  rwa [path_of_locate? hchild]

/-! ## Lists of the nodes -/

/-- The list holds the nodes of the tree `t`, which lies at the place `p`, each of them once. -/
structure ListedBy (t : Tree α) (p : Place) (spots : List (Spot α)) : Prop where
  mem_iff : ∀ x, x ∈ spots ↔ ∃ path, t.locateFrom? p path = some x
  nodup : (spots.map Spot.place).Nodup

theorem mem_spotsPre {p : Place} {t : Tree α} {x : Spot α} :
    x ∈ t.spotsPre p ↔ ∃ path, t.locateFrom? p path = some x := by
  induction t generalizing p with
  | empty => simp [spotsPre]
  | node value left right ihLeft ihRight =>
    rw [spotsPre, List.mem_cons, List.mem_append, ihLeft, ihRight]
    constructor
    · rintro (rfl | ⟨path, h⟩ | ⟨path, h⟩)
      · exact ⟨[], rfl⟩
      · exact ⟨.left :: path, (locateFrom?_left ..).trans h⟩
      · exact ⟨.right :: path, (locateFrom?_right ..).trans h⟩
    · rintro ⟨_ | ⟨_ | _, path⟩, h⟩
      · rw [locateFrom?_nil, spot?_node, Option.some.injEq] at h
        exact Or.inl h.symm
      · exact Or.inr (Or.inl ⟨path, (locateFrom?_left ..).symm.trans h⟩)
      · exact Or.inr (Or.inr ⟨path, (locateFrom?_right ..).symm.trans h⟩)

/-- The node at the end of the way to a node of the tree is this node. -/
theorem locate?_of_mem_spotsPre {t : Tree α} {x : Spot α} (h : x ∈ t.spotsPre .root) :
    t.locate? x.place.path = some x := by
  obtain ⟨path, hpath⟩ := mem_spotsPre.1 h
  rw [path_of_locate? hpath]
  exact hpath

/-- Every node of a tree lies below the place of the tree. -/
theorem place_of_mem_spotsPre {p : Place} {t : Tree α} {x : Spot α} (h : x ∈ t.spotsPre p) :
    ∃ steps, x.place.steps = steps ++ p.steps := by
  obtain ⟨path, hpath⟩ := mem_spotsPre.1 h
  exact ⟨path.reverse, locateFrom?_place hpath⟩

theorem nodup_spotsPre (p : Place) (t : Tree α) : ((t.spotsPre p).map Spot.place).Nodup := by
  induction t generalizing p with
  | empty => exact List.nodup_nil
  | node value left right ihLeft ihRight =>
    have hroot : ∀ side (c : Tree α) x, x ∈ c.spotsPre (p.child side) → x.place ≠ p := by
      intro side c x hx he
      obtain ⟨steps, hsteps⟩ := place_of_mem_spotsPre hx
      have hlength := congrArg List.length (he ▸ hsteps)
      simp only [Place.child, List.length_append, List.length_cons] at hlength
      omega
    have hsides : ∀ x ∈ left.spotsPre p.left, ∀ y ∈ right.spotsPre p.right, x.place ≠ y.place := by
      intro x hx y hy he
      obtain ⟨steps, hsteps⟩ := place_of_mem_spotsPre hx
      obtain ⟨steps', hsteps'⟩ := place_of_mem_spotsPre hy
      rw [he, hsteps'] at hsteps
      have hlast := (List.append_inj' hsteps rfl).2
      simp [Place.left, Place.right, Place.child] at hlast
    simp only [spotsPre, List.map_cons, List.map_append, List.nodup_cons, List.nodup_append, List.mem_append,
      List.mem_map]
    refine ⟨?_, ihLeft p.left, ihRight p.right, ?_⟩
    · rintro (⟨x, hx, he⟩ | ⟨x, hx, he⟩)
      · exact hroot .left left x hx he
      · exact hroot .right right x hx he
    · rintro _ ⟨x, hx, rfl⟩ _ ⟨y, hy, rfl⟩
      exact hsides x hx y hy

theorem listedBy_spotsPre (p : Place) (t : Tree α) : t.ListedBy p (t.spotsPre p) :=
  ⟨fun _ => mem_spotsPre, nodup_spotsPre p t⟩

theorem ListedBy.perm {t : Tree α} {p : Place} {spots spots' : List (Spot α)} (h : t.ListedBy p spots)
    (hperm : spots'.Perm spots) : t.ListedBy p spots' :=
  ⟨fun x => hperm.mem_iff.trans (h.mem_iff x), ((hperm.map Spot.place).nodup_iff).2 h.nodup⟩

theorem spotsPost_perm (p : Place) (t : Tree α) : (t.spotsPost p).Perm (t.spotsPre p) := by
  induction t generalizing p with
  | empty => exact List.Perm.refl _
  | node value left right ihLeft ihRight =>
    rw [spotsPost, spotsPre, ← List.append_assoc]
    exact (List.perm_append_singleton _ _).trans (((ihLeft p.left).append (ihRight p.right)).cons _)

theorem listedBy_spotsPost (p : Place) (t : Tree α) : t.ListedBy p (t.spotsPost p) :=
  (listedBy_spotsPre p t).perm (spotsPost_perm p t)

/-- A listing that lists each subtree of a node in one run lists what lies below any node in one run. -/
theorem infix_of_locateFrom? (listing : Place → Tree α → List (Spot α))
    (hleft : ∀ p value left right, listing p.left left <:+: listing p (node value left right))
    (hright : ∀ p value left right, listing p.right right <:+: listing p (node value left right))
    {p : Place} {t : Tree α} {path : List Side} {x : Spot α} (h : t.locateFrom? p path = some x) :
    listing x.place x.node.toTree <:+: listing p t := by
  induction path generalizing p t with
  | nil =>
    rw [locateFrom?_nil, spot?, Option.map_eq_some_iff] at h
    obtain ⟨n, hn, rfl⟩ := h
    obtain rfl := toTree_root? hn
    exact List.infix_refl _
  | cons side path ih =>
    cases t with
    | empty => simp at h
    | node value left right =>
      cases side with
      | left => exact (ih ((locateFrom?_left ..).symm.trans h)).trans (hleft p value left right)
      | right => exact (ih ((locateFrom?_right ..).symm.trans h)).trans (hright p value left right)

/-- The nodes below a node, and this node, come in one run in the pre-order of the tree. -/
theorem spotsPre_infix {p : Place} {t : Tree α} {path : List Side} {x : Spot α} (h : t.locateFrom? p path = some x) :
    x.node.toTree.spotsPre x.place <:+: t.spotsPre p := by
  refine infix_of_locateFrom? (fun p t => t.spotsPre p) (fun p value left right => ?_)
    (fun p value left right => ?_) h
  · exact (List.prefix_append _ _).isInfix.trans (List.suffix_cons _ _).isInfix
  · exact (List.suffix_append _ _).isInfix.trans (List.suffix_cons _ _).isInfix

theorem spotsIn_infix {p : Place} {t : Tree α} {path : List Side} {x : Spot α} (h : t.locateFrom? p path = some x) :
    x.node.toTree.spotsIn x.place <:+: t.spotsIn p := by
  refine infix_of_locateFrom? (fun p t => t.spotsIn p) (fun p value left right => ?_)
    (fun p value left right => ?_) h
  · exact (List.prefix_append _ _).isInfix
  · exact (List.suffix_cons _ _).isInfix.trans (List.suffix_append _ _).isInfix

theorem spotsPost_infix {p : Place} {t : Tree α} {path : List Side} {x : Spot α} (h : t.locateFrom? p path = some x) :
    x.node.toTree.spotsPost x.place <:+: t.spotsPost p := by
  refine infix_of_locateFrom? (fun p t => t.spotsPost p) (fun p value left right => ?_)
    (fun p value left right => ?_) h
  · exact (List.prefix_append _ _).isInfix
  · exact (List.prefix_append _ _).isInfix.trans (List.suffix_append _ _).isInfix

theorem spotsIn_perm (p : Place) (t : Tree α) : (t.spotsIn p).Perm (t.spotsPre p) := by
  induction t generalizing p with
  | empty => exact List.Perm.refl _
  | node value left right ihLeft ihRight =>
    rw [spotsIn, spotsPre]
    exact List.perm_middle.trans (((ihLeft p.left).append (ihRight p.right)).cons _)

theorem listedBy_spotsIn (p : Place) (t : Tree α) : t.ListedBy p (t.spotsIn p) :=
  (listedBy_spotsPre p t).perm (spotsIn_perm p t)

/-! ## Other values in the same shape -/

/-- The tree of the same shape in which a node holds what `g` makes of the node that was there, where the tree lies at
the place `p`. -/
def relabel (g : Spot α → β) (p : Place) : Tree α → Tree β
  | empty => empty
  | node value left right =>
      node (g ⟨p, ⟨value, left, right⟩⟩) (left.relabel g p.left) (right.relabel g p.right)

/-- The tree that holds the values of the nodes is the tree itself. -/
theorem relabel_value (p : Place) (t : Tree α) : t.relabel Spot.value p = t := by
  induction t generalizing p with
  | empty => rfl
  | node value left right ihLeft ihRight =>
    rw [relabel, ihLeft, ihRight]
    rfl

theorem preorder_relabel (g : Spot α → β) (p : Place) (t : Tree α) :
    (t.relabel g p).preorder = (t.spotsPre p).map g := by
  induction t generalizing p with
  | empty => rfl
  | node value left right ihLeft ihRight =>
    rw [relabel, preorder_node, ihLeft, ihRight, spotsPre, List.map_cons, List.map_append]

theorem inorder_relabel (g : Spot α → β) (p : Place) (t : Tree α) :
    (t.relabel g p).inorder = (t.spotsIn p).map g := by
  induction t generalizing p with
  | empty => rfl
  | node value left right ihLeft ihRight =>
    rw [relabel, inorder_node, ihLeft, ihRight, spotsIn, List.map_append, List.map_cons]

theorem postorder_relabel (g : Spot α → β) (p : Place) (t : Tree α) :
    (t.relabel g p).postorder = (t.spotsPost p).map g := by
  induction t generalizing p with
  | empty => rfl
  | node value left right ihLeft ihRight =>
    rw [relabel, postorder_node, ihLeft, ihRight, spotsPost, List.map_append, List.map_append, List.map_cons,
      List.map_nil]

theorem spotsPre_map_value (p : Place) (t : Tree α) : (t.spotsPre p).map Spot.value = t.preorder := by
  rw [← preorder_relabel, relabel_value]

theorem spotsIn_map_value (p : Place) (t : Tree α) : (t.spotsIn p).map Spot.value = t.inorder := by
  rw [← inorder_relabel, relabel_value]

theorem spotsPost_map_value (p : Place) (t : Tree α) : (t.spotsPost p).map Spot.value = t.postorder := by
  rw [← postorder_relabel, relabel_value]

/-- Both orders list the values of the same nodes. -/
theorem postorder_perm (t : Tree α) : t.postorder.Perm t.preorder := by
  rw [← spotsPost_map_value .root, ← spotsPre_map_value .root]
  exact (spotsPost_perm .root t).map Spot.value

theorem length_preorder (t : Tree α) : t.preorder.length = t.size := by
  induction t with
  | empty => rfl
  | node value left right ihLeft ihRight =>
    rw [preorder_node, List.length_cons, List.length_append, ihLeft, ihRight, size_node]
    omega

theorem length_spotsPre (p : Place) (t : Tree α) : (t.spotsPre p).length = t.size := by
  rw [← t.length_preorder, ← t.spotsPre_map_value p, List.length_map]

theorem length_spotsPost (p : Place) (t : Tree α) : (t.spotsPost p).length = t.size := by
  rw [(t.spotsPost_perm p).length_eq, length_spotsPre]

theorem length_postorder (t : Tree α) : t.postorder.length = t.size := by
  rw [t.postorder_perm.length_eq, length_preorder]

end Tree

/-- The node with what `g` makes of it and of the nodes below it. -/
def Spot.relabel {α : Type u} {β : Type v} (g : Spot α → β) (s : Spot α) : Node β :=
  ⟨g s, s.node.left.relabel g s.place.left, s.node.right.relabel g s.place.right⟩

theorem Spot.relabel_value {α : Type u} (s : Spot α) : s.relabel Spot.value = s.node := by
  unfold Spot.relabel
  rw [Tree.relabel_value, Tree.relabel_value]
  rfl

namespace Tree

variable {α : Type u} {β : Type v}

/-- The root of a tree with other values comes from the root of the tree. -/
theorem root?_relabel (g : Spot α → β) (p : Place) (t : Tree α) :
    (t.relabel g p).root? = (t.spot? p).map (Spot.relabel g) := by
  cases t <;> rfl

/-! ## Values and shapes -/

/-- The value at the end of the path from the root, if the path stays in the tree. -/
def valueAt? (t : Tree α) (path : List Side) : Option α := (t.locate? path).map Spot.value

theorem locateFrom?_map_value (p : Place) (t : Tree α) (path : List Side) :
    (t.locateFrom? p path).map Spot.value = t.valueAt? path := by
  have key : ∀ q, (t.locateFrom? p path).map Spot.value = (t.locateFrom? q path).map Spot.value := by
    induction path generalizing p t with
    | nil => intro q; cases t <;> rfl
    | cons side path ih =>
      intro q
      cases t with
      | empty => rfl
      | node value left right =>
        cases side with
        | left =>
          rw [locateFrom?_left, locateFrom?_left]
          exact ih p.left left q.left
        | right =>
          rw [locateFrom?_right, locateFrom?_right]
          exact ih p.right right q.right
  exact key .root

@[simp] theorem valueAt?_empty (path : List Side) : (empty : Tree α).valueAt? path = none := rfl

@[simp] theorem valueAt?_nil (value : α) (left right : Tree α) : (node value left right).valueAt? [] = some value := rfl

@[simp] theorem valueAt?_left (value : α) (left right : Tree α) (path : List Side) :
    (node value left right).valueAt? (.left :: path) = left.valueAt? path :=
  (congrArg (Option.map Spot.value) (locateFrom?_left .root value left right path)).trans
    (locateFrom?_map_value _ left path)

@[simp] theorem valueAt?_right (value : α) (left right : Tree α) (path : List Side) :
    (node value left right).valueAt? (.right :: path) = right.valueAt? path :=
  (congrArg (Option.map Spot.value) (locateFrom?_right .root value left right path)).trans
    (locateFrom?_map_value _ right path)

/-- The same paths lead to nodes in both trees. -/
def SameShape (s : Tree α) (t : Tree β) : Prop := ∀ path, (s.valueAt? path).isSome = (t.valueAt? path).isSome

theorem sameShape_node_node (a : α) (b : β) (left right : Tree α) (left' right' : Tree β) :
    (node a left right).SameShape (node b left' right') ↔ left.SameShape left' ∧ right.SameShape right' := by
  constructor
  · intro h
    refine ⟨fun path => ?_, fun path => ?_⟩
    · simpa only [valueAt?_left] using h (.left :: path)
    · simpa only [valueAt?_right] using h (.right :: path)
  · rintro ⟨hleft, hright⟩ (_ | ⟨_ | _, path⟩)
    · rfl
    · simpa only [valueAt?_left] using hleft path
    · simpa only [valueAt?_right] using hright path

theorem SameShape.refl (t : Tree α) : t.SameShape t := fun _ => rfl

theorem SameShape.symm {s : Tree α} {t : Tree β} (h : s.SameShape t) : t.SameShape s := fun path => (h path).symm

theorem SameShape.trans {r s t : Tree α} (h : r.SameShape s) (h' : s.SameShape t) : r.SameShape t :=
  fun path => (h path).trans (h' path)

/-- Trees of the same shape are taken apart together. -/
@[elab_as_elim]
theorem SameShape.induction {motive : (s : Tree α) → (t : Tree β) → s.SameShape t → Prop}
    (empty : motive .empty .empty fun _ => rfl)
    (node : ∀ a b left right left' right' (hleft : left.SameShape left') (hright : right.SameShape right'),
      motive left left' hleft → motive right right' hright →
        motive (.node a left right) (.node b left' right') ((sameShape_node_node ..).2 ⟨hleft, hright⟩))
    {s : Tree α} {t : Tree β} (h : s.SameShape t) : motive s t h := by
  induction s generalizing t with
  | empty =>
    cases t with
    | empty => exact empty
    | node => cases h []
  | node a left right ihLeft ihRight =>
    cases t with
    | empty => cases h []
    | node b left' right' =>
      obtain ⟨hleft, hright⟩ := (sameShape_node_node ..).1 h
      exact node a b left right left' right' hleft hright (ihLeft hleft) (ihRight hright)

theorem SameShape.size_eq {s : Tree α} {t : Tree β} (h : s.SameShape t) : s.size = t.size := by
  induction h using SameShape.induction with
  | empty => rfl
  | node a b left right left' right' hleft hright ihLeft ihRight => rw [size_node, size_node, ihLeft, ihRight]

theorem SameShape.length_preorder_eq {s : Tree α} {t : Tree β} (h : s.SameShape t) :
    s.preorder.length = t.preorder.length := by
  rw [length_preorder, length_preorder, h.size_eq]

theorem SameShape.length_postorder_eq {s : Tree α} {t : Tree β} (h : s.SameShape t) :
    s.postorder.length = t.postorder.length := by
  rw [length_postorder, length_postorder, h.size_eq]

theorem SameShape.length_spotsPre_eq {s : Tree α} {t : Tree β} (h : s.SameShape t) (p q : Place) :
    (s.spotsPre p).length = (t.spotsPre q).length := by
  rw [length_spotsPre, length_spotsPre, h.size_eq]

theorem SameShape.isEmpty_eq {s : Tree α} {t : Tree β} (h : s.SameShape t) : s.isEmpty = t.isEmpty := by
  induction h using SameShape.induction with
  | empty => rfl
  | node => rfl

end Tree

end TreeWalk
