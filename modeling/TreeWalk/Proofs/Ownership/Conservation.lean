import Mathlib.Data.Multiset.UnionInter
import Mathlib.Algebra.Order.Group.Multiset
import Mathlib.Tactic.Abel
import TreeWalk.Proofs.Ownership.Ledgers
import TreeWalk.Proofs.Ownership.Possible

/-!
# No value is lost

In the middle of a deed some values are in hand: they have been taken out of an object and have not yet been put into
another one. `Estate.Accounts e inHand` says that the books of the estate balance if these values are counted too. Each
step of a deed moves values between the objects, the ledgers and the hand, so it keeps the balance (`Accounts.exchange`,
`Accounts.put`, `Accounts.free` and so on), and a deed that begins with nothing in hand ends so (`accounts_perform`).

So it is after any run of deeds, and thus at every point of a run (`Estate.received_add_copied`). If the values all
differ, then none was freed twice, none was handed out twice, none was both handed out and freed, and none of these is
still owned. Whatever deeds come later, what the ledgers say stays true; and the next deed takes place whenever the
objects that it needs are there.
-/

namespace TreeWalk

universe u

variable {α σ : Type u}

/-! ## The values of single objects -/

theorem Holding.values_rearranged? {held held' : Holding α} {moves : List (CellMove α)}
    (h : held.rearranged? moves = some held') : held'.values.Perm held.values := by
  cases held with
  | node n =>
    obtain rfl := Option.some.inj h
    exact n.preorder_rearranged moves
  | tree t =>
    obtain rfl := Option.some.inj h
    exact t.preorder_rearranged moves
  | owning w => cases h

theorem Holding.values_takenApart? {held held' : Holding α} (h : held.takenApart? = some held') :
    held'.values = held.values := by
  cases held with
  | node n =>
    obtain rfl := Option.some.inj h
    exact Owning.values_ofNode n
  | tree t =>
    obtain rfl := Option.some.inj h
    exact Owning.values_ofTree t
  | owning w => cases h

theorem Node.preorder_ofChildren (a : α) (left right : Option (Node α)) :
    (ofChildren a left right).toTree.preorder =
      a :: ((left.elim .empty toTree).preorder ++ (right.elim .empty toTree).preorder) :=
  Tree.preorder_node ..

namespace Estate

/-! ## Books that balance -/

/-- What was received and copied is owned, or in hand, or was yielded or freed. -/
def Accounts (e : Estate α σ) (inHand : Multiset α) : Prop :=
  e.received + e.copied = e.live + e.yielded + e.freed + inHand

variable {e : Estate α σ} {m : Multiset α}

theorem accounts_start (st : σ) : (start st : Estate α σ).Accounts 0 := rfl

theorem flatMap_set_entryValues {holdings : List (Option (Holding α))} {i : Nat} {held : Holding α}
    (h : holdings[i]?.join = some held) (entry : Option (Holding α)) :
    ((holdings.set i entry).flatMap entryValues : Multiset α) + held.values =
      (holdings.flatMap entryValues : Multiset α) + entryValues entry := by
  induction holdings generalizing i with
  | nil => cases h
  | cons first rest ih =>
    rw [List.flatMap_cons, ← Multiset.coe_add]
    cases i with
    | zero =>
      obtain rfl : first = some held := h
      rw [List.set_cons_zero, List.flatMap_cons, ← Multiset.coe_add]
      show _ = (held.values : Multiset α) + _ + _
      abel
    | succ i =>
      rw [List.set_cons_succ, List.flatMap_cons, ← Multiset.coe_add, add_assoc, ih h, add_assoc]

theorem live_exchange {i : Nat} {held : Holding α} (h : e.look? i = some held) (entry : Option (Holding α)) :
    (e.exchange i entry).live + held.values = e.live + entryValues entry :=
  flatMap_set_entryValues h entry

theorem live_put (e : Estate α σ) (held : Holding α) : (e.put held).live = e.live + held.values := by
  unfold live put
  rw [List.flatMap_append, List.flatMap_singleton, Multiset.coe_add]
  rfl

/-- An object gives way to another one, or to none: the values that the new one lacks are in hand. -/
theorem Accounts.exchange {i : Nat} {held : Holding α} {entry : Option (Holding α)} {out : Multiset α}
    (h : e.Accounts m) (hlook : e.look? i = some held)
    (hvalues : (held.values : Multiset α) = (entryValues entry : Multiset α) + out) :
    (e.exchange i entry).Accounts (out + m) := by
  have hlive : (e.exchange i entry).live + out = e.live := by
    have hsum := live_exchange hlook entry
    rw [hvalues, add_comm _ out, ← add_assoc] at hsum
    exact add_right_cancel hsum
  unfold Accounts at h ⊢
  show e.received + e.copied = (e.exchange i entry).live + e.yielded + e.freed + (out + m)
  rw [h, ← hlive]
  abel

theorem Accounts.take {i : Nat} {held : Holding α} (h : e.Accounts m) (hlook : e.look? i = some held) :
    (e.exchange i none).Accounts (held.values + m) :=
  h.exchange hlook (zero_add _).symm

/-- An object gives way to one with the same values. -/
theorem Accounts.replace {i : Nat} {held held' : Holding α} (h : e.Accounts m) (hlook : e.look? i = some held)
    (hvalues : held'.values.Perm held.values) : (e.exchange i (some held')).Accounts m := by
  have hout : (held.values : Multiset α) = (held'.values : Multiset α) + 0 := by
    rw [add_zero]
    exact (Multiset.coe_eq_coe.2 hvalues).symm
  have hexchange : (e.exchange i (some held')).Accounts (0 + m) := h.exchange hlook hout
  rwa [zero_add] at hexchange

theorem Accounts.put {held : Holding α} (h : e.Accounts (held.values + m)) : (e.put held).Accounts m := by
  unfold Accounts at h ⊢
  show e.received + e.copied = (e.put held).live + e.yielded + e.freed + m
  rw [h, live_put]
  abel

theorem Accounts.receive (h : e.Accounts m) (a : α) : (e.receive a).Accounts ({a} + m) := by
  unfold Accounts at h ⊢
  show e.received + {a} + e.copied = e.live + e.yielded + e.freed + ({a} + m)
  rw [add_right_comm, h]
  abel

theorem Accounts.yield {as : List α} (h : e.Accounts (as + m)) : (e.yield as).Accounts m := by
  unfold Accounts at h ⊢
  show e.received + e.copied = e.live + (e.yielded + as) + e.freed + m
  rw [h]
  abel

theorem Accounts.free {account : List (Event α)} (h : e.Accounts (Event.values account + m)) :
    (e.free account).Accounts m := by
  unfold Accounts at h ⊢
  show e.received + e.copied = e.live + e.yielded + (e.freed + Event.values account) + m
  rw [h]
  abel

/-- What the copying of values gave is in hand, if no finished copy is left over. -/
theorem Accounts.finishCopying (h : e.Accounts m) (progress : σ × List (α × α)) :
    (e.finishCopying progress []).Accounts ((progress.2.map Prod.snd : List α) + m) := by
  unfold Accounts at h ⊢
  show e.received + (e.copied + (progress.2.map Prod.snd : List α)) = e.live + e.yielded + (e.freed + 0) + _
  rw [← add_assoc, h]
  abel

theorem Accounts.takeChild? {number : Option Nat} {n? : Option (Node α)} {e' : Estate α σ} (h : e.Accounts m)
    (htake : e.takeChild? number = some (n?, e')) :
    e'.Accounts ((n?.elim .empty Node.toTree : Tree α).preorder + m) := by
  cases number with
  | none =>
    obtain ⟨rfl, rfl⟩ := Prod.mk.inj (Option.some.inj htake)
    exact (zero_add m).symm ▸ h
  | some i =>
    obtain ⟨⟨n, e₁⟩, hnode, hpair⟩ := Option.map_eq_some_iff.1 htake
    obtain ⟨rfl, rfl⟩ := Prod.mk.inj hpair
    obtain ⟨hlook, rfl⟩ := takeNode?_eq_some hnode
    exact h.take hlook

/-! ## Every deed keeps the balance -/

variable {e' : Estate α σ}

theorem accounts_makeNode {a : α} {left right : Option Nat} (h : e.Accounts 0)
    (hdeed : e.makeNode a left right = some e') : e'.Accounts 0 := by
  obtain ⟨left?, e₁, right?, e₂, hleft, hright, rfl⟩ := makeNode_eq_some hdeed
  -- the value and the values of both children are in hand before the node is put into the estate
  have hhand := ((h.takeChild? hleft).takeChild? hright).receive a
  refine Accounts.put ?_
  rw [Holding.values, Node.preorder_ofChildren, ← Multiset.cons_coe, ← Multiset.singleton_add, ← Multiset.coe_add]
  convert hhand using 1
  abel

theorem accounts_makeLeaf (h : e.Accounts 0) (a : α) : (e.makeLeaf a).Accounts 0 := by
  have hhand := h.receive a
  exact Accounts.put hhand

theorem accounts_makeTree {root : Option Nat} (h : e.Accounts 0) (hdeed : e.makeTree root = some e') :
    e'.Accounts 0 := by
  obtain ⟨root?, e₁, hroot, rfl⟩ := makeTree_eq_some hdeed
  exact (h.takeChild? hroot).put

theorem accounts_copyTree {f : α → StateM σ α} {i : Nat} (h : e.Accounts 0) (hdeed : e.copyTree f i = some e') :
    e'.Accounts 0 := by
  obtain ⟨t, -, rfl⟩ := copyTree_eq_some hdeed
  have hhand := h.finishCopying (t.copy (recording f) (e.copying, [])).2
  rw [Multiset.coe_eq_coe.2 (t.calls_copy_perm f e.copying)] at hhand
  rw [t.leftOver_eq_nil, t.copy_recording]
  exact hhand.put

theorem accounts_copyNode {f : α → StateM σ α} {i : Nat} {path : List Side} (h : e.Accounts 0)
    (hdeed : e.copyNode f i path = some e') : e'.Accounts 0 := by
  obtain ⟨held, s, -, -, rfl⟩ := copyNode_eq_some hdeed
  have hhand := h.finishCopying (s.node.copy (recording f) (e.copying, [])).2
  rw [Multiset.coe_eq_coe.2 (s.node.calls_copy_perm f e.copying)] at hhand
  rw [s.node.leftOver_eq_nil, s.node.copy_recording]
  exact hhand.put

theorem accounts_rearrange {i : Nat} {moves : List (CellMove α)} (h : e.Accounts 0)
    (hdeed : e.rearrange i moves = some e') : e'.Accounts 0 := by
  obtain ⟨held, held', hlook, hmoves, rfl⟩ := rearrange_eq_some hdeed
  exact h.replace hlook (Holding.values_rearranged? hmoves)

theorem accounts_takeApart {i : Nat} (h : e.Accounts 0) (hdeed : e.takeApart i = some e') : e'.Accounts 0 := by
  obtain ⟨held, held', hlook, hapart, rfl⟩ := takeApart_eq_some hdeed
  exact h.replace hlook (List.Perm.of_eq (Holding.values_takenApart? hapart))

theorem accounts_callWalk {i : Nat} (h : e.Accounts 0) (hdeed : e.callWalk i = some e') : e'.Accounts 0 := by
  obtain ⟨w, hlook, rfl⟩ := callWalk_eq_some hdeed
  have hvalues : (w.values : Multiset α) = ((Walk.call w).2.values : Multiset α) + (Walk.call w).1.toList := by
    rw [add_comm, Multiset.coe_add, ← w.values_call]
  have hhand : (e.exchange i (some (.owning (Walk.call w).2))).Accounts ((Walk.call w).1.toList + 0) :=
    h.exchange hlook hvalues
  refine Accounts.free ?_
  rw [values_callAccount]
  exact hhand.yield

theorem accounts_giveUp {i : Nat} (h : e.Accounts 0) (hdeed : e.giveUp i = some e') : e'.Accounts 0 := by
  obtain ⟨held, hlook, rfl⟩ := giveUp_eq_some hdeed
  have hhand := h.take hlook
  rw [← Multiset.coe_eq_coe.2 held.values_release_perm] at hhand
  exact hhand.free

/-- A deed begins and ends with nothing in hand. -/
theorem accounts_perform {f : α → StateM σ α} {deed : Deed α} (h : e.Accounts 0)
    (hdeed : e.perform f deed = some e') : e'.Accounts 0 := by
  cases deed with
  | makeNode a left right => exact accounts_makeNode h hdeed
  | makeLeaf a =>
    obtain rfl := Option.some.inj hdeed
    exact accounts_makeLeaf h a
  | makeTree root => exact accounts_makeTree h hdeed
  | copyTree i => exact accounts_copyTree h hdeed
  | copyNode i path => exact accounts_copyNode h hdeed
  | rearrange i moves => exact accounts_rearrange h hdeed
  | takeApart i => exact accounts_takeApart h hdeed
  | callWalk i => exact accounts_callWalk h hdeed
  | giveUp i => exact accounts_giveUp h hdeed

theorem accounts_run (f : α → StateM σ α) (st : σ) (deeds : List (Deed α)) : (run f st deeds).Accounts 0 := by
  have key : ∀ e : Estate α σ, e.Accounts 0 →
      (deeds.foldl (fun e deed => (e.perform f deed).getD e) e).Accounts 0 := by
    induction deeds with
    | nil => exact fun e h => h
    | cons deed deeds ih =>
      intro e h
      refine ih _ ?_
      show ((e.perform f deed).getD e).Accounts 0
      cases hdeed : e.perform f deed with
      | none => exact h
      | some e' => exact accounts_perform h hdeed
  exact key (start st) (accounts_start st)

/-- **No value is lost.** After any run of deeds, the values that nodes were made of and those that the copying of
values gave are the values of the objects, those that walks handed out and those that releases freed, each as often as
on the other side. -/
theorem received_add_copied (f : α → StateM σ α) (st : σ) (deeds : List (Deed α)) :
    let e := run f st deeds
    e.received + e.copied = e.live + e.yielded + e.freed ∧
    ((e.received + e.copied).Nodup → e.freed.Nodup ∧ e.yielded.Nodup ∧ Disjoint e.yielded e.freed ∧
      Disjoint e.live (e.yielded + e.freed)) ∧
    (∀ later, e.Grows (run f st (deeds ++ later))) ∧
    ∀ deed, (e.perform f deed).isSome ↔ deed.Possible e := by
  intro e
  have hbalance : e.received + e.copied = e.live + e.yielded + e.freed := by
    have h : e.Accounts 0 := accounts_run f st deeds
    rwa [Accounts, add_zero] at h
  refine ⟨hbalance, fun hnodup => ?_, grows_run f st deeds, isSome_perform_iff f e⟩
  rw [hbalance, add_assoc, Multiset.nodup_add, Multiset.nodup_add] at hnodup
  obtain ⟨-, ⟨hyielded, hfreed, hdisjoint⟩, hlive⟩ := hnodup
  exact ⟨hfreed, hyielded, hdisjoint, hlive⟩

/-- Three nodes become one, two of its values are exchanged, and a walk that takes it apart is called once. -/
example :
    let e : Estate Nat Unit := run (fun a => pure a) () [.makeLeaf 1, .makeLeaf 2, .makeNode 3 (some 0) (some 1),
      .rearrange 2 [⟨.next, rfl⟩, ⟨.next, rfl⟩, ⟨.swap 0 1, rfl⟩], .takeApart 2, .callWalk 2]
    e.received = {1, 2, 3} ∧ e.yielded = {1} ∧ e.live = {3, 2} := by
  decide

end Estate

end TreeWalk
