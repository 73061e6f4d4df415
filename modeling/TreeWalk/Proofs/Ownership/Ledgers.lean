import Mathlib.Algebra.Order.Group.Multiset
import TreeWalk.Proofs.Ownership.Estate
import TreeWalk.Proofs.Release

/-!
# What stands in the ledgers

* `Estate.Adds` : the ledgers of an estate are those of another one with some values added;
* `Deed.Books`, `Estate.books_perform` : what each deed adds to each ledger. A new node receives its value, a copy adds
  the values that lie in it then, a call of a walk what it answers, and an object that is given up the values that were
  in it; nothing else is added;
* `Estate.Grows`, `Estate.grows_run` : so what stands in a ledger stands there for the rest of a run.

A value that was freed or handed out once is therefore never taken back into the estate by striking it off a ledger.
-/

namespace TreeWalk

universe u

variable {α σ : Type u}

/-! ## The values of released objects and of copies -/

theorem Holding.values_release_perm (held : Holding α) : (Event.values held.release).Perm held.values := by
  cases held with
  | node n => exact TreeWalk.values_release_perm n
  | tree t => exact values_releaseTree_perm t
  | owning w => exact values_releaseOwning_perm w

theorem Tree.copy_recording (f : α → StateM σ α) (t : Tree α) (st : σ) :
    (t.copy (recording f) (st, [])).1 = (t.copy f st).1 := by
  rw [t.copy_eq, t.copy_eq, t.visitPost_recording]

theorem Node.copy_recording (f : α → StateM σ α) (n : Node α) (st : σ) :
    (n.copy (recording f) (st, [])).1 = (n.copy f st).1 :=
  Node.toTree_injective (n.toTree.copy_recording f st)

/-- What the calls for the values gave is what lies in the copy. -/
theorem Tree.calls_copy_perm (f : α → StateM σ α) (t : Tree α) (st : σ) :
    ((t.copy (recording f) (st, [])).2.2.map Prod.snd).Perm (t.copy f st).1.preorder := by
  have hlength := t.length_postorder_visitPost f st
  rw [t.copy_eq, t.copy_eq, t.visitPost_recording, List.nil_append, List.map_snd_zip (Nat.le_of_eq hlength.symm)]
  exact postorder_perm _

theorem Node.calls_copy_perm (f : α → StateM σ α) (n : Node α) (st : σ) :
    ((n.copy (recording f) (st, [])).2.2.map Prod.snd).Perm (n.copy f st).1.toTree.preorder :=
  n.toTree.calls_copy_perm f st

/-- The copy of the root is the only finished copy at the end. -/
theorem Node.leftOver_eq_nil {β : Type u} (f : α → StateM σ β) (n : Node α) (st : σ) : n.leftOver f st = [] := by
  unfold leftOver
  rw [n.built_eq_copy, List.tail_cons]

theorem Tree.leftOver_eq_nil {β : Type u} (f : α → StateM σ β) (t : Tree α) (st : σ) :
    (t.root?.elim [] fun n => n.leftOver f st) = [] := by
  cases t with
  | empty => rfl
  | node value left right => exact Node.leftOver_eq_nil ..

namespace Estate

/-! ## Steps of deeds -/

/-- The ledgers of `e'` are those of `e` with these values added. -/
structure Adds (e e' : Estate α σ) (received copied yielded freed : Multiset α) : Prop where
  received : e'.received = e.received + received
  copied : e'.copied = e.copied + copied
  yielded : e'.yielded = e.yielded + yielded
  freed : e'.freed = e.freed + freed

variable {e e' e'' : Estate α σ} {received copied yielded freed : Multiset α}

theorem adds_refl (e : Estate α σ) : e.Adds e 0 0 0 0 :=
  ⟨(add_zero _).symm, (add_zero _).symm, (add_zero _).symm, (add_zero _).symm⟩

/-- What comes after steps that add nothing is all that is added. -/
theorem Adds.trans (h : e.Adds e' 0 0 0 0) (h' : e'.Adds e'' received copied yielded freed) :
    e.Adds e'' received copied yielded freed where
  received := by rw [h'.received, h.received, add_zero]
  copied := by rw [h'.copied, h.copied, add_zero]
  yielded := by rw [h'.yielded, h.yielded, add_zero]
  freed := by rw [h'.freed, h.freed, add_zero]

theorem Adds.put (h : e.Adds e' received copied yielded freed) (held : Holding α) :
    e.Adds (e'.put held) received copied yielded freed :=
  ⟨h.received, h.copied, h.yielded, h.freed⟩

theorem adds_exchange (e : Estate α σ) (i : Nat) (entry : Option (Holding α)) : e.Adds (e.exchange i entry) 0 0 0 0 :=
  ⟨(add_zero _).symm, (add_zero _).symm, (add_zero _).symm, (add_zero _).symm⟩

theorem adds_receive (e : Estate α σ) (a : α) : e.Adds (e.receive a) {a} 0 0 0 :=
  ⟨rfl, (add_zero _).symm, (add_zero _).symm, (add_zero _).symm⟩

theorem adds_free (e : Estate α σ) {account : List (Event α)} {as : List α} (h : (Event.values account).Perm as) :
    e.Adds (e.free account) 0 0 0 as :=
  ⟨(add_zero _).symm, (add_zero _).symm, (add_zero _).symm, congrArg (e.freed + ·) (Multiset.coe_eq_coe.2 h)⟩

theorem adds_yield_free (e : Estate α σ) (as : List α) {account : List (Event α)} (h : Event.values account = []) :
    e.Adds ((e.yield as).free account) 0 0 as 0 :=
  ⟨(add_zero _).symm, (add_zero _).symm, rfl, congrArg (fun freed : List α => e.freed + freed) h⟩

/-- No finished copy is left over to be released. -/
theorem adds_finishCopying (e : Estate α σ) {progress : σ × List (α × α)} {leftOver : List (Node α)} {as : List α}
    (hleftOver : leftOver = []) (h : (progress.2.map Prod.snd).Perm as) :
    e.Adds (e.finishCopying progress leftOver) 0 as 0 0 := by
  subst hleftOver
  exact ⟨(add_zero _).symm, congrArg (e.copied + ·) (Multiset.coe_eq_coe.2 h), (add_zero _).symm, rfl⟩

theorem adds_takeChild? {number : Option Nat} {n? : Option (Node α)} (h : e.takeChild? number = some (n?, e')) :
    e.Adds e' 0 0 0 0 := by
  cases number with
  | none =>
    obtain ⟨-, rfl⟩ := Prod.mk.inj (Option.some.inj h)
    exact adds_refl e
  | some i =>
    obtain ⟨⟨n, e₁⟩, hnode, hpair⟩ := Option.map_eq_some_iff.1 h
    obtain ⟨-, rfl⟩ := Prod.mk.inj hpair
    obtain ⟨-, rfl⟩ := takeNode?_eq_some hnode
    exact adds_exchange e i none

end Estate

/-! ## Deeds -/

/-- What the deed adds to the ledgers of `e`, which are those of `e'` then. -/
def Deed.Books (f : α → StateM σ α) (e e' : Estate α σ) : Deed α → Prop
  | makeNode a _ _ => e.Adds e' {a} 0 0 0
  | makeLeaf a => e.Adds e' {a} 0 0 0
  | makeTree _ => e.Adds e' 0 0 0 0
  | copyTree i => ∃ t, e.look? i = some (.tree t) ∧ e.Adds e' 0 (t.copy f e.copying).1.preorder 0 0
  | copyNode i path => ∃ held s, e.look? i = some held ∧ held.locate? path = some s ∧
      e.Adds e' 0 (s.node.copy f e.copying).1.toTree.preorder 0 0
  | rearrange _ _ => e.Adds e' 0 0 0 0
  | takeApart _ => e.Adds e' 0 0 0 0
  | callWalk i => ∃ w, e.look? i = some (.owning w) ∧ e.Adds e' 0 0 (Walk.call w).1.toList 0
  | giveUp i => ∃ held, e.look? i = some held ∧ e.Adds e' 0 0 0 held.values

namespace Estate

variable {e e' : Estate α σ} {f : α → StateM σ α} {deed : Deed α}

theorem books_perform (h : e.perform f deed = some e') : deed.Books f e e' := by
  cases deed with
  | makeNode a left right =>
    obtain ⟨left?, e₁, right?, e₂, hleft, hright, rfl⟩ := makeNode_eq_some h
    have hchildren : e.Adds e₂ 0 0 0 0 := (adds_takeChild? hleft).trans (adds_takeChild? hright)
    exact (hchildren.trans (adds_receive e₂ a)).put _
  | makeLeaf a =>
    obtain rfl := Option.some.inj h
    exact (adds_receive e a).put _
  | makeTree root =>
    obtain ⟨root?, e₁, hroot, rfl⟩ := makeTree_eq_some h
    exact (adds_takeChild? hroot).put _
  | copyTree i =>
    obtain ⟨t, hlook, rfl⟩ := copyTree_eq_some h
    exact ⟨t, hlook, (adds_finishCopying e (t.leftOver_eq_nil ..) (t.calls_copy_perm f e.copying)).put _⟩
  | copyNode i path =>
    obtain ⟨held, s, hlook, hs, rfl⟩ := copyNode_eq_some h
    have hcopied := adds_finishCopying e (s.node.leftOver_eq_nil (recording f) (e.copying, []))
      (s.node.calls_copy_perm f e.copying)
    exact ⟨held, s, hlook, hs, hcopied.put _⟩
  | rearrange i moves =>
    obtain ⟨held, held', -, -, rfl⟩ := rearrange_eq_some h
    exact adds_exchange e i _
  | takeApart i =>
    obtain ⟨held, held', -, -, rfl⟩ := takeApart_eq_some h
    exact adds_exchange e i _
  | callWalk i =>
    obtain ⟨w, hlook, rfl⟩ := callWalk_eq_some h
    exact ⟨w, hlook, (adds_exchange e i _).trans (adds_yield_free _ _ (values_callAccount w))⟩
  | giveUp i =>
    obtain ⟨held, hlook, rfl⟩ := giveUp_eq_some h
    exact ⟨held, hlook, (adds_exchange e i none).trans (adds_free _ held.values_release_perm)⟩

/-! ## Runs -/

/-- What stands in a ledger still stands there later. -/
structure Grows (e e' : Estate α σ) : Prop where
  received : e.received ≤ e'.received
  copied : e.copied ≤ e'.copied
  yielded : e.yielded ≤ e'.yielded
  freed : e.freed ≤ e'.freed

theorem Grows.refl (e : Estate α σ) : e.Grows e :=
  ⟨le_rfl, le_rfl, le_rfl, le_rfl⟩

theorem Grows.trans {e₁ e₂ e₃ : Estate α σ} (h₁ : e₁.Grows e₂) (h₂ : e₂.Grows e₃) : e₁.Grows e₃ :=
  ⟨h₁.received.trans h₂.received, h₁.copied.trans h₂.copied, h₁.yielded.trans h₂.yielded, h₁.freed.trans h₂.freed⟩

theorem Adds.grows {received copied yielded freed : Multiset α} (h : e.Adds e' received copied yielded freed) :
    e.Grows e' where
  received := h.received ▸ Multiset.le_add_right _ _
  copied := h.copied ▸ Multiset.le_add_right _ _
  yielded := h.yielded ▸ Multiset.le_add_right _ _
  freed := h.freed ▸ Multiset.le_add_right _ _

theorem grows_perform (h : e.perform f deed = some e') : e.Grows e' := by
  have hbooks := books_perform h
  cases deed with
  | copyTree i =>
    obtain ⟨t, -, hadds⟩ := hbooks
    exact hadds.grows
  | copyNode i path =>
    obtain ⟨held, s, -, -, hadds⟩ := hbooks
    exact hadds.grows
  | callWalk i =>
    obtain ⟨w, -, hadds⟩ := hbooks
    exact hadds.grows
  | giveUp i =>
    obtain ⟨held, -, hadds⟩ := hbooks
    exact hadds.grows
  | _ => exact Adds.grows hbooks

theorem grows_run (f : α → StateM σ α) (st : σ) (deeds later : List (Deed α)) :
    (run f st deeds).Grows (run f st (deeds ++ later)) := by
  have key : ∀ e : Estate α σ, e.Grows (later.foldl (fun e deed => (e.perform f deed).getD e) e) := by
    induction later with
    | nil => exact Grows.refl
    | cons deed later ih =>
      intro e
      refine Grows.trans ?_ (ih _)
      show e.Grows ((e.perform f deed).getD e)
      cases hdeed : e.perform f deed with
      | none => exact Grows.refl e
      | some e' => exact grows_perform hdeed
  unfold run
  rw [List.foldl_append]
  exact key _

end Estate

end TreeWalk
