import Mathlib
import TreeWalk.Value

/-!
# Texts that can be read back

A text is legible if it tells what is written and where it ends, whatever stands behind it. The numeral of `1` is also
how the numeral of `12` begins, so a numeral needs something behind it that cannot go on with it. In a structured text
there is always such a thing: a part is followed by a comma, a blank or a closing bracket (`Text.Ends`).

* `Text.Legible` : what is written can be read off in front of any text that `Ends`;
* `Text.legible_numeral` : the numerals of integers are legible;
* `Layout.legible_option`, `Layout.legible_list` : options and lists are legible if what is in them is.
-/

namespace TreeWalk

universe u v

variable {α : Type u} {β : Type v}

/-! ## Reading off -/

namespace Text

/-- Text that can stand behind a part: nothing, or text that opens with what separates or closes the parts. -/
def Ends (s : String) : Prop := ∀ c ∈ s.toList.head?, c ∈ [',', ' ', ')', ']', '\x7d']

/-- In front of a text that ends it, the text of `a` is the text of nothing else, and it ends where it does. -/
def Legible (write : α → String) (a : α) : Prop :=
  ∀ ⦃b : α⦄ ⦃r s : String⦄, Ends r → Ends s → write a ++ r = write b ++ s → a = b ∧ r = s

theorem ends_empty : Ends "" := fun _ h => by simp at h

theorem Legible.eq_of_eq {write : α → String} {a b : α} (h : Legible write a) (heq : write a = write b) : a = b :=
  (h ends_empty ends_empty (congrArg (· ++ "") heq)).1

/-- What is written through its parts is legible if the parts are and tell it. -/
theorem Legible.comp {write : β → String} {f : α → β} {a : α} (h : Legible write (f a)) (hf : Function.Injective f) :
    Legible (fun a => write (f a)) a := fun _ _ _ hr hs heq => (h hr hs heq).imp_left fun hab => hf hab

end Text

/-! ## Numerals -/

namespace Text

def isNumeral (c : Char) : Bool := c.isDigit || c == '-'

theorem isNumeral_of_mem_toString {n : Int} {c : Char} (h : c ∈ (toString n).toList) : isNumeral c = true := by
  have hnat : ∀ (k : Nat), c ∈ k.repr.toList → isNumeral c = true := fun k hk => by
    rw [Nat.toList_repr] at hk
    rw [isNumeral, Nat.isDigit_of_mem_toDigits (by decide) (by decide) hk, Bool.true_or]
  rw [Int.toString_eq_repr, Int.repr_eq_if] at h
  split at h
  · exact hnat _ h
  · rw [String.toList_append, List.mem_append] at h
    cases h with
    | inl hsign => rw [List.mem_singleton.1 hsign]; rfl
    | inr hdigit => exact hnat _ hdigit

theorem takeWhile_isNumeral {s : String} (h : Ends s) : s.toList.takeWhile isNumeral = [] := by
  unfold Ends at h
  cases hs : s.toList with
  | nil => rfl
  | cons c rest =>
    rw [hs] at h
    have hc : isNumeral c = false := by
      have hmem := h c rfl
      fin_cases hmem <;> rfl
    rw [List.takeWhile_cons_of_neg (by rw [hc]; exact Bool.false_ne_true)]

/-- The numeral is the longest run of numeral characters at the front. -/
theorem takeWhile_toString_append (n : Int) {s : String} (h : Ends s) :
    (toString n ++ s).toList.takeWhile isNumeral = (toString n).toList := by
  rw [String.toList_append, List.takeWhile_append_of_pos fun _ => isNumeral_of_mem_toString, takeWhile_isNumeral h,
    List.append_nil]

theorem legible_numeral (layout : Layout) (n : Int64) : Legible (fun n => Value.text layout (.int n)) n := by
  intro m r s hr hs heq
  simp only [Value.text] at heq
  have hrun : (toString n.toInt).toList = (toString m.toInt).toList := by
    rw [← takeWhile_toString_append n.toInt hr, heq, takeWhile_toString_append m.toInt hs]
  have hnumeral : toString n.toInt = toString m.toInt := String.toList_inj.1 hrun
  rw [hnumeral, String.append_right_inj] at heq
  rw [Int.toString_eq_repr, Int.toString_eq_repr] at hnumeral
  exact ⟨Int64.toInt_inj.1 (Int.repr_injective hnumeral), heq⟩

end Text

/-! ## Structured texts -/

namespace Layout

open Text

theorem ends_separator (layout : Layout) (s : String) : Ends (layout.separator ++ s) := by
  cases layout <;> simp [Ends, separator]

theorem ends_trail (layout : Layout) {space s : String} (h : Ends (space ++ s)) : Ends (layout.trail space ++ s) := by
  cases layout with
  | flat => exact h
  | block depth => simp [Ends, trail]

/-- Behind a part of a list it shows whether there is another one. -/
theorem trail_append_ne_separator_append (layout : Layout) (r s : String) :
    layout.trail "" ++ ("]" ++ r) ≠ layout.separator ++ s := by
  intro h
  cases layout with
  | flat => simp [trail, separator, ← String.toList_inj] at h
  | block depth =>
    have hmargin : margin (depth + 1) = margin depth ++ "    " := by
      rw [margin, margin, ← String.toList_inj, String.toList_append, String.toList_ofList, String.toList_ofList,
        Nat.mul_succ, List.replicate_add]
      rfl
    simp only [trail, separator, hmargin, String.append_assoc, String.append_right_inj] at h
    simp [← String.toList_inj] at h

theorem legible_option {write : α → String} {a? : Option α} (h : ∀ a ∈ a?, Legible write a) (layout : Layout) :
    Legible (fun a? => layout.option (a?.map write)) a? := by
  intro b? r s hr hs heq
  cases a? with
  | none =>
    cases b? with
    | none => exact ⟨rfl, (String.append_right_inj _).1 heq⟩
    | some b => simp [option, tuple, enclose, ← String.toList_inj] at heq
  | some a =>
    cases b? with
    | none => simp [option, tuple, enclose, ← String.toList_inj] at heq
    | some b =>
      simp only [Option.map_some, option, tuple, enclose, String.intercalate_singleton, String.append_assoc,
        String.append_right_inj] at heq
      obtain ⟨rfl, htrail⟩ := h a rfl (layout.ends_trail (by simp [Ends])) (layout.ends_trail (by simp [Ends])) heq
      exact ⟨rfl, by simpa only [String.append_right_inj] using htrail⟩

/-- What stands behind an item of a list: the items after it, and what closes the list. -/
def listRest (layout : Layout) : List String → String
  | [] => layout.trail "" ++ "]"
  | item :: items => layout.separator ++ item ++ layout.listRest items

theorem list_cons (layout : Layout) (item : String) (items : List String) :
    layout.list (item :: items) = "[" ++ layout.lead "" ++ item ++ layout.listRest items := by
  have hrest : ∀ item, layout.separator.intercalate (item :: items) ++ layout.trail "" ++ "]" =
      item ++ layout.listRest items := by
    induction items with
    | nil => intro item; rw [String.intercalate_singleton, String.append_assoc, listRest]
    | cons item' items ih =>
      intro item
      rw [String.intercalate_cons_cons, listRest]
      simp only [String.append_assoc] at ih ⊢
      rw [ih]
  rw [list, List.isEmpty_cons, if_neg Bool.false_ne_true, enclose]
  simp only [String.append_assoc] at hrest ⊢
  rw [hrest]

theorem ends_listRest (layout : Layout) (items : List String) (s : String) : Ends (layout.listRest items ++ s) := by
  cases items with
  | nil =>
    rw [listRest, String.append_assoc]
    exact layout.ends_trail (by simp [Ends])
  | cons item items =>
    rw [listRest, String.append_assoc, String.append_assoc]
    exact layout.ends_separator _

/-- An item with what stands behind it, where that is legible. -/
theorem legible_item {layout : Layout} {write : α → String} {a b : α} {as bs : List α} {r s : String}
    (ha : Legible write a) (has : Legible (fun as => layout.listRest (as.map write)) as) (hr : Ends r) (hs : Ends s)
    (heq : write a ++ (layout.listRest (as.map write) ++ r) = write b ++ (layout.listRest (bs.map write) ++ s)) :
    a :: as = b :: bs ∧ r = s := by
  obtain ⟨rfl, hrest⟩ := ha (ends_listRest _ _ _) (ends_listRest _ _ _) heq
  obtain ⟨rfl, hrs⟩ := has hr hs hrest
  exact ⟨rfl, hrs⟩

theorem legible_listRest {write : α → String} {as : List α} (h : ∀ a ∈ as, Legible write a) (layout : Layout) :
    Legible (fun as => layout.listRest (as.map write)) as := by
  induction as with
  | nil =>
    intro bs r s hr hs heq
    cases bs with
    | nil => exact ⟨rfl, (String.append_right_inj _).1 heq⟩
    | cons b bs =>
      -- one list is closed where the other one goes on
      simp only [List.map, listRest, String.append_assoc] at heq
      exact absurd heq (layout.trail_append_ne_separator_append _ _)
  | cons a as ih =>
    intro bs r s hr hs heq
    cases bs with
    | nil =>
      simp only [List.map, listRest, String.append_assoc] at heq
      exact absurd heq.symm (layout.trail_append_ne_separator_append _ _)
    | cons b bs =>
      simp only [List.map, listRest, String.append_assoc, String.append_right_inj] at heq
      exact legible_item (h a List.mem_cons_self) (ih fun c hc => h c (List.mem_cons_of_mem _ hc)) hr hs heq

/-- A list is legible if its items are and none of them opens like the end of it. -/
theorem legible_list {write : α → String} {as : List α} (h : ∀ a ∈ as, Legible write a)
    (hopen : ∀ a r s, write a ++ r ≠ "]" ++ s) (layout : Layout) :
    Legible (fun as => layout.list (as.map write)) as := by
  have hempty : ∀ a bs r s, layout.list ((a :: bs).map write) ++ r ≠ layout.list (([] : List α).map write) ++ s := by
    intro a bs r s heq
    have hlist : layout.list (([] : List α).map write) = "[" ++ "]" := rfl
    rw [List.map_cons, list_cons, hlist] at heq
    simp only [String.append_assoc, String.append_right_inj] at heq
    cases layout with
    | flat => exact hopen a _ s (by simpa only [lead, String.empty_append] using heq)
    | block depth => simp [lead, ← String.toList_inj] at heq
  intro bs r s hr hs heq
  cases as with
  | nil =>
    cases bs with
    | nil => exact ⟨rfl, (String.append_right_inj _).1 heq⟩
    | cons b bs => exact absurd heq.symm (hempty b bs s r)
  | cons a as =>
    cases bs with
    | nil => exact absurd heq (hempty a as r s)
    | cons b bs =>
      simp only [List.map_cons, list_cons, String.append_assoc, String.append_right_inj] at heq
      have hrest := legible_listRest (fun c hc => h c (List.mem_cons_of_mem _ hc)) layout
      exact legible_item (h a List.mem_cons_self) hrest hr hs heq

end Layout

end TreeWalk
