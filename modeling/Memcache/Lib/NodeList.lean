import Mathlib.Data.List.Nodup
import Mathlib.Data.List.Perm.Basic
import Mathlib.Algebra.BigOperators.Group.List.Basic
import Mathlib.Tactic.Abel

/-!
# Lists of identified nodes

An intrusive linked list is a list of nodes that other structures point into: a node is looked
up, moved and unlinked by its **identity**, never by its position. This module models such a list
as a `List α` together with a function `ident : α → ι` that reads a node's identity, and gives the
operations every client needs, `lookup`, `unlink` and `replace`, with the laws that hold when identities
are distinct.

The laws are stated up to `List.Perm`, because what a client keeps invariant is *which* nodes a
list holds; the order of a particular list is that client's own business.
-/

namespace NodeList

variable {α β ι : Type*}

/-- Identities are distinct: no two nodes of the list are the same node. -/
def Distinct (ident : α → ι) (l : List α) : Prop :=
  (l.map ident).Nodup

section Distinct

variable {ident : α → ι} {a b : α} {l l₁ l₂ : List α}

theorem Distinct.eq_of_ident (hl : Distinct ident l) (ha : a ∈ l) (hb : b ∈ l)
    (h : ident a = ident b) : a = b :=
  List.inj_on_of_nodup_map hl ha hb h

theorem Distinct.perm (hl : Distinct ident l₁) (h : l₁.Perm l₂) : Distinct ident l₂ :=
  (h.map ident).nodup_iff.1 hl

theorem Distinct.sublist (hl : Distinct ident l₂) (h : l₁.Sublist l₂) : Distinct ident l₁ :=
  List.Nodup.sublist (h.map ident) hl

theorem Distinct.cons (hl : Distinct ident l) (h : ∀ b ∈ l, ident b ≠ ident a) :
    Distinct ident (a :: l) := by
  refine List.nodup_cons.2 ⟨?_, hl⟩
  simpa using h

theorem Distinct.of_append_left (hl : Distinct ident (l₁ ++ l₂)) : Distinct ident l₁ :=
  hl.sublist (List.sublist_append_left ..)

theorem Distinct.of_append_right (hl : Distinct ident (l₁ ++ l₂)) : Distinct ident l₂ :=
  hl.sublist (List.sublist_append_right ..)

/-- The last of several is not the first. -/
theorem Distinct.getLast_ne (hd : Distinct ident (a :: l)) (hl : l ≠ [])
    (h : (a :: l).getLast? = some b) : ident b ≠ ident a := by
  rw [List.getLast?_cons_of_ne_nil hl] at h
  intro hid
  exact (List.nodup_cons.1 hd).1 (hid ▸ List.mem_map_of_mem (List.mem_of_getLast? h))

/-- A list keeps its first element when its last, another one, is dropped. -/
theorem exists_dropLast_cons (h : (a :: l).getLast? = some b) (hne : ident b ≠ ident a) :
    ∃ l', (a :: l).dropLast = a :: l' := by
  cases l with
  | nil => exact absurd (congrArg ident (by simpa using h.symm)) hne
  | cons x l => exact ⟨(x :: l).dropLast, List.dropLast_cons_cons ..⟩

/-- Nor is the first of several the last. -/
theorem Distinct.head_ne (hd : Distinct ident (b :: (l ++ [a]))) : ident b ≠ ident a := by
  intro hid
  exact (List.nodup_cons.1 hd).1 (hid ▸ List.mem_map_of_mem (by simp))

end Distinct

variable [DecidableEq ι] (ident : α → ι)

/-- The node with identity `i`. -/
def lookup (i : ι) (l : List α) : Option α :=
  l.find? fun a ↦ ident a = i

/-- The list without the node of identity `i`; **a no-op when there is none**. -/
def unlink (i : ι) (l : List α) : List α :=
  l.filter fun a ↦ ident a ≠ i

/-- The list with the node of `a`'s identity replaced by `a`. -/
def replace (a : α) (l : List α) : List α :=
  l.map fun b ↦ if ident b = ident a then a else b

variable {ident} {i : ι} {a b : α} {l l₁ l₂ : List α}

/-! ### Lookup -/

theorem lookup_cons : lookup ident i (a :: l) = if ident a = i then some a else lookup ident i l := by
  by_cases h : ident a = i <;> simp [lookup, h]

theorem mem_of_lookup (h : lookup ident i l = some a) : a ∈ l :=
  List.mem_of_find?_eq_some h

theorem ident_of_lookup (h : lookup ident i l = some a) : ident a = i := by
  simpa using List.find?_some h

theorem lookup_eq_none : lookup ident i l = none ↔ ∀ a ∈ l, ident a ≠ i := by
  simp [lookup]

theorem Distinct.lookup_eq (hl : Distinct ident l) (ha : a ∈ l) :
    lookup ident (ident a) l = some a := by
  cases h : lookup ident (ident a) l with
  | none => exact absurd rfl (lookup_eq_none.1 h a ha)
  | some b => rw [hl.eq_of_ident (mem_of_lookup h) ha (ident_of_lookup h)]

/-! ### Unlinking -/

@[simp] theorem unlink_nil : unlink ident i [] = [] := rfl

@[simp] theorem mem_unlink : a ∈ unlink ident i l ↔ a ∈ l ∧ ident a ≠ i := by
  simp [unlink]

@[simp] theorem unlink_append :
    unlink ident i (l₁ ++ l₂) = unlink ident i l₁ ++ unlink ident i l₂ := by
  simp [unlink]

theorem unlink_cons_self : unlink ident (ident a) (a :: l) = unlink ident (ident a) l := by
  simp [unlink]

theorem unlink_cons_of_ne (h : ident a ≠ i) :
    unlink ident i (a :: l) = a :: unlink ident i l := by
  simp [unlink, h]

theorem unlink_concat_of_ne (h : ident a ≠ i) :
    unlink ident i (l ++ [a]) = unlink ident i l ++ [a] := by
  rw [unlink_append, unlink_cons_of_ne h, unlink_nil]

theorem unlink_of_notMem (h : ∀ a ∈ l, ident a ≠ i) : unlink ident i l = l := by
  simpa [unlink, List.filter_eq_self] using h

theorem unlink_sublist : (unlink ident i l).Sublist l :=
  List.filter_sublist

theorem unlink_perm (h : l₁.Perm l₂) : (unlink ident i l₁).Perm (unlink ident i l₂) :=
  h.filter _

theorem map_unlink {f : α → β} {ident' : β → ι} (h : ∀ a, ident' (f a) = ident a) :
    (unlink ident i l).map f = unlink ident' i (l.map f) := by
  simp [unlink, List.filter_map, Function.comp_def, h]

theorem Distinct.unlink (hl : Distinct ident l) : Distinct ident (unlink ident i l) :=
  hl.sublist unlink_sublist

/-- **Taking a node out and putting it in front** permutes a list of distinct nodes. -/
theorem Distinct.perm_cons_unlink (hl : Distinct ident l) (ha : a ∈ l) :
    l.Perm (a :: NodeList.unlink ident (ident a) l) := by
  induction l with
  | nil => cases ha
  | cons b l ih =>
    obtain ⟨hb, hl'⟩ := List.nodup_cons.1 hl
    by_cases hab : ident b = ident a
    · obtain rfl : b = a := hl.eq_of_ident (List.mem_cons_self ..) ha hab
      rw [unlink_cons_self, unlink_of_notMem]
      intro c hc hcb
      exact hb (hcb ▸ List.mem_map_of_mem hc)
    · have hal : a ∈ l := (List.mem_cons.1 ha).resolve_left fun h ↦ hab (h ▸ rfl)
      rw [unlink_cons_of_ne hab]
      exact ((ih hl' hal).cons b).trans (.swap ..)

theorem Distinct.length_unlink (hl : Distinct ident l) (ha : a ∈ l) :
    (NodeList.unlink ident (ident a) l).length + 1 = l.length := by
  simpa using (hl.perm_cons_unlink ha).length_eq.symm

theorem Distinct.sum_unlink {M : Type*} [AddCommMonoid M] (w : α → M)
    (hl : Distinct ident l) (ha : a ∈ l) :
    (l.map w).sum = w a + ((NodeList.unlink ident (ident a) l).map w).sum := by
  simpa using ((hl.perm_cons_unlink ha).map w).sum_eq

/-! ### Replacing -/

@[simp] theorem length_replace : (replace ident a l).length = l.length := by
  simp [replace]

theorem mem_replace (h : b ∈ replace ident a l) : b = a ∨ b ∈ l ∧ ident b ≠ ident a := by
  obtain ⟨c, hc, rfl⟩ := List.mem_map.1 h
  split_ifs with hca
  · exact .inl rfl
  · exact .inr ⟨hc, hca⟩

theorem mem_replace_self (hb : b ∈ l) (h : ident b = ident a) : a ∈ replace ident a l :=
  List.mem_map.2 ⟨b, hb, if_pos h⟩

theorem mem_replace_of_ne (hb : b ∈ l) (h : ident b ≠ ident a) : b ∈ replace ident a l :=
  List.mem_map.2 ⟨b, hb, if_neg h⟩

/-- A search meets the new element where it met the one replaced. -/
theorem find?_replace {p : α → Bool} (h : ∀ b ∈ l, ident b = ident a → p b = p a) :
    (replace ident a l).find? p = (l.find? p).map fun b ↦ if ident b = ident a then a else b := by
  induction l with
  | nil => rfl
  | cons b l ih =>
    have hb : p (if ident b = ident a then a else b) = p b := by
      split_ifs with hid
      · exact (h b List.mem_cons_self hid).symm
      · rfl
    rw [replace, List.map_cons, List.find?_cons, List.find?_cons, hb, ← replace,
      ih fun x hx ↦ h x (List.mem_cons_of_mem _ hx)]
    rcases Bool.eq_false_or_eq_true (p b) with hp | hp <;> simp only [hp, Option.map_some]

/-- What the replacement has in common with the node it replaces does not change. -/
theorem Distinct.map_replace {f : α → β} (hl : Distinct ident l) (hb : b ∈ l)
    (hid : ident b = ident a) (hf : f a = f b) :
    (NodeList.replace ident a l).map f = l.map f := by
  simp only [NodeList.replace, List.map_map]
  refine List.map_congr_left fun c hc ↦ ?_
  simp only [Function.comp_apply]
  split_ifs with hca
  · rw [hf, hl.eq_of_ident hc hb (hca.trans hid.symm)]
  · rfl

theorem Distinct.replace (hl : Distinct ident l) (hb : b ∈ l) (hid : ident b = ident a) :
    Distinct ident (NodeList.replace ident a l) := by
  unfold Distinct
  rwa [hl.map_replace hb hid hid.symm]

theorem unlink_replace : unlink ident (ident a) (replace ident a l) = unlink ident (ident a) l := by
  induction l with
  | nil => rfl
  | cons c l ih =>
    by_cases h : ident c = ident a
    · simp only [replace, List.map_cons, h, if_true] at ih ⊢
      rw [unlink_cons_self, ih, ← h, unlink_cons_self]
    · simp only [replace, List.map_cons, h, if_false] at ih ⊢
      rw [unlink_cons_of_ne h, unlink_cons_of_ne h, ih]

/-- A sum moves by the difference of the two nodes. -/
theorem Distinct.sum_replace {M : Type*} [AddCommGroup M] (w : α → M) (hl : Distinct ident l)
    (hb : b ∈ l) (hid : ident b = ident a) :
    ((NodeList.replace ident a l).map w).sum = (l.map w).sum + (w a - w b) := by
  rw [(hl.replace hb hid).sum_unlink w (mem_replace_self hb hid), hl.sum_unlink w hb,
    unlink_replace, hid]
  abel

end NodeList
