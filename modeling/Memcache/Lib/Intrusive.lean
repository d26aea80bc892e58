import Mathlib.Data.Int.Basic
import Mathlib.Data.List.Nodup
import Mathlib.Data.Option.Basic
import Mathlib.Logic.Function.Basic

/-!
# Intrusive doubly linked lists

A heap gives every node two links, `next` and `prev`, and a list is known by its two ends and a
counter. Several lists may share one heap, each node being in one of them at most. `DList.IsList h l xs`
says that the list with ends `l` consists of the nodes `xs`, in this order.

The links of a list form a ring once the ends are counted in: `none` stands before the first node
and after the last, the node after it is `head` and the one before it is `tail`. With that, putting
a node in and taking one out are edits between two **neighbours** (`Links`), with no special cases at
the ends, and what an edit does not read it need not know: `Links.transport` moves a piece of the
ring to any heap that agrees on the links inside the piece.

`unlink` tells from its links alone whether a node is in a list. That is sound because a node that is
in no list has no links: **taking out a detached node changes nothing** (`unlink_of_detached`).
-/

/-- The two links of a node. -/
structure Link where
  next : Option ℕ
  prev : Option ℕ
deriving DecidableEq, Repr

/-- A node in no list. -/
def Link.none : Link := ⟨.none, .none⟩

/-- The ends of a list and the number of its nodes. -/
structure DList where
  head : Option ℕ
  tail : Option ℕ
  size : ℤ
deriving DecidableEq, Repr

namespace DList

open Function (update_of_ne update_self update)

/-- The list without nodes. -/
def empty : DList := ⟨none, none, 0⟩

variable {h h' : ℕ → Link} {l l' : DList} {n m : ℕ} {xs ys : List ℕ}

section

variable (h : ℕ → Link) (l : DList)

/-- The node after a node, or after the beginning. -/
def nextOf : Option ℕ → Option ℕ
  | none => l.head
  | some n => (h n).next

/-- The node before a node, or before the end. -/
def prevOf : Option ℕ → Option ℕ
  | none => l.tail
  | some n => (h n).prev

/-! ### Operations -/

/-- Let `b` follow `a`. -/
def setNext (a b : Option ℕ) : (ℕ → Link) × DList :=
  match a with
  | none => (h, { l with head := b })
  | some n => (update h n { h n with next := b }, l)

/-- Let `a` precede `b`. -/
def setPrev (b a : Option ℕ) : (ℕ → Link) × DList :=
  match b with
  | none => (h, { l with tail := a })
  | some n => (update h n { h n with prev := a }, l)

/-- Append a node. -/
def pushTail (n : ℕ) : (ℕ → Link) × DList :=
  let h := update h n ⟨none, l.tail⟩
  let s := setNext h l l.tail (some n)
  (s.1, { s.2 with tail := some n, size := s.2.size + 1 })

/-- Put a node in front. -/
def pushHead (n : ℕ) : (ℕ → Link) × DList :=
  let h := update h n ⟨l.head, none⟩
  let s := setPrev h l l.head (some n)
  (s.1, { s.2 with head := some n, size := s.2.size + 1 })

/-- Let the neighbours of a node pass it by, and clear its links. -/
def bypass (n : ℕ) : (ℕ → Link) × DList :=
  let s := if (h n).prev = none ∧ l.head ≠ some n then (h, l) else setNext h l (h n).prev (h n).next
  let s := if (h n).next = none ∧ s.2.tail ≠ some n then s
    else setPrev s.1 s.2 (h n).next (h n).prev
  (update s.1 n Link.none, { s.2 with size := s.2.size - 1 })

/-- Take a node out; nothing when its links say that it is in no list. -/
def unlink (n : ℕ) : (ℕ → Link) × DList :=
  if (h n).prev = none ∧ l.head ≠ some n then (h, l) else bypass h l n

end

/-- The first node from a start that satisfies a test, in at most `fuel` steps. -/
def find (h : ℕ → Link) (p : ℕ → Bool) : ℕ → Option ℕ → Option ℕ
  | 0, _ => none
  | _ + 1, none => none
  | fuel + 1, some n => if p n then some n else find h p fuel (h n).next

/-! ### Rings of links -/

/-- Neighbours are linked both ways. -/
def Links (h : ℕ → Link) (l : DList) : List (Option ℕ) → Prop
  | a :: b :: rest => nextOf h l a = b ∧ prevOf h l b = a ∧ Links h l (b :: rest)
  | _ => True

@[simp] theorem links_singleton (a : Option ℕ) : Links h l [a] := trivial

variable {a b : Option ℕ}

theorem links_cons_cons {rest : List (Option ℕ)} :
    Links h l (a :: b :: rest) ↔
    nextOf h l a = b ∧ prevOf h l b = a ∧ Links h l (b :: rest) := Iff.rfl

/-- A ring is cut at a node into two pieces that share it. -/
theorem links_append (p q : List (Option ℕ)) (a : Option ℕ) :
    Links h l (p ++ a :: q) ↔ Links h l (p ++ [a]) ∧ Links h l (a :: q) := by
  induction p with
  | nil => simp
  | cons x p ih =>
    rcases p with _ | ⟨y, p⟩
    · simp only [List.nil_append, List.cons_append, links_cons_cons, links_singleton, and_true,
        and_assoc]
    · simp only [List.cons_append, links_cons_cons] at ih ⊢
      rw [ih]
      simp only [and_assoc]

/-- **A piece of a ring only depends on the links inside it.** -/
theorem Links.transport {p : List (Option ℕ)} (hp : Links h l p)
    (hnext : ∀ a ∈ p.dropLast, nextOf h' l' a = nextOf h l a)
    (hprev : ∀ a ∈ p.tail, prevOf h' l' a = prevOf h l a) : Links h' l' p := by
  induction p with
  | nil => trivial
  | cons a p ih =>
    rcases p with _ | ⟨b, p⟩
    · trivial
    · obtain ⟨h₁, h₂, h₃⟩ := links_cons_cons.1 hp
      refine links_cons_cons.2 ⟨(hnext a (by simp)).trans h₁, (hprev b (by simp)).trans h₂, ?_⟩
      refine ih h₃ (fun x hx ↦ hnext x ?_) fun x hx ↦ hprev x ?_
      · rw [List.dropLast_cons_cons]
        exact List.mem_cons_of_mem _ hx
      · exact List.mem_cons_of_mem _ hx

/-- The list with ends `l` consists of the nodes `xs`. -/
structure IsList (h : ℕ → Link) (l : DList) (xs : List ℕ) : Prop where
  nodup : xs.Nodup
  links : Links h l (none :: (xs.map some ++ [none]))
  size : l.size = xs.length

theorem isList_empty (h : ℕ → Link) : IsList h empty [] :=
  ⟨List.nodup_nil, ⟨rfl, rfl, trivial⟩, rfl⟩

namespace IsList

theorem head (hl : IsList h l xs) : l.head = xs.head? := by
  have := hl.links
  rcases xs with _ | ⟨x, xs⟩
  · exact this.1
  · exact this.1

theorem tail (hl : IsList h l xs) : l.tail = xs.getLast? := by
  have hlinks := hl.links
  rcases List.eq_nil_or_concat xs with rfl | ⟨ys, y, rfl⟩
  · exact hlinks.2.1
  · rw [List.concat_eq_append, List.map_append, List.append_assoc, ← List.cons_append] at hlinks
    obtain ⟨-, h₂⟩ := (links_append _ _ _).1 hlinks
    rw [List.concat_eq_append, List.getLast?_concat]
    exact h₂.2.1

/-- A list is not disturbed by what happens to other nodes. -/
theorem frame (hl : IsList h l xs) (hh : ∀ x ∈ xs, h' x = h x) : IsList h' l xs where
  nodup := hl.nodup
  size := hl.size
  links := by
    refine hl.links.transport (fun a ha ↦ ?_) fun a ha ↦ ?_
    · rcases a with _ | x
      · rfl
      · have hx : x ∈ xs := by
          rw [← List.cons_append, List.dropLast_concat] at ha
          simpa using ha
        show (h' x).next = (h x).next
        rw [hh x hx]
    · rcases a with _ | x
      · rfl
      · have hx : x ∈ xs := by simpa using ha
        show (h' x).prev = (h x).prev
        rw [hh x hx]

end IsList

/-! ### What the edits do to the links -/

theorem nextOf_setNext (a b c : Option ℕ) :
    nextOf (setNext h l a b).1 (setNext h l a b).2 c = if c = a then b else nextOf h l c := by
  rcases a with _ | n <;> rcases c with _ | m
  · rfl
  · rfl
  · rfl
  · by_cases hm : m = n
    · subst hm
      simp [setNext, nextOf]
    · simp [setNext, nextOf, hm]

theorem prevOf_setNext (a b c : Option ℕ) :
    prevOf (setNext h l a b).1 (setNext h l a b).2 c = prevOf h l c := by
  rcases a with _ | n <;> rcases c with _ | m
  · rfl
  · rfl
  · rfl
  · by_cases hm : m = n
    · subst hm
      simp [setNext, prevOf]
    · simp [setNext, prevOf, hm]

theorem prevOf_setPrev (a b c : Option ℕ) :
    prevOf (setPrev h l a b).1 (setPrev h l a b).2 c = if c = a then b else prevOf h l c := by
  rcases a with _ | n <;> rcases c with _ | m
  · rfl
  · rfl
  · rfl
  · by_cases hm : m = n
    · subst hm
      simp [setPrev, prevOf]
    · simp [setPrev, prevOf, hm]

theorem nextOf_setPrev (a b c : Option ℕ) :
    nextOf (setPrev h l a b).1 (setPrev h l a b).2 c = nextOf h l c := by
  rcases a with _ | n <;> rcases c with _ | m
  · rfl
  · rfl
  · rfl
  · by_cases hm : m = n
    · subst hm
      simp [setPrev, nextOf]
    · simp [setPrev, nextOf, hm]

theorem setNext_apply (hm : a ≠ some m) : (setNext h l a b).1 m = h m := by
  rcases a with _ | n
  · rfl
  · exact update_of_ne (fun he : m = n ↦ hm (congrArg some he.symm)) _ _

theorem setPrev_apply (hm : a ≠ some m) : (setPrev h l a b).1 m = h m := by
  rcases a with _ | n
  · rfl
  · exact update_of_ne (fun he : m = n ↦ hm (congrArg some he.symm)) _ _

@[simp] theorem size_setNext (a b : Option ℕ) : (setNext h l a b).2.size = l.size := by
  rcases a with _ | n <;> rfl

@[simp] theorem size_setPrev (a b : Option ℕ) : (setPrev h l a b).2.size = l.size := by
  rcases a with _ | n <;> rfl

@[simp] theorem tail_setNext (a b : Option ℕ) : (setNext h l a b).2.tail = l.tail := by
  rcases a with _ | n <;> rfl

/-! ### Edits between neighbours -/

/-- The nodes before a place, with the beginning: the last of them is `xs.getLast?`. -/
theorem left_eq (xs : List ℕ) :
    none :: xs.map some = (none :: xs.map some).dropLast ++ [xs.getLast?] := by
  rcases List.eq_nil_or_concat xs with rfl | ⟨ys, y, rfl⟩
  · rfl
  · rw [List.concat_eq_append, List.map_append, List.getLast?_concat]
    show (none :: ys.map some) ++ [some y] = ((none :: ys.map some) ++ [some y]).dropLast ++ [some y]
    rw [List.dropLast_concat]

/-- The nodes after a place, with the end: the first of them is `ys.head?`. -/
theorem right_eq (ys : List ℕ) :
    ys.map some ++ [none] = ys.head? :: (ys.map some ++ [none]).tail := by
  rcases ys with _ | ⟨y, ys⟩ <;> rfl

/-- A ring, cut between two neighbours. -/
theorem ring_append (xs ys : List ℕ) : Links h l (none :: ((xs ++ ys).map some ++ [none])) ↔
    Links h l (none :: xs.map some) ∧ nextOf h l xs.getLast? = ys.head? ∧
      prevOf h l ys.head? = xs.getLast? ∧ Links h l (ys.map some ++ [none]) := by
  have hcut : none :: ((xs ++ ys).map some ++ [none]) =
      (none :: xs.map some).dropLast ++ xs.getLast? :: (ys.head? :: (ys.map some ++ [none]).tail) := by
    calc none :: ((xs ++ ys).map some ++ [none])
        = (none :: xs.map some) ++ (ys.map some ++ [none]) := by simp
      _ = ((none :: xs.map some).dropLast ++ [xs.getLast?]) ++
          (ys.head? :: (ys.map some ++ [none]).tail) := by rw [← left_eq, ← right_eq]
      _ = _ := by rw [List.append_assoc, List.singleton_append]
  rw [hcut, links_append, links_cons_cons, ← right_eq, ← left_eq]

/-- A ring, cut on both sides of a node. -/
theorem ring_middle (xs ys : List ℕ) (n : ℕ) :
    Links h l (none :: ((xs ++ n :: ys).map some ++ [none])) ↔
      Links h l (none :: xs.map some) ∧ nextOf h l xs.getLast? = some n ∧
        (h n).prev = xs.getLast? ∧ (h n).next = ys.head? ∧ prevOf h l ys.head? = some n ∧
        Links h l (ys.map some ++ [none]) := by
  rw [ring_append]
  refine and_congr_right fun _ ↦ and_congr_right fun _ ↦ and_congr_right fun _ ↦ ?_
  show Links h l (some n :: (ys.map some ++ [none])) ↔ _
  rw [right_eq, links_cons_cons]
  rfl

/-- What an edit between `xs` and `ys` leaves alone: the links inside the two pieces. -/
structure Agrees (h h' : ℕ → Link) (l l' : DList) (xs ys : List ℕ) : Prop where
  next_left : ∀ a ∈ (none :: xs.map some).dropLast, nextOf h' l' a = nextOf h l a
  prev_left : ∀ x ∈ xs, (h' x).prev = (h x).prev
  next_right : ∀ y ∈ ys, (h' y).next = (h y).next
  prev_right : ∀ b ∈ (ys.map some ++ [none]).tail, prevOf h' l' b = prevOf h l b

/-- The two pieces of a ring survive an edit between them. -/
theorem Agrees.pieces (ha : Agrees h h' l l' xs ys) (hxs : Links h l (none :: xs.map some))
    (hys : Links h l (ys.map some ++ [none])) :
    Links h' l' (none :: xs.map some) ∧ Links h' l' (ys.map some ++ [none]) := by
  refine ⟨hxs.transport ha.next_left fun a hm ↦ ?_, hys.transport (fun a hm ↦ ?_) ha.prev_right⟩
  · obtain ⟨x, hx, rfl⟩ := List.mem_map.1 hm
    exact ha.prev_left x hx
  · rw [List.dropLast_concat] at hm
    obtain ⟨y, hy, rfl⟩ := List.mem_map.1 hm
    exact ha.next_right y hy

/-- An edit that only gives the left neighbour a new successor and the right one a new
predecessor. -/
theorem agrees_of_edit (hnd : (xs ++ ys).Nodup)
    (hnext : ∀ a, a ≠ xs.getLast? → (∀ x, a = some x → x ∈ xs ++ ys) →
      nextOf h' l' a = nextOf h l a)
    (hprev : ∀ b, b ≠ ys.head? → (∀ x, b = some x → x ∈ xs ++ ys) →
      prevOf h' l' b = prevOf h l b) : Agrees h h' l l' xs ys := by
  obtain ⟨hx, hy, hxy⟩ := List.nodup_append'.1 hnd
  have hleft : (none :: xs.map some).Nodup :=
    List.nodup_cons.2 ⟨by simp, hx.map (Option.some_injective _)⟩
  have hright : (ys.map some ++ [none]).Nodup :=
    (List.nodup_append'.2 ⟨hy.map (Option.some_injective _), List.nodup_singleton _, by simp⟩)
  constructor
  · intro a ha
    refine hnext a (fun he ↦ ?_) fun x hax ↦ ?_
    · rw [left_eq, List.nodup_append'] at hleft
      exact hleft.2.2 ha (by simp [he])
    · have := (List.dropLast_sublist _).subset ha
      simp [hax] at this
      exact List.mem_append_left _ this
  · intro x hm
    refine hprev (some x) (fun he ↦ ?_) fun z hz ↦ ?_
    · exact hxy hm (List.mem_of_head? he.symm)
    · exact List.mem_append_left _ (Option.some_inj.1 hz ▸ hm)
  · intro y hm
    refine hnext (some y) (fun he ↦ ?_) fun z hz ↦ ?_
    · exact hxy (List.mem_of_getLast? he.symm) hm
    · exact List.mem_append_right _ (Option.some_inj.1 hz ▸ hm)
  · intro b hb
    refine hprev b (fun he ↦ ?_) fun x hbx ↦ ?_
    · rw [right_eq, List.nodup_cons] at hright
      exact hright.1 (he ▸ hb)
    · have := List.mem_of_mem_tail hb
      simp [hbx] at this
      exact List.mem_append_right _ this

theorem nextOf_update {a : Option ℕ} {v : Link} (ha : a ≠ some n) :
    nextOf (update h n v) l a = nextOf h l a := by
  rcases a with _ | m
  · rfl
  · have hm : m ≠ n := fun he ↦ ha (congrArg some he)
    show (update h n v m).next = (h m).next
    rw [update_of_ne hm]

theorem prevOf_update {a : Option ℕ} {v : Link} (ha : a ≠ some n) :
    prevOf (update h n v) l a = prevOf h l a := by
  rcases a with _ | m
  · rfl
  · have hm : m ≠ n := fun he ↦ ha (congrArg some he)
    show (update h n v m).prev = (h m).prev
    rw [update_of_ne hm]

namespace IsList

/-- **A node put in at the end is the last one.** -/
theorem pushTail (hl : IsList h l xs) (hn : n ∉ xs) :
    IsList (DList.pushTail h l n).1 (DList.pushTail h l n).2 (xs ++ [n]) := by
  have hlast : l.tail = xs.getLast? := hl.tail
  have hring := hl.links
  rw [← List.append_nil xs, ring_append] at hring
  obtain ⟨hleft, -, -, hright⟩ := hring
  set s := DList.pushTail h l n with hs
  have hne : ∀ a : Option ℕ, (∀ x, a = some x → x ∈ xs ++ []) → a ≠ some n := by
    intro a ha he
    exact hn (by simpa using ha n he)
  have hnext : ∀ a, nextOf s.1 s.2 a =
      if a = l.tail then some n else nextOf (update h n ⟨none, l.tail⟩) l a := by
    intro a
    rw [← nextOf_setNext]
    rcases a with _ | m <;> rfl
  have hprev : ∀ m, (s.1 m).prev = (update h n ⟨none, l.tail⟩ m).prev := fun m ↦
    prevOf_setNext (l := l) l.tail (some n) (some m)
  have hagree : Agrees h s.1 l s.2 xs [] := agrees_of_edit (by simpa using hl.nodup)
    (fun a ha hmem ↦ by rw [hnext, hlast, if_neg ha, nextOf_update (hne a hmem)])
    (fun b hb hmem ↦ by
      rcases b with _ | m
      · exact absurd rfl hb
      · show (s.1 m).prev = (h m).prev
        rw [hprev, update_of_ne fun he ↦ hne _ hmem (congrArg some he)])
  have hpieces := hagree.pieces hleft hright
  have hnt : some n ≠ l.tail := by
    intro he
    exact hn (List.mem_of_getLast? (hlast ▸ he.symm))
  refine ⟨by simpa using List.Nodup.concat hn hl.nodup, ?_, ?_⟩
  · refine (ring_middle xs [] n).2 ⟨hpieces.1, ?_, ?_, ?_, rfl, hpieces.2⟩
    · rw [hnext, hlast, if_pos rfl]
    · rw [hprev, update_self, hlast]
    · show nextOf s.1 s.2 (some n) = none
      rw [hnext, if_neg hnt]
      simp [nextOf]
  · show (setNext _ l l.tail (some n)).2.size + 1 = _
    rw [size_setNext, hl.size]
    simp

section

variable (hl : IsList h l (xs ++ n :: ys))
include hl

/-- The neighbours of a node of a list. -/
theorem links_middle : (h n).prev = xs.getLast? ∧ (h n).next = ys.head? := by
  obtain ⟨-, -, hprev, hnext, -⟩ := (ring_middle xs ys n).1 hl.links
  exact ⟨hprev, hnext⟩

/-- A node of a list does not look detached. -/
theorem not_detached : ¬ ((h n).prev = none ∧ l.head ≠ some n) := by
  rintro ⟨hprev, hhead⟩
  rw [hl.links_middle.1, List.getLast?_eq_none_iff] at hprev
  subst hprev
  exact hhead (by simpa using hl.head)

/-- In a list, the two neighbours are what an edit around a node changes. -/
theorem bypass_eq :
    DList.bypass h l n =
      let s := setNext h l xs.getLast? ys.head?
      let s := setPrev s.1 s.2 ys.head? xs.getLast?
      (update s.1 n Link.none, { s.2 with size := s.2.size - 1 }) := by
  obtain ⟨hprev, hnext⟩ := hl.links_middle
  have hlast : ¬ ((h n).next = none ∧ (setNext h l (h n).prev (h n).next).2.tail ≠ some n) := by
    rintro ⟨hn, ht⟩
    rw [hnext, List.head?_eq_none_iff] at hn
    subst hn
    rw [tail_setNext, hl.tail] at ht
    exact ht (by simp)
  rw [DList.bypass, if_neg hl.not_detached, if_neg hlast, hprev, hnext]

/-- **A node taken out leaves the others in their order.** -/
theorem bypass : IsList (DList.bypass h l n).1 (DList.bypass h l n).2 (xs ++ ys) := by
  obtain ⟨hleft, -, -, -, -, hright⟩ := (ring_middle xs ys n).1 hl.links
  have hmid : n ∉ xs ++ ys ∧ (xs ++ ys).Nodup := List.nodup_middle.1 hl.nodup |> List.nodup_cons.1
  rw [hl.bypass_eq]
  dsimp only
  set s₁ := setNext h l xs.getLast? ys.head? with hs₁
  set s₂ := setPrev s₁.1 s₁.2 ys.head? xs.getLast? with hs₂
  have hnext : ∀ a, nextOf s₂.1 s₂.2 a = if a = xs.getLast? then ys.head? else nextOf h l a := by
    intro a
    rw [hs₂, nextOf_setPrev, hs₁, nextOf_setNext]
  have hprev : ∀ a, prevOf s₂.1 s₂.2 a = if a = ys.head? then xs.getLast? else prevOf h l a := by
    intro a
    rw [hs₂, prevOf_setPrev, hs₁, prevOf_setNext]
  -- the size plays no part in the links
  have hn' : ∀ a : Option ℕ, a ≠ some n → nextOf (update s₂.1 n Link.none)
      { s₂.2 with size := s₂.2.size - 1 } a = nextOf s₂.1 s₂.2 a := by
    intro a ha
    rw [nextOf_update ha]
    rcases a with _ | m <;> rfl
  have hp' : ∀ a : Option ℕ, a ≠ some n → prevOf (update s₂.1 n Link.none)
      { s₂.2 with size := s₂.2.size - 1 } a = prevOf s₂.1 s₂.2 a := by
    intro a ha
    rw [prevOf_update ha]
    rcases a with _ | m <;> rfl
  have hne : ∀ a : Option ℕ, (∀ x, a = some x → x ∈ xs ++ ys) → a ≠ some n := fun a ha he ↦
    hmid.1 (ha n he)
  have hpieces := Agrees.pieces (agrees_of_edit hmid.2
    (fun a ha hmem ↦ by rw [hn' a (hne a hmem), hnext, if_neg ha])
    (fun b hb hmem ↦ by rw [hp' b (hne b hmem), hprev, if_neg hb])) hleft hright
  refine ⟨hmid.2, (ring_append xs ys).2 ⟨hpieces.1, ?_, ?_, hpieces.2⟩, ?_⟩
  · rw [hn' _ (hne _ fun x hx ↦ List.mem_append_left _ (List.mem_of_getLast? hx)), hnext, if_pos rfl]
  · rw [hp' _ (hne _ fun x hx ↦ List.mem_append_right _ (List.mem_of_head? hx)), hprev, if_pos rfl]
  · show s₂.2.size - 1 = _
    rw [hs₂, size_setPrev, hs₁, size_setNext, hl.size]
    simp only [List.length_append, List.length_cons]
    omega

/-- Only the nodes of the list are touched when one of them is taken out. -/
theorem bypass_apply (hm : m ∉ xs ++ n :: ys) : (DList.bypass h l n).1 m = h m := by
  have hx : m ∉ xs := fun hx ↦ hm (List.mem_append_left _ hx)
  have hy : m ∉ ys := fun hy ↦ hm (List.mem_append_right _ (List.mem_cons_of_mem _ hy))
  have hmn : m ≠ n := fun he ↦ hm (he ▸ List.mem_append_right _ List.mem_cons_self)
  rw [hl.bypass_eq]
  dsimp only
  rw [update_of_ne hmn, setPrev_apply fun he ↦ hy (List.mem_of_head? he),
    setNext_apply fun he ↦ hx (List.mem_of_getLast? he)]

theorem unlink_eq_bypass : DList.unlink h l n = DList.bypass h l n :=
  if_neg hl.not_detached

end

/-- A walk from the first node finds the first one that passes the test. -/
theorem find_eq (p : ℕ → Bool) {fuel : ℕ} (hl : IsList h l (xs ++ ys)) (hf : ys.length ≤ fuel) :
    DList.find h p fuel ys.head? = ys.find? p := by
  induction ys generalizing xs fuel with
  | nil => rcases fuel with _ | fuel <;> rfl
  | cons y ys ih =>
    rcases fuel with _ | fuel
    · exact absurd hf (by simp)
    · show (if p y then some y else DList.find h p fuel (h y).next) = _
      rw [hl.links_middle.2, List.find?_cons]
      rcases hp : p y with _ | _
      · have hl' : IsList h l ((xs ++ [y]) ++ ys) := by simpa using hl
        simpa using ih hl' (by simpa using hf)
      · rfl

end IsList

/-- Whatever the list, a bypassed node ends without links. -/
@[simp] theorem bypass_self : (bypass h l n).1 n = Link.none := update_self ..

/-- **Taking out a detached node changes nothing.** -/
theorem unlink_of_detached (hn : h n = Link.none) (hh : l.head ≠ some n) :
    unlink h l n = (h, l) :=
  if_pos ⟨by rw [hn]; rfl, hh⟩

/-- Appending touches the new node and the nodes of the list. -/
theorem pushTail_apply (hl : IsList h l xs) (hx : m ∉ xs) (hmn : m ≠ n) :
    (pushTail h l n).1 m = h m := by
  show (setNext _ l l.tail (some n)).1 m = h m
  rw [setNext_apply fun he ↦ hx (List.mem_of_getLast? (hl.tail ▸ he)), update_of_ne hmn]

/-! ### Two lists on one heap -/

/-- Two lists share a heap: no node is in both, and a node in neither has no links. -/
structure Share (h : ℕ → Link) (l l' : DList) (xs ys : List ℕ) : Prop where
  left : IsList h l xs
  right : IsList h l' ys
  disjoint : xs.Disjoint ys
  detached : ∀ n, n ∉ xs → n ∉ ys → h n = Link.none

theorem share_empty : Share (fun _ ↦ Link.none) empty empty [] [] :=
  ⟨isList_empty _, isList_empty _, List.disjoint_nil_left _, fun _ _ _ ↦ rfl⟩

namespace Share

variable {zs : List ℕ}

theorem symm (hs : Share h l l' xs ys) : Share h l' l ys xs :=
  ⟨hs.right, hs.left, fun _ hy hx ↦ hs.disjoint hx hy, fun n hy hx ↦ hs.detached n hx hy⟩

/-- A node of the first list is taken out. -/
theorem unlink (hs : Share h l l' (xs ++ n :: ys) zs) :
    Share (DList.unlink h l n).1 (DList.unlink h l n).2 l' (xs ++ ys) zs := by
  rw [hs.left.unlink_eq_bypass]
  have hsub : xs ++ ys ⊆ xs ++ n :: ys :=
    ((List.Sublist.refl xs).append (List.sublist_cons_self n ys)).subset
  refine ⟨hs.left.bypass, hs.right.frame fun m hm ↦ hs.left.bypass_apply fun hx ↦
    hs.disjoint hx hm, fun m hm ↦ hs.disjoint (hsub hm), fun m hx hz ↦ ?_⟩
  by_cases hmn : m = n
  · subst hmn
    exact bypass_self
  · have hm : m ∉ xs ++ n :: ys := by
      intro hm
      simp only [List.mem_append, List.mem_cons] at hm hx
      tauto
    rw [hs.left.bypass_apply hm]
    exact hs.detached m hm hz

/-- The node taken out is in neither list. -/
theorem notMem_of_unlink (hs : Share h l l' (xs ++ n :: ys) zs) : n ∉ xs ++ ys ∧ n ∉ zs :=
  ⟨(List.nodup_cons.1 (List.nodup_middle.1 hs.left.nodup)).1, fun hz ↦
    hs.disjoint (List.mem_append_right _ List.mem_cons_self) hz⟩

variable (hs : Share h l l' xs zs) (hx : n ∉ xs) (hz : n ∉ zs)
include hs hx hz

/-- Taking out a node that is in neither list changes nothing. -/
theorem unlink_of_notMem : DList.unlink h l n = (h, l) :=
  unlink_of_detached (hs.detached n hx hz) fun hh ↦
    hx (List.mem_of_head? (hs.left.head ▸ hh))

/-- A node of neither list is appended to the first. -/
theorem pushTail : Share (DList.pushTail h l n).1 (DList.pushTail h l n).2 l' (xs ++ [n]) zs := by
  refine ⟨hs.left.pushTail hx, hs.right.frame fun m hm ↦ pushTail_apply hs.left
    (fun hmx ↦ hs.disjoint hmx hm) fun he ↦ hz (he ▸ hm), ?_, fun m hm hmz ↦ ?_⟩
  · exact List.disjoint_append_left.2 ⟨hs.disjoint, List.singleton_disjoint.2 hz⟩
  · rw [List.mem_append, List.mem_singleton, not_or] at hm
    rw [pushTail_apply hs.left hm.1 hm.2]
    exact hs.detached m hm.1 hmz

/-- Clearing the links of a node of neither list changes nothing. -/
theorem update_of_notMem : update h n Link.none = h := by
  rw [← hs.detached n hx hz]
  exact Function.update_eq_self n h

end Share

end DList
