import Memcache.Policy.GhostQueue
import Memcache.Policy.S3Lists

/-!
# The `S3-FIFO` policy on its nodes

The policy as the source keeps it: nodes with links, a counter and a flag, two doubly linked queues
that share the nodes, and a ghost list with its map. A node is known by the identity of its entry. The
functions below follow the source pointer by pointer; `Tied s p` says that the nodes of `s` make up
the queues of the list model `p`.

A node that was pulled out of its queue and not yet removed or pushed again is **in hand**: it is the
one node that may be in no queue and still carry its entry. Every operation takes a node in hand, and
puts it down or gives it away (`Tied.unlinkSmall`, `Tied.unlinkMain`, `Tied.pushSmallTail`,
`Tied.pushMainTail`), so each of them is a short chain of these four moves.
-/

namespace Memcache

open Function (update_of_ne update_self update)

open S3Fifo (evictRecent entry_bump nodeId bumpIn bump)

/-- The `S3-FIFO` policy with its nodes: for the node of an entry its links, its entry while it has
one, its counter, the queue it says it is in, and whether the entry points at it. -/
structure S3Heap (K : Type*) where
  link : ℕ → Link
  entry : ℕ → Option (Ref K)
  freq : ℕ → ℕ
  inMain : ℕ → Bool
  policyData : ℕ → Bool
  small : DList
  smallBudget : ℕ
  main : DList
  mainBudget : ℕ
  ghost : GhostQueue K
  ghostBudget : ℕ
  recentInsert : Option ℕ
  pinNodes : Bool

namespace S3Heap

variable {K : Type*}

def new (pinNodes : Bool) (budget : ℕ) : S3Heap K where
  link _ := Link.none
  entry _ := none
  freq _ := 0
  inMain _ := false
  policyData _ := false
  small := DList.empty
  smallBudget := (s3SplitBudget budget).1
  main := DList.empty
  mainBudget := (s3SplitBudget budget).2
  ghost := GhostQueue.empty
  ghostBudget := (s3SplitBudget budget).2
  recentInsert := none
  pinNodes := pinNodes

/-! ### Helpers of the source -/

variable [BEq K] (s : S3Heap K)

def pushSmallTail (n : ℕ) : S3Heap K :=
  let a := DList.pushTail s.link s.small n
  { s with inMain := update s.inMain n false, link := a.1, small := a.2 }

def pushMainTail (n : ℕ) : S3Heap K :=
  let a := DList.pushTail s.link s.main n
  { s with inMain := update s.inMain n true, link := a.1, main := a.2 }

def unlinkSmall (n : ℕ) : S3Heap K :=
  let a := DList.unlink s.link s.small n
  { s with link := a.1, small := a.2 }

def unlinkMain (n : ℕ) : S3Heap K :=
  let a := DList.unlink s.link s.main n
  { s with link := a.1, main := a.2 }

/-- Store a counter. -/
def setFreq (n f : ℕ) : S3Heap K :=
  { s with freq := update s.freq n f }

def firstSmallNotRecent : Option ℕ :=
  DList.find s.link (fun n ↦ s.recentInsert ≠ some n) s.small.size.toNat s.small.head

def firstMainNotRecent : Option ℕ :=
  DList.find s.link (fun n ↦ s.recentInsert ≠ some n) s.main.size.toNat s.main.head

/-- Record the key of a node's entry in `Ghost`. -/
def recordGhost (n : ℕ) : S3Heap K :=
  match s.entry n with
  | some e => { s with ghost := s.ghost.recordTail s.ghostBudget e.key }
  | none => s

/-- Hand out a node of `Small`. -/
def takeSmall (n : ℕ) : Option (Ref K) × S3Heap K :=
  (s.entry n, (s.unlinkSmall n).recordGhost n)

/-- Hand out a node of `Main`. -/
def takeMain (n : ℕ) : Option (Ref K) × S3Heap K :=
  (s.entry n, s.unlinkMain n)

/-! ### Operations -/

def setBudget (budget : ℕ) : S3Heap K :=
  { s with
    smallBudget := (s3SplitBudget budget).1
    mainBudget := (s3SplitBudget budget).2
    ghostBudget := (s3SplitBudget budget).2
    ghost := s.ghost.trimHead (s3SplitBudget budget).2 }

/-- The node of a new entry, in no queue yet. -/
def alloc (e : Ref K) : S3Heap K :=
  { s with
    link := update s.link e.id Link.none
    entry := update s.entry e.id (some e)
    freq := update s.freq e.id 0
    inMain := update s.inMain e.id false
    policyData := update s.policyData e.id true }

def onInsert (e : Ref K) : S3Heap K :=
  let s := s.alloc e
  let s := match s.ghost.set.get e.key with
    | some g => ({ s with ghost := s.ghost.unlink g }.setFreq e.id 1).pushMainTail e.id
    | none => s.pushSmallTail e.id
  { s with recentInsert := some e.id }

def onAccess (id : ℕ) : S3Heap K :=
  if s.policyData id ∧ s.freq id < s3FreqMax then s.setFreq id (s.freq id + 1) else s

def onRemove (id : ℕ) : S3Heap K :=
  if s.policyData id ∧ (s.entry id).isSome then
    let s := if s.inMain id then s.unlinkMain id else s.unlinkSmall id
    { s with
      recentInsert := if s.recentInsert = some id then none else s.recentInsert
      entry := update s.entry id none
      link := update s.link id Link.none
      policyData := if s.pinNodes then s.policyData else update s.policyData id false }
  else s

/-- The choice made without regard to the budgets. -/
def takeNotRecent : Option (Ref K) × S3Heap K :=
  match s.firstSmallNotRecent with
  | some n => s.takeSmall n
  | none =>
    match s.firstMainNotRecent with
    | some n => s.takeMain n
    | none => (none, s)

def fallback : Option (Ref K) × S3Heap K :=
  match (if (s.mainBudget : ℤ) < s.main.size then s.firstMainNotRecent else none) with
  | some n => s.takeMain n
  | none => s.takeNotRecent

/-- The rotation of `Victim`, for at most `passes` passes. -/
def rotate : ℕ → S3Heap K → Option (Ref K) × S3Heap K
  | 0, s => s.fallback
  | passes + 1, s =>
    match (if (s.smallBudget : ℤ) < s.small.size then s.small.head else none) with
    | some n =>
      if s.recentInsert = some n then rotate passes ((s.unlinkSmall n).pushSmallTail n)
      else if 1 ≤ s.freq n then rotate passes (((s.unlinkSmall n).setFreq n 0).pushMainTail n)
      else s.takeSmall n
    | none =>
      match (if (s.mainBudget : ℤ) < s.main.size then s.main.head else none) with
      | some n =>
        if s.recentInsert = some n then rotate passes ((s.unlinkMain n).pushMainTail n)
        else if 1 ≤ s.freq n then
          rotate passes (((s.setFreq n (s.freq n - 1)).unlinkMain n).pushMainTail n)
        else s.takeMain n
      | none => (none, s)

def victim : Option (Ref K) × S3Heap K :=
  s.rotate ((s.small.size + s.main.size + 1) * (s3FreqMax + 1) + 1).toNat

def shed (keepRecent : Bool) : Option (Ref K) × S3Heap K :=
  match s.firstSmallNotRecent with
  | some n => s.takeSmall n
  | none =>
    match s.firstMainNotRecent with
    | some n => s.takeMain n
    | none =>
      if keepRecent then (none, s)
      else
        match s.recentInsert with
        | none => (none, s)
        | some n => if s.inMain n then s.takeMain n else s.takeSmall n

/-- Clear the nodes of a queue one after the other, from `start` on. -/
def wipe : ℕ → Option ℕ → S3Heap K → S3Heap K
  | 0, _, s => s
  | _ + 1, none, s => s
  | fuel + 1, some n, s =>
    wipe fuel (s.link n).next
      { s with
        policyData := if (s.entry n).isSome ∧ ¬ s.pinNodes then update s.policyData n false
          else s.policyData
        entry := update s.entry n none
        link := update s.link n Link.none }

def reset : S3Heap K :=
  let s := s.wipe s.small.size.toNat s.small.head
  let s := s.wipe s.main.size.toNat s.main.head
  { s with
    small := DList.empty
    main := DList.empty
    ghost := s.ghost.clear
    recentInsert := none }

/-- The entry handed out is removed. -/
def release (a : Option (Ref K) × S3Heap K) : Option (Ref K) × S3Heap K :=
  (a.1, a.1.elim a.2 fun r ↦ a.2.onRemove r.id)

/-- An operation, with the entry it evicted. -/
def apply : PolicyOp K → Option (Ref K) × S3Heap K
  | .insert e => (none, s.onInsert e)
  | .access id => (none, s.onAccess id)
  | .update id => (none, s.onAccess id)
  | .remove id => (none, s.onRemove id)
  | .evict => release s.victim
  | .shed keepRecent => release (s.shed keepRecent)
  | .setBudget b => (none, s.setBudget b)
  | .reset => (none, s.reset)

/-! ### Nodes and queues -/

section Tied

variable {s s' : S3Heap K} {p : S3Fifo K} {hand : Option ℕ} {n : S3Node K}
  {l₁ l₂ : List (S3Node K)}

/-- A node carries an entry, which points at it, and a counter. -/
structure Carries (s : S3Heap K) (n : S3Node K) : Prop where
  entry : s.entry (nodeId n) = some n.entry
  freq : s.freq (nodeId n) = n.freq
  points : s.policyData (nodeId n) = true
  self : n.entry.key == n.entry.key

theorem Carries.of_eq (h : s.Carries n) (he : s'.entry = s.entry) (hf : s'.freq = s.freq)
    (hp : s'.policyData = s.policyData) : s'.Carries n :=
  ⟨he ▸ h.entry, hf ▸ h.freq, hp ▸ h.points, h.self⟩

/-- The nodes of a queue are not written to. -/
theorem lies_of_eq {b : Bool} {l : List (S3Node K)}
    (h : ∀ n ∈ l, s.Carries n ∧ s.inMain (nodeId n) = b) (he : s'.entry = s.entry)
    (hf : s'.freq = s.freq) (hp : s'.policyData = s.policyData) (hm : s'.inMain = s.inMain) :
    ∀ n ∈ l, s'.Carries n ∧ s'.inMain (nodeId n) = b :=
  fun n hn ↦ ⟨(h n hn).1.of_eq he hf hp, hm ▸ (h n hn).2⟩

/-- **The nodes make up the queues**, apart from the one in hand. -/
structure Tied (s : S3Heap K) (p : S3Fifo K) (hand : Option ℕ) : Prop where
  queues : DList.Share s.link s.small s.main (p.small.map nodeId)
    (p.main.map nodeId)
  inSmall : ∀ n ∈ p.small, s.Carries n ∧ s.inMain (nodeId n) = false
  inMain : ∀ n ∈ p.main, s.Carries n ∧ s.inMain (nodeId n) = true
  gone : ∀ id, id ∉ p.small.map nodeId → id ∉ p.main.map nodeId → hand ≠ some id →
    ¬ (s.policyData id = true ∧ (s.entry id).isSome = true)
  ghost : ∃ gl, s.ghost.Holds gl ∧ gl.map Prod.fst = p.ghost
  smallBudget : s.smallBudget = p.smallBudget
  mainBudget : s.mainBudget = p.mainBudget
  ghostBudget : s.ghostBudget = p.ghostBudget
  recent : s.recentInsert = p.recentInsert

/-- With nothing in hand, an entry outside the queues is not tracked. -/
theorem Tied.gone_of_free {id : ℕ} (h : s.Tied p none) (hs : id ∉ p.small.map nodeId)
    (hm : id ∉ p.main.map nodeId) :
    ¬ (s.policyData id = true ∧ (s.entry id).isSome = true) :=
  h.gone id hs hm fun he ↦ by cases he

/-- A node in hand: in no queue, with its entry. -/
structure InHand (s : S3Heap K) (p : S3Fifo K) (n : S3Node K) : Prop where
  tied : s.Tied p (some (nodeId n))
  carries : s.Carries n
  notSmall : nodeId n ∉ p.small.map nodeId
  notMain : nodeId n ∉ p.main.map nodeId

theorem tied_new (pinNodes : Bool) (budget : ℕ) :
    (new pinNodes budget : S3Heap K).Tied (S3Fifo.new budget) none where
  queues := DList.share_empty
  inSmall := nofun
  inMain := nofun
  gone _ _ _ _ := fun h ↦ by cases h.1
  ghost := ⟨[], GhostQueue.holds_empty, rfl⟩
  smallBudget := rfl
  mainBudget := rfl
  ghostBudget := rfl
  recent := rfl

/-- A node of `Small` is taken in hand. -/
theorem Tied.unlinkSmall (h : s.Tied p none) (hs : p.small = l₁ ++ n :: l₂) :
    (s.unlinkSmall (nodeId n)).InHand { p with small := l₁ ++ l₂ } n := by
  have hq := h.queues
  rw [hs, List.map_append, List.map_cons] at hq
  have hsub : ∀ m ∈ l₁ ++ l₂, m ∈ p.small := fun m hm ↦
    hs ▸ ((List.Sublist.refl l₁).append (List.sublist_cons_self n l₂)).subset hm
  refine ⟨⟨?_, lies_of_eq (fun m hm ↦ h.inSmall m (hsub m hm)) rfl rfl rfl rfl,
    lies_of_eq h.inMain rfl rfl rfl rfl, fun id hs' hm' hne ↦ ?_, h.ghost,
    h.smallBudget, h.mainBudget, h.ghostBudget, h.recent⟩,
    (h.inSmall n (by simp [hs])).1.of_eq rfl rfl rfl, ?_, ?_⟩
  · rw [List.map_append]
    exact hq.unlink
  · refine h.gone id (fun hm ↦ ?_) hm' nofun
    simp only [hs, List.map_append, List.map_cons, List.mem_append, List.mem_cons] at hm hs'
    rcases hm with hm | rfl | hm
    · exact hs' (.inl hm)
    · exact hne rfl
    · exact hs' (.inr hm)
  · rw [List.map_append]
    exact hq.notMem_of_unlink.1
  · exact hq.notMem_of_unlink.2

/-- A node of `Main` is taken in hand. -/
theorem Tied.unlinkMain (h : s.Tied p none) (hs : p.main = l₁ ++ n :: l₂) :
    (s.unlinkMain (nodeId n)).InHand { p with main := l₁ ++ l₂ } n := by
  have hq := h.queues.symm
  rw [hs, List.map_append, List.map_cons] at hq
  have hsub : ∀ m ∈ l₁ ++ l₂, m ∈ p.main := fun m hm ↦
    hs ▸ ((List.Sublist.refl l₁).append (List.sublist_cons_self n l₂)).subset hm
  refine ⟨⟨?_, lies_of_eq h.inSmall rfl rfl rfl rfl,
    lies_of_eq (fun m hm ↦ h.inMain m (hsub m hm)) rfl rfl rfl rfl, fun id hs' hm' hne ↦ ?_, h.ghost,
    h.smallBudget, h.mainBudget, h.ghostBudget, h.recent⟩,
    (h.inMain n (by simp [hs])).1.of_eq rfl rfl rfl, ?_, ?_⟩
  · rw [List.map_append]
    exact hq.unlink.symm
  · refine h.gone id hs' (fun hm ↦ ?_) nofun
    simp only [hs, List.map_append, List.map_cons, List.mem_append, List.mem_cons] at hm hm'
    rcases hm with hm | rfl | hm
    · exact hm' (.inl hm)
    · exact hne rfl
    · exact hm' (.inr hm)
  · exact hq.notMem_of_unlink.2
  · rw [List.map_append]
    exact hq.notMem_of_unlink.1

/-- The counter of a node in hand is stored. -/
theorem InHand.setFreq (h : s.InHand p n) (f : ℕ) :
    (s.setFreq (nodeId n) f).InHand p { n with freq := f } := by
  have hcarry {m : S3Node K} (hm : s.Carries m) (hne : nodeId m ≠ nodeId n) :
      (s.setFreq (nodeId n) f).Carries m :=
    ⟨hm.entry, (update_of_ne hne ..).trans hm.freq, hm.points, hm.self⟩
  refine ⟨⟨h.tied.queues, fun m hm ↦ ⟨hcarry (h.tied.inSmall m hm).1 fun he ↦ ?_,
    (h.tied.inSmall m hm).2⟩, fun m hm ↦ ⟨hcarry (h.tied.inMain m hm).1 fun he ↦ ?_,
    (h.tied.inMain m hm).2⟩, h.tied.gone, h.tied.ghost, h.tied.smallBudget, h.tied.mainBudget,
    h.tied.ghostBudget, h.tied.recent⟩,
    ⟨h.carries.entry, update_self .., h.carries.points, h.carries.self⟩,
    h.notSmall, h.notMain⟩
  · exact h.notSmall (he ▸ List.mem_map_of_mem hm)
  · exact h.notMain (he ▸ List.mem_map_of_mem hm)

/-- What a node in hand is in the way of, once it is put down: nothing. -/
theorem InHand.gone (h : s.InHand p n) {id : ℕ} (hs : id ∉ p.small.map nodeId)
    (hm : id ∉ p.main.map nodeId) (hne : id ≠ nodeId n) :
    ¬ (s.policyData id = true ∧ (s.entry id).isSome = true) :=
  h.tied.gone id hs hm fun he ↦ hne (Option.some_inj.1 he).symm

/-- A node in hand goes to the end of `Small`. -/
theorem InHand.pushSmallTail (h : s.InHand p n) :
    (s.pushSmallTail (nodeId n)).Tied { p with small := p.small ++ [n] } none := by
  have hcarry {m : S3Node K} (hm : s.Carries m) : (s.pushSmallTail (nodeId n)).Carries m :=
    hm.of_eq rfl rfl rfl
  refine ⟨?_, fun m hm ↦ ?_, fun m hm ↦ ⟨hcarry (h.tied.inMain m hm).1, ?_⟩,
    fun id hs' hm' _ ↦ ?_, h.tied.ghost, h.tied.smallBudget, h.tied.mainBudget,
    h.tied.ghostBudget, h.tied.recent⟩
  · rw [List.map_append]
    exact h.tied.queues.pushTail h.notSmall h.notMain
  · rcases List.mem_append.1 hm with hm | hm
    · have hne : nodeId m ≠ nodeId n := fun he ↦
        h.notSmall (he ▸ List.mem_map_of_mem hm)
      exact ⟨hcarry (h.tied.inSmall m hm).1,
        (update_of_ne hne ..).trans (h.tied.inSmall m hm).2⟩
    · obtain rfl := List.mem_singleton.1 hm
      exact ⟨hcarry h.carries, update_self ..⟩
  · have hne : nodeId m ≠ nodeId n := fun he ↦
      h.notMain (he ▸ List.mem_map_of_mem hm)
    exact (update_of_ne hne ..).trans (h.tied.inMain m hm).2
  · rw [List.map_append, List.mem_append, not_or, List.map_singleton, List.mem_singleton] at hs'
    exact h.gone hs'.1 hm' hs'.2

/-- A node in hand goes to the end of `Main`. -/
theorem InHand.pushMainTail (h : s.InHand p n) :
    (s.pushMainTail (nodeId n)).Tied { p with main := p.main ++ [n] } none := by
  have hcarry {m : S3Node K} (hm : s.Carries m) : (s.pushMainTail (nodeId n)).Carries m :=
    hm.of_eq rfl rfl rfl
  refine ⟨?_, fun m hm ↦ ⟨hcarry (h.tied.inSmall m hm).1, ?_⟩, fun m hm ↦ ?_,
    fun id hs' hm' _ ↦ ?_, h.tied.ghost, h.tied.smallBudget, h.tied.mainBudget,
    h.tied.ghostBudget, h.tied.recent⟩
  · rw [List.map_append]
    exact (h.tied.queues.symm.pushTail h.notMain h.notSmall).symm
  · have hne : nodeId m ≠ nodeId n := fun he ↦
      h.notSmall (he ▸ List.mem_map_of_mem hm)
    exact (update_of_ne hne ..).trans (h.tied.inSmall m hm).2
  · rcases List.mem_append.1 hm with hm | hm
    · have hne : nodeId m ≠ nodeId n := fun he ↦
        h.notMain (he ▸ List.mem_map_of_mem hm)
      exact ⟨hcarry (h.tied.inMain m hm).1,
        (update_of_ne hne ..).trans (h.tied.inMain m hm).2⟩
    · obtain rfl := List.mem_singleton.1 hm
      exact ⟨hcarry h.carries, update_self ..⟩
  · rw [List.map_append, List.mem_append, not_or, List.map_singleton, List.mem_singleton] at hm'
    exact h.gone hs' hm'.1 hm'.2

/-- Another ghost list, with the keys it holds. -/
theorem Tied.withGhost (h : s.Tied p hand) {g : GhostQueue K} {gl : List (K × ℕ)}
    (hg : g.Holds gl) : Tied { s with ghost := g } { p with ghost := gl.map Prod.fst } hand :=
  ⟨h.queues, lies_of_eq h.inSmall rfl rfl rfl rfl, lies_of_eq h.inMain rfl rfl rfl rfl, h.gone,
    ⟨gl, hg, rfl⟩, h.smallBudget, h.mainBudget, h.ghostBudget, h.recent⟩

variable [PartialEquivBEq K]

/-- The key of a node in hand is recorded. -/
theorem InHand.recordGhost (h : s.InHand p n) :
    (s.recordGhost (nodeId n)).InHand (p.recordGhost n.entry.key) n := by
  obtain ⟨gl, hgl, hp⟩ := h.tied.ghost
  obtain ⟨gl', hgl', hkeys⟩ := hgl.recordTail s.ghostBudget h.carries.self
  have hs : s.recordGhost (nodeId n) =
      { s with ghost := s.ghost.recordTail s.ghostBudget n.entry.key } := by
    rw [S3Heap.recordGhost, h.carries.entry]
  have hq : p.recordGhost n.entry.key = { p with ghost := gl'.map Prod.fst } := by
    rw [hkeys, hp, h.tied.ghostBudget]
    rfl
  rw [hs, hq]
  exact ⟨h.tied.withGhost hgl', h.carries.of_eq rfl rfl rfl, h.notSmall, h.notMain⟩

/-! ### Handing out an entry -/

/-- Two answers agree: the same entry, whose node is in hand. -/
inductive Hands : Option (Ref K) × S3Heap K → Option (Ref K) × S3Fifo K → Prop where
  | none {s : S3Heap K} {p : S3Fifo K} (h : s.Tied p none) : Hands (none, s) (none, p)
  | some {s : S3Heap K} {p : S3Fifo K} {n : S3Node K} (h : s.InHand p n) :
      Hands (some n.entry, s) (some n.entry, p)

theorem Tied.takeSmall (h : s.Tied p none) (hs : p.small = l₁ ++ n :: l₂) :
    Hands (s.takeSmall (nodeId n))
      (some n.entry, S3Fifo.recordGhost { p with small := l₁ ++ l₂ } n.entry.key) := by
  have hn := h.unlinkSmall hs
  rw [S3Heap.takeSmall, (h.inSmall n (by simp [hs])).1.entry]
  exact .some hn.recordGhost

omit [PartialEquivBEq K] in
theorem Tied.takeMain (h : s.Tied p none) (hs : p.main = l₁ ++ n :: l₂) :
    Hands (s.takeMain (nodeId n)) (some n.entry, { p with main := l₁ ++ l₂ }) := by
  rw [S3Heap.takeMain, (h.inMain n (by simp [hs])).1.entry]
  exact .some (h.unlinkMain hs)

omit [BEq K] [PartialEquivBEq K] in
/-- Taking a node out of a queue by its identity. -/
theorem unlink_middle (hd : ((l₁ ++ n :: l₂).map nodeId).Nodup) :
    NodeList.unlink nodeId (nodeId n) (l₁ ++ n :: l₂) = l₁ ++ l₂ := by
  rw [List.map_append, List.map_cons] at hd
  have hn := (List.nodup_cons.1 (List.nodup_middle.1 hd)).1
  rw [← List.map_append] at hn
  have hrest : ∀ m ∈ l₁ ++ l₂, nodeId m ≠ nodeId n := fun m hm he ↦
    hn (he ▸ List.mem_map_of_mem hm)
  rw [NodeList.unlink_append, NodeList.unlink_cons_self, ← NodeList.unlink_append,
    NodeList.unlink_of_notMem hrest]

theorem Tied.evictSmall (h : s.Tied p none) (hn : n ∈ p.small) :
    Hands (s.takeSmall (nodeId n)) (p.evictSmall n) := by
  obtain ⟨l₁, l₂, hs⟩ := List.append_of_mem hn
  have hd := h.queues.left.nodup
  rw [S3Fifo.evictSmall, hs, unlink_middle (hs ▸ hd)]
  exact h.takeSmall hs

omit [PartialEquivBEq K] in
theorem Tied.evictMain (h : s.Tied p none) (hn : n ∈ p.main) :
    Hands (s.takeMain (nodeId n)) (p.evictMain n) := by
  obtain ⟨l₁, l₂, hs⟩ := List.append_of_mem hn
  have hd := h.queues.right.nodup
  rw [S3Fifo.evictMain, hs, unlink_middle (hs ▸ hd)]
  exact h.takeMain hs

omit [PartialEquivBEq K] in
theorem Tied.isRecent_iff (h : s.Tied p hand) :
    s.recentInsert = some (nodeId n) ↔ p.isRecent n = true := by
  rw [h.recent]
  exact decide_eq_true_iff.symm

omit [PartialEquivBEq K] in
/-- The walk over a queue finds what the search of the list finds. -/
theorem Tied.find_eq (h : s.Tied p hand) {l : DList} {nodes : List (S3Node K)}
    (hl : DList.IsList s.link l (nodes.map nodeId)) :
    DList.find s.link (fun n ↦ s.recentInsert ≠ some n) l.size.toNat l.head =
      (nodes.find? fun n ↦ !p.isRecent n).map nodeId := by
  have hlen : (nodes.map nodeId).length ≤ l.size.toNat := by rw [hl.size]; simp
  have hl' : DList.IsList s.link l ([] ++ nodes.map nodeId) := hl
  have hfind := hl'.find_eq (fun n ↦ decide (s.recentInsert ≠ some n)) hlen
  rw [hl.head, hfind, List.find?_map]
  congr 2
  funext n
  rw [Function.comp_apply, Bool.eq_iff_iff]
  simp only [decide_eq_true_eq, ne_eq, h.isRecent_iff, Bool.not_eq_true', Bool.not_eq_true]

theorem Tied.takeNotRecent (h : s.Tied p none) : Hands s.takeNotRecent p.evictNotRecent := by
  have hsmall : s.firstSmallNotRecent = p.firstSmallNotRecent.map nodeId :=
    h.find_eq h.queues.left
  have hmain : s.firstMainNotRecent = p.firstMainNotRecent.map nodeId :=
    h.find_eq h.queues.right
  rw [S3Heap.takeNotRecent, S3Fifo.evictNotRecent, hsmall, hmain]
  rcases hs : p.firstSmallNotRecent with _ | n
  · rcases hm : p.firstMainNotRecent with _ | n
    · exact .none h
    · exact h.evictMain (List.mem_of_find?_eq_some hm)
  · exact h.evictSmall (List.mem_of_find?_eq_some hs)

theorem Tied.fallback (h : s.Tied p none) : Hands s.fallback p.fallback := by
  have hmain : s.firstMainNotRecent = p.firstMainNotRecent.map nodeId :=
    h.find_eq h.queues.right
  have hsize : s.main.size = p.main.length := by simpa using h.queues.right.size
  rw [S3Heap.fallback, S3Fifo.fallback, hmain, hsize, h.mainBudget]
  simp only [Int.ofNat_lt]
  split_ifs with hover
  · rcases hm : p.firstMainNotRecent with _ | n
    · exact h.takeNotRecent
    · exact h.evictMain (List.mem_of_find?_eq_some hm)
  · exact h.takeNotRecent

omit [BEq K] [PartialEquivBEq K] in
/-- The head of a queue whose turn it is. -/
theorem head_turn {l : DList} {nodes : List (S3Node K)} {budget : ℕ}
    (hl : DList.IsList s.link l (nodes.map nodeId)) :
    (if (budget : ℤ) < l.size then l.head else none) =
      (if budget < nodes.length then nodes else []).head?.map nodeId := by
  rw [hl.size, hl.head, List.length_map, List.head?_map]
  simp only [Int.ofNat_lt]
  split_ifs <;> rfl

/-- **The rotation on the nodes is the rotation of the queues.** -/
theorem Tied.rotate (h : s.Tied p none) (passes : ℕ) : Hands (s.rotate passes) (p.rotate passes) := by
  induction passes generalizing s p with
  | zero => exact h.fallback
  | succ passes ih =>
    rw [S3Heap.rotate, S3Fifo.rotate, h.smallBudget, h.mainBudget, head_turn h.queues.left,
      head_turn h.queues.right]
    have overfull {budget : ℕ} {l rest : List (S3Node K)} {n : S3Node K}
        (hl : (if budget < l.length then l else []) = n :: rest) : l = [] ++ n :: rest := by
      split_ifs at hl
      exact hl
    rcases hs : (if p.smallBudget < p.small.length then p.small else []) with _ | ⟨n, rest⟩
    · rcases hm : (if p.mainBudget < p.main.length then p.main else []) with _ | ⟨n, rest⟩
      · exact .none h
      · have hm := overfull hm
        have hfreq : s.freq (nodeId n) = n.freq := (h.inMain n (by simp [hm])).1.freq
        have hn := h.unlinkMain hm
        simp only [List.head?_cons, Option.map_some, h.isRecent_iff, hfreq]
        split_ifs with hr hf
        · exact ih hn.pushMainTail
        · exact ih (hn.setFreq (n.freq - 1)).pushMainTail
        · exact h.takeMain hm
    · have hs := overfull hs
      have hfreq : s.freq (nodeId n) = n.freq := (h.inSmall n (by simp [hs])).1.freq
      have hn := h.unlinkSmall hs
      simp only [List.head?_cons, Option.map_some, h.isRecent_iff, hfreq]
      split_ifs with hr hf
      · exact ih hn.pushSmallTail
      · exact ih (hn.setFreq 0).pushMainTail
      · exact h.takeSmall hs

theorem Tied.victim (h : s.Tied p none) : Hands s.victim p.victim := by
  have hsmall : s.small.size = p.small.length := by simpa using h.queues.left.size
  have hmain : s.main.size = p.main.length := by simpa using h.queues.right.size
  have hcount : ((s.small.size + s.main.size + 1) * (s3FreqMax + 1) + 1).toNat =
      (p.small.length + p.main.length + 1) * (s3FreqMax + 1) + 1 := by
    rw [hsmall, hmain, s3FreqMax]
    omega
  rw [S3Heap.victim, S3Fifo.victim, hcount]
  exact h.rotate _

/-- The node of the last insert is found in the queue its flag names. -/
theorem Tied.takeRecent {id : ℕ} (h : s.Tied p none) (hid : p.recentInsert = some id)
    (hr : ∃ r ∈ p.tracked, r.id = id) :
    Hands (if s.inMain id then s.takeMain id else s.takeSmall id) p.evictRecent := by
  have hfound {l : List (S3Node K)} {n : S3Node K} (hn : n ∈ l) (hnid : nodeId n = id) :
      ∃ m, l.find? p.isRecent = some m := by
    refine Option.isSome_iff_exists.1 (List.find?_isSome.2 ⟨n, hn, ?_⟩)
    exact decide_eq_true (hid.trans (congrArg some hnid.symm))
  have hnode {m : S3Node K} (hm : p.isRecent m = true) : id = nodeId m :=
    Option.some_inj.1 (hid.symm.trans (decide_eq_true_iff.1 hm))
  rw [evictRecent]
  rcases hmain : p.main.find? p.isRecent with _ | m
  · rcases hsmall : p.small.find? p.isRecent with _ | m
    · obtain ⟨r, hmem, hrid⟩ := hr
      simp only [S3Fifo.tracked, List.mem_append, List.mem_map] at hmem
      rcases hmem with ⟨n, hn, rfl⟩ | ⟨n, hn, rfl⟩
      · obtain ⟨m, hm⟩ := hfound hn hrid
        rw [hsmall] at hm
        cases hm
      · obtain ⟨m, hm⟩ := hfound hn hrid
        rw [hmain] at hm
        cases hm
    · have hm := List.mem_of_find?_eq_some hsmall
      obtain rfl := hnode (List.find?_some hsmall)
      rw [(h.inSmall m hm).2]
      exact h.evictSmall hm
  · have hm := List.mem_of_find?_eq_some hmain
    obtain rfl := hnode (List.find?_some hmain)
    rw [(h.inMain m hm).2]
    exact h.evictMain hm

theorem Tied.shed (h : s.Tied p none)
    (hr : ∀ id, p.recentInsert = some id → ∃ r ∈ p.tracked, r.id = id) (keepRecent : Bool) :
    Hands (s.shed keepRecent) (p.shed keepRecent) := by
  have hsmall : s.firstSmallNotRecent = p.firstSmallNotRecent.map nodeId :=
    h.find_eq h.queues.left
  have hmain : s.firstMainNotRecent = p.firstMainNotRecent.map nodeId :=
    h.find_eq h.queues.right
  rw [S3Heap.shed, S3Fifo.shed, S3Fifo.evictNotRecent, hsmall, hmain]
  rcases hs : p.firstSmallNotRecent with _ | n
  · rcases hm : p.firstMainNotRecent with _ | n
    · rcases keepRecent with _ | _
      · rw [h.recent]
        rcases hid : p.recentInsert with _ | id
        · -- with no last insert, every node would have been found
          have hnot (n : S3Node K) : p.isRecent n = false := decide_eq_false (by rw [hid]; nofun)
          have hsn : p.small.find? p.isRecent = none := List.find?_eq_none.2 fun n _ ↦ by simp [hnot n]
          have hmn : p.main.find? p.isRecent = none := List.find?_eq_none.2 fun n _ ↦ by simp [hnot n]
          have hnone : p.evictRecent = (none, p) := by rw [evictRecent, hmn, hsn]
          show Hands (none, s) p.evictRecent
          rw [hnone]
          exact .none h
        · exact h.takeRecent hid (hr id hid)
      · exact .none h
    · exact h.evictMain (List.mem_of_find?_eq_some hm)
  · exact h.evictSmall (List.mem_of_find?_eq_some hs)

/-! ### Inserting and removing -/

omit [PartialEquivBEq K] in
/-- The node of a new entry is in hand. -/
theorem Tied.alloc (h : s.Tied p none) {e : Ref K} (hid : ∀ r ∈ p.tracked, r.id ≠ e.id)
    (hself : e.key == e.key) : (s.alloc e).InHand p ⟨e, 0⟩ := by
  have hsmall : e.id ∉ p.small.map nodeId := by
    intro hm
    obtain ⟨n, hn, he⟩ := List.mem_map.1 hm
    exact hid n.entry (List.mem_append_left _ (List.mem_map_of_mem hn)) he
  have hmain : e.id ∉ p.main.map nodeId := by
    intro hm
    obtain ⟨n, hn, he⟩ := List.mem_map.1 hm
    exact hid n.entry (List.mem_append_right _ (List.mem_map_of_mem hn)) he
  have hcarry {m : S3Node K} (hm : s.Carries m) (hne : nodeId m ≠ e.id) :
      (s.alloc e).Carries m :=
    ⟨(update_of_ne hne ..).trans hm.entry, (update_of_ne hne ..).trans hm.freq,
      (update_of_ne hne ..).trans hm.points, hm.self⟩
  refine ⟨⟨?_, fun m hm ↦ ?_, fun m hm ↦ ?_, fun id hs hm hne ↦ ?_, h.ghost, h.smallBudget,
    h.mainBudget, h.ghostBudget, h.recent⟩,
    ⟨update_self .., update_self .., update_self .., hself⟩,
    hsmall, hmain⟩
  · show DList.Share (update s.link e.id Link.none) s.small s.main _ _
    rw [h.queues.update_of_notMem hsmall hmain]
    exact h.queues
  · have hne : nodeId m ≠ e.id := fun he ↦ hsmall (he ▸ List.mem_map_of_mem hm)
    exact ⟨hcarry (h.inSmall m hm).1 hne,
      (update_of_ne hne ..).trans (h.inSmall m hm).2⟩
  · have hne : nodeId m ≠ e.id := fun he ↦ hmain (he ▸ List.mem_map_of_mem hm)
    exact ⟨hcarry (h.inMain m hm).1 hne, (update_of_ne hne ..).trans (h.inMain m hm).2⟩
  · have hide : id ≠ e.id := fun he ↦ hne (congrArg some he.symm)
    show ¬ (update s.policyData e.id true id = true ∧
      (update s.entry e.id (some e) id).isSome = true)
    rw [update_of_ne hide, update_of_ne hide]
    exact h.gone_of_free hs hm

omit [PartialEquivBEq K] in
theorem Tied.withRecent (h : s.Tied p hand) (r : Option ℕ) :
    Tied { s with recentInsert := r } { p with recentInsert := r } hand :=
  ⟨h.queues, lies_of_eq h.inSmall rfl rfl rfl rfl, lies_of_eq h.inMain rfl rfl rfl rfl, h.gone,
    h.ghost, h.smallBudget, h.mainBudget, h.ghostBudget, rfl⟩

theorem Tied.onInsert (h : s.Tied p none) {e : Ref K} (hid : ∀ r ∈ p.tracked, r.id ≠ e.id)
    (hself : e.key == e.key) : (s.onInsert e).Tied (p.onInsert e) none := by
  have hn := h.alloc hid hself
  obtain ⟨gl, hgl, hp⟩ := hn.tied.ghost
  have hany : ((s.alloc e).ghost.set.get e.key).isSome = p.ghost.any (· == e.key) := by
    rw [hgl.isSome_get, hp]
  rw [S3Heap.onInsert, S3Fifo.onInsert, ← hany]
  rcases hg : (s.alloc e).ghost.set.get e.key with _ | g
  · exact hn.pushSmallTail.withRecent _
  · obtain ⟨gl', hgl', hkeys⟩ := hgl.forget e.key
    have hforget : (s.alloc e).ghost.forget e.key = (s.alloc e).ghost.unlink g := by
      rw [GhostQueue.forget, hg]
    rw [hforget] at hgl'
    have hn' : InHand { s.alloc e with ghost := (s.alloc e).ghost.unlink g }
        { p with ghost := ghostForget e.key p.ghost } ⟨e, 0⟩ := by
      rw [← hp, ← hkeys]
      exact ⟨hn.tied.withGhost hgl', hn.carries.of_eq rfl rfl rfl, hn.notSmall, hn.notMain⟩
    exact (hn'.setFreq 1).pushMainTail.withRecent _

omit [BEq K] [PartialEquivBEq K] in
theorem map_nodeId_bumpIn (id : ℕ) (l : List (S3Node K)) :
    (bumpIn id l).map nodeId = l.map nodeId := by
  have h := congrArg (List.map Ref.id) (S3Fifo.map_entry_bumpIn id l)
  rw [List.map_map, List.map_map] at h
  exact h

omit [PartialEquivBEq K] in
/-- A hit counts on the node of the entry; a detached node has nobody to count for. -/
theorem Tied.onAccess (h : s.Tied p none) (id : ℕ) : (s.onAccess id).Tied (p.onAccess id) none := by
  have hsame : (s.onAccess id).entry = s.entry ∧ (s.onAccess id).policyData = s.policyData ∧
      (s.onAccess id).inMain = s.inMain ∧ (s.onAccess id).link = s.link ∧
      (s.onAccess id).small = s.small ∧ (s.onAccess id).main = s.main ∧
      (s.onAccess id).ghost = s.ghost ∧ (s.onAccess id).smallBudget = s.smallBudget ∧
      (s.onAccess id).mainBudget = s.mainBudget ∧ (s.onAccess id).ghostBudget = s.ghostBudget ∧
      (s.onAccess id).recentInsert = s.recentInsert := by
    unfold S3Heap.onAccess
    split_ifs <;> exact ⟨rfl, rfl, rfl, rfl, rfl, rfl, rfl, rfl, rfl, rfl, rfl⟩
  obtain ⟨hentry, hpoints, hinMain, hlink, hsmall, hmain, hghost, hb₁, hb₂, hb₃, hrecent⟩ := hsame
  have hcarry {m : S3Node K} (hm : s.Carries m) :
      (s.onAccess id).Carries (if nodeId m = id then bump m else m) := by
    by_cases hid : nodeId m = id
    · subst hid
      have hnid : nodeId (bump m) = nodeId m :=
        congrArg Ref.id (entry_bump m)
      rw [if_pos rfl]
      refine ⟨?_, ?_, ?_, ?_⟩
      · rw [hentry, hnid, entry_bump]
        exact hm.entry
      · rw [hnid, S3Heap.onAccess, bump]
        simp only [hm.points, hm.freq, true_and]
        split_ifs
        · exact update_self ..
        · exact hm.freq
      · rw [hpoints, hnid]
        exact hm.points
      · rw [entry_bump]
        exact hm.self
    · rw [if_neg hid]
      refine ⟨hentry ▸ hm.entry, ?_, hpoints ▸ hm.points, hm.self⟩
      rw [← hm.freq]
      unfold S3Heap.onAccess
      split_ifs
      · exact update_of_ne hid ..
      · rfl
  have hnodes {b : Bool} {l : List (S3Node K)}
      (hl : ∀ n ∈ l, s.Carries n ∧ s.inMain (nodeId n) = b) :
      ∀ n ∈ bumpIn id l, (s.onAccess id).Carries n ∧
        (s.onAccess id).inMain (nodeId n) = b := by
    intro n hn
    obtain ⟨m, hm, rfl⟩ := List.mem_map.1 hn
    refine ⟨hcarry (hl m hm).1, ?_⟩
    rw [hinMain, ← (hl m hm).2]
    congr 1
    split_ifs
    · exact congrArg Ref.id (entry_bump m)
    · rfl
  refine ⟨?_, hnodes h.inSmall, hnodes h.inMain, ?_, ?_, hb₁.trans h.smallBudget,
    hb₂.trans h.mainBudget, hb₃.trans h.ghostBudget, hrecent.trans h.recent⟩
  · show DList.Share _ _ _ ((bumpIn id p.small).map _) ((bumpIn id p.main).map _)
    rw [map_nodeId_bumpIn, map_nodeId_bumpIn, hlink, hsmall, hmain]
    exact h.queues
  · intro x
    show x ∉ (bumpIn id p.small).map _ → x ∉ (bumpIn id p.main).map _ → _
    rw [map_nodeId_bumpIn, map_nodeId_bumpIn, hentry, hpoints]
    exact h.gone x
  · rw [hghost]
    exact h.ghost

/-- What removing writes once the node is in no queue. -/
def drop (s : S3Heap K) (id : ℕ) : S3Heap K :=
  { s with
    recentInsert := if s.recentInsert = some id then none else s.recentInsert
    entry := update s.entry id none
    link := update s.link id Link.none
    policyData := if s.pinNodes then s.policyData else update s.policyData id false }

omit [PartialEquivBEq K] in
/-- A node in hand is given away. -/
theorem InHand.drop (h : s.InHand p n) :
    (s.drop (nodeId n)).Tied
      { p with
        recentInsert := if p.recentInsert = some (nodeId n) then none else p.recentInsert }
      none := by
  have hpoints {id : ℕ} (hne : id ≠ nodeId n) :
      (s.drop (nodeId n)).policyData id = s.policyData id := by
    show (if s.pinNodes then s.policyData
      else update s.policyData (nodeId n) false) id = _
    split_ifs
    · rfl
    · exact update_of_ne hne ..
  have hcarry {m : S3Node K} (hm : s.Carries m) (hne : nodeId m ≠ nodeId n) :
      (s.drop (nodeId n)).Carries m :=
    ⟨(update_of_ne hne ..).trans hm.entry, hm.freq, (hpoints hne).trans hm.points, hm.self⟩
  refine ⟨?_, fun m hm ↦ ⟨hcarry (h.tied.inSmall m hm).1 fun he ↦ ?_, (h.tied.inSmall m hm).2⟩,
    fun m hm ↦ ⟨hcarry (h.tied.inMain m hm).1 fun he ↦ ?_, (h.tied.inMain m hm).2⟩,
    fun id hs hm _ ↦ ?_, h.tied.ghost, h.tied.smallBudget, h.tied.mainBudget, h.tied.ghostBudget,
    ?_⟩
  · show DList.Share (update s.link (nodeId n) Link.none) s.small s.main _ _
    rw [h.tied.queues.update_of_notMem h.notSmall h.notMain]
    exact h.tied.queues
  · exact h.notSmall (he ▸ List.mem_map_of_mem hm)
  · exact h.notMain (he ▸ List.mem_map_of_mem hm)
  · show ¬ (_ ∧ (update s.entry (nodeId n) none id).isSome = true)
    by_cases hid : id = nodeId n
    · rw [hid, update_self]
      simp
    · rw [update_of_ne hid, hpoints hid]
      exact h.gone hs hm hid
  · show (if s.recentInsert = some (nodeId n) then none else s.recentInsert) = _
    rw [h.tied.recent]

omit [BEq K] [PartialEquivBEq K] in
theorem unlink_of_notMem {l : List (S3Node K)} {id : ℕ} (h : id ∉ l.map nodeId) :
    NodeList.unlink nodeId id l = l :=
  NodeList.unlink_of_notMem fun _ hm he ↦ h (he ▸ List.mem_map_of_mem hm)

omit [PartialEquivBEq K] in
/-- Removing the entry of a node in hand: `OnRemove` after `Victim`. -/
theorem InHand.onRemove (h : s.InHand p n) :
    (s.onRemove (nodeId n)).Tied (p.onRemove (nodeId n)) none := by
  have hsmall : s.unlinkSmall (nodeId n) = s := by
    rw [S3Heap.unlinkSmall, h.tied.queues.unlink_of_notMem h.notSmall h.notMain]
  have hmain : s.unlinkMain (nodeId n) = s := by
    rw [S3Heap.unlinkMain, h.tied.queues.symm.unlink_of_notMem h.notMain h.notSmall]
  have hs : s.onRemove (nodeId n) = s.drop (nodeId n) := by
    rw [S3Heap.onRemove, if_pos ⟨h.carries.points, by rw [h.carries.entry]; rfl⟩, hsmall, hmain,
      ite_self]
    rfl
  rw [hs, S3Fifo.onRemove, unlink_of_notMem h.notSmall, unlink_of_notMem h.notMain]
  exact h.drop

omit [PartialEquivBEq K] in
theorem Tied.onRemove (h : s.Tied p none)
    (hr : ∀ id, p.recentInsert = some id → ∃ r ∈ p.tracked, r.id = id) (id : ℕ) :
    (s.onRemove id).Tied (p.onRemove id) none := by
  by_cases hs : id ∈ p.small.map nodeId
  · obtain ⟨n, hn, rfl⟩ := List.mem_map.1 hs
    obtain ⟨l₁, l₂, hl⟩ := List.append_of_mem hn
    obtain ⟨hcarries, hflag⟩ := h.inSmall n hn
    have hheap : s.onRemove (nodeId n) =
        (s.unlinkSmall (nodeId n)).drop (nodeId n) := by
      rw [S3Heap.onRemove, if_pos ⟨hcarries.points, by rw [hcarries.entry]; rfl⟩, hflag]
      rfl
    have hlist : NodeList.unlink nodeId (nodeId n) p.small = l₁ ++ l₂ := by
      rw [hl]
      exact unlink_middle (hl ▸ h.queues.left.nodup)
    rw [hheap, S3Fifo.onRemove, hlist, unlink_of_notMem fun hm ↦ h.queues.disjoint hs hm]
    exact (h.unlinkSmall hl).drop
  · by_cases hm : id ∈ p.main.map nodeId
    · obtain ⟨n, hn, rfl⟩ := List.mem_map.1 hm
      obtain ⟨l₁, l₂, hl⟩ := List.append_of_mem hn
      obtain ⟨hcarries, hflag⟩ := h.inMain n hn
      have hheap : s.onRemove (nodeId n) =
          (s.unlinkMain (nodeId n)).drop (nodeId n) := by
        rw [S3Heap.onRemove, if_pos ⟨hcarries.points, by rw [hcarries.entry]; rfl⟩, hflag]
        rfl
      have hlist : NodeList.unlink nodeId (nodeId n) p.main = l₁ ++ l₂ := by
        rw [hl]
        exact unlink_middle (hl ▸ h.queues.right.nodup)
      rw [hheap, S3Fifo.onRemove, hlist, unlink_of_notMem hs]
      exact (h.unlinkMain hl).drop
    · -- the entry is not tracked: neither side does anything
      have hrecent : p.recentInsert ≠ some id := by
        intro he
        obtain ⟨r, hr, hid⟩ := hr id he
        simp only [S3Fifo.tracked, List.mem_append, List.mem_map] at hr
        rcases hr with ⟨n, hn, rfl⟩ | ⟨n, hn, rfl⟩
        · exact hs (hid ▸ List.mem_map_of_mem hn)
        · exact hm (hid ▸ List.mem_map_of_mem hn)
      rw [S3Heap.onRemove, if_neg (h.gone_of_free hs hm), S3Fifo.onRemove, unlink_of_notMem hs,
        unlink_of_notMem hm, if_neg hrecent]
      exact h

theorem Tied.setBudget (h : s.Tied p none) (budget : ℕ) :
    (s.setBudget budget).Tied (p.setBudget budget) none := by
  obtain ⟨gl, hgl, hp⟩ := h.ghost
  have htrim := hgl.trimHead (s3SplitBudget budget).2
  refine ⟨h.queues, lies_of_eq h.inSmall rfl rfl rfl rfl, lies_of_eq h.inMain rfl rfl rfl rfl,
    h.gone, ⟨_, htrim, ?_⟩, rfl, rfl, rfl, h.recent⟩
  show _ = ghostTrim _ p.ghost
  rw [← hp, ghostTrim, List.map_drop, List.length_map]

/-! ### Clearing -/

/-- What clearing the nodes `ids` does. -/
structure Wiped (s s' : S3Heap K) (ids : List ℕ) : Prop where
  link : ∀ id, s'.link id = if id ∈ ids then Link.none else s.link id
  entry : ∀ id, s'.entry id = if id ∈ ids then none else s.entry id
  points : ∀ id, s'.policyData id = true → s.policyData id = true
  main : s'.main = s.main
  budgets : s'.smallBudget = s.smallBudget ∧ s'.mainBudget = s.mainBudget ∧
    s'.ghostBudget = s.ghostBudget

omit [BEq K] [PartialEquivBEq K] in
/-- A queue is cleared from its head on, each node's successor being read before its links go. -/
theorem wiped_wipe {l : DList} {xs ys : List ℕ} {fuel : ℕ} {s₀ : S3Heap K}
    (hl : DList.IsList s₀.link l (xs ++ ys)) (hlink : ∀ id ∈ ys, s.link id = s₀.link id)
    (hf : ys.length ≤ fuel) : Wiped s (s.wipe fuel ys.head?) ys := by
  induction ys generalizing s xs fuel with
  | nil =>
    have hs : s.wipe fuel ([] : List ℕ).head? = s := by rcases fuel with _ | fuel <;> rfl
    rw [hs]
    exact ⟨fun _ ↦ rfl, fun _ ↦ rfl, fun _ ↦ id, rfl, rfl, rfl, rfl⟩
  | cons y ys ih =>
    rcases fuel with _ | fuel
    · exact absurd hf (by simp)
    · have hnext : (s.link y).next = ys.head? := by
        rw [hlink y List.mem_cons_self]
        exact hl.links_middle.2
      have hy : y ∉ ys := (List.nodup_cons.1 (List.nodup_append'.1 hl.nodup).2.1).1
      rw [List.head?_cons, wipe, hnext]
      set t : S3Heap K :=
        { s with
          policyData := if (s.entry y).isSome ∧ ¬ s.pinNodes then update s.policyData y false
            else s.policyData
          entry := update s.entry y none
          link := update s.link y Link.none } with ht
      have hrec : Wiped t (t.wipe fuel ys.head?) ys := by
        have hl' : DList.IsList s₀.link l ((xs ++ [y]) ++ ys) := by simpa using hl
        refine ih hl' (fun id hid ↦ ?_) (by simpa using hf)
        rw [← hlink id (List.mem_cons_of_mem _ hid)]
        exact update_of_ne (fun he : id = y ↦ hy (he ▸ hid)) _ _
      refine ⟨fun id ↦ ?_, fun id ↦ ?_, fun id hp ↦ ?_, hrec.main, hrec.budgets⟩
      · rw [hrec.link]
        show (if id ∈ ys then Link.none else update s.link y Link.none id) = _
        by_cases hid : id = y
        · simp [hid]
        · simp [hid]
      · rw [hrec.entry]
        show (if id ∈ ys then none else update s.entry y none id) = _
        by_cases hid : id = y
        · simp [hid]
        · simp [hid]
      · have hp : (if (s.entry y).isSome ∧ ¬ s.pinNodes then update s.policyData y false
            else s.policyData) id = true := hrec.points id hp
        split_ifs at hp
        · by_cases hid : id = y
          · rw [hid, update_self] at hp
            cases hp
          · rwa [update_of_ne hid] at hp
        · exact hp

omit [PartialEquivBEq K] in
theorem Tied.reset (h : s.Tied p none) : s.reset.Tied p.reset none := by
  have hfuel {l : DList} {ids : List ℕ} (hl : DList.IsList s.link l ids) :
      ids.length ≤ l.size.toNat := by rw [hl.size]; simp
  set s₁ := s.wipe s.small.size.toNat s.small.head with hs₁
  have h₁ : Wiped s s₁ (p.small.map nodeId) := by
    rw [hs₁, h.queues.left.head]
    have hl : DList.IsList s.link s.small ([] ++ p.small.map nodeId) := h.queues.left
    exact wiped_wipe hl (fun _ _ ↦ rfl) (hfuel h.queues.left)
  set s₂ := s₁.wipe s₁.main.size.toNat s₁.main.head with hs₂
  have h₂ : Wiped s₁ s₂ (p.main.map nodeId) := by
    rw [hs₂, h₁.main, h.queues.right.head]
    have hl : DList.IsList s.link s.main ([] ++ p.main.map nodeId) := h.queues.right
    refine wiped_wipe hl (fun id hid ↦ ?_) (hfuel h.queues.right)
    rw [h₁.link, if_neg fun hs ↦ h.queues.disjoint hs hid]
  have hlink : s₂.link = fun _ ↦ Link.none := by
    funext id
    rw [h₂.link, h₁.link]
    split_ifs with hm hs
    · rfl
    · rfl
    · exact h.queues.detached id hs hm
  refine ⟨?_, nofun, nofun, fun id _ _ _ hgone ↦ ?_, ⟨[], s₂.ghost.holds_clear, rfl⟩, ?_, ?_, ?_, rfl⟩
  · show DList.Share s₂.link DList.empty DList.empty [] []
    rw [hlink]
    exact DList.share_empty
  · obtain ⟨hp, he⟩ : s₂.policyData id = true ∧ (s₂.entry id).isSome = true := hgone
    rw [h₂.entry, h₁.entry] at he
    split_ifs at he with hm hs
    · cases he
    · cases he
    · exact h.gone_of_free hs hm ⟨h₁.points id (h₂.points id hp), he⟩
  · exact (h₂.budgets.1.trans h₁.budgets.1).trans h.smallBudget
  · exact (h₂.budgets.2.1.trans h₁.budgets.2.1).trans h.mainBudget
  · exact (h₂.budgets.2.2.trans h₁.budgets.2.2).trans h.ghostBudget

end Tied

end S3Heap

end Memcache
