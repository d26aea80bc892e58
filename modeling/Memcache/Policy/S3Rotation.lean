import Memcache.Policy.Histories

/-!
# The rotation of `S3-FIFO`

`Victim` makes passes over its two queues: a pass hands out the head of an over-full queue, or moves
it and goes on. The source allows `(|Small| + |Main| + 1) · 4 + 1` passes and falls back to another
rule when they run out. With a budget of at least two they **never run out** (`rotated_victim`): both
queues have a budget of at least one, so an over-full queue holds an entry that is not the last
insert, and such an entry comes up for eviction in a number of passes that can be read off the queue.

* In `Main`, the entry at position `i` with `f` hits is at the head without hits after `i + |Main| · f`
  passes: each pass either moves it one place forward or, at the head, trades one of its hits for the
  places it loses (`rotated_main`).
* In `Small`, each pass takes an entry away, apart from one that moves the last insert to the end,
  where it stays. An entry that went to `Main` has no hits there, so what follows takes at most one
  round of `Main` (`rotated_small_of_main`, `rotated_small`).
-/

namespace Memcache

open NodeList (unlink_sublist Distinct)

namespace S3Fifo

variable {K : Type*} [BEq K] {p q : S3Fifo K}

/-! ### Single passes -/

/-- What a pass comes to: an answer, or another pass. -/
inductive Pass (K : Type*) where
  | answer (r : Option (Ref K)) (p : S3Fifo K)
  | again (p : S3Fifo K)

/-- One pass of the rotation. -/
def pass (p : S3Fifo K) : Pass K :=
  match (if p.smallBudget < p.small.length then p.small else []) with
  | n :: rest =>
    if p.isRecent n then .again { p with small := rest ++ [n] }
    else if 1 ≤ n.freq then
      .again { p with small := rest, main := p.main ++ [{ n with freq := 0 }] }
    else .answer (some n.entry) (recordGhost { p with small := rest } n.entry.key)
  | [] =>
    match (if p.mainBudget < p.main.length then p.main else []) with
    | n :: rest =>
      if p.isRecent n then .again { p with main := rest ++ [n] }
      else if 1 ≤ n.freq then .again { p with main := rest ++ [{ n with freq := n.freq - 1 }] }
      else .answer (some n.entry) { p with main := rest }
    | [] => .answer none p

theorem rotate_succ (passes : ℕ) (p : S3Fifo K) :
    p.rotate (passes + 1) = match p.pass with
      | .answer r q => (r, q)
      | .again q => q.rotate passes := by
  rw [rotate, pass]
  rcases (if p.smallBudget < p.small.length then p.small else []) with _ | ⟨n, rest⟩
  · rcases (if p.mainBudget < p.main.length then p.main else []) with _ | ⟨n, rest⟩
    · rfl
    · dsimp only
      split_ifs <;> rfl
  · dsimp only
    split_ifs <;> rfl

/-- The cases of a pass. -/
inductive Passes (p : S3Fifo K) : Pass K → Prop where
  | skipSmall (n : S3Node K) (rest : List (S3Node K)) (hs : p.small = n :: rest)
      (hover : p.smallBudget < p.small.length) (hr : p.isRecent n = true) :
      Passes p (.again { p with small := rest ++ [n] })
  | promote (n : S3Node K) (rest : List (S3Node K)) (hs : p.small = n :: rest)
      (hover : p.smallBudget < p.small.length) (hr : p.isRecent n = false) (hf : 1 ≤ n.freq) :
      Passes p (.again { p with small := rest, main := p.main ++ [{ n with freq := 0 }] })
  | evictSmall (n : S3Node K) (rest : List (S3Node K)) (hs : p.small = n :: rest)
      (hover : p.smallBudget < p.small.length) (hr : p.isRecent n = false) (hf : n.freq = 0) :
      Passes p (.answer (some n.entry) (recordGhost { p with small := rest } n.entry.key))
  | skipMain (n : S3Node K) (rest : List (S3Node K)) (hm : p.main = n :: rest)
      (hwithin : p.small.length ≤ p.smallBudget) (hr : p.isRecent n = true) :
      Passes p (.again { p with main := rest ++ [n] })
  | decrement (n : S3Node K) (rest : List (S3Node K)) (hm : p.main = n :: rest)
      (hwithin : p.small.length ≤ p.smallBudget) (hr : p.isRecent n = false) (hf : 1 ≤ n.freq) :
      Passes p (.again { p with main := rest ++ [{ n with freq := n.freq - 1 }] })
  | evictMain (n : S3Node K) (rest : List (S3Node K)) (hm : p.main = n :: rest)
      (hwithin : p.small.length ≤ p.smallBudget) (hr : p.isRecent n = false) (hf : n.freq = 0) :
      Passes p (.answer (some n.entry) { p with main := rest })
  | none (hsmall : p.small.length ≤ p.smallBudget) (hmain : p.main.length ≤ p.mainBudget) :
      Passes p (.answer none p)

theorem passes_pass (p : S3Fifo K) : Passes p p.pass := by
  have overfull {budget : ℕ} {l rest : List (S3Node K)} {n : S3Node K}
      (hl : (if budget < l.length then l else []) = n :: rest) :
      l = n :: rest ∧ budget < l.length := by
    split_ifs at hl with h
    exact ⟨hl, h⟩
  have within {budget : ℕ} {l : List (S3Node K)}
      (hl : (if budget < l.length then l else []) = []) : l.length ≤ budget := by
    by_contra hlt
    rw [if_pos (not_le.1 hlt)] at hl
    simp [hl] at hlt
  unfold pass
  split
  · next n rest hs =>
    obtain ⟨hs, hover⟩ := overfull hs
    split_ifs with hr hf
    · exact .skipSmall n rest hs hover hr
    · exact .promote n rest hs hover (by simpa using hr) hf
    · exact .evictSmall n rest hs hover (by simpa using hr) (by omega)
  · next hs =>
    have hsmall := within hs
    split
    · next n rest hm =>
      obtain ⟨hm, -⟩ := overfull hm
      split_ifs with hr hf
      · exact .skipMain n rest hm hsmall hr
      · exact .decrement n rest hm hsmall (by simpa using hr) hf
      · exact .evictMain n rest hm hsmall (by simpa using hr) (by omega)
    · next hm => exact .none hsmall (within hm)

/-! ### The rotation without its fallback -/

/-- The rotation for at most `passes` passes; `none` when they run out. -/
def rotated : ℕ → S3Fifo K → Option (Option (Ref K) × S3Fifo K)
  | 0, _ => none
  | passes + 1, p =>
    match p.pass with
    | .answer r q => some (r, q)
    | .again q => q.rotated passes

theorem rotate_of_rotated {passes : ℕ} {a : Option (Ref K) × S3Fifo K}
    (h : p.rotated passes = some a) : p.rotate passes = a := by
  induction passes generalizing p with
  | zero => cases h
  | succ passes ih =>
    rw [rotate_succ]
    unfold rotated at h
    split at h
    · exact Option.some_inj.1 h
    · exact ih h

/-- More passes change nothing once there is an answer. -/
theorem isSome_rotated_mono {k m : ℕ} (hkm : k ≤ m) (h : (p.rotated k).isSome) :
    (p.rotated m).isSome := by
  induction k generalizing p m with
  | zero => cases h
  | succ k ih =>
    obtain ⟨m, rfl⟩ : ∃ m', m = m' + 1 := ⟨m - 1, by omega⟩
    unfold rotated at h ⊢
    split at h
    · rfl
    · exact ih (Nat.le_of_succ_le_succ hkm) h

theorem isSome_rotated_succ {k : ℕ} (h : ∀ q, p.pass = .again q → (q.rotated k).isSome) :
    (p.rotated (k + 1)).isSome := by
  unfold rotated
  split
  · rfl
  · next q hq => exact h q hq

/-! ### Enough passes -/

/-- **An entry of `Main` that is not the last insert bounds the passes** left once `Small` is within
its budget: `i` for the entries before it, and a round of `Main` for each of its hits. -/
theorem rotated_main {x : S3Node K} {l₁ l₂ : List (S3Node K)} (hm : p.main = l₁ ++ x :: l₂)
    (hx : p.isRecent x = false) (hsmall : p.small.length ≤ p.smallBudget) :
    (p.rotated (l₁.length + p.main.length * x.freq + 1)).isSome := by
  -- the number of passes before the entry is at the head without hits
  generalize hd : l₁.length + p.main.length * x.freq = d
  induction d generalizing p x l₁ l₂ with
  | zero =>
    refine isSome_rotated_succ fun q hq ↦ ?_
    have hnil : l₁ = [] := List.length_eq_zero_iff.1 (Nat.eq_zero_of_add_eq_zero_right hd)
    subst hnil
    have hlen : p.main.length ≠ 0 := by simp [hm]
    have hfreq : x.freq = 0 :=
      (Nat.mul_eq_zero.1 (Nat.eq_zero_of_add_eq_zero_left hd)).resolve_left hlen
    rcases hq ▸ p.passes_pass with ⟨n, rest, -, hover, -⟩ | ⟨n, rest, -, hover, -, -⟩ | _ |
      ⟨n, rest, hm', -, hr⟩ | ⟨n, rest, hm', -, -, hf⟩ | _ | _
    · omega
    · omega
    · obtain ⟨rfl, -⟩ := List.cons_eq_cons.1 (hm'.symm.trans hm)
      rw [hx] at hr
      cases hr
    · obtain ⟨rfl, -⟩ := List.cons_eq_cons.1 (hm'.symm.trans hm)
      omega
  | succ d ih =>
    refine isSome_rotated_succ fun q hq ↦ ?_
    rcases hq ▸ p.passes_pass with ⟨n, rest, -, hover, -⟩ | ⟨n, rest, -, hover, -, -⟩ | _ |
      ⟨n, rest, hm', -, hr⟩ | ⟨n, rest, hm', -, hr, hf⟩ | _ | _
    · omega
    · omega
    · have hlen : (rest ++ [n]).length = p.main.length := by simp [hm']
      rcases l₁ with _ | ⟨a, l₁⟩
      · obtain ⟨rfl, -⟩ := List.cons_eq_cons.1 (hm'.symm.trans hm)
        rw [hx] at hr
        cases hr
      · obtain ⟨rfl, rfl⟩ := List.cons_eq_cons.1 (hm'.symm.trans hm)
        have hmain : (l₁ ++ x :: l₂) ++ [n] = l₁ ++ x :: (l₂ ++ [n]) := by simp
        refine ih hmain hx hsmall ?_
        rw [hlen]
        rw [List.length_cons] at hd
        omega
    · have hlen : (rest ++ [{ n with freq := n.freq - 1 }]).length = p.main.length := by simp [hm']
      rcases l₁ with _ | ⟨a, l₁⟩
      · -- at the head, a hit is traded for the places the entry loses
        obtain ⟨rfl, rfl⟩ := List.cons_eq_cons.1 (hm'.symm.trans hm)
        have hmain : rest ++ [{ n with freq := n.freq - 1 }] = rest ++ { n with freq := n.freq - 1 } :: [] :=
          rfl
        refine ih hmain hr hsmall ?_
        obtain ⟨f, hf'⟩ : ∃ f, n.freq = f + 1 := ⟨n.freq - 1, by omega⟩
        rw [hlen]
        show rest.length + p.main.length * (n.freq - 1) = d
        rw [hf', Nat.mul_succ, List.length_nil] at hd
        rw [hf', Nat.add_sub_cancel]
        rw [List.length_append, List.length_singleton] at hlen
        omega
      · obtain ⟨rfl, rfl⟩ := List.cons_eq_cons.1 (hm'.symm.trans hm)
        have hmain : (l₁ ++ x :: l₂) ++ [{ n with freq := n.freq - 1 }] =
            l₁ ++ x :: (l₂ ++ [{ n with freq := n.freq - 1 }]) := by simp
        refine ih hmain hx hsmall ?_
        rw [hlen]
        rw [List.length_cons] at hd
        omega

/-- The last insert is at most the newest entry of `Small`: it has been moved past. -/
def Skipped (p : S3Fifo K) : Prop :=
  ∀ n ∈ p.small.dropLast, p.isRecent n = false

omit [BEq K] in
theorem Skipped.tail {n : S3Node K} {rest main : List (S3Node K)} (h : p.Skipped)
    (hs : p.small = n :: rest) : Skipped { p with small := rest, main := main } := by
  intro a ha
  refine h a ?_
  rw [hs]
  rcases rest with _ | ⟨b, rest⟩
  · cases ha
  · rw [List.dropLast_cons_cons]
    exact List.mem_cons_of_mem _ ha

omit [BEq K] in
/-- Moving the last insert to the end of `Small` moves past it. -/
theorem skipped_rotate {n : S3Node K} {rest : List (S3Node K)}
    (hd : Distinct nodeId p.small) (hs : p.small = n :: rest) (hr : p.isRecent n = true) :
    Skipped { p with small := rest ++ [n] } := by
  intro a ha
  rw [List.dropLast_concat] at ha
  rcases Bool.eq_false_or_eq_true (p.isRecent a) with hra | hra
  · simp only [isRecent, decide_eq_true_eq] at hr hra
    have hid : nodeId a = nodeId n := Option.some_inj.1 (hra.symm.trans hr)
    rw [hs] at hd
    exact absurd (hid ▸ List.mem_map_of_mem ha) (List.nodup_cons.1 hd).1
  · exact hra

omit [BEq K] in
/-- The head of an over-full `Small` is then not the last insert. -/
theorem Skipped.isRecent_head {n : S3Node K} {rest : List (S3Node K)} (h : p.Skipped)
    (hb : 1 ≤ p.smallBudget) (hs : p.small = n :: rest) (hover : p.smallBudget < p.small.length) :
    p.isRecent n = false := by
  refine h n ?_
  rcases rest with _ | ⟨a, rest⟩
  · rw [hs, List.length_singleton] at hover
    omega
  · rw [hs, List.dropLast_cons_cons]
    exact List.mem_cons_self

section Small

variable {x : S3Node K} {l₁ l₂ : List (S3Node K)}

/-- With an entry of `Main` that has no hits, the passes left are those over `Small` and over the
entries before it, and one more as long as the last insert has not been moved past. -/
theorem rotated_small_of_main (late : Bool) (hskip : late = false → p.Skipped)
    (hd : Distinct nodeId p.small) (hb : 1 ≤ p.smallBudget)
    (hm : p.main = l₁ ++ x :: l₂) (hx : p.isRecent x = false) (hf : x.freq = 0) :
    (p.rotated (p.small.length + late.toNat + l₁.length + 1)).isSome := by
  generalize hk : p.small.length + late.toNat = k
  induction k generalizing p l₂ late with
  | zero =>
    have := rotated_main hm hx (by omega)
    rw [hf, Nat.mul_zero, Nat.add_zero] at this
    rwa [Nat.zero_add]
  | succ k ih =>
    by_cases hover : p.smallBudget < p.small.length
    · rw [Nat.add_assoc, Nat.add_right_comm, ← Nat.add_assoc]
      refine isSome_rotated_succ fun q hq ↦ ?_
      rcases hq ▸ p.passes_pass with ⟨n, rest, hs, -, hr⟩ | ⟨n, rest, hs, -, hr, hfn⟩ | _ |
        ⟨n, rest, -, hwithin, -⟩ | ⟨n, rest, -, hwithin, -, -⟩ | _ | _
      · rcases late with - | -
        · rw [(hskip rfl).isRecent_head hb hs hover] at hr
          cases hr
        · have hd' : Distinct nodeId (rest ++ [n]) :=
            hd.perm (by rw [hs]; exact (List.perm_append_singleton n rest).symm)
          refine ih false (fun _ ↦ skipped_rotate hd hs hr) hd' hb hm hx ?_
          rw [hs, List.length_cons] at hk
          simpa using hk
      · have hmain : p.main ++ [{ n with freq := 0 }] = l₁ ++ x :: (l₂ ++ [{ n with freq := 0 }]) := by
          simp [hm]
        rw [hs] at hd
        rw [hs, List.length_cons] at hk
        refine ih late (fun h ↦ (hskip h).tail hs) (List.nodup_cons.1 hd).2 hb hmain hx ?_
        show rest.length + late.toNat = k
        omega
      · omega
      · omega
    · have := rotated_main hm hx (not_lt.1 hover)
      rw [hf, Nat.mul_zero, Nat.add_zero] at this
      exact isSome_rotated_mono (by omega) this

/-- **An over-full `Small`** is dealt with in a pass for each of its entries, one for the last insert
and one round of `Main`. -/
theorem rotated_small (hd : Distinct nodeId p.small) (hb : 1 ≤ p.smallBudget)
    (hover : p.smallBudget < p.small.length) :
    (p.rotated (p.small.length + p.main.length + 3)).isSome := by
  -- the pass that promotes the head of `Small`
  have promoted {p : S3Fifo K} (hd : Distinct nodeId p.small) (hb : 1 ≤ p.smallBudget)
      {n : S3Node K} {rest : List (S3Node K)} (hs : p.small = n :: rest)
      (hr : p.isRecent n = false) :
      (rotated (p.small.length + p.main.length + 1)
        { p with small := rest, main := p.main ++ [{ n with freq := 0 }] }).isSome := by
    rw [hs] at hd
    have hmain : p.main ++ [{ n with freq := 0 }] = p.main ++ { n with freq := 0 } :: [] := rfl
    have := rotated_small_of_main
      (p := { p with small := rest, main := p.main ++ [{ n with freq := 0 }] }) true
      (fun h ↦ by cases h) (List.nodup_cons.1 hd).2 hb hmain hr rfl
    rw [hs, List.length_cons]
    exact isSome_rotated_mono (by dsimp only [Bool.toNat_true]; omega) this
  refine isSome_rotated_succ fun q hq ↦ ?_
  rcases hq ▸ p.passes_pass with ⟨n, rest, hs, -, hr⟩ | ⟨n, rest, hs, -, hr, hfn⟩ | _ |
    ⟨n, rest, -, hwithin, -⟩ | ⟨n, rest, -, hwithin, -, -⟩ | _ | _
  · have hskip := skipped_rotate hd hs hr
    have hlen : (rest ++ [n]).length = p.small.length := by simp [hs]
    have hd' : Distinct nodeId (rest ++ [n]) :=
      hd.perm (by rw [hs]; exact (List.perm_append_singleton n rest).symm)
    refine isSome_rotated_succ fun q' hq' ↦ ?_
    rcases hq' ▸ passes_pass { p with small := rest ++ [n] } with ⟨m, rest', hs', hover', hr'⟩ |
      ⟨m, rest', hs', -, hr', hfn⟩ | _ | ⟨m, rest', -, hwithin, -⟩ |
      ⟨m, rest', -, hwithin, -, -⟩ | _ | _
    · rw [hskip.isRecent_head hb hs' hover'] at hr'
      cases hr'
    · have := promoted (p := { p with small := rest ++ [n] }) hd' hb hs' hr'
      dsimp only at this
      rwa [hlen] at this
    · dsimp only at hwithin
      omega
    · dsimp only at hwithin
      omega
  · exact isSome_rotated_mono (by omega) (promoted hd hb hs hr)
  · omega
  · omega

end Small

omit [BEq K] in
/-- Of two entries one is not the last insert. -/
theorem exists_not_recent {l : List (S3Node K)} (hd : Distinct nodeId l)
    (hl : 2 ≤ l.length) : ∃ l₁ x l₂, l = l₁ ++ x :: l₂ ∧ p.isRecent x = false := by
  rcases l with _ | ⟨a, _ | ⟨b, l⟩⟩
  · simp at hl
  · simp at hl
  · rcases Bool.eq_false_or_eq_true (p.isRecent a) with ha | ha
    · refine ⟨[a], b, l, rfl, ?_⟩
      rcases Bool.eq_false_or_eq_true (p.isRecent b) with hb | hb
      · simp only [isRecent, decide_eq_true_eq] at ha hb
        have hid : nodeId b = nodeId a := Option.some_inj.1 (hb.symm.trans ha)
        refine absurd ?_ (List.nodup_cons.1 hd).1
        rw [← hid]
        exact List.mem_map_of_mem List.mem_cons_self
      · exact hb
    · exact ⟨[], a, b :: l, rfl, ha⟩

/-- **The bound on the passes suffices.** -/
theorem rotated_victim (hd : Distinct Ref.id p.tracked) (hsmall : 1 ≤ p.smallBudget)
    (hmain : 1 ≤ p.mainBudget) (hfreq : ∀ n ∈ p.main, n.freq ≤ s3FreqMax) :
    p.rotated ((p.small.length + p.main.length + 1) * (s3FreqMax + 1) + 1) = some p.victim := by
  have hq := distinct_queues hd
  suffices hsome : (p.rotated ((p.small.length + p.main.length + 1) * (s3FreqMax + 1) + 1)).isSome by
    obtain ⟨a, ha⟩ := Option.isSome_iff_exists.1 hsome
    rw [ha, victim, rotate_of_rotated ha]
  have hmax : s3FreqMax = 3 := rfl
  rw [hmax]
  by_cases hover : p.smallBudget < p.small.length
  · exact isSome_rotated_mono (by omega) (rotated_small hq.1 hsmall hover)
  by_cases hover' : p.mainBudget < p.main.length
  · obtain ⟨l₁, x, l₂, hm, hx⟩ := exists_not_recent (p := p) hq.2 (by omega)
    refine isSome_rotated_mono ?_ (rotated_main hm hx (not_lt.1 hover))
    have hxf : x.freq ≤ 3 := hfreq x (by simp [hm])
    have hmul : p.main.length * x.freq ≤ p.main.length * 3 := Nat.mul_le_mul_left _ hxf
    have hlen : l₁.length < p.main.length := by
      rw [hm, List.length_append, List.length_cons]
      omega
    omega
  · refine isSome_rotated_succ fun q hq' ↦ ?_
    have hm : (if p.mainBudget < p.main.length then p.main else []) = [] := if_neg hover'
    have hs : (if p.smallBudget < p.small.length then p.small else []) = [] := if_neg hover
    rw [pass, hs] at hq'
    dsimp only at hq'
    rw [hm] at hq'
    cases hq'

/-! ### What is handed out -/

/-- The states of a rotation: each is one pass after the one before. -/
def Rotates : S3Fifo K → S3Fifo K → Prop :=
  Relation.ReflTransGen fun p q ↦ p.pass = .again q

/-- Passes that go on leave the ghosts, the budgets and the last insert. -/
theorem Rotates.same (h : Rotates p q) : q.ghost = p.ghost ∧ q.recentInsert = p.recentInsert ∧
    q.smallBudget = p.smallBudget ∧ q.mainBudget = p.mainBudget := by
  induction h with
  | refl => exact ⟨rfl, rfl, rfl, rfl⟩
  | @tail q q' _ hq ih =>
    have hp := hq ▸ q.passes_pass
    rcases hp with _ | _ | _ | _ | _ | _ | _ <;> exact ih

/-- What an answer of the rotation is: nothing, with both queues within their budgets, or the head
of a queue that has no hits and is not the last insert; only a key from `Small` is remembered. -/
inductive HandsOut (p : S3Fifo K) : Option (Ref K) × S3Fifo K → Prop where
  | none (q : S3Fifo K) (hsmall : q.small.length ≤ p.smallBudget)
      (hmain : q.main.length ≤ p.mainBudget) (hghost : q.ghost = p.ghost) : HandsOut p (none, q)
  | small (q : S3Fifo K) (n : S3Node K) (rest : List (S3Node K)) (hq : Rotates p q)
      (hs : q.small = n :: rest) (hf : n.freq = 0) (hr : p.recentInsert ≠ some n.entry.id)
      (hghost : q.ghost = p.ghost) :
      HandsOut p (some n.entry, recordGhost { q with small := rest } n.entry.key)
  | main (q : S3Fifo K) (n : S3Node K) (rest : List (S3Node K)) (hq : Rotates p q)
      (hm : q.main = n :: rest) (hf : n.freq = 0) (hr : p.recentInsert ≠ some n.entry.id)
      (hghost : q.ghost = p.ghost) : HandsOut p (some n.entry, { q with main := rest })

theorem handsOut_rotated {passes : ℕ} {a : Option (Ref K) × S3Fifo K}
    (h : p.rotated passes = some a) : HandsOut p a := by
  -- along the rotation, from a state `q` on its way
  suffices along : ∀ q, Rotates p q → q.rotated passes = some a → HandsOut p a from
    along p .refl h
  clear h
  intro q hq hr
  induction passes generalizing q with
  | zero => cases hr
  | succ passes ih =>
    obtain ⟨hghost, hrecent, hsmall, hmain⟩ := hq.same
    have notRecent {n : S3Node K} (hn : q.isRecent n = false) :
        p.recentInsert ≠ some n.entry.id := by
      rw [← hrecent]
      exact of_decide_eq_false hn
    unfold rotated at hr
    split at hr
    · next r q' hpass =>
      cases hr
      rcases hpass ▸ q.passes_pass with _ | _ | ⟨n, rest, hs, -, hn, hf⟩ | _ | _ |
        ⟨n, rest, hm, -, hn, hf⟩ | ⟨hs, hm⟩
      · exact .small q n rest hq hs hf (notRecent hn) hghost
      · exact .main q n rest hq hm hf (notRecent hn) hghost
      · exact .none q (hsmall ▸ hs) (hmain ▸ hm) hghost
    · next q' hpass => exact ih q' (hq.tail hpass) hr

/-! ### Hits saturate -/

/-- Every counter of hits is within its range. -/
def Saturated (p : S3Fifo K) : Prop :=
  ∀ n ∈ p.small ++ p.main, n.freq ≤ s3FreqMax

namespace Saturated

variable (h : p.Saturated)
include h

omit [BEq K] in
theorem of_subset (hs : q.small ⊆ p.small) (hm : q.main ⊆ p.main) : q.Saturated := fun n hn ↦ h n <| by
  rcases List.mem_append.1 hn with hn | hn
  · exact List.mem_append_left _ (hs hn)
  · exact List.mem_append_right _ (hm hn)

theorem onInsert (e : Ref K) : (p.onInsert e).Saturated := by
  intro n hn
  unfold S3Fifo.onInsert at hn
  split_ifs at hn
  · rw [← List.append_assoc, List.mem_append, List.mem_singleton] at hn
    rcases hn with hn | rfl
    · exact h n hn
    · show 1 ≤ s3FreqMax
      decide
  · rw [List.append_assoc] at hn
    rcases List.mem_append.1 hn with hn | hn
    · exact h n (List.mem_append_left _ hn)
    · rcases List.mem_cons.1 hn with rfl | hn
      · exact Nat.zero_le _
      · exact h n (List.mem_append_right _ hn)

omit [BEq K] in
theorem onAccess (id : ℕ) : (p.onAccess id).Saturated := by
  have hbump (n : S3Node K) (hn : n.freq ≤ s3FreqMax) : (bump n).freq ≤ s3FreqMax := by
    unfold bump
    split_ifs with hlt
    · exact hlt
    · exact hn
  have hin {l : List (S3Node K)} (hl : ∀ n ∈ l, n.freq ≤ s3FreqMax) :
      ∀ n ∈ bumpIn id l, n.freq ≤ s3FreqMax := by
    intro n hn
    obtain ⟨m, hm, rfl⟩ := List.mem_map.1 hn
    split_ifs
    · exact hbump m (hl m hm)
    · exact hl m hm
  intro n hn
  rcases List.mem_append.1 hn with hn | hn
  · exact hin (fun n hn ↦ h n (List.mem_append_left _ hn)) n hn
  · exact hin (fun n hn ↦ h n (List.mem_append_right _ hn)) n hn

omit [BEq K] in
theorem onRemove (id : ℕ) : (p.onRemove id).Saturated :=
  h.of_subset (unlink_sublist).subset (unlink_sublist).subset

theorem evictNotRecent : p.evictNotRecent.2.Saturated := by
  unfold S3Fifo.evictNotRecent
  split
  · exact h.of_subset (unlink_sublist).subset (List.Subset.refl _)
  · split
    · exact h.of_subset (List.Subset.refl _) (unlink_sublist).subset
    · exact h

theorem evictRecent : p.evictRecent.2.Saturated := by
  unfold S3Fifo.evictRecent
  split
  · exact h.of_subset (List.Subset.refl _) (unlink_sublist).subset
  · split
    · exact h.of_subset (unlink_sublist).subset (List.Subset.refl _)
    · exact h

theorem shed (keepRecent : Bool) : (p.shed keepRecent).2.Saturated := by
  rw [shed_eq]
  split_ifs
  · exact h
  · exact h.evictRecent
  · exact h.evictNotRecent

/-- A pass leaves a counter as it was, clears it or takes one off. -/
theorem pass {a : Pass K} (hp : Passes p a) :
    (match a with | .answer _ q => q | .again q => q).Saturated := by
  have hsmall {n : S3Node K} {rest : List (S3Node K)} (hs : p.small = n :: rest) :
      rest ⊆ p.small ∧ n.freq ≤ s3FreqMax := by
    rw [hs]
    exact ⟨List.subset_cons_self n rest, h n (by simp [hs])⟩
  have hmain {n : S3Node K} {rest : List (S3Node K)} (hm : p.main = n :: rest) :
      rest ⊆ p.main ∧ n.freq ≤ s3FreqMax := by
    rw [hm]
    exact ⟨List.subset_cons_self n rest, h n (by simp [hm])⟩
  rcases hp with ⟨n, rest, hs, -, -⟩ | ⟨n, rest, hs, -, -, -⟩ | ⟨n, rest, hs, -, -, -⟩ |
    ⟨n, rest, hm, -, -⟩ | ⟨n, rest, hm, -, -, -⟩ | ⟨n, rest, hm, -, -, -⟩ | _
  · refine h.of_subset (fun a ha ↦ ?_) (List.Subset.refl _)
    rw [hs]
    exact (List.perm_append_singleton n rest).subset ha
  · intro a ha
    rcases List.mem_append.1 ha with ha | ha
    · exact h a (List.mem_append_left _ ((hsmall hs).1 ha))
    · rcases List.mem_append.1 ha with ha | ha
      · exact h a (List.mem_append_right _ ha)
      · obtain rfl := List.mem_singleton.1 ha
        exact Nat.zero_le _
  · exact h.of_subset (hsmall hs).1 (List.Subset.refl _)
  · refine h.of_subset (List.Subset.refl _) fun a ha ↦ ?_
    rw [hm]
    exact (List.perm_append_singleton n rest).subset ha
  · intro a ha
    rcases List.mem_append.1 ha with ha | ha
    · exact h a (List.mem_append_left _ ha)
    · rcases List.mem_append.1 ha with ha | ha
      · exact h a (List.mem_append_right _ ((hmain hm).1 ha))
      · obtain rfl := List.mem_singleton.1 ha
        exact (Nat.sub_le ..).trans (hmain hm).2
  · exact h.of_subset (List.Subset.refl _) (hmain hm).1
  · exact h

theorem rotate (passes : ℕ) : (p.rotate passes).2.Saturated := by
  induction passes generalizing p with
  | zero =>
    show p.fallback.2.Saturated
    unfold fallback
    split
    · exact h.of_subset (List.Subset.refl _) (unlink_sublist).subset
    · exact h.evictNotRecent
  | succ passes ih =>
    have hp := h.pass p.passes_pass
    rw [rotate_succ]
    split
    · next hq => rwa [hq] at hp
    · next hq =>
      rw [hq] at hp
      exact ih hp

end Saturated

end S3Fifo

/-- What a policy's hit counters satisfy: those of `S3-FIFO` are within their range. -/
def Policy.Saturated {K : Type*} : Policy K → Prop
  | .s3fifo p => p.Saturated
  | _ => True

variable {K : Type*} [BEq K] {hash : K → UInt64} {b : ℕ}

theorem Policy.Attained.saturated {kind : PolicyKind} {p : Policy K}
    (h : Attained hash kind b p) : p.Saturated := by
  induction h with
  | new b => cases kind <;> first | trivial | exact nofun
  | @op b p h op hop ih =>
    have hrel {v : Option (Ref K)} {q : Policy K} (hq : q.Saturated) :
        (release (v, q)).2.Saturated := by
      rcases v with _ | r
      · exact hq
      · cases q with
        | s3fifo q => exact S3Fifo.Saturated.onRemove hq r.id
        | _ => trivial
    cases p with
    | s3fifo p =>
      have ih : p.Saturated := ih
      cases op with
      | insert e => exact ih.onInsert e
      | access id => exact ih.onAccess id
      | update id => exact ih.onAccess id
      | remove id => exact ih.onRemove id
      | evict => exact hrel (q := .s3fifo p.victim.2) (ih.rotate _)
      | shed keepRecent => exact hrel (q := .s3fifo (p.shed keepRecent).2) (ih.shed keepRecent)
      | setBudget b' => exact ih
      | reset => exact nofun
    | _ =>
      cases op with
      | evict => exact hrel trivial
      | shed keepRecent => exact hrel trivial
      | _ => trivial

/-! ### The choice of a victim -/

theorem s3SplitBudget_pos (hb : 2 ≤ b) : 1 ≤ (s3SplitBudget b).1 ∧ 1 ≤ (s3SplitBudget b).2 := by
  unfold s3SplitBudget
  split_ifs
  · omega
  · omega
  · dsimp only
    omega
  · dsimp only
    omega

example : ((((((S3Fifo.new 2).onInsert ⟨0, 0⟩).onInsert ⟨1, 1⟩).onAccess 0).onInsert
    ⟨2, 2⟩).victim.1 : Option (Ref ℕ)) = some ⟨1, 1⟩ := by decide

end Memcache
