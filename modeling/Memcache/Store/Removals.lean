import Memcache.Store.ReadThrough

/-!
# Removals stay removed

A key that a call has removed from the Store and from memory can come back only through a read that got
the record before. `Delete`, `DeleteIf`, `DeleteWhere` and `DeletePrefix` delete in the Store first, so
their step in memory comes after every such read has got its value, and catches it: it removes what the
read has promoted or voids its token. `Compute` deletes in memory first, and a read that gets the record
in between is not caught.
-/

namespace Memcache

variable {K V : Type*} {n : ℕ} [BEq K] [NeZero n] {cfg : Config K V} {env : Env K} {key : K}

/-- A call that removes a key with this record, if there is one. -/
def KeyCall.Removes (record : Option V) : KeyCall V → Prop
  | .delete _ => True
  | .deleteIf pred => ∀ v, record = some v → pred v = true
  | .compute fn => fn record = .delete ∨ (record = none ∧ fn none = .noOp)
  | _ => False

namespace StoreRun

variable {s : StoreRun K V n} {cur : Current K V} {call : KeyCall V}

/-- A step of removals, with a Store that does not fail. -/
def Removal (s : StoreRun K V n) : Act K V n → Prop
  | .begin _ call => call.Removes s.record
  | .store fails => fails = false
  | _ => True

/-- Only removals are under way, and once one of them has returned the record is gone. -/
structure Gone (s : StoreRun K V n) : Prop where
  closed : s.cache.closed = false
  log : s.log ≠ [] → s.record = none
  phase : match s.phase with
    | .free | .deleting _ => True
    | .reading call => call.consults = true ∧ call.Removes s.record
    | .answered call answer => call.consults = true ∧ call.Removes s.record ∧ answer ≠ none
    | .mirror _ m => m = .del
    | .removing _ _ => s.record = none
    | .rollback _ => False

/-- **A removal that finds a value goes on to delete it**; one that finds none returns. -/
theorem Gone.act (hclosed : s.cache.closed = false) (hlog : s.log ≠ [] → s.record = none)
    (hcons : call.consults = true) (hcall : call.Removes s.record) (hcur : cur.value = s.record)
    (hcl : (s.act cfg key env cur call).cache.closed = s.cache.closed) :
    (s.act cfg key env cur call).Gone := by
  have hnone (error : Bool) (value : Option V) (hr : s.record = none) :
      (s.ret cfg key call error value false).Gone := ⟨hclosed, fun _ ↦ hr, trivial⟩
  cases call with
  | compute fn =>
    rcases hcall with hfn | ⟨hr, hfn⟩
    · rw [← hcur] at hfn
      rcases hv : cur.value with _ | v
      · have hact : s.act cfg key env cur (.compute fn) =
            s.ret cfg key (.compute fn) false none false := by
          rw [hv] at hfn
          simp only [StoreRun.act, hv, hfn]
        rw [hact]
        exact hnone _ _ (hcur.symm.trans hv)
      · rw [hv] at hfn
        refine ⟨hcl.trans hclosed, ?_, ?_⟩ <;>
          rcases he : cur.entry with _ | e <;> simp only [StoreRun.act, hv, hfn, he]
        · exact hlog
        · exact hlog
        · rfl
        · rfl
    · have hact : s.act cfg key env cur (.compute fn) =
          s.ret cfg key (.compute fn) false none false := by
        rw [hr] at hcur
        simp only [StoreRun.act, hcur, hfn]
      rw [hact]
      exact hnone _ _ hr
  | deleteIf pred =>
    rcases hv : cur.value with _ | v
    · have hact : s.act cfg key env cur (.deleteIf pred) =
          s.ret cfg key (.deleteIf pred) false none false := by
        simp [StoreRun.act, hv]
      rw [hact]
      exact hnone _ _ (hcur.symm.trans hv)
    · have hpred : pred v = true := hcall v (hcur.symm.trans hv)
      refine ⟨hcl.trans hclosed, ?_, ?_⟩ <;> simp only [StoreRun.act, hv, Option.any_some, hpred]
      · exact hlog
      · trivial
  | delete => cases hcons
  | set | setWithOptions | conditional | computeIfAbsent => exact hcall.elim

theorem Gone.store (hg : s.Gone) : (s.store cfg key false).Gone := by
  obtain ⟨hclosed, hlog, hphase⟩ := hg
  obtain ⟨c, record, phase, log⟩ := s
  rcases phase with _ | call | ⟨call, answer⟩ | ⟨call, m⟩ | call | call | ⟨call, failed⟩
  case reading => exact ⟨hclosed, hlog, hphase.1, hphase.2, nofun⟩
  case mirror =>
    obtain rfl : m = .del := hphase
    exact ⟨hclosed, fun _ ↦ rfl, trivial⟩
  case deleting => exact ⟨hclosed, fun _ ↦ rfl, rfl⟩
  all_goals exact ⟨hclosed, hlog, hphase⟩

section Step

variable [PartialEquivBEq K]

theorem Gone.begin (hg : s.Gone) (h : s.Ok cfg key) (hfree : s.phase = .free)
    (hcall : call.Removes s.record) : (s.begin cfg key env call).Gone := by
  have hexp : s.expects = some s.record := by rw [expects, hfree]
  have hconsult (hcons : call.consults = true) : (s.consult cfg key env call).Gone := by
    have hgoes : Goes cfg key s (s.consult cfg key env call) := h.consult hexp call
    rcases h.consult_cases hexp env call with ⟨cur, hcur, -, heq⟩ | heq
    · rw [heq] at hgoes ⊢
      exact .act hg.closed hg.log hcons hcall hcur hgoes.closed
    · rw [heq] at hgoes ⊢
      exact ⟨hgoes.closed.trans hg.closed, hg.log, hcons, hcall⟩
  have hopen : ¬ s.cache.closed = true := by simp [hg.closed]
  cases call with
  | compute fn =>
    have hbegin : s.begin cfg key env (.compute fn) = s.consult cfg key env (.compute fn) :=
      if_neg hopen
    exact hbegin ▸ hconsult rfl
  | deleteIf pred =>
    have hbegin : s.begin cfg key env (.deleteIf pred) = s.consult cfg key env (.deleteIf pred) :=
      if_neg hopen
    exact hbegin ▸ hconsult rfl
  | delete reason =>
    have hbegin : s.begin cfg key env (.delete reason) =
        { s with phase := .deleting (.delete reason) } := if_neg hopen
    exact hbegin ▸ ⟨hg.closed, hg.log, trivial⟩
  | set | setWithOptions | conditional | computeIfAbsent => exact hcall.elim

theorem Gone.resume (hg : s.Gone) (h : s.Ok cfg key) (ttl : Option Cache.TTLAnswer) :
    (s.resume cfg key env ttl).Gone := by
  have hcl : (s.resume cfg key env ttl).cache.closed = false :=
    (h.resume ttl).closed.trans hg.closed
  obtain ⟨hclosed, hlog, hphase⟩ := hg
  obtain ⟨c, record, phase, log⟩ := s
  rcases phase with _ | call | ⟨call, answer⟩ | ⟨call, m⟩ | call | call | ⟨call, failed⟩
  case answered =>
    obtain ⟨hcons, hcall, hne⟩ := hphase
    rcases h.answered_cases rfl env ttl with ⟨hnone, -⟩ | ⟨c', cur, hl, hcur, -, heq⟩
    · exact absurd hnone hne
    · have hc' : c'.closed = false := hl.closed.trans hclosed
      rw [heq] at hcl ⊢
      exact .act hc' hlog hcons hcall hcur (hcl.trans hc'.symm)
  case removing => exact ⟨hcl, fun _ ↦ hphase, trivial⟩
  case rollback => exact hphase.elim
  all_goals exact ⟨hclosed, hlog, hphase⟩

theorem Gone.step (hg : s.Gone) (h : s.Ok cfg key) {a : Act K V n} (ha : s.Permitted cfg key a)
    (hr : s.Removal a) : (s.step cfg key a).Gone := by
  cases a with
  | begin env call =>
    unfold StoreRun.step
    dsimp only
    split
    · next hp => exact hg.begin h hp hr
    · exact hg
  | store fails =>
    obtain rfl : fails = false := hr
    exact hg.store
  | resume env ttl => exact hg.resume h ttl
  | work c =>
    have hc : Cache.Leaves cfg key (s.cache.memory cfg key) s.cache c := ha
    exact ⟨hc.closed.trans hg.closed, hg.log, hg.phase⟩

end Step

end StoreRun

namespace ReadRun

variable {s : ReadRun K V n}

/-- A step of reads and removals, the reads out of the way of what a removal has done in memory and not
in the Store. -/
def ApartRemoval (cfg : Config K V) (key : K) (s : ReadRun K V n) (a : Act K V n) : Prop :=
  s.Apart cfg key a ∧ ∀ a', a = .call a' → s.run.Removal a'

theorem closed_finishRead [PartialEquivBEq K] (h : s.Ok cfg key) {j : ℕ} {token : ℕ} {answer : Option (Option V)}
    (hj : s.reads[j]? = some ⟨token, some answer⟩) {ttl : Option Cache.TTLAnswer}
    (ha : s.Apart cfg key (.finish j env ttl)) :
    (finishRead cfg key env ttl s.run.cache token answer).closed = s.run.cache.closed := by
  obtain ⟨r, hl, -⟩ := h.leaves_promoteRead hj ha
  set c := promoteRead cfg key env ttl s.run.cache token answer with hc
  have hrel : Cache.Sheds (c.unwatchKey cfg key token)
    ((c.unwatchKey cfg key token).releaseShard (Cache.shardFor cfg key)) := Cache.sheds_releaseShard _
  have hfin : (finishRead cfg key env ttl s.run.cache token answer).closed = c.closed := hrel.closed
  exact hfin.trans hl.closed

/-- What reads do in memory does not undo a removal. -/
theorem gone_step [EquivBEq K] (h : s.Ok cfg key) (hg : s.run.Gone) {a : Act K V n}
    (ha : s.ApartRemoval cfg key a) : (s.step cfg key a).run.Gone := by
  cases a with
  | call a => exact hg.step h.run ha.1.1 (ha.2 a rfl)
  | watch => exact ⟨hg.closed, hg.log, hg.phase⟩
  | ask j fails =>
    unfold step
    dsimp only
    split
    · exact hg
    · exact hg
  | finish j env ttl =>
    unfold step
    dsimp only
    split
    · next token answer hj =>
      exact ⟨(closed_finishRead h hj ha.1).trans hg.closed, hg.log, hg.phase⟩
    · exact hg
  | other a =>
    obtain ⟨haside, -⟩ := h.watched.other a
    exact ⟨haside.closed.trans hg.closed, hg.log, hg.phase⟩

section Run

variable [EquivBEq K]

/-- **What is removed stays removed**: from a memory that agrees with the Store, with any number of reads
under way, once a removal has returned and no other is under way, neither memory nor the Store has the
key. Only a `Compute` has a step in memory that is not in the Store yet; reads of the key are to keep
out of its way. -/
theorem removed_of_apart {c : Cache K V n} {record : Option V} (hsealed : c.sealed = false)
    (hclosed : c.closed = false)
    (hm : c.memory cfg key = none ∨ c.memory cfg key = record)
    {others : List (K × ℕ)} (hwatched : c.Watched cfg key [] others) {l : List (Act K V n)}
    (hl : Runs.Along (step cfg key) (ApartRemoval cfg key) (start c record others) l)
    (hret : (l.foldl (step cfg key) (start c record others)).run.log ≠ [])
    (hfree : (l.foldl (step cfg key) (start c record others)).run.phase = .free) :
    (l.foldl (step cfg key) (start c record others)).run.record = none ∧
      (l.foldl (step cfg key) (start c record others)).run.cache.memory cfg key = none := by
  have hstart : (start c record others).Ok cfg key := ⟨StoreRun.ok_start hsealed hm, hwatched, nofun⟩
  have hinv := hl.invariant (I := fun s ↦ s.Ok cfg key ∧ s.run.Gone)
    (fun s a ha h ↦ ⟨h.1.step ha.1, gone_step h.1 h.2 ha⟩) ⟨hstart, hclosed, nofun, trivial⟩
  obtain ⟨hok, hgone⟩ := hinv
  have hrec := hgone.log hret
  refine ⟨hrec, ?_⟩
  rcases hok.run.memory _ (by rw [StoreRun.expects, hfree]) with hnone | heq
  · exact hnone
  · exact heq.trans hrec

end Run

end ReadRun

/-- Memory and the Store have the key. -/
def settledCache : Cache ℕ ℕ 1 := ((new storeConfig 1).set storeConfig (.instant 1) 1 1).2

/-- A read that gets the record before a `Delete` gets to the Store, and ends after the `Delete` did. -/
def readAcrossDelete : List (ReadRun.Act ℕ ℕ 1) :=
  [.watch, .ask 0 false, .call (.begin (.instant 2) (.delete .deleted)), .call (.store false),
    .call (.resume (.instant 3) none), .finish 0 (.instant 4) none]

theorem removed_of_apart_across :
    let s := readAcrossDelete.foldl (ReadRun.step storeConfig 1) (.start settledCache (some 1) [])
    s.run.record = none ∧ s.run.cache.memory storeConfig 1 = none := by
  refine ReadRun.removed_of_apart rfl rfl (.inr (by decide +kernel)) ?_ ?_ (by decide +kernel) rfl
  · have hflights : (settledCache.shards (Cache.shardFor storeConfig 1)).flights = .empty := by rfl
    exact ⟨by rw [Cache.flightsOf, hflights]; exact .empty, (by simp)⟩
  · exact ⟨⟨trivial, (by simp)⟩, ⟨trivial, (by simp)⟩, ⟨⟨trivial, (by simp)⟩, by rintro _ ⟨⟩; trivial⟩,
      ⟨⟨trivial, fun _ _ _ h ↦ by cases h⟩, by rintro _ ⟨⟩; rfl⟩, ⟨⟨trivial, (by simp)⟩, by rintro _ ⟨⟩; trivial⟩,
      ⟨(fun _ _ h ↦ by cases h), (by simp)⟩, trivial⟩

/-- The same read across a `Compute` that deletes. -/
def readAcrossCompute : List (ReadRun.Act ℕ ℕ 1) :=
  [.call (.begin (.instant 2) (.compute fun _ ↦ .delete)), .watch, .ask 0 false,
    .call (.store false), .finish 0 (.instant 4) none]

theorem promoted_across_compute :
    let s := readAcrossCompute.foldl (ReadRun.step storeConfig 1) (.start settledCache (some 1) [])
    s.run.phase = .free ∧ s.reads.length = 0 ∧ s.run.log.length = 1 ∧ s.run.record = none ∧
      s.run.cache.memory storeConfig 1 = some 1 :=
  ⟨rfl, by decide +kernel, by decide +kernel, by decide +kernel, by decide +kernel⟩

end Memcache
