/-
PintosThreads/LockQueues.lean

Lock contention on the lists of the kernel.

A thread that waits for a lock is inserted into `lock->waiters` and then, by
`sema_down`, with the same node into the waiters of the lock's semaphore.
From then on `lock->waiters` leads from its head into a list with another
tail.  The traversals of `lock_release` and `refresh_priority`, which look for
the tail of `lock->waiters`, never come to their end
(`Lists.removeWaiter_stuck`, `Lists.refreshWaiters_stuck`); where they do end,
nobody waits for the lock.

`donate_priority` raises the priority of the threads along the chain of
holders (`Raises`).  A raised thread may be in the ready list, which keeps its
order; whether the list is still sorted is a condition on the state before
(`KeepsOrder`).
-/
import PintosThreads.Queues

namespace Pintos

open Intrusive

variable {cfg : Config} {fuel : ℕ} {srt : Prop} {k k' : Kernel}
variable {q : ListPtr → Option (List ThreadPtr)} {home : ThreadPtr → Option ListPtr}
variable {A : ListPtr → Prop} {r : Option ThreadPtr} {sl : List ThreadPtr}

/-! ### Donation -/

/-- `donate_priority`, called for thread `h` with priority `p`, raises thread `u`. -/
inductive Raises (k : Kernel) (p : ℤ) (u : ThreadPtr) : ThreadPtr → Prop
  | here : (k.thr u).priority < p → Raises k p u u
  | next {h g} : (k.thr h).priority < p → (k.thr h).waitingLock.bind k.lockHolder = some g →
      Raises k p u g → Raises k p u h

theorem Raises.lt {p : ℤ} {u h : ThreadPtr} (H : Raises k p u h) : (k.thr u).priority < p := by
  induction H with
  | here hu => exact hu
  | next _ _ _ ih => exact ih

/-- Donation goes on from a raised thread to the holder it waits for. -/
theorem Raises.extend {p : ℤ} {u v h : ThreadPtr} (H : Raises k p u h)
    (hv : (k.thr u).waitingLock.bind k.lockHolder = some v) (hp : (k.thr v).priority < p) :
    Raises k p v h := by
  induction H with
  | here hu => exact .next hu hv (.here hp)
  | next hh hg _ ih => exact .next hh hg ih

/-- Donation only looks at threads of lower priority. -/
theorem Raises.congr {p : ℤ} {u h : ThreadPtr} (H : Raises k p u h)
    (hp : ∀ v, (k.thr v).priority < p → (k'.thr v).priority < p ∧
      (k'.thr v).waitingLock = (k.thr v).waitingLock)
    (hl : k'.lockHolder = k.lockHolder) : Raises k' p u h := by
  induction H with
  | here hu => exact .here (hp u hu).1
  | @next h g hh hg _ ih => exact .next (hp h hh).1 (by rw [(hp h hh).2, hl, hg]) ih

/-- Once thread `t` has priority `p`, donation along any chain stops there. -/
theorem Raises.cut {p : ℤ} {t g u h : ThreadPtr} (H : Raises k p u h)
    (hg : (k.thr t).waitingLock.bind k.lockHolder = some g) :
    u = t ∨ Raises (k.modify t fun th => { th with priority := p }) p u h ∨
      Raises (k.modify t fun th => { th with priority := p }) p u g := by
  have hsame : ∀ v, v ≠ t →
      (k.modify t fun th => { th with priority := p }).thr v = k.thr v := by
    intro v hv
    simp [hv]
  induction H with
  | here hu =>
      obtain rfl | hut := eq_or_ne u t
      · exact .inl rfl
      · exact .inr (.inl (.here (by rw [hsame u hut]; exact hu)))
  | @next h g' hh hg' _ ih =>
      obtain rfl | hht := eq_or_ne h t
      · obtain rfl : g' = g := Option.some.inj (hg'.symm.trans hg)
        obtain rfl | ih | ih := ih
        · exact .inl rfl
        · exact .inr (.inr ih)
        · exact .inr (.inr ih)
      · obtain rfl | ih | ih := ih
        · exact .inl rfl
        · refine .inr (.inl (.next ?_ ?_ ih)) <;> rw [hsame h hht]
          · exact hh
          · exact hg'
        · exact .inr (.inr ih)

/-- Raising a thread to `p` takes nobody else out of reach. -/
theorem Raises.of_modify {p : ℤ} {t u h : ThreadPtr}
    (H : Raises (k.modify t fun th => { th with priority := p }) p u h) : Raises k p u h := by
  refine H.congr (fun v hv => ?_) rfl
  obtain rfl | hvt := eq_or_ne v t
  · simp at hv
  · simpa [hvt] using hv

/-- **`donate_priority`** gives the priority of `f` to the threads it raises, and to
no other. -/
theorem donatePriority_spec : ∀ (fuel : ℕ) {k k' : Kernel} {f t : ThreadPtr},
    donatePriority fuel k f t = some k' →
    (∃ thr, k' = k.setThr thr) ∧ ∀ u, ∃ p, k'.thr u = { k.thr u with priority := p } ∧
      (Raises k (k.thr f).priority u t → p = (k.thr f).priority) ∧
      (¬ Raises k (k.thr f).priority u t → p = (k.thr u).priority)
  | 0, _, _, _, _, h => by cases h
  | fuel + 1, k, k', f, t, h => by
      unfold donatePriority at h
      split at h
      case isFalse hp =>
        cases h
        refine ⟨⟨_, rfl⟩, fun u => ⟨_, rfl, fun hr => ?_, fun _ => rfl⟩⟩
        cases hr with
        | here hu => exact absurd hu hp
        | next hh => exact absurd hh hp
      case isTrue hp =>
        dsimp only at h
        set p := (k.thr f).priority
        set k₁ := k.modify t fun th => { th with priority := p }
        have hthr : ∀ u, k₁.thr u =
            { k.thr u with priority := if u = t then p else (k.thr u).priority } := by
          intro u
          obtain rfl | hu := eq_or_ne u t
          · simp [k₁]
          · simp [k₁, hu]
        have hwl : (k₁.thr t).waitingLock.bind k₁.lockHolder =
            (k.thr t).waitingLock.bind k.lockHolder := by rw [hthr]; rfl
        split at h
        case h_1 g hg =>
          rw [hwl] at hg
          obtain ⟨⟨thr, hk'⟩, ih⟩ := donatePriority_spec fuel h
          have hpt : (k₁.thr t).priority = p := by simp [hthr]
          rw [hpt] at ih
          refine ⟨⟨thr, hk'⟩, fun u => ?_⟩
          obtain ⟨p', e, hr, hn⟩ := ih u
          refine ⟨p', by rw [e, hthr], fun hru => ?_, fun hnu => ?_⟩
          · by_cases hrg : Raises k₁ p u g
            · exact hr hrg
            · obtain rfl | hru | hru := hru.cut (t := t) (g := g) hg
              · rw [hn hrg, hpt]
              · cases hru with
                | here hu => exact absurd hu (by rw [hpt]; exact lt_irrefl p)
                | next hh => exact absurd hh (by rw [hpt]; exact lt_irrefl p)
              · exact absurd hru hrg
          · have hut : u ≠ t := by
              rintro rfl
              exact hnu (.here hp)
            rw [hn fun hrg => hnu (.next hp hg hrg.of_modify), hthr, if_neg hut]
        case h_2 hg =>
          rw [hwl] at hg
          obtain rfl : k₁ = k' := Option.some.inj h
          refine ⟨⟨_, rfl⟩, fun u => ⟨_, hthr u, fun hru => ?_, fun hnu => ?_⟩⟩
          · cases hru with
            | here hu => rw [if_pos rfl]
            | next hh hg' => rw [hg] at hg'; cases hg'
          · rw [if_neg]
            rintro rfl
            exact hnu (.here hp)

/-! ### Waiting for a lock -/

/-- Thread `a` is somewhere in front of thread `b` in the ready list. -/
def Ahead (k : Kernel) (a b : ThreadPtr) : Prop :=
  ∃ xs, IsList k.elems .readyList xs ∧ [a, b].Sublist xs

/-- The donation of the running thread to `h` leaves the ready list sorted: what is in
front of a raised thread is raised with it, or has that priority already. -/
def KeepsOrder (k : Kernel) (h : ThreadPtr) : Prop :=
  ∀ a u, Raises k (k.thr k.cur).priority u h → Ahead k a u →
    (k.thr k.cur).priority ≤ (k.thr a).priority ∨ Raises k (k.thr k.cur).priority a h

/-- The donation of the running thread to `h` raises no thread in an MLFQS queue. -/
def KeepsBuckets (k : Kernel) (h : ThreadPtr) : Prop :=
  ∀ u, Raises k (k.thr k.cur).priority u h → (k.thr u).status = .ready → k.idleThread = some u

/-- The donation of the running thread to `h` leaves the ready queues in order. -/
def KeepsQueues (cfg : Config) (k : Kernel) (h : ThreadPtr) : Prop :=
  (cfg.mlfqs = false → KeepsOrder k h) ∧ (cfg.mlfqs = true → KeepsBuckets k h)

/-- What the contended branch of `lock_acquire` does to the threads, for a lock
`l` held by `h`. -/
structure Contends (k k' : Kernel) (l : LockPtr) (h : ThreadPtr) : Prop where
  sync : SameSync k k'
  thr : ∀ u, ∃ p,
    k'.thr u = { k.thr u with
      priority := p, waitingLock := if u = k.cur then some l else (k.thr u).waitingLock } ∧
    (Raises k (k.thr k.cur).priority u h → p = (k.thr k.cur).priority) ∧
    (¬ Raises k (k.thr k.cur).priority u h → p = (k.thr u).priority)
  allList : k'.allList = k.allList
  sleepList : k'.sleepList = k.sleepList
  log : k'.log = k.log

theorem waitForLock_contends {l : LockPtr} {h : ThreadPtr}
    (hw : waitForLock cfg fuel k l h = some k') : Contends k k' l h := by
  have hs := waitForLock_sameSync hw
  obtain ⟨k₂, h₁, h₂⟩ := Option.bind_eq_some_iff.mp hw
  obtain ⟨e, rfl⟩ := insertByPriority_eq h₁
  obtain ⟨⟨thr, rfl⟩, hd⟩ := donatePriority_spec fuel h₂
  set k₁ := k.modify k.cur fun th => { th with waitingLock := some l }
  have hthr : ∀ u, k₁.thr u = { k.thr u with
      waitingLock := if u = k.cur then some l else (k.thr u).waitingLock } := by
    intro u
    obtain rfl | hu := eq_or_ne u k.cur
    · simp [k₁]
    · simp [k₁, hu]
  have hp : ((k₁.setElems e).thr k.cur).priority = (k.thr k.cur).priority := by
    rw [Kernel.setElems_thr, hthr]
  -- the running thread has the donated priority, so that donation never passes through it
  have hr : ∀ u, Raises (k₁.setElems e) (k.thr k.cur).priority u h ↔
      Raises k (k.thr k.cur).priority u h := by
    intro u
    refine ⟨fun H => H.congr (fun v hv => ?_) rfl, fun H => H.congr (fun v hv => ?_) rfl⟩
    · rw [Kernel.setElems_thr, hthr] at hv ⊢
      refine ⟨hv, ?_⟩
      rw [if_neg]
      rintro rfl
      exact lt_irrefl _ hv
    · rw [Kernel.setElems_thr, hthr]
      refine ⟨hv, ?_⟩
      rw [if_neg]
      rintro rfl
      exact lt_irrefl _ hv
  refine ⟨hs, fun u => ?_, rfl, rfl, rfl⟩
  obtain ⟨p, ep, hpr, hpn⟩ := hd u
  rw [show ((k₁.setElems e).thr (k₁.setElems e).cur).priority = (k.thr k.cur).priority from hp,
    hr] at hpr hpn
  refine ⟨p, ?_, hpr, fun hn => ?_⟩
  · rw [ep, Kernel.setElems_thr, hthr]
  · rw [hpn hn, Kernel.setElems_thr, hthr]

theorem Contends.priority_cases {l : LockPtr} {h : ThreadPtr} (H : Contends k k' l h)
    (u : ThreadPtr) :
    (Raises k (k.thr k.cur).priority u h ∧ (k'.thr u).priority = (k.thr k.cur).priority) ∨
      (¬ Raises k (k.thr k.cur).priority u h ∧ (k'.thr u).priority = (k.thr u).priority) := by
  obtain ⟨p, e, hr, hn⟩ := H.thr u
  by_cases hu : Raises k (k.thr k.cur).priority u h
  · exact .inl ⟨hu, by rw [e]; exact hr hu⟩
  · exact .inr ⟨hu, by rw [e]; exact hn hu⟩

theorem Contends.priority_le {l : LockPtr} {h : ThreadPtr} (H : Contends k k' l h)
    (u : ThreadPtr) : (k.thr u).priority ≤ (k'.thr u).priority := by
  obtain ⟨hr, e⟩ | ⟨-, e⟩ := H.priority_cases u
  · rw [e]
    exact hr.lt.le
  · exact e.ge

/-- The ready list stays sorted under the condition on it. -/
theorem Contends.sorted {l : LockPtr} {h : ThreadPtr} {xs : List ThreadPtr}
    (H : Contends k k' l h) (hk : KeepsOrder k h) (hl : IsList k.elems .readyList xs)
    (hx : xs.Pairwise fun a b => (k.thr b).priority ≤ (k.thr a).priority) :
    xs.Pairwise fun a b => (k'.thr b).priority ≤ (k'.thr a).priority := by
  rw [List.pairwise_iff_forall_sublist] at hx ⊢
  intro a b hab
  obtain ⟨hb, eb⟩ | ⟨-, eb⟩ := H.priority_cases b
  · rw [eb]
    obtain ha | ha := hk a b hb ⟨xs, hl, hab⟩
    · exact ha.trans (H.priority_le a)
    · obtain ⟨-, ea⟩ | ⟨ha', -⟩ := H.priority_cases a
      · exact ea.ge
      · exact absurd ha ha'
  · rw [eb]
    exact (hx hab).trans (H.priority_le a)

/-- **The contended branch of `lock_acquire`**, when nobody waits for the lock: the
waiters of the lock are left out of account from here on. -/
theorem Lists.waitForLock {l : LockPtr} {h : ThreadPtr} (L : Lists cfg srt k q home)
    (hcur : home k.cur = none) (hl : ∀ t, (k.thr t).waitingLock ≠ some l)
    (hc : (k.thr k.cur).waitingLock = none) (hk : srt → cfg.mlfqs = false → KeepsOrder k h)
    (hb : srt → cfg.mlfqs = true → ∀ u i, home u = some (.mlfqsList i) →
      ¬ Raises k (k.thr k.cur).priority u h)
    (hw : waitForLock cfg fuel k l h = some k') : ∃ q', Lists cfg srt k' q' home := by
  have H := waitForLock_contends hw
  obtain ⟨k₂, h₁, h₂⟩ := Option.bind_eq_some_iff.mp hw
  obtain ⟨e, he, rfl⟩ := Option.map_eq_some_iff.mp h₁
  obtain ⟨⟨thr, rfl⟩, -⟩ := donatePriority_spec fuel h₂
  have hwl : ∀ u, (thr u).waitingLock =
      if u = k.cur then some l else (k.thr u).waitingLock := by
    intro u
    obtain ⟨p, ep, -⟩ := H.thr u
    exact congrArg Thread.waitingLock ep
  have hq := L.locks l hl
  set k₁ := k.modify k.cur fun th => { th with waitingLock := some l }
  obtain ⟨R, hs⟩ := L.repr.insertOrdered
    (fun a b => (k₁.thr b).priority < (k₁.thr a).priority) (fun _ => rfl) hq
    (L.homes.unlinked hcur) he
  have hoff : ∀ l' : ListPtr, l' ≠ .lockWaiters l →
      e.next (.head l') = k.elems.next (.head l') := fun l' hl' => (hs _ (not_within_head hl')).1
  refine ⟨Function.update q (.lockWaiters l) none, ?_, L.homes.forget _, ?_, ?_, ?_, ?_, ?_, ?_, ?_⟩
  · have R' := R.forget (.lockWaiters l)
    rwa [Function.update_idem] at R'
  · intro l' hl'
    have hll : l' ≠ .lockWaiters l := by
      rintro rfl
      cases hl'
    simpa [hll] using L.ready l' hl'
  · intro p hp
    simpa using L.semas p hp
  · intro p hp
    exact (hoff (.semaWaiters p) nofun).trans (L.fresh p hp)
  · intro m hm
    have hml : m ≠ l := by
      rintro rfl
      exact hm k.cur (by simp [hwl])
    have hm' : ∀ t, (k.thr t).waitingLock ≠ some m := by
      intro t ht
      obtain rfl | htc := eq_or_ne t k.cur
      · rw [hc] at ht
        cases ht
      · exact hm t (by simpa [hwl, htc] using ht)
    simpa [hml] using L.locks m hm'
  · intro m t ht
    replace ht : (thr t).waitingLock = some m := ht
    rw [hwl] at ht
    split at ht
    case isTrue htc =>
      obtain rfl : l = m := Option.some.inj ht
      subst htc
      refine ⟨by simp, ?_⟩
      exact (R.isList (Function.update_self (.lockWaiters l) _ q)).seg.next_eq
    case isFalse htc =>
      have hml : m ≠ l := by
        rintro rfl
        exact hl t ht
      obtain ⟨hn, hh⟩ := L.waited m t ht
      exact ⟨by simpa [hml] using hn, (hoff (.lockWaiters m) (by simpa using hml)).trans hh⟩
  · intro hsrt hm xs hx
    have hx' : q .readyList = some xs := by simpa using hx
    exact H.sorted (hk hsrt hm) (L.repr.isList hx') (L.sorted hsrt hm xs hx')
  · intro hsrt hm u i hu
    obtain ⟨hr, -⟩ | ⟨-, e⟩ := H.priority_cases u
    · exact absurd hr (hb hsrt hm u i hu)
    · exact e.trans (L.bucket hsrt hm u i hu)

/-! ### Lists that lead elsewhere -/

/-- Thread `t` is in a list other than the waiters of a lock. -/
def InQueue (q : ListPtr → Option (List ThreadPtr)) (t : ThreadPtr) : Prop :=
  ∃ l xs, (∀ m, l ≠ .lockWaiters m) ∧ q l = some xs ∧ t ∈ xs

/-- From a node of another list the loop of `lock_release` does not find its end. -/
theorem removeWaiter_stuck {l : LockPtr} {t : ThreadPtr} {l' : ListPtr} {xs : List ThreadPtr}
    {e : Links ListPtr ThreadPtr} (hl : IsList e l' xs) (hll : l' ≠ .lockWaiters l) (ht : t ∉ xs) :
    ∀ fuel n, (n = .tail l' ∨ ∃ x ∈ xs, n = .item x) → removeWaiter l t fuel e n = none
  | 0, _, _ => rfl
  | fuel + 1, n, hn => by
      obtain rfl | ⟨x, hx, rfl⟩ := hn
      · have hne : (.tail l' : Node ListPtr ThreadPtr) ≠ .tail (.lockWaiters l) := by simpa using hll
        simp [removeWaiter, hne, hl.tail_next]
      · obtain ⟨n', hn', hw⟩ := hl.seg.next_mem hx
        have hxt : (.item x : Node ListPtr ThreadPtr) ≠ .item t := by
          rintro ⟨⟩
          exact ht hx
        simp only [removeWaiter, reduceCtorEq, if_false, hn', Option.bind_eq_bind,
          Option.bind_some, hxt]
        exact removeWaiter_stuck hl hll ht fuel n' hw

/-- Nor does the inner loop of `refresh_priority`. -/
theorem refreshWaiters_stuck {l : LockPtr} {t : ThreadPtr} {l' : ListPtr} {xs : List ThreadPtr}
    (hll : l' ≠ .lockWaiters l) :
    ∀ fuel (k : Kernel) n, IsList k.elems l' xs → (n = .tail l' ∨ ∃ x ∈ xs, n = .item x) →
      refreshWaiters cfg t l fuel k n = none
  | 0, _, _, _, _ => rfl
  | fuel + 1, k, n, hl, hn => by
      have hne : n ≠ .tail (.lockWaiters l) := by
        obtain rfl | ⟨x, -, rfl⟩ := hn
        · simpa using hll
        · exact nofun
      simp only [refreshWaiters, hne, if_false]
      set k₁ := if k.priorityAt cfg n > (k.thr t).priority then
        k.modify t fun th => { th with priority := k.priorityAt cfg n } else k with hk₁
      have he : k₁.elems = k.elems := by
        rw [hk₁]
        split <;> rfl
      obtain rfl | ⟨x, hx, rfl⟩ := hn
      · rw [he, hl.tail_next]
        rfl
      · obtain ⟨n', hn', hw⟩ := hl.seg.next_mem hx
        rw [he, hn']
        exact refreshWaiters_stuck hll fuel k₁ n' (he ▸ hl) hw

/-- **A `lock_release` that comes to its end** releases a lock that nobody waits for,
and leaves the lists of threads as they are. -/
theorem Lists.releaseLock {l : LockPtr} (L : Lists cfg srt k q home) (hcur : home k.cur = none)
    (hS : ∀ t, (k.thr t).waitingLock = some l → InQueue q t)
    (h : releaseLock fuel k l = some k') :
    (∀ t, (k.thr t).waitingLock ≠ some l) ∧ ∃ le, k.lockElems.listRemove (.item l) = some le ∧
      k' = { k with lockElems := le, lockHolder := Function.update k.lockHolder l none } := by
  obtain ⟨le, hle, h⟩ := Option.bind_eq_some_iff.mp h
  obtain ⟨n, hn, h⟩ := Option.bind_eq_some_iff.mp h
  obtain ⟨e, he, h⟩ := Option.bind_eq_some_iff.mp h
  cases h
  have hnone : ∀ t, (k.thr t).waitingLock ≠ some l := by
    intro t ht
    obtain ⟨l', xs, hll, hq, hx⟩ := hS t ht
    rw [(L.waited l t ht).2] at hn
    have hcx : k.cur ∉ xs := by
      intro hc
      rw [(L.homes _ _ hq _).mp hc] at hcur
      cases hcur
    rw [removeWaiter_stuck (L.repr.isList hq) (hll l) hcx fuel n
      (.inr ⟨t, hx, (Option.some.inj hn).symm⟩)] at he
    cases he
  refine ⟨hnone, le, hle, ?_⟩
  have hne := (L.repr.isList (L.locks l hnone)).seg.next_eq
  obtain rfl : .tail (.lockWaiters l) = n := Option.some.inj (hne.symm.trans hn)
  cases fuel with
  | zero => cases he
  | succ fuel =>
      obtain rfl : k.elems = e := by simpa [removeWaiter] using he
      rfl

theorem Lists.refreshLock {l : LockPtr} {t : ThreadPtr} (L : Lists cfg srt k q home)
    (hS : ∀ t, (k.thr t).waitingLock = some l → InQueue q t)
    (h : refreshLock cfg fuel t k l = some k') :
    k' = k ∧ ∀ u, (k.thr u).waitingLock ≠ some l := by
  have hnone : ∀ u, (k.thr u).waitingLock ≠ some l := by
    intro u hu
    obtain ⟨l', xs, hll, hq, hx⟩ := hS u hu
    unfold Pintos.refreshLock at h
    rw [L.waited_not_empty hu, (L.waited l u hu).2, Option.bind_some,
      refreshWaiters_stuck (hll l) fuel k _ (L.repr.isList hq) (.inr ⟨u, hx, rfl⟩)] at h
    cases h
  refine ⟨?_, hnone⟩
  have he : k.elems.listEmpty (.lockWaiters l) = true :=
    (L.repr.isList (L.locks l hnone)).listEmpty.mpr rfl
  unfold Pintos.refreshLock at h
  rw [he, if_pos rfl] at h
  exact (Option.some.inj h).symm

/-- Nobody waits for the locks that a `refresh_priority` has gone through. -/
theorem Lists.refreshLocks {t : ThreadPtr} (L : Lists cfg srt k q home)
    (hS : ∀ l t, (k.thr t).waitingLock = some l → InQueue q t) :
    ∀ fuel' {n}, refreshLocks cfg fuel t fuel' k n = some k' →
      k' = k ∧ ∀ a xs, Seg k.lockElems a xs (.tail t) → n = startOf (.tail t) xs →
        ∀ l ∈ xs, ∀ u, (k.thr u).waitingLock ≠ some l
  | 0, _, h => by cases h
  | fuel' + 1, .item l, h => by
      obtain ⟨k₁, h₁, h⟩ := Option.bind_eq_some_iff.mp h
      obtain ⟨hk, hl⟩ := L.refreshLock (hS l) h₁
      rw [hk] at h
      obtain ⟨n, hn, h⟩ := Option.bind_eq_some_iff.mp h
      obtain ⟨hk', ih⟩ := Lists.refreshLocks L hS fuel' h
      refine ⟨hk', fun a xs hs he => ?_⟩
      cases xs with
      | nil => cases he
      | cons x xs =>
          cases he
          intro m hm
          obtain rfl | hm := List.mem_cons.mp hm
          · exact hl
          · exact ih _ xs hs.2.2 (Option.some.inj (hn.symm.trans hs.2.2.next_eq)) m hm
  | _ + 1, .head l, h => by
      simp [Pintos.refreshLocks] at h
  | _ + 1, .tail l, h => by
      unfold Pintos.refreshLocks at h
      split at h
      · cases h
        refine ⟨rfl, fun a xs _ he => ?_⟩
        cases xs with
        | nil => rintro _ ⟨⟩
        | cons x xs => cases he
      · cases h

/-- **A `refresh_priority` that comes to its end** resets the priority to the base
priority, and nobody waits for the locks of the thread. -/
theorem Lists.refreshPriority {t : ThreadPtr} (L : Lists cfg srt k q home)
    (hS : ∀ l t, (k.thr t).waitingLock = some l → InQueue q t)
    (h : refreshPriority cfg fuel k t = some k') :
    k' = k.modify t (fun th => { th with priority := th.basePriority }) ∧
      ∀ xs, IsList k.lockElems t xs → ∀ l ∈ xs, ∀ u, (k.thr u).waitingLock ≠ some l := by
  obtain ⟨n, hn, h⟩ := Option.bind_eq_some_iff.mp h
  set k₁ := k.modify t fun th => { th with priority := th.basePriority }
  have hw : ∀ u, (k₁.thr u).waitingLock = (k.thr u).waitingLock := by
    intro u
    obtain rfl | hu := eq_or_ne u t <;> simp [k₁, *]
  have L₁ : Lists cfg False k₁ q home := L.unsorted.congr rfl hw rfl False.elim
  obtain ⟨rfl, hx⟩ := L₁.refreshLocks (fun l u hu => hS l u (hw u ▸ hu)) fuel h
  refine ⟨rfl, fun xs hl l hm u hu => ?_⟩
  exact hx _ xs hl.seg (Option.some.inj (hn.symm.trans hl.seg.next_eq)) l hm u ((hw u).trans hu)

end Pintos
