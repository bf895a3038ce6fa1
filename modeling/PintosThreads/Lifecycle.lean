/-
PintosThreads/Lifecycle.lean

The end of a thread.

None of the edges of `Life` leads out of `THREAD_DYING`, and what refers to a
thread (`Kernel.Refers`) refers to one that has not exited: the lists hold threads
that are ready or blocked, the processor runs one that is running, and a lock is
held by a thread that has not exited if nobody exits with a lock.  So
`thread_exit` is final, and nothing is left behind that points to the page of the
thread when `thread_schedule_tail` frees it (`exit_final`).
-/
import PintosThreads.LocksHeld
import PintosThreads.ReadyOrder

namespace Pintos

open Intrusive

variable {cfg : Config} {fuel : ℕ} {srt : Prop} {ok : Kernel → Label → Prop}
variable {k k₁ k' : Kernel} {lab : Label} {t u : ThreadPtr} {page : ThreadPtr → ℕ}

/-! ### What refers to a thread -/

/-- The kernel's data refers to thread `t`. -/
inductive Kernel.Refers (cfg : Config) (k : Kernel) : ThreadPtr → Prop
  | running : Refers cfg k k.cur
  | idle {t : ThreadPtr} : k.idleThread = some t → Refers cfg k t
  | all {t : ThreadPtr} : t ∈ k.allList → Refers cfg k t
  | sleeper {t : ThreadPtr} : t ∈ k.sleepList → Refers cfg k t
  | ready {l : ListPtr} {t : ThreadPtr} : l.IsReady cfg → k.elems.InList l t → Refers cfg k t
  | semaWaiter {p : SemaPtr} {t : ThreadPtr} :
      k.Known p → k.elems.InList (.semaWaiters p) t → Refers cfg k t
  | lockWaiter {l : LockPtr} {t : ThreadPtr} :
      k.elems.next (.head (.lockWaiters l)) = some (.item t) → Refers cfg k t
  | holder {l : LockPtr} {t : ThreadPtr} : k.lockHolder l = some t → Refers cfg k t
  | created {u t : ThreadPtr} {f : Frame} : f ∈ k.stack u → f.created = some t → Refers cfg k t

/-- **What is referred to** has not exited. -/
theorem Good.refers (G : Good cfg srt k) (H : HoldersAlive k) (h : k.Refers cfg t) :
    (k.thr t).status ≠ .dying := by
  obtain ⟨⟨q, home, L, P⟩, -⟩ := G.sched
  -- what is dying has no place in any list, and each list holds what has its place there
  have hlist : ∀ {l xs t}, q l = some xs → k.elems.InList l t → (k.thr t).status ≠ .dying := by
    intro l xs t hq hi hd
    have hs := P.stands t
    rw [hd, (L.inList hq t).mp hi] at hs
    cases hs
  cases h with
  | running => exact P.cur_alive
  | idle hi => exact P.idleAlive t hi
  | all ha => exact ((P.all t).mp ha).2
  | sleeper hs =>
      obtain ⟨hb, -⟩ := (P.sleeping t).mp hs
      rw [hb]
      rintro ⟨⟩
  | ready hl hi =>
      obtain ⟨xs, hq⟩ := L.ready _ hl
      exact hlist hq hi
  | semaWaiter hp hi =>
      obtain ⟨xs, hq⟩ := L.semas _ hp
      exact hlist hq hi
  | @lockWaiter l _ hn =>
      -- the list starts at the thread that waits for the lock, and that has frames
      intro hd
      by_cases hw : ∃ u, (k.thr u).waitingLock = some l
      · obtain ⟨u, hw⟩ := hw
        have hfirst := (L.waited l u hw).2
        rw [hn] at hfirst
        cases hfirst
        have hmem := (G.waits t l).mp hw
        rw [G.gone t hd] at hmem
        cases hmem
      · have hnil := (L.repr.isList (L.locks l (not_exists.mp hw))).seg.next_eq
        rw [hn] at hnil
        cases hnil
  | holder hl => exact H _ t hl
  | created hf hx =>
      rw [(G.embryo _ _ t hf hx).1]
      rintro ⟨⟩

/-! ### The end -/

/-- Thread `t` has exited. -/
structure Exited (t : ThreadPtr) (k : Kernel) : Prop where
  created : t < k.nextThread
  dying : (k.thr t).status = .dying

theorem Exited.step (h : Exited t k) (G : Good cfg srt k) (C : Control k) (C' : Control k')
    (hT : Tame cfg srt k lab) (hs : Pintos.step cfg fuel k lab = some k') : Exited t k' := by
  obtain ⟨⟨q, home, L, P⟩, -⟩ := G.sched
  have hn := P.cur_lt
  obtain ⟨he, -⟩ := G.step C C' hn hT hs
  refine ⟨?_, ?_⟩
  · obtain ⟨hst, -⟩ : Sync.Step (fun _ => True) k.cur k.sync k'.sync ∧ _ :=
      step_sync hn (fun _ _ => trivial) hs
    exact h.created.trans_le hst.nextThread_le
  · -- no edge leads out of `THREAD_DYING`
    have hl := he.life P.cur_running h.created.ne
    rw [h.dying] at hl
    exact hl.dying

theorem Exited.run {tr : List (Kernel × Label)}
    (hT : ∀ k lab, Reachable cfg ok k → ok k lab → Tame cfg srt k lab) (hr : Reachable cfg ok k)
    (hrun : Path cfg ok k tr k') (h : Exited t k) : Exited t k' := by
  induction hrun with
  | nil => exact h
  | @snoc k₁ k₂ tr lab fuel hrun hok hs ih =>
      have hr₁ : Reachable cfg ok k₁ := hrun.reachable hr
      have hr₂ : Reachable cfg ok k₂ := hr₁.tail ⟨lab, fuel, hok, hs⟩
      exact ih.step (hr₁.good hT) hr₁.control hr₂.control (hT _ _ hr₁ hok) hs

/-- **`thread_exit` is final**, where no thread exits while it holds a lock: a thread that has exited
has no code left to execute, and nothing in the kernel's data refers to it in any later state.
Whatever pages `palloc_get_page` hands out again, two threads that are referred to never have the
same. -/
theorem exit_final {tr : List (Kernel × Label)}
    (hT : ∀ k lab, Reachable cfg ok k → ok k lab →
      Tame cfg srt k lab ∧ lab.ExitsClean k ∧ lab.TakesFree page k)
    (hr : Reachable cfg ok k) (hrun : Path cfg ok k tr k') (ht : t < k.nextThread)
    (hd : (k.thr t).status = .dying) :
    (k'.thr t).status = .dying ∧ k'.stack t = [] ∧ ¬ k'.Refers cfg t ∧
      ∀ u v, k'.Refers cfg u → k'.Refers cfg v → page u = page v → u = v := by
  have hT₀ : ∀ k lab, Reachable cfg ok k → ok k lab → Tame cfg srt k lab :=
    fun k lab hr h => (hT k lab hr h).1
  have E : Exited t k' := .run hT₀ hr hrun ⟨ht, hd⟩
  have hr' : Reachable cfg ok k' := hrun.reachable hr
  have G : Good cfg srt k' := hr'.good hT₀
  have H : HoldersAlive k' := hr'.holdersAlive hT₀ fun k lab hr h => (hT k lab hr h).2.1
  refine ⟨E.dying, G.gone t E.dying, fun h => G.refers H h E.dying, fun u v hu hv e => ?_⟩
  -- what is referred to has not exited, so its page has not been freed
  have huse : ∀ {w}, k'.Refers cfg w → k'.PageInUse w := by
    intro w hw
    obtain ⟨⟨q, home, L, P⟩, -⟩ := G.sched
    have ha := G.refers H hw
    exact ⟨P.lt ha, fun hd => absurd hd ha⟩
  exact hr'.distinct_pages hT₀ (fun k lab hr h => (hT k lab hr h).2.2) (huse hu) (huse hv) e

/-- Thread 2 has exited.  Thread 3 is made in its page, and runs. -/
theorem exit_final_page : ∃ k tr k', Reachable tidConfig
      (fun k lab => lab.peaceful k && (lab.tryFails k && (lab.exitsClean k &&
        lab.takesFree handedOn k))) k ∧
    Path tidConfig (fun k lab => lab.peaceful k && (lab.tryFails k && (lab.exitsClean k &&
      lab.takesFree handedOn k))) k tr k' ∧
    (k.thr 2).status = .dying ∧ k'.cur = 3 ∧ handedOn 3 = handedOn 2 ∧
    (k'.thr 2).status = .dying ∧ k'.stack 2 = [] ∧ ¬ k'.Refers tidConfig 2 ∧
      ∀ u, k'.Refers tidConfig u → handedOn u = handedOn 3 → u = 3 := by
  obtain ⟨k, hr, hk⟩ := exists_reachable tidConfig 70
    (fun k lab => lab.peaceful k && (lab.tryFails k && (lab.exitsClean k &&
      lab.takesFree handedOn k)))
    (List.replicate 31 Label.run ++ [Label.call (.threadCreate 33)] ++
      List.replicate 22 Label.run ++ [Label.call .threadExit, .run])
    (fun k => 2 < k.nextThread ∧ (k.thr 2).status = .dying ∧
      (execute tidConfig 70 (fun k lab => lab.peaceful k && (lab.tryFails k && (lab.exitsClean k &&
        lab.takesFree handedOn k))) k
        ([Label.run, .call (.threadCreate 33)] ++ List.replicate 22 Label.run)).any fun k' =>
          k'.cur = 3)
    (by decide +kernel)
  obtain ⟨hn, hd, hk⟩ := of_decide_eq_true hk
  obtain ⟨k', hx, hp⟩ := (Option.any_eq_true _ _).mp hk
  have hc : k'.cur = 3 := of_decide_eq_true hp
  have hF : TriesFail tidConfig (fun k lab => lab.peaceful k && (lab.tryFails k &&
      (lab.exitsClean k && lab.takesFree handedOn k))) := by
    intro k lab _ h
    obtain ⟨-, h⟩ := Bool.and_eq_true_iff.mp h
    exact .of_check (Bool.and_eq_true_iff.mp h).1
  have hT : ∀ k lab, Reachable tidConfig (fun k lab => lab.peaceful k && (lab.tryFails k &&
      (lab.exitsClean k && lab.takesFree handedOn k))) k →
      (lab.peaceful k && (lab.tryFails k && (lab.exitsClean k && lab.takesFree handedOn k))) = true →
        Tame tidConfig True k lab ∧ lab.ExitsClean k ∧ lab.TakesFree handedOn k := by
    intro k lab hr h
    obtain ⟨ht, h⟩ := Bool.and_eq_true_iff.mp h
    obtain ⟨-, h⟩ := Bool.and_eq_true_iff.mp h
    obtain ⟨hx, hf⟩ := Bool.and_eq_true_iff.mp h
    obtain ⟨q, H⟩ := hF.heldLocks hr
    exact ⟨Label.peaceful.tame ht, H.exitsClean hr.anySync.2 hx, .of_check hf⟩
  have hrun := execute_path hx
  obtain ⟨hd', hs, hno, hpage⟩ := exit_final hT hr hrun hn hd
  refine ⟨k, _, k', hr, hrun, hd, hc, rfl, hd', hs, hno, fun u hu e => ?_⟩
  exact hpage u 3 hu (hc ▸ .running) e

end Pintos
