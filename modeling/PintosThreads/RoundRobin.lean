/-
PintosThreads/RoundRobin.lean

Round robin among the threads of the highest priority.

In the priority scheduler `ready_list` is a fair queue whose services are the
switches (`Good.readyMove`).  A thread `t` that waits in it and has no thread of
higher priority beside it is overtaken by nobody: whoever yields or is woken
goes behind it.  So with each switch there is one less in front of `t`, and the
time slice bounds the number of ticks between two switches (`Path.slice`).
Hence the bound on the time until `t` runs (`round_robin`).
-/
import PintosThreads.Preemption
import PintosThreads.ReadyOrder

namespace Pintos

open Intrusive

variable {cfg : Config} {fuel : ℕ} {k k' : Kernel} {lab : Label} {t : ThreadPtr}
variable {ok : Kernel → Label → Prop} {xs : List ThreadPtr}

/-- Thread `t` is in the ready list, and no thread has higher priority. -/
structure TopReady (k : Kernel) (t : ThreadPtr) : Prop where
  ready : (k.thr t).status = .ready
  idle : k.idleThread ≠ some t
  top : ∀ u ∈ k.allList, (k.thr u).priority ≤ (k.thr t).priority

instance : Decidable (TopReady k t) :=
  decidable_of_iff ((k.thr t).status = .ready ∧ k.idleThread ≠ some t ∧
    ∀ u ∈ k.allList, (k.thr u).priority ≤ (k.thr t).priority)
    ⟨fun h => ⟨h.1, h.2.1, h.2.2⟩, fun h => ⟨h.ready, h.idle, h.top⟩⟩

theorem Scheduling.mem_allList {srt : Prop} (S : Scheduling cfg srt k)
    (ht : (k.thr t).status ≠ .dying) : t ∈ k.allList := by
  obtain ⟨⟨q, home, -, P⟩, -⟩ := S
  exact (P.all t).mpr ⟨Nat.lt_of_not_le fun hn => ht (P.unborn t hn), ht⟩

theorem TopReady.mem (h : TopReady k t) (S : Scheduling cfg True k) (hm : cfg.mlfqs = false)
    (hx : IsList k.elems .readyList xs) : t ∈ xs := by
  obtain ⟨ys, hy, hmem, -⟩ := S.readyList hm
  rw [hx.unique hy]
  exact (hmem t).mpr ⟨h.ready, h.idle⟩

theorem Scheduling.readySorted (S : Scheduling cfg True k) (hm : cfg.mlfqs = false)
    (hx : IsList k.elems .readyList xs) :
    xs.Pairwise fun a b => (k.thr b).priority ≤ (k.thr a).priority := by
  obtain ⟨⟨q, home, L, -⟩, -⟩ := S
  obtain ⟨ys, hq⟩ := L.ready _ (.readyList hm)
  rw [hx.unique (L.repr.isList hq)]
  exact L.sorted trivial hm ys hq

/-- **One step** moves `t` to the front by one if it switches, and does not move it otherwise. -/
theorem Good.turn (hm : cfg.mlfqs = false) (G : Good cfg True k) (G' : Good cfg True k')
    (C : Control k) (hT : Tame cfg True k lab) (h : Pintos.step cfg fuel k lab = some k')
    (ht : TopReady k t) (ht' : TopReady k' t) (hx : IsList k.elems .readyList xs) :
    ∃ xs', IsList k'.elems .readyList xs' ∧
      xs'.idxOf t + k'.switches = xs.idxOf t + k.switches := by
  have hmem := ht.mem G.sched hm hx
  have hplays : ∀ {us : List ThreadPtr}, (enter k us xs).Nodup →
      FairQueue.Plays t xs (us.map (.arrive fun u => (k.thr u).priority)) (enter k us xs) :=
    fun hn => .arrivals hmem (G.sched.readySorted hm hx) hn
  have hover : ∀ {us : List ThreadPtr}, (∀ u ∈ us, (k.thr u).status ≠ .dying) →
      (us.map (FairQueue.Event.arrive fun u => (k.thr u).priority)).countP
        (FairQueue.Event.overtakes t) = 0 :=
    fun ha => FairQueue.countP_overtakes_arrivals fun u hu =>
      ht.top u (G.sched.mem_allList (ha u hu))
  rcases G.readyMove hm C hT h with ⟨us, hl, ha, hs⟩ | ⟨us, ⟨hl, ha⟩, hs⟩
  · -- some threads come, behind `t`
    have hx' := hl xs hx
    have hb := (hplays hx'.nodup).balance hx.nodup
    rw [hover ha, FairQueue.countP_isServe_arrivals] at hb
    exact ⟨_, hx', by omega⟩
  · -- and the first one is taken off
    obtain ⟨hn, hx'⟩ := hl xs hx
    have ht' := ht'.mem G'.sched hm hx'
    have hp := (hplays hn).append (.serve (List.mem_of_mem_tail ht') (.nil ht'))
    have hb := hp.balance hx.nodup
    rw [List.countP_append, List.countP_append, hover ha, FairQueue.countP_isServe_arrivals] at hb
    simp only [List.countP_cons, List.countP_nil, FairQueue.Event.isServe,
      FairQueue.Event.overtakes] at hb
    simp only [if_true, Bool.false_eq_true, if_false] at hb
    exact ⟨_, hx', by omega⟩

/-- **Round robin**: while thread `t` waits in the ready list of the priority scheduler and no
thread has higher priority, each switch serves exactly one of those in front of it.  So `t` runs
after as many switches, and in less than a time slice for each of them and once more. -/
theorem round_robin {tr : List (Kernel × Label)} (hm : cfg.mlfqs = false)
    (hT : ∀ k lab, Reachable cfg ok k → ok k lab → Tame cfg True k lab)
    (hr : Reachable cfg ok k) (hrun : Path cfg ok k tr k') (ht : ∀ s ∈ tr, TopReady s.1 t)
    (ht' : TopReady k' t) :
    ∃ xs xs', IsList k.elems .readyList xs ∧ IsList k'.elems .readyList xs' ∧ t ∈ xs ∧
      xs'.idxOf t + k'.switches = xs.idxOf t + k.switches ∧
      k'.ticks < k.ticks + timeSlice * (xs.idxOf t + 1) := by
  have key : ∃ xs xs', IsList k.elems .readyList xs ∧ IsList k'.elems .readyList xs' ∧ t ∈ xs ∧
      xs'.idxOf t + k'.switches = xs.idxOf t + k.switches := by
    induction hrun with
    | nil =>
        obtain ⟨xs, hx, -⟩ := (hr.good hT).sched.readyList hm
        exact ⟨xs, xs, hx, hx, ht'.mem (hr.good hT).sched hm hx, rfl⟩
    | @snoc k₁ k₂ tr lab fuel hrun hok hs ih =>
        have hr₁ : Reachable cfg ok k₁ := hrun.reachable hr
        have hr₂ : Reachable cfg ok k₂ := hr₁.tail ⟨lab, fuel, hok, hs⟩
        have ht₁ : TopReady k₁ t := ht (k₁, lab) (by simp)
        obtain ⟨xs, xs₁, hx, hx₁, hmem, he⟩ := ih (fun s hs => ht s (by simp [hs])) ht₁
        obtain ⟨xs₂, hx₂, he'⟩ := (hr₁.good hT).turn hm (hr₂.good hT) hr₁.control
          (hT _ _ hr₁ hok) hs ht₁ ht' hx₁
        exact ⟨xs, xs₂, hx, hx₂, hmem, by omega⟩
  obtain ⟨xs, xs', hx, hx', hmem, he⟩ := key
  obtain ⟨⟨hk', -, hsum⟩, hticks, -⟩ := hrun.slice hr.threadTicks
  refine ⟨xs, xs', hx, hx', hmem, he, ?_⟩
  -- each of the switches has ended a slice
  have hmul := Nat.mul_le_mul_left timeSlice (show k'.switches ≤ xs.idxOf t + k.switches by omega)
  have hlt : tr.countP (fun s => s.2 = .timer) < timeSlice * (xs.idxOf t + 1) := by
    rw [Nat.mul_add] at hmul ⊢
    omega
  rw [hticks]
  have hlt := Int.ofNat_lt.mpr hlt
  push_cast at hlt ⊢
  omega

/-- The initial thread runs, and threads 2 and 3 wait in the ready list with its priority: at the
end of the time slice it is the turn of thread 2, and thread 3 comes to the front. -/
theorem round_robin_two : ∃ k tr k' xs xs',
    Reachable priorityConfig (fun k lab => lab.peaceful k) k ∧
      Path priorityConfig (fun k lab => lab.peaceful k) k tr k' ∧ k.switches < k'.switches ∧
      IsList k.elems .readyList xs ∧ IsList k'.elems .readyList xs' ∧ 3 ∈ xs ∧
      xs'.idxOf 3 + k'.switches = xs.idxOf 3 + k.switches ∧
      k'.ticks < k.ticks + timeSlice * (xs.idxOf 3 + 1) := by
  obtain ⟨k, hr, hk⟩ := exists_reachable priorityConfig 70 (fun k lab => lab.peaceful k)
    (List.replicate 19 Label.run ++ Label.call (.threadCreate 31) :: List.replicate 8 Label.run ++
      Label.call (.threadCreate 31) :: List.replicate 8 Label.run)
    (fun k => (execute priorityConfig 70 (fun k lab => lab.peaceful k) k
      (List.replicate 4 .timer)).any fun k' => TopReady k' 3 &&
        ((trace priorityConfig 70 k (List.replicate 4 .timer)).all (fun s => TopReady s.1 3) &&
          k.switches < k'.switches))
    (by decide +kernel)
  obtain ⟨k', hx, hp⟩ := (Option.any_eq_true _ _).mp hk
  simp only [Bool.and_eq_true, decide_eq_true_eq, List.all_eq_true] at hp
  obtain ⟨ht', ht, hs⟩ := hp
  have hrun := execute_path hx
  obtain ⟨xs, xs', hl, hl', hmem, he, hticks⟩ :=
    round_robin rfl (fun _ _ _ h => Label.peaceful.tame h) hr hrun ht ht'
  exact ⟨k, _, k', xs, xs', hr, hrun, hs, hl, hl', hmem, he, hticks⟩

end Pintos
