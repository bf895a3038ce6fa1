/-
PintosThreads/FourthTick.lean

Preemption in the MLFQS.

`mlfqs_update_priority_all` computes the priorities every fourth tick, and may
put any thread in front of the running one.  `mlfqs_check_preemption` comes
right after it, looks at the highest queue that is not empty, and compares its
index with the priority of the running thread.  As the queues have just been
sorted out anew, the index is a priority, and so the running thread is foremost
whenever such an interrupt returns (`fourth_tick_foremost`).

The idle thread is the exception.  Its priority is not that of its place, and
an interrupt in which it is not switched from may leave a ready thread behind.
-/
import PintosThreads.DispatchOrder
import PintosThreads.IdlePriority
import PintosThreads.Turns
import PintosThreads.WaiterLists

namespace Pintos

open Intrusive

variable {cfg : Config} {fuel : ℕ} {ok : Kernel → Label → Prop} {k k₁ k' : Kernel} {b : Bool}
variable {q : ListPtr → Option (List ThreadPtr)} {home : ThreadPtr → Option ListPtr}
variable {r : Option ThreadPtr} {sl : List ThreadPtr} {u : ThreadPtr}

/-- Where the check does not ask for a yield, nobody is ahead of the running thread. -/
theorem Lists.le_cur (hm : cfg.mlfqs = true) (L : Lists cfg True k q home)
    (P : Placed (ListPtr.IsReady cfg) r sl k home) (h : mlfqsCheckPreemptionIntr k = false)
    (hu : (k.thr u).status = .ready) (hi : k.idleThread ≠ some u) :
    (k.thr u).priority ≤ (k.thr k.cur).priority := by
  obtain ⟨l, hl, hh⟩ := P.home_of_ready hu hi
  cases hl with
  | readyList hf =>
      rw [hm] at hf
      cases hf
  | @mlfqsList i _ h0 h1 =>
      rw [L.bucket trivial hm u i hh]
      obtain ⟨n, rfl⟩ : ∃ n : ℕ, i = n := ⟨i.toNat, by rw [priMin] at h0; omega⟩
      have hn : n < 64 := by
        rw [priMax] at h1
        omega
      obtain ⟨xs, hq⟩ := L.ready _ (.mlfqsList hm h0 h1)
      have hne : k.elems.listEmpty (.mlfqsList n) = false := by
        rw [Bool.eq_false_iff, Ne, L.listEmpty hq]
        exact fun hall => hall u hh
      by_contra hlt
      have ho : Outranked k := ⟨n, hn, hne, not_le.mp hlt⟩
      rw [← mlfqsCheckPreemptionIntr_iff ⟨n, hn, hne⟩, h] at ho
      cases ho

/-- What follows the check writes neither a priority nor a queue. -/
theorem timerMlfqs_check (hm : cfg.mlfqs = true) (h4 : k.ticks % 4 = 0)
    (h : timerMlfqs cfg fuel k = some (k', b)) : b = mlfqsCheckPreemptionIntr k' := by
  rw [timerMlfqs, if_pos hm] at h
  obtain ⟨⟨k₁, b₁⟩, h₁, h⟩ := Option.bind_eq_some_iff.mp h
  obtain ⟨k₂, h₂, h⟩ := Option.bind_eq_some_iff.mp h
  obtain ⟨rfl, rfl⟩ : k₂ = k' ∧ b₁ = b := by simpa using h
  rw [timerPriorities, if_pos h4] at h₁
  obtain ⟨k₃, -, h₁⟩ := Option.map_eq_some_iff.mp h₁
  obtain ⟨rfl, rfl⟩ : k₃ = k₁ ∧ mlfqsCheckPreemptionIntr k₃ = b₁ := by simpa using h₁
  have hs : Steady cfg k₃ k₂ := by
    rw [timerLoad] at h₂
    split at h₂
    · exact mlfqsUpdateRcpuLa_steady h₂
    · cases h₂
      exact .refl _
  rw [mlfqsCheckPreemptionIntr, mlfqsCheckPreemptionIntr, hs.elems, hs.same, hs.sync.2]

theorem timerHandler_check (hm : cfg.mlfqs = true) (h : timerHandler cfg fuel k = some (k', b))
    (h4 : k'.ticks % 4 = 0) (hb : b = false) : mlfqsCheckPreemptionIntr k' = false := by
  simp only [timerHandler, Option.bind_eq_bind, Option.bind_eq_some_iff] at h
  obtain ⟨k₂, -, ⟨k₃, b₃⟩, h₃, h⟩ := h
  obtain ⟨rfl, hor⟩ : k₃ = k' ∧ ((threadTick cfg (ticked k)).2 || b₃) = b := by simpa using h
  rw [← hor, Bool.or_eq_false_iff] at hb
  rw [← timerMlfqs_check hm ((timerMlfqs_turns h₃).ticks ▸ h4) h₃]
  exact hb.2

/-- **Preemption in the MLFQS**: in a run of tame steps no ready thread has a higher priority than
the running one when the interrupt of a fourth tick returns, unless the idle thread is running and
has not been switched from. -/
theorem fourth_tick_foremost (hm : cfg.mlfqs = true)
    (hT : ∀ k lab, Reachable cfg ok k → ok k lab → Tame cfg True k lab)
    (hr : Reachable cfg ok k) (hl : ok k .timer) (h : step cfg fuel k .timer = some k')
    (h4 : k'.ticks % 4 = 0) :
    Foremost True k' ∨ k'.idleThread = some k'.cur ∧ k'.cur = k.cur ∧
      k'.switches = k.switches := by
  have G : Good cfg True k := hr.good hT
  have hr' : Reachable cfg ok k' := hr.tail ⟨.timer, fuel, hl, h⟩
  obtain ⟨⟨q, home, L, P⟩, hin⟩ := G.sched
  obtain ⟨-, hticks, hcur⟩ := step_slice h hr.threadTicks
  have hstep := h
  rw [step] at h
  split at h
  case isFalse => cases h
  rw [timerInterrupt_eq] at h
  obtain ⟨⟨k₁, b⟩, h₁, h⟩ := Option.bind_eq_some_iff.mp h
  obtain ⟨hw, q₁, home₁, L₁, P₁⟩ := L.timerHandler P hin hr.control.inv.idleFree h₁
  obtain ⟨hret, -⟩ := L₁.interruptReturn P₁ (hw.inRange (endHalt_inRange hin))
    hr'.control.inv.idleFree h
  rcases hret with rfl | hsw
  case inr => exact .inl hsw.justDispatched.2
  -- nobody has been switched from, so that no yield has been asked for
  obtain ⟨ht, -⟩ := timerHandler_oneTick h₁
  have hb : b = false := by
    have hs := (interruptReturn_turns h).switches
    have hb : b.toNat = 0 := Nat.left_eq_add.mp hs
    cases b with
    | false => rfl
    | true => cases hb
  by_cases hi : k₁.idleThread = some k₁.cur
  · exact .inr ⟨hi, ht.cur, ht.switches⟩
  · have hcheck : mlfqsCheckPreemptionIntr k₁ = false := timerHandler_check hm h₁ h4 hb
    have hle : ∀ u, (k₁.thr u).status = .ready → k₁.idleThread ≠ some u →
        (k₁.thr u).priority ≤ (k₁.thr k₁.cur).priority :=
      fun u hu hiu => L₁.le_cur hm P₁ hcheck hu hiu
    exact .inl (.inl ⟨hi, fun _ => hle⟩)

/-- Thread 2 has been running for four ticks when it gives way to the initial thread, whose
priority is computed from then on. -/
theorem fourth_tick_foremost_switch : ∃ k k',
    Reachable mlfqsTidConfig (fun k lab => lab.peaceful k) k ∧
      step mlfqsTidConfig 70 k .timer = some k' ∧ k'.ticks % 4 = 0 ∧ k.cur = 2 ∧ k'.cur = 0 ∧
        (k'.thr 2).status = .ready ∧ (k'.thr 2).priority ≤ (k'.thr 0).priority := by
  obtain ⟨k, hr, hk⟩ := exists_reachable mlfqsTidConfig 70 (fun k lab => lab.peaceful k)
    (List.replicate 125 Label.run ++ [Label.call (.threadCreate 31)] ++ List.replicate 85 Label.run ++
      [Label.timer, .timer, .timer])
    (fun k => (step mlfqsTidConfig 70 k .timer).any fun k' => k'.ticks % 4 = 0 && (k.cur = 2 &&
      (k'.cur = 0 && ((k'.thr 2).status = .ready && k'.idleThread = some 1))))
    (by decide +kernel)
  obtain ⟨k', h, hp⟩ := (Option.any_eq_true _ _).mp hk
  simp only [Bool.and_eq_true, decide_eq_true_eq] at hp
  obtain ⟨h4, hc, hc', hs, hi⟩ := hp
  have hT : ∀ k lab, Reachable mlfqsTidConfig (fun k lab => lab.peaceful k) k →
      lab.peaceful k = true → Tame mlfqsTidConfig True k lab := fun _ _ _ h => Label.peaceful.tame h
  refine ⟨k, k', hr, h, h4, hc, hc', hs, ?_⟩
  rcases fourth_tick_foremost rfl hT hr (by rfl) h h4 with (⟨-, hle⟩ | ⟨hcur, -⟩) | ⟨hcur, -⟩
  · rw [← hc']
    exact hle trivial 2 hs (by rw [hi]; decide)
  · rw [hi, hc'] at hcur
    cases hcur
  · rw [hi, hc'] at hcur
    cases hcur

end Pintos
