/-
PintosThreads/StaleCpu.lean

A `recent_cpu` that escapes the decay.

`init_thread` reads the `recent_cpu` of the creator with interrupts on, and
`thread_create` inserts the new thread into `all_list` only after that.  If the
timer interrupt that ends a second comes in between, the creator's value decays
and the one that has been read does not.  A thread that runs alone can in this
way hand down, second after second, all the ticks that it and its ancestors
have run for (`stale_recent_cpu`), with never more than one thread ready when
the load average is computed.  In the runs in which no interrupt comes in between
the bounds hold (`recent_cpu_bounded`).

`Alone` describes the states in which one thread is all there is to run; the
lemmas about it carry out one tick, and one creation followed by the exit of
the creator.
-/
import PintosThreads.CpuBounds
import PintosThreads.TimerPriorities
import PintosThreads.Rebucketing

namespace Pintos

open Intrusive

variable {cfg : Config} {fuel : ℕ} {ok : Kernel → Label → Prop} {k k₁ k' : Kernel}
variable {t u : ThreadPtr} {fs : List Frame} {p : ℕ}

/-! ### Empty queues, and one thread in a queue -/

/-- Thread `t` alone, in queue `p`. -/
def oneQueued (p : ℕ) (t : ThreadPtr) (i : ℕ) : List ThreadPtr :=
  if i = p then [t] else []

theorem QueuesHold.listEmpty {qs : ℕ → List ThreadPtr} (H : QueuesHold k qs) {i : ℕ} (hi : i < 64) :
    k.elems.listEmpty (.mlfqsList i) = true ↔ qs i = [] :=
  (H.isList i hi).listEmpty

/-- The queues do not depend on the rest of the kernel. -/
theorem QueuesHold.congr {qs : ℕ → List ThreadPtr} (H : QueuesHold k qs)
    (he : k'.elems = k.elems) : QueuesHold k' qs :=
  ⟨fun i hi => he ▸ H.isList i hi, H.once⟩

theorem oneQueued_once (p : ℕ) (t : ThreadPtr) : (queuedThreads (oneQueued p t)).Nodup := by
  refine List.nodup_flatMap.mpr ⟨fun i _ => ?_, ?_⟩
  · rw [oneQueued]
    split <;> simp
  · refine List.nodup_range.imp fun {i j} hne => ?_
    show List.Disjoint (oneQueued p t i) (oneQueued p t j)
    intro u hi hj
    simp only [oneQueued] at hi hj
    split at hi
    · split at hj
      · exact hne (by omega)
      · cases hj
    · cases hi

theorem queuedThreads_nil : (queuedThreads fun _ => []) = [] :=
  List.flatMap_eq_nil_iff.mpr fun _ _ => rfl

theorem QueuesHold.highest_one (hp : p < 64) (H : QueuesHold k (oneQueued p t)) :
    mlfqsHighest k.elems 64 = some p := by
  obtain ⟨hsome, hnone⟩ := mlfqsHighest_spec (e := k.elems) 64
  rcases e : mlfqsHighest k.elems 64 with - | i
  · have hempty := (H.listEmpty hp).mp (hnone e p hp)
    simp [oneQueued] at hempty
  · obtain ⟨hi, hne, -⟩ := hsome i e
    by_contra hip
    have hip : i ≠ p := fun he => hip (congrArg some he)
    have hempty : k.elems.listEmpty (.mlfqsList i) = true :=
      (H.listEmpty hi).mpr (by simp [oneQueued, hip])
    rw [hempty] at hne
    cases hne

/-- A thread enters the empty queues. -/
theorem QueuesHold.insert (hp : p < 64) (H : QueuesHold k fun _ => [])
    (ht : (k.thr t).priority = p) : ∃ e ev, mlfqsInsert k t = some { k.setElems e with log := ev } ∧
      QueuesHold (k.setElems e) (oneQueued p t) := by
  have hq : queueMap (fun _ => []) (.mlfqsList (k.thr t).priority) = some [] := by
    rw [ht, queueMap, if_pos (by omega)]
  have hu : Unlinked (queueMap fun _ => []) t := by
    intro l xs hl
    cases l with
    | mlfqsList i =>
        simp only [queueMap] at hl
        split at hl <;> cases hl
        exact List.not_mem_nil
    | _ => cases hl
  obtain ⟨e, h, R, -⟩ := H.repr.pushBack hq hu
  refine ⟨e, .insert t (k.thr t).priority :: k.log, ?_, fun i hi => ?_, oneQueued_once p t⟩
  · rw [mlfqsInsert, h]
    rfl
  · refine R.isList ?_
    rw [ht, oneQueued]
    by_cases hip : i = p
    · subst hip
      rw [if_pos rfl, Function.update_self]
      rfl
    · rw [if_neg hip, Function.update_of_ne (mlfqsList_ne hip), queueMap, if_pos (by omega)]

/-- The only thread in the queues is the next to run. -/
theorem QueuesHold.next (hm : cfg.mlfqs = true) (hp : p < 64) (H : QueuesHold k (oneQueued p t)) :
    ∃ e, nextThreadToRun cfg k = some (t, e) ∧ QueuesHold (k.setElems e) fun _ => [] := by
  have hq : queueMap (oneQueued p t) (.mlfqsList p) = some [t] := by
    rw [queueMap, if_pos (by omega), Int.toNat_natCast, oneQueued, if_pos rfl]
  obtain ⟨e, h, R, -⟩ := H.repr.popFront hq
  refine ⟨e, ?_, fun i hi => ?_, ?_⟩
  · rw [nextThreadToRun, if_pos hm, mlfqsNextThreadToRun, H.highest_one hp]
    simp only [popThread, h]
  · refine R.isList ?_
    by_cases hip : i = p
    · subst hip
      rw [Function.update_self]
    · rw [Function.update_of_ne (mlfqsList_ne hip), queueMap, if_pos (by omega),
        Int.toNat_natCast, oneQueued, if_neg hip]
  · rw [queuedThreads_nil]
    exact List.nodup_nil

/-! ### One thread is all there is to run -/

/-- Thread `t` runs, and no other thread is ready or asleep. -/
structure Alone (t : ThreadPtr) (k : Kernel) : Prop where
  cur : k.cur = t
  idleThread : k.idleThread ≠ some t
  queues : QueuesHold k fun _ => []
  sleepList : k.sleepList = []
  load_nonneg : 0 ≤ k.loadAvg
  load_le : k.loadAvg ≤ 1 * fpOne
  priMin_le : priMin ≤ (k.thr t).priority
  le_priMax : (k.thr t).priority ≤ priMax
  few : k.allList.length ≤ 2

/-- The running thread is counted, and the empty queues add nothing. -/
theorem Alone.readyThreads (h : Alone t k) (hf : 0 < fuel) : mlfqsReadyThreads fuel k = some 1 := by
  have hq : ∀ n ≤ 64, mlfqsQueued fuel k.elems n = some 0 := by
    intro n hn
    induction n with
    | zero => rfl
    | succ n ih =>
        have hs : k.elems.listSize fuel (.mlfqsList n) = some 0 := (h.queues.isList n hn).listSize_eq hf
        rw [mlfqsQueued, ih (by omega), hs]
        rfl
  have hi : k.idleThread ≠ some k.cur := by
    rw [h.cur]
    exact h.idleThread
  rw [mlfqsReadyThreads, hq 64 le_rfl]
  show some (if k.idleThread ≠ some k.cur then 0 + 1 else 0) = some 1
  rw [if_pos hi]

theorem readyThreads_zero (k : Kernel) : mlfqsReadyThreads 0 k = none := by
  have hs : k.elems.listSize 0 (.mlfqsList (63 : ℕ)) = none := by
    rw [Links.listSize]
    rcases k.elems.next (.head (.mlfqsList (63 : ℕ))) with - | n <;> rfl
  rw [mlfqsReadyThreads, mlfqsQueued, hs]
  rcases mlfqsQueued 0 k.elems 63 with - | n <;> rfl

/-- A function that writes only the threads can be carried out over a list of them. -/
theorem foldlM_exists (func : Kernel → ThreadPtr → Option Kernel) {I : Kernel → Prop}
    (hf : ∀ k t, I k → ∃ thr, func k t = some (k.setThr thr) ∧ I (k.setThr thr)) :
    ∀ (ts : List ThreadPtr) {k : Kernel}, I k →
      ∃ thr, ts.foldlM func k = some (k.setThr thr) ∧ I (k.setThr thr)
  | [], k, hk => ⟨k.thr, rfl, hk⟩
  | t :: ts, k, hk => by
      obtain ⟨thr₁, h₁, hk₁⟩ := hf k t hk
      obtain ⟨thr, h, hk'⟩ := foldlM_exists func hf ts hk₁
      refine ⟨thr, ?_, hk'⟩
      rw [List.foldlM_cons, h₁, Option.bind_eq_bind, Option.bind_some, h]
      rfl

theorem updatePriority_exists (ts : List ThreadPtr) (k : Kernel) :
    ∃ thr, ts.foldlM (fun k t => some (mlfqsUpdatePriority k t)) k = some (k.setThr thr) := by
  obtain ⟨thr, h, -⟩ := foldlM_exists _ (I := fun _ => True) (fun k t _ => by
    obtain ⟨thr, h⟩ := mlfqsUpdatePriority_rest k t
    exact ⟨thr, congrArg some h, trivial⟩) ts (k := k) trivial
  exact ⟨thr, h⟩

/-- With a load average in its range the divisor of the decay is not zero. -/
theorem decayedCpu_exists {l r n : ℤ} (h0 : 0 ≤ l) (h1 : l ≤ 1 * fpOne) :
    ∃ c, decayedCpu l r n = some c := by
  have hF : fpOne = 16384 := rfl
  have hone : toInt32 (1 * fpOne) = fpOne := by decide
  rw [hF] at h1
  have htwo : fpMulInt l 2 = l * 2 := toInt32_of_inInt32 ⟨by omega, by omega⟩
  have hden : fpAddInt (fpMulInt l 2) 1 = l * 2 + fpOne := by
    rw [fpAddInt, hone, htwo]
    exact toInt32_of_inInt32 ⟨by omega, by omega⟩
  have hne : l * 2 + fpOne ≠ 0 := by omega
  rw [decayedCpu, hden, fpDiv, if_neg hne]
  exact ⟨_, rfl⟩

theorem updateRecentCpu_exists (ts : List ThreadPtr) (t : ThreadPtr) (h0 : 0 ≤ k.loadAvg)
    (h1 : k.loadAvg ≤ 1 * fpOne) :
    ∃ thr, ts.foldlM mlfqsUpdateRecentCpu k = some (k.setThr thr) ∧
      (thr t).priority = (k.thr t).priority := by
  obtain ⟨thr, h, -, -, hp⟩ := foldlM_exists mlfqsUpdateRecentCpu
    (I := fun k₁ => 0 ≤ k₁.loadAvg ∧ k₁.loadAvg ≤ 1 * fpOne ∧
      (k₁.thr t).priority = (k.thr t).priority)
    (fun k₁ u ⟨h0, h1, hp⟩ => by
      rw [mlfqsUpdateRecentCpu_eq]
      split
      · exact ⟨k₁.thr, rfl, h0, h1, hp⟩
      · obtain ⟨c, hc⟩ := decayedCpu_exists (r := (k₁.thr u).recentCpu) (n := (k₁.thr u).nice) h0 h1
        rw [hc]
        refine ⟨_, rfl, h0, h1, ?_⟩
        obtain rfl | ht := eq_or_ne t u
        · simpa using hp
        · simpa [ht] using hp) ts ⟨h0, h1, rfl⟩
  exact ⟨thr, h, hp⟩

/-- The rest of the kernel plays no part. -/
theorem Alone.congr (h : Alone t k) (hc : k'.cur = k.cur) (hi : k'.idleThread = k.idleThread)
    (he : k'.elems = k.elems) (hs : k'.sleepList = k.sleepList) (hl : k'.loadAvg = k.loadAvg)
    (hp : (k'.thr t).priority = (k.thr t).priority) (ha : k'.allList = k.allList) :
    Alone t k' where
  cur := hc.trans h.cur
  idleThread := hi ▸ h.idleThread
  queues := h.queues.congr he
  sleepList := hs.trans h.sleepList
  load_nonneg := hl ▸ h.load_nonneg
  load_le := hl ▸ h.load_le
  priMin_le := hp ▸ h.priMin_le
  le_priMax := hp ▸ h.le_priMax
  few := ha ▸ h.few

/-- The queues are empty before and after they are rebuilt. -/
theorem Alone.reorganize (h : Alone t k) (hf : 0 < fuel) :
    ∃ e ev, mlfqsReorganizeQueues fuel k = some { k.setElems e with log := ev } ∧
      Alone t { k.setElems e with log := ev } := by
  obtain ⟨k', hk', -, H⟩ := reorganize_spec h.queues
    (fun u hu => by
      rw [queuedThreads_nil] at hu
      cases hu)
    (by rwa [queuedThreads_nil])
  obtain ⟨e₁, -, h₁⟩ := Option.bind_eq_some_iff.mp hk'
  obtain ⟨e, ev, rfl⟩ := reinsertQueues_eq fuel h₁
  have hnil : rebucketed k (fun _ => []) = fun _ => [] := by
    funext i
    rw [rebucketed, queuedThreads_nil, List.filter_nil]
  rw [hnil] at H
  exact ⟨e, ev, hk', h.cur, h.idleThread, H.congr rfl, h.sleepList, h.load_nonneg, h.load_le,
    h.priMin_le, h.le_priMax, h.few⟩

/-- The priorities are computed, on the ticks on which they are due. -/
theorem Alone.timerPriorities (h : Alone t k) (hn : k.allList.Nodup) (hf : 0 < fuel) :
    ∃ k' b, timerPriorities fuel k = some (k', b) ∧ Alone t k' ∧ k'.allList = k.allList := by
  rw [Pintos.timerPriorities]
  split
  case isFalse => exact ⟨k, false, rfl, h, rfl⟩
  case isTrue =>
    obtain ⟨thr, hthr⟩ := updatePriority_exists k.allList k
    obtain ⟨_, he, ho, hp⟩ := foldlM_updatePriority hn hthr
    obtain rfl : thr = _ := congrArg Kernel.thr he
    have hrange : priMin ≤ (thr t).priority ∧ (thr t).priority ≤ priMax := by
      by_cases ht : t ∈ k.allList
      · rw [(hp t ht).2.2 h.idleThread, ← mlfqsPriority_eq_formulaPriority]
        exact mlfqsPriority_mem _ _
      · rw [ho t ht]
        exact ⟨h.priMin_le, h.le_priMax⟩
    have h₁ : Alone t (k.setThr thr) := ⟨h.cur, h.idleThread, h.queues.congr rfl, h.sleepList,
      h.load_nonneg, h.load_le, hrange.1, hrange.2, h.few⟩
    obtain ⟨e, ev, h₂, H⟩ := h₁.reorganize hf
    have hall : mlfqsUpdatePriorityAll fuel k =
        some { (k.setThr thr).setElems e with log := ev } := by
      rw [mlfqsUpdatePriorityAll, threadForeach, hthr]
      exact h₂
    rw [hall]
    exact ⟨_, _, rfl, H, rfl⟩

/-- The end of a second. -/
theorem Alone.decay (h : Alone t k) (hf : 0 < fuel) :
    ∃ thr, threadForeach mlfqsUpdateRecentCpu k = some (k.setThr thr) ∧
      Alone t (k.setThr thr) ∧ mlfqsUpdateRcpuLa fuel k =
        some { k.setThr thr with loadAvg := nextLoad k.loadAvg 1 } := by
  obtain ⟨thr, hthr, hp⟩ := updateRecentCpu_exists k.allList t h.load_nonneg h.load_le
  have h₁ : Alone t (k.setThr thr) := h.congr rfl rfl rfl rfl rfl hp rfl
  refine ⟨thr, hthr, h₁, ?_⟩
  rw [mlfqsUpdateRcpuLa, threadForeach, hthr]
  exact mlfqsUpdateLoadAvg_eq (h₁.readyThreads hf)

/-- **The handler of the timer interrupt** comes to its end. -/
theorem Alone.handler (hm : cfg.mlfqs = true) (h : Alone t k) (hn : k.allList.Nodup)
    (hf : 0 < fuel) : secondCount cfg fuel k = some 1 ∧
      ∃ k' b, timerHandler cfg fuel k = some (k', b) ∧ Alone t k' := by
  obtain ⟨ht, -⟩ := threadTick_ticked cfg k
  obtain ⟨k₁, hk₁⟩ : ∃ k₁, k₁ = (threadTick cfg (ticked k)).1 := ⟨_, rfl⟩
  rw [← hk₁] at ht
  have hp : (k₁.thr t).priority = (k.thr t).priority := by rw [ht.thr]
  have h₁ : Alone t k₁ :=
    h.congr ht.cur ht.idleThread ht.elems ht.sleepList ht.loadAvg hp ht.allList
  have hw : timerWakeup cfg fuel k₁.ticks k₁.sleepList k₁ = some { k₁ with sleepList := [] } := by
    rw [h₁.sleepList]
    rfl
  have h₂ : Alone t { k₁ with sleepList := [] } :=
    h₁.congr rfl rfl rfl h₁.sleepList.symm rfl rfl rfl
  have hn₁ : k₁.allList.Nodup := ht.allList ▸ hn
  obtain ⟨k₃, b₃, hp₃, h₃, -⟩ := h₂.timerPriorities hn₁ hf
  obtain ⟨thr, hd, h₄, hl⟩ := h₃.decay hf
  refine ⟨?_, ?_⟩
  · simp only [secondCount, Option.bind_eq_bind, ← hk₁, hw, hp₃, hd, Option.bind_some,
      h₄.readyThreads hf]
  · have hload : ∃ k₅, timerLoad fuel k₃ = some k₅ ∧ Alone t k₅ := by
      rw [timerLoad]
      split
      case isFalse => exact ⟨k₃, rfl, h₃⟩
      case isTrue =>
        have hN : nextLoad k₃.loadAvg 1 ≤ 1 * fpOne ∧ 0 ≤ nextLoad k₃.loadAvg 1 := by
          obtain ⟨h0, h1⟩ := nextLoad_le (N := 1) (n := 1) (by norm_num) h₃.load_nonneg
            h₃.load_le (by norm_num) le_rfl
          exact ⟨h1, h0⟩
        exact ⟨_, hl, h₄.cur, h₄.idleThread, h₄.queues.congr rfl, h₄.sleepList, hN.2, hN.1,
          h₄.priMin_le, h₄.le_priMax, h₄.few⟩
    obtain ⟨k₅, h₅, H⟩ := hload
    refine ⟨k₅, (threadTick cfg (ticked k)).2 || b₃, ?_, H⟩
    simp only [timerHandler, timerMlfqs, hm, Option.bind_eq_bind, ← hk₁, hw, hp₃, h₅,
      Option.bind_some, if_true]

/-- The number of ready threads that the handler counts, with any bound on its loops. -/
theorem Alone.countsTo (hm : cfg.mlfqs = true) (h : Alone t k) (hn : k.allList.Nodup)
    (lab : Label) : lab.CountsTo cfg 1 k := by
  intro _ _ fuel n hcount
  rcases fuel with - | fuel
  · simp [secondCount, readyThreads_zero] at hcount
  · rw [(h.handler hm hn fuel.succ_pos).1] at hcount
    exact (Option.some.inj hcount).ge

/-! ### One tick -/

/-- What a thread that is alone keeps while it gives up the processor and gets it back. -/
structure Regains (k k' : Kernel) : Prop where
  stack : k'.stack = k.stack
  intrOn : k'.intrOn = true
  recentCpu : ∀ t, (k'.thr t).recentCpu = (k.thr t).recentCpu
  nice : ∀ t, (k'.thr t).nice = (k.thr t).nice
  priority : ∀ t, (k'.thr t).priority = (k.thr t).priority
  allList : k'.allList = k.allList
  nextThread : k'.nextThread = k.nextThread
  ticks : k'.ticks = k.ticks

/-- `thread_yield` finds no other thread than the running one. -/
theorem Alone.yieldCurrent (hm : cfg.mlfqs = true) (h : Alone t k) (hon : k.intrOn = false)
    (ht : t < k.nextThread) : ∃ e ev, yieldCurrent cfg fuel k =
        some { k.modify t fun th => { th with status := .running } with
          elems := e, threadTicks := 0, log := ev } ∧
      QueuesHold (k.setElems e) fun _ => [] := by
  obtain ⟨p, hp⟩ := Int.eq_ofNat_of_zero_le h.priMin_le
  have hp64 : p < 64 := by
    have hmax : (k.thr t).priority ≤ 63 := h.le_priMax
    omega
  obtain ⟨e₁, ev₁, h₁, H₁⟩ := h.queues.insert hp64 hp
  have hins : yieldInsert cfg fuel k = some { k.setElems e₁ with log := ev₁ } := by
    have hi : k.idleThread ≠ some k.cur := by
      rw [h.cur]
      exact h.idleThread
    rw [yieldInsert, if_neg hi, if_pos hm, h.cur]
    exact h₁
  obtain ⟨k₁, hk₁⟩ : ∃ k₁, k₁ =
      { k.setElems e₁ with log := ev₁ }.modify k.cur fun th => { th with status := .ready } :=
    ⟨_, rfl⟩
  have H₂ : QueuesHold k₁ (oneQueued p t) := H₁.congr (by rw [hk₁]; rfl)
  obtain ⟨e, he, H⟩ := H₂.next hm hp64
  have hguard : k₁.intrOn = false ∧ (k₁.thr k₁.cur).status ≠ .running ∧ isThread k₁ t := by
    rw [hk₁]
    refine ⟨hon, ?_, ht⟩
    simp
  refine ⟨e, .dispatch t :: ev₁, ?_, H.congr rfl⟩
  rw [Pintos.yieldCurrent, hins, Option.bind_eq_bind, Option.bind_some]
  show schedule cfg (Kernel.modify { k.setElems e₁ with log := ev₁ } k.cur
    fun th => { th with status := .ready }) = _
  rw [← hk₁, schedule, he, Option.bind_eq_bind, Option.bind_some]
  show (if _ then _ else none) = _
  rw [if_pos hguard, hk₁]
  simp [threadScheduleTail, Kernel.modify, Kernel.record, Kernel.setElems, h.cur]

/-- At most one thread is ready when a second ends, and there are never more than three threads. -/
def Label.Lone (k : Kernel) (lab : Label) : Prop :=
  lab.CountsTo mlfqsConfig 1 k ∧ k.allList.length ≤ 3

/-- A run of such steps. -/
def LoneRun (k k' : Kernel) : Prop :=
  Relation.ReflTransGen (Next mlfqsConfig Label.Lone) k k'

theorem LoneRun.run (hk : k.allList.length ≤ 3) (h : step mlfqsConfig fuel k .run = some k') :
    LoneRun k k' :=
  Relation.ReflTransGen.single ⟨.run, fuel, ⟨nofun, hk⟩, h⟩

theorem LoneRun.call {c : Call} (hk : k.allList.length ≤ 3)
    (h : step mlfqsConfig fuel k (.call c) = some k') : LoneRun k k' :=
  Relation.ReflTransGen.single ⟨.call c, fuel, ⟨nofun, hk⟩, h⟩

theorem LoneRun.trans (h : LoneRun k k₁) (h' : LoneRun k₁ k') : LoneRun k k' :=
  Relation.ReflTransGen.trans h h'

/-- The thread is resumed after the interrupt, with or without a yield. -/
theorem Alone.interruptReturn {b : Bool} (h : Alone t k) (hon : k.intrOn = false)
    (ht : t < k.nextThread) : ∃ k₁ k', interruptReturn mlfqsConfig fuel k b = some k₁ ∧
      LoneRun k₁ k' ∧ Alone t k' ∧ Regains k k' := by
  rw [Pintos.interruptReturn]
  split
  case isFalse =>
    exact ⟨_, _, rfl, .refl, h.congr rfl rfl rfl rfl rfl rfl rfl,
      rfl, rfl, fun _ => rfl, fun _ => rfl, fun _ => rfl, rfl, rfl, rfl⟩
  case isTrue =>
    have hp : Alone t (k.push (.intrSetLevel true)) := h.congr rfl rfl rfl rfl rfl rfl rfl
    obtain ⟨e, ev, he, H⟩ : ∃ e ev, Pintos.yieldCurrent mlfqsConfig fuel _ = _ ∧ _ :=
      hp.yieldCurrent rfl hon ht
    refine ⟨_, { k.modify t fun th => { th with status := .running } with
        elems := e, threadTicks := 0, log := ev, intrOn := true }, he,
      .run (h.few.trans (by norm_num)) (show step mlfqsConfig 0 _ .run = some _ from ?_),
      ⟨h.cur, h.idleThread, H.congr rfl, h.sleepList, h.load_nonneg, h.load_le, ?_, ?_, h.few⟩,
      rfl, rfl, fun u => ?_, fun u => ?_, fun u => ?_, rfl, rfl, rfl⟩
    · simp [step, exec, popFrame, Kernel.setLevel, Kernel.modify, Kernel.push]
    · simpa using h.priMin_le
    · simpa using h.le_priMax
    all_goals
      obtain rfl | hu := eq_or_ne u t
      · simp
      · simp [hu]

/-- One tick of a thread that is alone, and goes on after it. -/
structure TicksAlone (t : ThreadPtr) (k k' : Kernel) : Prop where
  run : LoneRun k k'
  alone : Alone t k'
  stack : k'.stack = k.stack
  intrOn : k'.intrOn = true
  ticks : k'.ticks = k.ticks + 1
  allList : k'.allList = k.allList
  nextThread : k'.nextThread = k.nextThread
  nice : (k'.thr t).nice = (k.thr t).nice
  recentCpu : (k.ticks + 1) % timerFreq ≠ 0 →
    (k'.thr t).recentCpu = fpAddInt (k.thr t).recentCpu 1
  priority : (k.ticks + 1) % 4 = 0 → (k'.thr t).priority =
    formulaPriority (fpAddInt (k.thr t).recentCpu 1) (k.thr t).nice

theorem Alone.tick (h : Alone t k) (hr : LoneRun (boot mlfqsConfig) k) (hon : k.intrOn = true)
    (ht : t ∈ k.allList) (hst : ∀ gs, k.stack t ≠ .idleHalt :: gs) :
    ∃ k', TicksAlone t k k' := by
  have hm : mlfqsConfig.mlfqs = true := rfl
  have A : AllListOk k := Reachable.allListOk hr
  obtain ⟨-, k₁, b, h₁, H₁⟩ := h.handler hm A.nodup zero_lt_one
  obtain ⟨hs₁, -, hoff⟩ := handler_control (show Label.timer.handler mlfqsConfig 1 k = _ from h₁)
  have hhalt : endHalt k = k := by
    rw [endHalt]
    split
    case h_1 gs e =>
      rw [h.cur] at e
      exact absurd e (hst _)
    case h_2 => rfl
  have hn₁ : k₁.nextThread = k.nextThread := timerHandler_nextThread h₁
  obtain ⟨k₂, k', h₂, hrun, H, G⟩ :
      ∃ k₂ k', Pintos.interruptReturn mlfqsConfig 1 k₁ b = some k₂ ∧ _ :=
    H₁.interruptReturn hoff (hn₁ ▸ A.lt t ht)
  have T := timerHandler_ticks hm A.nodup h₁
  have hcpu : tickedCpu mlfqsConfig k t = fpAddInt (k.thr t).recentCpu 1 := by
    rw [tickedCpu, if_pos ⟨rfl, h.cur ▸ h.idleThread, h.cur.symm⟩]
  have hstep : step mlfqsConfig 1 k .timer = some k₂ := by
    rw [step_interrupt rfl, if_pos hon]
    show (timerHandler mlfqsConfig 1 k).bind _ = _
    rw [h₁]
    exact h₂
  refine ⟨k', .head ⟨.timer, 1, ⟨h.countsTo hm A.nodup _, h.few.trans (by norm_num)⟩, hstep⟩ hrun,
    H, ?_, G.intrOn, G.ticks.trans T.ticks, G.allList.trans T.allList, G.nextThread.trans hn₁,
    (G.nice t).trans (T.nice t ht), fun hT => ?_, fun h4 => ?_⟩
  · rw [G.stack, hs₁, hhalt]
  · rw [G.recentCpu, T.recentCpu t ht (.inl hT), hcpu]
  · obtain ⟨k₃, k₄, b', ht₃, hw, -, hl, -⟩ := timerHandler_cases h₁
    have hc : (k₄.thr t).recentCpu = fpAddInt (k.thr t).recentCpu 1 := by
      rw [hw.recentCpu, ht₃.thr, ← hcpu]
    have hn : (k₄.thr t).nice = (k.thr t).nice := by
      rw [hw.nice, ht₃.thr]
    have h4' : k₄.ticks % 4 = 0 := by
      rw [hw.ticks, ht₃.ticks]
      exact h4
    have hall : k₄.allList = k.allList := hw.allList.trans ht₃.allList
    have hidle : k₄.idleThread ≠ some t := by
      rw [hw.idleThread, ht₃.idleThread]
      exact h.idleThread
    obtain ⟨-, -, hp⟩ := timerMlfqs_spec hm h4' (hall ▸ A.nodup) hl
    rw [G.priority, (hp t (hall ▸ ht) hidle).1, hc, hn]

/-! ### One creation -/

/-- Thread `u` has been created with `recent_cpu` `r` by thread `t`, which runs and is as low in
priority. -/
structure Child (t u : ThreadPtr) (r : ℤ) (k : Kernel) : Prop where
  cur : k.cur = t
  ne : u ≠ t
  lt : u < k.nextThread
  idleThread : k.idleThread ≠ some u
  stack : k.stack u = [.kernelThread]
  nice : (k.thr u).nice = 20
  recentCpu : (k.thr u).recentCpu = r
  listed : u ∈ k.allList
  sleepList : k.sleepList = []
  load_nonneg : 0 ≤ k.loadAvg
  load_le : k.loadAvg ≤ 1 * fpOne
  priority : (k.thr t).priority = 0
  creator : t ∈ k.allList
  few : k.allList.length ≤ 3

/-- `init_thread` links the new thread, and `thread_create` gives it its number. -/
theorem Alone.createLink {r : ℤ} (h : Alone t k) (hr : LoneRun (boot mlfqsConfig) k)
    (hst : k.stack t = [.threadCreateLink 63 .user 20 r]) (hp : (k.thr t).priority = 0)
    (ht : t ∈ k.allList) :
    ∃ k', LoneRun k k' ∧ Child t k.nextThread r k' ∧
      (k'.thr k.nextThread).status = .blocked ∧ QueuesHold k' (fun _ => []) ∧
      k'.stack t = [.threadCreateUnblock k.nextThread] ∧ k'.ticks = k.ticks := by
  have hlt : k.cur < k.nextThread := (Reachable.anySync hr).2
  rw [h.cur] at hlt
  have hne : k.nextThread ≠ t := fun e => lt_irrefl _ (e ▸ hlt)
  have hidle : k.idleThread ≠ some k.nextThread := by
    intro hi
    obtain ⟨e, h1, -⟩ := (Reachable.control hr).inv.idleThread _ hi
    exact absurd h1 (by rw [← e]; exact lt_irrefl _)
  obtain ⟨k₁, hk₁⟩ : ∃ k₁, k₁ = { (linkThread mlfqsConfig (popFrame k []) 63 .user 20 r).push
      (.threadCreateTid k.nextThread k.nextTid) with nextTid := toInt32 (k.nextTid + 1) } :=
    ⟨_, rfl⟩
  have h₁ : step mlfqsConfig 0 k .run = some k₁ := by
    rw [step, h.cur, hst, hk₁]
    rfl
  have hst₁ : k₁.stack k₁.cur = [.threadCreateTid k.nextThread k.nextTid] := by
    simp [hk₁, linkThread, popFrame, h.cur, hne.symm]
  obtain ⟨k₂, hk₂⟩ : ∃ k₂, k₂ = (((popFrame k₁ []).modify k.nextThread
      fun th => { th with tid := k.nextTid }).record (.tid k.nextThread k.nextTid)).push
        (.threadCreateUnblock k.nextThread) :=
    ⟨_, rfl⟩
  have h₂ : step mlfqsConfig 0 k₁ .run = some k₂ := by
    rw [step, hst₁, hk₂]
    rfl
  have hall₁ : k₁.allList = k.allList ++ [k.nextThread] := by
    rw [hk₁]
    rfl
  have hall : k₂.allList = k.allList ++ [k.nextThread] := by
    rw [hk₂]
    exact hall₁
  have hfew : (k.allList ++ [k.nextThread]).length ≤ 3 := by
    rw [List.length_append, List.length_singleton]
    exact Nat.succ_le_succ h.few
  refine ⟨k₂, (LoneRun.run (h.few.trans (by norm_num)) h₁).trans (.run (hall₁ ▸ hfew) h₂), ?_, ?_,
    h.queues.congr ?_, ?_, ?_⟩
  · have hthr : k₂.thr t = k.thr t ∧ k₂.thr k.nextThread =
        { initThread mlfqsConfig 63 20 r with tid := k.nextTid } := by
      simp [hk₂, hk₁, linkThread, popFrame, Kernel.modify, hne.symm]
    have hstk : k₂.stack k.nextThread = [.kernelThread] := by
      simp [hk₂, hk₁, linkThread, popFrame, h.cur, hne, Entry.stack]
    refine ⟨?_, hne, ?_, ?_, hstk, ?_, ?_, ?_, ?_, ?_, ?_, ?_, ?_, hall ▸ hfew⟩
    · simp [hk₂, hk₁, linkThread, popFrame, h.cur]
    · simp [hk₂, hk₁, linkThread, popFrame]
    · simpa [hk₂, hk₁, linkThread, popFrame] using hidle
    · rw [hthr.2]
      rfl
    · rw [hthr.2]
      rfl
    · rw [hall]
      exact List.mem_append_right _ (List.mem_singleton_self _)
    · simpa [hk₂, hk₁, linkThread, popFrame] using h.sleepList
    · simpa [hk₂, hk₁, linkThread, popFrame] using h.load_nonneg
    · simpa [hk₂, hk₁, linkThread, popFrame] using h.load_le
    · rw [hthr.1, hp]
    · rw [hall]
      exact List.mem_append_left _ ht
  · simp [hk₂, hk₁, linkThread, popFrame, initThread]
  · simp [hk₂, hk₁, linkThread, popFrame]
  · simp [hk₂, hk₁, linkThread, popFrame, h.cur]
  · simp [hk₂, hk₁, linkThread, popFrame]

/-- The new thread enters the queue of priority 0, and the check finds nothing above the priority
of its creator. -/
theorem Child.unblock {r : ℤ} (h : Child t u r k) (hb : (k.thr u).status = .blocked)
    (H : QueuesHold k fun _ => []) (hst : k.stack t = [.threadCreateUnblock u])
    (hf : formulaPriority r 20 = 0) :
    ∃ k', LoneRun k k' ∧ Child t u r k' ∧ QueuesHold k' (oneQueued 0 u) ∧ k'.stack t = [] ∧
      (k'.thr u).priority = 0 ∧ k'.ticks = k.ticks := by
  -- thread_unblock computes the priority once more
  obtain ⟨k₀, hk₀⟩ : ∃ k₀, k₀ = ((popFrame k []).modify u fun th =>
      { th with status := .ready }).record (.unblock u) := ⟨_, rfl⟩
  have hpri : mlfqsPriority (k₀.thr u).recentCpu (k₀.thr u).nice = 0 := by
    rw [mlfqsPriority_eq_formulaPriority]
    simpa [hk₀, popFrame, h.nice, h.recentCpu] using hf
  obtain ⟨k₁, hk₁⟩ : ∃ k₁, k₁ = k₀.modify u fun th => { th with priority := 0, computed := 0 } :=
    ⟨_, rfl⟩
  have hup : mlfqsUpdatePriority k₀ u = k₁ := by
    have hi : k₀.idleThread ≠ some u := by
      rw [hk₀]
      exact h.idleThread
    rw [mlfqsUpdatePriority, if_neg hi, hk₁]
    simp only [Kernel.modify, hpri]
  have H₁ : QueuesHold k₁ fun _ => [] := H.congr (by rw [hk₁, hk₀]; rfl)
  obtain ⟨e, ev, he, H₂⟩ := H₁.insert (p := 0) (t := u) (by norm_num) (by simp [hk₁])
  obtain ⟨k₂, hk₂⟩ : ∃ k₂, k₂ =
      ({ k₁.setElems e with log := ev } : Kernel).push (.mlfqsCheckPreemption 64) := ⟨_, rfl⟩
  have hstep : step mlfqsConfig 0 k .run = some k₂ := by
    have hguard : isThread (popFrame k []) u ∧ ((popFrame k []).thr u).status = .blocked :=
      ⟨h.lt, hb⟩
    have hu : threadUnblock mlfqsConfig 0 (popFrame k []) u =
        some { k₁.setElems e with log := ev } := by
      rw [threadUnblock, if_pos hguard]
      show mlfqsInsert (mlfqsUpdatePriority _ u) u = _
      rw [← hk₀, hup, he]
    rw [step, h.cur, hst]
    show (threadUnblock mlfqsConfig 0 (popFrame k []) u).map _ = _
    rw [hu, hk₂]
    rfl
  -- the loop of mlfqs_check_preemption
  have hcur : k₂.cur = t := by
    rw [hk₂, hk₁, hk₀]
    exact h.cur
  have hthr : k₂.thr t = k.thr t ∧ k₂.thr u =
      { k.thr u with status := .ready, priority := 0, computed := 0 } := by
    simp [hk₂, hk₁, hk₀, popFrame, Kernel.setElems, h.ne.symm]
  have hst₂ : k₂.stack k₂.cur = [.mlfqsCheckPreemption 64] := by
    simp [hk₂, hk₁, hk₀, popFrame, Kernel.setElems, h.cur]
  have hno : mlfqsCheckPreemptionIntr k₂ = false := by
    have H₃ : QueuesHold k₂ (oneQueued 0 u) := H₂.congr (by rw [hk₂]; rfl)
    rw [mlfqsCheckPreemptionIntr, H₃.highest_one (by norm_num), hcur, hthr.1, h.priority]
    rfl
  have hfew : k₂.allList.length ≤ 3 := by
    rw [hk₂, hk₁, hk₀]
    exact h.few
  have hloop : LoneRun k₂ _ := mlfqsCheckPreemption_yields
    (fun _ _ h => ⟨.run, 0, ⟨(by rintro ⟨⟩), hfew⟩, h⟩) hst₂
  rw [hno] at hloop
  refine ⟨_, (LoneRun.run h.few hstep).trans hloop, ?_, H₂.congr ?_, ?_, ?_, ?_⟩
  · refine ⟨hcur, h.ne, ?_, ?_, ?_, ?_, ?_, ?_, ?_, ?_, ?_, ?_, ?_, hfew⟩
    · simpa [hk₂, hk₁, hk₀, popFrame, Kernel.setElems] using h.lt
    · simpa [hk₂, hk₁, hk₀, popFrame, Kernel.setElems] using h.idleThread
    · simpa [hk₂, hk₁, hk₀, popFrame, Kernel.setElems, h.cur, h.ne] using h.stack
    · show (k₂.thr u).nice = 20
      rw [hthr.2]
      exact h.nice
    · show (k₂.thr u).recentCpu = r
      rw [hthr.2]
      exact h.recentCpu
    · simpa [hk₂, hk₁, hk₀, popFrame, Kernel.setElems] using h.listed
    · simpa [hk₂, hk₁, hk₀, popFrame, Kernel.setElems] using h.sleepList
    · simpa [hk₂, hk₁, hk₀, popFrame, Kernel.setElems] using h.load_nonneg
    · simpa [hk₂, hk₁, hk₀, popFrame, Kernel.setElems] using h.load_le
    · show (k₂.thr t).priority = 0
      rw [hthr.1]
      exact h.priority
    · simpa [hk₂, hk₁, hk₀, popFrame, Kernel.setElems] using h.creator
  · simp [hk₂, popFrame]
  · simp [popFrame, hcur]
  · show (k₂.thr u).priority = 0
    rw [hthr.2]
  · simp [hk₂, hk₁, hk₀, popFrame, Kernel.setElems]

/-- The creator exits, and the new thread is all there is to run. -/
theorem Child.exit {r : ℤ} (h : Child t u r k) (H : QueuesHold k (oneQueued 0 u))
    (hst : k.stack t = []) (hp : (k.thr u).priority = 0) :
    ∃ k', LoneRun k k' ∧ Alone u k' ∧ k'.stack u = [] ∧ k'.intrOn = true ∧ u ∈ k'.allList ∧
      (k'.thr u).recentCpu = r ∧ (k'.thr u).nice = 20 ∧ k'.ticks = k.ticks := by
  have hcall : step mlfqsConfig 0 k (.call .threadExit) = some (k.push .threadExit) := by
    rw [step, h.cur, if_pos hst]
    rfl
  obtain ⟨k₀, hk₀⟩ : ∃ k₀, k₀ = ({ popFrame (k.push .threadExit) [] with
      intrOn := false, allList := k.allList.erase t } : Kernel).modify t
        fun th => { th with status := .dying } := ⟨_, rfl⟩
  have H₀ : QueuesHold k₀ (oneQueued 0 u) := H.congr (by rw [hk₀]; rfl)
  obtain ⟨e, he, H₁⟩ : ∃ e, nextThreadToRun mlfqsConfig k₀ = some (u, e) ∧ _ :=
    H₀.next rfl (by norm_num)
  obtain ⟨k₁, hk₁⟩ : ∃ k₁, k₁ = threadScheduleTail
      (({ k₀ with elems := e, cur := u } : Kernel).record (.dispatch u)) := ⟨_, rfl⟩
  have hexit : step mlfqsConfig 0 (k.push .threadExit) .run = some k₁ := by
    have hguard : k₀.intrOn = false ∧ (k₀.thr k₀.cur).status ≠ .running ∧ isThread k₀ u := by
      rw [hk₀]
      refine ⟨rfl, ?_, h.lt⟩
      simp [popFrame, h.cur]
    have hsch : exitCurrent mlfqsConfig (popFrame (k.push .threadExit) []) = some k₁ := by
      have hk : ({ popFrame (k.push .threadExit) [] with
          intrOn := false, allList := k.allList.erase k.cur } : Kernel).modify k.cur
            (fun th => { th with status := .dying }) = k₀ := by
        rw [hk₀, h.cur]
      rw [exitCurrent]
      show schedule mlfqsConfig (Kernel.modify { popFrame (k.push .threadExit) [] with
          intrOn := false, allList := k.allList.erase k.cur } k.cur
            fun th => { th with status := .dying }) = some k₁
      rw [hk, schedule, he, Option.bind_eq_bind, Option.bind_some]
      show (if _ then _ else none) = _
      rw [if_pos hguard, hk₁]
    rw [step]
    simp only [Kernel.push_stack, Kernel.push_cur, Function.update_self, h.cur, hst]
    exact hsch
  have hcur : k₁.cur = u := by
    rw [hk₁]
    rfl
  have hthr : k₁.thr u = { k.thr u with status := .running } := by
    simp [hk₁, hk₀, threadScheduleTail, popFrame, h.ne]
  have hst₁ : k₁.stack k₁.cur = [.kernelThread] := by
    rw [hcur, ← h.stack]
    simp [hk₁, hk₀, threadScheduleTail, popFrame, h.cur, h.ne]
  have hfew : k₁.allList.length ≤ 2 := by
    have hlen := List.length_erase_of_mem h.creator
    have h3 := h.few
    rw [hk₁, hk₀]
    show (k.allList.erase t).length ≤ 2
    omega
  have hrun : step mlfqsConfig 0 k₁ .run = some ((popFrame k₁ []).setLevel true) := by
    rw [step, hst₁]
    rfl
  refine ⟨_, ((LoneRun.call h.few hcall).trans (.run h.few hexit)).trans
    (.run (hfew.trans (by norm_num)) hrun), ?_, ?_, rfl, ?_, ?_, ?_, ?_⟩
  · refine ⟨hcur, ?_, H₁.congr (by rw [hk₁]; rfl), ?_, ?_, ?_, ?_, ?_, hfew⟩
    · simpa [hk₁, hk₀, threadScheduleTail, popFrame] using h.idleThread
    · simpa [hk₁, hk₀, threadScheduleTail, popFrame] using h.sleepList
    · simpa [hk₁, hk₀, threadScheduleTail, popFrame] using h.load_nonneg
    · simpa [hk₁, hk₀, threadScheduleTail, popFrame] using h.load_le
    · show priMin ≤ (k₁.thr u).priority
      rw [hthr]
      exact hp.ge
    · show (k₁.thr u).priority ≤ priMax
      rw [hthr]
      exact hp.trans_le (by decide)
  · simp [popFrame, hcur]
  · have hmem : u ∈ k.allList.erase t := (List.mem_erase_of_ne h.ne).mpr h.listed
    simpa [hk₁, hk₀, threadScheduleTail, popFrame] using hmem
  · show (k₁.thr u).recentCpu = r
    rw [hthr]
    exact h.recentCpu
  · show (k₁.thr u).nice = 20
    rw [hthr]
    exact h.nice
  · simp [hk₁, hk₀, threadScheduleTail, popFrame]

/-! ### Second after second -/

/-- Thread `t` has come to `ticks` with `recent_cpu` `r`, alone and with the greatest nice value;
its stack is `fs`. -/
structure Lone (t : ThreadPtr) (fs : List Frame) (ticks r : ℤ) (k : Kernel) : Prop where
  run : LoneRun (boot mlfqsConfig) k
  alone : Alone t k
  stack : k.stack t = fs
  intrOn : k.intrOn = true
  listed : t ∈ k.allList
  nice : (k.thr t).nice = 20
  ticks : k.ticks = ticks
  recentCpu : (k.thr t).recentCpu = r

variable {ticks r : ℤ}

theorem fpAddInt_one (h : InInt32 (r + fpOne)) : fpAddInt r 1 = r + fpOne := by
  have hone : toInt32 (1 * fpOne) = fpOne := by decide
  rw [fpAddInt, hone, toInt32_of_inInt32 h]

theorem Lone.tick (h : Lone t fs ticks r k) (hfs : ∀ gs, fs ≠ .idleHalt :: gs)
    (hT : (ticks + 1) % timerFreq ≠ 0) (hfit : InInt32 (r + fpOne)) :
    ∃ k', Lone t fs (ticks + 1) (r + fpOne) k' := by
  obtain ⟨k', K⟩ := h.alone.tick h.run h.intrOn h.listed (h.stack ▸ hfs)
  refine ⟨k', h.run.trans K.run, K.alone, K.stack ▸ h.stack, K.intrOn, K.allList ▸ h.listed,
    K.nice.trans h.nice, ?_, ?_⟩
  · rw [K.ticks, h.ticks]
  · rw [K.recentCpu (by rw [h.ticks]; exact hT), h.recentCpu, fpAddInt_one hfit]

/-- The ticks before the last one of a second. -/
theorem Lone.ticks_lt (h : Lone t [] ticks r k) (hT : ticks % timerFreq = 0)
    (h0 : 0 ≤ r) (h1 : r ≤ 99 * 1000 * fpOne) : ∀ n : ℕ, n ≤ 99 →
      ∃ k', Lone t [] (ticks + n) (r + n * fpOne) k'
  | 0, _ => ⟨k, by simpa using h⟩
  | n + 1, hn => by
      obtain ⟨k₁, K⟩ := h.ticks_lt hT h0 h1 n (by omega)
      have hF : fpOne = 16384 := rfl
      have hfreq : timerFreq = 100 := rfl
      have hlast : (ticks + n + 1) % timerFreq ≠ 0 := by
        rw [hfreq] at hT ⊢
        omega
      have hfit : InInt32 (r + n * fpOne + fpOne) := by
        rw [hF] at h1 ⊢
        constructor <;> omega
      obtain ⟨k', K'⟩ := K.tick nofun hlast hfit
      have hr : r + n * fpOne + fpOne = r + (n + 1 : ℕ) * fpOne := by
        push_cast
        ring
      have ht : ticks + n + 1 = ticks + (n + 1 : ℕ) := by
        push_cast
        ring
      exact ⟨k', hr ▸ ht ▸ K'⟩

/-- `init_thread` has read the creator's `recent_cpu`. -/
theorem Lone.create (h : Lone t [] ticks r k) :
    ∃ k', Lone t [.threadCreateLink 63 .user 20 r] ticks r k' := by
  obtain ⟨k', hk'⟩ : ∃ k', k' = popFrame k [.threadCreateLink 63 .user 20 r] := ⟨_, rfl⟩
  have hcall : step mlfqsConfig 0 k (.call (.threadCreate 63)) =
      some (k.push (.threadCreate 63 .user)) := by
    rw [step, h.alone.cur, if_pos h.stack]
    rfl
  have hrun : step mlfqsConfig 0 (k.push (.threadCreate 63 .user)) .run = some k' := by
    have hpage : ∀ log, mlfqsConfig.palloc log = true := fun _ => rfl
    simp [step, exec, popFrame, Kernel.push, h.alone.cur, h.stack, priMin, priMax, h.nice,
      h.recentCpu, hk', hpage]
  rw [hk'] at hrun
  have hfew : k.allList.length ≤ 3 := h.alone.few.trans (by norm_num)
  refine ⟨_, (h.run.trans (.call hfew hcall)).trans (.run hfew hrun),
    h.alone.congr rfl rfl rfl rfl rfl rfl rfl, ?_, h.intrOn, h.listed, h.nice, h.ticks, h.recentCpu⟩
  simp [popFrame, h.alone.cur]

/-- **One second**: the thread hands down what it has run for. -/
theorem Lone.second (h : Lone t [] ticks r k) (hT : ticks % timerFreq = 0)
    (h0 : 0 ≤ r) (h1 : r ≤ 99 * 1000 * fpOne) :
    ∃ u k', Lone u [] (ticks + 100) (r + 99 * fpOne) k' := by
  have hF : fpOne = 16384 := rfl
  have hfreq : timerFreq = 100 := rfl
  obtain ⟨k₁, K₁⟩ := h.ticks_lt hT h0 h1 99 le_rfl
  obtain ⟨k₂, K₂⟩ := K₁.create
  -- the tick that ends the second comes before the new thread is listed
  obtain ⟨k₃, K₃⟩ := K₂.alone.tick K₂.run K₂.intrOn K₂.listed (K₂.stack ▸ nofun)
  have hr₃ := K₂.run.trans K₃.run
  have hlow : ∀ c, 92 * fpOne ≤ c → formulaPriority c 20 = 0 := by
    intro c hc
    rw [hF] at hc
    have hdiv : c.tdiv (4 * fpOne) = c / 65536 := Int.tdiv_eq_ediv_of_nonneg (by omega)
    rw [formulaPriority, hdiv, priMin, priMax]
    omega
  have hlow₁ : formulaPriority (r + 99 * fpOne) 20 = 0 := hlow _ (by rw [hF]; omega)
  have hp₃ : (k₃.thr t).priority = 0 := by
    have h4 : (k₂.ticks + 1) % 4 = 0 := by
      rw [K₂.ticks]
      rw [hfreq] at hT
      push_cast
      omega
    have hfit : InInt32 (r + (99 : ℕ) * fpOne + fpOne) := by
      rw [hF] at h1 ⊢
      push_cast
      constructor <;> omega
    rw [K₃.priority h4, K₂.recentCpu, K₂.nice, fpAddInt_one hfit]
    refine hlow _ ?_
    rw [hF]
    push_cast
    omega
  obtain ⟨k₄, hr₄, C, hb, H, hst₄, ht₄⟩ := K₃.alone.createLink hr₃ (K₃.stack ▸ K₂.stack) hp₃
    (K₃.allList ▸ K₂.listed)
  obtain ⟨k₅, hr₅, C, H, hst₅, hp₅, ht₅⟩ := C.unblock hb H hst₄ hlow₁
  obtain ⟨k₆, hr₆, A, hst₆, hon, hl, hc, hn, ht₆⟩ := C.exit H hst₅ hp₅
  refine ⟨_, k₆, ((hr₃.trans hr₄).trans hr₅).trans hr₆, A, hst₆, hon, hl, hn, ?_, hc⟩
  rw [ht₆, ht₅, ht₄, K₃.ticks, K₂.ticks]
  push_cast
  ring

/-- After each second. -/
theorem Lone.seconds (h : Lone t [] 0 0 k) : ∀ j : ℕ, j ≤ 1000 →
    ∃ u k', Lone u [] (100 * j) (99 * j * fpOne) k'
  | 0, _ => ⟨t, k, by simpa using h⟩
  | j + 1, hj => by
      obtain ⟨u, k₁, K⟩ := h.seconds j (by omega)
      have hF : fpOne = 16384 := rfl
      have hfreq : timerFreq = 100 := rfl
      obtain ⟨u', k', K'⟩ := K.second (by rw [hfreq]; omega) (by rw [hF]; omega)
        (by rw [hF]; omega)
      have hr : 99 * j * fpOne + 99 * fpOne = 99 * (j + 1 : ℕ) * fpOne := by
        push_cast
        ring
      have ht : (100 : ℤ) * j + 100 = 100 * (j + 1 : ℕ) := by
        push_cast
        ring
      exact ⟨u', k', hr ▸ ht ▸ K'⟩

/-- What makes the initial thread the only one to run, as a test. -/
def aloneTest (k : Kernel) : Bool :=
  decide (k.cur = 0) && decide (k.idleThread = some 1) && decide (k.sleepList = []) &&
    decide (0 ≤ k.loadAvg ∧ k.loadAvg ≤ 1 * fpOne) && decide (k.allList = [0, 1]) &&
    decide (priMin ≤ (k.thr 0).priority ∧ (k.thr 0).priority ≤ priMax) &&
    (List.range 64).all fun i =>
      decide (k.elems.next (.head (.mlfqsList i)) = some (.tail (.mlfqsList i))) &&
      decide (k.elems.prev (.tail (.mlfqsList i)) = some (.head (.mlfqsList i))) &&
      decide (k.elems.prev (.head (.mlfqsList i)) = none) &&
      decide (k.elems.next (.tail (.mlfqsList i)) = none)

theorem alone_of_test (h : aloneTest k = true) : Alone 0 k ∧ k.allList = [0, 1] := by
  simp only [aloneTest, Bool.and_eq_true, decide_eq_true_eq, List.all_eq_true,
    List.mem_range] at h
  obtain ⟨⟨⟨⟨⟨⟨hc, hi⟩, hs⟩, hl⟩, hall⟩, hp⟩, hq⟩ := h
  refine ⟨⟨hc, by rw [hi]; rintro ⟨⟩, ⟨fun i hlt => ?_, ?_⟩, hs, hl.1, hl.2, hp.1, hp.2, ?_⟩, hall⟩
  · obtain ⟨⟨⟨h1, h2⟩, h3⟩, h4⟩ := hq i hlt
    exact ⟨⟨h1, h2⟩, h3, h4, List.nodup_nil⟩
  · rw [queuedThreads_nil]
    exact List.nodup_nil
  · rw [hall]
    decide

/-- The initial thread, in its own code before the first tick, has called `thread_set_nice (20)`. -/
def niceLabels : List Label :=
  List.replicate 48 Label.run ++ .call (.threadSetNice 20) :: List.replicate 69 Label.run

theorem exists_lone : ∃ k, Lone 0 [] 0 0 k := by
  obtain ⟨k, hr, h⟩ := exists_reachable mlfqsConfig 1
    (fun k lab => lab ≠ .timer ∧ k.allList.length ≤ 3) niceLabels
    (fun k => aloneTest k && decide (k.stack 0 = [] ∧ k.intrOn = true ∧ k.ticks = 0 ∧
      (k.thr 0).nice = 20 ∧ (k.thr 0).recentCpu = 0)) (by decide +kernel)
  simp only [Bool.and_eq_true, decide_eq_true_eq] at h
  obtain ⟨ha, hst, hon, ht, hn, hr₀⟩ := h
  obtain ⟨ha, hall⟩ := alone_of_test ha
  have hrun : LoneRun (boot mlfqsConfig) k :=
    Reachable.mono (fun _ _ _ hlab => ⟨fun e => absurd e hlab.1, hlab.2⟩) hr
  refine ⟨k, hrun, ha, hst, hon, ?_, hn, ht, hr₀⟩
  rw [hall]
  exact List.mem_cons_self

/-- **A stale `recent_cpu`**: after any number of seconds there is a thread that has not run at all
and has, as its `recent_cpu`, the ticks that were counted in all of them but for one a second. -/
theorem stale_recent_cpu {j : ℕ} (hj : j ≤ 1000) :
    ∃ k, Reachable mlfqsConfig Label.Lone k ∧
      k.cur ∈ k.allList ∧ (k.thr k.cur).recentCpu = 99 * j * fpOne := by
  obtain ⟨k, h⟩ := exists_lone
  obtain ⟨t, k', h'⟩ := h.seconds j hj
  refine ⟨k', h'.run, ?_, ?_⟩ <;> rw [h'.alone.cur]
  · exact h'.listed
  · exact h'.recentCpu

/-! ### The bounds -/

/-- **`recent_cpu` is bounded**: in a run in which at most `N` threads are ready whenever a second
ends, and in which no second ends while a thread is being created, every `recent_cpu` stays within
the bounds, and the handler of the timer interrupt computes without an overflow. -/
theorem recent_cpu_bounded {N : ℕ} (hm : cfg.mlfqs = true) (hN : N ≤ 545)
    (hok : ∀ k lab, ok k lab → lab.CountsTo cfg N k ∧ lab.CreatesWhole k)
    (h : Reachable cfg ok k) :
    (∀ t ∈ k.allList, -20 * (2 * N + 1) * fpOne ≤ (k.thr t).recentCpu ∧
      (k.thr t).recentCpu ≤ 120 * (2 * N + 1) * fpOne) ∧
    ∀ fuel k' b, ok k .timer → timerHandler cfg fuel k = some (k', b) →
      UpdatesExactly cfg fuel k k' := by
  have H : CpuInv N k := h.cpuInv hm hN hok
  refine ⟨fun t ht => ?_, fun fuel k' b hlab hh => ?_⟩
  · have Ht := H.listed t ht
    exact ⟨Ht.cpuMin_le, Ht.le_cpuNow.trans (cpuNow_le N _)⟩
  · exact H.updatesExactly hm hN h.allListOk.nodup (hok k .timer hlab).1 hh

/-- Listed threads run, and the initial thread is alone whenever a second ends. -/
def Label.Solo (k : Kernel) : Label → Prop
  | .timer => (k.ticks + 1) % timerFreq = 0 → aloneTest k = true ∧
      k.nextThread = 2 ∧ k.stack 0 = [] ∧ k.stack 1 = [.idleResume]
  | .run => k.cur ∈ k.allList
  | _ => False

instance (k : Kernel) : DecidablePred (Label.Solo k)
  | .timer => inferInstanceAs (Decidable (_ → _))
  | .run => inferInstanceAs (Decidable (_ ∈ _))
  | .call _ | .semaUp _ | .semaTryDown _ => inferInstanceAs (Decidable False)

theorem Label.Solo.counts {lab : Label} (hr : Reachable mlfqsConfig Label.Solo k)
    (h : Label.Solo k lab) : lab.CountsTo mlfqsConfig 1 k ∧ lab.CreatesWhole k := by
  cases lab with
  | timer =>
      refine ⟨fun e hT => ?_, fun hT v p e n r hv => ?_⟩
      · obtain ⟨ha, hall⟩ := alone_of_test (h hT).1
        exact ha.countsTo rfl (by rw [hall]; decide) .timer e hT
      · obtain ⟨-, hn, h0, h1⟩ := h hT
        rcases v with - | v
        · rw [h0] at hv
          cases hv
        · rcases v with - | v
          · rw [h1] at hv
            rcases List.mem_singleton.mp hv with ⟨⟩
          · have hb : k.stack (v + 2) = [] :=
              (Reachable.control hr).inv.unborn _ (hn.trans_le (Nat.le_add_left 2 v))
            rw [hb] at hv
            cases hv
  | run => exact ⟨by rintro ⟨⟩, fun _ _ _ _ => h⟩
  | _ => cases h

/-- The initial thread runs alone for two seconds.  The second decay is by `2 / 62`, to a
`recent_cpu` of 3.22. -/
theorem recent_cpu_bounded_two : ∃ k k' b,
    timerHandler mlfqsConfig 70 k = some (k', b) ∧ k'.ticks = 200 ∧
      ((k.thr 0).recentCpu = 99 * fpOne ∧ (k'.thr 0).recentCpu = 52800) ∧
      (-20 * (2 * (1 : ℕ) + 1) * fpOne ≤ (k.thr 0).recentCpu ∧
        (k.thr 0).recentCpu ≤ 120 * (2 * (1 : ℕ) + 1) * fpOne) ∧
      UpdatesExactly mlfqsConfig 70 k k' := by
  obtain ⟨k, hr, h⟩ := exists_reachable mlfqsConfig 70 Label.Solo (tickLabels 49)
    (fun k => decide (Label.Solo k .timer ∧ 0 ∈ k.allList ∧ (k.thr 0).recentCpu = 99 * fpOne) &&
      (timerHandler mlfqsConfig 70 k).any fun r => r.1.ticks = 200 ∧
        (r.1.thr 0).recentCpu = 52800) (by decide +kernel)
  obtain ⟨h, hh⟩ := Bool.and_eq_true_iff.mp h
  obtain ⟨hsolo, hmem, hcpu⟩ := of_decide_eq_true h
  obtain ⟨⟨k', b⟩, hh, hp⟩ := (Option.any_eq_true _ _).mp hh
  obtain ⟨ht, hcpu'⟩ := of_decide_eq_true hp
  have hr' : Reachable mlfqsConfig
      (fun k lab => lab.CountsTo mlfqsConfig 1 k ∧ lab.CreatesWhole k) k :=
    hr.mono fun _ _ hr hlab => hlab.counts hr
  obtain ⟨hb, hu⟩ := recent_cpu_bounded (N := 1) rfl (by norm_num) (fun _ _ h => h) hr'
  exact ⟨k, k', b, hh, ht, ⟨hcpu, hcpu'⟩, hb 0 hmem, hu 70 k' b (hsolo.counts hr) hh⟩

/-- Four seconds are enough: with one thread ready the bound is 360 ticks, and the stale value is
that of 396. -/
theorem recent_cpu_unbounded : ¬ ∀ (N : ℕ) (k : Kernel), N ≤ 545 →
    Reachable mlfqsConfig (fun k lab => lab.CountsTo mlfqsConfig N k) k →
      ∀ t ∈ k.allList, -20 * (2 * N + 1) * fpOne ≤ (k.thr t).recentCpu ∧
        (k.thr t).recentCpu ≤ 120 * (2 * N + 1) * fpOne := by
  intro h
  obtain ⟨k, hr, hc, hcpu⟩ := stale_recent_cpu (j := 4) (by norm_num)
  have hr : Reachable mlfqsConfig (fun k lab => lab.CountsTo mlfqsConfig 1 k) k :=
    Relation.ReflTransGen.mono (fun k k' ⟨lab, fuel, hlab, h⟩ => ⟨lab, fuel, hlab.1, h⟩) _ _ hr
  obtain ⟨-, h1⟩ := h 1 k (by norm_num) hr k.cur hc
  rw [hcpu] at h1
  exact absurd h1 (by decide)

end Pintos
