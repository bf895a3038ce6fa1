/-
PintosThreads/TimerHandler.lean

The handler of the timer interrupt: which threads it wakes, whether it asks for
a yield, and which priorities it leaves behind.

`timer_wakeup` unblocks the threads in front of the sleep list whose time has
come (`Awakened`).  Nothing follows it that looks at the priorities of these
threads: the yield on return is asked for by `thread_tick` alone, at the end of
a time slice.  In the MLFQS the priorities are computed every four ticks, and
once a second the values they are computed from are changed after that.
-/
import PintosThreads.InterruptQueues
import PintosThreads.Writes
import PintosThreads.Runs

namespace Pintos

open Intrusive

variable {cfg : Config} {fuel : ℕ} {srt : Prop} {k k₁ k' : Kernel} {b : Bool}

/-! ### Waking the sleepers -/

/-- The sleeper is due at tick `now`. -/
def Due (k : Kernel) (now : ℤ) (t : ThreadPtr) : Bool :=
  (k.thr t).wakeupTick ≤ now

/-- Exactly the threads `ts` have been unblocked, in this order. -/
structure Awakened (cfg : Config) (ts : List ThreadPtr) (k k' : Kernel) : Prop where
  blocked : ∀ t ∈ ts, (k.thr t).status = .blocked
  status : ∀ u, (k'.thr u).status = if u ∈ ts then .ready else (k.thr u).status
  wakeupTick : ∀ u, (k'.thr u).wakeupTick = (k.thr u).wakeupTick
  nice : ∀ u, (k'.thr u).nice = (k.thr u).nice
  recentCpu : ∀ u, (k'.thr u).recentCpu = (k.thr u).recentCpu
  priority : cfg.mlfqs = false → ∀ u, (k'.thr u).priority = (k.thr u).priority
  inReady : cfg.mlfqs = false → ∀ u, k'.elems.InList .readyList u →
    k.elems.InList .readyList u ∨ u ∈ ts
  unblocks : k'.unblocks = ts.reverse ++ k.unblocks
  cur : k'.cur = k.cur
  idleThread : k'.idleThread = k.idleThread
  allList : k'.allList = k.allList
  ticks : k'.ticks = k.ticks
  loadAvg : k'.loadAvg = k.loadAvg

theorem Awakened.nil (h : k'.thr = k.thr) (he : k'.elems = k.elems) (hl : k'.log = k.log)
    (hc : k'.cur = k.cur) (hi : k'.idleThread = k.idleThread) (ha : k'.allList = k.allList)
    (ht : k'.ticks = k.ticks) (hla : k'.loadAvg = k.loadAvg) : Awakened cfg [] k k' := by
  refine ⟨nofun, fun u => ?_, fun u => ?_, fun u => ?_, fun u => ?_, fun _ u => ?_, fun _ u hu => ?_,
    ?_, hc, hi, ha, ht, hla⟩
  · simp [h]
  · rw [h]
  · rw [h]
  · rw [h]
  · rw [h]
  · exact .inl (he ▸ hu)
  · simp [Kernel.unblocks, hl]

theorem Awakened.trans {ts us : List ThreadPtr} (h : Awakened cfg ts k k₁)
    (h' : Awakened cfg us k₁ k') : Awakened cfg (ts ++ us) k k' where
  blocked := by
    intro t ht
    rcases List.mem_append.mp ht with ht | ht
    · exact h.blocked t ht
    · have hb := h'.blocked t ht
      rw [h.status] at hb
      split at hb
      · cases hb
      · exact hb
  status := by
    intro u
    rw [h'.status, h.status]
    by_cases hu : u ∈ us <;> simp [hu]
  wakeupTick := fun u => (h'.wakeupTick u).trans (h.wakeupTick u)
  nice := fun u => (h'.nice u).trans (h.nice u)
  recentCpu := fun u => (h'.recentCpu u).trans (h.recentCpu u)
  priority := fun hm u => (h'.priority hm u).trans (h.priority hm u)
  inReady := by
    intro hm u hu
    rw [List.mem_append]
    rcases h'.inReady hm u hu with hu | hu
    · exact (h.inReady hm u hu).imp id .inl
    · exact .inr (.inr hu)
  unblocks := by simp [h'.unblocks, h.unblocks]
  cur := h'.cur.trans h.cur
  idleThread := h'.idleThread.trans h.idleThread
  allList := h'.allList.trans h.allList
  ticks := h'.ticks.trans h.ticks
  loadAvg := h'.loadAvg.trans h.loadAvg

/-- The thread is marked as ready. -/
theorem Awakened.mark {t : ThreadPtr} (ht : (k.thr t).status = .blocked) :
    Awakened cfg [t] k
      ((k.modify t fun th => { th with status := .ready }).record (.unblock t)) := by
  refine ⟨?_, fun u => ?_, fun u => ?_, fun u => ?_, fun u => ?_, fun _ u => ?_,
    fun _ _ hu => .inl hu, ?_, rfl, rfl, rfl, rfl, rfl⟩
  · simpa using ht
  · obtain rfl | hu := eq_or_ne u t <;> simp [*]
  · obtain rfl | hu := eq_or_ne u t <;> simp [*]
  · obtain rfl | hu := eq_or_ne u t <;> simp [*]
  · obtain rfl | hu := eq_or_ne u t <;> simp [*]
  · obtain rfl | hu := eq_or_ne u t <;> simp [*]
  · simp [Kernel.unblocks, Event.unblocked]

/-- `thread_unblock` wakes its thread. -/
theorem threadUnblock_awakened {t : ThreadPtr} (h : threadUnblock cfg fuel k t = some k') :
    Awakened cfg [t] k k' ∧ k'.sleepList = k.sleepList := by
  refine ⟨?_, (threadUnblock_woken h).sleepList⟩
  unfold threadUnblock at h
  split at h
  case isFalse => cases h
  case isTrue hb =>
    have hw : Awakened cfg [t] k _ := Awakened.mark hb.2
    dsimp only at h
    generalize (k.modify t fun th => { th with status := .ready }).record (.unblock t) = k₁ at hw h
    split at h
    case isTrue hm =>
      -- the MLFQS computes the priority
      obtain ⟨e, rfl⟩ := mlfqsInsert_eq h
      have hthr : ∀ u, ∃ p c, ((mlfqsUpdatePriority k₁ t).thr u) =
          { k₁.thr u with priority := p, computed := c } := fun u => by
        obtain ⟨p, c, he, -⟩ := mlfqsUpdatePriority_thr k₁ t u
        exact ⟨p, c, he⟩
      obtain ⟨thr, hr⟩ := mlfqsUpdatePriority_rest k₁ t
      have hsame : Awakened cfg [] k₁ (((mlfqsUpdatePriority k₁ t).setElems e).record
          (.insert t ((mlfqsUpdatePriority k₁ t).thr t).priority)) := by
        refine ⟨nofun, fun u => ?_, fun u => ?_, fun u => ?_, fun u => ?_,
          fun hf => absurd hm (by simp [hf]), fun hf => absurd hm (by simp [hf]), ?_, ?_, ?_, ?_,
          ?_, ?_⟩
        · obtain ⟨p, c, e⟩ := hthr u
          simp [e]
        · obtain ⟨p, c, e⟩ := hthr u
          simp [e]
        · obtain ⟨p, c, e⟩ := hthr u
          simp [e]
        · obtain ⟨p, c, e⟩ := hthr u
          simp [e]
        all_goals
          rw [hr]
          rfl
      exact hw.trans hsame
    case isFalse hm =>
      obtain ⟨e, he, rfl⟩ := Option.map_eq_some_iff.mp h
      refine ⟨hw.blocked, hw.status, hw.wakeupTick, hw.nice, hw.recentCpu, hw.priority,
        fun hf u hu => ?_, hw.unblocks, hw.cur, hw.idleThread, hw.allList, hw.ticks, hw.loadAvg⟩
      rcases Links.inList_of_insertOrdered he hu with hu | rfl
      · exact hw.inReady hf u hu
      · exact .inr (List.mem_singleton_self u)

/-- **`timer_wakeup`** unblocks the threads in front of the sleep list that are due, and keeps
the others. -/
theorem timerWakeup_awakened {now : ℤ} : ∀ (ts : List ThreadPtr) {k k' : Kernel},
    timerWakeup cfg fuel now ts k = some k' →
    Awakened cfg (ts.takeWhile (Due k now)) k k' ∧ k'.sleepList = ts.dropWhile (Due k now)
  | [], k, k', h => by
      cases h
      exact ⟨.nil rfl rfl rfl rfl rfl rfl rfl rfl, rfl⟩
  | t :: ts, k, k', h => by
      rw [timerWakeup] at h
      split at h
      case isTrue hd =>
        have hd : Due k now t = false := by simpa [Due] using hd
        cases h
        rw [List.takeWhile_cons_of_neg (by simp [hd]), List.dropWhile_cons_of_neg (by simp [hd])]
        exact ⟨.nil rfl rfl rfl rfl rfl rfl rfl rfl, rfl⟩
      case isFalse hd =>
        have hd : Due k now t = true := by simpa [Due] using hd
        obtain ⟨k₁, h₁, h₂⟩ := Option.bind_eq_some_iff.mp h
        obtain ⟨hw, -⟩ := threadUnblock_awakened h₁
        obtain ⟨hws, hsl⟩ := timerWakeup_awakened ts h₂
        have he : Due k₁ now = Due k now := by
          funext u
          simp [Due, hw.wakeupTick u]
        rw [he] at hws hsl
        rw [List.takeWhile_cons_of_pos hd, List.dropWhile_cons_of_pos hd]
        exact ⟨hw.trans hws, hsl⟩

/-! ### What the handler does -/

/-- The `recent_cpu` of a thread after `thread_tick`. -/
def tickedCpu (cfg : Config) (k : Kernel) (u : ThreadPtr) : ℤ :=
  if cfg.mlfqs ∧ k.idleThread ≠ some k.cur ∧ u = k.cur then fpAddInt (k.thr u).recentCpu 1
  else (k.thr u).recentCpu

/-- The kernel when `thread_tick` has returned. -/
structure Ticked (cfg : Config) (k k₁ : Kernel) : Prop where
  thr : ∀ u, k₁.thr u = { k.thr u with recentCpu := tickedCpu cfg k u }
  elems : k₁.elems = k.elems
  sleepList : k₁.sleepList = k.sleepList
  cur : k₁.cur = k.cur
  idleThread : k₁.idleThread = k.idleThread
  allList : k₁.allList = k.allList
  loadAvg : k₁.loadAvg = k.loadAvg
  ticks : k₁.ticks = k.ticks + 1
  log : k₁.log = k.log

theorem ticked_eq (k : Kernel) : ∃ fs, ticked k = { k with
    stack := Function.update k.stack k.cur fs, intrOn := false, ticks := k.ticks + 1 } := by
  obtain ⟨fs, e⟩ := endHalt_eq k
  exact ⟨fs, by rw [ticked, e]; rfl⟩

theorem threadTick_ticked (cfg : Config) (k : Kernel) :
    Ticked cfg k (threadTick cfg (ticked k)).1 ∧
      (threadTick cfg (ticked k)).2 = decide (timeSlice ≤ k.threadTicks + 1) := by
  obtain ⟨fs, e⟩ := ticked_eq k
  rw [e]
  refine ⟨?_, ?_⟩
  · unfold threadTick
    dsimp only
    split
    case isTrue hc =>
      refine ⟨fun u => ?_, rfl, rfl, rfl, rfl, rfl, rfl, rfl, rfl⟩
      obtain rfl | hu := eq_or_ne u k.cur
      · simp [tickedCpu, hc.1, hc.2]
      · simp [tickedCpu, hu]
    case isFalse hc =>
      refine ⟨fun u => ?_, rfl, rfl, rfl, rfl, rfl, rfl, rfl, rfl⟩
      have hn : tickedCpu cfg k u = (k.thr u).recentCpu :=
        if_neg fun h => hc ⟨h.1, h.2.1⟩
      rw [hn]
  · unfold threadTick
    dsimp only
    split <;> rfl

/-- The sleepers that are due at the next tick. -/
def dueSleepers (k : Kernel) : List ThreadPtr :=
  k.sleepList.takeWhile (Due k (k.ticks + 1))

/-- The handler ticks, wakes the sleepers that are due, and goes on with the MLFQS. -/
theorem timerHandler_cases (h : timerHandler cfg fuel k = some (k', b)) :
    ∃ k₁ k₂ b', Ticked cfg k k₁ ∧ Awakened cfg (dueSleepers k) k₁ k₂ ∧
      k₂.sleepList = k.sleepList.dropWhile (Due k (k.ticks + 1)) ∧
        timerMlfqs cfg fuel k₂ = some (k', b') ∧
          b = (decide (timeSlice ≤ k.threadTicks + 1) || b') := by
  obtain ⟨ht, hb⟩ := threadTick_ticked cfg k
  simp only [timerHandler, Option.bind_eq_bind, Option.bind_eq_some_iff] at h
  obtain ⟨k₂, h₂, ⟨k₃, b'⟩, h₃, h⟩ := h
  cases h
  obtain ⟨hw, hsl⟩ := timerWakeup_awakened _ h₂
  have hd : Due (threadTick cfg (ticked k)).1 (threadTick cfg (ticked k)).1.ticks =
      Due k (k.ticks + 1) := by
    funext u
    simp [Due, ht.thr u, ht.ticks]
  rw [ht.sleepList, hd] at hw hsl
  exact ⟨_, k₂, b', ht, hw, hsl, h₃, by rw [hb]⟩

/-! ### What the handler leaves alone -/

theorem SameClock.foldlM {func : Kernel → ThreadPtr → Option Kernel}
    (hf : ∀ k t k', func k t = some k' → SameClock k k') (ts : List ThreadPtr)
    (h : ts.foldlM func k = some k') : SameClock k k' :=
  foldlM_rel (R := SameClock) .refl SameClock.trans hf ts h

theorem SameClock.modify {t : ThreadPtr} {f : Thread → Thread}
    (hf : ∀ th, (f th).wakeupTick = th.wakeupTick) : SameClock k (k.modify t f) := by
  refine ⟨fun u => ?_, rfl, rfl, rfl, rfl⟩
  obtain rfl | hu := eq_or_ne u t <;> simp [*]

theorem reinsertQueues_clock : ∀ (fuel : ℕ) {k k' : Kernel}, reinsertQueues fuel k = some k' →
    SameClock k k'
  | 0, _, _, h => nomatch h
  | fuel + 1, k, k', h => by
      rw [reinsertQueues] at h
      split at h
      · cases h
        exact .refl k
      · obtain ⟨⟨t, e⟩, -, h⟩ := Option.bind_eq_some_iff.mp h
        obtain ⟨k₁, h₁, h⟩ := Option.bind_eq_some_iff.mp h
        obtain ⟨e₁, rfl⟩ := mlfqsInsert_eq h₁
        have hi : SameClock k (((k.setElems e).setElems e₁).record
            (.insert t ((k.setElems e).thr t).priority)) := ⟨fun _ => rfl, rfl, rfl, rfl, rfl⟩
        exact hi.trans (reinsertQueues_clock fuel h)

theorem mlfqsUpdatePriorityAll_clock (h : mlfqsUpdatePriorityAll fuel k = some k') :
    SameClock k k' := by
  obtain ⟨k₁, h₁, h₂⟩ := Option.bind_eq_some_iff.mp h
  obtain ⟨e, -, h₂⟩ := Option.bind_eq_some_iff.mp h₂
  have h₀ : SameClock k k₁ := by
    refine .foldlM (fun k t k' he => ?_) k.allList h₁
    cases he
    unfold mlfqsUpdatePriority
    split
    · exact .refl k
    · exact .modify fun _ => rfl
  have he : SameClock k₁ (k₁.setElems e) := ⟨fun _ => rfl, rfl, rfl, rfl, rfl⟩
  exact h₀.trans (he.trans (reinsertQueues_clock fuel h₂))

theorem mlfqsUpdateRcpuLa_clock (h : mlfqsUpdateRcpuLa fuel k = some k') : SameClock k k' := by
  obtain ⟨k₁, h₁, h₂⟩ := Option.bind_eq_some_iff.mp h
  refine SameClock.trans (.foldlM (fun k t k' he => ?_) k.allList h₁) ?_
  · unfold mlfqsUpdateRecentCpu at he
    split at he
    · cases he
      exact .refl k
    · obtain ⟨coef, -, he⟩ := Option.bind_eq_some_iff.mp he
      cases he
      exact .modify fun _ => rfl
  · simp only [mlfqsUpdateLoadAvg, Option.bind_eq_bind, Option.bind_eq_some_iff] at h₂
    obtain ⟨r, -, c, -, s, -, h₂⟩ := h₂
    cases h₂
    exact ⟨fun _ => rfl, rfl, rfl, rfl, rfl⟩

/-- The MLFQS leaves the alarm clock alone. -/
theorem timerMlfqs_clock (h : timerMlfqs cfg fuel k = some (k', b)) :
    SameClock k k' := by
  unfold timerMlfqs at h
  split at h
  case isFalse =>
    cases h
    exact .refl k
  case isTrue =>
    obtain ⟨⟨k₁, b₁⟩, h₁, h⟩ := Option.bind_eq_some_iff.mp h
    obtain ⟨k₂, h₂, h⟩ := Option.bind_eq_some_iff.mp h
    cases h
    have hk₁ : SameClock k k₁ := by
      unfold timerPriorities at h₁
      split at h₁
      · obtain ⟨k₃, h₃, he⟩ := Option.map_eq_some_iff.mp h₁
        cases he
        exact mlfqsUpdatePriorityAll_clock h₃
      · cases h₁
        exact .refl k
    refine hk₁.trans ?_
    unfold timerLoad at h₂
    split at h₂
    · exact mlfqsUpdateRcpuLa_clock h₂
    · cases h₂
      exact .refl _

theorem timerHandler_nextThread (h : timerHandler cfg fuel k = some (k', b)) :
    k'.nextThread = k.nextThread := by
  simp only [timerHandler, Option.bind_eq_bind, Option.bind_eq_some_iff] at h
  obtain ⟨k₂, h₂, ⟨k₃, b'⟩, h₃, h⟩ := h
  cases h
  have ht : SameSync (ticked k) (threadTick cfg (ticked k)).1 := threadTick_sameSync _
  have hs := (timerMlfqs_sameSync h₃).after ((timerWakeup_sameSync _ h₂).after ht)
  exact hs.nextThread.trans (endHalt_nextThread k)

theorem timerWakeup_dispatches {now : ℤ} : ∀ (ts : List ThreadPtr) {k k' : Kernel},
    timerWakeup cfg fuel now ts k = some k' → k'.dispatches = k.dispatches
  | [], _, _, h => by
      cases h
      rfl
  | t :: ts, k, k', h => by
      rw [timerWakeup] at h
      split at h
      · cases h
        rfl
      · obtain ⟨k₁, h₁, h₂⟩ := Option.bind_eq_some_iff.mp h
        have hw : Writes cfg (some (.threadUnblock t)) k k₁ :=
          threadUnblock_writes (by rintro _ ⟨⟩; exact .threadUnblock) h₁
        have hk := hw.clockKept (by rintro _ _ ⟨⟩)
        exact (timerWakeup_dispatches ts h₂).trans (hk.dispatches (by rintro ⟨⟩))

/-- The handler dispatches nobody. -/
theorem timerHandler_dispatches (h : timerHandler cfg fuel k = some (k', b)) :
    k'.dispatches = k.dispatches := by
  simp only [timerHandler, Option.bind_eq_bind, Option.bind_eq_some_iff] at h
  obtain ⟨k₂, h₂, ⟨k₃, b'⟩, h₃, h⟩ := h
  cases h
  have ht : (threadTick cfg (ticked k)).1.dispatches = k.dispatches :=
    congrArg (List.filterMap Event.dispatched) (threadTick_ticked cfg k).1.log
  exact (timerMlfqs_clock h₃).dispatches.trans ((timerWakeup_dispatches _ h₂).trans ht)

/-! ### Preemption by a wake-up -/

/-- No thread in the ready list has a higher priority than the running one. -/
def Tops (k : Kernel) : Prop :=
  ∀ t, k.elems.InList .readyList t → (k.thr t).priority ≤ (k.thr k.cur).priority

/-- In the ready list of the priority scheduler are the ready threads, but for the idle
thread. -/
theorem Queues.inReady {r : Option ThreadPtr} (hm : cfg.mlfqs = false) (Q : Queues cfg srt r k)
    (t : ThreadPtr) : k.elems.InList .readyList t ↔
      (k.thr t).status = .ready ∧ k.idleThread ≠ some t := by
  obtain ⟨q, home, L, P⟩ := Q
  obtain ⟨xs, hx⟩ := L.ready .readyList (.readyList hm)
  rw [L.inList hx]
  constructor
  · intro hh
    obtain ⟨hs, hi, -⟩ := P.ready_of_home hh nofun
    exact ⟨hs, hi⟩
  · rintro ⟨hs, hi⟩
    obtain ⟨l, hl, hh⟩ := P.home_of_ready hs hi
    cases hl with
    | readyList => exact hh
    | mlfqsList hm' => exact absurd hm' (by simp [hm])

/-- The handler of the priority scheduler. -/
theorem timerHandler_priority (hm : cfg.mlfqs = false)
    (h : timerHandler cfg fuel k = some (k', b)) :
    ∃ k₁, Ticked cfg k k₁ ∧ Awakened cfg (dueSleepers k) k₁ k' ∧
      b = decide (timeSlice ≤ k.threadTicks + 1) := by
  obtain ⟨k₁, k₂, b', ht, hw, -, hl, rfl⟩ := timerHandler_cases h
  rw [timerMlfqs, if_neg (by simp [hm])] at hl
  cases hl
  exact ⟨k₁, ht, hw, by simp⟩

theorem Tops.of_awakened {ts : List ThreadPtr} (hm : cfg.mlfqs = false) (ht : Ticked cfg k k₁)
    (hw : Awakened cfg ts k₁ k') (hk : Tops k)
    (hts : ∀ t ∈ ts, (k.thr t).priority ≤ (k.thr k.cur).priority) : Tops k' := by
  intro t hin
  have hp : ∀ u, (k'.thr u).priority = (k.thr u).priority := by
    intro u
    rw [hw.priority hm u, ht.thr u]
  rw [hp, hp, hw.cur, ht.cur]
  rcases hw.inReady hm t hin with hin | hin
  · exact hk t (ht.elems ▸ hin)
  · exact hts t hin

/-- The time slice ends with the next tick, or neither a thread in the ready list nor a sleeper
that is due at this tick has a higher priority than the running thread. -/
def TickPreempts (k : Kernel) : Prop :=
  timeSlice ≤ k.threadTicks + 1 ∨
    Tops k ∧ ∀ t ∈ dueSleepers k, (k.thr t).priority ≤ (k.thr k.cur).priority

/-- When the handler of the timer interrupt has returned, a yield has been requested or nobody in
the ready list has a higher priority than the running thread, if the tick preempts.  Where the
lists are well formed, it is so only then. -/
theorem timerHandler_preempts (hm : cfg.mlfqs = false)
    (h : timerHandler cfg fuel k = some (k', b)) :
    (TickPreempts k → b = true ∨ Tops k') ∧
    (Queues cfg False (some k.cur) k → IdleFree k → b = true ∨ Tops k' → TickPreempts k) := by
  obtain ⟨k₁, ht, hw, hb⟩ := timerHandler_priority hm h
  refine ⟨fun hc => ?_, fun Q hf hp => ?_⟩
  · rcases hc with hc | ⟨hk, hts⟩
    · exact .inl (by simp [hb, hc])
    · exact .inr (hk.of_awakened hm ht hw hts)
  · rcases hp with rfl | hp
    · exact .inl (of_decide_eq_true hb.symm)
    · -- the threads in question are in the ready list now
      have hpri : ∀ u, (k'.thr u).priority = (k.thr u).priority := by
        intro u
        rw [hw.priority hm u, ht.thr u]
      have hidle : k'.idleThread = k.idleThread := hw.idleThread.trans ht.idleThread
      have Q' : Queues cfg False (some k'.cur) k' := by
        obtain ⟨q, home, L, P⟩ := Q
        obtain ⟨-, q', home', L', P'⟩ :=
          L.timerHandler P (fun hm' => absurd hm' (by simp [hm])) hf h
        exact ⟨q', home', L', P'⟩
      have htop : ∀ t, (k'.thr t).status = .ready → k.idleThread ≠ some t →
          (k.thr t).priority ≤ (k.thr k.cur).priority := by
        intro t hs hi
        have hle := hp t ((Q'.inReady hm t).mpr ⟨hs, hidle ▸ hi⟩)
        rwa [hpri, hpri, hw.cur, ht.cur] at hle
      refine .inr ⟨fun t hin => ?_, fun t hd => ?_⟩
      · obtain ⟨hs, hi⟩ := (Q.inReady hm t).mp hin
        refine htop t ?_ hi
        rw [hw.status, ht.thr]
        split
        · rfl
        · exact hs
      · refine htop t (by rw [hw.status, if_pos hd]) fun hi => ?_
        obtain ⟨q, home, L, P⟩ := Q
        have hsl : t ∈ k.sleepList := (List.takeWhile_subset _) hd
        exact (hf t hi).2 ((P.sleeping t).mp hsl).2

end Pintos
