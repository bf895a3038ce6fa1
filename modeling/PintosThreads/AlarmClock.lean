/-
PintosThreads/AlarmClock.lean

The alarm clock over whole runs.

`sleep_list` is a stable queue (`StableQueue`) of the sleepers by the ticks
they sleep until.  What it is for is said in terms of the sleepers in the order
in which they were inserted (`Sleepers`): each of them stays until the first
tick that is not before its own, and it is unblocked then and at no other time
(`alarm_clock_exact`).

Whether a wake-up preempts the running thread depends on the time slice
(`timer_wakeup_preempts`).
-/
import PintosThreads.SchedulerInv
import PintosThreads.StableQueue
import PintosThreads.TimerHandler

namespace Pintos

open Intrusive StableQueue

variable {cfg : Config} {fuel : ℕ} {srt : Prop} {ok : Kernel → Label → Prop}
variable {k k₁ k' : Kernel} {lab : Label}

/-! ### Unblocking -/

/-- At most one thread has been unblocked, and it is not blocked any more. -/
def UnblocksOne (k k' : Kernel) : Prop :=
  k'.unblocks = k.unblocks ∨
    ∃ t, k'.unblocks = t :: k.unblocks ∧ (k'.thr t).status ≠ .blocked

theorem threadUnblock_unblocks {t : ThreadPtr} (h : threadUnblock cfg fuel k t = some k') :
    UnblocksOne k k' := by
  obtain ⟨hw, -⟩ := threadUnblock_awakened h
  refine .inr ⟨t, by simpa using hw.unblocks, ?_⟩
  rw [hw.status, if_pos (List.mem_singleton_self t)]
  exact nofun

theorem semaUpBody_unblocks {p : SemaPtr} {agent : Option ThreadPtr}
    (h : semaUpBody cfg fuel k agent p = some k') : UnblocksOne k k' := by
  obtain ⟨k₁, h₁, h₂⟩ := Option.bind_eq_some_iff.mp h
  cases h₂
  unfold semaWake at h₁
  split at h₁
  · cases h₁
    exact .inl rfl
  · obtain ⟨⟨t, e⟩, -, h₁⟩ := Option.bind_eq_some_iff.mp h₁
    have hu : UnblocksOne (k.setElems e) k₁ := threadUnblock_unblocks h₁
    exact hu

theorem exec_unblocks {f : Frame} (h : exec cfg fuel k f = some k') : UnblocksOne k k' := by
  by_cases hf : f.Wakes
  · cases hf with
    | threadUnblock => exact threadUnblock_unblocks h
    | threadCreateUnblock =>
        obtain ⟨k₁, h₁, rfl⟩ := Option.map_eq_some_iff.mp h
        have hu : UnblocksOne k k₁ := threadUnblock_unblocks h₁
        exact hu
    | semaUp =>
        obtain ⟨k₁, h₁, rfl⟩ := Option.map_eq_some_iff.mp h
        have hu : UnblocksOne k k₁ := semaUpBody_unblocks h₁
        exact hu
  · by_cases hs : ∃ start n, f = .timerSleepBody start n
    · obtain ⟨start, n, rfl⟩ := hs
      exact .inl ((exec_timerSleepBody h).unblocks nofun)
    · push Not at hs
      exact .inl (((exec_writes h).clockKept hs).unblocks hf)

/-! ### Steps without a tick -/

/-- The thread that goes to sleep in a step, and the tick it sleeps until. -/
def Label.sleeper (k : Kernel) : Label → Option (ThreadPtr × ℤ)
  | .run =>
      match k.stack k.cur with
      | .timerSleepBody start n :: _ => some (k.cur, start + n)
      | _ => none
  | _ => none

/-- The sleep list, with the ticks that the threads sleep until. -/
def Kernel.sleeping (k : Kernel) : List (ThreadPtr × ℤ) :=
  k.sleepList.map fun t => (t, (k.thr t).wakeupTick)

/-- Sleepers leave in the order of their ticks. -/
def deadline (a : ThreadPtr × ℤ) : ℤᵒᵈ :=
  OrderDual.toDual a.2

/-- The alarm clock is as it was, and no sleeper is unblocked. -/
structure ClockStill (k k' : Kernel) : Prop where
  ticks : k'.ticks = k.ticks
  sleepList : k'.sleepList = k.sleepList
  wakeupTick : ∀ t ∈ k.sleepList, (k'.thr t).wakeupTick = (k.thr t).wakeupTick
  unblocks : ∀ t ∈ k.sleepList, k'.unblocks.count t = k.unblocks.count t

theorem ClockStill.sleeping (h : ClockStill k k') : k'.sleeping = k.sleeping := by
  rw [Kernel.sleeping, h.sleepList]
  exact List.map_congr_left fun t ht => by rw [h.wakeupTick t ht]

/-- A thread that has just been unblocked does not sleep. -/
theorem UnblocksOne.count (h : UnblocksOne k k') {t : ThreadPtr}
    (ht : (k'.thr t).status = .blocked) : k'.unblocks.count t = k.unblocks.count t := by
  rcases h with h | ⟨u, h, hu⟩
  · rw [h]
  · rw [h, List.count_cons_of_ne]
    rintro rfl
    exact hu ht

theorem schedule_blocked (h : schedule cfg k = some k') {u : ThreadPtr}
    (hu : (k'.thr u).status = .blocked) : (k.thr u).status = .blocked := by
  obtain ⟨⟨n, e⟩, -, h⟩ := Option.bind_eq_some_iff.mp h
  dsimp only at h
  split at h
  case isFalse => cases h
  case isTrue =>
    cases h
    obtain rfl | hn := eq_or_ne u n
    · simp [threadScheduleTail] at hu
    · simpa [threadScheduleTail, hn] using hu

/-- Nobody is blocked by the return from an interrupt. -/
theorem interruptReturn_blocked {b : Bool} (h : interruptReturn cfg fuel k b = some k')
    {u : ThreadPtr} (hu : (k'.thr u).status = .blocked) : (k.thr u).status = .blocked := by
  unfold interruptReturn at h
  split at h
  case isFalse =>
    cases h
    exact hu
  case isTrue =>
    obtain ⟨k₁, h₁, h₂⟩ := Option.bind_eq_some_iff.mp h
    have hthr : k₁.thr = k.thr := by
      unfold yieldInsert at h₁
      split at h₁
      · cases h₁
        rfl
      · split at h₁
        · obtain ⟨e, rfl⟩ := mlfqsInsert_eq h₁
          rfl
        · obtain ⟨e, rfl⟩ := insertByPriority_eq h₁
          rfl
    have hb := schedule_blocked h₂ hu
    obtain rfl | hc := eq_or_ne u k₁.cur
    · simp at hb
    · simpa [hc, hthr] using hb

theorem semaUpInterrupt_unblocks {p : SemaPtr} (h : semaUpInterrupt cfg fuel k p = some k') :
    UnblocksOne k k' := by
  obtain ⟨k₁, h₁, h⟩ := Option.bind_eq_some_iff.mp h
  obtain ⟨b, -, h⟩ := Option.bind_eq_some_iff.mp h
  have hr := (interruptReturn_clockKept h).unblocks nofun
  have hk : ((endHalt k).setLevel false).unblocks = k.unblocks :=
    (endHalt_silent k).clock.unblocks
  rcases semaUpBody_unblocks h₁ with hu | ⟨t, hu, ht⟩
  · exact .inl (hr.trans (hu.trans hk))
  · refine .inr ⟨t, hr.trans (hu.trans (congrArg _ hk)), fun hb => ht ?_⟩
    exact interruptReturn_blocked h hb

/-- What one step does to the clock, but for a tick or a thread going to sleep. -/
theorem step_clockStill (S : Scheduling cfg srt k) (S' : Scheduling cfg srt k')
    (h : step cfg fuel k lab = some k') (hl : lab ≠ .timer) (hs : lab.sleeper k = none) :
    ClockStill k k' := by
  -- from what the writes say of the clock, and the unblocking of at most one thread
  have hkept : ∀ {f g : Frame} {k₁ : Kernel}, ClockKept f k k₁ → ClockKept g k₁ k' →
      UnblocksOne k k' → ClockStill k k' := by
    intro f g k₁ hk hk' hu
    obtain ⟨⟨q, home, L, P⟩, -⟩ := S
    obtain ⟨⟨q', home', L', P'⟩, -⟩ := S'
    have hsl := hk'.sleepList.trans hk.sleepList
    refine ⟨hk'.ticks.trans hk.ticks, hsl, fun t ht => ?_, fun t ht => hu.count ?_⟩
    · have hlt : t < k.nextThread := by
        refine P.lt ?_
        rw [((P.sleeping t).mp ht).1]
        rintro ⟨⟩
      exact (hk'.wakeupTick t (hlt.trans_le hk.nextThread)).trans (hk.wakeupTick t hlt)
    · exact ((P'.sleeping t).mp (hsl ▸ ht)).1
  cases lab with
  | call c =>
      rw [step] at h
      split at h <;> cases h
      exact ⟨rfl, rfl, fun _ _ => rfl, fun _ _ => rfl⟩
  | timer => exact absurd rfl hl
  | run =>
      rcases e : k.stack k.cur with - | ⟨f, fs⟩
      · simp [step, e] at h
      · have h : exec cfg fuel (popFrame k fs) f = some k' := by rwa [step, e] at h
        have hf : ∀ start n, f ≠ .timerSleepBody start n := by
          rintro start n rfl
          simp [Label.sleeper, e] at hs
        have hk := (exec_writes h).clockKept hf
        have hu : UnblocksOne (popFrame k fs) k' := exec_unblocks h
        have hpop : ClockKept f k (popFrame k fs) :=
          ⟨fun _ _ => rfl, le_rfl, rfl, rfl, fun _ => rfl, fun _ => rfl⟩
        exact hkept hpop hk hu
  | semaUp n =>
      rw [step] at h
      split at h
      case isFalse => cases h
      case isTrue =>
        obtain ⟨k₁, hk, hk'⟩ := semaUpInterrupt_clockKept h
        exact hkept hk hk' (semaUpInterrupt_unblocks h)
  | semaTryDown n =>
      rw [step] at h
      split at h
      case isFalse => cases h
      case isTrue =>
        have ho : ∀ f, some Frame.threadYield = some f → f.Schedules := by
          rintro _ ⟨⟩
          exact .threadYield
        have hk := (semaTryDownInterrupt_writes ho h).clockKept (by rintro _ _ ⟨⟩)
        exact hkept hk (.refl .threadYield k') (.inl (hk.unblocks (by rintro ⟨⟩)))

/-! ### Going to sleep -/

theorem Label.sleeper_eq {a : ThreadPtr × ℤ} (hs : lab.sleeper k = some a) :
    lab = .run ∧ ∃ start n fs, k.stack k.cur = .timerSleepBody start n :: fs ∧
      a = (k.cur, start + n) := by
  unfold Label.sleeper at hs
  split at hs
  case h_1 =>
    split at hs
    case h_1 e =>
      cases hs
      exact ⟨rfl, _, _, _, e, rfl⟩
    case h_2 => cases hs
  case h_2 => cases hs

/-- The running thread is inserted behind the sleepers that are due no later, for the tick as far
as it fits into 64 bits. -/
theorem step_sleeps {a : ThreadPtr × ℤ} (S : Scheduling cfg srt k) (hc : k.cur < k.nextThread)
    (h : step cfg fuel k lab = some k') (hs : lab.sleeper k = some a) :
    k'.ticks = k.ticks ∧ k'.unblocks = k.unblocks ∧
      k'.sleeping =
        k.sleeping.orderedInsert (fun a b => deadline b < deadline a) (a.1, toInt64 a.2) := by
  obtain ⟨rfl, start, n, fs, e, rfl⟩ := Label.sleeper_eq hs
  have h : exec cfg fuel (popFrame k fs) (.timerSleepBody start n) = some k' := by
    rwa [step, e] at h
  have hk := exec_timerSleepBody h
  refine ⟨hk.ticks, hk.unblocks (by rintro ⟨⟩), ?_⟩
  obtain ⟨⟨q, home, L, P⟩, -⟩ := S
  have hcur : k.cur ∉ k.sleepList := by
    intro hm
    have hb := ((P.sleeping k.cur).mp hm).1
    rw [P.cur_running] at hb
    cases hb
  have hlt : ∀ u ∈ k.sleepList, u < k.nextThread := by
    intro u hu
    refine P.lt ?_
    rw [((P.sleeping u).mp hu).1]
    rintro ⟨⟩
  let k₀ := (popFrame k fs).modify k.cur fun th => { th with wakeupTick := toInt64 (start + n) }
  let g := fun u => (u, (k₀.thr u).wakeupTick)
  have hg : ∀ u ∈ k.sleepList, g u = (u, (k.thr u).wakeupTick) := by
    intro u hu
    have huc : u ≠ k.cur := fun e => hcur (e ▸ hu)
    simp [g, k₀, popFrame, huc]
  have hgc : g k.cur = (k.cur, toInt64 (start + n)) := by simp [g, k₀]
  have hk' : k'.sleeping = (insertSleeper k₀ k.cur).sleepList.map g := by
    rw [Kernel.sleeping, hk.sleepList]
    refine List.map_congr_left fun u hu => ?_
    have hu : u = k.cur ∨ u ∈ k.sleepList := (List.mem_orderedInsert _).mp hu
    have hlt : u < k.nextThread := hu.elim (fun e => e ▸ hc) (hlt u)
    rw [hk.wakeupTick u hlt]
    rfl
  rw [hk', ← hgc, Kernel.sleeping, ← List.map_congr_left hg]
  exact List.map_orderedInsert _ _ g _ _ (fun _ _ => Iff.rfl) fun _ _ => Iff.rfl

/-! ### A tick -/

/-- **A tick** unblocks the sleepers in front of the list that are due. -/
theorem step_tick (S : Scheduling cfg srt k) (h : step cfg fuel k .timer = some k') :
    k'.ticks = k.ticks + 1 ∧ k'.sleepList = k.sleepList.dropWhile (Due k (k.ticks + 1)) ∧
      (∀ t ∈ k.sleepList, (k'.thr t).wakeupTick = (k.thr t).wakeupTick) ∧
        k'.unblocks = (dueSleepers k).reverse ++ k.unblocks := by
  rw [step] at h
  split at h
  case isFalse => cases h
  case isTrue =>
    rw [timerInterrupt_eq] at h
    obtain ⟨⟨k₃, b⟩, h₁, h₂⟩ := Option.bind_eq_some_iff.mp h
    obtain ⟨k₁, k₂, b', ht, hw, hsl, hm, -⟩ := timerHandler_cases h₁
    have hc := timerMlfqs_clock hm
    have hr := interruptReturn_clockKept h₂
    have hn := timerHandler_nextThread h₁
    have hu : k₁.unblocks = k.unblocks := congrArg (·.filterMap Event.unblocked) ht.log
    refine ⟨?_, ?_, fun t hin => ?_, ?_⟩
    · rw [hr.ticks, hc.ticks, hw.ticks, ht.ticks]
    · rw [hr.sleepList, hc.sleepList, hsl]
    · obtain ⟨⟨q, home, L, P⟩, -⟩ := S
      have hlt : t < k.nextThread := by
        refine P.lt ?_
        rw [((P.sleeping t).mp hin).1]
        rintro ⟨⟩
      rw [hr.wakeupTick t (hn ▸ hlt), hc.wakeupTick, hw.wakeupTick, ht.thr]
    · rw [hr.unblocks (by rintro ⟨⟩), hc.unblocks, hw.unblocks, hu]

/-! ### Ticks to come -/

/-- Whoever is on its way to sleep has read `ticks` before, and sleeps for one tick at least. -/
structure SleepsAhead (k : Kernel) : Prop where
  ticks : 0 ≤ k.ticks
  body : ∀ t, ∀ f ∈ k.stack t, ∀ start n, f = .timerSleepBody start n → 0 ≤ start ∧ 0 < n

/-- The tick that a thread will sleep until is not negative. -/
theorem SleepsAhead.fits {a : ThreadPtr × ℤ} (H : SleepsAhead k) (hs : lab.sleeper k = some a)
    (ha : a.2 < 2 ^ 63) : toInt64 a.2 = a.2 := by
  obtain ⟨-, start, n, fs, e, rfl⟩ := Label.sleeper_eq hs
  obtain ⟨hstart, hn⟩ := H.body k.cur _ (e ▸ .head _) start n rfl
  have h0 : 0 ≤ start + n := by omega
  exact toInt64_eq (le_trans (by decide) h0) ha

theorem Move.not_sleeps {t : ThreadPtr} {s s' : Sync} {f : Frame} {gs : List Frame} {start n : ℤ}
    (h : Move t s f gs s') (hg : .timerSleepBody start n ∈ gs) : ∃ m, f = .timerSleep m := by
  cases h with
  | quiet hl =>
      cases hl with
      | timerSleep => exact ⟨_, rfl⟩
      | preempt _ hp | threadCreateUnblock hp =>
          obtain rfl := List.mem_singleton.mp hg
          cases hp
      | _ => simp at hg
  | up hp =>
      obtain rfl := List.mem_singleton.mp hg
      cases hp
  | _ => simp at hg

/-- `timer_sleep` has read `ticks`. -/
theorem exec_timerSleep_ahead {n : ℤ} {fs : List Frame} (H : SleepsAhead k)
    (e : k.stack k.cur = .timerSleep n :: fs)
    (h : exec cfg fuel (popFrame k fs) (.timerSleep n) = some k') : SleepsAhead k' := by
  have hpop : SleepsAhead (popFrame k fs) := by
    refine ⟨H.ticks, fun t f hf => H.body t f ?_⟩
    obtain rfl | ht := eq_or_ne t k.cur
    · have hf : f ∈ fs := by simpa [popFrame] using hf
      exact e ▸ .tail _ hf
    · simpa [popFrame, ht] using hf
  simp only [exec] at h
  split at h
  case isFalse => cases h
  case isTrue =>
    obtain rfl := Option.some.inj h
    split
    case isTrue => exact hpop
    case isFalse hn =>
      refine ⟨H.ticks, fun t f hf => ?_⟩
      obtain rfl | ht := eq_or_ne t k.cur
      · have hf : f = .timerSleepBody k.ticks n ∨ f ∈ fs := by simpa [popFrame] using hf
        rcases hf with rfl | hf
        · rintro start m ⟨⟩
          exact ⟨H.ticks, not_le.mp hn⟩
        · exact H.body k.cur f (e ▸ .tail _ hf)
      · exact H.body t f (by simpa [popFrame, ht] using hf)

/-- Nothing else puts a thread on its way to sleep. -/
theorem SleepsAhead.step (H : SleepsAhead k) (I : k.sync.Inv) (hc : k.cur < k.nextThread)
    (h : step cfg fuel k lab = some k') (ht : 0 ≤ k'.ticks) : SleepsAhead k' := by
  by_cases hf : lab = .run ∧ ∃ n fs, k.stack k.cur = .timerSleep n :: fs
  · obtain ⟨rfl, n, fs, e⟩ := hf
    exact exec_timerSleep_ahead H e (by rwa [Pintos.step, e] at h)
  · refine ⟨ht, fun t f hmem start n hbody => ?_⟩
    subst hbody
    obtain ⟨hs, -⟩ := step_syncStep hc h
    have hmem : .timerSleepBody start n ∈ k'.sync.stack t := hmem
    have hold : .timerSleepBody start n ∈ k.stack t → 0 ≤ start ∧ 0 < n :=
      fun hmem => H.body t _ hmem start n rfl
    by_cases hl : lab = .run
    · subst hl
      generalize k'.sync = s' at hs hmem
      cases hs with
      | interrupt hn => exact absurd rfl hn
      | @run f fs gs s₁ e hm =>
          rcases hm.mem_run I.unborn e hmem with ⟨-, hg⟩ | ⟨rfl, hg⟩ | ⟨-, hg⟩ | ⟨entry, hg⟩
          · obtain ⟨m, rfl⟩ := hm.not_sleeps hg
            exact absurd ⟨rfl, m, fs, e⟩ hf
          · exact hold (e ▸ .tail _ hg)
          · exact hold hg
          · cases entry <;> simp [Entry.stack] at hg
    · rcases hs.frame_mem hl hmem with hg | ⟨c, hg⟩ | hg | hg
      · exact hold hg
      · cases c <;> cases hg
      · cases hg
      · cases hg

/-- No step takes a tick back. -/
theorem step_ticks_le (S : Scheduling cfg srt k) (S' : Scheduling cfg srt k')
    (hc : k.cur < k.nextThread) (h : step cfg fuel k lab = some k') : k.ticks ≤ k'.ticks := by
  obtain rfl | hl := eq_or_ne lab .timer
  · rw [(step_tick S h).1]
    omega
  · rcases e : lab.sleeper k with - | a
    · exact (step_clockStill S S' h hl e).ticks.ge
    · exact (step_sleeps S hc h e).1.ge

theorem Reachable.sleepsAhead
    (hT : ∀ k lab, Reachable cfg ok k → ok k lab → Tame cfg False k lab)
    (h : Reachable cfg ok k) : SleepsAhead k := by
  induction h with
  | refl =>
      refine ⟨le_rfl, fun t f hf => ?_⟩
      rintro start n rfl
      by_cases ht : t = 0 <;> simp [boot, ht] at hf
  | @tail k k' hr hs ih =>
      obtain ⟨lab, fuel, hl, hs⟩ := hs
      have S := (Reachable.good hT hr).sched
      have S' := (Reachable.good hT (.tail hr ⟨lab, fuel, hl, hs⟩)).sched
      obtain ⟨hsync, hc⟩ := Reachable.anySync hr
      exact ih.step (Sync.Reachable.inv hsync) hc hs (ih.ticks.trans (step_ticks_le S S' hc hs))

/-! ### Runs -/

/-- The sleepers after a step: one more, or without those whose tick has come. -/
def sleepersAfter (k : Kernel) (as : List (ThreadPtr × ℤ)) (lab : Label) : List (ThreadPtr × ℤ) :=
  if lab = .timer then as.filter fun a => k.ticks + 1 < a.2
  else as ++ (lab.sleeper k).toList

/-- In a run to state `k`, the sleepers are `as`: each with the tick it sleeps until, in the order
of their insertion.  A sleeper stays until the first timer interrupt after its insertion whose
tick is not before its own. -/
inductive Sleepers (cfg : Config) (ok : Kernel → Label → Prop) :
    Kernel → List (ThreadPtr × ℤ) → Prop
  | boot : Sleepers cfg ok (boot cfg) []
  | step {k k' lab fuel as} : Sleepers cfg ok k as → ok k lab → step cfg fuel k lab = some k' →
      Sleepers cfg ok k' (sleepersAfter k as lab)

theorem Sleepers.reachable {as : List (ThreadPtr × ℤ)} (h : Sleepers cfg ok k as) :
    Reachable cfg ok k := by
  induction h with
  | boot => exact .refl
  | step _ hok h ih => exact ih.tail ⟨_, _, hok, h⟩

theorem Reachable.sleepers (h : Reachable cfg ok k) : ∃ as, Sleepers cfg ok k as := by
  induction h with
  | refl => exact ⟨[], .boot⟩
  | tail _ hn ih =>
      obtain ⟨as, ih⟩ := ih
      obtain ⟨lab, fuel, hok, h⟩ := hn
      exact ⟨_, ih.step hok h⟩

/-- A step of the runs that the alarm clock is for.  Threads may do anything but to sleep until
a tick that overflows; what they do besides sleeping is tame. -/
structure AlarmStep (cfg : Config) (k : Kernel) (lab : Label) : Prop where
  fits : ∀ a, lab.sleeper k = some a → a.2 < 2 ^ 63
  tame : Tame cfg False k lab

/-- Whoever goes to sleep in such a run does so until a tick that fits. -/
theorem AlarmStep.wakeupTick {a : ThreadPtr × ℤ}
    (hok : ∀ k lab, Reachable cfg ok k → ok k lab → AlarmStep cfg k lab)
    (hr : Reachable cfg ok k) (hl : ok k lab) (hs : lab.sleeper k = some a) :
    toInt64 a.2 = a.2 :=
  (hr.sleepsAhead fun k lab hr hl => (hok k lab hr hl).tame).fits hs ((hok k lab hr hl).fits a hs)

theorem not_due (k : Kernel) (now : ℤ) (t : ThreadPtr) :
    (!Due k now t) = decide (now < (k.thr t).wakeupTick) := by
  rw [Due, ← decide_not, decide_eq_decide, not_le]

/-- The sleepers that are due at a tick, those to be woken first in front. -/
theorem sorts_due {as : List (ThreadPtr × ℤ)} (h : Sorts deadline as k.sleeping) (now : ℤ) :
    k.sleepList.takeWhile (Due k now) = k.sleepList.filter (Due k now) ∧
      k.sleepList.dropWhile (Due k now) = k.sleepList.filter fun t => !Due k now t := by
  have hp : k.sleepList.Pairwise fun t u => Due k now u → Due k now t := by
    have hs := List.pairwise_map.mp h.sorted
    refine hs.imp fun {t u} htu hu => ?_
    have htu : (k.thr t).wakeupTick ≤ (k.thr u).wakeupTick := htu
    have hu : (k.thr u).wakeupTick ≤ now := of_decide_eq_true hu
    exact decide_eq_true (htu.trans hu)
  exact ⟨takeWhile_eq_filter hp, dropWhile_eq_filter hp⟩

/-- **`sleep_list` is the queue of the sleepers.** -/
theorem Sleepers.sorts {as : List (ThreadPtr × ℤ)}
    (hok : ∀ k lab, Reachable cfg ok k → ok k lab → AlarmStep cfg k lab)
    (h : Sleepers cfg ok k as) : Sorts deadline as k.sleeping := by
  have hT : ∀ k lab, Reachable cfg ok k → ok k lab → Tame cfg False k lab :=
    fun k lab hr hl => (hok k lab hr hl).tame
  induction h with
  | boot => exact ⟨.nil, fun _ => rfl⟩
  | @step k k' lab fuel as h hl hs ih =>
      have hr := h.reachable
      have S := (hr.good hT).sched
      have S' := (Reachable.good hT (hr.tail ⟨lab, fuel, hl, hs⟩)).sched
      unfold sleepersAfter
      split
      case isTrue htick =>
        subst htick
        obtain ⟨-, hsl, hw, -⟩ := step_tick S hs
        have hk' : k'.sleeping = k.sleeping.filter fun a => k.ticks + 1 < a.2 := by
          rw [Kernel.sleeping, hsl, (sorts_due ih _).2, Kernel.sleeping, List.filter_map]
          have hd : (fun t => !Due k (k.ticks + 1) t) =
              (fun a : ThreadPtr × ℤ => decide (k.ticks + 1 < a.2)) ∘
                fun t => (t, (k.thr t).wakeupTick) := by
            funext t
            exact not_due k _ t
          rw [hd]
          exact List.map_congr_left fun t ht => by rw [hw t (List.mem_of_mem_filter ht)]
        rw [hk']
        exact ih.filter _
      case isFalse htick =>
        rcases e : lab.sleeper k with - | a
        · rw [(step_clockStill S S' hs htick e).sleeping]
          simpa using ih
        · rw [(step_sleeps S hr.anySync.2 hs e).2.2, AlarmStep.wakeupTick hok hr hl e]
          exact ih.insert a

/-- **The alarm clock is exact**: in every run `sleep_list` is sorted, without repetitions, and
holds blocked threads; it holds the sleepers, those that sleep until the same tick in the order of
their insertion.  A timer interrupt leaves the sleepers in it whose tick is to come, and unblocks
the others, once each and in order; no other step unblocks a sleeper. -/
theorem alarm_clock_exact {as : List (ThreadPtr × ℤ)}
    (hok : ∀ k lab, Reachable cfg ok k → ok k lab → AlarmStep cfg k lab)
    (h : Sleepers cfg ok k as) :
    ((k.sleepList.Pairwise fun t u => (k.thr t).wakeupTick ≤ (k.thr u).wakeupTick) ∧
      k.sleepList.Nodup ∧ ∀ t ∈ k.sleepList, (k.thr t).status = .blocked) ∧
    Sorts deadline as (k.sleepList.map fun t => (t, (k.thr t).wakeupTick)) ∧
    ∀ lab fuel k', ok k lab → step cfg fuel k lab = some k' →
      (lab = .timer → k'.ticks = k.ticks + 1 ∧
        k'.sleepList = k.sleepList.filter (fun t => k'.ticks < (k.thr t).wakeupTick) ∧
        ∃ ts : List ThreadPtr, k'.unblocks = ts.reverse ++ k.unblocks ∧
          Sorts deadline (as.filter fun a => a.2 ≤ k'.ticks)
            (ts.map fun t => (t, (k.thr t).wakeupTick))) ∧
      (lab ≠ .timer → k'.ticks = k.ticks ∧
        ∀ a ∈ as, k'.unblocks.count a.1 = k.unblocks.count a.1) := by
  have hT : ∀ k lab, Reachable cfg ok k → ok k lab → Tame cfg False k lab :=
    fun k lab hr hl => (hok k lab hr hl).tame
  have hr := h.reachable
  have S := (hr.good hT).sched
  have hq := h.sorts hok
  obtain ⟨⟨q, home, L, P⟩, hin⟩ := id S
  have hsorted := List.pairwise_map.mp hq.sorted
  refine ⟨⟨hsorted, P.sleepers, fun t ht => ((P.sleeping t).mp ht).1⟩, hq,
    fun lab fuel k' hl hs => ⟨?_, fun hlt => ?_⟩⟩
  · -- a tick
    rintro rfl
    obtain ⟨ht, hsl, hw, hu⟩ := step_tick S hs
    refine ⟨ht, ?_, dueSleepers k, hu, ?_⟩
    · rw [hsl, (sorts_due hq _).2, ht]
      congr 1
      funext t
      exact not_due k _ t
    · rw [dueSleepers, (sorts_due hq _).1, ht]
      have hd := hq.filter fun a => a.2 ≤ k.ticks + 1
      rwa [Kernel.sleeping, List.filter_map] at hd
  · have S' := (Reachable.good hT (hr.tail ⟨lab, fuel, hl, hs⟩)).sched
    rcases e : lab.sleeper k with - | a
    · have hk := step_clockStill S S' hs hlt e
      refine ⟨hk.ticks, fun a ha => hk.unblocks a.1 ?_⟩
      obtain ⟨t, ht, rfl⟩ := List.mem_map.mp (hq.mem_iff.mpr ha)
      exact ht
    · obtain ⟨ht, hu, -⟩ := step_sleeps S hr.anySync.2 hs e
      exact ⟨ht, fun a _ => by rw [hu]⟩

theorem Label.peaceful.alarmStep (h : lab.peaceful k = true) : AlarmStep cfg k lab := by
  refine ⟨fun a ha => ?_, Label.peaceful.tame h⟩
  unfold Label.sleeper at ha
  split at ha
  case h_1 =>
    split at ha
    case h_1 e =>
      cases ha
      simp only [Label.peaceful, e] at h
      exact of_decide_eq_true h
    case h_2 => cases ha
  case h_2 => cases ha

/-- Thread 2 sleeps until tick 5, and then the initial thread until tick 3. -/
theorem alarm_clock_exact_two : ∃ k as,
    Sleepers priorityConfig (fun k lab => lab.peaceful k) k as ∧ k.sleepList = [0, 2] ∧
      Sorts deadline as (k.sleepList.map fun t => (t, (k.thr t).wakeupTick)) ∧
        ∀ t ∈ k.sleepList, (k.thr t).status = .blocked := by
  obtain ⟨k, hr, hk⟩ := exists_reachable priorityConfig 70 (fun k lab => lab.peaceful k)
    (List.replicate 19 Label.run ++ [Label.call (.threadCreate 40)] ++ List.replicate 10 Label.run ++
      [Label.call (.timerSleep 5), .run, .run, .run, .call (.timerSleep 3), .run, .run])
    (fun k => k.sleepList = [0, 2]) (by decide +kernel)
  obtain ⟨as, hs⟩ := hr.sleepers
  have hok := alarm_clock_exact (fun _ _ _ h => Label.peaceful.alarmStep h) hs
  exact ⟨k, as, hs, of_decide_eq_true hk, hok.2.1, hok.1.2.2⟩

/-! ### Wake-ups and preemption -/

/-- **Wake-ups and preemption**: when the handler of the timer interrupt has returned, a yield has
been requested or nobody in the ready list has a higher priority than the running thread, if the
time slice is over, or neither a thread in the ready list nor a sleeper that is due has a higher
priority; in a run of tame steps it is so only then. -/
theorem timer_wakeup_preempts {b : Bool} (hm : cfg.mlfqs = false) (hr : Reachable cfg ok k)
    (h : timerHandler cfg fuel k = some (k', b)) :
    (TickPreempts k → b = true ∨ Tops k') ∧
      ((∀ k lab, Reachable cfg ok k → ok k lab → Tame cfg False k lab) →
        (b = true ∨ Tops k' ↔ TickPreempts k)) := by
  obtain ⟨hif, honly⟩ := timerHandler_preempts hm h
  refine ⟨hif, fun hT => ⟨honly ?_ ?_, hif⟩⟩
  · exact (hr.good hT).sched.queues
  · exact (Reachable.control hr).inv.idleFree

/-- The tick that wakes thread 2 ends the time slice of the initial thread. -/
theorem timer_wakeup_preempts_slice : ∃ k k' b,
    Reachable priorityConfig (fun k lab => lab.peaceful k) k ∧ dueSleepers k = [2] ∧
      timerHandler priorityConfig 70 k = some (k', b) ∧ (b = true ∨ Tops k') ∧
        TickPreempts k := by
  obtain ⟨k, hr, hk⟩ := exists_reachable priorityConfig 70 (fun k lab => lab.peaceful k)
    (List.replicate 19 Label.run ++ [Label.call (.threadCreate 40)] ++ List.replicate 10 Label.run ++
      [Label.call (.timerSleep 4), .run, .run, .run, .timer, .timer, .timer])
    (fun k => timeSlice ≤ k.threadTicks + 1 ∧ dueSleepers k = [2] ∧
      (timerHandler priorityConfig 70 k).isSome) (by decide +kernel)
  obtain ⟨ht, hd, hs⟩ := of_decide_eq_true hk
  obtain ⟨⟨k', b⟩, h⟩ := Option.isSome_iff_exists.mp hs
  obtain ⟨hif, hiff⟩ := timer_wakeup_preempts rfl hr h
  have hp := hif (.inl ht)
  exact ⟨k, k', b, hr, hd, h, hp, (hiff fun _ _ _ h => Label.peaceful.tame h).mp hp⟩

/-- The initial thread goes on where a tick in the middle of its time slice has woken thread 2,
which has a higher priority. -/
theorem timer_wakeup_does_not_preempt : ∃ k k' b,
    Reachable priorityConfig (fun k lab => lab.peaceful k) k ∧
      timerHandler priorityConfig 70 k = some (k', b) ∧ ¬ (b = true ∨ Tops k') := by
  obtain ⟨k, hr, hk⟩ := exists_reachable priorityConfig 70 (fun k lab => lab.peaceful k)
    (List.replicate 19 Label.run ++ [Label.call (.threadCreate 40)] ++ List.replicate 10 Label.run ++
      [Label.call (.timerSleep 1), .run, .run, .run])
    (fun k => (timerHandler priorityConfig 70 k).any fun r => !r.2 &&
      r.1.elems.next (.head .readyList) = some (.item 2) &&
        (r.1.thr r.1.cur).priority < (r.1.thr 2).priority) (by decide +kernel)
  obtain ⟨⟨k', b⟩, h, hp⟩ := (Option.any_eq_true _ _).mp hk
  simp only [Bool.and_eq_true, Bool.not_eq_true', decide_eq_true_eq] at hp
  obtain ⟨⟨hb, hn⟩, hlt⟩ := hp
  refine ⟨k, k', b, hr, h, ?_⟩
  rintro (ht | ht)
  · rw [hb] at ht
    cases ht
  · exact absurd (ht 2 (.single hn)) (not_le.mpr hlt)

end Pintos
