/-
PintosThreads/Donation.lean

Priority donation as a computation on the waits-for graph.

A thread waits for the holder of its `waiting_lock` (`waitsFor`), so that
`donate_priority` is a walk along a graph in which everybody waits for at most
one other, and what it does to the priorities is `WaitGraph.lift`.  The
recursion ends on every finite graph, a deadlocked one included, and it
restores the equation by which a priority is the greatest of the base priority
and the priorities of the waiters.
-/
import PintosThreads.Runs
import PintosThreads.WaitGraph

namespace Pintos

variable {k k' : Kernel} {f t h u : ThreadPtr} {l : LockPtr} {fuel : ℕ}

/-! ### The graph -/

/-- The holder of the lock that the thread waits for. -/
def waitsFor (k : Kernel) (t : ThreadPtr) : Option ThreadPtr :=
  (k.thr t).waitingLock.bind k.lockHolder

/-- The kernel with other priorities. -/
def Kernel.setPriorities (k : Kernel) (v : ThreadPtr → ℤ) : Kernel :=
  k.setThr fun u => { k.thr u with priority := v u }

theorem setPriorities_modify (v : ThreadPtr → ℤ) (p : ℤ) :
    (k.modify t fun th => { th with priority := p }).setPriorities v = k.setPriorities v := by
  have hthr : ∀ u, ({ (k.modify t fun th => { th with priority := p }).thr u with
      priority := v u } : Thread) = { k.thr u with priority := v u } := by
    intro u
    obtain rfl | hu := eq_or_ne u t <;> simp [*]
  rw [Kernel.setPriorities, funext hthr]
  rfl

theorem waitsFor_modify (p : ℤ) :
    waitsFor (k.modify t fun th => { th with priority := p }) = waitsFor k := by
  funext u
  obtain rfl | hu := eq_or_ne u t <;> simp [waitsFor, *]

theorem priority_modify (p : ℤ) :
    (fun u => ((k.modify t fun th => { th with priority := p }).thr u).priority) =
      Function.update (fun u => (k.thr u).priority) t p := by
  funext u
  obtain rfl | hu := eq_or_ne u t <;> simp [*]

/-- **`donate_priority`** lifts the threads on the way from `t` to the priority of `f`. -/
theorem donatePriority_eq : ∀ (fuel : ℕ) (k : Kernel) (f t : ThreadPtr),
    donatePriority fuel k f t =
      (WaitGraph.lift (waitsFor k) (k.thr f).priority fuel (fun u => (k.thr u).priority) t).map
        k.setPriorities
  | 0, _, _, _ => rfl
  | fuel + 1, k, f, t => by
      rw [donatePriority, WaitGraph.lift]
      split
      case isTrue =>
        have hp : (fun u => ((k.modify t fun th =>
            { th with priority := (k.thr f).priority }).thr u).priority) =
            Function.update (fun u => (k.thr u).priority) t (k.thr f).priority :=
          priority_modify _
        have hw : waitsFor (k.modify t fun th => { th with priority := (k.thr f).priority }) =
            waitsFor k := waitsFor_modify _
        have hset : (k.modify t fun th => { th with priority := (k.thr f).priority }).setPriorities =
            k.setPriorities := funext fun v => setPriorities_modify v _
        have hpt : ((k.modify t fun th =>
            { th with priority := (k.thr f).priority }).thr t).priority = (k.thr f).priority := by
          simp
        dsimp only
        generalize hk₁ : (k.modify t fun th => { th with priority := (k.thr f).priority }) = k₁ at *
        rw [← hp, ← hw, ← hset]
        have hd : (k₁.thr t).waitingLock.bind k₁.lockHolder = waitsFor k₁ t := rfl
        rw [hd]
        rcases waitsFor k₁ t with - | h
        · rfl
        · show donatePriority fuel k₁ t h = _
          rw [donatePriority_eq fuel k₁ t h, hpt]
      case isFalse =>
        rfl

/-! ### The donation equation -/

/-- The threads `ts` have been raised to priority `p`, and nothing else is changed. -/
def raised (k : Kernel) (ts : List ThreadPtr) (p : ℤ) : Kernel :=
  k.setThr fun u => if u ∈ ts then { k.thr u with priority := p } else k.thr u

theorem setPriorities_lifted (ts : List ThreadPtr) (p : ℤ) :
    k.setPriorities (WaitGraph.lifted ts p fun u => (k.thr u).priority) = raised k ts p := by
  have hthr : ∀ u, ({ k.thr u with
      priority := WaitGraph.lifted ts p (fun u => (k.thr u).priority) u } : Thread) =
      if u ∈ ts then { k.thr u with priority := p } else k.thr u := by
    intro u
    by_cases hu : u ∈ ts <;> simp [WaitGraph.lifted, hu]
  rw [Kernel.setPriorities, raised, funext hthr]

/-- The priority of `t` is the greatest of its base priority and the priorities of the waiters
of the locks it holds, for the waiters lists `waiters`. -/
def DonationEq (k : Kernel) (waiters : LockPtr → List ThreadPtr) (t : ThreadPtr) : Prop :=
  IsGreatest (insert (k.thr t).basePriority
    ((fun u => (k.thr u).priority) '' {u | ∃ l, k.lockHolder l = some t ∧ u ∈ waiters l}))
    (k.thr t).priority

/-- The waiters lists agree with the threads' `waiting_lock`. -/
def WaitersAgree (k : Kernel) (waiters : LockPtr → List ThreadPtr) : Prop :=
  ∀ l u, u ∈ waiters l ↔ (k.thr u).waitingLock = some l

variable {waiters : LockPtr → List ThreadPtr} {S : Finset ThreadPtr}

theorem WaitersAgree.waitsFor (h : WaitersAgree k waiters) :
    {u | ∃ l, k.lockHolder l = some t ∧ u ∈ waiters l} = {u | Pintos.waitsFor k u = some t} := by
  ext u
  show (∃ l, k.lockHolder l = some t ∧ u ∈ waiters l) ↔ Pintos.waitsFor k u = some t
  rw [Pintos.waitsFor, Option.bind_eq_some_iff]
  refine exists_congr fun l => ?_
  rw [h l u]
  exact and_comm

/-- The equation is the balance of the graph. -/
theorem donationEq_iff (h : WaitersAgree k waiters) : DonationEq k waiters t ↔
    WaitGraph.Balanced (fun u => (k.thr u).basePriority) (waitsFor k)
      (fun u => (k.thr u).priority) t := by
  rw [DonationEq, h.waitsFor]
  rfl

/-- A donation ends, with one raise for each of the threads it raises. -/
theorem donatePriority_ends (hS : ∀ u ∈ S, ∀ h, waitsFor k u = some h → h ∈ S) (ht : t ∈ S) :
    ∃ ts : List ThreadPtr, ts.Nodup ∧ ts.length ≤ S.card ∧
      (∀ u ∈ ts, u ∈ S ∧ (k.thr u).priority < (k.thr f).priority) ∧
      ∀ fuel, ts.length < fuel →
        donatePriority fuel k f t = some (raised k ts (k.thr f).priority) := by
  obtain ⟨ts, hnd, hlen, hts, hfuel⟩ := WaitGraph.lift_spec (p := (k.thr f).priority)
    (v := fun u => (k.thr u).priority) hS S.card ht (Finset.card_filter_le _ _)
  refine ⟨ts, hnd, hlen, hts, fun fuel hf => ?_⟩
  rw [donatePriority_eq, hfuel fuel hf, Option.map_some, setPriorities_lifted]

/-- The kernel in which the running thread waits for lock `l`. -/
def waitingFor (k : Kernel) (l : LockPtr) : Kernel :=
  k.modify k.cur fun th => { th with waitingLock := some l }

/-- When the running thread, which has waited for nothing, waits for a lock that `h` holds, the
equation is lost at `h` alone. -/
theorem waitingFor_pending (hw : WaitersAgree k waiters) (heq : ∀ u, DonationEq k waiters u)
    (hcur : (k.thr k.cur).waitingLock = none) (hh : k.lockHolder l = some h) :
    WaitGraph.Pending (fun u => (k.thr u).basePriority) (waitsFor (waitingFor k l))
        (fun u => (k.thr u).priority) (k.thr k.cur).priority k.cur h ∧
      ∀ u, u ≠ h → WaitGraph.Balanced (fun u => (k.thr u).basePriority)
        (waitsFor (waitingFor k l)) (fun u => (k.thr u).priority) u := by
  have hnew : waitsFor (waitingFor k l) k.cur = some h := by
    simp [waitsFor, waitingFor, hh]
  have hold : waitsFor k k.cur = none := by
    simp [waitsFor, hcur]
  have hsame : ∀ u, u ≠ k.cur → waitsFor (waitingFor k l) u = waitsFor k u := by
    intro u hu
    simp [waitsFor, waitingFor, hu]
  -- who else waits for a thread has waited for it before
  have hiff : ∀ u y, y ≠ k.cur → (waitsFor (waitingFor k l) y = some u ↔ waitsFor k y = some u) :=
    fun u y hy => by rw [hsame y hy]
  have hbal : ∀ u, (((k.thr u).basePriority ≤ (k.thr u).priority ∧
      ∀ y, waitsFor k y = some u → (k.thr y).priority ≤ (k.thr u).priority) ∧
      ((k.thr u).priority = (k.thr u).basePriority ∨
        ∃ y, waitsFor k y = some u ∧ (k.thr y).priority = (k.thr u).priority)) :=
    fun u => WaitGraph.balanced_iff.mp ((donationEq_iff hw).mp (heq u))
  have hne : ∀ {u y}, waitsFor k y = some u → y ≠ k.cur := by
    rintro u y hy rfl
    rw [hold] at hy
    cases hy
  have hatt : ∀ u, (k.thr u).priority = (k.thr u).basePriority ∨
      ∃ y, waitsFor (waitingFor k l) y = some u ∧ (k.thr y).priority = (k.thr u).priority := by
    intro u
    refine (hbal u).2.imp id ?_
    rintro ⟨y, hy, e⟩
    exact ⟨y, (hiff u y (hne hy)).mpr hy, e⟩
  refine ⟨⟨hnew, rfl, (hbal h).1.1, fun y hy hs => ?_, fun _ => hatt h⟩, fun u hu => ?_⟩
  · exact (hbal h).1.2 y ((hiff h y hy).mp hs)
  · refine WaitGraph.balanced_iff.mpr ⟨⟨(hbal u).1.1, fun y hs => ?_⟩, hatt u⟩
    have hy : y ≠ k.cur := by
      rintro rfl
      rw [hnew] at hs
      exact hu (Option.some.inj hs).symm
    exact (hbal u).1.2 y ((hiff u y hy).mp hs)

/-- **Donation**, on a finite set `S` of threads that wait for each other only.  (a) Whatever the
graph looks like, `donate_priority` ends; it raises each thread of a list without repetitions once,
to the priority of the donor, and does nothing else.  (b) Where the donation equation holds for all
threads, and the running thread, which has waited for no lock, comes to wait for one that another
thread holds, it holds again after the donation, if then nobody waits for himself; in particular if
the graph is acyclic. -/
theorem donation_restores (S : Finset ThreadPtr) :
    (∀ (k : Kernel) (f t : ThreadPtr), (∀ u ∈ S, ∀ h, waitsFor k u = some h → h ∈ S) → t ∈ S →
      ∃ ts : List ThreadPtr, ts.Nodup ∧ ts.length ≤ S.card ∧
        (∀ u ∈ ts, u ∈ S ∧ (k.thr u).priority < (k.thr f).priority) ∧
        ∀ fuel, ts.length < fuel →
          donatePriority fuel k f t = some (raised k ts (k.thr f).priority)) ∧
    ∀ (k : Kernel) (waiters waiters' : LockPtr → List ThreadPtr) (l : LockPtr) (h : ThreadPtr),
      WaitersAgree k waiters → (∀ u, DonationEq k waiters u) →
      (k.thr k.cur).waitingLock = none → k.lockHolder l = some h →
      (∀ m u, u ∈ waiters' m ↔ u ∈ waiters m ∨ m = l ∧ u = k.cur) →
      (∀ u, waitsFor (waitingFor k l) u ≠ some u) →
      (∀ u ∈ S, ∀ h, waitsFor (waitingFor k l) u = some h → h ∈ S) → h ∈ S →
      ∃ k', (∀ fuel, S.card < fuel → donatePriority fuel (waitingFor k l) k.cur h = some k') ∧
        ∀ u, DonationEq k' waiters' u := by
  refine ⟨fun k f t hS ht => donatePriority_ends hS ht, ?_⟩
  intro k waiters waiters' l h hw heq hcur hh hw' hself hS hS'
  obtain ⟨ts, -, hlen, -, hfuel⟩ := donatePriority_ends (f := k.cur) hS hS'
  refine ⟨_, fun fuel hf => hfuel fuel (hlen.trans_lt hf), ?_⟩
  have hthr : ∀ u, ((waitingFor k l).thr u).priority = (k.thr u).priority ∧
      ((waitingFor k l).thr u).basePriority = (k.thr u).basePriority := by
    intro u
    obtain rfl | hu := eq_or_ne u k.cur <;> simp [waitingFor, *]
  have hp : (fun u => ((waitingFor k l).thr u).priority) = fun u => (k.thr u).priority :=
    funext fun u => (hthr u).1
  -- the donation is a lift, which restores the balance
  obtain ⟨hpend, hall⟩ := waitingFor_pending hw heq hcur hh
  have hlift := hfuel (ts.length + 1) (Nat.lt_succ_self _)
  rw [donatePriority_eq, (hthr k.cur).1, hp] at hlift
  obtain ⟨v', hv', he⟩ := Option.map_eq_some_iff.mp hlift
  have hbal := WaitGraph.lift_balanced hself _ hpend hall hv'
  rw [(hthr k.cur).1]
  intro u
  rw [← he]
  have hagree : WaitersAgree ((waitingFor k l).setPriorities v') waiters' := by
    intro m u
    rw [hw' m u, hw m u]
    show _ ↔ ((waitingFor k l).thr u).waitingLock = some m
    obtain rfl | hu := eq_or_ne u k.cur
    · simp [waitingFor, hcur, eq_comm]
    · simp [waitingFor, hu]
  refine (donationEq_iff hagree).mpr ?_
  have hb : (fun u => (((waitingFor k l).setPriorities v').thr u).basePriority) =
      fun u => (k.thr u).basePriority := funext fun u => (hthr u).2
  rw [hb]
  exact hbal u

/-- The initial thread with priority 50, and thread 1, which holds a lock. -/
def twoThreads : Kernel :=
  { boot priorityConfig with
    thr := Function.update (fun _ => Thread.blank) 0
      { Thread.blank with priority := 50, basePriority := 50 }
    lockHolder := fun l => if l = .user 0 then some 1 else none }

/-- The initial thread waits for the lock and donates. -/
theorem donation_restores_two : ∃ k',
    donatePriority 3 (waitingFor twoThreads (.user 0)) 0 1 = some k' ∧ (k'.thr 1).priority = 50 ∧
      ∀ u, DonationEq k' (fun l => if l = .user 0 then [0] else []) u := by
  have hnone : ∀ u, (twoThreads.thr u).waitingLock = none := by
    intro u
    by_cases hu : u = 0 <;> simp [twoThreads, hu, Thread.blank]
  have heq : ∀ u, DonationEq twoThreads (fun _ => []) u := by
    intro u
    have hb : (twoThreads.thr u).priority = (twoThreads.thr u).basePriority := by
      by_cases hu : u = 0 <;> simp [twoThreads, hu, Thread.blank]
    simp [DonationEq, hb, IsGreatest, upperBounds]
  have hwait : ∀ u, waitsFor (waitingFor twoThreads (.user 0)) u =
      if u = 0 then some 1 else none := by
    intro u
    by_cases hu : u = 0
    · subst hu
      rfl
    · have hc : u ≠ twoThreads.cur := hu
      simp [waitsFor, waitingFor, hu, hc, hnone u]
  obtain ⟨k', hd, hk'⟩ := (donation_restores {0, 1}).2 twoThreads (fun _ => [])
    (fun l => if l = .user 0 then [0] else []) (.user 0) 1 (fun l u => by simp [hnone u]) heq
    (hnone 0) rfl
    (fun m u => by
      have hc : twoThreads.cur = 0 := rfl
      by_cases hm : m = .user 0 <;> simp [hm, hc])
    (fun u hu => by
      rw [hwait] at hu
      split at hu
      case isTrue h => exact absurd (h.symm.trans (Option.some.inj hu).symm) (by decide)
      case isFalse => cases hu)
    (fun u _ h hu => by
      rw [hwait] at hu
      split at hu
      case isTrue => simp [← Option.some.inj hu]
      case isFalse => cases hu)
    (by decide)
  have h3 : donatePriority 3 (waitingFor twoThreads (.user 0)) 0 1 = some k' := hd 3 (by decide)
  have hp : (donatePriority 3 (waitingFor twoThreads (.user 0)) 0 1).map
      (fun k => (k.thr 1).priority) = some 50 := by decide
  rw [h3] at hp
  exact ⟨k', h3, Option.some.inj hp, hk'⟩

end Pintos
