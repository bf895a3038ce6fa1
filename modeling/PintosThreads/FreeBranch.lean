/-
PintosThreads/FreeBranch.lean

The branch of `lock_acquire` for a free lock.

The branch is taken where `lock->holder` is NULL, and the `sema_down` in it
does not wait where the value of the semaphore is 1.  Whoever lowers the value
writes the holder later, and unless interrupts are off in between another
thread can find a lock that is neither free nor held.  There are two such
windows (`AboutToHold`): in `lock_try_acquire`, and in `lock_acquire` after a
wait.  A thread that takes the free branch while nobody is in them does not
block (`free_branch_finds_free`).  All of this holds whatever becomes of the
queues.
-/
import PintosThreads.SchedulerInv

namespace Pintos

variable {cfg : Config} {fuel : ℕ} {ok : Kernel → Label → Prop} {k k' : Kernel} {lab : Label}
variable {okCall : Call → Prop} {s s' : Sync} {t u : ThreadPtr} {l : LockPtr}

/-! ### The windows -/

/-- The frames that make a thread the holder of lock `l` some time after it has lowered the
semaphore, with interrupts on in between. -/
inductive Frame.TakesLate (l : LockPtr) : Frame → Prop
  | lockTryAcquireHolder : TakesLate l (lockTryAcquireHolder l)
  | lockAcquireHeld : TakesLate l (lockAcquireHeld l)

/-- The next thing that the thread does, once it has returned from interrupts, is to make itself
the holder of lock `l`. -/
inductive AboutToHold (l : LockPtr) : List Frame → Prop
  | here {f fs} : f.TakesLate l → AboutToHold l (f :: fs)
  | level {old fs} : AboutToHold l fs → AboutToHold l (.intrSetLevel old :: fs)
  | yield {fs} : AboutToHold l fs → AboutToHold l (.threadYield :: fs)

/-- The frames that come after a change of the lock with interrupts off. -/
inductive Frame.Masked : Frame → Prop
  | lockAcquireFree {m old} : Masked (lockAcquireFree m old)
  | semaUp {m} : Masked (semaUp (.ofLock m))

theorem Frame.Masked.share {f : Frame} (h : f.Masked) : ∃ l, f.share l = 1 := by
  cases h with
  | @lockAcquireFree l | @semaUp l => exact ⟨l, by simp [Frame.share]⟩

theorem Frame.TakesLate.share {f : Frame} (h : f.TakesLate l) : f.share l = 1 := by
  cases h <;> simp [Frame.share]

/-- Below a frame with a share that is no `sema_down` there are no others. -/
theorem Stacked.share_below {f x : Frame} {fs : List Frame} {m : LockPtr} (h : Stacked (f :: fs))
    (hf : 0 < f.share m) (hx : x ∈ fs) : x.share l = 0 := by
  by_contra hne
  rcases h.of_share_mem hx hne with hd | rfl | ⟨old, rfl⟩
  · rw [hd.share] at hf
    split at hf <;> omega
  · exact lt_irrefl _ hf
  · exact lt_irrefl _ hf

theorem stackShare_eq_zero {fs : List Frame} (h : ∀ x ∈ fs, x.share l = 0) :
    stackShare l fs = 0 := by
  induction fs with
  | nil => rfl
  | cons f fs ih =>
      rw [stackShare_cons, h f (.head _), ih fun x hx => h x (.tail _ hx)]
      rfl

theorem AboutToHold.share {fs : List Frame} (h : AboutToHold l fs) (hs : Stacked fs) :
    stackShare l fs = 1 := by
  induction h with
  | here hf =>
      have hpos := hf.share
      rw [stackShare_cons, hpos, stackShare_eq_zero fun x => hs.share_below (hpos ▸ one_pos)]
      rfl
  | level _ ih | yield _ ih =>
      rw [stackShare_cons, ih hs.2]
      rfl

/-- A thread with the token is about to become the holder, unless a masked frame stands for it. -/
theorem Stacked.aboutToHold : ∀ {fs : List Frame}, Stacked fs → 0 < stackShare l fs →
    (∀ f ∈ fs, ¬ f.Masked) → AboutToHold l fs
  | [], _, hpos, _ => absurd hpos (lt_irrefl _)
  | f :: fs, hs, hpos, hm => by
      by_cases hy : f = .threadYield ∨ ∃ old, f = .intrSetLevel old
      · -- the return from an interrupt
        rcases hy with rfl | ⟨old, rfl⟩
        · exact .yield (hs.2.aboutToHold (by simpa [Frame.share] using hpos)
            fun f hf => hm f (.tail _ hf))
        · exact .level (hs.2.aboutToHold (by simpa [Frame.share] using hpos)
            fun f hf => hm f (.tail _ hf))
      · by_cases hd : f.Downs (.ofLock l)
        · -- the `sema_down` has not come back, and there is nothing below the frame it is for
          exfalso
          obtain ⟨g, hg, hgt⟩ := hs.1.downs_lock hd
          cases fs with
          | nil => cases hg
          | cons g' fs =>
              obtain rfl : g' = g := Option.some.inj hg
              have hz : stackShare l fs = 0 := stackShare_eq_zero fun x =>
                hs.2.share_below (m := l) (by rw [hgt.share, if_pos rfl]; exact one_pos)
              simp only [stackShare_cons, hd.share, hgt.share, hz, if_true] at hpos
              omega
        · have hz : stackShare l fs = 0 := by
            refine stackShare_eq_zero fun x hx => ?_
            by_contra hne
            rcases hs.of_share_mem hx hne with h | h
            · exact hd h
            · exact hy h
          rw [stackShare_cons, hz, add_zero] at hpos
          refine .here ?_
          unfold Frame.share at hpos
          split at hpos
          case h_1 m old => exact absurd .lockAcquireFree (hm _ (.head _))
          case h_2 m =>
            split at hpos
            case isTrue e => exact e ▸ .lockAcquireHeld
            case isFalse => exact absurd hpos (lt_irrefl _)
          case h_3 m =>
            split at hpos
            case isTrue e => exact e ▸ .lockTryAcquireHolder
            case isFalse => exact absurd hpos (lt_irrefl _)
          case h_4 m => exact absurd .semaUp (hm _ (.head _))
          case h_5 m | h_6 m old => split at hpos <;> omega
          case h_7 => exact absurd hpos (lt_irrefl _)

/-! ### Interrupts are off -/

/-- A masked frame comes next, or after a `sema_down` that finds the unit. -/
inductive AtMasked (value : SemaPtr → ℕ) : List Frame → Prop
  | next {f fs} : f.Masked → AtMasked value (f :: fs)
  | down {m old fs} : value (.ofLock m) ≠ 0 →
      AtMasked value (.semaDown (.ofLock m) :: .lockAcquireFree m old :: fs)

/-- Only the running thread, with interrupts off, is in front of a masked frame. -/
def Masked (k : Kernel) : Prop :=
  ∀ u, ∀ f ∈ k.stack u, f.Masked →
    u = k.cur ∧ k.intrOn = false ∧ AtMasked k.semaValue (k.stack u)

theorem Masked.not_mem (M : Masked k) (hn : ¬ AtMasked k.semaValue (k.stack k.cur)) {f : Frame}
    (hf : f ∈ k.stack u) : ¬ f.Masked := by
  intro hm
  obtain ⟨rfl, -, ha⟩ := M u f hf hm
  exact hn ha

theorem Masked.not_mem_of_intrOn (M : Masked k) (hi : k.intrOn = true) {f : Frame}
    (hf : f ∈ k.stack u) : ¬ f.Masked := by
  intro hm
  obtain ⟨-, hoff, -⟩ := M u f hf hm
  rw [hi] at hoff
  cases hoff

/-- Nobody is about to become the holder of a lock that the free branch is taken for. -/
def Unclaimed (k : Kernel) : Label → Prop
  | .run => ∀ l fs, k.stack k.cur = .lockAcquireBody l :: fs → k.lockHolder l = none →
      ∀ u, ¬ AboutToHold l (k.stack u)
  | _ => True

/-- The value of a lock's semaphore in front of the free branch. -/
theorem Masked.value_iff (M : Masked k) (C : Control k) {fs : List Frame}
    (e : k.stack k.cur = .lockAcquireBody l :: fs) (hh : k.lockHolder l = none) :
    k.semaValue (.ofLock l) ≠ 0 ↔ ∀ u, ¬ AboutToHold l (k.stack u) := by
  have hshare : ∀ u, k.sync.share l u = stackShare l (k.stack u) := by
    intro u
    have hz : k.sync.held l u = 0 := if_neg (by simp [hh])
    rw [Sync.share, hz, add_zero]
    rfl
  have hn : ¬ AtMasked k.semaValue (k.stack k.cur) := by
    rw [e]
    rintro (hm | -)
    cases hm
  constructor
  · intro hv u hu
    have hpos : 0 < k.sync.share l u := by
      rw [hshare, hu.share (C.inv.stacked u)]
      exact one_pos
    exact hv ((C.lock l).one.free hpos)
  · intro ha hv
    rcases (C.lock l).one with ⟨h1, -⟩ | ⟨-, u, hu, -⟩
    · exact absurd (hv.symm.trans h1) (by decide)
    · rw [hshare] at hu
      exact ha u ((C.inv.stacked u).aboutToHold (hu ▸ one_pos) fun f hf => M.not_mem hn hf)

/-! ### One step -/

theorem Frame.Preempts.not_masked {f : Frame} (h : f.Preempts) : ¬ f.Masked := by
  rintro (- | -) <;> cases h

theorem Local.not_masked {f g : Frame} {gs : List Frame} (h : Local f gs) (hg : g ∈ gs) :
    ¬ g.Masked := by
  cases h with
  | preempt _ hp | threadCreateUnblock hp =>
      obtain rfl := List.mem_singleton.mp hg
      exact hp.not_masked
  | _ => rintro (- | -) <;> simp at hg

/-- A masked frame is left by the free branch and by `lock_release`. -/
theorem Move.masked {f g : Frame} {gs : List Frame} (h : Move t s f gs s') (hg : g ∈ gs)
    (hm : g.Masked) :
    (∃ l old, f = .lockAcquireBody l ∧ s.holder l = none ∧
      gs = [.semaDown (.ofLock l), .lockAcquireFree l old]) ∨
    ∃ l old, f = .lockReleaseBody l ∧ gs = [.semaUp (.ofLock l), .lockReleaseRefresh old] := by
  cases h with
  | quiet hl => exact absurd hm (hl.not_masked hg)
  | up hp =>
      obtain rfl := List.mem_singleton.mp hg
      exact absurd hm hp.not_masked
  | lockAcquireFree hh => exact .inl ⟨_, _, rfl, hh, rfl⟩
  | lockReleaseBody => exact .inr ⟨_, _, rfl, rfl⟩
  | _ => rcases hm with - | - <;> simp at hg

theorem Call.not_masked (c : Call) : ¬ c.frame.Masked := by
  rintro h
  cases c <;> cases h

theorem Entry.not_masked {e : Entry} {f : Frame} (hf : f ∈ e.stack) : ¬ f.Masked := by
  rintro (- | -) <;> cases e <;> simp [Entry.stack] at hf

/-- The frames of lock operations that do not give up the processor, with interrupts off. -/
theorem exec_masked {f : Frame} (h : exec cfg fuel k f = some k')
    (hf : (∃ l, f = .lockAcquireBody l ∧ k.lockHolder l = none) ∨ (∃ l, f = .lockReleaseBody l)) :
    k'.cur = k.cur ∧ k'.intrOn = false ∧ k'.semaValue = k.semaValue := by
  rcases hf with ⟨l, rfl, hh⟩ | ⟨l, rfl⟩
  · simp only [exec, hh] at h
    cases h
    exact ⟨rfl, rfl, rfl⟩
  · simp only [exec] at h
    obtain ⟨k₁, h₁, rfl⟩ := Option.map_eq_some_iff.mp h
    simp only [releaseLock, Option.bind_eq_bind, Option.bind_eq_some_iff] at h₁
    obtain ⟨le, -, n, -, e, -, h₁⟩ := h₁
    cases h₁
    exact ⟨rfl, rfl, rfl⟩

/-- Calls and interrupts leave no masked frames. -/
theorem SyncStep.not_masked (h : SyncStep k lab s') (hl : lab ≠ .run)
    (hk : ∀ u, ∀ f ∈ k.stack u, ¬ f.Masked) (u : ThreadPtr) : ∀ f ∈ s'.stack u, ¬ f.Masked := by
  intro f hf
  cases h with
  | run => exact absurd rfl hl
  | @call c _ =>
      obtain rfl | hu := eq_or_ne u k.cur
      · obtain rfl : f = c.frame := by simpa using hf
        exact c.not_masked
      · exact hk u f (by simpa [hu] using hf)
  | @interrupt _ fs' s₂ _ hi hh =>
      obtain rfl | hu := eq_or_ne u k.cur
      · have hf : f ∈ fs' := by simpa using hf
        generalize e : k.stack k.cur = fs at hi
        have hfs : ∀ g ∈ fs, ¬ g.Masked := e ▸ hk k.cur
        cases hi with
        | none => exact hfs f hf
        | halt =>
            rcases List.mem_cons.mp hf with rfl | hf
            · exact nofun
            · exact hfs f (.tail _ hf)
        | haltYield =>
            rcases List.mem_cons.mp hf with rfl | hf
            · exact nofun
            · rcases List.mem_cons.mp hf with rfl | hf
              · exact nofun
              · exact hfs f (.tail _ hf)
        | yield =>
            rcases List.mem_cons.mp hf with rfl | hf
            · exact nofun
            · exact hfs f hf
      · have hst : s₂.stack = k.stack := by cases hh <;> rfl
        exact hk u f (by simpa [hu, hst] using hf)

/-- **Masked frames stay masked** where the free branch is taken for unclaimed locks. -/
theorem Masked.run {f : Frame} {fs : List Frame} (M : Masked k) (C : Control k)
    (hc : k.cur < k.nextThread) (hU : Unclaimed k .run) (e : k.stack k.cur = f :: fs)
    (h : step cfg fuel k .run = some k') : Masked k' := by
  obtain ⟨hs, -⟩ := step_syncStep hc h
  have hx : exec cfg fuel (popFrame k fs) f = some k' := by rwa [step, e] at h
  have hst : Stacked (f :: fs) := e ▸ C.inv.stacked k.cur
  intro u g hg hm
  have hstack : k'.stack u = k'.sync.stack u := rfl
  rw [hstack] at hg ⊢
  generalize hk : k'.sync = s₁ at hs hg
  cases hs with
  | interrupt hl => exact absurd rfl hl
  | @run f' fs' gs s₂ e' hmv =>
      obtain ⟨rfl, rfl⟩ := List.cons.inj (e'.symm.trans e)
      obtain ⟨ht, ho⟩ := hmv.stack_run C.inv.unborn e
      have hown : u = k.cur := by
        by_contra hu
        have hg : g ∈ s₂.stack u := by simpa [hu] using hg
        rcases ho u hu with ho | ⟨p, en, n, r, rfl, -, ho⟩
        · rw [ho] at hg
          exact hu (M u g hg hm).1
        · rw [ho] at hg
          exact Entry.not_masked hg hm
      subst hown
      have hst' : (s₂.setStack k.cur (gs ++ s₂.stack k.cur)).stack k.cur = gs ++ fs' := by
        simp [ht]
      rw [hst'] at hg ⊢
      rcases List.mem_append.mp hg with hg | hg
      · -- the frame comes into being, with interrupts off
        rcases hmv.masked hg hm with ⟨l, old, rfl, hh, rfl⟩ | ⟨l, old, rfl, rfl⟩
        · obtain ⟨hcur, hoff, hval⟩ := exec_masked hx (.inl ⟨l, rfl, hh⟩)
          refine ⟨hcur.symm, hoff, .down ?_⟩
          rw [hval]
          exact (M.value_iff C e hh).mpr (hU l fs' e hh)
        · obtain ⟨hcur, hoff, -⟩ := exec_masked hx (.inr ⟨l, rfl⟩)
          exact ⟨hcur.symm, hoff, .next .semaUp⟩
      · -- the `sema_down` above it has found the unit
        obtain ⟨-, hoff, ha⟩ := M k.cur g (e ▸ .tail _ hg) hm
        rw [e] at ha
        cases ha with
        | next hf =>
            exfalso
            obtain ⟨m, hfm⟩ := hf.share
            obtain ⟨l, hgl⟩ := hm.share
            have hz := hst.share_below (l := l) (hfm ▸ one_pos) hg
            rw [hgl] at hz
            cases hz
        | @down m old fs₃ hv =>
            obtain rfl : gs = [] := by
              cases hmv with
              | down => rfl
              | wait hd h0 =>
                  cases hd
                  exact absurd h0 hv
              | quiet hl => cases hl with | preempt hc | preemptEnd hc => cases hc.1
              | take hf => cases hf
            have hx : semaDownTest cfg fuel ((popFrame k (.lockAcquireFree m old :: fs₃)).setLevel
                false) (.ofLock m) k.intrOn = some k' := hx
            rw [semaDownTest, if_neg (show ¬ ((popFrame k _).setLevel false).semaValue _ = 0 from hv)]
              at hx
            cases hx
            exact ⟨rfl, hoff, .next .lockAcquireFree⟩

/-- **Every step** keeps masked frames masked. -/
theorem Masked.step (M : Masked k) (C : Control k) (hc : k.cur < k.nextThread)
    (hU : Unclaimed k lab) (h : Pintos.step cfg fuel k lab = some k') : Masked k' := by
  have hquiet : lab ≠ .run → (∀ u, ∀ f ∈ k.stack u, ¬ f.Masked) → Masked k' := by
    intro hl hk u f hf hm
    obtain ⟨hs, -⟩ := step_syncStep hc h
    exact absurd hm (hs.not_masked hl hk u f hf)
  have hintr : k.intrOn = true → lab ≠ .run → Masked k' :=
    fun hi hl => hquiet hl fun _ _ hf => M.not_mem_of_intrOn hi hf
  cases lab with
  | call c =>
      refine hquiet (by rintro ⟨⟩) fun u f hf => M.not_mem ?_ hf
      rw [Pintos.step] at h
      split at h
      case isTrue e =>
        rw [e]
        rintro (- | -)
      case isFalse => cases h
  | run =>
      rcases e : k.stack k.cur with - | ⟨f, fs⟩
      · simp [Pintos.step, e] at h
      · exact M.run C hc hU e h
  | timer | semaUp | semaTryDown =>
      rw [Pintos.step] at h
      split at h
      case isTrue hi => exact hintr hi (by rintro ⟨⟩)
      case isFalse => cases h

theorem boot_masked (cfg : Config) : Masked (boot cfg) := by
  intro u f hf hm
  rcases boot_stack hf with rfl | rfl <;> cases hm

theorem Reachable.masked (hU : ∀ k lab, Reachable cfg ok k → ok k lab → Unclaimed k lab)
    (h : Reachable cfg ok k) : Masked k := by
  induction h with
  | refl => exact boot_masked cfg
  | tail hr hs ih =>
      obtain ⟨lab, fuel, hl, hs⟩ := hs
      exact ih.step (Reachable.control hr) (Reachable.anySync hr).2 (hU _ _ hr hl) hs

/-! ### Waiting and donating -/

theorem Write.waitingLock {o : Option Frame} (h : Write cfg o k k')
    (ho : ∀ f, o = some f → ¬ f.WritesWaiting) :
    k.nextThread ≤ k'.nextThread ∧
      ∀ u, u < k.nextThread → (k'.thr u).waitingLock = (k.thr u).waitingLock := by
  have hmod : ∀ {g : Thread → Thread} (t : ThreadPtr), (∀ th, (g th).waitingLock = th.waitingLock) →
      ∀ u, ((k.modify t g).thr u).waitingLock = (k.thr u).waitingLock := by
    intro g t hg u
    obtain rfl | hu := eq_or_ne u t <;> simp [*]
  cases h with
  | silent hs => exact ⟨hs.nextThread.ge, fun u _ => hs.waitingLock u⟩
  | links | insert | idle | unlist | clock | dispatch => exact ⟨le_rfl, fun _ _ => rfl⟩
  | priority | compute | nice | setNice | recentCpu =>
      refine ⟨le_rfl, fun u _ => ?_⟩
      apply hmod
      exact fun _ => rfl
  | @wake t =>
      refine ⟨le_rfl, fun u _ => ?_⟩
      obtain rfl | hu := eq_or_ne u t <;> simp [*]
  | sleep =>
      refine ⟨le_rfl, fun u _ => ?_⟩
      obtain rfl | hu := eq_or_ne u k.cur <;> simp [insertSleeper, *]
  | link =>
      refine ⟨Nat.le_succ _, fun u hu => ?_⟩
      simp [linkThread, hu.ne]
  | waiting e hw => exact absurd hw (ho _ e)

theorem Writes.waitingLock {o : Option Frame} (h : Writes cfg o k k')
    (ho : ∀ f, o = some f → ¬ f.WritesWaiting) :
    ∀ u, u < k.nextThread → (k'.thr u).waitingLock = (k.thr u).waitingLock := by
  refine (h.induct (P := fun k' => k.nextThread ≤ k'.nextThread ∧
    ∀ u, u < k.nextThread → (k'.thr u).waitingLock = (k.thr u).waitingLock) ?_ ?_).2
  · rintro k₁ k₂ ⟨hn, hk⟩ hw
    obtain ⟨hn', hk'⟩ := hw.waitingLock ho
    exact ⟨hn.trans hn', fun u hu => (hk' u (hu.trans_le hn)).trans (hk u hu)⟩
  · exact ⟨le_rfl, fun _ _ => rfl⟩

/-- A frame writes at most the `waiting_lock` of the running thread. -/
theorem exec_waitingLock {f : Frame} (h : exec cfg fuel k f = some k') (hu : u < k.nextThread)
    (hf : ¬ (u = k.cur ∧ f.WritesWaiting)) : (k'.thr u).waitingLock = (k.thr u).waitingLock := by
  by_cases hw : f.WritesWaiting
  · have hu : u ≠ k.cur := fun e => hf ⟨e, hw⟩
    cases hw with
    | @lockAcquireBody l =>
        rcases hh : k.lockHolder l with - | t
        · simp only [exec, hh] at h
          cases h
          rfl
        · simp only [exec, hh] at h
          obtain ⟨k₁, h₁, rfl⟩ := Option.map_eq_some_iff.mp h
          obtain ⟨p, e, -⟩ := (waitForLock_contends h₁).thr u
          have e' : (k₁.thr u).waitingLock = (k.thr u).waitingLock := by
            rw [e]
            exact if_neg hu
          exact e'
    | @lockAcquireHeld l =>
        obtain ⟨k₁, h₁, rfl⟩ := Option.map_eq_some_iff.mp h
        obtain ⟨e, -, rfl⟩ := Option.map_eq_some_iff.mp h₁
        simp [hu]
  · refine (exec_writes h).waitingLock ?_ u hu
    rintro _ ⟨⟩
    exact hw

/-- The ghost variable of donations after a step: the running thread has called `donate_priority`
for the holder of a lock. -/
def donationsAfter (k : Kernel) (d : ThreadPtr → Option (LockPtr × ThreadPtr)) :
    Label → ThreadPtr → Option (LockPtr × ThreadPtr)
  | .run =>
      match k.stack k.cur with
      | .lockAcquireBody l :: _ =>
          match k.lockHolder l with
          | some h => Function.update d k.cur (some (l, h))
          | none => d
      | _ => d
  | _ => d

/-- A run, with the lock whose holder each thread has donated to last, and that holder. -/
inductive Donations (cfg : Config) (ok : Kernel → Label → Prop) :
    Kernel → (ThreadPtr → Option (LockPtr × ThreadPtr)) → Prop
  | boot : Donations cfg ok (boot cfg) fun _ => none
  | step {k k' d lab fuel} : Donations cfg ok k d → ok k lab → step cfg fuel k lab = some k' →
      Donations cfg ok k' (donationsAfter k d lab)

variable {d : ThreadPtr → Option (LockPtr × ThreadPtr)}

theorem Donations.reachable (h : Donations cfg ok k d) : Reachable cfg ok k := by
  induction h with
  | boot => exact .refl
  | step _ hl hs ih => exact ih.tail ⟨_, _, hl, hs⟩

theorem Reachable.donations (h : Reachable cfg ok k) : ∃ d, Donations cfg ok k d := by
  induction h with
  | refl => exact ⟨_, .boot⟩
  | tail _ hs ih =>
      obtain ⟨lab, fuel, hl, hs⟩ := hs
      obtain ⟨d, hd⟩ := ih
      exact ⟨_, hd.step hl hs⟩

theorem donationsAfter_of_ne {f : Frame} {fs : List Frame} (e : k.stack k.cur = f :: fs)
    (hf : ¬ (u = k.cur ∧ f.WritesWaiting)) : donationsAfter k d .run u = d u := by
  cases f with
  | lockAcquireBody l =>
      have hu : u ≠ k.cur := fun hu => hf ⟨hu, .lockAcquireBody⟩
      rcases hh : k.lockHolder l with - | h <;> simp [donationsAfter, e, hh, hu]
  | _ => simp only [donationsAfter, e]

theorem donationsAfter_body {fs : List Frame} (e : k.stack k.cur = .lockAcquireBody l :: fs)
    (hh : k.lockHolder l = some t) : donationsAfter k d .run k.cur = some (l, t) := by
  simp [donationsAfter, e, hh]

/-- Whoever is in the contended branch for lock `l` waits for it, and has donated. -/
def WaitsDonated (k : Kernel) (d : ThreadPtr → Option (LockPtr × ThreadPtr)) : Prop :=
  ∀ u l, .lockAcquireHeld l ∈ k.stack u → (k.thr u).waitingLock = some l ∧ ∃ h, d u = some (l, h)

theorem WaitsDonated.run {f : Frame} {fs : List Frame} (W : WaitsDonated k d) (C : Control k)
    (hc : k.cur < k.nextThread) (e : k.stack k.cur = f :: fs)
    (h : step cfg fuel k .run = some k') : WaitsDonated k' (donationsAfter k d .run) := by
  obtain ⟨hs, -⟩ := step_syncStep hc h
  have hx : exec cfg fuel (popFrame k fs) f = some k' := by rwa [step, e] at h
  intro u l hu
  have hstack : k'.stack u = k'.sync.stack u := rfl
  rw [hstack] at hu
  generalize k'.sync = s₁ at hs hu
  cases hs with
  | interrupt hl => exact absurd rfl hl
  | @run f' fs' gs s₂ e' hmv =>
      obtain ⟨rfl, rfl⟩ := List.cons.inj (e'.symm.trans e)
      rcases (C.inv.held_run e hmv l u).mp hu with ⟨hold, hne⟩ | ⟨rfl, rfl, hh⟩
      · -- it has been waiting before, and it is not the one that begins
        have hf : ¬ (u = k.cur ∧ f'.WritesWaiting) := by
          rintro ⟨rfl, hw⟩
          have hst : Stacked (f' :: fs') := e ▸ C.inv.stacked k.cur
          have hmem : .lockAcquireHeld l ∈ fs' := by
            have hold : .lockAcquireHeld l ∈ k.stack k.cur := hold
            rw [e] at hold
            exact (List.mem_cons.mp hold).resolve_left fun hl => hne ⟨rfl, hl.symm⟩
          rcases hst.of_held_mem hmem with hd | rfl | ⟨old, rfl⟩
          · cases hd <;> cases hw
          · cases hw
          · cases hw
        have hlt : u < k.nextThread := C.inv.unborn.lt (List.ne_nil_of_mem hold)
        rw [donationsAfter_of_ne e hf, exec_waitingLock (k := popFrame k fs') hx hlt hf]
        exact W u l hold
      · -- it begins to wait
        obtain ⟨t, hh⟩ := Option.ne_none_iff_exists'.mp hh
        have hh : k.lockHolder l = some t := hh
        refine ⟨?_, t, donationsAfter_body e hh⟩
        have hx : (waitForLock cfg fuel (popFrame k fs') l t).map
            (·.pushes [.semaDown (.ofLock l), .lockAcquireHeld l]) = some k' := by
          simpa only [exec, hh, popFrame] using hx
        obtain ⟨k₁, h₁, rfl⟩ := Option.map_eq_some_iff.mp hx
        obtain ⟨p, e₁, -⟩ := (waitForLock_contends h₁).thr k.cur
        rw [Kernel.pushes_thr, e₁]
        exact if_pos rfl

theorem WaitsDonated.step (W : WaitsDonated k d) (C : Control k) (hc : k.cur < k.nextThread)
    (h : Pintos.step cfg fuel k lab = some k') : WaitsDonated k' (donationsAfter k d lab) := by
  by_cases hl : lab = .run
  · subst hl
    rcases e : k.stack k.cur with - | ⟨f, fs⟩
    · simp [Pintos.step, e] at h
    · exact W.run C hc e h
  · -- calls and interrupts neither wait for locks nor donate
    obtain ⟨hs, -⟩ := step_syncStep hc h
    have hframe : lab.frame k = none := by
      cases lab <;> first | rfl | exact absurd rfl hl
    have hd : donationsAfter k d lab = d := by
      cases lab <;> first | rfl | exact absurd rfl hl
    intro u l hu
    have hold : .lockAcquireHeld l ∈ k.stack u := (hs.held_mem hl u l).mp hu
    have hw := (hframe ▸ step_writes h : Writes cfg none k k').waitingLock (by rintro _ ⟨⟩) u
      (C.inv.unborn.lt (List.ne_nil_of_mem hold))
    rw [hw, hd]
    exact W u l hold

theorem Donations.waitsDonated (h : Donations cfg ok k d) : WaitsDonated k d := by
  induction h with
  | boot =>
      intro u l hu
      rcases boot_stack hu with h | h <;> cases h
  | step hd hl hs ih =>
      have hr := hd.reachable
      exact ih.step (Reachable.control hr) (Reachable.anySync hr).2 hs

/-! ### Runs -/

/-- **The free branch finds the lock free**: in a run where the branch is only taken while nobody
is about to become the holder, its `sema_down` finds the unit, and whoever sleeps in
`lock_acquire` does so in the other branch, waits for the lock and has donated to its holder. The
value in front of the branch is 0 exactly if somebody is about to become the holder. -/
theorem free_branch_finds_free
    (hU : ∀ k lab, Reachable cfg ok k → ok k lab → Unclaimed k lab) (h : Donations cfg ok k d) :
    (∀ l fs, k.stack k.cur = .lockAcquireBody l :: fs → k.lockHolder l = none →
      (k.semaValue (.ofLock l) ≠ 0 ↔ ∀ u, ¬ AboutToHold l (k.stack u))) ∧
    (∀ t l old fs, k.stack t = .semaDown (.ofLock l) :: .lockAcquireFree l old :: fs →
      t = k.cur ∧ k.intrOn = false ∧ k.semaValue (.ofLock l) ≠ 0) ∧
    ∀ t l old fs, k.stack t = .semaDownWait (.ofLock l) old :: fs →
      (∃ gs, fs = .lockAcquireHeld l :: gs) ∧ (k.thr t).waitingLock = some l ∧
        ∃ holder, d t = some (l, holder) := by
  have hr := h.reachable
  have C : Control k := Reachable.control hr
  have M := hr.masked hU
  refine ⟨fun l fs e hh => M.value_iff C e hh, fun t l old fs e => ?_, fun t l old fs e => ?_⟩
  · have hm : .lockAcquireFree l old ∈ k.stack t := by simp [e]
    obtain ⟨ht, hoff, ha⟩ := M t _ hm .lockAcquireFree
    rw [e] at ha
    cases ha with
    | next hf => cases hf
    | down hv => exact ⟨ht, hoff, hv⟩
  · -- below the `sema_down` there is one of the two branches
    have hst : Stacked (.semaDownWait (.ofLock l) old :: fs) := e ▸ C.inv.stacked t
    obtain ⟨g, hg, hgt⟩ := hst.1.downs_lock .semaDownWait
    obtain ⟨gs, rfl⟩ : ∃ gs, fs = g :: gs := ⟨_, (List.cons_head?_tail hg).symm⟩
    cases hgt with
    | lockAcquireFree =>
        exfalso
        obtain ⟨-, -, ha⟩ := M t _ (by rw [e]; exact .tail _ (.head _)) .lockAcquireFree
        rw [e] at ha
        cases ha with | next hf => cases hf
    | lockAcquireHeld =>
        have hw := h.waitsDonated t l (by rw [e]; exact .tail _ (.head _))
        exact ⟨⟨gs, rfl⟩, hw⟩
    | lockTryAcquireHolder =>
        exfalso
        rcases hst.1 with ⟨_, hlev⟩ | ⟨π, ho, -⟩
        · cases hlev
        · cases ho

/-- `AboutToHold`, computed. -/
def aboutToHold (l : LockPtr) : List Frame → Bool
  | .intrSetLevel _ :: fs | .threadYield :: fs => aboutToHold l fs
  | .lockTryAcquireHolder m :: _ | .lockAcquireHeld m :: _ => m = l
  | _ => false

theorem AboutToHold.check {fs : List Frame} (h : AboutToHold l fs) : aboutToHold l fs = true := by
  induction h with
  | here hf => cases hf <;> simp [aboutToHold]
  | level _ ih | yield _ ih => exact ih

/-- `Unclaimed`, computed. -/
def Label.unclaimed (k : Kernel) : Label → Bool
  | .run =>
      match k.stack k.cur with
      | .lockAcquireBody l :: _ => k.lockHolder l ≠ none ||
          (List.range k.nextThread).all fun u => !aboutToHold l (k.stack u)
      | _ => true
  | _ => true

theorem Label.unclaimed.of_check (hn : k.sync.Unborn) (h : lab.unclaimed k = true) :
    Unclaimed k lab := by
  cases lab with
  | run =>
      intro l fs e hh u hu
      simp only [Label.unclaimed, e, hh, ne_eq, not_true, decide_false, Bool.false_or,
        List.all_eq_true, List.mem_range] at h
      have hlt : u < k.nextThread := hn.lt fun e' => by
        have e' : k.stack u = [] := e'
        rw [e'] at hu
        cases hu
      have hc := h u hlt
      rw [hu.check] at hc
      cases hc
  | _ => trivial

/-- Thread 2 sleeps in `lock_acquire` for a lock of the initial thread. -/
theorem free_branch_finds_free_waiting : ∃ k d,
    Donations priorityConfig (fun k lab => lab.unclaimed k) k d ∧
      k.stack 2 = [.semaDownWait (.ofLock (.user 0)) true, .lockAcquireHeld (.user 0)] ∧
        (k.thr 2).waitingLock = some (.user 0) ∧ ∃ holder, d 2 = some (.user 0, holder) := by
  obtain ⟨k, hr, hk⟩ := exists_reachable priorityConfig 70 (fun k lab => lab.unclaimed k)
    (List.replicate 19 Label.run ++ [Label.call (.lockAcquire 0)] ++ List.replicate 4 Label.run ++
      [Label.call (.threadCreate 40)] ++ List.replicate 10 Label.run ++
      [Label.call (.lockAcquire 0), .run, .run, .run])
    (fun k => k.stack 2 = [.semaDownWait (.ofLock (.user 0)) true, .lockAcquireHeld (.user 0)])
    (by decide +kernel)
  obtain ⟨d, hd⟩ := hr.donations
  have e := of_decide_eq_true hk
  obtain ⟨-, -, hw⟩ := free_branch_finds_free
    (fun k _ hr h => Label.unclaimed.of_check (Reachable.control hr).inv.unborn h) hd
  exact ⟨k, d, hd, e, (hw 2 _ _ _ e).2⟩

/-- The initial thread is interrupted in `lock_try_acquire` before it writes the holder: thread 2
takes the free branch, finds no unit and sleeps without having donated. -/
theorem free_branch_blocks : ∃ k k', Reachable priorityConfig (fun _ _ => True) k ∧
    k.stack k.cur = [.semaDown (.ofLock (.user 0)), .lockAcquireFree (.user 0) true] ∧
      k.lockHolder (.user 0) = none ∧ k.semaValue (.ofLock (.user 0)) = 0 ∧
    step priorityConfig 70 k .run = some k' ∧ (k'.thr 2).status = .blocked ∧
      k'.stack 2 = [.semaDownWait (.ofLock (.user 0)) false, .lockAcquireFree (.user 0) true] ∧
        (k'.thr 2).waitingLock = none := by
  obtain ⟨k, hr, hk⟩ := exists_reachable priorityConfig 70 (fun _ _ => True)
    (List.replicate 19 Label.run ++ [Label.call (.threadCreate 31)] ++ List.replicate 8 Label.run ++
      [Label.call (.lockTryAcquire 0), .run, .run, .timer, .timer, .timer, .timer, .run,
        .call (.lockAcquire 0), .run, .run])
    (fun k => k.stack k.cur = [.semaDown (.ofLock (.user 0)), .lockAcquireFree (.user 0) true] &&
      (k.lockHolder (.user 0) = none && (k.semaValue (.ofLock (.user 0)) = 0 &&
        (step priorityConfig 70 k .run).any fun k' => (k'.thr 2).status = .blocked &&
          (k'.stack 2 = [.semaDownWait (.ofLock (.user 0)) false,
            .lockAcquireFree (.user 0) true] && (k'.thr 2).waitingLock = none))))
    (by decide +kernel)
  simp only [Bool.and_eq_true, decide_eq_true_eq] at hk
  obtain ⟨hs, hh, hv, hk⟩ := hk
  obtain ⟨k', h, hp⟩ := (Option.any_eq_true _ _).mp hk
  simp only [Bool.and_eq_true, decide_eq_true_eq] at hp
  obtain ⟨hb, hs', hw⟩ := hp
  exact ⟨k, k', hr, hs, hh, hv, h, hb, hs', hw⟩

end Pintos
