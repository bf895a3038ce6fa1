/-
PintosThreads/LockExclusion.lean

Mutual exclusion of locks, for every interleaving of the synchronization
machine.

The semaphore of a lock is one token.  Whoever has decremented it has the
token, and it can be told from the thread's stack and from `lock->holder`
where in its acquire or release the thread is: the frames that will write
`holder`, or that will increment the semaphore, stand for the token, a
`sema_down` that has not yet come back stands for the lack of it, and in
between the holder field stands for it (`Sync.share`).
-/
import PintosThreads.SyncInv
import PintosThreads.Token
import PintosThreads.Runs

namespace Pintos

variable {okCall : Call → Prop} {l : LockPtr} {t : ThreadPtr} {s s' : Sync}

/-! ### The token of a lock -/

/-- What a frame says of the token of lock `l`. -/
def Frame.share (l : LockPtr) : Frame → ℤ
  | lockAcquireFree m _ | lockAcquireHeld m | lockTryAcquireHolder m => if m = l then 1 else 0
  | semaUp (.ofLock m) => if m = l then 1 else 0
  | semaDown (.ofLock m) | semaDownWait (.ofLock m) _ => if m = l then -1 else 0
  | _ => 0

/-- What a stack says of it. -/
def stackShare (l : LockPtr) (fs : List Frame) : ℤ :=
  (fs.map (Frame.share l)).sum

/-- Whether the `holder` field says that `t` has it. -/
def Sync.held (s : Sync) (l : LockPtr) (t : ThreadPtr) : ℤ :=
  if s.holder l = some t then 1 else 0

/-- What thread `t` has of the token of lock `l`. -/
def Sync.share (s : Sync) (l : LockPtr) (t : ThreadPtr) : ℤ :=
  stackShare l (s.stack t) + s.held l t

/-- The downs less the ups of the semaphore of lock `l` by thread `t`. -/
def Sync.balance (s : Sync) (l : LockPtr) (t : ThreadPtr) : ℤ :=
  (s.events.count (.down (some t) (.ofLock l)) : ℤ) -
    s.events.count (.up (some t) (.ofLock l))

@[simp]
theorem stackShare_nil (l : LockPtr) : stackShare l [] = 0 :=
  rfl

@[simp]
theorem stackShare_cons (l : LockPtr) (f : Frame) (fs : List Frame) :
    stackShare l (f :: fs) = f.share l + stackShare l fs := by
  simp [stackShare]

@[simp]
theorem stackShare_append (l : LockPtr) (gs fs : List Frame) :
    stackShare l (gs ++ fs) = stackShare l gs + stackShare l fs := by
  simp [stackShare]

theorem Frame.Preempts.share {f : Frame} (h : f.Preempts) (l : LockPtr) : f.share l = 0 := by
  cases h <;> rfl

theorem Frame.Takes.share {f : Frame} {m : LockPtr} (h : f.Takes m) (l : LockPtr) :
    f.share l = if m = l then 1 else 0 := by
  cases h <;> rfl

theorem Frame.Downs.share {f : Frame} {p : SemaPtr} (h : f.Downs p) (l : LockPtr) :
    f.share l = if p = .ofLock l then -1 else 0 := by
  cases h <;> cases p <;> simp [Frame.share]

theorem Call.share (c : Call) (l : LockPtr) : c.frame.share l = 0 := by
  cases c <;> rfl

theorem Entry.share (e : Entry) (l : LockPtr) : stackShare l e.stack = 0 := by
  cases e <;> rfl

theorem Interrupted.share {fs fs' : List Frame} (h : Interrupted fs fs') (l : LockPtr) :
    stackShare l fs' = stackShare l fs := by
  cases h <;> simp [Frame.share]

/-- A `sema_down` of a lock's semaphore stands on the frame that will take the
lock. -/
theorem Over.downs_lock {f : Frame} {o : Option Frame} (h : Over f o)
    (hf : f.Downs (.ofLock l)) : ∃ g, o = some g ∧ g.Takes l := by
  obtain ⟨old, rfl⟩ | ⟨π, ho, hr⟩ := h
  · cases hf
  · cases ho with
    | user => exact absurd (by cases hf <;> constructor) hr
    | lockAcquireFree =>
        obtain ⟨⟩ | ⟨⟩ := hf <;> obtain ⟨⟩ | ⟨⟩ := hr <;> exact ⟨_, rfl, .lockAcquireFree⟩
    | lockAcquireHeld =>
        obtain ⟨⟩ | ⟨⟩ := hf <;> obtain ⟨⟩ | ⟨⟩ := hr <;> exact ⟨_, rfl, .lockAcquireHeld⟩
    | intrSetLevel | semaDown | lockAcquire | checkPreemption | condWaitReturn
    | allocateTidRead | threadCreateTid | idle => cases hf <;> cases hr
    | lockReleaseRefresh | condBroadcast | threadStart | idleLoop =>
        cases hf <;> exact hr.elim nofun nofun

theorem Frame.share_nonneg {f : Frame} (h : ¬ f.Downs (.ofLock l)) : 0 ≤ f.share l := by
  unfold Frame.share
  split
  case h_5 m =>
    have hm : m ≠ l := fun hm => h (hm ▸ .semaDown)
    simp [hm]
  case h_6 m old =>
    have hm : m ≠ l := fun hm => h (hm ▸ .semaDownWait)
    simp [hm]
  all_goals first | exact le_rfl | (split <;> decide)

/-- No stack has less than nothing. -/
theorem Stacked.share_nonneg (l : LockPtr) :
    ∀ {fs : List Frame}, Stacked fs → 0 ≤ stackShare l fs
  | [], _ => le_rfl
  | f :: fs, h => by
      by_cases hf : f.Downs (.ofLock l)
      · obtain ⟨g, hg, hgt⟩ := h.1.downs_lock hf
        match fs, hg, h with
        | g :: fs, rfl, h =>
            have hfs := Stacked.share_nonneg l h.2.2
            simp only [stackShare_cons, hf.share, hgt.share, if_true]
            omega
      · have hfs := Stacked.share_nonneg l h.2
        have hf := Frame.share_nonneg hf
        rw [stackShare_cons]
        omega

/-- Above a frame with a share there is only its `sema_down`, a yield or the return from an
interrupt. -/
theorem Stacked.of_share_mem {f x : Frame} {fs : List Frame} (h : Stacked (f :: fs))
    (hm : x ∈ fs) (hx : x.share l ≠ 0) :
    f.Downs (.ofLock l) ∨ f = .threadYield ∨ ∃ old, f = .intrSetLevel old := by
  induction fs generalizing f with
  | nil => cases hm
  | cons g fs ih =>
      obtain ⟨ho | ⟨π, ho, hr⟩, hfs⟩ := h
      · exact .inr (.inr ho)
      · rcases List.mem_cons.mp hm with rfl | hm
        · cases ho with
          | @lockAcquireFree m old | @lockAcquireHeld m =>
              obtain rfl : m = l := by simpa [Frame.share] using hx
              exact .inl hr
          | _ => exact absurd rfl hx
        · rcases ih hfs hm with hd | rfl | ⟨old, rfl⟩
          · cases hd <;> cases ho
          · cases ho
          · cases ho
            exact .inr (.inl hr)

/-! ### What a step does to the token -/

/-- What a frame, executed by thread `t`, does to the token of lock `l`. -/
inductive LockMove (l : LockPtr) (t : ThreadPtr) (s : Sync) (f : Frame) (gs : List Frame)
    (s' : Sync) : Prop
  | keep : stackShare l gs = f.share l → s'.value (.ofLock l) = s.value (.ofLock l) →
      s'.holder l = s.holder l → (∀ u, s'.balance l u = s.balance l u) → LockMove l t s f gs s'
  | down : stackShare l gs = f.share l + 1 → s.value (.ofLock l) ≠ 0 →
      s'.value (.ofLock l) = s.value (.ofLock l) - 1 → s'.holder l = s.holder l →
      (∀ u, s'.balance l u = s.balance l u + if u = t then 1 else 0) → LockMove l t s f gs s'
  | up : f = .semaUp (.ofLock l) → stackShare l gs = 0 →
      s'.value (.ofLock l) = (s.value (.ofLock l) + 1) % 2 ^ 32 → s'.holder l = s.holder l →
      (∀ u, s'.balance l u = s.balance l u - if u = t then 1 else 0) → LockMove l t s f gs s'
  | take : f.Takes l → gs = [] → s' = s.setHolder l (some t) → LockMove l t s f gs s'
  | drop {old} : f = .lockReleaseBody l →
      gs = [.semaUp (.ofLock l), .lockReleaseRefresh old] → s' = s.setHolder l none →
      LockMove l t s f gs s'

theorem Sync.balance_down (s : Sync) (p : SemaPtr) (t u : ThreadPtr) :
    (s.down (some t) p).balance l u =
      s.balance l u + if p = .ofLock l ∧ u = t then 1 else 0 := by
  by_cases h : p = .ofLock l ∧ u = t
  · obtain ⟨rfl, rfl⟩ := h
    simp [Sync.balance]
    omega
  · have hne : Event.down (some t) p ≠ .down (some u) (.ofLock l) := by
      rintro ⟨rfl, rfl⟩
      exact h ⟨rfl, rfl⟩
    simp [Sync.balance, List.count_cons_of_ne hne, h]

theorem Sync.balance_up (s : Sync) (p : SemaPtr) (t u : ThreadPtr) :
    (s.up (some t) p).balance l u =
      s.balance l u - if p = .ofLock l ∧ u = t then 1 else 0 := by
  by_cases h : p = .ofLock l ∧ u = t
  · obtain ⟨rfl, rfl⟩ := h
    simp [Sync.balance]
    omega
  · have hne : Event.up (some t) p ≠ .up (some u) (.ofLock l) := by
      rintro ⟨rfl, rfl⟩
      exact h ⟨rfl, rfl⟩
    simp [Sync.balance, List.count_cons_of_ne hne, h]

theorem Local.share {f : Frame} {gs : List Frame} (h : Local f gs) (l : LockPtr) :
    f.share l = 0 ∧ stackShare l gs = 0 := by
  cases h with
  | preempt hc hp => exact ⟨hc.1.share l, by simp [hp.share l]⟩
  | preemptEnd hc => exact ⟨hc.1.share l, rfl⟩
  | threadCreateUnblock hp => exact ⟨rfl, by simp [hp.share l]⟩
  | _ => exact ⟨rfl, rfl⟩

theorem Frame.share_semaUp (p : SemaPtr) (l : LockPtr) :
    (Frame.semaUp p).share l = if p = .ofLock l then 1 else 0 := by
  cases p <;> simp [Frame.share]

theorem Move.lockMove {f : Frame} {gs : List Frame} (h : Move t s f gs s')
    (ht : f ≠ .semaTryDown (.ofLock l)) : LockMove l t s f gs s' := by
  cases h with
  | quiet h => exact .keep ((h.share l).2.trans (h.share l).1.symm) rfl rfl fun _ => rfl
  | @down _ p hd hv =>
      by_cases hp : p = .ofLock l
      · subst hp
        refine .down (by simp [hd.share]) hv (by simp) rfl fun u => ?_
        simp [Sync.balance_down]
      · refine .keep (by simp [hd.share, hp]) ?_ rfl fun u => ?_
        · simp [Ne.symm hp]
        · simp [Sync.balance_down, hp]
  | wait hd hv =>
      refine .keep ?_ rfl rfl fun _ => rfl
      simp [hd.share, Frame.Downs.semaDownWait.share]
  | @tryDown p hv =>
      have hp : p ≠ .ofLock l := fun h => ht (h ▸ rfl)
      refine .keep rfl ?_ rfl fun u => ?_
      · simp [Ne.symm hp]
      · simp [Sync.balance_down, hp]
  | @up p g hg =>
      by_cases hp : p = .ofLock l
      · subst hp
        refine .up rfl (by simp [hg.share]) (by simp) rfl fun u => ?_
        simp [Sync.balance_up]
      · refine .keep ?_ ?_ rfl fun u => ?_
        · simp [hg.share, Frame.share_semaUp, hp]
        · simp [Ne.symm hp]
        · simp [Sync.balance_up, hp]
  | lockAcquireFree | lockAcquireHeld =>
      refine .keep ?_ rfl rfl fun _ => rfl
      simp only [stackShare_cons, stackShare_nil, Frame.share]
      split <;> rfl
  | @take _ m hf =>
      by_cases hm : m = l
      · subst hm
        exact .take hf rfl rfl
      · refine .keep (by simp [hf.share, hm]) rfl ?_ fun _ => rfl
        simp [Ne.symm hm]
  | @lockTryAcquireDown m hv =>
      by_cases hm : m = l
      · subst hm
        refine .down (by simp [Frame.share]) hv (by simp) rfl fun u => ?_
        simp [Sync.balance_down]
      · refine .keep (by simp [Frame.share, hm]) ?_ rfl fun u => ?_
        · simp [Ne.symm hm]
        · simp [Sync.balance_down, hm]
  | @lockReleaseBody m old =>
      by_cases hm : m = l
      · subst hm
        exact .drop rfl rfl rfl
      · refine .keep (by simp [Frame.share, hm]) rfl ?_ fun _ => rfl
        simp [Ne.symm hm]
  | condWait => exact .keep rfl (by simp) rfl fun _ => rfl
  | _ => exact .keep rfl rfl rfl fun _ => rfl

theorem Move.share_run {f : Frame} {fs gs : List Frame} {s₁ : Sync} (hb : s.Unborn)
    (e : s.stack t = f :: fs) (h : Move t (s.setStack t fs) f gs s₁) (u : ThreadPtr) :
    (s₁.setStack t (gs ++ s₁.stack t)).share l u =
      s.share l u + (if u = t then stackShare l gs - f.share l else 0) +
        (s₁.held l u - s.held l u) := by
  obtain ⟨ht, ho⟩ := h.stack_run hb e
  have hheld : (s₁.setStack t (gs ++ s₁.stack t)).held l u = s₁.held l u := rfl
  rw [Sync.share, Sync.share, hheld]
  by_cases hu : u = t
  · subst hu
    simp [ht, e]
    omega
  · obtain ho | ⟨p, function, n, r, rfl, rfl, ho⟩ := ho u hu
    · simp [hu, ho]
    · simp [hu, ho, function.share, hb s.nextThread le_rfl]

/-! ### The invariant -/

/-- **The token of a lock**: there is one, whoever is between its down and its
up has it, and only the holder gets as far as giving the lock up. -/
structure LockInv (l : LockPtr) (s : Sync) : Prop where
  one : Token.One (s.value (.ofLock l)) (s.share l)
  balance : ∀ t, s.balance l t = s.share l t
  body : ∀ t, .lockReleaseBody l ∈ s.stack t → s.holder l = some t

theorem LockInv.holder_pos (I : s.Inv) (h : s.holder l = some t) : 0 < s.share l t := by
  have hn := (I.stacked t).share_nonneg l
  simp only [Sync.share, Sync.held, h, if_true]
  omega

/-- A thread that is about to take the lock finds no holder. -/
theorem LockInv.holder_none (L : LockInv l s) (I : s.Inv) {f : Frame} {fs : List Frame}
    (e : s.stack t = f :: fs) (hf : f.Takes l) : s.holder l = none := by
  have hs : Stacked (f :: fs) := e ▸ I.stacked t
  have hfs := hs.2.share_nonneg l
  have hle := L.one.le_one t
  have hpos : 0 < s.share l t := by
    simp only [Sync.share, Sync.held, e, stackShare_cons, hf.share, if_true]
    split <;> omega
  rcases hh : s.holder l with - | u
  · rfl
  · exfalso
    obtain rfl := L.one.unique hpos (LockInv.holder_pos I hh)
    simp only [Sync.share, Sync.held, hh, e, stackShare_cons, hf.share, if_true] at hle
    omega

theorem Local.body_not_mem {f : Frame} {gs : List Frame} (h : Local f gs) :
    .lockReleaseBody l ∉ gs := by
  cases h with
  | preempt _ hp | threadCreateUnblock hp =>
      intro hg
      obtain rfl := List.mem_singleton.mp hg
      cases hp
  | _ => simp

theorem Move.of_body_mem {f : Frame} {gs : List Frame} (h : Move t s f gs s')
    (hg : .lockReleaseBody l ∈ gs) : s.holder l = some t ∧ s' = s := by
  cases h with
  | quiet h => exact absurd hg h.body_not_mem
  | up hp =>
      obtain rfl := List.mem_singleton.mp hg
      cases hp
  | lockRelease hh =>
      cases List.mem_singleton.mp hg
      exact ⟨hh, rfl⟩
  | _ => simp at hg

/-- The top frame is no `sema_try_down` of a lock's semaphore. -/
theorem Sync.Inv.not_tryDown (I : s.Inv) {f : Frame} {fs : List Frame}
    (e : s.stack t = f :: fs) : f ≠ .semaTryDown (.ofLock l) := by
  rintro rfl
  obtain ⟨⟨old, he⟩ | ⟨π, ho, hr⟩, -⟩ := e ▸ I.stacked t
  · cases he
  · cases π with
    | user => exact hr .semaTryDownLock
    | yield | preempt | down | acquire | release | start => cases hr
    | up | signal | create => exact hr.elim nofun nofun

/-- Only the holder can give up a lock, and it is not doing so twice. -/
theorem LockInv.body_step (L : LockInv l s) (I : s.Inv) (h : Sync.Step okCall t s s')
    (u : ThreadPtr) (hu : .lockReleaseBody l ∈ s'.stack u) : s'.holder l = some u := by
  have hstep : ∀ u, ∀ f ∈ s'.stack u, f = .lockReleaseBody l → s'.holder l = some u := by
    refine h.frames I.unborn (Q := fun u f => f = .lockReleaseBody l → s.holder l = some u)
      ?_ ?_ ?_ ?_ ?_ nofun (fun _ => nofun)
    · rintro u f hf rfl
      exact L.body u hf
    · rintro u f hf hf' hQ rfl
      have hh := hQ rfl
      cases h with
      | call => exact hh
      | interrupt _ hi => cases hi <;> exact hh
      | @run f fs gs s₁ e hm =>
          have hs : Stacked (f :: fs) := e ▸ I.stacked t
          cases hm.lockMove (I.not_tryDown e) with
          | keep _ _ hk | down _ _ _ hk | up _ _ _ hk => exact hk.trans hh
          | take hf => simp [L.holder_none I e hf] at hh
          | drop hf hg =>
              -- the thread gives the lock up now, so the frame left is a second one
              subst hf hg
              obtain rfl : t = u := by
                have ht := L.body t (by simp [e])
                exact Option.some.inj (ht.symm.trans hh)
              obtain ⟨ht, -⟩ := hm.stack_run I.unborn e
              have hmem : .lockReleaseBody l ∈ fs := by simpa [ht] using hf'
              obtain he | ⟨old, he⟩ := hs.yields_of_mem hmem (fun _ => nofun)
              · cases he
              · cases he
    · intro c _ _ _ hc
      cases c <;> cases hc
    · rintro f fs gs s₁ e hm rfl hQ g hg rfl
      obtain ⟨hh, rfl⟩ := hm.of_body_mem hg
      exact hh
    · intro p function n r _ f hf hc
      subst hc
      cases function <;> simp [Entry.stack] at hf
  exact hstep u _ hu rfl

/-- What a step of thread `t` does to the token. -/
inductive TokenStep (l : LockPtr) (t : ThreadPtr) (s s' : Sync) : Prop
  | keep : s'.value (.ofLock l) = s.value (.ofLock l) → (∀ u, s'.share l u = s.share l u) →
      (∀ u, s'.balance l u = s.balance l u) → TokenStep l t s s'
  | take : s.value (.ofLock l) ≠ 0 → s'.value (.ofLock l) = s.value (.ofLock l) - 1 →
      (∀ u, s'.share l u = s.share l u + if u = t then 1 else 0) →
      (∀ u, s'.balance l u = s.balance l u + if u = t then 1 else 0) → TokenStep l t s s'
  | give : 0 < s.share l t → s'.value (.ofLock l) = (s.value (.ofLock l) + 1) % 2 ^ 32 →
      (∀ u, s'.share l u = s.share l u - if u = t then 1 else 0) →
      (∀ u, s'.balance l u = s.balance l u - if u = t then 1 else 0) → TokenStep l t s s'

theorem LockInv.tokenStep (L : LockInv l s) (I : s.Inv) (h : Sync.Step okCall t s s') :
    TokenStep l t s s' := by
  cases h with
  | @call c _ he =>
      refine .keep rfl (fun u => ?_) fun _ => rfl
      have hheld : (s.setStack t [c.frame]).held l u = s.held l u := rfl
      rw [Sync.share, Sync.share, hheld]
      by_cases hu : u = t
      · subst hu
        simp [he, c.share]
      · simp [hu]
  | @interrupt fs' s₁ hi hh =>
      have hs : s₁.stack = s.stack := by cases hh <;> rfl
      refine .keep ?_ (fun u => ?_) fun u => ?_
      · cases hh <;> simp
      · have hheld : (s₁.setStack t fs').held l u = s.held l u := by cases hh <;> rfl
        rw [Sync.share, Sync.share, hheld]
        by_cases hu : u = t
        · subst hu
          simp [hi.share]
        · simp [hu, hs]
      · cases hh <;> simp [Sync.balance]
  | @run f fs gs s₁ e hm =>
      have hshare := hm.share_run (l := l) I.unborn e
      cases hm.lockMove (I.not_tryDown e) with
      | keep hg hv hk hb =>
          refine .keep hv (fun u => ?_) hb
          have hheld : s₁.held l u = s.held l u := by simp only [Sync.held, hk, Sync.setStack_holder]
          rw [hshare, hg, hheld]
          simp
      | down hg hv hv' hk hb =>
          refine .take hv hv' (fun u => ?_) hb
          have hheld : s₁.held l u = s.held l u := by simp only [Sync.held, hk, Sync.setStack_holder]
          rw [hshare, hg, hheld]
          simp
      | up hf hg hv hk hb =>
          subst hf
          have hpos : 0 < s.share l t := by
            have hs : Stacked (.semaUp (.ofLock l) :: fs) := e ▸ I.stacked t
            have hfs := hs.2.share_nonneg l
            simp only [Sync.share, Sync.held, e, stackShare_cons, Frame.share_semaUp, if_true]
            split <;> omega
          refine .give hpos hv (fun u => ?_) hb
          have hheld : s₁.held l u = s.held l u := by simp only [Sync.held, hk, Sync.setStack_holder]
          rw [hshare, hg, hheld, Frame.share_semaUp, if_pos rfl]
          split <;> omega
      | take hf hg hs =>
          subst hg hs
          refine .keep rfl (fun u => ?_) fun _ => rfl
          have hnone := L.holder_none I e hf
          rw [hshare, hf.share]
          by_cases hu : u = t
          · simp [Sync.held, hnone, hu]
          · simp [Sync.held, hnone, hu, Ne.symm hu]
      | drop hf hg hs =>
          subst hf hg hs
          refine .keep rfl (fun u => ?_) fun _ => rfl
          have hheld := L.body t (by simp [e])
          rw [hshare]
          by_cases hu : u = t
          · simp [Sync.held, hheld, hu, Frame.share]
          · simp [Sync.held, hheld, hu, Ne.symm hu]

/-- **Every step keeps the token of a lock.** -/
theorem LockInv.step (L : LockInv l s) (I : s.Inv) (h : Sync.Step okCall t s s') :
    LockInv l s' := by
  cases L.tokenStep I h with
  | keep hv hs hb =>
      have hshare : s'.share l = s.share l := funext hs
      refine ⟨?_, fun u => ?_, L.body_step I h⟩
      · rw [hv, hshare]
        exact L.one
      · rw [hb, hs, L.balance]
  | take hv hv' hs hb =>
      have hshare : s'.share l = fun u => s.share l u + if u = t then 1 else 0 := funext hs
      refine ⟨?_, fun u => ?_, L.body_step I h⟩
      · rw [hv', hshare]
        exact L.one.take hv
      · rw [hb, hs, L.balance]
  | give ht hv hs hb =>
      have hshare : s'.share l = fun u => s.share l u - if u = t then 1 else 0 := funext hs
      have hfree : s.value (.ofLock l) = 0 := L.one.free ht
      refine ⟨?_, fun u => ?_, L.body_step I h⟩
      · have hone := L.one.give ht
        rw [hv, hshare, hfree]
        rw [hfree] at hone
        exact hone
      · rw [hb, hs, L.balance]

theorem boot_lockInv (cfg : Config) (l : LockPtr) : LockInv l (boot cfg).sync where
  one := by
    refine .inl ⟨rfl, fun u => ?_⟩
    by_cases hu : u = 0
    · subst hu
      simp [Sync.share, Sync.held, boot, Frame.share]
    · simp [Sync.share, Sync.held, boot, hu]
  balance := by
    intro u
    by_cases hu : u = 0
    · subst hu
      simp [Sync.balance, Sync.share, Sync.held, boot, Frame.share]
    · simp [Sync.balance, Sync.share, Sync.held, boot, hu]
  body := by
    intro u hb
    by_cases hu : u = 0
    · subst hu
      simp [boot] at hb
    · simp [boot, hu] at hb

theorem Sync.Reachable.lockInv {cfg : Config} (h : Sync.Reachable cfg okCall s) (l : LockPtr) :
    LockInv l s := by
  induction h with
  | refl => exact boot_lockInv cfg l
  | tail hr hstep ih =>
      obtain ⟨u, hstep⟩ := hstep
      exact ih.step (Sync.Reachable.inv hr) hstep

/-! ### The kernel -/

/-- Thread `t` has decremented the semaphore of lock `l` more often than it
has incremented it. -/
def Inside (k : Kernel) (l : LockPtr) (t : ThreadPtr) : Prop :=
  k.log.count (.up (some t) (.ofLock l)) < k.log.count (.down (some t) (.ofLock l))

theorem inside_iff {k : Kernel} (L : LockInv l k.sync) : Inside k l t ↔ 0 < k.sync.share l t := by
  rw [← L.balance]
  simp only [Inside, Sync.balance, Kernel.sync_events]
  rw [List.count_filter rfl, List.count_filter rfl]
  omega

/-- **Mutual exclusion**: in every reachable state the value of a lock's
semaphore and the number of threads between their down and their up are
together 1; at most one thread is, and the holder of the lock is one. -/
theorem lock_mutual_exclusion {cfg : Config} {ok : Kernel → Label → Prop} {k : Kernel}
    (h : Reachable cfg ok k) (l : LockPtr) :
    k.semaValue (.ofLock l) + Set.ncard {t | Inside k l t} = 1 ∧
      (∀ t u, Inside k l t → Inside k l u → t = u) ∧
        ∀ t, k.lockHolder l = some t → Inside k l t := by
  obtain ⟨hr, -⟩ := h.sync fun _ _ _ => trivial
  have L := hr.lockInv l
  refine ⟨?_, fun t u ht hu => ?_, fun t ht => ?_⟩
  · have hset : {t | Inside k l t} = {t | 0 < k.sync.share l t} := by
      ext t
      exact inside_iff L
    rw [hset]
    exact L.one.ncard
  · exact L.one.unique ((inside_iff L).mp ht) ((inside_iff L).mp hu)
  · exact (inside_iff L).mpr (LockInv.holder_pos hr.inv ht)

/-- The initial thread has acquired lock 0. -/
theorem lock_mutual_exclusion_held :
    ∃ k, k.lockHolder (.user 0) = some 0 ∧
      k.semaValue (.ofLock (.user 0)) + Set.ncard {t | Inside k (.user 0) t} = 1 ∧
        Inside k (.user 0) 0 := by
  obtain ⟨k, hk, hp⟩ := exists_reachable priorityConfig 10 (fun _ _ => True)
    (List.replicate 19 Label.run ++ .call (.lockAcquire 0) :: List.replicate 4 Label.run)
    (fun k => k.lockHolder (.user 0) = some 0) (by decide +kernel)
  obtain ⟨h1, -, h3⟩ := lock_mutual_exclusion hk (.user 0)
  have hh : k.lockHolder (.user 0) = some 0 := by simpa using hp
  exact ⟨k, hh, h1, h3 0 hh⟩

end Pintos
