/-
PintosThreads/ThreadIds.lean

Thread identifiers, for every interleaving of `thread_create`.

`allocate_tid` reads `next_tid`, writes it back plus one, and may be interrupted
in between.  Whoever is in between holds `tid_lock`: the frames on a stack that
bear on it, in the order in which they stand there, are those of one of a few
phases (`TidPhase`), and the phase says whether the thread holds the lock.  So
no two threads are between their read and their write, and what has been read
is the counter still (`TidInv.read`).

A run is given with a history (`TidRun`): who obtained `tid_lock`, which
identifiers were handed out, and what `allocate_tid` and `thread_create` have
returned.  Where `palloc_get_page` finds no page the latter is `TID_ERROR`, and
nothing else happens (`threadCreate_no_page`).
-/
import PintosThreads.TidCounter
import PintosThreads.CondWakeups

namespace Pintos

/-! ### The phases of an allocation -/

namespace Frame

/-- The frames that bear on `tid_lock`, or on the identifier of a new thread. -/
def ofTid : Frame → Bool
  | threadCreate _ _ | threadCreateLink _ _ _ _ | allocateTidRead _ | allocateTidWrite _ _
  | threadCreateTid _ _ | lockAcquire .tidLock | lockAcquireBody .tidLock
  | lockAcquireFree .tidLock _ | lockAcquireHeld .tidLock | lockRelease .tidLock
  | lockReleaseBody .tidLock | lockTryAcquire _ | lockTryAcquireDown _ | lockTryAcquireHolder _
  | condWait _ _ => true
  | _ => false

/-- The frames of calls that name lock `l`, other than `lock_acquire` and
`lock_release`. -/
inductive Names (l : LockPtr) : Frame → Prop
  | lockTryAcquire : Names l (lockTryAcquire l)
  | lockTryAcquireDown : Names l (lockTryAcquireDown l)
  | lockTryAcquireHolder : Names l (lockTryAcquireHolder l)
  | condWait {c} : Names l (condWait c l)

/-- The frames before `allocate_tid`, and those of calls that name another lock. -/
inductive Apart : Frame → Prop
  | threadCreate {p e} : Apart (threadCreate p e)
  | threadCreateLink {p e n r} : Apart (threadCreateLink p e n r)
  | names {n f} : Names (.user n) f → Apart f

/-- The frames of `lock_release (&tid_lock)` before the lock is free. -/
inductive Frees : Frame → Prop
  | lockRelease : Frees (lockRelease .tidLock)
  | lockReleaseBody : Frees (lockReleaseBody .tidLock)

theorem Preempts.ofTid {f : Frame} (h : f.Preempts) : f.ofTid = false := by
  cases h <;> rfl

end Frame

/-- The frames of a stack that bear on identifiers. -/
def tidFrames (fs : List Frame) : List Frame :=
  fs.filter Frame.ofTid

@[simp]
theorem tidFrames_nil : tidFrames [] = [] :=
  rfl

@[simp]
theorem tidFrames_cons (f : Frame) (fs : List Frame) :
    tidFrames (f :: fs) = if f.ofTid = true then f :: tidFrames fs else tidFrames fs := by
  rw [tidFrames, List.filter_cons]
  rfl

/-- The phase that a thread is in, from its frames that bear on identifiers;
`held` says that it holds `tid_lock`. -/
inductive TidPhase (held : Prop) : List Frame → Prop
  | outside : ¬ held → TidPhase held []
  | apart {f} : f.Apart → ¬ held → TidPhase held [f]
  | acquire {f t} : f.Acquires .tidLock → ¬ held → TidPhase held [f, .allocateTidRead t]
  | read {t} : held → TidPhase held [.allocateTidRead t]
  | write {t tid} : held → TidPhase held [.allocateTidWrite t tid]
  | release {f t tid} : f.Frees → held → TidPhase held [f, .threadCreateTid t tid]
  | done {t tid} : ¬ held → TidPhase held [.threadCreateTid t tid]

/-- **Every thread is in a phase.** -/
def TidPhases (s : Sync) : Prop :=
  ∀ u, TidPhase (s.holder .tidLock = some u) (tidFrames (s.stack u))

variable {okCall : Call → Prop} {cfg : Config} {fuel : ℕ} {t u : ThreadPtr} {s s' : Sync}
  {f : Frame} {fs gs v : List Frame} {held : Prop}

/-! ### The phase while a frame is executed -/

namespace TidPhase

theorem of_apart (h : TidPhase held (tidFrames (f :: fs))) (hf : f.Apart) :
    ¬ held ∧ tidFrames fs = [] := by
  have ho : f.ofTid = true := by
    cases hf with
    | names hn => cases hn <;> rfl
    | _ => rfl
  rw [tidFrames_cons, if_pos ho] at h
  generalize tidFrames fs = v at h ⊢
  cases h with
  | apart _ hn => exact ⟨hn, rfl⟩
  | acquire ha =>
      cases hf with
      | names hn => cases ha <;> cases hn
      | _ => cases ha
  | release hr =>
      cases hf with
      | names hn => cases hr <;> cases hn
      | _ => cases hr
  | read | write | done =>
      cases hf with
      | names hn => cases hn

/-- `tid_lock` is named by `allocate_tid` only. -/
theorem of_names {l : LockPtr} (h : TidPhase held (tidFrames (f :: fs))) (hf : f.Names l) :
    ¬ held ∧ tidFrames fs = [] ∧ ∃ n, l = .user n := by
  have ho : f.ofTid = true := by cases hf <;> rfl
  rw [tidFrames_cons, if_pos ho] at h
  generalize tidFrames fs = v at h ⊢
  cases h with
  | apart ha hn =>
      cases ha with
      | @names n _ ha =>
          refine ⟨hn, rfl, n, ?_⟩
          cases ha <;> cases hf <;> rfl
      | _ => cases hf
  | acquire ha => cases ha <;> cases hf
  | release hr => cases hr <;> cases hf
  | read | write | done => cases hf

theorem of_acquires (h : TidPhase held (tidFrames (f :: fs))) (hf : f.Acquires .tidLock) :
    ¬ held ∧ ∃ t, tidFrames fs = [.allocateTidRead t] := by
  have ho : f.ofTid = true := by cases hf <;> rfl
  rw [tidFrames_cons, if_pos ho] at h
  generalize tidFrames fs = v at h ⊢
  cases h with
  | acquire _ hn => exact ⟨hn, _, rfl⟩
  | apart ha =>
      cases ha with
      | names hn => cases hn <;> cases hf
      | _ => cases hf
  | release hr => cases hr <;> cases hf
  | read | write | done => cases hf

theorem of_frees (h : TidPhase held (tidFrames (f :: fs))) (hf : f.Frees) :
    held ∧ ∃ t tid, tidFrames fs = [.threadCreateTid t tid] := by
  have ho : f.ofTid = true := by cases hf <;> rfl
  rw [tidFrames_cons, if_pos ho] at h
  generalize tidFrames fs = v at h ⊢
  cases h with
  | release _ hh => exact ⟨hh, _, _, rfl⟩
  | apart ha =>
      cases ha with
      | names hn => cases hn <;> cases hf
      | _ => cases hf
  | acquire ha => cases ha <;> cases hf
  | read | write | done => cases hf

theorem of_read (h : TidPhase held (tidFrames (.allocateTidRead t :: fs))) :
    held ∧ tidFrames fs = [] := by
  replace h : TidPhase held (.allocateTidRead t :: tidFrames fs) := h
  generalize tidFrames fs = v at h ⊢
  cases h with
  | read hh => exact ⟨hh, rfl⟩
  | apart ha =>
      cases ha with
      | names hn => cases hn
  | acquire ha | release ha => cases ha

theorem of_write {tid : ℤ} (h : TidPhase held (tidFrames (.allocateTidWrite t tid :: fs))) :
    held ∧ tidFrames fs = [] := by
  replace h : TidPhase held (.allocateTidWrite t tid :: tidFrames fs) := h
  generalize tidFrames fs = v at h ⊢
  cases h with
  | write hh => exact ⟨hh, rfl⟩
  | apart ha =>
      cases ha with
      | names hn => cases hn
  | acquire ha | release ha => cases ha

theorem of_done {tid : ℤ} (h : TidPhase held (tidFrames (.threadCreateTid t tid :: fs))) :
    ¬ held ∧ tidFrames fs = [] := by
  replace h : TidPhase held (.threadCreateTid t tid :: tidFrames fs) := h
  generalize tidFrames fs = v at h ⊢
  cases h with
  | done hn => exact ⟨hn, rfl⟩
  | apart ha =>
      cases ha with
      | names hn => cases hn
  | acquire ha | release ha => cases ha

end TidPhase

/-! ### The phases are kept -/

theorem Local.tid_phase (h : Local f gs) (hp : TidPhase held (tidFrames (f :: fs))) :
    TidPhase held (tidFrames (gs ++ fs)) := by
  cases h with
  | preempt hc hg =>
      rw [tidFrames_cons, hc.1.ofTid] at hp
      show TidPhase held (tidFrames (_ :: fs))
      rw [tidFrames_cons, hg.ofTid]
      exact hp
  | preemptEnd hc => simpa [hc.1.ofTid] using hp
  | threadCreateUnblock hg =>
      show TidPhase held (tidFrames (_ :: fs))
      rw [tidFrames_cons, hg.ofTid]
      exact hp
  | threadCreate =>
      obtain ⟨hn, hv⟩ := hp.of_apart .threadCreate
      simpa [Frame.ofTid, hv] using TidPhase.apart .threadCreateLink hn
  | threadCreateFail =>
      obtain ⟨hn, hv⟩ := hp.of_apart .threadCreate
      simpa [hv] using TidPhase.outside hn
  | allocateTidRead =>
      obtain ⟨hh, hv⟩ := hp.of_read
      simpa [Frame.ofTid, hv] using TidPhase.write hh
  | allocateTidWrite =>
      obtain ⟨hh, hv⟩ := hp.of_write
      simpa [Frame.ofTid, hv] using TidPhase.release .lockRelease hh
  | threadCreateTid =>
      obtain ⟨hn, hv⟩ := hp.of_done
      simpa [Frame.ofTid, hv] using TidPhase.outside hn
  | _ => exact hp

/-- The thread that executes a frame stays in a phase. -/
theorem Move.tid_phase (h : Move t s f gs s')
    (hp : TidPhase (s.holder .tidLock = some t) (tidFrames (f :: fs))) :
    TidPhase (s'.holder .tidLock = some t) (tidFrames (gs ++ fs)) := by
  cases h with
  | quiet h => exact h.tid_phase hp
  | down hd | wait hd =>
      cases hd <;> exact hp
  | up hg =>
      show TidPhase _ (tidFrames (_ :: fs))
      rw [tidFrames_cons, hg.ofTid]
      exact hp
  | @lockAcquire l =>
      cases l with
      | user => exact hp
      | tidLock =>
          obtain ⟨hn, t', hv⟩ := hp.of_acquires .lockAcquire
          simpa [Frame.ofTid, hv] using TidPhase.acquire .lockAcquireBody hn
  | @lockAcquireFree l =>
      cases l with
      | user => exact hp
      | tidLock =>
          obtain ⟨hn, t', hv⟩ := hp.of_acquires .lockAcquireBody
          simpa [Frame.ofTid, hv] using TidPhase.acquire .lockAcquireFree hn
  | @lockAcquireHeld l =>
      cases l with
      | user => exact hp
      | tidLock =>
          obtain ⟨hn, t', hv⟩ := hp.of_acquires .lockAcquireBody
          simpa [Frame.ofTid, hv] using TidPhase.acquire .lockAcquireHeld hn
  | @take f l hf =>
      cases hf with
      | lockAcquireFree =>
          cases l with
          | user => exact hp
          | tidLock =>
              obtain ⟨-, t', hv⟩ := hp.of_acquires .lockAcquireFree
              simpa [hv] using TidPhase.read trivial
      | lockAcquireHeld =>
          cases l with
          | user => exact hp
          | tidLock =>
              obtain ⟨-, t', hv⟩ := hp.of_acquires .lockAcquireHeld
              simpa [hv] using TidPhase.read trivial
      | lockTryAcquireHolder =>
          obtain ⟨hn, hv, n, rfl⟩ := hp.of_names .lockTryAcquireHolder
          simpa [hv] using TidPhase.outside hn
  | lockTryAcquire =>
      obtain ⟨hn, hv, n, rfl⟩ := hp.of_names .lockTryAcquire
      simpa [Frame.ofTid, hv] using TidPhase.apart (.names .lockTryAcquireDown) hn
  | lockTryAcquireDown =>
      obtain ⟨hn, hv, n, rfl⟩ := hp.of_names .lockTryAcquireDown
      simpa [Frame.ofTid, hv] using TidPhase.apart (.names .lockTryAcquireHolder) hn
  | lockTryAcquireFail =>
      obtain ⟨hn, hv, -⟩ := hp.of_names .lockTryAcquireDown
      simpa [hv] using TidPhase.outside hn
  | condWait =>
      obtain ⟨hn, hv, n, rfl⟩ := hp.of_names .condWait
      simpa [Frame.ofTid, hv] using TidPhase.outside hn
  | @lockRelease l =>
      cases l with
      | user => exact hp
      | tidLock =>
          obtain ⟨hh, t', tid, hv⟩ := hp.of_frees .lockRelease
          simpa [Frame.ofTid, hv] using TidPhase.release .lockReleaseBody hh
  | @lockReleaseBody l =>
      cases l with
      | user => exact hp
      | tidLock =>
          obtain ⟨-, t', tid, hv⟩ := hp.of_frees .lockReleaseBody
          simpa [Frame.ofTid, hv] using TidPhase.done nofun
  | createAtomic =>
      obtain ⟨hn, hv⟩ := hp.of_apart .threadCreateLink
      simpa [Frame.ofTid, hv] using TidPhase.done hn
  | create =>
      obtain ⟨hn, hv⟩ := hp.of_apart .threadCreateLink
      simpa [Frame.ofTid, hv] using TidPhase.acquire .lockAcquire hn
  | _ => exact hp

theorem Call.tid_phase (c : Call) (hn : ¬ held) : TidPhase held (tidFrames [c.frame]) := by
  cases c with
  | lockTryAcquire n => exact .apart (.names .lockTryAcquire) hn
  | condWait c n => exact .apart (.names .condWait) hn
  | threadCreate p => exact .apart .threadCreate hn
  | _ => exact .outside hn

theorem Entry.tidFrames (e : Entry) : tidFrames e.stack = [] := by
  cases e <;> rfl

theorem Interrupted.tidFrames (h : Interrupted fs gs) : tidFrames gs = tidFrames fs := by
  cases h <;> rfl

/-- The steps of one thread do not make another the holder of a lock, and do
not take it from another. -/
theorem LockInv.holder_other {l : LockPtr} (L : LockInv l s) (I : s.Inv)
    (h : Sync.Step okCall t s s') (hu : u ≠ t) : s'.holder l = some u ↔ s.holder l = some u := by
  constructor
  · intro hh
    cases h with
    | call => exact hh
    | interrupt _ hi => cases hi <;> exact hh
    | @run f fs gs s₁ e hm =>
        cases hm.lockMove (I.not_tryDown e) with
        | keep _ _ hk | down _ _ _ hk | up _ _ _ hk => exact hk.symm.trans hh
        | take _ _ hs =>
            subst hs
            have he : some t = some u := by simpa using hh
            exact absurd (Option.some.inj he).symm hu
        | drop _ _ hs =>
            subst hs
            simp at hh
  · intro hh
    obtain hh' | ⟨rfl, -⟩ := L.holder_stable I h hh
    · exact hh'
    · exact absurd rfl hu

/-- **Every step keeps every thread in a phase.** -/
theorem TidPhases.step (P : TidPhases s) (I : s.Inv) (L : LockInv .tidLock s)
    (h : Sync.Step okCall t s s') : TidPhases s' := by
  intro u
  by_cases hu : u = t
  · subst hu
    have hp := P u
    cases h with
    | @call c _ he =>
        rw [he] at hp
        cases hp with
        | outside hn => simpa using c.tid_phase hn
    | interrupt hi hh =>
        have hf : tidFrames _ = tidFrames _ := hi.tidFrames
        cases hh <;> simpa [hf] using hp
    | @run f fs gs s₁ e hm =>
        obtain ⟨ht, -⟩ := hm.stack_run I.unborn e
        rw [e] at hp
        have hm' : TidPhase _ (tidFrames (gs ++ fs)) := hm.tid_phase hp
        simpa [ht] using hm'
  · rw [propext (L.holder_other I h hu)]
    cases h with
    | call => simpa [hu] using P u
    | interrupt _ hh => cases hh <;> simpa [hu] using P u
    | @run f fs gs s₁ e hm =>
        obtain ⟨-, ho⟩ := hm.stack_run I.unborn e
        simp only [Sync.setStack_stack, Function.update_of_ne hu]
        obtain ho | ⟨p, function, n, r, -, rfl, ho⟩ := ho u hu
        · rw [ho]
          exact P u
        · -- a new thread does not hold the lock
          have hp := P s.nextThread
          rw [I.unborn _ le_rfl] at hp
          rw [ho, function.tidFrames]
          exact hp

namespace Frame

/-- The frames between the read of `next_tid` and the return of `allocate_tid`. -/
def allocates : Frame → Bool
  | allocateTidRead _ | allocateTidWrite _ _ | threadCreateTid _ _ => true
  | _ => false

/-- The frames before the write of `next_tid`. -/
def counts : Frame → Bool
  | allocateTidRead _ | allocateTidWrite _ _ => true
  | _ => false

/-- The identifier that `allocate_tid` is about to return. -/
def newTid : Frame → Option ℤ
  | threadCreateTid _ tid => some tid
  | _ => none

theorem Preempts.allocates {f : Frame} (h : f.Preempts) : f.allocates = false := by
  cases h <;> rfl

end Frame

/-- The frames of a stack that read, write or carry an identifier. -/
def allocFrames (fs : List Frame) : List Frame :=
  fs.filter Frame.allocates

@[simp]
theorem allocFrames_nil : allocFrames [] = [] :=
  rfl

@[simp]
theorem allocFrames_cons (f : Frame) (fs : List Frame) :
    allocFrames (f :: fs) =
      if f.allocates = true then f :: allocFrames fs else allocFrames fs := by
  rw [allocFrames, List.filter_cons]
  rfl

@[simp]
theorem allocFrames_append (gs fs : List Frame) :
    allocFrames (gs ++ fs) = allocFrames gs ++ allocFrames fs :=
  List.filter_append ..

theorem allocFrames_tidFrames (fs : List Frame) :
    allocFrames (tidFrames fs) = allocFrames fs := by
  rw [allocFrames, tidFrames, List.filter_filter]
  congr 1
  funext f
  cases f <;> simp [Frame.allocates, Frame.ofTid]

theorem allocFrames_of_tidFrames (h : tidFrames fs = v) : allocFrames fs = allocFrames v := by
  rw [← allocFrames_tidFrames, h]

/-- Only a frame of `thread_create` leaves frames that carry an identifier. -/
theorem Move.allocFrames (h : Move t s f gs s') (hf : f.allocates = false)
    (hl : ∀ p e n r, f ≠ .threadCreateLink p e n r) : allocFrames gs = [] := by
  cases h with
  | quiet h =>
      cases h with
      | preempt _ hg | threadCreateUnblock hg => simp [hg.allocates]
      | allocateTidRead | allocateTidWrite | threadCreateTid => cases hf
      | _ => rfl
  | up hg => simp [hg.allocates]
  | createAtomic | create => exact absurd rfl (hl _ _ _ _)
  | _ => rfl

/-! ### The history of a run -/

/-- What `thread_create` returns when `palloc_get_page` has returned `NULL`. -/
def tidError : ℤ := -1

/-- What has happened in a run, oldest first: who obtained `tid_lock`, the
identifiers that were handed out, those that `allocate_tid` has returned, and
what `thread_create` returns, each with the thread that asked for it. -/
structure TidHistory where
  obtained : List ThreadPtr
  handedOut : List (ThreadPtr × ℤ)
  allocated : List (ThreadPtr × ℤ)
  returned : List (ThreadPtr × ℤ)

namespace Kernel

/-- The frame that a step executes. -/
def executes (k : Kernel) : Label → Option Frame
  | .run => (k.stack k.cur).head?
  | _ => none

/-- A step to `k'` makes the running thread the holder of `tid_lock`. -/
def obtains (k k' : Kernel) : List ThreadPtr :=
  if k.lockHolder .tidLock ≠ some k.cur ∧ k'.lockHolder .tidLock = some k.cur then [k.cur] else []

/-- `next_tid` is written, and what was read of it is handed out. -/
def handsOut (k : Kernel) (lab : Label) : List (ThreadPtr × ℤ) :=
  match k.executes lab with
  | some (.allocateTidWrite _ tid) => [(k.cur, tid)]
  | _ => []

/-- `allocate_tid` has returned to `thread_create`. -/
def allocates (k : Kernel) (lab : Label) : List (ThreadPtr × ℤ) :=
  match k.executes lab with
  | some (.threadCreateTid _ tid) => [(k.cur, tid)]
  | _ => []

/-- The value of `tid` in `thread_create` is known, or there is no page for a new thread. -/
def returns (cfg : Config) (k : Kernel) (lab : Label) : List (ThreadPtr × ℤ) :=
  match k.executes lab with
  | some (.threadCreateTid _ tid) => [(k.cur, tid)]
  | some (.threadCreate _ _) => if cfg.palloc k.log = false then [(k.cur, tidError)] else []
  | _ => []

end Kernel

def TidHistory.after (cfg : Config) (H : TidHistory) (k : Kernel) (lab : Label) (k' : Kernel) :
    TidHistory where
  obtained := H.obtained ++ k.obtains k'
  handedOut := H.handedOut ++ k.handsOut lab
  allocated := H.allocated ++ k.allocates lab
  returned := H.returned ++ k.returns cfg lab

/-- The runs, with what has happened in them. -/
inductive TidRun (cfg : Config) : Kernel → TidHistory → Prop
  | boot : TidRun cfg (boot cfg) ⟨[], [], [], []⟩
  | step {k : Kernel} {H : TidHistory} {fuel : ℕ} {lab : Label} {k' : Kernel} :
      TidRun cfg k H → step cfg fuel k lab = some k' → TidRun cfg k' (H.after cfg k lab k')

variable {k k' : Kernel} {H : TidHistory} {lab : Label}

theorem TidRun.reachable (h : TidRun cfg k H) : Reachable cfg (fun _ _ => True) k := by
  induction h with
  | boot => exact .refl
  | @step k H fuel lab k' _ hstep ih => exact ih.tail ⟨lab, fuel, trivial, hstep⟩

/-- Every run has a history. -/
theorem Reachable.tidRun {ok : Kernel → Label → Prop} (h : Reachable cfg ok k) :
    ∃ H, TidRun cfg k H := by
  induction h with
  | refl => exact ⟨_, .boot⟩
  | tail _ hstep ih =>
      obtain ⟨H, hH⟩ := ih
      obtain ⟨lab, fuel, -, hstep⟩ := hstep
      exact ⟨_, hH.step hstep⟩

/-- The identifiers of thread `u` in a history. -/
def idsOf (u : ThreadPtr) (l : List (ThreadPtr × ℤ)) : List ℤ :=
  (l.filter fun e => e.1 = u).map Prod.snd

@[simp]
theorem idsOf_append (u : ThreadPtr) (l l' : List (ThreadPtr × ℤ)) :
    idsOf u (l ++ l') = idsOf u l ++ idsOf u l' := by
  simp [idsOf]

theorem idsOf_self (u : ThreadPtr) (tid : ℤ) : idsOf u [(u, tid)] = [tid] := by
  simp [idsOf]

theorem idsOf_ne (hu : u ≠ t) (tid : ℤ) : idsOf u [(t, tid)] = [] := by
  simp [idsOf, Ne.symm hu]

/-- The holder of `tid_lock`, if it has yet to write `next_tid`. -/
def Kernel.counting (k : Kernel) : List ThreadPtr :=
  (k.lockHolder .tidLock).toList.filter fun u => (allocFrames (k.stack u)).any Frame.counts

/-- **What the history says of a state.** -/
structure TidInv (k : Kernel) (H : TidHistory) : Prop where
  next : k.nextTid = toInt32 (2 + H.handedOut.length)
  ids : H.handedOut.map Prod.snd =
    (List.range H.handedOut.length).map fun i : ℕ => toInt32 (2 + i)
  read : ∀ u t tid, .allocateTidWrite t tid ∈ allocFrames (k.stack u) → tid = k.nextTid
  order : H.obtained = H.handedOut.map Prod.fst ++ k.counting
  inHand : ∀ u, idsOf u H.handedOut =
    idsOf u H.allocated ++ (allocFrames (k.stack u)).filterMap Frame.newTid

/-- Whoever is about to write holds `tid_lock`. -/
theorem TidPhases.holder_of_write {tid : ℤ} (P : TidPhases s)
    (hm : .allocateTidWrite t tid ∈ allocFrames (s.stack u)) :
    s.holder .tidLock = some u := by
  have hp := P u
  rw [← allocFrames_tidFrames] at hm
  replace hm := List.mem_of_mem_filter hm
  generalize tidFrames (s.stack u) = v at hp hm
  cases hp with
  | outside => cases hm
  | apart ha =>
      obtain rfl := List.mem_singleton.mp hm
      cases ha with
      | names hn => cases hn
  | acquire ha =>
      obtain rfl | hm := List.mem_cons.mp hm
      · cases ha
      · cases List.mem_singleton.mp hm
  | release hr =>
      obtain rfl | hm := List.mem_cons.mp hm
      · cases hr
      · cases List.mem_singleton.mp hm
  | read | done => cases List.mem_singleton.mp hm
  | write hh => exact hh

/-! ### Steps outside `allocate_tid` -/

/-- A thread that obtains `tid_lock` finds it free, and has yet to read. -/
theorem TidPhases.obtained (P : TidPhases s) (I : s.Inv) (L : LockInv .tidLock s)
    (h : Sync.Step okCall t s s') (hn : s.holder .tidLock ≠ some t)
    (hh : s'.holder .tidLock = some t) :
    s.holder .tidLock = none ∧ ∃ t', allocFrames (s.stack t) = [.allocateTidRead t'] := by
  cases h with
  | call => exact absurd hh hn
  | interrupt _ hi => cases hi <;> exact absurd hh hn
  | @run f fs gs s₁ e hm =>
      cases hm.lockMove (I.not_tryDown e) with
      | keep _ _ hk | down _ _ _ hk | up _ _ _ hk => exact absurd (hk.symm.trans hh) hn
      | drop _ _ hs =>
          subst hs
          simp at hh
      | take hf =>
          refine ⟨L.holder_none I e hf, ?_⟩
          have hp := P t
          rw [e] at hp ⊢
          cases hf with
          | lockTryAcquireHolder =>
              obtain ⟨-, -, n, hl⟩ := hp.of_names .lockTryAcquireHolder
              cases hl
          | lockAcquireFree =>
              obtain ⟨-, t', hv⟩ := hp.of_acquires .lockAcquireFree
              exact ⟨t', allocFrames_of_tidFrames hv⟩
          | lockAcquireHeld =>
              obtain ⟨-, t', hv⟩ := hp.of_acquires .lockAcquireHeld
              exact ⟨t', allocFrames_of_tidFrames hv⟩

/-- A thread that releases `tid_lock` has written. -/
theorem TidPhases.released (P : TidPhases s) (I : s.Inv) (h : Sync.Step okCall t s s')
    (hh : s.holder .tidLock = some t) (hn : s'.holder .tidLock ≠ some t) :
    s'.holder .tidLock = none ∧
      ∃ t' tid, allocFrames (s.stack t) = [.threadCreateTid t' tid] := by
  cases h with
  | call => exact absurd hh hn
  | interrupt _ hi => cases hi <;> exact absurd hh hn
  | @run f fs gs s₁ e hm =>
      cases hm.lockMove (I.not_tryDown e) with
      | keep _ _ hk | down _ _ _ hk | up _ _ _ hk => exact absurd (hk.trans hh) hn
      | take _ _ hs =>
          subst hs
          simp at hn
      | drop hf _ hs =>
          subst hf hs
          refine ⟨by simp, ?_⟩
          have hp := P t
          rw [e] at hp ⊢
          obtain ⟨-, t', tid, hv⟩ := hp.of_frees .lockReleaseBody
          exact ⟨t', tid, allocFrames_of_tidFrames hv⟩

theorem Call.allocates (c : Call) : c.frame.allocates = false := by
  cases c <;> rfl

theorem Interrupted.allocFrames (h : Interrupted fs gs) : allocFrames gs = allocFrames fs := by
  cases h <;> rfl

/-- A step that executes no frame of `allocate_tid` leaves those frames. -/
theorem SyncStep.allocFrames (I : k.sync.Inv) (h : SyncStep k lab s')
    (hf : ∀ f, k.executes lab = some f →
      f.allocates = false ∧ ∀ p e n r, f ≠ .threadCreateLink p e n r) (u : ThreadPtr) :
    allocFrames (s'.stack u) = allocFrames (k.stack u) := by
  cases h with
  | @call c he =>
      by_cases hu : u = k.cur
      · subst hu
        simp [he, c.allocates]
      · simp [hu]
  | interrupt _ hi hh =>
      by_cases hu : u = k.cur
      · subst hu
        simp [hi.allocFrames]
      · cases hh <;> simp [hu]
  | @run f fs gs s₁ e hm =>
      obtain ⟨hfa, hfl⟩ := hf f (by simp [Kernel.executes, e])
      obtain ⟨ht, ho⟩ := hm.stack_run I.unborn e
      by_cases hu : u = k.cur
      · subst hu
        have hgs := hm.allocFrames hfa hfl
        simp [ht, hgs, e, hfa]
      · obtain ho | ⟨p, function, n, r, hl, -⟩ := ho u hu
        · simp [hu, ho]
        · exact absurd hl (hfl _ _ _ _)

theorem Kernel.counting_of_eq (hh : k'.lockHolder .tidLock = k.lockHolder .tidLock)
    (hs : ∀ u, k.lockHolder .tidLock = some u →
      (allocFrames (k'.stack u)).any Frame.counts = (allocFrames (k.stack u)).any Frame.counts) :
    k'.counting = k.counting := by
  rw [Kernel.counting, Kernel.counting, hh]
  refine List.filter_congr fun u hu => hs u ?_
  simpa using hu

theorem Kernel.obtains_of_eq (hh : k'.lockHolder .tidLock = k.lockHolder .tidLock) :
    k.obtains k' = [] := by
  rw [Kernel.obtains, if_neg]
  rintro ⟨hn, h⟩
  exact hn (hh.symm.trans h)

/-- The thread that has obtained `tid_lock` is the next to write. -/
theorem counting_step (P : TidPhases k.sync) (I : k.sync.Inv) (L : LockInv .tidLock k.sync)
    (h : Sync.Step okCall k.cur k.sync k'.sync)
    (hq : ∀ u, allocFrames (k'.stack u) = allocFrames (k.stack u)) :
    k'.counting = k.counting ++ k.obtains k' := by
  by_cases hc : k.lockHolder .tidLock = some k.cur <;>
    by_cases hc' : k'.lockHolder .tidLock = some k.cur
  · rw [Kernel.obtains_of_eq (hc'.trans hc.symm), List.append_nil]
    exact Kernel.counting_of_eq (hc'.trans hc.symm) fun u _ => by rw [hq]
  · obtain ⟨hn, t', tid, ha⟩ := P.released I h hc hc'
    have hn : k'.lockHolder .tidLock = none := hn
    have ha : allocFrames (k.stack k.cur) = [.threadCreateTid t' tid] := ha
    simp [Kernel.counting, Kernel.obtains, hc, hn, ha, Frame.counts]
  · obtain ⟨hn, t', ha⟩ := P.obtained I L h hc hc'
    have hn : k.lockHolder .tidLock = none := hn
    have ha : allocFrames (k.stack k.cur) = [.allocateTidRead t'] := ha
    simp [Kernel.counting, Kernel.obtains, hc', hn, hq, ha, Frame.counts]
  · have hh : k'.lockHolder .tidLock = k.lockHolder .tidLock := by
      -- neither before nor after is it the running thread's
      refine Option.ext fun u => ?_
      by_cases hu : u = k.cur
      · subst hu
        exact iff_of_false hc' hc
      · exact L.holder_other I h hu
    rw [Kernel.obtains_of_eq hh, List.append_nil]
    exact Kernel.counting_of_eq hh fun u _ => by rw [hq]

/-- A step that executes no frame of `allocate_tid`. -/
theorem TidInv.quiet_step (T : TidInv k H) (P : TidPhases k.sync) (I : k.sync.Inv)
    (L : LockInv .tidLock k.sync) (h : Sync.Step okCall k.cur k.sync k'.sync)
    (hq : ∀ u, allocFrames (k'.stack u) = allocFrames (k.stack u))
    (hn : k'.nextTid = k.nextTid) (hh : k.handsOut lab = []) (hr : k.allocates lab = []) :
    TidInv k' (H.after cfg k lab k') where
  next := by simpa [TidHistory.after, hh, hn] using T.next
  ids := by simpa [TidHistory.after, hh] using T.ids
  read u t tid hf := by
    rw [hq] at hf
    rw [hn]
    exact T.read u t tid hf
  order := by
    simp [TidHistory.after, hh, T.order, counting_step P I L h hq]
  inHand u := by
    simpa [TidHistory.after, hh, hr, hq] using T.inHand u

/-! ### Steps of `allocate_tid` -/

/-- A step in which the frames of `allocate_tid` change on the running thread's
stack only, from `xs` to `ys`. -/
structure OwnStep (k k' : Kernel) (xs ys : List Frame) : Prop where
  before : allocFrames (k.stack k.cur) = xs
  now : allocFrames (k'.stack k.cur) = ys
  other : ∀ u, u ≠ k.cur → allocFrames (k'.stack u) = allocFrames (k.stack u)
  holder : k'.lockHolder .tidLock = k.lockHolder .tidLock

variable {xs ys : List Frame}

theorem OwnStep.counting (S : OwnStep k k' xs ys)
    (hc : k.lockHolder .tidLock = some k.cur → ys.any Frame.counts = xs.any Frame.counts) :
    k'.counting = k.counting := by
  refine Kernel.counting_of_eq S.holder fun u hu => ?_
  by_cases hcur : u = k.cur
  · subst hcur
    rw [S.before, S.now]
    exact hc hu
  · rw [S.other u hcur]

theorem OwnStep.of_stack (e : k.stack k.cur = f :: fs) (hv : tidFrames fs = [])
    (hs : k'.stack = Function.update k.stack k.cur (gs ++ fs))
    (hh : k'.lockHolder = k.lockHolder) : OwnStep k k' (allocFrames [f]) (allocFrames gs) := by
  have hfs : allocFrames fs = [] := allocFrames_of_tidFrames hv
  refine ⟨?_, ?_, fun u hu => ?_, by rw [hh]⟩
  · rw [e, ← List.singleton_append, allocFrames_append, hfs, List.append_nil]
  · rw [hs, Function.update_self, allocFrames_append, hfs, List.append_nil]
  · rw [hs, Function.update_of_ne hu]

theorem Kernel.idsOf_allocates (k : Kernel) (lab : Label) (hu : u ≠ k.cur) :
    idsOf u (k.allocates lab) = [] := by
  rw [Kernel.allocates]
  split
  · exact idsOf_ne hu _
  · rfl

/-- A step of `allocate_tid` that hands nothing out. -/
theorem TidInv.own_step (T : TidInv k H) (S : OwnStep k k' xs ys)
    (hn : k'.nextTid = k.nextTid) (hout : k.handsOut lab = [])
    (hw : ∀ t tid, .allocateTidWrite t tid ∈ ys → tid = k.nextTid)
    (hc : k.lockHolder .tidLock = some k.cur → ys.any Frame.counts = xs.any Frame.counts)
    (hret : xs.filterMap Frame.newTid = idsOf k.cur (k.allocates lab) ++ ys.filterMap Frame.newTid) :
    TidInv k' (H.after cfg k lab k') where
  next := by simpa [TidHistory.after, hout, hn] using T.next
  ids := by simpa [TidHistory.after, hout] using T.ids
  read u t tid hf := by
    rw [hn]
    by_cases hu : u = k.cur
    · subst hu
      rw [S.now] at hf
      exact hw t tid hf
    · rw [S.other u hu] at hf
      exact T.read u t tid hf
  order := by
    simp [TidHistory.after, hout, T.order, S.counting hc, Kernel.obtains_of_eq S.holder]
  inHand u := by
    show idsOf u (H.handedOut ++ k.handsOut lab) = idsOf u (H.allocated ++ k.allocates lab) ++ _
    rw [hout, List.append_nil, T.inHand u, idsOf_append]
    by_cases hu : u = k.cur
    · subst hu
      rw [S.before, S.now, hret, List.append_assoc]
    · rw [S.other u hu, k.idsOf_allocates lab hu, List.append_nil]

theorem toInt32_succ (x : ℤ) : toInt32 (toInt32 x + 1) = toInt32 (x + 1) :=
  Int.bmod_add_bmod ..

/-- The write of `next_tid` hands out what was read of it. -/
theorem TidInv.write_step {tid : ℤ} (T : TidInv k H) (P : TidPhases k.sync)
    (hheld : k.lockHolder .tidLock = some k.cur)
    (S : OwnStep k k' [.allocateTidWrite t tid] [.threadCreateTid t tid])
    (hn : k'.nextTid = toInt32 (tid + 1)) (hout : k.handsOut lab = [(k.cur, tid)])
    (hret : k.allocates lab = []) : TidInv k' (H.after cfg k lab k') where
  next := by
    have htid := T.read k.cur t tid (by simp [S.before])
    show k'.nextTid = toInt32 (2 + (H.handedOut ++ k.handsOut lab).length)
    rw [hn, htid, T.next, toInt32_succ, hout, List.length_append]
    congr 1
  ids := by
    have htid := T.read k.cur t tid (by simp [S.before])
    show (H.handedOut ++ k.handsOut lab).map Prod.snd =
      (List.range (H.handedOut ++ k.handsOut lab).length).map fun i : ℕ => toInt32 (2 + i)
    simp [hout, List.range_succ, T.ids, htid, T.next]
  read u t' tid' hf := by
    by_cases hu : u = k.cur
    · subst hu
      rw [S.now] at hf
      simp at hf
    · -- no other thread holds the lock
      rw [S.other u hu] at hf
      have hheld' : k.lockHolder .tidLock = some u := P.holder_of_write (u := u) hf
      exact absurd (Option.some.inj (hheld'.symm.trans hheld)) hu
  order := by
    have hb : k.counting = [k.cur] := by
      simp [Kernel.counting, hheld, S.before, Frame.counts]
    have hn : k'.counting = [] := by
      simp [Kernel.counting, S.holder, hheld, S.now, Frame.counts]
    simp [TidHistory.after, hout, T.order, hb, hn, Kernel.obtains_of_eq S.holder]
  inHand u := by
    show idsOf u (H.handedOut ++ k.handsOut lab) = idsOf u (H.allocated ++ k.allocates lab) ++ _
    rw [hout, hret, List.append_nil, idsOf_append, T.inHand u]
    by_cases hu : u = k.cur
    · subst hu
      simp [S.before, S.now, idsOf_self, Frame.newTid]
    · rw [S.other u hu, idsOf_ne hu, List.append_nil]

/-! ### The history of every run -/

theorem Kernel.executes_some {f : Frame} (h : k.executes lab = some f) :
    lab = .run ∧ ∃ fs, k.stack k.cur = f :: fs := by
  cases lab with
  | run => exact ⟨rfl, List.head?_eq_some_iff.mp h⟩
  | _ => cases h

theorem Kernel.handsOut_of_not (h : ∀ f, k.executes lab = some f → f.allocates = false) :
    k.handsOut lab = [] := by
  rw [Kernel.handsOut]
  split
  case h_1 t tid he => cases h _ he
  case h_2 => rfl

theorem Kernel.allocates_of_not (h : ∀ f, k.executes lab = some f → f.allocates = false) :
    k.allocates lab = [] := by
  rw [Kernel.allocates]
  split
  case h_1 t tid he => cases h _ he
  case h_2 => rfl

theorem TidInv.create_step (T : TidInv k H) (P : TidPhases k.sync) (I : k.sync.Inv)
    (ha : cfg.atomicTid = false) {p : ℤ} {function : Entry} {n r : ℤ}
    (e : k.stack k.cur = .threadCreateLink p function n r :: fs)
    (h : step cfg fuel k .run = some k') : TidInv k' (H.after cfg k .run k') := by
  have hp : TidPhase (k.lockHolder .tidLock = some k.cur)
      (tidFrames (.threadCreateLink p function n r :: fs)) := e ▸ P k.cur
  obtain ⟨hfree, hv⟩ := hp.of_apart .threadCreateLink
  have hfs : allocFrames fs = [] := allocFrames_of_tidFrames hv
  have hlt : k.cur < k.nextThread := I.unborn.lt (t := k.cur) (by simp [e])
  have hnew : k.stack k.nextThread = [] := I.unborn _ le_rfl
  have hborn : allocFrames function.stack = [] := by cases function <;> rfl
  rw [step_run e, exec, ha] at h
  cases h
  have hs : OwnStep k
      ((linkThread cfg (popFrame k fs) p function n r).pushes
        [.lockAcquire .tidLock, .allocateTidRead k.nextThread])
      [] [.allocateTidRead k.nextThread] := by
    refine ⟨by simp [e, hfs, Frame.allocates], ?_, fun u hu => ?_, rfl⟩
    · simp [Kernel.pushes, linkThread, popFrame, hlt.ne, hfs, Frame.allocates]
    · by_cases hn : u = k.nextThread
      · subst hn
        simp [Kernel.pushes, linkThread, popFrame, hlt.ne', hborn, hnew]
      · simp [Kernel.pushes, linkThread, popFrame, hu, hn]
  refine T.own_step hs rfl ?_ ?_ ?_ ?_
  · simp [Kernel.handsOut, Kernel.executes, e]
  · simp
  · exact fun hh => absurd hh hfree
  · simp [Kernel.allocates, Kernel.executes, e, idsOf, Frame.newTid]

theorem ownStep_read (e : k.stack k.cur = .allocateTidRead t :: fs) (hv : tidFrames fs = [])
    (h : step cfg fuel k .run = some k') :
    OwnStep k k' [.allocateTidRead t] [.allocateTidWrite t k.nextTid] ∧
      k'.nextTid = k.nextTid := by
  rw [step_run e] at h
  cases h
  refine ⟨?_, rfl⟩
  show OwnStep k _ (allocFrames [.allocateTidRead t]) (allocFrames [.allocateTidWrite t k.nextTid])
  exact .of_stack e hv (by simp [Kernel.push, popFrame]) rfl

theorem ownStep_write {tid : ℤ} (e : k.stack k.cur = .allocateTidWrite t tid :: fs)
    (hv : tidFrames fs = []) (h : step cfg fuel k .run = some k') :
    OwnStep k k' [.allocateTidWrite t tid] [.threadCreateTid t tid] ∧
      k'.nextTid = toInt32 (tid + 1) := by
  rw [step_run e] at h
  cases h
  refine ⟨?_, rfl⟩
  show OwnStep k _ (allocFrames [.allocateTidWrite t tid])
    (allocFrames [.lockRelease .tidLock, .threadCreateTid t tid])
  exact .of_stack e hv (by simp [Kernel.pushes, popFrame]) rfl

theorem ownStep_return {tid : ℤ} (e : k.stack k.cur = .threadCreateTid t tid :: fs)
    (hv : tidFrames fs = []) (h : step cfg fuel k .run = some k') :
    OwnStep k k' [.threadCreateTid t tid] [] ∧ k'.nextTid = k.nextTid := by
  rw [step_run e] at h
  cases h
  refine ⟨?_, rfl⟩
  show OwnStep k _ (allocFrames [.threadCreateTid t tid]) (allocFrames [.threadCreateUnblock t])
  exact .of_stack e hv (by simp [Kernel.push, Kernel.record, Kernel.modify, popFrame]) rfl

theorem TidInv.step (T : TidInv k H) (P : TidPhases k.sync) (I : k.sync.Inv)
    (L : LockInv .tidLock k.sync) (hcur : k.cur < k.nextThread) (ha : cfg.atomicTid = false)
    (h : step cfg fuel k lab = some k') : TidInv k' (H.after cfg k lab k') := by
  obtain ⟨hs, -⟩ := step_syncStep hcur h
  obtain ⟨hstep, -⟩ := step_sync hcur (fun _ _ => trivial) h
  by_cases hq : ∀ f, k.executes lab = some f →
      f.allocates = false ∧ ∀ p e n r, f ≠ .threadCreateLink p e n r
  · have hn : k'.nextTid = k.nextTid := by
      refine step_nextTid ha (fun hl t tid fs e => ?_) h
      subst hl
      exact absurd (hq (.allocateTidWrite t tid) (by simp [Kernel.executes, e])).1 nofun
    exact T.quiet_step P I L hstep (hs.allocFrames I hq) hn
      (Kernel.handsOut_of_not fun f hf => (hq f hf).1)
      (Kernel.allocates_of_not fun f hf => (hq f hf).1)
  · push Not at hq
    obtain ⟨f, hf, hfa⟩ := hq
    obtain ⟨rfl, fs, e⟩ := Kernel.executes_some hf
    have hp : TidPhase (k.lockHolder .tidLock = some k.cur) (tidFrames (f :: fs)) := e ▸ P k.cur
    cases f with
    | allocateTidRead t =>
        obtain ⟨-, hv⟩ := hp.of_read
        obtain ⟨S, hn⟩ := ownStep_read e hv h
        refine T.own_step S hn ?_ ?_ (fun _ => rfl) ?_
        · simp [Kernel.handsOut, Kernel.executes, e]
        · simp
        · simp [Kernel.allocates, Kernel.executes, e, idsOf]
          rfl
    | allocateTidWrite t tid =>
        obtain ⟨hheld, hv⟩ := hp.of_write
        obtain ⟨S, hn⟩ := ownStep_write e hv h
        refine T.write_step P hheld S hn ?_ ?_
        all_goals simp [Kernel.handsOut, Kernel.allocates, Kernel.executes, e]
    | threadCreateTid t tid =>
        obtain ⟨hfree, hv⟩ := hp.of_done
        obtain ⟨S, hn⟩ := ownStep_return e hv h
        refine T.own_step S hn ?_ ?_ (fun hh => absurd hh hfree) ?_
        all_goals simp [Kernel.handsOut, Kernel.allocates, Kernel.executes, e, idsOf, Frame.newTid]
    | threadCreateLink p function n r => exact T.create_step P I ha e h
    | _ => obtain ⟨p, e, n, r, hl⟩ := hfa rfl; cases hl

end Pintos
