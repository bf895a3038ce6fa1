/-
PintosThreads/PriorityRange.lean

The indices of `mlfqs_list`.

`mlfqs_insert` takes the priority of a thread for an index into an array of 64
lists, without a check.  Whatever writes a priority field must therefore write
one that is in range: the formula does, and so do donation and
`refresh_priority`, as long as they read the priorities of threads and no
sentinel of a list.  That they read none is a fact about the link memory
(`Guarded`): a traversal that has got into another list stops at its tail.
What does not check its argument is `thread_set_priority`.
-/
import PintosThreads.Writes
import PintosThreads.SyncInv
import PintosThreads.Queues
import PintosThreads.Runs

namespace Pintos

open Intrusive

/-! ### Priorities on the stacks -/

/-- A priority in range. -/
def PriorityOk (p : ℤ) : Prop :=
  priMin ≤ p ∧ p ≤ priMax

instance : DecidablePred PriorityOk := fun _ => inferInstanceAs (Decidable (_ ∧ _))

/-- The frames that carry a priority carry one in range, the arguments of
`thread_set_priority` if they are checked by its callers (`S`). -/
def Frame.Ranged (S : Prop) : Frame → Prop
  | threadSetPriority p => S → PriorityOk p
  | threadCreateLink p _ _ _ | threadSetNiceWrite p => PriorityOk p
  | _ => True

variable {S : Prop} {okCall : Call → Prop} {s s' : Sync} {t : ThreadPtr}

theorem Frame.Preempts.ranged {f : Frame} (h : f.Preempts) : f.Ranged S := by
  cases h <;> trivial

theorem Local.ranged {f g : Frame} {gs : List Frame} (h : Local f gs) (hg : g ∈ gs) :
    g.Ranged S := by
  cases h with
  | preempt _ hp | threadCreateUnblock hp =>
      obtain rfl := List.mem_singleton.mp hg
      exact hp.ranged
  | lockReleaseYield | allocateTidWrite =>
      obtain rfl | rfl := by simpa using hg
      all_goals trivial
  | threadSetNiceUpdate h0 h1 | threadCreate h0 h1 =>
      obtain rfl := List.mem_singleton.mp hg
      exact ⟨h0, h1⟩
  | _ =>
      first
        | exact absurd hg List.not_mem_nil
        | obtain rfl := List.mem_singleton.mp hg
          trivial

theorem Move.ranged {f g : Frame} {gs : List Frame} (h : Move t s f gs s') (hg : g ∈ gs) :
    g.Ranged S := by
  cases h with
  | quiet h => exact h.ranged hg
  | up hp =>
      obtain rfl := List.mem_singleton.mp hg
      exact hp.ranged
  | condWait =>
      simp only [List.mem_cons, List.not_mem_nil, or_false] at hg
      obtain rfl | rfl | rfl | rfl | rfl := hg <;> trivial
  | lockAcquireFree | lockAcquireHeld | lockReleaseBody | condBroadcast | create | idle =>
      obtain rfl | rfl := by simpa using hg
      all_goals trivial
  | _ =>
      first
        | exact absurd hg List.not_mem_nil
        | obtain rfl := List.mem_singleton.mp hg
          trivial

theorem Sync.Step.ranged (I : s.Inv) (h : Sync.Step okCall t s s')
    (hc : ∀ p, okCall (.threadSetPriority p) → S → PriorityOk p)
    (hr : ∀ u, ∀ f ∈ s.stack u, f.Ranged S) : ∀ u, ∀ f ∈ s'.stack u, f.Ranged S := by
  refine h.frames I.unborn (Q := fun _ f => f.Ranged S) hr (fun _ _ _ _ h => h) ?_ ?_ ?_ trivial
    (fun _ => trivial)
  · intro c hok _ _
    cases c with
    | threadSetPriority p => exact hc p hok
    | _ => trivial
  · exact fun f fs gs s₁ _ hm _ _ g hg => hm.ranged hg
  · intro p function n r _ f hf
    cases function with
    | user =>
        obtain rfl := List.mem_singleton.mp hf
        trivial
    | idle =>
        obtain rfl | rfl := by simpa [Entry.stack] using hf
        all_goals trivial

/-- The priorities that a run's frames carry are in range. -/
theorem Sync.Reachable.ranged {cfg : Config} (h : Sync.Reachable cfg okCall s)
    (hc : ∀ p, okCall (.threadSetPriority p) → S → PriorityOk p) :
    ∀ u, ∀ f ∈ s.stack u, f.Ranged S := by
  induction h with
  | refl =>
      intro u f hf
      obtain rfl | hu := eq_or_ne u 0
      · obtain rfl | rfl := by simpa [boot] using hf
        all_goals trivial
      · simp [boot, hu] at hf
  | tail hr hs ih =>
      obtain ⟨t, hs⟩ := hs
      exact hs.ranged (Sync.Reachable.inv hr) hc ih

/-! ### The link memory -/

/-- No sentinel of the memory next to `mlfqs_list`. -/
def Proper : Node ListPtr ThreadPtr → Prop
  | .head l | .tail l => ¬ l.Beyond
  | .item _ => True

/-- The pointers lead neither into the memory next to `mlfqs_list` nor past the end of a
list. -/
structure Guarded (e : Links ListPtr ThreadPtr) : Prop where
  next : ∀ n m, Proper n → e.next n = some m → Proper m ∧ ∀ l, m ≠ .head l
  prev : ∀ n m, Proper n → e.prev n = some m → Proper m ∧ ∀ l, m ≠ .tail l
  tail : ∀ l : ListPtr, ¬ l.Beyond → e.next (.tail l) = none

variable {e e' : Links ListPtr ThreadPtr} {l : ListPtr}

theorem Guarded.init (G : Guarded e) (hl : ¬ l.Beyond) : Guarded (e.listInit l) where
  next := by
    intro n m hn h
    simp only [Links.listInit, Function.update_apply] at h
    split at h
    · cases h
    · split at h
      · cases h
        exact ⟨hl, (by rintro _ ⟨⟩)⟩
      · exact G.next n m hn h
  prev := by
    intro n m hn h
    simp only [Links.listInit, Function.update_apply] at h
    split at h
    · cases h
      exact ⟨hl, (by rintro _ ⟨⟩)⟩
    · split at h
      · cases h
      · exact G.prev n m hn h
  tail := by
    intro m hm
    simp only [Links.listInit, Function.update_apply]
    split
    · rfl
    · simpa using G.tail m hm

/-- A node is put in front of `b`, which is no head of a list. -/
theorem Guarded.listInsert (G : Guarded e) {b : Node ListPtr ThreadPtr} {t : ThreadPtr}
    (hb : Proper b) (hh : ∀ l, b ≠ .head l) (h : e.listInsert b (.item t) = some e') :
    Guarded e' := by
  obtain ⟨p, hp, rfl⟩ := Option.map_eq_some_iff.mp h
  obtain ⟨hpp, hpt⟩ := G.prev b p hb hp
  refine ⟨fun n m hn h => ?_, fun n m hn h => ?_, fun l hl => ?_⟩
  · simp only [Links.link, Function.update_apply] at h
    split at h
    · cases h
      exact ⟨trivial, (by rintro _ ⟨⟩)⟩
    · split at h
      · cases h
        exact ⟨hb, hh⟩
      · exact G.next n m hn h
  · simp only [Links.link, Function.update_apply] at h
    split at h
    · cases h
      exact ⟨trivial, (by rintro _ ⟨⟩)⟩
    · split at h
      · cases h
        exact ⟨hpp, hpt⟩
      · exact G.prev n m hn h
  · simp only [Links.link, Function.update_apply]
    rw [if_neg (hpt l).symm, if_neg (by rintro ⟨⟩)]
    exact G.tail l hl

theorem Guarded.listRemove (G : Guarded e) {t : ThreadPtr}
    (h : e.listRemove (.item t) = some e') : Guarded e' := by
  unfold Links.listRemove at h
  split at h
  case h_2 => cases h
  case h_1 p n hp hn =>
    cases h
    obtain ⟨hpp, hpt⟩ := G.prev (.item t) p trivial hp
    obtain ⟨hnp, hnh⟩ := G.next (.item t) n trivial hn
    refine ⟨fun a b ha h => ?_, fun a b ha h => ?_, fun l hl => ?_⟩
    · simp only [Links.join, Function.update_apply] at h
      split at h
      · cases h
        exact ⟨hnp, hnh⟩
      · exact G.next a b ha h
    · simp only [Links.join, Function.update_apply] at h
      split at h
      · cases h
        exact ⟨hpp, hpt⟩
      · exact G.prev a b ha h
    · simp only [Links.join, Function.update_apply]
      rw [if_neg (hpt l).symm]
      exact G.tail l hl

theorem Guarded.findPlace (G : Guarded e) {less : Node ListPtr ThreadPtr → Bool} :
    ∀ (fuel : ℕ) {n b : Node ListPtr ThreadPtr}, Proper n → (∀ l, n ≠ .head l) →
      e.findPlace l less fuel n = some b → Proper b ∧ ∀ l, b ≠ .head l
  | 0, _, _, _, _, h => nomatch h
  | fuel + 1, n, b, hn, hh, h => by
      rw [Links.findPlace] at h
      split at h
      · cases h
        exact ⟨hn, hh⟩
      · split at h
        · cases h
          exact ⟨hn, hh⟩
        · obtain ⟨m, hm, h⟩ := Option.bind_eq_some_iff.mp h
          obtain ⟨hp, hm⟩ := G.next n m hn hm
          exact Guarded.findPlace G fuel hp hm h

/-- The first node of a list can only be taken out if it is that of a thread. -/
theorem Guarded.popFront (G : Guarded e) {n : Node ListPtr ThreadPtr} (hl : ¬ l.Beyond)
    (h : e.listPopFront l = some (n, e')) : ∃ t, n = .item t ∧ e.listRemove (.item t) = some e' := by
  obtain ⟨m, hm, h⟩ := Option.bind_eq_some_iff.mp h
  obtain ⟨e₁, he, h⟩ := Option.bind_eq_some_iff.mp h
  cases h
  unfold Links.listFront at hm
  split at hm
  case isTrue => cases hm
  case isFalse =>
    obtain ⟨hp, hh⟩ := G.next (.head l) n hl hm
    cases n with
    | head l' => exact absurd rfl (hh l')
    | tail l' =>
        have hn := G.tail l' hp
        unfold Links.listRemove at he
        rw [hn] at he
        split at he
        case h_1 h => cases h
        case h_2 => cases he
    | item t => exact ⟨t, rfl, he⟩

/-- **The operations of the list module keep the pointers guarded.** -/
theorem LinkWrite.guarded (h : LinkWrite e e') (G : Guarded e) : Guarded e' := by
  cases h with
  | init hl => exact G.init hl
  | @insert l _ _ _ _ hl h =>
      obtain ⟨n, hn, h⟩ := Option.bind_eq_some_iff.mp h
      obtain ⟨b, hb, h⟩ := Option.bind_eq_some_iff.mp h
      obtain ⟨hp, hh⟩ := G.next (.head l) n hl hn
      obtain ⟨hbp, hbh⟩ := G.findPlace _ hp hh hb
      exact G.listInsert hbp hbh h
  | @pop l t _ hl h =>
      unfold popThread at h
      split at h
      case h_2 => cases h
      case h_1 u e₁ hpop =>
        cases h
        obtain ⟨_, -, hr⟩ := G.popFront hl hpop
        exact G.listRemove hr
  | @move l l' _ _ _ hl hl' h₁ h₂ =>
      obtain ⟨t, rfl, hr⟩ := G.popFront hl h₁
      exact (G.listRemove hr).listInsert (b := .tail l') hl' nofun h₂
  | remove h => exact G.listRemove h

/-- A traversal meets no head of a list. -/
theorem Guarded.met (G : Guarded e) {l : LockPtr} {n : Node ListPtr ThreadPtr} (h : Met e l n) :
    Proper n ∧ ∀ l, n ≠ .head l := by
  induction h with
  | single h => exact G.next (.head (.lockWaiters l)) _ id h
  | tail _ h ih => exact G.next _ _ ih.1 h

theorem bootElems_guarded (cfg : Config) : Guarded (bootElems cfg) := by
  refine ⟨fun n m hn h => ?_, fun n m hn h => ?_, fun l hl => if_neg hl⟩
  · cases n with
    | head l =>
        simp only [bootElems, if_neg (show ¬ l.Beyond from hn)] at h
        split at h <;> cases h
        exact ⟨hn, nofun⟩
    | tail l =>
        simp only [bootElems, if_neg (show ¬ l.Beyond from hn)] at h
        cases h
    | item t => cases h
  · cases n with
    | head l =>
        simp only [bootElems, if_neg (show ¬ l.Beyond from hn)] at h
        cases h
    | tail l =>
        simp only [bootElems, if_neg (show ¬ l.Beyond from hn)] at h
        split at h <;> cases h
        exact ⟨hn, nofun⟩
    | item t => cases h

/-! ### The invariant -/

/-- Every priority is an index of the queues, and so was that of every insertion. -/
structure Indexed (k : Kernel) : Prop where
  links : Guarded k.elems
  threads : ∀ t, (k.thr t).InRange
  inserts : ∀ t i, .insert t i ∈ k.log → PriorityOk i

variable {cfg : Config} {fuel : ℕ} {o : Option Frame} {k k' : Kernel} {lab : Label}

theorem Indexed.modify (I : Indexed k) {t : ThreadPtr} {f : Thread → Thread}
    (h : (f (k.thr t)).InRange) : Indexed (k.modify t f) := by
  refine ⟨I.links, fun u => ?_, I.inserts⟩
  obtain rfl | hu := eq_or_ne u t
  · simpa using h
  · simpa [hu] using I.threads u

theorem WritesPriority.ok {p : ℤ} (h : WritesPriority cfg k o t p) (I : Indexed k)
    (ho : ∀ f, o = some f → f.Ranged True) : PriorityOk p := by
  cases h with
  | set => exact ho _ rfl trivial
  | donated => exact (I.threads _).priority
  | base => exact (I.threads _).basePriority
  | @waiter old l n m hn hm =>
      obtain ⟨hp, hh⟩ := I.links.met hn
      cases n with
      | item u => exact (I.threads u).priority
      | head l => exact absurd rfl (hh l)
      | tail l => exact absurd hm (by simp [I.links.tail l hp])

theorem initThread_inRange (hm : cfg.mlfqs = true) {p : ℤ} (n r : ℤ) (hp : PriorityOk p) :
    (initThread cfg p n r).InRange := by
  refine ⟨?_, hp⟩
  rw [show (initThread cfg p n r).priority = mlfqsPriority r n by simp [initThread, hm]]
  exact mlfqsPriority_mem r n

theorem Indexed.write (I : Indexed k) (hm : cfg.mlfqs = true)
    (ho : ∀ f, o = some f → f.Ranged True) (h : Write cfg o k k') : Indexed k' := by
  cases h with
  | silent hs =>
      refine ⟨hs.elems ▸ I.links, fun u => ?_, fun t i hi => I.inserts t i (hs.inserts t i hi)⟩
      exact (I.threads u).of_eq (hs.priority u) (hs.basePriority u)
  | links he => exact ⟨he.guarded I.links, I.threads, I.inserts⟩
  | @insert t e he =>
      have hp := (I.threads t).priority
      have hb : ¬ (ListPtr.mlfqsList (k.thr t).priority).Beyond := by
        rintro (h | h)
        · exact absurd h (not_lt.mpr hp.1)
        · exact absurd h (not_lt.mpr hp.2)
      refine ⟨I.links.listInsert (b := .tail (.mlfqsList (k.thr t).priority)) hb nofun he, I.threads,
        fun u i hi => ?_⟩
      rcases List.mem_cons.mp hi with hi | hi
      · cases hi
        exact hp
      · exact I.inserts u i hi
  | priority hw => exact I.modify ⟨hw.ok I ho, (I.threads _).basePriority⟩
  | compute => exact I.modify ⟨mlfqsPriority_mem _ _, (I.threads _).basePriority⟩
  | setNice h => exact I.modify ⟨ho _ h, (I.threads _).basePriority⟩
  | nice | recentCpu | waiting => exact I.modify ⟨(I.threads _).priority, (I.threads _).basePriority⟩
  | @wake t =>
      have I' := I.modify (t := t) (f := fun th => { th with status := .ready })
        ⟨(I.threads _).priority, (I.threads _).basePriority⟩
      refine ⟨I'.links, I'.threads, fun u i hi => ?_⟩
      rcases List.mem_cons.mp hi with hi | hi
      · cases hi
      · exact I.inserts u i hi
  | @sleep start n =>
      have I' := I.modify (t := k.cur) (f := fun th => { th with wakeupTick := toInt64 (start + n) })
        ⟨(I.threads _).priority, (I.threads _).basePriority⟩
      exact ⟨I'.links, I'.threads, I'.inserts⟩
  | @link p f n r h =>
      refine ⟨I.links, fun u => ?_, I.inserts⟩
      obtain rfl | hu := eq_or_ne u k.nextThread
      · rw [show (linkThread cfg k p f n r).thr k.nextThread = initThread cfg p n r by
          simp [linkThread]]
        exact initThread_inRange hm n r (ho _ h)
      · simpa [linkThread, hu] using I.threads u
  | unlist | idle | clock => exact ⟨I.links, I.threads, I.inserts⟩
  | dispatch =>
      refine ⟨I.links, I.threads, fun u i hi => ?_⟩
      rcases List.mem_cons.mp hi with hi | hi
      · cases hi
      · exact I.inserts u i hi

theorem boot_indexed (cfg : Config) : Indexed (boot cfg) := by
  refine ⟨bootElems_guarded cfg, fun t => ?_, nofun⟩
  obtain rfl | ht := eq_or_ne t 0
  · exact ⟨by simp [boot]; decide, by simp [boot, initThread]; decide⟩
  · rw [show (boot cfg).thr t = Thread.blank by simp [boot, ht]]
    exact ⟨by decide, by decide⟩

theorem Reachable.indexed {ok : Kernel → Label → Prop} (hm : cfg.mlfqs = true)
    (hok : ∀ k p, ok k (.call (.threadSetPriority p)) → PriorityOk p) (h : Reachable cfg ok k) :
    Indexed k := by
  let okCall : Call → Prop := fun c => ∀ p, c = .threadSetPriority p → PriorityOk p
  induction h with
  | refl => exact boot_indexed cfg
  | @tail k k' hr hs ih =>
      have hcall : ∀ k c, ok k (.call c) → okCall c := fun k c hc p e => hok k p (e ▸ hc)
      have hrs : Sync.Reachable cfg okCall k.sync := (Reachable.sync hcall hr).1
      have hran := hrs.ranged (S := True) fun p h _ => h p rfl
      obtain ⟨lab, fuel, -, hs⟩ := hs
      refine (step_writes hs).induct (fun _ _ I hw => I.write hm ?_ hw) ih
      intro f hf
      cases lab with
      | run =>
          have hfs : f ∈ k.stack k.cur := List.mem_of_mem_head? hf
          exact hran k.cur f hfs
      | _ => cases hf

/-- **No queue out of bounds**: as long as `thread_set_priority` is only called with priorities
in range, every `mlfqs_insert` uses an index between `PRI_MIN` and `PRI_MAX`. -/
theorem mlfqs_insert_in_bounds {ok : Kernel → Label → Prop} (hm : cfg.mlfqs = true)
    (hok : ∀ k p, ok k (.call (.threadSetPriority p)) → priMin ≤ p ∧ p ≤ priMax)
    (h : Reachable cfg ok k) (t : ThreadPtr) (i : ℤ) (hi : .insert t i ∈ k.log) :
    priMin ≤ i ∧ i ≤ priMax :=
  (Reachable.indexed hm hok h).inserts t i hi

/-- Calls of `thread_set_priority` are made with a priority in range. -/
def Label.checked : Label → Bool
  | .call (.threadSetPriority p) => PriorityOk p
  | _ => true

/-- The initial thread sets its priority to 50 and yields. -/
theorem mlfqs_insert_in_bounds_yield : ∃ k,
    Reachable mlfqsTidConfig (fun _ lab => lab.checked) k ∧
      .insert 0 50 ∈ k.log ∧ priMin ≤ (50 : ℤ) ∧ (50 : ℤ) ≤ priMax := by
  obtain ⟨k, hr, hk⟩ := exists_reachable mlfqsTidConfig 10 (fun _ lab => lab.checked)
    (List.replicate 125 Label.run ++ [Label.call (.threadSetPriority 50), .run, .run,
      .call .threadYield, .run]) (fun k => decide (.insert 0 50 ∈ k.log)) (by decide +kernel)
  have hi := of_decide_eq_true hk
  exact ⟨k, hr, hi, mlfqs_insert_in_bounds rfl (fun _ _ h => of_decide_eq_true h) hr 0 50 hi⟩

/-- The initial thread sets its priority to 1000 and yields; the memory at index 1000 of
`mlfqs_list` looks like a list. -/
theorem mlfqs_insert_out_of_bounds : ∃ cfg k, cfg.mlfqs = true ∧
    Reachable cfg (fun _ _ => True) k ∧ ∃ t i, .insert t i ∈ k.log ∧ ¬ (priMin ≤ i ∧ i ≤ priMax) := by
  let cfg : Config := { mlfqsTidConfig with beyond := fun
    | .head l => (some (.tail l), none)
    | .tail l => (none, some (.head l))
    | .item _ => (none, none) }
  obtain ⟨k, hr, hk⟩ := exists_reachable cfg 10 (fun _ _ => True)
    (List.replicate 125 Label.run ++ [Label.call (.threadSetPriority 1000), .run, .run,
      .call .threadYield, .run]) (fun k => decide (.insert 0 1000 ∈ k.log)) (by decide +kernel)
  exact ⟨cfg, k, rfl, hr, 0, 1000, of_decide_eq_true hk, by decide⟩

end Pintos
