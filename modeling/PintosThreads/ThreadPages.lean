/-
PintosThreads/ThreadPages.lean

Threads, and the pages that they live in.

The threads are numbered in the order in which `init_thread` makes them, and a
`struct thread *` is the number of its thread.  The page is something else: once
`thread_schedule_tail` has freed the page of a thread that has exited,
`palloc_get_page` may hand it out again, and a pointer that is left over from
the old thread is then one to the new.  The allocator is free to do so, as long
as the page is not in use (`Label.TakesFree`).

A step changes the status of a thread along a few edges only (`Life`), and none
of them leads out of `THREAD_DYING`.  So two threads whose pages are in use have
different pages, throughout (`Reachable.distinct_pages`): where the kernel refers
to no thread whose page has been freed, the numbers say the same as the pages.
-/
import PintosThreads.SchedulerInv

namespace Pintos

open Intrusive

variable {cfg : Config} {fuel : ℕ} {srt : Prop} {ok : Kernel → Label → Prop}
variable {k k₁ k' : Kernel} {lab : Label} {t u : ThreadPtr} {page : ThreadPtr → ℕ}

/-! ### The edges -/

/-- What a step can make of the status of a thread. -/
inductive Life : ThreadStatus → ThreadStatus → Prop
  | stays {s} : Life s s
  | woken : Life .blocked .ready
  | picked {s} : s ≠ .dying → Life s .running
  | leaves {s} : Life .running s

theorem Life.of_eq {s s' : ThreadStatus} (h : s' = s) : Life s s' :=
  h ▸ .stays

theorem Life.of_woken {s s' : ThreadStatus} (h : s' = s ∨ s = .blocked ∧ s' = .ready) :
    Life s s' := by
  obtain rfl | ⟨rfl, rfl⟩ := h
  · exact .stays
  · exact .woken

theorem Life.dying {s : ThreadStatus} (h : Life .dying s) : s = .dying := by
  cases h with
  | stays => rfl
  | picked hs => exact absurd rfl hs

theorem Switches.life {s : ThreadStatus} (h : Switches srt k k' s)
    (hc : (k.thr k.cur).status = .running) (u : ThreadPtr) :
    Life (k.thr u).status (k'.thr u).status := by
  rw [h.status u]
  split
  case isTrue hu =>
    subst hu
    by_cases hcur : k'.cur = k.cur
    · rw [hcur, hc]
      exact .stays
    · refine .picked fun hd => ?_
      obtain ⟨k₁, hl, hdisp⟩ := h
      have hs := hl.restatus.2 _ hcur
      rcases hdisp.chosen with ⟨hr, -⟩ | ⟨-, hi, -⟩
      · rw [hs, hd] at hr
        cases hr
      · exact hi (hs.trans hd)
  case isFalse =>
    split
    case isTrue hu =>
      rw [hu, hc]
      exact .leaves
    case isFalse => exact .stays

theorem Woken.status (h : Woken cfg t k k') (u : ThreadPtr) :
    (k'.thr u).status = (k.thr u).status ∨
      (k.thr u).status = .blocked ∧ (k'.thr u).status = .ready := by
  obtain rfl | hu := eq_or_ne u t
  · exact .inr ⟨h.blocked, h.restatus.1⟩
  · exact .inl (h.restatus.2 u hu)

theorem WakesWaiter.status {p : SemaPtr} (h : WakesWaiter cfg p k k') (u : ThreadPtr) :
    (k'.thr u).status = (k.thr u).status ∨
      (k.thr u).status = .blocked ∧ (k'.thr u).status = .ready := by
  obtain ⟨rfl, -⟩ | ⟨t, -, hw⟩ := h
  · exact .inl rfl
  · exact hw.status u

/-- An interrupt wakes threads, and may take the processor away afterwards. -/
theorem Returns.life
    (hw : ∀ u, (k₁.thr u).status = (k.thr u).status ∨
      (k.thr u).status = .blocked ∧ (k₁.thr u).status = .ready)
    (hc : (k.thr k₁.cur).status = .running) (h : Returns srt k₁ k') (u : ThreadPtr) :
    Life (k.thr u).status (k'.thr u).status := by
  have hc₁ : (k₁.thr k₁.cur).status = .running := by
    rcases hw k₁.cur with e | ⟨hb, -⟩
    · exact e.trans hc
    · rw [hc] at hb
      cases hb
  obtain rfl | h := h
  · exact .of_woken (hw u)
  · have hl : Life (k₁.thr u).status (k'.thr u).status := h.life hc₁ u
    rcases hw u with e | ⟨hb, hr⟩
    · rwa [e] at hl
    · rw [hr] at hl
      rw [hb]
      generalize (k'.thr u).status = s at hl
      cases hl with
      | stays => exact .woken
      | picked => exact .picked (by rintro ⟨⟩)

theorem Effect.life {f : Frame} (h : Effect cfg srt k f k')
    (hc : (k.thr k.cur).status = .running) (hu : u ≠ k.nextThread) :
    Life (k.thr u).status (k'.thr u).status := by
  cases h with
  | same _ hs => exact .of_eq (hs.status u)
  | priority _ hs =>
      refine .of_eq ((hs.status u).trans ?_)
      obtain rfl | hc := eq_or_ne u k.cur <;> simp [*]
  | switch _ _ hs hsw =>
      rw [← hs.status u]
      exact hsw.life ((hs.status _).trans (by rw [hs.cur, hc])) u
  | wake _ hw hs =>
      rw [hs.status u]
      exact .of_woken (hw.status u)
  | up hw hs =>
      rw [hs.status u]
      exact .of_woken (hw.status u)
  | contend _ hc hs =>
      obtain ⟨p, e, -⟩ := hc.thr u
      exact .of_eq ((hs.status u).trans (by rw [e]))
  | link hs => exact .of_eq ((hs.status u).trans (by simp [linkThread, hu]))
  | idle hs => exact .of_eq (hs.status u)

/-- **Every step** changes the status of a thread along one of the edges. -/
theorem StepEffect.life (h : StepEffect cfg srt k lab k') (hc : (k.thr k.cur).status = .running)
    (hu : u ≠ k.nextThread) : Life (k.thr u).status (k'.thr u).status := by
  cases h with
  | call => exact .stays
  | run _ he => exact he.life hc hu
  | @timer k₁ _ hw hr =>
      have hcur : k₁.cur = k.cur := hw.sync.2.trans (endHalt_cur k)
      rw [← endHalt_thr] at hc ⊢
      refine hr.life (fun u => (hw.status u).imp id And.right) ?_ u
      rwa [hcur]
  | @semaUp n k₁ _ hw hr =>
      have hcur : k₁.cur = k.cur := hw.sync.2.trans (endHalt_cur k)
      rw [← endHalt_thr] at hc ⊢
      have hw' : ∀ u, ((k₁.raised none (.user n)).thr u).status = ((endHalt k).thr u).status ∨
          ((endHalt k).thr u).status = .blocked ∧
            ((k₁.raised none (.user n)).thr u).status = .ready := hw.status
      refine hr.life hw' ?_ u
      show ((endHalt k).thr k₁.cur).status = _
      rwa [hcur]
  | @semaTryDown n =>
      have hc : Calm cfg ((endHalt k).setLevel false)
        (Pintos.semaTryDown ((endHalt k).setLevel false) none (.user n)).1 [] :=
          semaTryDown_calm _ none _
      refine .of_eq ((hc.status u).trans ?_)
      show ((endHalt k).thr u).status = _
      rw [endHalt_thr]

/-! ### Pages -/

/-- The page of thread `t` is in use: `thread_schedule_tail` frees it when the thread has exited,
unless it is the initial thread. -/
def Kernel.PageInUse (k : Kernel) (t : ThreadPtr) : Prop :=
  t < k.nextThread ∧ ((k.thr t).status = .dying → t = 0)

instance (k : Kernel) (t : ThreadPtr) : Decidable (k.PageInUse t) :=
  inferInstanceAs (Decidable (_ ∧ _))

/-- A thread that is made lives in a page that is not in use, where `page t` is the page of
thread `t`. -/
def Label.TakesFree (page : ThreadPtr → ℕ) (k : Kernel) : Label → Prop
  | .run => ∀ p e n r fs, k.stack k.cur = .threadCreateLink p e n r :: fs →
      ∀ t, k.PageInUse t → page k.nextThread ≠ page t
  | _ => True

/-- `Label.TakesFree`, computed. -/
def Label.takesFree (page : ThreadPtr → ℕ) (k : Kernel) : Label → Bool
  | .run =>
      match k.stack k.cur with
      | .threadCreateLink _ _ _ _ :: _ =>
          (List.range k.nextThread).all fun t => k.PageInUse t → page k.nextThread ≠ page t
      | _ => true
  | _ => true

theorem Label.TakesFree.of_check (h : lab.takesFree page k = true) : lab.TakesFree page k := by
  cases lab with
  | run =>
      intro p e n r fs hs t ht
      simp only [Label.takesFree, hs, List.all_eq_true] at h
      exact of_decide_eq_true (h t (List.mem_range.mpr ht.1)) ht
  | _ => trivial

theorem SyncStep.nextThread_cases {s' : Sync} (h : SyncStep k lab s') :
    s'.nextThread = k.nextThread ∨ s'.nextThread = k.nextThread + 1 ∧ lab = .run ∧
      ∃ p e n r fs, k.stack k.cur = .threadCreateLink p e n r :: fs := by
  cases h with
  | call => exact .inl rfl
  | interrupt _ _ hh => cases hh <;> exact .inl rfl
  | run e hm =>
      cases hm with
      | createAtomic | create => exact .inr ⟨rfl, rfl, _, _, _, _, _, e⟩
      | _ => exact .inl rfl

/-- A page that is in use after a step was so before it, or is that of the new thread. -/
theorem Good.pageInUse (G : Good cfg srt k) (C : Control k) (C' : Control k')
    (hc : k.cur < k.nextThread) (hT : Tame cfg srt k lab)
    (h : Pintos.step cfg fuel k lab = some k') (ht : k'.PageInUse t) : k.PageInUse t ∨
      t = k.nextThread ∧ lab = .run ∧
        ∃ p e n r fs, k.stack k.cur = .threadCreateLink p e n r :: fs := by
  obtain ⟨he, -⟩ := G.step C C' hc hT h
  obtain ⟨⟨q, home, L, P⟩, -⟩ := G.sched
  by_cases hlt : t < k.nextThread
  · -- who has exited before the step has exited after it
    refine .inl ⟨hlt, fun hd => ht.2 ?_⟩
    have hl := he.life P.cur_running hlt.ne
    rw [hd] at hl
    exact hl.dying
  · obtain ⟨hs, -⟩ := step_syncStep hc h
    have hlt' : t < k'.nextThread := ht.1
    have hcases : k'.nextThread = k.nextThread ∨ k'.nextThread = k.nextThread + 1 ∧ _ :=
      hs.nextThread_cases
    rcases hcases with hn | ⟨hn, hcreate⟩
    · exact absurd (hn ▸ hlt') hlt
    · exact .inr ⟨Nat.eq_of_lt_succ_of_not_lt (hn ▸ hlt') hlt, hcreate⟩

/-- **Two threads whose pages are in use** have different pages. -/
theorem Reachable.distinct_pages (hT : ∀ k lab, Reachable cfg ok k → ok k lab → Tame cfg srt k lab)
    (hP : ∀ k lab, Reachable cfg ok k → ok k lab → lab.TakesFree page k)
    (hr : Reachable cfg ok k) (ht : k.PageInUse t) (hu : k.PageInUse u) (e : page t = page u) :
    t = u := by
  induction hr generalizing t u with
  | refl => exact (Nat.lt_one_iff.mp ht.1).trans (Nat.lt_one_iff.mp hu.1).symm
  | @tail k k' hr hn ih =>
      have hr : Reachable cfg ok k := hr
      obtain ⟨lab, fuel, hok, hs⟩ := hn
      have hr' : Reachable cfg ok k' := hr.tail ⟨lab, fuel, hok, hs⟩
      have hold : ∀ {v}, k'.PageInUse v → k.PageInUse v ∨ v = k.nextThread ∧ _ ∧ _ := fun hv =>
        (hr.good hT).pageInUse hr.control hr'.control hr.anySync.2 (hT k lab hr hok) hs hv
      have hnew := hP k lab hr hok
      -- a new thread takes a page that neither of the others has
      obtain ht | ⟨rfl, rfl, p, en, n, r, fs, hst⟩ := hold ht
      · obtain hu | ⟨rfl, rfl, p, en, n, r, fs, hst⟩ := hold hu
        · exact ih ht hu e
        · exact absurd e.symm (hnew p en n r fs hst t ht)
      · obtain hu | ⟨rfl, -⟩ := hold hu
        · exact absurd e (hnew p en n r fs hst u hu)
        · rfl

end Pintos
