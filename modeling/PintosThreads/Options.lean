/-
PintosThreads/Options.lean

`parse_options` of `threads/init.c`: the options of the kernel command line.

The function works on the area of the loader, where `strtok_r` cuts an option
into a name and a value.  What it does with them is written once, for strings
that are given in any way (`setOption`): by a pointer into the area in the
function, and by themselves in what it should do (`parseWords`).

The cuts are made inside the options.  So the words behind them, and the values
that have been kept, stay as they are, and the function does with the area what
should be done with its words (`parseOptions_agree`).
-/
import PintosThreads.CString
import PintosThreads.CommandLine

namespace Pintos

/-! ### The function -/

/-- A string of the source. -/
def bytes (s : String) : List UInt8 :=
  s.toList.map fun c => UInt8.ofNat c.toNat

/-- Which of `FILESYS`, `VM` and `USERPROG` the kernel is built with. -/
structure Build where
  filesys : Bool
  vm : Bool
  userprog : Bool

/-- The argument of `shutdown_configure`. -/
inductive ShutdownType where
  | powerOff
  | reboot
deriving DecidableEq

/-- What the options set, with strings given by `σ`. -/
structure Settings (σ : Type) where
  /-- What `shutdown_configure` has been called with last. -/
  shutdown : Option ShutdownType
  formatFilesys : Bool
  filesysBdevName : Option σ
  scratchBdevName : Option σ
  swapBdevName : Option σ
  userPageLimit : UInt32
  threadMlfqs : Bool
  /-- What `random_init` has been called with, in order. -/
  seeds : List UInt32

/-- Before the options are parsed. -/
def Settings.init (σ : Type) : Settings σ where
  shutdown := none
  formatFilesys := false
  filesysBdevName := none
  scratchBdevName := none
  swapBdevName := none
  userPageLimit := UInt32.ofNat (2 ^ 32 - 1)
  threadMlfqs := false
  seeds := []

/-- Why the kernel goes no further. -/
inductive Stop where
  | panic (message : List UInt8)
  /-- `usage` has printed the text. -/
  | powerOff (text : List UInt8)
  /-- A string is read that is null, or has no end in the area. -/
  | fault
deriving DecidableEq

/-- `usage`, up to the call of `shutdown_power_off`. -/
def usage (b : Build) : List UInt8 :=
  bytes "\nCommand line syntax: [OPTION...] [ACTION...]\n" ++
  bytes "Options must precede actions.\n" ++
  bytes "Actions are executed in the order specified.\n" ++
  bytes "\nAvailable actions:\n" ++
  (if b.userprog then bytes "  run 'PROG [ARG...]' Run PROG and wait for it to complete.\n"
    else bytes "  run TEST           Run TEST.\n") ++
  (if b.filesys then
    bytes "  ls                 List files in the root directory.\n" ++
    bytes "  cat FILE           Print FILE to the console.\n" ++
    bytes "  rm FILE            Delete FILE.\n" ++
    bytes "Use these actions indirectly via `pintos' -g and -p options:\n" ++
    bytes "  extract            Untar from scratch device into file system.\n" ++
    bytes "  append FILE        Append FILE to tar file on scratch device.\n"
    else []) ++
  bytes "\nOptions:\n" ++
  bytes "  -h                 Print this help message and power off.\n" ++
  bytes "  -q                 Power off VM after actions or on panic.\n" ++
  bytes "  -r                 Reboot after actions.\n" ++
  (if b.filesys then
    bytes "  -f                 Format file system device during startup.\n" ++
    bytes "  -filesys=BDEV      Use BDEV for file system instead of default.\n" ++
    bytes "  -scratch=BDEV      Use BDEV for scratch instead of default.\n" ++
    (if b.vm then bytes "  -swap=BDEV         Use BDEV for swap instead of default.\n" else [])
    else []) ++
  bytes "  -rs=SEED           Set random number seed to SEED.\n" ++
  bytes "  -mlfqs             Use multi-level feedback queue scheduler.\n" ++
  (if b.userprog then bytes "  -ul=COUNT          Limit user memory to COUNT pages.\n" else [])

variable {σ τ : Type}

/-- What a function needs that may be null, or have no end in the area. -/
def orFault {α : Type} : Option α → Except Stop α
  | none => .error .fault
  | some a => .ok a

theorem orFault_bind {α β : Type} (a : α) (f : α → Except Stop β) :
    orFault (some a) >>= f = f a := rfl

/-- The body of the loop of `parse_options`, once it has the name and the value; `str` is the
string that is given by `σ`. -/
def setOption (b : Build) (atoi : List UInt8 → ℤ) (str : σ → Option (List UInt8))
    (name : List UInt8) (value : Option σ) (s : Settings σ) : Except Stop (Settings σ) :=
  if name = bytes "-h" then .error (.powerOff (usage b))
  else if name = bytes "-q" then .ok { s with shutdown := some .powerOff }
  else if name = bytes "-r" then .ok { s with shutdown := some .reboot }
  else if b.filesys ∧ name = bytes "-f" then .ok { s with formatFilesys := true }
  else if b.filesys ∧ name = bytes "-filesys" then .ok { s with filesysBdevName := value }
  else if b.filesys ∧ name = bytes "-scratch" then .ok { s with scratchBdevName := value }
  else if b.filesys ∧ b.vm ∧ name = bytes "-swap" then .ok { s with swapBdevName := value }
  else if name = bytes "-rs" then do
    let v ← orFault (value.bind str)
    .ok { s with seeds := s.seeds ++ [UInt32.ofInt (atoi v)] }
  else if name = bytes "-mlfqs" then .ok { s with threadMlfqs := true }
  else if b.userprog ∧ name = bytes "-ul" then do
    let v ← orFault (value.bind str)
    .ok { s with userPageLimit := UInt32.ofInt (atoi v) }
  else .error (.panic (bytes "unknown option `" ++ name ++ bytes "' (use -h for help)"))

/-- The call of `random_init` behind the loop, with the time of `rtc_get_time`. -/
def Settings.seed (s : Settings σ) (now : UInt32) : Settings σ :=
  { s with seeds := s.seeds ++ [now] }

/-- `parse_options`, from index `i` of `argv` on, with `n` entries of the array left: the index of
the first argument that is no option, the area and the settings. -/
def parseOptions (b : Build) (atoi : List UInt8 → ℤ) (now : UInt32) (argv : Argv) :
    ℕ → ℕ → List UInt8 → Settings ℕ → Except Stop (ℕ × List UInt8 × Settings ℕ)
  | 0, _, _, _ => .error .fault
  | n + 1, i, area, s =>
      match argv.slot i with
      | none => .ok (i, area, s.seed now)
      | some p => do
          let c ← orFault area[p]?
          if c = '-'.toUInt8 then
            let (area, name, saved) ← orFault (CString.strtokR 0 (bytes "=") area p)
            let (area, value, _) ← orFault (CString.strtokR 0 [] area saved)
            let name ← orFault (name.bind (CString.read 0 area))
            let s ← setOption b atoi (CString.read 0 area) name value s
            parseOptions b atoi now argv n (i + 1) area s
          else .ok (i, area, s.seed now)

/-! ### What it should do -/

/-- The part of an option in front of the first `=`. -/
def optionName (w : List UInt8) : List UInt8 :=
  w.takeWhile (· ≠ '='.toUInt8)

/-- The part behind it, unless it is empty. -/
def optionValue (w : List UInt8) : Option (List UInt8) :=
  match (w.dropWhile (· ≠ '='.toUInt8)).drop 1 with
  | [] => none
  | v => some v

/-- An option that is written like this. -/
def applyOption (b : Build) (atoi : List UInt8 → ℤ) (w : List UInt8)
    (t : Settings (List UInt8)) : Except Stop (Settings (List UInt8)) :=
  setOption b atoi some (optionName w) (optionValue w) t

/-- The words that are left when the options have been taken, and the settings. -/
def parseWords (b : Build) (atoi : List UInt8 → ℤ) (now : UInt32) :
    List (List UInt8) → Settings (List UInt8) →
      Except Stop (List (List UInt8) × Settings (List UInt8))
  | [], t => .ok ([], t.seed now)
  | w :: ws, t =>
      if w.head? = some '-'.toUInt8 then do
        let t ← applyOption b atoi w t
        parseWords b atoi now ws t
      else .ok (w :: ws, t.seed now)

/-! ### Which options there are -/

/-- The options that take effect without a value. -/
def plainOptions (b : Build) : List (List UInt8) :=
  [bytes "-q", bytes "-r", bytes "-mlfqs"] ++
    if b.filesys then
      [bytes "-f", bytes "-filesys", bytes "-scratch"] ++ if b.vm then [bytes "-swap"] else []
    else []

/-- The options that need a number. -/
def numberOptions (b : Build) : List (List UInt8) :=
  bytes "-rs" :: if b.userprog then [bytes "-ul"] else []

/-- The word is an option that takes effect. -/
def Accepts (b : Build) (w : List UInt8) : Prop :=
  w.head? = some '-'.toUInt8 ∧ (optionName w ∈ plainOptions b ∨
    optionName w ∈ numberOptions b ∧ optionValue w ≠ none)

/-- The word is an option that the kernel stops at, and this is why. -/
def Rejects (b : Build) (w : List UInt8) (e : Stop) : Prop :=
  w.head? = some '-'.toUInt8 ∧ (optionName w = bytes "-h" ∧ e = .powerOff (usage b) ∨
    optionName w ∈ numberOptions b ∧ optionValue w = none ∧ e = .fault ∨
    optionName w ∉ bytes "-h" :: plainOptions b ++ numberOptions b ∧
      e = .panic (bytes "unknown option `" ++ optionName w ++ bytes "' (use -h for help)"))

theorem orFault_bind_cases {α β : Type} (x : Option α) (f : α → β) :
    x = none ∧ (orFault x >>= fun a => .ok (f a)) = .error .fault ∨
      x ≠ none ∧ ∃ c, (orFault x >>= fun a => .ok (f a)) = .ok c := by
  cases x with
  | none => exact .inl ⟨rfl, rfl⟩
  | some a => exact .inr ⟨Option.some_ne_none a, _, rfl⟩

/-- An option takes effect, or the kernel stops at it. -/
def Fate (b : Build) (w : List UInt8) {α : Type} (x : Except Stop α) : Prop :=
  (Accepts b w ∧ ∃ a, x = .ok a) ∨ ∃ e, Rejects b w e ∧ x = .error e

theorem Fate.ite {b : Build} {w : List UInt8} {α : Type} {c : Prop} [Decidable c]
    {x y : Except Stop α} (hc : c → Fate b w x) (hn : ¬ c → Fate b w y) :
    Fate b w (if c then x else y) := by
  split
  · exact hc ‹_›
  · exact hn ‹_›

theorem Fate.number {b : Build} {w : List UInt8} {α : Type} (hw : w.head? = some '-'.toUInt8)
    (hn : optionName w ∈ numberOptions b) (f : List UInt8 → α) :
    Fate b w (orFault (optionValue w) >>= fun v => .ok (f v)) := by
  rcases orFault_bind_cases (optionValue w) f with ⟨hv, he⟩ | ⟨hv, hok⟩
  · exact .inr ⟨_, ⟨hw, .inr (.inl ⟨hn, hv, rfl⟩)⟩, he⟩
  · exact .inl ⟨⟨hw, .inr ⟨hn, hv⟩⟩, hok⟩

theorem applyOption_fate {b : Build} {w : List UInt8} (hw : w.head? = some '-'.toUInt8)
    (atoi : List UInt8 → ℤ) (t : Settings (List UInt8)) : Fate b w (applyOption b atoi w t) := by
  have hplain : ∀ t', optionName w ∈ plainOptions b →
      Fate b w (.ok t' : Except Stop (Settings (List UInt8))) :=
    fun t' hm => .inl ⟨⟨hw, .inl hm⟩, t', rfl⟩
  have hvalue : (optionValue w).bind some = optionValue w := by cases optionValue w <;> rfl
  rw [applyOption, setOption, hvalue]
  -- the comparisons in the order of the source; at the end all of them have failed
  apply Fate.ite (fun h => .inr ⟨_, ⟨hw, .inl ⟨h, rfl⟩⟩, rfl⟩)
  intro hh
  apply Fate.ite (fun h => hplain _ (by simp [plainOptions, h]))
  intro hq
  apply Fate.ite (fun h => hplain _ (by simp [plainOptions, h]))
  intro hr
  apply Fate.ite (fun h => hplain _ (by simp [plainOptions, h]))
  intro hf
  apply Fate.ite (fun h => hplain _ (by simp [plainOptions, h]))
  intro hfilesys
  apply Fate.ite (fun h => hplain _ (by simp [plainOptions, h]))
  intro hscratch
  apply Fate.ite (fun h => hplain _ (by simp [plainOptions, h]))
  intro hswap
  apply Fate.ite (fun h => .number hw (by simp [numberOptions, h]) _)
  intro hrs
  apply Fate.ite (fun h => hplain _ (by simp [plainOptions, h]))
  intro hmlfqs
  apply Fate.ite (fun h => .number hw (by simp [numberOptions, h]) _)
  intro hul
  refine .inr ⟨_, ⟨hw, .inr (.inr ⟨?_, rfl⟩)⟩, rfl⟩
  obtain ⟨f, v, u⟩ := b
  cases f <;> cases v <;> cases u <;> simp_all [plainOptions, numberOptions]

/-- Not both. -/
theorem Accepts.not_rejects {b : Build} {w : List UInt8} {e : Stop} (h : Accepts b w) :
    ¬ Rejects b w e := by
  have hhelp : ∀ f v u : Bool, bytes "-h" ∉ plainOptions ⟨f, v, u⟩ ++ numberOptions ⟨f, v, u⟩ := by
    decide
  have hnumber : ∀ f v u : Bool, ∀ n ∈ numberOptions ⟨f, v, u⟩, n ∉ plainOptions ⟨f, v, u⟩ := by
    decide
  have hmem : optionName w ∈ plainOptions b ++ numberOptions b := by
    rw [List.mem_append]
    exact h.2.imp_right And.left
  rintro ⟨-, ⟨hn, -⟩ | ⟨hn, hv, -⟩ | ⟨hn, -⟩⟩
  · exact hhelp _ _ _ (hn ▸ hmem)
  · rcases h.2 with hp | ⟨-, hv'⟩
    · exact hnumber _ _ _ _ hn hp
    · exact hv' hv
  · exact hn (List.mem_cons_of_mem _ hmem)

/-- The settings that these options make. -/
def applyOptions (b : Build) (atoi : List UInt8 → ℤ) (os : List (List UInt8))
    (t : Settings (List UInt8)) : Except Stop (Settings (List UInt8)) :=
  os.foldlM (fun t w => applyOption b atoi w t) t

/-- **The options are taken** up to the first word that is none. -/
theorem parseWords_accepts {b : Build} (atoi : List UInt8 → ℤ) (now : UInt32)
    {os ws : List (List UInt8)} (ho : ∀ w ∈ os, Accepts b w)
    (hw : ∀ w ∈ ws.head?, w.head? ≠ some '-'.toUInt8) (t : Settings (List UInt8)) :
    ∃ t', applyOptions b atoi os t = .ok t' ∧
      parseWords b atoi now (os ++ ws) t = .ok (ws, t'.seed now) := by
  induction os generalizing t with
  | nil =>
      refine ⟨t, rfl, ?_⟩
      cases ws with
      | nil => rfl
      | cons w ws =>
          rw [List.nil_append, parseWords, if_neg (hw w rfl)]
  | cons o os ih =>
      have hacc := ho o List.mem_cons_self
      rcases applyOption_fate hacc.1 atoi t with ⟨-, t₁, h₁⟩ | ⟨e, he, -⟩
      · obtain ⟨t', hfold, hparse⟩ := ih (fun w hw => ho w (List.mem_cons_of_mem _ hw)) t₁
        refine ⟨t', ?_, ?_⟩
        · rw [applyOptions, List.foldlM_cons, h₁]
          exact hfold
        · rw [List.cons_append, parseWords, if_pos hacc.1, h₁]
          exact hparse
      · exact absurd he hacc.not_rejects

/-- What stops the kernel is the first option that does not take effect. -/
theorem parseWords_cases (b : Build) (atoi : List UInt8 → ℤ) (now : UInt32)
    (ws : List (List UInt8)) (t : Settings (List UInt8)) :
    (∃ os ws', ws = os ++ ws' ∧ (∀ w ∈ os, Accepts b w) ∧
      ∀ w ∈ ws'.head?, w.head? ≠ some '-'.toUInt8) ∨
    ∃ os w ws' e, ws = os ++ w :: ws' ∧ (∀ o ∈ os, Accepts b o) ∧ Rejects b w e ∧
      parseWords b atoi now ws t = .error e := by
  induction ws generalizing t with
  | nil => exact .inl ⟨[], [], rfl, by simp, by simp⟩
  | cons w ws ih =>
      by_cases hw : w.head? = some '-'.toUInt8
      · rcases applyOption_fate hw atoi t with ⟨hacc, t₁, h₁⟩ | ⟨e, hrej, he⟩
        · rcases ih t₁ with ⟨os, ws', rfl, ho, hhead⟩ | ⟨os, v, ws', e, rfl, ho, hrej, he⟩
          · exact .inl ⟨w :: os, ws', rfl, List.forall_mem_cons.mpr ⟨hacc, ho⟩, hhead⟩
          · refine .inr ⟨w :: os, v, ws', e, rfl, List.forall_mem_cons.mpr ⟨hacc, ho⟩, hrej, ?_⟩
            rw [parseWords, if_pos hw, h₁]
            exact he
        · refine .inr ⟨[], w, ws, e, rfl, by simp, hrej, ?_⟩
          rw [parseWords, if_pos hw, he]
          rfl
      · refine .inl ⟨[], w :: ws, rfl, by simp, ?_⟩
        rintro _ ⟨⟩
        exact hw

theorem parseWords_length {b : Build} {atoi : List UInt8 → ℤ} {now : UInt32}
    {ws ws' : List (List UInt8)} {t t' : Settings (List UInt8)}
    (h : parseWords b atoi now ws t = .ok (ws', t')) : ws'.length ≤ ws.length := by
  induction ws generalizing t with
  | nil =>
      cases h
      exact Nat.le_refl _
  | cons w ws ih =>
      rw [parseWords] at h
      split at h
      · cases hw : applyOption b atoi w t with
        | error e =>
            rw [hw] at h
            cases h
        | ok t₁ =>
            rw [hw] at h
            exact Nat.le_succ_of_le (ih h)
      · cases h
        exact Nat.le_refl _

/-! ### Strings and their pointers -/

/-- Both stop for the same reason, or both go on. -/
inductive Agree {α β : Type} (R : α → β → Prop) : Except Stop α → Except Stop β → Prop
  | ok {a : α} {c : β} : R a c → Agree R (.ok a) (.ok c)
  | error (e : Stop) : Agree R (.error e) (.error e)

section Agree

variable {α β γ δ : Type} {R : α → β → Prop} {x x' : Except Stop α} {y y' : Except Stop β}

theorem Agree.refl : ∀ x : Except Stop α, Agree Eq x x
  | .ok _ => .ok rfl
  | .error e => .error e

theorem Agree.bind {S : γ → δ → Prop} {f : α → Except Stop γ} {g : β → Except Stop δ}
    (h : Agree R x y) (hfg : ∀ a c, R a c → Agree S (f a) (g c)) :
    Agree S (x >>= f) (y >>= g) := by
  cases h with
  | ok h => exact hfg _ _ h
  | error e => exact .error e

theorem Agree.ite {c : Prop} [Decidable c] (h : Agree R x y) (h' : Agree R x' y') :
    Agree R (if c then x else x') (if c then y else y') := by
  split
  · exact h
  · exact h'

end Agree

/-- The same settings, with strings that are given in different ways. -/
structure Settings.Same (R : σ → τ → Prop) (s : Settings σ) (t : Settings τ) : Prop where
  shutdown : s.shutdown = t.shutdown
  formatFilesys : s.formatFilesys = t.formatFilesys
  filesysBdevName : Option.Rel R s.filesysBdevName t.filesysBdevName
  scratchBdevName : Option.Rel R s.scratchBdevName t.scratchBdevName
  swapBdevName : Option.Rel R s.swapBdevName t.swapBdevName
  userPageLimit : s.userPageLimit = t.userPageLimit
  threadMlfqs : s.threadMlfqs = t.threadMlfqs
  seeds : s.seeds = t.seeds

theorem Settings.init_same (R : σ → τ → Prop) : (Settings.init σ).Same R (Settings.init τ) where
  shutdown := rfl
  formatFilesys := rfl
  filesysBdevName := .none
  scratchBdevName := .none
  swapBdevName := .none
  userPageLimit := by rw [init, init]
  threadMlfqs := rfl
  seeds := rfl

/-- The settings with strings that are given in another way. -/
def Settings.map (f : σ → τ) (s : Settings σ) : Settings τ where
  shutdown := s.shutdown
  formatFilesys := s.formatFilesys
  filesysBdevName := s.filesysBdevName.map f
  scratchBdevName := s.scratchBdevName.map f
  swapBdevName := s.swapBdevName.map f
  userPageLimit := s.userPageLimit
  threadMlfqs := s.threadMlfqs
  seeds := s.seeds

theorem Settings.Same.map_eq {υ : Type} {R : σ → τ → Prop} {f : σ → υ} {g : τ → υ}
    {s : Settings σ} {t : Settings τ} (h : s.Same R t) (hR : ∀ p v, R p v → f p = g v) :
    s.map f = t.map g := by
  have hstr : ∀ {x : Option σ} {y : Option τ}, Option.Rel R x y → x.map f = y.map g := by
    intro x y hxy
    cases hxy with
    | none => rfl
    | some hpv => exact congrArg some (hR _ _ hpv)
  rw [Settings.map, Settings.map, h.shutdown, h.formatFilesys, h.userPageLimit, h.threadMlfqs,
    h.seeds, hstr h.filesysBdevName, hstr h.scratchBdevName, hstr h.swapBdevName]

variable {b : Build} {atoi : List UInt8 → ℤ} {now : UInt32}

theorem setOption_same {R : σ → τ → Prop} {str : σ → Option (List UInt8)}
    {str' : τ → Option (List UInt8)} (hR : ∀ p v, R p v → str p = str' v) {name : List UInt8}
    {value : Option σ} {value' : Option τ} (hv : Option.Rel R value value') {s : Settings σ}
    {t : Settings τ} (h : s.Same R t) :
    Agree (Settings.Same R) (setOption b atoi str name value s)
      (setOption b atoi str' name value' t) := by
  have hstr : value.bind str = value'.bind str' := by
    cases hv with
    | none => rfl
    | some hpv => exact hR _ _ hpv
  rw [setOption, setOption, hstr]
  apply Agree.ite (.error _)
  apply Agree.ite (.ok { h with shutdown := rfl })
  apply Agree.ite (.ok { h with shutdown := rfl })
  apply Agree.ite (.ok { h with formatFilesys := rfl })
  apply Agree.ite (.ok { h with filesysBdevName := hv })
  apply Agree.ite (.ok { h with scratchBdevName := hv })
  apply Agree.ite (.ok { h with swapBdevName := hv })
  apply Agree.ite
  · apply (Agree.refl _).bind
    rintro _ v rfl
    exact .ok { h with seeds := congrArg (· ++ _) h.seeds }
  apply Agree.ite (.ok { h with threadMlfqs := rfl })
  apply Agree.ite
  · apply (Agree.refl _).bind
    rintro _ v rfl
    exact .ok { h with userPageLimit := rfl }
  exact .error _

/-! ### The area -/

/-- The words stand in the area, from left to right. -/
inductive Laid (area : List UInt8) : List ℕ → List (List UInt8) → Prop
  | nil : Laid area [] []
  | cons {p : ℕ} {ps : List ℕ} {w : List UInt8} {ws : List (List UInt8)} :
      CString.At 0 area p w → (∀ q ∈ ps, p + w.length < q) → Laid area ps ws →
        Laid area (p :: ps) (w :: ws)

/-- From index `i` on, `argv` has these pointers and then the null pointer. -/
def Argv.Lists (argv : Argv) (i : ℕ) (ps : List ℕ) : Prop :=
  ∀ j ≤ ps.length, argv.slot (i + j : ℕ) = ps[j]?

/-- The string has been kept, and stands in front of all the words that are left. -/
def Kept (area : List UInt8) (ps : List ℕ) (q : ℕ) (v : List UInt8) : Prop :=
  CString.At 0 area q v ∧ ∀ p ∈ ps, q + v.length < p

variable {argv : Argv} {area area' : List UInt8} {i p : ℕ} {ps : List ℕ} {w : List UInt8}
variable {ws : List (List UInt8)}

theorem Argv.Lists.tail (h : argv.Lists i (p :: ps)) : argv.Lists (i + 1) ps := by
  intro j hj
  have hs := h (j + 1) (Nat.succ_le_succ hj)
  rwa [List.getElem?_cons_succ, show i + (j + 1) = i + 1 + j by omega] at hs

/-- What is written inside of a word does not change those behind it. -/
theorem Laid.frame {n : ℕ} (h : Laid area ps ws) (hn : ∀ q ∈ ps, n < q)
    (hf : ∀ r v, CString.At 0 area r v → n < r → CString.At 0 area' r v) : Laid area' ps ws := by
  induction h with
  | nil => exact .nil
  | cons hw hlt _ ih =>
      exact .cons (hf _ _ hw (hn _ List.mem_cons_self)) hlt
        (ih fun q hq => hn q (List.mem_cons_of_mem _ hq))

theorem optionName_append (w : List UInt8) :
    optionName w ++ w.dropWhile (· ≠ '='.toUInt8) = w :=
  List.takeWhile_append_dropWhile

theorem ne_of_mem_optionName {c : UInt8} (h : c ∈ optionName w) : c ≠ '='.toUInt8 := by
  have hall := List.all_takeWhile (p := fun c => decide (c ≠ '='.toUInt8)) (l := w)
  simpa using List.all_eq_true.mp hall c h

/-- **The two calls of `strtok_r`** cut an option into its name and its value, and change no other
string. -/
theorem cutOption (h : CString.At 0 area p w) (hw : w.head? = some '-'.toUInt8) :
    ∃ area' saved q saved',
      CString.strtokR 0 (bytes "=") area p = some (area', some p, saved) ∧
      CString.strtokR 0 [] area' saved = some (area', q, saved') ∧
      CString.At 0 area' p (optionName w) ∧
      Option.Rel (fun q v => CString.At 0 area' q v ∧ q + v.length = p + w.length) q
        (optionValue w) ∧
      ∀ r v, CString.At 0 area r v → r + v.length < p ∨ p + w.length < r →
        CString.At 0 area' r v := by
  have hne : optionName w ≠ [] := by
    obtain ⟨c, w', rfl⟩ := List.exists_cons_of_ne_nil fun hn : w = [] => by simp [hn] at hw
    obtain rfl : c = '-'.toUInt8 := by simpa using hw
    rw [optionName, List.takeWhile_cons_of_pos (by decide)]
    exact List.cons_ne_nil _ _
  have hdel : ∀ c ∈ optionName w, c ∉ bytes "=" := by
    intro c hc hm
    exact ne_of_mem_optionName hc (List.mem_singleton.mp hm)
  have happ := optionName_append w
  have hat := h
  rw [← happ] at hat
  have hlen := congrArg List.length happ
  rw [List.length_append] at hlen
  cases hv : w.dropWhile (· ≠ '='.toUInt8) with
  | nil =>
      -- no delimiter: the first call stops at the end, and the second one finds nothing there
      rw [hv] at hat hlen
      have hend : CString.At 0 area (p + (optionName w).length) [] := hat.drop_add
      have htok := CString.strtokR_token hat hne hdel (by simp)
      rw [if_pos rfl] at htok
      rw [List.append_nil] at hat
      refine ⟨area, _, none, _, htok, CString.strtokR_end hend (by simp), hat, ?_,
        fun _ _ hr _ => hr⟩
      rw [optionValue, hv]
      exact .none
  | cons d v =>
      -- the first call overwrites the delimiter, and the second one starts behind it
      obtain rfl : d = '='.toUInt8 := by
        have hd := List.head?_dropWhile_not (fun c => decide (c ≠ '='.toUInt8)) w
        rw [hv] at hd
        simpa using hd
      rw [hv] at hat hlen
      rw [List.length_cons] at hlen
      have htok := CString.strtokR_token hat hne hdel
        (by rintro _ ⟨⟩; exact List.mem_singleton_self _)
      rw [if_neg (List.cons_ne_nil _ _)] at htok
      obtain ⟨hname, hvalue⟩ := hat.cut
      have hframe : ∀ r v, CString.At 0 area r v → r + v.length < p ∨ p + w.length < r →
          CString.At 0 (area.set (p + (optionName w).length) 0) r v := by
        intro r v hr hrp
        exact hr.set (by omega)
      cases v with
      | nil =>
          refine ⟨_, _, none, _, htok, CString.strtokR_end hvalue (by simp), hname, ?_, hframe⟩
          rw [optionValue, hv]
          exact .none
      | cons c v =>
          have htok' := CString.strtokR_token (v := []) (by rwa [List.append_nil])
            (List.cons_ne_nil c v) (fun _ _ => List.not_mem_nil) (by simp)
          rw [if_pos rfl] at htok'
          refine ⟨_, _, some _, _, htok, htok', hname, ?_, hframe⟩
          rw [optionValue, hv]
          show Option.Rel _ (some _) (some (c :: v))
          exact .some ⟨hvalue, by omega⟩

/-! ### The whole function -/

theorem rel_mono {R S : σ → τ → Prop} (hRS : ∀ p v, R p v → S p v) {x : Option σ}
    {y : Option τ} (h : Option.Rel R x y) : Option.Rel S x y := by
  cases h with
  | none => exact .none
  | some h => exact .some (hRS _ _ h)

theorem Settings.Same.mono {R S : σ → τ → Prop} (hRS : ∀ p v, R p v → S p v) {s : Settings σ}
    {t : Settings τ} (h : s.Same R t) : s.Same S t where
  shutdown := h.shutdown
  formatFilesys := h.formatFilesys
  filesysBdevName := rel_mono hRS h.filesysBdevName
  scratchBdevName := rel_mono hRS h.scratchBdevName
  swapBdevName := rel_mono hRS h.swapBdevName
  userPageLimit := h.userPageLimit
  threadMlfqs := h.threadMlfqs
  seeds := h.seeds

theorem Settings.Same.seed {R : σ → τ → Prop} {s : Settings σ} {t : Settings τ} (h : s.Same R t)
    (now : UInt32) : (s.seed now).Same R (t.seed now) :=
  { h with seeds := congrArg (· ++ [now]) h.seeds }

/-- What is left of the command line: the words from index `i` on, behind the strings that the
settings have kept. -/
def Remains (argv : Argv) (r : ℕ × List UInt8 × Settings ℕ)
    (r' : List (List UInt8) × Settings (List UInt8)) : Prop :=
  ∃ ps, argv.Lists r.1 ps ∧ Laid r.2.1 ps r'.1 ∧ r.2.2.Same (Kept r.2.1 ps) r'.2

variable (b atoi now) in
/-- **The function on the area does what should be done with the words of it.** -/
theorem parseOptions_agree {n : ℕ} {s : Settings ℕ} {t : Settings (List UInt8)}
    (hn : ps.length < n) (hl : argv.Lists i ps) (hL : Laid area ps ws)
    (hs : s.Same (Kept area ps) t) :
    Agree (Remains argv) (parseOptions b atoi now argv n i area s)
      (parseWords b atoi now ws t) := by
  induction n generalizing i area ps ws s t with
  | zero => exact absurd hn (Nat.not_lt_zero _)
  | succ n ih =>
      cases hL with
      | nil =>
          have hslot : argv.slot i = none := hl 0 (Nat.zero_le _)
          rw [parseOptions, hslot, parseWords]
          exact .ok ⟨[], hl, .nil, hs.seed now⟩
      | @cons p ps w ws hw hlt hL =>
          have hslot : argv.slot i = some p := hl 0 (Nat.zero_le _)
          have hhead : area[p]? = (w ++ [0]).head? := hw.getElem?_add (u := [])
          have hc : ∃ c, area[p]? = some c ∧ (c = '-'.toUInt8 ↔ w.head? = some '-'.toUInt8) := by
            rw [hhead]
            cases w with
            | nil => exact ⟨0, rfl, by decide⟩
            | cons c w => exact ⟨c, rfl, by simp⟩
          obtain ⟨c, harea, hc⟩ := hc
          rw [parseOptions, hslot, parseWords]
          dsimp only
          rw [harea, orFault_bind]
          by_cases hd : c = '-'.toUInt8
          · -- the strings that are kept, and the words that are left, end outside of this one
            obtain ⟨area', saved, q, saved', h₁, h₂, hname, hvalue, hframe⟩ :=
              cutOption hw (hc.mp hd)
            rw [if_pos hd, if_pos (hc.mp hd), h₁]
            simp only [orFault_bind, h₂, Option.bind_some, hname.read]
            have hkept : ∀ r v, Kept area (p :: ps) r v → Kept area' ps r v := by
              rintro r v ⟨hr, hlt'⟩
              refine ⟨hframe r v hr (.inl (hlt' p List.mem_cons_self)), fun q hq => ?_⟩
              exact hlt' q (List.mem_cons_of_mem _ hq)
            have hval : Option.Rel (Kept area' ps) q (optionValue w) := by
              refine rel_mono ?_ hvalue
              rintro r v ⟨hr, hend⟩
              exact ⟨hr, fun q hq => hend ▸ hlt q hq⟩
            refine (setOption_same (fun r v hr => hr.1.read) hval (hs.mono hkept)).bind ?_
            intro s' t' hs'
            refine ih (Nat.lt_of_succ_lt_succ hn) hl.tail ?_ hs'
            exact hL.frame hlt fun r v hr hlt' => hframe r v hr (.inr hlt')
          · rw [if_neg hd, if_neg fun h => hd (hc.mpr h)]
            exact .ok ⟨p :: ps, hl, .cons hw hlt hL, hs.seed now⟩

end Pintos
