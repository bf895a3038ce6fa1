/-
PintosThreads/Actions.lean

`run_actions` of `threads/init.c`, and the whole of the kernel command line:
`read_command_line`, `parse_options` and `run_actions`, as `main` calls them.

`Performs` describes what should be done with the words that are left when the
options have been taken: actions with their arguments, up to the end or to a
word that cannot go on.  The function on the area does that
(`runActions_performs`), and no two descriptions of one command line differ
(`Performs.unique`).  So the command line is accepted exactly when it is some
options and then some complete actions, and those are what is executed.
-/
import PintosThreads.Options
import Mathlib.Data.List.Nodup

namespace Pintos

/-! ### The functions -/

/-- The functions of the table of actions. -/
inductive ActionFunction where
  | runTask
  | fsutilLs
  | fsutilCat
  | fsutilRm
  | fsutilExtract
  | fsutilAppend
deriving DecidableEq

/-- `struct action`. -/
structure Action where
  name : List UInt8
  argc : ℕ
  function : ActionFunction

/-- The table of supported actions. -/
def actions (b : Build) : List Action :=
  ⟨bytes "run", 2, .runTask⟩ ::
    if b.filesys then
      [⟨bytes "ls", 1, .fsutilLs⟩, ⟨bytes "cat", 2, .fsutilCat⟩, ⟨bytes "rm", 2, .fsutilRm⟩,
        ⟨bytes "extract", 1, .fsutilExtract⟩, ⟨bytes "append", 2, .fsutilAppend⟩]
    else []

/-- What an action does. -/
inductive ActionEvent where
  | printf (text : List UInt8)
  | runTest (task : List UInt8)
  /-- `process_wait (process_execute (task))`. -/
  | processWait (task : List UInt8)
  | fsutil (function : ActionFunction) (args : List (List UInt8))
deriving DecidableEq

/-- `run_task`. -/
def runTask (b : Build) (task : List UInt8) : List ActionEvent :=
  [.printf (bytes "Executing '" ++ task ++ bytes "':\n"),
    if b.userprog then .processWait task else .runTest task,
    .printf (bytes "Execution of '" ++ task ++ bytes "' complete.\n")]

/-- The call of the function of an action. -/
def Action.invoke (b : Build) (a : Action) (args : List (List UInt8)) : List ActionEvent :=
  match a.function, args with
  | .runTask, task :: _ => runTask b task
  | f, args => [.fsutil f args]

/-- The message of `run_actions` for a word that names no action. -/
def unknownAction (w : List UInt8) : List UInt8 :=
  bytes "unknown action `" ++ w ++ bytes "' (use -h for help)"

/-- The message for an action without all its arguments. -/
def missingArguments (a : Action) : List UInt8 :=
  bytes "action `" ++ a.name ++ bytes "' requires " ++ bytes (toString (a.argc - 1)) ++
    bytes " argument(s)"

/-- The pointers of `argv` from index `i` on, as many as are asked for, unless one is null. -/
def Argv.args (argv : Argv) : ℕ → ℕ → Option (List ℕ)
  | _, 0 => some []
  | i, n + 1 => do
      let p ← argv.slot i
      let ps ← argv.args (i + 1) n
      some (p :: ps)

/-- `run_actions`, from index `i` of `argv` on, for as many iterations as the array has entries. -/
def runActions (b : Build) (argv : Argv) (area : List UInt8) :
    ℕ → ℕ → Except Stop Unit × List ActionEvent
  | 0, _ => (.error .fault, [])
  | n + 1, i =>
      match argv.slot i with
      | none => (.ok (), [])
      | some p =>
          match CString.read 0 area p with
          | none => (.error .fault, [])
          | some w =>
              match (actions b).find? (·.name = w) with
              | none => (.error (.panic (unknownAction w)), [])
              | some a =>
                  match argv.args (i + 1) (a.argc - 1) with
                  | none => (.error (.panic (missingArguments a)), [])
                  | some qs =>
                      match qs.mapM (CString.read 0 area) with
                      | none => (.error .fault, [])
                      | some args =>
                          let (r, es) := runActions b argv area n (i + a.argc)
                          (r, a.invoke b args ++ es)

/-- The entries of `argv[LOADER_ARGS_LEN / 2 + 1]`. -/
def argvLength : ℕ := loaderArgsLen / 2 + 1

/-- What `main` does with the result of `read_command_line`: the settings with their strings, if it
gets so far, what the actions have done, and how `run_actions`, or what comes before it, has
ended. -/
def runArgv (b : Build) (atoi : List UInt8 → ℤ) (now : UInt32) (area : List UInt8) :
    Except String Unit × Argv →
      Option (Settings (Option (List UInt8))) × List ActionEvent × Except Stop Unit
  | (.error e, _) => (none, [], .error (.panic (bytes e)))
  | (.ok (), argv) =>
      match parseOptions b atoi now argv argvLength 0 area (.init ℕ) with
      | .error e => (none, [], .error e)
      | .ok (i, area, s) =>
          let (r, es) := runActions b argv area argvLength i
          (some (s.map (CString.read 0 area)), es, r)

/-- What `main` does with the command line. -/
def commandLine (b : Build) (atoi : List UInt8 → ℤ) (now : UInt32) (area : LoaderArgs)
    (argCnt : UInt32) :
    Option (Settings (Option (List UInt8))) × List ActionEvent × Except Stop Unit :=
  runArgv b atoi now area.toList (readCommandLine area argCnt)

/-! ### What it should do -/

/-- What is done with the words behind the options. -/
inductive Performs (b : Build) : List (List UInt8) → List ActionEvent → Except Stop Unit → Prop
  | done : Performs b [] [] (.ok ())
  | unknown {w : List UInt8} {ws : List (List UInt8)} : (∀ a ∈ actions b, a.name ≠ w) →
      Performs b (w :: ws) [] (.error (.panic (unknownAction w)))
  | missing {a : Action} {ws : List (List UInt8)} : a ∈ actions b → ws.length < a.argc - 1 →
      Performs b (a.name :: ws) [] (.error (.panic (missingArguments a)))
  | invoke {a : Action} {args ws : List (List UInt8)} {es : List ActionEvent}
      {r : Except Stop Unit} : a ∈ actions b → args.length = a.argc - 1 → Performs b ws es r →
      Performs b (a.name :: (args ++ ws)) (a.invoke b args ++ es) r

variable {b : Build} {atoi : List UInt8 → ℤ} {now : UInt32} {argv : Argv} {area : List UInt8}
variable {i n : ℕ} {ps : List ℕ} {ws : List (List UInt8)}

/-! ### The words of an action -/

theorem actions_name_inj {a a' : Action} (h : a ∈ actions b) (h' : a' ∈ actions b)
    (hn : a.name = a'.name) : a = a' := by
  have hnodup : ∀ f v u : Bool, ((actions ⟨f, v, u⟩).map Action.name).Nodup := by decide
  exact List.inj_on_of_nodup_map (hnodup ..) h h' hn

theorem actions_argc_pos {a : Action} (h : a ∈ actions b) : 0 < a.argc := by
  have hpos : ∀ f v u : Bool, ∀ a ∈ actions ⟨f, v, u⟩, 0 < a.argc := by decide
  exact hpos _ _ _ a h

theorem Argv.Lists.args (h : argv.Lists i ps) :
    argv.args i n = if n ≤ ps.length then some (ps.take n) else none := by
  induction n generalizing i ps with
  | zero => rfl
  | succ n ih =>
      have hslot : argv.slot i = ps.head? := by rw [List.head?_eq_getElem?]; exact h 0 (by omega)
      rw [Argv.args, hslot]
      cases ps with
      | nil => rfl
      | cons p ps =>
          rw [List.head?_cons, Option.bind_eq_bind, Option.bind_some, ih h.tail]
          by_cases hn : n ≤ ps.length
          · have hn' : n + 1 ≤ (p :: ps).length := Nat.succ_le_succ hn
            rw [if_pos hn, if_pos hn']
            rfl
          · have hn' : ¬ n + 1 ≤ (p :: ps).length := fun h => hn (Nat.le_of_succ_le_succ h)
            rw [if_neg hn, if_neg hn']
            rfl

theorem Argv.Lists.drop (h : argv.Lists i ps) (hn : n ≤ ps.length) :
    argv.Lists (i + n) (ps.drop n) := by
  intro j hj
  rw [List.length_drop] at hj
  rw [List.getElem?_drop, Nat.add_assoc]
  exact h (n + j) (by omega)

theorem Laid.length_eq (h : Laid area ps ws) : ps.length = ws.length := by
  induction h with
  | nil => rfl
  | cons _ _ _ ih => rw [List.length_cons, List.length_cons, ih]

theorem Laid.drop (h : Laid area ps ws) (n : ℕ) : Laid area (ps.drop n) (ws.drop n) := by
  induction h generalizing n with
  | nil =>
      rw [List.drop_nil, List.drop_nil]
      exact .nil
  | cons hw hlt h ih =>
      cases n with
      | zero => exact .cons hw hlt h
      | succ n => exact ih n

theorem Laid.mapM_take (h : Laid area ps ws) (n : ℕ) :
    (ps.take n).mapM (CString.read 0 area) = some (ws.take n) := by
  induction h generalizing n with
  | nil =>
      rw [List.take_nil, List.take_nil]
      rfl
  | cons hw _ _ ih =>
      cases n with
      | zero => rfl
      | succ n => simp [hw.read, ih n]

/-! ### The whole function -/

/-- **The function on the area performs the words of it.** -/
theorem runActions_performs (hn : ps.length < n) (hl : argv.Lists i ps) (hL : Laid area ps ws) :
    Performs b ws (runActions b argv area n i).2 (runActions b argv area n i).1 := by
  induction n generalizing i ps ws with
  | zero => exact absurd hn (Nat.not_lt_zero _)
  | succ n ih =>
      cases hL with
      | nil =>
          -- the null pointer behind the last word ends the loop
          have hslot : argv.slot i = none := hl 0 (Nat.zero_le _)
          rw [runActions, hslot]
          exact .done
      | @cons p ps w ws hw hlt hL =>
          have hslot : argv.slot i = some p := hl 0 (Nat.zero_le _)
          simp only [runActions, hslot, hw.read]
          cases hfind : (actions b).find? (·.name = w) with
          | none =>
              refine .unknown fun a ha he => ?_
              simpa [he] using List.find?_eq_none.mp hfind a ha
          | some a =>
              have ha := List.mem_of_find?_eq_some hfind
              obtain rfl : a.name = w := by simpa using List.find?_some hfind
              have hlen := hL.length_eq
              have hpos := actions_argc_pos ha
              simp only [hl.tail.args]
              -- the loop over the arguments ends at a null pointer, if there are too few
              by_cases hargs : a.argc - 1 ≤ ps.length
              · rw [List.length_cons] at hn
                have hrest := (hl.tail.drop hargs)
                rw [show i + 1 + (a.argc - 1) = i + a.argc by omega] at hrest
                have hstep := ih (by rw [List.length_drop]; omega) hrest (hL.drop (a.argc - 1))
                simp only [if_pos hargs, hL.mapM_take]
                have htake : (ws.take (a.argc - 1)).length = a.argc - 1 := by
                  rw [List.length_take]
                  omega
                have hinv := Performs.invoke ha htake hstep
                rwa [List.take_append_drop] at hinv
              · simp only [if_neg hargs]
                exact .missing ha (by omega)

/-! ### Complete actions -/

/-- An action of the table with its arguments. -/
structure Invocation (b : Build) where
  action : Action
  args : List (List UInt8)
  mem : action ∈ actions b
  length_args : args.length = action.argc - 1

namespace Invocation

/-- How it is written. -/
def words (v : Invocation b) : List (List UInt8) :=
  v.action.name :: v.args

/-- What it does. -/
def events (v : Invocation b) : List ActionEvent :=
  v.action.invoke b v.args

end Invocation

variable {vs : List (Invocation b)} {es : List ActionEvent} {r : Except Stop Unit}

/-- In front of the rest, complete actions are executed in order. -/
theorem Performs.append (vs : List (Invocation b)) (h : Performs b ws es r) :
    Performs b (vs.flatMap Invocation.words ++ ws) (vs.flatMap Invocation.events ++ es) r := by
  induction vs with
  | nil => exact h
  | cons v vs ih =>
      have hv := Performs.invoke v.mem v.length_args ih
      rw [List.flatMap_cons, List.flatMap_cons, List.append_assoc, List.append_assoc]
      exact hv

/-- The word is no action, or not all its arguments come behind it, and this is said of it. -/
def Stuck (b : Build) (w : List UInt8) (ws : List (List UInt8)) (e : Stop) : Prop :=
  (∀ a ∈ actions b, a.name ≠ w) ∧ e = .panic (unknownAction w) ∨
    ∃ a ∈ actions b, a.name = w ∧ ws.length < a.argc - 1 ∧ e = .panic (missingArguments a)

/-- **What can be performed** is some complete actions, up to the end or to a word that cannot go
on. -/
theorem Performs.cases_append (h : Performs b ws es r) :
    ∃ (vs : List (Invocation b)) (rest : List (List UInt8)),
      ws = vs.flatMap Invocation.words ++ rest ∧ es = vs.flatMap Invocation.events ∧
        (rest = [] ∧ r = .ok () ∨ ∃ w ws' e, rest = w :: ws' ∧ Stuck b w ws' e ∧ r = .error e) := by
  induction h with
  | done => exact ⟨[], [], rfl, rfl, .inl ⟨rfl, rfl⟩⟩
  | unknown hw => exact ⟨[], _, rfl, rfl, .inr ⟨_, _, _, rfl, .inl ⟨hw, rfl⟩, rfl⟩⟩
  | missing ha hlen =>
      exact ⟨[], _, rfl, rfl, .inr ⟨_, _, _, rfl, .inr ⟨_, ha, rfl, hlen, rfl⟩, rfl⟩⟩
  | @invoke a args _ _ _ ha hlen _ ih =>
      obtain ⟨vs, rest, rfl, rfl, hrest⟩ := ih
      refine ⟨⟨a, args, ha, hlen⟩ :: vs, rest, ?_, rfl, hrest⟩
      rw [List.flatMap_cons, List.append_assoc]
      rfl

/-- **No words can be performed in two ways.** -/
theorem Performs.unique {es' : List ActionEvent} {r' : Except Stop Unit} (h : Performs b ws es r)
    (h' : Performs b ws es' r') : es = es' ∧ r = r' := by
  induction h generalizing es' r' with
  | done =>
      cases h'
      exact ⟨rfl, rfl⟩
  | @unknown w ws hw =>
      generalize hws : w :: ws = ws' at h'
      cases h' with
      | done => cases hws
      | unknown => cases hws; exact ⟨rfl, rfl⟩
      | missing ha => cases hws; exact absurd rfl (hw _ ha)
      | invoke ha => cases hws; exact absurd rfl (hw _ ha)
  | @missing a ws ha hlen =>
      generalize hws : a.name :: ws = ws' at h'
      cases h' with
      | done => cases hws
      | unknown hw => cases hws; exact absurd rfl (hw _ ha)
      | missing ha' =>
          injection hws with hname
          rw [actions_name_inj ha ha' hname]
          exact ⟨rfl, rfl⟩
      | invoke ha' hlen' =>
          -- the name fixes the action, and so the number of its arguments
          injection hws with hname hws
          rw [hws, actions_name_inj ha ha' hname, List.length_append] at hlen
          omega
  | @invoke a args ws es r ha hlen _ ih =>
      generalize hws : a.name :: (args ++ ws) = ws' at h'
      cases h' with
      | done => cases hws
      | unknown hw => cases hws; exact absurd rfl (hw _ ha)
      | missing ha' hlen' =>
          injection hws with hname hws
          rw [← hws, ← actions_name_inj ha ha' hname, List.length_append] at hlen'
          omega
      | invoke ha' hlen' h' =>
          injection hws with hname hws
          obtain rfl := actions_name_inj ha ha' hname
          obtain ⟨rfl, rfl⟩ := List.append_inj hws (hlen.trans hlen'.symm)
          obtain ⟨rfl, rfl⟩ := ih h'
          exact ⟨rfl, rfl⟩

/-! ### The area of the loader -/

/-- The words, each with a null behind it. -/
def layout (ws : List (List UInt8)) : List UInt8 :=
  ws.flatMap (· ++ [0])

/-- Where they start, when the first one starts at `p`. -/
def offsets : ℕ → List (List UInt8) → List ℕ
  | _, [] => []
  | p, w :: ws => p :: offsets (p + w.length + 1) ws

/-- The loader has left these words and the number of them, and `argv` has room for them. -/
structure LoaderLine (area : LoaderArgs) (argCnt : UInt32) (ws : List (List UInt8)) : Prop where
  layout : layout ws <+: area.toList
  nul : ∀ w ∈ ws, 0 ∉ w
  count : argCnt.toNat = ws.length
  room : ws.length ≤ loaderArgsLen / 2

theorem length_offsets (p : ℕ) (ws : List (List UInt8)) : (offsets p ws).length = ws.length := by
  induction ws generalizing p with
  | nil => rfl
  | cons w ws ih => rw [offsets, List.length_cons, List.length_cons, ih]

theorem le_of_mem_offsets {p q : ℕ} (h : q ∈ offsets p ws) : p ≤ q := by
  induction ws generalizing p with
  | nil => cases h
  | cons w ws ih =>
      rcases List.mem_cons.mp h with rfl | h
      · exact Nat.le_refl _
      · have := ih h
        omega

theorem layout_cons (w : List UInt8) (ws : List (List UInt8)) :
    layout (w :: ws) = w ++ 0 :: layout ws := by
  rw [layout, List.flatMap_cons, List.append_assoc]
  rfl

/-- The words stand in the area, and they are those that the starts of words tell. -/
theorem offsets_laid {p : ℕ} (h : layout ws <+: area.drop p) (hnul : ∀ w ∈ ws, 0 ∉ w)
    (hp : Words.IsStart 0 area p) :
    Laid area (offsets p ws) ws ∧
      (Words.startsFrom 0 area p).take ws.length = offsets p ws := by
  induction ws generalizing p with
  | nil => exact ⟨.nil, rfl⟩
  | cons w ws ih =>
      obtain ⟨r, hr⟩ := h
      rw [layout_cons, List.append_assoc, List.cons_append] at hr
      have hw : CString.At 0 area p w := .of_drop (hnul w List.mem_cons_self) hr.symm
      have hlt := hw.lt_length
      have hlen : Words.wordLength 0 area p = w.length := by
        rw [Words.wordLength, ← hr, List.idxOf_append_of_notMem hw.nul_notMem, List.idxOf_cons_self]
        rfl
      have hnext : Words.IsStart 0 area (p + w.length + 1) := by
        rw [← hlen]
        exact Words.isStart_next (by omega)
      have hdrop : area.drop (p + w.length + 1) = layout ws ++ r := by
        rw [Nat.add_assoc, ← List.drop_drop, ← hr, ← List.drop_drop, List.drop_left]
        rfl
      obtain ⟨hL, hs⟩ := ih ⟨r, hdrop.symm⟩ (fun w hw => hnul w (List.mem_cons_of_mem _ hw)) hnext
      refine ⟨.cons hw (fun q hq => le_of_mem_offsets hq) hL, ?_⟩
      rw [Words.startsFrom_eq (by omega) hp, hlen, List.length_cons, List.take_succ_cons, hs,
        offsets]

/-- The loader can leave any words that fit. -/
theorem exists_loaderLine (hlen : (layout ws).length ≤ loaderArgsLen) (hnul : ∀ w ∈ ws, 0 ∉ w)
    (hroom : ws.length ≤ loaderArgsLen / 2) :
    ∃ area, LoaderLine area (UInt32.ofNat ws.length) ws := by
  have hsize : (layout ws ++ List.replicate (loaderArgsLen - (layout ws).length) 0).toArray.size =
      loaderArgsLen := by
    rw [List.size_toArray, List.length_append, List.length_replicate]
    omega
  refine ⟨⟨_, hsize⟩, ⟨⟨_, rfl⟩, hnul, ?_, hroom⟩⟩
  have hsmall : loaderArgsLen / 2 = 64 := rfl
  exact Nat.mod_eq_of_lt (by omega)

/-- **The words of the loader** are what `read_command_line` finds. -/
theorem LoaderLine.readCommandLine {area : LoaderArgs} {argCnt : UInt32}
    (h : LoaderLine area argCnt ws) :
    ∃ argv, readCommandLine area argCnt = (.ok (), argv) ∧ argv.Lists 0 (offsets 0 ws) ∧
      Laid area.toList (offsets 0 ws) ws := by
  have hlay : Pintos.layout ws <+: area.toList.drop 0 := h.layout
  obtain ⟨hL, hs⟩ := offsets_laid hlay h.nul Words.isStart_zero
  have hroom : ws.length ≤ 64 := h.room
  have hargc : toInt32 argCnt.toNat = ws.length := by
    rw [h.count, toInt32]
    exact Int.bmod_eq_of_le (by omega) (by omega)
  have hs : (areaWords area).take ws.length = offsets 0 ws := by
    rw [areaWords, Words.starts_eq]
    exact hs
  have hlen := length_offsets 0 ws
  have hle : ws.length ≤ (areaWords area).length := by
    rw [← hs, List.length_take] at hlen
    omega
  refine ⟨(Argv.blank.store 0 (offsets 0 ws)).set ws.length none, ?_, ?_, hL⟩
  · rw [Pintos.readCommandLine, hargc, readArgv_eq, if_pos (by omega), Int.toNat_natCast, hs]
  · -- what the loop has stored, and the null pointer that is written after it
    intro j hj
    rcases Nat.lt_or_eq_of_le hj with hlt | rfl
    · have hslot := Argv.store_slot Argv.blank 0 hlt
      rw [Int.zero_add] at hslot
      rw [Nat.zero_add, ← hslot]
      exact Function.update_of_ne (by omega) _ _
    · rw [Nat.zero_add, List.getElem?_eq_none (Nat.le_refl _), hlen]
      exact Function.update_self ..

/-! ### The command line -/

variable (b atoi now) in
/-- What is done with the words of the command line. -/
theorem LoaderLine.commandLine {area : LoaderArgs} {argCnt : UInt32}
    (h : LoaderLine area argCnt ws) :
    (∃ e, parseWords b atoi now ws (.init _) = .error e ∧
      Pintos.commandLine b atoi now area argCnt = (none, [], .error e)) ∨
    ∃ ws' t es r, parseWords b atoi now ws (.init _) = .ok (ws', t) ∧ Performs b ws' es r ∧
      Pintos.commandLine b atoi now area argCnt = (some (t.map some), es, r) := by
  obtain ⟨argv, hread, hl, hL⟩ := h.readCommandLine
  have hlen := length_offsets 0 ws
  have hroom := h.room
  have hargv : (offsets 0 ws).length < argvLength := by
    rw [hlen, argvLength]
    omega
  have hagree := parseOptions_agree b atoi now hargv hl hL (Settings.init_same _)
  rw [Pintos.commandLine, hread, runArgv]
  have hleft : ∀ ws' t, parseWords b atoi now ws (.init _) = .ok (ws', t) →
      ws'.length ≤ ws.length := fun _ _ h => parseWords_length h
  -- of the two functions only their agreement is needed from here on
  generalize parseOptions b atoi now argv argvLength 0 area.toList (.init ℕ) = x at hagree ⊢
  generalize parseWords b atoi now ws (.init _) = y at hagree hleft ⊢
  cases hagree with
  | error e => exact .inl ⟨e, rfl, rfl⟩
  | @ok x y hrem =>
      obtain ⟨i, area', s⟩ := x
      obtain ⟨ws', t⟩ := y
      obtain ⟨ps, hl', hL', hs⟩ := hrem
      have hps : ps.length < argvLength := by
        have hps' : ps.length = ws'.length := hL'.length_eq
        have hws' := hleft _ _ rfl
        rw [argvLength]
        omega
      refine .inr ⟨ws', t, _, _, rfl, runActions_performs hps hl' hL', ?_⟩
      dsimp only
      rw [hs.map_eq fun p v hv => hv.1.read]

variable {argCnt : UInt32} {area : LoaderArgs}

theorem actions_name_head {a : Action} (h : a ∈ actions b) : a.name.head? ≠ some '-'.toUInt8 := by
  have hhead : ∀ f v u : Bool, ∀ a ∈ actions ⟨f, v, u⟩, a.name.head? ≠ some '-'.toUInt8 := by
    decide
  exact hhead _ _ _ a h

theorem head_words_ne (vs : List (Invocation b)) :
    ∀ w ∈ (vs.flatMap Invocation.words).head?, w.head? ≠ some '-'.toUInt8 := by
  cases vs with
  | nil => simp
  | cons v vs =>
      rintro _ ⟨⟩
      exact actions_name_head v.mem

variable (b atoi now) in
/-- **Every command line** is some options, complete actions, and a word that cannot go on, or the
end. -/
theorem LoaderLine.cases (h : LoaderLine area argCnt ws) :
    (∃ os w rest e, ws = os ++ w :: rest ∧ (∀ o ∈ os, Accepts b o) ∧ Rejects b w e ∧
      Pintos.commandLine b atoi now area argCnt = (none, [], .error e)) ∨
    ∃ os t, ∃ vs : List (Invocation b), ∃ rest r,
      ws = os ++ (vs.flatMap Invocation.words ++ rest) ∧ (∀ o ∈ os, Accepts b o) ∧
      applyOptions b atoi os (.init _) = .ok t ∧
      (rest = [] ∧ r = .ok () ∨ ∃ w ws' e, rest = w :: ws' ∧ Stuck b w ws' e ∧ r = .error e) ∧
      Pintos.commandLine b atoi now area argCnt =
        (some ((t.seed now).map some), vs.flatMap Invocation.events, r) := by
  have hline := h.commandLine b atoi now
  rcases parseWords_cases b atoi now ws (.init _) with
    ⟨os, ws', rfl, ho, hhead⟩ | ⟨os, w, rest, e, rfl, ho, hrej, he⟩
  · -- all the options are accepted, and the rest goes to `run_actions`
    right
    obtain ⟨t, hfold, hparse⟩ := parseWords_accepts atoi now ho hhead (.init _)
    rw [hparse] at hline
    obtain ⟨e, he, -⟩ | ⟨ws'', t', es, r, hpar, hperf, hline⟩ := hline
    · cases he
    · cases hpar
      obtain ⟨vs, rest, rfl, rfl, hrest⟩ := hperf.cases_append
      exact ⟨os, t, vs, rest, r, rfl, ho, hfold, hrest, hline⟩
  · -- an option is rejected
    left
    rw [he] at hline
    obtain ⟨e', he, hline⟩ | ⟨ws'', t', es, r, hpar, -⟩ := hline
    · cases he
      exact ⟨os, w, rest, e, rfl, ho, hrej, hline⟩
    · cases hpar

variable (atoi now) in
/-- Options and complete actions. -/
theorem LoaderLine.accepts {os : List (List UInt8)} {vs : List (Invocation b)}
    (h : LoaderLine area argCnt ws) (hws : ws = os ++ vs.flatMap Invocation.words)
    (ho : ∀ w ∈ os, Accepts b w) :
    ∃ t, applyOptions b atoi os (.init _) = .ok t ∧
      Pintos.commandLine b atoi now area argCnt =
        (some ((t.seed now).map some), vs.flatMap Invocation.events, .ok ()) := by
  have hline := h.commandLine b atoi now
  obtain ⟨t, hfold, hparse⟩ := parseWords_accepts atoi now ho (head_words_ne vs) (.init _)
  rw [hws, hparse] at hline
  refine ⟨t, hfold, ?_⟩
  obtain ⟨e, he, -⟩ | ⟨ws', t', es, r, hpar, hperf, hline⟩ := hline
  · cases he
  · cases hpar
    have hall := Performs.append vs (.done (b := b))
    rw [List.append_nil, List.append_nil] at hall
    obtain ⟨rfl, rfl⟩ := hperf.unique hall
    exact hline

/-- **The kernel command line is accepted** exactly when it is some options and then some complete
actions, and then the options make the settings, and the actions are executed in order. -/
theorem command_line_accepts (h : LoaderLine area argCnt ws) :
    ((commandLine b atoi now area argCnt).2.2 = .ok () ↔
      ∃ os, ∃ vs : List (Invocation b), ws = os ++ vs.flatMap Invocation.words ∧
        ∀ o ∈ os, Accepts b o) ∧
    ∀ os, ∀ vs : List (Invocation b), ws = os ++ vs.flatMap Invocation.words →
      (∀ o ∈ os, Accepts b o) → ∃ t, applyOptions b atoi os (.init _) = .ok t ∧
        commandLine b atoi now area argCnt =
          (some ((t.seed now).map some), vs.flatMap Invocation.events, .ok ()) := by
  refine ⟨⟨fun hok => ?_, ?_⟩, fun os vs hws ho => h.accepts atoi now hws ho⟩
  · obtain ⟨os, w, rest, e, -, -, -, hline⟩ | ⟨os, t, vs, rest, r, hws, ho, -, hrest, hline⟩ :=
      h.cases b atoi now
    · rw [hline] at hok
      cases hok
    · rw [hline] at hok
      obtain ⟨rfl, -⟩ | ⟨w, ws', e, -, -, rfl⟩ := hrest
      · exact ⟨os, vs, by rw [hws, List.append_nil], ho⟩
      · cases hok
  · rintro ⟨os, vs, hws, ho⟩
    obtain ⟨t, -, hline⟩ := h.accepts atoi now hws ho
    rw [hline]

/-- `-mlfqs run alarm`. -/
theorem command_line_accepts_run : ∃ (area : LoaderArgs) (t : Settings (Option (List UInt8))),
    LoaderLine area 3 [bytes "-mlfqs", bytes "run", bytes "alarm"] ∧ t.threadMlfqs = true ∧
      commandLine ⟨false, false, false⟩ (fun _ => 0) 7 area 3 =
        (some t, runTask ⟨false, false, false⟩ (bytes "alarm"), .ok ()) := by
  obtain ⟨area, hline⟩ := exists_loaderLine
    (by decide : (layout [bytes "-mlfqs", bytes "run", bytes "alarm"]).length ≤ loaderArgsLen)
    (by decide) (by decide)
  let v : Invocation ⟨false, false, false⟩ :=
    { action := ⟨bytes "run", 2, .runTask⟩, args := [bytes "alarm"], mem := .head _
      length_args := rfl }
  have hacc : ∀ o ∈ [bytes "-mlfqs"], Accepts ⟨false, false, false⟩ o := by
    rintro _ (_ | ⟨_, ⟨⟩⟩)
    exact ⟨by decide, .inl (by decide)⟩
  obtain ⟨t, ht, he⟩ : ∃ t, applyOptions ⟨false, false, false⟩ (fun _ => 0) [bytes "-mlfqs"]
      (.init _) = .ok t ∧ commandLine ⟨false, false, false⟩ (fun _ => 0) 7 area 3 =
        (some ((t.seed 7).map some), [v].flatMap Invocation.events, .ok ()) :=
    (command_line_accepts hline).2 _ _ rfl hacc
  refine ⟨area, (t.seed 7).map some, hline, ?_, he⟩
  cases ht
  rfl

/-- **A command line that is not accepted** is stopped at one of its words.  At an option nothing
has been executed; otherwise exactly the actions in front of the word have been, and the message
names the word. -/
theorem command_line_rejects (h : LoaderLine area argCnt ws)
    {s : Option (Settings (Option (List UInt8)))} {es : List ActionEvent} {e : Stop}
    (he : commandLine b atoi now area argCnt = (s, es, .error e)) :
    ∃ os w rest, (∀ o ∈ os, Accepts b o) ∧
      (ws = os ++ w :: rest ∧ Rejects b w e ∧ s = none ∧ es = [] ∨
        ∃ vs : List (Invocation b), ws = os ++ (vs.flatMap Invocation.words ++ w :: rest) ∧
          Stuck b w rest e ∧ es = vs.flatMap Invocation.events ∧
          ∃ t, applyOptions b atoi os (.init _) = .ok t ∧ s = some ((t.seed now).map some)) := by
  obtain ⟨os, w, rest, e', hws, ho, hrej, hline⟩ |
      ⟨os, t, vs, rest, r, hws, ho, hfold, hrest, hline⟩ :=
    h.cases b atoi now
  · rw [hline] at he
    cases he
    exact ⟨os, w, rest, ho, .inl ⟨hws, hrej, rfl, rfl⟩⟩
  · rw [hline] at he
    cases he
    obtain ⟨-, hr⟩ | ⟨w, rest, e', rfl, hstuck, hr⟩ := hrest
    · cases hr
    · cases hr
      exact ⟨os, w, rest, ho, .inr ⟨vs, hws, hstuck, rfl, t, hfold, rfl⟩⟩

/-- `-q run`: the action has no argument. -/
theorem command_line_rejects_run : ∃ (area : LoaderArgs)
    (s : Settings (Option (List UInt8))) (e : Stop),
    LoaderLine area 2 [bytes "-q", bytes "run"] ∧
      commandLine ⟨false, false, false⟩ (fun _ => 0) 7 area 2 = (some s, [], .error e) ∧
      ∃ w rest, Stuck ⟨false, false, false⟩ w rest e := by
  obtain ⟨area, hline⟩ := exists_loaderLine
    (by decide : (layout [bytes "-q", bytes "run"]).length ≤ loaderArgsLen) (by decide) (by decide)
  have hrun : Performs ⟨false, false, false⟩ [bytes "run"] []
      (.error (.panic (missingArguments ⟨bytes "run", 2, .runTask⟩))) :=
    .missing (.head _) (by decide)
  obtain ⟨e, he, -⟩ | ⟨ws, t, es, r, hparse, hperf, hc⟩ :=
    hline.commandLine ⟨false, false, false⟩ (fun _ => 0) 7
  · cases he
  · cases hparse
    obtain ⟨rfl, rfl⟩ := hperf.unique hrun
    obtain ⟨os, w, rest, -, ⟨-, -, hs, -⟩ | ⟨vs, -, hstuck, -⟩⟩ := command_line_rejects hline hc
    · cases hs
    · exact ⟨area, _, _, hline, hc, w, rest, hstuck⟩

end Pintos
