/-
PintosThreads/CommandLine.lean

`read_command_line` of `threads/init.c`: the words of the kernel command line.

The loader leaves an area of `LOADER_ARGS_LEN` bytes and a count.  A pointer is
its offset in the area, and `argv` is memory at an index, on both sides of the
array, with a record of the indices that have been written.

The guard of the loop looks at the area, which has room for as many words as it
has bytes when they are empty, and the array has room for half as many.  It
looks at nothing when the count is negative as an `int`.  So what keeps the
writes inside the array is the count itself, or the number of words in the area
(`readCommandLine_splits_iff`).
-/
import PintosThreads.Words
import PintosThreads.FixedPoint
import Mathlib.Data.Int.Init
import Mathlib.Logic.Function.Basic

namespace Pintos

/-! ### The function -/

/-- `LOADER_ARGS_LEN`. -/
def loaderArgsLen : ℕ := 128

/-- The area at `LOADER_ARGS`. -/
abbrev LoaderArgs := Vector UInt8 loaderArgsLen

/-- `strnlen (p, maxlen)`, for a pointer into the area. -/
def strnlen (area : List UInt8) (p maxlen : ℕ) : ℕ :=
  ((area.drop p).take maxlen).idxOf 0

/-- The memory at the index from `argv`, and the indices written so far. -/
structure Argv where
  slot : ℤ → Option ℕ
  written : List ℤ

/-- `argv[i] = p`; `none` is the null pointer. -/
def Argv.set (argv : Argv) (i : ℤ) (p : Option ℕ) : Argv where
  slot := Function.update argv.slot i p
  written := i :: argv.written

/-- The array before the call. -/
def Argv.blank : Argv := ⟨fun _ => none, []⟩

/-- The loop of `read_command_line`, with `n` iterations left by its own count. -/
def readWords (area : LoaderArgs) : ℕ → ℤ → ℕ → Argv → Except String Unit × Argv
  | 0, _, _, argv => (.ok (), argv)
  | n + 1, i, p, argv =>
      if p ≥ loaderArgsLen then (.error "command line arguments overflow", argv)
      else readWords area n (i + 1) (p + strnlen area.toList p (loaderArgsLen - p) + 1)
        (argv.set i (some p))

/-- `read_command_line` once it has the count, up to the printing of the words; an error is a
`PANIC`. -/
def readArgv (area : LoaderArgs) (argc : ℤ) : Except String Unit × Argv :=
  match readWords area argc.toNat 0 0 .blank with
  | (.error e, argv) => (.error e, argv)
  | (.ok (), argv) => (.ok (), argv.set argc none)

/-- `read_command_line`: the count is read into an `int`. -/
def readCommandLine (area : LoaderArgs) (argCnt : UInt32) : Except String Unit × Argv :=
  readArgv area (toInt32 argCnt.toNat)

/-! ### What it should do -/

/-- The words of the area. -/
def areaWords (area : LoaderArgs) : List ℕ :=
  Words.starts 0 area.toList

/-- The index is one of `argv[LOADER_ARGS_LEN / 2 + 1]`. -/
def InArgv (i : ℤ) : Prop :=
  0 ≤ i ∧ i ≤ loaderArgsLen / 2

/-- Nothing is written outside the array, and `argv` gets the words, unless there is a `PANIC`. -/
structure Splits (area : LoaderArgs) (argCnt : UInt32) : Prop where
  bounds : ∀ i ∈ (readCommandLine area argCnt).2.written, InArgv i
  words : (∃ message, (readCommandLine area argCnt).1 = .error message) ∨
    ((readCommandLine area argCnt).1 = .ok () ∧ ∀ i : ℕ, (i : ℤ) < toInt32 argCnt.toNat →
      ∃ p, (areaWords area)[i]? = some p ∧ (readCommandLine area argCnt).2.slot i = some p)

/-! ### The loop -/

/-- The words `ps` are stored from index `i` on. -/
def Argv.store (argv : Argv) : ℤ → List ℕ → Argv
  | _, [] => argv
  | i, p :: ps => (argv.set i (some p)).store (i + 1) ps

theorem Argv.mem_store : ∀ {ps : List ℕ} {argv : Argv} {i j : ℤ},
    j ∈ (argv.store i ps).written ↔ j ∈ argv.written ∨ i ≤ j ∧ j < i + ps.length
  | [], argv, i, j => by
      rw [Argv.store, List.length_nil]
      have hempty : ¬ (i ≤ j ∧ j < i + (0 : ℕ)) := by omega
      exact (or_iff_left hempty).symm
  | p :: ps, argv, i, j => by
      rw [Argv.store, Argv.mem_store, Argv.set, List.mem_cons, List.length_cons]
      push_cast
      constructor
      · rintro ((rfl | h) | h)
        · right
          omega
        · exact .inl h
        · right
          omega
      · rintro (h | h)
        · exact .inl (.inr h)
        · by_cases hj : j = i
          · exact .inl (.inl hj)
          · right
            omega

/-- Storing to the right of an index leaves it alone. -/
theorem Argv.store_slot_of_lt : ∀ {ps : List ℕ} {argv : Argv} {i j : ℤ}, j < i →
    (argv.store i ps).slot j = argv.slot j
  | [], _, _, _, _ => rfl
  | p :: ps, argv, i, j, hj => by
      rw [Argv.store, Argv.store_slot_of_lt (by omega)]
      exact Function.update_of_ne (by omega) _ _

theorem Argv.store_slot : ∀ (argv : Argv) (i : ℤ) {ps : List ℕ} {n : ℕ}, n < ps.length →
    (argv.store i ps).slot (i + n) = ps[n]?
  | argv, i, p :: ps, 0, _ => by
      rw [Argv.store, Int.natCast_zero, Int.add_zero, Argv.store_slot_of_lt (by omega)]
      exact Function.update_self ..
  | argv, i, p :: ps, n + 1, hn => by
      have h := Argv.store_slot (argv.set i (some p)) (i + 1) (Nat.lt_of_succ_lt_succ hn)
      rw [Argv.store, List.getElem?_cons_succ, ← h]
      congr 1
      push_cast
      omega

theorem strnlen_eq (area : LoaderArgs) (p : ℕ) :
    strnlen area.toList p (loaderArgsLen - p) = Words.wordLength 0 area.toList p := by
  have hlen : (area.toList.drop p).length = loaderArgsLen - p := by simp
  rw [strnlen, ← hlen, List.take_length, Words.wordLength]

/-- **The loop** stores the words that it finds, as many as it is told to, and panics when there
are not so many. -/
theorem readWords_eq (area : LoaderArgs) : ∀ (n : ℕ) (i : ℤ) {p : ℕ} (argv : Argv),
    Words.IsStart 0 area.toList p ∨ loaderArgsLen ≤ p →
      readWords area n i p argv =
        (if n ≤ (Words.startsFrom 0 area.toList p).length then .ok ()
          else .error "command line arguments overflow",
        argv.store i ((Words.startsFrom 0 area.toList p).take n))
  | 0, i, p, argv, _ => by simp [readWords, Argv.store]
  | n + 1, i, p, argv, hp => by
      have hlen : area.toList.length = loaderArgsLen := Vector.length_toList
      rw [readWords]
      split
      case isTrue hge =>
        rw [Words.startsFrom_of_le (by omega)]
        rfl
      case isFalse hlt =>
        have hstart := hp.resolve_right hlt
        have hle := Words.wordLength_le 0 area.toList p
        have hnext : Words.IsStart 0 area.toList (p + Words.wordLength 0 area.toList p + 1) ∨
            loaderArgsLen ≤ p + Words.wordLength 0 area.toList p + 1 := by
          by_cases hend : Words.wordLength 0 area.toList p < area.toList.length - p
          · exact .inl (Words.isStart_next hend)
          · exact .inr (by omega)
        rw [strnlen_eq, readWords_eq area n _ _ hnext,
          Words.startsFrom_eq (by omega : p < area.toList.length) hstart, List.length_cons,
          List.take_succ_cons, Argv.store]
        congr 1
        exact if_congr Nat.succ_le_succ_iff.symm rfl rfl

/-! ### The whole function -/

/-- It returns when the area has as many words as are counted, and panics otherwise. -/
theorem readArgv_eq (area : LoaderArgs) (argc : ℤ) :
    readArgv area argc =
      if argc ≤ (areaWords area).length then
        (.ok (), (Argv.blank.store 0 ((areaWords area).take argc.toNat)).set argc none)
      else (.error "command line arguments overflow",
        Argv.blank.store 0 ((areaWords area).take argc.toNat)) := by
  have hloop := readWords_eq area argc.toNat 0 .blank (.inl Words.isStart_zero)
  rw [← Words.starts_eq, ← areaWords] at hloop
  rw [readArgv, hloop]
  by_cases h : argc ≤ (areaWords area).length
  · rw [if_pos h, if_pos (Int.toNat_le.mpr h)]
  · rw [if_neg h, if_neg (fun h' => h (Int.toNat_le.mp h'))]

theorem mem_blank_store {ps : List ℕ} {i : ℤ} :
    i ∈ (Argv.blank.store 0 ps).written ↔ 0 ≤ i ∧ i < ps.length := by
  rw [Argv.mem_store, Int.zero_add]
  exact or_iff_right List.not_mem_nil

/-- Every word that is counted is stored at its own index. -/
theorem readCommandLine_words (area : LoaderArgs) (argCnt : UInt32) :
    (∃ message, (readCommandLine area argCnt).1 = .error message) ∨
      ((readCommandLine area argCnt).1 = .ok () ∧ ∀ i : ℕ, (i : ℤ) < toInt32 argCnt.toNat →
        ∃ p, (areaWords area)[i]? = some p ∧ (readCommandLine area argCnt).2.slot i = some p) := by
  rw [readCommandLine]
  generalize toInt32 argCnt.toNat = argc
  rw [readArgv_eq]
  split
  case isFalse => exact .inl ⟨_, rfl⟩
  case isTrue h =>
    refine .inr ⟨rfl, fun i hi => ?_⟩
    have hlt : i < (areaWords area).length := by omega
    have htake : i < ((areaWords area).take argc.toNat).length := by
      rw [List.length_take]
      omega
    refine ⟨(areaWords area)[i], List.getElem?_eq_getElem hlt, ?_⟩
    have hslot := Argv.store_slot Argv.blank 0 htake
    rw [Int.zero_add, List.getElem?_take_of_lt (by omega), List.getElem?_eq_getElem hlt] at hslot
    rw [← hslot]
    exact Function.update_of_ne (by omega) _ _

/-- **The splitting of the command line** stays inside the array exactly when the count is not
negative and either leaves room for the null pointer behind the words or exceeds the words that the
area has, which the array has room for. -/
theorem readCommandLine_splits_iff (area : LoaderArgs) (argCnt : UInt32) :
    Splits area argCnt ↔ 0 ≤ toInt32 argCnt.toNat ∧ (toInt32 argCnt.toNat ≤ 64 ∨
      ((areaWords area).length < toInt32 argCnt.toNat ∧ (areaWords area).length ≤ 65)) := by
  have hsplits : Splits area argCnt ↔
      ∀ i ∈ (readCommandLine area argCnt).2.written, InArgv i :=
    ⟨Splits.bounds, fun h => ⟨h, readCommandLine_words area argCnt⟩⟩
  have hhalf : ((loaderArgsLen : ℕ) : ℤ) / 2 = 64 := rfl
  rw [hsplits, readCommandLine]
  generalize toInt32 argCnt.toNat = argc
  rw [readArgv_eq]
  simp only [InArgv, hhalf]
  have hlen : ((areaWords area).take argc.toNat).length = min argc.toNat (areaWords area).length :=
    List.length_take
  by_cases h : argc ≤ (areaWords area).length
  · -- all the words are found, and the null pointer is written behind them
    rw [if_pos h]
    constructor
    · intro hb
      have hend := hb argc List.mem_cons_self
      exact ⟨hend.1, .inl hend.2⟩
    · rintro ⟨h0, hc⟩ i hi
      rcases List.mem_cons.mp hi with rfl | hi
      · omega
      · have hi := mem_blank_store.mp hi
        omega
  · rw [if_neg h]
    constructor
    · intro hb
      refine ⟨by omega, ?_⟩
      by_cases hN : (areaWords area).length ≤ 65
      · exact .inr ⟨by omega, hN⟩
      · have h65 : (65 : ℤ) ∈ (Argv.blank.store 0 ((areaWords area).take argc.toNat)).written :=
          mem_blank_store.mpr (by omega)
        have := hb 65 h65
        omega
    · rintro ⟨h0, hc⟩ i hi
      have hi := mem_blank_store.mp hi
      omega

/-- With 66 empty words the null pointer and the last word are written behind the array. -/
theorem readCommandLine_overflow : ¬ Splits (Vector.replicate loaderArgsLen 0) 66 := by
  intro h
  have h65 := h.bounds 65 (by decide)
  exact absurd h65.2 (by decide)

end Pintos
