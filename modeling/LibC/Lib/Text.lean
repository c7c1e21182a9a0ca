/-
LibC.Lib.Text — searching in a text.

`findStr pat t` is the place of the first occurrence of `pat` in `t`. `atLine nl P start t`
is what is left of `t` from the first line on that satisfies `P`, where a line begins after
every `nl`, and at the beginning of `t` if `start` says so; `P` looks at the text from the
line on. `atLine_eq_some` and `atLine_eq_none` say the same by places, and `atLine_line`
goes forward by a line. `unlines nl lines` is the text of some lines, and `atLine_unlines`
says there which line is found, if `P` looks at no more than a line.

No `sorry`, no `axiom`, no `native_decide`.
-/
import Mathlib.Data.List.Infix

namespace LibC.Lib

variable {β : Type} [DecidableEq β]

/-! ## Strings in a text -/

/-- The first occurrence of a string. -/
def findStr (pat : List β) : List β → Option Nat
  | [] => if pat <+: [] then some 0 else none
  | c :: t => if pat <+: c :: t then some 0 else (findStr pat t).map (· + 1)

/-- An occurrence, and none before it. -/
theorem findStr_eq_some {pat t : List β} {i : ℕ} : findStr pat t = some i ↔
    i ≤ t.length ∧ pat <+: t.drop i ∧ ∀ j < i, ¬ pat <+: t.drop j := by
  induction t generalizing i with
  | nil =>
      simp only [findStr, List.drop_nil, List.length_nil]
      by_cases hp : pat <+: []
      · simp only [hp, if_true, Option.some.injEq, not_true]
        constructor
        · rintro rfl
          exact ⟨Nat.le_refl 0, trivial, fun j hj => absurd hj (Nat.not_lt_zero j)⟩
        · intro h
          omega
      · simp [hp]
  | cons c t ih =>
      simp only [findStr]
      by_cases hp : pat <+: c :: t
      · simp only [hp, if_true, Option.some.injEq]
        constructor
        · rintro rfl
          exact ⟨Nat.zero_le _, hp, fun j hj => absurd hj (Nat.not_lt_zero j)⟩
        · rintro ⟨_, _, hno⟩
          by_contra hi
          exact hno 0 (by omega) hp
      · simp only [hp, if_false, Option.map_eq_some_iff]
        constructor
        · rintro ⟨k, hk, rfl⟩
          obtain ⟨hle, hocc, hno⟩ := ih.mp hk
          refine ⟨by simpa using hle, hocc, fun j hj => ?_⟩
          cases j with
          | zero => exact hp
          | succ j => exact hno j (by omega)
        · rintro ⟨hle, hocc, hno⟩
          cases i with
          | zero => exact absurd hocc hp
          | succ k =>
              refine ⟨k, ih.mpr ⟨by simpa using hle, hocc, fun j hj => ?_⟩, rfl⟩
              exact hno (j + 1) (by omega)

/-- No occurrence. -/
theorem findStr_eq_none {pat t : List β} :
    findStr pat t = none ↔ ∀ i, ¬ pat <+: t.drop i := by
  induction t with
  | nil => simp [findStr]
  | cons c t ih =>
      simp only [findStr]
      by_cases hp : pat <+: c :: t
      · simp only [hp, if_true]
        exact ⟨fun h => (nomatch h), fun h => absurd hp (h 0)⟩
      · simp only [hp, if_false, Option.map_eq_none_iff, ih]
        constructor
        · intro h i
          cases i with
          | zero => exact hp
          | succ i => exact h i
        · exact fun h i => h (i + 1)

/-- A single letter. -/
theorem dropWhile_ne_eq (c : β) (t : List β) :
    t.dropWhile (fun a => decide (a ≠ c)) = match findStr [c] t with
      | none => []
      | some i => t.drop i := by
  induction t with
  | nil => simp [findStr]
  | cons a t ih =>
      by_cases ha : a = c
      · subst ha
        simp [findStr]
      · have hp : ¬ [c] <+: a :: t := by simpa using Ne.symm ha
        rw [List.dropWhile_cons_of_pos (by simpa using ha), ih, findStr, if_neg hp]
        cases findStr [c] t <;> rfl

/-! ## Lines of a text -/

/-- What is left of a text from the first line on that satisfies `P`. -/
def atLine (nl : β) (P : List β → Prop) [DecidablePred P] : Bool → List β → Option (List β)
  | _, [] => none
  | start, c :: t => if start ∧ P (c :: t) then some (c :: t) else atLine nl P (c = nl) t

variable {nl : β} {P : List β → Prop} [DecidablePred P]

/-- A line begins at a place. -/
def LineStart (nl : β) (start : Bool) (t : List β) : ℕ → Prop
  | 0 => start = true
  | i + 1 => t[i]? = some nl

/-- The place of the line, and no earlier one. -/
theorem atLine_eq_some {t u : List β} {start : Bool} : atLine nl P start t = some u ↔
    ∃ i < t.length, u = t.drop i ∧ LineStart nl start t i ∧ P u ∧
      ∀ j < i, ¬ (LineStart nl start t j ∧ P (t.drop j)) := by
  induction t generalizing start with
  | nil => simp [atLine]
  | cons c t ih =>
      simp only [atLine]
      by_cases h0 : start = true ∧ P (c :: t)
      · rw [if_pos h0]
        constructor
        · rintro h
          obtain rfl := Option.some.inj h
          exact ⟨0, Nat.succ_pos _, rfl, h0.1, h0.2, fun j hj => absurd hj (Nat.not_lt_zero j)⟩
        · rintro ⟨i, _, rfl, _, _, hno⟩
          cases i with
          | zero => rfl
          | succ i => exact absurd h0 (hno 0 (Nat.succ_pos i))
      · rw [if_neg h0, ih]
        have hline : ∀ i, LineStart nl (decide (c = nl)) t i ↔
            LineStart nl start (c :: t) (i + 1) := by
          intro i
          cases i <;> simp [LineStart]
        constructor
        · rintro ⟨i, hi, rfl, hs, hP, hno⟩
          refine ⟨i + 1, by simpa using hi, rfl, (hline i).mp hs, hP, fun j hj => ?_⟩
          cases j with
          | zero => exact h0
          | succ j =>
              rw [← hline]
              exact hno j (by omega)
        · rintro ⟨i, hi, rfl, hs, hP, hno⟩
          cases i with
          | zero => exact absurd ⟨hs, hP⟩ h0
          | succ i =>
              refine ⟨i, by simpa using hi, rfl, (hline i).mpr hs, hP, fun j hj => ?_⟩
              rw [hline]
              exact hno (j + 1) (by omega)

/-- There is no such line. -/
theorem atLine_eq_none {t : List β} {start : Bool} : atLine nl P start t = none ↔
    ∀ i < t.length, ¬ (LineStart nl start t i ∧ P (t.drop i)) := by
  induction t generalizing start with
  | nil => simp [atLine]
  | cons c t ih =>
      simp only [atLine]
      by_cases h0 : start = true ∧ P (c :: t)
      · rw [if_pos h0]
        exact ⟨fun h => (nomatch h), fun h => absurd h0 (h 0 (Nat.succ_pos _))⟩
      · rw [if_neg h0, ih]
        constructor
        · intro h i hi
          cases i with
          | zero => exact h0
          | succ i =>
              have hno := h i (by simpa using hi)
              cases i <;> simpa [LineStart] using hno
        · intro h i hi
          have hno := h (i + 1) (by simpa using hi)
          cases i <;> simpa [LineStart] using hno

/-- The rest of a line does not begin a line. -/
theorem atLine_rest {line : List β} (hline : nl ∉ line) (t : List β) :
    atLine nl P false (line ++ nl :: t) = atLine nl P true t := by
  induction line with
  | nil => simp [atLine]
  | cons c line ih =>
      obtain ⟨hc, hrest⟩ := not_or.mp (mt List.mem_cons.mpr hline)
      have hne : ¬ c = nl := fun heq => hc heq.symm
      simpa [atLine, hne] using ih hrest

/-- A line that satisfies `P`, or the next one. -/
theorem atLine_line {line : List β} (hline : nl ∉ line) (t : List β) :
    atLine nl P true (line ++ nl :: t) =
      if P (line ++ nl :: t) then some (line ++ nl :: t) else atLine nl P true t := by
  cases line with
  | nil => simp [atLine]
  | cons c line =>
      obtain ⟨hc, hrest⟩ := not_or.mp (mt List.mem_cons.mpr hline)
      have hne : ¬ c = nl := fun heq => hc heq.symm
      have hstep := atLine_rest (P := P) hrest t
      simp only [List.cons_append, atLine, hne, decide_false, true_and, hstep]

/-! ## Texts of lines -/

/-- The text of some lines, each of which is ended. -/
def unlines (nl : β) (lines : List (List β)) : List β := (lines.map (· ++ [nl])).flatten

omit [DecidableEq β] in
theorem unlines_cons (line : List β) (lines : List (List β)) :
    unlines nl (line :: lines) = line ++ nl :: unlines nl lines := by
  simp [unlines]

omit [DecidableEq β] in
/-- A string that contains no end of a line is found within a line. -/
theorem prefix_line {pat : List β} (hpat : nl ∉ pat) (line t : List β) :
    pat <+: line ++ nl :: t ↔ pat <+: line := by
  induction line generalizing pat with
  | nil =>
      cases pat with
      | nil => simp
      | cons a pat =>
          have hne : a ≠ nl := fun heq => hpat (heq ▸ List.mem_cons_self)
          simp [hne]
  | cons c line ih =>
      cases pat with
      | nil => simp
      | cons a pat =>
          rw [List.cons_append, List.cons_prefix_cons, List.cons_prefix_cons,
            ih fun hin => hpat (List.mem_cons_of_mem _ hin)]

/-- The first line that satisfies `P`, if `P` is decided by the line. -/
theorem atLine_unlines {Q : List β → Prop} [DecidablePred Q]
    (hPQ : ∀ line t, P (line ++ nl :: t) ↔ Q line) {lines : List (List β)}
    (h : ∀ line ∈ lines, nl ∉ line) :
    atLine nl P true (unlines nl lines) =
      if lines.dropWhile (fun line => ¬ Q line) = [] then none
      else some (unlines nl (lines.dropWhile fun line => ¬ Q line)) := by
  induction lines with
  | nil => rfl
  | cons line lines ih =>
      rw [unlines_cons, atLine_line (h line List.mem_cons_self), if_congr (hPQ line _) rfl rfl]
      by_cases hQ : Q line
      · rw [List.dropWhile_cons_of_neg (by simpa using hQ), if_pos hQ,
          if_neg (List.cons_ne_nil _ _), unlines_cons]
      · rw [List.dropWhile_cons_of_pos (by simpa using hQ), if_neg hQ]
        exact ih fun l hl => h l (List.mem_cons_of_mem _ hl)

end LibC.Lib
