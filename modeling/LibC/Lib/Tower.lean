/-
LibC.Lib.Tower — the geometry of a skip list, without the list.

A skip list is a sequence of towers. Here only the heights are left:
`hgt k` is the height of the tower at position `k`, position `0` is the head
sentinel, and past the last tower the heights are `0`. The link of level `i`
that leaves position `k` leads to the next position whose tower is taller than
`i` (`IsNext`).

`Walk` says what one level of a search does: from `k` it follows the links of
level `i` while the position ahead satisfies `adv`, and stops at `b`.
`Descent` stacks the walks of the levels `lvl - 1, …, 0`, each starting where
the one above stopped; `stops i` is where level `i` stopped.

`adv` is an arbitrary predicate: it need not be monotone along the positions.
What holds for every `adv` is `Descent.gap`: between the stop of level `i` and
the final position there is no tower taller than `i`, so the stop of level `i`
is the last tower taller than `i` at or before the final position. That is the
fact that makes the array of stops the right place to splice a new tower in or
an old one out, and it needs no order on the elements.
`Descent.final_of_tied` says when a search ends right before a given position.

No `sorry`, no `axiom`, no `native_decide`.
-/
import Mathlib.Data.Nat.Find
import Mathlib.Order.Basic
import Mathlib.Tactic.Common

namespace LibC.Lib.Tower

variable {hgt : ℕ → ℕ} {adv : ℕ → Prop}

/-! ## Links -/

/-- `p` is the end of the level-`i` link leaving position `k`. -/
structure IsNext (hgt : ℕ → ℕ) (i k p : ℕ) : Prop where
  lt : k < p
  tall : i < hgt p
  low : ∀ j, k < j → j < p → hgt j ≤ i

/-- A position has at most one link of a level. -/
theorem IsNext.unique {i k p q : ℕ} (hp : IsNext hgt i k p) (hq : IsNext hgt i k q) : p = q := by
  rcases Nat.lt_trichotomy p q with h | h | h
  · exact absurd (hq.low p hp.lt h) (Nat.not_le.mpr hp.tall)
  · exact h
  · exact absurd (hp.low q hq.lt h) (Nat.not_le.mpr hq.tall)

/-- A tower taller than `i` ahead of `k` gives a level-`i` link, which does not
pass it. -/
theorem exists_isNext {i k m : ℕ} (hlt : k < m) (htall : i < hgt m) :
    ∃ p, IsNext hgt i k p ∧ p ≤ m := by
  have hex : ∃ p, k < p ∧ i < hgt p := ⟨m, hlt, htall⟩
  refine ⟨Nat.find hex, ⟨(Nat.find_spec hex).1, (Nat.find_spec hex).2, ?_⟩,
    Nat.find_min' hex ⟨hlt, htall⟩⟩
  intro j hkj hj
  by_contra hcon
  exact Nat.find_min hex hj ⟨hkj, Nat.lt_of_not_le hcon⟩

/-! ## Searching -/

/-- One level of a search: from `k` along level `i` while `adv`, up to `b`. -/
structure Walk (hgt : ℕ → ℕ) (adv : ℕ → Prop) (i k b : ℕ) : Prop where
  le : k ≤ b
  tall : b = k ∨ i < hgt b
  passed : ∀ m, k < m → m ≤ b → i < hgt m → adv m
  stop : ∀ p, IsNext hgt i b p → ¬ adv p

/-- A walk that cannot take its first step stays where it is. -/
theorem Walk.refl {i k : ℕ} (h : ∀ p, IsNext hgt i k p → ¬ adv p) : Walk hgt adv i k k :=
  ⟨Nat.le_refl k, Or.inl rfl, fun _ h1 h2 _ => absurd h1 (Nat.not_lt.mpr h2), h⟩

/-- A step along a link, followed by a walk. -/
theorem Walk.step {i k p b : ℕ} (hp : IsNext hgt i k p) (ha : adv p)
    (hw : Walk hgt adv i p b) : Walk hgt adv i k b := by
  refine ⟨Nat.le_trans (Nat.le_of_lt hp.lt) hw.le, Or.inr ?_, ?_, hw.stop⟩
  · rcases hw.tall with h | h
    · rw [h]; exact hp.tall
    · exact h
  · intro m hkm hmb htall
    rcases Nat.lt_trichotomy m p with h | h | h
    · exact absurd (hp.low m hkm h) (Nat.not_le.mpr htall)
    · rw [h]; exact ha
    · exact hw.passed m h hmb htall

/-- The walks of the levels below `lvl`, started at the head. -/
structure Descent (hgt : ℕ → ℕ) (adv : ℕ → Prop) (lvl : ℕ) (stops : ℕ → ℕ) : Prop where
  start : ∀ j, lvl ≤ j → stops j = 0
  walk : ∀ i, i < lvl → Walk hgt adv i (stops (i + 1)) (stops i)

variable {lvl : ℕ} {stops : ℕ → ℕ}

/-- The stops never move back as the level goes down. -/
theorem Descent.stops_le (d : Descent hgt adv lvl stops) (i : ℕ) : stops i ≤ stops 0 := by
  induction i with
  | zero => exact Nat.le_refl _
  | succ i ih =>
      by_cases hi : i < lvl
      · exact Nat.le_trans (d.walk i hi).le ih
      · rw [d.start (i + 1) (by omega)]; exact Nat.zero_le _

/-- The stop of a level is the head, or a tower of the level the search stepped
on. -/
theorem Descent.stop_spec (d : Descent hgt adv lvl stops) :
    ∀ n i, lvl - i = n → stops i = 0 ∨ (i < hgt (stops i) ∧ adv (stops i)) := by
  intro n
  induction n with
  | zero => intro i hi; exact Or.inl (d.start i (by omega))
  | succ n ih =>
      intro i hi
      have hw := d.walk i (by omega)
      rcases hw.tall with h | h
      · rcases ih (i + 1) (by omega) with h0 | h0
        · exact Or.inl (h.trans h0)
        · rw [h]; exact Or.inr ⟨by omega, h0.2⟩
      · by_cases hk : stops (i + 1) = stops i
        · rcases ih (i + 1) (by omega) with h0 | h0
          · exact Or.inl (hk.symm.trans h0)
          · rw [hk] at h0; exact Or.inr ⟨h, h0.2⟩
        · have hle := hw.le
          exact Or.inr ⟨h, hw.passed _ (by omega) (Nat.le_refl _) h⟩

/-- A tower taller than `i` between the stop of level `i` and the end was
stepped on by a lower level. -/
theorem Descent.passed (d : Descent hgt adv lvl stops) :
    ∀ i, i ≤ lvl → ∀ m, stops i < m → m ≤ stops 0 → i ≤ hgt m → adv m := by
  intro i
  induction i with
  | zero => intro _ m h1 h2 _; omega
  | succ i ih =>
      intro hi m h1 h2 htall
      by_cases hm : m ≤ stops i
      · exact (d.walk i (by omega)).passed m h1 hm (by omega)
      · exact ih (by omega) m (by omega) h2 (by omega)

/-- Between the stop of level `i` and the end of the search there is no tower
taller than `i`. -/
theorem Descent.gap (d : Descent hgt adv lvl stops) {i m : ℕ} (hi : i < lvl)
    (h1 : stops i < m) (h2 : m ≤ stops 0) : hgt m ≤ i := by
  by_contra hcon
  obtain ⟨p, hp, hpm⟩ := exists_isNext h1 (Nat.lt_of_not_le hcon)
  refine (d.walk i hi).stop p hp ?_
  exact d.passed i (Nat.le_of_lt hi) p hp.lt (by omega) (Nat.le_of_lt hp.tall)

/-- The position after the end is one the search refused to step on. -/
theorem Descent.not_adv_final (d : Descent hgt adv lvl stops) (hl : 0 < lvl)
    (htall : 0 < hgt (stops 0 + 1)) : ¬ adv (stops 0 + 1) :=
  (d.walk 0 hl).stop _ ⟨Nat.lt_succ_self _, htall, fun _ h1 h2 => by omega⟩

/-- The position a search ends on is the head or one it stepped on. -/
theorem Descent.adv_final (d : Descent hgt adv lvl stops) :
    stops 0 = 0 ∨ adv (stops 0) := by
  rcases d.stop_spec lvl 0 (by omega) with h | h
  · exact Or.inl h
  · exact Or.inr h.2

/-- A search that steps on exactly the positions up to `B` ends on `B`. -/
theorem Descent.final_of_prefix (d : Descent hgt adv lvl stops) (hl : 0 < lvl) {B : ℕ}
    (hadv : ∀ m, 0 < m → 0 < hgt m → (adv m ↔ m ≤ B)) (hpos : ∀ m, 0 < m → m ≤ B → 0 < hgt m) :
    stops 0 = B := by
  have hle : stops 0 ≤ B := by
    rcases d.stop_spec lvl 0 (by omega) with h | ⟨h, ha⟩
    · omega
    · by_cases h0 : stops 0 = 0
      · omega
      · exact (hadv _ (by omega) h).mp ha
  by_contra hne
  have htall := hpos (stops 0 + 1) (by omega) (by omega)
  exact d.not_adv_final hl htall ((hadv _ (by omega) htall).mpr (by omega))

/-! ## Searching for one position

A search for position `t` steps over everything before `t` and refuses `t`
itself. Beyond `t` it may still be willing to step (elements tied with `t`),
and whether it gets there depends on the heights. -/

/-- The search ends right before `t` when no tower beyond `t` that it is willing
to step on is taller than the tower at `t`. -/
theorem Descent.final_of_tied (d : Descent hgt adv lvl stops) (hl : 0 < lvl) {t : ℕ}
    (ht : 0 < t) (hno : ¬ adv t) (hbefore : ∀ m, 0 < m → m < t → adv m)
    (hpos : ∀ m, 0 < m → m < t → 0 < hgt m)
    (htied : ∀ m, t < m → adv m → hgt m ≤ hgt t) : stops 0 + 1 = t := by
  have hlt : ∀ n i, lvl - i = n → stops i < t := by
    intro n
    induction n with
    | zero => intro i hi; rw [d.start i (by omega)]; exact ht
    | succ n ih =>
        intro i hi
        have hk : stops (i + 1) < t := ih (i + 1) (by omega)
        have hw := d.walk i (by omega)
        by_contra hcon
        -- the walk of level `i` steps on `t` or on a tower beyond it
        rcases hw.tall with h | h
        · omega
        · by_cases hti : i < hgt t
          · exact hno (hw.passed t hk (by omega) hti)
          · have hadv : adv (stops i) := hw.passed _ (by omega) (Nat.le_refl _) h
            have hne : t ≠ stops i := by intro heq; rw [heq] at hti; exact hti h
            have := htied (stops i) (by omega) hadv
            omega
  have h0 : stops 0 < t := hlt lvl 0 (by omega)
  by_contra hne
  have hmt : stops 0 + 1 < t := by omega
  exact d.not_adv_final hl (hpos _ (by omega) hmt) (hbefore _ (by omega) hmt)

/-- The search overshoots `t` when some tower beyond `t` is taller than the one
at `t` and everything up to it is stepped on. -/
theorem Descent.final_ne_of_taller (d : Descent hgt adv lvl stops) {t m : ℕ}
    (htm : t < m) (htall : hgt t < hgt m) (hlvl : hgt m ≤ lvl)
    (hadv : ∀ p, 0 < p → p ≤ m → p ≠ t → adv p) : stops 0 + 1 ≠ t := by
  have hi : hgt t < lvl := by omega
  have hge : t ≤ stops (hgt t) := by
    by_contra hcon
    obtain ⟨p, hp, hpm⟩ := exists_isNext (i := hgt t) (k := stops (hgt t))
      (m := m) (by omega) htall
    have hpt : p ≠ t := by intro heq; have := hp.tall; rw [heq] at this; omega
    exact (d.walk _ hi).stop p hp (hadv p (by have := hp.lt; omega) hpm hpt)
  have := d.stops_le (hgt t)
  omega

/-! ## Splicing a tower in or out

`spliceIn hgt K h` puts a tower of height `h` right after position `K`,
`spliceOut hgt t` takes the tower at `t` out. Each link of the result is a link
of the original, moved by the shift, except at the positions that see the
spliced tower: those with no tower taller than `i` between them and it. -/

/-- The heights with a tower of height `h` right after position `K`. -/
def spliceIn (hgt : ℕ → ℕ) (K h : ℕ) (m : ℕ) : ℕ :=
  if m ≤ K then hgt m else if m = K + 1 then h else hgt (m - 1)

/-- The heights without the tower at position `t`. -/
def spliceOut (hgt : ℕ → ℕ) (t : ℕ) (m : ℕ) : ℕ :=
  if m < t then hgt m else hgt (m + 1)

variable {i m q K h t u : ℕ}

theorem spliceIn_of_le (hm : m ≤ K) : spliceIn hgt K h m = hgt m := if_pos hm

theorem spliceIn_self : spliceIn hgt K h (K + 1) = h := by
  simp only [spliceIn, if_true]
  exact if_neg (by omega)

theorem spliceIn_succ_of_lt (hm : K < m) : spliceIn hgt K h (m + 1) = hgt m := by
  simp only [spliceIn]
  rw [if_neg (by omega), if_neg (by omega), Nat.add_sub_cancel]

/-- A link that ends before the new tower stays. -/
theorem isNext_spliceIn_of_le (hex : ∃ j, m < j ∧ j ≤ K ∧ i < hgt j) :
    IsNext (spliceIn hgt K h) i m q ↔ IsNext hgt i m q := by
  obtain ⟨j, h1, h2, h3⟩ := hex
  obtain ⟨p, hp, hpj⟩ := exists_isNext h1 h3
  have hp' : IsNext (spliceIn hgt K h) i m p := by
    refine ⟨hp.lt, ?_, fun j' h4 h5 => ?_⟩
    · rw [spliceIn_of_le (by omega)]; exact hp.tall
    · rw [spliceIn_of_le (by omega)]; exact hp.low j' h4 h5
  constructor
  · intro hq; rw [hq.unique hp']; exact hp
  · intro hq; rw [hq.unique hp]; exact hp'

/-- A position that sees the new tower, at a level the tower reaches, is linked to
it. -/
theorem isNext_spliceIn_self (hm : m ≤ K) (hgap : ∀ j, m < j → j ≤ K → hgt j ≤ i)
    (hi : i < h) : IsNext (spliceIn hgt K h) i m q ↔ q = K + 1 := by
  have hp : IsNext (spliceIn hgt K h) i m (K + 1) := by
    refine ⟨by omega, by rw [spliceIn_self]; exact hi, fun j h1 h2 => ?_⟩
    rw [spliceIn_of_le (by omega)]; exact hgap j h1 (by omega)
  exact ⟨fun hq => hq.unique hp, fun hq => hq ▸ hp⟩

/-- A position that sees the new tower, at a level the tower does not reach, keeps
its link. -/
theorem isNext_spliceIn_skip (hm : m ≤ K) (hgap : ∀ j, m < j → j ≤ K → hgt j ≤ i)
    (hi : h ≤ i) :
    IsNext (spliceIn hgt K h) i m (q + 1) ↔ K < q ∧ IsNext hgt i m q := by
  constructor
  · intro hq
    have hKq : K < q := by
      by_contra hcon
      rcases Nat.lt_or_ge q K with h1 | h1
      · have h2 := hq.tall
        rw [spliceIn_of_le (by omega)] at h2
        have := hgap (q + 1) hq.lt (by omega)
        omega
      · have h2 := hq.tall
        rw [show q = K by omega, spliceIn_self] at h2
        omega
    refine ⟨hKq, by omega, ?_, fun j h1 h2 => ?_⟩
    · have := hq.tall; rwa [spliceIn_succ_of_lt hKq] at this
    · rcases Nat.lt_or_ge K j with h3 | h3
      · have := hq.low (j + 1) (by omega) (by omega)
        rwa [spliceIn_succ_of_lt h3] at this
      · exact hgap j h1 h3
  · rintro ⟨hKq, hq⟩
    refine ⟨by omega, ?_, fun j h1 h2 => ?_⟩
    · rw [spliceIn_succ_of_lt hKq]; exact hq.tall
    · rcases Nat.lt_trichotomy j (K + 1) with h3 | h3 | h3
      · rw [spliceIn_of_le (by omega)]; exact hgap j h1 (by omega)
      · rw [h3, spliceIn_self]; exact hi
      · obtain ⟨j', rfl⟩ : ∃ j', j = j' + 1 := ⟨j - 1, by omega⟩
        rw [spliceIn_succ_of_lt (by omega)]
        exact hq.low j' (by omega) (by omega)

/-- The links beyond the new tower move with it. -/
theorem isNext_spliceIn_of_gt (hm : K < m) :
    IsNext (spliceIn hgt K h) i (m + 1) (q + 1) ↔ IsNext hgt i m q := by
  constructor
  · intro hq
    have hlt := hq.lt
    refine ⟨by omega, ?_, fun j h1 h2 => ?_⟩
    · have := hq.tall; rwa [spliceIn_succ_of_lt (by omega)] at this
    · have := hq.low (j + 1) (by omega) (by omega)
      rwa [spliceIn_succ_of_lt (by omega)] at this
  · intro hq
    have hlt := hq.lt
    refine ⟨by omega, ?_, fun j h1 h2 => ?_⟩
    · rw [spliceIn_succ_of_lt (by omega)]; exact hq.tall
    · obtain ⟨j', rfl⟩ : ∃ j', j = j' + 1 := ⟨j - 1, by omega⟩
      rw [spliceIn_succ_of_lt (by omega)]
      exact hq.low j' (by omega) (by omega)

/-- The new tower takes over the link of the position that sees it. -/
theorem isNext_spliceIn_new (hu : u ≤ K) (hgap : ∀ j, u < j → j ≤ K → hgt j ≤ i) :
    IsNext (spliceIn hgt K h) i (K + 1) (q + 1) ↔ K < q ∧ IsNext hgt i u q := by
  constructor
  · intro hq
    have hlt := hq.lt
    refine ⟨by omega, by omega, ?_, fun j h1 h2 => ?_⟩
    · have := hq.tall; rwa [spliceIn_succ_of_lt (by omega)] at this
    · rcases Nat.lt_or_ge K j with h3 | h3
      · have := hq.low (j + 1) (by omega) (by omega)
        rwa [spliceIn_succ_of_lt h3] at this
      · exact hgap j h1 h3
  · rintro ⟨hKq, hq⟩
    refine ⟨by omega, ?_, fun j h1 h2 => ?_⟩
    · rw [spliceIn_succ_of_lt hKq]; exact hq.tall
    · obtain ⟨j', rfl⟩ : ∃ j', j = j' + 1 := ⟨j - 1, by omega⟩
      rw [spliceIn_succ_of_lt (by omega)]
      exact hq.low j' (by omega) (by omega)

theorem spliceOut_of_lt (hm : m < t) : spliceOut hgt t m = hgt m := if_pos hm

theorem spliceOut_of_ge (hm : t ≤ m) : spliceOut hgt t m = hgt (m + 1) :=
  if_neg (Nat.not_lt.mpr hm)

/-- A link that ends before the removed tower stays. -/
theorem isNext_spliceOut_of_lt (hex : ∃ j, m < j ∧ j < t ∧ i < hgt j) :
    IsNext (spliceOut hgt t) i m q ↔ IsNext hgt i m q := by
  obtain ⟨j, h1, h2, h3⟩ := hex
  obtain ⟨p, hp, hpj⟩ := exists_isNext h1 h3
  have hp' : IsNext (spliceOut hgt t) i m p := by
    refine ⟨hp.lt, ?_, fun j' h4 h5 => ?_⟩
    · rw [spliceOut_of_lt (by omega)]; exact hp.tall
    · rw [spliceOut_of_lt (by omega)]; exact hp.low j' h4 h5
  constructor
  · intro hq; rw [hq.unique hp']; exact hp
  · intro hq; rw [hq.unique hp]; exact hp'

/-- A position that saw the removed tower inherits its link, at a level the tower
reached; at the other levels its own link moves. -/
theorem isNext_spliceOut_gap {k : ℕ} (hm : m < t) (hgap : ∀ j, m < j → j < t → hgt j ≤ i)
    (hk : (i < hgt t ∧ k = t) ∨ (hgt t ≤ i ∧ k = m)) :
    IsNext (spliceOut hgt t) i m q ↔ t ≤ q ∧ IsNext hgt i k (q + 1) := by
  constructor
  · intro hq
    have htq : t ≤ q := by
      by_contra hcon
      have h2 := hq.tall
      rw [spliceOut_of_lt (by omega)] at h2
      have := hgap q hq.lt (by omega)
      omega
    refine ⟨htq, ?_, ?_, fun j h1 h2 => ?_⟩
    · rcases hk with ⟨_, rfl⟩ | ⟨_, rfl⟩ <;> omega
    · have := hq.tall; rwa [spliceOut_of_ge htq] at this
    · rcases Nat.lt_trichotomy j t with h3 | h3 | h3
      · rcases hk with ⟨_, rfl⟩ | ⟨_, rfl⟩
        · omega
        · exact hgap j h1 h3
      · rcases hk with ⟨_, rfl⟩ | ⟨h4, rfl⟩
        · omega
        · rw [h3]; exact h4
      · obtain ⟨j', rfl⟩ : ∃ j', j = j' + 1 := ⟨j - 1, by omega⟩
        have := hq.low j' (by omega) (by omega)
        rwa [spliceOut_of_ge (by omega)] at this
  · rintro ⟨htq, hq⟩
    refine ⟨by omega, ?_, fun j h1 h2 => ?_⟩
    · rw [spliceOut_of_ge htq]; exact hq.tall
    · rcases Nat.lt_or_ge j t with h3 | h3
      · rw [spliceOut_of_lt h3]; exact hgap j h1 h3
      · rw [spliceOut_of_ge h3]
        exact hq.low (j + 1) (by rcases hk with ⟨_, rfl⟩ | ⟨_, rfl⟩ <;> omega) (by omega)

/-- The links beyond the removed tower move. -/
theorem isNext_spliceOut_of_ge (hm : t ≤ m) :
    IsNext (spliceOut hgt t) i m q ↔ IsNext hgt i (m + 1) (q + 1) := by
  constructor
  · intro hq
    have hlt := hq.lt
    refine ⟨by omega, ?_, fun j h1 h2 => ?_⟩
    · have := hq.tall; rwa [spliceOut_of_ge (by omega)] at this
    · obtain ⟨j', rfl⟩ : ∃ j', j = j' + 1 := ⟨j - 1, by omega⟩
      have := hq.low j' (by omega) (by omega)
      rwa [spliceOut_of_ge (by omega)] at this
  · intro hq
    have hlt := hq.lt
    refine ⟨by omega, ?_, fun j h1 h2 => ?_⟩
    · rw [spliceOut_of_ge (by omega)]; exact hq.tall
    · rw [spliceOut_of_ge (by omega)]
      exact hq.low (j + 1) (by omega) (by omega)

end LibC.Lib.Tower
