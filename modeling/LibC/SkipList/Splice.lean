/-
LibC.SkipList.Splice — links before and after a node is spliced in or out.

A link that is right (`LinkOk`) for the heights and positions of a list gives,
by the arithmetic of `Insert` and `DeleteNode`, a link that is right for the
list with one node more or less. Each lemma is one of the cases of
`LibC.Lib.Tower` (`isNext_spliceIn_*`, `isNext_spliceOut_*`) with the pointers
and the spans put back in.

`forRange_levels` is the rule of the loops that do the splicing: iteration `i`
rewrites links of level `i` only, so what the loop leaves is what each
iteration leaves at its own level.

No `sorry`, no `axiom`, no `native_decide`.
-/
import LibC.SkipList.Repr

namespace LibC

open LibC.Lib LibC.Lib.Tower

variable {α β : Type}

/-! ## Spans -/

theorem span_new {u K : ℕ} (h : u ≤ K) :
    (UInt32.ofNat K - UInt32.ofNat u) + 1 = UInt32.ofNat (K + 1 - u) := by
  rw [UInt32.ofNat_sub (by omega), UInt32.ofNat_add]
  grind

theorem span_rest {u K q : ℕ} (hu : u ≤ K) (hq : K < q) :
    UInt32.ofNat (q - u) - (UInt32.ofNat K - UInt32.ofNat u) =
      UInt32.ofNat (q + 1 - (K + 1)) := by
  rw [UInt32.ofNat_sub (by omega), UInt32.ofNat_sub (by omega), UInt32.ofNat_add,
    UInt32.ofNat_add]
  grind

theorem span_succ {k q : ℕ} (h : k ≤ q) :
    UInt32.ofNat (q - k) + 1 = UInt32.ofNat (q + 1 - k) := by
  rw [UInt32.ofNat_sub (by omega), UInt32.ofNat_sub (by omega), UInt32.ofNat_add]
  grind

theorem span_pred {k q : ℕ} (h : k ≤ q) :
    UInt32.ofNat (q + 1 - k) - 1 = UInt32.ofNat (q - k) := by
  rw [UInt32.ofNat_sub (by omega), UInt32.ofNat_sub (by omega), UInt32.ofNat_add]
  grind

theorem span_join {k t q : ℕ} (hk : k ≤ t) (hq : t ≤ q + 1) (hkq : k ≤ q) :
    UInt32.ofNat (t - k) + (UInt32.ofNat (q + 1 - t) - 1) = UInt32.ofNat (q - k) := by
  rw [UInt32.ofNat_sub (by omega), UInt32.ofNat_sub (by omega), UInt32.ofNat_sub (by omega),
    UInt32.ofNat_add]
  grind

/-! ## Splicing a node in -/

section Insert

variable {hgt : ℕ → ℕ} {P P' : List Ptr} {i k u K h : ℕ} {l : SkipListLevel} {x : Ptr}

/-- A link that ends before the new node. -/
theorem LinkOk.insert_le (hl : LinkOk hgt P i k l)
    (hex : ∃ j, k < j ∧ j ≤ K ∧ i < hgt j) (hP : ∀ q, q ≤ K → P'[q]? = P[q]?) :
    LinkOk (spliceIn hgt K h) P' i k l := by
  obtain ⟨j, h1, h2, h3⟩ := hex
  obtain ⟨p, hp, hpj⟩ := exists_isNext h1 h3
  refine ⟨fun q hq => ?_, fun hno => ?_⟩
  · rw [isNext_spliceIn_of_le ⟨j, h1, h2, h3⟩] at hq
    rw [hP q (by rw [hq.unique hp]; omega)]
    exact hl.next q hq
  · exact absurd ((isNext_spliceIn_of_le ⟨j, h1, h2, h3⟩).mpr hp) (hno p)

/-- The new link of a position that sees the new node. -/
theorem LinkOk.insert_self (hk : k ≤ K) (hgap : ∀ j, k < j → j ≤ K → hgt j ≤ i) (hi : i < h)
    (hx : P'[K + 1]? = some x) :
    LinkOk (spliceIn hgt K h) P' i k ⟨some x, (UInt32.ofNat K - UInt32.ofNat k) + 1⟩ := by
  have hiff := fun q => isNext_spliceIn_self (q := q) hk hgap hi
  refine ⟨fun q hq => ?_, fun hno => absurd ((hiff _).mpr rfl) (hno _)⟩
  rw [(hiff q).mp hq]
  exact ⟨hx.symm, span_new hk⟩

/-- A link over the new node grows by one. -/
theorem LinkOk.insert_skip (hl : LinkOk hgt P i k l) (hk : k ≤ K)
    (hgap : ∀ j, k < j → j ≤ K → hgt j ≤ i) (hi : h ≤ i)
    (hP : ∀ q, K < q → P'[q + 1]? = P[q]?) :
    LinkOk (spliceIn hgt K h) P' i k { l with span := l.span + 1 } := by
  have hiff := fun q => isNext_spliceIn_skip (q := q) hk hgap hi
  refine ⟨fun q hq => ?_, fun hno => ?_⟩
  · obtain ⟨q, rfl⟩ : ∃ j, q = j + 1 := ⟨q - 1, by have := hq.lt; omega⟩
    obtain ⟨hKq, hq'⟩ := (hiff q).mp hq
    obtain ⟨hf, hsp⟩ := hl.next q hq'
    exact ⟨hf.trans (hP q hKq).symm, by simp only [hsp]; exact span_succ (Nat.le_of_lt hq'.lt)⟩
  · refine hl.null fun q hq => hno (q + 1) ((hiff q).mpr ⟨?_, hq⟩)
    by_contra hcon
    have := hgap q hq.lt (by omega)
    have := hq.tall
    omega

/-- The new node takes over the rest of the link it splits. -/
theorem LinkOk.insert_new (hl : LinkOk hgt P i u l) (hu : u ≤ K)
    (hgap : ∀ j, u < j → j ≤ K → hgt j ≤ i) (hP : ∀ q, K < q → P'[q + 1]? = P[q]?) :
    LinkOk (spliceIn hgt K h) P' i (K + 1)
      ⟨l.forward, l.span - (UInt32.ofNat K - UInt32.ofNat u)⟩ := by
  have hiff := fun q => isNext_spliceIn_new (h := h) (q := q) hu hgap
  refine ⟨fun q hq => ?_, fun hno => ?_⟩
  · obtain ⟨q, rfl⟩ : ∃ j, q = j + 1 := ⟨q - 1, by have := hq.lt; omega⟩
    obtain ⟨hKq, hq'⟩ := (hiff q).mp hq
    obtain ⟨hf, hsp⟩ := hl.next q hq'
    refine ⟨hf.trans (hP q hKq).symm, ?_⟩
    simp only [hsp]
    exact span_rest hu hKq
  · refine hl.null fun q hq => hno (q + 1) ((hiff q).mpr ⟨?_, hq⟩)
    by_contra hcon
    have := hgap q hq.lt (by omega)
    have := hq.tall
    omega

/-- The links beyond the new node. -/
theorem LinkOk.insert_gt (hl : LinkOk hgt P i k l) (hk : K < k)
    (hP : ∀ q, K < q → P'[q + 1]? = P[q]?) : LinkOk (spliceIn hgt K h) P' i (k + 1) l := by
  have hiff : ∀ q, IsNext (spliceIn hgt K h) i (k + 1) (q + 1) ↔ IsNext hgt i k q :=
    fun _ => isNext_spliceIn_of_gt hk
  refine ⟨fun q hq => ?_, fun hno => hl.null fun q hq => hno (q + 1) ((hiff q).mpr hq)⟩
  obtain ⟨q, rfl⟩ : ∃ j, q = j + 1 := ⟨q - 1, by have := hq.lt; omega⟩
  have hq' := (hiff q).mp hq
  obtain ⟨hf, hsp⟩ := hl.next q hq'
  have := hq'.lt
  exact ⟨hf.trans (hP q (by omega)).symm, by rw [hsp, Nat.add_sub_add_right]⟩

end Insert

/-! ## Splicing a node out -/

section Delete

variable {hgt : ℕ → ℕ} {P P' : List Ptr} {i k t : ℕ} {l xl : SkipListLevel}

/-- A link that ends before the removed node. -/
theorem LinkOk.erase_lt (hl : LinkOk hgt P i k l)
    (hex : ∃ j, k < j ∧ j < t ∧ i < hgt j) (hP : ∀ q, q < t → P'[q]? = P[q]?) :
    LinkOk (spliceOut hgt t) P' i k l := by
  obtain ⟨j, h1, h2, h3⟩ := hex
  obtain ⟨p, hp, hpj⟩ := exists_isNext h1 h3
  refine ⟨fun q hq => ?_, fun hno => ?_⟩
  · rw [isNext_spliceOut_of_lt ⟨j, h1, h2, h3⟩] at hq
    rw [hP q (by rw [hq.unique hp]; omega)]
    exact hl.next q hq
  · exact absurd ((isNext_spliceOut_of_lt ⟨j, h1, h2, h3⟩).mpr hp) (hno p)

/-- A link to the removed node is joined with the link that left it. -/
theorem LinkOk.erase_join (hl : LinkOk hgt P i k l) (hx : LinkOk hgt P i t xl) (hk : k < t)
    (hgap : ∀ j, k < j → j < t → hgt j ≤ i) (hi : i < hgt t)
    (hP : ∀ q, t ≤ q → P'[q]? = P[q + 1]?) :
    LinkOk (spliceOut hgt t) P' i k ⟨xl.forward, l.span + (xl.span - 1)⟩ := by
  have hiff := fun q => isNext_spliceOut_gap (q := q) hk hgap (Or.inl ⟨hi, rfl⟩)
  have hkt : IsNext hgt i k t := ⟨hk, hi, hgap⟩
  refine ⟨fun q hq => ?_, fun hno => ?_⟩
  · obtain ⟨htq, hq'⟩ := (hiff q).mp hq
    obtain ⟨hf, hsp⟩ := hx.next _ hq'
    refine ⟨hf.trans (hP q htq).symm, ?_⟩
    simp only [hsp, (hl.next t hkt).2]
    exact span_join (by omega) (by omega) (by omega)
  · refine hx.null fun q hq => ?_
    obtain ⟨q, rfl⟩ : ∃ j, q = j + 1 := ⟨q - 1, by have := hq.lt; omega⟩
    exact hno q ((hiff q).mpr ⟨by have := hq.lt; omega, hq⟩)

/-- A link over the removed node shrinks by one. -/
theorem LinkOk.erase_skip (hl : LinkOk hgt P i k l) (hk : k < t)
    (hgap : ∀ j, k < j → j < t → hgt j ≤ i) (hi : hgt t ≤ i)
    (hP : ∀ q, t ≤ q → P'[q]? = P[q + 1]?) :
    LinkOk (spliceOut hgt t) P' i k { l with span := l.span - 1 } := by
  have hiff := fun q => isNext_spliceOut_gap (q := q) hk hgap (Or.inr ⟨hi, rfl⟩)
  refine ⟨fun q hq => ?_, fun hno => ?_⟩
  · obtain ⟨htq, hq'⟩ := (hiff q).mp hq
    obtain ⟨hf, hsp⟩ := hl.next _ hq'
    exact ⟨hf.trans (hP q htq).symm, by simp only [hsp]; exact span_pred (by omega)⟩
  · refine hl.null fun q hq => ?_
    obtain ⟨q, rfl⟩ : ∃ j, q = j + 1 := ⟨q - 1, by have := hq.lt; omega⟩
    refine hno q ((hiff q).mpr ⟨?_, hq⟩)
    by_contra hcon
    have hlt := hq.lt
    have htall := hq.tall
    rcases Nat.lt_or_ge (q + 1) t with h | h
    · have := hgap _ hlt h; omega
    · rw [show q + 1 = t by omega] at htall; omega

/-- The links beyond the removed node. -/
theorem LinkOk.erase_gt (hl : LinkOk hgt P i (k + 1) l) (hk : t ≤ k)
    (hP : ∀ q, t ≤ q → P'[q]? = P[q + 1]?) : LinkOk (spliceOut hgt t) P' i k l := by
  have hiff : ∀ q, IsNext (spliceOut hgt t) i k q ↔ IsNext hgt i (k + 1) (q + 1) :=
    fun _ => isNext_spliceOut_of_ge hk
  refine ⟨fun q hq => ?_, fun hno => hl.null fun q hq => ?_⟩
  · have hq' := (hiff q).mp hq
    obtain ⟨hf, hsp⟩ := hl.next _ hq'
    have := hq'.lt
    exact ⟨hf.trans (hP q (by omega)).symm, by rw [hsp, Nat.add_sub_add_right]⟩
  · obtain ⟨q, rfl⟩ : ∃ j, q = j + 1 := ⟨q - 1, by have := hq.lt; omega⟩
    exact hno q ((hiff q).mpr hq)

end Delete

/-! ## Loops over the levels -/

/-- A loop whose iteration `i` rewrites the links of level `i`, from what they were
before the loop, to `new q i`. -/
theorem forRange_levels {b : Nat → Heap (SkipListNode α β) → Option (Heap (SkipListNode α β))}
    (new : Ptr → Nat → Option SkipListLevel) (h0 : Heap (SkipListNode α β)) (a n : ℕ)
    (hbody : ∀ i h, a ≤ i → i < a + n → SameNodes h0 h →
      (∀ q, getLevel h q i = getLevel h0 q i) →
      ∃ h', b i h = some h' ∧ SameNodes h h' ∧
        ∀ q j, getLevel h' q j = if j = i then new q i else getLevel h q j) :
    ∃ h', forRange b a n h0 = some h' ∧ SameNodes h0 h' ∧
      ∀ q j, getLevel h' q j = if a ≤ j ∧ j < a + n then new q j else getLevel h0 q j := by
  refine forRange_invariant (fun i h => SameNodes h0 h ∧
    ∀ q j, getLevel h q j = if a ≤ j ∧ j < i then new q j else getLevel h0 q j) n a h0
    ⟨SameNodes.refl h0, fun q j => by rw [if_neg (by omega)]⟩ ?_
  rintro i h hai hin ⟨hsame, hlev⟩
  obtain ⟨h', hb, hsame', hlev'⟩ := hbody i h hai hin hsame
    (fun q => by rw [hlev, if_neg (by omega)])
  refine ⟨h', hb, hsame.trans hsame', fun q j => ?_⟩
  rw [hlev', hlev]
  by_cases hj : j = i
  · subst hj; rw [if_pos rfl, if_pos (by omega)]
  · rw [if_neg hj]
    by_cases hlt : a ≤ j ∧ j < i
    · rw [if_pos hlt, if_pos (by omega)]
    · rw [if_neg hlt, if_neg (by omega)]

end LibC
